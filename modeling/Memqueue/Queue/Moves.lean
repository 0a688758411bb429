import Memqueue.Queue.Effects

/-! The elementary moves every handler and every cleaner pass is made of.
An invariant is checked against each move once; the traces of moves are found in `Traces`. -/
namespace Memqueue
open Ins Fallible Expiry

/-- Elementary moves by name. A move touches one queue, message, consumer or poller. -/
inductive Atom where
  | newCli (timeout : Int)
  | putQueue (args : CreateArgs)
  | create (q : Ptr) (msecs : Int) (data : Bytes)
  | join (q : Ptr) (consumerId : Bytes)
  | leave (c : Ptr)
  | touch
  | bind (β : MemqueueBinder)
  | unbindAll (b : Ptr)
  | enqueue (b m : Ptr)
  | unpend (b m : Ptr)
  | expireMsg (m : Ptr)
  | drop (m : Ptr)
  | expireQueue (q : Ptr)
  | release (q : Ptr)
  | suspend (h : Handler)
  | wakeup (h : Handler)
  | serve (b : Ptr)

/-- The state with one more poller. -/
def addCli (s : Ins) (timeout : Int) : Ins :=
  { s with
    clis := Function.update s.clis s.nextCli ⟨timeout,false,[],[]⟩
    nextCli := s.nextCli + 1 }

/-- The state with the index `e`. -/
def setExpiry (s : Ins) (e : Expiry) : Ins := { s with expiry := e }

/-- The state with one more queue, which holds its base reference and is in the store. -/
def addQueue (s : Ins) (args : CreateArgs) : Ins :=
  { s with
    queues := Function.update s.queues s.nextQueue { newQueue args with refCount := 1 }
    nextQueue := s.nextQueue + 1
    queueStore := s.queueStore.insert args.qId s.nextQueue }

/-- The state with the registered consumer's reference taken. -/
def addConsumer (s : Ins) (q : Ptr) (consumerId : Bytes) : Ins :=
  (newConsumer s q consumerId).updQueue q fun x => { x with refCount := x.refCount + 1 }

def suspend (s : Ins) (h : Handler) : Ins := { s with handlers := h :: s.handlers }

/-- The pending messages of `b` go into a response body. -/
def serve (s : Ins) (b : Ptr) : Ins := { s with served := (s.clis b).pendingMsgs ++ s.served }

/-- One pending message of `b` less. -/
def unpend (s : Ins) (b m : Ptr) : Ins :=
  s.updCli b fun x => { x with pendingMsgs := x.pendingMsgs.erase m }

/-- A field that the change of one queue keeps is kept everywhere. -/
theorem queue_field {α : Type} (f : Queue → α) {s s' : Ins} {q p : Ptr} {x : Queue}
    (h : s'.queues = Function.update s.queues p x) (hx : f x = f (s.queues p)) :
    f (s'.queues q) = f (s.queues q) := by
  rw [h]
  by_cases hq : q = p
  · subst hq
    rw [Function.update_self,hx]
  · rw [Function.update_of_ne hq]

section Moves
variable [Rebalance ExpiryNode]

/-- What each move does. Every move that needs a live queue says so. -/
inductive Move (now : Nat) : Atom → Ins → Ins → Prop
  | newCli (s : Ins) (timeout : Int) : Move now (.newCli timeout) s (addCli s timeout)
  | putQueue {s : Ins} {args : CreateArgs} {e : Expiry} :
      s.queueStore.get args.qId = none →
      (0 < args.expiry → objSchedExpire s.expiry now s.nextQueue args.expiry .memqueue = .ok e) →
      (args.expiry = 0 → e = s.expiry) →
      Move now (.putQueue args) s (setExpiry (addQueue s args) e)
  | create {s s' : Ins} {q : Ptr} {msecs : Int} {data : Bytes} :
      (s.queues q).freed = false → q < s.nextQueue → Created now q msecs data s s' →
      Move now (.create q msecs data) s s'
  | join {s : Ins} {q : Ptr} {consumerId : Bytes} {e : Expiry} :
      (s.queues q).freed = false → q < s.nextQueue → (s.queues q).consumers.get consumerId = none →
      objSchedExpire s.expiry now s.nextConsumer (s.queues q).consumerExpiry .consumer = .ok e →
      Move now (.join q consumerId) s (setExpiry (addConsumer s q consumerId) e)
  | leave {s t : Ins} {c : Ptr} :
      c ∈ s.expiry.indexed .consumer →
      Released (s.consumers c).memqueue (setExpiry s (listRemove s.expiry .consumer c)) t →
      Move now (.leave c) s
        (setExpiry (memqueueFreeConsumer t c) (t.expiry.setNode .consumer c none))
  | touch {s : Ins} {e : Expiry} :
      e.Wf NoneExempt → (∀ t o, o ∈ e.indexed t ↔ o ∈ s.expiry.indexed t) →
      Move now .touch s (setExpiry s e)
  | bind {s : Ins} (β : MemqueueBinder) :
      (s.queues β.memqueue).freed = false → β.memqueue < s.nextQueue → β.cliBinder < s.nextCli →
      β.rev ≤ (s.queues β.memqueue).rev ∨ β.rev = -1 →
      Move now (.bind β) s (memqueueBind s β.memqueue β.cliBinder β.rev β.includeConsumers)
  | unbindAll (s : Ins) (b : Ptr) : Move now (.unbindAll b) s (memqueueUnbindAll s b)
  | enqueue {s s' : Ins} {b m : Ptr} :
      b < s.nextCli → m ∈ (s.queues (s.msgs m).memqueue).msgQueue →
      cliBinderEnqueueMsg s b m = .ok s' → Move now (.enqueue b m) s s'
  | unpend {s t : Ins} {b m : Ptr} :
      m ∈ (s.clis b).pendingMsgs → MsgReleased m s t → Move now (.unpend b m) s (unpend t b m)
  | expireMsg {s t : Ins} {m : Ptr} :
      m ∈ s.expiry.indexed .msg → MsgReleased m (setExpiry s (listRemove s.expiry .msg m)) t →
      Move now (.expireMsg m) s (setExpiry t (t.expiry.setNode .msg m none))
  | drop {s t s' : Ins} {m : Ptr} :
      m ∈ (s.queues (s.msgs m).memqueue).msgQueue → memqueueMsgRetain s m = .ok t →
      MsgReleased m t s' → Move now (.drop m) s s'
  | expireQueue {s t : Ins} {q : Ptr} :
      q ∈ s.expiry.indexed .memqueue →
      Released q (setExpiry s (listRemove s.expiry .memqueue q)) t →
      Move now (.expireQueue q) s (setExpiry t (t.expiry.setNode .memqueue q none))
  | release {s s' : Ins} {q : Ptr} : Released q s s' → Move now (.release q) s s'
  | suspend (s : Ins) (h : Handler) : Move now (.suspend h) s (suspend s h)
  | wakeup (s : Ins) (h : Handler) : Move now (.wakeup h) s (wakeHandler s h)
  | serve (s : Ins) (b : Ptr) : Move now (.serve b) s (serve s b)

/-- The objects a move schedules. -/
def Atom.links (s : Ins) : Atom → ObjType → Ptr → Prop
  | .putQueue args, t, o => 0 < args.expiry ∧ t = .memqueue ∧ o = s.nextQueue
  | .create _ msecs _, t, o => 0 < msecs ∧ t = .msg ∧ o = s.nextMsg
  | .join _ _, t, o => t = .consumer ∧ o = s.nextConsumer
  | _, _, _ => False

/-- The objects a move takes out of the index. -/
def Atom.unlinks : Atom → ObjType → Ptr → Prop
  | .leave c, t, o => t = .consumer ∧ o = c
  | .expireMsg m, t, o => t = .msg ∧ o = m
  | .expireQueue q, t, o => t = .memqueue ∧ o = q
  | _, _, _ => False

/-- The next address of each kind of scheduled object. -/
def nextObj (s : Ins) : ObjType → Ptr
  | .msg => s.nextMsg
  | .memqueue => s.nextQueue
  | .consumer => s.nextConsumer

/-- The index is well formed and holds allocated objects only. -/
structure IndexInv (s : Ins) : Prop where
  wf : s.expiry.Wf NoneExempt
  allocated : ∀ t, ∀ o ∈ s.expiry.indexed t, o < nextObj s t

private theorem index_sched {e e' : Expiry} {now obj msecs : Nat} {type : ObjType} {s : Ins}
    (hi : IndexInv s) (he : e = s.expiry) (ho : obj = nextObj s type)
    (h : objSchedExpire e now obj msecs type = .ok e') :
    e'.Wf NoneExempt ∧ ∀ t o, o ∈ e'.indexed t ↔ o ∈ s.expiry.indexed t ∨ t = type ∧ o = obj := by
  subst he ho
  exact objSchedExpire_spec hi.wf (fun hm => absurd (hi.allocated _ _ hm) (lt_irrefl _)) h

/-- What a move does to the index as a set. -/
theorem Move.indexed {now : Nat} {a : Atom} {s s' : Ins} (hi : IndexInv s) (h : Move now a s s') :
    s'.expiry.Wf NoneExempt ∧ ∀ t o, o ∈ s'.expiry.indexed t ↔
      (o ∈ s.expiry.indexed t ∧ ¬ a.unlinks t o) ∨ a.links s t o := by
  have hsame : ∀ e : Expiry, e = s.expiry → e.Wf NoneExempt ∧ ∀ t o, o ∈ e.indexed t ↔
      (o ∈ s.expiry.indexed t ∧ ¬ False) ∨ False := by
    rintro e rfl
    exact ⟨hi.wf,fun t o => by simp⟩
  cases h with
  | newCli => exact hsame _ rfl
  | @putQueue _ args e _ hs hn =>
    by_cases hpos : 0 < args.expiry
    · obtain ⟨hw,hm⟩ := index_sched hi rfl rfl (hs hpos)
      exact ⟨hw,fun t o => by simp [setExpiry,hm,Atom.unlinks,Atom.links,nextObj,hpos]⟩
    · have he : e = s.expiry := hn (by omega)
      subst he
      exact ⟨hi.wf,fun t o => by simp [setExpiry,addQueue,Atom.unlinks,Atom.links,hpos]⟩
  | @create _ _ q msecs data _ _ hc =>
    by_cases hpos : 0 < msecs
    · obtain ⟨hw,hm⟩ := index_sched hi rfl rfl (hc.scheduled hpos)
      exact ⟨hw,fun t o => by simp [hm,Atom.unlinks,Atom.links,nextObj,hpos]⟩
    · rw [hc.unscheduled hpos]
      exact ⟨hi.wf,fun t o => by simp [Atom.unlinks,Atom.links,hpos]⟩
  | join _ _ _ hs =>
    obtain ⟨hw,hm⟩ := index_sched hi rfl rfl hs
    exact ⟨hw,fun t o => by simp [setExpiry,hm,Atom.unlinks,Atom.links,nextObj]⟩
  | leave _ hr =>
    obtain ⟨hw,hm⟩ := unlink_spec hi.wf .consumer _
    simp only [setExpiry,hr.expiry]
    exact ⟨hw,fun t o => by rw [hm]; simp [Atom.unlinks,Atom.links]⟩
  | touch hw hm => exact ⟨hw,fun t o => by simp [setExpiry,hm,Atom.unlinks,Atom.links]⟩
  | bind => exact hsame _ rfl
  | unbindAll => exact hsame _ (memqueueUnbindAll_effect s _).expiry
  | enqueue _ _ he =>
    obtain ⟨_,rfl⟩ := cliBinderEnqueueMsg_effect he
    exact hsame _ rfl
  | unpend _ hr => exact hsame _ hr.expiry
  | expireMsg _ hr =>
    obtain ⟨hw,hm⟩ := unlink_spec hi.wf .msg _
    simp only [setExpiry,hr.expiry]
    exact ⟨hw,fun t o => by rw [hm]; simp [Atom.unlinks,Atom.links]⟩
  | drop _ ht hr =>
    obtain ⟨_,rfl⟩ := memqueueMsgRetain_effect ht
    exact hsame _ hr.expiry
  | expireQueue _ hr =>
    obtain ⟨hw,hm⟩ := unlink_spec hi.wf .memqueue _
    simp only [setExpiry,hr.expiry]
    exact ⟨hw,fun t o => by rw [hm]; simp [Atom.unlinks,Atom.links]⟩
  | release hr => exact hsame _ hr.expiry
  | suspend => exact hsame _ rfl
  | wakeup => exact hsame _ rfl
  | serve => exact hsame _ rfl

theorem Move.indexInv {now : Nat} {a : Atom} {s s' : Ins} (hi : IndexInv s) (h : Move now a s s')
    (hnext : ∀ t, nextObj s t ≤ nextObj s' t) (hlinks : ∀ t o, a.links s t o → o < nextObj s' t) :
    IndexInv s' := by
  obtain ⟨hw,hm⟩ := h.indexed hi
  refine ⟨hw,fun t o ho => ?_⟩
  rcases (hm t o).mp ho with ⟨ho,_⟩ | ho
  · exact lt_of_lt_of_le (hi.allocated t o ho) (hnext t)
  · exact hlinks t o ho

/-- A move that leaves messages, consumers, reference counts and the store alone. -/
structure Quiet (s s' : Ins) : Prop where
  queues : ∀ p, s'.queues p = { s.queues p with memqueueBinders := (s'.queues p).memqueueBinders }
  msgs : s'.msgs = s.msgs
  consumers : s'.consumers = s.consumers
  store : s'.queueStore = s.queueStore
  nextQueue : s'.nextQueue = s.nextQueue
  nextMsg : s'.nextMsg = s.nextMsg
  nextConsumer : s'.nextConsumer = s.nextConsumer
  nextCli : s.nextCli ≤ s'.nextCli
  pending : ∀ b < s.nextCli, (s'.clis b).pendingMsgs = (s.clis b).pendingMsgs
  fresh : ∀ b, s.nextCli ≤ b → (s.clis b).pendingMsgs = [] → (s'.clis b).pendingMsgs = []
  dangling : s'.dangling = s.dangling
  blank : ∀ p, s.nextQueue ≤ p → (s.queues p).memqueueBinders = [] → (s'.queues p).memqueueBinders = []

def Atom.quiet : Atom → Bool
  | .newCli _ | .touch | .bind _ | .unbindAll _ | .suspend _ | .wakeup _ | .serve _ => true
  | _ => false

theorem Move.toQuiet {now : Nat} {a : Atom} {s s' : Ins} (h : Move now a s s') (ha : a.quiet = true) :
    Quiet s s' := by
  cases h with
  | newCli =>
    refine ⟨fun _ => rfl,rfl,rfl,rfl,rfl,rfl,rfl,Nat.le_succ _,fun b hb => ?_,fun b _ hp => ?_,rfl,
      fun _ _ h => h⟩
    · simp [addCli,Nat.ne_of_lt hb]
    · by_cases hb : b = s.nextCli
      · subst hb
        simp [addCli]
      · simpa [addCli,hb] using hp
  | bind β _ hq =>
    refine ⟨fun p => ?_,rfl,rfl,rfl,rfl,rfl,rfl,le_rfl,fun b _ => ?_,fun b _ hp => ?_,rfl,fun p hp hn => ?_⟩
    · by_cases hp : p = β.memqueue
      · subst hp
        simp [memqueueBind,updQueue,updCli]
      · simp [memqueueBind,updQueue,updCli,hp]
    · by_cases hb : b = β.cliBinder
      · subst hb
        simp [memqueueBind,updQueue,updCli]
      · simp [memqueueBind,updQueue,updCli,hb]
    · by_cases hb : b = β.cliBinder
      · subst hb
        simpa [memqueueBind,updQueue,updCli] using hp
      · simpa [memqueueBind,updQueue,updCli,hb] using hp
    · have hne : p ≠ β.memqueue := fun he => absurd hq (Nat.not_lt.mpr (he ▸ hp))
      simpa [memqueueBind,updQueue,updCli,hne] using hn
  | @unbindAll _ b =>
    have hu := memqueueUnbindAll_effect s b
    have hp : ∀ p, ((memqueueUnbindAll s b).clis p).pendingMsgs = (s.clis p).pendingMsgs := by
      intro p
      rw [hu.clis]
      by_cases hb : p = b
      · subst hb
        simp
      · simp [hb]
    refine ⟨fun p => ?_,hu.msgs,hu.consumers,hu.store,hu.frame.nextQueue,hu.nextMsg,
      hu.frame.nextConsumer,hu.frame.nextCli.ge,fun b _ => hp b,fun b _ h => (hp b).trans h,hu.dangling,
      fun p _ hn => ?_⟩
    · rw [hu.queues p]
    · rw [hu.queues p]
      simp [hn]
  | touch =>
    exact ⟨fun _ => rfl,rfl,rfl,rfl,rfl,rfl,rfl,le_rfl,fun _ _ => rfl,fun _ _ h => h,rfl,fun _ _ h => h⟩
  | suspend =>
    exact ⟨fun _ => rfl,rfl,rfl,rfl,rfl,rfl,rfl,le_rfl,fun _ _ => rfl,fun _ _ h => h,rfl,fun _ _ h => h⟩
  | wakeup =>
    exact ⟨fun _ => rfl,rfl,rfl,rfl,rfl,rfl,rfl,le_rfl,fun _ _ => rfl,fun _ _ h => h,rfl,fun _ _ h => h⟩
  | serve =>
    exact ⟨fun _ => rfl,rfl,rfl,rfl,rfl,rfl,rfl,le_rfl,fun _ _ => rfl,fun _ _ h => h,rfl,fun _ _ h => h⟩
  | putQueue | create | join | leave | enqueue | unpend | expireMsg | drop | expireQueue | release =>
    cases ha

/-- A message that loses `k` references, its queue losing as many: it leaves the list when none is left. -/
structure MsgLost (k : Int) (m : Ptr) (s s' : Ins) : Prop where
  live : (s.queues (s.msgs m).memqueue).freed = false
  posMsg : k ≤ (s.msgs m).refCount
  pos : k ≤ (s.queues (s.msgs m).memqueue).refCount
  msgs : s'.msgs = Function.update s.msgs m { s.msgs m with
    new := false, refCount := (s.msgs m).refCount - k
    freed := (s.msgs m).freed || decide ((s.msgs m).refCount = k) }
  queues : s'.queues = Function.update s.queues (s.msgs m).memqueue { s.queues (s.msgs m).memqueue with
    refCount := (s.queues (s.msgs m).memqueue).refCount - k
    msgQueue := if (s.msgs m).refCount = k then (s.queues (s.msgs m).memqueue).msgQueue.erase m
      else (s.queues (s.msgs m).memqueue).msgQueue
    msgsInQueue := if (s.msgs m).refCount = k then (s.queues (s.msgs m).memqueue).msgsInQueue - 1
      else (s.queues (s.msgs m).memqueue).msgsInQueue
    freed := decide ((s.queues (s.msgs m).memqueue).refCount = k) }
  nextMsg : s'.nextMsg = s.nextMsg
  frame : SameFrame s s'
  consumers : SameConsumers s s'
  store : s'.queueStore = if (s.queues (s.msgs m).memqueue).refCount = k then
    s.queueStore.remove (s.queues (s.msgs m).memqueue).qId else s.queueStore

omit [Rebalance ExpiryNode] in
private theorem MsgReleased.queues_eq {m : Ptr} {s s' : Ins} (h : MsgReleased m s s') :
    s'.queues = Function.update s.queues (s.msgs m).memqueue { s.queues (s.msgs m).memqueue with
      refCount := (s.queues (s.msgs m).memqueue).refCount - 1
      msgQueue := if (s.msgs m).refCount = 1 then (s.queues (s.msgs m).memqueue).msgQueue.erase m
        else (s.queues (s.msgs m).memqueue).msgQueue
      msgsInQueue := if (s.msgs m).refCount = 1 then (s.queues (s.msgs m).memqueue).msgsInQueue - 1
        else (s.queues (s.msgs m).memqueue).msgsInQueue
      freed := decide ((s.queues (s.msgs m).memqueue).refCount = 1) } := by
  rw [h.queues]
  by_cases h1 : (s.msgs m).refCount = 1
  · simp [unlinkLast,h1,updQueue]
  · simp [unlinkLast,h1]

omit [Rebalance ExpiryNode] in
private theorem MsgReleased.lost {m : Ptr} {s s' : Ins} (h : MsgReleased m s s') : MsgLost 1 m s s' :=
  ⟨h.live,h.posMsg,h.pos,h.msgs,h.queues_eq,h.nextMsg,h.frame,h.consumers,h.store⟩

theorem Move.unpend_lost {now : Nat} {b m : Ptr} {s s' : Ins} (h : Move now (.unpend b m) s s') :
    MsgLost 1 m s s' ∧ m ∈ (s.clis b).pendingMsgs ∧ s'.clis = Function.update s.clis b
      { s.clis b with pendingMsgs := (s.clis b).pendingMsgs.erase m } := by
  cases h with
  | unpend hm hr =>
    have hl := hr.lost
    refine ⟨⟨hl.live,hl.posMsg,hl.pos,hl.msgs,hl.queues,hl.nextMsg,
      ⟨hl.frame.1,hl.frame.2,hl.frame.3,hl.frame.4,hl.frame.5⟩,hl.consumers,hl.store⟩,hm,?_⟩
    simp [Memqueue.unpend,updCli,hr.clis]

theorem Move.expireMsg_lost {now : Nat} {m : Ptr} {s s' : Ins} (h : Move now (.expireMsg m) s s') :
    MsgLost 1 m s s' ∧ m ∈ s.expiry.indexed .msg ∧ s'.clis = s.clis := by
  cases h with
  | expireMsg hm hr =>
    have hl := hr.lost
    exact ⟨⟨hl.live,hl.posMsg,hl.pos,hl.msgs,hl.queues,hl.nextMsg,
      ⟨hl.frame.1,hl.frame.2,hl.frame.3,hl.frame.4,hl.frame.5⟩,hl.consumers,hl.store⟩,hm,hr.clis⟩

theorem Move.drop_lost {now : Nat} {m : Ptr} {s s' : Ins} (h : Move now (.drop m) s s') :
    MsgLost 0 m s s' ∧ m ∈ (s.queues (s.msgs m).memqueue).msgQueue ∧ s'.clis = s.clis := by
  cases h with
  | drop hm ht hr =>
    obtain ⟨hf,rfl⟩ := memqueueMsgRetain_effect ht
    have hl := hr.lost
    obtain ⟨h₁,h₂,h₃,h₄,h₅,h₆,h₇,h₈,h₉⟩ := hl
    simp only [updQueue,updMsg,Function.update_self] at h₁ h₂ h₃ h₄ h₅ h₉
    have hone : ∀ x : Int, x + 1 = 1 ↔ x = 0 := fun x => by omega
    refine ⟨⟨hf,by omega,by omega,?_,?_,h₆,⟨h₇.1,h₇.2,h₇.3,h₇.4,h₇.5⟩,h₈,?_⟩,hm,hr.clis⟩
    · rw [h₄]
      simp [hone]
    · rw [h₅]
      simp [hone]
    · rw [h₉]
      simp [hone]

/-- A queue that loses one reference, freed when it was the last. -/
structure QueueLost (q : Ptr) (s s' : Ins) : Prop where
  live : (s.queues q).freed = false
  pos : 1 ≤ (s.queues q).refCount
  queues : s'.queues = Function.update s.queues q { s.queues q with
    refCount := (s.queues q).refCount - 1, freed := decide ((s.queues q).refCount = 1) }
  msgs : s'.msgs = s.msgs
  nextMsg : s'.nextMsg = s.nextMsg
  clis : s'.clis = s.clis
  frame : SameFrame s s'
  consumers : SameConsumers s s'
  store : s'.queueStore = if (s.queues q).refCount = 1 then
    s.queueStore.remove (s.queues q).qId else s.queueStore

theorem Move.release_lost {now : Nat} {q : Ptr} {s s' : Ins} (h : Move now (.release q) s s') :
    QueueLost q s s' := by
  cases h with
  | release hr =>
    exact ⟨hr.live,hr.pos,hr.queues,hr.msgs,hr.nextMsg,hr.clis,hr.frame,hr.consumers,hr.store⟩

theorem Move.expireQueue_lost {now : Nat} {q : Ptr} {s s' : Ins} (h : Move now (.expireQueue q) s s') :
    QueueLost q s s' ∧ q ∈ s.expiry.indexed .memqueue := by
  cases h with
  | expireQueue hm hr =>
    exact ⟨⟨hr.live,hr.pos,hr.queues,hr.msgs,hr.nextMsg,hr.clis,
      ⟨hr.frame.1,hr.frame.2,hr.frame.3,hr.frame.4,hr.frame.5⟩,hr.consumers,hr.store⟩,hm⟩

/-- A registered consumer that leaves with its reference. -/
structure ConsumerLost (c : Ptr) (s s' : Ins) : Prop where
  live : (s.queues (s.consumers c).memqueue).freed = false
  pos : 1 ≤ (s.queues (s.consumers c).memqueue).refCount
  queues : s'.queues = Function.update s.queues (s.consumers c).memqueue
    { s.queues (s.consumers c).memqueue with
      refCount := (s.queues (s.consumers c).memqueue).refCount - 1
      freed := decide ((s.queues (s.consumers c).memqueue).refCount = 1)
      consumers := (s.queues (s.consumers c).memqueue).consumers.remove (s.consumers c).consumerId }
  msgs : s'.msgs = s.msgs
  nextMsg : s'.nextMsg = s.nextMsg
  clis : s'.clis = s.clis
  frame : SameFrame s s'
  consumers : SameConsumers s s'
  store : s'.queueStore = if (s.queues (s.consumers c).memqueue).refCount = 1 then
    s.queueStore.remove (s.queues (s.consumers c).memqueue).qId else s.queueStore

theorem Move.leave_lost {now : Nat} {c : Ptr} {s s' : Ins} (h : Move now (.leave c) s s') :
    ConsumerLost c s s' ∧ c ∈ s.expiry.indexed .consumer := by
  cases h with
  | @leave _ t _ hm hr =>
    have hc := hr.consumers c
    simp only [setExpiry] at hc
    refine ⟨⟨hr.live,hr.pos,?_,hr.msgs,hr.nextMsg,hr.clis,
      ⟨hr.frame.1,hr.frame.2,hr.frame.3,hr.frame.4,hr.frame.5⟩,?_,hr.store⟩,hm⟩
    · simp only [setExpiry,memqueueFreeConsumer,updQueue,updConsumer,hc.1,hc.2.1,hr.queues,
        Function.update_self,Function.update_idem]
      rfl
    · apply SameConsumers.trans hr.consumers
      intro d
      by_cases hd : d = c
      · subst hd
        simp [setExpiry,memqueueFreeConsumer,updQueue,updConsumer]
      · simp [setExpiry,memqueueFreeConsumer,updQueue,updConsumer,hd]

end Moves
end Memqueue
