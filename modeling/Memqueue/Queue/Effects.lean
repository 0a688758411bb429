import Memqueue.Queue.System
import Memqueue.Expiry.Membership

/-! What each function of memqueue.c changes, stated once and field by field.
Later proofs cite these and never unfold a handler again. -/
namespace Memqueue
open Ins Fallible

/-- The parts of the state that no reference-count operation touches. -/
structure SameFrame (s s' : Ins) : Prop where
  handlers : s'.handlers = s.handlers
  served : s'.served = s.served
  nextQueue : s'.nextQueue = s.nextQueue
  nextConsumer : s'.nextConsumer = s.nextConsumer
  nextCli : s'.nextCli = s.nextCli

theorem SameFrame.refl (s : Ins) : SameFrame s s := ⟨rfl,rfl,rfl,rfl,rfl⟩

theorem SameFrame.trans {s t u : Ins} (h : SameFrame s t) (h' : SameFrame t u) : SameFrame s u :=
  ⟨h'.handlers.trans h.handlers,h'.served.trans h.served,h'.nextQueue.trans h.nextQueue,
    h'.nextConsumer.trans h.nextConsumer,h'.nextCli.trans h.nextCli⟩

/-- Consumer records agree except perhaps for having been freed. -/
def SameConsumers (s s' : Ins) : Prop :=
  ∀ c, (s'.consumers c).memqueue = (s.consumers c).memqueue ∧
    (s'.consumers c).consumerId = (s.consumers c).consumerId ∧
    (s'.consumers c).expiry = (s.consumers c).expiry

theorem SameConsumers.refl (s : Ins) : SameConsumers s s := fun _ => ⟨rfl,rfl,rfl⟩

theorem SameConsumers.trans {s t u : Ins} (h : SameConsumers s t) (h' : SameConsumers t u) :
    SameConsumers s u := fun c =>
  ⟨(h' c).1.trans (h c).1,(h' c).2.1.trans (h c).2.1,(h' c).2.2.trans (h c).2.2⟩

/-- memqueue_release, which frees the queue exactly when it held one reference. -/
structure Released (q : Ptr) (s s' : Ins) : Prop where
  live : (s.queues q).freed = false
  pos : 1 ≤ (s.queues q).refCount
  queues : s'.queues = Function.update s.queues q { s.queues q with
    refCount := (s.queues q).refCount - 1, freed := decide ((s.queues q).refCount = 1) }
  msgs : s'.msgs = s.msgs
  nextMsg : s'.nextMsg = s.nextMsg
  expiry : s'.expiry = s.expiry
  clis : s'.clis = s.clis
  frame : SameFrame s s'
  consumers : SameConsumers s s'
  store : s'.queueStore = if (s.queues q).refCount = 1 then
    s.queueStore.remove (s.queues q).qId else s.queueStore
  dangling : s'.dangling = if (s.queues q).refCount = 1 ∧ s.referenced q = true then
    q :: s.dangling else s.dangling

private theorem freeConsumers_frame (L : Table Bytes Ptr) (s : Ins) :
    let s' := L.foldl (fun s item => s.updConsumer item.2 fun c => { c with freed := true }) s
    s'.queues = s.queues ∧ s'.msgs = s.msgs ∧ s'.nextMsg = s.nextMsg ∧ s'.expiry = s.expiry ∧
    s'.clis = s.clis ∧ SameFrame s s' ∧ SameConsumers s s' ∧ s'.queueStore = s.queueStore ∧
    s'.dangling = s.dangling := by
  induction L generalizing s with
  | nil => exact ⟨rfl,rfl,rfl,rfl,rfl,.refl s,.refl s,rfl,rfl⟩
  | cons e L ih =>
    obtain ⟨h₁,h₂,h₃,h₄,h₅,h₆,h₇,h₈,h₉⟩ := ih (s.updConsumer e.2 fun c => { c with freed := true })
    refine ⟨h₁,h₂,h₃,h₄,h₅,⟨h₆.1,h₆.2,h₆.3,h₆.4,h₆.5⟩,?_,h₈,h₉⟩
    refine SameConsumers.trans ?_ h₇
    intro c
    by_cases hc : c = e.2
    · subst hc
      simp [updConsumer]
    · simp [updConsumer,hc]

/-- Whether a queue is referred to does not depend on counts, flags or message contents. -/
theorem referenced_congr {s s' : Ins} {q : Ptr}
    (hmsgs : (s'.queues q).msgQueue = (s.queues q).msgQueue)
    (hcons : (s'.queues q).consumers = (s.queues q).consumers)
    (hbind : (s'.queues q).memqueueBinders = (s.queues q).memqueueBinders)
    (hexp : ∀ t, s'.expiry.indexed t = s.expiry.indexed t) (hhand : s'.handlers = s.handlers)
    (hcli : ∀ b, .pollWait b ∈ s.handlers ∨ .pollWrite b ∈ s.handlers → s'.clis b = s.clis b)
    (hm : ∀ m, (s'.msgs m).memqueue = (s.msgs m).memqueue)
    (hc : ∀ c, (s'.consumers c).memqueue = (s.consumers c).memqueue) :
    s'.referenced q = s.referenced q := by
  have hsame : ∀ h ∈ s.handlers, s'.uses q h = s.uses q h := by
    intro h hin
    cases h with
    | post p => rfl
    | delete p => rfl
    | pollWait b => simp only [uses,hcli b (.inl hin),hm]
    | pollWrite b => simp only [uses,hcli b (.inr hin),hm]
  have huses : s.handlers.any (s'.uses q) = s.handlers.any (s.uses q) := by
    rw [Bool.eq_iff_iff,List.any_eq_true,List.any_eq_true]
    exact exists_congr fun h => and_congr_right fun hin => by rw [hsame h hin]
  simp only [referenced,hmsgs,hcons,hbind,hexp,hhand,huses,hm,hc]

theorem memqueueRelease_effect {s s' : Ins} {q : Ptr} (h : memqueueRelease s q = .ok s') :
    Released q s s' := by
  simp only [memqueueRelease,Counting.exact_bind] at h
  split at h
  · cases h
  · rename_i hf
    have hf : (s.queues q).freed = false := by simpa using hf
    simp only [updQueue,Function.update_self] at h
    split at h
    · cases h
    · rename_i hneg
      have hone : (s.queues q).refCount - 1 = 0 ↔ (s.queues q).refCount = 1 := by omega
      split at h
      · rename_i hz
        have h1 : (s.queues q).refCount = 1 := hone.mp hz
        cases h
        obtain ⟨h₁,h₂,h₃,h₄,h₅,h₆,h₇,h₈,h₉⟩ := freeConsumers_frame (s.queues q).consumers
          { s with
            queues := Function.update s.queues q { s.queues q with refCount := (s.queues q).refCount - 1 }
            queueStore := s.queueStore.remove (s.queues q).qId
            dangling := if s.referenced q then q :: s.dangling else s.dangling }
        have hr : (s.updQueue q fun x => { x with refCount := x.refCount - 1 }).referenced q =
            s.referenced q := by
          apply referenced_congr <;> simp [updQueue]
        simp only [updQueue] at hr
        refine ⟨hf,by omega,?_,?_,?_,?_,?_,?_,?_,?_,?_⟩
        all_goals simp only [memqueueFree,updQueue,Function.update_self,hr]
        · rw [h₁]
          simp [h1]
        · exact h₂
        · exact h₃
        · exact h₄
        · exact h₅
        · exact ⟨h₆.1,h₆.2,h₆.3,h₆.4,h₆.5⟩
        · exact h₇
        · rw [h₈]
          simp [h1]
        · rw [h₉]
          simp [h1]
      · rename_i hz
        have h1 : (s.queues q).refCount ≠ 1 := fun he => hz (hone.mpr he)
        cases h
        refine ⟨hf,by omega,?_,rfl,rfl,rfl,rfl,⟨rfl,rfl,rfl,rfl,rfl⟩,.refl s,?_,?_⟩
        · simp [h1,hf]
        · simp [h1]
        · simp [h1]

/-- A release fails only on a freed queue or on one without a reference. -/
theorem memqueueRelease_fault {s : Ins} {q : Ptr} {f : Fault} (h : memqueueRelease s q = .error f) :
    (s.queues q).freed = true ∨ (s.queues q).refCount < 1 := by
  simp only [memqueueRelease,Counting.exact_bind] at h
  split at h
  · rename_i hf
    exact .inl hf
  · simp only [updQueue,Function.update_self] at h
    split at h
    · exact .inr (by omega)
    · split at h <;> cases h

theorem memqueueRetain_effect {s s' : Ins} {q : Ptr} (h : memqueueRetain s q = .ok s') :
    (s.queues q).freed = false ∧
    s' = s.updQueue q fun x => { x with refCount := x.refCount + 1 } := by
  simp only [memqueueRetain,Counting.exact_bind] at h
  split at h
  · cases h
  · rename_i hf
    cases h
    exact ⟨by simpa using hf,rfl⟩

theorem memqueueRetain_fault {s : Ins} {q : Ptr} {f : Fault} (h : memqueueRetain s q = .error f) :
    (s.queues q).freed = true := by
  simp only [memqueueRetain,Counting.exact_bind] at h
  split at h
  · assumption
  · cases h

/-- The message leaves its queue when this is its last reference. -/
def unlinkLast (s : Ins) (m : Ptr) : Ins :=
  if (s.msgs m).refCount = 1 then
    s.updQueue (s.msgs m).memqueue fun x =>
      { x with msgQueue := x.msgQueue.erase m, msgsInQueue := x.msgsInQueue - 1 }
  else s

/-- memqueue_msg_release -/
structure MsgReleased (m : Ptr) (s s' : Ins) : Prop where
  live : (s.queues (s.msgs m).memqueue).freed = false
  posMsg : 1 ≤ (s.msgs m).refCount
  pos : 1 ≤ (s.queues (s.msgs m).memqueue).refCount
  msgs : s'.msgs = Function.update s.msgs m { s.msgs m with
    new := false, refCount := (s.msgs m).refCount - 1
    freed := (s.msgs m).freed || decide ((s.msgs m).refCount = 1) }
  queues : s'.queues = Function.update (unlinkLast s m).queues (s.msgs m).memqueue
    { (unlinkLast s m).queues (s.msgs m).memqueue with
      refCount := (s.queues (s.msgs m).memqueue).refCount - 1
      freed := decide ((s.queues (s.msgs m).memqueue).refCount = 1) }
  nextMsg : s'.nextMsg = s.nextMsg
  expiry : s'.expiry = s.expiry
  clis : s'.clis = s.clis
  frame : SameFrame s s'
  consumers : SameConsumers s s'
  store : s'.queueStore = if (s.queues (s.msgs m).memqueue).refCount = 1 then
    s.queueStore.remove (s.queues (s.msgs m).memqueue).qId else s.queueStore
  dangling : s'.dangling = if (s.queues (s.msgs m).memqueue).refCount = 1 ∧
    (unlinkLast s m).referenced (s.msgs m).memqueue = true then
    (s.msgs m).memqueue :: s.dangling else s.dangling

theorem memqueueMsgRelease_effect {s s' : Ins} {m : Ptr} (h : memqueueMsgRelease s m = .ok s') :
    MsgReleased m s s' := by
  simp only [memqueueMsgRelease,Counting.exact_bind,updMsg,Function.update_self] at h
  split at h
  · cases h
  · rename_i hneg
    split at h
    · rename_i hz
      have h1 : (s.msgs m).refCount = 1 := by omega
      obtain ⟨s₂,h₂,h₃⟩ := bind_ok h
      cases h₃
      have hr := memqueueRelease_effect h₂
      have hlive := hr.live
      have hpos := hr.pos
      have hq := hr.queues
      have hd := hr.dangling
      have hst := hr.store
      rw [referenced_congr (s := unlinkLast s m) (by simp [unlinkLast,h1,updQueue])
        (by simp [unlinkLast,h1,updQueue]) (by simp [unlinkLast,h1,updQueue])
        (by simp [unlinkLast,h1,updQueue]) (by simp [unlinkLast,h1,updQueue])
        (by simp [unlinkLast,h1,updQueue])
        (by intro x; by_cases hx : x = m <;> simp [unlinkLast,h1,updQueue,hx])
        (by intro c; simp [unlinkLast,h1,updQueue])] at hd
      simp only [updQueue,Function.update_self] at hlive hpos hq hd hst
      refine ⟨hlive,by omega,hpos,?_,?_,hr.nextMsg,hr.expiry,hr.clis,
        ⟨hr.frame.1,hr.frame.2,hr.frame.3,hr.frame.4,hr.frame.5⟩,hr.consumers,hst,hd⟩
      · simp [memqueueMsgFree,updMsg,hr.msgs,updQueue,h1]
      · simp [memqueueMsgFree,updMsg,hq,unlinkLast,h1,updQueue]
    · rename_i hz
      have h1 : (s.msgs m).refCount ≠ 1 := by omega
      have hr := memqueueRelease_effect h
      have hd := hr.dangling
      rw [referenced_congr (s := unlinkLast s m) (by simp [unlinkLast,h1])
        (by simp [unlinkLast,h1]) (by simp [unlinkLast,h1]) (by simp [unlinkLast,h1])
        (by simp [unlinkLast,h1]) (by simp [unlinkLast,h1])
        (by intro x; by_cases hx : x = m <;> simp [unlinkLast,h1,hx])
        (by intro c; simp [unlinkLast,h1])] at hd
      refine ⟨hr.live,by omega,hr.pos,?_,?_,hr.nextMsg,hr.expiry,hr.clis,
        ⟨hr.frame.1,hr.frame.2,hr.frame.3,hr.frame.4,hr.frame.5⟩,hr.consumers,hr.store,hd⟩
      · simp [hr.msgs,h1]
      · simp [hr.queues,unlinkLast,h1]

theorem memqueueMsgRelease_fault {s : Ins} {m : Ptr} {f : Fault} (h : memqueueMsgRelease s m = .error f) :
    (s.msgs m).refCount < 1 ∨ (s.queues (s.msgs m).memqueue).freed = true ∨
    (s.queues (s.msgs m).memqueue).refCount < 1 := by
  simp only [memqueueMsgRelease,Counting.exact_bind,updMsg,Function.update_self] at h
  split at h
  · exact .inl (by omega)
  · split at h
    · cases hx : memqueueRelease _ _ with
      | ok s₂ => rw [hx] at h; cases h
      | error g =>
        have := memqueueRelease_fault hx
        simp only [updQueue,Function.update_self] at this
        exact .inr this
    · have := memqueueRelease_fault h
      exact .inr this

theorem memqueueMsgRetain_effect {s s' : Ins} {m : Ptr} (h : memqueueMsgRetain s m = .ok s') :
    (s.queues (s.msgs m).memqueue).freed = false ∧
    s' = (s.updMsg m fun x => { x with refCount := x.refCount + 1 }).updQueue (s.msgs m).memqueue
      fun x => { x with refCount := x.refCount + 1 } :=
  memqueueRetain_effect h

theorem cliBinderEnqueueMsg_effect {s s' : Ins} {b m : Ptr} (h : cliBinderEnqueueMsg s b m = .ok s') :
    (s.queues (s.msgs m).memqueue).freed = false ∧
    s' = ((s.updCli b fun x => { x with pendingMsgs := x.pendingMsgs ++ [m] }).updMsg m
      fun x => { x with refCount := x.refCount + 1 }).updQueue (s.msgs m).memqueue
      fun x => { x with refCount := x.refCount + 1 } :=
  memqueueMsgRetain_effect h

theorem cliBinderEnqueueMsg_fault {s : Ins} {b m : Ptr} {f : Fault}
    (h : cliBinderEnqueueMsg s b m = .error f) : (s.queues (s.msgs m).memqueue).freed = true := by
  have := memqueueRetain_fault h
  exact this

/-- How many of the binders take a message of revision `r`. -/
def pushCount (L : List MemqueueBinder) (r : Int) : Nat := L.countP fun β => β.rev ≤ r

/-- How many of those belong to the poller `b`. -/
def pushCountTo (L : List MemqueueBinder) (r : Int) (b : Ptr) : Nat :=
  L.countP fun β => β.rev ≤ r ∧ β.cliBinder = b

/-- The loop of memqueue_msg_create over the binders `L`. -/
structure Pushed (m : Ptr) (L : List MemqueueBinder) (s s' : Ins) : Prop where
  live : 0 < pushCount L (s.queues (s.msgs m).memqueue).rev → (s.queues (s.msgs m).memqueue).freed = false
  msgs : s'.msgs = Function.update s.msgs m { s.msgs m with
    refCount := (s.msgs m).refCount + pushCount L (s.queues (s.msgs m).memqueue).rev }
  queues : s'.queues = Function.update s.queues (s.msgs m).memqueue { s.queues (s.msgs m).memqueue with
    refCount := (s.queues (s.msgs m).memqueue).refCount + pushCount L (s.queues (s.msgs m).memqueue).rev }
  pending : ∀ b, (s'.clis b).pendingMsgs = (s.clis b).pendingMsgs ++
    List.replicate (pushCountTo L (s.queues (s.msgs m).memqueue).rev b) m
  memqueues : ∀ b, (s'.clis b).memqueues = (s.clis b).memqueues
  signalled : ∀ b, (s'.clis b).signalled = ((s.clis b).signalled ||
    decide (0 < pushCountTo L (s.queues (s.msgs m).memqueue).rev b ∧ .pollWait b ∈ s.handlers))
  nextMsg : s'.nextMsg = s.nextMsg
  expiry : s'.expiry = s.expiry
  store : s'.queueStore = s.queueStore
  consumers : s'.consumers = s.consumers
  dangling : s'.dangling = s.dangling
  frame : SameFrame s s'

private theorem pushed_nil (m : Ptr) (s : Ins) : Pushed m [] s s where
  live h := by simp [pushCount] at h
  msgs := by simp [pushCount]
  queues := by simp [pushCount]
  pending b := by simp [pushCountTo]
  memqueues _ := rfl
  signalled b := by simp [pushCountTo]
  nextMsg := rfl
  expiry := rfl
  store := rfl
  consumers := rfl
  dangling := rfl
  frame := .refl s

private theorem cliWakeup_frame (s : Ins) (b : Ptr) :
    (cliWakeup s b).msgs = s.msgs ∧ (cliWakeup s b).queues = s.queues ∧
    (∀ p, ((cliWakeup s b).clis p).pendingMsgs = (s.clis p).pendingMsgs ∧
      ((cliWakeup s b).clis p).memqueues = (s.clis p).memqueues ∧
      ((cliWakeup s b).clis p).signalled =
        ((s.clis p).signalled || decide (p = b ∧ .pollWait b ∈ s.handlers))) ∧
    (cliWakeup s b).nextMsg = s.nextMsg ∧ (cliWakeup s b).expiry = s.expiry ∧
    (cliWakeup s b).queueStore = s.queueStore ∧ (cliWakeup s b).consumers = s.consumers ∧
    (cliWakeup s b).dangling = s.dangling ∧ SameFrame s (cliWakeup s b) := by
  unfold cliWakeup
  split
  · rename_i hw
    refine ⟨rfl,rfl,?_,rfl,rfl,rfl,rfl,rfl,⟨rfl,rfl,rfl,rfl,rfl⟩⟩
    intro p
    by_cases hp : p = b
    · subst hp
      simp [updCli,hw]
    · simp [updCli,hp]
  · rename_i hw
    exact ⟨rfl,rfl,fun p => by simp [hw],rfl,rfl,rfl,rfl,rfl,.refl s⟩

private theorem pushed_single {m : Ptr} {β : MemqueueBinder} {s s' : Ins}
    (h : pushMsg m s β = .ok s') : Pushed m [β] s s' := by
  simp only [pushMsg] at h
  split at h
  · rename_i hrev
    obtain ⟨s₀,h₀,h₁⟩ := bind_ok h
    cases h₁
    obtain ⟨hlive,hs₀⟩ := cliBinderEnqueueMsg_effect h₀
    obtain ⟨w₁,w₂,w₃,w₄,w₅,w₆,w₇,w₈,w₉⟩ := cliWakeup_frame s₀ β.cliBinder
    have hh : s₀.handlers = s.handlers := by rw [hs₀]; rfl
    have hc : pushCount [β] (s.queues (s.msgs m).memqueue).rev = 1 := by simp [pushCount,hrev]
    refine ⟨fun _ => hlive,?_,?_,?_,?_,?_,by rw [w₄,hs₀]; rfl,by rw [w₅,hs₀]; rfl,by rw [w₆,hs₀]; rfl,
      by rw [w₇,hs₀]; rfl,by rw [w₈,hs₀]; rfl,
      SameFrame.trans (by rw [hs₀]; exact ⟨rfl,rfl,rfl,rfl,rfl⟩) w₉⟩
    · rw [w₁,hc,hs₀]
      rfl
    · rw [w₂,hc,hs₀]
      rfl
    · intro b
      rw [(w₃ b).1,hs₀]
      by_cases hb : b = β.cliBinder
      · subst hb
        simp [updQueue,updMsg,updCli,pushCountTo,hrev]
      · have hb' : β.cliBinder ≠ b := fun he => hb he.symm
        simp [updQueue,updMsg,updCli,pushCountTo,hb,hb']
    · intro b
      rw [(w₃ b).2.1,hs₀]
      by_cases hb : b = β.cliBinder
      · subst hb
        simp [updQueue,updMsg,updCli]
      · simp [updQueue,updMsg,updCli,hb]
    · intro b
      rw [(w₃ b).2.2,hh,hs₀]
      by_cases hb : b = β.cliBinder
      · subst hb
        simp [updQueue,updMsg,updCli,pushCountTo,hrev]
      · have hb' : β.cliBinder ≠ b := fun he => hb he.symm
        simp [updQueue,updMsg,updCli,pushCountTo,hb,hb']
  · rename_i hrev
    cases h
    have hc : pushCount [β] (s.queues (s.msgs m).memqueue).rev = 0 := by simpa [pushCount] using hrev
    have hct : ∀ b, pushCountTo [β] (s.queues (s.msgs m).memqueue).rev b = 0 := by
      intro b
      simp [pushCountTo,hrev]
    exact ⟨fun h => absurd h (by omega),by simp [hc],by simp [hc],fun b => by simp [hct],fun _ => rfl,
      fun b => by simp [hct],rfl,rfl,rfl,rfl,rfl,.refl s⟩

private theorem pushed_append {m : Ptr} {L L' : List MemqueueBinder} {s t u : Ins}
    (h : Pushed m L s t) (h' : Pushed m L' t u) : Pushed m (L ++ L') s u := by
  have hq : (t.msgs m).memqueue = (s.msgs m).memqueue := by rw [h.msgs]; simp
  have hr : (t.queues (s.msgs m).memqueue).rev = (s.queues (s.msgs m).memqueue).rev := by
    rw [h.queues]; simp
  have hf : (t.queues (s.msgs m).memqueue).freed = (s.queues (s.msgs m).memqueue).freed := by
    rw [h.queues]; simp
  have hc : ∀ r, pushCount (L ++ L') r = pushCount L r + pushCount L' r := fun r => by simp [pushCount]
  have hct : ∀ r b, pushCountTo (L ++ L') r b = pushCountTo L r b + pushCountTo L' r b :=
    fun r b => by simp [pushCountTo]
  have hlive' := h'.live
  rw [hq,hr,hf] at hlive'
  refine ⟨?_,?_,?_,?_,fun b => (h'.memqueues b).trans (h.memqueues b),?_,h'.nextMsg.trans h.nextMsg,
    h'.expiry.trans h.expiry,h'.store.trans h.store,h'.consumers.trans h.consumers,
    h'.dangling.trans h.dangling,h.frame.trans h'.frame⟩
  · intro hpos
    rw [hc] at hpos
    by_cases h0 : 0 < pushCount L (s.queues (s.msgs m).memqueue).rev
    · exact h.live h0
    · exact hlive' (by omega)
  · rw [h'.msgs,hq,hr,h.msgs,hc]
    simp [add_assoc]
  · rw [h'.queues,hq,hr,h.queues,hc]
    simp [add_assoc]
  · intro b
    rw [h'.pending b,hq,hr,h.pending b,hct]
    simp
  · intro b
    rw [h'.signalled b,hq,hr,h.signalled b,hct,h.frame.handlers]
    by_cases hw : Handler.pollWait b ∈ s.handlers
    · simp only [hw,and_true,Bool.or_assoc]
      congr 1
      rw [Bool.eq_iff_iff]
      simp only [Bool.or_eq_true,decide_eq_true_eq]
      omega
    · simp [hw]

theorem pushMsg_effect {m : Ptr} : ∀ (L : List MemqueueBinder) {s s' : Ins},
    L.foldlM (pushMsg m) s = .ok s' → Pushed m L s s' := by
  intro L
  induction L with
  | nil =>
    intro s s' h
    cases h
    exact pushed_nil m s
  | cons β L ih =>
    intro s s' h
    rw [List.foldlM_cons] at h
    obtain ⟨s₁,h₁,h₂⟩ := bind_ok h
    exact pushed_append (pushed_single h₁) (ih h₂)

theorem pushMsg_fault {m : Ptr} : ∀ (L : List MemqueueBinder) {s : Ins} {f : Fault},
    L.foldlM (pushMsg m) s = .error f → (s.queues (s.msgs m).memqueue).freed = true := by
  intro L
  induction L with
  | nil => intro s f h; cases h
  | cons β L ih =>
    intro s f h
    rw [List.foldlM_cons] at h
    cases hx : pushMsg m s β with
    | error g =>
      simp only [pushMsg] at hx
      split at hx
      · cases hy : cliBinderEnqueueMsg s β.cliBinder m with
        | error k => exact cliBinderEnqueueMsg_fault hy
        | ok s₀ => rw [hy] at hx; cases hx
      · cases hx
    | ok s₁ =>
      rw [hx] at h
      have hf := ih h
      have hp := pushed_single hx
      rw [hp.queues,hp.msgs] at hf
      simpa using hf

/-- memqueue_unbind_all over the binders `L`. -/
structure Unbound (b : Ptr) (L : List MemqueueBinder) (s s' : Ins) : Prop where
  queues : ∀ p, s'.queues p = { s.queues p with
    memqueueBinders := (s.queues p).memqueueBinders.diff (L.filter fun β => β.memqueue = p) }
  clis : s'.clis = Function.update s.clis b { s.clis b with memqueues := (s.clis b).memqueues.diff L }
  msgs : s'.msgs = s.msgs
  nextMsg : s'.nextMsg = s.nextMsg
  expiry : s'.expiry = s.expiry
  store : s'.queueStore = s.queueStore
  consumers : s'.consumers = s.consumers
  dangling : s'.dangling = s.dangling
  frame : SameFrame s s'

theorem unbind_effect (b : Ptr) : ∀ (L : List MemqueueBinder) (s : Ins),
    Unbound b L s (L.foldl (unbind b) s) := by
  intro L
  induction L with
  | nil =>
    intro s
    exact ⟨fun p => by simp,by simp,rfl,rfl,rfl,rfl,rfl,rfl,.refl s⟩
  | cons β L ih =>
    intro s
    have h := ih (unbind b s β)
    refine ⟨fun p => ?_,?_,h.msgs,h.nextMsg,h.expiry,h.store,h.consumers,h.dangling,
      ⟨h.frame.1,h.frame.2,h.frame.3,h.frame.4,h.frame.5⟩⟩
    · rw [List.foldl_cons,h.queues p]
      by_cases hp : p = β.memqueue
      · subst hp
        simp [unbind,updQueue,updCli]
      · have hp' : ¬ β.memqueue = p := fun he => hp he.symm
        simp [unbind,updQueue,updCli,hp,hp']
    · rw [List.foldl_cons,h.clis]
      simp [unbind,updQueue,updCli]

theorem memqueueUnbindAll_effect (s : Ins) (b : Ptr) :
    Unbound b (s.clis b).memqueues s (memqueueUnbindAll s b) :=
  unbind_effect b _ s

/-- The reference a new message starts with: its expiry's, or the permanent one of expiry -1. -/
def initialRef (msecs : Int) : Int := if 0 < msecs ∨ msecs = -1 then 1 else 0

/-- The revision the next message of a queue gets. -/
def nextRev (x : Queue) : Int := wrapInt (x.rev + 1)

private theorem newMsg_msgs (s : Ins) (q : Ptr) (msecs : Int) (data : Bytes) :
    (newMsg s q msecs data).msgs =
      Function.update s.msgs s.nextMsg ⟨data,0,nextRev (s.queues q),true,q,msecs,false⟩ := by
  simp [newMsg,updQueue,nextRev]

private theorem newMsg_queues (s : Ins) (q : Ptr) (msecs : Int) (data : Bytes) :
    (newMsg s q msecs data).queues =
      Function.update s.queues q { s.queues q with rev := nextRev (s.queues q) } := by
  simp [newMsg,updQueue,nextRev]

section Handlers
variable [Rebalance ExpiryNode]

/-- memqueue_msg_create, with the message it made at `s.nextMsg`. -/
structure Created (now : Nat) (q : Ptr) (msecs : Int) (data : Bytes) (s s' : Ins) : Prop where
  live : 0 < initialRef msecs + pushCount (s.queues q).memqueueBinders (nextRev (s.queues q)) →
    (s.queues q).freed = false
  nextMsg : s'.nextMsg = s.nextMsg + 1
  msgs : s'.msgs = Function.update s.msgs s.nextMsg ⟨data,
    initialRef msecs + pushCount (s.queues q).memqueueBinders (nextRev (s.queues q)),
    nextRev (s.queues q),true,q,msecs,false⟩
  queues : s'.queues = Function.update s.queues q { s.queues q with
    rev := nextRev (s.queues q)
    refCount := (s.queues q).refCount +
      (initialRef msecs + pushCount (s.queues q).memqueueBinders (nextRev (s.queues q)))
    msgQueue := (s.queues q).msgQueue ++ [s.nextMsg]
    msgsInQueue := (s.queues q).msgsInQueue + 1 }
  pending : ∀ b, (s'.clis b).pendingMsgs = (s.clis b).pendingMsgs ++ List.replicate
    (pushCountTo (s.queues q).memqueueBinders (nextRev (s.queues q)) b) s.nextMsg
  memqueues : ∀ b, (s'.clis b).memqueues = (s.clis b).memqueues
  signalled : ∀ b, (s'.clis b).signalled = ((s.clis b).signalled || decide
    (0 < pushCountTo (s.queues q).memqueueBinders (nextRev (s.queues q)) b ∧ .pollWait b ∈ s.handlers))
  scheduled : 0 < msecs → objSchedExpire s.expiry now s.nextMsg msecs.toNat .msg = .ok s'.expiry
  unscheduled : ¬ 0 < msecs → s'.expiry = s.expiry
  store : s'.queueStore = s.queueStore
  consumers : s'.consumers = s.consumers
  dangling : s'.dangling = s.dangling
  frame : SameFrame s s'

private theorem created_of_pushed {now : Nat} {q : Ptr} {msecs : Int} {data : Bytes} {s t s' : Ins}
    (h : (t.queues q).memqueueBinders.foldlM (pushMsg s.nextMsg) t = .ok s')
    (hlive : 0 < initialRef msecs → (s.queues q).freed = false)
    (hmsgs : t.msgs = Function.update s.msgs s.nextMsg
      ⟨data,initialRef msecs,nextRev (s.queues q),true,q,msecs,false⟩)
    (hqueues : t.queues = Function.update s.queues q { s.queues q with
      rev := nextRev (s.queues q), refCount := (s.queues q).refCount + initialRef msecs
      msgQueue := (s.queues q).msgQueue ++ [s.nextMsg], msgsInQueue := (s.queues q).msgsInQueue + 1 })
    (hclis : t.clis = s.clis) (hnext : t.nextMsg = s.nextMsg + 1)
    (hsched : 0 < msecs → objSchedExpire s.expiry now s.nextMsg msecs.toNat .msg = .ok t.expiry)
    (hunsched : ¬ 0 < msecs → t.expiry = s.expiry)
    (hstore : t.queueStore = s.queueStore) (hcons : t.consumers = s.consumers)
    (hdang : t.dangling = s.dangling) (hframe : SameFrame s t) :
    Created now q msecs data s s' := by
  have hb : (t.queues q).memqueueBinders = (s.queues q).memqueueBinders := by rw [hqueues]; simp
  rw [hb] at h
  have hp := pushMsg_effect _ h
  have hq : (t.msgs s.nextMsg).memqueue = q := by rw [hmsgs]; simp
  have hr : (t.queues q).rev = nextRev (s.queues q) := by rw [hqueues]; simp
  have hf : (t.queues q).freed = (s.queues q).freed := by rw [hqueues]; simp
  have hplive := hp.live
  rw [hq,hr,hf] at hplive
  refine ⟨?_,by rw [hp.nextMsg,hnext],?_,?_,?_,?_,?_,by rw [hp.expiry]; exact hsched,
    by rw [hp.expiry]; exact hunsched,hp.store.trans hstore,hp.consumers.trans hcons,
    hp.dangling.trans hdang,hframe.trans hp.frame⟩
  · intro hpos
    by_cases h0 : 0 < initialRef msecs
    · exact hlive h0
    · exact hplive (by omega)
  · rw [hp.msgs,hq,hr,hmsgs]
    simp
  · rw [hp.queues,hq,hr,hqueues]
    simp [add_assoc]
  · intro b
    rw [hp.pending b,hq,hr,hclis]
  · intro b
    rw [hp.memqueues b,hclis]
  · intro b
    rw [hp.signalled b,hq,hr,hclis,hframe.handlers]

theorem memqueueMsgCreate_effect {now : Nat} {q : Ptr} {msecs : Int} {data : Bytes} {s s' : Ins}
    (h : memqueueMsgCreate now s q msecs data = .ok s') : Created now q msecs data s s' := by
  simp only [memqueueMsgCreate] at h
  obtain ⟨s₁,h₁,h⟩ := bind_ok h
  obtain ⟨s₂,h₂,h₃⟩ := bind_ok h
  simp only [schedMsg] at h₁
  simp only [keepMsg] at h₂
  by_cases hpos : 0 < msecs
  · rw [if_pos hpos] at h₁
    obtain ⟨e,he,h₁⟩ := bind_ok h₁
    rw [if_neg (by omega)] at h₂
    cases h₂
    obtain ⟨hlive,rfl⟩ := memqueueMsgRetain_effect h₁
    have hi : initialRef msecs = 1 := by simp [initialRef,hpos]
    simp only [newMsg_msgs,newMsg_queues,Function.update_self] at hlive
    refine created_of_pushed h₃ (fun _ => hlive) ?_ ?_ rfl rfl (fun _ => he)
      (fun hn => absurd hpos hn) rfl rfl rfl ⟨rfl,rfl,rfl,rfl,rfl⟩
    · simp [appendMsg,updQueue,updMsg,newMsg_msgs,hi]
    · simp [appendMsg,updQueue,updMsg,newMsg_msgs,newMsg_queues,hi]
  · rw [if_neg hpos] at h₁
    cases h₁
    by_cases hone : msecs = -1
    · rw [if_pos hone] at h₂
      obtain ⟨hlive,rfl⟩ := memqueueMsgRetain_effect h₂
      have hi : initialRef msecs = 1 := by simp [initialRef,hone]
      simp only [newMsg_msgs,newMsg_queues,Function.update_self] at hlive
      refine created_of_pushed h₃ (fun _ => hlive) ?_ ?_ rfl rfl (fun hn => absurd hn hpos)
        (fun _ => rfl) rfl rfl rfl ⟨rfl,rfl,rfl,rfl,rfl⟩
      · simp [appendMsg,updQueue,updMsg,newMsg_msgs,hi]
      · simp [appendMsg,updQueue,updMsg,newMsg_msgs,newMsg_queues,hi]
    · rw [if_neg hone] at h₂
      cases h₂
      have hi : initialRef msecs = 0 := by simp [initialRef,hpos,hone]
      refine created_of_pushed h₃ (fun hn => by omega) ?_ ?_ rfl rfl (fun hn => absurd hn hpos)
        (fun _ => rfl) rfl rfl rfl ⟨rfl,rfl,rfl,rfl,rfl⟩
      · simp [appendMsg,updQueue,newMsg_msgs,hi]
      · simp [appendMsg,updQueue,newMsg_queues,hi]

/-- In a live queue a message can always be created. -/
theorem memqueueMsgCreate_isOk {now : Nat} {q : Ptr} {msecs : Int} {data : Bytes} {s : Ins}
    (hlive : (s.queues q).freed = false) : ∃ s', memqueueMsgCreate now s q msecs data = .ok s' := by
  have hq : ((newMsg s q msecs data).msgs s.nextMsg).memqueue = q := by rw [newMsg_msgs]; simp
  have hf : ((newMsg s q msecs data).queues q).freed = false := by rw [newMsg_queues]; simpa using hlive
  have hretain : ∀ t : Ins, (t.msgs s.nextMsg).memqueue = q → (t.queues q).freed = false →
      ∃ t', memqueueMsgRetain t s.nextMsg = .ok t' ∧ (t'.msgs s.nextMsg).memqueue = q ∧
        (t'.queues q).freed = false := by
    intro t htq htf
    cases hx : memqueueMsgRetain t s.nextMsg with
    | ok t' =>
      obtain ⟨_,rfl⟩ := memqueueMsgRetain_effect hx
      exact ⟨_,rfl,by simpa [updMsg,updQueue] using htq,by simpa [updMsg,updQueue,htq] using htf⟩
    | error f =>
      have := memqueueRetain_fault hx
      simp [updMsg,htq,htf] at this
  have hsched : ∃ s₁, schedMsg now (newMsg s q msecs data) s.nextMsg msecs = .ok s₁ ∧
      (s₁.msgs s.nextMsg).memqueue = q ∧ (s₁.queues q).freed = false := by
    simp only [schedMsg]
    split
    · obtain ⟨e,he⟩ := objSchedExpire_isOk (newMsg s q msecs data).expiry now s.nextMsg msecs.toNat .msg
      rw [he]
      exact hretain { newMsg s q msecs data with expiry := e } hq hf
    · exact ⟨_,rfl,hq,hf⟩
  obtain ⟨s₁,h₁,hq₁,hf₁⟩ := hsched
  have hkeep : ∃ s₂, keepMsg s₁ s.nextMsg msecs = .ok s₂ ∧
      (s₂.msgs s.nextMsg).memqueue = q ∧ (s₂.queues q).freed = false := by
    simp only [keepMsg]
    split
    · exact hretain s₁ hq₁ hf₁
    · exact ⟨_,rfl,hq₁,hf₁⟩
  obtain ⟨s₂,h₂,hq₂,hf₂⟩ := hkeep
  have hrun : memqueueMsgCreate now s q msecs data =
      ((appendMsg s₂ q s.nextMsg).queues q).memqueueBinders.foldlM (pushMsg s.nextMsg)
        (appendMsg s₂ q s.nextMsg) := by
    simp only [memqueueMsgCreate,h₁]
    show (keepMsg s₁ s.nextMsg msecs >>= _) = _
    rw [h₂]
    rfl
  cases hx : ((appendMsg s₂ q s.nextMsg).queues q).memqueueBinders.foldlM (pushMsg s.nextMsg)
      (appendMsg s₂ q s.nextMsg) with
  | ok s' => exact ⟨s',hrun.trans hx⟩
  | error f =>
    have hfault := pushMsg_fault _ hx
    have hq₃ : ((appendMsg s₂ q s.nextMsg).msgs s.nextMsg).memqueue = q := hq₂
    rw [hq₃] at hfault
    simp [appendMsg,updQueue,hf₂] at hfault

theorem memqueueMsgCreate_fault {now : Nat} {q : Ptr} {msecs : Int} {data : Bytes} {s : Ins} {f : Fault}
    (hlive : (s.queues q).freed = false) : memqueueMsgCreate now s q msecs data ≠ .error f := by
  intro h
  obtain ⟨s',hs⟩ : ∃ s', memqueueMsgCreate now s q msecs data = .ok s' := memqueueMsgCreate_isOk hlive
  rw [hs] at h
  cases h

end Handlers
end Memqueue
