import Memqueue.Queue.Store

/-! Every function of memqueue.c as the moves it makes, in order, down to whole steps. -/
namespace Memqueue
open Ins Fallible Expiry

section Functions
variable [Rebalance ExpiryNode] {now : Nat}

theorem memqueueMsgCreate_move {s s' : Ins} {q : Ptr} {msecs : Int} {data : Bytes}
    (hlive : (s.queues q).freed = false) (hq : q < s.nextQueue)
    (h : memqueueMsgCreate now s q msecs data = .ok s') : Move now (.create q msecs data) s s' :=
  .create hlive hq (memqueueMsgCreate_effect h)

theorem resched_move {s : Ins} {e : Expiry} {type : ObjType} {o expiry : Nat} (hb : Base s)
    (h : resched s.expiry now o expiry type = .ok e) : Move now .touch s { s with expiry := e } := by
  obtain ⟨hw,hm⟩ := resched_spec hb.index.wf h
  exact Move.touch hw hm

/-- The three ways is_memqueue_full can end. -/
theorem isMemqueueFull_cases (now : Nat) {s s' : Ins} {q : Ptr} {full : Bool} (hb : Base s)
    (h : isMemqueueFull s q = .ok (s',full)) :
    (full = false ∧ s' = s ∧ ((s.queues q).maxSize ≤ 0 ∨ (s.queues q).msgsInQueue < (s.queues q).maxSize)) ∨
    (full = true ∧ s' = s ∧ 0 < (s.queues q).maxSize ∧ (s.queues q).maxSize ≤ (s.queues q).msgsInQueue ∧
      (s.queues q).dropFromHead = 0) ∨
    (full = false ∧ 0 < (s.queues q).maxSize ∧ (s.queues q).maxSize ≤ (s.queues q).msgsInQueue ∧
      (s.queues q).dropFromHead ≠ 0 ∧ ∃ m ms, (s.queues q).msgQueue = m :: ms ∧ Move now (.drop m) s s') := by
  simp only [isMemqueueFull] at h
  split at h
  · rename_i hmax
    cases h
    exact .inl ⟨rfl,rfl,.inl hmax⟩
  · rename_i hmax
    split at h
    · rename_i hroom
      cases h
      exact .inl ⟨rfl,rfl,.inr (by omega)⟩
    · rename_i hroom
      split at h
      · rename_i hdrop
        split at h
        · cases h
        · rename_i m ms hms
          obtain ⟨t,ht,h⟩ := bind_ok h
          obtain ⟨u,hu,h⟩ := bind_ok h
          cases h
          have hm : m ∈ (s.queues q).msgQueue := by simp [hms]
          have hown := (hb.listed q m hm).2
          exact .inr (.inr ⟨rfl,by omega,by omega,hdrop.2.2,m,ms,hms,
            .drop (by rw [hown]; exact hm) ht (memqueueMsgRelease_effect hu)⟩)
      · rename_i hdrop
        cases h
        refine .inr (.inl ⟨rfl,rfl,by omega,by omega,?_⟩)
        by_contra hd
        exact hdrop ⟨by omega,by omega,hd⟩

/-- Registering a consumer: the notice first, then the consumer itself. The code fills the table
before the notice, which does not look at it. -/
private theorem join_moves {s t : Ins} {q : Ptr} {id : Bytes} {e : Expiry}
    (hnone : (s.queues q).consumers.get id = none) (hq : q < s.nextQueue)
    (hlive : (s.queues q).freed = false) {msecs : Int} {data : Bytes}
    (hc : Created now q msecs data (newConsumer s q id) t)
    (hs : objSchedExpire t.expiry now s.nextConsumer (t.queues q).consumerExpiry .consumer = .ok e) :
    ∃ u, Move now (.create q msecs data) s u ∧ Move now (.join q id) u
      (setExpiry (t.updQueue q fun x => { x with refCount := x.refCount + 1 }) e) := by
  have hcons : (t.queues q).consumers = (s.queues q).consumers.insert id s.nextConsumer := by
    rw [hc.queues]
    simp [newConsumer,updQueue]
  have hbind : ((newConsumer s q id).queues q).memqueueBinders = (s.queues q).memqueueBinders := by
    simp [newConsumer,updQueue]
  have hrev : nextRev ((newConsumer s q id).queues q) = nextRev (s.queues q) := by
    simp [newConsumer,updQueue,nextRev]
  let u : Ins := { t with
    queues := Function.update t.queues q { t.queues q with consumers := (s.queues q).consumers }
    consumers := s.consumers
    nextConsumer := s.nextConsumer }
  have hu : Created now q msecs data s u := by
    refine ⟨fun _ => hlive,hc.nextMsg,?_,?_,?_,hc.memqueues,?_,hc.scheduled,hc.unscheduled,hc.store,rfl,
      hc.dangling,⟨hc.frame.1,hc.frame.2,hc.frame.3,rfl,hc.frame.5⟩⟩
    · show t.msgs = _
      rw [hc.msgs,hbind,hrev]
      rfl
    · show Function.update t.queues q _ = _
      rw [hc.queues,hbind,hrev]
      simp [newConsumer,updQueue]
    · intro b
      show (t.clis b).pendingMsgs = _
      rw [hc.pending b,hbind,hrev]
      rfl
    · intro b
      show (t.clis b).signalled = _
      rw [hc.signalled b,hbind,hrev]
      rfl
  refine ⟨u,.create hlive hq hu,?_⟩
  have hself : u.queues q = { t.queues q with consumers := (s.queues q).consumers } := by simp [u]
  have hj : Move now (.join q id) u (setExpiry (addConsumer u q id) e) := by
    refine .join ?_ ?_ ?_ ?_
    · rw [hself]
      show (t.queues q).freed = false
      rw [hc.queues]
      simpa [newConsumer,updQueue] using hlive
    · exact lt_of_lt_of_eq hq hc.frame.nextQueue.symm
    · rw [hself]
      exact hnone
    · rw [hself]
      exact hs
  have heq : addConsumer u q id = t.updQueue q fun x => { x with refCount := x.refCount + 1 } := by
    have hce : (t.queues q).consumerExpiry = (s.queues q).consumerExpiry := by
      rw [hc.queues]
      simp [newConsumer,updQueue]
    have h₁ : Function.update s.consumers s.nextConsumer ⟨id,(t.queues q).consumerExpiry,q,false⟩ =
        t.consumers := by
      rw [hc.consumers,hce]
      rfl
    have h₂ : s.nextConsumer + 1 = t.nextConsumer := hc.frame.nextConsumer.symm
    simp only [addConsumer,newConsumer,updQueue,u,Function.update_self,Function.update_idem,h₁,h₂,← hcons]
  rw [heq] at hj
  exact hj

/-- The two ways memqueue_refresh_consumer can end. -/
theorem memqueueRefreshConsumer_cases {s s' : Ins} {q : Ptr} {id : Bytes} (hb : Base s)
    (hlive : (s.queues q).freed = false) (hq : q < s.nextQueue)
    (h : memqueueRefreshConsumer now s q id = .ok s') :
    ((∃ c, (s.queues q).consumers.get id = some c ∧
      ∃ e, consumerResched s.expiry now c (s.consumers c).expiry = .ok e ∧ s' = { s with expiry := e }) ∧
      Move now .touch s s') ∨
    ((s.queues q).consumers.get id = none ∧ ∃ t, Move now (.create q 2000 (id ++ joined)) s t ∧
      Move now (.join q id) t s') := by
  simp only [memqueueRefreshConsumer] at h
  split at h
  · rename_i c hc
    obtain ⟨e,he,h⟩ := bind_ok h
    cases h
    exact .inl ⟨⟨c,hc,e,he,rfl⟩,resched_move hb he⟩
  · rename_i hnone
    obtain ⟨t,ht,h⟩ := bind_ok h
    obtain ⟨u,hu,h⟩ := bind_ok h
    obtain ⟨e,he,h⟩ := bind_ok h
    cases h
    obtain ⟨_,rfl⟩ := memqueueRetain_effect hu
    refine .inr ⟨hnone,join_moves hnone hq hlive (memqueueMsgCreate_effect ht) ?_⟩
    simpa [updQueue] using he

/-- memqueue_refresh_consumer as the poll loop calls it, or not called at all. -/
theorem pollRefresh_cases {s s' : Ins} {q : Ptr} {a : QueueArg} (hb : Base s)
    (hlive : (s.queues q).freed = false) (hq : q < s.nextQueue) (h : pollRefresh now s q a = .ok s') :
    s' = s ∨ ∃ id, a.consumerId = some id ∧ (s.queues q).consumerExpiry ≠ 0 ∧
      (((∃ c, (s.queues q).consumers.get id = some c ∧
        ∃ e, consumerResched s.expiry now c (s.consumers c).expiry = .ok e ∧ s' = { s with expiry := e }) ∧
        Move now .touch s s') ∨
      ((s.queues q).consumers.get id = none ∧ ∃ t, Move now (.create q 2000 (id ++ joined)) s t ∧
        Move now (.join q id) t s')) := by
  simp only [pollRefresh] at h
  split at h
  · rename_i id hid
    split at h
    · rename_i hce
      exact .inr ⟨id,hid,hce,memqueueRefreshConsumer_cases hb hlive hq h⟩
    · cases h
      exact .inl rfl
  · cases h
    exact .inl rfl

/-- The test of cli_binder_enqueue_msgs. -/
def wanted (s : Ins) (rev latest : Int) (m : Ptr) : Bool :=
  decide (rev < (s.msgs m).rev ∨ (latest ≠ 0 ∧ (s.msgs m).new = true))

omit [Rebalance ExpiryNode] in
private theorem enqueue_frame {s s' : Ins} {b m : Ptr} (h : cliBinderEnqueueMsg s b m = .ok s') :
    (∀ p, (s'.msgs p).rev = (s.msgs p).rev ∧ (s'.msgs p).new = (s.msgs p).new ∧
      (s'.msgs p).memqueue = (s.msgs p).memqueue) ∧
    (∀ q, (s'.queues q).msgQueue = (s.queues q).msgQueue) ∧ s'.nextCli = s.nextCli := by
  obtain ⟨_,rfl⟩ := cliBinderEnqueueMsg_effect h
  refine ⟨fun p => ?_,fun q => ?_,rfl⟩
  · by_cases hp : p = m
    · subst hp
      simp [updQueue,updMsg,updCli]
    · simp [updQueue,updMsg,updCli,hp]
  · by_cases hq : q = (s.msgs m).memqueue
    · subst hq
      simp [updQueue,updMsg,updCli]
    · simp [updQueue,updMsg,updCli,hq]

/-- The scan enqueues exactly the messages it wants, in list order. -/
private theorem enqueueMatching_trace {b : Ptr} {rev latest : Int} : ∀ (L : List Ptr) {s s' : Ins} {n n' : Nat},
    b < s.nextCli → (∀ m ∈ L, m ∈ (s.queues (s.msgs m).memqueue).msgQueue) →
    L.foldlM (enqueueMatching b rev latest) (s,n) = .ok (s',n') →
    Trace (Move now) ((L.filter (wanted s rev latest)).map (.enqueue b)) s s' ∧
      n' = n + (L.filter (wanted s rev latest)).length := by
  intro L
  induction L with
  | nil =>
    intro s s' n n' _ _ h
    cases h
    exact ⟨.nil s,rfl⟩
  | cons m L ih =>
    intro s s' n n' hb hL h
    rw [List.foldlM_cons] at h
    obtain ⟨⟨t,k⟩,ht,h⟩ := bind_ok h
    simp only [enqueueMatching] at ht
    split at ht
    · rename_i hw
      obtain ⟨u,hu,ht⟩ := bind_ok ht
      cases ht
      have hmove : Move now (.enqueue b m) s t := .enqueue hb (hL m List.mem_cons_self) hu
      obtain ⟨hmsg,hqueue,hnext⟩ := enqueue_frame hu
      have hwant : wanted t rev latest = wanted s rev latest := by
        funext p
        simp only [wanted,(hmsg p).1,(hmsg p).2.1]
      obtain ⟨h₁,h₂⟩ := ih (hnext.symm ▸ hb) (fun p hp => by
        rw [(hmsg p).2.2,hqueue]
        exact hL p (List.mem_cons_of_mem _ hp)) h
      rw [hwant] at h₁ h₂
      have hw' : wanted s rev latest m = true := by simpa [wanted] using hw
      rw [List.filter_cons_of_pos hw',List.map_cons,List.length_cons]
      exact ⟨.cons hmove h₁,by omega⟩
    · rename_i hw
      cases ht
      have hw' : wanted s rev latest m = false := by simpa [wanted] using hw
      obtain ⟨h₁,h₂⟩ := ih hb (fun p hp => hL p (List.mem_cons_of_mem _ hp)) h
      rw [List.filter_cons_of_neg (by simp [hw'])]
      exact ⟨h₁,h₂⟩

theorem expireObj_msg {s s' : Ins} {m : Ptr} (hm : m ∈ s.expiry.indexed .msg)
    (h : expireObj (expiryHost now) .msg s m = .ok s') : Move now (.expireMsg m) s s' := by
  obtain ⟨t,ht,h⟩ := bind_ok h
  cases h
  exact .expireMsg hm (memqueueMsgRelease_effect ht)

theorem expireObj_memqueue {s s' : Ins} {q : Ptr} (hq : q ∈ s.expiry.indexed .memqueue)
    (h : expireObj (expiryHost now) .memqueue s q = .ok s') : Move now (.expireQueue q) s s' := by
  obtain ⟨t,ht,h⟩ := bind_ok h
  cases h
  exact .expireQueue hq (memqueueRelease_effect ht)

/-- An expiring consumer: the notice first, then the consumer leaves. The code unlinks it before
the notice, whose scheduling does not look at the consumer tree. -/
theorem expireObj_consumer {s s' : Ins} {c : Ptr} (hb : Base s) (hc : c ∈ s.expiry.indexed .consumer)
    (h : expireObj (expiryHost now) .consumer s c = .ok s') :
    ∃ t, Move now (.create (s.consumers c).memqueue 2000 ((s.consumers c).consumerId ++ expired)) s t ∧
      Move now (.leave c) t s' := by
  obtain ⟨v,hv,h⟩ := bind_ok h
  cases h
  obtain ⟨u,hu,hv⟩ := bind_ok hv
  obtain ⟨w,hw,hv⟩ := bind_ok hv
  cases hv
  have hcr := memqueueMsgCreate_effect hu
  have hlive : (s.queues (s.consumers c).memqueue).freed = false := by
    refine hcr.live ?_
    simp only [initialRef]
    omega
  have hq := hb.consumerOwner c (hb.index.allocated .consumer c hc)
  obtain ⟨e,he⟩ := objSchedExpire_isOk s.expiry now s.nextMsg (2000 : Int).toNat .msg
  have hue : u.expiry = listRemove e .consumer c := by
    have h₁ := hcr.scheduled (by omega)
    have h₂ := objSchedExpire_listRemove (o := c) (by decide : ObjType.consumer ≠ .msg) he
    exact (Except.ok.inj (h₂.symm.trans h₁)).symm
  refine ⟨setExpiry u e,.create hlive hq ?_,?_⟩
  · exact ⟨fun _ => hlive,hcr.nextMsg,hcr.msgs,hcr.queues,hcr.pending,hcr.memqueues,hcr.signalled,
      fun _ => he,fun hn => absurd (by omega) hn,hcr.store,hcr.consumers,hcr.dangling,
      ⟨hcr.frame.1,hcr.frame.2,hcr.frame.3,hcr.frame.4,hcr.frame.5⟩⟩
  · have hback : setExpiry (setExpiry u e) (listRemove (setExpiry u e).expiry .consumer c) = u := by
      show setExpiry (setExpiry u e) (listRemove e .consumer c) = u
      rw [← hue]
      rfl
    have hcons : (setExpiry u e).consumers = s.consumers := hcr.consumers
    refine .leave (t := w) ?_ ?_
    · show c ∈ e.indexed .consumer
      rw [Expiry.indexed,(objSchedExpire_root_ne (by decide : ObjType.consumer ≠ .msg) he).1]
      exact hc
    · rw [hback,hcons]
      exact memqueueRelease_effect hw

/-- The moves that may free a queue. -/
def Atom.frees : Atom → Bool
  | .leave _ | .unpend _ _ | .expireMsg _ | .drop _ | .expireQueue _ | .release _ => true
  | _ => false

theorem Move.freed_eq {a : Atom} {s s' : Ins} (h : Move now a s s') (ha : a.frees = false) {q : Ptr}
    (hq : q < s.nextQueue) : (s'.queues q).freed = (s.queues q).freed := by
  cases a with
  | newCli | touch | bind | unbindAll | suspend | wakeup | serve => rw [(h.toQuiet rfl).queues q]
  | putQueue args =>
    cases h
    simp [setExpiry,addQueue,Nat.ne_of_lt hq]
  | create p msecs data =>
    cases h with
    | create _ _ hc =>
      rw [hc.queues]
      by_cases hp : q = p
      · subst hp
        simp
      · simp [hp]
  | join p id =>
    cases h
    by_cases hp : q = p
    · subst hp
      simp [setExpiry,addConsumer,newConsumer,updQueue]
    · simp [setExpiry,addConsumer,newConsumer,updQueue,hp]
  | enqueue b m =>
    cases h with
    | enqueue _ _ he =>
      obtain ⟨_,rfl⟩ := cliBinderEnqueueMsg_effect he
      by_cases hp : q = (s.msgs m).memqueue
      · subst hp
        simp [updQueue,updMsg,updCli]
      · simp [updQueue,updMsg,updCli,hp]
  | leave | unpend | expireMsg | drop | expireQueue | release => cases ha

theorem trace_base {as : List Atom} {s s' : Ins} (h : Trace (Move now) as s s') (hb : Base s) : Base s' :=
  h.invariant (fun _ _ _ _ hb hm => hm.base hb) hb

/-- An invariant of the moves of a trace may rest on `Base`. -/
theorem trace_invariant {as : List Atom} {s s' : Ins} (h : Trace (Move now) as s s') (I : Ins → Prop)
    (hmove : ∀ a t u, Base t → a ∈ as → I t → Move now a t u → I u) (hb : Base s) (hs : I s) : I s' :=
  (h.invariant (I := fun t => Base t ∧ I t)
    (fun a t u ha hi hm => ⟨hm.base hi.1,hmove a t u hi.1 ha hi.2 hm⟩) ⟨hb,hs⟩).2

/-- Dropping the head of a list never takes the last reference of its queue. -/
theorem Move.drop_live {s s' : Ins} {m q : Ptr} (h : Move now (.drop m) s s') (hi : StoreInv s)
    (hq : q < s.nextQueue) (hlive : (s.queues q).freed = false) : (s'.queues q).freed = false := by
  obtain ⟨hl,_⟩ := h.drop_lost
  rw [hl.queues]
  by_cases hp : q = (s.msgs m).memqueue
  · subst hp
    have := hi.positive _ hq hlive
    simp only [Function.update_self,decide_eq_false_iff_not]
    omega
  · rw [Function.update_of_ne hp]
    exact hlive

/-- memqueue_refresh_consumer as a trace of moves none of which frees anything. -/
theorem pollRefresh_trace {s s' : Ins} {q : Ptr} {a : QueueArg} (hb : Base s)
    (hlive : (s.queues q).freed = false) (hq : q < s.nextQueue) (h : pollRefresh now s q a = .ok s') :
    ∃ as, Trace (Move now) as s s' ∧ ∀ x ∈ as, x = .touch ∨
      ∃ id, (a.consumerId = some id ∧ (s.queues q).consumerExpiry ≠ 0 ∧ (s.queues q).consumers.get id = none) ∧
        (x = .create q 2000 (id ++ joined) ∨ x = .join q id) := by
  rcases pollRefresh_cases hb hlive hq h with rfl | ⟨id,hid,hce,⟨_,hm⟩ | ⟨hnone,t,hc,hj⟩⟩
  · exact ⟨[],.nil _,fun x hx => by cases hx⟩
  · exact ⟨[.touch],.single hm,fun x hx => .inl (List.mem_singleton.mp hx)⟩
  · refine ⟨[.create q 2000 (id ++ joined),.join q id],.cons hc (.single hj),
      fun x hx => .inr ⟨id,⟨hid,hce,hnone⟩,?_⟩⟩
    simpa using hx

theorem pollRefresh_keeps {s s' : Ins} {q : Ptr} {a : QueueArg} (hb : Base s)
    (hlive : (s.queues q).freed = false) (hq : q < s.nextQueue) (h : pollRefresh now s q a = .ok s') :
    (s'.queues q).freed = false ∧ q < s'.nextQueue ∧ s.nextCli ≤ s'.nextCli := by
  obtain ⟨as,ht,ha⟩ := pollRefresh_trace hb hlive hq h
  refine ht.invariant (I := fun t => (t.queues q).freed = false ∧ q < t.nextQueue ∧ s.nextCli ≤ t.nextCli)
    ?_ ⟨hlive,hq,le_rfl⟩
  rintro x t u hx ⟨hf,hlt,hle⟩ hm
  have hx' : x.frees = false := by
    rcases ha x hx with rfl | ⟨_,_,rfl | rfl⟩ <;> rfl
  obtain ⟨_,hn,_,hc⟩ := hm.next_le
  exact ⟨(hm.freed_eq hx' hlt).trans hf,lt_of_lt_of_le hlt hn,hle.trans hc⟩

/-- One queue of a poll, after its consumer was refreshed: reschedule, bind, scan. -/
theorem pollFound_cases {s s' : Ins} {b q : Ptr} {a : QueueArg} {n : Nat} (hb : Base s)
    (hlive : (s.queues q).freed = false) (hq : q < s.nextQueue) (hcli : b < s.nextCli)
    (h : pollFound now b a s q = .ok (s',n)) :
    ∃ s₁, pollRefresh now s q a = .ok s₁ ∧ Trace (Move now)
      (.touch :: .bind ⟨pollRev s₁ q a,q,b,a.includeConsumers⟩ ::
        ((s₁.queues q).msgQueue.filter (wanted s₁ (pollRev s₁ q a) a.latest)).map (.enqueue b)) s₁ s' ∧
      n = ((s₁.queues q).msgQueue.filter (wanted s₁ (pollRev s₁ q a) a.latest)).length := by
  simp only [pollFound] at h
  obtain ⟨s₁,h₁,h⟩ := bind_ok h
  obtain ⟨e,he,h⟩ := bind_ok h
  obtain ⟨as,ht,_⟩ := pollRefresh_trace hb hlive hq h₁
  have hb₁ := trace_base ht hb
  obtain ⟨hlive₁,hq₁,hcli₁⟩ := pollRefresh_keeps hb hlive hq h₁
  have htouch : Move now .touch s₁ { s₁ with expiry := e } := resched_move hb₁ he
  have hbind : Move now (.bind ⟨pollRev s₁ q a,q,b,a.includeConsumers⟩) { s₁ with expiry := e }
      (memqueueBind { s₁ with expiry := e } q b (pollRev s₁ q a) a.includeConsumers) :=
    .bind (s := { s₁ with expiry := e }) ⟨pollRev s₁ q a,q,b,a.includeConsumers⟩ hlive₁ hq₁
      (lt_of_lt_of_le hcli hcli₁) (by simp only [pollRev]; split <;> omega)
  have hlist : ((memqueueBind { s₁ with expiry := e } q b (pollRev s₁ q a) a.includeConsumers).queues q).msgQueue =
      (s₁.queues q).msgQueue := by
    simp [memqueueBind,updQueue,updCli]
  have hscan := h
  simp only [cliBinderEnqueueMsgs] at hscan
  rw [show pollRev { s₁ with expiry := e } q a = pollRev s₁ q a from rfl,hlist] at hscan
  have hown : ∀ m ∈ (s₁.queues q).msgQueue,
      m ∈ ((memqueueBind { s₁ with expiry := e } q b (pollRev s₁ q a) a.includeConsumers).queues
        (s₁.msgs m).memqueue).msgQueue := by
    intro m hm
    rw [(hb₁.listed q m hm).2,hlist]
    exact hm
  obtain ⟨h₂,h₃⟩ := enqueueMatching_trace _
    (s := memqueueBind { s₁ with expiry := e } q b (pollRev s₁ q a) a.includeConsumers)
    (lt_of_lt_of_le hcli hcli₁) hown hscan
  exact ⟨s₁,h₁,.cons htouch (.cons hbind h₂),h₃.trans (Nat.zero_add _)⟩

/-- One turn of the poll loop. -/
theorem pollQueueArg_cases {b : Ptr} {acc acc' : PollAcc} {a : QueueArg}
    (h : pollQueueArg now b acc a = .ok acc') :
    ∃ qId, a.qId = some qId ∧ ((acc.1.queueStore.get qId = none ∧ acc' = acc) ∨
      ∃ q n, acc.1.queueStore.get qId = some q ∧ pollFound now b a acc.1 q = .ok (acc'.1,n) ∧
        acc'.2 = (acc.2.1 + n,acc.2.2 + 1)) := by
  simp only [pollQueueArg] at h
  split at h
  · cases h
  · rename_i qId hid
    refine ⟨qId,hid,?_⟩
    split at h
    · rename_i hnone
      cases h
      exact .inl ⟨hnone,rfl⟩
    · rename_i q hq
      obtain ⟨⟨s,n⟩,hf,h⟩ := bind_ok h
      cases h
      exact .inr ⟨q,n,hq,hf,rfl⟩

/-- The poll entry `a` names `q` and registers a new consumer with it. -/
def Ins.joins (s : Ins) (a : QueueArg) (q : Ptr) : Prop :=
  a.qId.bind s.queueStore.get = some q ∧ (s.queues q).consumerExpiry ≠ 0 ∧
    ∃ id ∈ a.consumerId, (s.queues q).consumers.get id = none

instance (s : Ins) (a : QueueArg) (q : Ptr) : Decidable (s.joins a q) :=
  inferInstanceAs (Decidable (_ ∧ _ ∧ ∃ id ∈ a.consumerId, _))

/-- The moves of the loop of a poll by `b`. -/
def loopAllows (s : Ins) (args : List QueueArg) (b : Ptr) : Atom → Prop
  | .touch => True
  | .create q msecs _ => msecs = 2000 ∧ ∃ a ∈ args, s.joins a q
  | .join q _ => ∃ a ∈ args, s.joins a q
  | .bind β => β.cliBinder = b
  | .enqueue p _ => p = b
  | _ => False

/-- The moves of a poll by the new poller `b`, up to its response. -/
def pollAllows (s : Ins) (args : List QueueArg) (b : Ptr) : Atom → Prop
  | .newCli _ => True
  | .serve p => p = b
  | .suspend h => h = .pollWait b ∨ h = .pollWrite b
  | a => loopAllows s args b a

omit [Rebalance ExpiryNode] in
private theorem pollAllows_of_loop {s : Ins} {args : List QueueArg} {b : Ptr} {a : Atom}
    (h : loopAllows s args b a) : pollAllows s args b a := by
  cases a with
  | newCli => trivial
  | serve => exact h.elim
  | suspend => exact h.elim
  | _ => exact h

theorem pollFound_trace {s₀ s s' : Ins} {args : List QueueArg} {b q : Ptr} {a : QueueArg} {n : Nat} (hb : Base s)
    (hlive : (s.queues q).freed = false) (hq : q < s.nextQueue) (hcli : b < s.nextCli)
    (hjoin : ∀ id, a.consumerId = some id → (s.queues q).consumerExpiry ≠ 0 →
      (s.queues q).consumers.get id = none → ∃ a ∈ args, s₀.joins a q)
    (h : pollFound now b a s q = .ok (s',n)) :
    ∃ as, Trace (Move now) as s s' ∧ ∀ x ∈ as, loopAllows s₀ args b x := by
  obtain ⟨s₁,h₁,ht,_⟩ := pollFound_cases hb hlive hq hcli h
  obtain ⟨as,has,ha⟩ := pollRefresh_trace hb hlive hq h₁
  refine ⟨_,has.append ht,fun x hx => ?_⟩
  rcases List.mem_append.mp hx with hx | hx
  · rcases ha x hx with rfl | ⟨id,⟨hid,hce,hnone⟩,rfl | rfl⟩
    · trivial
    · exact ⟨rfl,hjoin id hid hce hnone⟩
    · exact hjoin id hid hce hnone
  · rcases List.mem_cons.mp hx with rfl | hx
    · trivial
    · rcases List.mem_cons.mp hx with rfl | hx
      · rfl
      · obtain ⟨m,_,rfl⟩ := List.mem_map.mp hx
        rfl

/-- The store stays and consumers only come during the loop of a poll. -/
structure Grown (s t : Ins) : Prop where
  store : t.queueStore = s.queueStore
  next : s.nextQueue ≤ t.nextQueue
  expiry : ∀ q < s.nextQueue, (t.queues q).consumerExpiry = (s.queues q).consumerExpiry
  consumers : ∀ q < s.nextQueue, ∀ id, (t.queues q).consumers.get id = none → (s.queues q).consumers.get id = none

omit [Rebalance ExpiryNode] in
theorem Grown.refl (s : Ins) : Grown s s := ⟨rfl,le_rfl,fun _ _ => rfl,fun _ _ _ hn => hn⟩

omit [Rebalance ExpiryNode] in
/-- The poll entry registers a consumer in the state the loop has reached only if it did so at the start. -/
theorem Grown.joins {s t : Ins} {a : QueueArg} {q : Ptr} {k id : Bytes} (h : Grown s t) (hb : Base s)
    (hk : a.qId = some k) (hget : t.queueStore.get k = some q) (hid : a.consumerId = some id)
    (hce : (t.queues q).consumerExpiry ≠ 0) (hnone : (t.queues q).consumers.get id = none) : s.joins a q := by
  rw [h.store] at hget
  obtain ⟨hq,_⟩ := hb.store.get_iff.mp hget
  exact ⟨by rw [hk]; exact hget,h.expiry q hq ▸ hce,id,hid,h.consumers q hq id hnone⟩

theorem Grown.move {s t u : Ins} {args : List QueueArg} {b : Ptr} {s₀ : Ins} {x : Atom} (h : Grown s t)
    (hm : Move now x t u) (hx : loopAllows s₀ args b x) : Grown s u := by
  have hexp : ∀ q < s.nextQueue, (u.queues q).consumerExpiry = (s.queues q).consumerExpiry :=
    fun q hq => (hm.sameQueue (lt_of_lt_of_le hq h.next)).consumerExpiry.trans (h.expiry q hq)
  have hkeep : u.queueStore = t.queueStore → (∀ q, (u.queues q).consumers = (t.queues q).consumers) → Grown s u :=
    fun hs hc => ⟨hs.trans h.store,h.next.trans hm.next_le.2.1,hexp,
      fun q hq id hn => h.consumers q hq id (by rw [← hc q]; exact hn)⟩
  cases x with
  | touch | bind =>
    have hquiet := hm.toQuiet rfl
    exact hkeep hquiet.store fun q => by rw [hquiet.queues q]
  | create p msecs data =>
    cases hm with
    | create _ _ hc => exact hkeep hc.store fun q => queue_field (·.consumers) hc.queues rfl
  | enqueue c m =>
    cases hm with
    | enqueue _ _ he =>
      obtain ⟨_,rfl⟩ := cliBinderEnqueueMsg_effect he
      exact hkeep rfl fun q => queue_field (·.consumers) rfl rfl
  | join p id =>
    cases hm
    refine ⟨h.store,h.next,hexp,fun q hq k hn => h.consumers q hq k ?_⟩
    by_cases hp : q = p
    · subst hp
      have hn' : Table.get ((t.queues q).consumers.insert id t.nextConsumer) k = none := by
        simpa [setExpiry,addConsumer,newConsumer,updQueue] using hn
      exact Table.get_none_of_insert hn'
    · simpa [setExpiry,addConsumer,newConsumer,updQueue,hp] using hn
  | _ => exact hx.elim

theorem pollLoop_trace {b : Ptr} {args : List QueueArg} {s : Ins} {acc' : PollAcc} {i j : Nat} (hb : Base s)
    (hcli : b < s.nextCli) (h : args.foldlM (pollQueueArg now b) (s,i,j) = .ok acc') :
    ∃ as, Trace (Move now) as s acc'.1 ∧ ∀ x ∈ as, loopAllows s args b x := by
  have hloop := foldlM_result (fun rest (acc : PollAcc) => (∀ a ∈ rest, a ∈ args) ∧ Base acc.1 ∧ b < acc.1.nextCli ∧
    Grown s acc.1 ∧ ∃ as, Trace (Move now) as s acc.1 ∧ ∀ x ∈ as, loopAllows s args b x) ?_
    ⟨fun _ ha => ha,hb,hcli,.refl s,[],.nil s,fun x hx => by cases hx⟩ h
  · exact hloop.2.2.2.2
  · rintro a rest acc acc₁ ⟨hrest,hb₀,hcli₀,hg,as,has,ha⟩ ht
    have hrest' : ∀ x ∈ rest, x ∈ args := fun x hx => hrest x (List.mem_cons_of_mem _ hx)
    obtain ⟨qId,hid,⟨_,rfl⟩ | ⟨q,n,hget,hf,_⟩⟩ := pollQueueArg_cases ht
    · exact ⟨hrest',hb₀,hcli₀,hg,as,has,ha⟩
    · obtain ⟨hq,hlive,_⟩ := hb₀.store.get_iff.mp hget
      obtain ⟨bs,hbs,hba⟩ := pollFound_trace hb₀ hlive hq hcli₀ (fun id hc hce hnone =>
        ⟨a,hrest a List.mem_cons_self,hg.joins hb hid hget hc hce hnone⟩) hf
      have hcli₁ : b < acc₁.1.nextCli :=
        hbs.invariant (fun _ _ _ _ hlt hm => lt_of_lt_of_le hlt hm.next_le.2.2.2) hcli₀
      have hg₁ : Grown s acc₁.1 := hbs.invariant (fun x _ _ hx hg hm => hg.move hm (hba x hx)) hg
      refine ⟨hrest',trace_base hbs hb₀,hcli₁,hg₁,as ++ bs,has.append hbs,fun x hx => ?_⟩
      rcases List.mem_append.mp hx with hx | hx
      · exact ha x hx
      · exact hba x hx

/-- The end of a poll: the response is built and its write begins. -/
theorem pollRespond_trace (now : Nat) (s : Ins) (b : Ptr) :
    ∃ as, Trace (Move now) as s (pollRespond s b).1 ∧ ∀ x ∈ as, x = .serve b ∨ x = .suspend (.pollWrite b) := by
  simp only [pollRespond]
  split
  · exact ⟨[.suspend (.pollWrite b)],.single (.suspend s _),fun x hx => .inr (List.mem_singleton.mp hx)⟩
  · exact ⟨[.serve b,.suspend (.pollWrite b)],.cons (.serve s b) (.single (.suspend _ _)),
      fun x hx => by simpa using hx⟩

/-- The three ways a poll can end. -/
theorem memqueuePollQueue_cases {s s' : Ins} {args : PollArgs} {out : Option Response}
    (h : memqueuePollQueue now s args = .ok (s',out)) :
    ∃ t i j, args.queueArgs.foldlM (pollQueueArg now s.nextCli) (addCli s args.timeout,0,0) = .ok (t,i,j) ∧
      ((j = 0 ∧ s' = t) ∨ (i = 0 ∧ s' = suspend t (.pollWait s.nextCli) ∧ out = none) ∨
        (i ≠ 0 ∧ (s',out) = pollRespond t s.nextCli)) := by
  simp only [memqueuePollQueue] at h
  obtain ⟨⟨t,i,j⟩,ht,h⟩ := bind_ok h
  refine ⟨t,i,j,ht,?_⟩
  dsimp only at h
  split at h
  · rename_i hj
    cases h
    exact .inl ⟨hj,rfl⟩
  · split at h
    · rename_i hi
      cases h
      exact .inr (.inl ⟨hi,rfl,rfl⟩)
    · rename_i hi
      exact .inr (.inr ⟨hi,(Except.ok.inj h).symm⟩)

theorem memqueuePollQueue_trace {s s' : Ins} {args : PollArgs} {out : Option Response} (hb : Base s)
    (h : memqueuePollQueue now s args = .ok (s',out)) :
    ∃ as, Trace (Move now) as s s' ∧ ∀ x ∈ as, pollAllows s args.queueArgs s.nextCli x := by
  obtain ⟨t,i,j,ht,hend⟩ := memqueuePollQueue_cases h
  have hnew : Move now (.newCli args.timeout) s (addCli s args.timeout) := .newCli s args.timeout
  obtain ⟨as,has,ha⟩ := pollLoop_trace (hnew.base hb) (Nat.lt_succ_self _) ht
  have hpre : Trace (Move now) (.newCli args.timeout :: as) s t := .cons hnew has
  have hpa : ∀ x ∈ Atom.newCli args.timeout :: as, pollAllows s args.queueArgs s.nextCli x := by
    intro x hx
    rcases List.mem_cons.mp hx with rfl | hx
    · trivial
    · exact pollAllows_of_loop (ha x hx)
  have hext : ∀ {bs : List Atom} {u : Ins}, Trace (Move now) bs t u →
      (∀ x ∈ bs, pollAllows s args.queueArgs s.nextCli x) →
      ∃ as, Trace (Move now) as s u ∧ ∀ x ∈ as, pollAllows s args.queueArgs s.nextCli x := by
    intro bs u hbs hba
    refine ⟨_,hpre.append hbs,fun x hx => ?_⟩
    rcases List.mem_append.mp hx with hx | hx
    · exact hpa x hx
    · exact hba x hx
  rcases hend with ⟨_,rfl⟩ | ⟨_,rfl,_⟩ | ⟨_,he⟩
  · exact ⟨_,hpre,hpa⟩
  · refine hext (.single (.suspend t _)) fun x hx => ?_
    rw [List.mem_singleton.mp hx]
    exact .inl rfl
  · obtain ⟨bs,hbs,hba⟩ := pollRespond_trace now t s.nextCli
    rw [← he] at hbs
    refine hext hbs fun x hx => ?_
    rcases hba x hx with rfl | rfl
    · rfl
    · exact .inr rfl

/-- The release loop of a finished poller: one `unpend` for each pending message, in order. -/
theorem releasePending_trace {b : Ptr} : ∀ (L : List Ptr) {s s' : Ins}, (s.clis b).pendingMsgs = L →
    L.foldlM (releasePending b) s = .ok s' → Trace (Move now) (L.map (.unpend b)) s s' := by
  intro L
  induction L with
  | nil =>
    intro s s' _ h
    cases h
    exact .nil s
  | cons m L ih =>
    intro s s' hp h
    rw [List.foldlM_cons] at h
    obtain ⟨t,ht,h⟩ := bind_ok h
    obtain ⟨u,hu,ht⟩ := bind_ok ht
    cases ht
    have hr := memqueueMsgRelease_effect hu
    refine .cons (.unpend (by simp [hp]) hr) (ih ?_ h)
    simp [unpend,updCli,hr.clis,hp]

theorem pollFinish_trace {s s' : Ins} {b : Ptr} (h : pollFinish s b = .ok s') :
    Trace (Move now) (.unbindAll b :: ((s.clis b).pendingMsgs.map (.unpend b))) s s' := by
  have hp : ((memqueueUnbindAll s b).clis b).pendingMsgs = (s.clis b).pendingMsgs := by
    rw [(memqueueUnbindAll_effect s b).clis]
    simp
  refine .cons (.unbindAll s b) (releasePending_trace _ hp ?_)
  rw [← hp]
  exact h

theorem expiryHost_root {s s' : Ins} {type : ObjType} {o : Ptr}
    (h : (expiryHost now).release type s o = .ok s') : s'.expiry.root type = s.expiry.root type := by
  cases type with
  | msg => rw [(memqueueMsgRelease_effect h).expiry]
  | memqueue => rw [(memqueueRelease_effect h).expiry]
  | consumer =>
    obtain ⟨u,hu,h⟩ := bind_ok h
    obtain ⟨w,hw,h⟩ := bind_ok h
    cases h
    show w.expiry.root .consumer = _
    rw [(memqueueRelease_effect hw).expiry]
    exact (objSchedExpire_root_ne (by decide) ((memqueueMsgCreate_effect hu).scheduled (by omega))).1

/-- Loop rule of a cleaner pass over the server state. It fails only at an object it hands over,
or at a node that is gone. -/
theorem objsExpire_rule (now : Nat) (type : ObjType) {s : Ins} (I : Ins → Prop) (hbase : ∀ t, I t → Base t)
    (hobj : ∀ t t' o, I t → dueIn t.expiry type (now % 2^32) o → dueIn s.expiry type (now % 2^32) o →
      expireObj (expiryHost now) type t o = .ok t' → I t')
    (htouch : ∀ t t', I t → Move now .touch t t' → I t') (hs : I s) :
    Ensures (objsExpire (expiryHost now) now type s) I (fun f => f = .freedNode ∨
      ∃ t o, I t ∧ dueIn t.expiry type (now % 2^32) o ∧ expireObj (expiryHost now) type t o = .error f) := by
  -- nothing becomes due during the pass
  refine (objsExpire_ensures (fun t => I t ∧ ∀ o, dueIn t.expiry type (now % 2^32) o →
    dueIn s.expiry type (now % 2^32) o)
    (fun _ _ _ h => expiryHost_root h) (fun t hi => (hbase t hi.1).index.wf.nodup type)
    (fun t o hi hd => ensures_intro (fun t' h => ⟨hobj t t' o hi.1 hd (hi.2 o hd) h,fun p hp => hi.2 p ?_⟩)
      (fun f h => .inr ⟨t,o,hi.1,hd,h⟩))
    (fun t a f e hi h => ⟨htouch t _ hi.1 ?_,fun p hp => hi.2 p (dueIn_of_free h hp)⟩) (.inl rfl)
    ⟨hs,fun _ hp => hp⟩).mono (fun _ h => h.1) (fun _ h => h)
  · exact dueIn_of_listRemove (expireObj_root (fun _ _ _ h => expiryHost_root h) h) hp
  · obtain ⟨hw,hidx,_⟩ := possiblyNodeFree_spec (hbase t hi.1).index.wf h
    exact Move.touch hw (fun u o => by rw [hidx])

/-- The moves a pass of each kind is made of. -/
def expireAllows (s : Ins) (now : Nat) : ObjType → Atom → Prop
  | _, .touch => True
  | .msg, .expireMsg m => dueIn s.expiry .msg (now % 2^32) m
  | .memqueue, .expireQueue q => dueIn s.expiry .memqueue (now % 2^32) q
  | .consumer, .create q msecs _ =>
    msecs = 2000 ∧ ∃ c, dueIn s.expiry .consumer (now % 2^32) c ∧ (s.consumers c).memqueue = q
  | .consumer, .leave c => dueIn s.expiry .consumer (now % 2^32) c
  | _, _ => False

/-- One hand-over of a pass that began in `s`. -/
theorem expireObj_trace {type : ObjType} {s t t' : Ins} {o : Ptr} (hb : Base t) (ho : o ∈ t.expiry.indexed type)
    (hdue : dueIn s.expiry type (now % 2^32) o) (hsame : SameConsumers s t)
    (h : expireObj (expiryHost now) type t o = .ok t') :
    ∃ as, Trace (Move now) as t t' ∧ ∀ x ∈ as, expireAllows s now type x := by
  cases type with
  | msg =>
    refine ⟨[.expireMsg o],.single (expireObj_msg ho h),fun x hx => ?_⟩
    rw [List.mem_singleton.mp hx]
    exact hdue
  | memqueue =>
    refine ⟨[.expireQueue o],.single (expireObj_memqueue ho h),fun x hx => ?_⟩
    rw [List.mem_singleton.mp hx]
    exact hdue
  | consumer =>
    obtain ⟨u,hc,hl⟩ := expireObj_consumer hb ho h
    refine ⟨_,.cons hc (.single hl),fun x hx => ?_⟩
    rcases List.mem_cons.mp hx with rfl | hx
    · exact ⟨rfl,o,hdue,(hsame o).1.symm⟩
    · rw [List.mem_singleton.mp hx]
      exact hdue

theorem objsExpire_trace {type : ObjType} {s s' : Ins} (hb : Base s)
    (h : objsExpire (expiryHost now) now type s = .ok s') :
    ∃ as, Trace (Move now) as s s' ∧ ∀ x ∈ as, expireAllows s now type x := by
  have hrule := objsExpire_rule now type (fun t => Base t ∧ SameConsumers s t ∧
    ∃ as, Trace (Move now) as s t ∧ ∀ x ∈ as, expireAllows s now type x) (fun t hi => hi.1) ?_ ?_
    ⟨hb,.refl s,[],.nil s,fun x hx => by cases hx⟩
  · exact (hrule.result h).2.2
  · rintro t t' o ⟨hbt,hsame,as,has,ha⟩ hdue hdue₀ ht
    obtain ⟨bs,hbs,hba⟩ := expireObj_trace hbt hdue.mem hdue₀ hsame ht
    refine ⟨trace_base hbs hbt,?_,as ++ bs,has.append hbs,fun x hx => ?_⟩
    · refine hbs.invariant (fun x u v hx hu hm => ?_) hsame
      rcases hm.sameConsumer with ⟨_,hs⟩ | ⟨_,_,rfl,_⟩
      · exact hu.trans hs
      · cases type <;> exact (hba _ hx).elim
    · rcases List.mem_append.mp hx with hx | hx
      · exact ha x hx
      · exact hba x hx
  · rintro t t' ⟨hbt,hsame,as,has,ha⟩ ht
    refine ⟨ht.base hbt,?_,as ++ [.touch],has.append (.single ht),fun x hx => ?_⟩
    · cases ht
      exact hsame
    · rcases List.mem_append.mp hx with hx | hx
      · exact ha x hx
      · rw [List.mem_singleton.mp hx]
        cases type <;> trivial

theorem memqueueCreate_fault {s : Ins} {args : CreateArgs} {f : Fault} :
    memqueueCreate now s args ≠ .error f := by
  intro h
  rcases bind_error h with h | ⟨t,ht,h⟩
  · simp only [schedQueue] at h
    split at h
    · rcases bind_error h with h | ⟨_,_,h⟩
      · exact objSchedExpire_fault h
      · cases h
    · cases h
  · rcases bind_error h with h | ⟨_,_,h⟩
    · have hf := memqueueRetain_fault h
      simp only [schedQueue] at ht
      split at ht
      · obtain ⟨e,_,ht⟩ := bind_ok ht
        cases ht
        simp [newQueue] at hf
      · cases ht
        simp [newQueue] at hf
    · cases h

theorem memqueueCreate_move {s s' : Ins} {args : CreateArgs} (hnone : s.queueStore.get args.qId = none)
    (h : memqueueCreate now s args = .ok s') : Move now (.putQueue args) s s' := by
  simp only [memqueueCreate] at h
  obtain ⟨t,ht,h⟩ := bind_ok h
  obtain ⟨u,hu,h⟩ := bind_ok h
  cases h
  obtain ⟨_,rfl⟩ := memqueueRetain_effect hu
  simp only [schedQueue] at ht
  by_cases hpos : args.expiry > 0
  · rw [if_pos hpos] at ht
    obtain ⟨e,he,ht⟩ := bind_ok ht
    cases ht
    have hm : Move now (.putQueue args) s (setExpiry (addQueue s args) e) :=
      .putQueue hnone (fun _ => he) (fun h0 => by omega)
    convert hm using 1
    simp [setExpiry,addQueue,updQueue,newQueue]
  · rw [if_neg hpos] at ht
    cases ht
    have hm : Move now (.putQueue args) s (setExpiry (addQueue s args) s.expiry) :=
      .putQueue hnone (fun h0 => absurd h0 hpos) (fun _ => rfl)
    convert hm using 1
    simp [setExpiry,addQueue,updQueue,newQueue]

/-- The ways a POST can end, up to its write. -/
theorem onMsgPost_cases {s s' : Ins} {qId : Bytes} {expiry : Int} {body : Bytes} {out : Option Response}
    (h : step s ⟨now,.post qId expiry body⟩ = .ok (s',out)) :
    (s' = s ∧ s.queueStore.get qId = none) ∨
    ∃ q, s.queueStore.get qId = some q ∧ ∃ t full, isMemqueueFull s q = .ok (t,full) ∧
      ((full = true ∧ s' = suspend t (.post q) ∧ out = some (memqueueRespond t .full 0)) ∨
      (full = false ∧ ∃ u, memqueueMsgCreate now t q expiry body = .ok u ∧ s' = suspend u (.post q) ∧
        out = some (memqueueRespond u .msgAdded q))) := by
  simp only [step,onMsgPost] at h
  split at h
  · rename_i hnone
    cases h
    exact .inl ⟨rfl,hnone⟩
  · rename_i q hq
    obtain ⟨⟨t,full⟩,ht,h⟩ := bind_ok h
    refine .inr ⟨q,hq,t,full,ht,?_⟩
    dsimp only at h
    split at h
    · rename_i hfull
      cases h
      exact .inl ⟨hfull,rfl,rfl⟩
    · rename_i hfull
      obtain ⟨u,hu,h⟩ := bind_ok h
      cases h
      exact .inr ⟨by simpa using hfull,u,hu,rfl,rfl⟩

/-- A full queue that does not drop from its head: is_memqueue_full answers yes, and nothing is added. -/
def Ins.refuses (s : Ins) (q : Ptr) : Prop :=
  0 < (s.queues q).maxSize ∧ (s.queues q).maxSize ≤ (s.queues q).msgsInQueue ∧ (s.queues q).dropFromHead = 0

instance (s : Ins) (q : Ptr) : Decidable (s.refuses q) := inferInstanceAs (Decidable (_ ∧ _ ∧ _))

/-- The moves a step of each kind is made of, and what they presuppose of the state it starts in. -/
def Label.allows (s : Ins) (l : Label) (a : Atom) : Prop :=
  match l.event with
  | .put args => a = .putQueue args
  | .post k expiry body => (∃ m, a = .drop m) ∨
    (∃ q, (s.queueStore.get k = some q ∧ ¬ s.refuses q) ∧ a = .create q expiry body) ∨ ∃ q, a = .suspend (.post q)
  | .poll args => pollAllows s args.queueArgs s.nextCli a
  | .delete _ => ∃ q, a = .suspend (.delete q)
  | .head _ => False
  | .wake b => a = .wakeup (.pollWait b) ∨ a = .serve b ∨ a = .suspend (.pollWrite b)
  | .resumePost q => a = .wakeup (.post q) ∨ a = .touch
  | .resumeDelete q => .delete q ∈ s.handlers ∧ (a = .wakeup (.delete q) ∨ a = .release q)
  | .resumePoll b => .pollWrite b ∈ s.handlers ∧
    (a = .wakeup (.pollWrite b) ∨ a = .unbindAll b ∨ ∃ m, a = .unpend b m)
  | .expire type => expireAllows s l.now type a

/-- The step `l` leads from `s` to `s'` by moves it allows. -/
private def Traced (l : Label) (s s' : Ins) : Prop := ∃ as, Trace (Move l.now) as s s' ∧ ∀ a ∈ as, l.allows s a

private theorem Traced.none (l : Label) (s : Ins) : Traced l s s := ⟨[],.nil s,nofun⟩

private theorem onQueueCreate_trace {s s' : Ins} {args : CreateArgs} {out : Option Response}
    (h : onQueueCreate now s args = .ok (s',out)) : Traced ⟨now,.put args⟩ s s' := by
  simp only [onQueueCreate] at h
  split at h
  · cases h
    exact .none _ s
  · rename_i hnone
    obtain ⟨t,ht,h⟩ := bind_ok h
    cases h
    exact ⟨[.putQueue args],.single (memqueueCreate_move hnone ht),fun a ha => List.mem_singleton.mp ha⟩

/-- Up to the creation of the message a POST to a queue only drops a head, and then the queue does not refuse. -/
theorem isMemqueueFull_trace {s t : Ins} {q : Ptr} {full : Bool} (hb : Base s) (hq : q < s.nextQueue)
    (hlive : (s.queues q).freed = false) (h : isMemqueueFull s q = .ok (t,full)) :
    (∃ as, Trace (Move now) as s t ∧ ∀ a ∈ as, ∃ m, a = .drop m) ∧ q < t.nextQueue ∧
      (t.queues q).freed = false ∧ (full = false → ¬ s.refuses q) := by
  rcases isMemqueueFull_cases now hb h with ⟨_,rfl,hroom⟩ | ⟨rfl,rfl,_⟩ | ⟨_,_,_,hdrop,m,_,_,hm⟩
  · exact ⟨⟨[],.nil _,nofun⟩,hq,hlive,fun _ hr => by have := hr.1; have := hr.2.1; omega⟩
  · exact ⟨⟨[],.nil _,nofun⟩,hq,hlive,nofun⟩
  · exact ⟨⟨[.drop m],.single hm,fun a ha => ⟨m,List.mem_singleton.mp ha⟩⟩,lt_of_lt_of_le hq hm.next_le.2.1,
      hm.drop_live hb.store hq hlive,fun _ hr => hdrop hr.2.2⟩

private theorem onMsgPost_trace {s s' : Ins} {k : Bytes} {expiry : Int} {body : Bytes} {out : Option Response}
    (hb : Base s) (h : step s ⟨now,.post k expiry body⟩ = .ok (s',out)) : Traced ⟨now,.post k expiry body⟩ s s' := by
  obtain ⟨rfl,_⟩ | ⟨q,hget,t,full,ht,hend⟩ := onMsgPost_cases h
  · exact .none _ s'
  · obtain ⟨hlt,hlive,_⟩ := hb.store.get_iff.mp hget
    obtain ⟨⟨as,has,ha⟩,hlt',hlive',hroom⟩ := isMemqueueFull_trace hb hlt hlive ht
    rcases hend with ⟨_,rfl,_⟩ | ⟨hfull,u,hu,rfl,_⟩
    · refine ⟨as ++ [.suspend (.post q)],has.append (.single (.suspend t _)),fun a hx => ?_⟩
      rcases List.mem_append.mp hx with hx | hx
      · exact .inl (ha a hx)
      · exact .inr (.inr ⟨q,List.mem_singleton.mp hx⟩)
    · refine ⟨as ++ [.create q expiry body,.suspend (.post q)],
        has.append (.cons (memqueueMsgCreate_move hlive' hlt' hu) (.single (.suspend u _))),fun a hx => ?_⟩
      rcases List.mem_append.mp hx with hx | hx
      · exact .inl (ha a hx)
      · rcases List.mem_cons.mp hx with rfl | hx
        · exact .inr (.inl ⟨q,⟨hget,hroom hfull⟩,rfl⟩)
        · exact .inr (.inr ⟨q,List.mem_singleton.mp hx⟩)

private theorem onQueueDelete_trace {s s' : Ins} {k : Bytes} {out : Option Response}
    (h : onQueueDelete s k = (s',out)) : Traced ⟨now,.delete k⟩ s s' := by
  simp only [onQueueDelete] at h
  split at h
  · cases h
    exact .none _ s
  · rename_i q _
    cases h
    exact ⟨[.suspend (.delete q)],.single (.suspend s _),fun a ha => ⟨q,List.mem_singleton.mp ha⟩⟩

private theorem wake_trace {s s' : Ins} {b : Ptr} {out : Option Response}
    (h : step s ⟨now,.wake b⟩ = .ok (s',out)) : Traced ⟨now,.wake b⟩ s s' := by
  simp only [step] at h
  split at h
  · obtain ⟨as,has,ha⟩ := pollRespond_trace now (wakeHandler s (.pollWait b)) b
    have he : s' = (pollRespond (wakeHandler s (.pollWait b)) b).1 := by rw [Except.ok.inj h]
    rw [he]
    refine ⟨.wakeup (.pollWait b) :: as,.cons (.wakeup s _) has,fun a hx => ?_⟩
    rcases List.mem_cons.mp hx with rfl | hx
    · exact .inl rfl
    · exact .inr (ha a hx)
  · cases h
    exact .none _ s

private theorem resumePost_trace {s s' : Ins} {q : Ptr} {out : Option Response} (hb : Base s)
    (h : step s ⟨now,.resumePost q⟩ = .ok (s',out)) : Traced ⟨now,.resumePost q⟩ s s' := by
  simp only [step] at h
  split at h
  · obtain ⟨t,ht,h⟩ := bind_ok h
    cases h
    obtain ⟨e,he,ht⟩ := bind_ok ht
    cases ht
    have hw : Move now (.wakeup (.post q)) s (wakeHandler s (.post q)) := .wakeup s _
    exact ⟨[.wakeup (.post q),.touch],.cons hw (.single (resched_move (hw.base hb) he)),
      fun a hx => by simpa [Label.allows] using hx⟩
  · cases h
    exact .none _ s

private theorem resumeDelete_trace {s s' : Ins} {q : Ptr} {out : Option Response}
    (h : step s ⟨now,.resumeDelete q⟩ = .ok (s',out)) : Traced ⟨now,.resumeDelete q⟩ s s' := by
  simp only [step] at h
  split at h
  · rename_i hin
    obtain ⟨t,ht,h⟩ := bind_ok h
    cases h
    exact ⟨[.wakeup (.delete q),.release q],.cons (.wakeup s _) (.single (.release (memqueueRelease_effect ht))),
      fun a hx => ⟨hin,by simpa using hx⟩⟩
  · cases h
    exact .none _ s

private theorem resumePoll_trace {s s' : Ins} {b : Ptr} {out : Option Response}
    (h : step s ⟨now,.resumePoll b⟩ = .ok (s',out)) : Traced ⟨now,.resumePoll b⟩ s s' := by
  simp only [step] at h
  split at h
  · rename_i hin
    obtain ⟨t,ht,h⟩ := bind_ok h
    cases h
    refine ⟨_,.cons (.wakeup s _) (pollFinish_trace ht),fun a hx => ⟨hin,?_⟩⟩
    rcases List.mem_cons.mp hx with rfl | hx
    · exact .inl rfl
    · rcases List.mem_cons.mp hx with rfl | hx
      · exact .inr (.inl rfl)
      · obtain ⟨m,_,rfl⟩ := List.mem_map.mp hx
        exact .inr (.inr ⟨m,rfl⟩)
  · cases h
    exact .none _ s

/-- Every step is a trace of moves it allows, one lemma for each kind of event. -/
theorem step_trace {s s' : Ins} {l : Label} {out : Option Response} (hb : Base s)
    (h : step s l = .ok (s',out)) :
    ∃ as, Trace (Move l.now) as s s' ∧ ∀ a ∈ as, l.allows s a := by
  obtain ⟨now,event⟩ := l
  cases event with
  | put args => exact onQueueCreate_trace h
  | post k expiry body => exact onMsgPost_trace hb h
  | poll args => exact memqueuePollQueue_trace hb h
  | delete k => exact onQueueDelete_trace (Except.ok.inj h)
  | head k =>
    simp only [step,onQueueInfo] at h
    split at h <;> (cases h; exact Traced.none _ s)
  | wake b => exact wake_trace h
  | resumePost q => exact resumePost_trace hb h
  | resumeDelete q => exact resumeDelete_trace h
  | resumePoll b => exact resumePoll_trace h
  | expire type =>
    obtain ⟨t,ht,h⟩ := bind_ok h
    cases h
    exact objsExpire_trace hb ht

end Functions
end Memqueue
