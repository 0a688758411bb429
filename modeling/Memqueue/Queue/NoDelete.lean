import Memqueue.Queue.Counting
import Memqueue.Queue.Faults
import Memqueue.Queue.Revisions

/-! Runs without DELETE: as long as no count overflows, every count is exact and no assertion on one can fail. -/
namespace Memqueue
open Ins Fallible Expiry

def Event.isDelete : Event → Bool
  | .delete _ => true
  | _ => false

/-- No client asks for a DELETE. -/
def NoDelete (_ : Ins) (l : Label) : Prop := l.event.isDelete = false

/-- The queue never expires, or its deadline has not been reached yet. -/
def Ins.unexpired (s : Ins) (q : Ptr) : Prop := (s.queues q).expiry = 0 ∨ q ∈ s.expiry.indexed .memqueue

instance (s : Ins) (q : Ptr) : Decidable (s.unexpired q) :=
  inferInstanceAs (Decidable ((s.queues q).expiry = 0 ∨ q ∈ s.expiry.indexed .memqueue))

/-- Exact base references: one for each unexpired queue, and nobody is about to delete any. -/
structure Undeleted (s : Ins) : Prop where
  owned : QueueInv s
  exact : ∀ q < s.nextQueue, (s.queues q).freed = false → s.baseRef q = if s.unexpired q then 1 else 0
  timed : ∀ q ∈ s.expiry.indexed .memqueue, (s.queues q).expiry ≠ 0
  handlers : ∀ q, .delete q ∉ s.handlers

theorem undeleted_init : Undeleted .init where
  owned := queueInv_init
  exact _ h := by cases h
  timed _ h := by cases h
  handlers _ h := by cases h

section Runs
variable [Rebalance ExpiryNode] {now : Nat}

/-- A move by anything but a DELETE. -/
private def Atom.spares : Atom → Prop
  | .release _ => False
  | .suspend (.delete _) => False
  | _ => True

private theorem Move.undeleted {a : Atom} {s s' : Ins} (h : Move now a s s') (hb : Base s) (hl : Ledger s)
    (hi : Undeleted s) (ha : a.spares) : Undeleted s' := by
  have hb' := h.base hb
  obtain ⟨_,hidx⟩ := h.indexed hb.index
  have howns : a.owns s := by
    cases a <;> trivial
  have hlinks : ∀ q < s.nextQueue, ¬ a.links s .memqueue q := by
    intro q hq hx
    cases a <;> simp only [Atom.links] at hx
    · exact absurd hx.2.2 (Nat.ne_of_lt hq)
    · exact absurd hx.2.1 (by decide)
    · exact absurd hx.1 (by decide)
  refine ⟨h.queueInv hb hl hi.owned howns,fun q hq hlive => ?_,fun q hq => ?_,fun q hq => ?_⟩
  · by_cases hlt : q < s.nextQueue
    · have hold := hi.exact q hlt (h.live_of hlt hlive)
      have hexp := (h.sameQueue hlt).expiry
      rw [h.baseRef_eq hb hl hlt,hold]
      by_cases hx : a.unlinks .memqueue q
      · cases a <;> simp only [Atom.unlinks] at hx
        · exact absurd hx.1 (by decide)
        · exact absurd hx.1 (by decide)
        · obtain ⟨_,rfl⟩ := hx
          have hin := h.expireQueue_lost.2
          have hout : q ∉ s'.expiry.indexed .memqueue := by
            rw [hidx]
            simp [Atom.unlinks,Atom.links]
          simp [unexpired,hexp,hin,hout,hi.timed q hin,Atom.base]
      · have hsame : s'.unexpired q ↔ s.unexpired q := by
          simp only [unexpired,hexp,hidx,hx,not_false_eq_true,and_true,hlinks q hlt,or_false]
        have h0 : a.base q = 0 := by
          cases a <;> simp only [Atom.base]
          · simp only [Atom.unlinks,true_and] at hx
            simp [hx]
          · cases ha
        simp [hsame,h0]
    · rcases h.queue_new (Nat.le_of_not_lt hlt) with hle | ⟨args,rfl,rfl,he⟩
      · exact absurd hq (Nat.not_lt.mpr hle)
      · have hun : s'.unexpired s.nextQueue := by
          by_cases h0 : args.expiry = 0
          · exact .inl (by rw [he]; exact h0)
          · refine .inr ((hidx _ _).mpr (.inr ?_))
            exact ⟨Nat.pos_of_ne_zero h0,rfl,rfl⟩
        rw [if_pos hun]
        simp [baseRef,msgRefs,he,newQueue]
  · rcases (hidx .memqueue q).mp hq with ⟨hq,_⟩ | hq
    · rw [(h.sameQueue (hb.index.allocated .memqueue q hq)).expiry]
      exact hi.timed q hq
    · cases a <;> simp only [Atom.links] at hq
      · obtain ⟨hpos,_,rfl⟩ := hq
        cases h
        simp only [setExpiry,addQueue,Function.update_self,newQueue]
        omega
      · exact absurd hq.2.1 (by decide)
      · exact absurd hq.1 (by decide)
  · rcases h.handlers with he | ⟨x,rfl,he⟩ | ⟨x,_,he⟩
    · exact hi.handlers q (he ▸ hq)
    · rw [he] at hq
      rcases List.mem_cons.mp hq with rfl | hq
      · cases ha
      · exact hi.handlers q hq
    · exact hi.handlers q (List.mem_of_mem_erase (he ▸ hq))

omit [Rebalance ExpiryNode] in
private theorem allows_spares {s : Ins} {l : Label} {a : Atom} (hn : NoDelete s l)
    (hr : ∀ q, l.event ≠ .resumeDelete q) (ha : l.allows s a) : a.spares := by
  obtain ⟨now,event⟩ := l
  cases event with
  | put args => rw [show a = _ from ha]; trivial
  | post qId expiry body => rcases ha with ⟨m,rfl⟩ | ⟨q,_,rfl⟩ | ⟨q,rfl⟩ <;> trivial
  | poll args =>
    cases a with
    | suspend x => rcases ha with rfl | rfl <;> trivial
    | release => cases ha
    | _ => trivial
  | delete qId => cases hn
  | head qId => cases ha
  | wake b => rcases ha with rfl | rfl | rfl <;> trivial
  | resumePost q => rcases ha with rfl | rfl <;> trivial
  | resumeDelete q => exact absurd rfl (hr q)
  | resumePoll b => rcases ha with ⟨_,rfl | rfl | ⟨m,rfl⟩⟩ <;> trivial
  | expire type =>
    cases a with
    | suspend x => cases type <;> cases ha
    | release => cases type <;> cases ha
    | _ => trivial

/-- Without DELETE the accounts stay exact from step to step. -/
theorem step_undeleted {s s' : Ins} {l : Label} {out : Option Response} (hb : Base s) (hl : Ledger s)
    (hi : Undeleted s) (hn : NoDelete s l) (h : step s l = .ok (s',out)) : Undeleted s' := by
  by_cases hr : ∃ q, l.event = .resumeDelete q
  · obtain ⟨q,hq⟩ := hr
    have hout := hi.handlers q
    simp only [step,hq,hout,if_false] at h
    cases h
    exact hi
  · refine (step_keeps Undeleted hb hl (fun a t u ha hbt hlt hit hm => ?_) hi h).2.2
    exact hm.undeleted hbt hlt hit (allows_spares hn (fun q hq => hr ⟨q,hq⟩) ha)

theorem reaches_undeleted {tr : List Label} {s : Ins} (h : Reaches NoDelete tr s) :
    Base s ∧ Ledger s ∧ Undeleted s := by
  refine h.invariant (I := fun s => Base s ∧ Ledger s ∧ Undeleted s) ?_ ⟨base_init,ledger_init,undeleted_init⟩
  rintro s l s' out ⟨hb,hl,hi⟩ hn hs
  obtain ⟨hb',hl',_⟩ := step_keeps (fun _ => True) hb hl (fun _ _ _ _ _ _ _ _ => trivial) trivial hs
  exact ⟨hb',hl',step_undeleted hb hl hi hn hs⟩

/-- The accounts in a run that counts with plain sums. -/
private theorem reaches_balance {tr : List Label} {s : Ins} (h : Reaches NoDelete tr s) :
    (∀ q < s.nextQueue, (s.queues q).freed = false → ∀ m ∈ (s.queues q).msgQueue,
      (s.msgs m).refCount = s.held m + s.pend m) ∧
    (∀ q < s.nextQueue, (s.queues q).freed = false → (s.queues q).refCount =
      (if s.unexpired q then 1 else 0) + s.msgRefs q + (s.queues q).consumers.length) ∧
    ∀ k q, (k,q) ∈ s.queueStore ↔ q < s.nextQueue ∧ 0 < (s.queues q).refCount ∧ (s.queues q).qId = k := by
  obtain ⟨hb,hl,hi⟩ := reaches_undeleted h
  refine ⟨fun q _ hlive m hm => hl.refs q m hm hlive,fun q hq hlive => ?_,fun k q => ?_⟩
  · have hbase := hi.exact q hq hlive
    simp only [baseRef] at hbase
    omega
  · rw [hb.store.entries]
    constructor
    · rintro ⟨hq,hlive,hk⟩
      have := hb.store.positive q hq hlive
      exact ⟨hq,by omega,hk⟩
    · rintro ⟨hq,hpos,hk⟩
      refine ⟨hq,?_,hk⟩
      cases hf : (s.queues q).freed with
      | false => rfl
      | true =>
        have := hb.store.zero q hq hf
        omega

/-- Reference counting without DELETE, in every run in which no ref_count leaves the range of an int: the counts of
messages and of queues are those of their holders, the store lists the queues with references left, and the
assertions hold. -/
theorem references_balance {tr : List Label} {s : Ins}
    (h : IntReaches (fun s l => NoDelete s l ∧ l.counted s) tr s) :
    (∀ q < s.nextQueue, (s.queues q).freed = false → ∀ m ∈ (s.queues q).msgQueue,
      (s.msgs m).refCount = s.held m + s.pend m) ∧
    (∀ q < s.nextQueue, (s.queues q).freed = false → (s.queues q).refCount =
      (if s.unexpired q then 1 else 0) + ((s.queues q).msgQueue.map fun m => (s.msgs m).refCount).sum +
        (s.queues q).consumers.length) ∧
    (Table.keys s.queueStore).Nodup ∧
    (∀ k q, (k,q) ∈ s.queueStore ↔ q < s.nextQueue ∧ 0 < (s.queues q).refCount ∧ (s.queues q).qId = k) ∧
    ∀ l, NoDelete s l → l.counted s → intStep s l ≠ .error .refCount := by
  have hr := exact_of_counted h
  obtain ⟨hmsgs,hqueues,hstore⟩ := reaches_balance hr
  obtain ⟨hb,hl,hi⟩ := reaches_undeleted hr
  refine ⟨hmsgs,hqueues,hb.store.keys,hstore,fun l _ hc hf => ?_⟩
  have hdel : deleteOwns s l := fun q _ hin => absurd hin (hi.handlers q)
  rw [intStep_eq hc] at hf
  rcases step_fault ⟨hb,hl,hi.owned⟩ hdel hf with h' | h' <;> cases h'

end Runs

section Overflow
variable [Rebalance ExpiryNode]

/-- A queue that holds `n` messages for good and has never had anything else to do. -/
private structure Piled (n : Nat) (s : Ins) : Prop where
  store : s.queueStore = [([113],0)]
  next : s.nextQueue = 1
  nextMsg : s.nextMsg = n
  node : s.expiry.expiryNode .memqueue 0 = none
  freed : (s.queues 0).freed = false
  expiry : (s.queues 0).expiry = 0
  maxSize : (s.queues 0).maxSize = 0
  binders : (s.queues 0).memqueueBinders = []
  consumers : (s.queues 0).consumers = []
  refCount : (s.queues 0).refCount = wrapInt (n + 1 : Nat)
  msgQueue : (s.queues 0).msgQueue = List.range n
  msgs : ∀ m < n, (s.msgs m).refCount = 1

/-- A PUT of a queue without a limit, and `n` POSTs of messages that stay, each answered before the next. -/
def pileTrace (n : Nat) : List Label :=
  ⟨0,.put ⟨0,0,0,0,[113]⟩⟩ :: (List.replicate n [⟨1,.post [113] (-1) [1]⟩,⟨1,.resumePost 0⟩]).flatten

/-- What POSTing a message that stays makes of a queue nobody is bound to. -/
private def keptMsg (s : Ins) (q : Ptr) (data : Bytes) : Ins :=
  { s with
    queues := Function.update s.queues q { s.queues q with
      rev := wrapInt ((s.queues q).rev + 1)
      refCount := wrapInt ((s.queues q).refCount + 1)
      msgQueue := (s.queues q).msgQueue ++ [s.nextMsg]
      msgsInQueue := (s.queues q).msgsInQueue + 1 }
    msgs := Function.update s.msgs s.nextMsg ⟨data,wrapInt (0 + 1),wrapInt ((s.queues q).rev + 1),true,q,-1,false⟩
    nextMsg := s.nextMsg + 1 }

private theorem memqueueMsgCreate_kept (now : Nat) {s : Ins} {q : Ptr} (data : Bytes)
    (hlive : (s.queues q).freed = false) (hb : (s.queues q).memqueueBinders = []) :
    @memqueueMsgCreate _ .wrapping now s q (-1) data = .ok (keptMsg s q data) := by
  have hretain : @memqueueMsgRetain .wrapping (newMsg s q (-1) data) s.nextMsg =
      .ok { keptMsg s q data with queues := Function.update s.queues q { s.queues q with
        rev := wrapInt ((s.queues q).rev + 1), refCount := wrapInt ((s.queues q).refCount + 1) } } := by
    simp [memqueueMsgRetain,memqueueRetain,Counting.wrapping_bind,newMsg,updQueue,updMsg,hlive,keptMsg,pure,Except.pure]
  simp only [memqueueMsgCreate,schedMsg,keepMsg,show ¬ (0 : Int) < -1 by decide,if_false,if_true]
  change (@memqueueMsgRetain .wrapping _ _ >>= _) = _
  rw [hretain]
  change List.foldlM (@pushMsg .wrapping s.nextMsg) _ _ = _
  simp [appendMsg,updQueue,hb,keptMsg,pure,Except.pure]

private theorem Piled.post {n : Nat} {s : Ins} (h : Piled n s) :
    ∃ t out, intStep s ⟨1,.post [113] (-1) [1]⟩ = .ok (t,out) ∧ Piled (n + 1) t := by
  have hget : s.queueStore.get [113] = some 0 := by rw [h.store]; rfl
  have hfull : @isMemqueueFull .wrapping s 0 = .ok (s,false) := if_pos h.maxSize.le
  have hcreate := memqueueMsgCreate_kept 1 [1] h.freed h.binders
  refine ⟨{ keptMsg s 0 [1] with handlers := .post 0 :: s.handlers },
    some (memqueueRespond (keptMsg s 0 [1]) .msgAdded 0),?_,?_⟩
  · simp only [intStep,step,onMsgPost,hget,hfull]
    change (@memqueueMsgCreate _ .wrapping 1 s 0 (-1) [1] >>= _) = _
    rw [hcreate]
    rfl
  · refine ⟨h.store,h.next,congrArg (· + 1) h.nextMsg,h.node,?_,?_,?_,?_,?_,?_,?_,fun m hm => ?_⟩
    · simpa [keptMsg] using h.freed
    · simpa [keptMsg] using h.expiry
    · simpa [keptMsg] using h.maxSize
    · simpa [keptMsg] using h.binders
    · simpa [keptMsg] using h.consumers
    · simp only [keptMsg,Function.update_self,h.refCount,wrapInt_add_one]
    · simp only [keptMsg,Function.update_self,h.msgQueue,h.nextMsg,List.range_succ]
    · simp only [keptMsg,h.nextMsg]
      rcases Nat.lt_succ_iff_lt_or_eq.mp hm with hm | rfl
      · rw [Function.update_of_ne (Nat.ne_of_lt hm)]
        exact h.msgs m hm
      · rw [Function.update_self]
        show wrapInt (0 + 1) = 1
        decide

private theorem Piled.resume {n : Nat} {s : Ins} (h : Piled n s) :
    ∃ t out, intStep s ⟨1,.resumePost 0⟩ = .ok (t,out) ∧ Piled n t := by
  have hresched : memqueueResched s.expiry 1 0 (s.queues 0).expiry = .ok s.expiry := by
    simp only [memqueueResched,resched,h.node]
  by_cases hin : .post 0 ∈ s.handlers
  · refine ⟨wakeHandler s (.post 0),none,?_,⟨h.1,h.2,h.3,h.4,h.5,h.6,h.7,h.8,h.9,h.10,h.11,h.12⟩⟩
    simp only [intStep,step,if_pos hin,resumePost]
    change (memqueueResched s.expiry 1 0 (s.queues 0).expiry >>= _) >>= _ = _
    rw [hresched]
    rfl
  · exact ⟨s,none,if_neg hin,h⟩

omit [Rebalance ExpiryNode] in
private theorem pileTrace_succ (n : Nat) :
    pileTrace (n + 1) = pileTrace n ++ [⟨1,.post [113] (-1) [1]⟩] ++ [⟨1,.resumePost 0⟩] := by
  simp [pileTrace,List.replicate_succ']

private theorem pileTrace_piled (n : Nat) : ∃ s, IntReaches NoDelete (pileTrace n) s ∧ Piled n s := by
  induction n with
  | zero =>
    have hput : ∃ t out, intStep .init ⟨0,.put ⟨0,0,0,0,[113]⟩⟩ = .ok (t,out) ∧ Piled 0 t := by
      refine ⟨_,_,rfl,?_⟩
      constructor <;> first | rfl | nofun
    obtain ⟨t,out,ht,hp⟩ := hput
    exact ⟨t,.snoc (.nil _) rfl ht,hp⟩
  | succ n ih =>
    obtain ⟨s,hr,hs⟩ := ih
    obtain ⟨t,out,ht,hp⟩ := hs.post
    obtain ⟨u,out',hu,hq⟩ := hp.resume
    rw [pileTrace_succ]
    exact ⟨u,.snoc (.snoc hr rfl ht) rfl hu,hq⟩

end Overflow

/-- With 2^31 references to a queue its count has gone round: the queue is not expired and holds 2^31 - 1 messages
that stay, each with one reference. -/
theorem references_overflow :
    letI := Rebalance.plain ExpiryNode
    ∃ s, IntReaches NoDelete (pileTrace (2^31 - 1)) s ∧ 0 < s.nextQueue ∧ (s.queues 0).freed = false ∧
      (s.queues 0).refCount = -2^31 ∧
      (if s.unexpired 0 then 1 else 0) + ((s.queues 0).msgQueue.map fun m => (s.msgs m).refCount).sum +
        (s.queues 0).consumers.length = 2^31 := by
  let _ := Rebalance.plain ExpiryNode
  obtain ⟨s,hr,h⟩ := pileTrace_piled (2^31 - 1)
  have hone : (List.range (2^31 - 1)).map (fun m => (s.msgs m).refCount) = List.replicate (2^31 - 1) 1 := by
    rw [List.eq_replicate_iff]
    refine ⟨by rw [List.length_map,List.length_range],fun x hx => ?_⟩
    obtain ⟨m,hm,rfl⟩ := List.mem_map.mp hx
    exact h.msgs m (List.mem_range.mp hm)
  refine ⟨s,hr,by rw [h.next]; decide,h.freed,by rw [h.refCount]; decide,?_⟩
  rw [if_pos (.inl h.expiry),h.msgQueue,hone,List.sum_replicate,h.consumers]
  norm_num

/-- A poller that waits, a message pushed to it, and one more that stays: two clients on one queue. -/
def pollTrace : List Label :=
  [⟨0,.put ⟨0,0,0,0,[113]⟩⟩,⟨1,.poll ⟨[⟨some [113],0,0,none,0⟩],1000⟩⟩,⟨2,.post [113] 0 [1]⟩,
    ⟨3,.post [113] (-1) [2]⟩,⟨4,.wake 0⟩]

/-- The accounts after that run: the first message is held once, the second twice, the queue four times. -/
theorem references_balance_polled :
    letI := Rebalance.plain ExpiryNode
    ∃ s, IntReaches (fun s l => NoDelete s l ∧ l.counted s) pollTrace s ∧ (s.queues 0).msgQueue = [0,1] ∧
      (s.queues 0).refCount = 4 ∧ (s.queues 0).refCount = (if s.unexpired 0 then 1 else 0) +
        ((s.queues 0).msgQueue.map fun m => (s.msgs m).refCount).sum + (s.queues 0).consumers.length := by
  let _ := Rebalance.plain ExpiryNode
  obtain ⟨s,hs,hobs⟩ := Option.map_eq_some_iff.mp (show (exec intStep
      (fun s l => !l.event.isDelete && decide (l.counted s)) .init pollTrace).map
    (fun s => (s.nextQueue,(s.queues 0).freed,(s.queues 0).msgQueue,(s.queues 0).refCount)) =
    some (1,false,[0,1],4) by decide +kernel)
  have hr : IntReaches (fun s l => NoDelete s l ∧ l.counted s) pollTrace s :=
    (Run.of_exec hs).mono fun _ _ hg => by simpa [NoDelete] using hg
  simp only [Prod.mk.injEq] at hobs
  obtain ⟨hq,hlive,hmsgs,href⟩ := hobs
  exact ⟨s,hr,hmsgs,href,(references_balance hr).2.1 0 (by rw [hq]; decide) hlive⟩

end Memqueue
