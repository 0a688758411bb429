import Memqueue.Queue.Moves

/-! The queue store against the heap: it lists exactly the queues that are not freed.
Every move keeps this, so it holds in every run whatever is deleted. -/
namespace Memqueue
open Ins Fallible

/-- Store entries are the live queues under their own q_id, and a live queue is referred to. -/
structure StoreInv (s : Ins) : Prop where
  keys : (Table.keys s.queueStore).Nodup
  entries : ∀ k q, (k,q) ∈ s.queueStore ↔
    q < s.nextQueue ∧ (s.queues q).freed = false ∧ (s.queues q).qId = k
  positive : ∀ q < s.nextQueue, (s.queues q).freed = false → 1 ≤ (s.queues q).refCount
  zero : ∀ q < s.nextQueue, (s.queues q).freed = true → (s.queues q).refCount = 0
  blank : ∀ q, s.nextQueue ≤ q → (s.queues q).refCount = 0 ∧ (s.queues q).msgQueue = [] ∧
    (s.queues q).memqueueBinders = [] ∧ (s.queues q).consumers = []

theorem storeInv_init : StoreInv .init where
  keys := List.nodup_nil
  entries k q := by simp [init]
  positive q hq := by simp [init] at hq
  zero q hq := by simp [init] at hq
  blank q _ := ⟨rfl,rfl,rfl,rfl⟩

theorem StoreInv.get_iff {s : Ins} (hi : StoreInv s) {k : Bytes} {q : Ptr} :
    s.queueStore.get k = some q ↔
      q < s.nextQueue ∧ (s.queues q).freed = false ∧ (s.queues q).qId = k :=
  (Table.get_iff_mem hi.keys).trans (hi.entries k q)

theorem StoreInv.get_none {s : Ins} (hi : StoreInv s) {k : Bytes} :
    s.queueStore.get k = none ↔ ∀ q < s.nextQueue, (s.queues q).freed = false → (s.queues q).qId ≠ k := by
  constructor
  · intro h q hq hf hk
    rw [hi.get_iff.mpr ⟨hq,hf,hk⟩] at h
    cases h
  · intro h
    cases hg : s.queueStore.get k with
    | none => rfl
    | some q =>
      obtain ⟨hq,hf,hk⟩ := hi.get_iff.mp hg
      exact absurd hk (h q hq hf)

theorem StoreInv.lt_of_refs {s : Ins} (hi : StoreInv s) {q : Ptr} (h : 1 ≤ (s.queues q).refCount) :
    q < s.nextQueue := by
  by_contra hn
  have := (hi.blank q (Nat.le_of_not_lt hn)).1
  omega

theorem StoreInv.lt_of_listed {s : Ins} (hi : StoreInv s) {q m : Ptr} (h : m ∈ (s.queues q).msgQueue) :
    q < s.nextQueue := by
  by_contra hn
  rw [(hi.blank q (Nat.le_of_not_lt hn)).2.1] at h
  cases h

/-- One queue changes its count; it is freed and leaves the store when nothing is left of it. -/
theorem StoreInv.update {s s' : Ins} {q : Ptr} (hi : StoreInv s) (x : Queue) (hq : q < s.nextQueue)
    (hlive : (s.queues q).freed = false) (hqueues : s'.queues = Function.update s.queues q x)
    (hnext : s'.nextQueue = s.nextQueue) (hid : x.qId = (s.queues q).qId) (hpos : 0 ≤ x.refCount)
    (hfreed : x.freed = true ↔ x.refCount = 0)
    (hstore : s'.queueStore = if x.refCount = 0 then s.queueStore.remove (s.queues q).qId
      else s.queueStore) : StoreInv s' := by
  have hne : ∀ p, p ≠ q → s'.queues p = s.queues p := fun p hp => by rw [hqueues]; simp [hp]
  have hself : s'.queues q = x := by rw [hqueues]; simp
  refine ⟨?_,?_,?_,?_,?_⟩
  · rw [hstore]
    split
    · exact Table.keys_remove_nodup hi.keys _
    · exact hi.keys
  · intro k p
    rw [hnext]
    by_cases h0 : x.refCount = 0
    · rw [hstore,if_pos h0,Table.mem_remove hi.keys,hi.entries]
      by_cases hp : p = q
      · subst hp
        rw [hself]
        have hx : x.freed = true := hfreed.mpr h0
        simp only [hx]
        constructor
        · rintro ⟨⟨_,_,hk⟩,hn⟩
          exact absurd hk.symm hn
        · rintro ⟨_,hf,_⟩
          cases hf
      · rw [hne p hp]
        constructor
        · exact fun h => h.1
        · rintro ⟨hlt,hf,hk⟩
          refine ⟨⟨hlt,hf,hk⟩,?_⟩
          rintro rfl
          have hp' := (Table.get_iff_mem hi.keys).mpr ((hi.entries _ p).mpr ⟨hlt,hf,rfl⟩)
          have hq' := (Table.get_iff_mem hi.keys).mpr ((hi.entries _ q).mpr ⟨hq,hlive,rfl⟩)
          rw [hk,hq'] at hp'
          cases hp'
          exact hp rfl
    · rw [hstore,if_neg h0,hi.entries]
      by_cases hp : p = q
      · subst hp
        have hx : x.freed = false := by
          cases hf : x.freed with
          | false => rfl
          | true => exact absurd (hfreed.mp hf) h0
        rw [hself,hid,hx,hlive]
      · rw [hne p hp]
  · intro p hlt hf
    rw [hnext] at hlt
    by_cases hp : p = q
    · subst hp
      rw [hself] at hf ⊢
      have h0 : x.refCount ≠ 0 := fun h0 => by rw [hfreed.mpr h0] at hf; cases hf
      omega
    · rw [hne p hp] at hf ⊢
      exact hi.positive p hlt hf
  · intro p hlt hf
    rw [hnext] at hlt
    by_cases hp : p = q
    · subst hp
      rw [hself] at hf ⊢
      exact hfreed.mp hf
    · rw [hne p hp] at hf ⊢
      exact hi.zero p hlt hf
  · intro p hp
    rw [hnext] at hp
    rw [hne p (fun h => by subst h; exact absurd hq (Nat.not_lt.mpr hp))]
    exact hi.blank p hp

/-- The new queue is live, holds one reference and is found under its q_id. -/
private theorem storeInv_addQueue {s s' : Ins} {args : CreateArgs} (hi : StoreInv s)
    (hnone : s.queueStore.get args.qId = none)
    (hqueues : s'.queues = Function.update s.queues s.nextQueue { newQueue args with refCount := 1 })
    (hnext : s'.nextQueue = s.nextQueue + 1)
    (hstore : s'.queueStore = s.queueStore.insert args.qId s.nextQueue) : StoreInv s' := by
  have hne : ∀ p, p ≠ s.nextQueue → s'.queues p = s.queues p := fun p hp => by rw [hqueues]; simp [hp]
  have hself : s'.queues s.nextQueue = { newQueue args with refCount := 1 } := by rw [hqueues]; simp
  refine ⟨?_,?_,?_,?_,?_⟩
  · rw [hstore]
    exact Table.keys_insert_nodup hi.keys _ _
  · intro k p
    rw [hstore,hnext,Table.insert_of_none hnone,List.mem_append,hi.entries,List.mem_singleton]
    by_cases hp : p = s.nextQueue
    · subst hp
      rw [hself]
      have hlt : s.nextQueue < s.nextQueue + 1 := Nat.lt_succ_self _
      simp only [newQueue,lt_irrefl,false_and,false_or,Prod.mk.injEq,and_true,hlt,true_and]
      exact eq_comm
    · have hlt : p < s.nextQueue + 1 ↔ p < s.nextQueue := by lia
      rw [hne p hp,hlt]
      simp [hp]
  · intro p hlt hf
    by_cases hp : p = s.nextQueue
    · subst hp
      rw [hself]
    · rw [hne p hp] at hf ⊢
      exact hi.positive p (by lia) hf
  · intro p hlt hf
    by_cases hp : p = s.nextQueue
    · subst hp
      rw [hself] at hf
      cases hf
    · rw [hne p hp] at hf ⊢
      exact hi.zero p (by lia) hf
  · intro p hp
    rw [hnext] at hp
    rw [hne p (by lia)]
    exact hi.blank p (by lia)

theorem StoreInv.quiet {s s' : Ins} (hi : StoreInv s) (h : Quiet s s') : StoreInv s' := by
  have hq : ∀ p, (s'.queues p).freed = (s.queues p).freed ∧ (s'.queues p).qId = (s.queues p).qId ∧
      (s'.queues p).refCount = (s.queues p).refCount ∧ (s'.queues p).msgQueue = (s.queues p).msgQueue ∧
      (s'.queues p).consumers = (s.queues p).consumers := by
    intro p
    rw [h.queues p]
    exact ⟨rfl,rfl,rfl,rfl,rfl⟩
  refine ⟨by rw [h.store]; exact hi.keys,fun k q => ?_,fun q hlt hf => ?_,fun q hlt hf => ?_,
    fun q hle => ?_⟩
  · rw [h.store,h.nextQueue,(hq q).1,(hq q).2.1]
    exact hi.entries k q
  · rw [h.nextQueue] at hlt
    rw [(hq q).1] at hf
    rw [(hq q).2.2.1]
    exact hi.positive q hlt hf
  · rw [h.nextQueue] at hlt
    rw [(hq q).1] at hf
    rw [(hq q).2.2.1]
    exact hi.zero q hlt hf
  · rw [h.nextQueue] at hle
    obtain ⟨h₁,h₂,h₃,h₄⟩ := hi.blank q hle
    exact ⟨(hq q).2.2.1.trans h₁,(hq q).2.2.2.1.trans h₂,h.blank q hle h₃,(hq q).2.2.2.2.trans h₄⟩

theorem initialRef_nonneg (msecs : Int) : 0 ≤ initialRef msecs := by
  unfold initialRef
  split <;> omega

theorem StoreInv.msgLost {k : Int} {m : Ptr} {s s' : Ins} (hi : StoreInv s) (h : MsgLost k m s s')
    (hq : (s.msgs m).memqueue < s.nextQueue) : StoreInv s' := by
  have hpos := h.pos
  apply hi.update _ hq h.live h.queues h.frame.nextQueue rfl (by simp only; omega)
  · simp only [decide_eq_true_eq]
    omega
  · rw [h.store]
    by_cases h0 : (s.queues (s.msgs m).memqueue).refCount = k
    · simp [h0]
    · rw [if_neg h0,if_neg (by simp only; omega)]

theorem StoreInv.queueLost {q : Ptr} {s s' : Ins} (hi : StoreInv s) (h : QueueLost q s s') :
    StoreInv s' := by
  have hpos := h.pos
  apply hi.update _ (hi.lt_of_refs hpos) h.live h.queues h.frame.nextQueue rfl (by simp only; omega)
  · simp only [decide_eq_true_eq]
    omega
  · rw [h.store]
    by_cases h0 : (s.queues q).refCount = 1
    · simp [h0]
    · rw [if_neg h0,if_neg (by simp only; omega)]

theorem StoreInv.consumerLost {c : Ptr} {s s' : Ins} (hi : StoreInv s) (h : ConsumerLost c s s') :
    StoreInv s' := by
  have hpos := h.pos
  apply hi.update _ (hi.lt_of_refs hpos) h.live h.queues h.frame.nextQueue rfl (by simp only; omega)
  · simp only [decide_eq_true_eq]
    omega
  · rw [h.store]
    by_cases h0 : (s.queues (s.consumers c).memqueue).refCount = 1
    · simp [h0]
    · rw [if_neg h0,if_neg (by simp only; omega)]

/-- A queue whose count only grows stays as it is in the store. -/
private theorem StoreInv.gain {s s' : Ins} {q : Ptr} (hi : StoreInv s) (x : Queue) (hq : q < s.nextQueue)
    (hlive : (s.queues q).freed = false) (hqueues : s'.queues = Function.update s.queues q x)
    (hnext : s'.nextQueue = s.nextQueue) (hid : x.qId = (s.queues q).qId)
    (hpos : (s.queues q).refCount ≤ x.refCount) (hfreed : x.freed = (s.queues q).freed)
    (hstore : s'.queueStore = s.queueStore) : StoreInv s' := by
  have h1 := hi.positive q hq hlive
  apply hi.update x hq hlive hqueues hnext hid (by omega)
  · rw [hfreed,hlive]
    constructor
    · intro h
      cases h
    · intro h
      omega
  · rw [hstore,if_neg (by omega)]

/-- What a message is created with. -/
structure SameMsg (x y : Msg) : Prop where
  memqueue : y.memqueue = x.memqueue
  rev : y.rev = x.rev
  data : y.data = x.data
  expiry : y.expiry = x.expiry

theorem SameMsg.refl (x : Msg) : SameMsg x x := ⟨rfl,rfl,rfl,rfl⟩

/-- What a queue is created with. -/
structure SameQueue (x y : Queue) : Prop where
  qId : y.qId = x.qId
  expiry : y.expiry = x.expiry
  maxSize : y.maxSize = x.maxSize
  consumerExpiry : y.consumerExpiry = x.consumerExpiry

theorem SameQueue.refl (x : Queue) : SameQueue x x := ⟨rfl,rfl,rfl,rfl⟩

private theorem sameQueue_update {s s' : Ins} {q p : Ptr} {x : Queue}
    (h : s'.queues = Function.update s.queues p x) (hx : SameQueue (s.queues p) x) :
    SameQueue (s.queues q) (s'.queues q) := by
  rw [h]
  by_cases hq : q = p
  · subst hq
    rw [Function.update_self]
    exact hx
  · rw [Function.update_of_ne hq]
    exact .refl _

private theorem MsgLost.sameMsg {k : Int} {m : Ptr} {s s' : Ins} (h : MsgLost k m s s') (p : Ptr) :
    SameMsg (s.msgs p) (s'.msgs p) := by
  rw [h.msgs]
  by_cases hp : p = m
  · subst hp
    rw [Function.update_self]
    exact ⟨rfl,rfl,rfl,rfl⟩
  · rw [Function.update_of_ne hp]
    exact .refl _

private theorem MsgLost.msgQueue {k : Int} {m : Ptr} {s s' : Ins} (h : MsgLost k m s s') (p : Ptr) :
    (s'.queues p).msgQueue = (s.queues p).msgQueue ∨ p = (s.msgs m).memqueue ∧
      (s'.msgs m).refCount = 0 ∧ (s'.queues p).msgQueue = (s.queues p).msgQueue.erase m := by
  rw [h.queues,h.msgs]
  by_cases hp : p = (s.msgs m).memqueue
  · subst hp
    by_cases hk : (s.msgs m).refCount = k
    · exact .inr ⟨rfl,by simp [hk],by simp [hk]⟩
    · exact .inl (by simp [hk])
  · exact .inl (by simp [hp])

/-- What every handler relies on: a sound index, a sound store, lists of own messages, and
messages and consumers of allocated queues. -/
structure Base (s : Ins) : Prop where
  index : IndexInv s
  store : StoreInv s
  listed : ∀ q, ∀ m ∈ (s.queues q).msgQueue, m < s.nextMsg ∧ (s.msgs m).memqueue = q
  msgOwner : ∀ m < s.nextMsg, (s.msgs m).memqueue < s.nextQueue
  consumerOwner : ∀ c < s.nextConsumer, (s.consumers c).memqueue < s.nextQueue

theorem base_init : Base .init where
  index := ⟨Expiry.wf_empty,fun _ _ h => by cases h⟩
  store := storeInv_init
  listed _ _ h := by cases h
  msgOwner _ h := by cases h
  consumerOwner _ h := by cases h

section Moves
variable [Rebalance ExpiryNode]

theorem Move.storeInv {now : Nat} {a : Atom} {s s' : Ins} (hi : StoreInv s) (h : Move now a s s') :
    StoreInv s' := by
  cases a with
  | newCli | touch | bind | unbindAll | suspend | wakeup | serve => exact hi.quiet (h.toQuiet rfl)
  | putQueue args =>
    cases h with
    | putQueue hnone _ _ => exact storeInv_addQueue hi hnone rfl rfl rfl
  | create q msecs data =>
    cases h with
    | create hlive hq hc =>
      have := initialRef_nonneg msecs
      exact hi.gain _ hq hlive hc.queues hc.frame.nextQueue rfl (by simp only; omega) rfl hc.store
  | join q consumerId =>
    cases h with
    | join hlive hq _ _ =>
      refine hi.gain { s.queues q with
        refCount := (s.queues q).refCount + 1
        consumers := (s.queues q).consumers.insert consumerId s.nextConsumer } hq hlive ?_ rfl rfl
        (by simp only; omega) rfl rfl
      simp [setExpiry,addConsumer,newConsumer,updQueue]
  | enqueue b m =>
    cases h with
    | enqueue _ hm he =>
      obtain ⟨hlive,rfl⟩ := cliBinderEnqueueMsg_effect he
      exact hi.gain _ (hi.lt_of_listed hm) hlive rfl rfl rfl (by simp only [updMsg,updCli]; omega) rfl rfl
  | unpend b m =>
    obtain ⟨hl,_⟩ := h.unpend_lost
    exact hi.msgLost hl (hi.lt_of_refs hl.pos)
  | expireMsg m =>
    obtain ⟨hl,_⟩ := h.expireMsg_lost
    exact hi.msgLost hl (hi.lt_of_refs hl.pos)
  | drop m =>
    obtain ⟨hl,hm,_⟩ := h.drop_lost
    exact hi.msgLost hl (hi.lt_of_listed hm)
  | leave c => exact hi.consumerLost h.leave_lost.1
  | release q => exact hi.queueLost h.release_lost
  | expireQueue q => exact hi.queueLost h.expireQueue_lost.1

/-- Addresses are only ever handed out further up. -/
theorem Move.next_le {now : Nat} {a : Atom} {s s' : Ins} (h : Move now a s s') :
    s.nextMsg ≤ s'.nextMsg ∧ s.nextQueue ≤ s'.nextQueue ∧ s.nextConsumer ≤ s'.nextConsumer ∧
    s.nextCli ≤ s'.nextCli := by
  cases a with
  | newCli | touch | bind | unbindAll | suspend | wakeup | serve =>
    have hq := h.toQuiet rfl
    exact ⟨hq.nextMsg.ge,hq.nextQueue.ge,hq.nextConsumer.ge,hq.nextCli⟩
  | putQueue args =>
    cases h
    exact ⟨le_rfl,Nat.le_succ _,le_rfl,le_rfl⟩
  | create q msecs data =>
    cases h with
    | create _ _ hc =>
      exact ⟨hc.nextMsg.ge.trans' (Nat.le_succ _),hc.frame.nextQueue.ge,hc.frame.nextConsumer.ge,
        hc.frame.nextCli.ge⟩
  | join q consumerId =>
    cases h
    exact ⟨le_rfl,le_rfl,Nat.le_succ _,le_rfl⟩
  | enqueue b m =>
    cases h with
    | enqueue _ _ he =>
      obtain ⟨_,rfl⟩ := cliBinderEnqueueMsg_effect he
      exact ⟨le_rfl,le_rfl,le_rfl,le_rfl⟩
  | unpend b m =>
    obtain ⟨hl,_⟩ := h.unpend_lost
    exact ⟨hl.nextMsg.ge,hl.frame.nextQueue.ge,hl.frame.nextConsumer.ge,hl.frame.nextCli.ge⟩
  | expireMsg m =>
    obtain ⟨hl,_⟩ := h.expireMsg_lost
    exact ⟨hl.nextMsg.ge,hl.frame.nextQueue.ge,hl.frame.nextConsumer.ge,hl.frame.nextCli.ge⟩
  | drop m =>
    obtain ⟨hl,_⟩ := h.drop_lost
    exact ⟨hl.nextMsg.ge,hl.frame.nextQueue.ge,hl.frame.nextConsumer.ge,hl.frame.nextCli.ge⟩
  | leave c =>
    have hl := h.leave_lost.1
    exact ⟨hl.nextMsg.ge,hl.frame.nextQueue.ge,hl.frame.nextConsumer.ge,hl.frame.nextCli.ge⟩
  | release q =>
    have hl := h.release_lost
    exact ⟨hl.nextMsg.ge,hl.frame.nextQueue.ge,hl.frame.nextConsumer.ge,hl.frame.nextCli.ge⟩
  | expireQueue q =>
    have hl := h.expireQueue_lost.1
    exact ⟨hl.nextMsg.ge,hl.frame.nextQueue.ge,hl.frame.nextConsumer.ge,hl.frame.nextCli.ge⟩

/-- Only a PUT allocates a queue. -/
theorem Move.nextQueue {now : Nat} {a : Atom} {s s' : Ins} (h : Move now a s s') :
    s'.nextQueue = s.nextQueue ∨ ∃ args, a = .putQueue args ∧ s'.nextQueue = s.nextQueue + 1 := by
  cases a with
  | newCli | touch | bind | unbindAll | suspend | wakeup | serve => exact .inl (h.toQuiet rfl).nextQueue
  | putQueue args => cases h; exact .inr ⟨args,rfl,rfl⟩
  | create q msecs data => cases h with | create _ _ hc => exact .inl hc.frame.nextQueue
  | join q consumerId => cases h; exact .inl rfl
  | enqueue b m =>
    cases h with
    | enqueue _ _ he =>
      obtain ⟨_,rfl⟩ := cliBinderEnqueueMsg_effect he
      exact .inl rfl
  | unpend b m => exact .inl h.unpend_lost.1.frame.nextQueue
  | expireMsg m => exact .inl h.expireMsg_lost.1.frame.nextQueue
  | drop m => exact .inl h.drop_lost.1.frame.nextQueue
  | leave c => exact .inl h.leave_lost.1.frame.nextQueue
  | release q => exact .inl h.release_lost.frame.nextQueue
  | expireQueue q => exact .inl h.expireQueue_lost.1.frame.nextQueue

theorem Move.sameMsg {now : Nat} {a : Atom} {s s' : Ins} (h : Move now a s s') {m : Ptr}
    (hm : m < s.nextMsg) : SameMsg (s.msgs m) (s'.msgs m) := by
  cases a with
  | newCli | touch | bind | unbindAll | suspend | wakeup | serve =>
    rw [(h.toQuiet rfl).msgs]
    exact .refl _
  | putQueue args => cases h; exact .refl _
  | create q msecs data =>
    cases h with
    | create _ _ hc =>
      rw [hc.msgs,Function.update_of_ne (Nat.ne_of_lt hm)]
      exact .refl _
  | join q consumerId => cases h; exact .refl _
  | enqueue b p =>
    cases h with
    | enqueue _ _ he =>
      obtain ⟨_,rfl⟩ := cliBinderEnqueueMsg_effect he
      simp only [updQueue,updMsg,updCli]
      by_cases hp : m = p
      · subst hp
        rw [Function.update_self]
        exact ⟨rfl,rfl,rfl,rfl⟩
      · rw [Function.update_of_ne hp]
        exact .refl _
  | unpend b p => exact h.unpend_lost.1.sameMsg m
  | expireMsg p => exact h.expireMsg_lost.1.sameMsg m
  | drop p => exact h.drop_lost.1.sameMsg m
  | leave c => rw [h.leave_lost.1.msgs]; exact .refl _
  | release q => rw [h.release_lost.msgs]; exact .refl _
  | expireQueue q => rw [h.expireQueue_lost.1.msgs]; exact .refl _

theorem Move.sameQueue {now : Nat} {a : Atom} {s s' : Ins} (h : Move now a s s') {q : Ptr}
    (hq : q < s.nextQueue) : SameQueue (s.queues q) (s'.queues q) := by
  cases a with
  | newCli | touch | bind | unbindAll | suspend | wakeup | serve =>
    rw [(h.toQuiet rfl).queues q]
    exact ⟨rfl,rfl,rfl,rfl⟩
  | putQueue args =>
    cases h
    simp only [setExpiry,addQueue]
    rw [Function.update_of_ne (Nat.ne_of_lt hq)]
    exact .refl _
  | create p msecs data =>
    cases h with
    | create _ _ hc => exact sameQueue_update hc.queues ⟨rfl,rfl,rfl,rfl⟩
  | join p id =>
    cases h
    by_cases hp : q = p
    · subst hp
      simp only [setExpiry,addConsumer,newConsumer,updQueue,Function.update_self]
      exact ⟨rfl,rfl,rfl,rfl⟩
    · simp only [setExpiry,addConsumer,newConsumer,updQueue,Function.update_of_ne hp]
      exact .refl _
  | enqueue b m =>
    cases h with
    | enqueue _ _ he =>
      obtain ⟨_,rfl⟩ := cliBinderEnqueueMsg_effect he
      exact sameQueue_update rfl ⟨rfl,rfl,rfl,rfl⟩
  | unpend b m => exact sameQueue_update h.unpend_lost.1.queues ⟨rfl,rfl,rfl,rfl⟩
  | expireMsg m => exact sameQueue_update h.expireMsg_lost.1.queues ⟨rfl,rfl,rfl,rfl⟩
  | drop m => exact sameQueue_update h.drop_lost.1.queues ⟨rfl,rfl,rfl,rfl⟩
  | leave c => exact sameQueue_update h.leave_lost.1.queues ⟨rfl,rfl,rfl,rfl⟩
  | release p => exact sameQueue_update h.release_lost.queues ⟨rfl,rfl,rfl,rfl⟩
  | expireQueue p => exact sameQueue_update h.expireQueue_lost.1.queues ⟨rfl,rfl,rfl,rfl⟩

/-- How a move can change a message list: append the message it creates, or take one out. -/
theorem Move.msgQueue {now : Nat} {a : Atom} {s s' : Ins} (h : Move now a s s') {q : Ptr}
    (hq : q < s.nextQueue) :
    (s'.queues q).msgQueue = (s.queues q).msgQueue ∨
    (∃ msecs data, a = .create q msecs data ∧
      (s'.queues q).msgQueue = (s.queues q).msgQueue ++ [s.nextMsg]) ∨
    ∃ m, ((∃ b, a = .unpend b m) ∨ a = .expireMsg m ∨ a = .drop m) ∧ q = (s.msgs m).memqueue ∧
      (s'.msgs m).refCount = 0 ∧ (s'.queues q).msgQueue = (s.queues q).msgQueue.erase m := by
  cases a with
  | newCli | touch | bind | unbindAll | suspend | wakeup | serve =>
    rw [(h.toQuiet rfl).queues q]
    exact .inl rfl
  | putQueue args =>
    cases h
    exact .inl (by simp [setExpiry,addQueue,Nat.ne_of_lt hq])
  | create p msecs data =>
    cases h with
    | create _ _ hc =>
      by_cases hp : q = p
      · subst hp
        exact .inr (.inl ⟨msecs,data,rfl,by rw [hc.queues]; simp⟩)
      · exact .inl (by rw [hc.queues]; simp [hp])
  | join p consumerId =>
    cases h
    by_cases hp : q = p
    · subst hp
      exact .inl (by simp [setExpiry,addConsumer,newConsumer,updQueue])
    · exact .inl (by simp [setExpiry,addConsumer,newConsumer,updQueue,hp])
  | enqueue b m =>
    cases h with
    | enqueue _ _ he =>
      obtain ⟨_,rfl⟩ := cliBinderEnqueueMsg_effect he
      by_cases hp : q = (s.msgs m).memqueue
      · subst hp
        exact .inl (by simp [updQueue,updMsg,updCli])
      · exact .inl (by simp [updQueue,updMsg,updCli,hp])
  | unpend b m =>
    rcases h.unpend_lost.1.msgQueue q with he | ⟨hm,h0,he⟩
    · exact .inl he
    · exact .inr (.inr ⟨m,.inl ⟨b,rfl⟩,hm,h0,he⟩)
  | expireMsg m =>
    rcases h.expireMsg_lost.1.msgQueue q with he | ⟨hm,h0,he⟩
    · exact .inl he
    · exact .inr (.inr ⟨m,.inr (.inl rfl),hm,h0,he⟩)
  | drop m =>
    rcases h.drop_lost.1.msgQueue q with he | ⟨hm,h0,he⟩
    · exact .inl he
    · exact .inr (.inr ⟨m,.inr (.inr rfl),hm,h0,he⟩)
  | leave c =>
    rw [h.leave_lost.1.queues]
    by_cases hp : q = (s.consumers c).memqueue
    · subst hp
      exact .inl (by simp)
    · exact .inl (by simp [hp])
  | release p =>
    rw [h.release_lost.queues]
    by_cases hp : q = p
    · subst hp
      exact .inl (by simp)
    · exact .inl (by simp [hp])
  | expireQueue p =>
    rw [h.expireQueue_lost.1.queues]
    by_cases hp : q = p
    · subst hp
      exact .inl (by simp)
    · exact .inl (by simp [hp])

/-- A queue not allocated before the move is blank after it, or the one just created. -/
theorem Move.queue_new {now : Nat} {a : Atom} {s s' : Ins} (h : Move now a s s') {q : Ptr}
    (hq : s.nextQueue ≤ q) : s'.nextQueue ≤ q ∨ ∃ args, a = .putQueue args ∧ q = s.nextQueue ∧
      s'.queues q = { newQueue args with refCount := 1 } := by
  by_cases hq' : q < s'.nextQueue
  · rcases h.nextQueue with he | ⟨args,rfl,he⟩
    · exact absurd (he ▸ hq') (Nat.not_lt.mpr hq)
    · cases h
      have hqe : q = s.nextQueue := by lia
      subst hqe
      exact .inr ⟨args,rfl,rfl,by simp [setExpiry,addQueue]⟩
  · exact .inl (Nat.le_of_not_lt hq')

theorem Move.msgQueue_new {now : Nat} {a : Atom} {s s' : Ins} (h : Move now a s s') (hi : StoreInv s) {q : Ptr}
    (hq : s.nextQueue ≤ q) : (s'.queues q).msgQueue = [] := by
  rcases h.queue_new hq with hle | ⟨args,_,_,he⟩
  · exact ((h.storeInv hi).blank q hle).2.1
  · rw [he]
    rfl

/-- A consumer's queue, id and expiry stay; a new one belongs to the queue it joined. -/
theorem Move.sameConsumer {now : Nat} {a : Atom} {s s' : Ins} (h : Move now a s s') :
    s'.nextConsumer = s.nextConsumer ∧ SameConsumers s s' ∨
    ∃ q id, a = .join q id ∧ s'.nextConsumer = s.nextConsumer + 1 ∧ s'.consumers =
      Function.update s.consumers s.nextConsumer ⟨id,(s.queues q).consumerExpiry,q,false⟩ := by
  cases a with
  | newCli | touch | bind | unbindAll | suspend | wakeup | serve =>
    have hq := h.toQuiet rfl
    exact .inl ⟨hq.nextConsumer,fun c => by rw [hq.consumers]; exact ⟨rfl,rfl,rfl⟩⟩
  | putQueue args => cases h; exact .inl ⟨rfl,fun _ => ⟨rfl,rfl,rfl⟩⟩
  | create q msecs data =>
    cases h with
    | create _ _ hc =>
      exact .inl ⟨hc.frame.nextConsumer,fun c => by rw [hc.consumers]; exact ⟨rfl,rfl,rfl⟩⟩
  | join q id => cases h; exact .inr ⟨q,id,rfl,rfl,rfl⟩
  | enqueue b m =>
    cases h with
    | enqueue _ _ he =>
      obtain ⟨_,rfl⟩ := cliBinderEnqueueMsg_effect he
      exact .inl ⟨rfl,fun _ => ⟨rfl,rfl,rfl⟩⟩
  | unpend b m => exact .inl ⟨h.unpend_lost.1.frame.nextConsumer,h.unpend_lost.1.consumers⟩
  | expireMsg m => exact .inl ⟨h.expireMsg_lost.1.frame.nextConsumer,h.expireMsg_lost.1.consumers⟩
  | drop m => exact .inl ⟨h.drop_lost.1.frame.nextConsumer,h.drop_lost.1.consumers⟩
  | leave c => exact .inl ⟨h.leave_lost.1.frame.nextConsumer,h.leave_lost.1.consumers⟩
  | release q => exact .inl ⟨h.release_lost.frame.nextConsumer,h.release_lost.consumers⟩
  | expireQueue q => exact .inl ⟨h.expireQueue_lost.1.frame.nextConsumer,h.expireQueue_lost.1.consumers⟩

/-- Only memqueue_msg_create allocates a message. -/
theorem Move.nextMsg {now : Nat} {a : Atom} {s s' : Ins} (h : Move now a s s') :
    s'.nextMsg = s.nextMsg ∨ ∃ q msecs data, a = .create q msecs data ∧ s'.nextMsg = s.nextMsg + 1 ∧
      q < s.nextQueue ∧ (s'.msgs s.nextMsg).memqueue = q := by
  cases a with
  | newCli | touch | bind | unbindAll | suspend | wakeup | serve => exact .inl (h.toQuiet rfl).nextMsg
  | putQueue args => cases h; exact .inl rfl
  | create q msecs data =>
    cases h with
    | create _ hq hc => exact .inr ⟨q,msecs,data,rfl,hc.nextMsg,hq,by rw [hc.msgs]; simp⟩
  | join q id => cases h; exact .inl rfl
  | enqueue b m =>
    cases h with
    | enqueue _ _ he =>
      obtain ⟨_,rfl⟩ := cliBinderEnqueueMsg_effect he
      exact .inl rfl
  | unpend b m => exact .inl h.unpend_lost.1.nextMsg
  | expireMsg m => exact .inl h.expireMsg_lost.1.nextMsg
  | drop m => exact .inl h.drop_lost.1.nextMsg
  | leave c => exact .inl h.leave_lost.1.nextMsg
  | release q => exact .inl h.release_lost.nextMsg
  | expireQueue q => exact .inl h.expireQueue_lost.1.nextMsg

theorem Move.base {now : Nat} {a : Atom} {s s' : Ins} (hb : Base s) (h : Move now a s s') : Base s' := by
  obtain ⟨hmsg,hqueue,hcons,_⟩ := h.next_le
  have hstore := h.storeInv hb.store
  refine ⟨h.indexInv hb.index ?_ ?_,hstore,?_,?_,?_⟩
  · intro t
    cases t
    · exact hmsg
    · exact hqueue
    · exact hcons
  · intro t o ho
    cases h <;> simp only [Atom.links] at ho
    case putQueue =>
      obtain ⟨_,rfl,rfl⟩ := ho
      exact Nat.lt_succ_self _
    case create hc =>
      obtain ⟨_,rfl,rfl⟩ := ho
      exact lt_of_lt_of_eq (Nat.lt_succ_self s.nextMsg) hc.nextMsg.symm
    case join =>
      obtain ⟨rfl,rfl⟩ := ho
      exact Nat.lt_succ_self _
  · intro q m hm
    by_cases hq : q < s.nextQueue
    · have hold : ∀ p, p ∈ (s.queues q).msgQueue → p < s'.nextMsg ∧ (s'.msgs p).memqueue = q := by
        intro p hp
        obtain ⟨hlt,hown⟩ := hb.listed q p hp
        exact ⟨lt_of_lt_of_le hlt hmsg,(h.sameMsg hlt).memqueue.trans hown⟩
      rcases h.msgQueue hq with he | ⟨msecs,data,rfl,he⟩ | ⟨p,_,_,_,he⟩
      · exact hold m (he ▸ hm)
      · rw [he,List.mem_append,List.mem_singleton] at hm
        rcases hm with hm | rfl
        · exact hold m hm
        · cases h with
          | create _ _ hc => exact ⟨hc.nextMsg ▸ Nat.lt_succ_self _,by rw [hc.msgs]; simp⟩
      · exact hold m (List.mem_of_mem_erase (he ▸ hm))
    · rw [h.msgQueue_new hb.store (Nat.le_of_not_lt hq)] at hm
      cases hm
  · intro m hm
    rcases h.nextMsg with he | ⟨q,_,_,_,he,hq,hown⟩
    · rw [he] at hm
      rw [(h.sameMsg hm).memqueue]
      exact lt_of_lt_of_le (hb.msgOwner m hm) hqueue
    · by_cases hlt : m < s.nextMsg
      · rw [(h.sameMsg hlt).memqueue]
        exact lt_of_lt_of_le (hb.msgOwner m hlt) hqueue
      · have hme : m = s.nextMsg := by lia
        rw [hme,hown]
        exact lt_of_lt_of_le hq hqueue
  · intro c hc
    rcases h.sameConsumer with ⟨he,hsame⟩ | ⟨q,id,rfl,he,hsame⟩
    · rw [he] at hc
      rw [(hsame c).1]
      exact lt_of_lt_of_le (hb.consumerOwner c hc) hqueue
    · rw [hsame]
      by_cases hce : c = s.nextConsumer
      · subst hce
        rw [Function.update_self]
        cases h with
        | join _ hq _ _ => exact hq
      · rw [Function.update_of_ne hce]
        exact lt_of_lt_of_le (hb.consumerOwner c (by lia)) hqueue

end Moves
end Memqueue
