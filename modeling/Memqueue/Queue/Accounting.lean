import Memqueue.Queue.Ledger

/-! The reference count of a queue, split into its messages, its consumers and what is left:
the base reference that a DELETE or the expiry of the queue gives up. -/
namespace Memqueue
open Ins Fallible Expiry

namespace Ins

/-- The references the messages of a queue hold on it. -/
def msgRefs (s : Ins) (q : Ptr) : Int := ((s.queues q).msgQueue.map fun m => (s.msgs m).refCount).sum

/-- What is left of the count of a queue without its messages and consumers. -/
def baseRef (s : Ins) (q : Ptr) : Int :=
  (s.queues q).refCount - s.msgRefs q - (s.queues q).consumers.length

end Ins

/-- What a move takes from the base reference of a queue. -/
def Atom.base : Atom → Ptr → Int
  | .release p, q => if q = p then 1 else 0
  | .expireQueue p, q => if q = p then 1 else 0
  | _, _ => 0

private theorem sum_single {p : Ptr} {k : Int} : ∀ (L : List Ptr), L.Nodup →
    (L.map fun m => if m = p then k else 0).sum = if p ∈ L then k else 0 := by
  intro L
  induction L with
  | nil => simp
  | cons x L ih =>
    intro hn
    rw [List.nodup_cons] at hn
    rw [List.map_cons,List.sum_cons,ih hn.2]
    by_cases hx : x = p
    · subst hx
      simp [hn.1]
    · have hx' : p ≠ x := fun he => hx he.symm
      simp [hx,hx']

private theorem sum_erase {f : Ptr → Int} {p : Ptr} (L : List Ptr) (h0 : f p = 0) :
    ((L.erase p).map f).sum = (L.map f).sum := by
  induction L with
  | nil => rfl
  | cons x L ih =>
    by_cases hx : x = p
    · subst hx
      simp [h0]
    · rw [List.erase_cons_tail (by simpa using hx)]
      simp [ih]

private theorem QueueLost.baseRef_eq {p q : Ptr} {s s' : Ins} (h : QueueLost p s s')
    (hm : s'.msgRefs q = s.msgRefs q) : s'.baseRef q = s.baseRef q - if q = p then 1 else 0 := by
  by_cases hp : q = p
  · subst hp
    have hself := congrFun h.queues q
    rw [Function.update_self] at hself
    simp only [baseRef,hm,hself,if_true]
    omega
  · have hself := congrFun h.queues q
    rw [Function.update_of_ne hp] at hself
    simp only [baseRef,hm,hself,hp,if_false,sub_zero]

/-- A message that is pending, or scheduled, is in the list of its live queue. -/
theorem listed_of_pending {s : Ins} (hl : Ledger s) {b m : Ptr} (hm : m ∈ (s.clis b).pendingMsgs)
    (hlive : (s.queues (s.msgs m).memqueue).freed = false) :
    m ∈ (s.queues (s.msgs m).memqueue).msgQueue := by
  apply hl.listed_of_holders (hl.pending b m hm) hlive
  have h₁ := pend_pos (hl.lt_of_pending hm) hm
  have h₂ := held_nonneg s m
  simp only [holders]
  omega

theorem listed_of_indexed {s : Ins} (hb : Base s) (hl : Ledger s) {m : Ptr} (hm : m ∈ s.expiry.indexed .msg)
    (hlive : (s.queues (s.msgs m).memqueue).freed = false) :
    m ∈ (s.queues (s.msgs m).memqueue).msgQueue := by
  apply hl.listed_of_holders (hb.index.allocated .msg m hm) hlive
  have hpos := hl.scheduled m hm
  simp only [holders,held,hm,hpos,and_self,or_true,if_true]
  omega

private theorem baseRef_same {s s' : Ins} {q : Ptr} (hc : (s'.queues q).consumers = (s.queues q).consumers)
    (hr : (s'.queues q).refCount = (s.queues q).refCount) (hm : s'.msgRefs q = s.msgRefs q) :
    s'.baseRef q = s.baseRef q := by
  simp only [baseRef,hc,hr,hm]

section Moves
variable [Rebalance ExpiryNode] {now : Nat}

/-- The references of the messages of a queue change by what its listed messages gain,
and by those of a new message. -/
private theorem Move.msgRefs_eq {a : Atom} {s s' : Ins} (h : Move now a s s') (hb : Base s) {q : Ptr}
    (hq : q < s.nextQueue) (hn : ∀ msecs data, a ≠ .create q msecs data) :
    s'.msgRefs q = s.msgRefs q + ((s.queues q).msgQueue.map a.gain).sum := by
  have hmap : (s.queues q).msgQueue.map (fun m => (s'.msgs m).refCount) =
      (s.queues q).msgQueue.map fun m => (s.msgs m).refCount + a.gain m :=
    List.map_congr_left fun m hm => h.refCount_eq (hb.listed q m hm).1
  have hsum : ((s.queues q).msgQueue.map fun m => (s'.msgs m).refCount).sum =
      s.msgRefs q + ((s.queues q).msgQueue.map a.gain).sum := by
    rw [hmap,List.sum_map_add]
    rfl
  rcases h.msgQueue hq with he | ⟨msecs,data,ha,_⟩ | ⟨m,_,_,h0,he⟩
  · rw [Ins.msgRefs,he,hsum]
  · exact absurd ha (hn msecs data)
  · rw [Ins.msgRefs,he,sum_erase _ h0,hsum]

private theorem Move.msgRefs_same {a : Atom} {s s' : Ins} (h : Move now a s s') (hb : Base s) {q : Ptr}
    (hq : q < s.nextQueue) (hn : ∀ msecs data, a ≠ .create q msecs data) (ha : ∀ m, a.gain m = 0) :
    s'.msgRefs q = s.msgRefs q := by
  rw [h.msgRefs_eq hb hq hn,List.map_congr_left (g := fun _ => 0) fun m _ => ha m]
  simp

private theorem MsgLost.baseRef_eq {k : Int} {a : Atom} {m : Ptr} {s s' : Ins} (h : Move now a s s')
    (hb : Base s) (hl : Ledger s) (hlost : MsgLost k m s s')
    (ha : a.gain = fun p => if p = m then -k else 0) (hn : ∀ q msecs data, a ≠ .create q msecs data)
    (hin : m ∈ (s.queues (s.msgs m).memqueue).msgQueue) {q : Ptr} (hq : q < s.nextQueue) :
    s'.baseRef q = s.baseRef q := by
  have hcons : (s'.queues q).consumers = (s.queues q).consumers := queue_field Queue.consumers hlost.queues rfl
  have hnd : (s.queues q).msgQueue.Nodup := (hl.sorted q).imp Nat.ne_of_lt
  have hrefs := h.msgRefs_eq hb hq (hn q)
  rw [ha,sum_single _ hnd] at hrefs
  by_cases hqm : q = (s.msgs m).memqueue
  · have hself : (s'.queues q).refCount = (s.queues q).refCount - k := by
      rw [hlost.queues,hqm]
      simp
    rw [if_pos (by rw [hqm]; exact hin)] at hrefs
    simp only [baseRef,hcons,hrefs,hself]
    omega
  · have hself : (s'.queues q).refCount = (s.queues q).refCount := by
      rw [hlost.queues,Function.update_of_ne hqm]
    have hout : m ∉ (s.queues q).msgQueue := fun hm => hqm (hb.listed q m hm).2.symm
    rw [if_neg hout] at hrefs
    simp only [baseRef,hcons,hrefs,hself]
    omega

/-- The base reference changes only when it is given up. -/
theorem Move.baseRef_eq {a : Atom} {s s' : Ins} (h : Move now a s s') (hb : Base s) (hl : Ledger s) {q : Ptr}
    (hq : q < s.nextQueue) : s'.baseRef q = s.baseRef q - a.base q := by
  have hnd : (s.queues q).msgQueue.Nodup := (hl.sorted q).imp Nat.ne_of_lt
  cases a with
  | newCli | touch | bind | unbindAll | suspend | wakeup | serve =>
    have hq' := h.toQuiet rfl
    have hm := h.msgRefs_same hb hq (fun _ _ he => by cases he) (fun _ => rfl)
    simp only [Atom.base,sub_zero]
    exact baseRef_same (by rw [hq'.queues q]) (by rw [hq'.queues q]) hm
  | putQueue args =>
    cases h
    simp [baseRef,msgRefs,setExpiry,addQueue,Nat.ne_of_lt hq,Atom.base]
  | create p msecs data =>
    simp only [Atom.base,sub_zero]
    by_cases hp : q = p
    · subst hp
      cases h with
      | create _ _ hc =>
        have hold : (s.queues q).msgQueue.map (fun m => (s'.msgs m).refCount) =
            (s.queues q).msgQueue.map fun m => (s.msgs m).refCount := by
          refine List.map_congr_left fun m hm => ?_
          rw [hc.msgs,Function.update_of_ne (Nat.ne_of_lt (hb.listed q m hm).1)]
        have hnew : (s'.msgs s.nextMsg).refCount =
            initialRef msecs + pushCount (s.queues q).memqueueBinders (nextRev (s.queues q)) := by
          rw [hc.msgs]
          simp
        have hself := congrFun hc.queues q
        rw [Function.update_self] at hself
        simp only [baseRef,msgRefs,hself,List.map_append,hold,List.map_cons,List.map_nil,List.sum_append,
          List.sum_cons,List.sum_nil,hnew]
        omega
    · have hm := h.msgRefs_same hb hq (fun _ _ he => by cases he; exact hp rfl) (fun _ => rfl)
      cases h with
      | create _ _ hc =>
        have hself := congrFun hc.queues q
        rw [Function.update_of_ne hp] at hself
        exact baseRef_same (by rw [hself]) (by rw [hself]) hm
  | join p id =>
    have hm := h.msgRefs_same hb hq (fun _ _ he => by cases he) (fun _ => rfl)
    simp only [Atom.base,sub_zero]
    cases h with
    | join _ _ hnone _ =>
      by_cases hp : q = p
      · subst hp
        simp only [baseRef,hm]
        simp [setExpiry,addConsumer,newConsumer,updQueue,Table.insert_of_none hnone]
        omega
      · exact baseRef_same (by simp [setExpiry,addConsumer,newConsumer,updQueue,hp])
          (by simp [setExpiry,addConsumer,newConsumer,updQueue,hp]) hm
  | leave c =>
    have hm := h.msgRefs_same hb hq (fun _ _ he => by cases he) (fun _ => rfl)
    simp only [Atom.base,sub_zero]
    obtain ⟨hlost,hin⟩ := h.leave_lost
    by_cases hp : q = (s.consumers c).memqueue
    · subst hp
      have hself := congrFun hlost.queues (s.consumers c).memqueue
      rw [Function.update_self] at hself
      have hlen := Table.length_remove (hl.alive c hin hlost.live)
      simp only [baseRef,hm,hself]
      omega
    · have hself := congrFun hlost.queues q
      rw [Function.update_of_ne hp] at hself
      exact baseRef_same (by rw [hself]) (by rw [hself]) hm
  | enqueue b m =>
    have hm := h.msgRefs_eq hb hq (fun _ _ he => by cases he)
    have hgain : (Atom.enqueue b m).gain = fun p => if p = m then 1 else 0 := rfl
    rw [hgain,sum_single _ hnd] at hm
    simp only [Atom.base,sub_zero]
    cases h with
    | enqueue _ hin he =>
      obtain ⟨_,rfl⟩ := cliBinderEnqueueMsg_effect he
      by_cases hp : q = (s.msgs m).memqueue
      · subst hp
        rw [if_pos hin] at hm
        simp only [baseRef,hm]
        simp [updQueue,updMsg,updCli]
      · have hout : m ∉ (s.queues q).msgQueue := fun hmem => hp (hb.listed q m hmem).2.symm
        rw [if_neg hout,add_zero] at hm
        exact baseRef_same (by simp [updQueue,updMsg,updCli,hp]) (by simp [updQueue,updMsg,updCli,hp]) hm
  | unpend b m =>
    obtain ⟨hlost,hmem,_⟩ := h.unpend_lost
    simp only [Atom.base,sub_zero]
    exact hlost.baseRef_eq h hb hl rfl (fun _ _ _ he => by cases he) (listed_of_pending hl hmem hlost.live) hq
  | expireMsg m =>
    obtain ⟨hlost,hmem,_⟩ := h.expireMsg_lost
    simp only [Atom.base,sub_zero]
    exact hlost.baseRef_eq h hb hl rfl (fun _ _ _ he => by cases he) (listed_of_indexed hb hl hmem hlost.live) hq
  | drop m =>
    obtain ⟨hlost,hmem,_⟩ := h.drop_lost
    simp only [Atom.base,sub_zero]
    exact hlost.baseRef_eq h hb hl (by funext p; simp [Atom.gain]) (fun _ _ _ he => by cases he) hmem hq
  | release p =>
    have hm := h.msgRefs_same hb hq (fun _ _ he => by cases he) (fun _ => rfl)
    exact h.release_lost.baseRef_eq hm
  | expireQueue p =>
    have hm := h.msgRefs_same hb hq (fun _ _ he => by cases he) (fun _ => rfl)
    exact h.expireQueue_lost.1.baseRef_eq hm

/-- Whatever still refers to a queue keeps it alive: no base reference is overdrawn, and no scheduled
queue, held message or scheduled consumer belongs to a freed one. -/
structure QueueInv (s : Ins) : Prop where
  base : ∀ q < s.nextQueue, (s.queues q).freed = false → 0 ≤ s.baseRef q
  queues : ∀ q ∈ s.expiry.indexed .memqueue, (s.queues q).freed = false ∧ 1 ≤ s.baseRef q
  msgs : ∀ m < s.nextMsg, m ∈ s.expiry.indexed .msg ∨ (∃ b, m ∈ (s.clis b).pendingMsgs) →
    (s.queues (s.msgs m).memqueue).freed = false
  consumers : ∀ c ∈ s.expiry.indexed .consumer, (s.queues (s.consumers c).memqueue).freed = false

omit [Rebalance ExpiryNode] in
theorem queueInv_init : QueueInv .init where
  base _ h := by cases h
  queues _ h := by cases h
  msgs _ h := by cases h
  consumers _ h := by cases h

/-- The base reference is only given up by one who has it. -/
def Atom.owns (s : Ins) : Atom → Prop
  | .release q => q ∉ s.expiry.indexed .memqueue ∧ 1 ≤ s.baseRef q
  | _ => True

omit [Rebalance ExpiryNode] in
/-- A scheduled or pending message has a holder. -/
theorem holders_pos {s : Ins} (hl : Ledger s) {m : Ptr}
    (h : m ∈ s.expiry.indexed .msg ∨ ∃ b, m ∈ (s.clis b).pendingMsgs) : 1 ≤ s.holders m := by
  rcases h with h | ⟨b,h⟩
  · have hpos := hl.scheduled m h
    simp only [holders,held,h,hpos,and_self,or_true,if_true]
    omega
  · have h₁ := pend_pos (hl.lt_of_pending h) h
    have h₂ := held_nonneg s m
    simp only [holders]
    omega

omit [Rebalance ExpiryNode] in
private theorem sum_eq_zero {f : Ptr → Int} : ∀ {L : List Ptr}, (∀ m ∈ L, 0 ≤ f m) → (L.map f).sum ≤ 0 →
    ∀ m ∈ L, f m = 0 := by
  intro L
  induction L with
  | nil => simp
  | cons x L ih =>
    intro h hs m hm
    rw [List.map_cons,List.sum_cons] at hs
    have hx := h x List.mem_cons_self
    have hL : 0 ≤ (L.map f).sum := List.sum_nonneg (by simpa using fun m hm => h m (List.mem_cons_of_mem _ hm))
    rcases List.mem_cons.mp hm with rfl | hm
    · omega
    · exact ih (fun m hm => h m (List.mem_cons_of_mem _ hm)) (by omega) m hm

section Kept
variable {a : Atom} {s s' : Ins} (h : Move now a s s') (hb : Base s) (hl : Ledger s) (hi : QueueInv s)
  (ha : a.owns s)
include h hb hl hi ha

private theorem base_after {q : Ptr} (hq : q < s.nextQueue) (hlive : (s.queues q).freed = false) :
    0 ≤ s'.baseRef q ∧ (q ∈ s'.expiry.indexed .memqueue → 1 ≤ s'.baseRef q) := by
  have hbase := hi.base q hq hlive
  have heq := h.baseRef_eq hb hl hq
  obtain ⟨_,hidx⟩ := h.indexed hb.index
  have hnew : ¬ a.links s .memqueue q := by
    intro hx
    cases a <;> simp only [Atom.links] at hx
    · exact absurd hx.2.2 (Nat.ne_of_lt hq)
    · exact absurd hx.2.1 (by decide)
    · exact absurd hx.1 (by decide)
  have hin : q ∈ s'.expiry.indexed .memqueue → q ∈ s.expiry.indexed .memqueue ∧ ¬ a.unlinks .memqueue q := by
    intro hm
    rcases (hidx .memqueue q).mp hm with hm | hm
    · exact hm
    · exact absurd hm hnew
  by_cases h0 : a.base q = 0
  · rw [h0,sub_zero] at heq
    rw [heq]
    exact ⟨hbase,fun hm => (hi.queues q (hin hm).1).2⟩
  · cases a <;> simp only [Atom.base,not_true_eq_false,ite_eq_right_iff,Classical.not_imp] at h0
    · obtain ⟨rfl,_⟩ := h0
      simp only [Atom.base,if_true] at heq
      have := (hi.queues q h.expireQueue_lost.2).2
      refine ⟨by omega,fun hm => absurd ?_ (hin hm).2⟩
      exact ⟨rfl,rfl⟩
    · obtain ⟨rfl,_⟩ := h0
      simp only [Atom.base,if_true] at heq
      have := ha.2
      exact ⟨by omega,fun hm => absurd (hin hm).1 ha.1⟩

/-- When a move frees a queue, nothing that counts is left of it. -/
theorem Move.freed_empty {q : Ptr} (hq : q < s.nextQueue) (hlive : (s.queues q).freed = false)
    (hfreed : (s'.queues q).freed = true) :
    s'.baseRef q = 0 ∧ (∀ m ∈ (s'.queues q).msgQueue, (s'.msgs m).refCount = 0) ∧
    (s'.queues q).consumers = [] ∧ q ∉ s'.expiry.indexed .memqueue ∧
    (∀ m < s'.nextMsg, (s'.msgs m).memqueue = q → s'.holders m = 0) ∧
    ∀ c ∈ s'.expiry.indexed .consumer, (s'.consumers c).memqueue ≠ q := by
  have hb' := h.base hb
  have hq' : q < s'.nextQueue := lt_of_lt_of_le hq h.next_le.2.1
  have hzero := hb'.store.zero q hq' hfreed
  obtain ⟨hbase,hbaseIn⟩ := base_after h hb hl hi ha hq hlive
  have hpos : ∀ m ∈ (s'.queues q).msgQueue, 0 ≤ (s'.msgs m).refCount := by
    intro m hm
    rw [h.refs_after hb hl hq hlive hm]
    exact holders_nonneg s' m
  have hsum : 0 ≤ s'.msgRefs q := List.sum_nonneg (by simpa using hpos)
  have hdef : s'.baseRef q = (s'.queues q).refCount - s'.msgRefs q - (s'.queues q).consumers.length := rfl
  have hrefs := sum_eq_zero hpos (show s'.msgRefs q ≤ 0 by omega)
  have hcons : (s'.queues q).consumers = [] := List.length_eq_zero_iff.mp (by omega)
  refine ⟨by omega,hrefs,hcons,fun hm => ?_,fun m hm hown => ?_,fun c hc hown => ?_⟩
  · have := hbaseIn hm
    omega
  · by_cases hlt : m < s.nextMsg
    · have hown₀ : (s.msgs m).memqueue = q := (h.sameMsg hlt).memqueue.symm.trans hown
      by_cases hin : m ∈ (s'.queues q).msgQueue
      · rw [← h.refs_after hb hl hq hlive hin]
        exact hrefs m hin
      · exact h.gone_after hb hl hlt (hown₀.symm ▸ hlive) (hown₀.symm ▸ hin)
    · rcases h.nextMsg with he | ⟨p,_,_,rfl,_,_,_⟩
      · exact absurd (he ▸ hm) hlt
      · rw [h.freed_eq rfl hq,hlive] at hfreed
        cases hfreed
  · have hin := h.alive_after hb hl hc (fun _ => hown.symm ▸ hlive)
    rw [hown,hcons] at hin
    cases hin

omit hb hl hi ha in
private theorem baseRef_new {q : Ptr} (hq : ¬ q < s.nextQueue) (hq' : q < s'.nextQueue) :
    (s'.queues q).freed = false ∧ s'.baseRef q = 1 := by
  rcases h.queue_new (Nat.le_of_not_lt hq) with hle | ⟨args,_,_,he⟩
  · exact absurd hq' (Nat.not_lt.mpr hle)
  · simp [baseRef,msgRefs,he,newQueue]

private theorem live_after {q : Ptr} (hq : q < s.nextQueue) (hlive : (s.queues q).freed = false)
    (huse : q ∈ s'.expiry.indexed .memqueue ∨ (∃ m < s'.nextMsg, (s'.msgs m).memqueue = q ∧ 1 ≤ s'.holders m) ∨
      ∃ c ∈ s'.expiry.indexed .consumer, (s'.consumers c).memqueue = q) : (s'.queues q).freed = false := by
  cases hf : (s'.queues q).freed with
  | false => rfl
  | true =>
    obtain ⟨_,_,_,hqueue,hmsg,hcons⟩ := h.freed_empty hb hl hi ha hq hlive hf
    rcases huse with hu | ⟨m,hm,hown,hpos⟩ | ⟨c,hc,hown⟩
    · exact absurd hu hqueue
    · have := hmsg m hm hown
      omega
    · exact absurd hown (hcons c hc)

omit ha in
private theorem live_of_held {m : Ptr} (hlt : m < s.nextMsg)
    (hm : m ∈ s'.expiry.indexed .msg ∨ ∃ b, m ∈ (s'.clis b).pendingMsgs) :
    (s.queues (s.msgs m).memqueue).freed = false := by
  obtain ⟨_,hidx⟩ := h.indexed hb.index
  rcases hm with hm | ⟨b,hm⟩
  · rcases (hidx .msg m).mp hm with ⟨hm,_⟩ | hm
    · exact hi.msgs m hlt (.inl hm)
    · cases a <;> simp only [Atom.links] at hm
      · exact absurd hm.2.1 (by decide)
      · exact absurd hm.2.2 (Nat.ne_of_lt hlt)
      · exact absurd hm.1 (by decide)
  · rcases h.pendingMsgs (hl.pollers b) with he | ⟨q,_,_,_,he⟩ | ⟨p,rfl,he⟩ | ⟨p,_,_,he⟩
    · exact hi.msgs m hlt (.inr ⟨b,he ▸ hm⟩)
    · rw [he,List.mem_append] at hm
      rcases hm with hm | hm
      · exact hi.msgs m hlt (.inr ⟨b,hm⟩)
      · exact absurd (List.eq_of_mem_replicate hm) (Nat.ne_of_lt hlt)
    · rw [he,List.mem_append,List.mem_singleton] at hm
      rcases hm with hm | rfl
      · exact hi.msgs m hlt (.inr ⟨b,hm⟩)
      · cases h with
        | enqueue _ _ hq => exact (cliBinderEnqueueMsg_effect hq).1
    · exact hi.msgs m hlt (.inr ⟨b,List.mem_of_mem_erase (he ▸ hm)⟩)

/-- No move that owns what it gives up leaves a reference to a freed queue behind. -/
theorem Move.queueInv : QueueInv s' := by
  have hb' := h.base hb
  have hl' := h.ledger hb hl
  obtain ⟨_,hidx⟩ := h.indexed hb.index
  refine ⟨fun q hq hlive => ?_,fun q hq => ?_,fun m hm hheld => ?_,fun c hc => ?_⟩
  · by_cases hlt : q < s.nextQueue
    · exact (base_after h hb hl hi ha hlt (h.live_of hlt hlive)).1
    · have := (baseRef_new h hlt hq).2
      omega
  · by_cases hlt : q < s.nextQueue
    · have hin : q ∈ s.expiry.indexed .memqueue := by
        rcases (hidx .memqueue q).mp hq with ⟨hq,_⟩ | hq
        · exact hq
        · cases a <;> simp only [Atom.links] at hq
          · exact absurd hq.2.2 (Nat.ne_of_lt hlt)
          · exact absurd hq.2.1 (by decide)
          · exact absurd hq.1 (by decide)
      have hlive := (hi.queues q hin).1
      exact ⟨live_after h hb hl hi ha hlt hlive (.inl hq),(base_after h hb hl hi ha hlt hlive).2 hq⟩
    · obtain ⟨hf,hbase⟩ := baseRef_new h hlt (hb'.index.allocated .memqueue q hq)
      exact ⟨hf,by omega⟩
  · by_cases hlt : m < s.nextMsg
    · have hlive := live_of_held h hb hl hi hlt hheld
      have hown := (h.sameMsg hlt).memqueue
      rw [hown]
      exact live_after h hb hl hi ha (hb.msgOwner m hlt) hlive
        (.inr (.inl ⟨m,hm,hown,holders_pos hl' hheld⟩))
    · rcases h.nextMsg with he | ⟨q,_,_,rfl,_,hq,hown⟩
      · exact absurd (he ▸ hm) hlt
      · have hme : m = s.nextMsg := by
          cases h with
          | create _ _ hc =>
            have := hc.nextMsg
            lia
        subst hme
        rw [hown,h.freed_eq rfl hq]
        cases h with
        | create hlive _ _ => exact hlive
  · rcases (hidx .consumer c).mp hc with ⟨hc₀,_⟩ | hc₀
    · have hlt : c < s.nextConsumer := hb.index.allocated .consumer c hc₀
      have hown : (s'.consumers c).memqueue = (s.consumers c).memqueue := by
        rcases h.sameConsumer with ⟨_,hsame⟩ | ⟨_,_,_,_,hsame⟩
        · exact (hsame c).1
        · rw [hsame,Function.update_of_ne (Nat.ne_of_lt hlt)]
      rw [hown]
      exact live_after h hb hl hi ha (hb.consumerOwner c hlt) (hi.consumers c hc₀) (.inr (.inr ⟨c,hc,hown⟩))
    · cases a <;> simp only [Atom.links] at hc₀
      · exact absurd hc₀.2.1 (by decide)
      · exact absurd hc₀.2.1 (by decide)
      · obtain ⟨_,rfl⟩ := hc₀
        cases h with
        | join hlive _ _ _ =>
          simpa [setExpiry,addConsumer,newConsumer,updQueue] using hlive

end Kept

end Moves
end Memqueue
