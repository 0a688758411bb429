import Memqueue.Queue.Traces

/-! Who holds a message: its expiry or its permanence, and the pollers it is pending for.
These counts agree with ref_count in every live queue and in every run, DELETE included. -/
namespace Memqueue
open Ins Fallible Expiry

namespace Ins

/-- The reference a message has by its own expiry: for good with -1, while scheduled otherwise. -/
def held (s : Ins) (m : Ptr) : Int :=
  if (s.msgs m).expiry = -1 ∨ 0 < (s.msgs m).expiry ∧ m ∈ s.expiry.indexed .msg then 1 else 0

/-- The pending_msg entries that hold a message. -/
def pend (s : Ins) (m : Ptr) : Nat := ∑ b ∈ Finset.range s.nextCli, (s.clis b).pendingMsgs.count m

def holders (s : Ins) (m : Ptr) : Int := s.held m + s.pend m

end Ins

theorem held_nonneg (s : Ins) (m : Ptr) : 0 ≤ s.held m := by
  unfold held
  split <;> omega

theorem holders_nonneg (s : Ins) (m : Ptr) : 0 ≤ s.holders m := by
  have := held_nonneg s m
  unfold holders
  omega

theorem pend_pos {s : Ins} {b m : Ptr} (hb : b < s.nextCli) (hm : m ∈ (s.clis b).pendingMsgs) :
    1 ≤ s.pend m := by
  have h₁ : (s.clis b).pendingMsgs.count m ≤ s.pend m :=
    Finset.single_le_sum (f := fun b => (s.clis b).pendingMsgs.count m) (fun _ _ => Nat.zero_le _)
      (Finset.mem_range.mpr hb)
  have h₂ := List.count_pos_iff.mpr hm
  omega

theorem held_congr {s s' : Ins} {m : Ptr} (he : (s'.msgs m).expiry = (s.msgs m).expiry)
    (hi : m ∈ s'.expiry.indexed .msg ↔ m ∈ s.expiry.indexed .msg) : s'.held m = s.held m := by
  simp only [held,he,hi]

theorem pend_congr {s s' : Ins} {m : Ptr} (hn : s'.nextCli = s.nextCli)
    (hp : ∀ b < s.nextCli, (s'.clis b).pendingMsgs.count m = (s.clis b).pendingMsgs.count m) :
    s'.pend m = s.pend m := by
  simp only [pend,hn]
  exact Finset.sum_congr rfl fun b hb => hp b (Finset.mem_range.mp hb)

/-- Adding to one poller's pending list. -/
theorem pend_add {s s' : Ins} {b m : Ptr} {k : Nat} (hb : b < s.nextCli) (hn : s'.nextCli = s.nextCli)
    (hself : (s'.clis b).pendingMsgs.count m = (s.clis b).pendingMsgs.count m + k)
    (hne : ∀ p, p ≠ b → (s'.clis p).pendingMsgs.count m = (s.clis p).pendingMsgs.count m) :
    s'.pend m = s.pend m + k := by
  simp only [pend,hn]
  rw [← Finset.add_sum_erase _ _ (Finset.mem_range.mpr hb),
    ← Finset.add_sum_erase (Finset.range s.nextCli) (fun b => (s.clis b).pendingMsgs.count m)
      (Finset.mem_range.mpr hb),hself]
  have hrest : ∑ p ∈ (Finset.range s.nextCli).erase b, (s'.clis p).pendingMsgs.count m =
      ∑ p ∈ (Finset.range s.nextCli).erase b, (s.clis p).pendingMsgs.count m :=
    Finset.sum_congr rfl fun p hp => hne p (Finset.ne_of_mem_erase hp)
  rw [hrest]
  omega

/-- The pushes to each poller add up to the pushes. -/
private theorem sum_pushCountTo {n : Nat} (r : Int) : ∀ (L : List MemqueueBinder), (∀ β ∈ L, β.cliBinder < n) →
    ∑ b ∈ Finset.range n, pushCountTo L r b = pushCount L r := by
  intro L
  induction L with
  | nil =>
    intro _
    simp [pushCountTo,pushCount]
  | cons β L ih =>
    intro h
    have hβ := h β List.mem_cons_self
    have hL := ih fun γ hγ => h γ (List.mem_cons_of_mem _ hγ)
    by_cases hr : β.rev ≤ r
    · have hto : ∀ b, pushCountTo (β :: L) r b = pushCountTo L r b + if β.cliBinder = b then 1 else 0 := by
        intro b
        simp [pushCountTo,List.countP_cons,hr]
      have hone : ∑ b ∈ Finset.range n, (if β.cliBinder = b then 1 else 0) = 1 := by
        rw [Finset.sum_ite_eq,if_pos (Finset.mem_range.mpr hβ)]
      simp only [hto,Finset.sum_add_distrib,hL,hone]
      simp [pushCount,hr]
    · have hto : ∀ b, pushCountTo (β :: L) r b = pushCountTo L r b := by
        intro b
        simp [pushCountTo,hr]
      simp only [hto,hL]
      simp [pushCount,hr]

/-- Messages and consumers are accounted for in every queue that is not freed. -/
structure Ledger (s : Ins) : Prop where
  scheduled : ∀ m ∈ s.expiry.indexed .msg, 0 < (s.msgs m).expiry
  pollers : ∀ b, s.nextCli ≤ b → (s.clis b).pendingMsgs = []
  pending : ∀ b, ∀ m ∈ (s.clis b).pendingMsgs, m < s.nextMsg
  bound : ∀ q, ∀ β ∈ (s.queues q).memqueueBinders, β.cliBinder < s.nextCli
  sorted : ∀ q, (s.queues q).msgQueue.Pairwise (· < ·)
  refs : ∀ q, ∀ m ∈ (s.queues q).msgQueue, (s.queues q).freed = false →
    (s.msgs m).refCount = s.holders m
  gone : ∀ m < s.nextMsg, (s.queues (s.msgs m).memqueue).freed = false →
    m ∉ (s.queues (s.msgs m).memqueue).msgQueue → s.holders m = 0
  ids : ∀ q, (Table.keys (s.queues q).consumers).Nodup
  registered : ∀ q k c, (k,c) ∈ (s.queues q).consumers →
    c < s.nextConsumer ∧ (s.consumers c).memqueue = q ∧ (s.consumers c).consumerId = k
  alive : ∀ c ∈ s.expiry.indexed .consumer, (s.queues (s.consumers c).memqueue).freed = false →
    ((s.consumers c).consumerId,c) ∈ (s.queues (s.consumers c).memqueue).consumers

theorem ledger_init : Ledger .init where
  scheduled _ h := by cases h
  pollers _ _ := rfl
  pending _ _ h := by cases h
  bound _ _ h := by cases h
  sorted _ := List.Pairwise.nil
  refs _ _ h := by cases h
  gone _ h := by cases h
  ids _ := List.nodup_nil
  registered _ _ _ h := by cases h
  alive _ h := by cases h

/-- A message somebody holds is in the list of its queue. -/
theorem Ledger.listed_of_holders {s : Ins} (hl : Ledger s) {m : Ptr} (hm : m < s.nextMsg)
    (hlive : (s.queues (s.msgs m).memqueue).freed = false) (h : 1 ≤ s.holders m) :
    m ∈ (s.queues (s.msgs m).memqueue).msgQueue := by
  by_contra hn
  have := hl.gone m hm hlive hn
  omega

theorem Ledger.lt_of_pending {s : Ins} (hl : Ledger s) {b m : Ptr} (hm : m ∈ (s.clis b).pendingMsgs) :
    b < s.nextCli := by
  by_contra hn
  rw [hl.pollers b (Nat.le_of_not_lt hn)] at hm
  cases hm

/-- What a move adds to the references of an existing message. -/
def Atom.gain : Atom → Ptr → Int
  | .enqueue _ p, m => if m = p then 1 else 0
  | .unpend _ p, m => if m = p then -1 else 0
  | .expireMsg p, m => if m = p then -1 else 0
  | _, _ => 0

private theorem MsgLost.refCount_eq {k : Int} {p m : Ptr} {s s' : Ins} (h : MsgLost k p s s') :
    (s'.msgs m).refCount = (s.msgs m).refCount + if m = p then -k else 0 := by
  rw [h.msgs]
  by_cases hm : m = p
  · subst hm
    simp only [Function.update_self,if_true]
    omega
  · simp [hm]

section Moves
variable [Rebalance ExpiryNode] {now : Nat}

theorem Move.refCount_eq {a : Atom} {s s' : Ins} (h : Move now a s s') {m : Ptr} (hm : m < s.nextMsg) :
    (s'.msgs m).refCount = (s.msgs m).refCount + a.gain m := by
  cases a with
  | newCli | touch | bind | unbindAll | suspend | wakeup | serve =>
    rw [(h.toQuiet rfl).msgs]
    simp [Atom.gain]
  | putQueue args => cases h; simp [setExpiry,addQueue,Atom.gain]
  | create q msecs data =>
    cases h with
    | create _ _ hc =>
      rw [hc.msgs,Function.update_of_ne (Nat.ne_of_lt hm)]
      simp [Atom.gain]
  | join q id => cases h; simp [setExpiry,addConsumer,newConsumer,updQueue,Atom.gain]
  | enqueue b p =>
    cases h with
    | enqueue _ _ he =>
      obtain ⟨_,rfl⟩ := cliBinderEnqueueMsg_effect he
      by_cases hp : m = p
      · subst hp
        simp [updQueue,updMsg,updCli,Atom.gain]
      · simp [updQueue,updMsg,updCli,Atom.gain,hp]
  | unpend b p => exact h.unpend_lost.1.refCount_eq
  | expireMsg p => exact h.expireMsg_lost.1.refCount_eq
  | drop p => simpa [Atom.gain] using h.drop_lost.1.refCount_eq (m := m)
  | leave c => rw [h.leave_lost.1.msgs]; simp [Atom.gain]
  | release q => rw [h.release_lost.msgs]; simp [Atom.gain]
  | expireQueue q => rw [h.expireQueue_lost.1.msgs]; simp [Atom.gain]

/-- How a move changes the pending list of a poller. -/
theorem Move.pendingMsgs {a : Atom} {s s' : Ins} (h : Move now a s s') {b : Ptr}
    (hb : s.nextCli ≤ b → (s.clis b).pendingMsgs = []) :
    (s'.clis b).pendingMsgs = (s.clis b).pendingMsgs ∨
    (∃ q msecs data, a = .create q msecs data ∧ (s'.clis b).pendingMsgs = (s.clis b).pendingMsgs ++
      List.replicate (pushCountTo (s.queues q).memqueueBinders (nextRev (s.queues q)) b) s.nextMsg) ∨
    (∃ m, a = .enqueue b m ∧ (s'.clis b).pendingMsgs = (s.clis b).pendingMsgs ++ [m]) ∨
    ∃ m, a = .unpend b m ∧ m ∈ (s.clis b).pendingMsgs ∧
      (s'.clis b).pendingMsgs = (s.clis b).pendingMsgs.erase m := by
  cases a with
  | newCli | touch | bind | unbindAll | suspend | wakeup | serve =>
    have hq := h.toQuiet rfl
    by_cases hlt : b < s.nextCli
    · exact .inl (hq.pending b hlt)
    · have hle := Nat.le_of_not_lt hlt
      exact .inl ((hq.fresh b hle (hb hle)).trans (hb hle).symm)
  | putQueue args => cases h; exact .inl rfl
  | create q msecs data =>
    cases h with
    | create _ _ hc => exact .inr (.inl ⟨q,msecs,data,rfl,hc.pending b⟩)
  | join q id => cases h; exact .inl rfl
  | enqueue p m =>
    cases h with
    | enqueue _ _ he =>
      obtain ⟨_,rfl⟩ := cliBinderEnqueueMsg_effect he
      by_cases hp : b = p
      · subst hp
        exact .inr (.inr (.inl ⟨m,rfl,by simp [updQueue,updMsg,updCli]⟩))
      · exact .inl (by simp [updQueue,updMsg,updCli,hp])
  | unpend p m =>
    obtain ⟨_,hm,hc⟩ := h.unpend_lost
    rw [hc]
    by_cases hp : b = p
    · subst hp
      exact .inr (.inr (.inr ⟨m,rfl,hm,by simp⟩))
    · exact .inl (by simp [hp])
  | expireMsg p => rw [h.expireMsg_lost.2.2]; exact .inl rfl
  | drop p => rw [h.drop_lost.2.2]; exact .inl rfl
  | leave c => rw [h.leave_lost.1.clis]; exact .inl rfl
  | release q => rw [h.release_lost.clis]; exact .inl rfl
  | expireQueue q => rw [h.expireQueue_lost.1.clis]; exact .inl rfl

theorem Move.nextCli {a : Atom} {s s' : Ins} (h : Move now a s s') :
    s'.nextCli = s.nextCli ∨ ∃ timeout, a = .newCli timeout ∧ s' = addCli s timeout := by
  cases a with
  | newCli timeout => cases h; exact .inr ⟨timeout,rfl,rfl⟩
  | touch => cases h; exact .inl rfl
  | bind => cases h; exact .inl rfl
  | unbindAll b => cases h; exact .inl (memqueueUnbindAll_effect s b).frame.nextCli
  | suspend => cases h; exact .inl rfl
  | wakeup => cases h; exact .inl rfl
  | serve => cases h; exact .inl rfl
  | putQueue args => cases h; exact .inl rfl
  | create q msecs data => cases h with | create _ _ hc => exact .inl hc.frame.nextCli
  | join q id => cases h; exact .inl rfl
  | enqueue b m =>
    cases h with
    | enqueue _ _ he =>
      obtain ⟨_,rfl⟩ := cliBinderEnqueueMsg_effect he
      exact .inl rfl
  | unpend b m => exact .inl h.unpend_lost.1.frame.nextCli
  | expireMsg m => exact .inl h.expireMsg_lost.1.frame.nextCli
  | drop m => exact .inl h.drop_lost.1.frame.nextCli
  | leave c => exact .inl h.leave_lost.1.frame.nextCli
  | release q => exact .inl h.release_lost.frame.nextCli
  | expireQueue q => exact .inl h.expireQueue_lost.1.frame.nextCli

omit [Rebalance ExpiryNode] in
private theorem pend_addCli {s : Ins} (timeout : Int) (m : Ptr) : (addCli s timeout).pend m = s.pend m := by
  simp only [pend,addCli]
  rw [Finset.sum_range_succ,Function.update_self]
  simp only [List.count_nil,Nat.add_zero]
  refine Finset.sum_congr rfl fun b hb => ?_
  rw [Function.update_of_ne (Nat.ne_of_lt (Finset.mem_range.mp hb))]

/-- Only enqueueing and releasing change how often an existing message is pending. -/
theorem Move.pend_eq {a : Atom} {s s' : Ins} (h : Move now a s s') (hl : Ledger s) {m : Ptr}
    (hm : m < s.nextMsg) :
    (s'.pend m : Int) = s.pend m + match a with
      | .enqueue _ p => if m = p then 1 else 0
      | .unpend _ p => if m = p then -1 else 0
      | _ => 0 := by
  rcases h.nextCli with hn | ⟨timeout,rfl,rfl⟩
  · have hsame : (∀ b < s.nextCli, (s'.clis b).pendingMsgs.count m = (s.clis b).pendingMsgs.count m) →
        (s'.pend m : Int) = s.pend m := fun hb => by rw [pend_congr hn hb]
    cases a with
    | enqueue p m' =>
      cases h with
      | enqueue hp _ he =>
        obtain ⟨_,rfl⟩ := cliBinderEnqueueMsg_effect he
        by_cases hmm : m = m'
        · subst hmm
          rw [pend_add (k := 1) hp hn (by simp [updQueue,updMsg,updCli])
            (fun b hb => by simp [updQueue,updMsg,updCli,hb])]
          simp
        · simp only [hmm,if_false,add_zero]
          refine hsame fun b _ => ?_
          by_cases hb : b = p
          · subst hb
            have : m' ≠ m := fun he => hmm he.symm
            simp [updQueue,updMsg,updCli,List.count_append,this]
          · simp [updQueue,updMsg,updCli,hb]
    | unpend p m' =>
      obtain ⟨_,hmem,hc⟩ := h.unpend_lost
      by_cases hmm : m = m'
      · subst hmm
        have hp := hl.lt_of_pending hmem
        have hpos := List.count_pos_iff.mpr hmem
        have hback : s.pend m = s'.pend m + 1 := by
          refine pend_add (hn.symm ▸ hp) hn.symm ?_ (fun b hb => by rw [hc]; simp [hb])
          rw [hc]
          simp only [Function.update_self,List.count_erase_self]
          omega
        simp only [if_true,hback]
        omega
      · simp only [hmm,if_false,add_zero]
        refine hsame fun b _ => ?_
        rw [hc]
        by_cases hb : b = p
        · subst hb
          simp [List.count_erase_of_ne hmm]
        · simp [hb]
    | create q msecs data =>
      simp only [add_zero]
      refine hsame fun b _ => ?_
      rcases h.pendingMsgs (hl.pollers b) with he | ⟨_,_,_,_,he⟩ | ⟨_,he,_⟩ | ⟨_,he,_⟩
      · rw [he]
      · rw [he,List.count_append,List.count_replicate]
        have : s.nextMsg ≠ m := Nat.ne_of_gt hm
        simp [this]
      · cases he
      · cases he
    | newCli | touch | bind | unbindAll | suspend | wakeup | serve | putQueue | join | expireMsg | drop |
      leave | release | expireQueue =>
      simp only [add_zero]
      refine hsame fun b _ => ?_
      rcases h.pendingMsgs (hl.pollers b) with he | ⟨_,_,_,he,_⟩ | ⟨_,he,_⟩ | ⟨_,he,_⟩
      · rw [he]
      all_goals cases he
  · simp [pend_addCli]

/-- Only the expiry of a message takes its own reference away. -/
theorem Move.held_eq {a : Atom} {s s' : Ins} (h : Move now a s s') (hb : Base s) (hl : Ledger s) {m : Ptr}
    (hm : m < s.nextMsg) :
    s'.held m = s.held m + match a with
      | .expireMsg p => if m = p then -1 else 0
      | _ => 0 := by
  obtain ⟨_,hidx⟩ := h.indexed hb.index
  have hexp := (h.sameMsg hm).expiry
  have hlinks : ¬ a.links s .msg m := by
    intro hx
    cases a <;> simp only [Atom.links] at hx
    · exact absurd hx.2.1 (by decide)
    · exact absurd hx.2.2 (Nat.ne_of_lt hm)
    · exact absurd hx.1 (by decide)
  by_cases hun : a.unlinks .msg m
  · cases a <;> simp only [Atom.unlinks] at hun
    · exact absurd hun.1 (by decide)
    · obtain ⟨_,rfl⟩ := hun
      have hin := h.expireMsg_lost.2.1
      have hpos := hl.scheduled m hin
      have hout : m ∉ s'.expiry.indexed .msg := by
        rw [hidx]
        simp [Atom.unlinks,Atom.links]
      have hne : (s.msgs m).expiry ≠ -1 := by omega
      simp [held,hexp,hout,hin,hpos,hne]
    · exact absurd hun.1 (by decide)
  · have hsame : s'.held m = s.held m := by
      apply held_congr hexp
      rw [hidx]
      simp [hun,hlinks]
    rw [hsame]
    cases a <;> simp only [add_zero]
    simp only [Atom.unlinks,true_and] at hun
    simp [hun]

theorem Move.holders_eq {a : Atom} {s s' : Ins} (h : Move now a s s') (hb : Base s) (hl : Ledger s) {m : Ptr}
    (hm : m < s.nextMsg) : s'.holders m = s.holders m + a.gain m := by
  have h₁ := h.pend_eq hl hm
  have h₂ := h.held_eq hb hl hm
  simp only [holders,h₂]
  cases a <;> simp only [Atom.gain,add_zero] at h₁ h₂ ⊢ <;> omega

/-- How a move changes the suspended handlers. -/
theorem Move.handlers {a : Atom} {s s' : Ins} (h : Move now a s s') :
    s'.handlers = s.handlers ∨ (∃ x, a = .suspend x ∧ s'.handlers = x :: s.handlers) ∨
    ∃ x, a = .wakeup x ∧ s'.handlers = s.handlers.erase x := by
  cases a with
  | newCli => cases h; exact .inl rfl
  | touch => cases h; exact .inl rfl
  | bind => cases h; exact .inl rfl
  | unbindAll b => cases h; exact .inl (memqueueUnbindAll_effect s b).frame.handlers
  | suspend x => cases h; exact .inr (.inl ⟨x,rfl,rfl⟩)
  | wakeup x => cases h; exact .inr (.inr ⟨x,rfl,rfl⟩)
  | serve => cases h; exact .inl rfl
  | putQueue args => cases h; exact .inl rfl
  | create q msecs data => cases h with | create _ _ hc => exact .inl hc.frame.handlers
  | join q id => cases h; exact .inl rfl
  | enqueue b m =>
    cases h with
    | enqueue _ _ he =>
      obtain ⟨_,rfl⟩ := cliBinderEnqueueMsg_effect he
      exact .inl rfl
  | unpend b m => exact .inl h.unpend_lost.1.frame.handlers
  | expireMsg m => exact .inl h.expireMsg_lost.1.frame.handlers
  | drop m => exact .inl h.drop_lost.1.frame.handlers
  | leave c => exact .inl h.leave_lost.1.frame.handlers
  | release q => exact .inl h.release_lost.frame.handlers
  | expireQueue q => exact .inl h.expireQueue_lost.1.frame.handlers

/-- A queue that is live after a move was live before it. -/
theorem Move.live_of {a : Atom} {s s' : Ins} (h : Move now a s s') {q : Ptr} (hq : q < s.nextQueue)
    (hlive : (s'.queues q).freed = false) : (s.queues q).freed = false := by
  by_cases ha : a.frees = true
  · have hupd : ∀ (p : Ptr) (x : Queue), (s.queues p).freed = false →
        s'.queues = Function.update s.queues p x → (s.queues q).freed = false := by
      intro p x hp he
      by_cases hqp : q = p
      · rw [hqp]
        exact hp
      · rw [he,Function.update_of_ne hqp] at hlive
        exact hlive
    cases a with
    | leave c => exact hupd _ _ h.leave_lost.1.live h.leave_lost.1.queues
    | unpend b m => exact hupd _ _ h.unpend_lost.1.live h.unpend_lost.1.queues
    | expireMsg m => exact hupd _ _ h.expireMsg_lost.1.live h.expireMsg_lost.1.queues
    | drop m => exact hupd _ _ h.drop_lost.1.live h.drop_lost.1.queues
    | release p => exact hupd _ _ h.release_lost.live h.release_lost.queues
    | expireQueue p => exact hupd _ _ h.expireQueue_lost.1.live h.expireQueue_lost.1.queues
    | newCli | touch | bind | unbindAll | suspend | wakeup | serve | putQueue | create | join | enqueue =>
      cases ha
  · rw [← h.freed_eq (by simpa using ha) hq]
    exact hlive

/-- How a move changes the table of consumers of an existing queue. -/
theorem Move.consumers {a : Atom} {s s' : Ins} (h : Move now a s s') {q : Ptr} (hq : q < s.nextQueue) :
    (s'.queues q).consumers = (s.queues q).consumers ∨
    (∃ id, a = .join q id ∧ (s.queues q).consumers.get id = none ∧
      (s'.queues q).consumers = (s.queues q).consumers.insert id s.nextConsumer) ∨
    ∃ c, a = .leave c ∧ q = (s.consumers c).memqueue ∧
      (s'.queues q).consumers = (s.queues q).consumers.remove (s.consumers c).consumerId := by
  cases a with
  | newCli | touch | bind | unbindAll | suspend | wakeup | serve =>
    rw [(h.toQuiet rfl).queues q]
    exact .inl rfl
  | putQueue args =>
    cases h
    exact .inl (by simp [setExpiry,addQueue,Nat.ne_of_lt hq])
  | create p msecs data => cases h with | create _ _ hc => exact .inl (queue_field Queue.consumers hc.queues rfl)
  | join p id =>
    cases h with
    | join _ _ hnone _ =>
      by_cases hp : q = p
      · subst hp
        exact .inr (.inl ⟨id,rfl,hnone,by simp [setExpiry,addConsumer,newConsumer,updQueue]⟩)
      · exact .inl (by simp [setExpiry,addConsumer,newConsumer,updQueue,hp])
  | enqueue b m =>
    cases h with
    | enqueue _ _ he =>
      obtain ⟨_,rfl⟩ := cliBinderEnqueueMsg_effect he
      exact .inl (queue_field Queue.consumers rfl rfl)
  | leave c =>
    have hl := h.leave_lost.1
    by_cases hp : q = (s.consumers c).memqueue
    · refine .inr (.inr ⟨c,rfl,hp,?_⟩)
      rw [hl.queues,hp]
      simp
    · exact .inl (by rw [hl.queues]; simp [hp])
  | unpend b m => exact .inl (queue_field Queue.consumers h.unpend_lost.1.queues rfl)
  | expireMsg m => exact .inl (queue_field Queue.consumers h.expireMsg_lost.1.queues rfl)
  | drop m => exact .inl (queue_field Queue.consumers h.drop_lost.1.queues rfl)
  | release p => exact .inl (queue_field Queue.consumers h.release_lost.queues rfl)
  | expireQueue p => exact .inl (queue_field Queue.consumers h.expireQueue_lost.1.queues rfl)

/-- How a move changes the binders of an existing queue. -/
theorem Move.memqueueBinders {a : Atom} {s s' : Ins} (h : Move now a s s') {q : Ptr} (hq : q < s.nextQueue) :
    (s'.queues q).memqueueBinders = (s.queues q).memqueueBinders ∨
    (∃ β, a = .bind β ∧ q = β.memqueue ∧
      (s'.queues q).memqueueBinders = β :: (s.queues q).memqueueBinders) ∨
    ∃ b, a = .unbindAll b ∧ (s'.queues q).memqueueBinders =
      (s.queues q).memqueueBinders.diff ((s.clis b).memqueues.filter fun β => β.memqueue = q) := by
  cases a with
  | newCli => cases h; exact .inl rfl
  | touch => cases h; exact .inl rfl
  | suspend => cases h; exact .inl rfl
  | wakeup => cases h; exact .inl rfl
  | serve => cases h; exact .inl rfl
  | bind β =>
    cases h
    by_cases hp : q = β.memqueue
    · refine .inr (.inl ⟨β,rfl,hp,?_⟩)
      subst hp
      simp [memqueueBind,updQueue,updCli]
    · exact .inl (by simp [memqueueBind,updQueue,updCli,hp])
  | unbindAll b =>
    cases h
    exact .inr (.inr ⟨b,rfl,by rw [(memqueueUnbindAll_effect s b).queues q]⟩)
  | putQueue args =>
    cases h
    exact .inl (by simp [setExpiry,addQueue,Nat.ne_of_lt hq])
  | create p msecs data => cases h with | create _ _ hc => exact .inl (queue_field Queue.memqueueBinders hc.queues rfl)
  | join p id =>
    cases h
    by_cases hp : q = p
    · subst hp
      exact .inl (by simp [setExpiry,addConsumer,newConsumer,updQueue])
    · exact .inl (by simp [setExpiry,addConsumer,newConsumer,updQueue,hp])
  | enqueue b m =>
    cases h with
    | enqueue _ _ he =>
      obtain ⟨_,rfl⟩ := cliBinderEnqueueMsg_effect he
      exact .inl (queue_field Queue.memqueueBinders rfl rfl)
  | leave c => exact .inl (queue_field Queue.memqueueBinders h.leave_lost.1.queues rfl)
  | unpend b m => exact .inl (queue_field Queue.memqueueBinders h.unpend_lost.1.queues rfl)
  | expireMsg m => exact .inl (queue_field Queue.memqueueBinders h.expireMsg_lost.1.queues rfl)
  | drop m => exact .inl (queue_field Queue.memqueueBinders h.drop_lost.1.queues rfl)
  | release p => exact .inl (queue_field Queue.memqueueBinders h.release_lost.queues rfl)
  | expireQueue p => exact .inl (queue_field Queue.memqueueBinders h.expireQueue_lost.1.queues rfl)

omit [Rebalance ExpiryNode] in
private theorem pushCountTo_of_bound {L : List MemqueueBinder} {n b : Ptr} (r : Int)
    (h : ∀ β ∈ L, β.cliBinder < n) (hb : n ≤ b) : pushCountTo L r b = 0 := by
  refine List.countP_eq_zero.mpr fun β hβ => ?_
  have hne : β.cliBinder ≠ b := Nat.ne_of_lt (lt_of_lt_of_le (h β hβ) hb)
  simp [hne]

/-- A new message is held by its expiry and by the pollers it was pushed to, and by nobody else. -/
private theorem Created.holders_new {q : Ptr} {msecs : Int} {data : Bytes} {s s' : Ins} (hb : Base s)
    (hl : Ledger s) (h : Move now (.create q msecs data) s s') :
    (s'.msgs s.nextMsg).refCount = s'.holders s.nextMsg := by
  obtain ⟨_,hidx⟩ := h.indexed hb.index
  cases h with
  | create _ _ hc =>
    have hnew : s'.msgs s.nextMsg = ⟨data,
        initialRef msecs + pushCount (s.queues q).memqueueBinders (nextRev (s.queues q)),
        nextRev (s.queues q),true,q,msecs,false⟩ := by
      rw [hc.msgs]
      simp
    have hin : s.nextMsg ∈ s'.expiry.indexed .msg ↔ 0 < msecs := by
      rw [hidx]
      have hold : s.nextMsg ∉ s.expiry.indexed .msg := fun hm =>
        absurd (hb.index.allocated .msg _ hm) (lt_irrefl s.nextMsg)
      simp [Atom.unlinks,Atom.links,hold]
    have hheld : s'.held s.nextMsg = initialRef msecs := by
      simp only [held,hnew,hin,initialRef,and_self]
      split <;> split <;> omega
    have hpend : s'.pend s.nextMsg = pushCount (s.queues q).memqueueBinders (nextRev (s.queues q)) := by
      rw [← sum_pushCountTo _ _ (hl.bound q)]
      simp only [pend,hc.frame.nextCli]
      refine Finset.sum_congr rfl fun b _ => ?_
      have hold : (s.clis b).pendingMsgs.count s.nextMsg = 0 :=
        List.count_eq_zero.mpr fun hm => absurd (hl.pending b _ hm) (lt_irrefl s.nextMsg)
      rw [hc.pending b,List.count_append,hold]
      simp
    rw [hnew,holders,hheld,hpend]

/-- A queue not there before a move has no binders and no consumers after it. -/
theorem Move.lists_new {a : Atom} {s s' : Ins} (h : Move now a s s') (hb : Base s) {q : Ptr}
    (hq : s.nextQueue ≤ q) : (s'.queues q).memqueueBinders = [] ∧ (s'.queues q).consumers = [] := by
  rcases h.queue_new hq with hle | ⟨args,_,_,he⟩
  · exact ((h.base hb).store.blank q hle).2.2
  · rw [he]
    exact ⟨rfl,rfl⟩

section Kept
variable {a : Atom} {s s' : Ins} (h : Move now a s s') (hb : Base s) (hl : Ledger s)
include h hb hl

private theorem kept_scheduled :
    ∀ m ∈ s'.expiry.indexed .msg, 0 < (s'.msgs m).expiry := by
  obtain ⟨_,hidx⟩ := h.indexed hb.index
  intro m hm
  rcases (hidx .msg m).mp hm with ⟨hm,_⟩ | hm
  · rw [(h.sameMsg (hb.index.allocated .msg m hm)).expiry]
    exact hl.scheduled m hm
  · cases a <;> simp only [Atom.links] at hm
    · exact absurd hm.2.1 (by decide)
    · obtain ⟨hpos,_,rfl⟩ := hm
      cases h with
      | create _ _ hc =>
        rw [hc.msgs]
        simpa using hpos
    · exact absurd hm.1 (by decide)

omit hb in
private theorem kept_pollers :
    ∀ b, s'.nextCli ≤ b → (s'.clis b).pendingMsgs = [] := by
  have hcli := h.next_le.2.2.2
  intro b hle
  have hold := hl.pollers b (hcli.trans hle)
  rcases h.pendingMsgs (hl.pollers b) with he | ⟨q,_,_,_,he⟩ | ⟨m,rfl,_⟩ | ⟨m,_,hm,_⟩
  · rw [he,hold]
  · rw [he,hold,pushCountTo_of_bound _ (hl.bound q) (hcli.trans hle)]
    rfl
  · cases h with
    | enqueue hlt _ _ => exact absurd hlt (Nat.not_lt.mpr (hcli.trans hle))
  · rw [hold] at hm
    cases hm

private theorem kept_pending :
    ∀ b, ∀ m ∈ (s'.clis b).pendingMsgs, m < s'.nextMsg := by
  have hmsg := h.next_le.1
  intro b m hm
  rcases h.pendingMsgs (hl.pollers b) with he | ⟨q,_,_,rfl,he⟩ | ⟨p,rfl,he⟩ | ⟨p,_,_,he⟩
  · exact lt_of_lt_of_le (hl.pending b m (he ▸ hm)) hmsg
  · rw [he,List.mem_append] at hm
    rcases hm with hm | hm
    · exact lt_of_lt_of_le (hl.pending b m hm) hmsg
    · cases h with
      | create _ _ hc =>
        rw [List.eq_of_mem_replicate hm,hc.nextMsg]
        exact Nat.lt_succ_self _
  · rw [he,List.mem_append,List.mem_singleton] at hm
    rcases hm with hm | rfl
    · exact lt_of_lt_of_le (hl.pending b m hm) hmsg
    · cases h with
      | enqueue _ hin _ => exact lt_of_lt_of_le (hb.listed _ m hin).1 hmsg
  · exact lt_of_lt_of_le (hl.pending b m (List.mem_of_mem_erase (he ▸ hm))) hmsg

private theorem kept_bound :
    ∀ q, ∀ β ∈ (s'.queues q).memqueueBinders, β.cliBinder < s'.nextCli := by
  have hcli := h.next_le.2.2.2
  intro q β hβ
  by_cases hq : q < s.nextQueue
  · rcases h.memqueueBinders hq with he | ⟨γ,rfl,_,he⟩ | ⟨b,_,he⟩
    · exact lt_of_lt_of_le (hl.bound q β (he ▸ hβ)) hcli
    · rw [he] at hβ
      rcases List.mem_cons.mp hβ with rfl | hβ
      · cases h with
        | bind _ _ _ hlt _ => exact lt_of_lt_of_le hlt hcli
      · exact lt_of_lt_of_le (hl.bound q β hβ) hcli
    · rw [he] at hβ
      exact lt_of_lt_of_le (hl.bound q β (List.diff_subset _ _ hβ)) hcli
  · rw [(h.lists_new hb (Nat.le_of_not_lt hq)).1] at hβ
    cases hβ

private theorem kept_sorted :
    ∀ q, (s'.queues q).msgQueue.Pairwise (· < ·) := by
  intro q
  by_cases hq : q < s.nextQueue
  · rcases h.msgQueue hq with he | ⟨_,_,_,he⟩ | ⟨m,_,_,_,he⟩
    · rw [he]
      exact hl.sorted q
    · rw [he,List.pairwise_append]
      refine ⟨hl.sorted q,List.pairwise_singleton _ _,fun x hx y hy => ?_⟩
      rw [List.mem_singleton.mp hy]
      exact (hb.listed q x hx).1
    · rw [he]
      exact (hl.sorted q).sublist List.erase_sublist
  · rw [h.msgQueue_new hb.store (Nat.le_of_not_lt hq)]
    exact List.Pairwise.nil

/-- Counts and holders still agree in a queue that was live before the move. -/
theorem Move.refs_after {q m : Ptr} (hq : q < s.nextQueue) (hlive : (s.queues q).freed = false)
    (hm : m ∈ (s'.queues q).msgQueue) : (s'.msgs m).refCount = s'.holders m := by
  have hold : m ∈ (s.queues q).msgQueue → (s'.msgs m).refCount = s'.holders m := by
    intro hm
    have hlt := (hb.listed q m hm).1
    rw [h.refCount_eq hlt,h.holders_eq hb hl hlt,hl.refs q m hm hlive]
  rcases h.msgQueue hq with he | ⟨_,_,rfl,he⟩ | ⟨p,_,_,_,he⟩
  · exact hold (he ▸ hm)
  · rw [he,List.mem_append,List.mem_singleton] at hm
    rcases hm with hm | rfl
    · exact hold hm
    · exact Created.holders_new hb hl h
  · exact hold (List.mem_of_mem_erase (he ▸ hm))

omit hb in
private theorem gain_of_gone {m : Ptr} (h0 : s.holders m = 0)
    (hin : m ∉ (s.queues (s.msgs m).memqueue).msgQueue) : a.gain m = 0 := by
  have hfree : ∀ b, m ∉ (s.clis b).pendingMsgs := by
    intro b hmem
    have h1 := pend_pos (hl.lt_of_pending hmem) hmem
    have h2 := held_nonneg s m
    simp only [holders] at h0
    omega
  have hunsched : m ∉ s.expiry.indexed .msg := by
    intro hmem
    have hpos := hl.scheduled m hmem
    simp only [holders,held,hmem,hpos,and_self,or_true,if_true] at h0
    omega
  cases a <;> simp only [Atom.gain] <;> split <;> rename_i hmp <;> try rfl
  all_goals
    subst hmp
    exfalso
  · cases h with
    | enqueue _ hmem _ => exact hin hmem
  · exact hfree _ h.unpend_lost.2.1
  · exact hunsched h.expireMsg_lost.2.1

/-- A message that is in no list after the move is held by nobody, if its queue was live. -/
theorem Move.gone_after {m : Ptr} (hlt : m < s.nextMsg) (hlive : (s.queues (s.msgs m).memqueue).freed = false)
    (hout : m ∉ (s'.queues (s.msgs m).memqueue).msgQueue) : s'.holders m = 0 := by
  have hq := hb.msgOwner m hlt
  rw [h.holders_eq hb hl hlt]
  by_cases hin : m ∈ (s.queues (s.msgs m).memqueue).msgQueue
  · rcases h.msgQueue hq with he | ⟨_,_,_,he⟩ | ⟨p,_,_,h0,he⟩
    · exact absurd (he ▸ hin) hout
    · exact absurd (by rw [he]; exact List.mem_append_left _ hin) hout
    · have hmp : m = p := by
        by_contra hne
        exact hout (by rw [he]; exact (List.mem_erase_of_ne hne).mpr hin)
      subst hmp
      rw [← hl.refs _ m hin hlive,← h.refCount_eq hlt]
      exact h0
  · have h0 := hl.gone m hlt hlive hin
    have hgain := gain_of_gone h hl h0 hin
    omega

omit hb hl in
private theorem new_listed {m : Ptr} (hlt : ¬ m < s.nextMsg) (hm : m < s'.nextMsg) :
    m ∈ (s'.queues (s'.msgs m).memqueue).msgQueue := by
  rcases h.nextMsg with he | ⟨q,_,_,rfl,he,hq,hown⟩
  · exact absurd (he ▸ hm) hlt
  · have hme : m = s.nextMsg := by lia
    subst hme
    rw [hown]
    cases h with
    | create _ _ hc =>
      rw [hc.queues]
      simp

/-- A scheduled consumer is in the table of its queue, if that was live before the move. -/
theorem Move.alive_after {c : Ptr} (hc : c ∈ s'.expiry.indexed .consumer)
    (hlive : (s'.consumers c).memqueue < s.nextQueue → (s.queues (s'.consumers c).memqueue).freed = false) :
    ((s'.consumers c).consumerId,c) ∈ (s'.queues (s'.consumers c).memqueue).consumers := by
  obtain ⟨_,hidx⟩ := h.indexed hb.index
  rcases (hidx .consumer c).mp hc with ⟨hc,hun⟩ | hc
  · have hlt : c < s.nextConsumer := hb.index.allocated .consumer c hc
    have hown := hb.consumerOwner c hlt
    have hsame : (s'.consumers c).memqueue = (s.consumers c).memqueue ∧
        (s'.consumers c).consumerId = (s.consumers c).consumerId := by
      rcases h.sameConsumer with ⟨_,hsame⟩ | ⟨_,_,_,_,hsame⟩
      · exact ⟨(hsame c).1,(hsame c).2.1⟩
      · rw [hsame,Function.update_of_ne (Nat.ne_of_lt hlt)]
        exact ⟨rfl,rfl⟩
    rw [hsame.1] at hlive ⊢
    rw [hsame.2]
    have hin := hl.alive c hc (hlive hown)
    rcases h.consumers hown with he | ⟨id,_,hnone,he⟩ | ⟨d,rfl,hd,he⟩
    · rw [he]
      exact hin
    · rw [he,Table.insert_of_none hnone]
      exact List.mem_append_left _ hin
    · rw [he,Table.mem_remove (hl.ids _)]
      refine ⟨hin,fun hid => ?_⟩
      have hdin := hl.alive d h.leave_lost.2 (hd ▸ h.leave_lost.1.live)
      rw [← hd,← hid] at hdin
      have hcd : some c = some d :=
        (Table.get_of_mem (hl.ids _) hin).symm.trans (Table.get_of_mem (hl.ids _) hdin)
      cases hcd
      exact hun ⟨rfl,rfl⟩
  · cases a <;> simp only [Atom.links] at hc
    · exact absurd hc.2.1 (by decide)
    · exact absurd hc.2.1 (by decide)
    · obtain ⟨_,rfl⟩ := hc
      cases h with
      | join _ _ hnone _ =>
        simp [setExpiry,addConsumer,newConsumer,updQueue,Table.insert_of_none hnone]

private theorem kept_refs :
    ∀ q, ∀ m ∈ (s'.queues q).msgQueue, (s'.queues q).freed = false →
      (s'.msgs m).refCount = s'.holders m := by
  intro q m hm hlive
  by_cases hq : q < s.nextQueue
  · exact h.refs_after hb hl hq (h.live_of hq hlive) hm
  · rw [h.msgQueue_new hb.store (Nat.le_of_not_lt hq)] at hm
    cases hm

private theorem kept_gone :
    ∀ m < s'.nextMsg, (s'.queues (s'.msgs m).memqueue).freed = false →
      m ∉ (s'.queues (s'.msgs m).memqueue).msgQueue → s'.holders m = 0 := by
  intro m hm hlive hout
  by_cases hlt : m < s.nextMsg
  · rw [(h.sameMsg hlt).memqueue] at hlive hout
    exact h.gone_after hb hl hlt (h.live_of (hb.msgOwner m hlt) hlive) hout
  · exact absurd (new_listed h hlt hm) hout

private theorem kept_ids :
    ∀ q, (Table.keys (s'.queues q).consumers).Nodup := by
  intro q
  by_cases hq : q < s.nextQueue
  · rcases h.consumers hq with he | ⟨id,_,_,he⟩ | ⟨c,_,_,he⟩
    · rw [he]
      exact hl.ids q
    · rw [he]
      exact Table.keys_insert_nodup (hl.ids q) _ _
    · rw [he]
      exact Table.keys_remove_nodup (hl.ids q) _
  · rw [(h.lists_new hb (Nat.le_of_not_lt hq)).2]
    exact List.nodup_nil

private theorem kept_registered :
    ∀ q k c, (k,c) ∈ (s'.queues q).consumers →
      c < s'.nextConsumer ∧ (s'.consumers c).memqueue = q ∧ (s'.consumers c).consumerId = k := by
  have hcons := h.next_le.2.2.1
  intro q k c hc
  by_cases hq : q < s.nextQueue
  · have hold : (k,c) ∈ (s.queues q).consumers →
        c < s'.nextConsumer ∧ (s'.consumers c).memqueue = q ∧ (s'.consumers c).consumerId = k := by
      intro hc
      obtain ⟨hlt,hown,hid⟩ := hl.registered q k c hc
      refine ⟨lt_of_lt_of_le hlt hcons,?_⟩
      rcases h.sameConsumer with ⟨_,hsame⟩ | ⟨_,_,_,_,hsame⟩
      · exact ⟨(hsame c).1.trans hown,(hsame c).2.1.trans hid⟩
      · rw [hsame,Function.update_of_ne (Nat.ne_of_lt hlt)]
        exact ⟨hown,hid⟩
    rcases h.consumers hq with he | ⟨id,rfl,hnone,he⟩ | ⟨d,_,_,he⟩
    · exact hold (he ▸ hc)
    · rw [he,Table.insert_of_none hnone,List.mem_append,List.mem_singleton] at hc
      rcases hc with hc | hc
      · exact hold hc
      · cases hc
        cases h
        exact ⟨Nat.lt_succ_self _,by simp [setExpiry,addConsumer,newConsumer,updQueue]⟩
    · rw [he] at hc
      exact hold ((Table.mem_remove (hl.ids q)).mp hc).1
  · rw [(h.lists_new hb (Nat.le_of_not_lt hq)).2] at hc
    cases hc

private theorem kept_alive :
    ∀ c ∈ s'.expiry.indexed .consumer, (s'.queues (s'.consumers c).memqueue).freed = false →
      ((s'.consumers c).consumerId,c) ∈ (s'.queues (s'.consumers c).memqueue).consumers :=
  fun _ hc hlive => h.alive_after hb hl hc fun hq => h.live_of hq hlive

/-- The accounts of messages and consumers balance after every move. -/
theorem Move.ledger : Ledger s' :=
  ⟨kept_scheduled h hb hl,kept_pollers h hl,kept_pending h hb hl,kept_bound h hb hl,kept_sorted h hb hl,
    kept_refs h hb hl,kept_gone h hb hl,kept_ids h hb hl,kept_registered h hb hl,kept_alive h hb hl⟩

end Kept

/-- What the moves of a step preserve, the step preserves. -/
theorem step_keeps {s s' : Ins} {l : Label} {out : Option Response} (I : Ins → Prop) (hb : Base s)
    (hl : Ledger s) (hmove : ∀ a t u, l.allows s a → Base t → Ledger t → I t → Move l.now a t u → I u)
    (hs : I s) (h : step s l = .ok (s',out)) : Base s' ∧ Ledger s' ∧ I s' := by
  obtain ⟨as,has,ha⟩ := step_trace hb h
  refine has.invariant (I := fun t => Base t ∧ Ledger t ∧ I t) ?_ ⟨hb,hl,hs⟩
  rintro a t u hx ⟨hbt,hlt,hi⟩ hm
  exact ⟨hm.base hbt,hm.ledger hbt hlt,hmove a t u (ha a hx) hbt hlt hi hm⟩

/-- In every run whatever the index, the store and the accounts of messages are sound. -/
theorem reaches_ledger {P : Ins → Label → Prop} {tr : List Label} {s : Ins} (h : Reaches P tr s) :
    Base s ∧ Ledger s := by
  refine h.invariant (I := fun s => Base s ∧ Ledger s) (fun s l s' out hi _ hstep => ?_) ⟨base_init,ledger_init⟩
  obtain ⟨hb,hl,_⟩ := step_keeps (fun _ => True) hi.1 hi.2 (fun _ _ _ _ _ _ _ _ => trivial) trivial hstep
  exact ⟨hb,hl⟩

end Moves
end Memqueue
