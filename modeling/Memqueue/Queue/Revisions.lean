import Memqueue.Queue.Accounting

/-! Revisions: each message takes the next one of its queue, and binders never run ahead of it.
The 32-bit counter is exact as long as the queue has created fewer than 2^31 messages. -/
namespace Memqueue
open Ins Fallible Expiry

namespace Ins

/-- How many messages were ever created in `q`. -/
def created (s : Ins) (q : Ptr) : Nat := (List.range s.nextMsg).countP fun m => (s.msgs m).memqueue = q

end Ins

theorem wrapInt_of_lt {n : Nat} (h : n < 2^31) : wrapInt n = n := wrapInt_of_bounds (by omega) (by omega)

/-- Counting on in 32 bits. -/
theorem wrapInt_add_one (n : Nat) : wrapInt (wrapInt n + 1) = wrapInt ((n + 1 : Nat) : Int) := by
  unfold wrapInt
  rw [Int.bmod_add_bmod]
  push_cast
  rfl

/-- The move appends a message to `q`. -/
def Atom.creates (q : Ptr) : Atom → Bool
  | .create p _ _ => p = q
  | _ => false

private theorem MsgLost.excess {k : Int} {m q : Ptr} {s s' : Ins} (h : MsgLost k m s s')
    (hin : m ∈ (s.queues (s.msgs m).memqueue).msgQueue) :
    (s'.queues q).msgsInQueue - (s'.queues q).msgQueue.length =
      (s.queues q).msgsInQueue - (s.queues q).msgQueue.length := by
  refine queue_field (fun x => x.msgsInQueue - (x.msgQueue.length : Int)) h.queues ?_
  by_cases hk : (s.msgs m).refCount = k
  · have hpos := List.length_pos_of_mem hin
    simp only [hk,if_true,List.length_erase_of_mem hin]
    omega
  · simp [hk]

section Moves
variable [Rebalance ExpiryNode] {now : Nat}

/-- Only a new message moves the revision of its queue. -/
theorem Move.rev_eq {a : Atom} {s s' : Ins} (h : Move now a s s') {q : Ptr} (hq : q < s.nextQueue) :
    (s'.queues q).rev = if a.creates q then nextRev (s.queues q) else (s.queues q).rev := by
  cases a with
  | newCli | touch | bind | unbindAll | suspend | wakeup | serve =>
    rw [(h.toQuiet rfl).queues q]
    rfl
  | putQueue args =>
    cases h
    simp [setExpiry,addQueue,Nat.ne_of_lt hq,Atom.creates]
  | create p msecs data =>
    cases h with
    | create _ _ hc =>
      rw [hc.queues]
      by_cases hp : q = p
      · subst hp
        simp [Atom.creates]
      · simp [Atom.creates,hp,Ne.symm hp]
  | join p id =>
    cases h
    by_cases hp : q = p
    · subst hp
      simp [setExpiry,addConsumer,newConsumer,updQueue,Atom.creates]
    · simp [setExpiry,addConsumer,newConsumer,updQueue,Atom.creates,hp]
  | enqueue b m =>
    cases h with
    | enqueue _ _ he =>
      obtain ⟨_,rfl⟩ := cliBinderEnqueueMsg_effect he
      exact queue_field (·.rev) rfl rfl
  | unpend b m => exact queue_field (·.rev) h.unpend_lost.1.queues rfl
  | expireMsg m => exact queue_field (·.rev) h.expireMsg_lost.1.queues rfl
  | drop m => exact queue_field (·.rev) h.drop_lost.1.queues rfl
  | leave c => exact queue_field (·.rev) h.leave_lost.1.queues rfl
  | release p => exact queue_field (·.rev) h.release_lost.queues rfl
  | expireQueue p => exact queue_field (·.rev) h.expireQueue_lost.1.queues rfl

/-- The counter and the list change together. -/
theorem Move.msgsInQueue_eq {a : Atom} {s s' : Ins} (h : Move now a s s') (hb : Base s) (hl : Ledger s) {q : Ptr}
    (hq : q < s.nextQueue) : (s'.queues q).msgsInQueue - (s'.queues q).msgQueue.length =
      (s.queues q).msgsInQueue - (s.queues q).msgQueue.length := by
  cases a with
  | newCli | touch | bind | unbindAll | suspend | wakeup | serve => rw [(h.toQuiet rfl).queues q]
  | putQueue args =>
    cases h
    simp [setExpiry,addQueue,Nat.ne_of_lt hq]
  | create p msecs data =>
    cases h with
    | create _ _ hc =>
      refine queue_field (fun x => x.msgsInQueue - (x.msgQueue.length : Int)) hc.queues ?_
      simp only [List.length_append,List.length_singleton]
      omega
  | join p id =>
    cases h
    by_cases hp : q = p
    · subst hp
      simp [setExpiry,addConsumer,newConsumer,updQueue]
    · simp [setExpiry,addConsumer,newConsumer,updQueue,hp]
  | enqueue b m =>
    cases h with
    | enqueue _ _ he =>
      obtain ⟨_,rfl⟩ := cliBinderEnqueueMsg_effect he
      exact queue_field (fun x => x.msgsInQueue - (x.msgQueue.length : Int)) rfl rfl
  | unpend b m =>
    obtain ⟨hlost,hm,_⟩ := h.unpend_lost
    exact hlost.excess (listed_of_pending hl hm hlost.live)
  | expireMsg m =>
    obtain ⟨hlost,hm,_⟩ := h.expireMsg_lost
    exact hlost.excess (listed_of_indexed hb hl hm hlost.live)
  | drop m =>
    obtain ⟨hlost,hm,_⟩ := h.drop_lost
    exact hlost.excess hm
  | leave c => exact queue_field (fun x => x.msgsInQueue - (x.msgQueue.length : Int)) h.leave_lost.1.queues rfl
  | release p => exact queue_field (fun x => x.msgsInQueue - (x.msgQueue.length : Int)) h.release_lost.queues rfl
  | expireQueue p =>
    exact queue_field (fun x => x.msgsInQueue - (x.msgQueue.length : Int)) h.expireQueue_lost.1.queues rfl

/-- Messages keep their queue, so a queue's count only grows. -/
theorem Move.created_eq {a : Atom} {s s' : Ins} (h : Move now a s s') (q : Ptr) :
    s'.created q = s.created q + if a.creates q then 1 else 0 := by
  have hold : (List.range s.nextMsg).countP (fun m => (s'.msgs m).memqueue = q) = s.created q := by
    apply List.countP_congr
    intro m hm
    rw [(h.sameMsg (List.mem_range.mp hm)).memqueue]
  cases a with
  | create p msecs data =>
    cases h with
    | create _ _ hc =>
      have hp : (s'.msgs s.nextMsg).memqueue = p := by
        rw [hc.msgs,Function.update_self]
      simp only [created,hc.nextMsg,List.range_succ,List.countP_append,hold,List.countP_singleton,hp,Atom.creates]
      rfl
  | _ =>
    rcases h.nextMsg with hn | ⟨_,_,_,he,_⟩
    · simp [created,hn,hold,Atom.creates]
    · cases he

end Moves

/-- The list, the counter, the revisions and the binders of every queue. -/
structure RevInv (s : Ins) : Prop where
  count : ∀ q < s.nextQueue, (s.queues q).msgsInQueue = (s.queues q).msgQueue.length
  rev : ∀ q < s.nextQueue, (s.queues q).rev = wrapInt (s.created q)
  range : ∀ m < s.nextMsg, s.created (s.msgs m).memqueue < 2^31 →
    1 ≤ (s.msgs m).rev ∧ (s.msgs m).rev ≤ s.created (s.msgs m).memqueue
  order : ∀ m n, m < n → n < s.nextMsg → (s.msgs m).memqueue = (s.msgs n).memqueue →
    s.created (s.msgs n).memqueue < 2^31 → (s.msgs m).rev < (s.msgs n).rev
  bound : ∀ q < s.nextQueue, ∀ β ∈ (s.queues q).memqueueBinders, s.created q < 2^31 → β.rev ≤ s.created q

theorem revInv_init : RevInv .init where
  count _ h := absurd h (Nat.not_lt_zero _)
  rev _ h := absurd h (Nat.not_lt_zero _)
  range _ h := absurd h (Nat.not_lt_zero _)
  order _ _ _ h := absurd h (Nat.not_lt_zero _)
  bound _ h := absurd h (Nat.not_lt_zero _)

section Kept
variable [Rebalance ExpiryNode] {now : Nat} {a : Atom} {s s' : Ins} (h : Move now a s s') (hb : Base s)
  (hi : RevInv s)
include h hb hi

omit hb hi in
private theorem created_mono (q : Ptr) : s.created q ≤ s'.created q := by
  rw [h.created_eq q]
  omega

omit hi in
private theorem created_new {q : Ptr} (hq : s.nextQueue ≤ q) : s'.created q = 0 := by
  have hnone : s.created q = 0 := by
    apply List.countP_eq_zero.mpr
    intro m hm
    have hown := hb.msgOwner m (List.mem_range.mp hm)
    simpa using Nat.ne_of_lt (lt_of_lt_of_le hown hq)
  rw [h.created_eq,hnone]
  cases a with
  | create p msecs data =>
    cases h with
    | create _ hp _ => simp [Atom.creates,Nat.ne_of_lt (lt_of_lt_of_le hp hq)]
  | _ => rfl

private theorem kept_count (hl : Ledger s) :
    ∀ q < s'.nextQueue, (s'.queues q).msgsInQueue = (s'.queues q).msgQueue.length := by
  intro q hq
  by_cases hlt : q < s.nextQueue
  · have h₁ := h.msgsInQueue_eq hb hl hlt
    have h₂ := hi.count q hlt
    omega
  · rcases h.queue_new (Nat.le_of_not_lt hlt) with hle | ⟨args,_,_,he⟩
    · exact absurd hq (Nat.not_lt.mpr hle)
    · rw [he]
      rfl

private theorem kept_rev : ∀ q < s'.nextQueue, (s'.queues q).rev = wrapInt (s'.created q) := by
  intro q hq
  by_cases hlt : q < s.nextQueue
  · rw [h.rev_eq hlt,h.created_eq]
    by_cases hc : a.creates q = true
    · rw [if_pos hc,if_pos hc,nextRev,hi.rev q hlt,wrapInt_add_one]
    · rw [if_neg hc,if_neg hc,hi.rev q hlt]
      rfl
  · have hle := Nat.le_of_not_lt hlt
    rcases h.queue_new hle with hle' | ⟨args,_,_,he⟩
    · exact absurd hq (Nat.not_lt.mpr hle')
    · rw [he,created_new h hb hle]
      rfl

omit hb in
/-- A message is new in a move only as the last of its queue. -/
theorem Move.new_rev {m : Ptr} (hlt : ¬ m < s.nextMsg) (hm : m < s'.nextMsg)
    (hsmall : s'.created (s'.msgs m).memqueue < 2^31) :
    (s'.msgs m).rev = s'.created (s'.msgs m).memqueue ∧
      s'.created (s'.msgs m).memqueue = s.created (s'.msgs m).memqueue + 1 := by
  rcases h.nextMsg with hn | ⟨q,msecs,data,rfl,hn,hq,hown⟩
  · exact absurd (hn ▸ hm) hlt
  · have hmeq : m = s.nextMsg := by
      rw [hn] at hm
      exact Nat.le_antisymm (Nat.lt_succ_iff.mp hm) (Nat.le_of_not_lt hlt)
    subst hmeq
    rw [hown] at hsmall ⊢
    have hnext : s'.created q = s.created q + 1 := by
      rw [h.created_eq]
      simp [Atom.creates]
    refine ⟨?_,hnext⟩
    cases h with
    | create _ _ hc =>
      rw [hc.msgs,Function.update_self]
      rw [hnext] at hsmall ⊢
      rw [nextRev,hi.rev q hq,wrapInt_add_one,wrapInt_of_lt hsmall]

omit hb in
private theorem kept_range : ∀ m < s'.nextMsg, s'.created (s'.msgs m).memqueue < 2^31 →
    1 ≤ (s'.msgs m).rev ∧ (s'.msgs m).rev ≤ s'.created (s'.msgs m).memqueue := by
  intro m hm hsmall
  by_cases hlt : m < s.nextMsg
  · have hsame := h.sameMsg hlt
    rw [hsame.memqueue] at hsmall ⊢
    have hmono := created_mono h (s.msgs m).memqueue
    have hold := hi.range m hlt (lt_of_le_of_lt hmono hsmall)
    rw [hsame.rev]
    omega
  · obtain ⟨hrev,hnext⟩ := h.new_rev hi hlt hm hsmall
    omega

omit hb in
private theorem kept_order : ∀ m n, m < n → n < s'.nextMsg → (s'.msgs m).memqueue = (s'.msgs n).memqueue →
    s'.created (s'.msgs n).memqueue < 2^31 → (s'.msgs m).rev < (s'.msgs n).rev := by
  intro m n hmn hn hown hsmall
  have hmono := created_mono h (s'.msgs n).memqueue
  by_cases hlt : n < s.nextMsg
  · have hm := h.sameMsg (lt_trans hmn hlt)
    have hsame := h.sameMsg hlt
    rw [hm.rev,hsame.rev]
    apply hi.order m n hmn hlt
    · rw [← hm.memqueue,← hsame.memqueue,hown]
    · rw [← hsame.memqueue]
      exact lt_of_le_of_lt hmono hsmall
  · obtain ⟨hrev,hnext⟩ := h.new_rev hi hlt hn hsmall
    have hm : m < s.nextMsg := by
      rcases h.nextMsg with he | ⟨_,_,_,_,he,_⟩
      · exact absurd (he ▸ hn) hlt
      · rw [he] at hn
        exact lt_of_lt_of_le hmn (Nat.lt_succ_iff.mp hn)
    have hsame := h.sameMsg hm
    have hold := hi.range m hm (by rw [← hsame.memqueue,hown]; omega)
    rw [← hsame.memqueue,hown] at hold
    rw [hrev,hsame.rev]
    omega

private theorem kept_bound_rev :
    ∀ q < s'.nextQueue, ∀ β ∈ (s'.queues q).memqueueBinders, s'.created q < 2^31 → β.rev ≤ s'.created q := by
  intro q _ β hβ hsmall
  have hmono := created_mono h q
  by_cases hlt : q < s.nextQueue
  · have hold : β ∈ (s.queues q).memqueueBinders → β.rev ≤ s'.created q := by
      intro hβ
      have := hi.bound q hlt β hβ (lt_of_le_of_lt hmono hsmall)
      omega
    rcases h.memqueueBinders hlt with he | ⟨β',rfl,hq,he⟩ | ⟨b,_,he⟩
    · exact hold (he ▸ hβ)
    · rw [he,List.mem_cons] at hβ
      rcases hβ with rfl | hβ
      · cases h with
        | bind _ _ _ _ hrev =>
          subst hq
          rw [hi.rev _ hlt,wrapInt_of_lt (lt_of_le_of_lt hmono hsmall)] at hrev
          omega
      · exact hold hβ
    · exact hold (List.diff_subset _ _ (he ▸ hβ))
  · rw [(h.lists_new hb (Nat.le_of_not_lt hlt)).1] at hβ
    cases hβ

theorem Move.revInv (hl : Ledger s) : RevInv s' :=
  ⟨kept_count h hb hi hl,kept_rev h hb hi,kept_range h hi,kept_order h hi,kept_bound_rev h hb hi⟩

end Kept

/-- A step that creates messages unbinds no poller and finishes none. -/
theorem creates_or_finishes {s : Ins} {l : Label} :
    (∀ a, l.allows s a → ∀ b, a ≠ .unbindAll b ∧ ∀ m, a ≠ .unpend b m) ∨
    ∀ a, l.allows s a → ∀ q, a.creates q = false := by
  obtain ⟨now,event⟩ := l
  cases event with
  | resumePoll b =>
    refine .inr fun a ha q => ?_
    rcases ha with ⟨_,rfl | rfl | ⟨m,rfl⟩⟩ <;> rfl
  | put args =>
    refine .inl fun a ha b => ?_
    cases ha
    exact ⟨nofun,nofun⟩
  | post k expiry body =>
    refine .inl fun a ha b => ?_
    rcases ha with ⟨m,rfl⟩ | ⟨q,_,rfl⟩ | ⟨q,rfl⟩ <;> exact ⟨nofun,nofun⟩
  | poll args =>
    refine .inl fun a ha b => ⟨?_,fun m => ?_⟩ <;> rintro rfl <;> exact ha
  | delete k =>
    refine .inl fun a ha b => ?_
    obtain ⟨q,rfl⟩ := ha
    exact ⟨nofun,nofun⟩
  | head k => exact .inl fun a ha => ha.elim
  | wake c =>
    refine .inl fun a ha b => ?_
    rcases ha with rfl | rfl | rfl <;> exact ⟨nofun,nofun⟩
  | resumePost q =>
    refine .inl fun a ha b => ?_
    rcases ha with rfl | rfl <;> exact ⟨nofun,nofun⟩
  | resumeDelete q =>
    refine .inl fun a ha b => ?_
    rcases ha with ⟨_,rfl | rfl⟩ <;> exact ⟨nofun,nofun⟩
  | expire type =>
    refine .inl fun a ha b => ⟨?_,fun m => ?_⟩ <;> rintro rfl <;> cases type <;> exact ha

private theorem release_not_null {s : Ins} {q : Ptr} : memqueueRelease s q ≠ .error .nullDeref := by
  intro h
  simp only [memqueueRelease,Counting.exact_bind] at h
  split at h
  · cases h
  · split at h
    · cases h
    · split at h <;> cases h

private theorem msgRelease_not_null {s : Ins} {m : Ptr} : memqueueMsgRelease s m ≠ .error .nullDeref := by
  intro h
  simp only [memqueueMsgRelease,Counting.exact_bind] at h
  split at h
  · cases h
  · split at h
    · rcases bind_error h with h | ⟨_,_,h⟩
      · exact release_not_null h
      · cases h
    · exact release_not_null h

private theorem msgRetain_not_null {s : Ins} {m : Ptr} : memqueueMsgRetain s m ≠ .error .nullDeref := by
  intro h
  simp only [memqueueMsgRetain,memqueueRetain,Counting.exact_bind] at h
  split at h <;> cases h

/-- A counter that is the length of the list finds a head in a full queue. -/
private theorem head_to_drop {s : Ins} {q : Ptr} (hcount : (s.queues q).msgsInQueue = (s.queues q).msgQueue.length) :
    isMemqueueFull s q ≠ .error .nullDeref := by
  intro h
  unfold isMemqueueFull at h
  split at h
  · cases h
  · split at h
    · cases h
    · split at h
      · split at h
        · rename_i hempty
          rw [hempty] at hcount
          simp only [List.length_nil] at hcount
          omega
        · rcases bind_error h with h | ⟨_,_,h⟩
          · exact msgRetain_not_null h
          · rcases bind_error h with h | ⟨_,_,h⟩
            · exact msgRelease_not_null h
            · cases h
      · cases h

section Runs
variable [Rebalance ExpiryNode]

theorem reaches_revInv {P : Ins → Label → Prop} {tr : List Label} {s : Ins} (h : Reaches P tr s) :
    Base s ∧ Ledger s ∧ RevInv s := by
  refine h.invariant (I := fun s => Base s ∧ Ledger s ∧ RevInv s) ?_ ⟨base_init,ledger_init,revInv_init⟩
  rintro s l s' out ⟨hb,hl,hi⟩ _ hs
  exact step_keeps RevInv hb hl (fun _ _ _ _ hb hl hi hm => hm.revInv hb hi hl) hi hs

/-- What a step has pushed so far: each new message of `q` to each poller bound to `q` at its start. -/
private structure PushedSince (s : Ins) (q : Ptr) (t : Ins) : Prop where
  binders : ∀ β ∈ (s.queues q).memqueueBinders, β ∈ (t.queues q).memqueueBinders
  pushed : ∀ m, s.nextMsg ≤ m → m < t.nextMsg → (t.msgs m).memqueue = q → t.created q < 2^31 →
    ∀ β ∈ (s.queues q).memqueueBinders, m ∈ (t.clis β.cliBinder).pendingMsgs
  queue : q < t.nextQueue

private theorem PushedSince.move {now : Nat} {s t u : Ins} {q : Ptr} {a : Atom} (hp : PushedSince s q t)
    (hl : Ledger t) (hi : RevInv t) (hm : Move now a t u)
    (ha : ∀ b, a ≠ .unbindAll b ∧ ∀ m, a ≠ .unpend b m) : PushedSince s q u := by
  have hq := hp.queue
  refine ⟨fun β hβ => ?_,fun m hle hlt hown hsmall β hβ => ?_,lt_of_lt_of_le hq hm.next_le.2.1⟩
  · have hβ := hp.binders β hβ
    rcases hm.memqueueBinders hq with he | ⟨_,_,_,he⟩ | ⟨b,rfl,_⟩
    · rwa [he]
    · rw [he]
      exact List.mem_cons_of_mem _ hβ
    · exact absurd rfl (ha b).1
  · have hmono := created_mono hm q
    have hcases := hm.pendingMsgs (b := β.cliBinder) fun hn => hl.pollers _ hn
    by_cases hold : m < t.nextMsg
    · -- an old message stays pending, whatever is appended
      rw [(hm.sameMsg hold).memqueue] at hown
      have hin := hp.pushed m hle hold hown (lt_of_le_of_lt hmono hsmall) β hβ
      rcases hcases with he | ⟨_,_,_,_,he⟩ | ⟨_,_,he⟩ | ⟨x,rfl,_⟩
      · rwa [he]
      · rw [he]
        exact List.mem_append_left _ hin
      · rw [he]
        exact List.mem_append_left _ hin
      · exact absurd rfl ((ha _).2 x)
    · obtain ⟨_,hnext⟩ := hm.new_rev hi hold hlt (hown.symm ▸ hsmall)
      rcases hm.nextMsg with hn | ⟨p,msecs,data,rfl,hn,_,hown'⟩
      · exact absurd (hn ▸ hlt) hold
      · have hmeq : m = t.nextMsg := by
          rw [hn] at hlt
          exact Nat.le_antisymm (Nat.lt_succ_iff.mp hlt) (Nat.le_of_not_lt hold)
        subst hmeq
        obtain rfl : p = q := hown'.symm.trans hown
        rw [hown] at hnext
        cases hm with
        | create _ _ hc =>
          rw [hc.pending,List.mem_append,List.mem_replicate]
          refine .inr ⟨?_,rfl⟩
          have hrev := hi.bound p hq β (hp.binders β hβ) (lt_of_le_of_lt hmono hsmall)
          apply Nat.ne_of_gt
          apply List.countP_pos_iff.mpr
          refine ⟨β,hp.binders β hβ,?_⟩
          rw [nextRev,hi.rev p hq,wrapInt_add_one,wrapInt_of_lt (by omega)]
          simp only [decide_eq_true_eq,and_true]
          omega

private theorem step_pushed {s s' : Ins} {l : Label} {out : Option Response} {q m : Ptr} (hb : Base s)
    (hl : Ledger s) (hi : RevInv s) (hq : q < s.nextQueue) (h : step s l = .ok (s',out)) (hle : s.nextMsg ≤ m)
    (hlt : m < s'.nextMsg) (hown : (s'.msgs m).memqueue = q) (hsmall : s'.created q < 2^31) :
    ∀ β ∈ (s.queues q).memqueueBinders, m ∈ (s'.clis β.cliBinder).pendingMsgs := by
  rcases creates_or_finishes (s := s) (l := l) with ha | ha
  · have hinit : PushedSince s q s := ⟨fun _ h => h,fun m h₁ h₂ => absurd h₂ (Nat.not_lt.mpr h₁),hq⟩
    have hkept := (step_keeps (fun t => RevInv t ∧ PushedSince s q t) hb hl
      (fun a t u hx hb hl ht hm => ⟨hm.revInv hb ht.1 hl,ht.2.move hl ht.1 hm (ha a hx)⟩) ⟨hi,hinit⟩ h).2.2.2
    exact hkept.pushed m hle hlt hown hsmall
  · have hn : s'.nextMsg = s.nextMsg := by
      refine (step_keeps (fun t => t.nextMsg = s.nextMsg) hb hl (fun a t u hx _ _ ht hm => ?_) rfl h).2.2
      rcases hm.nextMsg with hn | ⟨p,_,_,rfl,_⟩
      · exact hn.trans ht
      · exact absurd (ha _ hx p) (by simp [Atom.creates])
    exact absurd (hn ▸ hlt) (Nat.not_lt.mpr hle)

/-- The revision a POST answers with. -/
private theorem post_rev {now : Nat} {s s' : Ins} {q : Ptr} {expiry : Int} {body : Bytes} {r : Response}
    (hb : Base s) (hi : RevInv s) (hq : q < s.nextQueue) (hlive : (s.queues q).freed = false)
    (hfew : s.created q < 2^31 - 1)
    (h : step s ⟨now,.post (s.queues q).qId expiry body⟩ = .ok (s',some r)) (hr : r.ret = .msgAdded) :
    s.nextMsg ∈ (s'.queues q).msgQueue ∧ (s'.msgs s.nextMsg).memqueue = q ∧ (s'.msgs s.nextMsg).data = body ∧
      (s'.msgs s.nextMsg).rev = (s.queues q).rev + 1 ∧ r.rev = some ((s.queues q).rev + 1) := by
  have hget := hb.store.get_iff.mpr ⟨hq,hlive,rfl⟩
  rcases onMsgPost_cases h with ⟨_,hn⟩ | ⟨p,hp,t,full,hfull,⟨_,_,hout⟩ | ⟨_,u,hu,rfl,hout⟩⟩
  · rw [hget] at hn
    cases hn
  · cases hout
    cases hr
  · rw [hget] at hp
    cases hp
    cases hout
    have hsame : t.nextMsg = s.nextMsg ∧ (t.queues q).rev = (s.queues q).rev := by
      rcases isMemqueueFull_cases now hb hfull with ⟨_,rfl,_⟩ | ⟨_,rfl,_⟩ | ⟨_,_,_,_,m,_,_,hm⟩
      · exact ⟨rfl,rfl⟩
      · exact ⟨rfl,rfl⟩
      · exact ⟨hm.drop_lost.1.nextMsg,by rw [hm.rev_eq hq]; rfl⟩
    have hc := memqueueMsgCreate_effect hu
    have hnext : nextRev (t.queues q) = (s.queues q).rev + 1 := by
      rw [nextRev,hsame.2,hi.rev q hq,wrapInt_add_one,wrapInt_of_lt (by omega),wrapInt_of_lt (by omega)]
      rfl
    simp only [suspend,memqueueRespond,addQueueInfo,hc.queues,hc.msgs,hsame.1,Function.update_self,hnext]
    simp

/-- The message list of a live queue, for as long as its revisions fit an int: the counter is the length,
revisions increase from 1 to the queue's own, binders are not ahead of it, every new message goes to every
bound poller, a POST answers with the revision of its message, and a full queue has a head to drop. -/
theorem message_list_sound {P : Ins → Label → Prop} {tr : List Label} {s : Ins} (h : Reaches P tr s) {q : Ptr}
    (hq : q < s.nextQueue) (hlive : (s.queues q).freed = false) (hfew : s.created q < 2^31 - 1) :
    (s.queues q).msgsInQueue = (s.queues q).msgQueue.length ∧
    (s.queues q).msgQueue.Pairwise (fun m n => (s.msgs m).rev < (s.msgs n).rev) ∧
    (∀ m ∈ (s.queues q).msgQueue, 1 ≤ (s.msgs m).rev ∧ (s.msgs m).rev ≤ (s.queues q).rev) ∧
    (∀ β ∈ (s.queues q).memqueueBinders, β.rev ≤ (s.queues q).rev) ∧
    (∀ l s' out, step s l = .ok (s',out) → s'.created q < 2^31 → ∀ m, s.nextMsg ≤ m → m < s'.nextMsg →
      (s'.msgs m).memqueue = q → ∀ β ∈ (s.queues q).memqueueBinders, m ∈ (s'.clis β.cliBinder).pendingMsgs) ∧
    (∀ now expiry body s' r, step s ⟨now,.post (s.queues q).qId expiry body⟩ = .ok (s',some r) →
      r.ret = .msgAdded → s.nextMsg ∈ (s'.queues q).msgQueue ∧ (s'.msgs s.nextMsg).memqueue = q ∧
      (s'.msgs s.nextMsg).data = body ∧ (s'.msgs s.nextMsg).rev = (s.queues q).rev + 1 ∧
      r.rev = some ((s.queues q).rev + 1)) ∧
    isMemqueueFull s q ≠ .error .nullDeref := by
  obtain ⟨hb,hl,hi⟩ := reaches_revInv h
  have hrev : (s.queues q).rev = s.created q := by
    rw [hi.rev q hq,wrapInt_of_lt (by omega)]
  refine ⟨hi.count q hq,?_,?_,?_,?_,?_,?_⟩
  · refine (hl.sorted q).imp_of_mem fun {m n} hm hn hlt => ?_
    obtain ⟨_,hqm⟩ := hb.listed q m hm
    obtain ⟨hn,hqn⟩ := hb.listed q n hn
    exact hi.order m n hlt hn (hqm.trans hqn.symm) (by rw [hqn]; omega)
  · intro m hm
    obtain ⟨hlt,hown⟩ := hb.listed q m hm
    have := hi.range m hlt (by rw [hown]; omega)
    rwa [hown,← hrev] at this
  · intro β hβ
    rw [hrev]
    exact hi.bound q hq β hβ (by omega)
  · intro l s' out hs hsmall m hle hlt hown
    exact step_pushed hb hl hi hq hs hle hlt hown hsmall
  · intro now expiry body s' r hs hr
    exact post_rev hb hi hq hlive hfew hs hr
  · exact head_to_drop (hi.count q hq)

end Runs

/-- A dropping queue of size 1 that is posted to twice: the second message takes revision 2. -/
theorem message_list_sound_dropping :
    letI := Rebalance.plain ExpiryNode
    ∃ s, Reaches (fun _ _ => True) [⟨0,.put ⟨0,1,0,1,[113]⟩⟩,⟨1,.post [113] 0 [1]⟩,⟨2,.post [113] 0 [2]⟩] s ∧
      (s.queues 0).msgQueue = [1] ∧ (s.queues 0).rev = 2 ∧
      (s.queues 0).msgsInQueue = (s.queues 0).msgQueue.length ∧ isMemqueueFull s 0 ≠ .error .nullDeref := by
  let _ := Rebalance.plain ExpiryNode
  obtain ⟨s,hs,hobs⟩ := Option.map_eq_some_iff.mp (show (exec step (fun _ _ => true) .init
      [⟨0,.put ⟨0,1,0,1,[113]⟩⟩,⟨1,.post [113] 0 [1]⟩,⟨2,.post [113] 0 [2]⟩]).map
        (fun s => (s.nextQueue,(s.queues 0).freed,s.created 0,(s.queues 0).msgQueue,(s.queues 0).rev)) =
      some (1,false,2,[1],2) by decide +kernel)
  have hr := (Run.of_exec hs).mono (Q := fun _ _ => True) fun _ _ _ => trivial
  simp only [Prod.mk.injEq] at hobs
  obtain ⟨hn,hlive,hc,hmsgs,hrev⟩ := hobs
  obtain ⟨hcount,_,_,_,_,_,hnull⟩ :=
    message_list_sound hr (q := 0) (by rw [hn]; decide) hlive (by rw [hc]; decide)
  exact ⟨s,hr,hmsgs,hrev,hcount,hnull⟩

end Memqueue
