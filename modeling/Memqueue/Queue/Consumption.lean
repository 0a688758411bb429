import Memqueue.Queue.Creation

/-! Whether a message that a poller consumes was sent: it was, as long as no message goes only to pollers
whose response is already built. -/
namespace Memqueue
open Ins Fallible Expiry

/-- Every message that waits for a poller was sent, stays for good, or waits for a poller outside `W` too. -/
def PromisedBy (W : Ptr → Prop) (s : Ins) : Prop :=
  ∀ b, ∀ m ∈ (s.clis b).pendingMsgs, m ∈ s.served ∨ (s.msgs m).expiry = -1 ∨
    ∃ p, m ∈ (s.clis p).pendingMsgs ∧ ¬ W p

/-- The poller's response is built and being written. -/
def Ins.writing (s : Ins) (b : Ptr) : Prop := .pollWrite b ∈ s.handlers

instance (s : Ins) (b : Ptr) : Decidable (s.writing b) := inferInstanceAs (Decidable (_ ∈ _))

/-- A message created in `q` now reaches a poller that has yet to answer, or no poller at all. -/
def Label.heard (s : Ins) (l : Label) (q : Ptr) : Prop :=
  (∀ β ∈ (s.queues q).memqueueBinders, ¬ s.writing β.cliBinder) ∨
  (∃ β ∈ (s.queues q).memqueueBinders, ¬ s.writing β.cliBinder) ∧ s.created q + l.creates s q < 2^31

instance (s : Ins) (l : Label) (q : Ptr) : Decidable (l.heard s q) := inferInstanceAs (Decidable (_ ∨ _ ∧ _))

/-- A POST with expiry -1, whose message no poller can consume. -/
def Event.permanent : Event → Bool
  | .post _ expiry _ => expiry = -1
  | _ => false

/-- Wherever the step creates a message that can be consumed, some poller that gets it has yet to answer. -/
def Label.reads (s : Ins) (l : Label) : Prop :=
  l.event.permanent = true ∨ ∀ q < s.nextQueue, 0 < l.creates s q → l.heard s q

instance (s : Ins) (l : Label) : Decidable (l.reads s) := inferInstanceAs (Decidable (_ ∨ ∀ q < s.nextQueue, _))

/-- What a step that creates a message in `q` has to do with `q`. -/
theorem Label.allows_create {s : Ins} {l : Label} {q : Ptr} {msecs : Int} {data : Bytes} (hb : Base s)
    (h : l.allows s (.create q msecs data)) :
    0 < l.creates s q ∧ q < s.nextQueue ∧ (l.event.permanent = true → msecs = -1) := by
  obtain ⟨now,event⟩ := l
  cases event with
  | put args => cases h
  | post k expiry body =>
    rcases h with ⟨_,he⟩ | ⟨p,⟨hget,hroom⟩,he⟩ | ⟨_,he⟩
    · cases he
    · cases he
      refine ⟨by simp [Label.creates,hget,hroom],(hb.store.get_iff.mp hget).1,fun hp => ?_⟩
      simpa [Event.permanent] using hp
    · cases he
  | poll args =>
    obtain ⟨_,a,ha,hj⟩ := h
    refine ⟨List.countP_pos_iff.mpr ⟨a,ha,by simpa using hj⟩,?_,fun hp => by cases hp⟩
    obtain ⟨k,_,hget⟩ := Option.bind_eq_some_iff.mp hj.1
    exact (hb.store.get_iff.mp hget).1
  | delete k => obtain ⟨_,he⟩ := h; cases he
  | head k => exact h.elim
  | wake b => rcases h with he | he | he <;> cases he
  | resumePost p => rcases h with he | he <;> cases he
  | resumeDelete p => rcases h with ⟨_,he | he⟩ <;> cases he
  | resumePoll b => rcases h with ⟨_,he | he | ⟨_,he⟩⟩ <;> cases he
  | expire type =>
    cases type with
    | msg => exact h.elim
    | memqueue => exact h.elim
    | consumer =>
      obtain ⟨_,c,hdue,hown⟩ := h
      have hin : c ∈ s.dueConsumers now q := List.mem_filter.mpr ⟨hdue.mem,by simpa using ⟨hdue,hown⟩⟩
      refine ⟨List.length_pos_of_mem hin,?_,fun hp => by cases hp⟩
      rw [← hown]
      exact hb.consumerOwner c (hb.index.allocated .consumer c hdue.mem)

/-- A step binds and fills only its own new poller, and empties only one that has answered. -/
theorem Label.allows.poller {s : Ins} {l : Label} {a : Atom} (h : l.allows s a) :
    (∀ β, a = .bind β → β.cliBinder = s.nextCli) ∧ (∀ b m, a = .enqueue b m → b = s.nextCli) ∧
    ∀ b m, a = .unpend b m → s.writing b := by
  obtain ⟨now,event⟩ := l
  refine ⟨?_,?_,?_⟩
  · rintro β rfl
    cases event with
    | poll args => exact h
    | put | delete | head | wake | resumePost | resumeDelete | resumePoll | post => simp [Label.allows] at h
    | expire type => cases type <;> exact h.elim
  · rintro b m rfl
    cases event with
    | poll args => exact h
    | put | delete | head | wake | resumePost | resumeDelete | resumePoll | post => simp [Label.allows] at h
    | expire type => cases type <;> exact h.elim
  · rintro b m rfl
    cases event with
    | poll args => exact h.elim
    | put | delete | head | wake | resumePost | resumeDelete | post => simp [Label.allows] at h
    | resumePoll c =>
      simp only [Label.allows,reduceCtorEq,false_or] at h
      obtain ⟨hin,_,he⟩ := h
      cases he
      exact hin
    | expire type => cases type <;> exact h.elim

section Moves
variable [Rebalance ExpiryNode] {now : Nat}

theorem Move.served {a : Atom} {s s' : Ins} (h : Move now a s s') {m : Ptr} (hm : m ∈ s.served) : m ∈ s'.served := by
  cases a with
  | serve b => cases h; exact List.mem_append_right _ hm
  | newCli | touch | suspend | wakeup | putQueue | join | bind => cases h; exact hm
  | unbindAll b => cases h; rw [(memqueueUnbindAll_effect s b).frame.served]; exact hm
  | create =>
    cases h with
    | create _ _ hc => rw [hc.frame.served]; exact hm
  | enqueue =>
    cases h with
    | enqueue _ _ he =>
      obtain ⟨_,rfl⟩ := cliBinderEnqueueMsg_effect he
      exact hm
  | unpend => rw [h.unpend_lost.1.frame.served]; exact hm
  | expireMsg => rw [h.expireMsg_lost.1.frame.served]; exact hm
  | drop => rw [h.drop_lost.1.frame.served]; exact hm
  | leave => rw [h.leave_lost.1.frame.served]; exact hm
  | release => rw [h.release_lost.frame.served]; exact hm
  | expireQueue => rw [h.expireQueue_lost.1.frame.served]; exact hm

/-- A pending message leaves a poller's list only through that poller. -/
private theorem Move.pending_kept {a : Atom} {s s' : Ins} (h : Move now a s s') (hl : Ledger s) {b m : Ptr}
    (hm : m ∈ (s.clis b).pendingMsgs) (ha : ∀ x, a ≠ .unpend b x) : m ∈ (s'.clis b).pendingMsgs := by
  rcases h.pendingMsgs (b := b) fun hn => hl.pollers b hn with he | ⟨_,_,_,_,he⟩ | ⟨_,_,he⟩ | ⟨x,rfl,_⟩
  · rwa [he]
  · rw [he]
    exact List.mem_append_left _ hm
  · rw [he]
    exact List.mem_append_left _ hm
  · exact absurd rfl (ha x)

/-- The promise through one move. A new message must have somebody outside `W` to go to. -/
theorem Move.promised {W : Ptr → Prop} {a : Atom} {s s' : Ins} (h : Move now a s s') (hs : Stable s)
    (hi : PromisedBy W s) (henq : ∀ b m, a = .enqueue b m → ¬ W b) (hun : ∀ b m, a = .unpend b m → W b)
    (hnew : ∀ q msecs data, a = .create q msecs data → msecs = -1 ∨
      ∀ b, 0 < pushCountTo (s.queues q).memqueueBinders (nextRev (s.queues q)) b →
        ∃ p, 0 < pushCountTo (s.queues q).memqueueBinders (nextRev (s.queues q)) p ∧ ¬ W p) :
    PromisedBy W s' := by
  intro b m hm
  -- what was promised before is still promised
  have hold : ∀ {b}, m ∈ (s.clis b).pendingMsgs → m ∈ s'.served ∨ (s'.msgs m).expiry = -1 ∨
      ∃ p, m ∈ (s'.clis p).pendingMsgs ∧ ¬ W p := by
    intro b hm
    rcases hi b m hm with hserved | hexp | ⟨p,hp,hW⟩
    · exact .inl (h.served hserved)
    · exact .inr (.inl ((h.sameMsg (hs.ledger.pending b m hm)).expiry.trans hexp))
    · exact .inr (.inr ⟨p,h.pending_kept hs.ledger hp fun x hx => hW (hun p x hx),hW⟩)
  rcases h.pendingMsgs (b := b) fun hn => hs.ledger.pollers b hn with he | ⟨q,msecs,data,rfl,he⟩ | ⟨x,rfl,he⟩ | ⟨x,_,_,
    he⟩
  · exact hold (he ▸ hm)
  · rw [he,List.mem_append] at hm
    rcases hm with hm | hm
    · exact hold hm
    · obtain ⟨hpos,rfl⟩ := List.mem_replicate.mp hm
      cases h with
      | create _ _ hc =>
        rcases hnew q msecs data rfl with rfl | hnew
        · exact .inr (.inl (by rw [hc.msgs]; simp))
        · obtain ⟨p,hp,hW⟩ := hnew b (Nat.pos_of_ne_zero hpos)
          refine .inr (.inr ⟨p,?_,hW⟩)
          rw [hc.pending]
          exact List.mem_append_right _ (List.mem_replicate.mpr ⟨Nat.ne_of_gt hp,rfl⟩)
  · rw [he,List.mem_append] at hm
    rcases hm with hm | hm
    · exact hold hm
    · refine .inr (.inr ⟨b,?_,henq b x rfl⟩)
      rw [he]
      exact List.mem_append_right _ hm
  · exact hold (List.mem_of_mem_erase (he ▸ hm))

end Moves

section Steps
variable [Rebalance ExpiryNode]

omit [Rebalance ExpiryNode] in
private theorem pollRespond_served (s : Ins) (b : Ptr) :
    ∀ m ∈ ((pollRespond s b).1.clis b).pendingMsgs, m ∈ (pollRespond s b).1.served := by
  intro m hm
  unfold pollRespond at hm ⊢
  split
  · rename_i hempty
    rw [if_pos hempty] at hm
    rw [List.isEmpty_iff.mp hempty] at hm
    cases hm
  · rename_i hne
    rw [if_neg hne] at hm
    exact List.mem_append_left _ hm

/-- A poller that starts to write has put all its pending messages into the response. -/
theorem step_written {s s' : Ins} {l : Label} {out : Option Response} {b : Ptr} (hb : Base s)
    (h : step s l = .ok (s',out)) (hw : s'.writing b) :
    s.writing b ∨ ∀ m ∈ (s'.clis b).pendingMsgs, m ∈ s'.served := by
  obtain ⟨now,event⟩ := l
  by_cases hpoll : ∃ args, event = .poll args
  · obtain ⟨args,rfl⟩ := hpoll
    obtain ⟨t,i,j,ht,hend⟩ := memqueuePollQueue_cases h
    have hh := pollLoop_handlers hb ht
    rcases hend with ⟨_,rfl⟩ | ⟨_,rfl,_⟩ | ⟨_,heq⟩
    · exact .inl (by rwa [writing,hh] at hw)
    · have hw' : .pollWrite b ∈ Handler.pollWait s.nextCli :: t.handlers := hw
      rw [hh] at hw'
      exact .inl (by simpa [writing] using hw')
    · obtain rfl : s' = _ := congrArg Prod.fst heq
      rw [writing,pollRespond_handlers,hh] at hw
      rcases List.mem_cons.mp hw with hx | hw
      · cases hx
        exact .inr (pollRespond_served _ _)
      · exact .inl hw
  · have hh := step_handlers hb h
    unfold writing at hw ⊢
    generalize he : s'.handlers = L at hh hw
    cases hh with
    | same => exact .inl hw
    | post => exact .inl (by simpa using hw)
    | delete => exact .inl (by simpa using hw)
    | pollWait args => exact absurd ⟨args,rfl⟩ hpoll
    | pollWrite args => exact absurd ⟨args,rfl⟩ hpoll
    | resume => exact .inl (List.mem_of_mem_erase hw)
    | wake hin =>
      rcases List.mem_cons.mp hw with hx | hw
      · cases hx
        simp only [step,if_pos hin] at h
        obtain rfl : s' = _ := congrArg Prod.fst (Except.ok.inj h).symm
        exact .inr (pollRespond_served _ _)
      · exact .inl (List.mem_of_mem_erase hw)

/-- The binders of `q` in the middle of a step that unbinds nobody: the old ones, and the new poller's. -/
private structure BoundSince (s : Ins) (t : Ins) : Prop where
  next : s.nextQueue ≤ t.nextQueue
  kept : ∀ q < s.nextQueue, ∀ β ∈ (s.queues q).memqueueBinders, β ∈ (t.queues q).memqueueBinders
  only : ∀ q < s.nextQueue, ∀ β ∈ (t.queues q).memqueueBinders,
    β ∈ (s.queues q).memqueueBinders ∨ β.cliBinder = s.nextCli

private theorem BoundSince.move {s t u : Ins} {l : Label} {a : Atom} (h : BoundSince s t) (ha : l.allows s a)
    (hun : ∀ b, a ≠ .unbindAll b) (hm : Move l.now a t u) : BoundSince s u := by
  have hcases : ∀ q < s.nextQueue, (u.queues q).memqueueBinders = (t.queues q).memqueueBinders ∨
      ∃ β, β.cliBinder = s.nextCli ∧ (u.queues q).memqueueBinders = β :: (t.queues q).memqueueBinders := by
    intro q hq
    rcases hm.memqueueBinders (lt_of_lt_of_le hq h.next) with he | ⟨β,rfl,_,he⟩ | ⟨b,rfl,_⟩
    · exact .inl he
    · exact .inr ⟨β,ha.poller.1 β rfl,he⟩
    · exact absurd rfl (hun b)
  refine ⟨h.next.trans hm.next_le.2.1,fun q hq β hβ => ?_,fun q hq β hβ => ?_⟩
  · rcases hcases q hq with he | ⟨_,_,he⟩
    · rw [he]
      exact h.kept q hq β hβ
    · rw [he]
      exact List.mem_cons_of_mem _ (h.kept q hq β hβ)
  · rcases hcases q hq with he | ⟨β',hc,he⟩
    · exact h.only q hq β (he ▸ hβ)
    · rw [he] at hβ
      rcases List.mem_cons.mp hβ with rfl | hβ
      · exact .inr hc
      · exact h.only q hq β hβ

omit [Rebalance ExpiryNode] in
private theorem pushed_iff {L : List MemqueueBinder} {r : Int} {b : Ptr} :
    0 < pushCountTo L r b ↔ ∃ β ∈ L, β.rev ≤ r ∧ β.cliBinder = b := by
  simp [pushCountTo,List.countP_pos_iff]

/-- The guard, seen from the move that creates the message. -/
private theorem heard_at {s t u : Ins} {l : Label} {q : Ptr} {msecs : Int} {data : Bytes} (hc : Coherent s)
    (hg : l.heard s q) (hq : q < s.nextQueue) (hst : Stable t) (hbs : BoundSince s t)
    (hm : Move l.now (.create q msecs data) t u) (hle : u.created q ≤ s.created q + l.creates s q) (b : Ptr)
    (hpush : 0 < pushCountTo (t.queues q).memqueueBinders (nextRev (t.queues q)) b) :
    ∃ p, 0 < pushCountTo (t.queues q).memqueueBinders (nextRev (t.queues q)) p ∧ ¬ s.writing p := by
  rcases hg with hall | ⟨⟨β,hβ,hW⟩,hfew⟩
  · refine ⟨b,hpush,?_⟩
    obtain ⟨β,hβ,_,rfl⟩ := pushed_iff.mp hpush
    rcases hbs.only q hq β hβ with hβ | hown
    · exact hall β hβ
    · rw [hown]
      exact (hc.pollers.fresh s.nextCli le_rfl).2
  · refine ⟨β.cliBinder,pushed_iff.mpr ⟨β,hbs.kept q hq β hβ,?_,rfl⟩,hW⟩
    have hqt := lt_of_lt_of_le hq hbs.next
    have hcount : u.created q = t.created q + 1 := by
      rw [hm.created_eq]
      simp [Atom.creates]
    have hrev := hst.revs.bound q hqt β (hbs.kept q hq β hβ) (by omega)
    rw [nextRev,hst.revs.rev q hqt,wrapInt_add_one,wrapInt_of_lt (by omega)]
    push_cast
    omega

theorem step_promised {s s' : Ins} {l : Label} {out : Option Response} (hc : Coherent s)
    (hi : PromisedBy s.writing s) (hg : l.reads s) (h : step s l = .ok (s',out)) : PromisedBy s'.writing s' := by
  have hfresh : ¬ s.writing s.nextCli := (hc.pollers.fresh s.nextCli le_rfl).2
  have hkept : PromisedBy s.writing s' := by
    rcases creates_or_finishes (s := s) (l := l) with hno | hno
    · refine (budget_keeps (fun t => PromisedBy s.writing t ∧ BoundSince s t) hc (fun a t u ha hst ht hm hle => ?_)
        ⟨hi,le_rfl,fun _ _ _ h => h,fun _ _ _ h => .inl h⟩ h).1
      refine ⟨hm.promised hst ht.1 (fun b m hx => ?_) (fun b m hx => ha.poller.2.2 b m hx)
        (fun q msecs data hx => ?_),ht.2.move ha (fun b => (hno a ha b).1) hm⟩
      · rw [ha.poller.2.1 b m hx]
        exact hfresh
      · subst hx
        obtain ⟨hpos,hq,hperm⟩ := Label.allows_create hc.base ha
        rcases hg with hp | hg
        · exact .inl (hperm hp)
        · exact .inr fun b hpush => heard_at hc (hg q hq hpos) hq hst ht.2 hm (hle q) b hpush
    · refine (coherent_keeps (PromisedBy s.writing) hc (fun a t u ha hst ht hm => ?_) hi h).2
      refine hm.promised hst ht (fun b m hx => ?_) (fun b m hx => ha.poller.2.2 b m hx)
        (fun q msecs data hx => ?_)
      · rw [ha.poller.2.1 b m hx]
        exact hfresh
      · subst hx
        exact absurd (hno _ ha q) (by simp [Atom.creates])
  intro b m hm
  rcases hkept b m hm with hserved | hexp | ⟨p,hp,hW⟩
  · exact .inl hserved
  · exact .inr (.inl hexp)
  · by_cases hw : s'.writing p
    · rcases step_written hc.base h hw with hw | hall
      · exact absurd hw hW
      · exact .inl (hall m hp)
    · exact .inr (.inr ⟨p,hp,hw⟩)

theorem reaches_promised {tr : List Label} {s : Ins} (h : Reaches (fun s l => l.reads s) tr s) :
    Coherent s ∧ PromisedBy s.writing s := by
  refine h.invariant (I := fun s => Coherent s ∧ PromisedBy s.writing s) ?_ ⟨coherent_init,nofun⟩
  rintro s l s' out ⟨hc,hi⟩ hg hs
  exact ⟨step_coherent hc hs,step_promised hc hi hg hs⟩

omit [Rebalance ExpiryNode] in
private theorem pend_two {s : Ins} (hl : Ledger s) {b p m : Ptr} (hne : p ≠ b) (hb : m ∈ (s.clis b).pendingMsgs)
    (hp : m ∈ (s.clis p).pendingMsgs) : 2 ≤ s.pend m := by
  have hsub : {b,p} ⊆ Finset.range s.nextCli := by
    intro x hx
    rcases Finset.mem_insert.mp hx with rfl | hx
    · exact Finset.mem_range.mpr (hl.lt_of_pending hb)
    · rw [Finset.mem_singleton.mp hx]
      exact Finset.mem_range.mpr (hl.lt_of_pending hp)
  have hsum := Finset.sum_le_sum_of_subset (f := fun x => (s.clis x).pendingMsgs.count m) hsub
  rw [Finset.sum_pair hne.symm] at hsum
  have h₁ := List.count_pos_iff.mpr hb
  have h₂ := List.count_pos_iff.mpr hp
  exact le_trans (by omega) hsum

/-- Why the finishing poller `b` cannot remove `m`: it stays for good, another poller holds it, or `b` does not. -/
private def Spared (b m : Ptr) (s : Ins) : Prop :=
  (s.msgs m).expiry = -1 ∨ (∃ p, p ≠ b ∧ m ∈ (s.clis p).pendingMsgs) ∨ m ∉ (s.clis b).pendingMsgs

private theorem Spared.move {now : Nat} {b m q : Ptr} {a : Atom} {s s' : Ins} (h : Spared b m s) (hs : Stable s)
    (hin : m ∈ (s.queues q).msgQueue)
    (ha : a = .wakeup (.pollWrite b) ∨ a = .unbindAll b ∨ ∃ x, a = .unpend b x) (hm : Move now a s s') :
    Spared b m s' ∧ m ∈ (s'.queues q).msgQueue := by
  have hlt := (hs.base.listed q m hin).1
  have hown := (hs.base.listed q m hin).2
  have hq := hs.base.store.lt_of_listed hin
  refine ⟨?_,?_⟩
  · rcases h with hexp | ⟨p,hne,hp⟩ | hout
    · exact .inl ((hm.sameMsg hlt).expiry.trans hexp)
    · refine .inr (.inl ⟨p,hne,hm.pending_kept hs.ledger hp fun x hx => ?_⟩)
      rcases ha with rfl | rfl | ⟨y,rfl⟩
      · cases hx
      · cases hx
      · cases hx
        exact hne rfl
    · refine .inr (.inr fun hin' => hout ?_)
      rcases hm.pendingMsgs (b := b) fun hn => hs.ledger.pollers b hn with he | ⟨_,_,_,rfl,_⟩ | ⟨_,rfl,_⟩ | ⟨x,_,_,he⟩
      · rwa [he] at hin'
      · rcases ha with ha | ha | ⟨_,ha⟩ <;> cases ha
      · rcases ha with ha | ha | ⟨_,ha⟩ <;> cases ha
      · rw [he] at hin'
        exact List.mem_of_mem_erase hin'
  · rcases hm.msgQueue hq with he | ⟨_,_,rfl,_⟩ | ⟨x,hx,_,hzero,he⟩
    · rwa [he]
    · rcases ha with ha | ha | ⟨_,ha⟩ <;> cases ha
    · rw [he]
      by_cases hxm : m = x
      · -- its last reference would be the one of `b`
        subst hxm
        obtain ⟨y,rfl⟩ : ∃ y, a = .unpend b y := by
          rcases ha with rfl | rfl | ha
          · rcases hx with ⟨_,hx⟩ | hx | hx <;> cases hx
          · rcases hx with ⟨_,hx⟩ | hx | hx <;> cases hx
          · exact ha
        obtain rfl : m = y := by
          rcases hx with ⟨_,hx⟩ | hx | hx
          · cases hx
            rfl
          · cases hx
          · cases hx
        obtain ⟨hlost,hb,_⟩ := hm.unpend_lost
        rw [hlost.msgs,Function.update_self] at hzero
        have hrefs := hs.ledger.refs q m hin (hown ▸ hlost.live)
        have hpend := pend_pos (hs.ledger.lt_of_pending hb) hb
        have hheld := held_nonneg s m
        unfold holders at hrefs
        rcases h with hexp | ⟨p,hne,hp⟩ | hout
        · have hone : s.held m = 1 := by simp [held,hexp]
          simp only at hzero
          omega
        · have htwo := pend_two hs.ledger hne hb hp
          simp only at hzero
          omega
        · exact absurd hb hout
      · exact (List.mem_erase_of_ne hxm).mpr hin

/-- A message that a finishing poller removes from its queue was in a response, in every run in which messages are
created only where somebody will still read them. -/
theorem consumed_was_sent {tr : List Label} {s s' : Ins} {now : Nat} {b q m : Ptr} {out : Option Response}
    (h : Reaches (fun s l => l.reads s) tr s) (hs : step s ⟨now,.resumePoll b⟩ = .ok (s',out))
    (hin : m ∈ (s.queues q).msgQueue) (hout : m ∉ (s'.queues q).msgQueue) : m ∈ s.served := by
  obtain ⟨hc,hi⟩ := reaches_promised h
  by_contra hunsent
  have hwriting : s.writing b := by
    by_contra hw
    simp only [step,if_neg (show .pollWrite b ∉ s.handlers from hw)] at hs
    cases hs
    exact hout hin
  have hspared : Spared b m s := by
    by_cases hb : m ∈ (s.clis b).pendingMsgs
    · rcases hi b m hb with hserved | hexp | ⟨p,hp,hW⟩
      · exact absurd hserved hunsent
      · exact .inl hexp
      · refine .inr (.inl ⟨p,?_,hp⟩)
        rintro rfl
        exact hW hwriting
    · exact .inr (.inr hb)
  have hmove : ∀ a t u, Label.allows s ⟨now,.resumePoll b⟩ a → Stable t → (Spared b m t ∧ m ∈ (t.queues q).msgQueue) →
      Move now a t u → Spared b m u ∧ m ∈ (u.queues q).msgQueue :=
    fun a t u ha hst ht hm => ht.1.move hst ht.2 ha.2 hm
  have hkept := (coherent_keeps _ hc hmove ⟨hspared,hin⟩ hs).2
  exact hout hkept.2

end Steps

/-- A poll that times out, and a message posted with expiry 0 while its answer is being written. -/
def lostTrace : List Label :=
  [⟨0,.put ⟨0,0,0,0,[113]⟩⟩,⟨1,.poll ⟨[⟨some [113],0,0,none,0⟩],5⟩⟩,⟨6,.wake 0⟩,⟨7,.post [113] 0 [1]⟩]

/-- The poller that timed out destroys the message unsent. -/
theorem consumed_unsent :
    letI := Rebalance.plain ExpiryNode
    ∃ s s' out, Reaches (fun _ _ => True) lostTrace s ∧ step s ⟨8,.resumePoll 0⟩ = .ok (s',out) ∧
      0 ∈ (s.queues 0).msgQueue ∧ 0 ∉ (s'.queues 0).msgQueue ∧ 0 ∉ s.served := by
  let _ := Rebalance.plain ExpiryNode
  obtain ⟨⟨s,s',out⟩,hs,hobs⟩ := Option.map_eq_some_iff.mp (show (execStep step (fun _ _ => true) .init lostTrace
      ⟨8,.resumePoll 0⟩).map (fun r => ((r.1.queues 0).msgQueue,(r.2.1.queues 0).msgQueue,r.1.served)) =
    some ([0],[],[]) by decide +kernel)
  obtain ⟨hr,hstep⟩ := Run.of_execStep hs
  simp only [Prod.mk.injEq] at hobs
  obtain ⟨h₁,h₂,h₃⟩ := hobs
  exact ⟨s,s',out,hr.mono fun _ _ _ => trivial,hstep,by simp [h₁],by simp [h₂],by simp [h₃]⟩

/-- Posted a moment earlier, the message wakes the poller, is sent, and then removed. -/
theorem consumed_was_sent_woken :
    letI := Rebalance.plain ExpiryNode
    ∃ s s' out, Reaches (fun s l => l.reads s) [⟨0,.put ⟨0,0,0,0,[113]⟩⟩,⟨1,.poll ⟨[⟨some [113],0,0,none,0⟩],5⟩⟩,
        ⟨2,.post [113] 0 [1]⟩,⟨3,.wake 0⟩] s ∧
      step s ⟨4,.resumePoll 0⟩ = .ok (s',out) ∧ 0 ∈ (s.queues 0).msgQueue ∧ 0 ∉ (s'.queues 0).msgQueue ∧
      0 ∈ s.served := by
  let _ := Rebalance.plain ExpiryNode
  obtain ⟨⟨s,s',out⟩,hs,hobs⟩ := Option.map_eq_some_iff.mp (show (execStep step (fun s l => decide (l.reads s)) .init
      [⟨0,.put ⟨0,0,0,0,[113]⟩⟩,⟨1,.poll ⟨[⟨some [113],0,0,none,0⟩],5⟩⟩,⟨2,.post [113] 0 [1]⟩,⟨3,.wake 0⟩]
      ⟨4,.resumePoll 0⟩).map (fun r => ((r.1.queues 0).msgQueue,(r.2.1.queues 0).msgQueue)) =
    some ([0],[]) by decide +kernel)
  obtain ⟨hr,hstep⟩ := Run.of_execStep hs
  simp only [Prod.mk.injEq] at hobs
  obtain ⟨h₁,h₂⟩ := hobs
  have hr' : Reaches (fun s l => l.reads s) _ s := hr.mono fun _ _ hg => by simpa using hg
  have hin : 0 ∈ (s.queues 0).msgQueue := by simp [h₁]
  have hout : 0 ∉ (s'.queues 0).msgQueue := by simp [h₂]
  exact ⟨s,s',out,hr',hstep,hin,hout,consumed_was_sent hr' hstep hin hout⟩

end Memqueue
