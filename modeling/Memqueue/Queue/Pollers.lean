import Memqueue.Queue.Revisions

/-! Pollers: a binder stands in its queue's list exactly as often as in its poller's own, and a
poller is suspended in at most one place. -/
namespace Memqueue
open Ins Fallible Expiry

/-- The two lists a binder is linked into agree. -/
structure Bindings (s : Ins) : Prop where
  own : ∀ b, ∀ β ∈ (s.clis b).memqueues, β.cliBinder = b
  home : ∀ q, ∀ β ∈ (s.queues q).memqueueBinders, β.memqueue = q
  link : ∀ β : MemqueueBinder, (s.queues β.memqueue).memqueueBinders.count β = (s.clis β.cliBinder).memqueues.count β
  fresh : ∀ b, s.nextCli ≤ b → (s.clis b).memqueues = []

theorem bindings_init : Bindings .init where
  own _ _ h := by cases h
  home _ _ h := by cases h
  link _ := rfl
  fresh _ _ := rfl

theorem Bindings.mem_iff {s : Ins} (hi : Bindings s) {β : MemqueueBinder} :
    β ∈ (s.queues β.memqueue).memqueueBinders ↔ β ∈ (s.clis β.cliBinder).memqueues := by
  rw [← List.count_pos_iff,hi.link,List.count_pos_iff]

/-- A queue without binders is in no poller's list. -/
theorem Bindings.unbound {s : Ins} (hi : Bindings s) {q : Ptr} (hq : (s.queues q).memqueueBinders = []) {b : Ptr}
    {β : MemqueueBinder} (hβ : β ∈ (s.clis b).memqueues) : β.memqueue ≠ q := by
  rintro rfl
  obtain rfl := hi.own b β hβ
  rw [← hi.mem_iff,hq] at hβ
  cases hβ

/-- The binders of `b` in the list of `p` are those of `p` in the list of `b`. -/
theorem Bindings.perm {s : Ins} (hi : Bindings s) (p b : Ptr) :
    ((s.queues p).memqueueBinders.filter fun β => β.cliBinder = b).Perm
      ((s.clis b).memqueues.filter fun β => β.memqueue = p) := by
  rw [List.perm_iff_count]
  intro β
  have hqueue : ∀ β, β.memqueue ≠ p → (s.queues p).memqueueBinders.count β = 0 :=
    fun β hne => List.count_eq_zero.mpr fun hβ => hne (hi.home p β hβ)
  have hcli : ∀ β, β.cliBinder ≠ b → (s.clis b).memqueues.count β = 0 :=
    fun β hne => List.count_eq_zero.mpr fun hβ => hne (hi.own b β hβ)
  have hzero : ∀ (f : MemqueueBinder → Bool) (L : List MemqueueBinder), f β = false → (L.filter f).count β = 0 :=
    fun f L hf => List.count_eq_zero.mpr fun hβ => by simp [hf] at hβ
  by_cases hb : β.cliBinder = b
  · by_cases hp : β.memqueue = p
    · subst hb hp
      rw [List.count_filter (by simp),List.count_filter (by simp),hi.link]
    · rw [List.count_filter (by simp [hb]),hqueue β hp,hzero _ _ (by simp [hp])]
  · rw [hzero _ _ (by simp [hb])]
    by_cases hp : β.memqueue = p
    · rw [List.count_filter (by simp [hp]),hcli β hb]
    · rw [hzero _ _ (by simp [hp])]

/-- How often a new message of `p` at revision `r` is pushed to `b`. -/
theorem Bindings.pushCountTo_eq {s : Ins} (hi : Bindings s) (p b : Ptr) (r : Int) :
    pushCountTo (s.queues p).memqueueBinders r b =
      ((s.clis b).memqueues.filter fun β => β.memqueue = p).countP fun β => β.rev ≤ r := by
  rw [← (hi.perm p b).countP_eq,List.countP_filter]
  simp only [pushCountTo,Bool.decide_and]

section Moves
variable [Rebalance ExpiryNode] {now : Nat}

/-- What a move does to the binders of a poller. -/
theorem Move.memqueues {a : Atom} {s s' : Ins} (h : Move now a s s') (b : Ptr) :
    (s'.clis b).memqueues = (s.clis b).memqueues ∨
    (∃ timeout, a = .newCli timeout ∧ b = s.nextCli ∧ (s'.clis b).memqueues = []) ∨
    (∃ β, a = .bind β ∧ b = β.cliBinder ∧ (s'.clis b).memqueues = β :: (s.clis b).memqueues) ∨
    a = .unbindAll b ∧ (s'.clis b).memqueues = [] := by
  cases a with
  | newCli timeout =>
    cases h
    by_cases hb : b = s.nextCli
    · subst hb
      exact .inr (.inl ⟨timeout,rfl,rfl,by simp [addCli]⟩)
    · exact .inl (by simp [addCli,hb])
  | bind β =>
    cases h
    by_cases hb : b = β.cliBinder
    · subst hb
      exact .inr (.inr (.inl ⟨β,rfl,rfl,by simp [memqueueBind,updQueue,updCli]⟩))
    · exact .inl (by simp [memqueueBind,updQueue,updCli,hb])
  | unbindAll p =>
    cases h
    have hu := memqueueUnbindAll_effect s p
    rw [hu.clis]
    by_cases hb : b = p
    · subst hb
      refine .inr (.inr (.inr ⟨rfl,?_⟩))
      rw [Function.update_self]
      exact List.eq_nil_iff_forall_not_mem.mpr fun β hβ => by
        have := List.count_pos_iff.mpr hβ
        rw [List.count_diff] at this
        omega
    · exact .inl (by rw [Function.update_of_ne hb])
  | touch | suspend | wakeup | serve | putQueue | join => cases h; exact .inl rfl
  | create q msecs data =>
    cases h with
    | create _ _ hc => exact .inl (hc.memqueues b)
  | enqueue p m =>
    cases h with
    | enqueue _ _ he =>
      obtain ⟨_,rfl⟩ := cliBinderEnqueueMsg_effect he
      by_cases hb : b = p
      · subst hb
        exact .inl (by simp [updQueue,updMsg,updCli])
      · exact .inl (by simp [updQueue,updMsg,updCli,hb])
  | unpend p m =>
    rw [h.unpend_lost.2.2]
    by_cases hb : b = p
    · subst hb
      exact .inl (by simp)
    · exact .inl (by simp [hb])
  | expireMsg m => exact .inl (by rw [h.expireMsg_lost.2.2])
  | drop m => exact .inl (by rw [h.drop_lost.2.2])
  | leave c => exact .inl (by rw [h.leave_lost.1.clis])
  | release q => exact .inl (by rw [h.release_lost.clis])
  | expireQueue q => exact .inl (by rw [h.expireQueue_lost.1.clis])

/-- What a move does to the binders of any queue, allocated or not. -/
private theorem Move.binders_any {a : Atom} {s s' : Ins} (h : Move now a s s') (hb : Base s) (q : Ptr) :
    (s'.queues q).memqueueBinders = (s.queues q).memqueueBinders ∨
    (∃ β, a = .bind β ∧ q = β.memqueue ∧
      (s'.queues q).memqueueBinders = β :: (s.queues q).memqueueBinders) ∨
    ∃ b, a = .unbindAll b ∧ (s'.queues q).memqueueBinders =
      (s.queues q).memqueueBinders.diff ((s.clis b).memqueues.filter fun β => β.memqueue = q) := by
  by_cases hq : q < s.nextQueue
  · exact h.memqueueBinders hq
  · have hle := Nat.le_of_not_lt hq
    exact .inl ((h.lists_new hb hle).1.trans (hb.store.blank q hle).2.2.1.symm)

private theorem Move.link_eq {a : Atom} {s s' : Ins} (h : Move now a s s') (hb : Base s) (hi : Bindings s)
    (β : MemqueueBinder) :
    (s'.queues β.memqueue).memqueueBinders.count β = (s'.clis β.cliBinder).memqueues.count β := by
  cases a with
  | bind β' =>
    cases h
    have hqueue : ((memqueueBind s β'.memqueue β'.cliBinder β'.rev β'.includeConsumers).queues
        β.memqueue).memqueueBinders.count β =
        (s.queues β.memqueue).memqueueBinders.count β + if β' = β then 1 else 0 := by
      by_cases hq : β.memqueue = β'.memqueue
      · simp [memqueueBind,updQueue,updCli,hq,List.count_cons]
      · have hne : β' ≠ β := fun he => hq (he ▸ rfl)
        simp [memqueueBind,updQueue,updCli,hq,hne]
    have hcli : ((memqueueBind s β'.memqueue β'.cliBinder β'.rev β'.includeConsumers).clis
        β.cliBinder).memqueues.count β =
        (s.clis β.cliBinder).memqueues.count β + if β' = β then 1 else 0 := by
      by_cases hc : β.cliBinder = β'.cliBinder
      · simp [memqueueBind,updQueue,updCli,hc,List.count_cons]
      · have hne : β' ≠ β := fun he => hc (he ▸ rfl)
        simp [memqueueBind,updQueue,updCli,hc,hne]
    rw [hqueue,hcli,hi.link]
  | unbindAll b =>
    cases h
    have hu := memqueueUnbindAll_effect s b
    rw [hu.queues,hu.clis,List.count_diff,hi.link]
    by_cases hc : β.cliBinder = b
    · subst hc
      rw [Function.update_self,List.count_diff,List.count_filter (by simp)]
    · have hnot : β ∉ (s.clis b).memqueues := fun hβ => hc (hi.own b β hβ)
      rw [Function.update_of_ne hc,List.count_eq_zero.mpr fun hβ => hnot (List.mem_of_mem_filter hβ)]
      rfl
  | newCli timeout =>
    rcases h.binders_any hb β.memqueue with he | ⟨_,hx,_⟩ | ⟨_,hx,_⟩
    · rcases h.memqueues β.cliBinder with he' | ⟨_,_,hn,he'⟩ | ⟨_,hx,_⟩ | ⟨hx,_⟩
      · rw [he,he',hi.link]
      · rw [he,he',hi.link,hi.fresh _ hn.ge]
      · cases hx
      · cases hx
    · cases hx
    · cases hx
  | _ =>
    rcases h.binders_any hb β.memqueue with he | ⟨_,hx,_⟩ | ⟨_,hx,_⟩
    · rcases h.memqueues β.cliBinder with he' | ⟨_,hx,_⟩ | ⟨_,hx,_⟩ | ⟨hx,_⟩
      · rw [he,he',hi.link]
      · cases hx
      · cases hx
      · cases hx
    · cases hx
    · cases hx

theorem Move.bindings {a : Atom} {s s' : Ins} (h : Move now a s s') (hb : Base s) (hi : Bindings s) : Bindings s' := by
  refine ⟨fun b β hβ => ?_,fun q β hβ => ?_,fun β => ?_,fun b hle => ?_⟩
  · rcases h.memqueues b with he | ⟨_,_,_,he⟩ | ⟨β',_,rfl,he⟩ | ⟨_,he⟩
    · exact hi.own b β (he ▸ hβ)
    · rw [he] at hβ
      cases hβ
    · rw [he] at hβ
      rcases List.mem_cons.mp hβ with rfl | hβ
      · rfl
      · exact hi.own _ β hβ
    · rw [he] at hβ
      cases hβ
  · rcases h.binders_any hb q with he | ⟨β',_,rfl,he⟩ | ⟨b,_,he⟩
    · exact hi.home q β (he ▸ hβ)
    · rw [he] at hβ
      rcases List.mem_cons.mp hβ with rfl | hβ
      · rfl
      · exact hi.home _ β hβ
    · exact hi.home q β (List.diff_subset _ _ (he ▸ hβ))
  · exact h.link_eq hb hi β
  · rcases h.memqueues b with he | ⟨_,_,_,he⟩ | ⟨β,rfl,rfl,_⟩ | ⟨_,he⟩
    · exact he.trans (hi.fresh b (h.next_le.2.2.2.trans hle))
    · exact he
    · cases h with
      | bind _ _ _ hlt => exact absurd hlt (Nat.not_lt.mpr hle)
    · exact he

end Moves

/-- The handler that an event takes off the suspended ones for good. -/
def Event.resumes : Event → Option Handler
  | .resumePost q => some (.post q)
  | .resumeDelete q => some (.delete q)
  | .resumePoll b => some (.pollWrite b)
  | _ => none

/-- What one step does to the suspended handlers. -/
inductive HandlerStep (s : Ins) : Event → List Handler → Prop
  | same (e : Event) : HandlerStep s e s.handlers
  | post (k : Bytes) (expiry : Int) (body : Bytes) (q : Ptr) : HandlerStep s (.post k expiry body)
    (.post q :: s.handlers)
  | delete (k : Bytes) (q : Ptr) : HandlerStep s (.delete k) (.delete q :: s.handlers)
  | pollWait (args : PollArgs) : HandlerStep s (.poll args) (.pollWait s.nextCli :: s.handlers)
  | pollWrite (args : PollArgs) : HandlerStep s (.poll args) (.pollWrite s.nextCli :: s.handlers)
  | wake {b : Ptr} : .pollWait b ∈ s.handlers →
      HandlerStep s (.wake b) (.pollWrite b :: s.handlers.erase (.pollWait b))
  | resume {e : Event} {x : Handler} : e.resumes = some x → x ∈ s.handlers → HandlerStep s e (s.handlers.erase x)

section Steps
variable [Rebalance ExpiryNode]

omit [Rebalance ExpiryNode] in
theorem pollRespond_handlers (s : Ins) (b : Ptr) : (pollRespond s b).1.handlers = .pollWrite b :: s.handlers := by
  unfold pollRespond
  split <;> rfl

/-- Moves that neither suspend nor wake leave the handlers alone. -/
private theorem trace_handlers {now : Nat} {as : List Atom} {s s' : Ins} (h : Trace (Move now) as s s')
    (ha : ∀ a ∈ as, ∀ x, a ≠ .suspend x ∧ a ≠ .wakeup x) : s'.handlers = s.handlers := by
  refine h.invariant (I := fun t => t.handlers = s.handlers) (fun a t u hx ht hm => ?_) rfl
  rcases hm.handlers with he | ⟨x,rfl,_⟩ | ⟨x,rfl,_⟩
  · exact he.trans ht
  · exact absurd rfl (ha _ hx x).1
  · exact absurd rfl (ha _ hx x).2

/-- The loop of a poll suspends nobody. -/
theorem pollLoop_handlers {now : Nat} {s t : Ins} {args : List QueueArg} {timeout : Int} {i j : Nat} (hb : Base s)
    (h : args.foldlM (pollQueueArg now s.nextCli) (addCli s timeout,0,0) = .ok (t,i,j)) : t.handlers = s.handlers := by
  have hnew : Move now (.newCli timeout) s (addCli s timeout) := .newCli s timeout
  obtain ⟨as,has,ha⟩ := pollLoop_trace (hnew.base hb) (Nat.lt_succ_self _) h
  have ht : t.handlers = (addCli s timeout).handlers := by
    refine trace_handlers has fun a hx x => ⟨?_,?_⟩ <;> rintro rfl <;> exact ha _ hx
  exact ht

theorem step_handlers {s s' : Ins} {l : Label} {out : Option Response} (hb : Base s)
    (h : step s l = .ok (s',out)) : HandlerStep s l.event s'.handlers := by
  obtain ⟨now,event⟩ := l
  cases event with
  | put args =>
    obtain ⟨as,has,ha⟩ := step_trace hb h
    have hput : ∀ a ∈ as, ∀ x, a ≠ .suspend x ∧ a ≠ .wakeup x := by
      intro a hx x
      rw [ha a hx]
      constructor <;> intro he <;> cases he
    rw [trace_handlers has hput]
    exact .same _
  | post k expiry body =>
    rcases onMsgPost_cases h with ⟨rfl,_⟩ | ⟨q,hget,t,full,hfull,hend⟩
    · exact .same _
    · have ht : t.handlers = s.handlers := by
        rcases isMemqueueFull_cases now hb hfull with ⟨_,rfl,_⟩ | ⟨_,rfl,_⟩ | ⟨_,_,_,_,m,_,_,hm⟩
        · rfl
        · rfl
        · exact hm.drop_lost.1.frame.handlers
      rcases hend with ⟨_,rfl,_⟩ | ⟨_,u,hu,rfl,_⟩
      · simp only [suspend,ht]
        exact .post k expiry body q
      · simp only [suspend,(memqueueMsgCreate_effect hu).frame.handlers,ht]
        exact .post k expiry body q
  | poll args =>
    obtain ⟨t,i,j,ht,hend⟩ := memqueuePollQueue_cases h
    have ht := pollLoop_handlers hb ht
    rcases hend with ⟨_,rfl⟩ | ⟨_,rfl,_⟩ | ⟨_,he⟩
    · rw [ht]
      exact .same _
    · simp only [suspend,ht]
      exact .pollWait args
    · rw [show s'.handlers = (pollRespond t s.nextCli).1.handlers from congrArg (·.1.handlers) he,
        pollRespond_handlers,ht]
      exact .pollWrite args
  | delete k =>
    simp only [step,onQueueDelete] at h
    split at h
    · cases h
      exact .same _
    · cases h
      exact .delete k _
  | head k =>
    simp only [step,onQueueInfo] at h
    split at h
    · cases h
      exact .same _
    · cases h
      exact .same _
  | wake b =>
    simp only [step] at h
    split at h
    · rename_i hin
      rw [show s'.handlers = (pollRespond (wakeHandler s (.pollWait b)) b).1.handlers from
        congrArg (·.1.handlers) (Except.ok.inj h).symm,pollRespond_handlers]
      exact .wake hin
    · cases h
      exact .same _
  | resumePost q =>
    simp only [step] at h
    split at h
    · rename_i hin
      obtain ⟨t,ht,h⟩ := bind_ok h
      cases h
      obtain ⟨e,_,ht⟩ := bind_ok ht
      cases ht
      exact .resume rfl hin
    · cases h
      exact .same _
  | resumeDelete q =>
    simp only [step] at h
    split at h
    · rename_i hin
      obtain ⟨t,ht,h⟩ := bind_ok h
      cases h
      rw [(memqueueRelease_effect ht).frame.handlers]
      exact .resume rfl hin
    · cases h
      exact .same _
  | resumePoll b =>
    simp only [step] at h
    split at h
    · rename_i hin
      obtain ⟨t,ht,h⟩ := bind_ok h
      cases h
      have htr : Trace (Move now) _ _ _ := pollFinish_trace ht
      rw [trace_handlers htr ?_]
      · exact .resume rfl hin
      · intro a ha x
        rcases List.mem_cons.mp ha with rfl | ha
        · constructor <;> intro he <;> cases he
        · obtain ⟨m,_,rfl⟩ := List.mem_map.mp ha
          constructor <;> intro he <;> cases he
    · cases h
      exact .same _
  | expire type =>
    obtain ⟨as,has,ha⟩ := step_trace hb h
    rw [trace_handlers has fun a hx x => ?_]
    · exact .same _
    · constructor <;> rintro rfl <;> cases type <;> exact ha _ hx

end Steps

/-- A poller is suspended at most once, and only after it was allocated. -/
structure PollerInv (s : Ins) : Prop where
  fresh : ∀ b, s.nextCli ≤ b → .pollWait b ∉ s.handlers ∧ .pollWrite b ∉ s.handlers
  once : ∀ b, s.handlers.count (.pollWait b) + s.handlers.count (.pollWrite b) ≤ 1

theorem pollerInv_init : PollerInv .init where
  fresh _ _ := ⟨nofun,nofun⟩
  once _ := Nat.zero_le _

theorem PollerInv.exclusive {s : Ins} (hi : PollerInv s) {b : Ptr} (h : .pollWait b ∈ s.handlers) :
    .pollWrite b ∉ s.handlers ∧ .pollWait b ∉ s.handlers.erase (.pollWait b) := by
  have h₁ := hi.once b
  have h₂ := List.count_pos_iff.mpr h
  refine ⟨fun hw => ?_,fun hw => ?_⟩
  · have := List.count_pos_iff.mpr hw
    omega
  · have := List.count_pos_iff.mpr hw
    rw [List.count_erase_self] at this
    omega

private theorem HandlerStep.poller {s : Ins} {e : Event} {L : List Handler} (h : HandlerStep s e L) {n : Ptr}
    (hn : s.nextCli ≤ n) (hpoll : ∀ args, e = .poll args → s.nextCli < n) (hi : PollerInv s) :
    (∀ b, n ≤ b → .pollWait b ∉ L ∧ .pollWrite b ∉ L) ∧ ∀ b, L.count (.pollWait b) + L.count (.pollWrite b) ≤ 1 := by
  have hold : ∀ b, n ≤ b → .pollWait b ∉ s.handlers ∧ .pollWrite b ∉ s.handlers :=
    fun b hb => hi.fresh b (hn.trans hb)
  cases h with
  | same => exact ⟨hold,hi.once⟩
  | post k expiry body q => exact ⟨fun b hb => by simpa using hold b hb,fun b => by simpa using hi.once b⟩
  | delete k q => exact ⟨fun b hb => by simpa using hold b hb,fun b => by simpa using hi.once b⟩
  | pollWait args =>
    have hlt := hpoll args rfl
    obtain ⟨h₁,h₂⟩ := hi.fresh s.nextCli le_rfl
    refine ⟨fun b hb => ?_,fun b => ?_⟩
    · have hne : b ≠ s.nextCli := (lt_of_lt_of_le hlt hb).ne'
      simpa [hne] using hold b hb
    · by_cases hb : s.nextCli = b
      · subst hb
        simp [List.count_eq_zero.mpr h₁,List.count_eq_zero.mpr h₂]
      · simpa [List.count_cons,hb] using hi.once b
  | pollWrite args =>
    have hlt := hpoll args rfl
    obtain ⟨h₁,h₂⟩ := hi.fresh s.nextCli le_rfl
    refine ⟨fun b hb => ?_,fun b => ?_⟩
    · have hne : b ≠ s.nextCli := (lt_of_lt_of_le hlt hb).ne'
      simpa [hne] using hold b hb
    · by_cases hb : s.nextCli = b
      · subst hb
        simp [List.count_eq_zero.mpr h₁,List.count_eq_zero.mpr h₂]
      · simpa [List.count_cons,hb] using hi.once b
  | @wake c hin =>
    refine ⟨fun b hb => ?_,fun b => ?_⟩
    · obtain ⟨h₁,h₂⟩ := hold b hb
      have hne : b ≠ c := by
        rintro rfl
        exact h₁ hin
      refine ⟨fun hx => ?_,fun hx => ?_⟩
      · rcases List.mem_cons.mp hx with hx | hx
        · cases hx
        · exact h₁ (List.mem_of_mem_erase hx)
      · rcases List.mem_cons.mp hx with hx | hx
        · cases hx
          exact hne rfl
        · exact h₂ (List.mem_of_mem_erase hx)
    · have honce := hi.once b
      by_cases hb : c = b
      · subst hb
        have hpos := List.count_pos_iff.mpr hin
        rw [List.count_cons_of_ne (by simp),List.count_erase_self,List.count_cons_self,
          List.count_erase_of_ne (by simp)]
        omega
      · rw [List.count_cons_of_ne (by simp),List.count_cons_of_ne (by simpa using hb),
          List.count_erase_of_ne (by simpa using Ne.symm hb),List.count_erase_of_ne (by simp)]
        exact honce
  | @resume _ x _ hin =>
    refine ⟨fun b hb => ?_,fun b => ?_⟩
    · obtain ⟨h₁,h₂⟩ := hold b hb
      exact ⟨fun hx => h₁ (List.mem_of_mem_erase hx),fun hx => h₂ (List.mem_of_mem_erase hx)⟩
    · have honce := hi.once b
      have h₁ := (s.handlers.erase_sublist (a := x)).count_le (.pollWait b)
      have h₂ := (s.handlers.erase_sublist (a := x)).count_le (.pollWrite b)
      omega

section Runs
variable [Rebalance ExpiryNode]

private theorem step_nextCli {s s' : Ins} {l : Label} {out : Option Response} (hb : Base s)
    (h : step s l = .ok (s',out)) : s.nextCli ≤ s'.nextCli ∧ ∀ args, l.event = .poll args → s.nextCli < s'.nextCli := by
  have hmono : ∀ {n : Ptr} {as : List Atom} {t u : Ins}, Trace (Move l.now) as t u → n ≤ t.nextCli → n ≤ u.nextCli :=
    fun {n} _ _ _ htr hn => htr.invariant (I := fun v => n ≤ v.nextCli)
      (fun _ _ _ _ hle hm => hle.trans hm.next_le.2.2.2) hn
  refine ⟨?_,fun args hev => ?_⟩
  · obtain ⟨as,has,_⟩ := step_trace hb h
    exact hmono has le_rfl
  · obtain ⟨now,event⟩ := l
    cases hev
    obtain ⟨t,i,j,ht,hend⟩ := memqueuePollQueue_cases h
    have hnew : Move now (.newCli args.timeout) s (addCli s args.timeout) := .newCli s args.timeout
    obtain ⟨as,has,_⟩ := pollLoop_trace (hnew.base hb) (Nat.lt_succ_self _) ht
    have hlt : s.nextCli < t.nextCli := hmono has (Nat.le_refl (s.nextCli + 1))
    rcases hend with ⟨_,rfl⟩ | ⟨_,rfl,_⟩ | ⟨_,he⟩
    · exact hlt
    · exact hlt
    · obtain ⟨bs,hbs,_⟩ := pollRespond_trace now t s.nextCli
      rw [← he] at hbs
      exact hmono hbs hlt

theorem step_pollerInv {s s' : Ins} {l : Label} {out : Option Response} (hb : Base s) (hi : PollerInv s)
    (h : step s l = .ok (s',out)) : PollerInv s' := by
  obtain ⟨hn,hpoll⟩ := step_nextCli hb h
  obtain ⟨h₁,h₂⟩ := (step_handlers hb h).poller hn hpoll hi
  exact ⟨h₁,h₂⟩

/-- What holds at every move of every run: accounts, revisions and binders. -/
structure Stable (s : Ins) : Prop where
  base : Base s
  ledger : Ledger s
  revs : RevInv s
  bindings : Bindings s

theorem Move.stable {now : Nat} {a : Atom} {s s' : Ins} (h : Move now a s s') (hs : Stable s) : Stable s' :=
  ⟨h.base hs.base,h.ledger hs.base hs.ledger,h.revInv hs.base hs.revs hs.ledger,h.bindings hs.base hs.bindings⟩

/-- What holds between the steps of every run. -/
structure Coherent (s : Ins) : Prop extends Stable s where
  pollers : PollerInv s

omit [Rebalance ExpiryNode] in
theorem coherent_init : Coherent .init := ⟨⟨base_init,ledger_init,revInv_init,bindings_init⟩,pollerInv_init⟩

/-- What the moves of a step preserve, with the state stable at every move. -/
theorem coherent_keeps {s s' : Ins} {l : Label} {out : Option Response} (I : Ins → Prop) (hc : Coherent s)
    (hmove : ∀ a t u, l.allows s a → Stable t → I t → Move l.now a t u → I u)
    (hs : I s) (h : step s l = .ok (s',out)) : Coherent s' ∧ I s' := by
  obtain ⟨as,has,ha⟩ := step_trace hc.base h
  obtain ⟨hst,hi⟩ := has.invariant (I := fun t => Stable t ∧ I t)
    (fun a t u hx ht hm => ⟨hm.stable ht.1,hmove a t u (ha a hx) ht.1 ht.2 hm⟩) ⟨hc.toStable,hs⟩
  exact ⟨⟨hst,step_pollerInv hc.base hc.pollers h⟩,hi⟩

theorem step_coherent {s s' : Ins} {l : Label} {out : Option Response} (hc : Coherent s)
    (h : step s l = .ok (s',out)) : Coherent s' :=
  (coherent_keeps (fun _ => True) hc (fun _ _ _ _ _ _ _ => trivial) trivial h).1

theorem run_coherent {P : Ins → Label → Prop} {tr : List Label} {s t : Ins} (hc : Coherent s)
    (h : Run step P s tr t) : Coherent t :=
  h.invariant (fun _ _ _ _ hi _ hs => step_coherent hi hs) hc

theorem reaches_coherent {P : Ins → Label → Prop} {tr : List Label} {s : Ins} (h : Reaches P tr s) : Coherent s :=
  run_coherent coherent_init h

end Runs
end Memqueue
