import Memqueue.Queue.Calls
import Memqueue.Queue.Creation

/-! Every delay handed to obj_sched_expire is a field of the object it is for:
the expiry of a queue or message, or the consumer_expiry of the queue a consumer joined. -/
namespace Memqueue
open Ins Fallible Expiry

/-- What an object is scheduled with, whenever it is. -/
def Ins.delay (s : Ins) : ObjType → Ptr → Nat
  | .msg, m => (s.msgs m).expiry.toNat
  | .memqueue, q => (s.queues q).expiry
  | .consumer, c => (s.queues (s.consumers c).memqueue).consumerExpiry

/-- A call for an allocated object with its own delay. -/
structure Ins.explains (s : Ins) (c : Sched) : Prop where
  allocated : c.obj < nextObj s c.type
  msecs : c.msecs = s.delay c.type c.obj
  pos : 0 < c.msecs

/-- Only queues with an expiry are scheduled, and a consumer keeps the consumer_expiry it joined with. -/
structure Delays (s : Ins) : Prop where
  queues : ∀ q ∈ s.expiry.indexed .memqueue, 0 < (s.queues q).expiry
  consumers : ∀ c < s.nextConsumer, (s.consumers c).expiry = s.delay .consumer c

theorem delays_init : Delays .init where
  queues _ h := by cases h
  consumers _ h := by cases h

section Moves
variable [Rebalance ExpiryNode] {now : Nat} {a : Atom} {s s' : Ins}

theorem Move.nextObj_le (h : Move now a s s') (type : ObjType) : nextObj s type ≤ nextObj s' type := by
  obtain ⟨hm,hq,hc,_⟩ := h.next_le
  cases type with
  | msg => exact hm
  | memqueue => exact hq
  | consumer => exact hc

theorem Move.delay_eq (h : Move now a s s') (hb : Base s) (type : ObjType) {o : Ptr} (ho : o < nextObj s type) :
    s'.delay type o = s.delay type o := by
  cases type with
  | msg =>
    simp only [delay]
    rw [(h.sameMsg ho).expiry]
  | memqueue => exact (h.sameQueue ho).expiry
  | consumer =>
    have howner : (s'.consumers o).memqueue = (s.consumers o).memqueue := by
      rcases h.sameConsumer with ⟨_,hsame⟩ | ⟨q,id,_,_,hcons⟩
      · exact (hsame o).1
      · have hne : o ≠ s.nextConsumer := Nat.ne_of_lt ho
        rw [hcons,Function.update_of_ne hne]
    simp only [delay]
    rw [howner]
    exact (h.sameQueue (hb.consumerOwner o ho)).consumerExpiry

theorem Move.explains (h : Move now a s s') (hb : Base s) {c : Sched} (hc : s.explains c) : s'.explains c :=
  ⟨lt_of_lt_of_le hc.allocated (h.nextObj_le c.type),hc.msecs.trans (h.delay_eq hb c.type hc.allocated).symm,hc.pos⟩

theorem Move.delays (h : Move now a s s') (hb : Base s) (hd : Delays s) : Delays s' := by
  refine ⟨?_,?_⟩
  · intro q hq
    rcases ((h.indexed hb.index).2 .memqueue q).mp hq with ⟨hq,_⟩ | hlink
    · rw [(h.sameQueue (hb.index.allocated .memqueue q hq)).expiry]
      exact hd.queues q hq
    · cases h with
      | @putQueue _ args e hnone hs hz =>
        obtain ⟨hpos,_,rfl⟩ := hlink
        simpa [setExpiry,addQueue,newQueue] using hpos
      | create => exact absurd hlink.2.1 (by decide)
      | join => exact absurd hlink.1 (by decide)
      | _ => exact hlink.elim
  · intro c hc
    rcases h.sameConsumer with ⟨hn,hsame⟩ | ⟨q,id,rfl,hn,hcons⟩
    · rw [hn] at hc
      rw [(hsame c).2.2,hd.consumers c hc]
      exact (h.delay_eq hb .consumer hc).symm
    · by_cases hlt : c < s.nextConsumer
      · rw [hcons,Function.update_of_ne (Nat.ne_of_lt hlt),hd.consumers c hlt]
        exact (h.delay_eq hb .consumer hlt).symm
      · rw [hn] at hc
        have heq : c = s.nextConsumer := Nat.le_antisymm (Nat.lt_succ_iff.mp hc) (Nat.not_lt.mp hlt)
        cases h with
        | join _ hq _ _ =>
          subst heq
          simp [delay,setExpiry,addConsumer,newConsumer,updQueue]

theorem trace_explains {as : List Atom} (h : Trace (Move now) as s s') (hb : Base s) {c : Sched} (hc : s.explains c) :
    s'.explains c :=
  trace_invariant h (fun t => t.explains c) (fun _ _ _ hbt _ hi hm => hm.explains hbt hi) hb hc

theorem trace_delays {as : List Atom} (h : Trace (Move now) as s s') (hb : Base s) (hd : Delays s) : Delays s' :=
  trace_invariant h Delays (fun _ _ _ hbt _ hi hm => hm.delays hbt hi) hb hd

omit [Rebalance ExpiryNode] in
private theorem resched_explained {type : ObjType} {o : Ptr} {expiry : Nat} (hb : Base s)
    (hdelay : o ∈ s.expiry.indexed type → expiry = s.delay type o ∧ 0 < expiry) :
    ∀ c ∈ reschedCalls s.expiry type o expiry, s.explains c := by
  intro c hc
  unfold reschedCalls at hc
  split at hc
  · rename_i hsome
    cases List.mem_singleton.mp hc
    have hin : o ∈ s.expiry.indexed type := (hb.index.wf.linked type o hsome).resolve_right fun hx => hx
    exact ⟨hb.index.allocated type o hin,(hdelay hin).1,(hdelay hin).2⟩
  · cases hc

omit [Rebalance ExpiryNode] in
private theorem queueResched_explained (hb : Base s) (hd : Delays s) (q : Ptr) :
    ∀ c ∈ reschedCalls s.expiry .memqueue q (s.queues q).expiry, s.explains c :=
  resched_explained hb fun hin => ⟨rfl,hd.queues q hin⟩

private theorem refresh_explained {q : Ptr} {id : Bytes} (hst : Stable s) (hd : Delays s)
    (hce : (s.queues q).consumerExpiry ≠ 0) (hlive : (s.queues q).freed = false) (hq : q < s.nextQueue)
    (h : memqueueRefreshConsumer now s q id = .ok s') : ∀ c ∈ refreshCalls s q id, s'.explains c := by
  intro c hc
  unfold refreshCalls at hc
  rcases memqueueRefreshConsumer_cases hst.base hlive hq h with ⟨⟨o,hget,_⟩,htouch⟩ | ⟨hnone,t,hcreate,hjoin⟩
  · rw [hget] at hc
    obtain ⟨hlt,howner,_⟩ := hst.ledger.registered q id o (Table.mem_of_get hget)
    have hdelay : s.delay .consumer o = (s.queues q).consumerExpiry := by rw [delay,howner]
    refine htouch.explains hst.base (resched_explained hst.base (fun _ => ?_) c hc)
    rw [hd.consumers o hlt,hdelay]
    exact ⟨rfl,Nat.pos_of_ne_zero hce⟩
  · rw [hnone] at hc
    have hbt := hcreate.base hst.base
    have hsame := (hcreate.sameQueue hq).consumerExpiry
    simp only [List.mem_cons,List.not_mem_nil,or_false] at hc
    rcases hc with rfl | rfl
    · apply hjoin.explains hbt
      cases hcreate with
      | create _ _ hc =>
        refine ⟨?_,?_,Nat.zero_lt_succ _⟩
        · show s.nextMsg < t.nextMsg
          rw [hc.nextMsg]
          exact Nat.lt_succ_self _
        · simp [delay,hc.msgs]
    · have hnext : t.nextConsumer = s.nextConsumer := by
        cases hcreate with
        | create _ _ hc => exact hc.frame.nextConsumer
      cases hjoin with
      | join _ _ _ _ =>
        refine ⟨?_,?_,Nat.pos_of_ne_zero hce⟩
        · show s.nextConsumer < t.nextConsumer + 1
          rw [hnext]
          exact Nat.lt_succ_self _
        · rw [← hnext]
          simp [delay,setExpiry,addConsumer,newConsumer,updQueue,hsame]

private theorem pollRefresh_explained {q : Ptr} {x : QueueArg} (hst : Stable s) (hd : Delays s)
    (hlive : (s.queues q).freed = false) (hq : q < s.nextQueue) (h : pollRefresh now s q x = .ok s') :
    ∀ c ∈ pollRefreshCalls s q x, s'.explains c := by
  intro c hc
  simp only [pollRefresh] at h
  unfold pollRefreshCalls at hc
  split at h
  · rename_i id hid
    rw [hid] at hc
    split at h
    · rename_i hce
      simp only [hce,ne_eq,not_false_eq_true,if_true] at hc
      exact refresh_explained hst hd hce hlive hq h c hc
    · rename_i hce
      simp only [hce,if_false] at hc
      cases hc
  · rename_i hid
    rw [hid] at hc
    cases hc

private theorem pollLoop_explained {b : Ptr} {args : List QueueArg} {acc acc' : PollAcc} (hst : Stable acc.1)
    (hd : Delays acc.1) (hcli : b < acc.1.nextCli) (h : args.foldlM (pollQueueArg now b) acc = .ok acc') :
    ∀ c ∈ pollCalls now b acc args, acc'.1.explains c := by
  induction args generalizing acc with
  | nil =>
    intro c hc
    cases hc
  | cons x args ih =>
    rw [List.foldlM_cons] at h
    obtain ⟨acc₁,h₁,h₂⟩ := bind_ok h
    intro c hc
    rw [pollCalls,h₁] at hc
    obtain ⟨k,hk,⟨hnone,rfl⟩ | ⟨q,n,hget,hf,_⟩⟩ := pollQueueArg_cases h₁
    · simp only [hk,Option.bind_some,hnone,List.nil_append] at hc
      exact ih hst hd hcli h₂ c hc
    · obtain ⟨hlt,hlive,_⟩ := hst.base.store.get_iff.mp hget
      obtain ⟨s₁,hr,htr,_⟩ := pollFound_cases hst.base hlive hlt hcli hf
      obtain ⟨as,has,_⟩ := pollRefresh_trace hst.base hlive hlt hr
      obtain ⟨_,_,hle⟩ := pollRefresh_keeps hst.base hlive hlt hr
      have hb₁ := trace_base has hst.base
      have hst' : Stable acc₁.1 := (has.append htr).invariant (fun _ _ _ _ hi hm => hm.stable hi) hst
      have hd' : Delays acc₁.1 := trace_delays (has.append htr) hst.base hd
      have hcli' : b < acc₁.1.nextCli := by
        refine trace_invariant htr (fun t => b < t.nextCli) ?_ hb₁ (lt_of_lt_of_le hcli hle)
        intro y t u _ _ hi hm
        exact lt_of_lt_of_le hi hm.next_le.2.2.2
      -- what this entry scheduled stays explained through the rest of the loop
      have hrest : ∀ d, acc₁.1.explains d → acc'.1.explains d := by
        intro d hd
        obtain ⟨bs,hbs,_⟩ := pollLoop_trace (s := acc₁.1) (i := acc₁.2.1) (j := acc₁.2.2) hst'.base hcli' h₂
        exact trace_explains hbs hst'.base hd
      simp only [hk,Option.bind_some,hget,List.mem_append,pollFoundCalls] at hc
      rcases hc with (hc | hc) | hc
      · exact hrest c (trace_explains htr hb₁ (pollRefresh_explained hst hd hlive hlt hr c hc))
      · exact hrest c (trace_explains (has.append htr) hst.base (queueResched_explained hst.base hd q c hc))
      · exact ih hst' hd' hcli' h₂ c hc

/-- The expiry of the messages a step creates. -/
def Label.msecs (l : Label) : Int :=
  match l.event with
  | .post _ expiry _ => expiry
  | _ => 2000

omit [Rebalance ExpiryNode] in
private theorem allows_msecs {l : Label} {q : Ptr} {msecs : Int} {data : Bytes}
    (h : l.allows s (.create q msecs data)) : msecs = l.msecs := by
  obtain ⟨now,event⟩ := l
  cases event with
  | post k expiry body =>
    rcases h with ⟨_,h⟩ | ⟨_,_,h⟩ | ⟨_,h⟩
    · cases h
    · cases h
      rfl
    · cases h
  | poll args => exact h.1
  | expire type =>
    cases type with
    | consumer => exact h.1
    | msg => exact h.elim
    | memqueue => exact h.elim
  | put | delete | head | wake | resumePost | resumeDelete | resumePoll => simp [Label.allows] at h

theorem step_msgExpiry {l : Label} {out : Option Response} (hb : Base s) (h : step s l = .ok (s',out)) {m : Ptr}
    (hm : s.nextMsg ≤ m) (hm' : m < s'.nextMsg) : (s'.msgs m).expiry = l.msecs := by
  obtain ⟨as,has,ha⟩ := step_trace hb h
  refine has.invariant (I := fun t => ∀ m, s.nextMsg ≤ m → m < t.nextMsg → (t.msgs m).expiry = l.msecs) ?_ ?_ m hm hm'
  · intro a t u hx hi hmove m hm hm'
    by_cases hlt : m < t.nextMsg
    · rw [(hmove.sameMsg hlt).expiry]
      exact hi m hm hlt
    · rcases hmove.nextMsg with hn | ⟨q,msecs,data,rfl,hn,_⟩
      · rw [hn] at hm'
        exact absurd hm' hlt
      · rw [hn] at hm'
        have heq : m = t.nextMsg := Nat.le_antisymm (Nat.lt_succ_iff.mp hm') (Nat.not_lt.mp hlt)
        cases hmove with
        | create _ _ hc =>
          rw [heq,hc.msgs]
          simpa using allows_msecs (ha _ hx)
  · intro m hm hm'
    exact absurd hm' (Nat.not_lt.mpr hm)

/-- Every call of a step is for an allocated object, with that object's own delay. -/
theorem step_explained {l : Label} {out : Option Response} (hc : Coherent s) (hd : Delays s)
    (h : step s l = .ok (s',out)) : (∀ c ∈ l.calls s, s'.explains c) ∧ Delays s' := by
  obtain ⟨as,has,ha⟩ := step_trace hc.base h
  refine ⟨?_,trace_delays has hc.base hd⟩
  have hmsgs := fun m => step_msgExpiry (m := m) hc.base h
  obtain ⟨now,event⟩ := l
  intro c hcall
  cases event with
  | put args =>
    simp only [Label.calls] at hcall
    split at hcall
    · rename_i hput
      cases List.mem_singleton.mp hcall
      simp only [step,onQueueCreate,hput.1] at h
      obtain ⟨t,ht,h⟩ := bind_ok h
      cases h
      have hmove := memqueueCreate_move hput.1 ht
      cases hmove with
      | putQueue _ _ _ =>
        refine ⟨Nat.lt_succ_self _,?_,hput.2⟩
        simp [delay,setExpiry,addQueue,newQueue]
    · cases hcall
  | post k expiry body =>
    simp only [Label.calls] at hcall
    obtain ⟨rfl,hnone⟩ | ⟨q,hget,t,full,ht,hend⟩ := onMsgPost_cases h
    · rw [hnone] at hcall
      cases hcall
    · simp only [hget,ht] at hcall
      rcases hend with ⟨rfl,rfl,_⟩ | ⟨rfl,u,hu,rfl,_⟩
      · cases hcall
      · by_cases hpos : 0 < expiry
        · rw [createCalls,if_pos hpos] at hcall
          cases List.mem_singleton.mp hcall
          have hnext : s.nextMsg < u.nextMsg := by
            rw [(memqueueMsgCreate_effect hu).nextMsg,(isMemqueueFull_keeps ht).2]
            exact Nat.lt_succ_self _
          refine ⟨hnext,?_,?_⟩
          · show expiry.toNat = ((suspend u (.post q)).msgs s.nextMsg).expiry.toNat
            rw [hmsgs s.nextMsg le_rfl hnext]
            rfl
          · show 0 < expiry.toNat
            omega
        · rw [createCalls,if_neg hpos] at hcall
          cases hcall
  | poll args =>
    obtain ⟨t,i,j,hloop,hend⟩ := memqueuePollQueue_cases h
    have hnew : Move now (.newCli args.timeout) s (addCli s args.timeout) := .newCli s args.timeout
    have ht : t.explains c := @pollLoop_explained _ _ _ _ (addCli s args.timeout,0,0) _ (hnew.stable hc.toStable)
      (hnew.delays hc.base hd) (Nat.lt_succ_self _) hloop c hcall
    rcases hend with ⟨_,rfl⟩ | ⟨_,rfl,_⟩ | ⟨_,heq⟩
    · exact ht
    · refine ⟨?_,ht.msecs,ht.pos⟩
      have halloc := ht.allocated
      cases hty : c.type <;> rwa [hty] at halloc
    · have he : s' = (pollRespond t s.nextCli).1 := congrArg Prod.fst heq
      obtain ⟨bs,hbs,_⟩ := pollLoop_trace (s := addCli s args.timeout) (i := 0) (j := 0) (hnew.base hc.base)
        (Nat.lt_succ_self _) hloop
      obtain ⟨cs,hcs,_⟩ := pollRespond_trace now t s.nextCli
      rw [he]
      exact trace_explains hcs (trace_base hbs (hnew.base hc.base)) ht
  | resumePost q =>
    simp only [Label.calls] at hcall
    split at hcall
    · exact trace_explains has hc.base (queueResched_explained hc.base hd q c hcall)
    · cases hcall
  | expire type =>
    cases type with
    | consumer =>
      simp only [step] at h
      obtain ⟨t,ht,h⟩ := bind_ok h
      cases h
      simp only [Label.calls,ht] at hcall
      obtain ⟨m,hm,rfl⟩ := List.mem_map.mp hcall
      obtain ⟨hge,hlt⟩ := List.mem_range'_1.mp hm
      have hle : s.nextMsg ≤ s'.nextMsg :=
        has.invariant (I := fun t => s.nextMsg ≤ t.nextMsg) (fun _ _ _ _ hi hm => hi.trans hm.next_le.1) le_rfl
      have hlt' : m < s'.nextMsg := lt_of_lt_of_eq hlt (Nat.add_sub_of_le hle)
      refine ⟨hlt',?_,Nat.zero_lt_succ _⟩
      show 2000 = (s'.msgs m).expiry.toNat
      rw [hmsgs m hge hlt']
      rfl
    | msg => cases hcall
    | memqueue => cases hcall
  | delete | head | wake | resumeDelete | resumePoll => cases hcall

/-- What a pass takes out of its tree was due when the pass began. -/
theorem pass_due {now : Nat} {type : ObjType} {s s' : Ins} {out : Option Response} {o : Ptr} (hb : Base s)
    (h : step s ⟨now,.expire type⟩ = .ok (s',out)) (hin : o ∈ s.expiry.indexed type)
    (hout : o ∉ s'.expiry.indexed type) : dueIn s.expiry type (now % 2^32) o := by
  obtain ⟨as,has,ha⟩ := step_trace hb h
  by_contra hnot
  refine hout (trace_invariant has (fun t => o ∈ t.expiry.indexed type) ?_ hb hin)
  intro a t u hbt hx hi hm
  refine ((hm.indexed hbt.index).2 type o).mpr (.inl ⟨hi,?_⟩)
  intro hun
  have hallow : expireAllows s now type a := ha a hx
  cases a with
  | leave c =>
    obtain ⟨rfl,rfl⟩ := hun
    exact hnot hallow
  | expireMsg m =>
    obtain ⟨rfl,rfl⟩ := hun
    exact hnot hallow
  | expireQueue q =>
    obtain ⟨rfl,rfl⟩ := hun
    exact hnot hallow
  | _ => exact hun.elim

end Moves

end Memqueue
