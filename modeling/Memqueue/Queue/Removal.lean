import Memqueue.Queue.Ledger

/-! What becomes of a q_id when its queue is deleted or expires: the queue leaves the store
exactly when the reference given up was its only one. -/
namespace Memqueue
open Ins Fallible Expiry

/-- Two live queues never share a q_id. -/
theorem live_unique {s : Ins} (hi : StoreInv s) {p q : Ptr} (hp : p < s.nextQueue) (hq : q < s.nextQueue)
    (hlp : (s.queues p).freed = false) (hlq : (s.queues q).freed = false)
    (hid : (s.queues p).qId = (s.queues q).qId) : p = q := by
  have h₁ := hi.get_iff.mpr ⟨hp,hlp,hid⟩
  have h₂ := hi.get_iff.mpr ⟨hq,hlq,rfl⟩
  rw [h₁] at h₂
  cases h₂
  rfl

section Missing
variable [Rebalance ExpiryNode]

/-- No client PUTs a queue named `k`. -/
def NoPut (k : Bytes) (_ : Ins) (l : Label) : Prop := ∀ args, l.event = .put args → args.qId ≠ k

/-- Every request on `k` is answered MEMQUEUE_NOT_FOUND, and a PUT makes a fresh queue of revision 0. -/
structure NotFoundAt (k : Bytes) (s : Ins) : Prop where
  post : ∀ now expiry body, step s ⟨now,.post k expiry body⟩ = .ok (s,some (memqueueRespond s .notFound 0))
  poll : ∀ now args, (∀ a ∈ args.queueArgs, a.qId = some k) → ∃ s',
    step s ⟨now,.poll args⟩ = .ok (s',some (memqueueRespond s' .notFound 0))
  head : ∀ now, step s ⟨now,.head k⟩ = .ok (s,some (memqueueRespond s .notFound 0))
  delete : ∀ now, step s ⟨now,.delete k⟩ = .ok (s,some (memqueueRespond s .notFound 0))
  put : ∀ now args, args.qId = k → ∃ s', step s ⟨now,.put args⟩ = .ok (s',some (memqueueRespond s' .created 0)) ∧
    s'.queueStore.get k = some s.nextQueue ∧ (s'.queues s.nextQueue).rev = 0

/-- The queue `q` once named `k` is gone: the name does not yield it, nor any queue before a new PUT. -/
def Gone (k : Bytes) (q : Ptr) (s : Ins) : Prop :=
  ∀ tr t, Run step (NoPut k) s tr t → t.queueStore.get k ≠ some q ∧ NotFoundAt k t

private theorem poll_missing {k : Bytes} {now : Nat} {b : Ptr} : ∀ (L : List QueueArg) (acc : PollAcc),
    acc.1.queueStore.get k = none → (∀ a ∈ L, a.qId = some k) → L.foldlM (pollQueueArg now b) acc = .ok acc := by
  intro L
  induction L with
  | nil => exact fun _ _ _ => rfl
  | cons a L ih =>
    intro acc hnone hL
    rw [List.foldlM_cons]
    have ha : pollQueueArg now b acc a = .ok acc := by
      simp only [pollQueueArg,hL a List.mem_cons_self,hnone]
      rfl
    rw [ha]
    exact ih acc hnone fun x hx => hL x (List.mem_cons_of_mem _ hx)

theorem notFoundAt_of_none {k : Bytes} {s : Ins} (hnone : s.queueStore.get k = none) : NotFoundAt k s where
  post now expiry body := by simp only [step,onMsgPost,hnone]
  poll now args hargs := by
    refine ⟨addCli s args.timeout,?_⟩
    show (List.foldlM (pollQueueArg now s.nextCli) (addCli s args.timeout,0,0) args.queueArgs >>= _) = _
    rw [poll_missing args.queueArgs (addCli s args.timeout,0,0) hnone hargs]
    rfl
  head now := by simp only [step,onQueueInfo,hnone]
  delete now := by simp only [step,onQueueDelete,hnone]
  put now args hk := by
    subst hk
    cases hx : memqueueCreate now s args with
    | error f => exact absurd hx memqueueCreate_fault
    | ok s' =>
      refine ⟨s',?_,?_⟩
      · simp only [step,onQueueCreate,hnone,hx]
        rfl
      · cases memqueueCreate_move hnone hx with
        | putQueue _ _ _ =>
          exact ⟨Table.get_insert_self hnone s.nextQueue,by simp [setExpiry,addQueue,newQueue]⟩

/-- A name that is not in the store stays out of it until it is PUT again. -/
theorem missing_run {k : Bytes} {s t : Ins} {tr : List Label} (hb : Base s) (hnone : s.queueStore.get k = none)
    (h : Run step (NoPut k) s tr t) : t.queueStore.get k = none := by
  refine (h.invariant (I := fun s => Base s ∧ s.queueStore.get k = none) ?_ ⟨hb,hnone⟩).2
  rintro s l s' out ⟨hb,hnone⟩ hput hs
  obtain ⟨as,has,ha⟩ := step_trace hb hs
  refine ⟨trace_base has hb,trace_invariant has (fun t => t.queueStore.get k = none) ?_ hb hnone⟩
  intro a t u hbt hx hn hm
  have hbu := hm.base hbt
  rw [hbu.store.get_none]
  intro q hq hlive hid
  rw [hbt.store.get_none] at hn
  by_cases hlt : q < t.nextQueue
  · exact hn q hlt (hm.live_of hlt hlive) ((hm.sameQueue hlt).qId.symm.trans hid)
  · rcases hm.queue_new (Nat.le_of_not_lt hlt) with hle | ⟨args,rfl,rfl,he⟩
    · exact absurd hq (Nat.not_lt.mpr hle)
    · rw [he] at hid
      have hev := ha _ hx
      obtain ⟨now,event⟩ := l
      cases event with
      | put args' =>
        cases hev
        exact hput args rfl hid
      | post => rcases hev with ⟨_,he⟩ | ⟨_,_,he⟩ | ⟨_,he⟩ <;> cases he
      | poll => cases hev
      | delete => obtain ⟨_,he⟩ := hev; cases he
      | head => cases hev
      | wake => rcases hev with he | he | he <;> cases he
      | resumePost => rcases hev with he | he <;> cases he
      | resumeDelete => rcases hev with ⟨_,he | he⟩ <;> cases he
      | resumePoll => rcases hev with ⟨_,he | he | ⟨_,he⟩⟩ <;> cases he
      | expire type => cases type <;> cases hev

/-- The queue `q` gives up its base reference in this step: its DELETE finishes, or the pass expires it. -/
def Finishes (q : Ptr) (s : Ins) (l : Label) (s' : Ins) : Prop :=
  l.event = .resumeDelete q ∧ .delete q ∈ s.handlers ∨
  l.event = .expire .memqueue ∧ q ∈ s.expiry.indexed .memqueue ∧ q ∉ s'.expiry.indexed .memqueue

/-- What the finishing step leaves of the queue. -/
private theorem finishes_freed {s s' : Ins} {l : Label} {out : Option Response} {q : Ptr} (hb : Base s)
    (h : step s l = .ok (s',out)) (hf : Finishes q s l s') :
    q < s.nextQueue ∧ (s.queues q).freed = false ∧
      ((s'.queues q).freed = true ↔ (s.queues q).refCount = 1) := by
  obtain ⟨now,event⟩ := l
  rcases hf with ⟨rfl,hin⟩ | ⟨rfl,hin,hout⟩
  · simp only [step,hin,if_true] at h
    obtain ⟨t,ht,h⟩ := bind_ok h
    cases h
    have hr := memqueueRelease_effect ht
    refine ⟨hb.store.lt_of_refs hr.pos,hr.live,?_⟩
    rw [hr.queues]
    simp only [wakeHandler,Function.update_self]
    exact decide_eq_true_iff
  · obtain ⟨t,ht,h⟩ := bind_ok h
    cases h
    have hq : q < s.nextQueue := hb.index.allocated .memqueue q hin
    -- until the walk reaches `q` nothing of it changes, and afterwards it is not in the index
    have hrule := objsExpire_rule now .memqueue (fun t => Base t ∧
      (q ∈ t.expiry.indexed .memqueue ∧ t.queues q = s.queues q ∨
        q ∉ t.expiry.indexed .memqueue ∧ (s.queues q).freed = false ∧
          (t.queues q).freed = decide ((s.queues q).refCount = 1))) (fun _ ht => ht.1) ?_ ?_ ⟨hb,.inl ⟨hin,rfl⟩⟩
    · obtain ⟨_,⟨hin',_⟩ | ⟨_,hlive,hfreed⟩⟩ := hrule.result ht
      · exact absurd hin' hout
      · exact ⟨hq,hlive,by rw [hfreed]; exact decide_eq_true_iff⟩
    · rintro u u' o ⟨hbu,hcase⟩ hdue _ hx
      have hm := expireObj_memqueue hdue.mem hx
      obtain ⟨hlost,hoin⟩ := hm.expireQueue_lost
      obtain ⟨_,hidx⟩ := hm.indexed hbu.index
      refine ⟨hm.base hbu,?_⟩
      by_cases hoq : q = o
      · subst hoq
        rcases hcase with ⟨_,he⟩ | ⟨hn,_⟩
        · refine .inr ⟨by rw [hidx]; simp [Atom.unlinks,Atom.links],?_,?_⟩
          · rw [← he]
            exact hlost.live
          · rw [hlost.queues,Function.update_self,he]
        · exact absurd hoin hn
      · have hsame : q ∈ u'.expiry.indexed .memqueue ↔ q ∈ u.expiry.indexed .memqueue := by
          rw [hidx]
          simp [Atom.unlinks,Atom.links,hoq]
        rw [hsame,hlost.queues,Function.update_of_ne hoq]
        exact hcase
    · rintro u u' ⟨hbu,hcase⟩ hm
      obtain ⟨_,hidx⟩ := hm.indexed hbu.index
      have hsame : q ∈ u'.expiry.indexed .memqueue ↔ q ∈ u.expiry.indexed .memqueue := by
        rw [hidx]
        simp [Atom.unlinks,Atom.links]
      refine ⟨hm.base hbu,?_⟩
      rw [hsame]
      cases hm
      exact hcase

/-- The step that finishes a queue makes no new one. -/
private theorem finishes_keeps {s s' : Ins} {l : Label} {out : Option Response} {q : Ptr} (hb : Base s)
    (hl : Ledger s) (h : step s l = .ok (s',out)) (hf : Finishes q s l s') :
    Base s' ∧ s'.nextQueue = s.nextQueue ∧ ∀ p < s.nextQueue, (s'.queues p).qId = (s.queues p).qId ∧
      ((s'.queues p).freed = false → (s.queues p).freed = false) := by
  have hput : ∀ args, ¬ l.allows s (.putQueue args) := by
    intro args ha
    obtain ⟨now,event⟩ := l
    rcases hf with ⟨rfl,_⟩ | ⟨rfl,_,_⟩
    · rcases ha with ⟨_,ha | ha⟩ <;> cases ha
    · exact ha
  have hmove : ∀ a t u, l.allows s a → Base t → Ledger t → (t.nextQueue = s.nextQueue ∧
      ∀ p < s.nextQueue, (t.queues p).qId = (s.queues p).qId ∧
        ((t.queues p).freed = false → (s.queues p).freed = false)) → Move l.now a t u →
      u.nextQueue = s.nextQueue ∧ ∀ p < s.nextQueue, (u.queues p).qId = (s.queues p).qId ∧
        ((u.queues p).freed = false → (s.queues p).freed = false) := by
    intro a t u ha _ _ ⟨hn,hI⟩ hm
    refine ⟨?_,fun p hp => ?_⟩
    · rcases hm.nextQueue with hn' | ⟨args,rfl,_⟩
      · exact hn'.trans hn
      · exact absurd ha (hput args)
    · have hp' : p < t.nextQueue := hn ▸ hp
      exact ⟨(hm.sameQueue hp').qId.trans (hI p hp).1,fun hlive => (hI p hp).2 (hm.live_of hp' hlive)⟩
  obtain ⟨hb',_,hkept⟩ := step_keeps _ hb hl hmove ⟨rfl,fun _ _ => ⟨rfl,id⟩⟩ h
  exact ⟨hb',hkept⟩

/-- A deleted or expired queue is gone if and only if it held a single reference before. -/
theorem gone_iff_last_reference {P : Ins → Label → Prop} {tr : List Label} {s s' : Ins} {l : Label}
    {out : Option Response} {q : Ptr} (hr : Reaches P tr s) (h : step s l = .ok (s',out))
    (hf : Finishes q s l s') : Gone (s.queues q).qId q s' ↔ (s.queues q).refCount = 1 := by
  obtain ⟨hb,hl⟩ := reaches_ledger hr
  obtain ⟨hb',hn,hkept⟩ := finishes_keeps hb hl h hf
  obtain ⟨hq,hlive,hfreed⟩ := finishes_freed hb h hf
  rw [← hfreed]
  constructor
  · intro hg
    by_contra hnot
    have hlive' : (s'.queues q).freed = false := by simpa using hnot
    exact (hg [] s' (.nil s')).1 (hb'.store.get_iff.mpr ⟨hn ▸ hq,hlive',(hkept q hq).1⟩)
  · intro hdead u t hrun
    have hnone : s'.queueStore.get (s.queues q).qId = none := by
      rw [hb'.store.get_none]
      intro p hp hlp hid
      rw [hn] at hp
      have hpq : p = q := live_unique hb.store hp hq ((hkept p hp).2 hlp) hlive
        ((hkept p hp).1.symm.trans hid)
      rw [hpq,hdead] at hlp
      cases hlp
    have hmiss := missing_run hb' hnone hrun
    exact ⟨by rw [hmiss]; exact nofun,notFoundAt_of_none hmiss⟩

end Missing

/-- A message that never expires, and the DELETE of its queue. -/
def keptTrace : List Label :=
  [⟨0,.put ⟨0,0,0,0,[113]⟩⟩,⟨1,.post [113] (-1) [1]⟩,⟨2,.resumePost 0⟩,⟨3,.delete [113]⟩]

/-- The queue of that message is still found after its DELETE has finished. -/
theorem deleted_queue_found :
    letI := Rebalance.plain ExpiryNode
    ∃ s s' out, Reaches (fun _ _ => True) keptTrace s ∧ step s ⟨4,.resumeDelete 0⟩ = .ok (s',out) ∧
      Finishes 0 s ⟨4,.resumeDelete 0⟩ s' ∧ ¬ Gone (s.queues 0).qId 0 s' := by
  let _ := Rebalance.plain ExpiryNode
  obtain ⟨⟨s,s',out⟩,hs,hobs⟩ := Option.map_eq_some_iff.mp (show (execStep step (fun _ _ => true) .init keptTrace
      ⟨4,.resumeDelete 0⟩).map (fun r => (r.1.handlers,(r.1.queues 0).qId,r.2.1.queueStore.get [113])) =
    some ([.delete 0],[113],some 0) by decide +kernel)
  obtain ⟨hr,hstep⟩ := Run.of_execStep hs
  simp only [Prod.mk.injEq] at hobs
  obtain ⟨hh,hid,hget⟩ := hobs
  refine ⟨s,s',out,hr.mono fun _ _ _ => trivial,hstep,.inl ⟨rfl,by rw [hh]; exact List.mem_cons_self⟩,?_⟩
  rw [hid]
  exact fun hg => (hg [] s' (.nil s')).1 hget

/-- Without a message the same DELETE removes the queue. -/
theorem deleted_queue_gone :
    letI := Rebalance.plain ExpiryNode
    ∃ s s' out, Reaches (fun _ _ => True) [⟨0,.put ⟨0,0,0,0,[113]⟩⟩,⟨1,.delete [113]⟩] s ∧
      step s ⟨2,.resumeDelete 0⟩ = .ok (s',out) ∧ Finishes 0 s ⟨2,.resumeDelete 0⟩ s' ∧
      Gone (s.queues 0).qId 0 s' := by
  let _ := Rebalance.plain ExpiryNode
  obtain ⟨⟨s,s',out⟩,hs,hobs⟩ := Option.map_eq_some_iff.mp (show (execStep step (fun _ _ => true) .init
      [⟨0,.put ⟨0,0,0,0,[113]⟩⟩,⟨1,.delete [113]⟩] ⟨2,.resumeDelete 0⟩).map
        (fun r => (r.1.handlers,(r.1.queues 0).refCount)) = some ([.delete 0],1) by decide +kernel)
  obtain ⟨hr,hstep⟩ := Run.of_execStep hs
  simp only [Prod.mk.injEq] at hobs
  have hr' := hr.mono (Q := fun _ _ => True) fun _ _ _ => trivial
  have hf : Finishes 0 s ⟨2,.resumeDelete 0⟩ s' := .inl ⟨rfl,by rw [hobs.1]; exact List.mem_cons_self⟩
  exact ⟨s,s',out,hr',hstep,hf,(gone_iff_last_reference hr' hstep hf).mpr hobs.2⟩

end Memqueue
