import Memqueue.Expiry.Backlinks
import Memqueue.Queue.Traces

/-! The index under any sequence of calls of its four functions, with whatever else the server does in between. -/
namespace Memqueue
open Ins Fallible Expiry

/-- A call of one of the functions of memqueue_expiry.c, or anything that leaves the index alone. -/
inductive IndexCall where
  | objSchedExpire (type : ObjType) (obj : Ptr) (msecs : Nat)
  | memqueueResched (q : Ptr)
  | consumerResched (c : Ptr)
  | objsExpire (type : ObjType)
  | other (s : Ins)

structure TimedCall where
  now : Nat
  call : IndexCall

section Calls
variable [Rebalance ExpiryNode]

def callStep (s : Ins) (l : TimedCall) : Except Fault (Ins × Unit) :=
  match l.call with
  | .objSchedExpire type obj msecs => do
    let e ← objSchedExpire s.expiry l.now obj msecs type
    pure (setExpiry s e,())
  | .memqueueResched q => do
    let e ← memqueueResched s.expiry l.now q (s.queues q).expiry
    pure (setExpiry s e,())
  | .consumerResched c => do
    let e ← consumerResched s.expiry l.now c (s.consumers c).expiry
    pure (setExpiry s e,())
  | .objsExpire type => do
    let s ← objsExpire (expiryHost l.now) l.now type s
    pure (s,())
  | .other s => .ok (s,())

/-- What the callers see to: an object is scheduled once it exists and only while it is in no list. -/
def TimedCall.promised (s : Ins) (l : TimedCall) : Prop :=
  match l.call with
  | .objSchedExpire type obj _ => obj ∉ s.expiry.indexed type
  | .objsExpire _ => ∀ m ∈ s.expiry.indexed .msg, m < s.nextMsg
  | .other t => t.expiry = s.expiry
  | _ => True

/-- No call of obj_sched_expire comes upon a node at its deadline. -/
def TimedCall.clear (s : Ins) (l : TimedCall) : Prop :=
  match l.call with
  | .objSchedExpire type _ msecs => rbSearch (s.expiry.root type) ((l.now + msecs) % 2^32) = none
  | .memqueueResched q => reschedClear s.expiry l.now q (s.queues q).expiry .memqueue
  | .consumerResched c => reschedClear s.expiry l.now c (s.consumers c).expiry .consumer
  | .objsExpire .consumer =>
    (∀ c ∈ s.expiry.indexed .consumer, ∀ c' ∈ s.expiry.indexed .consumer, dueIn s.expiry .consumer (l.now % 2^32) c →
      dueIn s.expiry .consumer (l.now % 2^32) c' → c = c') ∧
    ((∃ c ∈ s.expiry.indexed .consumer, dueIn s.expiry .consumer (l.now % 2^32) c) →
      rbSearch (s.expiry.root .msg) ((l.now + 2000) % 2^32) = none)
  | _ => True

/-- A pass under way. The notices of a second consumer due would share a node. -/
private structure Passing (type : ObjType) (now : Nat) (X : ObjType → Ptr → Prop) (s : Ins) : Prop where
  wf : s.expiry.Wf NoneExempt
  links : Backlinks X NoneExempt s.expiry
  fresh : ∀ m ∈ s.expiry.indexed .msg, m < s.nextMsg
  single : type = .consumer → ∀ c c', dueIn s.expiry .consumer (now % 2^32) c →
    dueIn s.expiry .consumer (now % 2^32) c' → c = c'
  room : type = .consumer → ∀ c, dueIn s.expiry .consumer (now % 2^32) c →
    rbSearch (s.expiry.root .msg) ((now + 2000) % 2^32) = none

private theorem expireObj_passing {type : ObjType} {now : Nat} {a o : Ptr} {s s' : Ins}
    (h : Passing type now (orAt NoneExempt type a) s) (hdue : dueAt s.expiry type (now % 2^32) a o)
    (hobj : expireObj (expiryHost now) type s o = .ok s') : Passing type now (orAt NoneExempt type a) s' := by
  have hroot := expireObj_root (fun _ _ _ h => expiryHost_root h) hobj
  obtain ⟨hw₀,hidx₀⟩ := listRemove_spec h.wf type o
  obtain ⟨h₀,hout₀⟩ := h.links.handOver h.wf id hdue
  have hdue' : ∀ c, dueIn s'.expiry type (now % 2^32) c → dueIn s.expiry type (now % 2^32) c :=
    fun c hd => dueIn_of_listRemove hroot hd
  obtain ⟨t,ht,hobj⟩ := bind_ok hobj
  cases hobj
  have hplain : type ≠ .consumer → t.expiry = listRemove s.expiry type o → t.nextMsg = s.nextMsg →
      Passing type now (orAt NoneExempt type a) (setExpiry t (t.expiry.setNode type o none)) := by
    intro hne he hn
    refine ⟨?_,?_,?_,fun hc => absurd hc hne,fun hc => absurd hc hne⟩
    · exact Wf.clear (he ▸ hw₀)
    · exact Backlinks.clear (he ▸ h₀) (he ▸ hout₀)
    · intro m hm
      show m < t.nextMsg
      rw [hn]
      have hm' : m ∈ (listRemove s.expiry type o).indexed .msg := he ▸ hm
      exact h.fresh m ((hidx₀ .msg m).mp hm').1
  cases type with
  | msg => exact hplain (by decide) (memqueueMsgRelease_effect ht).expiry (memqueueMsgRelease_effect ht).nextMsg
  | memqueue => exact hplain (by decide) (memqueueRelease_effect ht).expiry (memqueueRelease_effect ht).nextMsg
  | consumer =>
    obtain ⟨u,hu,ht⟩ := bind_ok ht
    obtain ⟨w,hw,ht⟩ := bind_ok ht
    cases ht
    have hc := memqueueMsgCreate_effect hu
    have hr := memqueueRelease_effect hw
    have hmsg : objSchedExpire (listRemove s.expiry .consumer o) now s.nextMsg 2000 .msg = .ok w.expiry := by
      rw [hr.expiry]
      exact hc.scheduled (by decide)
    have hsame : (listRemove s.expiry .consumer o).root .msg = s.expiry.root .msg := root_setRoot_ne _ (by decide) _
    have hfresh : s.nextMsg ∉ (listRemove s.expiry .consumer o).indexed .msg := by
      rw [hidx₀]
      exact fun hin => lt_irrefl _ (h.fresh _ hin.1)
    obtain ⟨hw₁,hidx₁⟩ := objSchedExpire_spec hw₀ hfresh hmsg
    have hout : o ∉ w.expiry.indexed .consumer := by
      rw [hidx₁]
      rintro (hin | ⟨hne,_⟩)
      · exact hout₀ hin
      · cases hne
    have h₁ : Backlinks (orAt NoneExempt .consumer a) (orAt NoneExempt .consumer o) w.expiry := by
      refine Backlinks.sched (Y := orAt NoneExempt .consumer o) hw₀
        (h₀.mono (fun _ _ hx => hx) fun _ _ hy => .inl hy) hfresh ?_ hmsg
      rw [hsame]
      exact h.room rfl o hdue.dueIn
    -- the one consumer that was due is gone
    have hlast : ∀ c, ¬ dueIn (w.expiry.setNode .consumer o none) .consumer (now % 2^32) c := by
      intro c hd
      have hc := h.single rfl c o (hdue' c hd) hdue.dueIn
      subst hc
      exact hout hd.mem
    refine ⟨Wf.clear hw₁,h₁.clear hout,?_,fun _ c c' hd _ => absurd hd (hlast c),fun _ c hd => absurd hd (hlast c)⟩
    intro m hm
    show m < w.nextMsg
    rw [hr.nextMsg,hc.nextMsg]
    rcases (hidx₁ .msg m).mp hm with hin | ⟨_,rfl⟩
    · exact Nat.lt_succ_of_lt (h.fresh m ((hidx₀ .msg m).mp hin).1)
    · exact Nat.lt_succ_self _

private theorem objsExpire_passing {type : ObjType} {now : Nat} {s s' : Ins} (h : Passing type now NoneExempt s)
    (hpass : objsExpire (expiryHost now) now type s = .ok s') : Passing type now NoneExempt s' := by
  refine (objsExpire_walk (Passing type now NoneExempt) (fun a => Passing type now (orAt NoneExempt type a))
    (E := fun _ => True) (fun _ _ _ h => expiryHost_root h)
      (fun _ h => h.wf.nodup type) ?_ ?_ ?_ trivial h).result hpass
  · intro t a h
    exact ⟨h.wf,h.links.mono (fun _ _ hx => .inl hx) fun _ _ hy => hy,h.fresh,h.single,h.room⟩
  · intro t a o h hdue
    refine ensures_intro ?_ fun _ _ => trivial
    intro t' ht
    exact expireObj_passing h hdue ht
  · intro t a f e h hf
    obtain ⟨hw,hidx,_⟩ := possiblyNodeFree_spec h.wf hf
    refine ⟨hw,h.links.free h.wf hf,?_,?_,?_⟩
    · intro m hm
      exact h.fresh m (hidx .msg ▸ hm)
    · rintro rfl c c' hd hd'
      exact h.single rfl c c' (dueIn_of_free hf hd) (dueIn_of_free hf hd')
    · rintro rfl c hd
      show rbSearch (e.root .msg) _ = none
      rw [possiblyNodeFree_root_ne (by decide) hf]
      exact h.room rfl c (dueIn_of_free hf hd)

theorem callStep_backlinks {s s' : Ins} {l : TimedCall} {out : Unit} (hw : s.expiry.Wf NoneExempt)
    (h : Backlinks NoneExempt NoneExempt s.expiry) (hp : l.promised s) (hc : l.clear s)
    (hs : callStep s l = .ok (s',out)) : s'.expiry.Wf NoneExempt ∧ Backlinks NoneExempt NoneExempt s'.expiry := by
  obtain ⟨now,call⟩ := l
  cases call with
  | objSchedExpire type obj msecs =>
    obtain ⟨e,he,hs⟩ := bind_ok hs
    cases hs
    refine ⟨(objSchedExpire_spec hw hp he).1,?_⟩
    exact Backlinks.sched hw (h.mono (fun _ _ hx => hx) fun _ _ hy => .inl hy) hp hc he
  | memqueueResched q =>
    obtain ⟨e,he,hs⟩ := bind_ok hs
    cases hs
    exact ⟨(resched_spec hw he).1,h.resched hw (fun _ => id) id hc he⟩
  | consumerResched c =>
    obtain ⟨e,he,hs⟩ := bind_ok hs
    cases hs
    exact ⟨(resched_spec hw he).1,h.resched hw (fun _ => id) id hc he⟩
  | objsExpire type =>
    obtain ⟨t,ht,hs⟩ := bind_ok hs
    cases hs
    have hpass : Passing type now NoneExempt s := by
      refine ⟨hw,h,hp,?_,?_⟩
      · rintro rfl c c' hd hd'
        exact hc.1 c hd.mem c' hd'.mem hd hd'
      · rintro rfl c hd
        exact hc.2 ⟨c,hd.mem,hd⟩
    have := objsExpire_passing hpass ht
    exact ⟨this.wf,this.links⟩
  | other t =>
    cases hs
    rw [show s'.expiry = s.expiry from hp]
    exact ⟨hw,h⟩

/-- After any sequence of calls that each find no node at the deadline they are given, an object is in the list
of a node exactly when its `expiry_node` points there, is NULL in no list, and no node is empty. -/
theorem backpointers_agree {tr : List TimedCall} {s : Ins}
    (h : Run callStep (fun s l => l.promised s ∧ l.clear s) .init tr s) :
    (∀ type, ∀ n ∈ (s.expiry.root type).inorder, ∀ o, o ∈ n.objs type ↔ s.expiry.expiryNode type o = some n.addr) ∧
    (∀ type o, o ∉ s.expiry.indexed type → s.expiry.expiryNode type o = none) ∧
    ∀ type, ∀ n ∈ (s.expiry.root type).inorder, n.isEmpty = false := by
  have hinv : s.expiry.Wf NoneExempt ∧ Backlinks NoneExempt NoneExempt s.expiry := by
    refine h.invariant (I := fun s => s.expiry.Wf NoneExempt ∧ Backlinks NoneExempt NoneExempt s.expiry) ?_
      ⟨wf_empty,backlinks_empty⟩
    rintro s l s' out ⟨hw,hl⟩ ⟨hp,hc⟩ hs
    exact callStep_backlinks hw hl hp hc hs
  obtain ⟨_,hlinks⟩ := hinv
  refine ⟨?_,?_,?_⟩
  · intro type n hn o
    exact hlinks.agree type n hn o id
  · intro type o hout
    exact hlinks.unlinked type o id hout
  · intro type n hn
    exact hlinks.occupied type n hn id

end Calls

/-- Two queues with the same deadline: the second is in the list of the node and its pointer is NULL. -/
theorem shared_deadline_unlinked :
    letI := Rebalance.plain ExpiryNode
    ∃ s, Run callStep (fun s l => l.promised s) .init
        [⟨0,.objSchedExpire .memqueue 0 100⟩,⟨0,.objSchedExpire .memqueue 1 100⟩] s ∧
      ∃ n ∈ (s.expiry.root .memqueue).inorder, 1 ∈ n.objs .memqueue ∧ s.expiry.expiryNode .memqueue 1 = none := by
  let _ := Rebalance.plain ExpiryNode
  obtain ⟨s,hs,hobs⟩ := Option.map_eq_some_iff.mp (show (exec callStep
      (fun s l => match l.call with
        | .objSchedExpire type obj _ => decide (obj ∉ s.expiry.indexed type)
        | _ => false) .init
      [⟨0,.objSchedExpire .memqueue 0 100⟩,⟨0,.objSchedExpire .memqueue 1 100⟩]).map
    (fun s => ((s.expiry.root .memqueue).inorder,s.expiry.expiryNode .memqueue 1)) =
      some ([⟨0,100,[1,0],[],[]⟩],none) by
    decide +kernel)
  simp only [Prod.mk.injEq] at hobs
  obtain ⟨hnodes,hptr⟩ := hobs
  refine ⟨s,(Run.of_exec hs).mono ?_,⟨0,100,[1,0],[],[]⟩,by rw [hnodes]; exact List.mem_singleton_self _,by decide,hptr⟩
  rintro s ⟨now,call⟩ hg
  cases call with
  | objSchedExpire type obj msecs => simpa [TimedCall.promised] using hg
  | _ => cases hg

/-- Two queues with deadlines of their own, one of them put off: each points at its own node. -/
theorem backpointers_agree_resched :
    letI := Rebalance.plain ExpiryNode
    ∃ s, Run callStep (fun s l => l.promised s ∧ l.clear s) .init
        [⟨0,.objSchedExpire .memqueue 0 100⟩,⟨0,.objSchedExpire .memqueue 1 200⟩,⟨50,.memqueueResched 0⟩] s ∧
      s.expiry.expiryNode .memqueue 0 = some 2 ∧ ∀ n ∈ (s.expiry.root .memqueue).inorder, n.addr = 2 →
        0 ∈ n.objs .memqueue := by
  let _ := Rebalance.plain ExpiryNode
  obtain ⟨s,hs,hobs⟩ := Option.map_eq_some_iff.mp (show (exec callStep
      (fun s l => match l.call with
        | .objSchedExpire type obj msecs => decide (obj ∉ s.expiry.indexed type) &&
          decide (rbSearch (s.expiry.root type) ((l.now + msecs) % 2^32) = none)
        | .memqueueResched q => decide (reschedClear s.expiry l.now q (s.queues q).expiry .memqueue)
        | _ => false) .init
      [⟨0,.objSchedExpire .memqueue 0 100⟩,⟨0,.objSchedExpire .memqueue 1 200⟩,⟨50,.memqueueResched 0⟩]).map
    (fun s => s.expiry.expiryNode .memqueue 0) = some (some 2) by decide +kernel)
  have hr : Run callStep (fun s l => l.promised s ∧ l.clear s) .init
      [⟨0,.objSchedExpire .memqueue 0 100⟩,⟨0,.objSchedExpire .memqueue 1 200⟩,⟨50,.memqueueResched 0⟩] s := by
    apply (Run.of_exec hs).mono
    rintro s ⟨now,call⟩ hg
    cases call with
    | objSchedExpire type obj msecs => simpa [TimedCall.promised,TimedCall.clear] using hg
    | memqueueResched q => exact ⟨trivial,by simpa [TimedCall.clear] using hg⟩
    | _ => cases hg
  refine ⟨s,hr,hobs,?_⟩
  intro n hn ha
  rw [(backpointers_agree hr).1 .memqueue n hn 0,hobs,ha]

end Memqueue
