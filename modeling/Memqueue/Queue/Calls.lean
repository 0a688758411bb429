import Memqueue.Expiry.Deadlines
import Memqueue.Queue.Traces

/-! The calls of obj_sched_expire that a step makes, read off the state before it.
Every change of the index by a step is accounted for by these calls and by what a pass unlinks. -/
namespace Memqueue
open Ins Fallible Expiry

section Calls
variable [Rebalance ExpiryNode]

/-- memqueue_msg_create schedules only a message with an expiry. -/
def createCalls (s : Ins) (msecs : Int) : List Sched := if 0 < msecs then [⟨.msg,s.nextMsg,msecs.toNat⟩] else []

/-- memqueue_refresh_consumer: a known consumer is rescheduled, a new one is announced first. -/
def refreshCalls (s : Ins) (q : Ptr) (consumerId : Bytes) : List Sched :=
  match (s.queues q).consumers.get consumerId with
  | some c => reschedCalls s.expiry .consumer c (s.consumers c).expiry
  | none => [⟨.msg,s.nextMsg,2000⟩,⟨.consumer,s.nextConsumer,(s.queues q).consumerExpiry⟩]

def pollRefreshCalls (s : Ins) (q : Ptr) (a : QueueArg) : List Sched :=
  match a.consumerId with
  | some consumerId => if (s.queues q).consumerExpiry ≠ 0 then refreshCalls s q consumerId else []
  | none => []

/-- One entry of a poll whose queue was found. -/
def pollFoundCalls (s : Ins) (q : Ptr) (a : QueueArg) : List Sched :=
  pollRefreshCalls s q a ++ reschedCalls s.expiry .memqueue q (s.queues q).expiry

/-- The loop of memqueue_poll_queue, each entry in the state it is met in. -/
def pollCalls (now : Nat) (b : Ptr) : PollAcc → List QueueArg → List Sched
  | _, [] => []
  | acc, a :: as =>
    (match a.qId.bind acc.1.queueStore.get with
      | some q => pollFoundCalls acc.1 q a
      | none => []) ++
    match pollQueueArg now b acc a with
    | .ok acc' => pollCalls now b acc' as
    | .error _ => []

/-- The notices of a pass over the consumers. -/
def noticeCalls (s s' : Ins) : List Sched := (List.range' s.nextMsg (s'.nextMsg - s.nextMsg)).map fun m => ⟨.msg,m,2000⟩

/-- All calls of obj_sched_expire in one step. -/
def Label.calls (s : Ins) (l : Label) : List Sched :=
  match l.event with
  | .put args =>
    if s.queueStore.get args.qId = none ∧ 0 < args.expiry then [⟨.memqueue,s.nextQueue,args.expiry⟩] else []
  | .post qId expiry _ =>
    match s.queueStore.get qId with
    | none => []
    | some q =>
      match isMemqueueFull s q with
      | .ok (_,false) => createCalls s expiry
      | _ => []
  | .poll args => pollCalls l.now s.nextCli (addCli s args.timeout,0,0) args.queueArgs
  | .resumePost q => if .post q ∈ s.handlers then reschedCalls s.expiry .memqueue q (s.queues q).expiry else []
  | .expire .consumer =>
    match objsExpire (expiryHost l.now) l.now .consumer s with
    | .ok s' => noticeCalls s s'
    | .error _ => []
  | _ => []

variable {now : Nat} {P : ObjType → Ptr → Prop}

omit [Rebalance ExpiryNode] in
theorem next_unlinked {s : Ins} (hi : IndexInv s) (type : ObjType) : nextObj s type ∉ s.expiry.indexed type :=
  fun hm => absurd (hi.allocated type _ hm) (lt_irrefl _)

theorem memqueueMsgCreate_index {s s' : Ins} {q : Ptr} {msecs : Int} {data : Bytes} (hi : IndexInv s)
    (h : memqueueMsgCreate now s q msecs data = .ok s') :
    IndexTrace now P (createCalls s msecs) s.expiry s'.expiry := by
  have hc := memqueueMsgCreate_effect h
  unfold createCalls
  split
  · rename_i hpos
    exact .sched (c := ⟨.msg,s.nextMsg,msecs.toNat⟩) (next_unlinked hi .msg) (hc.scheduled hpos)
  · rename_i hnot
    rw [hc.unscheduled hnot]
    exact .refl _

theorem memqueueRefreshConsumer_index {s s' : Ins} {q : Ptr} {id : Bytes} (hi : IndexInv s)
    (h : memqueueRefreshConsumer now s q id = .ok s') : IndexTrace now P (refreshCalls s q id) s.expiry s'.expiry := by
  simp only [memqueueRefreshConsumer] at h
  split at h
  · rename_i c hc
    obtain ⟨e,he,h⟩ := bind_ok h
    cases h
    simp only [refreshCalls,hc]
    exact resched_index hi.wf he
  · rename_i hnone
    obtain ⟨t,ht,h⟩ := bind_ok h
    obtain ⟨u,hu,h⟩ := bind_ok h
    obtain ⟨e,he,h⟩ := bind_ok h
    cases h
    obtain ⟨_,rfl⟩ := memqueueRetain_effect hu
    have hc := memqueueMsgCreate_effect ht
    have hmsg := hc.scheduled (by decide)
    have hfirst : IndexTrace now P [⟨.msg,s.nextMsg,2000⟩] s.expiry t.expiry :=
      .sched (c := ⟨.msg,s.nextMsg,2000⟩) (next_unlinked hi .msg) hmsg
    have hce : (t.queues q).consumerExpiry = (s.queues q).consumerExpiry := by
      rw [hc.queues]
      simp [newConsumer,updQueue]
    simp only [refreshCalls,hnone]
    refine hfirst.append (.sched (c := ⟨.consumer,s.nextConsumer,(s.queues q).consumerExpiry⟩) ?_ ?_)
    · show s.nextConsumer ∉ t.expiry.indexed .consumer
      rw [Expiry.indexed,(objSchedExpire_root_ne (by decide : ObjType.consumer ≠ .msg) hmsg).1]
      exact next_unlinked hi .consumer
    · have : ((t.updQueue q fun x => { x with refCount := x.refCount + 1 }).queues q).consumerExpiry =
          (s.queues q).consumerExpiry := by
        rw [← hce]
        simp [updQueue]
      rw [this] at he
      exact he

theorem pollRefresh_index {s s' : Ins} {q : Ptr} {a : QueueArg} (hi : IndexInv s) (h : pollRefresh now s q a = .ok s') :
    IndexTrace now P (pollRefreshCalls s q a) s.expiry s'.expiry := by
  simp only [pollRefresh] at h
  split at h
  · rename_i id hid
    simp only [pollRefreshCalls,hid]
    split at h
    · rename_i hce
      rw [if_pos hce]
      exact memqueueRefreshConsumer_index hi h
    · rename_i hce
      cases h
      rw [if_neg hce]
      exact .refl _
  · rename_i hid
    cases h
    simp only [pollRefreshCalls,hid]
    exact .refl _

private theorem resched_node_ne {e e' : Expiry} {obj expiry : Nat} {type t : ObjType} (ht : t ≠ type)
    (h : resched e now obj expiry type = .ok e') : e'.expiryNode t = e.expiryNode t := by
  rcases resched_cases h with ⟨_,rfl⟩ | ⟨addr,f,e₁,_,hfree,hsched⟩
  · rfl
  · rw [(objSchedExpire_root_ne ht hsched).2]
    have hkeep : e₁.expiryNode = e.expiryNode := by
      obtain ⟨n,_,_,⟨_,_,rfl⟩ | ⟨_,_,rfl⟩⟩ := possiblyNodeFree_cases hfree <;> rfl
    split
    · funext o
      rw [expiryNode_setNode,if_neg (fun hc => ht hc.1),hkeep]
    · rw [hkeep]

/-- Refreshing a consumer does not concern the queue's own node. -/
theorem pollRefresh_keepsQueue {s s' : Ins} {q : Ptr} {a : QueueArg} (h : pollRefresh now s q a = .ok s') :
    s'.expiry.expiryNode .memqueue = s.expiry.expiryNode .memqueue ∧ (s'.queues q).expiry = (s.queues q).expiry := by
  simp only [pollRefresh] at h
  split at h
  · split at h
    · simp only [memqueueRefreshConsumer] at h
      split at h
      · obtain ⟨e,he,h⟩ := bind_ok h
        cases h
        exact ⟨resched_node_ne (by decide) he,rfl⟩
      · obtain ⟨t,ht,h⟩ := bind_ok h
        obtain ⟨u,hu,h⟩ := bind_ok h
        obtain ⟨e,he,h⟩ := bind_ok h
        cases h
        obtain ⟨_,rfl⟩ := memqueueRetain_effect hu
        have hc := memqueueMsgCreate_effect ht
        refine ⟨?_,?_⟩
        · rw [(objSchedExpire_root_ne (by decide) he).2]
          exact (objSchedExpire_root_ne (by decide) (hc.scheduled (by decide))).2
        · simp [updQueue,hc.queues,newConsumer]
    · cases h
      exact ⟨rfl,rfl⟩
  · cases h
    exact ⟨rfl,rfl⟩

omit [Rebalance ExpiryNode] in
theorem cliBinderEnqueueMsgs_expiry {s s' : Ins} {b q : Ptr} {rev latest : Int} {n : Nat}
    (h : cliBinderEnqueueMsgs s b q rev latest = .ok (s',n)) : s'.expiry = s.expiry := by
  refine foldlM_result (fun _ (acc : Ins × Nat) => acc.1.expiry = s.expiry) ?_ rfl h
  intro m ms acc acc' hi hm
  simp only [enqueueMatching] at hm
  split at hm
  · obtain ⟨t,ht,hm⟩ := bind_ok hm
    cases hm
    obtain ⟨_,rfl⟩ := cliBinderEnqueueMsg_effect ht
    exact hi
  · cases hm
    exact hi

theorem pollFound_index {s s' : Ins} {b q : Ptr} {a : QueueArg} {n : Nat} (hb : Base s)
    (hlive : (s.queues q).freed = false) (hq : q < s.nextQueue) (h : pollFound now b a s q = .ok (s',n)) :
    IndexTrace now P (pollFoundCalls s q a) s.expiry s'.expiry := by
  simp only [pollFound] at h
  obtain ⟨s₁,h₁,h⟩ := bind_ok h
  obtain ⟨e,he,h⟩ := bind_ok h
  obtain ⟨as,ht,_⟩ := pollRefresh_trace hb hlive hq h₁
  obtain ⟨hnode,hexp⟩ := pollRefresh_keepsQueue h₁
  have hres : IndexTrace now P (reschedCalls s.expiry .memqueue q (s.queues q).expiry) s₁.expiry e := by
    have := resched_index (P := P) (trace_base ht hb).index.wf he
    rwa [reschedCalls,hnode,hexp] at this
  rw [cliBinderEnqueueMsgs_expiry h]
  exact (pollRefresh_index hb.index h₁).append hres

theorem pollLoop_index {b : Ptr} {args : List QueueArg} {acc acc' : PollAcc} (hb : Base acc.1)
    (hcli : b < acc.1.nextCli) (h : args.foldlM (pollQueueArg now b) acc = .ok acc') :
    IndexTrace now P (pollCalls now b acc args) acc.1.expiry acc'.1.expiry := by
  induction args generalizing acc with
  | nil =>
    cases h
    exact .refl _
  | cons a args ih =>
    rw [List.foldlM_cons] at h
    obtain ⟨acc₁,h₁,h₂⟩ := bind_ok h
    rw [pollCalls,h₁]
    obtain ⟨k,hk,⟨hnone,rfl⟩ | ⟨q,n,hget,hf,_⟩⟩ := pollQueueArg_cases h₁
    · simp only [hk,Option.bind_some,hnone,List.nil_append]
      exact ih hb hcli h₂
    · obtain ⟨hlt,hlive,_⟩ := hb.store.get_iff.mp hget
      obtain ⟨s₁,hr,htr,_⟩ := pollFound_cases hb hlive hlt hcli hf
      obtain ⟨as,has,_⟩ := pollRefresh_trace hb hlive hlt hr
      obtain ⟨_,_,hle⟩ := pollRefresh_keeps hb hlive hlt hr
      have hb₁ : Base acc₁.1 := trace_base htr (trace_base has hb)
      have hcli₁ : b < acc₁.1.nextCli := by
        refine trace_invariant htr (fun t => b < t.nextCli) ?_ (trace_base has hb) (lt_of_lt_of_le hcli hle)
        intro x t u _ _ hi hm
        exact lt_of_lt_of_le hi hm.next_le.2.2.2
      simp only [hk,Option.bind_some,hget]
      exact (pollFound_index hb hlive hlt hf).append (ih hb₁ hcli₁ h₂)

omit [Rebalance ExpiryNode] in
private theorem releasePending_expiry {b : Ptr} {L : List Ptr} {s s' : Ins}
    (h : L.foldlM (releasePending b) s = .ok s') : s'.expiry = s.expiry := by
  refine foldlM_result (fun _ (t : Ins) => t.expiry = s.expiry) ?_ rfl h
  intro m ms t t' hi hm
  obtain ⟨u,hu,hm⟩ := bind_ok hm
  cases hm
  exact (memqueueMsgRelease_effect hu).expiry.trans hi

/-- A hand-over of a pass: the object is unlinked, and a consumer leaves a notice. -/
theorem expireObj_index {type : ObjType} {s s' : Ins} {o : Ptr} (hi : IndexInv s) (hp : P type o)
    (h : expireObj (expiryHost now) type s o = .ok s') :
    IndexTrace now P (noticeCalls s s') s.expiry s'.expiry ∧ s.nextMsg ≤ s'.nextMsg ∧
      (type ≠ .consumer → s'.nextMsg = s.nextMsg) := by
  obtain ⟨t,ht,h⟩ := bind_ok h
  cases h
  have hout : IndexTrace now P [] s.expiry (listRemove s.expiry type o) := .unlink _ hp
  have hsame : t.expiry = listRemove s.expiry type o → t.nextMsg = s.nextMsg →
      IndexTrace now P (noticeCalls s { t with expiry := t.expiry.setNode type o none }) s.expiry
        (t.expiry.setNode type o none) ∧ s.nextMsg ≤ t.nextMsg ∧ (type ≠ .consumer → t.nextMsg = s.nextMsg) := by
    intro he hn
    have hno : noticeCalls s { t with expiry := t.expiry.setNode type o none } = [] := by simp [noticeCalls,hn]
    rw [hno,he]
    exact ⟨hout.append (.clear _ _ _),hn.ge,fun _ => hn⟩
  cases type with
  | msg => exact hsame (memqueueMsgRelease_effect ht).expiry (memqueueMsgRelease_effect ht).nextMsg
  | memqueue => exact hsame (memqueueRelease_effect ht).expiry (memqueueRelease_effect ht).nextMsg
  | consumer =>
    obtain ⟨u,hu,ht⟩ := bind_ok ht
    obtain ⟨w,hw,ht⟩ := bind_ok ht
    cases ht
    have hc := memqueueMsgCreate_effect hu
    have hr := memqueueRelease_effect hw
    have hn : w.nextMsg = s.nextMsg + 1 := hr.nextMsg.trans hc.nextMsg
    have hmsg := hc.scheduled (by decide)
    have hone : IndexTrace now P [⟨.msg,s.nextMsg,2000⟩] (listRemove s.expiry .consumer o) u.expiry := by
      refine .sched (c := ⟨.msg,s.nextMsg,2000⟩) ?_ hmsg
      show s.nextMsg ∉ (listRemove s.expiry .consumer o).indexed .msg
      rw [(listRemove_spec hi.wf .consumer o).2]
      exact fun hm => next_unlinked hi .msg hm.1
    refine ⟨?_,?_,fun hne => absurd rfl hne⟩
    · have hcalls : noticeCalls s ((expiryHost now).setIndex (memqueueFreeConsumer w o)
          (((expiryHost now).index (memqueueFreeConsumer w o)).setNode .consumer o none)) =
            [⟨.msg,s.nextMsg,2000⟩] := by
        show (List.range' s.nextMsg (w.nextMsg - s.nextMsg)).map _ = _
        rw [hn,Nat.add_sub_cancel_left]
        rfl
      rw [hcalls]
      show IndexTrace now P _ s.expiry (w.expiry.setNode .consumer o none)
      rw [hr.expiry]
      exact (hout.append hone).append (.clear _ _ _)
    · show s.nextMsg ≤ w.nextMsg
      rw [hn]
      exact Nat.le_succ _

omit [Rebalance ExpiryNode] in
private theorem noticeCalls_append {s t u : Ins} (h : s.nextMsg ≤ t.nextMsg) (h' : t.nextMsg ≤ u.nextMsg) :
    noticeCalls s t ++ noticeCalls t u = noticeCalls s u := by
  obtain ⟨m,hm⟩ := Nat.exists_eq_add_of_le h
  obtain ⟨n,hn⟩ := Nat.exists_eq_add_of_le h'
  have hadd : u.nextMsg - s.nextMsg = m + n := by
    rw [hn,hm,Nat.add_assoc]
    exact Nat.add_sub_cancel_left _ _
  rw [noticeCalls,noticeCalls,noticeCalls,hadd,hn,Nat.add_sub_cancel_left,hm,Nat.add_sub_cancel_left,← List.map_append,
    List.range'_append_1]

theorem objsExpire_index {type : ObjType} {s s' : Ins} (hb : Base s)
    (h : objsExpire (expiryHost now) now type s = .ok s') :
    IndexTrace now (fun t o => t = type ∧ dueIn s.expiry type (now % 2^32) o) (noticeCalls s s') s.expiry s'.expiry ∧
      (type ≠ .consumer → s'.nextMsg = s.nextMsg) := by
  -- what is due during the pass was due at its start
  have hrule := @objsExpire_ensures _ (expiryHost now) type _
    (fun t => Base t ∧ (∀ o, dueIn t.expiry type (now % 2^32) o → dueIn s.expiry type (now % 2^32) o) ∧
      IndexTrace now (fun t o => t = type ∧ dueIn s.expiry type (now % 2^32) o) (noticeCalls s t) s.expiry t.expiry ∧
      s.nextMsg ≤ t.nextMsg ∧ (type ≠ .consumer → t.nextMsg = s.nextMsg))
    (fun _ => True) now (fun _ _ _ h => expiryHost_root h) (fun t hi => hi.1.index.wf.nodup type) ?_ ?_ trivial
    s ⟨hb,fun _ hd => hd,by simpa [noticeCalls] using IndexTrace.refl s.expiry,le_rfl,fun _ => rfl⟩
  · exact ⟨(hrule.result h).2.2.1,(hrule.result h).2.2.2.2⟩
  · rintro t o ⟨hbt,hdue,htr,hle,hnext⟩ hd
    refine ensures_intro ?_ (fun _ _ => trivial)
    intro t' ht
    obtain ⟨hone,hle',hnext'⟩ := expireObj_index hbt.index
      (P := fun t o => t = type ∧ dueIn s.expiry type (now % 2^32) o) ⟨rfl,hdue o hd⟩ ht
    obtain ⟨as,has,_⟩ := expireObj_trace hbt hd.mem hd (SameConsumers.refl t) ht
    refine ⟨trace_base has hbt,?_,?_,hle.trans hle',fun hne => (hnext' hne).trans (hnext hne)⟩
    · intro p hp
      exact hdue p (dueIn_of_listRemove (expireObj_root (fun _ _ _ h => expiryHost_root h) ht) hp)
    · rw [← noticeCalls_append hle hle']
      exact htr.append hone
  · rintro t a f e ⟨hbt,hdue,htr,hle,hnext⟩ hf
    obtain ⟨hw,hidx,_⟩ := possiblyNodeFree_spec hbt.index.wf hf
    refine ⟨?_,fun o hd => hdue o (dueIn_of_free hf hd),?_,hle,hnext⟩
    · have htouch : Move now .touch t (setExpiry t e) := .touch hw fun u o => by rw [hidx]
      exact htouch.base hbt
    · have := htr.append (.sweep hf)
      rwa [List.append_nil] at this

omit [Rebalance ExpiryNode] in
theorem isMemqueueFull_keeps {s s' : Ins} {q : Ptr} {full : Bool} (h : isMemqueueFull s q = .ok (s',full)) :
    s'.expiry = s.expiry ∧ s'.nextMsg = s.nextMsg := by
  simp only [isMemqueueFull] at h
  split at h
  · cases h
    exact ⟨rfl,rfl⟩
  · split at h
    · cases h
      exact ⟨rfl,rfl⟩
    · split at h
      · split at h
        · cases h
        · obtain ⟨t,ht,h⟩ := bind_ok h
          obtain ⟨u,hu,h⟩ := bind_ok h
          cases h
          obtain ⟨_,rfl⟩ := memqueueMsgRetain_effect ht
          exact ⟨(memqueueMsgRelease_effect hu).expiry,(memqueueMsgRelease_effect hu).nextMsg⟩
      · cases h
        exact ⟨rfl,rfl⟩

omit [Rebalance ExpiryNode] in
private theorem pollRespond_expiry (s : Ins) (b : Ptr) : (pollRespond s b).1.expiry = s.expiry := by
  unfold pollRespond
  split <;> rfl

/-- What the step `l` does to the index: its calls, and for a pass the objects that are due. -/
private def Indexed (s : Ins) (l : Label) (s' : Ins) : Prop :=
  IndexTrace l.now (fun type o => l.event = .expire type ∧ dueIn s.expiry type (l.now % 2^32) o) (l.calls s)
    s.expiry s'.expiry

section Events
variable {now : Nat} {s s' : Ins} {out : Option Response}

private theorem onQueueCreate_index {args : CreateArgs} (hb : Base s) (h : onQueueCreate now s args = .ok (s',out)) :
    Indexed s ⟨now,.put args⟩ s' := by
  simp only [onQueueCreate] at h
  simp only [Indexed,Label.calls]
  split at h
  · rename_i q hget
    cases h
    rw [if_neg (by simp [hget])]
    exact .refl _
  · rename_i hnone
    obtain ⟨t,ht,h⟩ := bind_ok h
    cases h
    have hmove := memqueueCreate_move hnone ht
    cases hmove with
    | putQueue _ hs hn =>
      by_cases hpos : 0 < args.expiry
      · rw [if_pos ⟨hnone,hpos⟩]
        exact .sched (c := ⟨.memqueue,s.nextQueue,args.expiry⟩) (next_unlinked hb.index .memqueue) (hs hpos)
      · rw [if_neg (fun hc => hpos hc.2)]
        have he := hn (Nat.eq_zero_of_not_pos hpos)
        subst he
        exact .refl _

private theorem onMsgPost_index {k : Bytes} {expiry : Int} {body : Bytes} (hb : Base s)
    (h : step s ⟨now,.post k expiry body⟩ = .ok (s',out)) : Indexed s ⟨now,.post k expiry body⟩ s' := by
  simp only [Indexed,Label.calls]
  obtain ⟨rfl,hnone⟩ | ⟨q,hget,t,full,ht,hend⟩ := onMsgPost_cases h
  · rw [hnone]
    exact .refl _
  · simp only [hget,ht]
    obtain ⟨he,hm⟩ := isMemqueueFull_keeps ht
    rcases hend with ⟨rfl,rfl,_⟩ | ⟨rfl,u,hu,rfl,_⟩
    · show IndexTrace _ _ _ s.expiry t.expiry
      rw [he]
      exact .refl _
    · have hbt : Base t := by
        rcases isMemqueueFull_cases now hb ht with ⟨_,rfl,_⟩ | ⟨hf,_⟩ | ⟨_,_,_,_,m,_,_,hmove⟩
        · exact hb
        · cases hf
        · exact Move.base hb hmove
      have := memqueueMsgCreate_index (P := fun type o => Event.post k expiry body = .expire type ∧
        dueIn s.expiry type (now % 2^32) o) hbt.index hu
      rw [he,createCalls,hm] at this
      exact this

private theorem memqueuePollQueue_index {args : PollArgs} (hb : Base s)
    (h : memqueuePollQueue now s args = .ok (s',out)) : Indexed s ⟨now,.poll args⟩ s' := by
  obtain ⟨t,i,j,hloop,hend⟩ := memqueuePollQueue_cases h
  have hb₀ : Base (addCli s args.timeout) := Move.base hb (show Move now _ _ _ from .newCli s args.timeout)
  have := pollLoop_index (P := fun type o => Event.poll args = .expire type ∧ dueIn s.expiry type (now % 2^32) o) hb₀
    (Nat.lt_succ_self _) hloop
  rcases hend with ⟨_,rfl⟩ | ⟨_,rfl,_⟩ | ⟨_,heq⟩
  · exact this
  · exact this
  · have he : s' = (pollRespond t s.nextCli).1 := congrArg Prod.fst heq
    rw [Indexed,he,pollRespond_expiry]
    exact this

omit [Rebalance ExpiryNode] in
private theorem onQueueDelete_expiry {k : Bytes} (h : onQueueDelete s k = (s',out)) : s'.expiry = s.expiry := by
  simp only [onQueueDelete] at h
  split at h <;> (cases h; rfl)

omit [Rebalance ExpiryNode] in
private theorem onQueueInfo_expiry {k : Bytes} (h : onQueueInfo s k = (s',out)) : s'.expiry = s.expiry := by
  simp only [onQueueInfo] at h
  split at h <;> (cases h; rfl)

private theorem wake_expiry {b : Ptr} (h : step s ⟨now,.wake b⟩ = .ok (s',out)) : s'.expiry = s.expiry := by
  simp only [step] at h
  split at h
  · have he : s' = (pollRespond (wakeHandler s (.pollWait b)) b).1 := (congrArg Prod.fst (Except.ok.inj h)).symm
    rw [he,pollRespond_expiry]
    rfl
  · cases h
    rfl

private theorem resumePost_index {q : Ptr} (hb : Base s) (h : step s ⟨now,.resumePost q⟩ = .ok (s',out)) :
    Indexed s ⟨now,.resumePost q⟩ s' := by
  simp only [step] at h
  simp only [Indexed,Label.calls]
  split at h
  · rename_i hin
    obtain ⟨t,ht,h⟩ := bind_ok h
    cases h
    obtain ⟨e,he,ht⟩ := bind_ok ht
    cases ht
    rw [if_pos hin]
    exact resched_index hb.index.wf he
  · rename_i hin
    cases h
    rw [if_neg hin]
    exact .refl _

private theorem resumeDelete_expiry {q : Ptr} (h : step s ⟨now,.resumeDelete q⟩ = .ok (s',out)) :
    s'.expiry = s.expiry := by
  simp only [step] at h
  split at h
  · obtain ⟨t,ht,h⟩ := bind_ok h
    cases h
    exact (memqueueRelease_effect ht).expiry
  · cases h
    rfl

private theorem resumePoll_expiry {b : Ptr} (h : step s ⟨now,.resumePoll b⟩ = .ok (s',out)) :
    s'.expiry = s.expiry := by
  simp only [step] at h
  split at h
  · obtain ⟨t,ht,h⟩ := bind_ok h
    cases h
    rw [releasePending_expiry ht,(memqueueUnbindAll_effect _ b).expiry]
    rfl
  · cases h
    rfl

private theorem expire_index {type : ObjType} (hb : Base s) (h : step s ⟨now,.expire type⟩ = .ok (s',out)) :
    Indexed s ⟨now,.expire type⟩ s' := by
  simp only [step] at h
  obtain ⟨t,ht,h⟩ := bind_ok h
  cases h
  obtain ⟨htr,hnext⟩ := objsExpire_index hb ht
  obtain ⟨ops,hops,hcalls,hun⟩ := htr
  have heq : Label.calls s ⟨now,.expire type⟩ = noticeCalls s s' := by
    cases type with
    | consumer => simp only [Label.calls,ht]
    | msg => simp [Label.calls,noticeCalls,hnext (by decide)]
    | memqueue => simp [Label.calls,noticeCalls,hnext (by decide)]
  rw [Indexed,heq]
  refine ⟨ops,hops,hcalls,?_⟩
  intro u o ho
  rcases hun u o ho with hc | ⟨rfl,hd⟩
  · exact .inl hc
  · exact .inr ⟨rfl,hd⟩

end Events

/-- What a step does to the index: its calls, and for a pass the objects that are due. -/
theorem step_index {s s' : Ins} {l : Label} {out : Option Response} (hb : Base s) (h : step s l = .ok (s',out)) :
    IndexTrace l.now (fun type o => l.event = .expire type ∧ dueIn s.expiry type (l.now % 2^32) o) (l.calls s)
      s.expiry s'.expiry := by
  obtain ⟨now,event⟩ := l
  have hsame : Label.calls s ⟨now,event⟩ = [] → s'.expiry = s.expiry → Indexed s ⟨now,event⟩ s' := by
    intro hc he
    rw [Indexed,hc,he]
    exact .refl _
  cases event with
  | put args => exact onQueueCreate_index hb h
  | post k expiry body => exact onMsgPost_index hb h
  | poll args => exact memqueuePollQueue_index hb h
  | delete k => exact hsame rfl (onQueueDelete_expiry (Except.ok.inj h))
  | head k => exact hsame rfl (onQueueInfo_expiry (Except.ok.inj h))
  | wake b => exact hsame rfl (wake_expiry h)
  | resumePost q => exact resumePost_index hb h
  | resumeDelete q => exact hsame rfl (resumeDelete_expiry h)
  | resumePoll b => exact hsame rfl (resumePoll_expiry h)
  | expire type => exact expire_index hb h

end Calls

end Memqueue
