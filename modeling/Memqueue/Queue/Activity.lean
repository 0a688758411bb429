import Memqueue.Expiry.Apart
import Memqueue.Queue.Delays

/-! Requests that put off the expiry of a queue or of a consumer. A POST does so only when its response is written,
and nothing is put off for an object whose `expiry_node` was never set. -/
namespace Memqueue
open Ins Fallible Expiry

section Index
variable [Rebalance ExpiryNode] {now : Nat}

private theorem expireObj_links {type : ObjType} {a o : Ptr} {s s' : Ins} (hb : Base s)
    (h : Backlinks (orAt msgsOnly type a) msgsOnly s.expiry) (hdue : dueAt s.expiry type (now % 2^32) a o)
    (hobj : expireObj (expiryHost now) type s o = .ok s') : Backlinks (orAt msgsOnly type a) msgsOnly s'.expiry := by
  obtain ⟨t,ht,hobj⟩ := bind_ok hobj
  cases hobj
  show Backlinks _ _ (t.expiry.setNode type o none)
  have hplain : type ≠ .msg → t.expiry = listRemove s.expiry type o →
      Backlinks (orAt msgsOnly type a) msgsOnly (t.expiry.setNode type o none) := by
    intro hne he
    obtain ⟨h₀,hout⟩ := h.handOver hb.index.wf hne hdue
    exact Backlinks.clear (he ▸ h₀) (he ▸ hout)
  cases type with
  | msg =>
    have he := (memqueueMsgRelease_effect ht).expiry
    refine h.msgs (fun _ => .inl rfl) (fun _ => rfl) ?_
    intro u hu
    rw [he]
    refine ⟨root_setRoot_ne _ hu _,?_⟩
    funext x
    rw [expiryNode_setNode,if_neg fun hx => hu hx.1]
    rfl
  | memqueue => exact hplain (by decide) (memqueueRelease_effect ht).expiry
  | consumer =>
    obtain ⟨u,hu,ht⟩ := bind_ok ht
    obtain ⟨w,hw,ht⟩ := bind_ok ht
    cases ht
    obtain ⟨h₀,hout⟩ := h.handOver hb.index.wf (by intro hm; cases hm) hdue
    have hmsg : objSchedExpire (listRemove s.expiry .consumer o) now s.nextMsg 2000 .msg = .ok w.expiry := by
      rw [(memqueueRelease_effect hw).expiry]
      exact (memqueueMsgCreate_effect hu).scheduled (by decide)
    have h₁ : Backlinks (orAt msgsOnly .consumer a) (orAt msgsOnly .consumer o) w.expiry :=
      h₀.msgs (fun _ => .inl rfl) (fun _ => .inl rfl) fun t ht => objSchedExpire_root_ne ht hmsg
    apply h₁.clear
    rwa [indexed,(objSchedExpire_root_ne (by decide) hmsg).1]

private theorem objsExpire_tidy {type : ObjType} {s s' : Ins} (hb : Base s) (h : Tidy s.expiry)
    (hpass : objsExpire (expiryHost now) now type s = .ok s') : Tidy s'.expiry := by
  have htr := (objsExpire_index hb hpass).1
  have hwalk : Base s' ∧ Backlinks msgsOnly msgsOnly s'.expiry := by
    refine (objsExpire_walk (fun t => Base t ∧ Backlinks msgsOnly msgsOnly t.expiry)
      (fun a t => Base t ∧ Backlinks (orAt msgsOnly type a) msgsOnly t.expiry) (E := fun _ => True)
      (fun _ _ _ h => expiryHost_root h) (fun _ h => h.1.index.wf.nodup type) ?_ ?_ ?_ trivial ⟨hb,
        h.links⟩).result hpass
    · rintro t a ⟨hbt,hl⟩
      exact ⟨hbt,hl.mono (fun _ _ hx => .inl hx) fun _ _ hy => hy⟩
    · rintro t a o ⟨hbt,hl⟩ hdue
      refine ensures_intro ?_ fun _ _ => trivial
      intro t' ht
      obtain ⟨as,has,_⟩ := expireObj_trace hbt hdue.dueIn.mem hdue.dueIn (SameConsumers.refl t) ht
      exact ⟨trace_base has hbt,expireObj_links hbt hl hdue ht⟩
    · rintro t a f e ⟨hbt,hl⟩ hf
      obtain ⟨hw,hidx,_⟩ := possiblyNodeFree_spec hbt.index.wf hf
      have htouch : Move now .touch t (setExpiry t e) := .touch hw fun u o => by rw [hidx]
      exact ⟨htouch.base hbt,hl.free hbt.index.wf hf⟩
  exact ⟨hwalk.1.index.wf,htr.sound h.sound,htr.pure h.sound h.pure,hwalk.2⟩

end Index

/-- The moves of the loop of memqueue_poll_queue. -/
private def Atom.polls : Atom → Bool
  | .touch | .create _ _ _ | .join _ _ | .bind _ | .enqueue _ _ => true
  | _ => false

/-- A call was made for the object, or it is in no list. -/
def Heard (cs : List Sched) (s : Ins) (type : ObjType) (o : Ptr) : Prop :=
  (∃ c ∈ cs, c.type = type ∧ c.obj = o) ∨ o ∉ s.expiry.indexed type

section Polls
variable [Rebalance ExpiryNode] {now : Nat}

/-- In a poll only new objects get into the index. -/
private theorem polls_unlinked {as : List Atom} {s s' : Ins} (h : Trace (Move now) as s s')
    (hp : ∀ x ∈ as, x.polls = true) (hb : Base s) {type : ObjType} (hmsg : type ≠ .msg) {o : Ptr}
    (ho : o < nextObj s type) (hout : o ∉ s.expiry.indexed type) : o ∉ s'.expiry.indexed type := by
  refine (trace_invariant h (fun t => o < nextObj t type ∧ o ∉ t.expiry.indexed type) ?_ hb ⟨ho,hout⟩).2
  rintro a t u hbt ha ⟨hlt,hno⟩ hm
  refine ⟨lt_of_lt_of_le hlt (hm.nextObj_le type),?_⟩
  intro hin
  rcases ((hm.indexed hbt.index).2 type o).mp hin with ⟨hin,_⟩ | hlink
  · exact hno hin
  · cases a with
    | create q msecs data => exact hmsg hlink.2.1
    | join q id =>
      obtain ⟨rfl,rfl⟩ := hlink
      exact lt_irrefl _ hlt
    | touch | bind | enqueue => exact hlink
    | _ => cases hp _ ha

/-- In a poll a consumer stays registered. -/
private theorem polls_registered {as : List Atom} {s s' : Ins} (h : Trace (Move now) as s s')
    (hp : ∀ x ∈ as, x.polls = true) {q : Ptr} (hq : q < s.nextQueue) {id : Bytes} {c : Ptr}
    (hget : (s.queues q).consumers.get id = some c) : (s'.queues q).consumers.get id = some c := by
  refine (h.invariant (I := fun t => q < t.nextQueue ∧ (t.queues q).consumers.get id = some c) ?_ ⟨hq,hget⟩).2
  rintro a t u ha ⟨hlt,ht⟩ hm
  refine ⟨lt_of_lt_of_le hlt hm.next_le.2.1,?_⟩
  rcases hm.consumers hlt with he | ⟨k,rfl,_,he⟩ | ⟨k,rfl,_⟩
  · rw [he,ht]
  · rw [he]
    exact Table.get_insert_of_some ht _
  · cases hp _ ha

private theorem pollRefresh_tidy {s s' : Ins} {q : Ptr} {a : QueueArg} (hb : Base s) (ht : Tidy s.expiry)
    (ha : Apart now s.expiry (pollRefreshCalls s q a)) (h : pollRefresh now s q a = .ok s') : Tidy s'.expiry := by
  simp only [pollRefresh] at h
  split at h
  · rename_i id hid
    split at h
    · rename_i hce
      simp only [pollRefreshCalls,hid,hce,ne_eq,not_false_eq_true,if_true] at ha
      simp only [memqueueRefreshConsumer] at h
      split at h
      · rename_i c hc
        obtain ⟨e,he,h⟩ := bind_ok h
        cases h
        simp only [refreshCalls,hc] at ha
        exact ht.resched (by decide) ha he
      · rename_i hnone
        obtain ⟨t,hcr,h⟩ := bind_ok h
        obtain ⟨u,hu,h⟩ := bind_ok h
        obtain ⟨e,he,h⟩ := bind_ok h
        cases h
        obtain ⟨_,rfl⟩ := memqueueRetain_effect hu
        simp only [refreshCalls,hnone] at ha
        have hc := memqueueMsgCreate_effect hcr
        have hmsg : objSchedExpire s.expiry now s.nextMsg 2000 .msg = .ok t.expiry := hc.scheduled (by decide)
        have hfirst : IndexTrace now (fun _ _ => True) [⟨.msg,s.nextMsg,2000⟩] s.expiry t.expiry :=
          .sched (c := ⟨.msg,s.nextMsg,2000⟩) (next_unlinked hb.index .msg) hmsg
        have happ : Apart now s.expiry ([⟨.msg,s.nextMsg,2000⟩] ++
            [⟨.consumer,s.nextConsumer,(s.queues q).consumerExpiry⟩]) := ha
        have ht₁ : Tidy t.expiry := ht.sched (c := ⟨.msg,s.nextMsg,2000⟩) (next_unlinked hb.index .msg) happ.left hmsg
        refine ht₁.sched (c := ⟨.consumer,s.nextConsumer,(s.queues q).consumerExpiry⟩) ?_
          (happ.right ht.sound hfirst) ?_
        · show s.nextConsumer ∉ t.expiry.indexed .consumer
          rw [Expiry.indexed,(objSchedExpire_root_ne (by decide : ObjType.consumer ≠ .msg) hmsg).1]
          exact next_unlinked hb.index .consumer
        · have hce : ((t.updQueue q fun x => { x with refCount := x.refCount + 1 }).queues q).consumerExpiry =
              (s.queues q).consumerExpiry := by
            simp [updQueue,hc.queues,newConsumer]
          rw [hce] at he
          exact he
    · cases h
      exact ht
  · cases h
    exact ht

/-- The consumer a poll entry is for is registered by then, and heard. -/
private theorem pollRefresh_heard {s s' : Ins} {q : Ptr} {a : QueueArg} {id : Bytes} (hb : Base s) (hl : Ledger s)
    (hlive : (s.queues q).freed = false) (hq : q < s.nextQueue) (ht : Tidy s.expiry) (hid : a.consumerId = some id)
    (hce : (s.queues q).consumerExpiry ≠ 0) (h : pollRefresh now s q a = .ok s') :
    ∃ c < s'.nextConsumer, (s'.queues q).consumers.get id = some c ∧ Heard (pollRefreshCalls s q a) s' .consumer c := by
  simp only [pollRefresh,hid,hce,ne_eq,not_false_eq_true,if_true] at h
  simp only [pollRefreshCalls,hid,hce,ne_eq,not_false_eq_true,if_true]
  rcases memqueueRefreshConsumer_cases hb hlive hq h with ⟨⟨c,hget,e,he,rfl⟩,htouch⟩ | ⟨hnone,t,hcreate,hjoin⟩
  · refine ⟨c,(hl.registered q id c (Table.mem_of_get hget)).1,hget,?_⟩
    by_cases hin : c ∈ s.expiry.indexed .consumer
    · refine .inl ⟨⟨.consumer,c,(s.consumers c).expiry⟩,?_,rfl,rfl⟩
      rw [refreshCalls,hget]
      simp only [ht.reschedCalls (by decide) hin,List.mem_singleton]
    · refine .inr ?_
      show c ∉ e.indexed .consumer
      rw [(resched_spec hb.index.wf he).2]
      exact hin
  · have hnext : t.nextConsumer = s.nextConsumer := by
      cases hcreate with
      | create _ _ hc => exact hc.frame.nextConsumer
    cases hjoin with
    | join _ _ hget _ =>
      refine ⟨t.nextConsumer,Nat.lt_succ_self _,?_,.inl ⟨⟨.consumer,s.nextConsumer,(s.queues q).consumerExpiry⟩,?_,rfl,
        hnext.symm⟩⟩
      · show (((addConsumer t q id).queues q).consumers).get id = some t.nextConsumer
        simp only [addConsumer,newConsumer,updQueue,Function.update_self]
        exact Table.get_insert_self hget _
      · rw [refreshCalls,hnone]
        simp

private theorem pollRefresh_polls {s s' : Ins} {q : Ptr} {a : QueueArg} (hb : Base s)
    (hlive : (s.queues q).freed = false) (hq : q < s.nextQueue) (h : pollRefresh now s q a = .ok s') :
    ∃ as, Trace (Move now) as s s' ∧ ∀ x ∈ as, x.polls = true := by
  obtain ⟨as,has,hx⟩ := pollRefresh_trace hb hlive hq h
  refine ⟨as,has,?_⟩
  intro x hin
  rcases hx x hin with rfl | ⟨id,_,rfl | rfl⟩ <;> rfl

private theorem pollFound_polls {s s' : Ins} {b q : Ptr} {a : QueueArg} {n : Nat} (hb : Base s)
    (hlive : (s.queues q).freed = false) (hq : q < s.nextQueue) (hcli : b < s.nextCli)
    (h : pollFound now b a s q = .ok (s',n)) :
    ∃ s₁ as bs, pollRefresh now s q a = .ok s₁ ∧ Trace (Move now) as s s₁ ∧ Trace (Move now) bs s₁ s' ∧
      (∀ x ∈ as, x.polls = true) ∧ ∀ x ∈ bs, x.polls = true := by
  obtain ⟨s₁,hr,htr,_⟩ := pollFound_cases hb hlive hq hcli h
  obtain ⟨as,has,ha⟩ := pollRefresh_polls hb hlive hq hr
  refine ⟨s₁,as,_,hr,has,htr,ha,?_⟩
  intro x hx
  rcases List.mem_cons.mp hx with rfl | hx
  · rfl
  · rcases List.mem_cons.mp hx with rfl | hx
    · rfl
    · obtain ⟨m,_,rfl⟩ := List.mem_map.mp hx
      rfl

private theorem pollFound_tidy {s s' : Ins} {b q : Ptr} {a : QueueArg} {n : Nat} (hb : Base s)
    (hlive : (s.queues q).freed = false) (hq : q < s.nextQueue) (ht : Tidy s.expiry)
    (ha : Apart now s.expiry (pollFoundCalls s q a)) (h : pollFound now b a s q = .ok (s',n)) : Tidy s'.expiry := by
  simp only [pollFound] at h
  obtain ⟨s₁,h₁,h⟩ := bind_ok h
  obtain ⟨e,he,h⟩ := bind_ok h
  have ht₁ := pollRefresh_tidy hb ht ha.left h₁
  obtain ⟨as,has,_⟩ := pollRefresh_polls hb hlive hq h₁
  obtain ⟨hnode,hexp⟩ := pollRefresh_keepsQueue h₁
  have htr : IndexTrace now (fun _ _ => True) (pollRefreshCalls s q a) s.expiry s₁.expiry :=
    pollRefresh_index hb.index h₁
  have ha₁ := Apart.right ha ht.sound htr
  rw [cliBinderEnqueueMsgs_expiry h]
  refine ht₁.resched (by decide) ?_ he
  rwa [reschedCalls,hnode,hexp]

/-- What is heard stays heard while the loop goes on. -/
private theorem Heard.later {cs cs' : List Sched} {as : List Atom} {s s' : Ins} {type : ObjType} {o : Ptr}
    (h : Heard cs s type o) (htr : Trace (Move now) as s s') (hp : ∀ x ∈ as, x.polls = true) (hb : Base s)
    (hmsg : type ≠ .msg) (ho : o < nextObj s type) (hsub : ∀ c ∈ cs, c ∈ cs') : Heard cs' s' type o := by
  rcases h with ⟨c,hc,h⟩ | hout
  · exact .inl ⟨c,hsub c hc,h⟩
  · exact .inr (polls_unlinked htr hp hb hmsg ho hout)

/-- The queue of an entry and its consumer, if it is given one, are heard. -/
private def EntryHeard (cs : List Sched) (s : Ins) (q : Ptr) (a : QueueArg) : Prop :=
  Heard cs s .memqueue q ∧ ∀ id, a.consumerId = some id → (s.queues q).consumerExpiry ≠ 0 →
    ∃ c < s.nextConsumer, (s.queues q).consumers.get id = some c ∧ Heard cs s .consumer c

omit [Rebalance ExpiryNode] in
private theorem EntryHeard.mono {cs cs' : List Sched} {s : Ins} {q : Ptr} {a : QueueArg} (h : EntryHeard cs s q a)
    (hsub : ∀ c ∈ cs, c ∈ cs') : EntryHeard cs' s q a := by
  have hmono : ∀ type o, Heard cs s type o → Heard cs' s type o := by
    rintro type o (⟨c,hc,h⟩ | hout)
    · exact .inl ⟨c,hsub c hc,h⟩
    · exact .inr hout
  refine ⟨hmono _ _ h.1,?_⟩
  intro id hid hce
  obtain ⟨c,hlt,hget,hheard⟩ := h.2 id hid hce
  exact ⟨c,hlt,hget,hmono _ _ hheard⟩

private theorem Move.polls_store {x : Atom} {s s' : Ins} (h : Move now x s s') (hx : x.polls = true) :
    s'.queueStore = s.queueStore := by
  cases x with
  | touch | bind => exact (h.toQuiet rfl).store
  | create q msecs data =>
    cases h with
    | create _ _ hc => exact hc.store
  | join q id =>
    cases h
    rfl
  | enqueue b m =>
    cases h with
    | enqueue _ _ he =>
      obtain ⟨_,rfl⟩ := cliBinderEnqueueMsg_effect he
      rfl
  | _ => cases hx

private theorem trace_consumerExpiry {as : List Atom} {s s' : Ins} (h : Trace (Move now) as s s') {q : Ptr}
    (hq : q < s.nextQueue) : q < s'.nextQueue ∧ (s'.queues q).consumerExpiry = (s.queues q).consumerExpiry := by
  refine h.invariant (I := fun t => q < t.nextQueue ∧ (t.queues q).consumerExpiry = (s.queues q).consumerExpiry) ?_ ⟨hq,
    rfl⟩
  rintro a t u _ ⟨hlt,he⟩ hm
  exact ⟨lt_of_lt_of_le hlt hm.next_le.2.1,(hm.sameQueue hlt).consumerExpiry.trans he⟩

private theorem EntryHeard.later {cs cs' : List Sched} {as : List Atom} {s s' : Ins} {q : Ptr} {a : QueueArg}
    (h : EntryHeard cs s q a) (htr : Trace (Move now) as s s') (hp : ∀ x ∈ as, x.polls = true) (hb : Base s)
    (hq : q < s.nextQueue) (hsub : ∀ c ∈ cs, c ∈ cs') : EntryHeard cs' s' q a := by
  refine ⟨h.1.later htr hp hb (by decide) hq hsub,?_⟩
  intro id hid hce
  rw [(trace_consumerExpiry htr hq).2] at hce
  obtain ⟨c,hlt,hget,hheard⟩ := h.2 id hid hce
  have hle : s.nextConsumer ≤ s'.nextConsumer :=
    htr.invariant (I := fun t => s.nextConsumer ≤ t.nextConsumer)
      (fun _ _ _ _ hi hm => hi.trans hm.next_le.2.2.1) le_rfl
  exact ⟨c,lt_of_lt_of_le hlt hle,polls_registered htr hp hq hget,hheard.later htr hp hb (by decide) hlt hsub⟩

private theorem pollFound_heard {s s' : Ins} {b q : Ptr} {a : QueueArg} {n : Nat} (hb : Base s) (hl : Ledger s)
    (hlive : (s.queues q).freed = false) (hq : q < s.nextQueue) (hcli : b < s.nextCli) (ht : Tidy s.expiry)
    (h : pollFound now b a s q = .ok (s',n)) : EntryHeard (pollFoundCalls s q a) s' q a := by
  obtain ⟨s₁,as,bs,hr,has,hbs,ha,hb'⟩ := pollFound_polls hb hlive hq hcli h
  have hb₁ := trace_base has hb
  obtain ⟨hq₁,hce₁⟩ := trace_consumerExpiry has hq
  have hmid : EntryHeard (pollFoundCalls s q a) s₁ q a := by
    refine ⟨?_,?_⟩
    · by_cases hin : q ∈ s.expiry.indexed .memqueue
      · refine .inl ⟨⟨.memqueue,q,(s.queues q).expiry⟩,?_,rfl,rfl⟩
        rw [pollFoundCalls,ht.reschedCalls (by decide) hin]
        exact List.mem_append_right _ (List.mem_singleton_self _)
      · exact .inr (polls_unlinked has ha hb (by decide) hq hin)
    · intro id hid hce
      rw [hce₁] at hce
      obtain ⟨c,hlt,hget,hheard⟩ := pollRefresh_heard hb hl hlive hq ht hid hce hr
      refine ⟨c,hlt,hget,hheard.imp ?_ fun hout => hout⟩
      rintro ⟨c',hc',h⟩
      exact ⟨c',List.mem_append_left _ hc',h⟩
  exact hmid.later hbs hb' hb₁ hq₁ fun _ hc => hc

/-- Every entry of a poll that finds its queue is heard when the loop is done. -/
private theorem pollLoop_heard {b : Ptr} {args : List QueueArg} {acc acc' : PollAcc} (hb : Base acc.1)
    (hl : Ledger acc.1) (hcli : b < acc.1.nextCli) (ht : Tidy acc.1.expiry)
    (ha : Apart now acc.1.expiry (pollCalls now b acc args)) (h : args.foldlM (pollQueueArg now b) acc = .ok acc') :
    Tidy acc'.1.expiry ∧ (∃ as, Trace (Move now) as acc.1 acc'.1 ∧ ∀ x ∈ as, x.polls = true) ∧
    ∀ a ∈ args, ∀ q, a.qId.bind acc.1.queueStore.get = some q → EntryHeard (pollCalls now b acc args) acc'.1 q a := by
  induction args generalizing acc with
  | nil =>
    cases h
    exact ⟨ht,⟨[],.nil _,fun _ hx => by cases hx⟩,fun _ hx => by cases hx⟩
  | cons a args ih =>
    rw [List.foldlM_cons] at h
    obtain ⟨acc₁,h₁,h₂⟩ := bind_ok h
    rw [pollCalls,h₁] at ha ⊢
    obtain ⟨k,hk,⟨hnone,rfl⟩ | ⟨q,n,hget,hf,_⟩⟩ := pollQueueArg_cases h₁
    · simp only [hk,Option.bind_some,hnone,List.nil_append] at ha ⊢
      obtain ⟨ht',htr,hheard⟩ := ih hb hl hcli ht ha h₂
      refine ⟨ht',htr,?_⟩
      intro x hx q hq
      rcases List.mem_cons.mp hx with rfl | hx
      · simp only [hk,Option.bind_some,hnone] at hq
        cases hq
      · exact hheard x hx q hq
    · simp only [hk,Option.bind_some,hget] at ha ⊢
      obtain ⟨hlt,hlive,_⟩ := hb.store.get_iff.mp hget
      obtain ⟨s₁,as,bs,_,has,hbs,hx₁,hx₂⟩ := pollFound_polls hb hlive hlt hcli hf
      have htr₁ : Trace (Move now) (as ++ bs) acc.1 acc₁.1 := has.append hbs
      have hpolls₁ : ∀ x ∈ as ++ bs, x.polls = true := by
        intro x hx
        exact (List.mem_append.mp hx).elim (hx₁ x) (hx₂ x)
      have hb₁ := trace_base htr₁ hb
      obtain ⟨hl₁,hcli₁,hstore⟩ : Ledger acc₁.1 ∧ b < acc₁.1.nextCli ∧ acc₁.1.queueStore = acc.1.queueStore := by
        refine trace_invariant htr₁ (fun t => Ledger t ∧ b < t.nextCli ∧
          t.queueStore = acc.1.queueStore) ?_ hb ⟨hl,hcli,rfl⟩
        rintro x t u hbt hx ⟨hlt,hct,hst⟩ hm
        exact ⟨hm.ledger hbt hlt,lt_of_lt_of_le hct hm.next_le.2.2.2,(hm.polls_store (hpolls₁ x hx)).trans hst⟩
      have ht₁ := pollFound_tidy hb hlive hlt ht ha.left hf
      have htrace : IndexTrace now (fun _ _ => True) (pollFoundCalls acc.1 q a) acc.1.expiry acc₁.1.expiry :=
        pollFound_index hb hlive hlt hf
      obtain ⟨ht',⟨cs,hcs,hx₃⟩,hheard⟩ := ih hb₁ hl₁ hcli₁ ht₁ (ha.right ht.sound htrace) h₂
      refine ⟨ht',⟨as ++ bs ++ cs,htr₁.append hcs,?_⟩,?_⟩
      · intro x hx
        exact (List.mem_append.mp hx).elim (hpolls₁ x) (hx₃ x)
      · intro x hx p hp
        rcases List.mem_cons.mp hx with rfl | hx
        · simp only [hk,Option.bind_some,hget] at hp
          cases hp
          have hone := pollFound_heard hb hl hlive hlt hcli ht hf
          apply hone.later hcs hx₃ hb₁ (trace_consumerExpiry htr₁ hlt).1
          exact fun c hc => List.mem_append_left _ hc
        · rw [← hstore] at hp
          exact (hheard x hx p hp).mono fun c hc => List.mem_append_right _ hc

end Polls

/-- The consumer a poll entry has registered or refreshed. -/
def polledConsumer (s : Ins) (q : Ptr) (a : QueueArg) : Option Ptr :=
  match a.consumerId with
  | some id => if (s.queues q).consumerExpiry ≠ 0 then (s.queues q).consumers.get id else none
  | none => none

/-- What a request is about: the queue of a POST, and the queues and consumers of a poll. -/
def Label.activity (s s' : Ins) (l : Label) : List (ObjType × Ptr) :=
  match l.event with
  | .post k _ _ => (s.queueStore.get k).toList.map fun q => (.memqueue,q)
  | .poll args => args.queueArgs.flatMap fun a =>
    match a.qId.bind s.queueStore.get with
    | some q => (.memqueue,q) :: (polledConsumer s' q a).toList.map fun c => (.consumer,c)
    | none => []
  | _ => []

/-- The server with its clock and a record of what its requests were about, and when. -/
structure Active where
  ins : Ins
  clock : Nat
  log : List (Nat × ObjType × Ptr)

def Active.init : Active := ⟨.init,0,[]⟩

def activeStep [Rebalance ExpiryNode] (x : Active) (l : Label) : Except Fault (Active × Option Response) := do
  let (s,out) ← step x.ins l
  pure (⟨s,l.now,(l.activity x.ins s).map (fun p => (l.now,p)) ++ x.log⟩,out)

/-- The clock does not go back, and no deadline of the step is cut to 32 bits. -/
def Label.timely [Rebalance ExpiryNode] (x : Active) (l : Label) : Prop :=
  x.clock ≤ l.now ∧ ∀ c ∈ l.calls x.ins, l.now + c.msecs < 2^32

/-- No pass over the queues finds one due whose POST is still in its write. -/
def Label.settled (s : Ins) (l : Label) : Prop :=
  match l.event with
  | .expire .memqueue => ∀ q ∈ s.expiry.indexed .memqueue, dueIn s.expiry .memqueue (l.now % 2^32) q →
    .post q ∉ s.handlers
  | _ => True

instance Label.decidableTimely [Rebalance ExpiryNode] (x : Active) (l : Label) : Decidable (l.timely x) :=
  inferInstanceAs (Decidable (_ ∧ _))

instance (s : Ins) (l : Label) : Decidable (l.settled s) :=
  match l with
  | ⟨now,.expire .memqueue⟩ => inferInstanceAs (Decidable (∀ q ∈ s.expiry.indexed .memqueue,
      dueIn s.expiry .memqueue (now % 2^32) q → .post q ∉ s.handlers))
  | ⟨_,.expire .msg⟩ | ⟨_,.expire .consumer⟩ | ⟨_,.put _⟩ | ⟨_,.post _ _ _⟩ | ⟨_,.poll _⟩ | ⟨_,.delete _⟩ | ⟨_,.head _⟩
  | ⟨_,.wake _⟩ | ⟨_,.resumePost _⟩ | ⟨_,.resumeDelete _⟩ | ⟨_,.resumePoll _⟩ => .isTrue trivial

/-- Moves that leave the index alone. -/
private def Atom.inert : Atom → Bool
  | .suspend _ | .wakeup _ | .serve _ | .unbindAll _ | .unpend _ _ | .release _ => true
  | _ => false

section Steps
variable [Rebalance ExpiryNode]

private theorem Move.inert_expiry {now : Nat} {a : Atom} {s s' : Ins} (h : Move now a s s') (ha : a.inert = true) :
    s'.expiry = s.expiry := by
  cases h with
  | suspend | wakeup | serve => rfl
  | unbindAll s b => exact (memqueueUnbindAll_effect s b).expiry
  | unpend _ hr => exact hr.expiry
  | release hr => exact hr.expiry
  | _ => cases ha

private theorem step_inert {s s' : Ins} {l : Label} {out : Option Response} (hb : Base s) (h : step s l = .ok (s',out))
    (ha : ∀ a, l.allows s a → a.inert = true) : s'.expiry = s.expiry := by
  obtain ⟨as,has,hx⟩ := step_trace hb h
  refine has.invariant (I := fun t => t.expiry = s.expiry) ?_ rfl
  intro a t u hin ht hm
  exact (hm.inert_expiry (ha a (hx a hin))).trans ht

/-- A step whose calls are kept apart leaves the index tidy. -/
theorem step_tidy {s s' : Ins} {l : Label} {out : Option Response} (hb : Base s) (hl : Ledger s) (ht : Tidy s.expiry)
    (ha : Apart l.now s.expiry (l.calls s)) (h : step s l = .ok (s',out)) : Tidy s'.expiry := by
  have hinert : (∀ a, l.allows s a → a.inert = true) → Tidy s'.expiry := by
    intro hx
    rw [step_inert hb h hx]
    exact ht
  obtain ⟨now,event⟩ := l
  cases event with
  | put args =>
    simp only [step,onQueueCreate] at h
    split at h
    · cases h
      exact ht
    · rename_i hnone
      obtain ⟨t,hcreate,h⟩ := bind_ok h
      cases h
      cases memqueueCreate_move hnone hcreate with
      | @putQueue _ _ e _ hs hn =>
        by_cases hpos : 0 < args.expiry
        · simp only [Label.calls,hnone,hpos,and_self,if_true] at ha
          exact ht.sched (c := ⟨.memqueue,s.nextQueue,args.expiry⟩) (next_unlinked hb.index .memqueue) ha (hs hpos)
        · have he := hn (Nat.eq_zero_of_not_pos hpos)
          subst he
          exact ht
  | post k expiry body =>
    obtain ⟨rfl,_⟩ | ⟨q,hget,t,full,hfull,hend⟩ := onMsgPost_cases h
    · exact ht
    · obtain ⟨he,hm⟩ := isMemqueueFull_keeps hfull
      rcases hend with ⟨rfl,rfl,_⟩ | ⟨rfl,u,hu,rfl,_⟩
      · show Tidy t.expiry
        rw [he]
        exact ht
      · show Tidy u.expiry
        have hc := memqueueMsgCreate_effect hu
        by_cases hpos : 0 < expiry
        · have hs := hc.scheduled hpos
          rw [he,hm] at hs
          refine ht.sched (c := ⟨.msg,s.nextMsg,expiry.toNat⟩) (next_unlinked hb.index .msg) ?_ hs
          intro c hc hne
          rw [List.mem_singleton.mp hc] at hne
          exact absurd rfl hne
        · rw [hc.unscheduled hpos,he]
          exact ht
  | poll args =>
    obtain ⟨t,i,j,hloop,hend⟩ := memqueuePollQueue_cases h
    have hnew : Move now (.newCli args.timeout) s (addCli s args.timeout) := .newCli s args.timeout
    have htidy := (pollLoop_heard (hnew.base hb) (hnew.ledger hb hl) (Nat.lt_succ_self _) ht ha hloop).1
    rcases hend with ⟨_,rfl⟩ | ⟨_,rfl,_⟩ | ⟨_,heq⟩
    · exact htidy
    · exact htidy
    · obtain ⟨as,has,hx⟩ := pollRespond_trace now t s.nextCli
      rw [show s' = (pollRespond t s.nextCli).1 from congrArg Prod.fst heq]
      refine has.invariant (I := fun u => Tidy u.expiry) ?_ htidy
      intro a u v hin hu hm
      rw [hm.inert_expiry (by rcases hx a hin with rfl | rfl <;> rfl)]
      exact hu
  | delete k =>
    apply hinert
    rintro a ⟨q,rfl⟩
    rfl
  | head k => exact hinert fun a ha => ha.elim
  | wake b =>
    apply hinert
    rintro a (rfl | rfl | rfl) <;> rfl
  | resumePost q =>
    simp only [step] at h
    split at h
    · rename_i hin
      obtain ⟨t,hres,h⟩ := bind_ok h
      cases h
      obtain ⟨e,he,hres⟩ := bind_ok hres
      cases hres
      simp only [Label.calls,hin,if_true] at ha
      exact ht.resched (by decide) ha he
    · cases h
      exact ht
  | resumeDelete q =>
    apply hinert
    rintro a ⟨_,rfl | rfl⟩ <;> rfl
  | resumePoll b =>
    apply hinert
    rintro a ⟨_,rfl | rfl | ⟨m,rfl⟩⟩ <;> rfl
  | expire type =>
    obtain ⟨t,hpass,h⟩ := bind_ok h
    cases h
    exact objsExpire_tidy hb ht hpass

/-- What a request is about has been heard, or is a queue whose POST has yet to write its response. -/
private theorem step_heard {s s' : Ins} {l : Label} {out : Option Response} (hb : Base s) (hl : Ledger s)
    (ht : Tidy s.expiry) (ha : Apart l.now s.expiry (l.calls s)) (h : step s l = .ok (s',out)) :
    ∀ p ∈ l.activity s s', (p.1 ≠ .msg ∧ p.2 < nextObj s' p.1) ∧
      (Heard (l.calls s) s' p.1 p.2 ∨ p.1 = .memqueue ∧ .post p.2 ∈ s'.handlers) := by
  obtain ⟨now,event⟩ := l
  obtain ⟨as,has,_⟩ := step_trace hb h
  have hnext : ∀ q < s.nextQueue, q < s'.nextQueue := fun q hq => (trace_consumerExpiry has hq).1
  cases event with
  | post k expiry body =>
    intro p hp
    obtain ⟨q,hq,rfl⟩ := List.mem_map.mp hp
    have hget := Option.mem_toList.mp hq
    refine ⟨⟨fun hm => (by cases hm),hnext q (hb.store.get_iff.mp hget).1⟩,.inr ⟨rfl,?_⟩⟩
    obtain ⟨_,hnone⟩ | ⟨q',hget',t,full,_,hend⟩ := onMsgPost_cases h
    · rw [hnone] at hget
      cases hget
    · have heq : q' = q := Option.some.inj (hget'.symm.trans hget)
      subst heq
      rcases hend with ⟨_,rfl,_⟩ | ⟨_,u,_,rfl,_⟩
      · exact List.mem_cons_self
      · exact List.mem_cons_self
  | poll args =>
    obtain ⟨t,i,j,hloop,hend⟩ := memqueuePollQueue_cases h
    have hnew : Move now (.newCli args.timeout) s (addCli s args.timeout) := .newCli s args.timeout
    have hheard := (pollLoop_heard (hnew.base hb) (hnew.ledger hb hl) (Nat.lt_succ_self _) ht ha hloop).2.2
    -- the end of the poll changes neither the index nor the consumers
    have hsame : s'.expiry = t.expiry ∧ s'.queues = t.queues ∧ s'.nextConsumer = t.nextConsumer := by
      rcases hend with ⟨_,rfl⟩ | ⟨_,rfl,_⟩ | ⟨_,heq⟩
      · exact ⟨rfl,rfl,rfl⟩
      · exact ⟨rfl,rfl,rfl⟩
      · rw [show s' = (pollRespond t s.nextCli).1 from congrArg Prod.fst heq]
        unfold pollRespond
        split <;> exact ⟨rfl,rfl,rfl⟩
    intro p hp
    obtain ⟨a,hain,hp⟩ := List.mem_flatMap.mp hp
    split at hp
    · rename_i q hq
      obtain ⟨hqueue,hcons⟩ := hheard a hain q hq
      obtain ⟨k,_,hget⟩ := Option.bind_eq_some_iff.mp hq
      rcases List.mem_cons.mp hp with rfl | hp
      · refine ⟨⟨fun hm => (by cases hm),hnext q (hb.store.get_iff.mp hget).1⟩,.inl ?_⟩
        rcases hqueue with hcall | hout
        · exact .inl hcall
        · exact .inr (hsame.1 ▸ hout)
      · obtain ⟨c,hc,rfl⟩ := List.mem_map.mp hp
        have hc := Option.mem_toList.mp hc
        simp only [polledConsumer] at hc
        split at hc
        · rename_i id hid
          rw [hsame.2.1] at hc
          split at hc
          · rename_i hce
            obtain ⟨c',hlt,hget',hheard'⟩ := hcons id hid hce
            have heq : c' = c := Option.some.inj (hget'.symm.trans hc)
            subst heq
            refine ⟨⟨fun hm => (by cases hm),?_⟩,.inl ?_⟩
            · show c' < s'.nextConsumer
              rw [hsame.2.2]
              exact hlt
            · rcases hheard' with hcall | hout
              · exact .inl hcall
              · exact .inr (hsame.1 ▸ hout)
          · cases hc
        · cases hc
    · cases hp
  | _ =>
    intro p hp
    cases hp

private theorem step_resumed {s s' : Ins} {now : Nat} {q : Ptr} {out : Option Response} (hb : Base s)
    (ht : Tidy s.expiry) (hin : .post q ∈ s.handlers) (h : step s ⟨now,.resumePost q⟩ = .ok (s',out)) :
    Heard (Label.calls s ⟨now,.resumePost q⟩) s' .memqueue q := by
  simp only [step,hin,if_true] at h
  obtain ⟨t,hres,h⟩ := bind_ok h
  cases h
  obtain ⟨e,he,hres⟩ := bind_ok hres
  cases hres
  by_cases hq : q ∈ s.expiry.indexed .memqueue
  · refine .inl ⟨⟨.memqueue,q,(s.queues q).expiry⟩,?_,rfl,rfl⟩
    simp only [Label.calls,hin,if_true,ht.reschedCalls (by decide) hq,List.mem_singleton]
  · refine .inr ?_
    show q ∉ e.indexed .memqueue
    rw [(resched_spec hb.index.wf he).2]
    exact hq

/-- A POST stays in its write until it is resumed. -/
private theorem step_posts {s s' : Ins} {l : Label} {out : Option Response} (hb : Base s)
    (h : step s l = .ok (s',out)) {q : Ptr} (hin : .post q ∈ s.handlers) :
    .post q ∈ s'.handlers ∨ l.event = .resumePost q := by
  have hkeep : ∀ x, x ≠ .post q → .post q ∈ s.handlers.erase x := fun x hx => (List.mem_erase_of_ne hx.symm).mpr hin
  have hstep := step_handlers hb h
  generalize s'.handlers = L at hstep
  generalize l.event = e at hstep
  cases hstep with
  | same => exact .inl hin
  | post | delete | pollWait | pollWrite => exact .inl (List.mem_cons_of_mem _ hin)
  | wake => exact .inl (List.mem_cons_of_mem _ (hkeep _ (fun hx => by cases hx)))
  | @resume _ x hx _ =>
    by_cases heq : x = .post q
    · subst heq
      cases e with
      | resumePost p =>
        cases hx
        exact .inr rfl
      | _ => cases hx
    · exact .inl (hkeep x heq)

private theorem step_delay {s s' : Ins} {l : Label} {out : Option Response} (hb : Base s) (h : step s l = .ok (s',out))
    {type : ObjType} {o : Ptr} (ho : o < nextObj s type) : o < nextObj s' type ∧ s'.delay type o = s.delay type o := by
  obtain ⟨as,has,_⟩ := step_trace hb h
  refine trace_invariant has (fun t => o < nextObj t type ∧ t.delay type o = s.delay type o) ?_ hb ⟨ho,rfl⟩
  rintro a t u hbt _ ⟨hlt,he⟩ hm
  exact ⟨lt_of_lt_of_le hlt (hm.nextObj_le type),(hm.delay_eq hbt type hlt).trans he⟩

/-- An object that was heard stands a whole delay ahead. -/
private theorem heard_deadline {s s' : Ins} {l : Label} {out : Option Response} (hc : Coherent s) (hd : Delays s)
    (ht : Tidy s.expiry) (hfits : ∀ c ∈ l.calls s, l.now + c.msecs < 2^32) (h : step s l = .ok (s',out))
    {type : ObjType} {o : Ptr} (hheard : Heard (l.calls s) s' type o) {d : Nat} (hl : s'.expiry.linkedAt type d o) :
    d = l.now + s'.delay type o := by
  rcases hheard with ⟨c,hin,rfl,rfl⟩ | hout
  · obtain ⟨c',hin',htype,hobj,rfl⟩ := (step_index hc.base h).called ht.sound hin hl
    rw [Nat.mod_eq_of_lt (hfits c' hin'),((step_explained hc hd h).1 c' hin').msecs,htype,hobj]
  · exact absurd (mem_indexed_iff.mpr ⟨d,hl⟩) hout

/-- Whatever is on record stands a whole delay after it, or will when the write of its POST is over. -/
structure ActiveInv (x : Active) : Prop where
  coherent : Coherent x.ins
  delays : Delays x.ins
  tidy : Tidy x.ins.expiry
  past : ∀ p ∈ x.log, p.1 ≤ x.clock
  known : ∀ p ∈ x.log, p.2.1 ≠ .msg ∧ p.2.2 < nextObj x.ins p.2.1
  deferred : ∀ p ∈ x.log, ∀ d, x.ins.expiry.linkedAt p.2.1 d p.2.2 → p.1 + x.ins.delay p.2.1 p.2.2 ≤ d ∨
    p.2.1 = .memqueue ∧ .post p.2.2 ∈ x.ins.handlers

omit [Rebalance ExpiryNode] in
theorem activeInv_init : ActiveInv .init where
  coherent := coherent_init
  delays := delays_init
  tidy := tidy_empty
  past _ h := by cases h
  known _ h := by cases h
  deferred _ h := by cases h

theorem activeStep_keeps {x x' : Active} {l : Label} {out : Option Response} (hi : ActiveInv x) (htime : l.timely x)
    (ha : Apart l.now x.ins.expiry (l.calls x.ins)) (h : activeStep x l = .ok (x',out)) : ActiveInv x' := by
  obtain ⟨⟨s,out'⟩,hstep,h⟩ := bind_ok h
  cases h
  have hb := hi.coherent.base
  have hheard := step_heard hb hi.coherent.ledger hi.tidy ha hstep
  have hdead := fun {type o} => @heard_deadline _ _ _ _ _ hi.coherent hi.delays hi.tidy htime.2 hstep type o
  refine ⟨step_coherent hi.coherent hstep,(step_explained hi.coherent hi.delays hstep).2,
    step_tidy hb hi.coherent.ledger hi.tidy ha hstep,?_,?_,?_⟩
  · intro p hp
    rcases List.mem_append.mp hp with hp | hp
    · obtain ⟨_,_,rfl⟩ := List.mem_map.mp hp
      exact le_rfl
    · exact (hi.past p hp).trans htime.1
  · intro p hp
    rcases List.mem_append.mp hp with hp | hp
    · obtain ⟨y,hy,rfl⟩ := List.mem_map.mp hp
      exact (hheard y hy).1
    · obtain ⟨hne,hlt⟩ := hi.known p hp
      exact ⟨hne,(step_delay hb hstep hlt).1⟩
  · intro p hp d hl
    rcases List.mem_append.mp hp with hp | hp
    · obtain ⟨y,hy,rfl⟩ := List.mem_map.mp hp
      rcases (hheard y hy).2 with hy' | hwrite
      · exact .inl (hdead hy' hl).ge
      · exact .inr hwrite
    · obtain ⟨hne,hlt⟩ := hi.known p hp
      have hdelay := (step_delay hb hstep hlt).2
      have hle := (hi.past p hp).trans htime.1
      dsimp only
      rw [hdelay]
      rcases (step_index hb hstep).linkedAt hi.tidy.sound hl with hold | ⟨c,hc,htype,hobj,rfl⟩
      · rcases hi.deferred p hp d hold with hleft | ⟨hq,hwrite⟩
        · exact .inl hleft
        · rcases step_posts hb hstep hwrite with hstill | hresume
          · exact .inr ⟨hq,hstill⟩
          · obtain ⟨now,event⟩ := l
            dsimp only at hresume hle
            subst hresume
            have := hdead (hq ▸ step_resumed hb hi.tidy hwrite hstep) hl
            rw [hdelay] at this
            exact .inl (this ▸ Nat.add_le_add_right hle _)
      · refine .inl ?_
        rw [Nat.mod_eq_of_lt (htime.2 c hc),((step_explained hi.coherent hi.delays hstep).1 c hc).msecs,htype,hobj,
          hdelay]
        exact Nat.add_le_add_right hle _

/-- A queue that was sent a POST or a poll, or a consumer that has polled, is not released by a pass before its delay
is over. -/
theorem activity_keeps_alive {tr : List Label} {x : Active} {t now : Nat} {type : ObjType} {o : Ptr} {s' : Ins}
    {out : Option Response}
    (h : Run activeStep (fun x l => l.timely x ∧ Apart l.now x.ins.expiry (l.calls x.ins) ∧ l.settled x.ins) .init tr x)
    (hact : (t,type,o) ∈ x.log) (hset : Label.settled x.ins ⟨now,.expire type⟩)
    (hpass : step x.ins ⟨now,.expire type⟩ = .ok (s',out)) (hin : o ∈ x.ins.expiry.indexed type)
    (hout : o ∉ s'.expiry.indexed type) : t + x.ins.delay type o ≤ now := by
  have hi : ActiveInv x := by
    refine h.invariant (I := ActiveInv) ?_ activeInv_init
    rintro x l x' out hi ⟨htime,ha,_⟩ hs
    exact activeStep_keeps hi htime ha hs
  have hdue := pass_due hi.coherent.base hpass hin hout
  obtain ⟨d,hd,hl⟩ := dueIn_iff.mp hdue
  rcases hi.deferred _ hact d hl with hle | ⟨hq,hwrite⟩
  · exact hle.trans (hd.trans (Nat.mod_le _ _))
  · dsimp only at hq
    subst hq
    exact absurd hwrite (hset o hin hdue)

end Steps

/-- Two queues put in the same millisecond with the same expiry, and a poll of the second. -/
def sharedTrace : List Label :=
  [⟨0,.put ⟨100,0,0,0,[114]⟩⟩,⟨0,.put ⟨100,0,0,0,[113]⟩⟩,⟨50,.poll ⟨[⟨some [113],0,0,none,0⟩],1000⟩⟩]

/-- The second of two queues at one deadline is released 50 ms after a poll, with an expiry of 100 ms. -/
theorem polled_queue_released :
    letI := Rebalance.plain ExpiryNode
    ∃ x s' out, Run activeStep (fun x l => l.timely x) .init sharedTrace x ∧
      step x.ins ⟨100,.expire .memqueue⟩ = .ok (s',out) ∧ (50,.memqueue,1) ∈ x.log ∧ x.ins.delay .memqueue 1 = 100 ∧
      1 ∈ x.ins.expiry.indexed .memqueue ∧ 1 ∉ s'.expiry.indexed .memqueue := by
  let _ := Rebalance.plain ExpiryNode
  obtain ⟨⟨x,x',out⟩,hx,hobs⟩ := Option.map_eq_some_iff.mp
    (show (execStep activeStep (fun x l => decide (l.timely x)) .init
      sharedTrace ⟨100,.expire .memqueue⟩).map
    (fun r => (r.1.log,r.1.ins.delay .memqueue 1,r.1.ins.expiry.indexed .memqueue,r.2.1.ins.expiry.indexed .memqueue)) =
    some ([(50,.memqueue,1)],100,[1,0],[]) by decide +kernel)
  obtain ⟨hrun,hstep⟩ := Run.of_execStep hx
  obtain ⟨⟨s',out'⟩,hs,hstep⟩ := bind_ok hstep
  cases hstep
  simp only [Prod.mk.injEq] at hobs
  obtain ⟨hlog,hdelay,hbefore,hafter⟩ := hobs
  refine ⟨x,s',out,hrun.mono fun _ _ hg => by simpa using hg,hs,?_,hdelay,?_,?_⟩
  · rw [hlog]
    exact List.mem_singleton_self _
  · rw [hbefore]
    decide
  · rw [hafter]
    decide

/-- A queue polled at 50 with an expiry of 100 ms is released at 150. -/
theorem activity_keeps_alive_polled :
    letI := Rebalance.plain ExpiryNode
    ∃ x s' out, Run activeStep (fun x l => l.timely x ∧ Apart l.now x.ins.expiry (l.calls x.ins) ∧
      l.settled x.ins) .init
        [⟨0,.put ⟨100,0,0,0,[113]⟩⟩,⟨50,.poll ⟨[⟨some [113],0,0,none,0⟩],1000⟩⟩] x ∧
      step x.ins ⟨150,.expire .memqueue⟩ = .ok (s',out) ∧ 0 ∉ s'.expiry.indexed .memqueue ∧
        50 + x.ins.delay .memqueue 0 ≤ 150 := by
  let _ := Rebalance.plain ExpiryNode
  obtain ⟨⟨x,x',out⟩,hx,hobs⟩ := Option.map_eq_some_iff.mp (show (execStep activeStep
      (fun x l => decide (l.timely x ∧ Apart l.now x.ins.expiry (l.calls x.ins) ∧ l.settled x.ins)) .init
      [⟨0,.put ⟨100,0,0,0,[113]⟩⟩,⟨50,.poll ⟨[⟨some [113],0,0,none,0⟩],1000⟩⟩] ⟨150,.expire .memqueue⟩).map
    (fun r => (r.1.log,decide (Label.settled r.1.ins ⟨150,.expire .memqueue⟩),r.1.ins.expiry.indexed .memqueue,
      r.2.1.ins.expiry.indexed .memqueue)) = some ([(50,.memqueue,0)],true,[0],[]) by decide +kernel)
  obtain ⟨hrun,hstep⟩ := Run.of_execStep hx
  obtain ⟨⟨s',out'⟩,hs,hstep⟩ := bind_ok hstep
  cases hstep
  simp only [Prod.mk.injEq,decide_eq_true_eq] at hobs
  obtain ⟨hlog,hset,hbefore,hafter⟩ := hobs
  have hr := hrun.mono (Q := fun x l => l.timely x ∧ Apart l.now x.ins.expiry (l.calls x.ins) ∧ l.settled x.ins)
    fun _ _ hg => of_decide_eq_true hg
  have hgone : 0 ∉ s'.expiry.indexed .memqueue := by
    rw [hafter]
    decide
  refine ⟨x,s',out,hr,hs,hgone,activity_keeps_alive hr ?_ hset hs ?_ hgone⟩
  · rw [hlog]
    exact List.mem_singleton_self _
  · rw [hbefore]
    decide

end Memqueue
