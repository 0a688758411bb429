import Memqueue.Queue.Accounting

/-! What can go wrong in a step when nothing refers to a freed queue: a stale node pointer in the
expiry index, or a missing q_id or head of list. Never a reference count. -/
namespace Memqueue
open Ins Fallible Expiry

/-- The accesses a sound server can still fail at. -/
def Tolerated (f : Fault) : Prop := f = .freedNode ∨ f = .nullDeref

/-- All the accounts of a server that has freed nothing too early. -/
structure Sound (s : Ins) : Prop where
  base : Base s
  ledger : Ledger s
  owned : QueueInv s

theorem memqueueMsgRetain_isOk {s : Ins} {m : Ptr} (hlive : (s.queues (s.msgs m).memqueue).freed = false) :
    ∃ s', memqueueMsgRetain s m = .ok s' := by
  cases hx : memqueueMsgRetain s m with
  | ok s' => exact ⟨s',rfl⟩
  | error f =>
    have := memqueueRetain_fault hx
    simp [updMsg,hlive] at this

theorem memqueueMsgRelease_isOk {s : Ins} {m : Ptr} (hmsg : 1 ≤ (s.msgs m).refCount)
    (hlive : (s.queues (s.msgs m).memqueue).freed = false)
    (hpos : 1 ≤ (s.queues (s.msgs m).memqueue).refCount) : ∃ s', memqueueMsgRelease s m = .ok s' := by
  cases hx : memqueueMsgRelease s m with
  | ok s' => exact ⟨s',rfl⟩
  | error f =>
    rcases memqueueMsgRelease_fault hx with hf | hf | hf
    · omega
    · rw [hlive] at hf
      cases hf
    · omega

/-- A pending or scheduled message can be released. -/
theorem Sound.msgRelease_isOk {s t : Ins} (hs : Sound s) {m : Ptr} (hm : m < s.nextMsg)
    (hheld : m ∈ s.expiry.indexed .msg ∨ ∃ b, m ∈ (s.clis b).pendingMsgs) (hq : t.queues = s.queues)
    (hmsgs : t.msgs = s.msgs) : ∃ t', memqueueMsgRelease t m = .ok t' := by
  have hlive := hs.owned.msgs m hm hheld
  have hpos := hs.base.store.positive _ (hs.base.msgOwner m hm) hlive
  have hholders := holders_pos hs.ledger hheld
  have hin := hs.ledger.listed_of_holders hm hlive hholders
  have hrefs := hs.ledger.refs _ m hin hlive
  exact memqueueMsgRelease_isOk (by rw [hmsgs]; omega) (by rw [hmsgs,hq]; exact hlive)
    (by rw [hmsgs,hq]; exact hpos)

theorem isMemqueueFull_fault {s : Ins} {q : Ptr} {f : Fault} (hs : Sound s) (hq : q < s.nextQueue)
    (hlive : (s.queues q).freed = false) (h : isMemqueueFull s q = .error f) : Tolerated f := by
  simp only [isMemqueueFull] at h
  split at h
  · cases h
  · split at h
    · cases h
    · split at h
      · split at h
        · cases h
          exact .inr rfl
        · rename_i m ms hms
          exfalso
          have hin : m ∈ (s.queues q).msgQueue := by simp [hms]
          have hown := (hs.base.listed q m hin).2
          have hrefs := hs.ledger.refs q m hin hlive
          have hnn := holders_nonneg s m
          have hpos := hs.base.store.positive q hq hlive
          rcases bind_error h with ht | ⟨t,ht,h⟩
          · obtain ⟨t,ht'⟩ := memqueueMsgRetain_isOk (s := s) (m := m) (by rw [hown]; exact hlive)
            rw [ht'] at ht
            cases ht
          · obtain ⟨_,rfl⟩ := memqueueMsgRetain_effect ht
            rcases bind_error h with hu | ⟨_,_,h⟩
            · rcases memqueueMsgRelease_fault hu with hf | hf | hf
              · simp only [updQueue,updMsg,Function.update_self] at hf
                omega
              · simp only [updQueue,updMsg,Function.update_self,hown,hlive] at hf
                cases hf
              · simp only [updQueue,updMsg,Function.update_self,hown] at hf
                omega
            · cases h
      · cases h

section Handlers
variable [Rebalance ExpiryNode] {now : Nat}

theorem memqueueRefreshConsumer_fault {s : Ins} {q : Ptr} {id : Bytes} {f : Fault}
    (hlive : (s.queues q).freed = false) (h : memqueueRefreshConsumer now s q id = .error f) :
    f = .freedNode := by
  simp only [memqueueRefreshConsumer] at h
  split at h
  · rcases bind_error h with hx | ⟨_,_,h⟩
    · exact resched_fault hx
    · cases h
  · have hl₁ : ((newConsumer s q id).queues q).freed = false := by simpa [newConsumer,updQueue] using hlive
    rcases bind_error h with ht | ⟨t,ht,h⟩
    · exact absurd ht (memqueueMsgCreate_fault hl₁)
    · have hl₂ : (t.queues q).freed = false := by
        rw [(memqueueMsgCreate_effect ht).queues]
        simpa using hl₁
      rcases bind_error h with hr | ⟨u,_,h⟩
      · rw [memqueueRetain_fault hr] at hl₂
        cases hl₂
      · rcases bind_error h with he | ⟨_,_,h⟩
        · exact absurd he objSchedExpire_fault
        · cases h

theorem pollRefresh_fault {s : Ins} {q : Ptr} {a : QueueArg} {f : Fault}
    (hlive : (s.queues q).freed = false) (h : pollRefresh now s q a = .error f) : f = .freedNode := by
  simp only [pollRefresh] at h
  split at h
  · split at h
    · exact memqueueRefreshConsumer_fault hlive h
    · cases h
  · cases h

omit [Rebalance ExpiryNode] in
private theorem scan_fault {s : Ins} {b q : Ptr} {rev latest : Int} {f : Fault} (hlive : (s.queues q).freed = false)
    (hown : ∀ m ∈ (s.queues q).msgQueue, (s.msgs m).memqueue = q) :
    cliBinderEnqueueMsgs s b q rev latest ≠ .error f := by
  intro h
  refine ((foldlM_ensures (E := fun _ => False) (fun (L : List Ptr) (acc : Ins × Nat) =>
    (acc.1.queues q).freed = false ∧ ∀ m ∈ L, (acc.1.msgs m).memqueue = q) ?_ _ _ ⟨hlive,hown⟩).failure h)
  rintro m L ⟨t,n⟩ ⟨hl,ho⟩
  have hm : (t.msgs m).memqueue = q := ho m List.mem_cons_self
  have hl : (t.queues q).freed = false := hl
  refine ensures_intro (fun acc hx => ?_) (fun e hx => ?_)
  · simp only [enqueueMatching] at hx
    split at hx
    · obtain ⟨u,hu,hx⟩ := bind_ok hx
      cases hx
      obtain ⟨_,rfl⟩ := cliBinderEnqueueMsg_effect hu
      refine ⟨?_,fun p hp => ?_⟩
      · rw [← hm] at hl ⊢
        simpa [updQueue,updMsg,updCli] using hl
      · have hp' : (t.msgs p).memqueue = q := ho p (List.mem_cons_of_mem _ hp)
        by_cases hpm : p = m
        · subst hpm
          simpa [updQueue,updMsg,updCli] using hp'
        · simpa [updQueue,updMsg,updCli,hpm] using hp'
    · cases hx
      exact ⟨hl,fun p hp => ho p (List.mem_cons_of_mem _ hp)⟩
  · simp only [enqueueMatching] at hx
    split at hx
    · rcases bind_error hx with hx | ⟨_,_,hx⟩
      · have hf : (t.queues (t.msgs m).memqueue).freed = true := cliBinderEnqueueMsg_fault hx
        rw [hm,hl] at hf
        cases hf
      · cases hx
    · cases hx

theorem pollFound_fault {s : Ins} {b q : Ptr} {a : QueueArg} {f : Fault} (hb : Base s)
    (hlive : (s.queues q).freed = false) (hq : q < s.nextQueue)
    (h : pollFound now b a s q = .error f) : f = .freedNode := by
  rcases bind_error h with h₁ | ⟨s₁,h₁,h⟩
  · exact pollRefresh_fault hlive h₁
  · rcases bind_error h with he | ⟨e,he,h⟩
    · exact resched_fault he
    · obtain ⟨as,ht,_⟩ := pollRefresh_trace hb hlive hq h₁
      have hb₁ := trace_base ht hb
      obtain ⟨hl₁,_,_⟩ := pollRefresh_keeps hb hlive hq h₁
      refine absurd h (scan_fault ?_ ?_)
      · simpa [memqueueBind,updQueue,updCli] using hl₁
      · intro m hm
        have hm' : m ∈ (s₁.queues q).msgQueue := by simpa [memqueueBind,updQueue,updCli] using hm
        exact (hb₁.listed q m hm').2

theorem memqueuePollQueue_fault {s : Ins} {args : PollArgs} {f : Fault} (hb : Base s)
    (h : memqueuePollQueue now s args = .error f) : Tolerated f := by
  rcases bind_error h with h | ⟨_,_,h⟩
  · have hnew : Base (addCli s args.timeout) := (show Move now _ s _ from .newCli s args.timeout).base hb
    refine (foldlM_ensures (E := Tolerated) (fun _ (acc : PollAcc) => Base acc.1 ∧ s.nextCli < acc.1.nextCli)
      ?_ _ _ ⟨hnew,Nat.lt_succ_self _⟩).failure h
    rintro a _ acc ⟨hb₀,hcli⟩
    refine ensures_intro (fun acc' hx => ?_) (fun e hx => ?_)
    · obtain ⟨as,has,_⟩ := pollLoop_trace hb₀ hcli
        (show [a].foldlM (pollQueueArg now s.nextCli) (acc.1,acc.2.1,acc.2.2) = .ok acc' by simpa using hx)
      exact ⟨trace_base has hb₀,
        has.invariant (fun _ _ _ _ hlt hm => lt_of_lt_of_le hlt hm.next_le.2.2.2) hcli⟩
    · simp only [pollQueueArg] at hx
      split at hx
      · cases hx
        exact .inr rfl
      · split at hx
        · cases hx
        · rename_i q hget
          obtain ⟨hq,hlive,_⟩ := hb₀.store.get_iff.mp hget
          rcases bind_error hx with hx | ⟨_,_,hx⟩
          · exact .inl (pollFound_fault hb₀ hlive hq hx)
          · cases hx
  · dsimp only at h
    split at h
    · cases h
    · split at h <;> cases h

theorem pollFinish_fault (now : Nat) {s : Ins} {b : Ptr} {f : Fault} (hs : Sound s) : pollFinish s b ≠ .error f := by
  intro h
  have hunbind : Move now (.unbindAll b) s (memqueueUnbindAll s b) := .unbindAll s b
  refine (foldlM_ensures (E := fun _ => False) (fun (L : List Ptr) (t : Ins) => Sound t ∧
    (t.clis b).pendingMsgs = L) ?_ _ _ ⟨⟨hunbind.base hs.base,hunbind.ledger hs.base hs.ledger,
      hunbind.queueInv hs.base hs.ledger hs.owned trivial⟩,rfl⟩).failure h
  rintro m L t ⟨ht,hp⟩
  have hmem : m ∈ (t.clis b).pendingMsgs := by simp [hp]
  refine ensures_intro (fun u hx => ?_) (fun e hx => ?_)
  · obtain ⟨v,hv,hx⟩ := bind_ok hx
    cases hx
    have hr := memqueueMsgRelease_effect hv
    have hm : Move now (.unpend b m) t (unpend v b m) := .unpend hmem hr
    refine ⟨⟨hm.base ht.base,hm.ledger ht.base ht.ledger,hm.queueInv ht.base ht.ledger ht.owned trivial⟩,?_⟩
    simp [updCli,hr.clis,hp]
  · rcases bind_error hx with hx | ⟨_,_,hx⟩
    · obtain ⟨v,hv⟩ := ht.msgRelease_isOk (ht.ledger.pending b m hmem) (.inr ⟨b,hmem⟩) rfl rfl
      rw [hv] at hx
      cases hx
    · cases hx

theorem consumerExpired_fault {s : Ins} {c : Ptr} {f : Fault}
    (hlive : (s.queues (s.consumers c).memqueue).freed = false)
    (hpos : 1 ≤ (s.queues (s.consumers c).memqueue).refCount) : consumerExpired now s c ≠ .error f := by
  intro h
  simp only [consumerExpired] at h
  rcases bind_error h with h | ⟨u,hu,h⟩
  · exact memqueueMsgCreate_fault hlive h
  · rcases bind_error h with h | ⟨_,_,h⟩
    · have hself := congrFun (memqueueMsgCreate_effect hu).queues (s.consumers c).memqueue
      rw [Function.update_self] at hself
      have hnn := initialRef_nonneg 2000
      rcases memqueueRelease_fault h with hf | hf
      · rw [hself] at hf
        rw [show (s.queues (s.consumers c).memqueue).freed = true from hf] at hlive
        cases hlive
      · simp only [hself] at hf
        omega
    · cases h

theorem expireObj_fault {type : ObjType} {s : Ins} {o : Ptr} {f : Fault} (hs : Sound s)
    (ho : o ∈ s.expiry.indexed type) : expireObj (expiryHost now) type s o ≠ .error f := by
  intro h
  rcases bind_error h with h | ⟨_,_,h⟩
  · cases type with
    | msg =>
      obtain ⟨v,hv⟩ := hs.msgRelease_isOk (t := setExpiry s (listRemove s.expiry .msg o))
        (hs.base.index.allocated .msg o ho) (.inl ho) rfl rfl
      have h' : memqueueMsgRelease (setExpiry s (listRemove s.expiry .msg o)) o = .error f := h
      rw [hv] at h'
      cases h'
    | memqueue =>
      have hlive := (hs.owned.queues o ho).1
      have hpos := hs.base.store.positive o (hs.base.index.allocated .memqueue o ho) hlive
      rcases memqueueRelease_fault h with hf | hf
      · have hf' : (s.queues o).freed = true := hf
        rw [hlive] at hf'
        cases hf'
      · have hf' : (s.queues o).refCount < 1 := hf
        omega
    | consumer =>
      have hlive := hs.owned.consumers o ho
      have hq := hs.base.consumerOwner o (hs.base.index.allocated .consumer o ho)
      have hpos := hs.base.store.positive _ hq hlive
      exact consumerExpired_fault (s := setExpiry s (listRemove s.expiry .consumer o)) hlive hpos h
  · cases h

/-- What the moves of a pass preserve, for a sound server. -/
private theorem trace_sound {as : List Atom} {s s' : Ins} (h : Trace (Move now) as s s') (hs : Sound s)
    (ha : ∀ a ∈ as, ∀ t, a.owns t) : Sound s' :=
  h.invariant (fun a t _ hx ht hm => ⟨hm.base ht.base,hm.ledger ht.base ht.ledger,
    hm.queueInv ht.base ht.ledger ht.owned (ha a hx t)⟩) hs

/-- A pass keeps the server sound, and only a freed node can stop it. -/
theorem objsExpire_sound {type : ObjType} {s : Ins} (hs : Sound s) :
    Ensures (objsExpire (expiryHost now) now type s) Sound (· = .freedNode) := by
  refine (objsExpire_rule now type Sound (fun _ ht => ht.base) ?_ ?_ hs).mono (fun _ ht => ht) ?_
  · intro t t' o ht hdue _ hx
    obtain ⟨as,has,ha⟩ := expireObj_trace ht.base hdue.mem hdue (.refl t) hx
    refine trace_sound has ht fun a hm t => ?_
    have hallow := ha a hm
    cases a with
    | release => cases type <;> cases hallow
    | _ => trivial
  · intro t t' ht hm
    exact ⟨hm.base ht.base,hm.ledger ht.base ht.ledger,hm.queueInv ht.base ht.ledger ht.owned trivial⟩
  · rintro f (hf | ⟨t,o,ht,hdue,ho⟩)
    · exact hf
    · exact absurd ho (expireObj_fault ht hdue.mem)

theorem objsExpire_fault {type : ObjType} {s : Ins} {f : Fault} (hs : Sound s)
    (h : objsExpire (expiryHost now) now type s = .error f) : f = .freedNode :=
  (objsExpire_sound hs).failure h

/-- The finishing DELETE, if there is one, still has a queue to release. -/
def deleteOwns (s : Ins) (l : Label) : Prop :=
  ∀ q, l.event = .resumeDelete q → .delete q ∈ s.handlers → q < s.nextQueue ∧ (s.queues q).freed = false

/-- In a sound server no assertion on a reference count fails and no freed queue is touched. -/
theorem step_fault {s : Ins} {l : Label} {f : Fault} (hs : Sound s) (hd : deleteOwns s l)
    (h : step s l = .error f) : Tolerated f := by
  obtain ⟨now,event⟩ := l
  cases event with
  | put args =>
    simp only [step,onQueueCreate] at h
    split at h
    · cases h
    · rcases bind_error h with h | ⟨_,_,h⟩
      · exact absurd h memqueueCreate_fault
      · cases h
  | post qId expiry body =>
    simp only [step,onMsgPost] at h
    split at h
    · cases h
    · rename_i q hget
      obtain ⟨hq,hlive,_⟩ := hs.base.store.get_iff.mp hget
      rcases bind_error h with h | ⟨⟨t,full⟩,ht,h⟩
      · exact isMemqueueFull_fault hs hq hlive h
      · dsimp only at h
        split at h
        · cases h
        · have hl : (t.queues q).freed = false := by
            rcases isMemqueueFull_cases now hs.base ht with ⟨_,rfl,_⟩ | ⟨_,rfl,_⟩ | ⟨_,_,_,_,m,_,_,hm⟩
            · exact hlive
            · exact hlive
            · exact hm.drop_live hs.base.store hq hlive
          rcases bind_error h with h | ⟨_,_,h⟩
          · exact absurd h (memqueueMsgCreate_fault hl)
          · cases h
  | poll args => exact memqueuePollQueue_fault hs.base h
  | delete qId => cases h
  | head qId => cases h
  | wake b =>
    simp only [step] at h
    split at h <;> cases h
  | resumePost q =>
    simp only [step] at h
    split at h
    · rcases bind_error h with h | ⟨_,_,h⟩
      · rcases bind_error h with h | ⟨_,_,h⟩
        · exact .inl (resched_fault h)
        · cases h
      · cases h
    · cases h
  | resumeDelete q =>
    simp only [step] at h
    split at h
    · rename_i hin
      obtain ⟨hq,hlive⟩ := hd q rfl hin
      have hpos := hs.base.store.positive q hq hlive
      rcases bind_error h with h | ⟨_,_,h⟩
      · rcases memqueueRelease_fault h with hf | hf
        · have hf' : (s.queues q).freed = true := hf
          rw [hlive] at hf'
          cases hf'
        · have hf' : (s.queues q).refCount < 1 := hf
          omega
      · cases h
    · cases h
  | resumePoll b =>
    simp only [step] at h
    split at h
    · rcases bind_error h with h | ⟨_,_,h⟩
      · have hw : Move now (.wakeup (.pollWrite b)) s (wakeHandler s (.pollWrite b)) := .wakeup s _
        exact absurd h (pollFinish_fault now ⟨hw.base hs.base,hw.ledger hs.base hs.ledger,
          hw.queueInv hs.base hs.ledger hs.owned trivial⟩)
      · cases h
    · cases h
  | expire type =>
    rcases bind_error h with h | ⟨_,_,h⟩
    · exact .inl (objsExpire_fault hs h)
    · cases h

end Handlers
end Memqueue
