import Memqueue.Queue.Pollers

/-! What a poll of one queue returns: the messages it scanned and those created while it waited,
each once and in order. Polls that go on from the reported revision miss and repeat nothing. -/
namespace Memqueue
open Ins Fallible Expiry

/-- `t` comes after `s`, seen from `q`: messages keep their contents, none comes back to the list, and
new ones have revisions beyond those of `s`. -/
structure Later (q : Ptr) (s t : Ins) : Prop where
  queue : q < t.nextQueue
  next : s.nextMsg ≤ t.nextMsg
  count : s.created q ≤ t.created q
  same : ∀ m < s.nextMsg, SameMsg (s.msgs m) (t.msgs m)
  listed : ∀ m ∈ (t.queues q).msgQueue, m < s.nextMsg → m ∈ (s.queues q).msgQueue
  fresh : ∀ m, s.nextMsg ≤ m → m < t.nextMsg → (t.msgs m).memqueue = q → t.created q < 2^31 →
    s.created q < (t.msgs m).rev

theorem Later.refl {q : Ptr} {s : Ins} (hq : q < s.nextQueue) : Later q s s :=
  ⟨hq,le_rfl,le_rfl,fun _ _ => .refl _,fun _ hm _ => hm,fun _ h₁ h₂ => absurd h₂ (Nat.not_lt.mpr h₁)⟩

theorem SameMsg.trans {x y z : Msg} (h : SameMsg x y) (h' : SameMsg y z) : SameMsg x z :=
  ⟨h'.memqueue.trans h.memqueue,h'.rev.trans h.rev,h'.data.trans h.data,h'.expiry.trans h.expiry⟩

theorem Later.trans {q : Ptr} {s t u : Ins} (h : Later q s t) (h' : Later q t u) : Later q s u where
  queue := h'.queue
  next := h.next.trans h'.next
  count := h.count.trans h'.count
  same m hm := (h.same m hm).trans (h'.same m (lt_of_lt_of_le hm h.next))
  listed m hm hlt := h.listed m (h'.listed m hm (lt_of_lt_of_le hlt h.next)) hlt
  fresh m hle hlt hown hsmall := by
    by_cases hm : m < t.nextMsg
    · have hsame := h'.same m hm
      rw [hsame.memqueue] at hown
      rw [hsame.rev]
      exact h.fresh m hle hm hown (lt_of_le_of_lt h'.count hsmall)
    · have := h'.fresh m (Nat.le_of_not_lt hm) hlt hown hsmall
      have := h.count
      omega

/-- The messages of `q` created from address `n` on. -/
def Ins.since (s : Ins) (n q : Ptr) : List Ptr :=
  (List.range s.nextMsg).filter fun m => n ≤ m ∧ (s.msgs m).memqueue = q

/-- The moves made by the poller `b` itself. -/
def Atom.minds (b : Ptr) : Atom → Prop
  | .bind β => β.cliBinder = b
  | .unbindAll p | .enqueue p _ | .unpend p _ => p = b
  | _ => False

/-- The poller `b` is bound to `q` alone, after a scan in `sc` that found `L`. -/
structure Waiting (sc : Ins) (q b : Ptr) (β : MemqueueBinder) (L : List Ptr) (t : Ins) : Prop where
  later : Later q sc t
  cli : b < t.nextCli
  bound : (t.clis b).memqueues = [β]
  pending : t.created q < 2^31 → (t.clis b).pendingMsgs = L ++ t.since sc.nextMsg q

/-- A poller with the one binder `β` takes a new message exactly when `β` does. -/
private theorem push_single {s : Ins} {b p : Ptr} {β : MemqueueBinder} {r : Int} (hi : Bindings s)
    (hβ : (s.clis b).memqueues = [β]) :
    pushCountTo (s.queues p).memqueueBinders r b = if β.memqueue = p ∧ β.rev ≤ r then 1 else 0 := by
  rw [hi.pushCountTo_eq,hβ]
  by_cases hp : β.memqueue = p
  · by_cases hr : β.rev ≤ r
    · simp [hp,hr]
    · simp [hp,hr]
  · simp [hp]

section Moves
variable [Rebalance ExpiryNode] {now : Nat}

theorem Move.later {a : Atom} {s t : Ins} {q : Ptr} (hm : Move now a s t) (hi : RevInv s)
    (hq : q < s.nextQueue) : Later q s t where
  queue := lt_of_lt_of_le hq hm.next_le.2.1
  next := hm.next_le.1
  count := by
    rw [hm.created_eq]
    omega
  same _ hlt := hm.sameMsg hlt
  listed m hin hlt := by
    rcases hm.msgQueue hq with he | ⟨_,_,_,he⟩ | ⟨p,_,_,_,he⟩
    · rwa [he] at hin
    · rw [he] at hin
      rcases List.mem_append.mp hin with hin | hin
      · exact hin
      · rw [List.mem_singleton.mp hin] at hlt
        exact absurd hlt (lt_irrefl _)
    · rw [he] at hin
      exact List.mem_of_mem_erase hin
  fresh m hle hlt hown hsmall := by
    obtain ⟨hrev,hnext⟩ := hm.new_rev hi (Nat.not_lt.mpr hle) hlt (hown.symm ▸ hsmall)
    rw [hrev,hown] at *
    omega

private theorem since_eq {a : Atom} {s t : Ins} {n q : Ptr} (hm : Move now a s t) (hn : n ≤ s.nextMsg) :
    t.since n q = s.since n q ++ if a.creates q then [s.nextMsg] else [] := by
  have hold : (List.range s.nextMsg).filter (fun m => n ≤ m ∧ (t.msgs m).memqueue = q) = s.since n q := by
    apply List.filter_congr
    intro m hlt
    rw [(hm.sameMsg (List.mem_range.mp hlt)).memqueue]
  cases a with
  | create p msecs data =>
    cases hm with
    | create _ _ hc =>
      have hp : (t.msgs s.nextMsg).memqueue = p := by
        rw [hc.msgs,Function.update_self]
      rw [Ins.since,hc.nextMsg,List.range_succ,List.filter_append,hold]
      by_cases hpq : p = q
      · simp [hp,hn,hpq,Atom.creates]
      · simp [hp,hpq,Atom.creates]
  | _ =>
    rcases hm.nextMsg with he | ⟨_,_,_,hx,_⟩
    · rw [Ins.since,he,hold]
      simp [Atom.creates]
    · cases hx

/-- While others move, the poller's list grows by exactly the new messages of its queue. -/
theorem Waiting.move {a : Atom} {sc s t : Ins} {q b : Ptr} {β : MemqueueBinder} {L : List Ptr}
    (h : Waiting sc q b β L s) (hβ : β.memqueue = q) (hs : Stable s) (hm : Move now a s t)
    (ha : ¬ a.minds b) : Waiting sc q b β L t := by
  obtain ⟨_,hl,hi,hbd⟩ := hs
  have hq := h.later.queue
  have hlater := h.later.trans (hm.later hi hq)
  refine ⟨hlater,lt_of_lt_of_le h.cli hm.next_le.2.2.2,?_,fun hsmall => ?_⟩
  · rcases hm.memqueues b with he | ⟨_,rfl,hn,_⟩ | ⟨β',rfl,hn,_⟩ | ⟨rfl,_⟩
    · exact he.trans h.bound
    · exact absurd h.cli (Nat.not_lt.mpr hn.ge)
    · exact absurd hn.symm ha
    · exact absurd rfl ha
  · have hold := h.pending (lt_of_le_of_lt (hm.later hi hq).count hsmall)
    rw [since_eq hm h.later.next,← List.append_assoc,← hold]
    cases a with
    | create p msecs data =>
      have hcount := hm.created_eq q
      cases hm with
      | create _ _ hc =>
        rw [hc.pending,push_single hbd h.bound,hβ]
        by_cases hp : p = q
        · -- the binder's revision is not beyond the queue's, so the message is taken
          subst hp
          have hbound : β ∈ (s.queues p).memqueueBinders := by
            subst hβ
            obtain rfl := hbd.own b β (by rw [h.bound]; exact List.mem_singleton_self β)
            rw [hbd.mem_iff,h.bound]
            exact List.mem_singleton_self β
          simp only [Atom.creates,decide_true,if_true] at hcount
          have hrev := hi.bound p hq β hbound (by omega)
          have hle : β.rev ≤ nextRev (s.queues p) := by
            rw [nextRev,hi.rev p hq,wrapInt_add_one,wrapInt_of_lt (by omega)]
            push_cast
            omega
          simp [Atom.creates,hle]
        · simp [Atom.creates,hp,Ne.symm hp]
    | _ =>
      rcases hm.pendingMsgs (b := b) fun hn => hl.pollers b hn with he | ⟨_,_,_,hx,_⟩ | ⟨_,hx,_⟩ | ⟨_,hx,_⟩
      · simp [he,Atom.creates]
      · cases hx
      · exact absurd (by rw [hx]; rfl) ha
      · exact absurd (by rw [hx]; rfl) ha

end Moves

private theorem HandlerStep.wait_of {s : Ins} {e : Event} {L : List Handler} {b : Ptr} (h : HandlerStep s e L)
    (hb : b < s.nextCli) (hin : .pollWait b ∈ L) : .pollWait b ∈ s.handlers := by
  cases h with
  | same => exact hin
  | post => simpa using hin
  | delete => simpa using hin
  | pollWait =>
    rcases List.mem_cons.mp hin with he | hin
    · cases he
      exact absurd hb (lt_irrefl _)
    · exact hin
  | pollWrite => simpa using hin
  | wake =>
    rcases List.mem_cons.mp hin with he | hin
    · cases he
    · exact List.mem_of_mem_erase hin
  | resume => exact List.mem_of_mem_erase hin

/-- Nobody else moves on behalf of a waiting poller. -/
private theorem others_mind {s : Ins} {l : Label} {a : Atom} {b : Ptr} (hb : b < s.nextCli)
    (hw : .pollWrite b ∉ s.handlers) (ha : l.allows s a) : ¬ a.minds b := by
  intro hm
  obtain ⟨now,event⟩ := l
  cases event with
  | put args => cases ha; exact hm
  | post k expiry body => rcases ha with ⟨m,rfl⟩ | ⟨q,_,rfl⟩ | ⟨q,rfl⟩ <;> exact hm
  | poll args =>
    cases a with
    | bind β => exact absurd hb (Nat.not_lt.mpr (ha.symm.trans hm).le)
    | enqueue p m => exact absurd hb (Nat.not_lt.mpr (ha.symm.trans hm).le)
    | unbindAll p => exact ha
    | unpend p m => exact ha
    | _ => exact hm
  | delete k => obtain ⟨q,rfl⟩ := ha; exact hm
  | head k => exact ha
  | wake c => rcases ha with rfl | rfl | rfl <;> exact hm
  | resumePost q => rcases ha with rfl | rfl <;> exact hm
  | resumeDelete q => rcases ha with ⟨_,rfl | rfl⟩ <;> exact hm
  | resumePoll c =>
    obtain ⟨hin,rfl | rfl | ⟨m,rfl⟩⟩ := ha
    · exact hm
    · exact hw (hm ▸ hin)
    · exact hw (hm ▸ hin)
  | expire type => cases a <;> cases type <;> first | exact ha | exact hm

private theorem addResult_fold {s : Ins} {b q : Ptr} : ∀ (L : List Ptr) (x : QueueResult),
    (∀ m ∈ L, (s.msgs m).memqueue = q) → L.foldl (addResult s b) [((s.queues q).qId,x)] =
      [((s.queues q).qId,{ x with messages := x.messages ++ L.map fun m => (s.msgs m).data })] := by
  intro L
  induction L with
  | nil =>
    intro x _
    simp
  | cons m L ih =>
    intro x hL
    have hm := hL m List.mem_cons_self
    have hget : Table.get [((s.queues q).qId,x)] (s.queues q).qId = some x := by simp [Table.get]
    rw [List.foldl_cons,show addResult s b [((s.queues q).qId,x)] m =
      [((s.queues q).qId,{ x with messages := x.messages ++ [(s.msgs m).data] })] by simp [addResult,hm,hget]]
    rw [ih _ fun n hn => hL n (List.mem_cons_of_mem _ hn)]
    simp

/-- The result of a poller whose messages are all of one queue. -/
private theorem createResult_single {s : Ins} {b q : Ptr} (hne : (s.clis b).pendingMsgs ≠ [])
    (hown : ∀ m ∈ (s.clis b).pendingMsgs, (s.msgs m).memqueue = q) : ∃ consumers, memqueueCreateResult s b =
      [((s.queues q).qId,⟨(s.clis b).pendingMsgs.map fun m => (s.msgs m).data,(s.queues q).rev,consumers⟩)] := by
  unfold memqueueCreateResult
  cases hL : (s.clis b).pendingMsgs with
  | nil => exact absurd hL hne
  | cons m L =>
    rw [hL] at hown
    rw [List.foldl_cons]
    refine ⟨if (s.clis b).memqueues.any fun β => β.memqueue = q ∧ β.includeConsumers ≠ 0 then
      some (Table.keys (s.queues q).consumers) else none,?_⟩
    rw [show addResult s b [] m = [((s.queues q).qId,⟨[(s.msgs m).data],(s.queues q).rev,
      if (s.clis b).memqueues.any fun β => β.memqueue = q ∧ β.includeConsumers ≠ 0 then
      some (Table.keys (s.queues q).consumers) else none⟩)] by
        simp [addResult,hown m List.mem_cons_self,Table.get,Table.insert]]
    rw [addResult_fold L _ fun n hn => hown n (List.mem_cons_of_mem _ hn)]
    simp

/-- What an answered poll has seen. -/
private structure Answered (q : Ptr) (r : Int) (s sc t s' : Ins) (resp : Response) : Prop where
  stable : Stable t
  coherent : Coherent s'
  start : Later q s sc
  wait : Later q sc t
  after : Later q t s'
  pending : r ≤ (s.queues q).rev → t.created q < 2^31 → (t.clis s.nextCli).pendingMsgs =
    (sc.queues q).msgQueue.filter (fun m => r < (sc.msgs m).rev) ++ t.since sc.nextMsg q
  scan : Stable sc
  answer : ((t.clis s.nextCli).pendingMsgs = [] ∧ resp.ret = .timeout) ∨
    ((t.clis s.nextCli).pendingMsgs ≠ [] ∧ resp = memqueueRespond t .msgs s.nextCli)

/-- A revision the queue has reached is the one the poller is bound at. -/
private theorem pollRev_eq {s sc : Ins} {q : Ptr} {a : QueueArg} (hs : Stable s) (hsc : Stable sc)
    (hlater : Later q s sc) (hq : q < s.nextQueue) (hr : a.rev ≤ (s.queues q).rev) (hfew : sc.created q < 2^31) :
    pollRev sc q a = a.rev := by
  have h₁ := hs.revs.rev q hq
  have h₂ := hsc.revs.rev q hlater.queue
  have hle := hlater.count
  rw [wrapInt_of_lt (by omega)] at h₁ h₂
  unfold pollRev
  rw [if_neg]
  omega

private theorem wanted_eq {s : Ins} {r : Int} : wanted s r 0 = fun m => decide (r < (s.msgs m).rev) := by
  funext m
  simp [wanted]

private theorem mem_since {s : Ins} {n q m : Ptr} :
    m ∈ s.since n q ↔ n ≤ m ∧ m < s.nextMsg ∧ (s.msgs m).memqueue = q := by
  simp only [Ins.since,List.mem_filter,List.mem_range,decide_eq_true_eq]
  tauto

section Answers
variable {q : Ptr} {r : Int} {s sc t s' : Ins} {resp : Response} (h : Answered q r s sc t s' resp)
include h

private theorem Answered.scanned_msg {m : Ptr} (hm : m ∈ (sc.queues q).msgQueue) :
    m < sc.nextMsg ∧ SameMsg (sc.msgs m) (t.msgs m) ∧ (t.msgs m).memqueue = q := by
  obtain ⟨hlt,hown⟩ := h.scan.base.listed q m hm
  have hsame := h.wait.same m hlt
  exact ⟨hlt,hsame,hsame.memqueue.trans hown⟩

private theorem Answered.rev_le {m : Ptr} (hfew : t.created q < 2^31) (hlt : m < t.nextMsg)
    (hown : (t.msgs m).memqueue = q) : (t.msgs m).rev ≤ (t.queues q).rev := by
  have hrange := h.stable.revs.range m hlt (by rw [hown]; exact hfew)
  rw [h.stable.revs.rev q h.wait.queue,wrapInt_of_lt hfew]
  rw [hown] at hrange
  exact hrange.2

private theorem Answered.rev_gt {m : Ptr} (hs : Stable s) (hq : q < s.nextQueue) (hr : r ≤ (s.queues q).rev)
    (hfew : t.created q < 2^31) (hm : m ∈ t.since sc.nextMsg q) : r < (t.msgs m).rev := by
  obtain ⟨hle,hlt,hown⟩ := mem_since.mp hm
  have hnew := h.wait.fresh m hle hlt hown hfew
  have hrev := hs.revs.rev q hq
  have h₁ := h.start.count
  have h₂ := h.wait.count
  rw [wrapInt_of_lt (by omega)] at hrev
  omega

private theorem Answered.mem_iff {m : Ptr} (hs : Stable s) (hq : q < s.nextQueue) (hr : r ≤ (s.queues q).rev)
    (hfew : t.created q < 2^31) : m ∈ (t.clis s.nextCli).pendingMsgs ↔
      r < (t.msgs m).rev ∧ (t.msgs m).rev ≤ (t.queues q).rev ∧ (m ∈ (sc.queues q).msgQueue ∨
        sc.nextMsg ≤ m ∧ m < t.nextMsg ∧ (t.msgs m).memqueue = q) := by
  rw [h.pending hr hfew,List.mem_append,List.mem_filter,decide_eq_true_eq,← mem_since]
  constructor
  · rintro (⟨hin,hrev⟩ | hin)
    · obtain ⟨hlt,hsame,hown⟩ := h.scanned_msg hin
      refine ⟨by rw [hsame.rev]; exact hrev,?_,.inl hin⟩
      exact h.rev_le hfew (lt_of_lt_of_le hlt h.wait.next) hown
    · obtain ⟨_,hlt,hown⟩ := mem_since.mp hin
      exact ⟨h.rev_gt hs hq hr hfew hin,h.rev_le hfew hlt hown,.inr hin⟩
  · rintro ⟨hrev,_,hin | hin⟩
    · rw [(h.scanned_msg hin).2.1.rev] at hrev
      exact .inl ⟨hin,hrev⟩
    · exact .inr hin

private theorem Answered.own {m : Ptr} (hr : r ≤ (s.queues q).rev) (hfew : t.created q < 2^31)
    (hm : m ∈ (t.clis s.nextCli).pendingMsgs) : m < t.nextMsg ∧ (t.msgs m).memqueue = q := by
  rw [h.pending hr hfew,List.mem_append,List.mem_filter] at hm
  rcases hm with ⟨hin,_⟩ | hin
  · obtain ⟨hlt,_,hown⟩ := h.scanned_msg hin
    exact ⟨lt_of_lt_of_le hlt h.wait.next,hown⟩
  · exact (mem_since.mp hin).2

/-- Scanned messages come before new ones, and either are in the order of their creation. -/
private theorem Answered.sorted (hr : r ≤ (s.queues q).rev) (hfew : t.created q < 2^31) :
    (t.clis s.nextCli).pendingMsgs.Pairwise fun m n => (t.msgs m).rev < (t.msgs n).rev := by
  have hptr : (t.clis s.nextCli).pendingMsgs.Pairwise (· < ·) := by
    rw [h.pending hr hfew,List.pairwise_append]
    refine ⟨(h.scan.ledger.sorted q).filter _,List.pairwise_lt_range.filter _,fun m hm n hn => ?_⟩
    have hlt := (h.scanned_msg (List.mem_filter.mp hm).1).1
    exact lt_of_lt_of_le hlt (mem_since.mp hn).1
  refine hptr.imp_of_mem fun {m n} hm hn hlt => ?_
  obtain ⟨_,hom⟩ := h.own hr hfew hm
  obtain ⟨hln,hon⟩ := h.own hr hfew hn
  exact h.stable.revs.order m n hlt hln (hom.trans hon.symm) (by rw [hon]; exact hfew)

end Answers

/-- A chain has received every message up to its revision that is still in the list, and each once. -/
private structure Received (q : Ptr) (r₀ r : Int) (A : List Ptr) (s : Ins) : Prop where
  lower : r₀ ≤ r
  upper : r ≤ s.created q
  nodup : A.Nodup
  range : ∀ m ∈ A, m < s.nextMsg ∧ (s.msgs m).rev ≤ r
  cover : ∀ m ∈ (s.queues q).msgQueue, r₀ < (s.msgs m).rev → (s.msgs m).rev ≤ r → m ∈ A

/-- A message of a later list with a revision already reached was in the earlier list. -/
private theorem Later.listed_before {q m : Ptr} {s t : Ins} {r : Int} (h : Later q s t) (ht : Stable t)
    (hfew : t.created q < 2^31) (hr : r ≤ s.created q) (hm : m ∈ (t.queues q).msgQueue) (hle : (t.msgs m).rev ≤ r) :
    m ∈ (s.queues q).msgQueue ∧ m < s.nextMsg := by
  obtain ⟨hlt,hown⟩ := ht.base.listed q m hm
  by_cases hold : m < s.nextMsg
  · exact ⟨h.listed m hm hold,hold⟩
  · have := h.fresh m (Nat.le_of_not_lt hold) hlt hown hfew
    omega

private theorem Received.later {q : Ptr} {r₀ r : Int} {A : List Ptr} {s t : Ins} (h : Received q r₀ r A s)
    (hl : Later q s t) (ht : Stable t) (hfew : t.created q < 2^31) : Received q r₀ r A t where
  lower := h.lower
  upper := by
    have := hl.count
    have := h.upper
    omega
  nodup := h.nodup
  range m hm := by
    obtain ⟨hlt,hle⟩ := h.range m hm
    exact ⟨lt_of_lt_of_le hlt hl.next,by rw [(hl.same m hlt).rev]; exact hle⟩
  cover m hm h₀ hle := by
    obtain ⟨hin,hlt⟩ := hl.listed_before ht hfew h.upper hm hle
    rw [(hl.same m hlt).rev] at h₀ hle
    exact h.cover m hin h₀ hle

/-- An answered poll adds what it returned. -/
private theorem Received.msgs {q : Ptr} {r₀ r : Int} {A : List Ptr} {s sc t s' : Ins} {resp : Response}
    (hrec : Received q r₀ r A s) (h : Answered q r s sc t s' resp) (hs : Stable s) (hq : q < s.nextQueue)
    (hfew : s'.created q < 2^31) :
    Received q r₀ (t.queues q).rev (A ++ (t.clis s.nextCli).pendingMsgs) s' := by
  have hft : t.created q < 2^31 := lt_of_le_of_lt h.after.count hfew
  have hst : Later q s t := h.start.trans h.wait
  have hrevt : (t.queues q).rev = t.created q := by
    rw [h.stable.revs.rev q h.wait.queue,wrapInt_of_lt hft]
  have hrevs : r ≤ (s.queues q).rev := by
    rw [hs.revs.rev q hq,wrapInt_of_lt (lt_of_le_of_lt hst.count hft)]
    exact hrec.upper
  have hcount := hst.count
  have hupper := hrec.upper
  have hlower := hrec.lower
  refine ⟨by omega,?_,?_,?_,?_⟩
  · have := h.after.count
    omega
  · refine List.nodup_append.mpr ⟨hrec.nodup,?_,fun m hm n hn hmn => ?_⟩
    · exact (h.sorted hrevs hft).imp fun {m n} hlt heq => absurd hlt (by rw [heq]; exact lt_irrefl _)
    · subst hmn
      obtain ⟨hlt,hle⟩ := hrec.range m hm
      have hgt := ((h.mem_iff hs hq hrevs hft).mp hn).1
      rw [(hst.same m hlt).rev] at hgt
      omega
  · intro m hm
    rcases List.mem_append.mp hm with hm | hm
    · obtain ⟨hlt,hle⟩ := hrec.range m hm
      refine ⟨lt_of_lt_of_le hlt (hst.next.trans h.after.next),?_⟩
      rw [((hst.trans h.after).same m hlt).rev]
      omega
    · obtain ⟨hlt,_⟩ := h.own hrevs hft hm
      refine ⟨lt_of_lt_of_le hlt h.after.next,?_⟩
      rw [(h.after.same m hlt).rev]
      exact ((h.mem_iff hs hq hrevs hft).mp hm).2.1
  · intro m hm h₀ hle
    obtain ⟨hint,hlt⟩ := h.after.listed_before h.coherent.toStable hfew hrevt.le hm hle
    rw [(h.after.same m hlt).rev] at h₀ hle
    apply List.mem_append.mpr
    by_cases hr : (t.msgs m).rev ≤ r
    · -- an older message was in the list before this poll
      obtain ⟨hins,hlts⟩ := hst.listed_before h.stable hft hrec.upper hint hr
      rw [(hst.same m hlts).rev] at h₀ hr
      exact .inl (hrec.cover m hins h₀ hr)
    · refine .inr ((h.mem_iff hs hq hrevs hft).mpr ⟨by omega,hle,?_⟩)
      by_cases hscan : m < sc.nextMsg
      · exact .inl (h.wait.listed m hint hscan)
      · exact .inr ⟨Nat.le_of_not_lt hscan,hlt,(h.stable.base.listed q m hint).2⟩

private theorem Answered.result {q : Ptr} {r : Int} {s sc t s' : Ins} {resp : Response}
    (h : Answered q r s sc t s' resp) (hret : resp.ret = .msgs) (hr : r ≤ (s.queues q).rev)
    (hfew : t.created q < 2^31) :
    ∃ consumers, resp.results = some [((t.queues q).qId,
      ⟨(t.clis s.nextCli).pendingMsgs.map fun m => (t.msgs m).data,(t.queues q).rev,consumers⟩)] := by
  rcases h.answer with ⟨_,hto⟩ | ⟨hne,rfl⟩
  · rw [hret] at hto
    cases hto
  · obtain ⟨consumers,hres⟩ := createResult_single hne fun m hm => (h.own hr hfew hm).2
    exact ⟨consumers,by rw [← hres]; rfl⟩

section Runs
variable [Rebalance ExpiryNode]

theorem step_later {s s' : Ins} {l : Label} {out : Option Response} {q : Ptr} (hc : Coherent s)
    (hq : q < s.nextQueue) (h : step s l = .ok (s',out)) : Later q s s' :=
  (coherent_keeps (Later q s) hc
    (fun _ _ _ _ hst ht hm => ht.trans (hm.later hst.revs ht.queue)) (.refl hq) h).2

theorem run_later {P : Ins → Label → Prop} {tr : List Label} {s t : Ins} {q : Ptr} (hc : Coherent s)
    (hq : q < s.nextQueue) (h : Run step P s tr t) : Later q s t := by
  refine (h.invariant (I := fun t => Coherent t ∧ Later q s t) ?_ ⟨hc,.refl hq⟩).2
  rintro t l u out ⟨hct,ht⟩ _ hs
  exact ⟨step_coherent hct hs,ht.trans (step_later hct ht.queue hs)⟩

/-- As long as the poller waits, whatever the others do, its list is what it should be. -/
private theorem step_waiting {sc s s' : Ins} {l : Label} {out : Option Response} {q b : Ptr} {β : MemqueueBinder}
    {L : List Ptr} (hc : Coherent s) (hβ : β.memqueue = q) (h : Waiting sc q b β L s)
    (hin : .pollWait b ∈ s.handlers) (hs : step s l = .ok (s',out)) : Waiting sc q b β L s' := by
  exact (coherent_keeps (Waiting sc q b β L) hc (fun a t u ha hst ht hm =>
    ht.move hβ hst hm (others_mind h.cli (hc.pollers.exclusive hin).1 ha)) h hs).2

private theorem run_waiting {P : Ins → Label → Prop} {tr : List Label} {sc s t : Ins} {q b : Ptr}
    {β : MemqueueBinder} {L : List Ptr} (hc : Coherent s) (h : Waiting sc q b β L s) (hβ : β.memqueue = q)
    (hr : Run step P s tr t) (hin : .pollWait b ∈ t.handlers) : Waiting sc q b β L t := by
  refine (hr.invariant (I := fun t => Coherent t ∧ b < t.nextCli ∧
    (.pollWait b ∈ t.handlers → Waiting sc q b β L t)) ?_ ⟨hc,h.cli,fun _ => h⟩).2.2 hin
  rintro t l u out ⟨hct,hcli,ht⟩ _ hs
  have hcu := step_coherent hct hs
  refine ⟨hcu,?_,fun hin => ?_⟩
  · obtain ⟨as,has,_⟩ := step_trace hct.base hs
    exact has.invariant (I := fun v => b < v.nextCli) (fun _ _ _ _ hlt hm => lt_of_lt_of_le hlt hm.next_le.2.2.2) hcli
  · have hin' := (step_handlers hct.base hs).wait_of hcli hin
    exact step_waiting hct hβ (ht hin') hin' hs

/-- A poller that is bound to nothing yet. -/
private structure Idle (s : Ins) (q b : Ptr) (t : Ins) : Prop where
  stable : Stable t
  later : Later q s t
  cli : b < t.nextCli
  memqueues : (t.clis b).memqueues = []
  pending : (t.clis b).pendingMsgs = []

private theorem Idle.move {now : Nat} {a : Atom} {s t u : Ins} {q b : Ptr} (h : Idle s q b t) (hm : Move now a t u)
    (ha : ¬ a.minds b) : Idle s q b u := by
  refine ⟨hm.stable h.stable,h.later.trans (hm.later h.stable.revs h.later.queue),
    lt_of_lt_of_le h.cli hm.next_le.2.2.2,?_,?_⟩
  · rcases hm.memqueues b with he | ⟨_,_,_,he⟩ | ⟨β',rfl,hn,_⟩ | ⟨rfl,_⟩
    · exact he.trans h.memqueues
    · exact he
    · exact absurd hn.symm ha
    · exact absurd rfl ha
  · rcases hm.pendingMsgs (b := b) fun hn => h.stable.ledger.pollers b hn with he | ⟨_,_,_,_,he⟩ | ⟨_,rfl,_⟩ | ⟨_,rfl,_⟩
    · exact he.trans h.pending
    · rw [he,h.stable.bindings.pushCountTo_eq,h.memqueues,h.pending]
      rfl
    · exact absurd rfl ha
    · exact absurd rfl ha

private theorem enqueue_all {now : Nat} {q b : Ptr} {sc : Ins} : ∀ (L : List Ptr) {s t : Ins},
    Trace (Move now) (L.map (.enqueue b)) s t → Stable s → Later q sc s → s.nextMsg = sc.nextMsg →
    Stable t ∧ Later q sc t ∧ t.nextMsg = sc.nextMsg ∧ s.nextCli ≤ t.nextCli ∧
      (t.clis b).memqueues = (s.clis b).memqueues ∧ (t.clis b).pendingMsgs = (s.clis b).pendingMsgs ++ L := by
  intro L
  induction L with
  | nil =>
    intro s t h hs hl hn
    cases h
    exact ⟨hs,hl,hn,le_rfl,rfl,by simp⟩
  | cons m L ih =>
    intro s t h hs hl hn
    cases h with
    | @cons _ _ _ u _ hm htr =>
      have hnu : u.nextMsg = s.nextMsg := by
        rcases hm.nextMsg with he | ⟨_,_,_,hx,_⟩
        · exact he
        · cases hx
      have hmem : (u.clis b).memqueues = (s.clis b).memqueues := by
        rcases hm.memqueues b with he | ⟨_,hx,_⟩ | ⟨_,hx,_⟩ | ⟨hx,_⟩
        · exact he
        · cases hx
        · cases hx
        · cases hx
      have hpend : (u.clis b).pendingMsgs = (s.clis b).pendingMsgs ++ [m] := by
        cases hm with
        | enqueue _ _ he =>
          obtain ⟨_,rfl⟩ := cliBinderEnqueueMsg_effect he
          simp [updQueue,updMsg,updCli]
      obtain ⟨hst,hlt,hnt,hcli,hmt,hpt⟩ := ih htr (hm.stable hs) (hl.trans (hm.later hs.revs hl.queue)) (hnu.trans hn)
      exact ⟨hst,hlt,hnt,hm.next_le.2.2.2.trans hcli,hmt.trans hmem,by rw [hpt,hpend,List.append_assoc]; rfl⟩

/-- Reschedule, bind and scan, for a poller not bound before. -/
private theorem scanned {now : Nat} {s sc t : Ins} {q b : Ptr} {r i : Int} {L : List Ptr} (hsc : Idle s q b sc)
    (htr : Trace (Move now) (.touch :: .bind ⟨r,q,b,i⟩ :: L.map (.enqueue b)) sc t) :
    Stable t ∧ (t.clis b).pendingMsgs = L ∧ Waiting sc q b ⟨r,q,b,i⟩ L t := by
  cases htr with
  | @cons _ _ _ u _ htouch htr =>
    cases htr with
    | @cons _ _ _ v _ hbind htr =>
      have hu : Idle sc q b u := by
        refine Idle.move ⟨hsc.stable,.refl hsc.later.queue,hsc.cli,hsc.memqueues,hsc.pending⟩ htouch id
      have hnext : v.nextMsg = sc.nextMsg := by
        rw [(hbind.toQuiet rfl).nextMsg,(htouch.toQuiet rfl).nextMsg]
      have hmem : (v.clis b).memqueues = [⟨r,q,b,i⟩] := by
        cases hbind
        simp [memqueueBind,updQueue,updCli,hu.memqueues]
      have hpend : (v.clis b).pendingMsgs = [] := by
        rw [(hbind.toQuiet rfl).pending b hu.cli,hu.pending]
      obtain ⟨hst,hlater,hnt,hcli,hmt,hpt⟩ := enqueue_all L htr (hbind.stable hu.stable)
        (hu.later.trans (hbind.later hu.stable.revs hu.later.queue)) hnext
      rw [hpend,List.nil_append] at hpt
      have hnone : t.since sc.nextMsg q = [] := by
        rw [Ins.since,hnt,List.filter_eq_nil_iff]
        intro m hm
        have := List.mem_range.mp hm
        simp [this]
      refine ⟨hst,hpt,hlater,?_,hmt.trans hmem,fun _ => by rw [hpt,hnone,List.append_nil]⟩
      exact lt_of_lt_of_le hu.cli ((hbind.toQuiet rfl).nextCli.trans hcli)

/-- The scan of a poll of one queue, and how it goes on. -/
private theorem poll_start {now : Nat} {s sc s' : Ins} {out : Option Response} {k : Bytes} {q : Ptr} {a : QueueArg}
    {timeout : Int} (hc : Coherent s) (hget : s.queueStore.get k = some q) (hid : a.qId = some k)
    (hscan : pollRefresh now (addCli s timeout) q a = .ok sc)
    (h : step s ⟨now,.poll ⟨[a],timeout⟩⟩ = .ok (s',out)) :
    Later q s sc ∧ Stable sc ∧ Waiting sc q s.nextCli ⟨pollRev sc q a,q,s.nextCli,a.includeConsumers⟩
      ((sc.queues q).msgQueue.filter (wanted sc (pollRev sc q a) a.latest)) s' ∧
    (s'.clis s.nextCli).pendingMsgs = (sc.queues q).msgQueue.filter (wanted sc (pollRev sc q a) a.latest) ∧
    (((sc.queues q).msgQueue.filter (wanted sc (pollRev sc q a) a.latest) = [] ∧ out = none ∧
        .pollWait s.nextCli ∈ s'.handlers) ∨
      ((sc.queues q).msgQueue.filter (wanted sc (pollRev sc q a) a.latest) ≠ [] ∧
        out = some (memqueueRespond s' .msgs s.nextCli))) := by
  obtain ⟨hq,hlive,_⟩ := hc.base.store.get_iff.mp hget
  have hnew : Move now (.newCli timeout) s (addCli s timeout) := .newCli s timeout
  have hidle : Idle s q s.nextCli (addCli s timeout) :=
    ⟨hnew.stable hc.toStable,hnew.later hc.revs hq,Nat.lt_succ_self _,by simp [addCli],by simp [addCli]⟩
  obtain ⟨t,i,j,ht,hend⟩ := memqueuePollQueue_cases h
  rw [List.foldlM_cons] at ht
  obtain ⟨acc,hacc,ht⟩ := bind_ok ht
  cases ht
  obtain ⟨k',hk',⟨hnone,_⟩ | ⟨p,n,hp,hf,hn⟩⟩ := pollQueueArg_cases hacc
  · obtain rfl := Option.some.inj (hid.symm.trans hk')
    cases hnone.symm.trans hget
  · obtain rfl := Option.some.inj (hid.symm.trans hk')
    obtain rfl := Option.some.inj (hget.symm.trans hp)
    simp only [Prod.mk.injEq] at hn
    obtain ⟨s₁,hs₁,htr,hlen⟩ := pollFound_cases hidle.stable.base hlive hq hidle.cli hf
    obtain rfl := Except.ok.inj (hscan.symm.trans hs₁)
    obtain ⟨as,has,ha⟩ := pollRefresh_trace hidle.stable.base hlive hq hscan
    have hsc : Idle s q s.nextCli sc := by
      refine has.invariant (fun x _ _ hx hi hm => hi.move hm ?_) hidle
      rcases ha x hx with rfl | ⟨_,_,rfl | rfl⟩ <;> exact id
    obtain ⟨hst,hpend,hw⟩ := scanned hsc htr
    refine ⟨hsc.later,hsc.stable,?_⟩
    rcases hend with ⟨hj,_⟩ | ⟨hi,rfl,rfl⟩ | ⟨hi,he⟩
    · omega
    · have hm : Move now (.suspend (.pollWait s.nextCli)) t (suspend t (.pollWait s.nextCli)) := .suspend _ _
      exact ⟨hw.move rfl hst hm id,hpend,.inl ⟨List.eq_nil_of_length_eq_zero (by omega),rfl,List.mem_cons_self⟩⟩
    · have hne : (sc.queues q).msgQueue.filter (wanted sc (pollRev sc q a) a.latest) ≠ [] := by
        intro hnil
        rw [hnil] at hlen
        exact hi (by simpa [hlen] using hn.1)
      rw [← hpend] at hne
      simp only [pollRespond,List.isEmpty_iff,hne,if_false] at he
      cases he
      have hm : Move now (.serve s.nextCli) t (serve t s.nextCli) := .serve _ _
      have hm' : Move now (.suspend (.pollWrite s.nextCli)) (serve t s.nextCli)
        (suspend (serve t s.nextCli) (.pollWrite s.nextCli)) := .suspend _ _
      exact ⟨(hw.move rfl hst hm id).move rfl (hm.stable hst) hm' id,hpend,.inr ⟨hpend ▸ hne,rfl⟩⟩

/-- A GET poll of `q` from revision `r`, started in `s`: it scans in `sc`, its response `resp` is built in `t`
and its write begins in `s'`. Between the two, while it waits, the server runs on. -/
inductive Polled (P : Ins → Label → Prop) (q : Ptr) (r : Int) (s sc : Ins) : Ins → Ins → Response → Prop
  | atOnce {now : Nat} {timeout includeConsumers : Int} {id : Option Bytes} {k : Bytes} {s' : Ins} {resp : Response} :
      s.queueStore.get k = some q →
      pollRefresh now (addCli s timeout) q ⟨some k,r,0,id,includeConsumers⟩ = .ok sc →
      step s ⟨now,.poll ⟨[⟨some k,r,0,id,includeConsumers⟩],timeout⟩⟩ = .ok (s',some resp) →
      Polled P q r s sc s' s' resp
  | waited {now wake : Nat} {timeout includeConsumers : Int} {id : Option Bytes} {k : Bytes} {s₁ t s' : Ins}
      {tr : List Label} {resp : Response} :
      s.queueStore.get k = some q →
      pollRefresh now (addCli s timeout) q ⟨some k,r,0,id,includeConsumers⟩ = .ok sc →
      step s ⟨now,.poll ⟨[⟨some k,r,0,id,includeConsumers⟩],timeout⟩⟩ = .ok (s₁,none) →
      Run step P s₁ tr t → step t ⟨wake,.wake s.nextCli⟩ = .ok (s',some resp) → Polled P q r s sc t s' resp

private theorem Polled.answered {P : Ins → Label → Prop} {q : Ptr} {r : Int} {s sc t s' : Ins} {resp : Response}
    (h : Polled P q r s sc t s' resp) (hc : Coherent s) : Answered q r s sc t s' resp := by
  cases h with
  | @atOnce now timeout includeConsumers id k _ _ hget hscan hstep =>
    obtain ⟨hq,_⟩ := hc.base.store.get_iff.mp hget
    obtain ⟨hstart,hst,hw,hpend,⟨_,hout,_⟩ | ⟨hne,hout⟩⟩ := poll_start hc hget rfl hscan hstep
    · cases hout
    · have hcs := step_coherent hc hstep
      cases hout
      refine ⟨hcs.toStable,hcs,hstart,hw.later,.refl hw.later.queue,fun hr hfew => ?_,hst,.inr ⟨hpend ▸ hne,rfl⟩⟩
      have hrev := pollRev_eq (a := ⟨some k,r,0,id,includeConsumers⟩) hc.toStable hst hstart hq hr
        (lt_of_le_of_lt hw.later.count hfew)
      rw [hw.pending hfew,hrev,wanted_eq]
  | @waited now wake timeout includeConsumers id k s₁ _ _ tr _ hget hscan hstep hrun hwake =>
    obtain ⟨hq,_⟩ := hc.base.store.get_iff.mp hget
    obtain ⟨hstart,hst,hw,_⟩ := poll_start hc hget rfl hscan hstep
    have hc₁ := step_coherent hc hstep
    have hct := run_coherent hc₁ hrun
    have hcs := step_coherent hct hwake
    have hin : .pollWait s.nextCli ∈ t.handlers := by
      by_contra hnot
      simp only [step,if_neg hnot] at hwake
      cases hwake
    have hwt := run_waiting hc₁ hw rfl hrun hin
    refine ⟨hct.toStable,hcs,hstart,hwt.later,step_later hct hwt.later.queue hwake,fun hr hfew => ?_,hst,?_⟩
    · have hrev := pollRev_eq (a := ⟨some k,r,0,id,includeConsumers⟩) hc.toStable hst hstart hq hr
        (lt_of_le_of_lt hwt.later.count hfew)
      rw [hwt.pending hfew,hrev,wanted_eq]
    · simp only [step,if_pos hin,pollRespond] at hwake
      split at hwake
      · rename_i hempty
        cases hwake
        exact .inl ⟨List.isEmpty_iff.mp hempty,rfl⟩
      · rename_i hne
        cases hwake
        exact .inr ⟨fun hnil => hne (List.isEmpty_iff.mpr hnil),rfl⟩

/-- A consumer's polls one after the other, each from the revision the last MEMQUEUE_MSGS reported: where the
server stands, the revision to ask for next, and the messages received so far. -/
inductive Chain (P : Ins → Label → Prop) (q : Ptr) (s₀ : Ins) (r₀ : Int) : Ins → Int → List Ptr → Prop
  | start : Chain P q s₀ r₀ s₀ r₀ []
  | others {s t : Ins} {r : Int} {A : List Ptr} {tr : List Label} :
      Chain P q s₀ r₀ s r A → Run step P s tr t → Chain P q s₀ r₀ t r A
  | msgs {s sc t s' : Ins} {r : Int} {A : List Ptr} {resp : Response} {k : Bytes} {x : QueueResult} :
      Chain P q s₀ r₀ s r A → Polled P q r s sc t s' resp → resp.ret = .msgs → resp.results = some [(k,x)] →
      Chain P q s₀ r₀ s' x.rev (A ++ (t.clis s.nextCli).pendingMsgs)
  | timeout {s sc t s' : Ins} {r : Int} {A : List Ptr} {resp : Response} :
      Chain P q s₀ r₀ s r A → Polled P q r s sc t s' resp → resp.ret = .timeout → Chain P q s₀ r₀ s' r A

private theorem chain_received {P : Ins → Label → Prop} {q : Ptr} {s₀ s : Ins} {r₀ r : Int} {A : List Ptr}
    (hc₀ : Coherent s₀) (hq : q < s₀.nextQueue) (hr₀ : r₀ ≤ (s₀.queues q).rev) (h : Chain P q s₀ r₀ s r A) :
    Coherent s ∧ Later q s₀ s ∧ (s.created q < 2^31 → Received q r₀ r A s) := by
  induction h with
  | start =>
    refine ⟨hc₀,.refl hq,fun hfew => ⟨le_rfl,?_,List.nodup_nil,nofun,fun m _ h₁ h₂ => ?_⟩⟩
    · rwa [hc₀.revs.rev q hq,wrapInt_of_lt hfew] at hr₀
    · omega
  | others _ hrun ih =>
    obtain ⟨hc,hl,hrec⟩ := ih
    have hlater := run_later hc hl.queue hrun
    have hct := run_coherent hc hrun
    exact ⟨hct,hl.trans hlater,fun hfew =>
      (hrec (lt_of_le_of_lt hlater.count hfew)).later hlater hct.toStable hfew⟩
  | @msgs s sc t s' r A resp k x _ hp hret hres ih =>
    obtain ⟨hc,hl,hrec⟩ := ih
    have h := hp.answered hc
    have hlater := (h.start.trans h.wait).trans h.after
    refine ⟨h.coherent,hl.trans hlater,fun hfew => ?_⟩
    have hrec := hrec (lt_of_le_of_lt hlater.count hfew)
    have hr : r ≤ (s.queues q).rev := by
      rw [hc.revs.rev q hl.queue,wrapInt_of_lt (lt_of_le_of_lt hlater.count hfew)]
      exact hrec.upper
    obtain ⟨_,hres'⟩ := h.result hret hr (lt_of_le_of_lt h.after.count hfew)
    rw [hres] at hres'
    cases hres'
    exact hrec.msgs h hc.toStable hl.queue hfew
  | timeout _ hp _ ih =>
    obtain ⟨hc,hl,hrec⟩ := ih
    have h := hp.answered hc
    have hlater := (h.start.trans h.wait).trans h.after
    exact ⟨h.coherent,hl.trans hlater,fun hfew =>
      (hrec (lt_of_le_of_lt hlater.count hfew)).later hlater h.coherent.toStable hfew⟩

/-- A poll of one queue from a revision the queue has reached returns exactly the messages beyond it that its scan
found or that came while it waited, each once and in order. A consumer that polls on from what it was told gets
no message twice, and whatever its next scan finds it either has or is given at once. -/
theorem poll_exactly_once {P : Ins → Label → Prop} {tr : List Label} {s₀ : Ins} (h : Reaches P tr s₀) {q : Ptr}
    (hq : q < s₀.nextQueue) {r₀ : Int} (hr₀ : r₀ ≤ (s₀.queues q).rev) :
    (∀ sc t s' resp, Polled P q r₀ s₀ sc t s' resp → (t.queues q).freed = false → t.created q < 2^31 - 1 →
      resp.ret = .msgs → ∃ R consumers, resp.results = some [((t.queues q).qId,
          ⟨(t.clis s₀.nextCli).pendingMsgs.map fun m => (t.msgs m).data,R,consumers⟩)] ∧
        (t.clis s₀.nextCli).pendingMsgs.Pairwise (fun m n => (t.msgs m).rev < (t.msgs n).rev) ∧
        ∀ m, m ∈ (t.clis s₀.nextCli).pendingMsgs ↔ r₀ < (t.msgs m).rev ∧ (t.msgs m).rev ≤ R ∧
          (m ∈ (sc.queues q).msgQueue ∨ sc.nextMsg ≤ m ∧ m < t.nextMsg ∧ (t.msgs m).memqueue = q)) ∧
    ∀ s r A, Chain P q s₀ r₀ s r A → s.created q < 2^31 - 1 → A.Nodup ∧
      ∀ now timeout id includeConsumers k sc s' out, s.queueStore.get k = some q →
        pollRefresh now (addCli s timeout) q ⟨some k,r,0,id,includeConsumers⟩ = .ok sc →
        step s ⟨now,.poll ⟨[⟨some k,r,0,id,includeConsumers⟩],timeout⟩⟩ = .ok (s',out) →
        s'.created q < 2^31 - 1 → ∀ m ∈ (sc.queues q).msgQueue, r₀ < (sc.msgs m).rev → m ∈ A ∨
          ∃ resp, out = some resp ∧ resp.ret = .msgs ∧ m ∈ (s'.clis s.nextCli).pendingMsgs := by
  have hc₀ := reaches_coherent h
  refine ⟨fun sc t s' resp hp _ hfew hret => ?_,fun s r A hchain hfew => ?_⟩
  · have ha := hp.answered hc₀
    obtain ⟨consumers,hres⟩ := ha.result hret hr₀ (by omega)
    exact ⟨(t.queues q).rev,consumers,hres,ha.sorted hr₀ (by omega),
      fun m => ha.mem_iff hc₀.toStable hq hr₀ (by omega)⟩
  · obtain ⟨hc,hl,hrec⟩ := chain_received hc₀ hq hr₀ hchain
    have hrec := hrec (by omega)
    refine ⟨hrec.nodup,fun now timeout id includeConsumers k sc s' out hget hscan hstep hfew' m hm h₀ => ?_⟩
    obtain ⟨hstart,hst,hw,hpend,hend⟩ := poll_start hc hget rfl hscan hstep
    have hsc : sc.created q < 2^31 := by
      have := hw.later.count
      omega
    have hr : r ≤ (s.queues q).rev := by
      rw [hc.revs.rev q hl.queue,wrapInt_of_lt (by omega)]
      exact hrec.upper
    have hrev := pollRev_eq (a := ⟨some k,r,0,id,includeConsumers⟩) hc.toStable hst hstart hl.queue hr hsc
    rw [hrev,wanted_eq] at hpend hend
    by_cases hle : (sc.msgs m).rev ≤ r
    · obtain ⟨hin,hlt⟩ := hstart.listed_before hst hsc hrec.upper hm hle
      rw [(hstart.same m hlt).rev] at h₀ hle
      exact .inl (hrec.cover m hin h₀ hle)
    · have hin : m ∈ (sc.queues q).msgQueue.filter fun m => r < (sc.msgs m).rev :=
        List.mem_filter.mpr ⟨hm,by simpa using hle⟩
      rcases hend with ⟨hnil,_⟩ | ⟨_,hout⟩
      · rw [hnil] at hin
        cases hin
      · exact .inr ⟨_,hout,rfl,by rw [hpend]; exact hin⟩

end Runs

/-- A poll that waits, a message posted with expiry 0, and the answer with that message. -/
theorem poll_exactly_once_waited :
    letI := Rebalance.plain ExpiryNode
    ∃ s₀ sc t s' resp, Reaches (fun _ _ => True) [⟨0,.put ⟨0,0,0,0,[113]⟩⟩] s₀ ∧
      Polled (fun _ _ => True) 0 0 s₀ sc t s' resp ∧ resp.ret = .msgs ∧ (t.clis s₀.nextCli).pendingMsgs = [0] ∧
      ∃ R consumers, resp.results = some [((t.queues 0).qId,⟨[(t.msgs 0).data],R,consumers⟩)] ∧
        0 < (t.msgs 0).rev ∧ (t.msgs 0).rev ≤ R := by
  let _ := Rebalance.plain ExpiryNode
  obtain ⟨⟨s₀,s₁,out⟩,h₀,hobs₀⟩ := Option.map_eq_some_iff.mp (show (execStep step (fun _ _ => true) .init
      [⟨0,.put ⟨0,0,0,0,[113]⟩⟩] ⟨1,.poll ⟨[⟨some [113],0,0,none,0⟩],1000⟩⟩).map
        (fun x => (x.1.nextQueue,x.1.nextCli,x.1.queueStore.get [113],(x.1.queues 0).rev,x.2.2)) =
      some (1,0,some 0,0,none) by decide +kernel)
  obtain ⟨hr,hpoll⟩ := Run.of_execStep h₀
  simp only [Prod.mk.injEq] at hobs₀
  obtain ⟨hn,hcli,hget,hrev,rfl⟩ := hobs₀
  obtain ⟨⟨t,s',out⟩,h₁,hobs₁⟩ := Option.map_eq_some_iff.mp (show ((execStep step (fun _ _ => true) .init
      [⟨0,.put ⟨0,0,0,0,[113]⟩⟩] ⟨1,.poll ⟨[⟨some [113],0,0,none,0⟩],1000⟩⟩).bind fun x =>
      execStep step (fun _ _ => true) x.2.1 [⟨2,.post [113] 0 [1]⟩] ⟨3,.wake 0⟩).map
        (fun x => ((x.1.clis 0).pendingMsgs,(x.1.queues 0).freed,x.1.created 0,x.2.2.map Response.ret)) =
      some ([0],false,1,some .msgs) by decide +kernel)
  rw [h₀,Option.bind_some] at h₁
  obtain ⟨hrun,hwake⟩ := Run.of_execStep h₁
  simp only [Prod.mk.injEq,Option.map_eq_some_iff] at hobs₁
  obtain ⟨hpend,hlive,hc,resp,rfl,hret⟩ := hobs₁
  have hr' := hr.mono (Q := fun _ _ => True) fun _ _ _ => trivial
  have hp : Polled (fun _ _ => True) 0 0 s₀ (addCli s₀ 1000) t s' resp :=
    .waited hget rfl hpoll (hrun.mono fun _ _ _ => trivial) (by rw [hcli]; exact hwake)
  obtain ⟨R,consumers,hres,_,hmem⟩ := (poll_exactly_once hr' (q := 0) (by rw [hn]; decide) hrev.ge).1
    _ _ _ _ hp hlive (by rw [hc]; decide) hret
  rw [hcli,hpend] at hres hmem
  obtain ⟨h₂,h₃,_⟩ := (hmem 0).mp (List.mem_singleton_self 0)
  exact ⟨s₀,_,t,s',resp,hr',hp,hret,by rw [hcli,hpend],R,consumers,hres,h₂,h₃⟩

end Memqueue
