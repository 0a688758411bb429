import Memqueue.Queue.Faults
import Memqueue.Queue.Pollers

/-! When the last reference of a queue is given up, nothing refers to it any more: provided a DELETE
has the base reference to give up, and nothing that does not count holds on to the queue. -/
namespace Memqueue
open Ins Fallible Expiry

/-- The references on `q` that the step gives up. -/
def Label.gives (s : Ins) (l : Label) (q : Ptr) : Nat :=
  match l.event with
  | .resumeDelete p => if p = q ∧ .delete p ∈ s.handlers then 1 else 0
  | .resumePoll b =>
    if .pollWrite b ∈ s.handlers then (s.clis b).pendingMsgs.countP fun m => (s.msgs m).memqueue = q else 0
  | .expire .msg => (s.expiry.indexed .msg).countP fun m =>
    dueIn s.expiry .msg (l.now % 2^32) m ∧ (s.msgs m).memqueue = q
  | .expire .memqueue => if dueIn s.expiry .memqueue (l.now % 2^32) q then 1 else 0
  | _ => 0

/-- The handlers that stay suspended when the step begins. -/
def Label.others (s : Ins) (l : Label) : List Handler :=
  match l.event.resumes with
  | some x => s.handlers.erase x
  | none => s.handlers

/-- Nothing that has no reference of its own holds on to `q`: no binder but those of the poller that
goes on, no other POST or DELETE in its write, no message without a holder. -/
def Label.lone (s : Ins) (l : Label) (q : Ptr) : Prop :=
  (∀ β ∈ (s.queues q).memqueueBinders, l.event = .resumePoll β.cliBinder) ∧
  .post q ∉ l.others s ∧ .delete q ∉ l.others s ∧ ∀ m ∈ (s.queues q).msgQueue, 0 < (s.msgs m).refCount

/-- A DELETE that goes on still has the base reference, and no deadline of the queue is scheduled. -/
def Label.ownsBase (s : Ins) (l : Label) : Prop :=
  match l.event with
  | .resumeDelete q => .delete q ∈ s.handlers → q ∉ s.expiry.indexed .memqueue ∧ 1 ≤ s.baseRef q
  | _ => True

/-- Every live queue keeps a reference through the step, or nothing else holds on to it. -/
def Label.orderly (s : Ins) (l : Label) : Prop :=
  l.ownsBase s ∧ ∀ q < s.nextQueue, (s.queues q).freed = false →
    (l.gives s q : Int) < (s.queues q).refCount ∨ l.lone s q

instance (s : Ins) (l : Label) (q : Ptr) : Decidable (l.lone s q) := inferInstanceAs (Decidable (_ ∧ _))

instance (s : Ins) (l : Label) : Decidable (l.ownsBase s) := by
  unfold Label.ownsBase
  split <;> infer_instance

instance (s : Ins) (l : Label) : Decidable (l.orderly s) := inferInstanceAs (Decidable (_ ∧ _))

/-- Nothing uncounted holds on to `q`. -/
structure Lone (s : Ins) (q : Ptr) : Prop where
  binders : (s.queues q).memqueueBinders = []
  post : .post q ∉ s.handlers
  delete : .delete q ∉ s.handlers
  msgs : ∀ m ∈ (s.queues q).msgQueue, 0 < (s.msgs m).refCount

private theorem Released.dangling_of {q : Ptr} {s s' : Ins} (h : Released q s s')
    (hfree : (s'.queues q).freed = true → s'.referenced q = false) : s'.dangling = s.dangling := by
  rw [h.dangling,if_neg]
  rintro ⟨h1,href⟩
  have hself := congrFun h.queues q
  rw [Function.update_self] at hself
  have hsame : s'.referenced q = s.referenced q := by
    apply referenced_congr
    · rw [hself]
    · rw [hself]
    · rw [hself]
    · exact fun t => by rw [h.expiry]
    · exact h.frame.handlers
    · exact fun b _ => by rw [h.clis]
    · exact fun m => by rw [h.msgs]
    · exact fun c => (h.consumers c).1
  rw [← hsame,hfree (by rw [hself]; simp [h1])] at href
  cases href

private theorem MsgReleased.dangling_of {m : Ptr} {s s' : Ins} (h : MsgReleased m s s')
    (hfree : (s'.queues (s.msgs m).memqueue).freed = true → s'.referenced (s.msgs m).memqueue = false) :
    s'.dangling = s.dangling := by
  rw [h.dangling,if_neg]
  rintro ⟨h1,href⟩
  have hself := congrFun h.queues (s.msgs m).memqueue
  rw [Function.update_self] at hself
  have hframe : (unlinkLast s m).expiry = s.expiry ∧ (unlinkLast s m).handlers = s.handlers ∧
      (unlinkLast s m).clis = s.clis ∧ (unlinkLast s m).msgs = s.msgs ∧ (unlinkLast s m).consumers = s.consumers := by
    by_cases hm : (s.msgs m).refCount = 1 <;> simp [unlinkLast,hm,updQueue]
  obtain ⟨hexp,hhand,hcli,hmsgs,hcons⟩ := hframe
  have hsame : s'.referenced (s.msgs m).memqueue = (unlinkLast s m).referenced (s.msgs m).memqueue := by
    apply referenced_congr
    · rw [hself]
    · rw [hself]
    · rw [hself]
    · exact fun t => by rw [h.expiry,hexp]
    · exact h.frame.handlers.trans hhand.symm
    · exact fun b _ => by rw [h.clis,hcli]
    · intro p
      rw [h.msgs,hmsgs]
      by_cases hp : p = m
      · subst hp
        simp
      · simp [hp]
    · exact fun c => by rw [hcons,(h.consumers c).1]
  rw [← hsame,hfree (by rw [hself]; simp [h1])] at href
  cases href

section Moves
variable [Rebalance ExpiryNode] {now : Nat}

/-- A move records nothing when the queue it frees, if any, is not referred to. -/
private theorem Move.dangling_of {a : Atom} {s s' : Ins} (h : Move now a s s') (hb : Base s)
    (hpoll : ∀ b m, a = .unpend b m → .pollWait b ∉ s.handlers ∧ .pollWrite b ∉ s.handlers)
    (hleave : ∀ c, a = .leave c → (s'.queues (s.consumers c).memqueue).freed = false)
    (hfree : ∀ q, (s.queues q).freed = false → 1 ≤ (s.queues q).refCount → (s'.queues q).freed = true →
      s'.referenced q = false) : s'.dangling = s.dangling := by
  cases a with
  | newCli | touch | bind | unbindAll | suspend | wakeup | serve => exact (h.toQuiet rfl).dangling
  | putQueue args =>
    cases h
    rfl
  | create q msecs data =>
    cases h with
    | create _ _ hc => exact hc.dangling
  | join q id =>
    cases h
    rfl
  | enqueue b m =>
    cases h with
    | enqueue _ _ he =>
      obtain ⟨_,rfl⟩ := cliBinderEnqueueMsg_effect he
      rfl
  | leave c =>
    have hlive := hleave c rfl
    obtain ⟨hlost,_⟩ := h.leave_lost
    have hself := congrFun hlost.queues (s.consumers c).memqueue
    rw [Function.update_self] at hself
    rw [hself] at hlive
    cases h with
    | leave _ hr =>
      refine hr.dangling.trans (if_neg ?_)
      rintro ⟨h1,_⟩
      have h1' : (s.queues (s.consumers c).memqueue).refCount = 1 := h1
      simp [h1'] at hlive
  | unpend b m =>
    obtain ⟨hwait,hwrite⟩ := hpoll b m rfl
    cases h with
    | @unpend _ t _ _ _ hr =>
      refine hr.dangling_of fun hf => ?_
      rw [← hfree _ hr.live hr.pos hf]
      symm
      apply referenced_congr <;> try rfl
      · exact fun _ => rfl
      · intro p hp
        have hne : p ≠ b := by
          rintro rfl
          rw [hr.frame.handlers] at hp
          rcases hp with hp | hp
          · exact hwait hp
          · exact hwrite hp
        simp [Memqueue.unpend,updCli,hne]
      · exact fun _ => rfl
      · exact fun _ => rfl
  | expireMsg m =>
    cases h with
    | expireMsg _ hr =>
      refine hr.dangling_of fun hf => ?_
      rw [← hfree _ hr.live hr.pos hf]
      symm
      apply referenced_congr <;> intros <;> rfl
  | drop m =>
    cases h with
    | drop hm ht hr =>
      obtain ⟨hlive,rfl⟩ := memqueueMsgRetain_effect ht
      have hstore := hb.store.positive _ (hb.msgOwner m (hb.listed _ m hm).1) hlive
      exact hr.dangling_of fun hf => hfree _ (by simpa [updQueue,updMsg] using hlive)
        (by simpa [updQueue,updMsg] using hstore) hf
  | expireQueue q =>
    cases h with
    | expireQueue _ hr =>
      refine hr.dangling_of fun hf => ?_
      rw [← hfree _ hr.live hr.pos hf]
      symm
      apply referenced_congr <;> intros <;> rfl
  | release q =>
    cases h with
    | release hr => exact hr.dangling_of (hfree q hr.live hr.pos)

omit [Rebalance ExpiryNode] in
/-- Nothing refers to a queue that gave up all it counted and that nothing else holds on to. -/
theorem unreferenced_of_lone {s : Ins} {q : Ptr} (hs : Stable s) (hlone : Lone s q)
    (hmsgs : ∀ m ∈ (s.queues q).msgQueue, (s.msgs m).refCount = 0) (hcons : (s.queues q).consumers = [])
    (hidx : q ∉ s.expiry.indexed .memqueue)
    (hheld : ∀ m < s.nextMsg, (s.msgs m).memqueue = q → s.holders m = 0)
    (hreg : ∀ c ∈ s.expiry.indexed .consumer, (s.consumers c).memqueue ≠ q) : s.referenced q = false := by
  have hempty : (s.queues q).msgQueue = [] := by
    apply List.eq_nil_iff_forall_not_mem.mpr
    intro m hm
    have := hlone.msgs m hm
    have := hmsgs m hm
    omega
  have hother : ∀ m < s.nextMsg, (m ∈ s.expiry.indexed .msg ∨ ∃ b, m ∈ (s.clis b).pendingMsgs) →
      (s.msgs m).memqueue ≠ q := by
    intro m hm hin hown
    have := hheld m hm hown
    have := holders_pos hs.ledger hin
    omega
  have hpoll : ∀ b, (s.clis b).memqueues.any (fun β => β.memqueue = q) = false ∧
      (s.clis b).pendingMsgs.any (fun m => (s.msgs m).memqueue = q) = false := by
    intro b
    constructor
    · simpa using fun β hβ => hs.bindings.unbound hlone.binders hβ
    · simpa using fun m hm => hother m (hs.ledger.pending b m hm) (.inr ⟨b,hm⟩)
  have hhandlers : s.handlers.any (s.uses q) = false := by
    rw [List.any_eq_false]
    intro x hx
    cases x with
    | post p =>
      have hne : p ≠ q := fun he => hlone.post (he ▸ hx)
      simpa [uses] using hne
    | delete p =>
      have hne : p ≠ q := fun he => hlone.delete (he ▸ hx)
      simpa [uses] using hne
    | pollWait b => simp only [uses,(hpoll b).1,(hpoll b).2]; decide
    | pollWrite b => simp only [uses,(hpoll b).1,(hpoll b).2]; decide
  have hmsg : (s.expiry.indexed .msg).any (fun m => (s.msgs m).memqueue = q) = false := by
    simpa using fun m hm => hother m (hs.base.index.allocated .msg m hm) (.inl hm)
  have hconsumer : (s.expiry.indexed .consumer).any (fun c => (s.consumers c).memqueue = q) = false := by
    simpa using hreg
  simp only [referenced,hempty,hcons,hlone.binders,hmsg,hconsumer,hhandlers,List.isEmpty_nil,Bool.not_true,
    Bool.or_false,Bool.false_or]
  simpa using hidx

/-- The bookkeeping of a step in which every queue `q` still gives up at most `R q` references:
it keeps one of them, or nothing uncounted holds on to it. -/
structure Covered (R : Ptr → Nat) (s : Ins) : Prop where
  stable : Stable s
  owned : QueueInv s
  dangling : s.dangling = []
  cover : ∀ q < s.nextQueue, (s.queues q).freed = false → (R q : Int) < (s.queues q).refCount ∨ Lone s q

/-- Each queue `q` loses `L q` references and nothing new holds on to it. -/
structure Yields (L : Ptr → Nat) (s s' : Ins) : Prop where
  nextQueue : s'.nextQueue = s.nextQueue
  refCount : ∀ q, (s'.queues q).refCount = (s.queues q).refCount - L q
  lone : ∀ q, Lone s q → Lone s' q

omit [Rebalance ExpiryNode] in
private theorem QueueLost.yields {p : Ptr} {s s' : Ins} (h : QueueLost p s s') :
    Yields (fun q => if q = p then 1 else 0) s s' := by
  refine ⟨h.frame.nextQueue,fun q => ?_,fun q hq => ?_⟩
  · have hself := congrFun h.queues q
    by_cases hp : q = p
    · subst hp
      rw [Function.update_self] at hself
      simp [hself]
    · rw [Function.update_of_ne hp] at hself
      simp [hself,hp]
  · refine ⟨?_,?_,?_,?_⟩
    · rw [queue_field Queue.memqueueBinders h.queues rfl]
      exact hq.binders
    · rw [h.frame.handlers]
      exact hq.post
    · rw [h.frame.handlers]
      exact hq.delete
    · rw [queue_field Queue.msgQueue h.queues rfl,h.msgs]
      exact hq.msgs

omit [Rebalance ExpiryNode] in
private theorem MsgLost.yields {m : Ptr} {s s' : Ins} (h : MsgLost 1 m s s') (hs : Stable s) :
    Yields (fun q => if q = (s.msgs m).memqueue then 1 else 0) s s' := by
  refine ⟨h.frame.nextQueue,fun q => ?_,fun q hq => ?_⟩
  · have hself := congrFun h.queues q
    by_cases hp : q = (s.msgs m).memqueue
    · subst hp
      rw [Function.update_self] at hself
      simp [hself]
    · rw [Function.update_of_ne hp] at hself
      simp [hself,hp]
  · refine ⟨?_,?_,?_,fun p hp => ?_⟩
    · rw [queue_field Queue.memqueueBinders h.queues rfl]
      exact hq.binders
    · rw [h.frame.handlers]
      exact hq.post
    · rw [h.frame.handlers]
      exact hq.delete
    · have hself := congrFun h.queues q
      have hin : p ∈ (s.queues q).msgQueue ∧ (p = m → (s.msgs m).refCount ≠ 1) := by
        by_cases hown : q = (s.msgs m).memqueue
        · subst hown
          have hnd : (s.queues (s.msgs m).memqueue).msgQueue.Nodup := (hs.ledger.sorted _).imp Nat.ne_of_lt
          rw [Function.update_self] at hself
          rw [hself] at hp
          by_cases h1 : (s.msgs m).refCount = 1
          · simp only [h1,if_true,hnd.mem_erase_iff] at hp
            exact ⟨hp.2,fun he => absurd he hp.1⟩
          · simp only [h1,if_false] at hp
            exact ⟨hp,fun _ => h1⟩
        · rw [Function.update_of_ne hown] at hself
          rw [hself] at hp
          exact ⟨hp,fun he => absurd (he ▸ hs.base.listed q p hp).2.symm hown⟩
      have hpos := hq.msgs p hin.1
      rw [h.msgs]
      by_cases hpm : p = m
      · subst hpm
        have := hin.2 rfl
        rw [Function.update_self]
        simp only
        omega
      · rw [Function.update_of_ne hpm]
        exact hpos

/-- One release, for a step that has as many left to do as the release takes off. -/
private theorem Move.covered {a : Atom} {s s' : Ins} {R R' L : Ptr → Nat} (h : Move now a s s') (hy : Yields L s s')
    (ha : a.owns s) (hpoll : ∀ b m, a = .unpend b m → .pollWait b ∉ s.handlers ∧ .pollWrite b ∉ s.handlers)
    (hleave : ∀ c, a ≠ .leave c) (hR : ∀ q, R' q + L q ≤ R q) (hc : Covered R s) : Covered R' s' := by
  have hs' := h.stable hc.stable
  have hb := hc.stable.base
  have hl := hc.stable.ledger
  have hcover : ∀ q < s.nextQueue, (s.queues q).freed = false → (R' q : Int) < (s'.queues q).refCount ∨ Lone s' q := by
    intro q hq hlive
    rcases hc.cover q hq hlive with hlt | hlone
    · have := hy.refCount q
      have := hR q
      exact .inl (by omega)
    · exact .inr (hy.lone q hlone)
  refine ⟨hs',h.queueInv hb hl hc.owned ha,?_,fun q hq hlive => ?_⟩
  · rw [h.dangling_of hb hpoll (fun c hcx => absurd hcx (hleave c)) ?_,hc.dangling]
    intro q hlive hpos hfreed
    have hq : q < s.nextQueue := hb.store.lt_of_refs (by omega)
    obtain ⟨_,hmsgs,hcons,hidx,hheld,hreg⟩ := h.freed_empty hb hl hc.owned ha hq hlive hfreed
    rcases hcover q hq hlive with hlt | hlone
    · have := hs'.base.store.zero q (by rw [hy.nextQueue]; exact hq) hfreed
      omega
    · exact unreferenced_of_lone hs' hlone hmsgs hcons hidx hheld hreg
  · exact hcover q (by rw [← hy.nextQueue]; exact hq) (h.live_of (by rw [← hy.nextQueue]; exact hq) hlive)

/-- The bookkeeping between steps. -/
structure Owned (s : Ins) : Prop extends Coherent s where
  owned : QueueInv s
  dangling : s.dangling = []

omit [Rebalance ExpiryNode] in
theorem owned_init : Owned .init := ⟨coherent_init,queueInv_init,rfl⟩

private theorem unpend_covered {b : Ptr} : ∀ (L : List Ptr) {s s' : Ins}, Trace (Move now) (L.map (.unpend b)) s s' →
    .pollWait b ∉ s.handlers ∧ .pollWrite b ∉ s.handlers →
    Covered (fun q => L.countP fun m => (s.msgs m).memqueue = q) s → Covered (fun _ => 0) s' := by
  intro L
  induction L with
  | nil =>
    intro s s' h _ hc
    cases h
    exact hc
  | cons m L ih =>
    intro s s' h hpoll hc
    cases h with
    | @cons _ _ _ t _ hm ht =>
      obtain ⟨hlost,_⟩ := hm.unpend_lost
      have hown : ∀ p, (t.msgs p).memqueue = (s.msgs p).memqueue := by
        intro p
        rw [hlost.msgs]
        by_cases hp : p = m
        · subst hp
          rw [Function.update_self]
        · rw [Function.update_of_ne hp]
      apply ih ht (by rw [hlost.frame.handlers]; exact hpoll)
      refine hm.covered (hlost.yields hc.stable) trivial (fun c p he => by cases he; exact hpoll)
        (fun _ he => by cases he) (fun q => ?_) hc
      simp only [hown,List.countP_cons,decide_eq_true_eq,eq_comm (a := q)]
      omega

private theorem touch_yields {s s' : Ins} (h : Move now .touch s s') : Yields (fun _ => 0) s s' := by
  cases h
  exact ⟨rfl,fun q => (Int.sub_zero _).symm,fun q hq => ⟨hq.binders,hq.post,hq.delete,hq.msgs⟩⟩

/-- The messages of `q` that a pass which began in `s` still has to release. -/
private def dueMsgs (now : Nat) (s t : Ins) (q : Ptr) : Nat :=
  (t.expiry.indexed .msg).countP fun m => dueIn s.expiry .msg (now % 2^32) m ∧ (t.msgs m).memqueue = q

omit [Rebalance ExpiryNode] in
private theorem dueMsgs_le {s t t' : Ins} {L : List Ptr} (hn : (t'.expiry.indexed .msg).Nodup)
    (hsub : ∀ m ∈ t'.expiry.indexed .msg, m ∈ L) (hown : ∀ m, (t'.msgs m).memqueue = (t.msgs m).memqueue) (q : Ptr) :
    dueMsgs now s t' q ≤ L.countP fun m => dueIn s.expiry .msg (now % 2^32) m ∧ (t.msgs m).memqueue = q := by
  simp only [dueMsgs,hown]
  exact (List.subperm_of_subset hn hsub).countP_le _

private theorem expireMsgs_covered {s s' : Ins} (hs : Covered (dueMsgs now s s) s)
    (h : objsExpire (expiryHost now) now .msg s = .ok s') : ∃ R, Covered R s' := by
  refine ⟨_,(objsExpire_rule now .msg (fun t => Covered (dueMsgs now s t) t)
    (fun _ ht => ht.stable.base) ?_ ?_ hs).result h⟩
  · intro t t' m ht hdue hdue₀ hobj
    have hmove := expireObj_msg hdue.mem hobj
    obtain ⟨hlost,hin,_⟩ := hmove.expireMsg_lost
    obtain ⟨hw,hidx⟩ := hmove.indexed ht.stable.base.index
    have hn := ht.stable.base.index.wf.nodup .msg
    have hown : ∀ p, (t'.msgs p).memqueue = (t.msgs p).memqueue := by
      intro p
      rw [hlost.msgs]
      by_cases hp : p = m
      · subst hp
        rw [Function.update_self]
      · rw [Function.update_of_ne hp]
    refine hmove.covered (hlost.yields ht.stable) trivial (fun _ _ he => by cases he) (fun _ he => by cases he)
      (fun q => ?_) ht
    have hle : dueMsgs now s t' q ≤ ((t.expiry.indexed .msg).erase m).countP fun p =>
        dueIn s.expiry .msg (now % 2^32) p ∧ (t.msgs p).memqueue = q := by
      refine dueMsgs_le (hw.nodup .msg) (fun p hp => ?_) hown q
      rcases (hidx .msg p).mp hp with ⟨hp,hne⟩ | hp
      · exact hn.mem_erase_iff.mpr ⟨fun he => hne ⟨rfl,he⟩,hp⟩
      · cases hp
    rw [List.countP_erase] at hle
    have hpos : q = (t.msgs m).memqueue → 1 ≤ dueMsgs now s t q := fun he =>
      List.countP_pos_iff.mpr ⟨m,hin,decide_eq_true ⟨hdue₀,he.symm⟩⟩
    by_cases hq : q = (t.msgs m).memqueue
    · have := hpos hq
      subst hq
      simp only [hin,hdue₀,and_self,decide_true,if_true] at hle
      simp only [if_true]
      unfold dueMsgs at *
      omega
    · simp only [hq,if_false]
      unfold dueMsgs at *
      omega
  · intro t t' ht hmove
    obtain ⟨hw,hidx⟩ := hmove.indexed ht.stable.base.index
    refine hmove.covered (touch_yields hmove) trivial (fun _ _ he => by cases he) (fun _ he => by cases he)
      (fun q => ?_) ht
    refine dueMsgs_le (hw.nodup .msg) (fun p hp => ?_) (fun p => ?_) q
    · rcases (hidx .msg p).mp hp with ⟨hp,_⟩ | hp
      · exact hp
      · cases hp
    · cases hmove
      rfl

/-- What a pass which began in `s` still has to take from `q`. -/
private def dueQueue (now : Nat) (s t : Ins) (q : Ptr) : Nat :=
  if q ∈ t.expiry.indexed .memqueue ∧ dueIn s.expiry .memqueue (now % 2^32) q then 1 else 0

private theorem expireQueues_covered {s s' : Ins} (hs : Covered (dueQueue now s s) s)
    (h : objsExpire (expiryHost now) now .memqueue s = .ok s') : ∃ R, Covered R s' := by
  refine ⟨_,(objsExpire_rule now .memqueue (fun t => Covered (dueQueue now s t) t) (fun _ ht => ht.stable.base)
    ?_ ?_ hs).result h⟩
  · intro t t' p ht hdue hdue₀ hobj
    have hmove := expireObj_memqueue hdue.mem hobj
    obtain ⟨hlost,hin⟩ := hmove.expireQueue_lost
    obtain ⟨_,hidx⟩ := hmove.indexed ht.stable.base.index
    refine hmove.covered hlost.yields trivial (fun _ _ he => by cases he) (fun _ he => by cases he) (fun q => ?_) ht
    by_cases hq : q = p
    · subst hq
      have hout : q ∉ t'.expiry.indexed .memqueue := by
        rw [hidx]
        simp [Atom.unlinks,Atom.links]
      simp only [dueQueue,hout,hin,hdue₀,and_self,false_and,if_true,if_false,Nat.zero_add,le_refl]
    · have hsub : q ∈ t'.expiry.indexed .memqueue → q ∈ t.expiry.indexed .memqueue := by
        rw [hidx]
        simp [Atom.unlinks,Atom.links,hq]
      simp only [dueQueue,hq,if_false,Nat.add_zero]
      split <;> simp_all
  · intro t t' ht hmove
    obtain ⟨_,hidx⟩ := hmove.indexed ht.stable.base.index
    refine hmove.covered (touch_yields hmove) trivial (fun _ _ he => by cases he) (fun _ he => by cases he)
      (fun q => ?_) ht
    simp only [dueQueue,hidx,Atom.unlinks,Atom.links,not_false_eq_true,and_true,or_false,Nat.add_zero,le_refl]

private theorem expireConsumers_kept {s s' : Ins} (hs : Stable s) (hi : QueueInv s) (hd : s.dangling = [])
    (h : objsExpire (expiryHost now) now .consumer s = .ok s') : QueueInv s' ∧ s'.dangling = [] := by
  refine ((objsExpire_rule now .consumer (fun t => Stable t ∧ QueueInv t ∧ t.dangling = []) (fun _ ht => ht.1.base)
    ?_ ?_ ⟨hs,hi,hd⟩).result h).2
  · rintro t t' c ⟨hst,hit,hdt⟩ hdue _ hobj
    obtain ⟨u,hc,hl⟩ := expireObj_consumer hst.base hdue.mem hobj
    have hu := hc.stable hst
    have hiu := hc.queueInv hst.base hst.ledger hit trivial
    have ht' := hl.stable hu
    have hi' := hl.queueInv hu.base hu.ledger hiu trivial
    refine ⟨ht',hi',?_⟩
    obtain ⟨hlost,_⟩ := hl.leave_lost
    -- the notice took a reference, so the one of the consumer is not the last
    have hlive : (t'.queues (u.consumers c).memqueue).freed = false := by
      have hself := congrFun hlost.queues (u.consumers c).memqueue
      rw [Function.update_self] at hself
      simp only [hself,decide_eq_false_iff_not]
      cases hc with
      | create htl htq hcr =>
        have hq := congrFun hcr.queues (t.consumers c).memqueue
        have hpos := hst.base.store.positive _ htq htl
        rw [Function.update_self] at hq
        rw [hcr.consumers,hq]
        simp only [initialRef]
        omega
    refine (hl.dangling_of hu.base (fun _ _ he => by cases he) (fun d he => by cases he; exact hlive) ?_).trans ?_
    · intro q hq _ hfreed
      by_cases hp : q = (u.consumers c).memqueue
      · rw [hp,hlive] at hfreed
        cases hfreed
      · have hself := congrFun hlost.queues q
        rw [Function.update_of_ne hp] at hself
        rw [hself,hq] at hfreed
        cases hfreed
    · cases hc with
      | create _ _ hcr => rw [hcr.dangling,hdt]
  · rintro t t' ⟨hst,hit,hdt⟩ hmove
    refine ⟨hmove.stable hst,hmove.queueInv hst.base hst.ledger hit trivial,?_⟩
    rw [(hmove.toQuiet rfl).dangling,hdt]

/-- A move that takes no reference away, or drops a message that nobody holds, frees nothing. -/
private theorem Move.unfreed {a : Atom} {s s' : Ins} (h : Move now a s s') (hs : Stable s) (hi : QueueInv s)
    (hd : s.dangling = []) (ha : a.frees = false ∨ ∃ m, a = .drop m) : QueueInv s' ∧ s'.dangling = [] := by
  have howns : a.owns s := by
    cases a <;> first | trivial | (rcases ha with ha | ⟨_,ha⟩ <;> cases ha)
  have hkeep : ∀ q < s.nextQueue, (s.queues q).freed = false → (s'.queues q).freed = false := by
    intro q hq hlive
    rcases ha with ha | ⟨m,rfl⟩
    · rw [h.freed_eq ha hq,hlive]
    · exact h.drop_live hs.base.store hq hlive
  refine ⟨h.queueInv hs.base hs.ledger hi howns,?_⟩
  rw [h.dangling_of hs.base ?_ ?_ ?_,hd]
  · rintro b m rfl
    rcases ha with ha | ⟨_,ha⟩ <;> cases ha
  · rintro c rfl
    rcases ha with ha | ⟨_,ha⟩ <;> cases ha
  · intro q hlive hpos hfreed
    have hq : q < s.nextQueue := hs.base.store.lt_of_refs (by omega)
    rw [hkeep q hq hlive] at hfreed
    cases hfreed

omit [Rebalance ExpiryNode] in
/-- The steps whose moves may take a reference away. -/
private theorem allows_unfreed {s : Ins} {l : Label} {a : Atom} (ha : l.allows s a)
    (hdel : ∀ q, l.event ≠ .resumeDelete q) (hpoll : ∀ b, l.event ≠ .resumePoll b)
    (hexp : ∀ t, l.event ≠ .expire t) : a.frees = false ∨ ∃ m, a = .drop m := by
  obtain ⟨now,event⟩ := l
  cases event with
  | put args => exact .inl (by rw [show a = _ from ha]; rfl)
  | post qId expiry body =>
    rcases ha with ⟨m,rfl⟩ | ⟨q,_,rfl⟩ | ⟨q,rfl⟩
    · exact .inr ⟨m,rfl⟩
    · exact .inl rfl
    · exact .inl rfl
  | poll args =>
    refine .inl ?_
    cases a <;> first | rfl | cases ha
  | delete qId =>
    obtain ⟨q,rfl⟩ := ha
    exact .inl rfl
  | head qId => cases ha
  | wake b => rcases ha with rfl | rfl | rfl <;> exact .inl rfl
  | resumePost q => rcases ha with rfl | rfl <;> exact .inl rfl
  | resumeDelete q => exact absurd rfl (hdel q)
  | resumePoll b => exact absurd rfl (hpoll b)
  | expire type => exact absurd rfl (hexp type)

omit [Rebalance ExpiryNode] in
/-- A step that starts under the guard, once its own handler is off the list and its binders are gone. -/
private theorem covered_start {l : Label} {s t : Ins} (hl : l.orderly s) (hs : Stable t) (hi : QueueInv t)
    (hd : t.dangling = []) (hnext : t.nextQueue = s.nextQueue) (hhand : t.handlers = l.others s)
    (hmsgs : t.msgs = s.msgs)
    (hqueue : ∀ q, (t.queues q).freed = (s.queues q).freed ∧ (t.queues q).refCount = (s.queues q).refCount ∧
      (t.queues q).msgQueue = (s.queues q).msgQueue)
    (hbind : ∀ q, (∀ β ∈ (s.queues q).memqueueBinders, l.event = .resumePoll β.cliBinder) →
      (t.queues q).memqueueBinders = []) : Covered (l.gives s) t := by
  refine ⟨hs,hi,hd,fun q hq hlive => ?_⟩
  obtain ⟨hfreed,href,hlist⟩ := hqueue q
  rcases hl.2 q (by rw [← hnext]; exact hq) (by rw [← hfreed]; exact hlive) with hlt | ⟨hb,hpost,hdel,hheld⟩
  · exact .inl (by rw [href]; exact hlt)
  · exact .inr ⟨hbind q hb,by rw [hhand]; exact hpost,by rw [hhand]; exact hdel,by rw [hlist,hmsgs]; exact hheld⟩

private theorem resumeDelete_owned {s s' : Ins} {q : Ptr} (hs : Owned s) (hl : Label.orderly s ⟨now,.resumeDelete q⟩)
    (hin : .delete q ∈ s.handlers) (h : memqueueRelease (wakeHandler s (.delete q)) q = .ok s') :
    ∃ R, Covered R s' := by
  have hw : Move now (.wakeup (.delete q)) s (wakeHandler s (.delete q)) := .wakeup s _
  have hr : Move now (.release q) _ s' := .release (memqueueRelease_effect h)
  have hc := covered_start hl (hw.stable hs.toStable) (hw.queueInv hs.base hs.ledger hs.owned trivial) hs.dangling
    rfl rfl rfl (fun _ => ⟨rfl,rfl,rfl⟩) (fun p hp => List.eq_nil_iff_forall_not_mem.mpr fun β hβ => by cases hp β hβ)
  refine ⟨fun _ => 0,hr.covered hr.release_lost.yields (hl.1 hin) (fun _ _ he => by cases he)
    (fun _ he => by cases he) (fun p => ?_) hc⟩
  simp only [Label.gives,hin,and_true,eq_comm (a := q)]
  omega

private theorem resumePoll_owned {s s' : Ins} {b : Ptr} (hs : Owned s) (hl : Label.orderly s ⟨now,.resumePoll b⟩)
    (hin : .pollWrite b ∈ s.handlers) (h : pollFinish (wakeHandler s (.pollWrite b)) b = .ok s') :
    ∃ R, Covered R s' := by
  have hw : Move now (.wakeup (.pollWrite b)) s (wakeHandler s (.pollWrite b)) := .wakeup s _
  have hst := hw.stable hs.toStable
  have hit := hw.queueInv hs.base hs.ledger hs.owned trivial
  have hout : .pollWait b ∉ s.handlers.erase (.pollWrite b) ∧ .pollWrite b ∉ s.handlers.erase (.pollWrite b) := by
    have hone := hs.pollers.once b
    have hpos := List.count_pos_iff.mpr hin
    constructor
    · intro hm
      have := List.count_pos_iff.mpr (List.mem_of_mem_erase hm)
      omega
    · intro hm
      have hcount := List.count_pos_iff.mpr hm
      rw [List.count_erase_self] at hcount
      omega
  cases (pollFinish_trace h : Trace (Move now) _ _ _) with
  | @cons _ _ _ u _ hub htr =>
    have hbu := hub.bindings hst.base hst.bindings
    have hu : u = memqueueUnbindAll (wakeHandler s (.pollWrite b)) b := by
      cases hub
      rfl
    have heff := memqueueUnbindAll_effect (wakeHandler s (.pollWrite b)) b
    rw [← hu] at heff
    have hnone : (u.clis b).memqueues = [] := by
      rw [heff.clis,Function.update_self]
      refine List.eq_nil_iff_forall_not_mem.mpr fun β hβ => ?_
      have := List.count_pos_iff.mpr hβ
      rw [List.count_diff] at this
      omega
    have hc := covered_start hl (hub.stable hst) (hub.queueInv hst.base hst.ledger hit trivial)
      (heff.dangling.trans hs.dangling) heff.frame.nextQueue heff.frame.handlers heff.msgs
      (fun q => by rw [heff.queues q]; exact ⟨rfl,rfl,rfl⟩) ?_
    · refine ⟨_,unpend_covered _ htr (by rw [heff.frame.handlers]; exact hout) ?_⟩
      have hgives : Label.gives s ⟨now,.resumePoll b⟩ =
          fun q => (s.clis b).pendingMsgs.countP fun m => (s.msgs m).memqueue = q := by
        funext q
        simp only [Label.gives,hin,if_true]
      rw [hgives] at hc
      rw [heff.msgs]
      exact hc
    · -- the binders left in `q` would be those of `b`, and `b` has none any more
      intro q hq
      refine List.eq_nil_iff_forall_not_mem.mpr fun β hβ => ?_
      have hhome := hbu.home q β hβ
      have hold : β ∈ (s.queues q).memqueueBinders := by
        rw [heff.queues q] at hβ
        exact List.diff_subset _ _ hβ
      have hcli : b = β.cliBinder := by
        have := hq β hold
        simpa using this
      have hmem := hbu.mem_iff.mp (by rw [hhome]; exact hβ)
      rw [← hcli,hnone] at hmem
      cases hmem

private theorem expire_owned {type : ObjType} {s s' : Ins} (hs : Owned s) (hl : Label.orderly s ⟨now,.expire type⟩)
    (h : objsExpire (expiryHost now) now type s = .ok s') : QueueInv s' ∧ s'.dangling = [] := by
  have hc := covered_start hl hs.toStable hs.owned hs.dangling rfl rfl rfl (fun _ => ⟨rfl,rfl,rfl⟩)
    (fun q hq => List.eq_nil_iff_forall_not_mem.mpr fun β hβ => by cases hq β hβ)
  cases type with
  | msg =>
    obtain ⟨R,hR⟩ := expireMsgs_covered (s := s) hc h
    exact ⟨hR.owned,hR.dangling⟩
  | memqueue =>
    have hgives : Label.gives s ⟨now,.expire .memqueue⟩ = dueQueue now s s := by
      funext q
      by_cases hd : dueIn s.expiry .memqueue (now % 2^32) q
      · simp only [Label.gives,dueQueue,hd,hd.mem,and_self,if_true]
      · simp only [Label.gives,dueQueue,hd,and_false,if_false]
    obtain ⟨R,hR⟩ := expireQueues_covered (s := s) (hgives ▸ hc) h
    exact ⟨hR.owned,hR.dangling⟩
  | consumer => exact expireConsumers_kept hs.toStable hs.owned hs.dangling h

theorem step_owned {s s' : Ins} {l : Label} {out : Option Response} (hs : Owned s) (hl : l.orderly s)
    (h : step s l = .ok (s',out)) : Owned s' := by
  have hc := step_coherent hs.toCoherent h
  have hkept : QueueInv s' ∧ s'.dangling = [] := by
    by_cases hrel : (∀ q, l.event ≠ .resumeDelete q) ∧ (∀ b, l.event ≠ .resumePoll b) ∧ ∀ t, l.event ≠ .expire t
    · obtain ⟨hdel,hpoll,hexp⟩ := hrel
      exact (coherent_keeps (fun t => QueueInv t ∧ t.dangling = []) hs.toCoherent
        (fun a t u ha ht hi hm => hm.unfreed ht hi.1 hi.2 (allows_unfreed ha hdel hpoll hexp))
        ⟨hs.owned,hs.dangling⟩ h).2
    · obtain ⟨now,event⟩ := l
      cases event with
      | resumeDelete q =>
        simp only [step] at h
        split at h
        · rename_i hin
          obtain ⟨t,ht,h⟩ := bind_ok h
          cases h
          obtain ⟨R,hR⟩ := resumeDelete_owned hs hl hin ht
          exact ⟨hR.owned,hR.dangling⟩
        · cases h
          exact ⟨hs.owned,hs.dangling⟩
      | resumePoll b =>
        simp only [step] at h
        split at h
        · rename_i hin
          obtain ⟨t,ht,h⟩ := bind_ok h
          cases h
          obtain ⟨R,hR⟩ := resumePoll_owned hs hl hin ht
          exact ⟨hR.owned,hR.dangling⟩
        · cases h
          exact ⟨hs.owned,hs.dangling⟩
      | expire type =>
        obtain ⟨t,ht,h⟩ := bind_ok h
        cases h
        exact expire_owned hs hl ht
      | put | post | poll | delete | head | wake | resumePost => simp at hrel
  exact ⟨hc,hkept.1,hkept.2⟩

end Moves

/-- A queue that expires, and a DELETE of it before that. -/
def scheduledDelete : List Label := [⟨0,.put ⟨100,0,0,0,[113]⟩⟩,⟨1,.delete [113]⟩,⟨2,.resumeDelete 0⟩]

/-- A queue that is posted to and polled, its message expired, then deleted. -/
def orderlyDelete : List Label :=
  [⟨0,.put ⟨0,0,0,0,[113]⟩⟩,⟨1,.post [113] 1000 [1]⟩,⟨2,.resumePost 0⟩,⟨3,.poll ⟨[⟨some [113],0,0,none,0⟩],1000⟩⟩,
    ⟨4,.resumePoll 0⟩,⟨1001,.expire .msg⟩,⟨1002,.delete [113]⟩,⟨1003,.resumeDelete 0⟩]

end Memqueue
