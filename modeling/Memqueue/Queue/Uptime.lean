import Memqueue.Queue.Delays
import Memqueue.Queue.Args

/-! Expiry values on their way from the query string into the index. They pass through atoi and uint32_t,
and are added to a clock that is cut to 32 bits; times here are true milliseconds. -/
namespace Memqueue
open Ins Fallible Expiry

/-- The value a client wrote, before atoi cuts it. -/
def sentValue (query : Table Bytes Bytes) (field : Bytes) : Int := ((query.get field).map strtol).getD 0

/-- Events without an expiry of their own. -/
def Event.plain : Event → Bool
  | .put _ | .post _ _ _ => false
  | _ => true

/-- Requests with their query string; everything else as the server sees it. -/
inductive Request where
  | put (qId : Bytes) (query : Table Bytes Bytes)
  | post (qId : Bytes) (query : Table Bytes Bytes) (body : Bytes)
  | other (event : { e : Event // e.plain = true })

def Request.event : Request → Event
  | .put qId query => .put (argsMemqueueCreatePopulate qId query)
  | .post qId query body => .post qId (intField query expiryField) body
  | .other e => e.val

/-- The server with a record of the values sent for each queue and message, and of the calls of
obj_sched_expire with their times. -/
structure Timed where
  ins : Ins
  sentExpiry : Ptr → Int
  sentConsumerExpiry : Ptr → Int
  sentMsg : Ptr → Int
  calls : List (Nat × Sched)
  clock : Nat

namespace Timed

def init : Timed := ⟨.init,fun _ => 0,fun _ => 0,fun _ => 0,[],0⟩

/-- The value sent for an object: with the PUT of a queue, for its consumers too, or with the POST of a message.
A notice has the 2000 of the source. -/
def value (x : Timed) : ObjType → Ptr → Int
  | .msg, m => x.sentMsg m
  | .memqueue, q => x.sentExpiry q
  | .consumer, c => x.sentConsumerExpiry (x.ins.consumers c).memqueue

/-- The values a request brings for the objects it may make. -/
def send (x : Timed) : Request → Timed
  | .put _ query => { x with
      sentExpiry := Function.update x.sentExpiry x.ins.nextQueue (sentValue query expiryField)
      sentConsumerExpiry := Function.update x.sentConsumerExpiry x.ins.nextQueue (sentValue query consumerExpiryField) }
  | .post _ query _ => { x with
      sentMsg := fun m => if x.ins.nextMsg ≤ m then sentValue query expiryField else x.sentMsg m }
  | .other _ => { x with sentMsg := fun m => if x.ins.nextMsg ≤ m then 2000 else x.sentMsg m }

end Timed

structure TimedLabel where
  now : Nat
  request : Request

/-- A sent value that reaches obj_sched_expire unchanged, or not at all. -/
def unsignedKeeps (v : Int) : Prop := v % 2^32 = 0 ∨ (0 < v ∧ v < 2^32)

/-- The same for the int of a POST. -/
def signedKeeps (v : Int) : Prop := wrapInt v ≤ 0 ∨ (0 < v ∧ v < 2^31)

def Request.keepsValues : Request → Prop
  | .put _ query => unsignedKeeps (sentValue query expiryField) ∧ unsignedKeeps (sentValue query consumerExpiryField)
  | .post _ query _ => signedKeeps (sentValue query expiryField)
  | .other _ => True

instance (v : Int) : Decidable (unsignedKeeps v) := inferInstanceAs (Decidable (_ ∨ _))

instance (v : Int) : Decidable (signedKeeps v) := inferInstanceAs (Decidable (_ ∨ _))

instance (r : Request) : Decidable r.keepsValues :=
  match r with
  | .put _ _ => inferInstanceAs (Decidable (_ ∧ _))
  | .post _ query _ => inferInstanceAs (Decidable (signedKeeps (sentValue query expiryField)))
  | .other _ => .isTrue trivial

section Steps
variable [Rebalance ExpiryNode]

def timedStep (x : Timed) (l : TimedLabel) : Except Fault (Timed × Option Response) := do
  let (ins,out) ← step x.ins ⟨l.now,l.request.event⟩
  pure ({ x.send l.request with
    ins := ins
    calls := (Label.calls x.ins ⟨l.now,l.request.event⟩).map (fun c => (l.now,c)) ++ x.calls
    clock := l.now },out)

/-- The clock does not go back, the values sent survive their conversions, and no deadline of the step wraps. -/
def TimedLabel.admitted (x : Timed) (l : TimedLabel) : Prop :=
  x.clock ≤ l.now ∧ l.request.keepsValues ∧
    ∀ c ∈ Label.calls x.ins ⟨l.now,l.request.event⟩, l.now % 2^32 + c.msecs < 2^32

instance (x : Timed) (l : TimedLabel) : Decidable (l.admitted x) := inferInstanceAs (Decidable (_ ∧ _ ∧ _))

omit [Rebalance ExpiryNode] in
private theorem intField_eq (query : Table Bytes Bytes) (field : Bytes) :
    intField query field = wrapInt (sentValue query field) := by
  unfold intField sentValue
  cases query.get field <;> rfl

omit [Rebalance ExpiryNode] in
private theorem wrapU32_kept {v : Int} (h : unsignedKeeps v) (hpos : 0 < wrapU32 (wrapInt v)) :
    v = wrapU32 (wrapInt v) := by
  have hmod : wrapInt v % 2^32 = v % 2^32 := Int.bmod_emod
  unfold wrapU32 at hpos ⊢
  rw [hmod] at hpos ⊢
  unfold unsignedKeeps at h
  omega

omit [Rebalance ExpiryNode] in
private theorem wrapInt_kept {v : Int} (h : signedKeeps v) (hpos : 0 < wrapInt v) : v = wrapInt v := by
  unfold signedKeeps at h
  have hlt : 0 < v ∧ v < 2^31 := h.resolve_left (by omega)
  exact (wrapInt_of_bounds (by omega) (by omega)).symm

/-- Values that made it into a delay are the values sent. -/
structure Faithful (x : Timed) : Prop where
  expiry : ∀ q < x.ins.nextQueue, 0 < (x.ins.queues q).expiry → x.sentExpiry q = (x.ins.queues q).expiry
  consumerExpiry : ∀ q < x.ins.nextQueue, 0 < (x.ins.queues q).consumerExpiry →
    x.sentConsumerExpiry q = (x.ins.queues q).consumerExpiry
  msg : ∀ m < x.ins.nextMsg, 0 < (x.ins.msgs m).expiry → x.sentMsg m = (x.ins.msgs m).expiry

omit [Rebalance ExpiryNode] in
theorem Faithful.value {x : Timed} (hf : Faithful x) (hb : Base x.ins) {c : Sched} (hc : x.ins.explains c) :
    x.value c.type c.obj = c.msecs := by
  obtain ⟨type,o,msecs⟩ := c
  obtain ⟨hlt,heq,hpos⟩ := hc
  dsimp only at hlt heq hpos ⊢
  cases type with
  | msg =>
    rw [delay] at heq
    rw [Timed.value,hf.msg o hlt (by omega)]
    omega
  | memqueue =>
    rw [delay] at heq
    rw [Timed.value,hf.expiry o hlt (by omega),heq]
  | consumer =>
    rw [delay] at heq
    rw [Timed.value,hf.consumerExpiry _ (hb.consumerOwner o hlt) (by omega),heq]

private theorem step_sameQueue {s s' : Ins} {l : Label} {out : Option Response} (hb : Base s)
    (h : step s l = .ok (s',out)) {q : Ptr} (hq : q < s.nextQueue) :
    (s'.queues q).expiry = (s.queues q).expiry ∧ (s'.queues q).consumerExpiry = (s.queues q).consumerExpiry := by
  obtain ⟨as,has,_⟩ := step_trace hb h
  refine (has.invariant (I := fun t => s.nextQueue ≤ t.nextQueue ∧ (t.queues q).expiry = (s.queues q).expiry ∧
    (t.queues q).consumerExpiry = (s.queues q).consumerExpiry) ?_ ⟨le_rfl,rfl,rfl⟩).2
  rintro a t u _ ⟨hle,he,hc⟩ hm
  have hsame := hm.sameQueue (lt_of_lt_of_le hq hle)
  exact ⟨hle.trans hm.next_le.2.1,hsame.expiry.trans he,hsame.consumerExpiry.trans hc⟩

private theorem step_oldMsg {s s' : Ins} {l : Label} {out : Option Response} (hb : Base s) (h : step s l = .ok (s',out))
    {m : Ptr} (hm : m < s.nextMsg) : (s'.msgs m).expiry = (s.msgs m).expiry := by
  obtain ⟨as,has,_⟩ := step_trace hb h
  refine (has.invariant (I := fun t => s.nextMsg ≤ t.nextMsg ∧ (t.msgs m).expiry = (s.msgs m).expiry) ?_ ⟨le_rfl,rfl⟩).2
  rintro a t u _ ⟨hle,he⟩ hmove
  exact ⟨hle.trans hmove.next_le.1,(hmove.sameMsg (lt_of_lt_of_le hm hle)).expiry.trans he⟩

/-- A new queue holds the sent values as they come out of atoi and uint32_t. -/
private theorem step_newQueue {x : Timed} {ins : Ins} {l : TimedLabel} {out : Option Response} (hb : Base x.ins)
    (h : step x.ins ⟨l.now,l.request.event⟩ = .ok (ins,out)) {q : Ptr} (hq : ¬ q < x.ins.nextQueue)
    (hq' : q < ins.nextQueue) :
    ∃ k query, l.request = .put k query ∧ q = x.ins.nextQueue ∧
      (ins.queues q).expiry = wrapU32 (wrapInt (sentValue query expiryField)) ∧
      (ins.queues q).consumerExpiry = wrapU32 (wrapInt (sentValue query consumerExpiryField)) := by
  obtain ⟨args,hev,hmove⟩ := step_put hb h (Nat.not_lt.mp hq) hq'
  cases hr : l.request with
  | put k query =>
    rw [hr] at hev
    cases hev
    cases hmove with
    | putQueue _ _ _ =>
      have heq : q = x.ins.nextQueue := Nat.le_antisymm (Nat.lt_succ_iff.mp hq') (Nat.not_lt.mp hq)
      subst heq
      refine ⟨k,query,rfl,rfl,?_,?_⟩
      · simp [setExpiry,addQueue,newQueue,argsMemqueueCreatePopulate,intField_eq]
      · simp [setExpiry,addQueue,newQueue,argsMemqueueCreatePopulate,intField_eq]
  | post k query body =>
    rw [hr] at hev
    cases hev
  | other e =>
    rw [hr] at hev
    have hplain := e.property
    rw [show e.val = .put args from hev] at hplain
    cases hplain

private theorem put_keepsMsgs {s s' : Ins} {now : Nat} {args : CreateArgs} {out : Option Response} (hb : Base s)
    (h : step s ⟨now,.put args⟩ = .ok (s',out)) : s'.nextMsg = s.nextMsg := by
  obtain ⟨as,has,ha⟩ := step_trace hb h
  refine has.invariant (I := fun t => t.nextMsg = s.nextMsg) ?_ rfl
  intro a t u hx ht hm
  rcases hm.nextMsg with hn | ⟨q,msecs,data,rfl,_⟩
  · exact hn.trans ht
  · cases ha _ hx

private theorem faithful_keeps {x x' : Timed} {l : TimedLabel} {out : Option Response} (hb : Base x.ins)
    (hf : Faithful x) (hk : l.request.keepsValues) (h : timedStep x l = .ok (x',out)) : Faithful x' := by
  obtain ⟨⟨ins,out'⟩,hstep,h⟩ := bind_ok h
  cases h
  refine ⟨?_,?_,?_⟩
  · intro q hq hpos
    by_cases hold : q < x.ins.nextQueue
    · have hsame := (step_sameQueue hb hstep hold).1
      have hsent : (x.send l.request).sentExpiry q = x.sentExpiry q := by
        cases l.request with
        | put k query => exact Function.update_of_ne (Nat.ne_of_lt hold) _ _
        | post | other => rfl
      dsimp only at hpos ⊢
      rw [hsent,hsame]
      exact hf.expiry q hold (hsame ▸ hpos)
    · obtain ⟨k,query,hr,rfl,he,_⟩ := step_newQueue hb hstep hold hq
      rw [hr] at hk
      dsimp only at hpos ⊢
      rw [he] at hpos ⊢
      rw [hr,Timed.send]
      dsimp only
      rw [Function.update_self]
      exact wrapU32_kept hk.1 hpos
  · intro q hq hpos
    by_cases hold : q < x.ins.nextQueue
    · have hsame := (step_sameQueue hb hstep hold).2
      have hsent : (x.send l.request).sentConsumerExpiry q = x.sentConsumerExpiry q := by
        cases l.request with
        | put k query => exact Function.update_of_ne (Nat.ne_of_lt hold) _ _
        | post | other => rfl
      dsimp only at hpos ⊢
      rw [hsent,hsame]
      exact hf.consumerExpiry q hold (hsame ▸ hpos)
    · obtain ⟨k,query,hr,rfl,_,hc⟩ := step_newQueue hb hstep hold hq
      rw [hr] at hk
      dsimp only at hpos ⊢
      rw [hc] at hpos ⊢
      rw [hr,Timed.send]
      dsimp only
      rw [Function.update_self]
      exact wrapU32_kept hk.2 hpos
  · intro m hm hpos
    by_cases hold : m < x.ins.nextMsg
    · have hsame := step_oldMsg hb hstep hold
      have hsent : (x.send l.request).sentMsg m = x.sentMsg m := by
        cases l.request with
        | put k query => rfl
        | post | other => exact if_neg (Nat.not_le.mpr hold)
      dsimp only at hpos ⊢
      rw [hsent,hsame]
      exact hf.msg m hold (hsame ▸ hpos)
    · have hnew := step_msgExpiry hb hstep (Nat.not_lt.mp hold) hm
      dsimp only at hpos ⊢
      rw [hnew] at hpos ⊢
      cases hr : l.request with
      | put k query =>
        rw [hr] at hstep
        exact absurd hm (put_keepsMsgs hb hstep ▸ hold)
      | post k query body =>
        rw [hr] at hk hpos
        rw [Timed.send]
        dsimp only
        rw [if_pos (Nat.not_lt.mp hold)]
        simp only [Label.msecs,Request.event,intField_eq] at hpos ⊢
        exact wrapInt_kept hk hpos
      | other e =>
        rw [Timed.send]
        dsimp only
        rw [if_pos (Nat.not_lt.mp hold)]
        have hplain := e.property
        simp only [Label.msecs,Request.event]
        split
        · rename_i heq
          rw [heq] at hplain
          cases hplain
        · rfl

/-- What a run of admitted requests keeps: each linked object stands at the deadline of its latest call. -/
structure TimedInv (x : Timed) : Prop where
  coherent : Coherent x.ins
  delays : Delays x.ins
  sound : x.ins.expiry.Sound
  faithful : Faithful x
  past : ∀ p ∈ x.calls, p.1 ≤ x.clock
  explained : ∀ p ∈ x.calls, x.ins.explains p.2 ∧ p.1 % 2^32 + p.2.msecs < 2^32
  latest : x.ins.expiry.Latest x.calls

omit [Rebalance ExpiryNode] in
theorem timedInv_init : TimedInv .init where
  coherent := coherent_init
  delays := delays_init
  sound := sound_empty
  faithful := ⟨fun _ h => (by cases h),fun _ h => (by cases h),fun _ h => (by cases h)⟩
  past _ h := by cases h
  explained _ h := by cases h
  latest _ _ _ h := by
    obtain ⟨n,hn,_⟩ := h
    cases hn

theorem timedStep_keeps {x x' : Timed} {l : TimedLabel} {out : Option Response} (hi : TimedInv x) (hl : l.admitted x)
    (h : timedStep x l = .ok (x',out)) : TimedInv x' := by
  have hfaithful := faithful_keeps hi.coherent.base hi.faithful hl.2.1 h
  obtain ⟨⟨ins,out'⟩,hstep,h⟩ := bind_ok h
  cases h
  obtain ⟨hclock,_,hfits⟩ := hl
  obtain ⟨hcalls,hdelays⟩ := step_explained hi.coherent hi.delays hstep
  have hindex := step_index hi.coherent.base hstep
  have hpast : ∀ p ∈ x.calls, p.1 ≤ l.now := fun p hp => (hi.past p hp).trans hclock
  refine ⟨step_coherent hi.coherent hstep,hdelays,?_,hfaithful,?_,?_,hindex.latest hi.sound hpast hi.latest⟩
  · exact (hindex.invariant (I := fun _ => True) (fun _ _ _ _ _ _ _ => trivial) hi.sound trivial).1
  · intro p hp
    rcases List.mem_append.mp hp with hp | hp
    · obtain ⟨c,_,rfl⟩ := List.mem_map.mp hp
      exact le_rfl
    · exact hpast p hp
  · intro p hp
    rcases List.mem_append.mp hp with hp | hp
    · obtain ⟨c,hc,rfl⟩ := List.mem_map.mp hp
      exact ⟨hcalls c hc,hfits c hc⟩
    · obtain ⟨as,has,_⟩ := step_trace hi.coherent.base hstep
      exact ⟨trace_explains has hi.coherent.base (hi.explained p hp).1,(hi.explained p hp).2⟩

end Steps

end Memqueue
