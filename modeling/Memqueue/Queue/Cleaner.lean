import Memqueue.Queue.Calls

/-! obj_cleaner beside the request handlers. The coroutines share the server state and switch only when they wait,
so the cleaner sees the index as the handlers left it, and its timeout may be old by then. -/
namespace Memqueue
open Ins Fallible Expiry

/-- Where obj_cleaner stands: in lthread_cond_wait with the time its timeout ends, or on its way into
another round because `sleep` is 1. -/
inductive Cleaner where
  | waiting (wake : Option Nat)
  | running
  deriving DecidableEq, Repr

structure Server where
  ins : Ins
  cleaner : Cleaner
  clock : Nat

/-- The first wait is lthread_cond_wait(cond, 0), before any request. -/
def Server.init : Server := ⟨.init,.waiting none,0⟩

inductive ServerEvent where
  | handler (event : Event)
  | cleaner
  deriving DecidableEq, Repr

structure ServerLabel where
  now : Nat
  event : ServerEvent
  deriving DecidableEq, Repr

/-- The wait is over: signalled, timed out, or not waiting at all. -/
def Server.awake (s : Server) (now : Nat) : Bool :=
  match s.cleaner with
  | .running => true
  | .waiting none => s.ins.expiry.signalled
  | .waiting (some w) => s.ins.expiry.signalled || decide (w ≤ now)

/-- A signal sent while nobody waits is lost. -/
def clearSignal (s : Ins) : Ins := setExpiry s { s.expiry with signalled := false }

/-- lthread_cond_wait with `sleep`, unless that is 1. -/
def cleanerWait (now sleep : Nat) : Cleaner :=
  if sleep = 1 then .running else .waiting (if sleep = 0 then none else some (now + sleep))

section Steps
variable [Rebalance ExpiryNode]

/-- One round of the loop of obj_cleaner, from the end of a wait to the next one. -/
def objCleaner (now : Nat) (s : Ins) : Except Fault (Ins × Nat) := do
  let s ← objsExpire (expiryHost now) now .msg s
  let s ← objsExpire (expiryHost now) now .memqueue s
  let s ← objsExpire (expiryHost now) now .consumer s
  pure (s,schedGetMinTimeout s.expiry now)

/-- Handlers run only while the cleaner waits, and leave the passes to it. -/
def serverStep (s : Server) (l : ServerLabel) : Except Fault (Server × Option Response) :=
  match l.event with
  | .handler (.expire _) => .ok (s,none)
  | .handler event =>
    if s.cleaner = .running then .ok (s,none)
    else do
      let (ins,out) ← step s.ins ⟨l.now,event⟩
      pure (⟨ins,s.cleaner,l.now⟩,out)
  | .cleaner =>
    if s.awake l.now then do
      let (ins,sleep) ← objCleaner l.now s.ins
      pure (⟨clearSignal ins,cleanerWait l.now sleep,l.now⟩,none)
    else .ok (s,none)

/-- The clock does not go back, and no deadline of this step passes 2^32 - 1. -/
def ServerLabel.timely (s : Server) (l : ServerLabel) : Prop :=
  s.clock ≤ l.now ∧ l.now < 2^32 ∧
    match l.event with
    | .handler event => ∀ c ∈ Label.calls s.ins ⟨l.now,event⟩, l.now + c.msecs < 2^32
    | .cleaner => True

instance (s : Server) (l : ServerLabel) : Decidable (l.timely s) := by
  unfold ServerLabel.timely
  cases l.event <;> infer_instance

/-- The sleeper's wake-up time covers every deadline, unless it has been signalled. -/
structure CleanerInv (s : Server) : Prop where
  base : Base s.ins
  sound : s.ins.expiry.Sound
  watched : ∀ wake, s.cleaner = .waiting wake → s.ins.expiry.Watched wake

omit [Rebalance ExpiryNode] in
theorem cleanerInv_init : CleanerInv .init where
  base := base_init
  sound := sound_empty
  watched wake _ := .inr fun type d hd => by cases hd

private theorem pass_keeps {now : Nat} {type : ObjType} {s s' : Ins} (hb : Base s) (hs : s.expiry.Sound)
    (h : objsExpire (expiryHost now) now type s = .ok s') : Base s' ∧ s'.expiry.Sound := by
  obtain ⟨as,ht,_⟩ := objsExpire_trace hb h
  refine ⟨trace_base ht hb,?_⟩
  exact ((objsExpire_index hb h).1.invariant (I := fun _ => True) (fun _ _ _ _ _ _ _ => trivial) hs trivial).1

private theorem handler_keeps {s : Server} {ins : Ins} {now : Nat} {event : Event} {out : Option Response}
    (hi : CleanerInv s) (hfits : ∀ c ∈ Label.calls s.ins ⟨now,event⟩, now + c.msecs < 2^32)
    (h : step s.ins ⟨now,event⟩ = .ok (ins,out)) : CleanerInv ⟨ins,s.cleaner,now⟩ := by
  obtain ⟨as,ht,_⟩ := step_trace hi.base h
  have hindex := step_index hi.base h
  refine ⟨trace_base ht hi.base,?_,?_⟩
  · exact (hindex.invariant (I := fun _ => True) (fun _ _ _ _ _ _ _ => trivial) hi.sound trivial).1
  · intro wake hwake
    exact (hindex.watched hi.sound hfits (hi.watched wake hwake)).2

private theorem round_keeps {ins ins' : Ins} {now sleep : Nat} (hb : Base ins) (hs : ins.expiry.Sound)
    (hnow : now < 2^32) (h : objCleaner now ins = .ok (ins',sleep)) :
    CleanerInv ⟨clearSignal ins',cleanerWait now sleep,now⟩ := by
  obtain ⟨s₁,h₁,h⟩ := bind_ok h
  obtain ⟨s₂,h₂,h⟩ := bind_ok h
  obtain ⟨s₃,h₃,h⟩ := bind_ok h
  cases h
  obtain ⟨hb₁,hs₁⟩ := pass_keeps hb hs h₁
  obtain ⟨hb₂,hs₂⟩ := pass_keeps hb₁ hs₁ h₂
  obtain ⟨hb₃,hs₃⟩ := pass_keeps hb₂ hs₂ h₃
  have hw := hb₃.index.wf
  have htouch : Move now .touch ins' (clearSignal ins') :=
    .touch ⟨hw.addrs,hw.bound,hw.nodup,hw.linked⟩ fun _ _ => Iff.rfl
  refine ⟨htouch.base hb₃,⟨hs₃.addrs,hs₃.bound,hs₃.sorted⟩,?_⟩
  intro wake hwake
  refine .inr ?_
  intro type d hd
  simp only [cleanerWait] at hwake
  split at hwake
  · cases hwake
  · rename_i hne
    cases hwake
    have hle := schedGetMinTimeout_le hs₃ hne type hd
    rw [Nat.mod_eq_of_lt hnow] at hle
    split
    · rename_i hzero
      have hnone : d ∈ ([] : List Nat) := schedGetMinTimeout_zero hs₃ hzero type ▸ hd
      cases hnone
    · exact ⟨_,rfl,hle⟩

theorem serverStep_keeps {s s' : Server} {l : ServerLabel} {out : Option Response} (hi : CleanerInv s) (hl : l.timely s)
    (h : serverStep s l = .ok (s',out)) : CleanerInv s' := by
  obtain ⟨now,event⟩ := l
  obtain ⟨_,hnow,hfits⟩ := hl
  simp only [serverStep] at h
  split at h
  · cases h
    exact hi
  · split at h
    · cases h
      exact hi
    · obtain ⟨⟨ins,out'⟩,hstep,h⟩ := bind_ok h
      cases h
      exact handler_keeps hi hfits hstep
  · split at h
    · obtain ⟨⟨ins,sleep⟩,hround,h⟩ := bind_ok h
      cases h
      exact round_keeps hi.base hi.sound hnow hround
    · cases h
      exact hi

omit [Rebalance ExpiryNode] in
private theorem root_nil {e : Expiry} {type : ObjType} (h : e.deadlines type = []) : e.root type = .nil := by
  cases hr : e.root type with
  | nil => rfl
  | node c l a r =>
    rw [deadlines,hr] at h
    simp at h

/-- Whenever the cleaner is blocked and not signalled, it wakes no later than the smallest deadline of the three trees,
and it waits without a timeout only while they are empty. -/
theorem no_missed_deadline {tr : List ServerLabel} {s : Server} (h : Run serverStep (fun s l => l.timely s) .init tr s)
    {wake : Option Nat} (hwait : s.cleaner = .waiting wake) (hquiet : s.ins.expiry.signalled = false) :
    (∀ w, wake = some w → ∀ type, ∀ n ∈ (s.ins.expiry.root type).inorder, w ≤ n.msecs) ∧
      (wake = none → ∀ type, s.ins.expiry.root type = .nil) := by
  have hinv : CleanerInv s := h.invariant (fun s l s' out hi hl hs => serverStep_keeps hi hl hs) cleanerInv_init
  rcases hinv.watched wake hwait with hsig | hcover
  · rw [hquiet] at hsig
    cases hsig
  · refine ⟨?_,?_⟩
    · rintro w rfl type n hn
      obtain ⟨w',hw',hle⟩ := hcover type n.msecs (List.mem_map_of_mem hn)
      cases hw'
      exact hle
    · rintro rfl type
      refine root_nil (List.eq_nil_iff_forall_not_mem.mpr ?_)
      intro d hd
      obtain ⟨w,hw,_⟩ := hcover type d hd
      cases hw

end Steps

/-- A queue with an expiry wakes the cleaner, which then sleeps until the queue's deadline and is not signalled
for a message that lives longer. -/
theorem no_missed_deadline_sleeping :
    letI := Rebalance.plain ExpiryNode
    ∃ s, Run serverStep (fun s l => l.timely s) .init [⟨5,.handler (.put ⟨100,0,0,0,[113]⟩)⟩,⟨6,.cleaner⟩,
        ⟨7,.handler (.post [113] 500 [1])⟩] s ∧
      s.cleaner = .waiting (some 105) ∧ s.ins.expiry.deadlines .msg = [507] ∧
      ∀ type, ∀ n ∈ (s.ins.expiry.root type).inorder, 105 ≤ n.msecs := by
  let _ := Rebalance.plain ExpiryNode
  obtain ⟨s,hs,hobs⟩ := Option.map_eq_some_iff.mp (show (exec serverStep (fun s l => decide (l.timely s)) .init
      [⟨5,.handler (.put ⟨100,0,0,0,[113]⟩)⟩,⟨6,.cleaner⟩,⟨7,.handler (.post [113] 500 [1])⟩]).map
        (fun s => (s.cleaner,s.ins.expiry.signalled,s.ins.expiry.deadlines .msg)) =
    some (.waiting (some 105),false,[507]) by decide +kernel)
  simp only [Prod.mk.injEq] at hobs
  obtain ⟨hwait,hquiet,hmsg⟩ := hobs
  have hr : Run serverStep (fun s l => l.timely s) .init _ s := (Run.of_exec hs).mono fun _ _ hg => by simpa using hg
  exact ⟨s,hr,hwait,hmsg,(no_missed_deadline hr hwait hquiet).1 105 rfl⟩

end Memqueue
