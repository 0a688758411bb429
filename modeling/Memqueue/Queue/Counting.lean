import Memqueue.Queue.System

/-! The reference counts in an int. A step in which none of them leaves the range of an int is the same for every
way of storing sums, so what holds of plain sums holds of the code as long as no count overflows. -/
namespace Memqueue
open Ins Fallible

/-- The counting stores every sum that an int can hold. -/
def Counting.Holds (C : Counting) : Prop := ∀ n, wrapInt n = n → C.count n = .ok n

theorem Counting.exact_holds : Counting.exact.Holds := fun _ _ => rfl

theorem Counting.wrapping_holds : Counting.wrapping.Holds := fun _ h => congrArg Except.ok h

theorem Counting.wrapping_bind {α : Type} (n : Int) (f : Int → Except Fault α) :
    (@Counting.count .wrapping n >>= f) = f (wrapInt n) := rfl

section Agreement
variable {C : Counting} (hC : C.Holds)
include hC

theorem Counting.Holds.checked (n : Int) : SameUnless .overflow (Counting.checked.count n) (C.count n) := by
  by_cases h : wrapInt n = n
  · exact .inr ((if_pos h).trans (hC n h).symm)
  · exact .inl (if_neg h)

theorem memqueueRetain_checked (s : Ins) (q : Ptr) :
    SameUnless .overflow (@memqueueRetain .checked s q) (@memqueueRetain C s q) :=
  .ite (.refl _) ((hC.checked _).bind fun _ => .refl _)

theorem memqueueRelease_checked (s : Ins) (q : Ptr) :
    SameUnless .overflow (@memqueueRelease .checked s q) (@memqueueRelease C s q) :=
  .ite (.refl _) ((hC.checked _).bind fun _ => .refl _)

theorem memqueueMsgRelease_checked (s : Ins) (m : Ptr) :
    SameUnless .overflow (@memqueueMsgRelease .checked s m) (@memqueueMsgRelease C s m) :=
  (hC.checked _).bind fun _ => .ite (.refl _)
    (.ite ((memqueueRelease_checked hC _ _).bind fun _ => .refl _) (memqueueRelease_checked hC _ _))

theorem memqueueMsgRetain_checked (s : Ins) (m : Ptr) :
    SameUnless .overflow (@memqueueMsgRetain .checked s m) (@memqueueMsgRetain C s m) :=
  (hC.checked _).bind fun _ => memqueueRetain_checked hC _ _

theorem pushMsg_checked (m : Ptr) (s : Ins) (β : MemqueueBinder) :
    SameUnless .overflow (@pushMsg .checked m s β) (@pushMsg C m s β) :=
  .ite ((memqueueMsgRetain_checked hC _ _).bind fun _ => .refl _) (.refl _)

theorem isMemqueueFull_checked (s : Ins) (q : Ptr) :
    SameUnless .overflow (@isMemqueueFull .checked s q) (@isMemqueueFull C s q) := by
  refine .ite (.refl _) (.ite (.refl _) (.ite ?_ (.refl _)))
  split
  · exact .refl _
  · exact (memqueueMsgRetain_checked hC _ _).bind fun t => (memqueueMsgRelease_checked hC _ _).bind fun _ => .refl _

theorem pollFinish_checked (s : Ins) (b : Ptr) :
    SameUnless .overflow (@pollFinish .checked s b) (@pollFinish C s b) :=
  .foldlM (fun t m => (memqueueMsgRelease_checked hC t m).bind fun _ => .refl _) _ _

theorem cliBinderEnqueueMsgs_checked (s : Ins) (b q : Ptr) (rev latest : Int) :
    SameUnless .overflow (@cliBinderEnqueueMsgs .checked s b q rev latest) (@cliBinderEnqueueMsgs C s b q rev latest) :=
  .foldlM (fun _ _ => .ite ((memqueueMsgRetain_checked hC _ _).bind fun _ => .refl _) (.refl _)) _ _

variable [Rebalance ExpiryNode]

theorem memqueueMsgCreate_checked (now : Nat) (s : Ins) (q : Ptr) (msecs : Int) (data : Bytes) :
    SameUnless .overflow (@memqueueMsgCreate _ .checked now s q msecs data)
      (@memqueueMsgCreate _ C now s q msecs data) :=
  .bind (.ite (.bind (.refl _) fun _ => memqueueMsgRetain_checked hC _ _) (.refl _)) fun _ =>
    .bind (.ite (memqueueMsgRetain_checked hC _ _) (.refl _)) fun _ => .foldlM (pushMsg_checked hC _) _ _

theorem consumerExpired_checked (now : Nat) (s : Ins) (c : Ptr) :
    SameUnless .overflow (@consumerExpired _ .checked now s c) (@consumerExpired _ C now s c) :=
  (memqueueMsgCreate_checked hC now s _ _ _).bind fun t => (memqueueRelease_checked hC t _).bind fun _ => .refl _

theorem memqueueRefreshConsumer_checked (now : Nat) (s : Ins) (q : Ptr) (id : Bytes) :
    SameUnless .overflow (@memqueueRefreshConsumer _ .checked now s q id)
      (@memqueueRefreshConsumer _ C now s q id) := by
  unfold memqueueRefreshConsumer
  split
  · exact .refl _
  · exact (memqueueMsgCreate_checked hC now _ _ _ _).bind fun t => (memqueueRetain_checked hC t _).bind fun _ => .refl _

theorem pollQueueArg_checked (now : Nat) (b : Ptr) (acc : PollAcc) (a : QueueArg) :
    SameUnless .overflow (@pollQueueArg _ .checked now b acc a) (@pollQueueArg _ C now b acc a) := by
  have hrefresh : ∀ s q, SameUnless .overflow (@pollRefresh _ .checked now s q a) (@pollRefresh _ C now s q a) := by
    intro s q
    unfold pollRefresh
    split
    · exact .ite (memqueueRefreshConsumer_checked hC now s q _) (.refl _)
    · exact .refl _
  unfold pollQueueArg
  split
  · exact .refl _
  · split
    · exact .refl _
    · exact .bind ((hrefresh _ _).bind fun t => .bind (.refl _) fun e => cliBinderEnqueueMsgs_checked hC _ _ _ _ _)
        fun _ => .refl _

theorem memqueuePollQueue_checked (now : Nat) (s : Ins) (args : PollArgs) :
    SameUnless .overflow (@memqueuePollQueue _ .checked now s args) (@memqueuePollQueue _ C now s args) :=
  .bind (.foldlM (pollQueueArg_checked hC now _) _ _) fun _ => .refl _

theorem onQueueCreate_checked (now : Nat) (s : Ins) (args : CreateArgs) :
    SameUnless .overflow (@onQueueCreate _ .checked now s args) (@onQueueCreate _ C now s args) := by
  unfold onQueueCreate
  split
  · exact .refl _
  · exact .bind (.bind (.refl _) fun t => (memqueueRetain_checked hC t _).bind fun _ => .refl _) fun _ => .refl _

theorem onMsgPost_checked (now : Nat) (s : Ins) (k : Bytes) (expiry : Int) (body : Bytes) :
    SameUnless .overflow (@onMsgPost _ .checked now s k expiry body) (@onMsgPost _ C now s k expiry body) := by
  unfold onMsgPost
  split
  · exact .refl _
  · exact (isMemqueueFull_checked hC s _).bind fun t =>
      .ite (.refl _) ((memqueueMsgCreate_checked hC now t.1 _ _ _).bind fun _ => .refl _)

theorem expireObj_checked (now : Nat) (type : ObjType) (s : Ins) (o : Ptr) :
    SameUnless .overflow (expireObj (@expiryHost _ .checked now) type s o)
      (expireObj (@expiryHost _ C now) type s o) := by
  refine .bind ?_ fun _ => .refl _
  cases type with
  | msg => exact memqueueMsgRelease_checked hC _ _
  | memqueue => exact memqueueRelease_checked hC _ _
  | consumer => exact consumerExpired_checked hC now _ _

theorem objsExpireFrom_checked (now : Nat) (type : ObjType) (t fuel : Nat) (a : Option Ptr) (s : Ins) :
    SameUnless .overflow (objsExpireFrom (@expiryHost _ .checked now) type t fuel a s)
      (objsExpireFrom (@expiryHost _ C now) type t fuel a s) := by
  induction fuel generalizing a s with
  | zero => exact .refl _
  | succ fuel ih =>
    cases a with
    | none => exact .refl _
    | some a =>
      simp only [objsExpireFrom]
      have hindex : (@expiryHost _ .checked now).index s = (@expiryHost _ C now).index s := rfl
      rw [hindex]
      split
      · exact .refl _
      · split
        · exact .refl _
        · exact .ite (.bind (.foldlM (expireObj_checked hC now type) _ _) fun _ => .bind (.refl _) fun _ => ih _ _)
            (ih _ _)

/-- A step in which no count leaves the range of an int is the same for every counting. -/
theorem step_checked (s : Ins) (l : Label) :
    SameUnless .overflow (@step _ .checked s l) (@step _ C s l) := by
  obtain ⟨now,event⟩ := l
  cases event with
  | put args => exact onQueueCreate_checked hC now s args
  | post k expiry body => exact onMsgPost_checked hC now s k expiry body
  | poll args => exact memqueuePollQueue_checked hC now s args
  | delete | head | wake | resumePost => exact .refl _
  | resumeDelete q => exact .ite ((memqueueRelease_checked hC _ q).bind fun _ => .refl _) (.refl _)
  | resumePoll b => exact .ite ((pollFinish_checked hC _ b).bind fun _ => .refl _) (.refl _)
  | expire type => exact (objsExpireFrom_checked hC now type _ _ _ _).bind fun _ => .refl _

end Agreement

section Int
variable [Rebalance ExpiryNode]

/-- The step of the server with every ref_count in an int, as the code has it. -/
def intStep (s : Ins) (l : Label) : Except Fault (Ins × Option Response) := @step _ .wrapping s l

/-- Runs of that server from memqueue_init. -/
abbrev IntReaches (P : Ins → Label → Prop) (tr : List Label) (s : Ins) : Prop := Run intStep P .init tr s

/-- The step takes no ref_count out of the range of an int. -/
def Label.counted (s : Ins) (l : Label) : Prop := @step _ .checked s l ≠ .error .overflow

instance (s : Ins) (l : Label) : Decidable (l.counted s) :=
  inferInstanceAs (Decidable (¬ _ = Except.error Fault.overflow))

theorem intStep_eq {s : Ins} {l : Label} (h : l.counted s) : intStep s l = step s l :=
  ((step_checked Counting.wrapping_holds s l).eq h).symm.trans ((step_checked Counting.exact_holds s l).eq h)

/-- As long as no count overflows, the runs are those of plain sums. -/
theorem exact_of_counted {P : Ins → Label → Prop} {tr : List Label} {s : Ins}
    (h : IntReaches (fun s l => P s l ∧ l.counted s) tr s) : Reaches P tr s :=
  (h.congr fun _ _ hp => intStep_eq hp.2).mono fun _ _ hp => hp.1

end Int
end Memqueue
