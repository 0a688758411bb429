import Mathlib

/-! Numbers read digit by digit from the front, with a bound the value must not pass.
The test before each step is the usual one, with the quotient and the remainder of the bound. -/
namespace Memqueue

/-- The value of further digits behind `v`, the most significant one first. -/
def horner (b v : Nat) (ds : List Nat) : Nat := ds.foldl (fun v d => v * b + d) v

section Horner
variable {b v : Nat} {ds : List Nat}

@[simp] theorem horner_nil : horner b v [] = v := rfl

@[simp] theorem horner_cons (d : Nat) : horner b v (d :: ds) = horner b (v * b + d) ds := rfl

theorem horner_eq_ofDigits (b : Nat) (ds : List Nat) : horner b 0 ds = Nat.ofDigits b ds.reverse := by
  rw [Nat.ofDigits_eq_foldr,List.foldr_reverse,horner]
  refine congrArg (fun f => List.foldl f 0 ds) (funext fun v => funext fun d => ?_)
  rw [Nat.add_comm,Nat.mul_comm]
  rfl

theorem le_horner (hb : 0 < b) (v : Nat) (ds : List Nat) : v ≤ horner b v ds := by
  induction ds generalizing v with
  | nil => exact le_rfl
  | cons d ds ih =>
    calc
      v ≤ v * b := Nat.le_mul_of_pos_right v hb
      _ ≤ v * b + d := Nat.le_add_right _ _
      _ ≤ _ := ih (v * b + d)

/-- A digit fits behind `v` exactly if `v` is below the quotient of the bound, or at it with a digit up to the
remainder. -/
theorem fits_iff {M d : Nat} (hd : d < b) : v * b + d ≤ M ↔ ¬(M / b < v ∨ v = M / b ∧ M % b < d) := by
  have hM := Nat.div_add_mod M b
  have hr := Nat.mod_lt M (Nat.zero_lt_of_lt hd)
  generalize M / b = q at *
  generalize M % b = r at *
  rw [Nat.mul_comm] at hM
  rcases lt_trichotomy v q with h | rfl | h
  · have hmul : v * b + b ≤ q * b := by
      calc
        v * b + b = (v + 1) * b := (Nat.succ_mul v b).symm
        _ ≤ q * b := Nat.mul_le_mul_right b h
    constructor
    · omega
    · omega
  · omega
  · have hmul : q * b + b ≤ v * b := by
      calc
        q * b + b = (q + 1) * b := (Nat.succ_mul q b).symm
        _ ≤ v * b := Nat.mul_le_mul_right b h
    constructor
    · omega
    · omega

end Horner
end Memqueue
