import Mathlib

/-! Linear probing: a ring of cells searched from a home position, one cell after another.
The cell at distance `j` from `n` is `(n + j) % size`. -/
namespace Memqueue.Probing
variable {size : Nat}

/-- The cell after `n`. -/
def next (size n : Nat) : Nat := if n + 1 = size then 0 else n + 1

theorem next_eq {n : Nat} (h : n < size) : next size n = (n + 1) % size := by
  unfold next
  split
  case isTrue heq => rw [heq,Nat.mod_self]
  case isFalse hne => rw [Nat.mod_eq_of_lt (by omega)]

theorem next_lt {n : Nat} (h : n < size) : next size n < size := by
  rw [next_eq h]
  exact Nat.mod_lt _ (by omega)

/-- The first of `fuel` cells from `n` on at which `p` holds. -/
def probe (size : Nat) (p : Nat → Bool) : Nat → Nat → Option Nat
  | 0,_ => none
  | fuel + 1,n => if p n then some n else probe size p fuel (next size n)

/-- The first cell is at distance 0, the others one further than from the next cell. -/
private theorem next_add {n : Nat} (h : n < size) (j : Nat) : (next size n + j) % size = (n + (j + 1)) % size := by
  rw [next_eq h,Nat.mod_add_mod]
  congr 1
  omega

theorem probe_eq_some {p : Nat → Bool} {fuel n i : Nat} (h : n < size) :
    probe size p fuel n = some i ↔
      ∃ j < fuel, i = (n + j) % size ∧ p i = true ∧ ∀ k < j, p ((n + k) % size) = false := by
  induction fuel generalizing n with
  | zero => simp [probe]
  | succ fuel ih =>
    rw [probe]
    split
    case isTrue hp =>
      constructor
      · rintro ⟨⟩
        exact ⟨0,by omega,by rw [Nat.add_zero,Nat.mod_eq_of_lt h],hp,by simp⟩
      · rintro ⟨j,_,rfl,_,hbefore⟩
        cases j with
        | zero => rw [Nat.add_zero,Nat.mod_eq_of_lt h]
        | succ j =>
          have h0 := hbefore 0 (Nat.succ_pos j)
          rw [Nat.add_zero,Nat.mod_eq_of_lt h,hp] at h0
          cases h0
    case isFalse hp =>
      rw [ih (next_lt h)]
      constructor
      · rintro ⟨j,hj,hi,hpi,hbefore⟩
        refine ⟨j + 1,by omega,by rw [hi,next_add h],hpi,?_⟩
        intro k hk
        cases k with
        | zero => rw [Nat.add_zero,Nat.mod_eq_of_lt h]; exact eq_false_of_ne_true hp
        | succ k => rw [← next_add h]; exact hbefore k (by omega)
      · rintro ⟨j,hj,hi,hpi,hbefore⟩
        cases j with
        | zero =>
          rw [Nat.add_zero,Nat.mod_eq_of_lt h] at hi
          rw [hi] at hpi
          exact absurd hpi hp
        | succ j =>
          refine ⟨j,by omega,by rw [hi,next_add h],hpi,?_⟩
          intro k hk
          rw [next_add h]
          exact hbefore (k + 1) (by omega)

/-- Every cell of the ring is at some distance from `n`. -/
theorem exists_distance {n i : Nat} (hn : n < size) (hi : i < size) : ∃ j < size, i = (n + j) % size := by
  rcases Nat.lt_or_ge i n with hlt | hge
  · refine ⟨size - n + i,by omega,?_⟩
    rw [show n + (size - n + i) = i + size by omega,Nat.add_mod_right,Nat.mod_eq_of_lt hi]
  · refine ⟨i - n,by omega,?_⟩
    rw [Nat.add_sub_cancel' hge,Nat.mod_eq_of_lt hi]

/-- A full turn finds a cell if there is one. -/
theorem probe_isSome {p : Nat → Bool} {n : Nat} (hn : n < size) (h : ∃ i < size, p i = true) :
    ∃ i, probe size p size n = some i := by
  obtain ⟨i,hi,hp⟩ := h
  obtain ⟨j,hj,rfl⟩ := exists_distance hn hi
  have hex : ∃ j, p ((n + j) % size) = true := ⟨j,hp⟩
  classical
  refine ⟨(n + Nat.find hex) % size,(probe_eq_some hn).mpr ⟨Nat.find hex,?_,rfl,Nat.find_spec hex,?_⟩⟩
  · exact Nat.lt_of_le_of_lt (Nat.find_min' hex hp) hj
  · intro k hk
    exact eq_false_of_ne_true (Nat.find_min hex hk)

/-- The cell found is on the ring, satisfies `p`, and is the nearest such cell. -/
theorem probe_spec {p : Nat → Bool} {n i : Nat} (hn : n < size) (h : probe size p size n = some i) :
    i < size ∧ p i = true ∧ ∃ j < size, i = (n + j) % size ∧ ∀ k < j, p ((n + k) % size) = false := by
  obtain ⟨j,hj,hi,hp,hbefore⟩ := (probe_eq_some hn).mp h
  exact ⟨hi ▸ Nat.mod_lt _ (by omega),hp,j,hj,hi,hbefore⟩

end Memqueue.Probing
