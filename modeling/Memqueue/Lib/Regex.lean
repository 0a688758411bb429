import Mathlib

/-! Backtracking pattern search: all ways to match in order of preference, greedy first.
A search takes the leftmost start that has a match and the preferred match there. -/
namespace Memqueue

/-- Patterns over symbols `α` with capture groups named by `ν`. -/
inductive Pattern (α ν : Type) where
  | set (p : α → Bool)
  | seq (a b : Pattern α ν)
  | opt (a : Pattern α ν)
  | star (a : Pattern α ν)
  | group (name : ν) (a : Pattern α ν)

namespace Pattern
variable {α ν : Type}

/-- What has been captured so far. -/
abbrev Captures (α ν : Type) := List (ν × List α)

/-- One symbol or more of `a`, greedy. -/
def plus (a : Pattern α ν) : Pattern α ν := .seq a (.star a)

/-- The text `w`, symbol by symbol, and then `a`. -/
def lit [DecidableEq α] (w : List α) (a : Pattern α ν) : Pattern α ν :=
  w.foldr (fun c r => .seq (.set fun x => x = c) r) a

/-- Greedy repetition of a matcher; a turn that consumes nothing is not repeated. -/
def repeatGreedy (f : List α → Captures α ν → List (List α × Captures α ν)) :
    Nat → List α → Captures α ν → List (List α × Captures α ν)
  | 0, s, c => [(s,c)]
  | n + 1, s, c =>
    ((f s c).flatMap fun m => if m.1.length < s.length then repeatGreedy f n m.1 m.2 else []) ++ [(s,c)]

/-- The matches of a pattern at the head of `s`, each as what it leaves and what it captured. -/
def run : Pattern α ν → List α → Captures α ν → List (List α × Captures α ν)
  | .set _, [], _ => []
  | .set p, x :: s, c => if p x then [(s,c)] else []
  | .seq a b, s, c => (run a s c).flatMap fun m => run b m.1 m.2
  | .opt a, s, c => run a s c ++ [(s,c)]
  | .star a, s, c => repeatGreedy (run a) s.length s c
  | .group name a, s, c => (run a s c).map fun m => (m.1,m.2 ++ [(name,s.take (s.length - m.1.length))])

/-- The captures of the preferred match at the leftmost start. -/
def search (r : Pattern α ν) : List α → Option (Captures α ν)
  | [] => (run r [] []).head?.map Prod.snd
  | x :: s => ((run r (x :: s) []).head?.map Prod.snd).or (search r s)

/-- A repeated symbol class takes all it can first. -/
theorem run_star_set (p : α → Bool) (s : List α) (c : Captures α ν) :
    ∃ ms, run (.star (.set p)) s c = (s.dropWhile p,c) :: ms := by
  suffices h : ∀ n, s.length ≤ n → ∃ ms, repeatGreedy (run (.set p : Pattern α ν)) n s c = (s.dropWhile p,c) :: ms by
    exact h _ le_rfl
  induction s with
  | nil =>
    intro n _
    cases n with
    | zero => exact ⟨[],rfl⟩
    | succ n => exact ⟨[],rfl⟩
  | cons x s ih =>
    intro n hn
    cases n with
    | zero => exact absurd hn (Nat.not_succ_le_zero _)
    | succ n =>
      by_cases hx : p x = true
      · obtain ⟨ms,hms⟩ := ih n (Nat.le_of_succ_le_succ hn)
        refine ⟨ms ++ [(x :: s,c)],?_⟩
        simp [repeatGreedy,run,hx,hms]
      · refine ⟨[],?_⟩
        simp [repeatGreedy,run,hx]

/-- A search succeeds exactly where some suffix has a match. -/
theorem search_isSome {r : Pattern α ν} {s : List α} : (search r s).isSome = true ↔ ∃ t, t <:+ s ∧ run r t [] ≠ [] := by
  have hhead : ∀ ms : List (List α × Captures α ν), (ms.head?.map Prod.snd).isSome = true ↔ ms ≠ [] := by
    intro ms
    cases ms <;> simp
  induction s with
  | nil =>
    rw [search,hhead]
    constructor
    · exact fun h => ⟨[],List.suffix_refl _,h⟩
    · rintro ⟨t,ht,h⟩
      rwa [List.suffix_nil.mp ht] at h
  | cons x s ih =>
    rw [search,Option.isSome_or,Bool.or_eq_true,hhead]
    constructor
    · rintro (h | h)
      · exact ⟨_,List.suffix_refl _,h⟩
      · obtain ⟨t,ht,h⟩ := ih.mp h
        exact ⟨t,ht.trans (List.suffix_cons x s),h⟩
    · rintro ⟨t,ht,h⟩
      rcases List.suffix_cons_iff.mp ht with rfl | ht
      · exact .inl h
      · exact .inr (ih.mpr ⟨t,ht,h⟩)

/-- A literal text matches at the head of `s` exactly when it is a prefix, and then what follows it goes on. -/
theorem run_lit [DecidableEq α] (w : List α) (a : Pattern α ν) (s : List α) (c : Captures α ν) :
    run (lit w a) s c = if w <+: s then run a (s.drop w.length) c else [] := by
  induction w generalizing s with
  | nil => simp [lit]
  | cons x w ih =>
    cases s with
    | nil => simp [lit,run]
    | cons y s =>
      have hcons : run (lit (x :: w) a) (y :: s) c = if y = x then run (lit w a) s c else [] := by
        simp only [lit,List.foldr_cons,run,decide_eq_true_eq]
        split <;> simp
      rw [hcons,ih]
      by_cases hxy : y = x
      · simp [hxy,List.cons_prefix_cons]
      · have hne : ¬ x :: w <+: y :: s := fun h => hxy (List.cons_prefix_cons.mp h).1.symm
        simp [hxy,hne]

end Pattern

end Memqueue
