import Mathlib

/-! Postconditions of fallible steps, invariants of their runs, and traces of elementary moves.
A run is cut at the first failure, so only defined behaviour is described. -/
namespace Memqueue.Fallible

section Outcome
variable {ε α β : Type}

/-- Every result of `x` satisfies `Q` and every failure of `x` satisfies `E`. -/
def Ensures (x : Except ε α) (Q : α → Prop) (E : ε → Prop) : Prop :=
  match x with
  | .ok a => Q a
  | .error e => E e

@[simp] theorem ensures_ok (a : α) (Q : α → Prop) (E : ε → Prop) :
    Ensures (.ok a) Q E ↔ Q a := Iff.rfl

@[simp] theorem ensures_pure (a : α) (Q : α → Prop) (E : ε → Prop) :
    Ensures (pure a : Except ε α) Q E ↔ Q a := Iff.rfl

@[simp] theorem ensures_error (e : ε) (Q : α → Prop) (E : ε → Prop) :
    Ensures (.error e) Q E ↔ E e := Iff.rfl

theorem Ensures.result {x : Except ε α} {Q : α → Prop} {E : ε → Prop} {a : α}
    (h : Ensures x Q E) (hx : x = .ok a) : Q a := by
  subst hx
  exact h

theorem Ensures.failure {x : Except ε α} {Q : α → Prop} {E : ε → Prop} {e : ε}
    (h : Ensures x Q E) (hx : x = .error e) : E e := by
  subst hx
  exact h

theorem Ensures.mono {x : Except ε α} {Q Q' : α → Prop} {E E' : ε → Prop}
    (h : Ensures x Q E) (hq : ∀ a, Q a → Q' a) (he : ∀ e, E e → E' e) : Ensures x Q' E' := by
  cases x with
  | ok a => exact hq a h
  | error e => exact he e h

theorem Ensures.bind {x : Except ε α} {f : α → Except ε β} {Q : α → Prop} {R : β → Prop}
    {E : ε → Prop} (hx : Ensures x Q E) (hf : ∀ a, Q a → Ensures (f a) R E) :
    Ensures (x >>= f) R E := by
  cases x with
  | ok a => exact hf a hx
  | error e => exact hx

/-- To prove a postcondition, follow the outcome there is. -/
theorem ensures_intro {x : Except ε α} {Q : α → Prop} {E : ε → Prop} (hq : ∀ a, x = .ok a → Q a)
    (he : ∀ e, x = .error e → E e) : Ensures x Q E := by
  cases x with
  | ok a => exact hq a rfl
  | error e => exact he e rfl

/-- Peels one successful stage off a successful computation. -/
theorem bind_ok {x : Except ε α} {f : α → Except ε β} {b : β} (h : (x >>= f) = .ok b) :
    ∃ a, x = .ok a ∧ f a = .ok b := by
  cases x with
  | ok a => exact ⟨a,rfl,h⟩
  | error e => cases h

/-- A failed computation failed in its first stage, or after it. -/
theorem bind_error {x : Except ε α} {f : α → Except ε β} {e : ε} (h : (x >>= f) = .error e) :
    x = .error e ∨ ∃ a, x = .ok a ∧ f a = .error e := by
  cases x with
  | ok a => exact .inr ⟨a,rfl,h⟩
  | error e' =>
    cases h
    exact .inl rfl

theorem map_ok {x : Except ε α} {f : α → β} {b : β} (h : x.map f = .ok b) : ∃ a, x = .ok a ∧ f a = b := by
  cases x with
  | ok a => exact ⟨a,rfl,Except.ok.inj h⟩
  | error e => cases h

/-- Whether a computation fails with `e` can be read off its outcome. -/
instance decidableEqError [DecidableEq ε] (x : Except ε α) (e : ε) : Decidable (x = .error e) :=
  match x with
  | .ok _ => .isFalse nofun
  | .error _ => decidable_of_iff _ (Except.error.injEq _ e).to_iff.symm

/-- Loop rule: the invariant may mention the elements still to be visited. -/
theorem foldlM_ensures {γ : Type} {f : γ → α → Except ε γ} {E : ε → Prop}
    (I : List α → γ → Prop)
    (hstep : ∀ x xs s, I (x :: xs) s → Ensures (f s x) (I xs) E) :
    ∀ (xs : List α) (s : γ), I xs s → Ensures (xs.foldlM f s) (I []) E := by
  intro xs
  induction xs with
  | nil => exact fun s hs => hs
  | cons x xs ih =>
    intro s hs
    rw [List.foldlM_cons]
    exact (hstep x xs s hs).bind ih

/-- Loop rule for the successful runs of a loop. -/
theorem foldlM_result {γ : Type} {f : γ → α → Except ε γ} (I : List α → γ → Prop)
    (hstep : ∀ x xs s s', I (x :: xs) s → f s x = .ok s' → I xs s') {xs : List α} {s s' : γ}
    (hs : I xs s) (h : xs.foldlM f s = .ok s') : I [] s' :=
  (foldlM_ensures (E := fun _ => True) I
    (fun x xs s hi => ensures_intro (fun s' hx => hstep x xs s s' hi hx) (fun _ _ => trivial))
    xs s hs).result h

end Outcome

section Unless
variable {ε α β γ : Type} {e : ε}

/-- `x` fails with `e`, or it is what `y` is. -/
def SameUnless (e : ε) (x y : Except ε α) : Prop := x = .error e ∨ x = y

theorem SameUnless.refl (x : Except ε α) : SameUnless e x x := .inr rfl

theorem SameUnless.eq {x y : Except ε α} (h : SameUnless e x y) (hne : x ≠ .error e) : x = y := h.resolve_left hne

theorem SameUnless.bind {x y : Except ε α} {f g : α → Except ε β} (h : SameUnless e x y)
    (hf : ∀ a, SameUnless e (f a) (g a)) : SameUnless e (x >>= f) (y >>= g) := by
  rcases h with rfl | rfl
  · exact .inl rfl
  · cases x with
    | ok a => exact hf a
    | error e' => exact .refl _

theorem SameUnless.ite {p : Prop} [Decidable p] {x x' y y' : Except ε α} (h : SameUnless e x y)
    (h' : SameUnless e x' y') : SameUnless e (if p then x else x') (if p then y else y') := by
  split
  · exact h
  · exact h'

theorem SameUnless.foldlM {f g : γ → α → Except ε γ} (hf : ∀ s a, SameUnless e (f s a) (g s a)) (L : List α) (s : γ) :
    SameUnless e (L.foldlM f s) (L.foldlM g s) := by
  induction L generalizing s with
  | nil => exact .refl _
  | cons a L ih =>
    rw [List.foldlM_cons,List.foldlM_cons]
    exact (hf s a).bind ih

end Unless

section Runs
variable {σ ℓ ω ε : Type}

/-- Finite runs of a fallible labelled step, every step taken under the guard `P`. -/
inductive Run (step : σ → ℓ → Except ε (σ × ω)) (P : σ → ℓ → Prop) : σ → List ℓ → σ → Prop
  | nil (s : σ) : Run step P s [] s
  | snoc {s t u : σ} {tr : List ℓ} {l : ℓ} {out : ω} :
      Run step P s tr t → P t l → step t l = .ok (u,out) → Run step P s (tr ++ [l]) u

variable {step : σ → ℓ → Except ε (σ × ω)} {P : σ → ℓ → Prop}

theorem Run.mono {Q : σ → ℓ → Prop} {s t : σ} {tr : List ℓ} (h : Run step P s tr t)
    (hpq : ∀ s l, P s l → Q s l) : Run step Q s tr t := by
  induction h with
  | nil => exact .nil _
  | snoc _ hp hs ih => exact .snoc ih (hpq _ _ hp) hs

theorem Run.append {s t u : σ} {tr tr' : List ℓ} (h : Run step P s tr t)
    (h' : Run step P t tr' u) : Run step P s (tr ++ tr') u := by
  induction h' with
  | nil => simpa using h
  | snoc _ hp hs ih =>
    rw [← List.append_assoc]
    exact .snoc ih hp hs

/-- What one guarded step preserves, a guarded run preserves. -/
theorem Run.invariant {I : σ → Prop} {s t : σ} {tr : List ℓ} (h : Run step P s tr t)
    (hstep : ∀ s l s' out, I s → P s l → step s l = .ok (s',out) → I s') (hs : I s) : I t := by
  induction h with
  | nil => exact hs
  | snoc _ hp hstp ih => exact hstep _ _ _ _ ih hp hstp

/-- A run of one step function is a run of another that takes the same guarded steps. -/
theorem Run.congr {step' : σ → ℓ → Except ε (σ × ω)} {s t : σ} {tr : List ℓ} (h : Run step P s tr t)
    (hstep : ∀ s l, P s l → step s l = step' s l) : Run step' P s tr t := by
  induction h with
  | nil => exact .nil _
  | snoc _ hp hs ih => exact .snoc ih hp ((hstep _ _ hp).symm.trans hs)

/-- Evaluates a run, checking a guard at every step. -/
def exec (step : σ → ℓ → Except ε (σ × ω)) (g : σ → ℓ → Bool) (s : σ) : List ℓ → Option σ
  | [] => some s
  | l :: tr => if g s l then
      match step s l with
      | .ok (t,_) => exec step g t tr
      | .error _ => none
    else none

private theorem run_cons {g : σ → ℓ → Prop} {s t u : σ} {l : ℓ} {tr : List ℓ} {out : ω} (hg : g s l)
    (hs : step s l = .ok (t,out)) (h : Run step g t tr u) : Run step g s (l :: tr) u :=
  (Run.snoc (.nil s) hg hs).append h

/-- An evaluated run is a run. -/
theorem Run.of_exec {g : σ → ℓ → Bool} {s t : σ} {tr : List ℓ} (h : exec step g s tr = some t) :
    Run step (fun s l => g s l = true) s tr t := by
  induction tr generalizing s with
  | nil =>
    cases h
    exact .nil _
  | cons l tr ih =>
    simp only [exec] at h
    split at h
    · rename_i hg
      split at h
      · rename_i u out hs
        exact run_cons hg hs (ih h)
      · cases h
    · cases h

/-- Evaluates a run and one more step, keeping both states and the output of that step. -/
def execStep (step : σ → ℓ → Except ε (σ × ω)) (g : σ → ℓ → Bool) (s : σ) (tr : List ℓ) (l : ℓ) :
    Option (σ × σ × ω) :=
  (exec step g s tr).bind fun t => (step t l).toOption.map fun r => (t,r)

theorem Run.of_execStep {g : σ → ℓ → Bool} {s t u : σ} {tr : List ℓ} {l : ℓ} {out : ω}
    (h : execStep step g s tr l = some (t,u,out)) :
    Run step (fun s l => g s l = true) s tr t ∧ step t l = .ok (u,out) := by
  obtain ⟨t',ht,h⟩ := Option.bind_eq_some_iff.mp h
  obtain ⟨r,hr,he⟩ := Option.map_eq_some_iff.mp h
  cases he
  refine ⟨.of_exec ht,?_⟩
  cases hs : step t l with
  | ok a =>
    rw [hs] at hr
    cases hr
    rfl
  | error e =>
    rw [hs] at hr
    cases hr

end Runs

section Traces
variable {σ α : Type}

/-- A sequence of elementary moves, each with its label. -/
inductive Trace (R : α → σ → σ → Prop) : List α → σ → σ → Prop
  | nil (s : σ) : Trace R [] s s
  | cons {a : α} {as : List α} {s t u : σ} : R a s t → Trace R as t u → Trace R (a :: as) s u

variable {R : α → σ → σ → Prop}

theorem Trace.single {a : α} {s t : σ} (h : R a s t) : Trace R [a] s t := .cons h (.nil t)

theorem Trace.append {as bs : List α} {s t u : σ} (h : Trace R as s t) (h' : Trace R bs t u) :
    Trace R (as ++ bs) s u := by
  induction h with
  | nil => exact h'
  | cons ha _ ih => exact .cons ha (ih h')

/-- What every move of the trace preserves, the trace preserves. -/
theorem Trace.invariant {I : σ → Prop} {as : List α} {s t : σ} (h : Trace R as s t)
    (hmove : ∀ a s t, a ∈ as → I s → R a s t → I t) (hs : I s) : I t := by
  induction h with
  | nil => exact hs
  | cons ha _ ih =>
    exact ih (fun a s t hm => hmove a s t (List.mem_cons_of_mem _ hm))
      (hmove _ _ _ List.mem_cons_self hs ha)

/-- The same with what is still to come in view. -/
theorem Trace.invariant_until {I : σ → Prop} {as : List α} {s t : σ} (h : Trace R as s t)
    (hmove : ∀ a u v bs, a ∈ as → I u → R a u v → Trace R bs v t → (∀ b ∈ bs, b ∈ as) → I v) (hs : I s) : I t := by
  induction h with
  | nil => exact hs
  | cons ha htr ih =>
    refine ih (fun a u v bs hm => ?_) (hmove _ _ _ _ List.mem_cons_self hs ha htr fun b hb => List.mem_cons_of_mem _ hb)
    intro hu hr hbs hsub
    exact hmove a u v bs (List.mem_cons_of_mem _ hm) hu hr hbs fun b hb => List.mem_cons_of_mem _ (hsub b hb)

end Traces

end Memqueue.Fallible
