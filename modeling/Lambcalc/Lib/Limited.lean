import Lambcalc.Lib.Computation

/-!
# Computations in a memory that can be full

A computation of values, beside one that builds these values in a memory with so many slots. The
second one ends as the first one does, unless the values take more slots than there are. What a
value takes is counted in total, together with what has been built before.
-/

namespace Lambcalc.Lib

variable {σ μ ε φ α β γ δ : Type}

/-- How a computation of values ends, and how it ends in a memory that was `m` at the start, when
`before` slots were taken. A failure leaves a memory with `Q`. -/
inductive Outcome.Limited (slots : μ → Nat) (full : φ) (Q : μ → Prop) (m : μ) (before : Nat)
    (total : α → Nat) (R : α → μ → β → Prop) :
    Outcome σ ε α → Outcome (σ × μ) (ε ⊕ φ) β → Prop where
  | returned {a : α} {s : σ} {b : β} {m' : μ} (built : R a m' b)
      (taken : slots m' + total a = slots m + before) :
      Limited slots full Q m before total R (.returned a s) (.returned b (s, m'))
  | failed {e : ε} {s : σ} {m' : μ} (kept : Q m') :
      Limited slots full Q m before total R (.failed e s) (.failed (.inl e) (s, m'))
  | unfinished : Limited slots full Q m before total R .unfinished .unfinished
  | full {o : Outcome σ ε α} {t : σ × μ}
      (short : ∀ a s, o = .returned a s → slots m + before < total a) :
      Limited slots full Q m before total R o (.failed (.inr full) t)

namespace Computation

/-- A computation that does not touch the memory. -/
def aside (x : Computation σ ε α) : Computation (σ × μ) (ε ⊕ φ) α := fun s =>
  match x s.1 with
  | .returned a s' => .returned a (s', s.2)
  | .failed e s' => .failed (.inl e) (s', s.2)
  | .unfinished => .unfinished

/-- A value that is returned takes at least so many slots. -/
def AtLeast (n : Nat) (total : α → Nat) (x : Computation σ ε α) : Prop :=
  ∀ s a s', x s = .returned a s' → n ≤ total a

/-- In the memory `m`, the computation `y` builds what `x` returns. -/
def Builds (slots : μ → Nat) (full : φ) (Q : μ → Prop) (m : μ) (before : Nat) (total : α → Nat)
    (R : α → μ → β → Prop) (x : Computation σ ε α) (y : Computation (σ × μ) (ε ⊕ φ) β) : Prop :=
  ∀ s, Outcome.Limited slots full Q m before total R (x s) (y (s, m))

section AtLeast

variable {n : Nat} {total : α → Nat} {total' : γ → Nat} {x : Computation σ ε α}
  {f : α → Computation σ ε γ}

theorem AtLeast.pure {a : α} (le : n ≤ total a) :
    AtLeast n total (Pure.pure a : Computation σ ε α) := by
  rintro s b s' ⟨⟩
  exact le

theorem AtLeast.fail (e : ε) : AtLeast n total (fail e : Computation σ ε α) := by
  rintro s a s' ⟨⟩

theorem AtLeast.unfinished : AtLeast n total (unfinished : Computation σ ε α) := by
  rintro s a s' ⟨⟩

theorem AtLeast.bind (after : ∀ a, AtLeast n total' (f a)) : AtLeast n total' (x >>= f) := by
  intro s c s' ran
  rcases bind_eq_returned.mp ran with ⟨a, s₁, -, ended⟩
  exact after a s₁ c s' ended

end AtLeast

section Builds

variable {slots : μ → Nat} {full : φ} {Q : μ → Prop} {m : μ} {before : Nat} {total : α → Nat}
  {R : α → μ → β → Prop} {x : Computation σ ε α} {y : Computation (σ × μ) (ε ⊕ φ) β}
  {total' : γ → Nat} {R' : γ → μ → δ → Prop}

theorem Builds.pure {a : α} {b : β} (built : R a m b) (taken : total a = before) :
    Builds slots full Q m before total R (Pure.pure a : Computation σ ε α) (Pure.pure b) :=
  fun _ => .returned built (taken ▸ rfl)

theorem Builds.fail (kept : Q m) (e : ε) :
    Builds slots full Q m before total R (fail e : Computation σ ε α) (aside (fail e)) :=
  fun _ => .failed kept

theorem Builds.unfinished : Builds slots full Q m before total R (unfinished : Computation σ ε α)
    unfinished := fun _ => .unfinished

/-- Before a computation that builds something, there may be one beside the memory. -/
theorem Builds.aside_bind {f : α → Computation σ ε γ}
    {g : α → Computation (σ × μ) (ε ⊕ φ) δ} (kept : Q m)
    (after : ∀ a, Builds slots full Q m before total' R' (f a) (g a)) :
    Builds slots full Q m before total' R' (x >>= f) (aside x >>= g) := by
  intro s
  cases ran : x s with
  | returned a s' =>
    have beside : (aside x : Computation (σ × μ) (ε ⊕ φ) α) (s, m) = .returned a (s', m) := by
      unfold aside
      rw [ran]
    rw [bind_of_returned ran, bind_of_returned beside]
    exact after a s'
  | failed e s' =>
    have beside : (aside x : Computation (σ × μ) (ε ⊕ φ) α) (s, m) = .failed (.inl e) (s', m) := by
      unfold aside
      rw [ran]
    rw [bind_of_failed ran, bind_of_failed beside]
    exact .failed kept
  | unfinished =>
    have beside : (aside x : Computation (σ × μ) (ε ⊕ φ) α) (s, m) = .unfinished := by
      unfold aside
      rw [ran]
    rw [bind_of_unfinished ran, bind_of_unfinished beside]
    exact .unfinished

/-- Two computations in sequence build what they return together. -/
theorem Builds.bind {f : α → Computation σ ε γ} {g : β → Computation (σ × μ) (ε ⊕ φ) δ}
    (first : Builds slots full Q m before total R x y)
    (second : ∀ a m' b, R a m' b → Builds slots full Q m' (total a) total' R' (f a) (g b))
    (more : ∀ a, AtLeast (total a) total' (f a)) :
    Builds slots full Q m before total' R' (x >>= f) (y >>= g) := by
  intro s
  have outcome := first s
  generalize ran : x s = o at outcome
  generalize ran' : y (s, m) = o' at outcome
  cases outcome with
  | @returned a s' b m' built taken =>
    rw [bind_of_returned ran, bind_of_returned ran']
    have outcome := second a m' b built s'
    generalize f a s' = o at outcome ⊢
    generalize g b (s', m') = o' at outcome ⊢
    cases outcome with
    | returned built' taken' => exact .returned built' (taken'.trans taken)
    | failed kept => exact .failed kept
    | unfinished => exact .unfinished
    | full short => exact .full fun c s'' eq => taken ▸ short c s'' eq
  | failed kept =>
    rw [bind_of_failed ran, bind_of_failed ran']
    exact .failed kept
  | unfinished =>
    rw [bind_of_unfinished ran, bind_of_unfinished ran']
    exact .unfinished
  | full short =>
    rw [bind_of_failed ran']
    refine .full fun c s'' eq => ?_
    rcases bind_eq_returned.mp eq with ⟨a, s', returned, ended⟩
    exact Nat.lt_of_lt_of_le (short a s' (ran ▸ returned)) (more a s' c s'' ended)

end Builds

end Computation

end Lambcalc.Lib
