import Mathlib.Tactic.TypeStar
import Mathlib.Tactic.Common

/-!
# Loops as iterated step functions

A loop over explicit state is a step function `σ → σ ⊕ ρ`: `inl` is the state after one
turn of the loop, `inr` the value it returns. `iterate` runs it under a fuel bound.

`StepRefinement` packages how a loop is understood: an invariant of its states, a measure
that every turn decreases, and a denotation that no turn changes. `StepRefinement.iterate`
is the run lemma all loops share: with more fuel than the measure the loop returns, and what
it returns denotes what the starting state denotes.
-/

namespace Lambcalc.Lib

variable {σ ρ δ : Type*}

/-- Run `step` until it returns, at most `fuel` times. -/
def iterate (step : σ → σ ⊕ ρ) : Nat → σ → Option ρ
  | 0, _ => none
  | fuel + 1, s =>
    match step s with
    | .inl next => iterate step fuel next
    | .inr result => some result

theorem iterate_of_inl {step : σ → σ ⊕ ρ} {s next : σ} (turn : step s = .inl next)
    (fuel : Nat) : iterate step (fuel + 1) s = iterate step fuel next := by
  rw [iterate, turn]

theorem iterate_of_inr {step : σ → σ ⊕ ρ} {s : σ} {result : ρ} (turn : step s = .inr result)
    (fuel : Nat) : iterate step (fuel + 1) s = some result := by
  rw [iterate, turn]

/-- More fuel does not change the value a loop returns. -/
theorem iterate_mono {step : σ → σ ⊕ ρ} {small large : Nat} {s : σ} {result : ρ}
    (returned : iterate step small s = some result) (le : small ≤ large) :
    iterate step large s = some result := by
  induction small generalizing large s with
  | zero => cases returned
  | succ small ih =>
    obtain ⟨large, rfl⟩ : ∃ n, large = n + 1 := ⟨large - 1, by omega⟩
    cases turn : step s with
    | inl next =>
      rw [iterate_of_inl turn] at returned ⊢
      exact ih returned (by omega)
    | inr value =>
      rw [iterate_of_inr turn] at returned ⊢
      exact returned

/-! ## Runs of a known length -/

/-- `s` becomes `s'` in `turns` turns of the loop. -/
def Runs (step : σ → σ ⊕ ρ) (turns : Nat) (s s' : σ) : Prop :=
  ∀ fuel, iterate step (fuel + turns) s = iterate step fuel s'

/-- From `s`, turn number `turns` returns `result`. -/
def Stops (step : σ → σ ⊕ ρ) (turns : Nat) (s : σ) (result : ρ) : Prop :=
  ∀ fuel, iterate step (fuel + turns) s = some result

theorem Runs.refl (step : σ → σ ⊕ ρ) (s : σ) : Runs step 0 s s := fun _ => rfl

theorem Runs.of_step {step : σ → σ ⊕ ρ} {s s' : σ} (turn : step s = .inl s') :
    Runs step 1 s s' := iterate_of_inl turn

theorem Runs.trans {step : σ → σ ⊕ ρ} {m n : Nat} {s s' s'' : σ} (first : Runs step m s s')
    (second : Runs step n s' s'') : Runs step (n + m) s s'' := by
  intro fuel
  rw [← Nat.add_assoc, first, second]

theorem Stops.of_step {step : σ → σ ⊕ ρ} {s : σ} {result : ρ} (turn : step s = .inr result) :
    Stops step 1 s result := iterate_of_inr turn

theorem Runs.stops {step : σ → σ ⊕ ρ} {m n : Nat} {s s' : σ} {result : ρ}
    (first : Runs step m s s') (second : Stops step n s' result) :
    Stops step (n + m) s result := by
  intro fuel
  rw [← Nat.add_assoc, first, second]

theorem Stops.iterate {step : σ → σ ⊕ ρ} {turns fuel : Nat} {s : σ} {result : ρ}
    (stops : Stops step turns s result) (le : turns ≤ fuel) :
    iterate step fuel s = some result :=
  iterate_mono ((congrArg (Lib.iterate step · s) (Nat.zero_add turns)).symm.trans (stops 0)) le

/-- The state after some turns, if the loop goes on for so long. -/
def after (step : σ → σ ⊕ ρ) : Nat → σ → Option σ
  | 0, s => some s
  | turns + 1, s =>
    match step s with
    | .inl next => after step turns next
    | .inr _ => none

theorem after_of_inl {step : σ → σ ⊕ ρ} {s next : σ} (turn : step s = .inl next)
    (turns : Nat) : after step (turns + 1) s = after step turns next := by
  rw [after, turn]

/-! ## Runs that may stop early -/

/-- From `s` the loop comes to a state with `P`, unless it returns `early` before. -/
inductive Leads (step : σ → σ ⊕ ρ) (early : ρ) (P : σ → Prop) : σ → Prop where
  | here {s : σ} (holds : P s) : Leads step early P s
  | next {s s' : σ} (turn : step s = .inl s') (leads : Leads step early P s') :
    Leads step early P s
  | stop {s : σ} (turn : step s = .inr early) : Leads step early P s

/-- One run after the other. -/
theorem Leads.bind {step : σ → σ ⊕ ρ} {early : ρ} {P Q : σ → Prop} {s : σ}
    (first : Leads step early P s) (second : ∀ s', P s' → Leads step early Q s') :
    Leads step early Q s := by
  induction first with
  | here holds => exact second _ holds
  | next turn _ ih => exact .next turn ih
  | stop turn => exact .stop turn

theorem Leads.imp {step : σ → σ ⊕ ρ} {early : ρ} {P Q : σ → Prop} {s : σ}
    (leads : Leads step early P s) (weaker : ∀ s', P s' → Q s') : Leads step early Q s :=
  leads.bind fun s' holds => .here (weaker s' holds)

/-- What a state without `P` leads to, the next state does. -/
theorem Leads.of_next {step : σ → σ ⊕ ρ} {early : ρ} {P : σ → Prop} {s s' : σ}
    (leads : Leads step early P s) (turn : step s = .inl s') (not : ¬ P s) :
    Leads step early P s' := by
  cases leads with
  | here holds => exact (not holds).elim
  | next turn' leads =>
    cases turn.symm.trans turn'
    exact leads
  | stop turn' => cases turn.symm.trans turn'

/-- A loop that comes to a state in which it returns `result` returns it with enough fuel. -/
theorem Leads.iterate {step : σ → σ ⊕ ρ} {early result : ρ} {P : σ → Prop} {s : σ}
    (leads : Leads step early P s) (returns : ∀ s', P s' → step s' = .inr result) :
    ∃ fuel, iterate step fuel s = some result ∨ iterate step fuel s = some early := by
  induction leads with
  | here holds => exact ⟨1, .inl (iterate_of_inr (returns _ holds) 0)⟩
  | next turn _ ih =>
    obtain ⟨fuel, ended⟩ := ih
    refine ⟨fuel + 1, ?_⟩
    rw [iterate_of_inl turn]
    exact ended
  | stop turn => exact ⟨1, .inr (iterate_of_inr turn 0)⟩

/-! ## Runs with the states they go through -/

/-- From `s` the loop goes through the states of `run` and comes to `s'`. -/
inductive Path (step : σ → σ ⊕ ρ) : σ → List σ → σ → Prop where
  | nil (s : σ) : Path step s [] s
  | cons {s next s' : σ} {run : List σ} (turn : step s = .inl next)
    (rest : Path step next run s') : Path step s (s :: run) s'

theorem Path.single {step : σ → σ ⊕ ρ} {s next : σ} (turn : step s = .inl next) :
    Path step s [s] next := .cons turn (.nil next)

theorem Path.append {step : σ → σ ⊕ ρ} {s s' s'' : σ} {run run' : List σ}
    (first : Path step s run s') (second : Path step s' run' s'') :
    Path step s (run ++ run') s'' := by
  induction first with
  | nil => exact second
  | cons turn _ ih => exact .cons turn (ih second)

/-- A loop that comes to a state in which it returns has returned after one more turn. -/
theorem Path.iterate {step : σ → σ ⊕ ρ} {s s' : σ} {run : List σ} {result : ρ}
    (path : Path step s run s') (returns : step s' = .inr result) :
    Lib.iterate step (run.length + 1) s = some result := by
  induction path with
  | nil => exact iterate_of_inr returns 0
  | cons turn _ ih => exact (iterate_of_inl turn _).trans (ih returns)

/-! ## Refinement -/

/-- A loop with an invariant, a measure every turn decreases, and a denotation every turn
keeps. -/
structure StepRefinement (step : σ → σ ⊕ ρ) (denState : σ → δ) (denResult : ρ → δ) where
  Inv : σ → Prop
  measure : σ → Nat
  inv_next : ∀ {s next}, Inv s → step s = .inl next → Inv next
  decreases : ∀ {s next}, Inv s → step s = .inl next → measure next < measure s
  den_next : ∀ {s next}, Inv s → step s = .inl next → denState next = denState s
  den_result : ∀ {s result}, Inv s → step s = .inr result → denResult result = denState s

/-- With more fuel than the measure, the loop returns a value that denotes what the starting
state denotes. -/
theorem StepRefinement.iterate {step : σ → σ ⊕ ρ} {denState : σ → δ} {denResult : ρ → δ}
    (R : StepRefinement step denState denResult) {s : σ} (inv : R.Inv s) {fuel : Nat}
    (enough : R.measure s < fuel) :
    ∃ result, iterate step fuel s = some result ∧ denResult result = denState s := by
  induction fuel generalizing s with
  | zero => omega
  | succ fuel ih =>
    cases turn : step s with
    | inr result => exact ⟨result, iterate_of_inr turn fuel, R.den_result inv turn⟩
    | inl next =>
      have less := R.decreases inv turn
      obtain ⟨result, returned, denotes⟩ := ih (R.inv_next inv turn) (by omega)
      exact ⟨result, (iterate_of_inl turn fuel).trans returned,
        denotes.trans (R.den_next inv turn)⟩

end Lambcalc.Lib
