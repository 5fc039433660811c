import Mathlib.Tactic.Common

/-!
# Computations with a state, failures and fuel

A computation returns a value, fails with an error, or runs out of fuel. The state it leaves is
kept when it fails. `Below` says that one computation is another one with less fuel: where it
ends at all, both end the same way.
-/

namespace Lambcalc.Lib

/-- How a computation ends. -/
inductive Outcome (σ ε α : Type) where
  | returned (value : α) (state : σ)
  | failed (error : ε) (state : σ)
  | unfinished
  deriving DecidableEq, Repr

/-- How a computation ends, without its state. -/
def Outcome.result {σ ε α : Type} : Outcome σ ε α → Outcome Unit ε α
  | returned value _ => .returned value ()
  | failed error _ => .failed error ()
  | unfinished => .unfinished

/-- Two computations end the same way, in states that `R` relates. -/
inductive Outcome.Related {σ τ ε α : Type} (R : σ → τ → Prop) :
    Outcome σ ε α → Outcome τ ε α → Prop
  | returned {value : α} {s : σ} {t : τ} :
    R s t → Related R (.returned value s) (.returned value t)
  | failed {error : ε} {s : σ} {t : τ} : R s t → Related R (.failed error s) (.failed error t)
  | unfinished : Related R .unfinished .unfinished

theorem Outcome.Related.result {σ τ ε α : Type} {R : σ → τ → Prop} {o : Outcome σ ε α}
    {o' : Outcome τ ε α} (related : Related R o o') : o.result = o'.result := by
  cases related with
  | returned _ => rfl
  | failed _ => rfl
  | unfinished => rfl

/-- A computation over states `σ`, with errors `ε`. -/
def Computation (σ ε α : Type) : Type := σ → Outcome σ ε α

namespace Computation

variable {σ ε α β : Type}

/-- End at once with `error`. -/
def fail (error : ε) : Computation σ ε α := fun s => .failed error s

/-- A computation without fuel. -/
def unfinished : Computation σ ε α := fun _ => .unfinished

/-- Replace the state by what `f` makes of it, and return a value. -/
def update (f : σ → α × σ) : Computation σ ε α := fun s => .returned (f s).1 (f s).2

instance : Monad (Computation σ ε) where
  pure a := fun s => .returned a s
  bind x f := fun s =>
    match x s with
    | .returned a s' => f a s'
    | .failed error s' => .failed error s'
    | .unfinished => .unfinished

instance : LawfulMonad (Computation σ ε) := by
  refine LawfulMonad.mk' _ ?_ (fun _ _ => rfl) ?_
  · intro α x
    funext s
    show (match x s with
      | .returned a s' => .returned a s'
      | .failed error s' => .failed error s'
      | .unfinished => .unfinished) = x s
    cases x s <;> rfl
  · intro α β γ x f g
    funext s
    show (match (match x s with
        | .returned a s' => f a s'
        | .failed error s' => .failed error s'
        | .unfinished => .unfinished) with
      | .returned a s' => g a s'
      | .failed error s' => .failed error s'
      | .unfinished => .unfinished) = match x s with
      | .returned a s' => (f a >>= g) s'
      | .failed error s' => .failed error s'
      | .unfinished => .unfinished
    cases x s <;> rfl

variable {x y : Computation σ ε α} {f g : α → Computation σ ε β} {s s' : σ}

@[simp] theorem pure_apply (a : α) : (pure a : Computation σ ε α) s = .returned a s := rfl

@[simp] theorem fail_apply (error : ε) :
    (fail error : Computation σ ε α) s = .failed error s := rfl

@[simp] theorem update_apply (h : σ → α × σ) :
    (update h : Computation σ ε α) s = .returned (h s).1 (h s).2 := rfl

theorem bind_of_returned {a : α} (ran : x s = .returned a s') : (x >>= f) s = f a s' := by
  show (match x s with
    | .returned a s' => f a s'
    | .failed error s' => .failed error s'
    | .unfinished => .unfinished) = f a s'
  rw [ran]

theorem bind_of_failed {error : ε} (ran : x s = .failed error s') :
    (x >>= f) s = .failed error s' := by
  show (match x s with
    | .returned a s' => f a s'
    | .failed error s' => .failed error s'
    | .unfinished => .unfinished) = .failed error s'
  rw [ran]

theorem bind_of_unfinished (ran : x s = .unfinished) : (x >>= f) s = .unfinished := by
  show (match x s with
    | .returned a s' => f a s'
    | .failed error s' => .failed error s'
    | .unfinished => .unfinished) = .unfinished
  rw [ran]

@[simp] theorem pure_bind_apply (a : α) : (pure a >>= f) s = f a s := rfl

@[simp] theorem update_bind_apply (h : σ → α × σ) : (update h >>= f) s = f (h s).1 (h s).2 := rfl

/-- What returns has returned in between. -/
theorem bind_eq_returned {b : β} {s'' : σ} : (x >>= f) s = .returned b s'' ↔
    ∃ a s', x s = .returned a s' ∧ f a s' = .returned b s'' := by
  constructor
  · intro ran
    cases first : x s with
    | returned a s' =>
      rw [bind_of_returned first] at ran
      exact ⟨a, s', rfl, ran⟩
    | failed error s' =>
      rw [bind_of_failed first] at ran
      cases ran
    | unfinished =>
      rw [bind_of_unfinished first] at ran
      cases ran
  · intro both
    obtain ⟨a, s', first, second⟩ := both
    rw [bind_of_returned first, second]

/-- What fails has failed before, or after something has returned. -/
theorem bind_eq_failed {error : ε} {s'' : σ} : (x >>= f) s = .failed error s'' ↔
    x s = .failed error s'' ∨ ∃ a s', x s = .returned a s' ∧ f a s' = .failed error s'' := by
  constructor
  · intro ran
    cases first : x s with
    | returned a s' =>
      rw [bind_of_returned first] at ran
      exact .inr ⟨a, s', rfl, ran⟩
    | failed error' s' =>
      rw [bind_of_failed first] at ran
      cases ran
      exact .inl rfl
    | unfinished =>
      rw [bind_of_unfinished first] at ran
      cases ran
  · intro either
    rcases either with failed | ⟨a, s', first, second⟩
    · exact bind_of_failed failed
    · rw [bind_of_returned first, second]

theorem bind_eq_unfinished : (x >>= f) s = .unfinished ↔
    x s = .unfinished ∨ ∃ a s', x s = .returned a s' ∧ f a s' = .unfinished := by
  constructor
  · intro ran
    cases first : x s with
    | returned a s' =>
      rw [bind_of_returned first] at ran
      exact .inr ⟨a, s', rfl, ran⟩
    | failed error s' =>
      rw [bind_of_failed first] at ran
      cases ran
    | unfinished => exact .inl rfl
  · intro either
    rcases either with stops | ⟨a, s', first, second⟩
    · exact bind_of_unfinished stops
    · rw [bind_of_returned first, second]

/-- Two computations in sequence end the same way if their parts do. -/
theorem related_bind {τ : Type} {R : σ → τ → Prop} {y : Computation τ ε α}
    {g : α → Computation τ ε β} {t : τ} (first : (x s).Related R (y t))
    (second : ∀ a s t, R s t → (f a s).Related R (g a t)) :
    ((x >>= f) s).Related R ((y >>= g) t) := by
  generalize ran : x s = outcome at first
  generalize ran' : y t = outcome' at first
  cases first with
  | returned related =>
    rw [bind_of_returned ran, bind_of_returned ran']
    exact second _ _ _ related
  | failed related =>
    rw [bind_of_failed ran, bind_of_failed ran']
    exact .failed related
  | unfinished =>
    rw [bind_of_unfinished ran, bind_of_unfinished ran']
    exact .unfinished

/-! ## Fuel -/

/-- Where `x` ends, `y` ends the same way. -/
def Below (x y : Computation σ ε α) : Prop := ∀ s, x s = .unfinished ∨ x s = y s

theorem Below.refl (x : Computation σ ε α) : Below x x := fun _ => .inr rfl

theorem below_unfinished (y : Computation σ ε α) : Below unfinished y := fun _ => .inl rfl

theorem Below.trans {z : Computation σ ε α} (first : Below x y) (second : Below y z) :
    Below x z := by
  intro s
  rcases first s with stops | eq
  · exact .inl stops
  · rw [eq]
    exact second s

theorem Below.bind (first : Below x y) (second : ∀ a, Below (f a) (g a)) :
    Below (x >>= f) (y >>= g) := by
  intro s
  rcases first s with stops | eq
  · exact .inl (bind_of_unfinished stops)
  · cases ran : x s with
    | returned a s' =>
      rw [bind_of_returned ran, bind_of_returned (eq ▸ ran)]
      exact second a s'
    | failed error s' =>
      rw [bind_of_failed ran, bind_of_failed (eq ▸ ran)]
      exact .inr rfl
    | unfinished => exact .inl (bind_of_unfinished ran)

theorem Below.returned (below : Below x y) {a : α} (ran : x s = .returned a s') :
    y s = .returned a s' := by
  rcases below s with stops | eq
  · cases stops.symm.trans ran
  · exact eq ▸ ran

theorem Below.ends (below : Below x y) (ends : x s ≠ .unfinished) : y s = x s :=
  ((below s).resolve_left ends).symm

/-- More fuel is more, if one more is. -/
theorem Below.of_succ {x : Nat → Computation σ ε α} (succ : ∀ n, Below (x n) (x (n + 1)))
    {m n : Nat} (le : m ≤ n) : Below (x m) (x n) := by
  induction le with
  | refl => exact .refl _
  | step _ ih => exact ih.trans (succ _)

end Computation

end Lambcalc.Lib
