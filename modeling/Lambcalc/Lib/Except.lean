import Mathlib.Tactic.Common

/-!
# Computations that end with a value or an error

How `Except.bind` ends, a property of results that `bind` keeps (not ending with a given error),
and a comparison of two computations that end with a value in the same cases.
-/

namespace Lambcalc.Lib

variable {ε α β : Type} {x : Except ε α} {f : α → Except ε β}

theorem except_bind_eq_ok {b : β} : x >>= f = .ok b ↔ ∃ a, x = .ok a ∧ f a = .ok b := by
  constructor
  · intro ended
    cases x with
    | ok a => exact ⟨a, rfl, ended⟩
    | error e => cases ended
  · intro both
    obtain ⟨a, rfl, ended⟩ := both
    exact ended

theorem except_bind_of_ok {a : α} (ended : x = .ok a) : x >>= f = f a := by
  rw [ended]
  rfl

/-- `x` does not end with `error`. -/
def Avoids (error : ε) (x : Except ε α) : Prop := x ≠ .error error

theorem Avoids.ok {error : ε} (a : α) : Avoids error (.ok a : Except ε α) := fun eq => by cases eq

theorem Avoids.error {error other : ε} (ne : other ≠ error) :
    Avoids error (.error other : Except ε α) := fun eq => ne (Except.error.inj eq)

theorem Avoids.bind {error : ε} (first : Avoids error x) (second : ∀ a, Avoids error (f a)) :
    Avoids error (x >>= f) := by
  cases x with
  | ok a => exact second a
  | error e => exact fun eq => first (congrArg _ (Except.error.inj eq))

theorem Avoids.foldlM {γ : Type} {error : ε} {g : β → γ → Except ε β} {xs : List γ}
    (each : ∀ x ∈ xs, ∀ b, Avoids error (g b x)) (b : β) : Avoids error (xs.foldlM g b) := by
  induction xs generalizing b with
  | nil => exact .ok b
  | cons x xs ih =>
    rw [List.foldlM_cons]
    exact (each x List.mem_cons_self b).bind
      (ih fun y member => each y (List.mem_cons_of_mem _ member))

/-- Where `x` ends with a value, it has `P`. -/
def Ensures (P : α → Prop) (x : Except ε α) : Prop := ∀ a, x = .ok a → P a

section Ensures

variable {P : α → Prop} {Q : β → Prop}

theorem Ensures.ok {a : α} (holds : P a) : Ensures P (.ok a : Except ε α) := by
  intro b eq
  cases eq
  exact holds

theorem Ensures.error (e : ε) : Ensures P (.error e : Except ε α) := fun _ eq => by cases eq

theorem Ensures.bind (first : Ensures P x) (second : ∀ a, P a → Ensures Q (f a)) :
    Ensures Q (x >>= f) := by
  intro b ended
  obtain ⟨a, eq, ended⟩ := except_bind_eq_ok.mp ended
  exact second a (first a eq) b ended

theorem Ensures.foldlM {γ : Type} {g : α → γ → Except ε α} {xs : List γ}
    (each : ∀ x ∈ xs, ∀ a, P a → Ensures P (g a x)) {a : α} (holds : P a) :
    Ensures P (xs.foldlM g a) := by
  induction xs generalizing a with
  | nil => exact .ok holds
  | cons x xs ih =>
    rw [List.foldlM_cons]
    exact (each x List.mem_cons_self a holds).bind fun b next =>
      ih (fun y member => each y (List.mem_cons_of_mem _ member)) next

end Ensures

/-! ## Computations that succeed together -/

/-- `x` ends with a value if `y` does, and then the two are related. -/
inductive Parallel {γ : Type} (R : α → γ → Prop) : Except ε α → Option γ → Prop where
  | ok {a : α} {c : γ} (related : R a c) : Parallel R (.ok a) (some c)
  | error {e : ε} : Parallel R (.error e) none

section Parallel

variable {γ δ : Type} {R : α → γ → Prop} {S : β → δ → Prop} {y : Option γ} {g : γ → Option δ}

theorem Parallel.bind (first : Parallel R x y) (second : ∀ a c, R a c → Parallel S (f a) (g c)) :
    Parallel S (x >>= f) (y >>= g) := by
  cases first with
  | ok related => exact second _ _ related
  | error => exact .error

theorem Parallel.map {T : β → γ → Prop} {h : α → β} (both : Parallel R x y)
    (each : ∀ a c, R a c → T (h a) c) : Parallel T (x >>= fun a => .ok (h a)) y := by
  cases both with
  | ok related => exact .ok (each _ _ related)
  | error => exact .error

theorem Parallel.mono {T : α → γ → Prop} (both : Parallel R x y) (each : ∀ a c, R a c → T a c) :
    Parallel T x y := by
  cases both with
  | ok related => exact .ok (each _ _ related)
  | error => exact .error

theorem Parallel.ok_iff (both : Parallel R x y) : (∃ a, x = .ok a) ↔ y.isSome = true := by
  cases both with
  | ok related => exact iff_of_true ⟨_, rfl⟩ rfl
  | error => exact iff_of_false (fun ⟨_, eq⟩ => by cases eq) Bool.false_ne_true

theorem Parallel.foldlM {ι : Type} {h : α → ι → Except ε α} {k : γ → ι → Option γ} {xs : List ι}
    (each : ∀ i ∈ xs, ∀ a c, R a c → Parallel R (h a i) (k c i)) {a : α} {c : γ}
    (related : R a c) : Parallel R (xs.foldlM h a) (xs.foldlM k c) := by
  induction xs generalizing a c with
  | nil => exact .ok related
  | cons i xs ih =>
    rw [List.foldlM_cons, List.foldlM_cons]
    exact (each i List.mem_cons_self a c related).bind fun _ _ next =>
      ih (fun j member => each j (List.mem_cons_of_mem _ member)) next

/-- `x` ends with a value, one with `P`, if the condition holds. -/
def Checks (P : α → Prop) (x : Except ε α) (condition : Bool) : Prop :=
  if condition then ∃ a, x = .ok a ∧ P a else ∃ e, x = .error e

variable {P : α → Prop} {Q : β → Prop} {condition : Bool}

theorem Checks.bind {condition' : Bool} (first : Checks P x condition)
    (second : ∀ a, P a → Checks Q (f a) condition') :
    Checks Q (x >>= f) (condition && condition') := by
  cases condition with
  | true =>
    obtain ⟨a, rfl, holds⟩ := first
    exact second a holds
  | false =>
    obtain ⟨e, rfl⟩ := first
    exact ⟨e, rfl⟩

theorem Checks.map {h : α → β} (first : Checks P x condition) (each : ∀ a, P a → Q (h a)) :
    Checks Q (x >>= fun a => .ok (h a)) condition := by
  cases condition with
  | true =>
    obtain ⟨a, rfl, holds⟩ := first
    exact ⟨h a, rfl, each a holds⟩
  | false =>
    obtain ⟨e, rfl⟩ := first
    exact ⟨e, rfl⟩

theorem Checks.parallel {z : Option δ} (first : Checks P x condition)
    (second : ∀ a, P a → Parallel S (f a) z) :
    Parallel S (x >>= f) (if condition then z else none) := by
  cases condition with
  | true =>
    obtain ⟨a, rfl, holds⟩ := first
    exact second a holds
  | false =>
    obtain ⟨e, rfl⟩ := first
    exact .error

end Parallel

end Lambcalc.Lib
