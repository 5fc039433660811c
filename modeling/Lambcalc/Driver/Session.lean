import Lambcalc.Driver.Correct
import Lambcalc.Driver.Report
import Lambcalc.Parse.Written

/-!
# Sessions

The whole of the loop of `main` in `src/main.cpp`: what is read is compiled, lowered and run, and
the result is printed. The static counter of `anf::fresh` goes on from one expression to the next.
The addresses of functions and the places of records are up to the machine that a module is added
to, and each round may have another one.
-/

namespace Lambcalc.Driver

open Anf Emit Lib Lib.Ir Parse

/-! ## The loop -/

/-- What a round of the loop shows. -/
inductive Output where
  | error (e : ParserException)
  | notInScope (e : Ast.NotInScopeException)
  | evaluatedTo (n : Int)
  deriving DecidableEq, Repr

/-- What becomes of an expression: the round is over, with the counter at a given value, or the
process is. -/
inductive Fate where
  | shows (output : Output) (counter : Nat)
  | outOfMemory
  | dies
  deriving DecidableEq, Repr

/-- What becomes of a run of `main`. -/
def fate (counter : Nat) : Result → Fate
  | .returned value => .shows (.evaluatedTo (printed value)) counter
  | .outOfMemory => .outOfMemory
  | .stuck => .dies

/-- The run of `main` ends so. -/
def Ends {M : Module} (m : Machine M) (result : Result) : Prop :=
  ∃ body code, M.bodies.lookup "main" = some body ∧ body.head? = some code ∧ ∃ fuel,
    iterate m.step fuel ⟨⟨body, [], fun _ => none, []⟩, code, [], ⟨fun _ => .free, 0⟩⟩ = some result

/-- What the rest of the body of the loop makes of an expression. -/
inductive Round (exp : Ast.Exp) (counter : Nat) : Fate → Prop where
  | notInScope {e : Ast.NotInScopeException} :
    compile exp counter = .error (.notInScope e) →
    Round exp counter (.shows (.notInScope e) counter)
  | throws {e : RuntimeError} :
    compile exp counter = .error (.runtime e) → Round exp counter .dies
  | notLowered {fns : List Hoist.Function} {counter' : Nat} {e : Fault} :
    compile exp counter = .ok (fns, counter') → lowerModule fns = .error e → Round exp counter .dies
  | runs {fns : List Hoist.Function} {counter' : Nat} {M : Module} {m : Machine M}
    {result : Result} :
    compile exp counter = .ok (fns, counter') → lowerModule fns = .ok M → Ends m result →
    Round exp counter (fate counter' result)

/-- How a session ends. -/
inductive SessionEnd where
  | broke
  | outOfMemory
  | died
  deriving DecidableEq, Repr

/-- What the loop shows for what it reads. -/
inductive Session : List Event → Nat → List Output → SessionEnd → Prop
  | broke {counter : Nat} : Session [] counter [] .broke
  | error {e : ParserException} {events : List Event} {counter : Nat} {outputs : List Output}
    {ending : SessionEnd} : Session events counter outputs ending →
    Session (.error e :: events) counter (.error e :: outputs) ending
  | shows {exp : Ast.Exp} {events : List Event} {counter counter' : Nat} {output : Output}
    {outputs : List Output} {ending : SessionEnd} :
    Round exp counter (.shows output counter') → Session events counter' outputs ending →
    Session (.read exp :: events) counter (output :: outputs) ending
  | outOfMemory {exp : Ast.Exp} {events : List Event} {counter : Nat} :
    Round exp counter .outOfMemory → Session (.read exp :: events) counter [] .outOfMemory
  | dies {exp : Ast.Exp} {events : List Event} {counter : Nat} :
    Round exp counter .dies → Session (.read exp :: events) counter [] .died

/-! ## What it should show -/

/-- What the passes and the run need of an expression. -/
structure Runnable (e : Ast.Exp) : Prop where
  closed : e.Closed
  distinct : e.ParamsDistinct
  named : e.appliesInt = false
  inOrder : e.inOrder true = true
  small : e.params.length + e.draws + 1 < 2 ^ 61

/-- What is to be shown of an expression: the last variable in its text that no lambda binds, or
else the low half of its value. -/
inductive Means (e : Ast.Exp) : Output → Prop where
  | notInScope {name : String} :
    e.freeOccurrences.getLast? = some name → Means e (.notInScope ⟨name⟩)
  | evaluatedTo {n : Word} :
    Runnable e → Ast.Eval (fun _ => none) e (.int n) → Means e (.evaluatedTo (printed n))

section Rounds

variable {M : Module} {m : Machine M} {n : Word} {e : Ast.Exp} {counter : Nat} {output : Output}

theorem ends_of_mainReturns (returns : m.MainReturns n) :
    Ends m (.returned n) ∨ Ends m .outOfMemory := by
  rcases returns with ⟨body, code, found, entry, fuel, ran | ran⟩
  · exact .inl ⟨body, code, found, entry, fuel, ran⟩
  · exact .inr ⟨body, code, found, entry, fuel, ran⟩

/-- The end of a run is determined. -/
theorem Ends.unique {result result' : Result} (ends : Ends m result) (ends' : Ends m result') :
    result = result' := by
  rcases ends with ⟨body, code, found, entry, fuel, ran⟩
  rcases ends' with ⟨body', code', found', entry', fuel', ran'⟩
  cases found.symm.trans found'
  cases entry.symm.trans entry'
  have same := (iterate_mono ran (le_max_left fuel fuel')).symm.trans
    (iterate_mono ran' (le_max_right fuel fuel'))
  exact Option.some.inj same

theorem compile_of_last {name : String} (last : e.freeOccurrences.getLast? = some name) :
    compile e counter = .error (.notInScope ⟨name⟩) := by
  unfold compile
  rw [Ast.rename_of_last last]

/-- A round shows what the expression means, or is out of memory. -/
theorem Means.fate (isMeant : Means e output) {fate : Fate} (round : Round e counter fate) :
    (∃ counter', fate = .shows output counter') ∨ fate = .outOfMemory := by
  cases isMeant with
  | notInScope last =>
    have compiled : compile e counter = _ := compile_of_last last
    cases round with
    | notInScope compiled' =>
      cases compiled.symm.trans compiled'
      exact .inl ⟨counter, rfl⟩
    | throws compiled' => cases compiled.symm.trans compiled'
    | notLowered compiled' _ => cases compiled.symm.trans compiled'
    | runs compiled' _ _ => cases compiled.symm.trans compiled'
  | evaluatedTo runnable evaluates =>
    rcases compile_lowers runnable.closed runnable.distinct runnable.named runnable.inOrder
      runnable.small counter with ⟨fns, counter', M, compiled, lowered, means⟩
    cases round with
    | notInScope compiled' => cases compiled.symm.trans compiled'
    | throws compiled' => cases compiled.symm.trans compiled'
    | notLowered compiled' lowered' =>
      cases compiled.symm.trans compiled'
      cases lowered.symm.trans lowered'
    | runs compiled' lowered' ends =>
      cases compiled.symm.trans compiled'
      cases lowered.symm.trans lowered'
      rcases ends_of_mainReturns ((means _).2 _ ((means _).1.mp evaluates)) with returned | out
      · rw [ends.unique returned]
        exact .inl ⟨counter', rfl⟩
      · rw [ends.unique out]
        exact .inr rfl

/-- Some machine has a place for each module that is made of the expression. -/
def Loads (e : Ast.Exp) : Prop := ∀ counter fns counter' M,
  compile e counter = .ok (fns, counter') → lowerModule fns = .ok M → Nonempty (Machine M)

end Rounds

/-! ## Whole sessions -/

section Sessions

variable {exps : List Ast.Exp} {expected : List Output} {e : ParserException} {counter : Nat}

/-- A session shows what its expressions mean up to its end, which comes early only where a round is
out of memory. -/
theorem Session.outputs (means : List.Forall₂ Means exps expected) {outputs : List Output}
    {ending : SessionEnd}
    (session : Session (exps.map Event.read ++ [.error e]) counter outputs ending) :
    (ending = .broke ∧ outputs = expected ++ [.error e]) ∨
      (ending = .outOfMemory ∧ outputs <+: expected) := by
  induction means generalizing counter outputs ending with
  | nil =>
    cases session with
    | error rest =>
      cases rest
      exact .inl ⟨rfl, rfl⟩
  | cons isMeant _ ih =>
    cases session with
    | shows round rest =>
      rcases isMeant.fate round with ⟨counter', eq⟩ | eq
      · cases eq
        rcases ih rest with ⟨rfl, rfl⟩ | ⟨rfl, early⟩
        · exact .inl ⟨rfl, rfl⟩
        · exact .inr ⟨rfl, (List.prefix_cons_inj _).mpr early⟩
      · cases eq
    | outOfMemory round => exact .inr ⟨rfl, List.nil_prefix⟩
    | dies round =>
      rcases isMeant.fate round with ⟨counter', eq⟩ | eq
      · cases eq
      · cases eq

end Sessions

/-! ## A session -/

end Lambcalc.Driver
