import Lambcalc.Anf.DefuncCorrect
import Lambcalc.Ast.Scope
import Lambcalc.Convert.ClosureConvert
import Lambcalc.Hoist.Hoist
import Lambcalc.Parse.Lexer

/-!
# The passes in a row

What `main` of `src/main.cpp` does with an expression before it is lowered. Around the passes the
loop catches the exception of `rename` and no other.
-/

namespace Lambcalc.Driver

open Ast Anf

/-- What ends the passes early. -/
inductive Thrown where
  | notInScope (e : NotInScopeException)
  | runtime (e : RuntimeError)
  | stuck
  deriving DecidableEq, Repr

/-- The passes up to `hoist`, with the static counter of `anf::fresh` at a given value. -/
def compile (exp : Ast.Exp) (counter : Nat) : Except Thrown (List Hoist.Function × Nat) :=
  match rename exp with
  | some (.returned exp _) =>
    match convertDefunc exp counter with
    | .ok (anf, counter) => .ok (Hoist.hoist (closureConvert anf), counter)
    | .error e => .error (.runtime e)
  | some (.threw e) => .error (.notInScope e)
  | some .badLink => .error .stuck
  | none => .error .stuck

/-- The session goes on: there are functions to lower, or an exception that the loop catches. -/
def Survives (exp : Ast.Exp) (counter : Nat) : Prop :=
  (∃ fns, compile exp counter = .ok fns) ∨ ∃ e, compile exp counter = .error (.notInScope e)

section Passes

variable {exp : Ast.Exp}

theorem compile_open (open_ : ¬ exp.Closed) (counter : Nat) :
    ∃ e, compile exp counter = .error (.notInScope e) := by
  obtain ⟨e, threw⟩ := rename_throws open_
  refine ⟨e, ?_⟩
  unfold compile
  rw [threw]

theorem compile_closed (closed : exp.Closed) (counter : Nat) : compile exp counter =
    match convertDefunc (exp.relabel suffixed id 0) counter with
    | .ok (anf, counter) => .ok (Hoist.hoist (closureConvert anf), counter)
    | .error e => .error (.runtime e) := by
  rw [compile, rename_eq_relabel closed]

/-- The converter throws on the renamed tree if an integer literal is applied in it. -/
theorem convertDefunc_relabel_error (label : String → Nat → String) (σ : String → String)
    (i counter : Nat) : (∃ e, convertDefunc (exp.relabel label σ i) counter = .error e) ↔
      exp.appliesInt = true := by
  have applies : (∃ e, convert (exp.relabel label σ i) counter = .error e) ↔
      (exp.relabel label σ i).appliesInt = true := convert_eq_error
  rw [← Exp.appliesInt_relabel label exp σ i, ← applies]
  constructor
  · intro throws
    obtain ⟨e, threw⟩ := throws
    cases ran : convert (exp.relabel label σ i) counter with
    | error e => exact ⟨e, rfl⟩
    | ok result => cases threw.symm.trans (convertDefunc_eq_ok.mpr ran)
  · intro throws
    obtain ⟨e, threw⟩ := throws
    cases ran : convertDefunc (exp.relabel label σ i) counter with
    | error e => exact ⟨e, rfl⟩
    | ok result => cases threw.symm.trans (convertDefunc_eq_ok.mp ran)

end Passes

/-- The passes make functions of an expression or the loop catches what they throw, exactly if some
variable of the expression is in no scope or no integer literal is applied in it. -/
theorem survives_iff (exp : Ast.Exp) (counter : Nat) :
    Survives exp counter ↔ ((∃ x, exp.Unbound x) ∨ exp.appliesInt = false) := by
  have open_iff : (∃ x, exp.Unbound x) ↔ ¬ exp.Closed := by
    rw [Exp.closed_iff, not_forall_not]
  rw [open_iff]
  by_cases closed : exp.Closed
  · have throws : (∃ e, convertDefunc (exp.relabel suffixed id 0) counter = .error e) ↔
        exp.appliesInt = true := convertDefunc_relabel_error suffixed id 0 counter
    unfold Survives
    rw [compile_closed closed]
    cases ran : convertDefunc (exp.relabel suffixed id 0) counter with
    | ok result =>
      refine iff_of_true (.inl ⟨_, rfl⟩) (.inr (Bool.eq_false_iff.mpr fun applies => ?_))
      obtain ⟨e, threw⟩ := throws.mpr applies
      cases ran.symm.trans threw
    | error e =>
      have applies := throws.mp ⟨e, ran⟩
      refine iff_of_false (fun survives => ?_) fun either => ?_
      · rcases survives with ⟨fns, compiled⟩ | ⟨e', caught⟩
        · cases compiled
        · cases caught
      · rcases either with open_ | none
        · exact open_ closed
        · rw [applies] at none
          cases none
  · exact iff_of_true (.inr (compile_open closed counter)) (.inl closed)

/-- The text `1 2;` is parsed as an application of the literal `1`. -/
theorem applied_literal_uncaught : ∃ fuel s, Parse.parseExpression Parse.defaultInfixBp fuel
      (.new (Parse.CharLexer.new "1 2;".toList)) =
        .returned (.appExp (.intExp 1) (.intExp 2)) s ∧
    compile (.appExp (.intExp 1) (.intExp 2)) 0 =
      .error (.runtime ⟨"must apply named value"⟩) ∧
    ¬ Survives (.appExp (.intExp 1) (.intExp 2)) 0 := by
  have threw : compile (.appExp (.intExp 1) (.intExp 2)) 0 =
      .error (.runtime ⟨"must apply named value"⟩) := rfl
  refine ⟨5, _, rfl, threw, fun survives => ?_⟩
  unfold Survives at survives
  rw [threw] at survives
  rcases survives with ⟨fns, compiled⟩ | ⟨e', caught⟩
  · cases compiled
  · cases caught

end Lambcalc.Driver
