import Lambcalc.Convert.Semantics
import Lambcalc.Hoist.Hoist

/-!
# Semantics of hoisted functions

The meaning of a list of functions made of blocks. A call has one environment: `Jump` sets the
slot of the block it goes to in that environment and goes on there. `Halt` returns to the
caller. Values, operands and records are those of closure-converted code.
-/

namespace Lambcalc.Hoist

open Lambcalc.Convert
open Anf (Exp Value Var Env JoinPoint findJoin passSlot)

/-- The block of a name: the entry block or one of the others. -/
def Function.findBlock (fn : Function) (name : Var) : Option Join :=
  (fn.entryBlock :: fn.blocks).find? (·.name = name)

/-- The function of a name. -/
def findFunction (fns : List Function) (name : Var) : Option Function :=
  fns.find? (·.name = name)

/-- What is left of a block of `fn`, run in the environment `ρ` of one call: the value the call
returns, and the heap it leaves. -/
def runBlock (fns : List Function) : Nat → Function → Env Val → Heap → Exp → Option (Val × Heap)
  | 0, _, _, _, _ => none
  | _ + 1, _, ρ, H, .haltExp value => (read ρ value).map (·, H)
  | _ + 1, _, _, _, .funExp .. => none
  | _ + 1, _, _, _, .joinExp .. => none
  | fuel + 1, fn, ρ, H, .jumpExp joinName slotValue => do
    let join ← fn.findBlock joinName
    let value ← slotValue.mapM (read ρ)
    let ρ ← passSlot ρ join.slot value
    runBlock fns fuel fn ρ H join.body
  | fuel + 1, fn, ρ, H, .appExp name funName paramValues rest => do
    let called ← findFunction fns (← callee ρ funName)
    let args ← paramValues.mapM (read ρ)
    let inner ← Env.bind (fun _ => none) called.params args
    let (v, H) ← runBlock fns fuel called inner H called.entryBlock.body
    runBlock fns fuel fn (ρ.set name v) H rest
  | fuel + 1, fn, ρ, H, .bopExp name bop param1 param2 rest => do
    let m ← (← read ρ param1).asInt
    let n ← (← read ρ param2).asInt
    runBlock fns fuel fn (ρ.set name (.int (bop.eval m n))) H rest
  | fuel + 1, fn, ρ, H, .ifExp cond thenBranch elseBranch => do
    let n ← (← read ρ cond).asInt
    runBlock fns fuel fn ρ H (if n = 0 then elseBranch else thenBranch)
  | fuel + 1, fn, ρ, H, .tupleExp name values rest => do
    let cells ← values.mapM (cell ρ)
    runBlock fns fuel fn (ρ.set name (.addr H.length)) (H ++ [cells]) rest
  | fuel + 1, fn, ρ, H, .projExp name tuple index rest => do
    let cells ← H[← (← ρ tuple).asAddr]?
    let (_, v) ← cells[index]?
    runBlock fns fuel fn (ρ.set name v) H rest

/-- The program returns the integer `n` from the entry block of `main`. -/
def BlockYields (fns : List Function) (n : Word) : Prop :=
  ∃ main fuel H, findFunction fns "main" = some main ∧
    runBlock fns fuel main (fun _ => none) [] main.entryBlock.body = some (.int n, H)

/-! ## One node -/

section Nodes

variable {fns : List Function} {fuel : Nat} {fn : Function} {ρ : Env Val} {H : Heap}
  {name : Var} {rest : Exp} {w : Val × Heap}

attribute [local simp] runBlock

theorem runBlock_jumpExp {joinName : Var} {slotValue : Option Value} :
    runBlock fns (fuel + 1) fn ρ H (.jumpExp joinName slotValue) = some w ↔
      ∃ join value inner, fn.findBlock joinName = some join ∧
        slotValue.mapM (read ρ) = some value ∧ passSlot ρ join.slot value = some inner ∧
        runBlock fns fuel fn inner H join.body = some w := by
  simp only [runBlock, Option.bind_eq_bind, Option.bind_eq_some_iff]
  grind

theorem runBlock_appExp {funName : Var} {paramValues : List Value} :
    runBlock fns (fuel + 1) fn ρ H (.appExp name funName paramValues rest) = some w ↔
      ∃ label called args inner v H', callee ρ funName = some label ∧
        findFunction fns label = some called ∧ paramValues.mapM (read ρ) = some args ∧
        Env.bind (fun _ => none) called.params args = some inner ∧
        runBlock fns fuel called inner H called.entryBlock.body = some (v, H') ∧
        runBlock fns fuel fn (ρ.set name v) H' rest = some w := by
  simp only [runBlock, Option.bind_eq_bind, Option.bind_eq_some_iff, Prod.exists]
  grind

theorem runBlock_bopExp {bop : Ast.Bop} {param1 param2 : Value} :
    runBlock fns (fuel + 1) fn ρ H (.bopExp name bop param1 param2 rest) = some w ↔
      ∃ m n, read ρ param1 = some (.int m) ∧ read ρ param2 = some (.int n) ∧
        runBlock fns fuel fn (ρ.set name (.int (bop.eval m n))) H rest = some w := by
  simp only [runBlock, Option.bind_eq_bind, Option.bind_eq_some_iff, Val.asInt_eq_some]
  grind

theorem runBlock_ifExp {cond : Value} {thenBranch elseBranch : Exp} :
    runBlock fns (fuel + 1) fn ρ H (.ifExp cond thenBranch elseBranch) = some w ↔
      ∃ n, read ρ cond = some (.int n) ∧
        runBlock fns fuel fn ρ H (if n = 0 then elseBranch else thenBranch) = some w := by
  simp only [runBlock, Option.bind_eq_bind, Option.bind_eq_some_iff, Val.asInt_eq_some]
  grind

theorem runBlock_tupleExp {values : List Value} :
    runBlock fns (fuel + 1) fn ρ H (.tupleExp name values rest) = some w ↔
      ∃ cells, values.mapM (cell ρ) = some cells ∧
        runBlock fns fuel fn (ρ.set name (.addr H.length)) (H ++ [cells]) rest = some w := by
  simp only [runBlock, Option.bind_eq_bind, Option.bind_eq_some_iff]

theorem runBlock_projExp {tuple : Var} {index : Nat} :
    runBlock fns (fuel + 1) fn ρ H (.projExp name tuple index rest) = some w ↔
      ∃ a cells operand v, ρ tuple = some (.addr a) ∧ H[a]? = some cells ∧
        cells[index]? = some (operand, v) ∧
        runBlock fns fuel fn (ρ.set name v) H rest = some w := by
  simp only [runBlock, Option.bind_eq_bind, Option.bind_eq_some_iff, Prod.exists,
    Val.asAddr_eq_some]
  grind

end Nodes

/-- More fuel does not change a result. -/
theorem runBlock_succ {fns : List Function} {fuel : Nat} {fn : Function} {ρ : Env Val} {H : Heap}
    {t : Exp} {w : Val × Heap} (ran : runBlock fns fuel fn ρ H t = some w) :
    runBlock fns (fuel + 1) fn ρ H t = some w := by
  induction fuel generalizing fn ρ H t w with
  | zero => cases ran
  | succ fuel ih =>
    cases t with
    | haltExp value => exact ran
    | funExp name params body rest => cases ran
    | joinExp name slot body rest => cases ran
    | jumpExp joinName slotValue =>
      obtain ⟨join, value, inner, found, passed, entered, ran⟩ := runBlock_jumpExp.mp ran
      exact runBlock_jumpExp.mpr ⟨join, value, inner, found, passed, entered, ih ran⟩
    | appExp name funName paramValues rest =>
      obtain ⟨label, called, args, inner, v, H', target, known, values, bound, ran, rest⟩ :=
        runBlock_appExp.mp ran
      exact runBlock_appExp.mpr
        ⟨label, called, args, inner, v, H', target, known, values, bound, ih ran, ih rest⟩
    | bopExp name bop param1 param2 rest =>
      obtain ⟨m, n, value1, value2, ran⟩ := runBlock_bopExp.mp ran
      exact runBlock_bopExp.mpr ⟨m, n, value1, value2, ih ran⟩
    | ifExp cond thenBranch elseBranch =>
      obtain ⟨n, value, ran⟩ := runBlock_ifExp.mp ran
      exact runBlock_ifExp.mpr ⟨n, value, ih ran⟩
    | tupleExp name values rest =>
      obtain ⟨cells, filled, ran⟩ := runBlock_tupleExp.mp ran
      exact runBlock_tupleExp.mpr ⟨cells, filled, ih ran⟩
    | projExp name tuple index rest =>
      obtain ⟨a, cells, operand, v, found, allocated, inRange, ran⟩ := runBlock_projExp.mp ran
      exact runBlock_projExp.mpr ⟨a, cells, operand, v, found, allocated, inRange, ih ran⟩

/-- More fuel keeps a value. -/
theorem runBlock_mono {fns : List Function} {small large : Nat} (le : small ≤ large)
    {fn : Function} {ρ : Env Val} {H : Heap} {t : Exp} {w : Val × Heap}
    (ran : runBlock fns small fn ρ H t = some w) : runBlock fns large fn ρ H t = some w := by
  induction le with
  | refl => exact ran
  | step _ ih => exact runBlock_succ ih

end Lambcalc.Hoist
