import Lambcalc.Hoist.Hoist
import Mathlib.Data.Finset.Basic
import Mathlib.Data.String.Basic

/-!
# Which names lowering has defined

The traffic with `namedValues_` in `LLVMLowerVisitor` and `lowerModule` of `src/lower.cpp`. Of
the map only its keys are kept, the names entered so far, and of the instructions nothing.
`none` stands for a lookup that finds no value, which hands a null `llvm::Value` to the builder,
or for a failed assertion. The map belongs to one function: it starts with the parameters, and
then the entry block and the other blocks go through it in the order of the list.
-/

namespace Lambcalc.Lower

open Anf Hoist

/-- The visit of an operand finds a value. `visitVarValue` looks the name up; an integer is a
constant, and `visitGlobValue` asks the module. -/
def visitValue (named : Finset Var) : Value → Bool
  | .intValue _ => true
  | .varValue var => decide (var ∈ named)
  | .globValue _ => true

/-- `std::get_if<JumpExp>`. -/
def isJump : Exp → Bool
  | .jumpExp _ _ => true
  | _ => false

/-- The instructions of a block: the names entered after them. Each node that has a rest ends in
the pipeline's own visit, which looks its operands up once more. -/
def lowerExp : Exp → Finset Var → Option (Finset Var)
  | .haltExp value, named => do
    guard (visitValue named value)
    return named
  | .funExp _ _ _ _, _ => none
  | .joinExp _ _ _ _, _ => none
  | .jumpExp _ slotValue, named => do
    guard (slotValue.all (visitValue named))
    return named
  | .appExp name funName paramValues rest, named => do
    guard (paramValues.all (visitValue named))
    -- a function that is no named value is taken from the module
    let named := insert name named
    guard (visitValue named (.varValue funName) && paramValues.all (visitValue named))
    lowerExp rest named
  | .bopExp name _ param1 param2 rest, named => do
    guard (visitValue named param1 && visitValue named param2)
    let named := insert name named
    guard (visitValue named param1 && visitValue named param2)
    lowerExp rest named
  | .ifExp cond thenBranch elseBranch, named => do
    guard (visitValue named cond)
    -- `visitIfJump` stores to spill slots and looks up blocks; other branches are visited
    if isJump thenBranch && isJump elseBranch then return named
    lowerExp elseBranch named >>= lowerExp thenBranch
  | .tupleExp name values rest, named => do
    let named := insert name named
    guard (values.all (visitValue named))
    lowerExp rest named
  | .projExp name tuple _ rest, named => do
    guard (visitValue named (.varValue tuple))
    let named := insert name named
    guard (visitValue named (.varValue tuple))
    lowerExp rest named

/-- `lowerBlock`, after the slot of the block has been loaded. -/
def lowerBlock (named : Finset Var) (block : Join) : Option (Finset Var) :=
  lowerExp block.body (block.slot.toList.toFinset ∪ named)

/-- The blocks of one function, as `lowerModule` goes through them. -/
def lowerFunction (fn : Function) : Option (Finset Var) := do
  let named ← lowerExp fn.entryBlock.body fn.params.toFinset
  fn.blocks.foldlM lowerBlock named

/-- No lookup of `fn` comes before the name is defined. -/
def Defined (fn : Function) : Prop := (lowerFunction fn).isSome

instance (fn : Function) : Decidable (Defined fn) :=
  inferInstanceAs (Decidable ((lowerFunction fn).isSome = true))

end Lambcalc.Lower
