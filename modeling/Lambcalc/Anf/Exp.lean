import Lambcalc.Ast.Exp

/-!
# A-normal form

`anf::Value` and `anf::Exp` of `include/anf.h`.
-/

namespace Lambcalc.Anf

abbrev Var := String

/-- `anf::Value`. -/
inductive Value where
  | intValue (value : Int)
  | varValue (var : Var)
  | globValue (glob : Var)
  deriving DecidableEq, Repr

/-- `anf::Exp`. A `unique_ptr<Exp>` field is the subtree it owns. -/
inductive Exp where
  | haltExp (value : Value)
  | funExp (name : Var) (params : List Var) (body rest : Exp)
  | joinExp (name : Var) (slot : Option Var) (body rest : Exp)
  | jumpExp (joinName : Var) (slotValue : Option Value)
  | appExp (name funName : Var) (paramValues : List Value) (rest : Exp)
  | bopExp (name : Var) (bop : Ast.Bop) (param1 param2 : Value) (rest : Exp)
  | ifExp (cond : Value) (thenBranch elseBranch : Exp)
  | tupleExp (name : Var) (values : List Value) (rest : Exp)
  | projExp (name tuple : Var) (index : Nat) (rest : Exp)
  deriving DecidableEq, Repr

end Lambcalc.Anf
