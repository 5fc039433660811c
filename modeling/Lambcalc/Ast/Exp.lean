import Mathlib.Data.Finset.Basic
import Mathlib.Data.String.Basic

/-!
# The source language

`ast::Exp` of `include/ast.h`: integers, variables, one-parameter functions, application,
the three binary operators and `if`. The pointer type the C++ template abstracts over
(`unique_ptr` in the tests, arena pointers in the REPL) has no counterpart: the tree is the
same value under both.
-/

namespace Lambcalc.Ast

/-- `ast::Bop`. -/
inductive Bop where
  | plus
  | minus
  | times
  deriving DecidableEq, Repr

/-- `ast::Exp`. An `IntExp` holds a C++ `int`. -/
inductive Exp where
  | intExp (value : Int)
  | varExp (name : String)
  | lamExp (param : String) (body : Exp)
  | appExp (fn arg : Exp)
  | bopExp (bop : Bop) (arg1 arg2 : Exp)
  | ifExp (cond then_ els : Exp)
  deriving DecidableEq, Repr

/-- A letter followed by letters and digits, as `Lexer::getToken` reads an identifier. -/
def isIdentifier (name : String) : Bool :=
  match name.toList with
  | [] => false
  | first :: rest => first.isAlpha && rest.all Char.isAlphanum

namespace Exp

/-- The variables of `e` that no lambda of `e` binds. -/
def free : Exp → Finset String
  | intExp _ => ∅
  | varExp name => {name}
  | lamExp param body => body.free.erase param
  | appExp fn arg => fn.free ∪ arg.free
  | bopExp _ arg1 arg2 => arg1.free ∪ arg2.free
  | ifExp cond then_ els => cond.free ∪ then_.free ∪ els.free

/-- No variable of `e` occurs outside a lambda that binds it. -/
def Closed (e : Exp) : Prop := e.free = ∅

instance (e : Exp) : Decidable e.Closed := inferInstanceAs (Decidable (e.free = ∅))

/-- The parameters of the lambdas of `e`, in reading order. -/
def params : Exp → List String
  | intExp _ => []
  | varExp _ => []
  | lamExp param body => param :: body.params
  | appExp fn arg => fn.params ++ arg.params
  | bopExp _ arg1 arg2 => arg1.params ++ arg2.params
  | ifExp cond then_ els => cond.params ++ then_.params ++ els.params

/-- The names of `e`, of parameters and of variables, in reading order. -/
def names : Exp → List String
  | intExp _ => []
  | varExp name => [name]
  | lamExp param body => param :: body.names
  | appExp fn arg => fn.names ++ arg.names
  | bopExp _ arg1 arg2 => arg1.names ++ arg2.names
  | ifExp cond then_ els => cond.names ++ then_.names ++ els.names

/-- Some `AppExp` of the tree has an `IntExp` in function position. -/
def appliesInt : Exp → Bool
  | intExp _ => false
  | varExp _ => false
  | lamExp _ body => body.appliesInt
  | appExp fn arg =>
    (match fn with | intExp _ => true | _ => false) || fn.appliesInt || arg.appliesInt
  | bopExp _ arg1 arg2 => arg1.appliesInt || arg2.appliesInt
  | ifExp cond then_ els => cond.appliesInt || then_.appliesInt || els.appliesInt

end Exp

end Lambcalc.Ast
