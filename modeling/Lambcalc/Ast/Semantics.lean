import Lambcalc.Ast.Exp
import Mathlib.Data.Set.Function

/-!
# Call-by-value semantics of the source language

A big-step semantics with environments. Integers are the 64-bit words the compiled code
computes with: a C++ `int` literal is read modulo `2^64`, and so are the operators. Operands
are evaluated left to right; applying an integer and calculating or branching with a
function have no rule.
-/

namespace Lambcalc

/-- The integers of both languages. -/
abbrev Word := BitVec 64

/-- The value of a C++ `int` literal. -/
def Word.ofLiteral (value : Int) : Word := BitVec.ofInt 64 value

namespace Ast

/-- The operators, modulo `2^64`. -/
def Bop.eval : Bop → Word → Word → Word
  | .plus, m, n => m + n
  | .minus, m, n => m - n
  | .times, m, n => m * n

/-- Source values: integers and closures. -/
inductive Val where
  | int (n : Word)
  | clos (env : String → Option Val) (param : String) (body : Exp)

abbrev Env := String → Option Val

/-- `Eval ρ e v`: `e` evaluates to `v` under the environment `ρ`. -/
inductive Eval : Env → Exp → Val → Prop
  | intExp {ρ : Env} {value : Int} : Eval ρ (.intExp value) (.int (.ofLiteral value))
  | varExp {ρ : Env} {name : String} {v : Val} : ρ name = some v → Eval ρ (.varExp name) v
  | lamExp {ρ : Env} {param : String} {body : Exp} :
    Eval ρ (.lamExp param body) (.clos ρ param body)
  | appExp {ρ ρ' : Env} {fn arg body : Exp} {param : String} {v w : Val} :
    Eval ρ fn (.clos ρ' param body) → Eval ρ arg v →
    Eval (Function.update ρ' param (some v)) body w → Eval ρ (.appExp fn arg) w
  | bopExp {ρ : Env} {bop : Bop} {arg1 arg2 : Exp} {m n : Word} :
    Eval ρ arg1 (.int m) → Eval ρ arg2 (.int n) →
    Eval ρ (.bopExp bop arg1 arg2) (.int (bop.eval m n))
  | ifThen {ρ : Env} {cond then_ els : Exp} {n : Word} {v : Val} :
    Eval ρ cond (.int n) → n ≠ 0 → Eval ρ then_ v → Eval ρ (.ifExp cond then_ els) v
  | ifElse {ρ : Env} {cond then_ els : Exp} {v : Val} :
    Eval ρ cond (.int 0) → Eval ρ els v → Eval ρ (.ifExp cond then_ els) v

end Ast

end Lambcalc
