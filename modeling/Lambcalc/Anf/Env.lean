import Lambcalc.Anf.Exp
import Lambcalc.Ast.Semantics
import Mathlib.Data.List.Basic

/-!
# Environments and join points

What the semantics of the A-normal forms share, over an arbitrary type `V` of values.

A join point keeps the environment of its `JoinExp`. Join points in scope form a list,
innermost first, so the join points a join body sees are the tail of the list below its own
entry.
-/

namespace Lambcalc.Anf

variable {V : Type}

abbrev Env (V : Type) := Var → Option V

/-- The environment `ρ` with `x` bound to `v`. -/
def Env.set (ρ : Env V) (x : Var) (v : V) : Env V := Function.update ρ x (some v)

@[simp] theorem Env.set_self (ρ : Env V) (x : Var) (v : V) : ρ.set x v x = some v :=
  Function.update_self ..

theorem Env.set_of_ne {x y : Var} (ne : y ≠ x) (ρ : Env V) (v : V) : ρ.set x v y = ρ y :=
  Function.update_of_ne ne ..

/-- Parameters bound to as many arguments. -/
def Env.bind (ρ : Env V) : List Var → List V → Option (Env V)
  | [], [] => some ρ
  | x :: xs, v :: vs => (ρ.set x v).bind xs vs
  | _, _ => none

/-- A join point: a `JoinExp` and the environment it was reached in. -/
structure JoinPoint (V : Type) where
  name : Var
  slot : Option Var
  env : Env V
  body : Exp

/-- The join point a name refers to, and those in scope in its body. -/
def findJoin : List (JoinPoint V) → Var → Option (JoinPoint V × List (JoinPoint V))
  | [], _ => none
  | join :: joins, name => if join.name = name then some (join, joins) else findJoin joins name

theorem findJoin_self (join : JoinPoint V) (joins : List (JoinPoint V)) :
    findJoin (join :: joins) join.name = some (join, joins) := if_pos rfl

/-- The environment after a slot has been passed its value. A value goes with a slot. -/
def passSlot (ρ : Env V) : Option Var → Option V → Option (Env V)
  | none, none => some ρ
  | some slot, some v => some (ρ.set slot v)
  | _, _ => none

end Lambcalc.Anf
