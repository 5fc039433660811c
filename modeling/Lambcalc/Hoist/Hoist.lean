import Lambcalc.Anf.Exp
import Mathlib.Tactic.Common

/-!
# Hoisting

`HoistVisitor` and `anf::hoist` of `src/hoist.cpp`, with `Join` and `Function` of
`include/hoist.h`. The worklist makes a depth-first traversal; the tasks pushed between the
subterms of a node run where the recursion here comes back to the node. A body is hoisted
before its block is appended and before the rest is visited, and a branch is appended after
everything in both branches.
-/

namespace Lambcalc.Hoist

open Anf

/-- `anf::Join`: a block. -/
structure Join where
  name : Var
  slot : Option Var
  body : Exp
  deriving DecidableEq, Repr

/-- `anf::Function`. -/
structure Function where
  name : Var
  params : List Var
  entryBlock : Join
  blocks : List Join
  deriving DecidableEq, Repr

/-- The fields of `HoistVisitor`. -/
structure HoistVisitor where
  counter : Nat
  currentJoins : List Join
  collected : List Function

/-- `fresh("entry")`, at a given value of `counter_`. -/
def entryName (counter : Nat) : Var := "entry" ++ toString counter

/-- `fresh("then")`, at a given value of `counter_`. -/
def thenName (counter : Nat) : Var := "then" ++ toString counter

/-- `fresh("else")`, at a given value of `counter_`. -/
def elseName (counter : Nat) : Var := "else" ++ toString counter

/-- The visits of `t` and its subterms: the term they leave in the parent link and the visitor
they leave. -/
def hoistExp : Exp → HoistVisitor → Exp × HoistVisitor
  | .haltExp value, visitor => (.haltExp value, visitor)
  | .funExp name params body rest, visitor =>
    let savedJoins := visitor.currentJoins
    let (body, visitor) := hoistExp body { visitor with currentJoins := [] }
    let entryBlock : Join := ⟨entryName visitor.counter, none, body⟩
    let function : Function := ⟨name, params, entryBlock, visitor.currentJoins⟩
    hoistExp rest ⟨visitor.counter + 1, savedJoins, visitor.collected ++ [function]⟩
  | .joinExp name slot body rest, visitor =>
    let (body, visitor) := hoistExp body visitor
    let block : Join := ⟨name, slot, body⟩
    hoistExp rest { visitor with currentJoins := visitor.currentJoins ++ [block] }
  | .jumpExp joinName slotValue, visitor => (.jumpExp joinName slotValue, visitor)
  | .appExp name funName paramValues rest, visitor =>
    let (rest, visitor) := hoistExp rest visitor
    (.appExp name funName paramValues rest, visitor)
  | .bopExp name bop param1 param2 rest, visitor =>
    let (rest, visitor) := hoistExp rest visitor
    (.bopExp name bop param1 param2 rest, visitor)
  | .ifExp cond thenBranch elseBranch, visitor =>
    let (thenBranch, visitor) := hoistExp thenBranch visitor
    let (elseBranch, visitor) := hoistExp elseBranch visitor
    let thenBlock : Join := ⟨thenName visitor.counter, none, thenBranch⟩
    let elseBlock : Join := ⟨elseName (visitor.counter + 1), none, elseBranch⟩
    (.ifExp cond (.jumpExp thenBlock.name none) (.jumpExp elseBlock.name none),
      { visitor with
        counter := visitor.counter + 2
        currentJoins := visitor.currentJoins ++ [thenBlock, elseBlock] })
  | .tupleExp name values rest, visitor =>
    let (rest, visitor) := hoistExp rest visitor
    (.tupleExp name values rest, visitor)
  | .projExp name tuple index rest, visitor =>
    let (rest, visitor) := hoistExp rest visitor
    (.projExp name tuple index rest, visitor)

/-- `anf::hoist`. -/
def hoist (start : Exp) : List Function :=
  (hoistExp (.funExp "main" [] start (.haltExp (.intValue 0))) ⟨0, [], []⟩).2.collected

/-! ## What one subterm contributes -/

/-- The numbers the visits of `t` take: one for each function and two for each `If`. -/
def hoists : Exp → Nat
  | .haltExp _ => 0
  | .funExp _ _ body rest => hoists body + 1 + hoists rest
  | .joinExp _ _ body rest => hoists body + hoists rest
  | .jumpExp _ _ => 0
  | .appExp _ _ _ rest => hoists rest
  | .bopExp _ _ _ _ rest => hoists rest
  | .ifExp _ thenBranch elseBranch => hoists thenBranch + hoists elseBranch + 2
  | .tupleExp _ _ rest => hoists rest
  | .projExp _ _ _ rest => hoists rest

/-- What is left of `t`, visited with `counter_` at `c`. -/
def block : Exp → Nat → Exp
  | .haltExp value, _ => .haltExp value
  | .funExp _ _ body rest, c => block rest (c + hoists body + 1)
  | .joinExp _ _ body rest, c => block rest (c + hoists body)
  | .jumpExp joinName slotValue, _ => .jumpExp joinName slotValue
  | .appExp name funName paramValues rest, c => .appExp name funName paramValues (block rest c)
  | .bopExp name bop param1 param2 rest, c => .bopExp name bop param1 param2 (block rest c)
  | .ifExp cond thenBranch elseBranch, c =>
    let d := c + hoists thenBranch + hoists elseBranch
    .ifExp cond (.jumpExp (thenName d) none) (.jumpExp (elseName (d + 1)) none)
  | .tupleExp name values rest, c => .tupleExp name values (block rest c)
  | .projExp name tuple index rest, c => .projExp name tuple index (block rest c)

/-- The blocks `t` appends to those of its function. -/
def blocks : Exp → Nat → List Join
  | .haltExp _, _ => []
  | .funExp _ _ body rest, c => blocks rest (c + hoists body + 1)
  | .joinExp name slot body rest, c =>
    blocks body c ++ [⟨name, slot, block body c⟩] ++ blocks rest (c + hoists body)
  | .jumpExp _ _, _ => []
  | .appExp _ _ _ rest, c => blocks rest c
  | .bopExp _ _ _ _ rest, c => blocks rest c
  | .ifExp _ thenBranch elseBranch, c =>
    let d := c + hoists thenBranch + hoists elseBranch
    blocks thenBranch c ++ blocks elseBranch (c + hoists thenBranch) ++
      [⟨thenName d, none, block thenBranch c⟩,
        ⟨elseName (d + 1), none, block elseBranch (c + hoists thenBranch)⟩]
  | .tupleExp _ _ rest, c => blocks rest c
  | .projExp _ _ _ rest, c => blocks rest c

/-- The function a `FunExp` becomes. -/
def functionOf (name : Var) (params : List Var) (body : Exp) (c : Nat) : Function :=
  ⟨name, params, ⟨entryName (c + hoists body), none, block body c⟩, blocks body c⟩

/-- The functions `t` makes. -/
def lifted : Exp → Nat → List Function
  | .haltExp _, _ => []
  | .funExp name params body rest, c =>
    lifted body c ++ [functionOf name params body c] ++ lifted rest (c + hoists body + 1)
  | .joinExp _ _ body rest, c => lifted body c ++ lifted rest (c + hoists body)
  | .jumpExp _ _, _ => []
  | .appExp _ _ _ rest, c => lifted rest c
  | .bopExp _ _ _ _ rest, c => lifted rest c
  | .ifExp _ thenBranch elseBranch, c =>
    lifted thenBranch c ++ lifted elseBranch (c + hoists thenBranch)
  | .tupleExp _ _ rest, c => lifted rest c
  | .projExp _ _ _ rest, c => lifted rest c

/-- A visit only appends to what the visitor has gathered. -/
theorem hoistExp_eq (t : Exp) (c : Nat) (joins : List Join) (functions : List Function) :
    hoistExp t ⟨c, joins, functions⟩ =
      (block t c, ⟨c + hoists t, joins ++ blocks t c, functions ++ lifted t c⟩) := by
  induction t generalizing c joins functions with
  | haltExp value => simp [hoistExp, block, blocks, lifted, hoists]
  | jumpExp joinName slotValue => simp [hoistExp, block, blocks, lifted, hoists]
  | funExp name params body rest ihBody ihRest =>
    simp [hoistExp, ihBody, ihRest, block, blocks, lifted, hoists, functionOf, Nat.add_assoc]
  | joinExp name slot body rest ihBody ihRest =>
    simp [hoistExp, ihBody, ihRest, block, blocks, lifted, hoists, Nat.add_assoc]
  | appExp name funName paramValues rest ih =>
    simp [hoistExp, ih, block, blocks, lifted, hoists]
  | bopExp name bop param1 param2 rest ih =>
    simp [hoistExp, ih, block, blocks, lifted, hoists]
  | ifExp cond thenBranch elseBranch ihThen ihElse =>
    simp [hoistExp, ihThen, ihElse, block, blocks, lifted, hoists, Nat.add_assoc]
  | tupleExp name values rest ih => simp [hoistExp, ih, block, blocks, lifted, hoists]
  | projExp name tuple index rest ih => simp [hoistExp, ih, block, blocks, lifted, hoists]

/-- `main` is collected last. -/
theorem hoist_eq (start : Exp) :
    hoist start = lifted start 0 ++ [functionOf "main" [] start 0] := by
  rw [hoist, hoistExp_eq, lifted]
  simp [lifted]

/-- `Hoist.SimpleJoin` of `test/hoist.cpp`. -/
example : hoist (.joinExp "a" (some "x") (.joinExp "b" none (.haltExp (.intValue 0))
      (.bopExp "y" .plus (.varValue "x") (.intValue 1) (.haltExp (.varValue "y"))))
      (.joinExp "c" none (.haltExp (.intValue 1)) (.jumpExp "a" (some (.intValue 1))))) =
    [⟨"main", [], ⟨"entry0", none, .jumpExp "a" (some (.intValue 1))⟩,
      [⟨"b", none, .haltExp (.intValue 0)⟩,
        ⟨"a", some "x", .bopExp "y" .plus (.varValue "x") (.intValue 1) (.haltExp (.varValue "y"))⟩,
        ⟨"c", none, .haltExp (.intValue 1)⟩]⟩] := by decide

end Lambcalc.Hoist
