import Lambcalc.Hoist.Hoist
import Lambcalc.InPlace.Node
import Lambcalc.Lib.StepMachine

/-!
# Hoisting in place

`HoistVisitor` and `anf::hoist` of `src/hoist.cpp`: the nodes of the term lie in memory, the
worklist is a stack, and the blocks and functions that have been gathered own their bodies. A
null or dangling pointer that is followed ends the loop without a result.
-/

namespace Lambcalc.InPlace

open Anf
open Hoist (entryName thenName elseName)
open Lib (Addr Ptr Link Layout Store Allocator Path)

/-- `anf::Join`. -/
structure Join where
  name : Var
  slot : Option Var
  body : Ptr
  deriving DecidableEq, Repr

/-- `anf::Function`. -/
structure Function where
  name : Var
  params : List Var
  entryBlock : Join
  blocks : List Join
  deriving DecidableEq, Repr

/-! ## The worklist -/

/-- A `NodeTask`, or one of the `FnTask`s of a `FunExp`, a `JoinExp` or an `IfExp`. -/
inductive HoistTask where
  | node (parentLink : Link Field) (exp : Addr)
  | relink (savedParentLink : Option (Link Field)) (exp : Addr)
  | collectFunction (exp : Addr) (savedJoins : List Join)
  | collectJoin (exp : Addr)
  | collectBranches (exp : Addr)

/-- The fields of `HoistVisitor`, its worklist, top first, and the memory. -/
structure HoistVisitor where
  counter : Nat
  currentJoins : List Join
  collected : List Function
  parentLink : Option (Link Field)
  worklist : List HoistTask
  nodes : Nodes

namespace HoistVisitor

/-- `addWorklist`: the task for the node the link owns. -/
def addWorklist (link : Link Field) (visitor : HoistVisitor) : Option HoistVisitor := do
  let exp ← ← visitor.nodes.load link
  return { visitor with worklist := .node link exp :: visitor.worklist }

/-- Push a `FnTask`. -/
def emplace (task : HoistTask) (visitor : HoistVisitor) : HoistVisitor :=
  { visitor with worklist := task :: visitor.worklist }

/-- `operator()(FunExp &)`. -/
def visitFunExp (exp : Addr) (visitor : HoistVisitor) : Option HoistVisitor := do
  let savedJoins := visitor.currentJoins
  let visitor := { visitor with currentJoins := [] }
  let visitor := visitor.emplace (.relink visitor.parentLink exp)
  let visitor ← visitor.addWorklist (.field exp .rest)
  let visitor := visitor.emplace (.collectFunction exp savedJoins)
  visitor.addWorklist (.field exp .body)

/-- `operator()(JoinExp &)`. -/
def visitJoinExp (exp : Addr) (visitor : HoistVisitor) : Option HoistVisitor := do
  let visitor := visitor.emplace (.relink visitor.parentLink exp)
  let visitor ← visitor.addWorklist (.field exp .rest)
  let visitor := visitor.emplace (.collectJoin exp)
  visitor.addWorklist (.field exp .body)

/-- `operator()(IfExp &)`. -/
def visitIfExp (exp : Addr) (visitor : HoistVisitor) : Option HoistVisitor := do
  let visitor := visitor.emplace (.collectBranches exp)
  let visitor ← visitor.addWorklist (.field exp .elseBranch)
  visitor.addWorklist (.field exp .thenBranch)

/-- `std::visit`. -/
def visit (exp : Addr) (visitor : HoistVisitor) : Option HoistVisitor := do
  match ← visitor.nodes.cell exp with
  | .haltExp _ => return visitor
  | .funExp _ _ _ _ => visitor.visitFunExp exp
  | .joinExp _ _ _ _ => visitor.visitJoinExp exp
  | .jumpExp _ _ => return visitor
  | .appExp _ _ _ _ => visitor.addWorklist (.field exp .rest)
  | .bopExp _ _ _ _ _ => visitor.addWorklist (.field exp .rest)
  | .ifExp _ _ _ => visitor.visitIfExp exp
  | .tupleExp _ _ _ => visitor.addWorklist (.field exp .rest)
  | .projExp _ _ _ _ => visitor.addWorklist (.field exp .rest)

/-- The `FnTask` that puts the rest of a node in its place. -/
def relink (savedParentLink : Option (Link Field)) (exp : Addr) (visitor : HoistVisitor) :
    Option HoistVisitor := do
  match savedParentLink with
  | some link =>
    let (rest, s) ← visitor.nodes.move (.field exp .rest)
    let s ← s.assign rest link
    return { visitor with nodes := s }
  | none => return visitor

/-- The `FnTask` that makes a function of a node whose body is done. A name that has been moved
from is empty. -/
def collectFunction (exp : Addr) (savedJoins : List Join) (visitor : HoistVisitor) :
    Option HoistVisitor := do
  match ← visitor.nodes.cell exp with
  | .funExp name params body rest =>
    let entryBlock : Join := ⟨entryName visitor.counter, none, body⟩
    let function : Function := ⟨name, params, entryBlock, visitor.currentJoins⟩
    return { visitor with
      counter := visitor.counter + 1
      collected := visitor.collected ++ [function]
      currentJoins := savedJoins
      nodes := visitor.nodes.write exp (.funExp "" [] none rest) }
  | _ => none

/-- The `FnTask` that makes a block of a node whose body is done. -/
def collectJoin (exp : Addr) (visitor : HoistVisitor) : Option HoistVisitor := do
  match ← visitor.nodes.cell exp with
  | .joinExp name slot body rest =>
    return { visitor with
      currentJoins := visitor.currentJoins ++ [⟨name, slot, body⟩]
      nodes := visitor.nodes.write exp (.joinExp "" (slot.map fun _ => "") none rest) }
  | _ => none

/-- The `FnTask` that makes blocks of two branches that are done, and jumps to them. -/
def collectBranches (alloc : Allocator Node) (exp : Addr) (visitor : HoistVisitor) :
    Option HoistVisitor := do
  match ← visitor.nodes.cell exp with
  | .ifExp cond thenBranch elseBranch =>
    let thenBlockName := thenName visitor.counter
    let elseBlockName := elseName (visitor.counter + 1)
    let blocks : List Join := [⟨thenBlockName, none, thenBranch⟩, ⟨elseBlockName, none, elseBranch⟩]
    let s := visitor.nodes.write exp (.ifExp cond none none)
    let (thenJump, s) := s.make alloc (.jumpExp thenBlockName none)
    let s := s.write exp (.ifExp cond (some thenJump) none)
    let (elseJump, s) := s.make alloc (.jumpExp elseBlockName none)
    let s := s.write exp (.ifExp cond (some thenJump) (some elseJump))
    return { visitor with
      counter := visitor.counter + 2
      currentJoins := visitor.currentJoins ++ blocks
      nodes := s }
  | _ => none

/-- One task. -/
def runTask (alloc : Allocator Node) (visitor : HoistVisitor) : HoistTask → Option HoistVisitor
  | .node parentLink exp => { visitor with parentLink := some parentLink }.visit exp
  | .relink savedParentLink exp => visitor.relink savedParentLink exp
  | .collectFunction exp savedJoins => visitor.collectFunction exp savedJoins
  | .collectJoin exp => visitor.collectJoin exp
  | .collectBranches exp => visitor.collectBranches alloc exp

/-- One turn of the loop. -/
def step (alloc : Allocator Node) (visitor : HoistVisitor) :
    HoistVisitor ⊕ Option (List Function × Nodes) :=
  match visitor.worklist with
  | [] => .inr (some (visitor.collected, visitor.nodes))
  | task :: worklist =>
    match { visitor with worklist }.runTask alloc task with
    | some visitor => .inl visitor
    | none => .inr none

/-- The visitor when the loop starts: the root owns `main`, whose body is what it owned. -/
def start (alloc : Allocator Node) (s : Nodes) : Option HoistVisitor :=
  let body := s.root
  let (rest, s) := { s with root := none }.make alloc (.haltExp (.intValue 0))
  let (main, s) := s.make alloc (.funExp "main" [] body (some rest))
  addWorklist .root ⟨0, [], [], none, [], { s with root := some main }⟩

end HoistVisitor

/-- `anf::hoist`, where the root owns the term. -/
def hoist (alloc : Allocator Node) (fuel : Nat) (s : Nodes) :
    Option (Option (List Function × Nodes)) :=
  match HoistVisitor.start alloc s with
  | some visitor => Lib.iterate (HoistVisitor.step alloc) fuel visitor
  | none => some none

end Lambcalc.InPlace
