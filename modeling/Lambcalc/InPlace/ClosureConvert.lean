import Lambcalc.Convert.ClosureConvert
import Lambcalc.InPlace.Node

/-!
# Closure conversion in place

`ClosureConvertVisitor` and `convert::closureConvert` of `src/convert.cpp` with the
`WorklistVisitor` of `include/visitor.h`: the nodes of the term lie in memory, the worklist is a
stack, and the tasks on it hold addresses of links and nodes. A null or dangling pointer that is
followed ends the loop without a result.
-/

namespace Lambcalc.InPlace

open Anf
open Lib (Addr Ptr Link Layout Store Allocator Path)

/-! ## The worklist -/

/-- A `NodeTask`, or the `FnTask` that rewrites an application. -/
inductive ConvertTask where
  | node (parentLink : Link Field) (exp : Addr)
  | app (exp : Addr) (projName : Var) (paramValues : List Value) (parentLink : Link Field)

/-- The fields of `ClosureConvertVisitor`, its worklist, top first, and the memory. -/
structure ClosureConvertVisitor where
  counter : Nat
  parentLink : Option (Link Field)
  worklist : List ConvertTask
  nodes : Nodes

/-- The loop that puts a `ProjExp` for every captured variable in front of a body. -/
def addCaptures (alloc : Allocator Node) (closureParam : Var) :
    List Var → Nat → Ptr → Nodes → Ptr × Nodes
  | [], _, body, s => (body, s)
  | var :: vars, i, body, s =>
    let (proj, s) := s.make alloc (.projExp var closureParam i body)
    addCaptures alloc closureParam vars (i + 1) (some proj) s

/-- What the visit of a function does to its node: the parameter, the projections in front of the
body and the tuple in front of the rest. -/
def rewriteFun (alloc : Allocator Node) (exp : Addr) (closureParam : Var)
    (freeVariables : List Var) (s : Nodes) : Option Nodes := do
  match ← s.cell exp with
  | .funExp name params body rest =>
    let params := closureParam :: params
    let s := s.write exp (.funExp name params none rest)
    let (body, s) := addCaptures alloc closureParam freeVariables 1 body s
    let vars := .globValue name :: freeVariables.map .varValue
    let s := s.write exp (.funExp name params body none)
    let (tuple, s) := s.make alloc (.tupleExp name vars rest)
    return s.write exp (.funExp name params body (some tuple))
  | _ => none

/-- The `FnTask` of an application. A name that has been moved from is empty. -/
def rewriteApp (alloc : Allocator Node) (exp : Addr) (projName : Var) (paramValues : List Value)
    (parentLink : Link Field) (s : Nodes) : Option Nodes := do
  match ← s.cell exp with
  | .appExp name funName moved rest =>
    let s := s.write exp (.appExp "" funName moved none)
    let (app, s) := s.make alloc (.appExp name projName paramValues rest)
    let (proj, s) := s.make alloc (.projExp projName funName 0 (some app))
    s.assign (some proj) parentLink
  | _ => none

namespace ClosureConvertVisitor

/-- `addWorklist`: the task for the node the link owns. -/
def addWorklist (link : Link Field) (visitor : ClosureConvertVisitor) :
    Option ClosureConvertVisitor := do
  let exp ← ← visitor.nodes.load link
  return { visitor with worklist := .node link exp :: visitor.worklist }

/-- `operator()(FunExp &)`. -/
def visitFunExp (alloc : Allocator Node) (exp : Addr) (visitor : ClosureConvertVisitor) :
    Option ClosureConvertVisitor := do
  let root ← ← visitor.nodes.load (← visitor.parentLink)
  let freeVariables :=
    (freeVars (← read visitor.nodes visitor.nodes.heap.keys.card root)).toList
  let closureParam := closureName visitor.counter
  let s ← rewriteFun alloc exp closureParam freeVariables visitor.nodes
  let visitor := { visitor with counter := visitor.counter + 1, nodes := s }
  let visitor ← visitor.addWorklist (.field exp .body)
  visitor.addWorklist (.field exp .rest)

/-- `operator()(AppExp &)`. -/
def visitAppExp (exp : Addr) (visitor : ClosureConvertVisitor) :
    Option ClosureConvertVisitor := do
  let parentLink ← visitor.parentLink
  match ← visitor.nodes.cell exp with
  | .appExp name funName paramValues rest =>
    let s := visitor.nodes.write exp (.appExp name funName [] rest)
    let task : ConvertTask :=
      .app exp (projName visitor.counter) (.varValue funName :: paramValues) parentLink
    let visitor := { visitor with
      counter := visitor.counter + 1, nodes := s, worklist := task :: visitor.worklist }
    visitor.addWorklist (.field exp .rest)
  | _ => none

/-- `std::visit`. -/
def visit (alloc : Allocator Node) (exp : Addr) (visitor : ClosureConvertVisitor) :
    Option ClosureConvertVisitor := do
  match ← visitor.nodes.cell exp with
  | .haltExp _ => return visitor
  | .funExp _ _ _ _ => visitor.visitFunExp alloc exp
  | .joinExp _ _ _ _ =>
    let visitor ← visitor.addWorklist (.field exp .body)
    visitor.addWorklist (.field exp .rest)
  | .jumpExp _ _ => return visitor
  | .appExp _ _ _ _ => visitor.visitAppExp exp
  | .bopExp _ _ _ _ _ => visitor.addWorklist (.field exp .rest)
  | .ifExp _ _ _ =>
    let visitor ← visitor.addWorklist (.field exp .thenBranch)
    visitor.addWorklist (.field exp .elseBranch)
  | .tupleExp _ _ _ => visitor.addWorklist (.field exp .rest)
  | .projExp _ _ _ _ => visitor.addWorklist (.field exp .rest)

/-- One task. -/
def runTask (alloc : Allocator Node) (visitor : ClosureConvertVisitor) :
    ConvertTask → Option ClosureConvertVisitor
  | .node parentLink exp => { visitor with parentLink := some parentLink }.visit alloc exp
  | .app exp projName paramValues parentLink => do
    let s ← rewriteApp alloc exp projName paramValues parentLink visitor.nodes
    return { visitor with nodes := s }

/-- One turn of the loop. -/
def step (alloc : Allocator Node) (visitor : ClosureConvertVisitor) :
    ClosureConvertVisitor ⊕ Option Nodes :=
  match visitor.worklist with
  | [] => .inr (some visitor.nodes)
  | task :: worklist =>
    match { visitor with worklist }.runTask alloc task with
    | some visitor => .inl visitor
    | none => .inr none

/-- The visitor when the loop starts. -/
def start (s : Nodes) : Option ClosureConvertVisitor := addWorklist .root ⟨0, none, [], s⟩

end ClosureConvertVisitor

/-- `convert::closureConvert`, where the root owns the term. -/
def closureConvert (alloc : Allocator Node) (fuel : Nat) (s : Nodes) : Option (Option Nodes) :=
  match ClosureConvertVisitor.start s with
  | some visitor => Lib.iterate (ClosureConvertVisitor.step alloc) fuel visitor
  | none => some none

end Lambcalc.InPlace
