import Lambcalc.Ast.Semantics
import Lambcalc.Hoist.Hoist
import Lambcalc.Lib.Ir

/-!
# Lowering to LLVM

`LLVMLowerVisitor` and `lowerModule` of `src/lower.cpp`, with the instructions they append. Each
visit returns the instructions appended at the insert point, and the visitor it leaves. An
instruction is numbered when it is made, and blocks are known by their index in the function.

What ends lowering is a failed assertion or undefined behaviour, such as a null pointer that is
handed to the builder. The pipeline's own visit of a node looks the operands up a second time, and
nothing uses what it finds.

Constants are not folded here: a `Create` call appends an instruction, but for `CreatePtrToInt` of a
function, which is a constant, and `CreateIntToPtr` of a pointer, which is the pointer. LLVM's
`IRBuilder` also returns a constant for an operation or comparison of constants.
-/

namespace Lambcalc.Emit

open Anf Hoist Lib.Ir

/-- What ends lowering early. -/
inductive Fault where
  | assertion
  | undefined
  deriving DecidableEq, Repr

/-- `getFunctionType`. -/
def getFunctionType {α : Type} (params : List α) : FunctionType :=
  ⟨.i64, params.mapIdx fun i _ => if i = 0 then .ptr else .i64⟩

/-- The fields of `LLVMLowerVisitor`, with the number of the next instruction. -/
structure LLVMLowerVisitor where
  module_ : Module
  next : Nat
  spillSlots : Var → Option Operand
  namedValues : Var → Option Operand
  namedBlocks : Var → Option Nat

namespace LLVMLowerVisitor

variable (visitor : LLVMLowerVisitor)

/-- The next instruction is made, and its result entered into `namedValues_` under `name`. -/
def enter (name : Var) (type : Ty) : LLVMLowerVisitor :=
  { visitor with
    next := visitor.next + 1
    namedValues := Function.update visitor.namedValues name (some (.inst type visitor.next)) }

/-- Some more instructions are made. -/
def skip (count : Nat) : LLVMLowerVisitor := { visitor with next := visitor.next + count }

def withGlobals (globals : List String) : LLVMLowerVisitor :=
  { visitor with module_ := { visitor.module_ with globals := globals } }

/-- The visit of a value: what it leaves in `value_`, which may be null. -/
def visitValue : Value → Option Operand × LLVMLowerVisitor
  | .intValue value => (some (.const (Word.ofLiteral value)), visitor)
  | .varValue var => (visitor.namedValues var, visitor)
  | .globValue glob =>
    if (visitor.module_.declared.lookup glob).isSome ∨ glob ∈ visitor.module_.globals then
      (some (.address glob), visitor)
    else
      -- `getOrInsertGlobal`
      (some (.symbol glob), visitor.withGlobals (visitor.module_.globals ++ [glob]))

/-- A value that the builder is given. -/
def operand (value : Value) : Except Fault (Operand × LLVMLowerVisitor) :=
  match visitor.visitValue value with
  | (some op, visitor) => .ok (op, visitor)
  | (none, _) => .error .undefined

def operands (visitor : LLVMLowerVisitor) :
    List Value → Except Fault (List Operand × LLVMLowerVisitor)
  | [] => .ok ([], visitor)
  | value :: values => do
    let (op, visitor) ← visitor.operand value
    let (ops, visitor) ← operands visitor values
    return (op :: ops, visitor)

/-- `CreateIntToPtr`. A cast to the type that the operand has is no instruction. -/
def createIntToPtr (op : Operand) : Operand × List Instruction × LLVMLowerVisitor :=
  if op.type = .ptr then (op, [], visitor)
  else (.inst .ptr visitor.next, [⟨visitor.next, .intToPtr op⟩], visitor.skip 1)

/-- The map has an entry. -/
def find {α : Type} (map : Var → Option α) (name : Var) : Except Fault α :=
  match map name with
  | some a => .ok a
  | none => .error .undefined

def haltExp (value : Value) : Except Fault (List Instruction × LLVMLowerVisitor) := do
  let (op, visitor) ← visitor.operand value
  return ([⟨visitor.next, .ret op⟩], visitor.skip 1)

def jumpExp (joinName : Var) (slotValue : Option Value) :
    Except Fault (List Instruction × LLVMLowerVisitor) := do
  let block ← find visitor.namedBlocks joinName
  match slotValue with
  | none => return ([⟨visitor.next, .br block⟩], visitor.skip 1)
  | some value =>
    let slot ← find visitor.spillSlots joinName
    let (op, visitor) ← visitor.operand value
    return ([⟨visitor.next, .store op slot⟩, ⟨visitor.next + 1, .br block⟩], visitor.skip 2)

def appExp (name funName : Var) (paramValues : List Value) :
    Except Fault (List Instruction × LLVMLowerVisitor) := do
  let (params, visitor) ← visitor.operands paramValues
  match visitor.namedValues funName with
  | some fnPtrInt =>
    let fty := getFunctionType paramValues
    let (fn, cast, visitor) := visitor.createIntToPtr fnPtrInt
    return (cast ++ [⟨visitor.next, .call fty fn params⟩], visitor.enter name fty.ret)
  | none =>
    let fty ← find (visitor.module_.declared.lookup ·) funName
    return ([⟨visitor.next, .call fty (.symbol funName) params⟩], visitor.enter name fty.ret)

def binaryOp : Ast.Bop → BinaryOp
  | .plus => .add
  | .minus => .sub
  | .times => .mul

def bopExp (name : Var) (bop : Ast.Bop) (param1 param2 : Value) :
    Except Fault (List Instruction × LLVMLowerVisitor) := do
  let (op1, visitor) ← visitor.operand param1
  let (op2, visitor) ← visitor.operand param2
  return ([⟨visitor.next, .binary (binaryOp bop) op1 op2⟩], visitor.enter name op1.type)

def mallocTy : FunctionType := ⟨.ptr, [.i64]⟩

/-- `getOrInsertFunction` of `malloc`. -/
def getMalloc : LLVMLowerVisitor :=
  if (visitor.module_.declared.lookup "malloc").isSome ∨ "malloc" ∈ visitor.module_.globals then
    visitor
  else
    { visitor with module_ := { visitor.module_ with
        declared := visitor.module_.declared ++ [("malloc", mallocTy)] } }

/-- The loop that fills the record at `ptr`, from cell number `i` on. -/
def storeCells (ptr : Operand) (visitor : LLVMLowerVisitor) :
    Nat → List Value → Except Fault (List Instruction × LLVMLowerVisitor)
  | _, [] => .ok ([], visitor)
  | i, value :: values => do
    let (op, visitor) ← visitor.operand value
    let gep := visitor.next
    let (code, visitor) ← storeCells ptr (visitor.skip 2) (i + 1) values
    return (⟨gep, .gep ptr i⟩ :: ⟨gep + 1, .store op (.inst .ptr gep)⟩ :: code, visitor)

def tupleExp (name : Var) (values : List Value) :
    Except Fault (List Instruction × LLVMLowerVisitor) := do
  let visitor := visitor.getMalloc
  let ptr := visitor.next
  let size := BitVec.ofNat 64 (values.length * 8)
  let (code, visitor) ← storeCells (.inst .ptr ptr) ((visitor.skip 1).enter name .i64) 0 values
  return (⟨ptr, .call mallocTy (.symbol "malloc") [.const size]⟩ ::
    ⟨ptr + 1, .ptrToInt (.inst .ptr ptr)⟩ :: code, visitor)

def projExp (name tuple : Var) (index : Nat) :
    Except Fault (List Instruction × LLVMLowerVisitor) := do
  let tupleInt ← find visitor.namedValues tuple
  let (tuplePtr, cast, visitor) := visitor.createIntToPtr tupleInt
  let gep := visitor.next
  return (cast ++ [⟨gep, .gep tuplePtr index⟩, ⟨gep + 1, .load (.inst .ptr gep)⟩],
    (visitor.skip 1).enter name .i64)

/-- The store in `visitIfJump` for one of the two jumps. -/
def storeSlot (value : Operand) (joinName : Var) (slotValue : Option Value) :
    Except Fault (List Instruction × LLVMLowerVisitor) := do
  if slotValue.isSome then
    let slot ← find visitor.spillSlots joinName
    return ([⟨visitor.next, .store value slot⟩], visitor.skip 1)
  else
    return ([], visitor)

/-- `visitIfJump`. What is stored is what `value_` still holds, the condition. -/
def visitIfJump (condition : Value) (thenJoin : Var) (thenSlot : Option Value) (elseJoin : Var)
    (elseSlot : Option Value) : Except Fault (List Instruction × LLVMLowerVisitor) := do
  let (value, visitor) ← visitor.operand condition
  let cond := visitor.next
  let (thenStore, visitor) ← (visitor.skip 1).storeSlot value thenJoin thenSlot
  let (elseStore, visitor) ← visitor.storeSlot value elseJoin elseSlot
  let thenBlock ← find visitor.namedBlocks thenJoin
  let elseBlock ← find visitor.namedBlocks elseJoin
  return (⟨cond, .icmpNe value (.const 0)⟩ :: (thenStore ++ elseStore ++
    [⟨visitor.next, .condBr (.inst .i1 cond) thenBlock elseBlock⟩]), visitor.skip 1)

end LLVMLowerVisitor

open LLVMLowerVisitor

/-- The visits of a term and its rests. -/
def lowerExp : Exp → LLVMLowerVisitor → Except Fault (List Instruction × LLVMLowerVisitor)
  | .haltExp value, visitor => visitor.haltExp value
  | .funExp _ _ _ _, _ => .error .assertion
  | .joinExp _ _ _ _, _ => .error .assertion
  | .jumpExp joinName slotValue, visitor => visitor.jumpExp joinName slotValue
  | .appExp name funName paramValues rest, visitor => do
    let (code, visitor) ← visitor.appExp name funName paramValues
    let (codeRest, visitor) ← lowerExp rest visitor
    return (code ++ codeRest, visitor)
  | .bopExp name bop param1 param2 rest, visitor => do
    let (code, visitor) ← visitor.bopExp name bop param1 param2
    let (codeRest, visitor) ← lowerExp rest visitor
    return (code ++ codeRest, visitor)
  | .ifExp cond (.jumpExp thenJoin thenSlot) (.jumpExp elseJoin elseSlot), visitor =>
    visitor.visitIfJump cond thenJoin thenSlot elseJoin elseSlot
  | .ifExp cond thenBranch elseBranch, visitor => do
    let (_, visitor) := visitor.visitValue cond
    let (elseCode, visitor) ← lowerExp elseBranch visitor
    let (thenCode, visitor) ← lowerExp thenBranch visitor
    return (elseCode ++ thenCode, visitor)
  | .tupleExp name values rest, visitor => do
    let (code, visitor) ← visitor.tupleExp name values
    let (codeRest, visitor) ← lowerExp rest visitor
    return (code ++ codeRest, visitor)
  | .projExp name tuple index rest, visitor => do
    let (code, visitor) ← visitor.projExp name tuple index
    let (codeRest, visitor) ← lowerExp rest visitor
    return (code ++ codeRest, visitor)

/-! ## Functions and modules -/

/-- The blocks of a function are created, with one spill slot in the entry block for each block
that has a slot; `index` is that of the first one. -/
def createBlocks : List Join → Nat → LLVMLowerVisitor → List Instruction × LLVMLowerVisitor
  | [], _, visitor => ([], visitor)
  | block :: blocks, index, visitor =>
    let visitor := { visitor with
      namedBlocks := Function.update visitor.namedBlocks block.name (some index) }
    match block.slot with
    | none => createBlocks blocks (index + 1) visitor
    | some _ =>
      let alloca : Instruction := ⟨visitor.next, .alloca⟩
      let visitor := { visitor.skip 1 with
        spillSlots := Function.update visitor.spillSlots block.name (some (.inst .ptr alloca.id)) }
      let (code, visitor) := createBlocks blocks (index + 1) visitor
      (alloca :: code, visitor)

/-- The arguments, from number `index` on, are entered under the names of the parameters. A
function has fewer parameters than arguments only if it shares its name with another one. -/
def nameArgs : List Ty → List Var → Nat → (Var → Option Operand) →
    Except Fault (Var → Option Operand)
  | [], _, _, named => .ok named
  | _ :: _, [], _, _ => .error .undefined
  | type :: types, param :: params, index, named =>
    nameArgs types params (index + 1) (Function.update named param (some (.arg type index)))

/-- The load of the slot of a block. -/
def loadSlot (visitor : LLVMLowerVisitor) (block : Join) :
    Except Fault (List Instruction × LLVMLowerVisitor) :=
  match block.slot with
  | none => return ([], visitor)
  | some name => do
    let slot ← find visitor.spillSlots block.name
    return ([⟨visitor.next, .load slot⟩], visitor.enter name .i64)

/-- `lowerBlock`, with the insert point at the end of the block of this name. -/
def lowerBlock (lowered : Body × LLVMLowerVisitor) (block : Join) :
    Except Fault (Body × LLVMLowerVisitor) := do
  let (body, visitor) := lowered
  let index ← find visitor.namedBlocks block.name
  let (load, visitor) ← loadSlot visitor block
  let (code, visitor) ← lowerExp block.body visitor
  return (body.modify index (· ++ (load ++ code)), visitor)

/-- What comes before the blocks of a function are lowered: they are created, and the arguments
are named. The allocations are made in the entry block. -/
def prepare (module_ : Module) (fn : Function) :
    Except Fault (List Instruction × LLVMLowerVisitor) := do
  let type ← find (module_.declared.lookup ·) fn.name
  let (allocas, visitor) := createBlocks fn.blocks 1 ⟨module_, 0, fun _ => none, fun _ => none,
    Function.update (fun _ => none) fn.entryBlock.name (some 0)⟩
  let namedValues ← nameArgs type.params fn.params 0 visitor.namedValues
  return (allocas, { visitor with namedValues := namedValues })

/-- One turn of the second loop of `lowerModule`. -/
def lowerFunction (module_ : Module) (fn : Function) : Except Fault Module := do
  let (allocas, visitor) ← prepare module_ fn
  let (code, visitor) ← lowerExp fn.entryBlock.body visitor
  let created : Body := (allocas ++ code) :: fn.blocks.map fun _ => []
  let (body, visitor) ← fn.blocks.foldlM lowerBlock (created, visitor)
  return { visitor.module_ with bodies := visitor.module_.bodies ++ [(fn.name, body)] }

/-- `Function::Create`. A second function of one name is renamed, and never found. -/
def declareFunction (module_ : Module) (fn : Function) : Module :=
  if (module_.declared.lookup fn.name).isSome then module_
  else { module_ with declared := module_.declared ++ [(fn.name, getFunctionType fn.params)] }

/-- `lowerModule`, on a module that is empty. -/
def lowerModule (fns : List Function) : Except Fault Module :=
  fns.foldlM lowerFunction (fns.foldl declareFunction ⟨[], [], []⟩)

end Lambcalc.Emit
