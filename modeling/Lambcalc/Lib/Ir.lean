import Lambcalc.Lib.StepMachine
import Mathlib.Algebra.Ring.Nat
import Mathlib.Data.Option.Basic
import Mathlib.Logic.Function.Basic

/-!
# An intermediate representation of words, cells and blocks

Modules of functions, whose bodies are lists of blocks of instructions; each instruction names its
result by a number. Operands have types, and `Op.wellTyped` is what a verifier checks of one
instruction. The types are nothing to a run: pointers and integers are words of 64 bits, and memory
consists of cells that hold one word each. Where new cells lie is up to the `Machine`; a run in
which there is no place for them is out of memory.
-/

namespace Lambcalc.Lib.Ir

/-! ## Syntax and types -/

inductive Ty where
  | ptr
  | i64
  | i1
  deriving DecidableEq, Repr

structure FunctionType where
  ret : Ty
  params : List Ty
  deriving DecidableEq, Repr

inductive Operand where
  | const (value : BitVec 64)
  | arg (type : Ty) (index : Nat)
  /-- The result of the instruction with this number. -/
  | inst (type : Ty) (id : Nat)
  /-- A function or global variable of the module. -/
  | symbol (name : String)
  /-- The address of a symbol as an integer. -/
  | address (name : String)
  deriving DecidableEq, Repr

def Operand.type : Operand → Ty
  | .const _ => .i64
  | .arg type _ => type
  | .inst type _ => type
  | .symbol _ => .ptr
  | .address _ => .i64

inductive BinaryOp where
  | add
  | sub
  | mul
  deriving DecidableEq, Repr

def BinaryOp.eval : BinaryOp → BitVec 64 → BitVec 64 → BitVec 64
  | .add, m, n => m + n
  | .sub, m, n => m - n
  | .mul, m, n => m * n

/-- Instructions. Cells and the elements of records are `i64`. -/
inductive Op where
  | alloca
  | load (address : Operand)
  | store (value address : Operand)
  | binary (op : BinaryOp) (left right : Operand)
  | icmpNe (left right : Operand)
  | ptrToInt (value : Operand)
  | intToPtr (value : Operand)
  | gep (base : Operand) (index : Nat)
  | call (type : FunctionType) (callee : Operand) (args : List Operand)
  | ret (value : Operand)
  | br (target : Nat)
  | condBr (cond : Operand) (thenTarget elseTarget : Nat)
  deriving DecidableEq, Repr

structure Instruction where
  id : Nat
  op : Op
  deriving DecidableEq, Repr

/-- A function body. The first block is the entry block, and a branch gives the index of a block. -/
abbrev Body := List (List Instruction)

/-- A module: the functions and global variables it declares, and the bodies of those functions it
defines. -/
structure Module where
  declared : List (String × FunctionType)
  globals : List String
  bodies : List (String × Body)
  deriving DecidableEq, Repr

/-- The typing rule of an instruction, in functions that return `i64`. -/
def Op.wellTyped : Op → Bool
  | .alloca => true
  | .load address => address.type = .ptr
  | .store _ address => address.type = .ptr
  | .binary _ left right => left.type = .i64 && right.type = .i64
  | .icmpNe left right => left.type = .i64 && right.type = .i64
  | .ptrToInt value => value.type = .ptr
  | .intToPtr value => value.type = .i64
  | .gep base _ => base.type = .ptr
  | .call type callee args => callee.type = .ptr && args.map Operand.type = type.params
  | .ret value => value.type = .i64
  | .br _ => true
  | .condBr cond _ _ => cond.type = .i1

/-- Every instruction of the module is well typed. -/
def Module.WellTyped (M : Module) : Prop :=
  ∀ f ∈ M.bodies, ∀ code ∈ f.2, ∀ i ∈ code, i.op.wellTyped = true

instance (M : Module) : Decidable M.WellTyped :=
  inferInstanceAs (Decidable (∀ f ∈ M.bodies, ∀ code ∈ f.2, ∀ i ∈ code, i.op.wellTyped = true))

/-! ## Memory -/

/-- What is at an address. -/
inductive Cell where
  | free
  /-- A cell that nothing has been stored to. -/
  | fresh
  | holds (value : BitVec 64)
  deriving DecidableEq

/-- The cells by address. The requests for cells are counted, so that the place of a new cell can
depend on everything that has happened. -/
structure Memory where
  cells : BitVec 64 → Cell
  requests : Nat

/-- The address of cell number `index` of a record. -/
def cellAt (base : BitVec 64) (index : Nat) : BitVec 64 := base + 8 * BitVec.ofNat 64 index

namespace Memory

def load (memory : Memory) (a : BitVec 64) : Option (BitVec 64) :=
  match memory.cells a with
  | .holds value => some value
  | _ => none

def store (memory : Memory) (a value : BitVec 64) : Option Memory :=
  match memory.cells a with
  | .free => none
  | _ => some { memory with cells := Function.update memory.cells a (.holds value) }

/-- The cells of a record of `count` cells. -/
def record (base : BitVec 64) (count : Nat) : List (BitVec 64) :=
  (List.range count).map (cellAt base)

def allocate (memory : Memory) (new : List (BitVec 64)) : Memory :=
  ⟨fun a => if a ∈ new then .fresh else memory.cells a, memory.requests + 1⟩

def release (memory : Memory) (old : List (BitVec 64)) : Memory :=
  { memory with cells := fun a => if a ∈ old then .free else memory.cells a }

/-- What a store to a cell that is in use leaves. -/
def write (memory : Memory) (a value : BitVec 64) : Memory :=
  { memory with cells := Function.update memory.cells a (.holds value) }

@[simp] theorem write_self (memory : Memory) (a value : BitVec 64) :
    (memory.write a value).cells a = .holds value := Function.update_self _ _ _

theorem write_of_ne {a c : BitVec 64} (ne : c ≠ a) (memory : Memory) (value : BitVec 64) :
    (memory.write a value).cells c = memory.cells c := Function.update_of_ne ne _ _

theorem store_of_live {memory : Memory} {a : BitVec 64} (live : memory.cells a ≠ .free)
    (value : BitVec 64) : memory.store a value = some (memory.write a value) := by
  unfold store
  cases cell : memory.cells a with
  | free => exact (live cell).elim
  | fresh => rfl
  | holds value => rfl

theorem allocate_new {new : List (BitVec 64)} {a : BitVec 64} (member : a ∈ new)
    (memory : Memory) : (memory.allocate new).cells a = .fresh := if_pos member

theorem allocate_other {new : List (BitVec 64)} {a : BitVec 64} (notMem : a ∉ new)
    (memory : Memory) : (memory.allocate new).cells a = memory.cells a := if_neg notMem

theorem release_other {old : List (BitVec 64)} {a : BitVec 64} (notMem : a ∉ old)
    (memory : Memory) : (memory.release old).cells a = memory.cells a := if_neg notMem

theorem mem_record {base c : BitVec 64} {count : Nat} :
    c ∈ record base count ↔ ∃ i < count, cellAt base i = c := by
  simp [record]

end Memory

/-- The cells of a record that lies below the end of memory are different. -/
theorem cellAt_injective {base : BitVec 64} {count i j : Nat}
    (bounded : base.toNat + 8 * count ≤ 2 ^ 64) (hi : i < count) (hj : j < count)
    (eq : cellAt base i = cellAt base j) : i = j := by
  have toNat : ∀ k, k < count → (cellAt base k).toNat = base.toNat + 8 * k := by
    intro k lt
    have eight : BitVec.toNat (8 : BitVec 64) = 8 := rfl
    rw [cellAt, BitVec.toNat_add, BitVec.toNat_mul, BitVec.toNat_ofNat, eight]
    omega
  have same := congrArg BitVec.toNat eq
  rw [toNat i hi, toNat j hj] at same
  omega

/-- What places new records. -/
structure Allocator where
  place : Memory → Nat → Option (BitVec 64)
  aligned : ∀ {memory count base}, place memory count = some base → 8 ∣ base.toNat
  bounded : ∀ {memory count base}, place memory count = some base →
    base.toNat + 8 * count ≤ 2 ^ 64
  unused : ∀ {memory count base}, place memory count = some base →
    ∀ a ∈ Memory.record base count, memory.cells a = .free

/-- A record of `count` cells can be placed at `base`. -/
def Fits (memory : Memory) (count : Nat) (base : BitVec 64) : Prop :=
  8 ∣ base.toNat ∧ base.toNat + 8 * count ≤ 2 ^ 64 ∧
    ∀ a ∈ Memory.record base count, memory.cells a = .free

instance (memory : Memory) (count : Nat) (base : BitVec 64) : Decidable (Fits memory count base) :=
  inferInstanceAs (Decidable (_ ∧ _ ∧ _))

/-- Records are placed at `next`, if they fit there. -/
def Allocator.placing (next : Memory → BitVec 64) : Allocator where
  place memory count := if Fits memory count (next memory) then some (next memory) else none
  aligned := by
    intro memory count base placed
    obtain ⟨fits, eq⟩ := Option.ite_none_right_eq_some.mp placed
    cases eq
    exact fits.1
  bounded := by
    intro memory count base placed
    obtain ⟨fits, eq⟩ := Option.ite_none_right_eq_some.mp placed
    cases eq
    exact fits.2.1
  unused := by
    intro memory count base placed
    obtain ⟨fits, eq⟩ := Option.ite_none_right_eq_some.mp placed
    cases eq
    exact fits.2.2

/-- What runs a module: an allocator, and an address for each symbol. -/
structure Machine (M : Module) extends Allocator where
  addressOf : String → BitVec 64
  apart : ∀ f ∈ M.declared, ∀ g ∈ M.declared, addressOf f.1 = addressOf g.1 → f.1 = g.1

/-! ## Runs -/

/-- A call: the body of the function, its arguments, the results of the instructions that have been
executed, and the cells that belong to the call. -/
structure Frame where
  body : Body
  args : List (BitVec 64)
  results : Nat → Option (BitVec 64)
  own : List (BitVec 64)

def Frame.set (frame : Frame) (id : Nat) (value : BitVec 64) : Frame :=
  { frame with results := Function.update frame.results id (some value) }

/-- A caller: its frame, the number of its call instruction, and what comes after it. -/
structure Caller where
  frame : Frame
  id : Nat
  code : List Instruction

structure State where
  frame : Frame
  code : List Instruction
  callers : List Caller
  memory : Memory

/-- How a run ends. -/
inductive Result where
  | returned (value : BitVec 64)
  | outOfMemory
  | stuck
  deriving DecidableEq, Repr

namespace Machine

variable {M : Module} (m : Machine M)

def eval (frame : Frame) : Operand → Option (BitVec 64)
  | .const value => some value
  | .arg _ index => frame.args[index]?
  | .inst _ id => frame.results id
  | .symbol name => some (m.addressOf name)
  | .address name => some (m.addressOf name)

/-- One instruction, with `s` as the state after it, but for its result. -/
def execute (s : State) (id : Nat) : Op → Option (State ⊕ Result)
  | .alloca =>
    match m.place s.memory 1 with
    | none => some (.inr .outOfMemory)
    | some base => some (.inl { s with
        frame := { s.frame.set id base with own := base :: s.frame.own }
        memory := s.memory.allocate (Memory.record base 1) })
  | .load address => do
    let value ← s.memory.load (← m.eval s.frame address)
    return .inl { s with frame := s.frame.set id value }
  | .store value address => do
    let memory ← s.memory.store (← m.eval s.frame address) (← m.eval s.frame value)
    return .inl { s with memory := memory }
  | .binary op left right => do
    let value := op.eval (← m.eval s.frame left) (← m.eval s.frame right)
    return .inl { s with frame := s.frame.set id value }
  | .icmpNe left right => do
    let value := if (← m.eval s.frame left) = (← m.eval s.frame right) then 0 else 1
    return .inl { s with frame := s.frame.set id value }
  | .ptrToInt value => do
    return .inl { s with frame := s.frame.set id (← m.eval s.frame value) }
  | .intToPtr value => do
    return .inl { s with frame := s.frame.set id (← m.eval s.frame value) }
  | .gep base index => do
    return .inl { s with frame := s.frame.set id (cellAt (← m.eval s.frame base) index) }
  | .call _ callee args => do
    let target ← m.eval s.frame callee
    let args ← args.mapM (m.eval s.frame)
    let (name, type) ← M.declared.find? (m.addressOf ·.1 = target)
    guard (args.length = type.params.length)
    match M.bodies.lookup name, args with
    | some body, args =>
      return .inl ⟨⟨body, args, fun _ => none, []⟩, ← body.head?,
        ⟨s.frame, id, s.code⟩ :: s.callers,
        s.memory⟩
    | none, [bytes] =>
      guard (name = "malloc")
      let count := (bytes.toNat + 7) / 8
      match m.place s.memory count with
      | none => return .inr .outOfMemory
      | some base => return .inl { s with
          frame := s.frame.set id base
          memory := s.memory.allocate (Memory.record base count) }
    | none, _ => none
  | .ret value => do
    let value ← m.eval s.frame value
    match s.callers with
    | [] => return .inr (.returned value)
    | caller :: callers =>
      return .inl ⟨caller.frame.set caller.id value, caller.code, callers,
        s.memory.release s.frame.own⟩
  | .br target => do
    return .inl { s with code := ← s.frame.body[target]? }
  | .condBr cond thenTarget elseTarget => do
    let target := if (← m.eval s.frame cond) = 0 then elseTarget else thenTarget
    return .inl { s with code := ← s.frame.body[target]? }

def step (s : State) : State ⊕ Result :=
  match s.code with
  | [] => .inr .stuck
  | ⟨id, op⟩ :: code => (m.execute { s with code := code } id op).getD (.inr .stuck)

/-- `main` returns `value`, or the run is out of memory. -/
def MainReturns (value : BitVec 64) : Prop :=
  ∃ body code, M.bodies.lookup "main" = some body ∧ body.head? = some code ∧ ∃ fuel,
    let start : State := ⟨⟨body, [], fun _ => none, []⟩, code, [], ⟨fun _ => .free, 0⟩⟩
    iterate m.step fuel start = some (.returned value) ∨
      iterate m.step fuel start = some .outOfMemory

/-! ## Single steps -/

section Steps

variable {frame : Frame} {code : List Instruction} {callers : List Caller} {memory : Memory}
  {id : Nat}

theorem step_alloca_none (none_ : m.place memory 1 = none) :
    m.step ⟨frame, ⟨id, .alloca⟩ :: code, callers, memory⟩ = .inr .outOfMemory := by
  simp only [step, execute, none_, Option.getD_some]

theorem step_alloca_some {base : BitVec 64} (placed : m.place memory 1 = some base) :
    m.step ⟨frame, ⟨id, .alloca⟩ :: code, callers, memory⟩ =
      .inl ⟨{ frame.set id base with own := base :: frame.own }, code, callers,
        memory.allocate (Memory.record base 1)⟩ := by
  simp only [step, execute, placed, Option.getD_some]

theorem step_load {address : Operand} {a value : BitVec 64}
    (found : m.eval frame address = some a) (holds : memory.cells a = .holds value) :
    m.step ⟨frame, ⟨id, .load address⟩ :: code, callers, memory⟩ =
      .inl ⟨frame.set id value, code, callers, memory⟩ := by
  simp [step, execute, found, Memory.load, holds]

theorem step_store {value address : Operand} {a w : BitVec 64}
    (found : m.eval frame address = some a) (read : m.eval frame value = some w)
    (live : memory.cells a ≠ .free) :
    m.step ⟨frame, ⟨id, .store value address⟩ :: code, callers, memory⟩ =
      .inl ⟨frame, code, callers, memory.write a w⟩ := by
  simp [step, execute, found, read, Memory.store_of_live live]

theorem step_binary {op : BinaryOp} {left right : Operand} {w₁ w₂ : BitVec 64}
    (read₁ : m.eval frame left = some w₁) (read₂ : m.eval frame right = some w₂) :
    m.step ⟨frame, ⟨id, .binary op left right⟩ :: code, callers, memory⟩ =
      .inl ⟨frame.set id (op.eval w₁ w₂), code, callers, memory⟩ := by
  simp [step, execute, read₁, read₂]

theorem step_icmpNe {left right : Operand} {w₁ w₂ : BitVec 64}
    (read₁ : m.eval frame left = some w₁) (read₂ : m.eval frame right = some w₂) :
    m.step ⟨frame, ⟨id, .icmpNe left right⟩ :: code, callers, memory⟩ =
      .inl ⟨frame.set id (if w₁ = w₂ then 0 else 1), code, callers, memory⟩ := by
  simp [step, execute, read₁, read₂]

theorem step_ptrToInt {value : Operand} {w : BitVec 64} (read : m.eval frame value = some w) :
    m.step ⟨frame, ⟨id, .ptrToInt value⟩ :: code, callers, memory⟩ =
      .inl ⟨frame.set id w, code, callers, memory⟩ := by
  simp [step, execute, read]

theorem step_intToPtr {value : Operand} {w : BitVec 64} (read : m.eval frame value = some w) :
    m.step ⟨frame, ⟨id, .intToPtr value⟩ :: code, callers, memory⟩ =
      .inl ⟨frame.set id w, code, callers, memory⟩ := by
  simp [step, execute, read]

theorem step_gep {base : Operand} {index : Nat} {w : BitVec 64}
    (read : m.eval frame base = some w) :
    m.step ⟨frame, ⟨id, .gep base index⟩ :: code, callers, memory⟩ =
      .inl ⟨frame.set id (cellAt w index), code, callers, memory⟩ := by
  simp [step, execute, read]

theorem step_br {target : Nat} {block : List Instruction}
    (found : frame.body[target]? = some block) :
    m.step ⟨frame, ⟨id, .br target⟩ :: code, callers, memory⟩ =
      .inl ⟨frame, block, callers, memory⟩ := by
  simp [step, execute, found]

theorem step_condBr {cond : Operand} {thenTarget elseTarget : Nat} {w : BitVec 64}
    {block : List Instruction} (read : m.eval frame cond = some w)
    (found : frame.body[if w = 0 then elseTarget else thenTarget]? = some block) :
    m.step ⟨frame, ⟨id, .condBr cond thenTarget elseTarget⟩ :: code, callers, memory⟩ =
      .inl ⟨frame, block, callers, memory⟩ := by
  simp only [step, execute, read, Option.bind_eq_bind, Option.bind_some]
  rw [found]
  rfl

theorem step_ret {value : Operand} {w : BitVec 64} (read : m.eval frame value = some w) :
    m.step ⟨frame, ⟨id, .ret value⟩ :: code, [], memory⟩ = .inr (.returned w) := by
  simp [step, execute, read]

/-- Returning to a caller releases the cells of the call. -/
theorem step_ret_caller {value : Operand} {w : BitVec 64} {caller : Caller}
    (read : m.eval frame value = some w) :
    m.step ⟨frame, ⟨id, .ret value⟩ :: code, caller :: callers, memory⟩ =
      .inl ⟨caller.frame.set caller.id w, caller.code, callers, memory.release frame.own⟩ := by
  simp [step, execute, read]

/-- The function at the address of a symbol is the one of this name. -/
theorem find?_declared {name : String} {type : FunctionType}
    (declared : M.declared.lookup name = some type) :
    M.declared.find? (m.addressOf ·.1 = m.addressOf name) = some (name, type) := by
  obtain ⟨before, after, eq, others⟩ := List.lookup_eq_some_iff.mp declared
  have apart := m.apart
  rw [eq] at apart ⊢
  have notBefore : before.find? (m.addressOf ·.1 = m.addressOf name) = none := by
    refine List.find?_eq_none.mpr fun f member isName => ?_
    have same := apart f (List.mem_append_left _ member) (name, type)
      (List.mem_append_right _ List.mem_cons_self) (of_decide_eq_true isName)
    exact bne_iff_ne.mp (others f member) same.symm
  simp [List.find?_append, notBefore]

theorem step_call {type type' : FunctionType} {callee : Operand} {args : List Operand}
    {words : List (BitVec 64)} {name : String} {body : Body} {entry : List Instruction}
    (target : m.eval frame callee = some (m.addressOf name))
    (declared : M.declared.lookup name = some type') (defined : M.bodies.lookup name = some body)
    (read : args.mapM (m.eval frame) = some words) (length : words.length = type'.params.length)
    (head : body.head? = some entry) :
    m.step ⟨frame, ⟨id, .call type callee args⟩ :: code, callers, memory⟩ =
      .inl ⟨⟨body, words, fun _ => none, []⟩, entry, ⟨frame, id, code⟩ :: callers, memory⟩ := by
  simp [step, execute, target, read, m.find?_declared declared, defined, length, head]

/-- A call of `malloc`, if the module does not define a function of this name. -/
theorem step_malloc {type type' : FunctionType} {callee : Operand} {args : List Operand}
    {bytes : BitVec 64} (target : m.eval frame callee = some (m.addressOf "malloc"))
    (declared : M.declared.lookup "malloc" = some type') (single : type'.params.length = 1)
    (undefined : M.bodies.lookup "malloc" = none)
    (read : args.mapM (m.eval frame) = some [bytes]) :
    m.step ⟨frame, ⟨id, .call type callee args⟩ :: code, callers, memory⟩ =
      match m.place memory ((bytes.toNat + 7) / 8) with
      | none => .inr .outOfMemory
      | some base => .inl ⟨frame.set id base, code, callers,
          memory.allocate (Memory.record base ((bytes.toNat + 7) / 8))⟩ := by
  cases placed : m.place memory ((bytes.toNat + 7) / 8) with
  | none => simp [step, execute, target, read, m.find?_declared declared, undefined, single, placed]
  | some base =>
    simp [step, execute, target, read, m.find?_declared declared, undefined, single, placed]

end Steps

end Machine

end Lambcalc.Lib.Ir
