import Lambcalc.Emit.Applications
import Mathlib.Algebra.BigOperators.Group.List.Basic

/-!
# The size of a module

How many instructions lowering makes of functions that use their closure parameter only to project
from it. Named values are integers but for this one pointer, so each node is lowered to a number
of instructions that can be read off the node: an integer that is used as a pointer is cast first.
An operation or comparison of constants is counted, which a builder that folds constants does not
append.
-/

namespace Lambcalc.Emit

open Anf Hoist Lib Lib.Ir LLVMLowerVisitor

/-! ## Terms -/

/-- The number of instructions of a flat term, if `pointer` is the name of the pointer. -/
def codeSize (pointer : Option Var) : Exp → Nat
  | .haltExp _ => 1
  | .funExp _ _ _ _ => 0
  | .joinExp _ _ _ _ => 0
  | .jumpExp _ slotValue => slotValue.toList.length + 1
  | .appExp _ funName _ rest => (if pointer = some funName then 1 else 2) + codeSize pointer rest
  | .bopExp _ _ _ _ rest => 1 + codeSize pointer rest
  | .ifExp _ _ _ => 2
  | .tupleExp _ values rest => 2 + 2 * values.length + codeSize pointer rest
  | .projExp _ tuple _ rest => (if pointer = some tuple then 2 else 3) + codeSize pointer rest

/-- The number of instructions of the body of a function: a slot is allocated and loaded. -/
def bodySize (pointer : Option Var) : Exp → Nat
  | .haltExp _ => 1
  | .funExp _ _ _ rest => bodySize pointer rest
  | .joinExp _ slot body rest =>
    2 * slot.toList.length + bodySize pointer body + bodySize pointer rest
  | .jumpExp _ slotValue => slotValue.toList.length + 1
  | .appExp _ funName _ rest => (if pointer = some funName then 1 else 2) + bodySize pointer rest
  | .bopExp _ _ _ _ rest => 1 + bodySize pointer rest
  | .ifExp _ thenBranch elseBranch => 2 + bodySize pointer thenBranch + bodySize pointer elseBranch
  | .tupleExp _ values rest => 2 + 2 * values.length + bodySize pointer rest
  | .projExp _ tuple _ rest => (if pointer = some tuple then 2 else 3) + bodySize pointer rest

def blockSize (pointer : Option Var) (b : Join) : Nat :=
  2 * b.slot.toList.length + codeSize pointer b.body

/-- The number of instructions of a function. -/
def functionSize (fn : Function) : Nat :=
  codeSize (closureParameter fn.params) fn.entryBlock.body +
    (fn.blocks.map (blockSize (closureParameter fn.params))).sum

/-- Splitting a body into blocks moves instructions and makes no more. -/
theorem Splits.bodySize {t left : Exp} {split : List Join} (splits : Splits t left split)
    (pointer : Option Var) :
    bodySize pointer t = codeSize pointer left + (split.map (blockSize pointer)).sum := by
  induction splits with
  | haltExp => rfl
  | jumpExp => rfl
  | funExp _ ih => exact ih
  | joinExp _ _ ihBody ih =>
    simp only [Emit.bodySize, ihBody, ih, List.map_append, List.map_cons, List.sum_append,
      List.sum_cons, blockSize]
    omega
  | appExp _ ih => simp only [Emit.bodySize, codeSize, ih, Nat.add_assoc]
  | bopExp _ ih => simp only [Emit.bodySize, codeSize, ih, Nat.add_assoc]
  | ifExp _ _ _ _ ihThen ihElse =>
    simp only [Emit.bodySize, codeSize, ihThen, ihElse, List.map_append, List.map_cons,
      List.map_nil, List.sum_append, List.sum_cons, List.sum_nil, blockSize, Option.toList_none,
      List.length_nil]
    omega
  | tupleExp _ ih => simp only [Emit.bodySize, codeSize, ih, Nat.add_assoc]
  | projExp _ ih => simp only [Emit.bodySize, codeSize, ih, Nat.add_assoc]

section Terms

variable {v v' : LLVMLowerVisitor} {pointer : Option Var} {code : List Instruction}

theorem rebind_of_ne {name : Var} (ne : pointer ≠ some name) : rebind pointer name = pointer :=
  if_neg ne

theorem Typed.enter_of_ne {name : Var} (typed : Typed pointer v) (ne : pointer ≠ some name) :
    Typed pointer (v.enter name .i64) := rebind_of_ne ne ▸ typed.enter name

/-- The pointer is used as it is, and an integer is cast. -/
theorem Casts.length {op ptr : Operand} {name : Var} (casts : Casts v op ptr code v')
    (typed : Typed pointer v) (found : v.namedValues name = some op) :
    code.length = if pointer = some name then 0 else 1 := by
  have type := typed.named name op found
  cases casts with
  | same isPtr =>
    split at type
    · next eq => rw [if_pos eq, List.length_nil]
    · cases isPtr.symm.trans type
  | cast isInt =>
    split at type
    · exact absurd type isInt
    · next ne => rw [if_neg ne, List.length_singleton]

theorem Stores.length {ptr : Operand} {i : Nat} {values : List Value}
    (stores : Stores ptr v i values code v') : code.length = 2 * values.length := by
  induction stores with
  | nil => rfl
  | cons _ _ _ ih =>
    simp only [List.length_cons, ih]
    omega

/-- The number of instructions that a flat term is lowered to. -/
theorem length_lowerExp {t : Exp} {last : Option Var} (isFlat : flat t = true)
    (calls : projected last t = true) (cells : labelsInCells t = true)
    (apart : avoids pointer t = true) (fixed : ∀ x ∈ bindings t, pointer ≠ some x)
    (known : ∀ x, last = some x → (v.namedValues x).isSome = true) (typed : Typed pointer v)
    (lowered : lowerExp t v = .ok (code, v')) :
    code.length = codeSize pointer t ∧ Typed pointer v' := by
  have unknown : ∀ {v : LLVMLowerVisitor} x, (none : Option Var) = some x →
      (v.namedValues x).isSome = true := fun _ eq => by cases eq
  induction t generalizing v code last with
  | haltExp value =>
    rcases haltExp_eq_ok lowered with ⟨op, w, -, only, rfl, rfl⟩
    exact ⟨rfl, (typed.only only).congr rfl rfl⟩
  | funExp name params body rest => cases isFlat
  | joinExp name slot body rest => cases isFlat
  | jumpExp joinName slotValue =>
    cases slotValue with
    | none =>
      rcases jumpExp_none_eq_ok lowered with ⟨block, -, rfl, rfl⟩
      exact ⟨rfl, typed.congr rfl rfl⟩
    | some value =>
      rcases jumpExp_some_eq_ok lowered with ⟨block, slot, op, w, -, -, -, only, rfl, rfl⟩
      exact ⟨rfl, (typed.only only).congr rfl rfl⟩
  | appExp name funName paramValues rest ih =>
    rcases Bool.and_eq_true_iff.mp calls with ⟨called, callsRest⟩
    rcases Bool.and_eq_true_iff.mp cells with ⟨-, cellsRest⟩
    rcases Bool.and_eq_true_iff.mp apart with ⟨-, apartRest⟩
    rcases List.forall_mem_cons.mp fixed with ⟨ne, fixedRest⟩
    rcases Option.isSome_iff_exists.mp (known funName (beq_iff_eq.mp called)) with ⟨op, found⟩
    rcases let_eq_ok lowered with ⟨first, w, codeRest, visited, loweredRest, rfl⟩
    rcases appExp_eq_ok found visited with ⟨params, w₁, fn, cast, w₂, -, only, casts, rfl, rfl⟩
    have typed₁ := typed.only only
    have castSize := casts.length typed₁ (only.named ▸ found)
    rcases ih isFlat callsRest cellsRest apartRest fixedRest unknown
      ((casts.typed typed₁).enter_of_ne ne) loweredRest with ⟨restSize, typed'⟩
    refine ⟨?_, typed'⟩
    rw [List.length_append, List.length_append, castSize, restSize, codeSize]
    split <;> simp
  | bopExp name bop param1 param2 rest ih =>
    rcases Bool.and_eq_true_iff.mp cells with ⟨anf, cellsRest⟩
    rcases Bool.and_eq_true_iff.mp apart with ⟨isInts, apartRest⟩
    rcases List.forall_mem_cons.mp fixed with ⟨ne, fixedRest⟩
    rcases let_eq_ok lowered with ⟨first, w, codeRest, visited, loweredRest, rfl⟩
    rcases bopExp_eq_ok visited with ⟨op1, op2, w₁, reads1, -, only, rfl, rfl⟩
    -- the result has the type of the first operand
    have isInt : op1.type = .i64 :=
      (typed.isInt reads1 (Bool.and_eq_true_iff.mp anf).1).mpr
        ((Bool.not_eq_true' _).mp (Bool.and_eq_true_iff.mp isInts).1)
    rw [isInt] at loweredRest
    rcases ih isFlat calls cellsRest apartRest fixedRest unknown
      ((typed.only only).enter_of_ne ne) loweredRest with ⟨restSize, typed'⟩
    refine ⟨?_, typed'⟩
    rw [List.length_append, restSize, codeSize]
    rfl
  | ifExp cond thenBranch elseBranch =>
    rcases Bool.and_eq_true_iff.mp isFlat with ⟨plainThen, plainElse⟩
    rcases isPlainJump_eq_true.mp plainThen with ⟨thenJoin, rfl⟩
    rcases isPlainJump_eq_true.mp plainElse with ⟨elseJoin, rfl⟩
    rcases visitIfJump_eq_ok lowered with ⟨op, w, thenBlock, elseBlock, -, only, -, -, rfl, rfl⟩
    exact ⟨rfl, (typed.only only).congr rfl rfl⟩
  | tupleExp name values rest ih =>
    rcases List.forall_mem_cons.mp fixed with ⟨ne, fixedRest⟩
    rcases let_eq_ok lowered with ⟨first, w, codeRest, visited, loweredRest, rfl⟩
    rcases tupleExp_eq_ok visited with ⟨stored, stores, rfl⟩
    have start : Typed pointer (v.getMalloc.skip 1) :=
      typed.congr (keeps_getMalloc v).2 (keeps_getMalloc v).1.slots
    rcases ih isFlat calls cells apart fixedRest unknown (stores.typed (start.enter_of_ne ne))
      loweredRest with ⟨restSize, typed'⟩
    refine ⟨?_, typed'⟩
    simp only [List.cons_append, List.length_cons, List.length_append, stores.length, restSize,
      codeSize]
    omega
  | projExp name tuple index rest ih =>
    rcases List.forall_mem_cons.mp fixed with ⟨ne, fixedRest⟩
    rcases let_eq_ok lowered with ⟨first, w, codeRest, visited, loweredRest, rfl⟩
    rcases projExp_eq_ok visited with ⟨tupleInt, ptr, cast, w₁, found, casts, rfl, rfl⟩
    have castSize := casts.length typed found
    have entered : Typed pointer ((w₁.skip 1).enter name .i64) :=
      Typed.enter_of_ne ((casts.typed typed).congr rfl rfl) ne
    rcases ih isFlat calls cells apart fixedRest (fun x eq => by
      cases eq
      simp [LLVMLowerVisitor.enter]) entered loweredRest with ⟨restSize, typed'⟩
    refine ⟨?_, typed'⟩
    rw [List.length_append, List.length_append, castSize, restSize, codeSize]
    split <;> simp

end Terms

/-! ## Functions -/

theorem length_modify {body : Body} {index : Nat} (inRange : index < body.length)
    (code : List Instruction) :
    (body.modify index (· ++ code)).flatten.length = body.flatten.length + code.length := by
  induction body generalizing index with
  | nil => cases inRange
  | cons first body ih =>
    cases index with
    | zero =>
      simp only [List.modify_zero_cons, List.flatten_cons, List.length_append]
      omega
    | succ index =>
      have inRest := ih (Nat.lt_of_succ_lt_succ inRange)
      simp only [List.modify_succ_cons, List.flatten_cons, List.length_append, inRest]
      omega

theorem length_createBlocks (blocks : List Join) (index : Nat) (v : LLVMLowerVisitor) :
    (createBlocks blocks index v).1.length =
      (blocks.map fun b => b.slot.toList.length).sum := by
  induction blocks generalizing index v with
  | nil => rfl
  | cons b blocks ih =>
    cases slot : b.slot with
    | none => simp [createBlocks, slot, ih]
    | some name => simp [createBlocks, slot, ih, Nat.add_comm]

section Functions

variable {v v' : LLVMLowerVisitor} {pointer : Option Var} {body body' : Body}

/-- What the lowering of a block appends: the load of its slot and its code. -/
theorem length_lowerBlock {b : Join} (isFlat : flat b.body = true)
    (calls : projected none b.body = true) (cells : labelsInCells b.body = true)
    (apart : avoids pointer b.body = true) (fixed : ∀ x ∈ b.bound, pointer ≠ some x)
    (inRange : ∀ x i, v.namedBlocks x = some i → i < body.length) (typed : Typed pointer v)
    (lowered : lowerBlock (body, v) b = .ok (body', v')) :
    body'.flatten.length = body.flatten.length + b.slot.toList.length + codeSize pointer b.body ∧
      body'.length = body.length ∧ Typed pointer v' := by
  rcases lowerBlock_eq_ok lowered with ⟨index, load, w, code, found, loads, loweredBody, rfl⟩
  rcases List.forall_mem_append.mp fixed with ⟨fixedSlot, fixedBody⟩
  have start : load.length = b.slot.toList.length ∧ Typed pointer w := by
    cases loads with
    | none slot => exact ⟨by rw [slot]; rfl, typed⟩
    | some slot found =>
      rw [slot] at fixedSlot ⊢
      exact ⟨rfl, typed.enter_of_ne (fixedSlot _ (List.mem_singleton_self _))⟩
  rcases length_lowerExp isFlat calls cells apart fixedBody (fun _ eq => by cases eq) start.2
    loweredBody with ⟨size, typed'⟩
  refine ⟨?_, List.length_modify _ _ _, typed'⟩
  rw [length_modify (inRange _ _ found), List.length_append, start.1, size, Nat.add_assoc]

/-- The blocks have the instructions of their bodies. -/
theorem length_blocks {blocks : List Join} (isFlat : ∀ b ∈ blocks, flat b.body = true)
    (calls : ∀ b ∈ blocks, projected none b.body = true)
    (cells : ∀ b ∈ blocks, labelsInCells b.body = true)
    (apart : ∀ b ∈ blocks, avoids pointer b.body = true)
    (fixed : ∀ x ∈ boundBy blocks, pointer ≠ some x)
    (inRange : ∀ x i, v.namedBlocks x = some i → i < body.length) (typed : Typed pointer v)
    (lowered : blocks.foldlM lowerBlock (body, v) = .ok (body', v')) :
    body'.flatten.length = body.flatten.length +
      (blocks.map fun b => b.slot.toList.length + codeSize pointer b.body).sum := by
  induction blocks generalizing body v with
  | nil =>
    cases lowered
    rfl
  | cons b blocks ih =>
    rcases List.forall_mem_cons.mp isFlat with ⟨flatHead, flatTail⟩
    rcases List.forall_mem_cons.mp calls with ⟨callsHead, callsTail⟩
    rcases List.forall_mem_cons.mp cells with ⟨cellsHead, cellsTail⟩
    rcases List.forall_mem_cons.mp apart with ⟨apartHead, apartTail⟩
    rcases List.forall_mem_append.mp fixed with ⟨fixedHead, fixedTail⟩
    rw [List.foldlM_cons] at lowered
    rcases except_bind_eq_ok.mp lowered with ⟨⟨body₁, v₁⟩, first, others⟩
    rcases length_lowerBlock flatHead callsHead cellsHead apartHead fixedHead inRange typed first
      with ⟨size, length, typed₁⟩
    have inRange₁ : ∀ x i, v₁.namedBlocks x = some i → i < body₁.length := by
      rw [length, (enters_lowerBlock flatHead callsHead first).keeps.blocks]
      exact inRange
    rw [ih flatTail callsTail cellsTail apartTail fixedTail inRange₁ typed₁ others, size,
      List.map_cons, List.sum_cons]
    omega

/-- What the size of a function's code asks of it: lowering finds its blocks, and its closure
parameter is not named again and only used to project from it. -/
structure Sized (fn : Function) : Prop where
  lowerable : Lowerable fn
  cells : ∀ b ∈ fn.entryBlock :: fn.blocks, labelsInCells b.body = true
  apart : ∀ b ∈ fn.entryBlock :: fn.blocks, avoids (closureParameter fn.params) b.body = true
  entrySlot : fn.entryBlock.slot = none
  fixed : ∀ x ∈ boundBy (fn.entryBlock :: fn.blocks), closureParameter fn.params ≠ some x

/-- A function has an instruction for each slot, and those of its blocks. -/
theorem length_lowerFunction {M M' : Module} {fn : Function} (sized : Sized fn)
    (declared : M.declared.lookup fn.name = some (getFunctionType fn.params))
    (lowered : lowerFunction M fn = .ok M') :
    ∃ body, M'.bodies = M.bodies ++ [(fn.name, body)] ∧
      body.flatten.length = functionSize fn := by
  rcases lowerFunction_eq_ok sized.lowerable lowered with
    ⟨allocas, v, code, w, body, v', prepared, entry, entersEntry, blocks, -, rfl⟩
  rcases prepare_typed declared prepared with ⟨-, typed, inRange⟩
  rcases List.forall_mem_cons.mp sized.lowerable.flat with ⟨flatEntry, flats⟩
  rcases List.forall_mem_cons.mp sized.lowerable.calls with ⟨callsEntry, calls⟩
  rcases List.forall_mem_cons.mp sized.cells with ⟨cellsEntry, cells⟩
  rcases List.forall_mem_cons.mp sized.apart with ⟨apartEntry, aparts⟩
  rcases List.forall_mem_append.mp sized.fixed with ⟨fixedEntry, fixed⟩
  have fixedBody := (List.forall_mem_append.mp fixedEntry).2
  rcases length_lowerExp flatEntry callsEntry cellsEntry apartEntry fixedBody
    (fun _ eq => by cases eq) typed entry with ⟨size, typed'⟩
  have inRange' : ∀ x i, w.namedBlocks x = some i →
      i < ((allocas ++ code) :: fn.blocks.map fun _ => []).length := by
    rw [entersEntry.keeps.blocks, List.length_cons, List.length_map, Nat.add_comm]
    exact inRange
  refine ⟨body, rfl, ?_⟩
  have noCode : (fn.blocks.map fun _ => ([] : List Instruction)).flatten = [] :=
    List.flatten_eq_nil_iff.mpr fun code member => by
      rcases List.mem_map.mp member with ⟨b, -, rfl⟩
      rfl
  have allocated : allocas.length = (fn.blocks.map fun b => b.slot.toList.length).sum := by
    rcases except_bind_eq_ok.mp prepared with ⟨type, -, prepared⟩
    rcases except_bind_eq_ok.mp prepared with ⟨named, -, eq⟩
    cases eq
    exact length_createBlocks ..
  have total : (fn.blocks.map (blockSize (closureParameter fn.params))).sum =
      (fn.blocks.map fun b => b.slot.toList.length).sum + (fn.blocks.map fun b =>
        b.slot.toList.length + codeSize (closureParameter fn.params) b.body).sum := by
    rw [← List.sum_map_add]
    refine congrArg List.sum (List.map_congr_left fun b _ => ?_)
    rw [blockSize]
    omega
  rw [length_blocks flats calls cells aparts fixed inRange' typed' blocks, List.flatten_cons,
    noCode, List.append_nil, List.length_append, allocated, size, functionSize, total]
  omega

end Functions

/-! ## Modules -/

/-- The instructions of all functions of a module. -/
def instructions (M : Module) : List Instruction := M.bodies.flatMap fun f => f.2.flatten

/-- The module gets the instructions of each function. -/
theorem length_functions {fns : List Function} {M M' : Module} (sized : ∀ fn ∈ fns, Sized fn)
    (declared : ∀ fn ∈ fns, M.declared.lookup fn.name = some (getFunctionType fn.params))
    (lowered : fns.foldlM lowerFunction M = .ok M') :
    (instructions M').length = (instructions M).length + (fns.map functionSize).sum := by
  induction fns generalizing M with
  | nil =>
    cases lowered
    rfl
  | cons fn fns ih =>
    rcases List.forall_mem_cons.mp sized with ⟨sizedHead, sizedTail⟩
    rcases List.forall_mem_cons.mp declared with ⟨declaredHead, declaredTail⟩
    rw [List.foldlM_cons] at lowered
    rcases except_bind_eq_ok.mp lowered with ⟨M₁, first, others⟩
    rcases length_lowerFunction sizedHead declaredHead first with ⟨body, bodies, size⟩
    have later : ∀ fn' ∈ fns, M₁.declared.lookup fn'.name = some (getFunctionType fn'.params) :=
      fun fn' member => declared_lowerFunction sizedHead.lowerable first (declaredTail fn' member)
    rw [ih sizedTail later others, List.map_cons, List.sum_cons, ← size]
    simp only [instructions, bodies, List.flatMap_append, List.flatMap_singleton,
      List.length_append]
    omega

/-- The number of instructions of a module is that of its functions together. -/
theorem length_lowerModule {fns : List Function} {M : Module} (sized : ∀ fn ∈ fns, Sized fn)
    (distinct : (fns.map Function.name).Nodup) (lowered : lowerModule fns = .ok M) :
    (instructions M).length = (fns.map functionSize).sum := by
  have declared : ∀ fn ∈ fns, (fns.foldl declareFunction ⟨[], [], []⟩).declared.lookup fn.name =
      some (getFunctionType fn.params) := by
    intro fn member
    rw [lookup_declared, findFunction, find?_of_nodup distinct member]
    rfl
  rw [length_functions sized declared lowered, instructions, bodies_declared]
  exact Nat.zero_add _

end Lambcalc.Emit
