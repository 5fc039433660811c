import Lambcalc.Emit.Visitor
import Lambcalc.Lib.Except
import Mathlib.Data.List.Forall2

/-!
# What the visit of each node appends

Of each visit that ends: which operands it looked up, which instructions it appended, and what it
did to the visitor.
-/

namespace Lambcalc.Emit

open Anf Hoist Lib Lib.Ir LLVMLowerVisitor

/-! ## Values -/

/-- The visit of values changes nothing but the global variables. -/
def OnlyGlobals (v v' : LLVMLowerVisitor) : Prop := ∃ globals, v' = v.withGlobals globals

theorem OnlyGlobals.refl (v : LLVMLowerVisitor) : OnlyGlobals v v := ⟨v.module_.globals, rfl⟩

theorem OnlyGlobals.trans {v₁ v₂ v₃ : LLVMLowerVisitor} (first : OnlyGlobals v₁ v₂)
    (second : OnlyGlobals v₂ v₃) : OnlyGlobals v₁ v₃ := by
  obtain ⟨globals, rfl⟩ := first
  obtain ⟨globals', rfl⟩ := second
  exact ⟨globals', rfl⟩

/-- The operand that a value is lowered to. -/
inductive Reads (v : LLVMLowerVisitor) : Value → Operand → Prop where
  | intValue {value : Int} : Reads v (.intValue value) (.const (Word.ofLiteral value))
  | varValue {var : Var} {op : Operand} (found : v.namedValues var = some op) :
    Reads v (.varValue var) op
  | address {glob : Var} : Reads v (.globValue glob) (.address glob)
  | symbol {glob : Var} : Reads v (.globValue glob) (.symbol glob)

section Values

variable {v : LLVMLowerVisitor}

theorem Reads.congr {v' : LLVMLowerVisitor} {value : Value} {op : Operand}
    (reads : Reads v value op) (same : v'.namedValues = v.namedValues) : Reads v' value op := by
  cases reads with
  | intValue => exact .intValue
  | varValue found => exact .varValue (same ▸ found)
  | address => exact .address
  | symbol => exact .symbol

theorem OnlyGlobals.named {v' : LLVMLowerVisitor} (only : OnlyGlobals v v') :
    v'.namedValues = v.namedValues := by
  obtain ⟨globals, rfl⟩ := only
  rfl

theorem OnlyGlobals.next {v' : LLVMLowerVisitor} (only : OnlyGlobals v v') :
    v'.next = v.next := by
  obtain ⟨globals, rfl⟩ := only
  rfl

theorem find_eq_ok {α : Type} {map : Var → Option α} {name : Var} {a : α} :
    find map name = .ok a ↔ map name = some a := by
  unfold find
  cases map name with
  | some b => simp
  | none => simp

/-- A value is lowered to an operand, unless it is a variable without an entry. -/
theorem operand_cases (v : LLVMLowerVisitor) (value : Value) :
    (∃ op v', v.operand value = .ok (op, v') ∧ Reads v value op ∧ OnlyGlobals v v') ∨
      ∃ x, value = .varValue x ∧ v.namedValues x = none ∧ v.operand value = .error .undefined := by
  cases value with
  | intValue value => exact .inl ⟨_, v, rfl, .intValue, .refl v⟩
  | varValue var =>
    cases found : v.namedValues var with
    | none =>
      refine .inr ⟨var, rfl, found, ?_⟩
      simp only [operand, LLVMLowerVisitor.visitValue, found]
    | some op =>
      refine .inl ⟨op, v, ?_, .varValue found, .refl v⟩
      simp only [operand, LLVMLowerVisitor.visitValue, found]
  | globValue glob =>
    by_cases known : (v.module_.declared.lookup glob).isSome = true ∨ glob ∈ v.module_.globals
    · refine .inl ⟨.address glob, v, ?_, .address, .refl v⟩
      simp only [operand, LLVMLowerVisitor.visitValue, if_pos known]
    · refine .inl ⟨.symbol glob, v.withGlobals (v.module_.globals ++ [glob]), ?_, .symbol, _, rfl⟩
      simp only [operand, LLVMLowerVisitor.visitValue, if_neg known]

theorem operand_eq_ok {value : Value} {op : Operand} {v' : LLVMLowerVisitor}
    (visited : v.operand value = .ok (op, v')) : Reads v value op ∧ OnlyGlobals v v' := by
  rcases operand_cases v value with ⟨op', v'', visited', reads, only⟩ | ⟨x, -, -, failed⟩
  · cases visited'.symm.trans visited
    exact ⟨reads, only⟩
  · cases failed.symm.trans visited

theorem operands_eq_ok {values : List Value} {ops : List Operand} {v' : LLVMLowerVisitor}
    (visited : v.operands values = .ok (ops, v')) :
    List.Forall₂ (Reads v) values ops ∧ OnlyGlobals v v' := by
  induction values generalizing v ops with
  | nil =>
    cases visited
    exact ⟨.nil, .refl _⟩
  | cons value values ih =>
    obtain ⟨⟨op, w⟩, first, visited⟩ := except_bind_eq_ok.mp visited
    obtain ⟨⟨ops', w'⟩, others, eq⟩ := except_bind_eq_ok.mp visited
    cases eq
    obtain ⟨reads, only⟩ := operand_eq_ok first
    obtain ⟨readsOthers, only'⟩ := ih others
    refine ⟨.cons reads (readsOthers.imp fun _ _ reads => ?_), only.trans only'⟩
    exact reads.congr only.named.symm

end Values

/-! ## Casts and cells -/

/-- A cast to a pointer: no instruction for a pointer, and one for another operand. -/
inductive Casts (v : LLVMLowerVisitor) (op : Operand) :
    Operand → List Instruction → LLVMLowerVisitor → Prop where
  | same (isPtr : op.type = .ptr) : Casts v op op [] v
  | cast (isInt : op.type ≠ .ptr) :
    Casts v op (.inst .ptr v.next) [⟨v.next, .intToPtr op⟩] (v.skip 1)

theorem casts_createIntToPtr (v : LLVMLowerVisitor) (op : Operand) :
    Casts v op (v.createIntToPtr op).1 (v.createIntToPtr op).2.1 (v.createIntToPtr op).2.2 := by
  unfold createIntToPtr
  split
  · rename_i isPtr
    exact .same isPtr
  · rename_i isInt
    exact .cast isInt

/-- The cells of the record at `ptr` are filled, from cell number `i` on. -/
inductive Stores (ptr : Operand) :
    LLVMLowerVisitor → Nat → List Value → List Instruction → LLVMLowerVisitor → Prop where
  | nil {v : LLVMLowerVisitor} {i : Nat} : Stores ptr v i [] [] v
  | cons {v w v' : LLVMLowerVisitor} {i : Nat} {value : Value} {values : List Value} {op : Operand}
      {code : List Instruction} (reads : Reads v value op) (only : OnlyGlobals v w)
      (stores : Stores ptr (w.skip 2) (i + 1) values code v') :
      Stores ptr v i (value :: values)
        (⟨w.next, .gep ptr i⟩ :: ⟨w.next + 1, .store op (.inst .ptr w.next)⟩ :: code) v'

theorem storeCells_eq_ok {ptr : Operand} {v v' : LLVMLowerVisitor} {i : Nat} {values : List Value}
    {code : List Instruction} (visited : storeCells ptr v i values = .ok (code, v')) :
    Stores ptr v i values code v' := by
  induction values generalizing v i code with
  | nil =>
    cases visited
    exact .nil
  | cons value values ih =>
    obtain ⟨⟨op, w⟩, first, visited⟩ := except_bind_eq_ok.mp visited
    obtain ⟨⟨code', w'⟩, others, eq⟩ := except_bind_eq_ok.mp visited
    cases eq
    obtain ⟨reads, only⟩ := operand_eq_ok first
    exact .cons reads only (ih others)

/-! ## Nodes -/

section Nodes

variable {v v' : LLVMLowerVisitor} {code : List Instruction} {name : Var}

theorem haltExp_eq_ok {value : Value} (visited : v.haltExp value = .ok (code, v')) :
    ∃ op w, Reads v value op ∧ OnlyGlobals v w ∧ code = [⟨w.next, .ret op⟩] ∧ v' = w.skip 1 := by
  obtain ⟨⟨op, w⟩, first, eq⟩ := except_bind_eq_ok.mp visited
  cases eq
  obtain ⟨reads, only⟩ := operand_eq_ok first
  exact ⟨op, w, reads, only, rfl, rfl⟩

theorem jumpExp_none_eq_ok {joinName : Var} (visited : v.jumpExp joinName none = .ok (code, v')) :
    ∃ block, v.namedBlocks joinName = some block ∧ code = [⟨v.next, .br block⟩] ∧
      v' = v.skip 1 := by
  obtain ⟨block, found, eq⟩ := except_bind_eq_ok.mp visited
  cases eq
  exact ⟨block, find_eq_ok.mp found, rfl, rfl⟩

theorem jumpExp_some_eq_ok {joinName : Var} {value : Value}
    (visited : v.jumpExp joinName (some value) = .ok (code, v')) :
    ∃ block slot op w, v.namedBlocks joinName = some block ∧ v.spillSlots joinName = some slot ∧
      Reads v value op ∧ OnlyGlobals v w ∧
      code = [⟨w.next, .store op slot⟩, ⟨w.next + 1, .br block⟩] ∧ v' = w.skip 2 := by
  obtain ⟨block, found, visited⟩ := except_bind_eq_ok.mp visited
  obtain ⟨slot, foundSlot, visited⟩ := except_bind_eq_ok.mp visited
  obtain ⟨⟨op, w⟩, first, eq⟩ := except_bind_eq_ok.mp visited
  cases eq
  obtain ⟨reads, only⟩ := operand_eq_ok first
  exact ⟨block, slot, op, w, find_eq_ok.mp found, find_eq_ok.mp foundSlot, reads, only, rfl, rfl⟩

/-- A call of a named value. -/
theorem appExp_eq_ok {funName : Var} {paramValues : List Value} {fnPtrInt : Operand}
    (known : v.namedValues funName = some fnPtrInt)
    (visited : v.appExp name funName paramValues = .ok (code, v')) :
    ∃ params w fn cast w', List.Forall₂ (Reads v) paramValues params ∧ OnlyGlobals v w ∧
      Casts w fnPtrInt fn cast w' ∧
      code = cast ++ [⟨w'.next, .call (getFunctionType paramValues) fn params⟩] ∧
      v' = w'.enter name .i64 := by
  obtain ⟨⟨params, w⟩, first, visited⟩ := except_bind_eq_ok.mp visited
  obtain ⟨reads, only⟩ := operands_eq_ok first
  rw [← only.named] at known
  simp only [known] at visited
  cases visited
  exact ⟨params, w, _, _, _, reads, only, casts_createIntToPtr w fnPtrInt, rfl, rfl⟩

theorem bopExp_eq_ok {bop : Ast.Bop} {param1 param2 : Value}
    (visited : v.bopExp name bop param1 param2 = .ok (code, v')) :
    ∃ op1 op2 w, Reads v param1 op1 ∧ Reads v param2 op2 ∧ OnlyGlobals v w ∧
      code = [⟨w.next, .binary (binaryOp bop) op1 op2⟩] ∧ v' = w.enter name op1.type := by
  obtain ⟨⟨op1, w⟩, first, visited⟩ := except_bind_eq_ok.mp visited
  obtain ⟨⟨op2, w'⟩, second, eq⟩ := except_bind_eq_ok.mp visited
  cases eq
  obtain ⟨reads1, only1⟩ := operand_eq_ok first
  obtain ⟨reads2, only2⟩ := operand_eq_ok second
  exact ⟨op1, op2, w', reads1, reads2.congr only1.named.symm, only1.trans only2, rfl, rfl⟩

theorem tupleExp_eq_ok {values : List Value}
    (visited : v.tupleExp name values = .ok (code, v')) :
    ∃ cells, Stores (.inst .ptr v.getMalloc.next) ((v.getMalloc.skip 1).enter name .i64) 0 values
        cells v' ∧
      code = ⟨v.getMalloc.next, .call mallocTy (.symbol "malloc")
          [.const (BitVec.ofNat 64 (values.length * 8))]⟩ ::
        ⟨v.getMalloc.next + 1, .ptrToInt (.inst .ptr v.getMalloc.next)⟩ :: cells := by
  obtain ⟨⟨cells, w⟩, stored, eq⟩ := except_bind_eq_ok.mp visited
  cases eq
  exact ⟨cells, storeCells_eq_ok stored, rfl⟩

theorem projExp_eq_ok {tuple : Var} {index : Nat}
    (visited : v.projExp name tuple index = .ok (code, v')) :
    ∃ tupleInt ptr cast w, v.namedValues tuple = some tupleInt ∧ Casts v tupleInt ptr cast w ∧
      code = cast ++ [⟨w.next, .gep ptr index⟩, ⟨w.next + 1, .load (.inst .ptr w.next)⟩] ∧
      v' = (w.skip 1).enter name .i64 := by
  obtain ⟨tupleInt, found, eq⟩ := except_bind_eq_ok.mp visited
  cases eq
  exact ⟨tupleInt, _, _, _, find_eq_ok.mp found, casts_createIntToPtr v tupleInt, rfl, rfl⟩

/-- A branch to two blocks without slots. -/
theorem visitIfJump_eq_ok {cond : Value} {thenJoin elseJoin : Var}
    (visited : v.visitIfJump cond thenJoin none elseJoin none = .ok (code, v')) :
    ∃ op w thenBlock elseBlock, Reads v cond op ∧ OnlyGlobals v w ∧
      v.namedBlocks thenJoin = some thenBlock ∧ v.namedBlocks elseJoin = some elseBlock ∧
      code = [⟨w.next, .icmpNe op (.const 0)⟩,
        ⟨w.next + 1, .condBr (.inst .i1 w.next) thenBlock elseBlock⟩] ∧ v' = w.skip 2 := by
  obtain ⟨⟨op, w⟩, first, visited⟩ := except_bind_eq_ok.mp visited
  obtain ⟨⟨thenStore, w₁⟩, noStore, visited⟩ := except_bind_eq_ok.mp visited
  cases noStore
  obtain ⟨⟨elseStore, w₂⟩, noStore, visited⟩ := except_bind_eq_ok.mp visited
  cases noStore
  obtain ⟨thenBlock, foundThen, visited⟩ := except_bind_eq_ok.mp visited
  obtain ⟨elseBlock, foundElse, eq⟩ := except_bind_eq_ok.mp visited
  cases eq
  obtain ⟨reads, only⟩ := operand_eq_ok first
  obtain ⟨globals, rfl⟩ := only
  exact ⟨op, _, thenBlock, elseBlock, reads, ⟨globals, rfl⟩, find_eq_ok.mp foundThen,
    find_eq_ok.mp foundElse, rfl, rfl⟩

/-- A node and its rest. -/
theorem let_eq_ok {node : Except Fault (List Instruction × LLVMLowerVisitor)} {rest : Exp}
    (visited : (do
      let (code, visitor) ← node
      let (codeRest, visitor) ← lowerExp rest visitor
      return (code ++ codeRest, visitor)) = .ok (code, v')) :
    ∃ first w codeRest, node = .ok (first, w) ∧ lowerExp rest w = .ok (codeRest, v') ∧
      code = first ++ codeRest := by
  obtain ⟨⟨first, w⟩, visitedNode, visited⟩ := except_bind_eq_ok.mp visited
  obtain ⟨⟨codeRest, w'⟩, visitedRest, eq⟩ := except_bind_eq_ok.mp visited
  cases eq
  exact ⟨first, w, codeRest, visitedNode, visitedRest, rfl⟩

end Nodes

/-! ## Blocks -/

/-- Blocks are created, the first one with this index, and slots for those that have one. -/
inductive Creates : List Join → Nat → LLVMLowerVisitor → List Instruction → LLVMLowerVisitor →
    Prop where
  | nil {index : Nat} {v : LLVMLowerVisitor} : Creates [] index v [] v
  | plain {b : Join} {blocks : List Join} {index : Nat} {v v' : LLVMLowerVisitor}
      {code : List Instruction} (slot : b.slot = none)
      (creates : Creates blocks (index + 1)
        { v with namedBlocks := Function.update v.namedBlocks b.name (some index) } code v') :
      Creates (b :: blocks) index v code v'
  | spilled {b : Join} {blocks : List Join} {index : Nat} {v v' : LLVMLowerVisitor} {name : Var}
      {code : List Instruction} (slot : b.slot = some name)
      (creates : Creates blocks (index + 1)
        { v.skip 1 with
          namedBlocks := Function.update v.namedBlocks b.name (some index)
          spillSlots := Function.update v.spillSlots b.name (some (.inst .ptr v.next)) } code v') :
      Creates (b :: blocks) index v (⟨v.next, .alloca⟩ :: code) v'

theorem creates_createBlocks (blocks : List Join) (index : Nat) (v : LLVMLowerVisitor) :
    Creates blocks index v (createBlocks blocks index v).1 (createBlocks blocks index v).2 := by
  induction blocks generalizing index v with
  | nil => exact .nil
  | cons b blocks ih =>
    unfold createBlocks
    cases slot : b.slot with
    | none => exact .plain slot (ih _ _)
    | some name => exact .spilled slot (ih _ _)

/-- The load at the start of a block with a slot. -/
inductive Loads (v : LLVMLowerVisitor) (b : Join) :
    List Instruction → LLVMLowerVisitor → Prop where
  | none (slot : b.slot = none) : Loads v b [] v
  | some {name : Var} {address : Operand} (slot : b.slot = some name)
    (found : v.spillSlots b.name = some address) :
    Loads v b [⟨v.next, .load address⟩] (v.enter name .i64)

theorem loadSlot_eq_ok {v v' : LLVMLowerVisitor} {b : Join} {code : List Instruction}
    (visited : loadSlot v b = .ok (code, v')) : Loads v b code v' := by
  unfold loadSlot at visited
  cases slot : b.slot with
  | none =>
    rw [slot] at visited
    cases visited
    exact .none slot
  | some name =>
    rw [slot] at visited
    obtain ⟨address, found, eq⟩ := except_bind_eq_ok.mp visited
    cases eq
    exact .some slot (find_eq_ok.mp found)

theorem lowerBlock_eq_ok {v v' : LLVMLowerVisitor} {b : Join} {body body' : Body}
    (lowered : lowerBlock (body, v) b = .ok (body', v')) :
    ∃ index load w code, v.namedBlocks b.name = some index ∧ Loads v b load w ∧
      lowerExp b.body w = .ok (code, v') ∧ body' = body.modify index (· ++ (load ++ code)) := by
  obtain ⟨index, found, lowered⟩ := except_bind_eq_ok.mp lowered
  obtain ⟨⟨load, w⟩, loaded, lowered⟩ := except_bind_eq_ok.mp lowered
  obtain ⟨⟨code, w'⟩, loweredBody, eq⟩ := except_bind_eq_ok.mp lowered
  cases eq
  exact ⟨index, load, w, code, find_eq_ok.mp found, loadSlot_eq_ok loaded, loweredBody, rfl⟩

end Lambcalc.Emit
