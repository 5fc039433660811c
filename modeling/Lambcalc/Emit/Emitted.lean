import Lambcalc.Emit.Malloc

/-!
# The instructions of a function

What lowering has appended for a term (`Emitted`), in terms of the visitor that the function is left
with. If no name is entered twice, an operand that was read is still the one entered for its name,
and no two results have one number.
-/

namespace Lambcalc.Emit

open Anf Hoist Lib Lib.Ir LLVMLowerVisitor

/-! ## Numbers -/

/-- Names and slots stand for results of instructions that have been made. -/
structure Numbered (v : LLVMLowerVisitor) : Prop where
  named : ∀ x type id, v.namedValues x = some (.inst type id) → id < v.next
  slots : ∀ j type id, v.spillSlots j = some (.inst type id) → id < v.next

/-- `Γ` knows what `v` does, and other names under later numbers. -/
structure Later (v Γ : LLVMLowerVisitor) : Prop where
  keeps : Keeps v Γ
  next : v.next ≤ Γ.next
  named : ∀ x, Γ.namedValues x = v.namedValues x ∨ v.namedValues x = none ∧
    ∃ type id, Γ.namedValues x = some (.inst type id) ∧ v.next ≤ id

/-- The result with this number is none that a name or a slot stands for. -/
structure Temporary (Γ : LLVMLowerVisitor) (id : Nat) : Prop where
  named : ∀ x type, Γ.namedValues x ≠ some (.inst type id)
  slots : ∀ j type, Γ.spillSlots j ≠ some (.inst type id)

/-- The result with this number is the one that `name` stands for. -/
structure Defines (Γ : LLVMLowerVisitor) (name : Var) (id : Nat) : Prop where
  found : ∃ type, Γ.namedValues name = some (.inst type id)
  named : ∀ x type, Γ.namedValues x = some (.inst type id) → x = name
  slots : ∀ j type, Γ.spillSlots j ≠ some (.inst type id)

section Numbers

variable {v w Γ : LLVMLowerVisitor} {names : List Var} {name : Var}

theorem Later.refl (v : LLVMLowerVisitor) : Later v v := ⟨.refl v, le_rfl, fun _ => .inl rfl⟩

theorem Later.trans (first : Later v w) (second : Later w Γ) : Later v Γ where
  keeps := first.keeps.trans second.keeps
  next := first.next.trans second.next
  named x := by
    rcases second.named x with same | ⟨unknown, type, id, found, le⟩
    · rw [same]
      exact first.named x
    · rcases first.named x with same' | ⟨-, type', id', found', -⟩
      · exact .inr ⟨same' ▸ unknown, type, id, found, first.next.trans le⟩
      · cases unknown.symm.trans found'

/-- Entering new names keeps what is known. -/
theorem Enters.later (enters : Enters names v w) (new : ∀ x ∈ names, v.namedValues x = none) :
    Later v w where
  keeps := enters.keeps
  next := enters.next
  named x := by
    by_cases member : x ∈ names
    · obtain ⟨type, id, found, le, -⟩ := enters.new x member
      exact .inr ⟨new x member, type, id, found, le⟩
    · exact .inl (enters.others x member)

theorem Enters.numbered (enters : Enters names v w) (numbered : Numbered v) : Numbered w where
  named x type id found := by
    by_cases member : x ∈ names
    · obtain ⟨type', id', found', -, lt⟩ := enters.new x member
      cases found.symm.trans found'
      exact lt
    · exact (numbered.named x type id (enters.others x member ▸ found)).trans_le enters.next
  slots j type id found :=
    (numbered.slots j type id (enters.keeps.slots ▸ found)).trans_le enters.next

theorem Later.found (later : Later v Γ) {x : Var} {op : Operand}
    (found : v.namedValues x = some op) : Γ.namedValues x = some op := by
  rcases later.named x with same | ⟨unknown, -⟩
  · exact same.trans found
  · cases unknown.symm.trans found

theorem Later.reads (later : Later v Γ) {value : Value} {op : Operand} (reads : Reads v value op) :
    Reads Γ value op := by
  cases reads with
  | intValue => exact .intValue
  | varValue found => exact .varValue (later.found found)
  | address => exact .address
  | symbol => exact .symbol

/-- The results of further instructions are temporary, if no name was entered for them. -/
theorem temporary_of_skip (numbered : Numbered v) {count id : Nat} (later : Later (v.skip count) Γ)
    (le : v.next ≤ id) (lt : id < v.next + count) : Temporary Γ id where
  named x type found := by
    rcases later.named x with same | ⟨-, type', id', found', le'⟩
    · exact absurd (numbered.named x type id (same ▸ found)) (Nat.not_lt.mpr le)
    · cases found.symm.trans found'
      exact absurd le' (Nat.not_le.mpr lt)
  slots j type found :=
    absurd (numbered.slots j type id (later.keeps.slots ▸ found)) (Nat.not_lt.mpr le)

theorem defines_of_enter (numbered : Numbered v) {type : Ty}
    (later : Later (v.enter name type) Γ) : Defines Γ name v.next where
  found := ⟨type, later.found (Function.update_self _ _ _)⟩
  named x type' found := by
    by_contra other
    rcases later.named x with same | ⟨-, type'', id, found', le⟩
    · have before : v.namedValues x = some (.inst type' v.next) := by
        rw [← found, same]
        exact (Function.update_of_ne other _ _).symm
      exact absurd (numbered.named x type' _ before) (lt_irrefl _)
    · cases found.symm.trans found'
      exact absurd le (Nat.not_succ_le_self _)
  slots j type' found :=
    absurd (numbered.slots j type' _ (later.keeps.slots ▸ found)) (lt_irrefl _)

end Numbers

/-! ## Terms -/

/-- A cast of `op` to the pointer `ptr`. -/
inductive CastTo (Γ : LLVMLowerVisitor) (op : Operand) : Operand → List Instruction → Prop where
  | same : CastTo Γ op op []
  | cast {id : Nat} (temp : Temporary Γ id) : CastTo Γ op (.inst .ptr id) [⟨id, .intToPtr op⟩]

/-- The cells of the record that result `ptr` points to are filled, from cell number `i` on. -/
inductive Fills (Γ : LLVMLowerVisitor) (ptr : Nat) :
    Nat → List Value → List Instruction → Prop where
  | nil {i : Nat} : Fills Γ ptr i [] []
  | cons {i gep id : Nat} {value : Value} {values : List Value} {op : Operand}
      {code : List Instruction} (reads : Reads Γ value op) (temp : Temporary Γ gep)
      (ne : gep ≠ ptr) (fills : Fills Γ ptr (i + 1) values code) :
      Fills Γ ptr i (value :: values)
        (⟨gep, .gep (.inst .ptr ptr) i⟩ :: ⟨id, .store op (.inst .ptr gep)⟩ :: code)

/-- The code of a flat term. -/
inductive Emitted (Γ : LLVMLowerVisitor) : Exp → List Instruction → Prop where
  | haltExp {value : Value} {op : Operand} {id : Nat} (reads : Reads Γ value op) :
      Emitted Γ (.haltExp value) [⟨id, .ret op⟩]
  | jumpExp {joinName : Var} {block id : Nat} (target : Γ.namedBlocks joinName = some block) :
      Emitted Γ (.jumpExp joinName none) [⟨id, .br block⟩]
  | passExp {joinName : Var} {value : Value} {op slot : Operand} {block id id' : Nat}
      (target : Γ.namedBlocks joinName = some block) (found : Γ.spillSlots joinName = some slot)
      (reads : Reads Γ value op) :
      Emitted Γ (.jumpExp joinName (some value)) [⟨id, .store op slot⟩, ⟨id', .br block⟩]
  | appExp {name funName : Var} {paramValues : List Value} {rest : Exp} {fnPtrInt fn : Operand}
      {params : List Operand} {cast code : List Instruction} {id : Nat}
      (callee : Γ.namedValues funName = some fnPtrInt) (casts : CastTo Γ fnPtrInt fn cast)
      (reads : List.Forall₂ (Reads Γ) paramValues params) (defines : Defines Γ name id)
      (others : Emitted Γ rest code) :
      Emitted Γ (.appExp name funName paramValues rest)
        (cast ++ ⟨id, .call (getFunctionType paramValues) fn params⟩ :: code)
  | bopExp {name : Var} {bop : Ast.Bop} {param1 param2 : Value} {rest : Exp} {op1 op2 : Operand}
      {code : List Instruction} {id : Nat} (reads1 : Reads Γ param1 op1)
      (reads2 : Reads Γ param2 op2) (defines : Defines Γ name id) (others : Emitted Γ rest code) :
      Emitted Γ (.bopExp name bop param1 param2 rest) (⟨id, .binary (binaryOp bop) op1 op2⟩ :: code)
  | ifExp {cond : Value} {thenJoin elseJoin : Var} {op : Operand}
      {id id' thenBlock elseBlock : Nat} (reads : Reads Γ cond op) (temp : Temporary Γ id)
      (thenTarget : Γ.namedBlocks thenJoin = some thenBlock)
      (elseTarget : Γ.namedBlocks elseJoin = some elseBlock) :
      Emitted Γ (.ifExp cond (.jumpExp thenJoin none) (.jumpExp elseJoin none))
        [⟨id, .icmpNe op (.const 0)⟩, ⟨id', .condBr (.inst .i1 id) thenBlock elseBlock⟩]
  | tupleExp {name : Var} {values : List Value} {rest : Exp} {ptr id : Nat}
      {cells code : List Instruction}
      (known : Γ.module_.declared.lookup "malloc" = some mallocTy) (temp : Temporary Γ ptr)
      (defines : Defines Γ name id) (fills : Fills Γ ptr 0 values cells)
      (others : Emitted Γ rest code) :
      Emitted Γ (.tupleExp name values rest)
        (⟨ptr, .call mallocTy (.symbol "malloc") [.const (BitVec.ofNat 64 (values.length * 8))]⟩ ::
          ⟨id, .ptrToInt (.inst .ptr ptr)⟩ :: (cells ++ code))
  | projExp {name tuple : Var} {index : Nat} {rest : Exp} {tupleInt ptr : Operand}
      {cast code : List Instruction} {gep id : Nat}
      (found : Γ.namedValues tuple = some tupleInt) (casts : CastTo Γ tupleInt ptr cast)
      (temp : Temporary Γ gep) (defines : Defines Γ name id) (others : Emitted Γ rest code) :
      Emitted Γ (.projExp name tuple index rest)
        (cast ++ ⟨gep, .gep ptr index⟩ :: ⟨id, .load (.inst .ptr gep)⟩ :: code)

section Terms

variable {v w v' Γ : LLVMLowerVisitor}

theorem Casts.castTo {op ptr : Operand} {code : List Instruction}
    (casts : Casts v op ptr code w) (numbered : Numbered v) (later : Later w Γ) :
    CastTo Γ op ptr code := by
  cases casts with
  | same isPtr => exact .same
  | cast isInt =>
    exact .cast (temporary_of_skip numbered later le_rfl (Nat.lt_succ_self _))

theorem Stores.fills {ptr i : Nat} {values : List Value} {code : List Instruction}
    (stores : Stores (.inst .ptr ptr) v i values code w) (numbered : Numbered v)
    (before : ptr < v.next) (later : Later w Γ) : Fills Γ ptr i values code := by
  induction stores with
  | nil => exact .nil
  | @cons v w v' i value values op code reads only stores ih =>
    have next := only.next
    have skipped : Later (w.skip 2) Γ :=
      (stores.enters.later (List.forall_mem_nil _)).trans later
    have sofar := only.enters.trans (enters_skip w 2)
    have start := (sofar.later (List.forall_mem_nil _)).trans skipped
    refine .cons (start.reads reads) ?_ (by omega) (ih (sofar.numbered numbered) ?_ later)
    · exact temporary_of_skip (only.enters.numbered numbered) skipped le_rfl (by omega)
    · show ptr < w.next + 2
      omega

/-- A node that enters `name`, and the names that its rest enters. -/
theorem Enters.let_ {name : Var} {type : Ty} {names : List Var} (before : Enters [] v w)
    (after : Enters names (w.enter name type) v')
    (new : ∀ x ∈ name :: names, v.namedValues x = none) (nodup : (name :: names).Nodup)
    (later : Later v' Γ) :
    Later v w ∧ Later w (w.enter name type) ∧ Later (w.enter name type) Γ ∧
      ∀ x ∈ names, (w.enter name type).namedValues x = none := by
  obtain ⟨newHead, newTail⟩ := List.forall_mem_cons.mp new
  have same : w.namedValues = v.namedValues := funext fun x => before.others x List.not_mem_nil
  have newNames : ∀ x ∈ names, (w.enter name type).namedValues x = none := by
    intro x member
    have other : x ≠ name := fun eq => (List.nodup_cons.mp nodup).1 (eq ▸ member)
    exact (Function.update_of_ne other _ _).trans (same ▸ newTail x member)
  refine ⟨before.later (List.forall_mem_nil _), ?_, (after.later newNames).trans later, newNames⟩
  exact (enters_enter w name type).later (List.forall_mem_singleton.mpr (same ▸ newHead))

/-- What lowering a term appends, if it enters new names, each once. -/
theorem emitted_lowerExp {t : Exp} {last : Option Var} {code : List Instruction}
    (isFlat : flat t = true) (calls : projected last t = true)
    (known : ∀ x, last = some x → (v.namedValues x).isSome = true) (regular : Regular t)
    (free : MallocFree v.module_) (numbered : Numbered v)
    (new : ∀ x ∈ bindings t, v.namedValues x = none) (nodup : (bindings t).Nodup)
    (lowered : lowerExp t v = .ok (code, v')) (later : Later v' Γ) : Emitted Γ t code := by
  have unknown : ∀ {v : LLVMLowerVisitor} x, (none : Option Var) = some x →
      (v.namedValues x).isSome = true := fun _ eq => by cases eq
  induction t generalizing v code last with
  | haltExp value =>
    obtain ⟨op, w, reads, only, rfl, rfl⟩ := haltExp_eq_ok lowered
    have enters := only.enters.trans (enters_skip w 1)
    exact .haltExp (((enters.later (List.forall_mem_nil _)).trans later).reads reads)
  | funExp name params body rest => cases isFlat
  | joinExp name slot body rest => cases isFlat
  | jumpExp joinName slotValue =>
    cases slotValue with
    | none =>
      obtain ⟨block, found, rfl, rfl⟩ := jumpExp_none_eq_ok lowered
      exact .jumpExp (later.keeps.blocks ▸ found)
    | some value =>
      obtain ⟨block, slot, op, w, foundBlock, foundSlot, reads, only, rfl, rfl⟩ :=
        jumpExp_some_eq_ok lowered
      have enters := only.enters.trans (enters_skip w 2)
      have after := (enters.later (List.forall_mem_nil _)).trans later
      refine .passExp ?_ ?_ (after.reads reads)
      · rw [after.keeps.blocks]
        exact foundBlock
      · rw [after.keeps.slots]
        exact foundSlot
  | appExp name funName paramValues rest ih =>
    obtain ⟨called, callsRest⟩ := Bool.and_eq_true_iff.mp calls
    obtain ⟨fnPtrInt, found⟩ := Option.isSome_iff_exists.mp (known funName (beq_iff_eq.mp called))
    obtain ⟨first, w, codeRest, visited, loweredRest, rfl⟩ := let_eq_ok lowered
    have free' := free.appExp regular.1 _ visited
    obtain ⟨params, w₁, fn, cast, w₂, reads, only, casts, rfl, rfl⟩ := appExp_eq_ok found visited
    have before := only.enters.trans casts.enters
    have after := enters_lowerExp (t := rest) isFlat callsRest unknown loweredRest
    obtain ⟨first, second, third, newRest⟩ := before.let_ after new nodup later
    have all := first.trans (second.trans third)
    have numbered' := before.numbered numbered
    rw [List.append_assoc]
    refine .appExp (all.found found) ?_ (reads.imp fun _ _ reads => all.reads reads) ?_ ?_
    · exact casts.castTo (only.enters.numbered numbered) (second.trans third)
    · exact defines_of_enter numbered' third
    · exact ih isFlat callsRest unknown regular.2 free'
        ((enters_enter w₂ name _).numbered numbered')
        newRest (List.nodup_cons.mp nodup).2 loweredRest
  | bopExp name bop param1 param2 rest ih =>
    obtain ⟨first, w, codeRest, visited, loweredRest, rfl⟩ := let_eq_ok lowered
    have free' := free.bopExp regular.1 regular.2.1 _ visited
    obtain ⟨op1, op2, w₁, reads1, reads2, only, rfl, rfl⟩ := bopExp_eq_ok visited
    have after := enters_lowerExp (t := rest) isFlat calls unknown loweredRest
    obtain ⟨first, second, third, newRest⟩ := only.enters.let_ after new nodup later
    have all := first.trans (second.trans third)
    have numbered' := only.enters.numbered numbered
    refine .bopExp (all.reads reads1) (all.reads reads2) (defines_of_enter numbered' third) ?_
    exact ih isFlat calls unknown regular.2.2 free' ((enters_enter w₁ name _).numbered numbered')
      newRest (List.nodup_cons.mp nodup).2 loweredRest
  | ifExp cond thenBranch elseBranch =>
    obtain ⟨plainThen, plainElse⟩ := Bool.and_eq_true_iff.mp isFlat
    obtain ⟨thenJoin, rfl⟩ := isPlainJump_eq_true.mp plainThen
    obtain ⟨elseJoin, rfl⟩ := isPlainJump_eq_true.mp plainElse
    obtain ⟨op, w, thenBlock, elseBlock, reads, only, foundThen, foundElse, rfl, rfl⟩ :=
      visitIfJump_eq_ok lowered
    have enters := only.enters.trans (enters_skip w 2)
    have after := (enters.later (List.forall_mem_nil _)).trans later
    refine .ifExp (after.reads reads) ?_ ?_ ?_
    · exact temporary_of_skip (only.enters.numbered numbered) later le_rfl (by omega)
    · rw [after.keeps.blocks]
      exact foundThen
    · rw [after.keeps.blocks]
      exact foundElse
  | tupleExp name values rest ih =>
    obtain ⟨first, w, codeRest, visited, loweredRest, rfl⟩ := let_eq_ok lowered
    have free' := free.tupleExp (fun value member => (regular.1 value member).1) _ visited
    obtain ⟨cells, stores, rfl⟩ := tupleExp_eq_ok visited
    have before := (enters_getMalloc v).trans (enters_skip v.getMalloc 1)
    have afterStores := enters_lowerExp (t := rest) isFlat calls unknown loweredRest
    have after := stores.enters.trans afterStores
    obtain ⟨first, second, third, newRest⟩ := before.let_ after new nodup later
    have numbered' := before.numbered numbered
    have entered := enters_enter (v.getMalloc.skip 1) name .i64
    have newLast : ∀ x ∈ bindings rest, w.namedValues x = none := by
      intro x member
      rw [stores.enters.others x List.not_mem_nil]
      exact newRest x member
    rw [List.cons_append, List.cons_append]
    refine .tupleExp ?_ ?_ (defines_of_enter numbered' third) ?_ ?_
    · exact (second.trans third).keeps.declared _ _ free.getMalloc.2
    · exact temporary_of_skip ((enters_getMalloc v).numbered numbered) (second.trans third) le_rfl
        (Nat.lt_succ_self _)
    · refine stores.fills (entered.numbered numbered') ?_ ((afterStores.later newLast).trans later)
      show v.getMalloc.next < v.getMalloc.next + 1 + 1
      omega
    · exact ih isFlat calls unknown regular.2.2 free'
        ((entered.trans stores.enters).numbered numbered') newLast (List.nodup_cons.mp nodup).2
        loweredRest
  | projExp name tuple index rest ih =>
    obtain ⟨first, w, codeRest, visited, loweredRest, rfl⟩ := let_eq_ok lowered
    have free' := free.projExp _ visited
    obtain ⟨tupleInt, ptr, cast, w₁, found, casts, rfl, rfl⟩ := projExp_eq_ok visited
    have before := casts.enters.trans (enters_skip w₁ 1)
    have known' : ∀ x, some name = some x →
        (((w₁.skip 1).enter name .i64).namedValues x).isSome = true := by
      intro x eq
      cases eq
      simp [LLVMLowerVisitor.enter]
    have after := enters_lowerExp (t := rest) isFlat calls known' loweredRest
    obtain ⟨first, second, third, newRest⟩ := before.let_ after new nodup later
    have numbered' := before.numbered numbered
    rw [List.append_assoc]
    refine .projExp ((first.trans (second.trans third)).found found) ?_ ?_ ?_ ?_
    · exact casts.castTo numbered
        (((enters_skip w₁ 1).later (List.forall_mem_nil _)).trans (second.trans third))
    · exact temporary_of_skip (casts.enters.numbered numbered) (second.trans third) le_rfl
        (Nat.lt_succ_self _)
    · exact defines_of_enter numbered' third
    · exact ih isFlat calls known' regular free'
        ((enters_enter (w₁.skip 1) name _).numbered numbered') newRest (List.nodup_cons.mp nodup).2
        loweredRest

end Terms

end Lambcalc.Emit
