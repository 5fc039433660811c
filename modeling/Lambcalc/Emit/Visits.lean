import Lambcalc.Emit.Lookups
import Lambcalc.Hoist.Dominance

/-!
# What a visit does to the visitor

Visiting a term makes instructions with new numbers, and enters the names that the term binds under
such numbers. Whatever else the visitor has found stays.
-/

namespace Lambcalc.Emit

open Anf Hoist Lib Lib.Ir LLVMLowerVisitor

/-- The visitor goes on to `v'` and enters `names`. -/
structure Enters (names : List Var) (v v' : LLVMLowerVisitor) : Prop where
  keeps : Keeps v v'
  next : v.next ≤ v'.next
  others : ∀ x ∉ names, v'.namedValues x = v.namedValues x
  new : ∀ x ∈ names, ∃ type id, v'.namedValues x = some (.inst type id) ∧
    v.next ≤ id ∧ id < v'.next

section Enters

variable {v w v' : LLVMLowerVisitor} {names names' : List Var}

theorem Enters.trans (first : Enters names v w) (second : Enters names' w v') :
    Enters (names ++ names') v v' where
  keeps := first.keeps.trans second.keeps
  next := first.next.trans second.next
  others x notEntered := by
    obtain ⟨notFirst, notSecond⟩ := not_or.mp (mt List.mem_append.mpr notEntered)
    exact (second.others x notSecond).trans (first.others x notFirst)
  new x member := by
    by_cases inSecond : x ∈ names'
    · obtain ⟨type, id, found, le, lt⟩ := second.new x inSecond
      exact ⟨type, id, found, first.next.trans le, lt⟩
    · obtain ⟨type, id, found, le, lt⟩ :=
        first.new x ((List.mem_append.mp member).resolve_right inSecond)
      exact ⟨type, id, (second.others x inSecond).trans found, le, lt.trans_le second.next⟩

theorem enters_nil (keeps : Keeps v v') (next : v.next ≤ v'.next)
    (same : v'.namedValues = v.namedValues) : Enters [] v v' where
  keeps := keeps
  next := next
  others x _ := congrFun same x
  new := List.forall_mem_nil _

theorem enters_skip (v : LLVMLowerVisitor) (count : Nat) : Enters [] v (v.skip count) :=
  enters_nil (keeps_skip v count) (Nat.le_add_right _ _) rfl

theorem enters_enter (v : LLVMLowerVisitor) (name : Var) (type : Ty) :
    Enters [name] v (v.enter name type) where
  keeps := keeps_enter v name type
  next := Nat.le_succ _
  others x other := Function.update_of_ne (fun eq => other (List.mem_singleton.mpr eq)) _ _
  new x member := by
    cases List.mem_singleton.mp member
    exact ⟨type, v.next, Function.update_self _ _ _, le_rfl, Nat.lt_succ_self _⟩

theorem OnlyGlobals.enters (only : OnlyGlobals v v') : Enters [] v v' :=
  enters_nil only.keeps only.next.ge only.named

theorem Casts.enters {op ptr : Operand} {code : List Instruction}
    (casts : Casts v op ptr code v') : Enters [] v v' := by
  cases casts with
  | same isPtr => exact enters_nil (.refl v) le_rfl rfl
  | cast isInt => exact enters_skip v 1

theorem Stores.enters {ptr : Operand} {i : Nat} {values : List Value} {code : List Instruction}
    (stores : Stores ptr v i values code v') : Enters [] v v' := by
  induction stores with
  | nil => exact enters_nil (.refl _) le_rfl rfl
  | cons _ only _ ih => exact (only.enters.trans (enters_skip _ 2)).trans ih

theorem enters_getMalloc (v : LLVMLowerVisitor) : Enters [] v v.getMalloc := by
  refine enters_nil (keeps_getMalloc v).1 (Nat.le_of_eq ?_) (keeps_getMalloc v).2
  unfold getMalloc
  split <;> rfl

/-- Lowering a term enters the names that it binds. -/
theorem enters_lowerExp {t : Exp} {last : Option Var} {code : List Instruction}
    (isFlat : flat t = true) (calls : projected last t = true)
    (known : ∀ x, last = some x → (v.namedValues x).isSome = true)
    (lowered : lowerExp t v = .ok (code, v')) : Enters (bindings t) v v' := by
  have unknown : ∀ {v : LLVMLowerVisitor} x, (none : Option Var) = some x →
      (v.namedValues x).isSome = true := fun _ eq => by cases eq
  induction t generalizing v code last with
  | haltExp value =>
    obtain ⟨op, w, -, only, -, rfl⟩ := haltExp_eq_ok lowered
    exact only.enters.trans (enters_skip w 1)
  | funExp name params body rest => cases isFlat
  | joinExp name slot body rest => cases isFlat
  | jumpExp joinName slotValue =>
    cases slotValue with
    | none =>
      obtain ⟨block, -, -, rfl⟩ := jumpExp_none_eq_ok lowered
      exact enters_skip v 1
    | some value =>
      obtain ⟨block, slot, op, w, -, -, -, only, -, rfl⟩ := jumpExp_some_eq_ok lowered
      exact only.enters.trans (enters_skip w 2)
  | appExp name funName paramValues rest ih =>
    obtain ⟨called, callsRest⟩ := Bool.and_eq_true_iff.mp calls
    obtain ⟨fnPtrInt, found⟩ := Option.isSome_iff_exists.mp (known funName (beq_iff_eq.mp called))
    obtain ⟨first, w, codeRest, visited, loweredRest, -⟩ := let_eq_ok lowered
    obtain ⟨params, w₁, fn, cast, w₂, -, only, casts, -, rfl⟩ := appExp_eq_ok found visited
    exact ((only.enters.trans casts.enters).trans (enters_enter w₂ name .i64)).trans
      (ih isFlat callsRest unknown loweredRest)
  | bopExp name bop param1 param2 rest ih =>
    obtain ⟨first, w, codeRest, visited, loweredRest, -⟩ := let_eq_ok lowered
    obtain ⟨op1, op2, w₁, -, -, only, -, rfl⟩ := bopExp_eq_ok visited
    exact (only.enters.trans (enters_enter w₁ name _)).trans
      (ih isFlat calls unknown loweredRest)
  | ifExp cond thenBranch elseBranch =>
    obtain ⟨plainThen, plainElse⟩ := Bool.and_eq_true_iff.mp isFlat
    obtain ⟨thenJoin, rfl⟩ := isPlainJump_eq_true.mp plainThen
    obtain ⟨elseJoin, rfl⟩ := isPlainJump_eq_true.mp plainElse
    obtain ⟨op, w, thenBlock, elseBlock, -, only, -, -, -, rfl⟩ := visitIfJump_eq_ok lowered
    exact only.enters.trans (enters_skip w 2)
  | tupleExp name values rest ih =>
    obtain ⟨first, w, codeRest, visited, loweredRest, -⟩ := let_eq_ok lowered
    obtain ⟨cells, stores, -⟩ := tupleExp_eq_ok visited
    have node := (((enters_getMalloc v).trans (enters_skip _ 1)).trans
      (enters_enter _ name .i64)).trans stores.enters
    exact node.trans (ih isFlat calls unknown loweredRest)
  | projExp name tuple index rest ih =>
    obtain ⟨first, w, codeRest, visited, loweredRest, -⟩ := let_eq_ok lowered
    obtain ⟨tupleInt, ptr, cast, w₁, -, casts, -, rfl⟩ := projExp_eq_ok visited
    have node := (casts.enters.trans (enters_skip w₁ 1)).trans
      (enters_enter (w₁.skip 1) name .i64)
    refine node.trans (ih isFlat calls (fun x eq => ?_) loweredRest)
    cases eq
    simp [LLVMLowerVisitor.enter]

/-! ## Blocks -/

theorem Loads.enters {b : Join} {code : List Instruction} (loads : Loads v b code v') :
    Enters b.slot.toList v v' := by
  cases loads with
  | none slot =>
    rw [slot]
    exact enters_nil (.refl v) le_rfl rfl
  | some slot found =>
    rw [slot]
    exact enters_enter v _ .i64

theorem enters_lowerBlock {b : Join} {body body' : Body} (isFlat : flat b.body = true)
    (calls : projected none b.body = true)
    (lowered : lowerBlock (body, v) b = .ok (body', v')) : Enters b.bound v v' := by
  obtain ⟨index, load, w, code, -, loads, loweredBody, -⟩ := lowerBlock_eq_ok lowered
  exact loads.enters.trans (enters_lowerExp isFlat calls (fun _ eq => by cases eq) loweredBody)

theorem enters_blocks {blocks : List Join} {body body' : Body}
    (isFlat : ∀ b ∈ blocks, flat b.body = true)
    (calls : ∀ b ∈ blocks, projected none b.body = true)
    (lowered : blocks.foldlM lowerBlock (body, v) = .ok (body', v')) :
    Enters (boundBy blocks) v v' := by
  induction blocks generalizing body v with
  | nil =>
    cases lowered
    exact enters_nil (.refl _) le_rfl rfl
  | cons b blocks ih =>
    obtain ⟨flatHead, flatTail⟩ := List.forall_mem_cons.mp isFlat
    obtain ⟨callsHead, callsTail⟩ := List.forall_mem_cons.mp calls
    rw [List.foldlM_cons] at lowered
    obtain ⟨⟨body₁, v₁⟩, first, others⟩ := except_bind_eq_ok.mp lowered
    exact (enters_lowerBlock flatHead callsHead first).trans (ih flatTail callsTail others)

/-! ## Functions -/

theorem prepare_module {M : Module} {fn : Function} {allocas : List Instruction}
    (prepared : prepare M fn = .ok (allocas, v)) : v.module_ = M := by
  obtain ⟨type, -, prepared⟩ := except_bind_eq_ok.mp prepared
  obtain ⟨named, -, eq⟩ := except_bind_eq_ok.mp prepared
  cases eq
  exact (createBlocks_enters fn.blocks 1 _).2.1

theorem lowerFunction_eq_ok {M M' : Module} {fn : Function} (lowerable : Lowerable fn)
    (lowered : lowerFunction M fn = .ok M') :
    ∃ allocas v code w body v', prepare M fn = .ok (allocas, v) ∧
      lowerExp fn.entryBlock.body v = .ok (code, w) ∧ Enters (bindings fn.entryBlock.body) v w ∧
      fn.blocks.foldlM lowerBlock ((allocas ++ code) :: fn.blocks.map fun _ => [], w) =
        .ok (body, v') ∧ Enters (boundBy fn.blocks) w v' ∧
      M' = { v'.module_ with bodies := M.bodies ++ [(fn.name, body)] } := by
  obtain ⟨⟨allocas, v⟩, prepared, lowered⟩ := except_bind_eq_ok.mp lowered
  obtain ⟨⟨code, w⟩, entry, lowered⟩ := except_bind_eq_ok.mp lowered
  obtain ⟨⟨body, v'⟩, blocks, eq⟩ := except_bind_eq_ok.mp lowered
  cases eq
  obtain ⟨flatEntry, flats⟩ := List.forall_mem_cons.mp lowerable.flat
  obtain ⟨callsEntry, calls⟩ := List.forall_mem_cons.mp lowerable.calls
  have entersEntry := enters_lowerExp flatEntry callsEntry (fun _ eq => by cases eq) entry
  have entersBlocks := enters_blocks flats calls blocks
  refine ⟨allocas, v, code, w, body, v', prepared, entry, entersEntry, blocks, entersBlocks, ?_⟩
  rw [entersBlocks.keeps.bodies, entersEntry.keeps.bodies, prepare_module prepared]

/-- Lowering a function keeps those that are declared. -/
theorem declared_lowerFunction {M M' : Module} {fn : Function} (lowerable : Lowerable fn)
    (lowered : lowerFunction M fn = .ok M') {name : Var} {type : FunctionType}
    (declared : M.declared.lookup name = some type) : M'.declared.lookup name = some type := by
  obtain ⟨allocas, v, code, w, body, v', prepared, -, entersEntry, -, entersBlocks, rfl⟩ :=
    lowerFunction_eq_ok lowerable lowered
  apply (entersEntry.keeps.trans entersBlocks.keeps).declared
  rwa [prepare_module prepared]

end Enters

end Lambcalc.Emit
