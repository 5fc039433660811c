import Lambcalc.Emit.Typing
import Lambcalc.Lower.Correct

/-!
# Programs without applications

A closed program is turned into functions that lowering accepts. The instructions it appends are
well typed only if no function applies anything: closure conversion passes the callee's record
first, which is an integer, and a closure parameter is only projected from.
-/

namespace Lambcalc.Ast.Exp

/-- `e` applies something. -/
def applies : Exp → Bool
  | intExp _ => false
  | varExp _ => false
  | lamExp _ body => body.applies
  | appExp _ _ => true
  | bopExp _ arg1 arg2 => arg1.applies || arg2.applies
  | ifExp cond then_ els => cond.applies || then_.applies || els.applies

theorem applies_relabel (label : String → Nat → String) (e : Exp) (σ : String → String) (i : Nat) :
    (e.relabel label σ i).applies = e.applies := by
  induction e generalizing σ i with
  | intExp value => rfl
  | varExp name => rfl
  | lamExp param body ih => exact ih ..
  | appExp fn arg _ _ => rfl
  | bopExp bop arg1 arg2 ih1 ih2 => simp only [relabel, applies, ih1, ih2]
  | ifExp cond then_ els ihCond ihThen ihEls => simp only [relabel, applies, ihCond, ihThen, ihEls]

theorem mem_nodes_appExp (e : Exp) : .appExp ∈ e.nodes ↔ e.applies = true := by
  induction e with
  | intExp value => simp [nodes, applies]
  | varExp name => simp [nodes, applies]
  | lamExp param body ih => simpa [nodes, applies] using ih
  | appExp fn arg _ _ => simp [nodes, applies]
  | bopExp bop arg1 arg2 ih1 ih2 => simp [nodes, applies, ih1, ih2]
  | ifExp cond then_ els ihCond ihThen ihEls =>
    simp [nodes, applies, ihCond, ihThen, ihEls, or_assoc]

end Lambcalc.Ast.Exp

namespace Lambcalc.Emit

open Anf Hoist Lib.Ir
open Lambcalc.Convert (functions functions_captures isAnf isAnfValue Inserted Mentions)

/-! ## Labels in cells -/

/-- If labels are only in the cells of records, they still are in the blocks a term is split
into. -/
theorem Splits.labelsInCells {t left : Exp} {split : List Join} (splits : Splits t left split)
    (cells : labelsInCells t = true) :
    labelsInCells left = true ∧ ∀ b ∈ split, labelsInCells b.body = true := by
  induction splits with
  | haltExp => exact ⟨cells, List.forall_mem_nil _⟩
  | jumpExp => exact ⟨cells, List.forall_mem_nil _⟩
  | funExp _ ih => exact ih (Bool.and_eq_true_iff.mp cells).2
  | joinExp _ _ ihBody ih =>
    obtain ⟨cellsBody, cellsRest⟩ := Bool.and_eq_true_iff.mp cells
    obtain ⟨leftBody, inner⟩ := ihBody cellsBody
    obtain ⟨left, blocks⟩ := ih cellsRest
    exact ⟨left, List.forall_mem_append.mpr
      ⟨inner, List.forall_mem_cons.mpr ⟨leftBody, blocks⟩⟩⟩
  | appExp _ ih =>
    obtain ⟨anf, cellsRest⟩ := Bool.and_eq_true_iff.mp cells
    obtain ⟨left, blocks⟩ := ih cellsRest
    exact ⟨Bool.and_eq_true_iff.mpr ⟨anf, left⟩, blocks⟩
  | bopExp _ ih =>
    obtain ⟨anf, cellsRest⟩ := Bool.and_eq_true_iff.mp cells
    obtain ⟨left, blocks⟩ := ih cellsRest
    exact ⟨Bool.and_eq_true_iff.mpr ⟨anf, left⟩, blocks⟩
  | ifExp _ _ _ _ ihThen ihElse =>
    obtain ⟨cellsThen, cellsElse⟩ := Bool.and_eq_true_iff.mp cells
    obtain ⟨anf, cellsThen⟩ := Bool.and_eq_true_iff.mp cellsThen
    obtain ⟨leftThen, innerThen⟩ := ihThen cellsThen
    obtain ⟨leftElse, innerElse⟩ := ihElse cellsElse
    refine ⟨?_, List.forall_mem_append.mpr ⟨List.forall_mem_append.mpr ⟨innerThen, innerElse⟩,
      List.forall_mem_cons.mpr ⟨leftThen, List.forall_mem_singleton.mpr leftElse⟩⟩⟩
    exact Bool.and_eq_true_iff.mpr ⟨Bool.and_eq_true_iff.mpr ⟨anf, rfl⟩, rfl⟩
  | tupleExp _ ih => exact ih cells
  | projExp _ ih => exact ih cells

/-- The functions of a term have labels only in the cells of records, as the term has. -/
theorem labelsInCells_functions {t : Exp} (cells : labelsInCells t = true) :
    ∀ f ∈ functions t, labelsInCells f.2.2 = true := by
  induction t with
  | haltExp value => exact List.forall_mem_nil _
  | jumpExp joinName slotValue => exact List.forall_mem_nil _
  | funExp name params body rest ihBody ihRest =>
    obtain ⟨cellsBody, cellsRest⟩ := Bool.and_eq_true_iff.mp cells
    exact List.forall_mem_cons.mpr
      ⟨cellsBody, List.forall_mem_append.mpr ⟨ihBody cellsBody, ihRest cellsRest⟩⟩
  | joinExp name slot body rest ihBody ihRest =>
    obtain ⟨cellsBody, cellsRest⟩ := Bool.and_eq_true_iff.mp cells
    exact List.forall_mem_append.mpr ⟨ihBody cellsBody, ihRest cellsRest⟩
  | appExp name funName paramValues rest ih => exact ih (Bool.and_eq_true_iff.mp cells).2
  | bopExp name bop param1 param2 rest ih => exact ih (Bool.and_eq_true_iff.mp cells).2
  | ifExp cond thenBranch elseBranch ihThen ihElse =>
    obtain ⟨cellsThen, cellsElse⟩ := Bool.and_eq_true_iff.mp cells
    exact List.forall_mem_append.mpr
      ⟨ihThen (Bool.and_eq_true_iff.mp cellsThen).2, ihElse cellsElse⟩
  | tupleExp name values rest ih => exact ih cells
  | projExp name tuple index rest ih => exact ih cells

theorem labelsInCells_captures (closureParam : Var) (vars : List Var) (i : Nat) (body : Exp) :
    labelsInCells (captures closureParam vars i body) = labelsInCells body := by
  induction vars generalizing i body with
  | nil => rfl
  | cons var vars ih => exact ih ..

/-- Closure conversion puts labels into the records of closures only. -/
theorem labelsInCells_close {t : Exp} (anf : isAnf t = true) (c : Nat) :
    labelsInCells (t.close c).1 = true := by
  induction t generalizing c with
  | haltExp value => exact anf
  | jumpExp joinName slotValue => rfl
  | funExp name params body rest ihBody ihRest =>
    obtain ⟨anfBody, anfRest⟩ := Bool.and_eq_true_iff.mp anf
    rw [Exp.close_funExp]
    refine Bool.and_eq_true_iff.mpr ⟨?_, ihRest anfRest _⟩
    rw [labelsInCells_captures]
    exact ihBody anfBody _
  | joinExp name slot body rest ihBody ihRest =>
    obtain ⟨anfBody, anfRest⟩ := Bool.and_eq_true_iff.mp anf
    rw [Exp.close_joinExp]
    exact Bool.and_eq_true_iff.mpr ⟨ihBody anfBody _, ihRest anfRest _⟩
  | appExp name funName paramValues rest ih =>
    obtain ⟨anfValues, anfRest⟩ := Bool.and_eq_true_iff.mp anf
    exact Bool.and_eq_true_iff.mpr ⟨anfValues, ih anfRest (c + 1)⟩
  | bopExp name bop param1 param2 rest ih =>
    obtain ⟨anfValues, anfRest⟩ := Bool.and_eq_true_iff.mp anf
    exact Bool.and_eq_true_iff.mpr ⟨anfValues, ih anfRest c⟩
  | ifExp cond thenBranch elseBranch ihThen ihElse =>
    obtain ⟨anfThen, anfElse⟩ := Bool.and_eq_true_iff.mp anf
    obtain ⟨anfCond, anfThen⟩ := Bool.and_eq_true_iff.mp anfThen
    rw [Exp.close_ifExp]
    exact Bool.and_eq_true_iff.mpr
      ⟨Bool.and_eq_true_iff.mpr ⟨anfCond, ihThen anfThen _⟩, ihElse anfElse _⟩
  | tupleExp name values rest ih => cases anf
  | projExp name tuple index rest ih => cases anf

/-! ## The functions of a program -/

theorem labels_close (t : Exp) (c : Nat) : labels (t.close c).1 = labels t := by
  unfold labels
  induction t generalizing c with
  | haltExp value => rfl
  | jumpExp joinName slotValue => rfl
  | funExp name params body rest ihBody ihRest =>
    rw [Exp.close_funExp, functions, functions_captures, functions, functions, List.map_cons,
      List.map_cons, List.map_append, List.map_append, ihBody, ihRest]
  | joinExp name slot body rest ihBody ihRest =>
    rw [Exp.close_joinExp, functions, functions, List.map_append, List.map_append, ihBody, ihRest]
  | appExp name funName paramValues rest ih => exact ih _
  | bopExp name bop param1 param2 rest ih => exact ih _
  | ifExp cond thenBranch elseBranch ihThen ihElse =>
    rw [Exp.close_ifExp, functions, functions, List.map_append, List.map_append, ihThen, ihElse]
  | tupleExp name values rest ih => exact ih _
  | projExp name tuple index rest ih => exact ih _

theorem labels_introduced (t : Exp) : (labels t).Sublist t.introduced := by
  unfold labels
  induction t with
  | haltExp value => exact .slnil
  | jumpExp joinName slotValue => exact .slnil
  | funExp name params body rest ihBody ihRest =>
    rw [functions, List.map_cons, List.map_append]
    exact (ihBody.append ihRest).cons_cons _
  | joinExp name slot body rest ihBody ihRest =>
    rw [functions, List.map_append, Exp.introduced, List.append_assoc]
    exact ((ihBody.append ihRest).trans (List.sublist_append_right ..)).cons _
  | appExp name funName paramValues rest ih => exact ih.cons _
  | bopExp name bop param1 param2 rest ih => exact ih.cons _
  | ifExp cond thenBranch elseBranch ihThen ihElse =>
    rw [functions, List.map_append]
    exact ihThen.append ihElse
  | tupleExp name values rest ih => exact ih.cons _
  | projExp name tuple index rest ih => exact ih.cons _

theorem tmp_ne_main (i : Nat) : tmp i ≠ "main" := by
  intro eq
  have heads := congrArg (fun s : String => s.toList.head?) eq
  simp [tmp] at heads

/-- The functions that a converted expression is turned into, each made of one of its functions. -/
theorem hoisted_closureConvert {e : Ast.Exp} {n m : Nat} {t : Exp}
    (ran : convertDefunc e n = .ok (t, m)) :
    List.Forall₂ Hoisted (postorder (closureConvert t) ++ [("main", [], closureConvert t)])
        (hoist (closureConvert t)) ∧ ((hoist (closureConvert t)).map Function.name).Nodup := by
  have converts : convert e n = .ok (t, m) := convertDefunc_eq_ok.mp ran
  have nodup := nodup_introduced_convert converts
  obtain ⟨jumps, jumpsFun⟩ := jumpsInScope_close (joined_convert converts) 0
  have isTmp : ∀ x ∈ t.introduced, ∃ i, tmp i = x := by
    intro x member
    obtain ⟨i, -, eq⟩ := List.mem_map.mp ((introduced_convert converts).mem_iff.mp member)
    exact ⟨i, eq⟩
  refine ⟨hoisted_program ?_ ?_ (List.forall_mem_cons.mpr ⟨jumps, jumpsFun⟩), nodup_hoist ?_ ?_⟩
  all_goals unfold closureConvert
  · rw [joinNames_close]
    exact nodup.sublist (joinNames_introduced t)
  · rw [joinNames_close]
    intro x member
    obtain ⟨i, rfl⟩ := isTmp x ((joinNames_introduced t).subset member)
    exact not_generated_tmp i
  · rw [labels_close]
    exact nodup.sublist (labels_introduced t)
  · rw [labels_close]
    intro member
    obtain ⟨i, eq⟩ := isTmp _ ((labels_introduced t).subset member)
    exact tmp_ne_main i eq

/-- What becomes of a function is lowered. -/
theorem Hoisted.labelsInCells {f : Var × List Var × Exp} {fn : Function} (hoisted : Hoisted f fn)
    (cells : labelsInCells f.2.2 = true) :
    ∀ b ∈ fn.entryBlock :: fn.blocks, labelsInCells b.body = true :=
  List.forall_mem_cons.mpr (Splits.labelsInCells hoisted.splits cells)

/-! ## Applications -/

/-- `t` applies something, outside the functions it contains. -/
def applies : Exp → Bool
  | .haltExp _ => false
  | .funExp _ _ _ rest => applies rest
  | .joinExp _ _ body rest => applies body || applies rest
  | .jumpExp _ _ => false
  | .appExp _ _ _ _ => true
  | .bopExp _ _ _ _ rest => applies rest
  | .ifExp _ thenBranch elseBranch => applies thenBranch || applies elseBranch
  | .tupleExp _ _ rest => applies rest
  | .projExp _ _ _ rest => applies rest

/-- Outside the functions it contains, `t` applies functions to at least one argument, and does not
read `pointer`, except for cells and slots and to project from it. -/
def avoids (pointer : Option Var) : Exp → Bool
  | .haltExp value => !isPointer pointer value
  | .funExp _ _ _ rest => avoids pointer rest
  | .joinExp _ _ body rest => avoids pointer body && avoids pointer rest
  | .jumpExp _ _ => true
  | .appExp _ _ paramValues rest =>
    !paramValues.isEmpty && paramValues.all (fun value => !isPointer pointer value) &&
      avoids pointer rest
  | .bopExp _ _ param1 param2 rest =>
    !isPointer pointer param1 && !isPointer pointer param2 && avoids pointer rest
  | .ifExp cond thenBranch elseBranch =>
    !isPointer pointer cond && avoids pointer thenBranch && avoids pointer elseBranch
  | .tupleExp _ _ rest => avoids pointer rest
  | .projExp _ _ _ rest => avoids pointer rest

/-- The pointer may have been forgotten. -/
def Fades (pointer pointer' : Option Var) : Prop := pointer' = pointer ∨ pointer' = none

theorem fades_rebind (pointer : Option Var) (name : Var) : Fades pointer (rebind pointer name) := by
  unfold rebind
  split
  · exact .inr rfl
  · exact .inl rfl

theorem Fades.trans {p₁ p₂ p₃ : Option Var} (first : Fades p₁ p₂) (second : Fades p₂ p₃) :
    Fades p₁ p₃ := by
  rcases second with rfl | rfl
  · exact first
  · exact .inr rfl

theorem isPointer_none (value : Value) : isPointer none value = false := by
  cases value <;> rfl

/-- What avoids a pointer still does when the pointer is forgotten. -/
theorem Fades.avoids {pointer pointer' : Option Var} (fades : Fades pointer pointer') {t : Exp}
    (apart : avoids pointer t = true) : Emit.avoids pointer' t = true := by
  rcases fades with rfl | rfl
  · exact apart
  · induction t with
    | haltExp value => rw [Emit.avoids, isPointer_none]; rfl
    | jumpExp joinName slotValue => rfl
    | funExp name params body rest _ ih => exact ih apart
    | joinExp name slot body rest ihBody ih =>
      obtain ⟨body, rest⟩ := Bool.and_eq_true_iff.mp apart
      exact Bool.and_eq_true_iff.mpr ⟨ihBody body, ih rest⟩
    | appExp name funName paramValues rest ih =>
      obtain ⟨args, rest⟩ := Bool.and_eq_true_iff.mp apart
      refine Bool.and_eq_true_iff.mpr ⟨?_, ih rest⟩
      refine Bool.and_eq_true_iff.mpr ⟨(Bool.and_eq_true_iff.mp args).1, ?_⟩
      simp [isPointer_none]
    | bopExp name bop param1 param2 rest ih =>
      rw [Emit.avoids, isPointer_none, isPointer_none]
      exact ih (Bool.and_eq_true_iff.mp apart).2
    | ifExp cond thenBranch elseBranch ihThen ihElse =>
      obtain ⟨then_, else_⟩ := Bool.and_eq_true_iff.mp apart
      rw [Emit.avoids, isPointer_none]
      exact Bool.and_eq_true_iff.mpr ⟨ihThen (Bool.and_eq_true_iff.mp then_).2, ihElse else_⟩
    | tupleExp name values rest ih => exact ih apart
    | projExp name tuple index rest ih => exact ih apart

/-- The types of a flat term that avoids the pointer agree, if it applies nothing. -/
theorem types_of_avoids {t : Exp} {pointer : Option Var} (isFlat : flat t = true)
    (apart : avoids pointer t = true) :
    (typesExp t pointer).isSome = !applies t ∧
      ∀ pointer', typesExp t pointer = some pointer' → Fades pointer pointer' := by
  have stays : ∀ {p p' : Option Var}, some p = some p' → Fades p p' :=
    fun eq => .inl (Option.some.inj eq).symm
  induction t generalizing pointer with
  | haltExp value =>
    rw [typesExp, (Bool.not_eq_true' _).mp apart]
    exact ⟨rfl, fun _ => stays⟩
  | funExp name params body rest => cases isFlat
  | joinExp name slot body rest => cases isFlat
  | jumpExp joinName slotValue => exact ⟨rfl, fun _ => stays⟩
  | appExp name funName paramValues rest =>
    obtain ⟨args, -⟩ := Bool.and_eq_true_iff.mp apart
    have untyped : argsTyped pointer paramValues = false := by
      cases paramValues with
      | nil => cases args
      | cons value values =>
        have first := (Bool.and_eq_true_iff.mp (Bool.and_eq_true_iff.mp args).2).1
        rw [argsTyped, (Bool.not_eq_true' _).mp first, Bool.false_and]
    rw [typesExp, untyped]
    exact ⟨rfl, fun _ eq => by cases eq⟩
  | bopExp name bop param1 param2 rest ih =>
    obtain ⟨params, others⟩ := Bool.and_eq_true_iff.mp apart
    have fades := fades_rebind pointer name
    obtain ⟨typed, later⟩ := ih isFlat (fades.avoids others)
    rw [typesExp, params]
    exact ⟨typed, fun _ eq => fades.trans (later _ eq)⟩
  | ifExp cond thenBranch elseBranch =>
    obtain ⟨plainThen, plainElse⟩ := Bool.and_eq_true_iff.mp isFlat
    obtain ⟨thenJoin, rfl⟩ := isPlainJump_eq_true.mp plainThen
    obtain ⟨elseJoin, rfl⟩ := isPlainJump_eq_true.mp plainElse
    obtain ⟨isInt, -⟩ := Bool.and_eq_true_iff.mp (Bool.and_eq_true_iff.mp apart).1
    rw [typesExp, (Bool.not_eq_true' _).mp isInt]
    exact ⟨rfl, fun _ => stays⟩
  | tupleExp name values rest ih =>
    have fades := fades_rebind pointer name
    obtain ⟨typed, later⟩ := ih isFlat (fades.avoids apart)
    exact ⟨typed, fun _ eq => fades.trans (later _ eq)⟩
  | projExp name tuple index rest ih =>
    have fades := fades_rebind pointer name
    obtain ⟨typed, later⟩ := ih isFlat (fades.avoids apart)
    exact ⟨typed, fun _ eq => fades.trans (later _ eq)⟩

/-- Splitting a term into blocks loses no application. -/
theorem Splits.applies {t left : Exp} {split : List Join} (splits : Splits t left split) :
    applies t = (applies left || split.any fun b => applies b.body) := by
  induction splits with
  | haltExp => rfl
  | jumpExp => rfl
  | funExp _ ih => exact ih
  | joinExp _ _ ihBody ih =>
    simp only [Emit.applies, ihBody, ih, List.any_append, List.any_cons]
    ac_rfl
  | appExp _ ih => rfl
  | bopExp _ ih => exact ih
  | ifExp _ _ _ _ ihThen ihElse =>
    simp only [Emit.applies, ihThen, ihElse, List.any_append, List.any_cons, List.any_nil,
      Bool.or_false, Bool.false_or]
    ac_rfl
  | tupleExp _ ih => exact ih
  | projExp _ ih => exact ih

/-- If a term avoids the pointer, the blocks it is split into do. -/
theorem Splits.avoids {t left : Exp} {split : List Join} {pointer : Option Var}
    (splits : Splits t left split) (apart : avoids pointer t = true) :
    avoids pointer left = true ∧ ∀ b ∈ split, Emit.avoids pointer b.body = true := by
  induction splits with
  | haltExp => exact ⟨apart, List.forall_mem_nil _⟩
  | jumpExp => exact ⟨apart, List.forall_mem_nil _⟩
  | funExp _ ih => exact ih apart
  | joinExp _ _ ihBody ih =>
    obtain ⟨apartBody, apartRest⟩ := Bool.and_eq_true_iff.mp apart
    obtain ⟨leftBody, inner⟩ := ihBody apartBody
    obtain ⟨left, blocks⟩ := ih apartRest
    exact ⟨left, List.forall_mem_append.mpr
      ⟨inner, List.forall_mem_cons.mpr ⟨leftBody, blocks⟩⟩⟩
  | appExp _ ih =>
    obtain ⟨args, apartRest⟩ := Bool.and_eq_true_iff.mp apart
    obtain ⟨left, blocks⟩ := ih apartRest
    exact ⟨Bool.and_eq_true_iff.mpr ⟨args, left⟩, blocks⟩
  | bopExp _ ih =>
    obtain ⟨params, apartRest⟩ := Bool.and_eq_true_iff.mp apart
    obtain ⟨left, blocks⟩ := ih apartRest
    exact ⟨Bool.and_eq_true_iff.mpr ⟨params, left⟩, blocks⟩
  | ifExp _ _ _ _ ihThen ihElse =>
    obtain ⟨apartThen, apartElse⟩ := Bool.and_eq_true_iff.mp apart
    obtain ⟨isInt, apartThen⟩ := Bool.and_eq_true_iff.mp apartThen
    obtain ⟨leftThen, innerThen⟩ := ihThen apartThen
    obtain ⟨leftElse, innerElse⟩ := ihElse apartElse
    refine ⟨?_, List.forall_mem_append.mpr ⟨List.forall_mem_append.mpr ⟨innerThen, innerElse⟩,
      List.forall_mem_cons.mpr ⟨leftThen, List.forall_mem_singleton.mpr leftElse⟩⟩⟩
    exact Bool.and_eq_true_iff.mpr ⟨Bool.and_eq_true_iff.mpr ⟨isInt, rfl⟩, rfl⟩
  | tupleExp _ ih => exact ih apart
  | projExp _ ih => exact ih apart

theorem isSome_bind {α β : Type} {x : Option α} {next : α → Option β} {fails fails' : Bool}
    (first : x.isSome = !fails) (second : ∀ a, x = some a → (next a).isSome = !fails') :
    (x >>= next).isSome = !(fails || fails') := by
  cases x with
  | none =>
    rw [(Bool.not_eq_false' _).mp first.symm]
    rfl
  | some a =>
    rw [(Bool.not_eq_true' _).mp first.symm, Bool.false_or]
    exact second a rfl

theorem types_of_blocks {blocks : List Join} {pointer : Option Var}
    (isFlat : ∀ b ∈ blocks, flat b.body = true)
    (apart : ∀ b ∈ blocks, avoids pointer b.body = true) :
    (blocks.foldlM typesBlock pointer).isSome = !blocks.any fun b => applies b.body := by
  induction blocks generalizing pointer with
  | nil => rfl
  | cons b blocks ih =>
    obtain ⟨flatHead, flatTail⟩ := List.forall_mem_cons.mp isFlat
    obtain ⟨apartHead, apartTail⟩ := List.forall_mem_cons.mp apart
    have start : Fades pointer (b.slot.elim pointer (rebind pointer)) := by
      cases b.slot with
      | none => exact .inl rfl
      | some name => exact fades_rebind pointer name
    obtain ⟨typed, later⟩ := types_of_avoids flatHead (start.avoids apartHead)
    rw [List.foldlM_cons, List.any_cons]
    apply isSome_bind typed
    intro pointer' types
    have fades := start.trans (later pointer' types)
    exact ih flatTail fun b member => fades.avoids (apartTail b member)

/-- The types of a function that avoids its closure parameter agree, if it applies nothing. -/
theorem typesFunction_of_avoids {f : Var × List Var × Exp} {fn : Function}
    (hoisted : Hoisted f fn) (apart : avoids (closureParameter f.2.1) f.2.2 = true) :
    typesFunction fn = !applies f.2.2 := by
  obtain ⟨apartEntry, aparts⟩ := Splits.avoids hoisted.splits apart
  obtain ⟨flatEntry, flats⟩ := List.forall_mem_cons.mp hoisted.flat
  obtain ⟨typed, later⟩ := types_of_avoids flatEntry apartEntry
  rw [typesFunction, hoisted.params, Splits.applies hoisted.splits]
  apply isSome_bind typed
  intro pointer types
  exact types_of_blocks flats fun b member => (later pointer types).avoids (aparts b member)

/-! ## Closure conversion -/

section Captures

variable (closureParam : Var) (vars : List Var) (i : Nat) (body : Exp)

theorem applies_captures : applies (captures closureParam vars i body) = applies body := by
  induction vars generalizing i body with
  | nil => rfl
  | cons var vars ih => exact ih ..

theorem avoids_captures (pointer : Option Var) :
    avoids pointer (captures closureParam vars i body) = avoids pointer body := by
  induction vars generalizing i body with
  | nil => rfl
  | cons var vars ih => exact ih ..

end Captures

theorem fades_closureParameter (param : Var) (params : List Var) :
    Fades (some param) (closureParameter (param :: params)) := by
  suffices ∀ pointer, Fades pointer (params.foldl rebind pointer) from this _
  induction params with
  | nil => exact fun _ => .inl rfl
  | cons param params ih => exact fun pointer => (fades_rebind pointer param).trans (ih _)

/-- The pointer is none of the names of the input. -/
def PointerInserted (pointer : Option Var) : Prop := ∀ x, pointer = some x → Inserted x

theorem PointerInserted.avoids {pointer : Option Var} (inserted : PointerInserted pointer)
    {value : Value} (named : ∀ x ∈ value.names, ¬ Inserted x) :
    (!isPointer pointer value) = true := by
  rw [Bool.not_eq_true']
  cases value with
  | intValue value => rfl
  | varValue var =>
    refine beq_eq_false_iff_ne.mpr fun eq => ?_
    exact named var List.mem_cons_self (inserted var eq)
  | globValue glob => rfl

/-- A converted term only projects from the closure parameter, if its name is new. -/
theorem avoids_close {t : Exp} (mentions : Mentions (¬ Inserted ·) t) (anf : isAnf t = true)
    (c : Nat) {pointer : Option Var} (inserted : PointerInserted pointer) :
    avoids pointer (t.close c).1 = true ∧
      ∀ f ∈ functions (t.close c).1, avoids (closureParameter f.2.1) f.2.2 = true := by
  induction t generalizing c pointer with
  | haltExp value => exact ⟨inserted.avoids mentions, List.forall_mem_nil _⟩
  | jumpExp joinName slotValue => exact ⟨rfl, List.forall_mem_nil _⟩
  | funExp name params body rest ihBody ihRest =>
    obtain ⟨-, mentionsBody, mentionsRest⟩ := mentions
    obtain ⟨anfBody, anfRest⟩ := Bool.and_eq_true_iff.mp anf
    obtain ⟨apartRest, inRest⟩ := ihRest mentionsRest anfRest (c + 1) inserted
    have own : PointerInserted (closureParameter (closureName c :: params)) := by
      intro x eq
      rcases fades_closureParameter (closureName c) params with isParam | isNone
      · cases isParam.symm.trans eq
        exact ⟨c, .inl rfl⟩
      · cases isNone.symm.trans eq
    obtain ⟨apartBody, inBody⟩ := ihBody mentionsBody anfBody (c + 1 + rest.closes) own
    rw [Exp.close_funExp]
    refine ⟨apartRest, ?_⟩
    rw [functions, functions_captures]
    refine List.forall_mem_cons.mpr ⟨?_, List.forall_mem_append.mpr ⟨inBody, inRest⟩⟩
    rw [avoids_captures]
    exact apartBody
  | joinExp name slot body rest ihBody ihRest =>
    obtain ⟨mentionsBody, mentionsRest⟩ := mentions
    obtain ⟨anfBody, anfRest⟩ := Bool.and_eq_true_iff.mp anf
    obtain ⟨apartRest, inRest⟩ := ihRest mentionsRest anfRest c inserted
    obtain ⟨apartBody, inBody⟩ := ihBody mentionsBody anfBody (c + rest.closes) inserted
    rw [Exp.close_joinExp]
    exact ⟨Bool.and_eq_true_iff.mpr ⟨apartBody, apartRest⟩,
      List.forall_mem_append.mpr ⟨inBody, inRest⟩⟩
  | appExp name funName paramValues rest ih =>
    obtain ⟨mentionsFun, mentionsValues, mentionsRest⟩ := mentions
    obtain ⟨apartRest, inRest⟩ := ih mentionsRest (Bool.and_eq_true_iff.mp anf).2 (c + 1) inserted
    refine ⟨Bool.and_eq_true_iff.mpr ⟨Bool.and_eq_true_iff.mpr ⟨rfl, ?_⟩, apartRest⟩, inRest⟩
    rw [List.all_cons, Bool.and_eq_true_iff, List.all_eq_true]
    refine ⟨inserted.avoids fun x member => ?_,
      fun value member => inserted.avoids fun x named => ?_⟩
    · cases List.mem_singleton.mp member
      exact mentionsFun
    · exact mentionsValues x (List.mem_flatMap.mpr ⟨value, member, named⟩)
  | bopExp name bop param1 param2 rest ih =>
    obtain ⟨mentions1, mentions2, mentionsRest⟩ := mentions
    obtain ⟨apartRest, inRest⟩ := ih mentionsRest (Bool.and_eq_true_iff.mp anf).2 c inserted
    refine ⟨Bool.and_eq_true_iff.mpr ⟨Bool.and_eq_true_iff.mpr ⟨?_, ?_⟩, apartRest⟩, inRest⟩
    · exact inserted.avoids mentions1
    · exact inserted.avoids mentions2
  | ifExp cond thenBranch elseBranch ihThen ihElse =>
    obtain ⟨mentionsCond, mentionsThen, mentionsElse⟩ := mentions
    obtain ⟨anfThen, anfElse⟩ := Bool.and_eq_true_iff.mp anf
    obtain ⟨apartThen, inThen⟩ :=
      ihThen mentionsThen (Bool.and_eq_true_iff.mp anfThen).2 (c + elseBranch.closes) inserted
    obtain ⟨apartElse, inElse⟩ := ihElse mentionsElse anfElse c inserted
    rw [Exp.close_ifExp]
    refine ⟨Bool.and_eq_true_iff.mpr ⟨Bool.and_eq_true_iff.mpr ⟨?_, apartThen⟩, apartElse⟩,
      List.forall_mem_append.mpr ⟨inThen, inElse⟩⟩
    exact inserted.avoids mentionsCond
  | tupleExp name values rest ih => cases anf
  | projExp name tuple index rest ih => cases anf

/-- Closure conversion keeps applications, each in its function. -/
theorem applies_close (t : Exp) (c : Nat) :
    (applies (t.close c).1 = true ∨ ∃ f ∈ functions (t.close c).1, applies f.2.2 = true) ↔
      .appExp ∈ t.nodes := by
  induction t generalizing c with
  | haltExp value => simp [Exp.close, applies, functions, Exp.nodes]
  | jumpExp joinName slotValue => simp [Exp.close, applies, functions, Exp.nodes]
  | funExp name params body rest ihBody ihRest =>
    rw [Exp.close_funExp, Exp.nodes, List.mem_cons, List.mem_append,
      ← ihBody (c + 1 + rest.closes), ← ihRest (c + 1)]
    simp only [applies, functions, functions_captures, List.mem_cons, List.mem_append,
      or_and_right, exists_or, exists_eq_left, applies_captures, reduceCtorEq, false_or]
    exact (or_assoc.symm.trans (or_congr_left or_comm)).trans or_or_or_comm
  | joinExp name slot body rest ihBody ihRest =>
    rw [Exp.close_joinExp, Exp.nodes, List.mem_cons, List.mem_append, ← ihBody (c + rest.closes),
      ← ihRest c]
    simp only [applies, functions, List.mem_append, Bool.or_eq_true, or_and_right, exists_or,
      reduceCtorEq, false_or]
    exact or_or_or_comm
  | appExp name funName paramValues rest ih => simp [Exp.close, applies, Exp.nodes]
  | bopExp name bop param1 param2 rest ih =>
    rw [Exp.nodes, List.mem_cons, ← ih c]
    simp [Exp.close, applies, functions]
  | ifExp cond thenBranch elseBranch ihThen ihElse =>
    rw [Exp.close_ifExp, Exp.nodes, List.mem_append, ← ihThen (c + elseBranch.closes), ← ihElse c]
    simp only [applies, functions, List.mem_append, Bool.or_eq_true, or_and_right, exists_or]
    exact or_or_or_comm
  | tupleExp name values rest ih =>
    rw [Exp.nodes, List.mem_cons, ← ih c]
    simp [Exp.close, applies, functions]
  | projExp name tuple index rest ih =>
    rw [Exp.nodes, List.mem_cons, ← ih c]
    simp [Exp.close, applies, functions]

/-! ## From the source -/

theorem forall_iff_of_forall₂ {α β : Type} {R : α → β → Prop} {P : α → Prop} {Q : β → Prop}
    {xs : List α} {ys : List β} (pairs : List.Forall₂ R xs ys)
    (each : ∀ x ∈ xs, ∀ y, R x y → (P x ↔ Q y)) : (∀ x ∈ xs, P x) ↔ ∀ y ∈ ys, Q y := by
  induction pairs with
  | nil => exact iff_of_true (List.forall_mem_nil _) (List.forall_mem_nil _)
  | cons related _ ih =>
    obtain ⟨eachHead, eachTail⟩ := List.forall_mem_cons.mp each
    rw [List.forall_mem_cons, List.forall_mem_cons, eachHead _ related, ih eachTail]

/-- The types of all functions of a program agree, if it applies nothing. -/
theorem typesFunction_hoist {e : Ast.Exp} {n n' : Nat} {t : Exp} (closed : e.Closed)
    (apart : ∀ p ∈ e.params, ¬ Convert.Reserved p)
    (ran : convertDefunc (e.relabel Ast.suffixed id 0) n = .ok (t, n')) :
    (∀ fn ∈ hoist (closureConvert t), typesFunction fn = true) ↔ e.applies = false := by
  have converted := convertDefunc_eq_ok.mp ran
  have noPointer : PointerInserted none := fun _ eq => by cases eq
  obtain ⟨apartMain, aparts⟩ := avoids_close (Convert.mentions_convert closed apart converted)
    (Convert.isAnf_convert converted) 0 noPointer
  have each : ∀ f ∈ postorder (closureConvert t) ++ [("main", [], closureConvert t)],
      ∀ fn, Hoisted f fn → (applies f.2.2 = false ↔ typesFunction fn = true) := by
    intro f member fn hoisted
    have apart : avoids (closureParameter f.2.1) f.2.2 = true := by
      rcases List.mem_append.mp member with inPostorder | isMain
      · exact aparts f ((postorder_perm _).subset inPostorder)
      · cases List.mem_singleton.mp isMain
        exact apartMain
    rw [typesFunction_of_avoids hoisted apart, Bool.not_eq_true']
  have nodes := nodes_convert converted
  rw [← forall_iff_of_forall₂ (hoisted_closureConvert ran).1 each, List.forall_mem_append,
    List.forall_mem_singleton, ← Bool.not_eq_true e.applies, ← e.applies_relabel Ast.suffixed id 0,
    ← Ast.Exp.mem_nodes_appExp, ← nodes.mem_iff, ← applies_close t 0, not_or, not_exists, and_comm]
  refine and_congr (Bool.not_eq_true _).symm.to_iff (forall_congr' fun f => ?_)
  rw [(postorder_perm _).mem_iff, not_and, Bool.not_eq_true]
  rfl

/-- What a closed program is turned into is lowered to well typed instructions, exactly if no lookup
comes before the name is defined and the types of each function agree: if no parameter has a name
that closure conversion could insert, these agree exactly in a program that applies nothing. If
its parameters are distinct, the program is lowered to well typed instructions exactly if it is in
order and applies nothing. -/
theorem emits_wellTyped_iff (e : Ast.Exp) (n n' : Nat) (closed : e.Closed) (e' : Ast.Exp)
    (ρ : Ast.RenameMap) (renamed : Ast.rename e = some (.returned e' ρ)) (t : Exp)
    (ran : convertDefunc e' n = .ok (t, n')) :
    ((∃ M, lowerModule (hoist (closureConvert t)) = .ok M ∧ M.WellTyped) ↔
      ∀ fn ∈ hoist (closureConvert t), Lower.Defined fn ∧ typesFunction fn = true) ∧
    ((∀ p ∈ e.params, ¬ Convert.Reserved p) →
      ((∃ M, lowerModule (hoist (closureConvert t)) = .ok M ∧ M.WellTyped) ↔
        (∀ fn ∈ hoist (closureConvert t), Lower.Defined fn) ∧ e.applies = false)) ∧
    (e.ParamsDistinct →
      ((∃ M, lowerModule (hoist (closureConvert t)) = .ok M ∧ M.WellTyped) ↔
        e.inOrder true = true ∧ e.applies = false)) := by
  cases (Ast.rename_eq_relabel closed).symm.trans renamed
  obtain ⟨made, names⟩ := hoisted_closureConvert ran
  have calls := projected_close t 0
  have cells := labelsInCells_close (Convert.isAnf_convert (convertDefunc_eq_ok.mp ran)) 0
  have accepted : ∀ fn ∈ hoist (closureConvert t), Lowerable fn ∧
      ∀ b ∈ fn.entryBlock :: fn.blocks, labelsInCells b.body = true := by
    intro fn member
    obtain ⟨f, inProgram, hoisted⟩ := exists_hoisted made member
    have both : projected none f.2.2 = true ∧ labelsInCells f.2.2 = true := by
      rcases List.mem_append.mp inProgram with inPostorder | isMain
      · have inFunctions := (postorder_perm _).subset inPostorder
        exact ⟨projected_functions calls f inFunctions, labelsInCells_functions cells f inFunctions⟩
      · cases List.mem_singleton.mp isMain
        exact ⟨calls, cells⟩
    exact ⟨Hoisted.lowerable hoisted both.1, Hoisted.labelsInCells hoisted both.2⟩
  have general := lowers_wellTyped_iff (fun fn member => (accepted fn member).1)
    (fun fn member => (accepted fn member).2) names
  have unreserved : (∀ p ∈ e.params, ¬ Convert.Reserved p) →
      ((∃ M, lowerModule (hoist (closureConvert t)) = .ok M ∧ M.WellTyped) ↔
        (∀ fn ∈ hoist (closureConvert t), Lower.Defined fn) ∧ e.applies = false) := by
    intro apart
    rw [general, ← typesFunction_hoist closed apart ran]
    exact forall₂_and
  refine ⟨general, unreserved, fun distinct => ?_⟩
  rw [unreserved distinct.reserved, Lower.defined_iff_inOrder closed distinct ran]

theorem emits_wellTyped_iff_addBranch : ∃ t,
    convertDefunc (Lower.addBranch.relabel Ast.suffixed id 0) 0 = .ok (t, 4) ∧
      ((∃ M, lowerModule (hoist (closureConvert t)) = .ok M ∧ M.WellTyped) ↔
        Lower.addBranch.inOrder true = true ∧ Lower.addBranch.applies = false) := by
  have ran : convertDefunc (Lower.addBranch.relabel Ast.suffixed id 0) 0 =
      .ok (.funExp "tmp3" ["x0"] (.joinExp "tmp0" (some "tmp1")
        (.bopExp "tmp2" .plus (.varValue "x0") (.varValue "tmp1") (.haltExp (.varValue "tmp2")))
        (.ifExp (.varValue "x0") (.jumpExp "tmp0" (some (.intValue 1)))
          (.jumpExp "tmp0" (some (.intValue 2))))) (.haltExp (.varValue "tmp3")), 4) := by
    decide
  exact ⟨_, ran, (emits_wellTyped_iff Lower.addBranch 0 4 (by decide) _ _
    (Ast.rename_eq_relabel (by decide)) _ ran).2.2 Lower.addBranch_distinct⟩

/-- `(fn x => x) 1`. -/
def identityApplied : Ast.Exp := .appExp (.lamExp "x" (.varExp "x")) (.intExp 1)

/-- What it is lowered to. The last call passes a pointer's bits, an `i64`, as a pointer. -/
def identityModule : Module where
  declared := [("tmp0", ⟨.i64, [.ptr, .i64]⟩), ("main", ⟨.i64, []⟩), ("malloc", ⟨.ptr, [.i64]⟩)]
  globals := []
  bodies := [("tmp0", [[⟨0, .ret (.arg .i64 1)⟩]]),
    ("main", [[⟨0, .call ⟨.ptr, [.i64]⟩ (.symbol "malloc") [.const 8]⟩,
      ⟨1, .ptrToInt (.inst .ptr 0)⟩, ⟨2, .gep (.inst .ptr 0) 0⟩,
      ⟨3, .store (.address "tmp0") (.inst .ptr 2)⟩, ⟨4, .intToPtr (.inst .i64 1)⟩,
      ⟨5, .gep (.inst .ptr 4) 0⟩, ⟨6, .load (.inst .ptr 5)⟩, ⟨7, .intToPtr (.inst .i64 6)⟩,
      ⟨8, .call ⟨.i64, [.ptr, .i64]⟩ (.inst .ptr 7) [.inst .i64 1, .const 1]⟩,
      ⟨9, .ret (.inst .i64 8)⟩]])]

theorem identityApplied_illTyped : ∃ e' ρ t, identityApplied.Closed ∧
    Ast.rename identityApplied = some (.returned e' ρ) ∧ convertDefunc e' 0 = .ok (t, 2) ∧
    lowerModule (hoist (closureConvert t)) = .ok identityModule ∧ ¬ identityModule.WellTyped := by
  refine ⟨_, _, .funExp "tmp0" ["x0"] (.haltExp (.varValue "x0"))
    (.appExp "tmp1" "tmp0" [.intValue 1] (.haltExp (.varValue "tmp1"))), by decide,
    Ast.rename_eq_relabel (by decide), by decide, ?_, ?_⟩
  · decide
  · decide

end Lambcalc.Emit
