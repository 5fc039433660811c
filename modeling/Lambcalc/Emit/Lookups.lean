import Lambcalc.Convert.ClosureConvert
import Lambcalc.Emit.Nodes
import Lambcalc.Hoist.Structure
import Lambcalc.Lower.Nested

/-!
# Lowering succeeds where every name is found

The names in `namedValues_` are those that `Lower.lowerExp` keeps. Of a flat term whose jumps have a
target, and whose applications call what has just been projected, lowering makes instructions
exactly if no lookup comes before the name is defined.
-/

namespace Lambcalc.Emit

open Anf Hoist Lib Lib.Ir LLVMLowerVisitor
open Lambcalc.Convert (functions)

/-! ## Applications of projections -/

/-- Every application of `t` calls the variable that the projection right before it has entered,
and that of `last` may be called at once. -/
def projected : Option Var → Exp → Bool
  | _, .haltExp _ => true
  | _, .funExp _ _ body rest => projected none body && projected none rest
  | _, .joinExp _ _ body rest => projected none body && projected none rest
  | _, .jumpExp _ _ => true
  | last, .appExp _ funName _ rest => last == some funName && projected none rest
  | _, .bopExp _ _ _ _ rest => projected none rest
  | _, .ifExp _ thenBranch elseBranch => projected none thenBranch && projected none elseBranch
  | _, .tupleExp _ _ rest => projected none rest
  | _, .projExp name _ _ rest => projected (some name) rest

theorem projected_of_none {t : Exp} {last : Option Var} (calls : projected none t = true) :
    projected last t = true := by
  cases t with
  | appExp name funName paramValues rest => cases calls
  | _ => exact calls

/-- So do the blocks of a term. -/
theorem Splits.projected {t left : Exp} {split : List Join} (splits : Splits t left split)
    {last : Option Var} (calls : projected last t = true) :
    projected last left = true ∧ ∀ b ∈ split, projected none b.body = true := by
  induction splits generalizing last with
  | haltExp => exact ⟨calls, List.forall_mem_nil _⟩
  | jumpExp => exact ⟨calls, List.forall_mem_nil _⟩
  | funExp _ ih =>
    obtain ⟨left, blocks⟩ := ih (Bool.and_eq_true_iff.mp calls).2
    exact ⟨projected_of_none left, blocks⟩
  | joinExp _ _ ihBody ih =>
    obtain ⟨callsBody, callsRest⟩ := Bool.and_eq_true_iff.mp calls
    obtain ⟨leftBody, inner⟩ := ihBody callsBody
    obtain ⟨left, blocks⟩ := ih callsRest
    exact ⟨projected_of_none left, List.forall_mem_append.mpr
      ⟨inner, List.forall_mem_cons.mpr ⟨leftBody, blocks⟩⟩⟩
  | appExp _ ih =>
    obtain ⟨called, callsRest⟩ := Bool.and_eq_true_iff.mp calls
    obtain ⟨left, blocks⟩ := ih callsRest
    exact ⟨Bool.and_eq_true_iff.mpr ⟨called, left⟩, blocks⟩
  | bopExp _ ih => exact ih calls
  | ifExp _ _ _ _ ihThen ihElse =>
    obtain ⟨callsThen, callsElse⟩ := Bool.and_eq_true_iff.mp calls
    obtain ⟨leftThen, innerThen⟩ := ihThen callsThen
    obtain ⟨leftElse, innerElse⟩ := ihElse callsElse
    exact ⟨rfl, List.forall_mem_append.mpr ⟨List.forall_mem_append.mpr ⟨innerThen, innerElse⟩,
      List.forall_mem_cons.mpr ⟨leftThen, List.forall_mem_singleton.mpr leftElse⟩⟩⟩
  | tupleExp _ ih => exact ih calls
  | projExp _ ih => exact ih calls

theorem projected_functions {last : Option Var} {t : Exp} (calls : projected last t = true) :
    ∀ f ∈ functions t, projected none f.2.2 = true := by
  induction t generalizing last with
  | haltExp value => exact List.forall_mem_nil _
  | jumpExp joinName slotValue => exact List.forall_mem_nil _
  | funExp name params body rest ihBody ihRest =>
    obtain ⟨callsBody, callsRest⟩ := Bool.and_eq_true_iff.mp calls
    exact List.forall_mem_cons.mpr
      ⟨callsBody, List.forall_mem_append.mpr ⟨ihBody callsBody, ihRest callsRest⟩⟩
  | joinExp name slot body rest ihBody ihRest =>
    obtain ⟨callsBody, callsRest⟩ := Bool.and_eq_true_iff.mp calls
    exact List.forall_mem_append.mpr ⟨ihBody callsBody, ihRest callsRest⟩
  | appExp name funName paramValues rest ih => exact ih (Bool.and_eq_true_iff.mp calls).2
  | bopExp name bop param1 param2 rest ih => exact ih calls
  | ifExp cond thenBranch elseBranch ihThen ihElse =>
    obtain ⟨callsThen, callsElse⟩ := Bool.and_eq_true_iff.mp calls
    exact List.forall_mem_append.mpr ⟨ihThen callsThen, ihElse callsElse⟩
  | tupleExp name values rest ih => exact ih calls
  | projExp name tuple index rest ih => exact ih calls

theorem projected_captures {closureParam : Var} {vars : List Var} {i : Nat} {body : Exp}
    (calls : projected none body = true) :
    projected none (captures closureParam vars i body) = true := by
  induction vars generalizing i body with
  | nil => exact calls
  | cons var vars ih =>
    exact ih (show projected (some var) body = true from projected_of_none calls)

/-- Closure conversion puts a projection before every application. -/
theorem projected_close (t : Exp) (c : Nat) : projected none (t.close c).1 = true := by
  induction t generalizing c with
  | haltExp value => rfl
  | jumpExp joinName slotValue => rfl
  | funExp name params body rest ihBody ihRest =>
    rw [Exp.close_funExp]
    exact Bool.and_eq_true_iff.mpr ⟨projected_captures (ihBody _), ihRest _⟩
  | joinExp name slot body rest ihBody ihRest =>
    rw [Exp.close_joinExp]
    exact Bool.and_eq_true_iff.mpr ⟨ihBody _, ihRest _⟩
  | appExp name funName paramValues rest ih =>
    exact Bool.and_eq_true_iff.mpr ⟨beq_self_eq_true _, ih (c + 1)⟩
  | bopExp name bop param1 param2 rest ih => exact ih c
  | ifExp cond thenBranch elseBranch ihThen ihElse =>
    rw [Exp.close_ifExp]
    exact Bool.and_eq_true_iff.mpr ⟨ihThen _, ihElse _⟩
  | tupleExp name values rest ih => exact ih c
  | projExp name tuple index rest ih =>
    exact (projected_of_none (ih c) : projected (some name) _ = true)

/-! ## Visits of values -/

/-- What every visit keeps: slots, blocks and the functions of the module. -/
structure Keeps (v v' : LLVMLowerVisitor) : Prop where
  slots : v'.spillSlots = v.spillSlots
  blocks : v'.namedBlocks = v.namedBlocks
  bodies : v'.module_.bodies = v.module_.bodies
  declared : ∀ name type, v.module_.declared.lookup name = some type →
    v'.module_.declared.lookup name = some type

theorem Keeps.refl (v : LLVMLowerVisitor) : Keeps v v := ⟨rfl, rfl, rfl, fun _ _ found => found⟩

theorem Keeps.trans {v₁ v₂ v₃ : LLVMLowerVisitor} (first : Keeps v₁ v₂) (second : Keeps v₂ v₃) :
    Keeps v₁ v₃ where
  slots := second.slots.trans first.slots
  blocks := second.blocks.trans first.blocks
  bodies := second.bodies.trans first.bodies
  declared name type found := second.declared name type (first.declared name type found)

theorem keeps_skip (v : LLVMLowerVisitor) (count : Nat) : Keeps v (v.skip count) :=
  ⟨rfl, rfl, rfl, fun _ _ found => found⟩

theorem keeps_enter (v : LLVMLowerVisitor) (name : Var) (type : Ty) : Keeps v (v.enter name type) :=
  ⟨rfl, rfl, rfl, fun _ _ found => found⟩

/-- `named` are the names in `namedValues_`. -/
def Tracks (v : LLVMLowerVisitor) (named : Finset Var) : Prop :=
  ∀ x, (v.namedValues x).isSome = true ↔ x ∈ named

theorem Tracks.enter {v : LLVMLowerVisitor} {named : Finset Var} (tracks : Tracks v named)
    (name : Var) (type : Ty) : Tracks (v.enter name type) (insert name named) := by
  intro x
  by_cases eq : x = name
  · simp [LLVMLowerVisitor.enter, eq]
  · simp [LLVMLowerVisitor.enter, eq, tracks x]

theorem OnlyGlobals.keeps {v v' : LLVMLowerVisitor} (only : OnlyGlobals v v') : Keeps v v' := by
  obtain ⟨globals, rfl⟩ := only
  exact ⟨rfl, rfl, rfl, fun _ _ found => found⟩

theorem OnlyGlobals.tracks {v v' : LLVMLowerVisitor} {named : Finset Var} (only : OnlyGlobals v v')
    (tracks : Tracks v named) : Tracks v' named := by
  obtain ⟨globals, rfl⟩ := only
  exact tracks

section Values

variable {v : LLVMLowerVisitor} {named : Finset Var}

theorem checks_operand (tracks : Tracks v named) (value : Value) :
    Checks (fun r => OnlyGlobals v r.2) (v.operand value) (Lower.visitValue named value) := by
  rcases operand_cases v value with ⟨op, v', visited, reads, only⟩ | ⟨x, rfl, missing, failed⟩
  · have visits : Lower.visitValue named value = true := by
      cases reads with
      | varValue found => exact decide_eq_true ((tracks _).mp (Option.isSome_of_eq_some found))
      | _ => rfl
    rw [visits]
    exact ⟨_, visited, only⟩
  · have unknown : x ∉ named := fun member => by
      have entered := (tracks x).mpr member
      rw [missing] at entered
      cases entered
    have fails : Lower.visitValue named (.varValue x) = false := decide_eq_false unknown
    rw [fails]
    exact ⟨_, failed⟩

theorem checks_operands (tracks : Tracks v named) (values : List Value) :
    Checks (fun r => OnlyGlobals v r.2) (v.operands values)
      (values.all (Lower.visitValue named)) := by
  induction values generalizing v with
  | nil => exact ⟨_, rfl, .refl v⟩
  | cons value values ih =>
    apply (checks_operand tracks value).bind
    intro first only
    apply (ih (only.tracks tracks)).map
    intro others only'
    exact only.trans only'

theorem checks_find {α : Type} (map : Var → Option α) (name : Var) :
    Checks (fun a => map name = some a) (find map name) (map name).isSome := by
  cases found : map name with
  | some a => exact ⟨a, find_eq_ok.mpr found, rfl⟩
  | none =>
    unfold find
    rw [found]
    exact ⟨_, rfl⟩

end Values

/-! ## Nodes -/

/-- What lowering a term leaves: the names in `namedValues_`, and slots and blocks as before. -/
def Follows (v : LLVMLowerVisitor) (r : List Instruction × LLVMLowerVisitor) (named : Finset Var) :
    Prop := Tracks r.2 named ∧ Keeps v r.2

/-- A jump finds its target. -/
def Ready (v : LLVMLowerVisitor) (jump : Var × Bool) : Prop :=
  (v.namedBlocks jump.1).isSome = true ∧
    (jump.2 = true → (v.spillSlots jump.1).isSome = true)

theorem Ready.keeps {v v' : LLVMLowerVisitor} {jump : Var × Bool} (ready : Ready v jump)
    (keeps : Keeps v v') : Ready v' jump := by
  unfold Ready
  rw [keeps.slots, keeps.blocks]
  exact ready

section Nodes

variable {v : LLVMLowerVisitor} {named : Finset Var}

theorem createIntToPtr_follows (tracks : Tracks v named) (op : Operand) :
    Tracks (v.createIntToPtr op).2.2 named ∧ Keeps v (v.createIntToPtr op).2.2 := by
  unfold createIntToPtr
  split
  · exact ⟨tracks, .refl v⟩
  · exact ⟨tracks, keeps_skip v 1⟩

theorem checks_storeCells (tracks : Tracks v named) (ptr : Operand) (i : Nat)
    (values : List Value) :
    Checks (fun r => Follows v r named) (storeCells ptr v i values)
      (values.all (Lower.visitValue named)) := by
  induction values generalizing v i with
  | nil => exact ⟨_, rfl, tracks, .refl v⟩
  | cons value values ih =>
    apply (checks_operand tracks value).bind
    intro first only
    have stored := ih (v := first.2.skip 2) (only.tracks tracks) (i + 1)
    apply stored.map
    intro others follows
    exact ⟨follows.1, (only.keeps.trans (keeps_skip _ 2)).trans follows.2⟩

theorem lookup_append {α : Type} {entries : List (Var × α)} {name : Var} {a : α}
    (found : entries.lookup name = some a) (more : List (Var × α)) :
    (entries ++ more).lookup name = some a := by
  rw [List.lookup_append, found]
  rfl

theorem keeps_getMalloc (v : LLVMLowerVisitor) :
    Keeps v v.getMalloc ∧ v.getMalloc.namedValues = v.namedValues := by
  unfold getMalloc
  split
  · exact ⟨.refl v, rfl⟩
  · exact ⟨⟨rfl, rfl, rfl, fun _ _ found => lookup_append found _⟩, rfl⟩

variable {name : Var}

theorem checks_appExp (tracks : Tracks v named) {funName : Var} (known : funName ∈ named)
    (paramValues : List Value) :
    Checks (fun r => Follows v r (insert name named)) (v.appExp name funName paramValues)
      (paramValues.all (Lower.visitValue named)) := by
  rw [← Bool.and_true (paramValues.all _)]
  apply (checks_operands tracks paramValues).bind
  intro r only
  have tracks' := only.tracks tracks
  obtain ⟨fnPtrInt, found⟩ := Option.isSome_iff_exists.mp ((tracks' funName).mpr known)
  obtain ⟨tracksCast, keepsCast⟩ := createIntToPtr_follows tracks' fnPtrInt
  simp only [found]
  exact ⟨_, rfl, tracksCast.enter name _,
    (only.keeps.trans keepsCast).trans (keeps_enter _ name _)⟩

theorem checks_bopExp (tracks : Tracks v named) (bop : Ast.Bop) (param1 param2 : Value) :
    Checks (fun r => Follows v r (insert name named)) (v.bopExp name bop param1 param2)
      (Lower.visitValue named param1 && Lower.visitValue named param2) := by
  apply (checks_operand tracks param1).bind
  intro first only
  apply (checks_operand (only.tracks tracks) param2).map
  intro second only'
  exact ⟨(only'.tracks (only.tracks tracks)).enter name _,
    (only.keeps.trans only'.keeps).trans (keeps_enter _ name _)⟩

theorem checks_tupleExp (tracks : Tracks v named) (values : List Value) :
    Checks (fun r => Follows v r (insert name named)) (v.tupleExp name values)
      (values.all (Lower.visitValue (insert name named))) := by
  obtain ⟨keeps, same⟩ := keeps_getMalloc v
  have tracks' : Tracks v.getMalloc named := fun x => by rw [same, tracks x]
  have entered : Tracks ((v.getMalloc.skip 1).enter name .i64) (insert name named) :=
    Tracks.enter (v := v.getMalloc.skip 1) tracks' name .i64
  apply (checks_storeCells entered (.inst .ptr v.getMalloc.next) 0 values).map
  intro r follows
  exact ⟨follows.1,
    ((keeps.trans (keeps_skip _ 1)).trans (keeps_enter _ name _)).trans follows.2⟩

theorem checks_projExp (tracks : Tracks v named) (tuple : Var) (index : Nat) :
    Checks (fun r => Follows v r (insert name named)) (v.projExp name tuple index)
      (Lower.visitValue named (.varValue tuple)) := by
  have looked : (v.namedValues tuple).isSome = Lower.visitValue named (.varValue tuple) := by
    rw [Bool.eq_iff_iff, tracks tuple]
    exact decide_eq_true_iff.symm
  rw [← looked]
  apply (checks_find v.namedValues tuple).map
  intro tupleInt _
  obtain ⟨tracksCast, keepsCast⟩ := createIntToPtr_follows tracks tupleInt
  exact ⟨Tracks.enter (v := (v.createIntToPtr tupleInt).2.2.skip 1) tracksCast name _,
    (keepsCast.trans (keeps_skip _ 1)).trans (keeps_enter _ name _)⟩

/-- A node that enters `name`, and its rest. -/
theorem parallel_let {node : Except Fault (List Instruction × LLVMLowerVisitor)}
    {condition : Bool} {rest : Exp}
    (checks : Checks (fun r => Follows v r (insert name named)) node condition)
    (ih : ∀ v', Keeps v v' → Tracks v' (insert name named) →
      Parallel (Follows v') (lowerExp rest v') (Lower.lowerExp rest (insert name named))) :
    Parallel (Follows v) (do
        let (code, visitor) ← node
        let (codeRest, visitor) ← lowerExp rest visitor
        return (code ++ codeRest, visitor))
      (if condition then Lower.lowerExp rest (insert name named) else none) := by
  apply checks.parallel
  intro r follows
  apply (ih r.2 follows.2 follows.1).map
  intro r' named' follows'
  exact ⟨follows'.1, follows.2.trans follows'.2⟩

/-- The two models of lowering succeed together. -/
theorem parallel_lowerExp {t : Exp} {last : Option Var} (isFlat : flat t = true)
    (calls : projected last t = true) (known : ∀ x, last = some x → x ∈ named)
    (ready : ∀ jump ∈ jumps t, Ready v jump) (tracks : Tracks v named) :
    Parallel (Follows v) (lowerExp t v) (Lower.lowerExp t named) := by
  have unknown : ∀ {named : Finset Var}, ∀ x, (none : Option Var) = some x → x ∈ named :=
    fun _ eq => by cases eq
  induction t generalizing v named last with
  | haltExp value =>
    rw [Lower.lowerExp_haltExp]
    exact (checks_operand tracks value).parallel fun r only =>
      .ok ⟨only.tracks tracks, only.keeps.trans (keeps_skip _ 1)⟩
  | funExp name params body rest => cases isFlat
  | joinExp name slot body rest => cases isFlat
  | jumpExp joinName slotValue =>
    obtain ⟨hasBlock, hasSlot⟩ := ready _ List.mem_cons_self
    obtain ⟨block, found⟩ := Option.isSome_iff_exists.mp hasBlock
    rw [Lower.lowerExp_jumpExp, lowerExp, jumpExp, except_bind_of_ok (find_eq_ok.mpr found)]
    cases slotValue with
    | none => exact .ok ⟨tracks, keeps_skip v 1⟩
    | some value =>
      obtain ⟨slot, found⟩ := Option.isSome_iff_exists.mp (hasSlot rfl)
      show Parallel _ (find v.spillSlots joinName >>= _) _
      rw [except_bind_of_ok (find_eq_ok.mpr found)]
      exact (checks_operand tracks value).parallel fun r only =>
        .ok ⟨only.tracks tracks, only.keeps.trans (keeps_skip _ 2)⟩
  | appExp name funName paramValues rest ih =>
    obtain ⟨called, callsRest⟩ := Bool.and_eq_true_iff.mp calls
    have inNamed := known funName (beq_iff_eq.mp called)
    have visits : Lower.visitValue (insert name named) (.varValue funName) = true :=
      decide_eq_true (Finset.mem_insert_of_mem inNamed)
    rw [Lower.lowerExp_appExp, visits, Bool.true_and]
    exact parallel_let (checks_appExp tracks inNamed paramValues) fun v' keeps tracks' =>
      ih isFlat callsRest unknown (fun jump member => (ready jump member).keeps keeps) tracks'
  | bopExp name bop param1 param2 rest ih =>
    rw [Lower.lowerExp_bopExp]
    exact parallel_let (checks_bopExp tracks bop param1 param2) fun v' keeps tracks' =>
      ih isFlat calls unknown (fun jump member => (ready jump member).keeps keeps) tracks'
  | ifExp cond thenBranch elseBranch =>
    obtain ⟨plainThen, plainElse⟩ := Bool.and_eq_true_iff.mp isFlat
    obtain ⟨thenJoin, rfl⟩ := isPlainJump_eq_true.mp plainThen
    obtain ⟨elseJoin, rfl⟩ := isPlainJump_eq_true.mp plainElse
    rw [Lower.lowerExp_ifExp]
    apply (checks_operand tracks cond).parallel
    intro r only
    obtain ⟨thenBlock, foundThen⟩ := Option.isSome_iff_exists.mp
      ((ready (thenJoin, false) List.mem_cons_self).keeps only.keeps).1
    obtain ⟨elseBlock, foundElse⟩ := Option.isSome_iff_exists.mp
      ((ready (elseJoin, false) (List.mem_cons_of_mem _ List.mem_cons_self)).keeps only.keeps).1
    show Parallel _ (find r.2.namedBlocks thenJoin >>= _) _
    rw [except_bind_of_ok (find_eq_ok.mpr foundThen)]
    show Parallel _ (find r.2.namedBlocks elseJoin >>= _) _
    rw [except_bind_of_ok (find_eq_ok.mpr foundElse)]
    exact .ok ⟨only.tracks tracks,
      (only.keeps.trans (keeps_skip _ 1)).trans (keeps_skip _ 1)⟩
  | tupleExp name values rest ih =>
    rw [Lower.lowerExp_tupleExp]
    exact parallel_let (checks_tupleExp tracks values) fun v' keeps tracks' =>
      ih isFlat calls unknown (fun jump member => (ready jump member).keeps keeps) tracks'
  | projExp name tuple index rest ih =>
    rw [Lower.lowerExp_projExp]
    apply parallel_let (checks_projExp tracks tuple index)
    intro v' keeps tracks'
    refine ih isFlat calls (fun x eq => ?_)
      (fun jump member => (ready jump member).keeps keeps) tracks'
    cases eq
    exact Finset.mem_insert_self name named

end Nodes

/-! ## Functions -/

/-- What lowering asks of a function: flat blocks, projections before applications, and jumps to
blocks of the function. -/
structure Lowerable (fn : Function) : Prop where
  flat : ∀ b ∈ fn.entryBlock :: fn.blocks, flat b.body = true
  calls : ∀ b ∈ fn.entryBlock :: fn.blocks, projected none b.body = true
  jumps : ∀ b ∈ fn.entryBlock :: fn.blocks, ∀ jump ∈ jumps b.body, Accepts fn.blocks jump

theorem Hoisted.lowerable {f : Var × List Var × Exp} {fn : Function} (hoisted : Hoisted f fn)
    (calls : projected none f.2.2 = true) : Lowerable fn where
  flat := hoisted.flat
  calls := List.forall_mem_cons.mpr (Splits.projected hoisted.splits calls)
  jumps := hoisted.jumps

theorem isSome_update {α : Type} {map : Var → Option α} {x name : Var} {a : α}
    (known : (map x).isSome = true) : (Function.update map name (some a) x).isSome = true := by
  by_cases eq : x = name
  · rw [eq, Function.update_self]
    rfl
  · rw [Function.update_of_ne eq]
    exact known

/-- Creating blocks leaves the names, and enters the blocks and their slots. -/
theorem createBlocks_enters (blocks : List Join) (index : Nat) (v : LLVMLowerVisitor) :
    (createBlocks blocks index v).2.namedValues = v.namedValues ∧
      (createBlocks blocks index v).2.module_ = v.module_ ∧
      (∀ x, (v.namedBlocks x).isSome = true →
        ((createBlocks blocks index v).2.namedBlocks x).isSome = true) ∧
      (∀ x, (v.spillSlots x).isSome = true →
        ((createBlocks blocks index v).2.spillSlots x).isSome = true) ∧
      ∀ b ∈ blocks, Ready (createBlocks blocks index v).2 (b.name, b.slot.isSome) := by
  induction blocks generalizing index v with
  | nil => exact ⟨rfl, rfl, fun _ known => known, fun _ known => known, List.forall_mem_nil _⟩
  | cons block blocks ih =>
    cases slot : block.slot with
    | none =>
      simp only [createBlocks, slot]
      obtain ⟨named, module_, inBlocks, inSlots, ready⟩ := ih (index + 1)
        { v with namedBlocks := Function.update v.namedBlocks block.name (some index) }
      refine ⟨named, module_, fun x known => inBlocks x (isSome_update known), inSlots, ?_⟩
      refine List.forall_mem_cons.mpr ⟨⟨inBlocks _ ?_, fun hasSlot => ?_⟩, ready⟩
      · simp
      · simp [slot] at hasSlot
    | some name =>
      simp only [createBlocks, slot]
      obtain ⟨named, module_, inBlocks, inSlots, ready⟩ := ih (index + 1)
        { v.skip 1 with
          namedBlocks := Function.update v.namedBlocks block.name (some index)
          spillSlots := Function.update v.spillSlots block.name (some (.inst .ptr v.next)) }
      refine ⟨named, module_, fun x known => inBlocks x (isSome_update known),
        fun x known => inSlots x (isSome_update known), ?_⟩
      refine List.forall_mem_cons.mpr ⟨⟨inBlocks _ ?_, fun _ => inSlots _ ?_⟩, ready⟩
      · simp
      · simp

/-- As many arguments as parameters are all entered. -/
theorem nameArgs_enters {types : List Ty} {params : List Var}
    (lengths : types.length = params.length)
    (index : Nat) (named : Var → Option Operand) :
    ∃ named', nameArgs types params index named = .ok named' ∧
      ∀ x, (named' x).isSome = true ↔ x ∈ params ∨ (named x).isSome = true := by
  induction types generalizing params index named with
  | nil =>
    cases params with
    | nil => exact ⟨named, rfl, fun x => by simp⟩
    | cons param params => cases lengths
  | cons type types ih =>
    cases params with
    | nil => cases lengths
    | cons param params =>
      obtain ⟨named', ended, entered⟩ := ih (Nat.succ.inj lengths) (index + 1)
        (Function.update named param (some (.arg type index)))
      refine ⟨named', ended, fun x => (entered x).trans ?_⟩
      by_cases eq : x = param
      · simp [eq]
      · simp [eq]

theorem length_getFunctionType {α : Type} (params : List α) :
    (getFunctionType params).params.length = params.length := List.length_mapIdx

section Functions

variable {v : LLVMLowerVisitor} {named : Finset Var} {module_ : Module} {fn : Function}

/-- A block is lowered exactly if every name in it is found, and enters the names it binds. -/
theorem parallel_lowerBlock {b : Join} (body : Body) (isFlat : flat b.body = true)
    (calls : projected none b.body = true) (ready : ∀ jump ∈ jumps b.body, Ready v jump)
    (created : Ready v (b.name, b.slot.isSome)) (tracks : Tracks v named) :
    Parallel (fun r named' => Tracks r.2 named' ∧ Keeps v r.2) (lowerBlock (body, v) b)
      (Lower.lowerBlock named b) := by
  obtain ⟨index, found⟩ := Option.isSome_iff_exists.mp created.1
  have loaded : ∃ load v', loadSlot v b = .ok (load, v') ∧ Keeps v v' ∧
      Tracks v' (b.slot.toList.toFinset ∪ named) := by
    unfold loadSlot
    cases slot : b.slot with
    | none => exact ⟨_, _, rfl, .refl v, by simpa using tracks⟩
    | some name =>
      obtain ⟨op, foundSlot⟩ := Option.isSome_iff_exists.mp (created.2 (by rw [slot]; rfl))
      refine ⟨_, _, except_bind_of_ok (find_eq_ok.mpr foundSlot), keeps_enter v name .i64, ?_⟩
      simpa using tracks.enter name .i64
  obtain ⟨load, v', loadEq, keeps, tracks'⟩ := loaded
  rw [lowerBlock, except_bind_of_ok (find_eq_ok.mpr found), except_bind_of_ok loadEq]
  apply (parallel_lowerExp isFlat calls (fun _ eq => by cases eq)
    (fun jump member => (ready jump member).keeps keeps) tracks').map
  intro r named' follows
  exact ⟨follows.1, keeps.trans follows.2⟩

/-- Preparing a function enters its parameters, and every jump to a block of it is ready. -/
theorem prepare_enters
    (declared : module_.declared.lookup fn.name = some (getFunctionType fn.params)) :
    ∃ allocas v, prepare module_ fn = .ok (allocas, v) ∧ v.module_ = module_ ∧
      Tracks v fn.params.toFinset ∧ (∀ b ∈ fn.blocks, Ready v (b.name, b.slot.isSome)) := by
  let start : LLVMLowerVisitor := ⟨module_, 0, fun _ => none, fun _ => none,
    Function.update (fun _ => none) fn.entryBlock.name (some 0)⟩
  obtain ⟨named, sameModule, -, -, ready⟩ := createBlocks_enters fn.blocks 1 start
  obtain ⟨named', argsEq, entered⟩ := nameArgs_enters (length_getFunctionType fn.params) 0
    (createBlocks fn.blocks 1 start).2.namedValues
  refine ⟨(createBlocks fn.blocks 1 start).1,
    { (createBlocks fn.blocks 1 start).2 with namedValues := named' }, ?_, sameModule,
    fun x => ?_, ready⟩
  · rw [prepare, except_bind_of_ok (find_eq_ok.mpr declared)]
    exact except_bind_of_ok argsEq
  · show (named' x).isSome = true ↔ _
    rw [entered, named, List.mem_toFinset]
    simp [start]

/-- Lowering one function finds every name in both models, or in neither. -/
theorem parallel_lowerFunction (lowerable : Lowerable fn)
    (declared : module_.declared.lookup fn.name = some (getFunctionType fn.params)) :
    Parallel (fun M _ => ∀ name type, module_.declared.lookup name = some type →
        M.declared.lookup name = some type)
      (lowerFunction module_ fn) (Lower.lowerFunction fn) := by
  obtain ⟨flatEntry, flats⟩ := List.forall_mem_cons.mp lowerable.flat
  obtain ⟨callsEntry, calls⟩ := List.forall_mem_cons.mp lowerable.calls
  obtain ⟨jumpsEntry, jumps⟩ := List.forall_mem_cons.mp lowerable.jumps
  obtain ⟨allocas, v, prepared, sameModule, tracks, ready⟩ := prepare_enters declared
  have accepted : ∀ jump, Accepts fn.blocks jump → Ready v jump := by
    intro jump accepts
    obtain ⟨b, member, eqName, eqSlot⟩ := accepts
    have readyBlock := ready b member
    rwa [eqName, eqSlot] at readyBlock
  rw [lowerFunction, Lower.lowerFunction, except_bind_of_ok prepared]
  apply (parallel_lowerExp flatEntry callsEntry (fun _ eq => by cases eq)
    (fun jump member => accepted jump (jumpsEntry jump member)) tracks).bind
  intro entry named followsEntry
  have folded : Parallel (fun r named' => Tracks r.2 named' ∧ Keeps v r.2)
      (fn.blocks.foldlM lowerBlock ((allocas ++ entry.1) :: fn.blocks.map fun _ => [], entry.2))
      (fn.blocks.foldlM Lower.lowerBlock named) := by
    apply Parallel.foldlM
    · intro b member r named' follows
      have keeps : Keeps v r.2 := follows.2
      have both := parallel_lowerBlock r.1 (flats b member) (calls b member)
        (fun jump inBody => (accepted jump (jumps b member jump inBody)).keeps keeps)
        ((ready b member).keeps keeps) follows.1
      exact both.mono fun r' named'' related => ⟨related.1, keeps.trans related.2⟩
    · exact followsEntry
  apply folded.map
  intro r named' follows name type found
  apply follows.2.declared
  rw [sameModule]
  exact found

end Functions

/-! ## Modules -/

theorem findFunction_cons (fn : Function) (fns : List Function) (name : Var) :
    findFunction (fn :: fns) name = if fn.name = name then some fn else findFunction fns name := by
  unfold findFunction
  by_cases eq : fn.name = name
  · rw [List.find?_cons_of_pos (by simpa using eq), if_pos eq]
  · rw [List.find?_cons_of_neg (by simpa using eq), if_neg eq]

theorem lookup_singleton {α : Type} (name key : Var) (a : α) :
    [(key, a)].lookup name = if key = name then some a else none := by
  rw [List.lookup_cons]
  by_cases eq : key = name
  · rw [eq, beq_self_eq_true, if_pos rfl]
  · rw [beq_false_of_ne (Ne.symm eq), if_neg eq]
    rfl

/-- The type under which a function is found is that of the first function of the name. -/
theorem lookup_declared (fns : List Function) (M : Module) (name : Var) :
    (fns.foldl declareFunction M).declared.lookup name =
      (M.declared.lookup name).or ((findFunction fns name).map (getFunctionType ·.params)) := by
  induction fns generalizing M with
  | nil => simp [findFunction]
  | cons fn fns ih =>
    rw [List.foldl_cons, ih, findFunction_cons]
    unfold declareFunction
    cases known : M.declared.lookup fn.name with
    | some type =>
      rw [Option.isSome_some, if_pos rfl]
      by_cases eq : fn.name = name
      · rw [← eq, known]
        rfl
      · rw [if_neg eq]
    | none =>
      rw [Option.isSome_none, if_neg Bool.false_ne_true, List.lookup_append, lookup_singleton]
      by_cases eq : fn.name = name
      · rw [← eq, known, if_pos rfl, if_pos rfl]
        rfl
      · rw [if_neg eq, if_neg eq, Option.or_none]

/-- Declaring functions gives them no bodies. -/
theorem bodies_declared (fns : List Function) (M : Module) :
    (fns.foldl declareFunction M).bodies = M.bodies := by
  induction fns generalizing M with
  | nil => rfl
  | cons fn fns ih =>
    rw [List.foldl_cons, ih]
    unfold declareFunction
    split <;> rfl

/-- Lowering the functions succeeds exactly if it finds every name in each of them. -/
theorem lowers_iff_of_declared {fns : List Function} {M : Module}
    (lowerable : ∀ fn ∈ fns, Lowerable fn)
    (declared : ∀ fn ∈ fns, M.declared.lookup fn.name = some (getFunctionType fn.params)) :
    (∃ M', fns.foldlM lowerFunction M = .ok M') ↔ ∀ fn ∈ fns, Lower.Defined fn := by
  induction fns generalizing M with
  | nil => exact iff_of_true ⟨M, rfl⟩ (List.forall_mem_nil _)
  | cons fn fns ih =>
    obtain ⟨lowerableHead, lowerableTail⟩ := List.forall_mem_cons.mp lowerable
    obtain ⟨declaredHead, declaredTail⟩ := List.forall_mem_cons.mp declared
    have both := parallel_lowerFunction lowerableHead declaredHead
    rw [List.forall_mem_cons, List.foldlM_cons]
    unfold Lower.Defined at ih ⊢
    cases first : lowerFunction M fn with
    | error e =>
      have undefined := both.ok_iff
      rw [first] at undefined
      refine iff_of_false (fun ended => ?_) fun defined => ?_
      · obtain ⟨M', ended⟩ := ended
        cases ended
      · obtain ⟨M', ended⟩ := undefined.mpr defined.1
        cases ended
    | ok M' =>
      rw [first] at both
      have defined := both.ok_iff.mp ⟨M', rfl⟩
      have later : ∀ fn' ∈ fns,
          M'.declared.lookup fn'.name = some (getFunctionType fn'.params) := by
        intro fn' member
        cases second : Lower.lowerFunction fn with
        | none =>
          rw [second] at defined
          cases defined
        | some named =>
          rw [second] at both
          cases both with
          | ok related => exact related _ _ (declaredTail fn' member)
      exact (ih lowerableTail later).trans (and_iff_right defined).symm

/-- If the functions have different names, lowering them makes a module exactly if no lookup comes
before the name is defined. -/
theorem lowers_iff {fns : List Function} (lowerable : ∀ fn ∈ fns, Lowerable fn)
    (distinct : (fns.map Function.name).Nodup) :
    (∃ M, lowerModule fns = .ok M) ↔ ∀ fn ∈ fns, Lower.Defined fn := by
  apply lowers_iff_of_declared lowerable
  intro fn member
  rw [lookup_declared, findFunction, find?_of_nodup distinct member]
  rfl

end Lambcalc.Emit
