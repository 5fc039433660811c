import Lambcalc.Emit.Visitor
import Lambcalc.Hoist.WellFormed
import Lambcalc.Lib.Except
import Mathlib.Data.List.Forall2

/-!
# What hoisting makes of a program

Every `FunExp` becomes one function, with a block for each of its joins and two for each of its
`If`s (`Splits`). What is left is flat, and jumps go to blocks of the same function. The nodes that
stay are those of the program: a function consists of lines of nodes, and each line of the program
is the line of one block. Lowering then never meets a node that it asserts away.
-/

namespace Lambcalc.Hoist

open Lambcalc.Convert
open Anf (Exp Value Var)
open Emit (Fault LLVMLowerVisitor)

/-! ## Nodes -/

/-- A node without the terms in it. -/
inductive Node where
  | halt (value : Value)
  | jump (joinName : Var) (slotValue : Option Value)
  | app (name funName : Var) (paramValues : List Value)
  | bop (name : Var) (bop : Ast.Bop) (param1 param2 : Value)
  | branch (cond : Value)
  | tuple (name : Var) (values : List Value)
  | proj (name tuple : Var) (index : Nat)

/-- The nodes from `t` on, up to the one that ends a block. -/
def line : Exp → List Node
  | .haltExp value => [.halt value]
  | .funExp _ _ _ rest => line rest
  | .joinExp _ _ _ rest => line rest
  | .jumpExp joinName slotValue => [.jump joinName slotValue]
  | .appExp name funName paramValues rest => .app name funName paramValues :: line rest
  | .bopExp name bop param1 param2 rest => .bop name bop param1 param2 :: line rest
  | .ifExp cond _ _ => [.branch cond]
  | .tupleExp name values rest => .tuple name values :: line rest
  | .projExp name tuple index rest => .proj name tuple index :: line rest

/-- The lines that start inside `t`, outside the functions it contains, each with the name and the
slot of its join. The two branches of an `If` have neither. -/
def lines : Exp → List (Option Var × Option Var × List Node)
  | .haltExp _ => []
  | .funExp _ _ _ rest => lines rest
  | .joinExp name slot body rest => lines body ++ (some name, slot, line body) :: lines rest
  | .jumpExp _ _ => []
  | .appExp _ _ _ rest => lines rest
  | .bopExp _ _ _ _ rest => lines rest
  | .ifExp _ thenBranch elseBranch =>
    lines thenBranch ++ lines elseBranch ++
      [(none, none, line thenBranch), (none, none, line elseBranch)]
  | .tupleExp _ _ rest => lines rest
  | .projExp _ _ _ rest => lines rest

/-- The jumps of `t` outside the functions it contains: the name, and whether there is a value. -/
def jumps : Exp → List (Var × Bool)
  | .haltExp _ => []
  | .funExp _ _ _ rest => jumps rest
  | .joinExp _ _ body rest => jumps body ++ jumps rest
  | .jumpExp joinName slotValue => [(joinName, slotValue.isSome)]
  | .appExp _ _ _ rest => jumps rest
  | .bopExp _ _ _ _ rest => jumps rest
  | .ifExp _ thenBranch elseBranch => jumps thenBranch ++ jumps elseBranch
  | .tupleExp _ _ rest => jumps rest
  | .projExp _ _ _ rest => jumps rest

/-- A jump without a value. -/
def isPlainJump : Exp → Bool
  | .jumpExp _ none => true
  | _ => false

theorem isPlainJump_eq_true {t : Exp} :
    isPlainJump t = true ↔ ∃ joinName, t = .jumpExp joinName none := by
  unfold isPlainJump
  split
  · exact iff_of_true rfl ⟨_, rfl⟩
  · rename_i other
    exact iff_of_false Bool.false_ne_true fun ⟨joinName, eq⟩ => other joinName eq

/-- No function or join is left in `t`, and the branches of an `If` are jumps without a value. -/
def flat : Exp → Bool
  | .haltExp _ => true
  | .funExp _ _ _ _ => false
  | .joinExp _ _ _ _ => false
  | .jumpExp _ _ => true
  | .appExp _ _ _ rest => flat rest
  | .bopExp _ _ _ _ rest => flat rest
  | .ifExp _ thenBranch elseBranch => isPlainJump thenBranch && isPlainJump elseBranch
  | .tupleExp _ _ rest => flat rest
  | .projExp _ _ _ rest => flat rest

/-- The functions of `t`, at any depth, each after those in its body. -/
def postorder : Exp → List (Var × List Var × Exp)
  | .haltExp _ => []
  | .funExp name params body rest => postorder body ++ (name, params, body) :: postorder rest
  | .joinExp _ _ body rest => postorder body ++ postorder rest
  | .jumpExp _ _ => []
  | .appExp _ _ _ rest => postorder rest
  | .bopExp _ _ _ _ rest => postorder rest
  | .ifExp _ thenBranch elseBranch => postorder thenBranch ++ postorder elseBranch
  | .tupleExp _ _ rest => postorder rest
  | .projExp _ _ _ rest => postorder rest

/-! ## The blocks of a function -/

/-- `t` becomes `left` and some blocks: one for each join, after those of its body, and two for
each `If`, after those of its branches. -/
inductive Splits : Exp → Exp → List Join → Prop where
  | haltExp {value : Value} : Splits (.haltExp value) (.haltExp value) []
  | funExp {name : Var} {params : List Var} {body rest left : Exp} {blocks : List Join}
      (splits : Splits rest left blocks) : Splits (.funExp name params body rest) left blocks
  | joinExp {name : Var} {slot : Option Var} {body rest leftBody left : Exp}
      {inner blocks : List Join} (splitsBody : Splits body leftBody inner)
      (splits : Splits rest left blocks) :
      Splits (.joinExp name slot body rest) left (inner ++ ⟨name, slot, leftBody⟩ :: blocks)
  | jumpExp {joinName : Var} {slotValue : Option Value} :
      Splits (.jumpExp joinName slotValue) (.jumpExp joinName slotValue) []
  | appExp {name funName : Var} {paramValues : List Value} {rest left : Exp} {blocks : List Join}
      (splits : Splits rest left blocks) :
      Splits (.appExp name funName paramValues rest) (.appExp name funName paramValues left) blocks
  | bopExp {name : Var} {bop : Ast.Bop} {param1 param2 : Value} {rest left : Exp}
      {blocks : List Join} (splits : Splits rest left blocks) :
      Splits (.bopExp name bop param1 param2 rest) (.bopExp name bop param1 param2 left) blocks
  | ifExp {cond : Value} {thenBranch elseBranch leftThen leftElse : Exp}
      {innerThen innerElse : List Join} {thenBlock elseBlock : Var}
      (splitsThen : Splits thenBranch leftThen innerThen)
      (splitsElse : Splits elseBranch leftElse innerElse) (newThen : Generated thenBlock)
      (newElse : Generated elseBlock) :
      Splits (.ifExp cond thenBranch elseBranch)
        (.ifExp cond (.jumpExp thenBlock none) (.jumpExp elseBlock none))
        (innerThen ++ innerElse ++ [⟨thenBlock, none, leftThen⟩, ⟨elseBlock, none, leftElse⟩])
  | tupleExp {name : Var} {values : List Value} {rest left : Exp} {blocks : List Join}
      (splits : Splits rest left blocks) :
      Splits (.tupleExp name values rest) (.tupleExp name values left) blocks
  | projExp {name tuple : Var} {index : Nat} {rest left : Exp} {blocks : List Join}
      (splits : Splits rest left blocks) :
      Splits (.projExp name tuple index rest) (.projExp name tuple index left) blocks

theorem splits_block (t : Exp) (c : Nat) : Splits t (block t c) (blocks t c) := by
  induction t generalizing c with
  | haltExp value => exact .haltExp
  | jumpExp joinName slotValue => exact .jumpExp
  | funExp name params body rest ihBody ihRest => exact .funExp (ihRest _)
  | joinExp name slot body rest ihBody ihRest =>
    rw [blocks, List.append_assoc]
    exact .joinExp (ihBody c) (ihRest _)
  | appExp name funName paramValues rest ih => exact .appExp (ih c)
  | bopExp name bop param1 param2 rest ih => exact .bopExp (ih c)
  | ifExp cond thenBranch elseBranch ihThen ihElse =>
    exact .ifExp (ihThen c) (ihElse _) ⟨_, .inl rfl⟩ ⟨_, .inr (.inl rfl)⟩
  | tupleExp name values rest ih => exact .tupleExp (ih c)
  | projExp name tuple index rest ih => exact .projExp (ih c)

/-- The line of a block, with its slot, and with its name if it is one of `joins`. -/
def Join.line (joins : List Var) (b : Join) : Option Var × Option Var × List Node :=
  (if b.name ∈ joins then some b.name else none, b.slot, Hoist.line b.body)

section Splitting

variable {t left : Exp} {split : List Join}

/-- The line that starts at `t` stays. -/
theorem Splits.line_eq (splits : Splits t left split) : line left = line t := by
  induction splits with
  | haltExp => rfl
  | jumpExp => rfl
  | ifExp _ _ _ _ _ _ => rfl
  | funExp _ ih => exact ih
  | joinExp _ _ _ ih => exact ih
  | appExp _ ih => exact congrArg (List.cons _) ih
  | bopExp _ ih => exact congrArg (List.cons _) ih
  | tupleExp _ ih => exact congrArg (List.cons _) ih
  | projExp _ ih => exact congrArg (List.cons _) ih

/-- The other lines of `t` become the lines of the blocks. -/
theorem Splits.lines_eq {joins : List Var} (splits : Splits t left split)
    (sub : joinNames t ⊆ joins) (apart : ∀ x ∈ joins, ¬ Generated x) :
    split.map (Join.line joins) = lines t := by
  induction splits with
  | haltExp => rfl
  | jumpExp => rfl
  | funExp _ ih => exact ih (List.append_subset.mp sub).2
  | joinExp splitsBody _ ihBody ih =>
    obtain ⟨member, subInner⟩ := List.cons_subset.mp sub
    obtain ⟨subBody, subRest⟩ := List.append_subset.mp subInner
    rw [List.map_append, List.map_cons, lines, Join.line, splitsBody.line_eq, if_pos member,
      ihBody subBody, ih subRest]
  | appExp _ ih => exact ih sub
  | bopExp _ ih => exact ih sub
  | ifExp splitsThen splitsElse newThen newElse ihThen ihElse =>
    obtain ⟨subThen, subElse⟩ := List.append_subset.mp sub
    rw [List.map_append, List.map_append, List.map_cons, List.map_singleton, lines, Join.line,
      Join.line, splitsThen.line_eq, splitsElse.line_eq,
      if_neg fun member => apart _ member newThen,
      if_neg fun member => apart _ member newElse, ihThen subThen, ihElse subElse]
  | tupleExp _ ih => exact ih sub
  | projExp _ ih => exact ih sub

/-- What is left of `t` and of its blocks is flat. -/
theorem Splits.flat (splits : Splits t left split) :
    flat left = true ∧ ∀ b ∈ split, Hoist.flat b.body = true := by
  induction splits with
  | haltExp => exact ⟨rfl, List.forall_mem_nil _⟩
  | jumpExp => exact ⟨rfl, List.forall_mem_nil _⟩
  | funExp _ ih => exact ih
  | joinExp _ _ ihBody ih =>
    exact ⟨ih.1, List.forall_mem_append.mpr
      ⟨ihBody.2, List.forall_mem_cons.mpr ⟨ihBody.1, ih.2⟩⟩⟩
  | appExp _ ih => exact ih
  | bopExp _ ih => exact ih
  | ifExp _ _ _ _ ihThen ihElse =>
    exact ⟨rfl, List.forall_mem_append.mpr ⟨List.forall_mem_append.mpr ⟨ihThen.2, ihElse.2⟩,
      List.forall_mem_cons.mpr ⟨ihThen.1, List.forall_mem_singleton.mpr ihElse.1⟩⟩⟩
  | tupleExp _ ih => exact ih
  | projExp _ ih => exact ih

/-- A block takes a jump with a value exactly if it has a slot. -/
def Accepts (split : List Join) (jump : Var × Bool) : Prop :=
  ∃ b ∈ split, b.name = jump.1 ∧ b.slot.isSome = jump.2

theorem Accepts.mono {more : List Join} {jump : Var × Bool} (accepts : Accepts split jump)
    (sub : split ⊆ more) : Accepts more jump := by
  obtain ⟨b, member, matches_⟩ := accepts
  exact ⟨b, sub member, matches_⟩

/-- Every jump that is left goes to a block, if those to joins around `t` do. -/
theorem Splits.jumps_accepted {joins : List (Var × Bool)} {all : List Join}
    (splits : Splits t left split) (sub : split ⊆ all) (inScope : jumpsInScope joins t = true)
    (known : ∀ name slot, joins.lookup name = some slot → Accepts all (name, slot)) :
    (∀ jump ∈ jumps left, Accepts all jump) ∧
      ∀ b ∈ split, ∀ jump ∈ jumps b.body, Accepts all jump := by
  induction splits generalizing joins with
  | haltExp => exact ⟨List.forall_mem_nil _, List.forall_mem_nil _⟩
  | @jumpExp joinName slotValue =>
    refine ⟨List.forall_mem_singleton.mpr (known _ _ ?_), List.forall_mem_nil _⟩
    exact beq_iff_eq.mp inScope
  | funExp _ ih => exact ih sub inScope known
  | @joinExp name slot body rest leftBody left inner blocks _ _ ihBody ih =>
    obtain ⟨subInner, subOuter⟩ := List.append_subset.mp sub
    obtain ⟨member, subBlocks⟩ := List.cons_subset.mp subOuter
    rw [jumpsInScope, Bool.and_eq_true] at inScope
    have inBody := ihBody subInner inScope.1 known
    have inRest := ih subBlocks inScope.2 fun other slot' found => by
      rw [List.lookup_cons] at found
      by_cases eq : other = name
      · rw [eq, beq_self_eq_true] at found
        cases found
        exact ⟨_, member, eq.symm, rfl⟩
      · rw [beq_false_of_ne eq] at found
        exact known _ _ found
    exact ⟨inRest.1, List.forall_mem_append.mpr
      ⟨inBody.2, List.forall_mem_cons.mpr ⟨inBody.1, inRest.2⟩⟩⟩
  | appExp _ ih => exact ih sub inScope known
  | bopExp _ ih => exact ih sub inScope known
  | ifExp _ _ _ _ ihThen ihElse =>
    obtain ⟨subBranches, subNew⟩ := List.append_subset.mp sub
    obtain ⟨subThen, subElse⟩ := List.append_subset.mp subBranches
    obtain ⟨newThen, rest⟩ := List.cons_subset.mp subNew
    obtain ⟨newElse, -⟩ := List.cons_subset.mp rest
    rw [jumpsInScope, Bool.and_eq_true] at inScope
    have inThen := ihThen subThen inScope.1 known
    have inElse := ihElse subElse inScope.2 known
    refine ⟨List.forall_mem_cons.mpr ⟨⟨_, newThen, rfl, rfl⟩,
      List.forall_mem_singleton.mpr ⟨_, newElse, rfl, rfl⟩⟩, ?_⟩
    exact List.forall_mem_append.mpr ⟨List.forall_mem_append.mpr ⟨inThen.2, inElse.2⟩,
      List.forall_mem_cons.mpr ⟨inThen.1, List.forall_mem_singleton.mpr inElse.1⟩⟩
  | tupleExp _ ih => exact ih sub inScope known
  | projExp _ ih => exact ih sub inScope known

end Splitting

/-! ## Lowering flat terms -/

section Assertions

open Lib Emit.LLVMLowerVisitor

variable (visitor : LLVMLowerVisitor)

theorem avoids_find {α : Type} (map : Var → Option α) (name : Var) :
    Avoids Fault.assertion (find map name) := by
  unfold find
  cases map name with
  | some a => exact .ok a
  | none => exact .error Fault.noConfusion

theorem avoids_operand (value : Value) : Avoids Fault.assertion (visitor.operand value) := by
  unfold operand
  rcases visitor.visitValue value with ⟨none | op, visitor⟩
  · exact .error Fault.noConfusion
  · exact .ok _

theorem avoids_operands (values : List Value) :
    Avoids Fault.assertion (visitor.operands values) := by
  induction values generalizing visitor with
  | nil => exact .ok _
  | cons value values ih =>
    exact (avoids_operand visitor value).bind fun result => (ih result.2).bind fun _ => .ok _

theorem avoids_storeCells (ptr : Lib.Ir.Operand) (i : Nat) (values : List Value) :
    Avoids Fault.assertion (storeCells ptr visitor i values) := by
  induction values generalizing visitor i with
  | nil => exact .ok _
  | cons value values ih =>
    exact (avoids_operand visitor value).bind fun result =>
      (ih (result.2.skip 2) (i + 1)).bind fun _ => .ok _

theorem avoids_appExp (name funName : Var) (paramValues : List Value) :
    Avoids Fault.assertion (visitor.appExp name funName paramValues) := by
  apply (avoids_operands visitor paramValues).bind
  intro result
  obtain ⟨params, visitor⟩ := result
  cases found : visitor.namedValues funName with
  | some fnPtrInt =>
    simp only [found]
    exact .ok _
  | none =>
    simp only [found]
    exact (avoids_find _ funName).bind fun _ => .ok _

theorem avoids_jumpExp (joinName : Var) (slotValue : Option Value) :
    Avoids Fault.assertion (visitor.jumpExp joinName slotValue) := by
  apply (avoids_find _ joinName).bind
  intro block
  cases slotValue with
  | none => exact .ok _
  | some value =>
    exact (avoids_find _ joinName).bind fun _ => (avoids_operand visitor value).bind fun _ => .ok _

theorem avoids_visitIfJump (cond : Value) (thenJoin elseJoin : Var) :
    Avoids Fault.assertion (visitor.visitIfJump cond thenJoin none elseJoin none) :=
  (avoids_operand visitor cond).bind fun _ =>
    (avoids_find _ thenJoin).bind fun _ => (avoids_find _ elseJoin).bind fun _ => .ok _

/-- Lowering a flat term does not meet a function or a join. -/
theorem avoids_lowerExp {t : Exp} (isFlat : flat t = true) :
    Avoids Fault.assertion (Emit.lowerExp t visitor) := by
  induction t generalizing visitor with
  | haltExp value => exact (avoids_operand visitor value).bind fun _ => .ok _
  | funExp name params body rest => cases isFlat
  | joinExp name slot body rest => cases isFlat
  | jumpExp joinName slotValue => exact avoids_jumpExp visitor joinName slotValue
  | appExp name funName paramValues rest ih =>
    exact (avoids_appExp visitor name funName paramValues).bind fun result =>
      (ih result.2 isFlat).bind fun _ => .ok _
  | bopExp name bop param1 param2 rest ih =>
    have node : Avoids Fault.assertion (visitor.bopExp name bop param1 param2) :=
      (avoids_operand visitor param1).bind fun result =>
        (avoids_operand result.2 param2).bind fun _ => .ok _
    exact node.bind fun result => (ih result.2 isFlat).bind fun _ => .ok _
  | ifExp cond thenBranch elseBranch =>
    obtain ⟨plainThen, plainElse⟩ := Bool.and_eq_true_iff.mp isFlat
    obtain ⟨thenJoin, rfl⟩ := isPlainJump_eq_true.mp plainThen
    obtain ⟨elseJoin, rfl⟩ := isPlainJump_eq_true.mp plainElse
    exact avoids_visitIfJump visitor cond thenJoin elseJoin
  | tupleExp name values rest ih =>
    have node : Avoids Fault.assertion (visitor.tupleExp name values) :=
      (avoids_storeCells _ _ _ _).bind fun _ => .ok _
    exact node.bind fun result => (ih result.2 isFlat).bind fun _ => .ok _
  | projExp name tuple index rest ih =>
    have node : Avoids Fault.assertion (visitor.projExp name tuple index) :=
      (avoids_find _ tuple).bind fun _ => .ok _
    exact node.bind fun result => (ih result.2 isFlat).bind fun _ => .ok _

theorem avoids_loadSlot (b : Join) : Avoids Fault.assertion (Emit.loadSlot visitor b) := by
  unfold Emit.loadSlot
  cases b.slot with
  | none => exact .ok _
  | some name => exact (avoids_find _ b.name).bind fun _ => .ok _

theorem avoids_nameArgs (types : List Lib.Ir.Ty) (params : List Var) (index : Nat)
    (named : Var → Option Lib.Ir.Operand) :
    Avoids Fault.assertion (Emit.nameArgs types params index named) := by
  induction types generalizing params index named with
  | nil => exact .ok _
  | cons type types ih =>
    cases params with
    | nil => exact .error Fault.noConfusion
    | cons param params => exact ih params (index + 1) _

/-- So does lowering functions whose blocks are flat. -/
theorem avoids_lowerModule {fns : List Function}
    (flats : ∀ fn ∈ fns, ∀ b ∈ fn.entryBlock :: fn.blocks, flat b.body = true) :
    Avoids Fault.assertion (Emit.lowerModule fns) := by
  apply Avoids.foldlM
  intro fn member module_
  obtain ⟨flatEntry, flatBlocks⟩ := List.forall_mem_cons.mp (flats fn member)
  have prepared : Avoids Fault.assertion (Emit.prepare module_ fn) :=
    (avoids_find _ fn.name).bind fun _ => (avoids_nameArgs _ _ _ _).bind fun _ => .ok _
  apply prepared.bind
  intro start
  apply (avoids_lowerExp start.2 flatEntry).bind
  intro entry
  refine (Avoids.foldlM (fun b inBlocks lowered => ?_) _).bind fun _ => .ok _
  apply (avoids_find _ b.name).bind
  intro index
  exact (avoids_loadSlot lowered.2 b).bind fun load =>
    (avoids_lowerExp load.2 (flatBlocks b inBlocks)).bind fun _ => .ok _

end Assertions

/-! ## Functions -/

/-- The function that `f`, a name with parameters and a body, becomes. -/
structure Hoisted (f : Var × List Var × Exp) (fn : Function) : Prop where
  name : fn.name = f.1
  params : fn.params = f.2.1
  entrySlot : fn.entryBlock.slot = none
  /-- One block for each join and two for each `If`. -/
  splits : Splits f.2.2 fn.entryBlock.body fn.blocks
  /-- The lines of the blocks are those of the body, in order. -/
  entryLine : line fn.entryBlock.body = line f.2.2
  lines : fn.blocks.map (Join.line (joinNames f.2.2)) = lines f.2.2
  flat : ∀ b ∈ fn.entryBlock :: fn.blocks, flat b.body = true
  names : ((fn.entryBlock :: fn.blocks).map Join.name).Nodup
  /-- Jumps go to blocks of the function, with a value for a slot. -/
  jumps : ∀ b ∈ fn.entryBlock :: fn.blocks, ∀ jump ∈ jumps b.body, Accepts fn.blocks jump

theorem hoisted_functionOf {f : Var × List Var × Exp} (nodup : (joinNames f.2.2).Nodup)
    (apart : ∀ x ∈ joinNames f.2.2, ¬ Generated x) (inScope : jumpsInScope [] f.2.2 = true)
    (c : Nat) : Hoisted f (functionOf f.1 f.2.1 f.2.2 c) := by
  have splits := splits_block f.2.2 c
  have jumps := splits.jumps_accepted (List.Subset.refl _) inScope fun name slot found => by
    cases found
  exact {
    name := rfl
    params := rfl
    entrySlot := rfl
    splits := splits
    entryLine := splits.line_eq
    lines := splits.lines_eq (List.Subset.refl _) apart
    flat := List.forall_mem_cons.mpr splits.flat
    names := nodup_functionOf c nodup apart
    jumps := List.forall_mem_cons.mpr jumps }

theorem exists_hoisted {program : List (Var × List Var × Exp)} {fns : List Function}
    (made : List.Forall₂ Hoisted program fns) {fn : Function} (member : fn ∈ fns) :
    ∃ f ∈ program, Hoisted f fn := by
  induction made with
  | nil => cases member
  | cons hoisted _ ih =>
    rcases List.mem_cons.mp member with rfl | member
    · exact ⟨_, List.mem_cons_self, hoisted⟩
    · obtain ⟨f, inProgram, hoisted⟩ := ih member
      exact ⟨f, List.mem_cons_of_mem _ inProgram, hoisted⟩

/-- Hoisting puts a function after those in its body. -/
theorem lifted_postorder (t : Exp) (c : Nat) :
    List.Forall₂ (fun f fn => ∃ d, fn = functionOf f.1 f.2.1 f.2.2 d) (postorder t)
      (lifted t c) := by
  induction t generalizing c with
  | haltExp value => exact .nil
  | jumpExp joinName slotValue => exact .nil
  | funExp name params body rest ihBody ihRest =>
    rw [postorder, lifted, List.append_assoc]
    exact List.rel_append (ihBody c) (.cons ⟨c, rfl⟩ (ihRest _))
  | joinExp name slot body rest ihBody ihRest => exact List.rel_append (ihBody c) (ihRest _)
  | appExp name funName paramValues rest ih => exact ih c
  | bopExp name bop param1 param2 rest ih => exact ih c
  | ifExp cond thenBranch elseBranch ihThen ihElse =>
    exact List.rel_append (ihThen c) (ihElse _)
  | tupleExp name values rest ih => exact ih c
  | projExp name tuple index rest ih => exact ih c

theorem postorder_perm (t : Exp) : (postorder t).Perm (functions t) := by
  induction t with
  | haltExp value => exact .nil
  | jumpExp joinName slotValue => exact .nil
  | funExp name params body rest ihBody ihRest =>
    exact List.perm_middle.trans ((ihBody.append ihRest).cons _)
  | joinExp name slot body rest ihBody ihRest => exact ihBody.append ihRest
  | appExp name funName paramValues rest ih => exact ih
  | bopExp name bop param1 param2 rest ih => exact ih
  | ifExp cond thenBranch elseBranch ihThen ihElse => exact ihThen.append ihElse
  | tupleExp name values rest ih => exact ih
  | projExp name tuple index rest ih => exact ih

/-- Each function of a program becomes one function, in this order. -/
theorem hoisted_program {t : Exp} (distinctJoins : (joinNames t).Nodup)
    (notGenerated : ∀ x ∈ joinNames t, ¬ Generated x)
    (inScope : ∀ f ∈ program t, jumpsInScope [] f.2.2 = true) :
    List.Forall₂ Hoisted (postorder t ++ [("main", [], t)]) (hoist t) := by
  have each : ∀ f ∈ postorder t ++ [("main", [], t)],
      ∀ c, Hoisted f (functionOf f.1 f.2.1 f.2.2 c) := by
    intro f member c
    have known : f = ("main", [], t) ∨ f ∈ functions t := by
      rcases List.mem_append.mp member with inPostorder | isMain
      · exact .inr ((postorder_perm t).subset inPostorder)
      · exact .inl (List.mem_singleton.mp isMain)
    have within : (joinNames f.2.2).Sublist (joinNames t) := by
      rcases known with rfl | inProgram
      · exact .refl _
      · exact joinNames_sublist t inProgram
    apply hoisted_functionOf (distinctJoins.sublist within)
      (fun x member => notGenerated x (within.subset member)) (inScope f ?_) c
    rcases known with rfl | inProgram
    · exact List.mem_cons_self
    · exact List.mem_cons_of_mem _ inProgram
  have pairs : List.Forall₂ (fun f fn => ∃ d, fn = functionOf f.1 f.2.1 f.2.2 d)
      (postorder t ++ [("main", [], t)]) (hoist t) := by
    rw [hoist_eq]
    exact List.rel_append (lifted_postorder t 0) (.cons ⟨0, rfl⟩ .nil)
  refine ((List.forall₂_and_left _ _).mpr ⟨each, pairs⟩).imp ?_
  intro f fn both
  obtain ⟨hoisted, d, rfl⟩ := both
  exact hoisted d

/-- The functions have different names. -/
theorem nodup_hoist {t : Exp} (distinctLabels : (labels t).Nodup) (notMain : "main" ∉ labels t) :
    ((hoist t).map Function.name).Nodup := by
  rw [hoist_eq, List.map_append, List.map_singleton]
  refine List.Nodup.append ((names_lifted t 0).nodup_iff.mpr distinctLabels)
    (List.nodup_singleton _) ?_
  intro name isLabel isMain
  cases List.mem_singleton.mp isMain
  exact notMain ((names_lifted t 0).subset isLabel)

/-- Hoisting makes one function of every `FunExp` and of the program, each after those in its body
and `main` last. Nothing of a function is lost or put into another one, and what is left is what
lowering accepts. -/
theorem hoist_structure (t : Exp) (distinctLabels : (labels t).Nodup)
    (notMain : "main" ∉ labels t) (distinctJoins : (joinNames t).Nodup)
    (notGenerated : ∀ x ∈ joinNames t, ¬ Generated x)
    (inScope : ∀ f ∈ program t, jumpsInScope [] f.2.2 = true) :
    List.Forall₂ Hoisted (postorder t ++ [("main", [], t)]) (hoist t) ∧
      ((hoist t).map Function.name).Nodup ∧ Emit.lowerModule (hoist t) ≠ .error .assertion := by
  have made := hoisted_program distinctJoins notGenerated inScope
  refine ⟨made, nodup_hoist distinctLabels notMain, avoids_lowerModule fun fn member => ?_⟩
  obtain ⟨f, -, hoisted⟩ := exists_hoisted made member
  exact hoisted.flat

/-- `fn x => if x then 1 else x`, with a join for the value of the `If`. -/
def joining : Exp :=
  .funExp "f" ["x"] (.joinExp "j" (some "y") (.haltExp (.varValue "y"))
    (.ifExp (.varValue "x") (.jumpExp "j" (some (.intValue 1)))
      (.jumpExp "j" (some (.varValue "x"))))) (.haltExp (.varValue "f"))

theorem hoist_structure_joining :
    List.Forall₂ Hoisted (postorder joining ++ [("main", [], joining)]) (hoist joining) ∧
      ((hoist joining).map Function.name).Nodup ∧
      Emit.lowerModule (hoist joining) ≠ .error .assertion := by
  apply hoist_structure joining (by decide) (by decide) (by decide)
  · intro x member
    cases List.mem_singleton.mp member
    exact not_generated_of_head (by decide) (by decide)
  · decide

end Lambcalc.Hoist
