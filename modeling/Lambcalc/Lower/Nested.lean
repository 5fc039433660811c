import Lambcalc.Lower.Lower
import Mathlib.Data.Finset.Lattice.Lemmas

/-!
# Lowering, read off the nested term

Hoisting puts the blocks of a function into a list, and lowering goes through that list with one
set of names. What lowering finds can be computed on the term before it is hoisted: the blocks
nested in a block come before it, and what they enter stays.
-/

namespace Lambcalc.Lower

open Anf Hoist

/-! ## The lookups of a nested term -/

/-- The names the own block of `t` enters. -/
def entered : Exp → Finset Var
  | .haltExp _ => ∅
  | .funExp _ _ _ rest => entered rest
  | .joinExp _ _ _ rest => entered rest
  | .jumpExp _ _ => ∅
  | .appExp name _ _ rest => insert name (entered rest)
  | .bopExp name _ _ _ rest => insert name (entered rest)
  | .ifExp _ _ _ => ∅
  | .tupleExp name _ rest => insert name (entered rest)
  | .projExp name _ _ rest => insert name (entered rest)

/-- The names the blocks nested in `t` enter. -/
def nested : Exp → Finset Var
  | .haltExp _ => ∅
  | .funExp _ _ _ rest => nested rest
  | .joinExp _ slot body rest =>
    nested body ∪ (slot.toList.toFinset ∪ entered body) ∪ nested rest
  | .jumpExp _ _ => ∅
  | .appExp _ _ _ rest => nested rest
  | .bopExp _ _ _ _ rest => nested rest
  | .ifExp _ thenBranch elseBranch =>
    nested thenBranch ∪ nested elseBranch ∪ (entered thenBranch ∪ entered elseBranch)
  | .tupleExp _ _ rest => nested rest
  | .projExp _ _ _ rest => nested rest

/-- The own block of `t` finds the names it looks up, if it starts with those of `named`. -/
def blockFinds : Finset Var → Exp → Bool
  | named, .haltExp value => visitValue named value
  | named, .funExp _ _ _ rest => blockFinds named rest
  | named, .joinExp _ _ _ rest => blockFinds named rest
  | named, .jumpExp _ slotValue => slotValue.all (visitValue named)
  | named, .appExp name funName paramValues rest =>
    visitValue (insert name named) (.varValue funName) && paramValues.all (visitValue named) &&
      blockFinds (insert name named) rest
  | named, .bopExp name _ param1 param2 rest =>
    visitValue named param1 && visitValue named param2 && blockFinds (insert name named) rest
  | named, .ifExp cond _ _ => visitValue named cond
  | named, .tupleExp name values rest =>
    values.all (visitValue (insert name named)) && blockFinds (insert name named) rest
  | named, .projExp name tuple _ rest =>
    visitValue named (.varValue tuple) && blockFinds (insert name named) rest

/-- So do the blocks nested in `t`, if they start with those of `named`. A block starts with what
the blocks nested in it have entered as well, and with what the blocks before have. -/
def blocksFind : Finset Var → Exp → Bool
  | _, .haltExp _ => true
  | named, .funExp _ _ _ rest => blocksFind named rest
  | named, .joinExp _ slot body rest =>
    blocksFind named body && blockFinds (slot.toList.toFinset ∪ (nested body ∪ named)) body &&
      blocksFind (slot.toList.toFinset ∪ entered body ∪ (nested body ∪ named)) rest
  | _, .jumpExp _ _ => true
  | named, .appExp _ _ _ rest => blocksFind named rest
  | named, .bopExp _ _ _ _ rest => blocksFind named rest
  | named, .ifExp _ thenBranch elseBranch =>
    let before := nested elseBranch ∪ (nested thenBranch ∪ named)
    blocksFind named thenBranch && blocksFind (nested thenBranch ∪ named) elseBranch &&
      blockFinds before thenBranch && blockFinds (entered thenBranch ∪ before) elseBranch
  | named, .tupleExp _ _ rest => blocksFind named rest
  | named, .projExp _ _ _ rest => blocksFind named rest

/-- So do the blocks of a function, which starts with its parameters. -/
def functionFinds (params : Finset Var) (body : Exp) : Bool :=
  blockFinds params body && blocksFind (entered body ∪ params) body

/-- So do the functions of `t`, at any depth. -/
def functionsFind : Exp → Bool
  | .haltExp _ => true
  | .funExp _ params body rest =>
    functionsFind body && functionFinds params.toFinset body && functionsFind rest
  | .joinExp _ _ body rest => functionsFind body && functionsFind rest
  | .jumpExp _ _ => true
  | .appExp _ _ _ rest => functionsFind rest
  | .bopExp _ _ _ _ rest => functionsFind rest
  | .ifExp _ thenBranch elseBranch => functionsFind thenBranch && functionsFind elseBranch
  | .tupleExp _ _ rest => functionsFind rest
  | .projExp _ _ _ rest => functionsFind rest

/-! ## One node -/

section Nodes

variable {named : Finset Var} {name : Var} {rest : Exp}

attribute [local simp] lowerExp

theorem visitValue_insert {value : Value} (visits : visitValue named value = true) :
    visitValue (insert name named) value = true := by
  cases value with
  | intValue value => rfl
  | varValue var => exact decide_eq_true (Finset.mem_insert_of_mem (of_decide_eq_true visits))
  | globValue glob => rfl

theorem all_visitValue_insert {values : List Value}
    (visits : values.all (visitValue named) = true) :
    values.all (visitValue (insert name named)) = true := by
  rw [List.all_eq_true] at visits ⊢
  exact fun value member => visitValue_insert (visits value member)

theorem lowerExp_haltExp {value : Value} :
    lowerExp (.haltExp value) named = if visitValue named value then some named else none := by
  by_cases visits : visitValue named value = true <;> simp [lowerExp, guard, visits]

theorem lowerExp_jumpExp {joinName : Var} {slotValue : Option Value} :
    lowerExp (.jumpExp joinName slotValue) named =
      if slotValue.all (visitValue named) then some named else none := by
  by_cases visits : slotValue.all (visitValue named) = true <;> simp [lowerExp, guard, visits]

/-- The second look at the operands finds what the first one did. -/
theorem lowerExp_appExp {funName : Var} {paramValues : List Value} :
    lowerExp (.appExp name funName paramValues rest) named =
      if visitValue (insert name named) (.varValue funName) &&
          paramValues.all (visitValue named) then
        lowerExp rest (insert name named) else none := by
  by_cases visits : paramValues.all (visitValue named) = true
  · have again : paramValues.all (visitValue (insert name named)) = true :=
      all_visitValue_insert visits
    by_cases found : visitValue (insert name named) (.varValue funName) = true
    · simp [lowerExp, guard, visits, again, found]
    · simp [lowerExp, guard, visits, found]
  · simp [lowerExp, guard, visits]

theorem lowerExp_bopExp {bop : Ast.Bop} {param1 param2 : Value} :
    lowerExp (.bopExp name bop param1 param2 rest) named =
      if visitValue named param1 && visitValue named param2 then
        lowerExp rest (insert name named) else none := by
  by_cases visits : (visitValue named param1 && visitValue named param2) = true
  · obtain ⟨visits1, visits2⟩ := Bool.and_eq_true_iff.mp visits
    simp [lowerExp, guard, visits1, visits2, visitValue_insert]
  · rw [if_neg visits, lowerExp, guard, if_neg visits]
    rfl

/-- A branch of a hoisted `If` is a jump. -/
theorem lowerExp_ifExp {cond : Value} {thenName elseName : Var} :
    lowerExp (.ifExp cond (.jumpExp thenName none) (.jumpExp elseName none)) named =
      if visitValue named cond then some named else none := by
  by_cases visits : visitValue named cond = true <;> simp [lowerExp, guard, visits, isJump]

theorem lowerExp_tupleExp {values : List Value} :
    lowerExp (.tupleExp name values rest) named =
      if values.all (visitValue (insert name named)) then lowerExp rest (insert name named)
      else none := by
  by_cases visits : values.all (visitValue (insert name named)) = true
  · rw [if_pos visits, lowerExp, guard, if_pos visits]
    rfl
  · rw [if_neg visits, lowerExp, guard, if_neg visits]
    rfl

theorem lowerExp_projExp {tuple : Var} {index : Nat} :
    lowerExp (.projExp name tuple index rest) named =
      if visitValue named (.varValue tuple) then lowerExp rest (insert name named) else none := by
  by_cases found : visitValue named (.varValue tuple) = true
  · have again : visitValue (insert name named) (.varValue tuple) = true := visitValue_insert found
    simp [lowerExp, guard, found, again]
  · simp [lowerExp, guard, found]

end Nodes

/-! ## Blocks -/

/-- A node that looks its operands up and enters `name`, before a rest that enters `new`. -/
theorem lets_eq {named new : Finset Var} {name : Var} {finds restFinds : Bool} :
    (if finds then if restFinds then some (new ∪ insert name named) else none else none) =
      if finds && restFinds then some (insert name new ∪ named) else none := by
  cases finds with
  | false => rfl
  | true => simp only [if_true, Bool.true_and, Finset.union_insert, Finset.insert_union]

/-- The block that is left of `t`. -/
theorem lowerExp_block (t : Exp) (c : Nat) (named : Finset Var) :
    lowerExp (block t c) named = if blockFinds named t then some (entered t ∪ named) else none := by
  induction t generalizing c named with
  | haltExp value => rw [block, lowerExp_haltExp, entered, Finset.empty_union, blockFinds]
  | jumpExp joinName slotValue =>
    rw [block, lowerExp_jumpExp, entered, Finset.empty_union, blockFinds]
  | funExp name params body rest _ ih => exact ih ..
  | joinExp name slot body rest _ ih => exact ih ..
  | appExp name funName paramValues rest ih =>
    rw [block, lowerExp_appExp, ih, lets_eq, blockFinds, entered]
  | bopExp name bop param1 param2 rest ih =>
    rw [block, lowerExp_bopExp, ih, lets_eq, blockFinds, entered]
  | ifExp cond thenBranch elseBranch _ _ =>
    rw [block, lowerExp_ifExp, entered, Finset.empty_union, blockFinds]
  | tupleExp name values rest ih => rw [block, lowerExp_tupleExp, ih, lets_eq, blockFinds, entered]
  | projExp name tuple index rest ih =>
    rw [block, lowerExp_projExp, ih, lets_eq, blockFinds, entered]

theorem lowerBlock_block (t : Exp) (c : Nat) (name : Var) (slot : Option Var)
    (named : Finset Var) : lowerBlock named ⟨name, slot, block t c⟩ =
      if blockFinds (slot.toList.toFinset ∪ named) t then
        some (slot.toList.toFinset ∪ entered t ∪ named) else none := by
  rw [lowerBlock, lowerExp_block, Finset.union_left_comm, Finset.union_assoc]

theorem bind_if {α β : Type} {condition : Bool} {a : α} {next : α → Option β} :
    (if condition then some a else none) >>= next = if condition then next a else none := by
  cases condition <;> rfl

theorem if_if {α : Type} {first second : Bool} {result : Option α} :
    (if first then if second then result else none else none) =
      if first && second then result else none := by
  cases first <;> rfl

/-- The blocks nested in `t`. -/
theorem foldlM_blocks (t : Exp) (c : Nat) (named : Finset Var) :
    (blocks t c).foldlM lowerBlock named =
      if blocksFind named t then some (nested t ∪ named) else none := by
  induction t generalizing c named with
  | haltExp value => simp [blocks, blocksFind, nested]
  | jumpExp joinName slotValue => simp [blocks, blocksFind, nested]
  | funExp name params body rest _ ih => exact ih ..
  | joinExp name slot body rest ihBody ihRest =>
    rw [blocks, List.append_assoc, List.foldlM_append, ihBody, bind_if, List.singleton_append,
      List.foldlM_cons, lowerBlock_block, bind_if, ihRest, if_if, if_if, blocksFind, nested]
    ac_rfl
  | appExp name funName paramValues rest ih => exact ih ..
  | bopExp name bop param1 param2 rest ih => exact ih ..
  | ifExp cond thenBranch elseBranch ihThen ihElse =>
    rw [blocks, List.append_assoc, List.foldlM_append, ihThen, bind_if, List.foldlM_append, ihElse,
      bind_if, List.foldlM_cons, lowerBlock_block, bind_if, List.foldlM_cons, lowerBlock_block,
      bind_if, List.foldlM_nil]
    simp only [if_if, blocksFind, nested, Option.toList_none, List.toFinset_nil, Finset.empty_union]
    ac_rfl
  | tupleExp name values rest ih => exact ih ..
  | projExp name tuple index rest ih => exact ih ..

/-! ## Functions -/

theorem defined_functionOf (name : Var) (params : List Var) (body : Exp) (c : Nat) :
    Defined (functionOf name params body c) ↔ functionFinds params.toFinset body = true := by
  rw [Defined, lowerFunction, functionOf, lowerExp_block, bind_if, foldlM_blocks, if_if,
    functionFinds]
  split <;> simp_all

/-- The functions hoisted out of `t`. -/
theorem defined_lifted (t : Exp) (c : Nat) :
    (∀ fn ∈ lifted t c, Defined fn) ↔ functionsFind t = true := by
  induction t generalizing c with
  | haltExp value => exact ⟨fun _ => rfl, fun _ fn member => nomatch member⟩
  | jumpExp joinName slotValue => exact ⟨fun _ => rfl, fun _ fn member => nomatch member⟩
  | funExp name params body rest ihBody ihRest =>
    rw [lifted, List.forall_mem_append, List.forall_mem_append, List.forall_mem_singleton,
      ihBody, ihRest, defined_functionOf, functionsFind, Bool.and_eq_true, Bool.and_eq_true]
  | joinExp name slot body rest ihBody ihRest =>
    rw [lifted, List.forall_mem_append, ihBody, ihRest, functionsFind, Bool.and_eq_true]
  | appExp name funName paramValues rest ih => exact ih c
  | bopExp name bop param1 param2 rest ih => exact ih c
  | ifExp cond thenBranch elseBranch ihThen ihElse =>
    rw [lifted, List.forall_mem_append, ihThen, ihElse, functionsFind, Bool.and_eq_true]
  | tupleExp name values rest ih => exact ih c
  | projExp name tuple index rest ih => exact ih c

/-- Lowering the functions a term is hoisted into finds every name, exactly if its functions and
its own blocks do so in the nested term. -/
theorem defined_hoist (t : Exp) :
    (∀ fn ∈ hoist t, Defined fn) ↔ (functionFinds ∅ t && functionsFind t) = true := by
  rw [hoist_eq, List.forall_mem_append, List.forall_mem_singleton, defined_lifted,
    defined_functionOf, Bool.and_eq_true, List.toFinset_nil, and_comm]

end Lambcalc.Lower
