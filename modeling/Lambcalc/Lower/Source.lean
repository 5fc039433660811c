import Lambcalc.Anf.Around
import Lambcalc.Lower.Order

/-!
# Which programs are lowered in order

A condition on source programs. A temporary is used in the block that defines it, unless an
`if` is evaluated between the two: then the use is in a block nested in that one, which lowering
reaches first. Only the entry block comes before the blocks nested in it.
-/

namespace Lambcalc.Ast.Exp

open Anf

/-! ## The condition -/

/-- Evaluating `e` evaluates an `if` of the same function. -/
def hasIf : Exp → Bool
  | intExp _ => false
  | varExp _ => false
  | lamExp _ _ => false
  | appExp fn arg => fn.hasIf || arg.hasIf
  | bopExp _ arg1 arg2 => arg1.hasIf || arg2.hasIf
  | ifExp _ _ _ => true

/-- A literal or a variable. -/
def isAtom : Exp → Bool
  | intExp _ => true
  | varExp _ => true
  | _ => false

/-- The value of `e1` can be used after `e2`, which is evaluated next, where `entry` says that
`e1` starts in the entry block: it is no temporary, or no `if` is evaluated in between, or its
temporary is defined in the entry block. -/
def keeps (entry : Bool) (e1 e2 : Exp) : Bool := e1.isAtom || !e2.hasIf || entry && !e1.hasIf

/-- The temporaries of `e` and of the functions in it are all used where they are defined.
`entry` says that the evaluation of `e` starts in the entry block of its function. -/
def inOrder : Bool → Exp → Bool
  | _, intExp _ => true
  | _, varExp _ => true
  | _, lamExp _ body => inOrder true body
  | entry, appExp fn arg =>
    inOrder entry fn && inOrder (entry && !fn.hasIf) arg && keeps entry fn arg
  | entry, bopExp _ arg1 arg2 =>
    inOrder entry arg1 && inOrder (entry && !arg1.hasIf) arg2 && keeps entry arg1 arg2
  | entry, ifExp cond then_ els => inOrder entry cond && inOrder false then_ && inOrder false els

/-! ## The numbers a block draws -/

/-- The numbers of the temporaries that the conversion of `e` at `c` defines in the block it
starts in, before any `if`. -/
def first : Exp → Nat → List Nat
  | intExp _, _ => []
  | varExp _, _ => []
  | lamExp _ body, c => [c + body.draws]
  | appExp fn arg, c =>
    fn.first c ++ if fn.hasIf then [] else
      arg.first (c + fn.lead) ++ if arg.hasIf then [] else [c + fn.lead + arg.lead]
  | bopExp _ arg1 arg2, c =>
    arg1.first c ++ if arg1.hasIf then [] else
      arg2.first (c + arg1.lead) ++ if arg2.hasIf then [] else [c + arg1.lead + arg2.lead]
  | ifExp cond _ _, c => cond.first c

/-- And those it defines in the block it ends in, after the last `if`. -/
def here : Exp → Nat → List Nat
  | intExp _, _ => []
  | varExp _, _ => []
  | lamExp _ body, c => [c + body.draws]
  | appExp fn arg, c =>
    (if arg.hasIf then [] else fn.here c) ++ arg.here (c + fn.lead) ++ [c + fn.lead + arg.lead]
  | bopExp _ arg1 arg2, c =>
    (if arg2.hasIf then [] else arg1.here c) ++ arg2.here (c + arg1.lead) ++
      [c + arg1.lead + arg2.lead]
  | ifExp cond _ _, c => [c + cond.lead + 1]

theorem here_subset (e : Exp) (c d : Nat) : ∀ i ∈ e.here c, i ∈ e.numbers c d := by
  induction e generalizing c d with
  | intExp value => exact fun i member => nomatch member
  | varExp name => exact fun i member => nomatch member
  | lamExp param body _ => exact fun i member => List.mem_append_right _ member
  | appExp fn arg ihFn ihArg =>
    intro i member
    have inFn := ihFn c (arg.draws + (1 + d)) i
    have inArg := ihArg (c + fn.lead) (1 + d) i
    simp only [here, numbers, List.mem_append] at member ⊢
    split at member <;> grind
  | bopExp bop arg1 arg2 ih1 ih2 =>
    intro i member
    have in1 := ih1 c (arg2.draws + (1 + d)) i
    have in2 := ih2 (c + arg1.lead) (1 + d) i
    simp only [here, numbers, List.mem_append] at member ⊢
    split at member <;> grind
  | ifExp cond then_ els _ _ _ =>
    intro i member
    simp only [here, numbers, List.mem_append, List.mem_cons] at member ⊢
    tauto

theorem first_subset (e : Exp) (c d : Nat) : ∀ i ∈ e.first c, i ∈ e.numbers c d := by
  induction e generalizing c d with
  | intExp value => exact fun i member => nomatch member
  | varExp name => exact fun i member => nomatch member
  | lamExp param body _ => exact fun i member => List.mem_append_right _ member
  | appExp fn arg ihFn ihArg =>
    intro i member
    have inFn := ihFn c (arg.draws + (1 + d)) i
    have inArg := ihArg (c + fn.lead) (1 + d) i
    simp only [first, numbers, List.mem_append] at member ⊢
    grind
  | bopExp bop arg1 arg2 ih1 ih2 =>
    intro i member
    have in1 := ih1 c (arg2.draws + (1 + d)) i
    have in2 := ih2 (c + arg1.lead) (1 + d) i
    simp only [first, numbers, List.mem_append] at member ⊢
    grind
  | ifExp cond then_ els ihCond _ _ =>
    intro i member
    have inCond := ihCond c (2 + d + then_.draws + els.draws) i member
    simp only [numbers, List.mem_append]
    tauto

/-- The numbers of the first operand, of the second and of the result are different. -/
theorem operands_apart (e1 e2 : Exp) (c d i : Nat) :
    (i ∈ e1.numbers c (e2.draws + (1 + d)) →
      i ∉ e2.numbers (c + e1.lead) (1 + d) ∧ i ≠ c + e1.lead + e2.lead) ∧
    (i ∈ e2.numbers (c + e1.lead) (1 + d) → i ≠ c + e1.lead + e2.lead) := by
  have le1 := e1.lead_le_draws
  have le2 := e2.lead_le_draws
  have range1 := e1.numbers_range c (e2.draws + (1 + d)) i
  have range2 := e2.numbers_range (c + e1.lead) (1 + d) i
  unfold InRange at range1 range2
  refine ⟨fun in1 => ⟨fun in2 => ?_, ?_⟩, fun in2 => ?_⟩
  · have := range1 in1
    have := range2 in2
    omega
  · have := range1 in1
    omega
  · have := range2 in2
    omega

/-- A value that is no atom is a temporary, the last one of the block that the conversion
ends in. -/
theorem value_of_not_isAtom (e : Exp) (c : Nat) (compound : e.isAtom = false) :
    ∃ i, (e.value c).names = [tmp i] ∧ i ∈ e.here c ∧ (i ∈ e.first c ↔ e.hasIf = false) := by
  cases e with
  | intExp value => cases compound
  | varExp name => cases compound
  | lamExp param body =>
    exact ⟨_, rfl, List.mem_singleton_self _, iff_of_true (List.mem_singleton_self _) rfl⟩
  | appExp fn arg =>
    refine ⟨c + fn.lead + arg.lead, rfl, List.mem_append_right _ (List.mem_singleton_self _), ?_⟩
    have inFn := fn.first_subset c (arg.draws + (1 + 0)) (c + fn.lead + arg.lead)
    have inArg := arg.first_subset (c + fn.lead) (1 + 0) (c + fn.lead + arg.lead)
    have apart := operands_apart fn arg c 0 (c + fn.lead + arg.lead)
    simp only [first, hasIf, List.mem_append, Bool.or_eq_false_iff]
    grind
  | bopExp bop arg1 arg2 =>
    refine ⟨c + arg1.lead + arg2.lead, rfl,
      List.mem_append_right _ (List.mem_singleton_self _), ?_⟩
    have in1 := arg1.first_subset c (arg2.draws + (1 + 0)) (c + arg1.lead + arg2.lead)
    have in2 := arg2.first_subset (c + arg1.lead) (1 + 0) (c + arg1.lead + arg2.lead)
    have apart := operands_apart arg1 arg2 c 0 (c + arg1.lead + arg2.lead)
    simp only [first, hasIf, List.mem_append, Bool.or_eq_false_iff]
    grind
  | ifExp cond then_ els =>
    refine ⟨c + cond.lead + 1, rfl, List.mem_singleton_self _,
      iff_of_false (fun member => ?_) Bool.noConfusion⟩
    have range := cond.numbers_range c 2 _ (cond.first_subset c 2 _ member)
    unfold InRange at range
    omega

theorem value_of_isAtom (e : Exp) (c : Nat) (atom : e.isAtom = true) :
    ∀ x ∈ (e.value c).names, x ∈ e.free := by
  cases e with
  | intExp value => exact fun x member => nomatch member
  | varExp name => exact fun x member => Finset.mem_singleton.mpr (List.mem_singleton.mp member)
  | lamExp param body => cases atom
  | appExp fn arg => cases atom
  | bopExp bop arg1 arg2 => cases atom
  | ifExp cond then_ els => cases atom

end Lambcalc.Ast.Exp

namespace Lambcalc.Lower

open Anf Hoist Lambcalc.Convert

/-! ## The condition on A-normal forms, in one piece -/

/-- `TextOk` and `NestedOk` together. Of a function it asks only for the variables of its body,
although closure conversion captures those of what follows as well. -/
def Ordered (base : Finset Var) : Finset Var → Exp → Prop
  | named, .haltExp value => value.names.toFinset ⊆ named
  | named, .funExp name params body rest =>
    body.free \ params.toFinset ⊆ named ∧ Ordered base (insert name named) rest
  | named, .joinExp _ slot body rest =>
    Ordered base (slot.toList.toFinset ∪ base) body ∧ Ordered base named rest
  | named, .jumpExp _ slotValue => (slotValue.toList.flatMap Value.names).toFinset ⊆ named
  | named, .appExp name funName paramValues rest =>
    (funName :: paramValues.flatMap Value.names).toFinset ⊆ named ∧
      Ordered base (insert name named) rest
  | named, .bopExp name _ param1 param2 rest =>
    (param1.names ++ param2.names).toFinset ⊆ named ∧ Ordered base (insert name named) rest
  | named, .ifExp cond thenBranch elseBranch =>
    cond.names.toFinset ⊆ named ∧ Ordered base base thenBranch ∧ Ordered base base elseBranch
  | named, .tupleExp name values rest =>
    (values.flatMap Value.names).toFinset ⊆ named ∧ Ordered base (insert name named) rest
  | named, .projExp name tuple _ rest => {tuple} ⊆ named ∧ Ordered base (insert name named) rest

theorem sdiff_singleton_subset {names named : Finset Var} {name : Var} :
    names \ {name} ⊆ named ↔ names ⊆ insert name named := by
  rw [Finset.sdiff_singleton_eq_erase, Finset.subset_insert_iff]

theorem and_iff_assoc {p q r s : Prop} (parts : q ↔ r ∧ s) : p ∧ q ↔ (p ∧ r) ∧ s :=
  (and_congr_right' parts).trans and_assoc.symm

/-- What is read has been entered. -/
theorem Ordered.free {base named : Finset Var} {t : Exp} (ordered : Ordered base named t) :
    t.free ⊆ named ∪ base := by
  have later : ∀ {names named : Finset Var} {name : Var}, names ⊆ insert name named ∪ base →
      names \ {name} ⊆ named ∪ base := by
    intro names named name within
    rwa [sdiff_singleton_subset, ← Finset.insert_union]
  induction t generalizing named with
  | haltExp value => exact ordered.trans Finset.subset_union_left
  | jumpExp joinName slotValue => exact ordered.trans Finset.subset_union_left
  | funExp name params body rest _ ih =>
    exact Finset.union_subset (ordered.1.trans Finset.subset_union_left) (later (ih ordered.2))
  | joinExp name slot body rest ihBody ihRest =>
    refine Finset.union_subset (fun x member => ?_) (ihRest ordered.2)
    obtain ⟨occurs, notSlot⟩ := Finset.mem_sdiff.mp member
    have found := ihBody ordered.1 occurs
    simp only [Finset.mem_union] at found ⊢
    tauto
  | appExp name funName paramValues rest ih =>
    exact Finset.union_subset (ordered.1.trans Finset.subset_union_left) (later (ih ordered.2))
  | bopExp name bop param1 param2 rest ih =>
    exact Finset.union_subset (ordered.1.trans Finset.subset_union_left) (later (ih ordered.2))
  | ifExp cond thenBranch elseBranch ihThen ihElse =>
    have inThen := ihThen ordered.2.1
    have inElse := ihElse ordered.2.2
    rw [Finset.union_self] at inThen inElse
    exact Finset.union_subset (Finset.union_subset (ordered.1.trans Finset.subset_union_left)
      (inThen.trans Finset.subset_union_right)) (inElse.trans Finset.subset_union_right)
  | tupleExp name values rest ih =>
    exact Finset.union_subset (ordered.1.trans Finset.subset_union_left) (later (ih ordered.2))
  | projExp name tuple index rest ih =>
    exact Finset.union_subset (ordered.1.trans Finset.subset_union_left) (later (ih ordered.2))

/-- What can be used everywhere and occurs in `t` has been entered before `t`. -/
theorem ordered_iff {base named : Finset Var} {t : Exp}
    (before : ∀ x ∈ base, x ∈ t.free → x ∈ named) :
    Ordered base named t ↔ TextOk named t ∧ NestedOk base t := by
  have later : ∀ {names rest named : Finset Var} {name : Var},
      (∀ x ∈ base, x ∈ names ∪ (rest \ {name}) → x ∈ named) →
        ∀ x ∈ base, x ∈ rest → x ∈ insert name named := by
    intro names rest named name before x inBase occurs
    by_cases eq : x = name
    · exact eq ▸ Finset.mem_insert_self ..
    · exact Finset.mem_insert_of_mem (before x inBase
        (Finset.mem_union_right _ (Finset.mem_sdiff.mpr ⟨occurs, by simpa using eq⟩)))
  induction t generalizing named with
  | haltExp value => exact (and_iff_left trivial).symm
  | jumpExp joinName slotValue => exact (and_iff_left trivial).symm
  | funExp name params body rest _ ih =>
    have rests := ih (later before)
    unfold Ordered TextOk NestedOk
    constructor
    · intro ok
      obtain ⟨textOk, nestedOk⟩ := rests.mp ok.2
      refine ⟨⟨Finset.union_subset ok.1 (fun x member => ?_), textOk⟩, nestedOk⟩
      obtain ⟨occurs, ne⟩ := Finset.mem_sdiff.mp member
      rcases Finset.mem_union.mp (ok.2.free occurs) with found | inBase
      · exact (Finset.mem_insert.mp found).resolve_left (by simpa using ne)
      · exact before x inBase (Finset.mem_union_right _ member)
    · intro ok
      exact ⟨Finset.subset_union_left.trans ok.1.1, rests.mpr ⟨ok.1.2, ok.2⟩⟩
  | joinExp name slot body rest ihBody ihRest =>
    have bodies := ihBody (fun x inBase _ => Finset.mem_union_right slot.toList.toFinset inBase)
    have rests := ihRest (fun x inBase occurs => before x inBase (Finset.mem_union_right _ occurs))
    unfold Ordered TextOk NestedOk
    tauto
  | appExp name funName paramValues rest ih => exact and_iff_assoc (ih (later before))
  | bopExp name bop param1 param2 rest ih => exact and_iff_assoc (ih (later before))
  | ifExp cond thenBranch elseBranch ihThen ihElse =>
    have inThen := ihThen (fun x inBase _ => inBase)
    have inElse := ihElse (fun x inBase _ => inBase)
    unfold Ordered TextOk NestedOk
    tauto
  | tupleExp name values rest ih => exact and_iff_assoc (ih (later before))
  | projExp name tuple index rest ih => exact and_iff_assoc (ih (later before))

/-! ## The condition on the A-normal form of an expression -/

/-- Everything in `t` is entered before it is used. -/
def AllOrdered (base named : Finset Var) (t : Exp) : Prop := Ordered base named t ∧ FunctionsOk t

/-- The temporaries with these numbers. -/
def tmps (numbers : List Nat) : Finset Var := (numbers.map tmp).toFinset

@[simp] theorem tmp_mem_tmps {numbers : List Nat} {i : Nat} :
    tmp i ∈ tmps numbers ↔ i ∈ numbers := by
  rw [tmps, List.mem_toFinset, List.mem_map]
  constructor
  · intro found
    obtain ⟨j, member, eq⟩ := found
    exact tmp_injective eq ▸ member
  · exact fun member => ⟨i, member, rfl⟩

@[simp] theorem tmps_append (left right : List Nat) :
    tmps (left ++ right) = tmps left ∪ tmps right := by
  rw [tmps, List.map_append, List.toFinset_append, tmps, tmps]

@[simp] theorem tmps_singleton (i : Nat) : tmps [i] = {tmp i} := rfl

@[simp] theorem tmps_nil : tmps [] = ∅ := rfl

/-- What the block that `e` ends in has entered: what it had, unless that is a new block, and
the temporaries of `e`. -/
def after (base named : Finset Var) (e : Ast.Exp) (c : Nat) : Finset Var :=
  (if e.hasIf then base else named) ∪ tmps (e.here c)

/-- Of the temporaries with these numbers, `base` has the ones of the block they start in, if
that is the entry block, and no others. -/
def Based (base : Finset Var) (entry : Bool) (numbers first : List Nat) : Prop :=
  ∀ i ∈ numbers, tmp i ∈ base ↔ entry = true ∧ i ∈ first

theorem subset_after {base named names : Finset Var} (inBase : names ⊆ base)
    (inNamed : names ⊆ named) (e : Ast.Exp) (c : Nat) : names ⊆ after base named e c := by
  refine Finset.subset_union_left.trans' ?_
  split
  · exact inBase
  · exact inNamed

theorem value_subset_after {base named : Finset Var} {e : Ast.Exp} (c : Nat)
    (inBase : e.free ⊆ base) (inNamed : e.free ⊆ named) :
    ∀ x ∈ (e.value c).names, x ∈ after base named e c := by
  intro x member
  by_cases atom : e.isAtom = true
  · exact subset_after inBase inNamed e c (e.value_of_isAtom c atom x member)
  · obtain ⟨i, names, isHere, -⟩ := e.value_of_not_isAtom c (by simpa using atom)
    obtain rfl : x = tmp i := by simpa [names] using member
    exact Finset.mem_union_right _ (tmp_mem_tmps.mpr isHere)

section Operands

variable {base named : Finset Var} {entry : Bool} {e1 e2 : Ast.Exp} {c d : Nat}

/-- The value of a first operand is still there after the second. -/
theorem value_subset_keeps (based : Based base entry (e1.numbers c (e2.draws + (1 + d)))
    (e1.first c))
    (inBase : e1.free ⊆ base) (inNamed : e1.free ⊆ named) :
    (∀ x ∈ (e1.value c).names, x ∈ after base (after base named e1 c) e2 (c + e1.lead)) ↔
      e1.keeps entry e2 = true := by
  have value : ∀ x ∈ (e1.value c).names, x ∈ after base named e1 c :=
    value_subset_after c inBase inNamed
  by_cases hasIf : e2.hasIf = true
  · have eq : after base (after base named e1 c) e2 (c + e1.lead) =
        base ∪ tmps (e2.here (c + e1.lead)) := by
      simp [after, hasIf]
    rw [eq, Ast.Exp.keeps, hasIf]
    by_cases atom : e1.isAtom = true
    · simp only [atom, Bool.true_or, iff_true]
      exact fun x member => Finset.mem_union_left _ (inBase (e1.value_of_isAtom c atom x member))
    · have compound : e1.isAtom = false := by simpa using atom
      obtain ⟨i, names, isHere, isFirst⟩ := e1.value_of_not_isAtom c compound
      have drawn := e1.here_subset c (e2.draws + (1 + d)) i isHere
      have notLater : i ∉ e2.here (c + e1.lead) := fun member =>
        ((e1.operands_apart e2 c d i).1 drawn).1 (e2.here_subset _ _ i member)
      simp [names, compound, based i drawn, isFirst, notLater]
  · have eq : after base (after base named e1 c) e2 (c + e1.lead) =
        after base named e1 c ∪ tmps (e2.here (c + e1.lead)) := by
      simp [after, hasIf]
    rw [eq, Ast.Exp.keeps]
    simp only [Bool.not_eq_true] at hasIf
    simp only [hasIf, Bool.not_false, Bool.or_true, Bool.true_or, iff_true]
    exact fun x member => Finset.mem_union_left _ (value x member)

section Numbers

variable (based : Based base entry
  (e1.numbers c (e2.draws + (1 + d)) ++ e2.numbers (c + e1.lead) (1 + d) ++ [c + e1.lead + e2.lead])
  (e1.first c ++ if e1.hasIf then [] else
    e2.first (c + e1.lead) ++ if e2.hasIf then [] else [c + e1.lead + e2.lead]))
include based

theorem Based.first : Based base entry (e1.numbers c (e2.draws + (1 + d))) (e1.first c) := by
  intro i member
  have apart := (e1.operands_apart e2 c d i).1 member
  have notSecond : i ∉ e2.first (c + e1.lead) := fun isFirst =>
    apart.1 (e2.first_subset _ _ i isFirst)
  rw [based i (List.mem_append_left _ (List.mem_append_left _ member))]
  simp only [List.mem_append]
  grind

theorem Based.second : Based base (entry && !e1.hasIf) (e2.numbers (c + e1.lead) (1 + d))
    (e2.first (c + e1.lead)) := by
  intro i member
  have apart := e1.operands_apart e2 c d i
  have notFirst : i ∉ e1.first c := fun isFirst =>
    (apart.1 (e1.first_subset _ _ i isFirst)).1 member
  rw [based i (List.mem_append_left _ (List.mem_append_right _ member))]
  simp only [List.mem_append, Bool.and_eq_true, Bool.not_eq_true']
  grind

end Numbers

/-- `node` uses two values, defines `name` and continues with `tk`. -/
def Uses (value1 value2 : Value) (name : Var) (node tk : Exp) : Prop :=
  ∀ base named, AllOrdered base named node ↔
    ((∀ x ∈ value1.names, x ∈ named) ∧ ∀ x ∈ value2.names, x ∈ named) ∧
      AllOrdered base (insert name named) tk

theorem uses_appExp (apart : (Ast.Exp.appExp e1 e2).Apart) (value2 : Value) (name : Var)
    (tk : Exp) :
    Uses (e1.value c) value2 name (.appExp name (e1.value c).name [value2] tk) tk := by
  intro base named
  simp only [AllOrdered, Ordered, FunctionsOk, Ast.Exp.fn_value apart.named, Finset.subset_iff,
    List.mem_toFinset, List.mem_cons, List.flatMap_cons, List.flatMap_nil, List.append_nil,
    List.not_mem_nil, or_false]
  grind

theorem uses_bopExp (bop : Ast.Bop) (value1 value2 : Value) (name : Var) (tk : Exp) :
    Uses value1 value2 name (.bopExp name bop value1 value2 tk) tk := by
  intro base named
  simp only [AllOrdered, Ordered, FunctionsOk, Finset.subset_iff, List.mem_toFinset,
    List.mem_append]
  grind

theorem after_operands (base named : Finset Var) (e1 e2 : Ast.Exp) (c : Nat) :
    insert (tmp (c + e1.lead + e2.lead)) (after base (after base named e1 c) e2 (c + e1.lead)) =
      (if e1.hasIf || e2.hasIf then base else named) ∪
        tmps ((if e2.hasIf then [] else e1.here c) ++ e2.here (c + e1.lead) ++
          [c + e1.lead + e2.lead]) := by
  by_cases if2 : e2.hasIf = true
  · simp [after, if2]
  · simp [after, if2]

/-- Both operands, in their order, and then the operation. -/
theorem ordered_operands {t1 t2 node tk : Exp}
    (uses : Uses (e1.value c) (e2.value (c + e1.lead)) (tmp (c + e1.lead + e2.lead)) node tk)
    (based : Based base entry (e1.numbers c (e2.draws + (1 + d))) (e1.first c))
    (inBase : e1.free ∪ e2.free ⊆ base) (inNamed : e1.free ∪ e2.free ⊆ named)
    (ordered1 : AllOrdered base named t1 ↔
      e1.inOrder entry = true ∧ AllOrdered base (after base named e1 c) t2)
    (ordered2 : AllOrdered base (after base named e1 c) t2 ↔
      e2.inOrder (entry && !e1.hasIf) = true ∧
        AllOrdered base (after base (after base named e1 c) e2 (c + e1.lead)) node) :
    AllOrdered base named t1 ↔
      (e1.inOrder entry && e2.inOrder (entry && !e1.hasIf) && e1.keeps entry e2) = true ∧
        AllOrdered base (insert (tmp (c + e1.lead + e2.lead))
          (after base (after base named e1 c) e2 (c + e1.lead))) tk := by
  obtain ⟨inBase1, inBase2⟩ := Finset.union_subset_iff.mp inBase
  obtain ⟨inNamed1, inNamed2⟩ := Finset.union_subset_iff.mp inNamed
  have inAfter := subset_after inBase2 inNamed2 e1 c
  have kept := value_subset_keeps (d := d) based inBase1 inNamed1
  have value2 := value_subset_after (c + e1.lead) inBase2 inAfter
  rw [ordered1, ordered2, uses, kept, Bool.and_eq_true, Bool.and_eq_true]
  tauto

end Operands

theorem texts_around (e : Ast.Exp) (c d : Nat) (tk : Exp) :
    texts (e.around c d tk) = tmps (e.first c) ∪ if e.hasIf then ∅ else texts tk := by
  induction e generalizing c d tk with
  | intExp value => simp [Ast.Exp.around, Ast.Exp.first, Ast.Exp.hasIf]
  | varExp name => simp [Ast.Exp.around, Ast.Exp.first, Ast.Exp.hasIf]
  | lamExp param body _ =>
    simp [Ast.Exp.around, Ast.Exp.first, Ast.Exp.hasIf, texts, Finset.singleton_union]
  | appExp fn arg ihFn ihArg =>
    simp only [Ast.Exp.around, Ast.Exp.first, Ast.Exp.hasIf, texts, ihFn, ihArg]
    by_cases ifFn : fn.hasIf = true <;> by_cases ifArg : arg.hasIf = true <;>
      simp [ifFn, ifArg]
  | bopExp bop arg1 arg2 ih1 ih2 =>
    simp only [Ast.Exp.around, Ast.Exp.first, Ast.Exp.hasIf, texts, ih1, ih2]
    by_cases if1 : arg1.hasIf = true <;> by_cases if2 : arg2.hasIf = true <;>
      simp [if1, if2]
  | ifExp cond then_ els ihCond _ _ =>
    simp [Ast.Exp.around, Ast.Exp.first, Ast.Exp.hasIf, texts, ihCond]

/-- A function body, in which the parameter and the free variables can be used. -/
theorem functionOk_around {e : Ast.Exp} {c : Nat} {base : Finset Var} (apart : e.Apart)
    (inBase : e.free ⊆ base) (outer : ∀ i ∈ e.numbers c 0, tmp i ∉ base)
    (ordered : ∀ base named, Based base true (e.numbers c 0) (e.first c) → e.free ⊆ base →
      e.free ⊆ named → (AllOrdered base named (e.around c 0 (.haltExp (e.value c))) ↔
        e.inOrder true = true ∧ AllOrdered base (after base named e c) (.haltExp (e.value c)))) :
    FunctionOk base (e.around c 0 (.haltExp (e.value c))) ∧
      FunctionsOk (e.around c 0 (.haltExp (e.value c))) ↔ e.inOrder true = true := by
  have entered : texts (e.around c 0 (.haltExp (e.value c))) = tmps (e.first c) := by
    rw [texts_around]
    split <;> simp [texts]
  have inBoth : e.free ⊆ base ∪ tmps (e.first c) := inBase.trans Finset.subset_union_left
  have based : Based (base ∪ tmps (e.first c)) true (e.numbers c 0) (e.first c) := by
    intro i member
    simp [outer i member]
  have before : ∀ x ∈ base ∪ tmps (e.first c),
      x ∈ (e.around c 0 (.haltExp (e.value c))).free → x ∈ base :=
    fun x _ occurs => inBase ((mem_free_haltExp apart c x).mp occurs)
  have value : ∀ x ∈ (e.value c).names, x ∈ after (base ∪ tmps (e.first c)) base e c :=
    value_subset_after c inBoth inBase
  have split := ordered_iff before
  have body := ordered _ base based inBoth inBase
  unfold AllOrdered at body
  unfold FunctionOk
  rw [entered, ← split, body]
  simp only [Ordered, FunctionsOk, Finset.subset_iff, List.mem_toFinset]
  tauto

section Branches

variable {base : Finset Var} {entry : Bool} {cond then_ els : Ast.Exp} {c d : Nat}
  (based : Based base entry ((Ast.Exp.ifExp cond then_ els).numbers c d) (cond.first c))
include based

theorem Based.ofCond :
    Based base entry (cond.numbers c (2 + d + then_.draws + els.draws)) (cond.first c) :=
  fun i member => based i
    (List.mem_append_left _ (List.mem_append_left _ (List.mem_append_left _ member)))

theorem Based.branch {e : Ast.Exp} {m : Nat} (within : c + cond.lead + 2 + d ≤ m)
    (below : m + e.draws ≤ c + cond.lead + 2 + d + then_.draws + els.draws)
    (drawn : ∀ i ∈ e.numbers m 0, i ∈ (Ast.Exp.ifExp cond then_ els).numbers c d) :
    Based base false (e.numbers m 0) (e.first m) := by
  intro i member
  have notFirst : i ∉ cond.first c := by
    intro isFirst
    have inCond := cond.numbers_range c (2 + d + then_.draws + els.draws) i
      (cond.first_subset _ _ i isFirst)
    have inBranch := e.numbers_range m 0 i member
    have le := e.lead_le_draws
    unfold Ast.Exp.InRange at inCond inBranch
    omega
  rw [based i (drawn i member)]
  simp [notFirst]

theorem Based.ofThen : Based base false (then_.numbers (c + cond.lead + 2 + d) 0)
    (then_.first (c + cond.lead + 2 + d)) :=
  based.branch le_rfl (Nat.le_add_right _ _) fun _ member =>
    List.mem_append_left _ (List.mem_append_right _ member)

theorem Based.ofElse : Based base false (els.numbers (c + cond.lead + 2 + d + then_.draws) 0)
    (els.first (c + cond.lead + 2 + d + then_.draws)) :=
  based.branch (Nat.le_add_right _ _) le_rfl fun _ member => List.mem_append_right _ member

end Branches

/-- A branch, which ends in a jump with its value. -/
theorem ordered_branch {e : Ast.Exp} {base : Finset Var} {joinName : Var} {m : Nat}
    (inBase : e.free ⊆ base)
    (ordered : AllOrdered base base (e.around m 0 (.jumpExp joinName (some (e.value m)))) ↔
      e.inOrder false = true ∧
        AllOrdered base (after base base e m) (.jumpExp joinName (some (e.value m)))) :
    AllOrdered base base (e.around m 0 (.jumpExp joinName (some (e.value m)))) ↔
      e.inOrder false = true := by
  have value := value_subset_after m inBase inBase
  rw [ordered]
  simp only [AllOrdered, Ordered, FunctionsOk, Finset.subset_iff, List.mem_toFinset,
    Option.toList_some, List.flatMap_cons, List.flatMap_nil, List.append_nil, and_true]
  tauto

/-- No temporary drawn in a function body is known outside. -/
theorem outer_around {param : String} {body : Ast.Exp} (apart : (Ast.Exp.lamExp param body).Apart)
    {c : Nat} {tk : Exp} (fits : Fits (.varValue (tmp (c + body.draws))) c tk) :
    ∀ i ∈ body.numbers c 0, tmp i ∉ [param].toFinset ∪ (Exp.funExp (tmp (c + body.draws)) [param]
      (body.around c 0 (.haltExp (body.value c))) tk).free := by
  intro i member known
  have range := body.numbers_range c 0 i member
  have le := body.lead_le_draws
  unfold Ast.Exp.InRange at range
  rcases Finset.mem_union.mp known with isParam | free
  · exact apart.names param (List.mem_cons_self) i (by simpa using Eq.symm (by simpa using isParam))
  · rcases Finset.mem_union.mp free with inBody | later
    · have occurs := (mem_free_haltExp apart.body c _).mp (Finset.mem_sdiff.mp inBody).1
      exact apart.body.free i occurs
    · rcases fits.outer i (Finset.mem_sdiff.mp later).1 with lt | eq
      · omega
      · have := tmp_injective (List.mem_singleton.mp eq)
        omega

/-- A conversion keeps the order exactly if the expression is in order. -/
theorem ordered_around (e : Ast.Exp) (apart : e.Apart) {entry : Bool} {base named : Finset Var}
    {c d : Nat} {tk : Exp} (fits : Fits (e.value c) c tk)
    (based : Based base entry (e.numbers c d) (e.first c)) (inBase : e.free ⊆ base)
    (inNamed : e.free ⊆ named) : AllOrdered base named (e.around c d tk) ↔
      e.inOrder entry = true ∧ AllOrdered base (after base named e c) tk := by
  induction e generalizing entry base named c d tk with
  | intExp value =>
    simp [Ast.Exp.around, Ast.Exp.inOrder, after, Ast.Exp.hasIf, Ast.Exp.here]
  | varExp name =>
    simp [Ast.Exp.around, Ast.Exp.inOrder, after, Ast.Exp.hasIf, Ast.Exp.here]
  | lamExp param body ih =>
    have freeBody := mem_free_haltExp apart.body c
    have captured :
        (body.around c 0 (.haltExp (body.value c))).free \ [param].toFinset ⊆ named := by
      intro x member
      obtain ⟨occurs, notParam⟩ := Finset.mem_sdiff.mp member
      exact inNamed (Finset.mem_erase.mpr ⟨by simpa using notParam, (freeBody x).mp occurs⟩)
    have available : body.free ⊆ [param].toFinset ∪ (Exp.funExp (tmp (c + body.draws)) [param]
        (body.around c 0 (.haltExp (body.value c))) tk).free := by
      intro x occurs
      by_cases eq : x = param
      · simp [eq]
      · exact Finset.mem_union_right _ (Finset.mem_union_left _ (Finset.mem_sdiff.mpr
          ⟨(freeBody x).mpr occurs, by simpa using eq⟩))
    have function := functionOk_around apart.body available (outer_around apart fits)
      (fun _ _ based inBase inNamed => ih apart.body (Fits.haltExp _ c) based inBase inNamed)
    have entered : after base named (.lamExp param body) c =
        insert (tmp (c + body.draws)) named := by
      simp [after, Ast.Exp.hasIf, Ast.Exp.here]
    rw [entered, Ast.Exp.inOrder, ← function, Ast.Exp.around]
    simp only [AllOrdered, Ordered, FunctionsOk]
    tauto
  | appExp fn arg ihFn ihArg =>
    have operands := operands_appExp apart.named c (arg.value (c + fn.lead))
      (tmp (c + fn.lead + arg.lead)) tk
    have fits2 := operands.second apart.fn fits
    have fits1 := operands.first apart.fn apart.arg fits
      (mem_free_around arg apart.arg (d := 1 + d) fits2)
    obtain ⟨inBase1, inBase2⟩ := Finset.union_subset_iff.mp inBase
    obtain ⟨inNamed1, inNamed2⟩ := Finset.union_subset_iff.mp inNamed
    have ordered1 := ihFn apart.fn fits1 (Based.first based) inBase1 inNamed1
    have ordered2 := ihArg apart.arg fits2 (Based.second based) inBase2
      (subset_after inBase2 inNamed2 fn c)
    have both := ordered_operands (uses_appExp apart _ _ tk) (Based.first based) inBase inNamed
      ordered1 ordered2
    rwa [after_operands] at both
  | bopExp bop arg1 arg2 ih1 ih2 =>
    have operands := operands_bopExp bop (arg1.value c) (arg2.value (c + arg1.lead))
      (tmp (c + arg1.lead + arg2.lead)) tk
    have fits2 := operands.second apart.arg1 fits
    have fits1 := operands.first apart.arg1 apart.arg2 fits
      (mem_free_around arg2 apart.arg2 (d := 1 + d) fits2)
    obtain ⟨inBase1, inBase2⟩ := Finset.union_subset_iff.mp inBase
    obtain ⟨inNamed1, inNamed2⟩ := Finset.union_subset_iff.mp inNamed
    have ordered1 := ih1 apart.arg1 fits1 (Based.first based) inBase1 inNamed1
    have ordered2 := ih2 apart.arg2 fits2 (Based.second based) inBase2
      (subset_after inBase2 inNamed2 arg1 c)
    have both := ordered_operands (uses_bopExp bop _ _ _ tk) (Based.first based) inBase inNamed
      ordered1 ordered2
    rwa [after_operands] at both
  | ifExp cond then_ els ihCond ihThen ihEls =>
    have freeThen := mem_free_jumpExp apart.then_ (tmp (c + cond.lead)) (c + cond.lead + 2 + d)
    have freeEls := mem_free_jumpExp apart.els (tmp (c + cond.lead))
      (c + cond.lead + 2 + d + then_.draws)
    have branching := branching_joinExp freeThen freeEls (cond.value c) (tmp (c + cond.lead))
      (tmp (c + cond.lead + 1)) tk
    obtain ⟨inBase12, inBase3⟩ := Finset.union_subset_iff.mp inBase
    obtain ⟨inBase1, inBase2⟩ := Finset.union_subset_iff.mp inBase12
    have inNamed1 : cond.free ⊆ named :=
      (Finset.subset_union_left.trans Finset.subset_union_left).trans inNamed
    have orderedCond := ihCond apart.cond (branching.first apart.then_ apart.els fits)
      (Based.ofCond based)
      inBase1 inNamed1
    have orderedThen := ordered_branch inBase2
      (ihThen apart.then_ (Fits.jumpExp (tmp (c + cond.lead)) _ _) (Based.ofThen based)
        inBase2 inBase2)
    have orderedEls := ordered_branch inBase3
      (ihEls apart.els (Fits.jumpExp (tmp (c + cond.lead)) _ _) (Based.ofElse based)
        inBase3 inBase3)
    have value := value_subset_after c inBase1 inNamed1
    have entered : after base named (.ifExp cond then_ els) c =
        [tmp (c + cond.lead + 1)].toFinset ∪ base := by
      simp [after, Ast.Exp.hasIf, Ast.Exp.here, Finset.union_comm]
    rw [entered, Ast.Exp.inOrder, Ast.Exp.around, orderedCond, Bool.and_eq_true, Bool.and_eq_true,
      ← orderedThen, ← orderedEls]
    unfold AllOrdered
    simp only [Ordered, FunctionsOk, Option.toList_some, Finset.subset_iff, List.mem_toFinset]
    tauto

end Lambcalc.Lower
