import Lambcalc.Convert.Fresh
import Lambcalc.Lower.Nested

/-!
# The order of blocks and the order of definitions

A condition on A-normal forms under which lowering the functions made of them looks every name
up after it has been entered, and only then. Of one function, the entry block comes first, so
what it enters (`texts`) can be used everywhere. Any other block comes after the blocks nested
in it: a nested block has what the entry block entered and its own slot, but nothing of the
blocks around it (`NestedOk`).

The names that closure conversion inserts are entered right before they are used, and the
condition does not mention them.
-/

namespace Lambcalc.Lower

open Anf Hoist Lambcalc.Convert

/-! ## The condition -/

/-- The names the own block of `t` enters. -/
def texts : Exp → Finset Var
  | .haltExp _ => ∅
  | .funExp name _ _ rest => insert name (texts rest)
  | .joinExp _ _ _ rest => texts rest
  | .jumpExp _ _ => ∅
  | .appExp name _ _ rest => insert name (texts rest)
  | .bopExp name _ _ _ rest => insert name (texts rest)
  | .ifExp _ _ _ => ∅
  | .tupleExp name _ rest => insert name (texts rest)
  | .projExp name _ _ rest => insert name (texts rest)

/-- The names the blocks nested in `t` enter. -/
def inner : Exp → Finset Var
  | .haltExp _ => ∅
  | .funExp _ _ _ rest => inner rest
  | .joinExp _ slot body rest => inner body ∪ ((slot.toList.toFinset ∪ texts body) ∪ inner rest)
  | .jumpExp _ _ => ∅
  | .appExp _ _ _ rest => inner rest
  | .bopExp _ _ _ _ rest => inner rest
  | .ifExp _ thenBranch elseBranch =>
    inner thenBranch ∪ (inner elseBranch ∪ (texts thenBranch ∪ texts elseBranch))
  | .tupleExp _ _ rest => inner rest
  | .projExp _ _ _ rest => inner rest

/-- The own block of `t` has all names it uses, if it starts with those of `named`. A function
uses the variables it captures. -/
def TextOk : Finset Var → Exp → Prop
  | named, .haltExp value => value.names.toFinset ⊆ named
  | named, .funExp name params body rest =>
    (Exp.funExp name params body rest).free ⊆ named ∧ TextOk (insert name named) rest
  | named, .joinExp _ _ _ rest => TextOk named rest
  | named, .jumpExp _ slotValue => (slotValue.toList.flatMap Value.names).toFinset ⊆ named
  | named, .appExp name funName paramValues rest =>
    (funName :: paramValues.flatMap Value.names).toFinset ⊆ named ∧
      TextOk (insert name named) rest
  | named, .bopExp name _ param1 param2 rest =>
    (param1.names ++ param2.names).toFinset ⊆ named ∧ TextOk (insert name named) rest
  | named, .ifExp cond _ _ => cond.names.toFinset ⊆ named
  | named, .tupleExp name values rest =>
    (values.flatMap Value.names).toFinset ⊆ named ∧ TextOk (insert name named) rest
  | named, .projExp name tuple _ rest => {tuple} ⊆ named ∧ TextOk (insert name named) rest

/-- Every block nested in `t` has all names it uses, if besides its slot it starts with those of
`base`. -/
def NestedOk (base : Finset Var) : Exp → Prop
  | .haltExp _ => True
  | .funExp _ _ _ rest => NestedOk base rest
  | .joinExp _ slot body rest =>
    NestedOk base body ∧ TextOk (slot.toList.toFinset ∪ base) body ∧ NestedOk base rest
  | .jumpExp _ _ => True
  | .appExp _ _ _ rest => NestedOk base rest
  | .bopExp _ _ _ _ rest => NestedOk base rest
  | .ifExp _ thenBranch elseBranch =>
    NestedOk base thenBranch ∧ NestedOk base elseBranch ∧ TextOk base thenBranch ∧
      TextOk base elseBranch
  | .tupleExp _ _ rest => NestedOk base rest
  | .projExp _ _ _ rest => NestedOk base rest

/-- A function body has all names it uses, if it starts with those of `base`. -/
def FunctionOk (base : Finset Var) (body : Exp) : Prop :=
  TextOk base body ∧ NestedOk (base ∪ texts body) body

/-- Every function of `t`, at any depth, has all names it uses. -/
def FunctionsOk : Exp → Prop
  | .haltExp _ => True
  | .funExp name params body rest =>
    FunctionsOk body ∧ FunctionOk (params.toFinset ∪ (Exp.funExp name params body rest).free) body ∧
      FunctionsOk rest
  | .joinExp _ _ body rest => FunctionsOk body ∧ FunctionsOk rest
  | .jumpExp _ _ => True
  | .appExp _ _ _ rest => FunctionsOk rest
  | .bopExp _ _ _ _ rest => FunctionsOk rest
  | .ifExp _ thenBranch elseBranch => FunctionsOk thenBranch ∧ FunctionsOk elseBranch
  | .tupleExp _ _ rest => FunctionsOk rest
  | .projExp _ _ _ rest => FunctionsOk rest

/-! ## Names of a term -/

/-- `x` is free or bound in `t`. -/
def Occurs (t : Exp) (x : Var) : Prop := x ∈ t.free ∨ x ∈ t.boundNames

section Occurrences

variable {name x : Var} {params : List Var} {slot : Option Var} {body rest : Exp}

theorem Occurs.funBody (occurs : Occurs body x) : Occurs (.funExp name params body rest) x := by
  simp only [Occurs, Exp.free, Exp.boundNames, Finset.mem_union, Finset.mem_sdiff,
    List.mem_toFinset, List.mem_cons, List.mem_append] at occurs ⊢
  tauto

theorem Occurs.funRest (occurs : Occurs rest x) : Occurs (.funExp name params body rest) x := by
  simp only [Occurs, Exp.free, Exp.boundNames, Finset.mem_union, Finset.mem_sdiff,
    Finset.mem_singleton, List.mem_cons, List.mem_append] at occurs ⊢
  tauto

theorem Occurs.joinBody (occurs : Occurs body x) : Occurs (.joinExp name slot body rest) x := by
  simp only [Occurs, Exp.free, Exp.boundNames, Finset.mem_union, Finset.mem_sdiff,
    List.mem_toFinset, List.mem_cons, List.mem_append] at occurs ⊢
  tauto

theorem Occurs.joinRest (occurs : Occurs rest x) : Occurs (.joinExp name slot body rest) x := by
  simp only [Occurs, Exp.free, Exp.boundNames, Finset.mem_union, List.mem_cons,
    List.mem_append] at occurs ⊢
  tauto

theorem Occurs.letRest {t : Exp} (occurs : Occurs rest x)
    (bound : t.boundNames = name :: rest.boundNames) (free : rest.free \ {name} ⊆ t.free) :
    Occurs t x := by
  unfold Occurs
  rw [bound, List.mem_cons]
  rcases occurs with occurs | binds
  · by_cases eq : x = name
    · exact .inr (.inl eq)
    · exact .inl (free (Finset.mem_sdiff.mpr ⟨occurs, by simpa using eq⟩))
  · exact .inr (.inr binds)

theorem Occurs.appRest {funName : Var} {paramValues : List Value} (occurs : Occurs rest x) :
    Occurs (.appExp name funName paramValues rest) x :=
  occurs.letRest rfl Finset.subset_union_right

theorem Occurs.bopRest {bop : Ast.Bop} {param1 param2 : Value} (occurs : Occurs rest x) :
    Occurs (.bopExp name bop param1 param2 rest) x :=
  occurs.letRest rfl Finset.subset_union_right

theorem Occurs.thenBranch {cond : Value} (occurs : Occurs body x) :
    Occurs (.ifExp cond body rest) x := by
  simp only [Occurs, Exp.free, Exp.boundNames, Finset.mem_union, List.mem_append] at occurs ⊢
  tauto

theorem Occurs.elseBranch {cond : Value} (occurs : Occurs rest x) :
    Occurs (.ifExp cond body rest) x := by
  simp only [Occurs, Exp.free, Exp.boundNames, Finset.mem_union, List.mem_append] at occurs ⊢
  tauto

end Occurrences

/-- A tidy A-normal form, none of whose names is inserted by closure conversion. -/
structure Plain (t : Exp) : Prop where
  tidy : t.Tidy
  anf : isAnf t = true
  apart : ∀ x, Occurs t x → ¬ Inserted x

section Parts

variable {name : Var} {params : List Var} {slot : Option Var} {body rest : Exp}

theorem Plain.funBody (plain : Plain (.funExp name params body rest)) : Plain body :=
  ⟨plain.tidy.funBody, (Bool.and_eq_true_iff.mp plain.anf).1,
    fun x occurs => plain.apart x occurs.funBody⟩

theorem Plain.funRest (plain : Plain (.funExp name params body rest)) : Plain rest :=
  ⟨plain.tidy.funRest, (Bool.and_eq_true_iff.mp plain.anf).2,
    fun x occurs => plain.apart x occurs.funRest⟩

theorem Plain.joinBody (plain : Plain (.joinExp name slot body rest)) : Plain body :=
  ⟨plain.tidy.joinBody, (Bool.and_eq_true_iff.mp plain.anf).1,
    fun x occurs => plain.apart x occurs.joinBody⟩

theorem Plain.joinRest (plain : Plain (.joinExp name slot body rest)) : Plain rest :=
  ⟨plain.tidy.joinRest, (Bool.and_eq_true_iff.mp plain.anf).2,
    fun x occurs => plain.apart x occurs.joinRest⟩

theorem Plain.appRest {funName : Var} {paramValues : List Value}
    (plain : Plain (.appExp name funName paramValues rest)) : Plain rest :=
  ⟨plain.tidy.appRest, (Bool.and_eq_true_iff.mp plain.anf).2,
    fun x occurs => plain.apart x occurs.appRest⟩

theorem Plain.bopRest {bop : Ast.Bop} {param1 param2 : Value}
    (plain : Plain (.bopExp name bop param1 param2 rest)) : Plain rest :=
  ⟨plain.tidy.bopRest, (Bool.and_eq_true_iff.mp plain.anf).2,
    fun x occurs => plain.apart x occurs.bopRest⟩

theorem Plain.thenBranch {cond : Value} (plain : Plain (.ifExp cond body rest)) : Plain body :=
  ⟨plain.tidy.thenBranch, (Bool.and_eq_true_iff.mp (Bool.and_eq_true_iff.mp plain.anf).1).2,
    fun x occurs => plain.apart x occurs.thenBranch⟩

theorem Plain.elseBranch {cond : Value} (plain : Plain (.ifExp cond body rest)) : Plain rest :=
  ⟨plain.tidy.elseBranch, (Bool.and_eq_true_iff.mp plain.anf).2,
    fun x occurs => plain.apart x occurs.elseBranch⟩

/-- What occurs in the rest of a join is no name of its body. -/
theorem Plain.rest_apart (plain : Plain (.joinExp name slot body rest)) {x : Var}
    (occurs : Occurs rest x) : x ∉ slot.toList ∧ x ∉ body.boundNames := by
  have nodup := (List.nodup_cons.mp plain.tidy.nodup).2
  have apart := plain.tidy.apart x
  have disjoint := (List.nodup_append'.mp nodup).2.2
  simp only [Exp.free, Exp.boundNames, Finset.mem_union, List.mem_cons, List.mem_append] at apart
  rcases occurs with free | binds
  · have notBound := apart (.inr free)
    tauto
  · refine ⟨fun isSlot => ?_, fun inBody => ?_⟩
    · exact disjoint (List.mem_append_left _ isSlot) binds
    · exact disjoint (List.mem_append_right _ inBody) binds

/-- What occurs in one branch is not bound in the other. -/
theorem Plain.branches_apart {cond : Value} (plain : Plain (.ifExp cond body rest)) {x : Var} :
    (Occurs rest x → x ∉ body.boundNames) ∧ (x ∈ body.free → x ∉ rest.boundNames) := by
  have disjoint := (List.nodup_append'.mp plain.tidy.nodup).2.2
  have apart := plain.tidy.apart x
  simp only [Exp.free, Exp.boundNames, Finset.mem_union, List.mem_append] at apart
  refine ⟨fun occurs inBody => ?_, fun free inRest => apart (.inl (.inr free)) (.inr inRest)⟩
  rcases occurs with free | binds
  · exact apart (.inr free) (.inl inBody)
  · exact disjoint inBody binds

end Parts

/-- What the own block of a term enters is bound in it. -/
theorem texts_subset (t : Exp) : ∀ x ∈ texts t, x ∈ t.boundNames := by
  induction t with
  | haltExp value => exact fun x member => absurd member (Finset.notMem_empty x)
  | jumpExp joinName slotValue => exact fun x member => absurd member (Finset.notMem_empty x)
  | ifExp cond thenBranch elseBranch => exact fun x member => absurd member (Finset.notMem_empty x)
  | funExp name params body rest _ ih =>
    simp only [texts, Exp.boundNames, Finset.mem_insert, List.mem_cons, List.mem_append]
    exact fun x member => member.imp id fun later => .inr (ih x later)
  | joinExp name slot body rest _ ih =>
    simp only [texts, Exp.boundNames, List.mem_cons, List.mem_append]
    exact fun x member => .inr (.inr (ih x member))
  | appExp name funName paramValues rest ih =>
    simp only [texts, Exp.boundNames, Finset.mem_insert, List.mem_cons]
    exact fun x member => member.imp id (ih x)
  | bopExp name bop param1 param2 rest ih =>
    simp only [texts, Exp.boundNames, Finset.mem_insert, List.mem_cons]
    exact fun x member => member.imp id (ih x)
  | tupleExp name values rest ih =>
    simp only [texts, Exp.boundNames, Finset.mem_insert, List.mem_cons]
    exact fun x member => member.imp id (ih x)
  | projExp name tuple index rest ih =>
    simp only [texts, Exp.boundNames, Finset.mem_insert, List.mem_cons]
    exact fun x member => member.imp id (ih x)

/-- What the blocks nested in a term enter is bound in it. -/
theorem inner_subset (t : Exp) : ∀ x ∈ inner t, x ∈ t.boundNames := by
  induction t with
  | haltExp value => exact fun x member => absurd member (Finset.notMem_empty x)
  | jumpExp joinName slotValue => exact fun x member => absurd member (Finset.notMem_empty x)
  | funExp name params body rest _ ih =>
    exact fun x member => List.mem_cons_of_mem _ (List.mem_append_right _ (ih x member))
  | joinExp name slot body rest ihBody ihRest =>
    intro x member
    have inTexts := texts_subset body x
    have inBody := ihBody x
    have inRest := ihRest x
    simp only [inner, Exp.boundNames, Finset.mem_union, List.mem_toFinset, List.mem_cons,
      List.mem_append] at member ⊢
    tauto
  | appExp name funName paramValues rest ih =>
    exact fun x member => List.mem_cons_of_mem _ (ih x member)
  | bopExp name bop param1 param2 rest ih =>
    exact fun x member => List.mem_cons_of_mem _ (ih x member)
  | ifExp cond thenBranch elseBranch ihThen ihElse =>
    intro x member
    have inThen := texts_subset thenBranch x
    have inElse := texts_subset elseBranch x
    have nestedThen := ihThen x
    have nestedElse := ihElse x
    simp only [inner, Exp.boundNames, Finset.mem_union, List.mem_append] at member ⊢
    tauto
  | tupleExp name values rest ih => exact fun x member => List.mem_cons_of_mem _ (ih x member)
  | projExp name tuple index rest ih => exact fun x member => List.mem_cons_of_mem _ (ih x member)

/-- Names to look up are found in both sets, if the sets agree on them. -/
theorem subset_congr {names named named' : Finset Var}
    (same : ∀ x ∈ names, x ∈ named ↔ x ∈ named') : names ⊆ named ↔ names ⊆ named' :=
  forall₂_congr same

theorem insert_agree {names later named named' : Finset Var} {name : Var}
    (same : ∀ x ∈ names, x ∈ named ↔ x ∈ named') (within : later \ {name} ⊆ names) :
    ∀ x ∈ later, x ∈ insert name named ↔ x ∈ insert name named' := by
  intro x occurs
  rw [Finset.mem_insert, Finset.mem_insert]
  by_cases eq : x = name
  · simp [eq]
  · rw [same x (within (Finset.mem_sdiff.mpr ⟨occurs, by simpa using eq⟩))]

/-- Only the names that occur free in `t` matter. -/
theorem textOk_congr {t : Exp} {named named' : Finset Var}
    (same : ∀ x ∈ t.free, x ∈ named ↔ x ∈ named') : TextOk named t ↔ TextOk named' t := by
  induction t generalizing named named' with
  | haltExp value => exact subset_congr same
  | jumpExp joinName slotValue => exact subset_congr same
  | funExp name params body rest _ ih =>
    exact and_congr (subset_congr same) (ih (insert_agree same Finset.subset_union_right))
  | joinExp name slot body rest _ ih =>
    exact ih fun x occurs => same x (Finset.mem_union_right _ occurs)
  | appExp name funName paramValues rest ih =>
    exact and_congr (subset_congr fun x uses => same x (Finset.mem_union_left _ uses))
      (ih (insert_agree same Finset.subset_union_right))
  | bopExp name bop param1 param2 rest ih =>
    exact and_congr (subset_congr fun x uses => same x (Finset.mem_union_left _ uses))
      (ih (insert_agree same Finset.subset_union_right))
  | ifExp cond thenBranch elseBranch _ _ =>
    exact subset_congr fun x uses =>
      same x (Finset.mem_union_left _ (Finset.mem_union_left _ uses))
  | tupleExp name values rest ih =>
    exact and_congr (subset_congr fun x uses => same x (Finset.mem_union_left _ uses))
      (ih (insert_agree same Finset.subset_union_right))
  | projExp name tuple index rest ih =>
    exact and_congr (subset_congr fun x uses => same x (Finset.mem_union_left _ uses))
      (ih (insert_agree same Finset.subset_union_right))

/-! ## The converted term -/

section Visits

variable {named : Finset Var}

theorem visitValue_iff {value : Value} (anf : isAnfValue value = true) :
    visitValue named value = true ↔ value.names.toFinset ⊆ named := by
  cases value with
  | intValue value => simp [visitValue, Value.names]
  | varValue var => simp [visitValue, Value.names]
  | globValue glob => cases anf

theorem all_visitValue_iff {values : List Value} (anf : values.all isAnfValue = true) :
    values.all (visitValue named) = true ↔ (values.flatMap Value.names).toFinset ⊆ named := by
  induction values with
  | nil => simp
  | cons value values ih =>
    obtain ⟨anfHead, anfTail⟩ := Bool.and_eq_true_iff.mp anf
    rw [List.all_cons, Bool.and_eq_true_iff, visitValue_iff anfHead, ih anfTail,
      List.flatMap_cons, List.toFinset_append, Finset.union_subset_iff]

end Visits

/-- Apart from names that closure conversion inserts, the converted term enters the names of the
A-normal form. -/
theorem mem_entered_close {t : Exp} (anf : isAnf t = true) (d : Nat) {x : Var}
    (apart : ¬ Inserted x) : x ∈ entered (t.close d).1 ↔ x ∈ texts t := by
  induction t generalizing d with
  | haltExp value => rfl
  | jumpExp joinName slotValue => rfl
  | funExp name params body rest _ ih =>
    have rests := ih (Bool.and_eq_true_iff.mp anf).2 (d + 1)
    rw [Exp.close_funExp, entered, entered, texts, Finset.mem_insert, Finset.mem_insert, rests]
  | joinExp name slot body rest _ ih =>
    rw [Exp.close_joinExp, entered, texts, ih (Bool.and_eq_true_iff.mp anf).2]
  | appExp name funName paramValues rest ih =>
    have rests := ih (Bool.and_eq_true_iff.mp anf).2 (d + 1)
    have other : x ≠ projName d := fun eq => apart ⟨d, .inr eq⟩
    rw [Exp.close, entered, entered, texts, Finset.mem_insert, Finset.mem_insert,
      Finset.mem_insert, rests, or_iff_right other]
  | bopExp name bop param1 param2 rest ih =>
    have rests := ih (Bool.and_eq_true_iff.mp anf).2 d
    rw [Exp.close, entered, texts, Finset.mem_insert, Finset.mem_insert, rests]
  | ifExp cond thenBranch elseBranch _ _ => rw [Exp.close_ifExp, entered, texts]
  | tupleExp name values rest ih => cases anf
  | projExp name tuple index rest ih => cases anf

/-- Conversion does not change what nested blocks enter, inserted names apart. -/
theorem mem_nested_close {t : Exp} (anf : isAnf t = true) (d : Nat) {x : Var}
    (apart : ¬ Inserted x) : x ∈ nested (t.close d).1 ↔ x ∈ inner t := by
  induction t generalizing d with
  | haltExp value => rfl
  | jumpExp joinName slotValue => rfl
  | funExp name params body rest _ ih =>
    rw [Exp.close_funExp]
    exact ih (Bool.and_eq_true_iff.mp anf).2 (d + 1)
  | joinExp name slot body rest ihBody ihRest =>
    obtain ⟨anfBody, anfRest⟩ := Bool.and_eq_true_iff.mp anf
    simp only [Exp.close_joinExp, nested, inner, Finset.mem_union, ihBody anfBody, ihRest anfRest,
      mem_entered_close anfBody _ apart, or_assoc]
  | appExp name funName paramValues rest ih => exact ih (Bool.and_eq_true_iff.mp anf).2 (d + 1)
  | bopExp name bop param1 param2 rest ih => exact ih (Bool.and_eq_true_iff.mp anf).2 d
  | ifExp cond thenBranch elseBranch ihThen ihElse =>
    obtain ⟨anfCond, anfElse⟩ := Bool.and_eq_true_iff.mp anf
    have anfThen := (Bool.and_eq_true_iff.mp anfCond).2
    simp only [Exp.close_ifExp, nested, inner, Finset.mem_union, ihThen anfThen, ihElse anfElse,
      mem_entered_close anfThen _ apart, mem_entered_close anfElse _ apart, or_assoc]
  | tupleExp name values rest ih => cases anf
  | projExp name tuple index rest ih => cases anf

/-- The own block of `t`. -/
theorem blockFinds_close {t : Exp} (plain : Plain t) (d : Nat) (named : Finset Var) :
    blockFinds named (t.close d).1 = true ↔ TextOk named t := by
  induction t generalizing d named with
  | haltExp value => exact visitValue_iff plain.anf
  | jumpExp joinName slotValue =>
    cases slotValue with
    | none => simp [Exp.close, blockFinds, TextOk]
    | some value =>
      have anf : isAnfValue value = true := (Bool.and_eq_true_iff.mp plain.anf).1
      have visits : visitValue named value = true ↔ value.names.toFinset ⊆ named :=
        visitValue_iff anf
      simpa [Exp.close, blockFinds, TextOk] using visits
  | funExp name params body rest _ ih =>
    have notFree : name ∉ (Exp.funExp name params body rest).free := fun occurs =>
      plain.tidy.apart name occurs List.mem_cons_self
    have captured : ∀ x, x ∈ (freeVars (.funExp name params body rest)).toList ↔
        x ∈ (Exp.funExp name params body rest).free := fun x => mem_freeVars plain.tidy
    rw [Exp.close_funExp, blockFinds, blockFinds, Bool.and_eq_true, ih plain.funRest, TextOk,
      List.all_cons, visitValue, Bool.true_and, List.all_map, List.all_eq_true]
    apply and_congr_left'
    constructor
    · intro visits x occurs
      have found := of_decide_eq_true (visits x ((captured x).mpr occurs))
      exact (Finset.mem_insert.mp found).resolve_left fun eq => notFree (eq ▸ occurs)
    · intro within x member
      exact decide_eq_true (Finset.mem_insert_of_mem (within ((captured x).mp member)))
  | joinExp name slot body rest _ ih =>
    rw [Exp.close_joinExp]
    exact ih plain.joinRest ..
  | appExp name funName paramValues rest ih =>
    have other : ∀ {x}, ¬ Inserted x → x ≠ projName d := fun apart eq => apart ⟨d, .inr eq⟩
    have rests : blockFinds (insert name (insert (projName d) named)) (rest.close (d + 1)).1 =
        true ↔ TextOk (insert name named) rest := by
      rw [ih plain.appRest]
      apply textOk_congr
      intro x occurs
      simp [other (plain.appRest.apart x (.inl occurs))]
    have operands : ∀ x ∈ (paramValues.flatMap Value.names).toFinset,
        x ∈ insert (projName d) named ↔ x ∈ named := by
      intro x uses
      have occurs : x ∈ (Exp.appExp name funName paramValues rest).free :=
        Finset.mem_union_left _ (by simp at uses; simp [uses])
      simp [other (plain.apart x (.inl occurs))]
    have values := (all_visitValue_iff (Bool.and_eq_true_iff.mp plain.anf).1).trans
      (subset_congr operands)
    have function : visitValue (insert (projName d) named) (.varValue funName) = true ↔
        funName ∈ named := by
      have occurs : funName ∈ (Exp.appExp name funName paramValues rest).free :=
        Finset.mem_union_left _ (by simp)
      simp [visitValue, other (plain.apart _ (.inl occurs))]
    have target : visitValue (insert name (insert (projName d) named)) (.varValue (projName d)) =
        true := by
      simp [visitValue]
    have itself : visitValue named (.varValue funName) = true ↔ funName ∈ named := by
      simp [visitValue]
    rw [Exp.close, blockFinds, blockFinds, target, TextOk, List.all_cons, Bool.true_and,
      Bool.and_eq_true, Bool.and_eq_true, Bool.and_eq_true, rests, values, function, itself,
      List.toFinset_cons, Finset.insert_subset_iff]
    tauto
  | bopExp name bop param1 param2 rest ih =>
    obtain ⟨anfs, -⟩ := Bool.and_eq_true_iff.mp plain.anf
    obtain ⟨anf1, anf2⟩ := Bool.and_eq_true_iff.mp anfs
    rw [Exp.close, blockFinds, TextOk, Bool.and_eq_true, Bool.and_eq_true, visitValue_iff anf1,
      visitValue_iff anf2, ih plain.bopRest, List.toFinset_append, Finset.union_subset_iff]
  | ifExp cond thenBranch elseBranch _ _ =>
    rw [Exp.close_ifExp]
    exact visitValue_iff (Bool.and_eq_true_iff.mp (Bool.and_eq_true_iff.mp plain.anf).1).1
  | tupleExp name values rest ih => cases plain.anf
  | projExp name tuple index rest ih => cases plain.anf

/-- The blocks nested in `t`, after names that are those of `base` as far as the names of `t` are
concerned. -/
theorem blocksFind_close {t : Exp} (plain : Plain t) (d : Nat) {named base : Finset Var}
    (agree : ∀ x, Occurs t x → (x ∈ named ↔ x ∈ base)) :
    blocksFind named (t.close d).1 = true ↔ NestedOk base t := by
  induction t generalizing d named with
  | haltExp value => exact iff_of_true rfl trivial
  | jumpExp joinName slotValue => exact iff_of_true rfl trivial
  | funExp name params body rest _ ih =>
    rw [Exp.close_funExp]
    exact ih plain.funRest _ fun x occurs => agree x occurs.funRest
  | joinExp name slot body rest ihBody ihRest =>
    have anf := plain.joinBody.anf
    -- the block of the join, which comes after those nested in it
    have own : TextOk (slot.toList.toFinset ∪ (nested (body.close (d + rest.closes)).1 ∪ named))
        body ↔ TextOk (slot.toList.toFinset ∪ base) body := by
      apply textOk_congr
      intro x occurs
      have notNested : x ∉ inner body := fun inside =>
        plain.joinBody.tidy.apart x occurs (inner_subset body x inside)
      rw [Finset.mem_union, Finset.mem_union, Finset.mem_union,
        mem_nested_close anf _ (plain.joinBody.apart x (.inl occurs)), or_iff_right notNested,
        agree x (Occurs.joinBody (.inl occurs))]
    have rests : blocksFind (slot.toList.toFinset ∪ entered (body.close (d + rest.closes)).1 ∪
        (nested (body.close (d + rest.closes)).1 ∪ named)) (rest.close d).1 = true ↔
          NestedOk base rest := by
      apply ihRest plain.joinRest
      intro x occurs
      obtain ⟨notSlot, notBound⟩ := plain.rest_apart occurs
      have apart := plain.joinRest.apart x occurs
      have notNested : x ∉ inner body := fun inside => notBound (inner_subset body x inside)
      have notText : x ∉ texts body := fun inText => notBound (texts_subset body x inText)
      rw [Finset.mem_union, Finset.mem_union, Finset.mem_union, mem_nested_close anf _ apart,
        mem_entered_close anf _ apart, ← agree x occurs.joinRest, List.mem_toFinset]
      tauto
    rw [Exp.close_joinExp, blocksFind, Bool.and_eq_true, Bool.and_eq_true,
      ihBody plain.joinBody _ fun x occurs => agree x occurs.joinBody,
      blockFinds_close plain.joinBody, own, rests, NestedOk, and_assoc]
  | appExp name funName paramValues rest ih =>
    exact ih plain.appRest (d + 1) fun x occurs => agree x occurs.appRest
  | bopExp name bop param1 param2 rest ih =>
    exact ih plain.bopRest d fun x occurs => agree x occurs.bopRest
  | ifExp cond thenBranch elseBranch ihThen ihElse =>
    have anfThen := plain.thenBranch.anf
    have anfElse := plain.elseBranch.anf
    have elses : ∀ x, Occurs elseBranch x →
        (x ∈ nested (thenBranch.close (d + elseBranch.closes)).1 ∪ named ↔ x ∈ base) := by
      intro x occurs
      have notNested : x ∉ inner thenBranch := fun inside =>
        plain.branches_apart.1 occurs (inner_subset thenBranch x inside)
      rw [Finset.mem_union, mem_nested_close anfThen _ (plain.elseBranch.apart x occurs),
        or_iff_right notNested, agree x occurs.elseBranch]
    -- the blocks of the branches come after those nested in either
    have ownThen : TextOk (nested (elseBranch.close d).1 ∪
        (nested (thenBranch.close (d + elseBranch.closes)).1 ∪ named)) thenBranch ↔
          TextOk base thenBranch := by
      apply textOk_congr
      intro x occurs
      have apart := plain.thenBranch.apart x (.inl occurs)
      have notThen : x ∉ inner thenBranch := fun inside =>
        plain.thenBranch.tidy.apart x occurs (inner_subset thenBranch x inside)
      have notElse : x ∉ inner elseBranch := fun inside =>
        plain.branches_apart.2 occurs (inner_subset elseBranch x inside)
      rw [Finset.mem_union, Finset.mem_union, mem_nested_close anfThen _ apart,
        mem_nested_close anfElse _ apart, or_iff_right notElse, or_iff_right notThen,
        agree x (Occurs.thenBranch (.inl occurs))]
    have ownElse : TextOk (entered (thenBranch.close (d + elseBranch.closes)).1 ∪
        (nested (elseBranch.close d).1 ∪
          (nested (thenBranch.close (d + elseBranch.closes)).1 ∪ named))) elseBranch ↔
            TextOk base elseBranch := by
      apply textOk_congr
      intro x occurs
      have apart := plain.elseBranch.apart x (.inl occurs)
      have notText : x ∉ texts thenBranch := fun inText =>
        plain.branches_apart.1 (.inl occurs) (texts_subset thenBranch x inText)
      have notElse : x ∉ inner elseBranch := fun inside =>
        plain.elseBranch.tidy.apart x occurs (inner_subset elseBranch x inside)
      rw [Finset.mem_union, Finset.mem_union, mem_entered_close anfThen _ apart,
        mem_nested_close anfElse _ apart, or_iff_right notText, or_iff_right notElse,
        elses x (.inl occurs)]
    rw [Exp.close_ifExp, blocksFind, Bool.and_eq_true, Bool.and_eq_true, Bool.and_eq_true,
      ihThen plain.thenBranch _ fun x occurs => agree x occurs.thenBranch,
      ihElse plain.elseBranch _ elses, blockFinds_close plain.thenBranch,
      blockFinds_close plain.elseBranch, ownThen, ownElse, NestedOk, and_assoc, and_assoc]
  | tupleExp name values rest ih => cases plain.anf
  | projExp name tuple index rest ih => cases plain.anf

/-- The blocks of a function, after names that are those of `base` as far as the names of the body
are concerned. -/
theorem functionFinds_close {body : Exp} (plain : Plain body) (d : Nat) {named base : Finset Var}
    (agree : ∀ x, Occurs body x → (x ∈ named ↔ x ∈ base)) :
    functionFinds named (body.close d).1 = true ↔ FunctionOk base body := by
  have start : TextOk named body ↔ TextOk base body :=
    textOk_congr fun x occurs => agree x (.inl occurs)
  have later : ∀ x, Occurs body x →
      (x ∈ entered (body.close d).1 ∪ named ↔ x ∈ base ∪ texts body) := by
    intro x occurs
    rw [Finset.mem_union, Finset.mem_union, mem_entered_close plain.anf d (plain.apart x occurs),
      agree x occurs, or_comm]
  rw [functionFinds, Bool.and_eq_true, blockFinds_close plain, blocksFind_close plain d later,
    start, FunctionOk]

/-! ## Captured variables -/

section Captures

variable {closureParam : Var} {vars : List Var} {body : Exp}

theorem entered_captures (i : Nat) :
    entered (captures closureParam vars i body) = vars.toFinset ∪ entered body := by
  induction vars generalizing i body with
  | nil => rw [captures, List.toFinset_nil, Finset.empty_union]
  | cons var vars ih =>
    rw [captures, ih, entered, List.toFinset_cons, Finset.insert_union, Finset.union_insert]

theorem blocksFind_captures (named : Finset Var) (i : Nat) :
    blocksFind named (captures closureParam vars i body) = blocksFind named body := by
  induction vars generalizing i body with
  | nil => rfl
  | cons var vars ih => exact ih ..

theorem functionsFind_captures (i : Nat) :
    functionsFind (captures closureParam vars i body) = functionsFind body := by
  induction vars generalizing i body with
  | nil => rfl
  | cons var vars ih => exact ih ..

/-- The projections in front of a converted body enter the captured variables. -/
theorem blockFinds_captures {named : Finset Var} (param : closureParam ∈ named) (i : Nat) :
    blockFinds named (captures closureParam vars i body) =
      blockFinds (vars.toFinset ∪ named) body := by
  induction vars generalizing i body with
  | nil => rw [captures, List.toFinset_nil, Finset.empty_union]
  | cons var vars ih =>
    have found : visitValue (vars.toFinset ∪ named) (.varValue closureParam) = true :=
      decide_eq_true (Finset.mem_union_right _ param)
    rw [captures, ih, blockFinds, found, Bool.true_and, List.toFinset_cons, Finset.insert_union]

theorem functionFinds_captures {named : Finset Var} (param : closureParam ∈ named) (i : Nat) :
    functionFinds named (captures closureParam vars i body) =
      functionFinds (vars.toFinset ∪ named) body := by
  rw [functionFinds, functionFinds, blockFinds_captures param, blocksFind_captures,
    entered_captures, Finset.union_left_comm, Finset.union_assoc, Finset.union_left_comm]

end Captures

/-- A converted function starts with its own parameters and with those it captures. -/
theorem functionFinds_funExp {name : Var} {params : List Var} {body rest : Exp}
    (plain : Plain (.funExp name params body rest)) (i d : Nat) :
    functionFinds (closureName i :: params).toFinset (captures (closureName i)
        (freeVars (.funExp name params body rest)).toList 1 (body.close d).1) = true ↔
      FunctionOk (params.toFinset ∪ (Exp.funExp name params body rest).free) body := by
  rw [functionFinds_captures (by simp)]
  apply functionFinds_close plain.funBody
  intro x occurs
  have captured : x ∈ (freeVars (.funExp name params body rest)).toList ↔
      x ∈ (Exp.funExp name params body rest).free := mem_freeVars plain.tidy
  have ne : x ≠ closureName i := fun eq => plain.funBody.apart x occurs ⟨i, .inl eq⟩
  rw [Finset.mem_union, Finset.mem_union, List.mem_toFinset, captured, List.mem_toFinset,
    List.mem_toFinset, List.mem_cons, or_iff_right ne, or_comm]

theorem functionsFind_close {t : Exp} (plain : Plain t) (d : Nat) :
    functionsFind (t.close d).1 = true ↔ FunctionsOk t := by
  induction t generalizing d with
  | haltExp value => exact iff_of_true rfl trivial
  | jumpExp joinName slotValue => exact iff_of_true rfl trivial
  | funExp name params body rest ihBody ihRest =>
    rw [Exp.close_funExp, functionsFind, functionsFind_captures, functionsFind, Bool.and_eq_true,
      Bool.and_eq_true, ihBody plain.funBody, ihRest plain.funRest, functionFinds_funExp plain,
      FunctionsOk, and_assoc]
  | joinExp name slot body rest ihBody ihRest =>
    rw [Exp.close_joinExp, functionsFind, Bool.and_eq_true, ihBody plain.joinBody,
      ihRest plain.joinRest, FunctionsOk]
  | appExp name funName paramValues rest ih => exact ih plain.appRest (d + 1)
  | bopExp name bop param1 param2 rest ih => exact ih plain.bopRest d
  | ifExp cond thenBranch elseBranch ihThen ihElse =>
    rw [Exp.close_ifExp, functionsFind, Bool.and_eq_true, ihThen plain.thenBranch,
      ihElse plain.elseBranch, FunctionsOk]
  | tupleExp name values rest ih => cases plain.anf
  | projExp name tuple index rest ih => cases plain.anf

/-- The conditions on a plain A-normal form are those on its conversion. -/
theorem finds_closureConvert {t : Exp} (plain : Plain t) :
    (functionFinds ∅ (closureConvert t) && functionsFind (closureConvert t)) = true ↔
      FunctionOk ∅ t ∧ FunctionsOk t := by
  rw [closureConvert, Bool.and_eq_true, functionsFind_close plain,
    functionFinds_close plain 0 fun x _ => Iff.rfl]

end Lambcalc.Lower
