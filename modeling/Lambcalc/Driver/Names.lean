import Lambcalc.Emit.Correct
import Lambcalc.Hoist.Correct
import Lambcalc.Lower.Correct

/-!
# The names of a compiled program

What `Plain` terms are converted and hoisted into meets all that the later passes ask of names:
each function binds different names, reads what it has bound, and names the labels of functions.
A function of the conversion comes from a function of the term, `function_origin`, so that each
fact is shown of what one function is converted into.
-/

namespace Lambcalc.Driver

open Lambcalc.Convert
open Anf Hoist Lower Emit

/-! ## Where the functions come from -/

section Origins

variable {t u : Exp} {f : Var × List Var × Exp}

/-- `f` is what a function of `t` is converted into. -/
inductive Origin (t : Exp) : Var × List Var × Exp → Prop where
  | intro {name : Var} {params : List Var} {body rest : Exp} (d d' : Nat)
      (plain : Plain (.funExp name params body rest))
      (occurs : ∀ x, Occurs (.funExp name params body rest) x → Occurs t x)
      (inBody : functions body ⊆ functions t) :
      Origin t (name, closureName d :: params, captures (closureName d)
        (freeVars (.funExp name params body rest)).toList 1 (body.close d').1)

theorem Origin.part (origin : Origin u f) (occurs : ∀ x, Occurs u x → Occurs t x)
    (within : functions u ⊆ functions t) : Origin t f := by
  rcases origin with ⟨d, d', plain, under, inBody⟩
  exact ⟨d, d', plain, fun x member => occurs x (under x member), List.Subset.trans inBody within⟩

/-- Every function of a converted term comes from one of the term before. -/
theorem function_origin {t : Exp} (plain : Plain t) (c : Nat) :
    ∀ f ∈ functions (t.close c).1, Origin t f := by
  induction t generalizing c with
  | haltExp value => exact fun _ member => (List.not_mem_nil member).elim
  | jumpExp joinName slotValue => exact fun _ member => (List.not_mem_nil member).elim
  | funExp name params body rest ihBody ihRest =>
    intro f member
    have inBody : functions body ⊆ functions (.funExp name params body rest) :=
      fun f nested => List.mem_cons_of_mem _ (List.mem_append_left _ nested)
    rw [Exp.close_funExp, functions, functions_captures, functions] at member
    rcases List.mem_cons.mp member with rfl | member
    · exact ⟨c, _, plain, fun x occurs => occurs, inBody⟩
    rcases List.mem_append.mp member with nested | later
    · exact (ihBody plain.funBody _ f nested).part (fun x => Occurs.funBody) inBody
    · exact (ihRest plain.funRest _ f later).part (fun x => Occurs.funRest)
        fun f later => List.mem_cons_of_mem _ (List.mem_append_right _ later)
  | joinExp name slot body rest ihBody ihRest =>
    intro f member
    rw [Exp.close_joinExp] at member
    rcases List.mem_append.mp member with nested | later
    · exact (ihBody plain.joinBody _ f nested).part (fun x => Occurs.joinBody)
        (List.subset_append_left _ _)
    · exact (ihRest plain.joinRest _ f later).part (fun x => Occurs.joinRest)
        (List.subset_append_right _ _)
  | appExp name funName paramValues rest ih =>
    intro f member
    exact (ih plain.appRest _ f member).part (fun x => Occurs.appRest) (List.Subset.refl _)
  | bopExp name bop param1 param2 rest ih =>
    intro f member
    exact (ih plain.bopRest _ f member).part (fun x => Occurs.bopRest) (List.Subset.refl _)
  | ifExp cond thenBranch elseBranch ihThen ihElse =>
    intro f member
    rw [Exp.close_ifExp] at member
    rcases List.mem_append.mp member with inThen | inElse
    · exact (ihThen plain.thenBranch _ f inThen).part (fun x => Occurs.thenBranch)
        (List.subset_append_left _ _)
    · exact (ihElse plain.elseBranch _ f inElse).part (fun x => Occurs.elseBranch)
        (List.subset_append_right _ _)
  | tupleExp name values rest => cases plain.anf
  | projExp name tuple index rest => cases plain.anf

end Origins

/-! ## Different names -/

theorem bindings_captures (closureParam : Var) (vars : List Var) (i : Nat) (body : Exp) :
    (bindings (captures closureParam vars i body)).Perm (vars ++ bindings body) := by
  induction vars generalizing i body with
  | nil => exact .refl _
  | cons var vars ih => exact (ih (i + 1) _).trans List.perm_middle

/-- What a conversion binds: the call targets, and what the term bound. -/
theorem bindings_close {t : Exp} (anf : isAnf t = true) (c : Nat) :
    (bindings (t.close c).1).Perm ((callNumbers t c).map projName ++ locals t) := by
  induction t generalizing c with
  | haltExp value => exact .refl _
  | jumpExp joinName slotValue => exact .refl _
  | funExp name params body rest ihBody ihRest =>
    rw [Exp.close_funExp]
    exact ((ihRest (Bool.and_eq_true_iff.mp anf).2 (c + 1)).cons name).trans
      List.perm_middle.symm
  | joinExp name slot body rest ihBody ihRest =>
    rcases Bool.and_eq_true_iff.mp anf with ⟨anfBody, anfRest⟩
    rw [Exp.close_joinExp, bindings, callNumbers, locals, List.map_append]
    refine List.perm_iff_count.mpr fun x => ?_
    have ofBody := (ihBody anfBody (c + rest.closes)).count_eq x
    have ofRest := (ihRest anfRest c).count_eq x
    simp only [List.count_append] at ofBody ofRest ⊢
    omega
  | appExp name funName paramValues rest ih =>
    refine ((ih (Bool.and_eq_true_iff.mp anf).2 (c + 1)).cons name).cons (projName c) |>.trans ?_
    exact (List.perm_middle.symm).cons _
  | bopExp name bop param1 param2 rest ih =>
    exact ((ih (Bool.and_eq_true_iff.mp anf).2 c).cons name).trans List.perm_middle.symm
  | ifExp cond thenBranch elseBranch ihThen ihElse =>
    rcases Bool.and_eq_true_iff.mp anf with ⟨anfCond, anfElse⟩
    rw [Exp.close_ifExp, bindings, callNumbers, locals, List.map_append]
    refine List.perm_iff_count.mpr fun x => ?_
    have ofThen := (ihThen (Bool.and_eq_true_iff.mp anfCond).2 (c + elseBranch.closes)).count_eq x
    have ofElse := (ihElse anfElse c).count_eq x
    simp only [List.count_append] at ofThen ofElse ⊢
    omega
  | tupleExp name values rest => cases anf
  | projExp name tuple index rest => cases anf

/-- What a term binds outside its functions is bound in it, in the same order. -/
theorem locals_sublist {t : Exp} (anf : isAnf t = true) : (locals t).Sublist t.boundNames := by
  induction t with
  | haltExp value => exact .slnil
  | jumpExp joinName slotValue => exact .slnil
  | funExp name params body rest ihBody ihRest =>
    exact ((ihRest (Bool.and_eq_true_iff.mp anf).2).trans (List.sublist_append_right ..)).cons_cons
      name
  | joinExp name slot body rest ihBody ihRest =>
    rcases Bool.and_eq_true_iff.mp anf with ⟨anfBody, anfRest⟩
    exact (((List.Sublist.refl slot.toList).append (ihBody anfBody)).append (ihRest anfRest)).cons _
  | appExp name funName paramValues rest ih =>
    exact (ih (Bool.and_eq_true_iff.mp anf).2).cons_cons name
  | bopExp name bop param1 param2 rest ih =>
    exact (ih (Bool.and_eq_true_iff.mp anf).2).cons_cons name
  | ifExp cond thenBranch elseBranch ihThen ihElse =>
    rcases Bool.and_eq_true_iff.mp anf with ⟨anfCond, anfElse⟩
    exact (ihThen (Bool.and_eq_true_iff.mp anfCond).2).append (ihElse anfElse)
  | tupleExp name values rest => cases anf
  | projExp name tuple index rest => cases anf

section Plain

variable {t : Exp}

/-- Names of the term, with call targets among them, are different. -/
theorem nodup_bindings (names : List Var) (anf : isAnf t = true) (c : Nat)
    (distinct : (names ++ locals t).Nodup)
    (apart : ∀ x ∈ names ++ locals t, ∀ i, x ≠ projName i) :
    (names ++ bindings (t.close c).1).Nodup := by
  have same : (names ++ bindings (t.close c).1).Perm
      ((callNumbers t c).map projName ++ (names ++ locals t)) := by
    refine ((bindings_close anf c).append_left names).trans ?_
    rw [← List.append_assoc, ← List.append_assoc]
    exact List.perm_append_comm.append_right _
  refine same.nodup_iff.mpr (List.nodup_append'.mpr ⟨?_, distinct, ?_⟩)
  · exact (callNumbers_spec t c).1.map fun _ _ => projName_injective
  · intro x isTarget member
    rcases List.mem_map.mp isTarget with ⟨i, -, rfl⟩
    exact apart _ member i rfl

/-- Each function of the conversion binds different names. -/
theorem Origin.nodup {f : Var × List Var × Exp} (origin : Origin t f) :
    (f.2.1 ++ bindings f.2.2).Nodup := by
  rcases origin with @⟨name, params, body, rest, d, d', plain, -, -⟩
  let fn : Exp := .funExp name params body rest
  let vars : List Var := (freeVars fn).toList
  have anf : isAnf body = true := plain.funBody.anf
  have own : (params ++ locals body).Sublist fn.boundNames :=
    ((List.Sublist.append_left (locals_sublist anf) params).trans
      (List.sublist_append_left ..)).cons _
  have free : ∀ x ∈ vars, x ∈ fn.free := fun x member => (mem_freeVars plain.tidy).mp member
  have occurs : ∀ x ∈ params ++ vars ++ locals body, ¬ Inserted x := by
    intro x member
    refine plain.apart x ?_
    rcases List.mem_append.mp member with member | isLocal
    · rcases List.mem_append.mp member with isParam | isVar
      · exact .inr (own.subset (List.mem_append_left _ isParam))
      · exact .inl (free x isVar)
    · exact .inr (own.subset (List.mem_append_right _ isLocal))
  have distinct : (params ++ vars ++ locals body).Nodup := by
    have same : (params ++ vars ++ locals body).Perm (vars ++ (params ++ locals body)) := by
      rw [← List.append_assoc]
      exact List.perm_append_comm.append_right _
    refine same.nodup_iff.mpr (List.nodup_append'.mpr ⟨Lib.OrdSet.nodup _,
      plain.tidy.nodup.sublist own, fun x isVar member => ?_⟩)
    exact plain.tidy.apart x (free x isVar) (own.subset member)
  have same : (closureName d :: params ++ bindings (captures (closureName d) vars 1
      (body.close d').1)).Perm (closureName d :: params ++ vars ++ bindings (body.close d').1) := by
    rw [List.append_assoc]
    exact (bindings_captures _ vars 1 _).append_left _
  refine same.nodup_iff.mpr (nodup_bindings _ anf d' ?_ ?_)
  · exact List.nodup_cons.mpr ⟨fun member => occurs _ member ⟨d, .inl rfl⟩, distinct⟩
  · intro x member i eq
    rcases List.mem_cons.mp member with rfl | member
    · exact closureName_ne_projName d i eq
    · exact occurs x member ⟨i, .inr eq⟩

theorem nodup_program (plain : Plain t) :
    ∀ f ∈ program (closureConvert t), (f.2.1 ++ bindings f.2.2).Nodup := by
  intro f member
  rcases List.mem_cons.mp member with rfl | inFunctions
  · refine nodup_bindings [] plain.anf 0 ?_ fun x isLocal i eq => ?_
    · exact plain.tidy.nodup.sublist (locals_sublist plain.anf)
    · exact plain.apart x (.inr ((locals_sublist plain.anf).subset isLocal)) ⟨i, .inr eq⟩
  · exact (function_origin plain 0 f inFunctions).nodup

end Plain

/-! ## Labels and records -/

theorem operandsOf_captures (closureParam : Var) (vars : List Var) (i : Nat) (body : Exp) :
    operandsOf (captures closureParam vars i body) = operandsOf body := by
  induction vars generalizing i body with
  | nil => rfl
  | cons var vars ih => exact ih ..

theorem recordSizes_captures (closureParam : Var) (vars : List Var) (i : Nat) (body : Exp) :
    recordSizes (captures closureParam vars i body) = recordSizes body := by
  induction vars generalizing i body with
  | nil => rfl
  | cons var vars ih => exact ih ..

/-- An operand of the A-normal form is no label. -/
theorem globs_anf {value : Value} (anf : isAnfValue value = true) : globs value = [] := by
  cases value with
  | globValue glob => cases anf
  | _ => rfl

theorem globs_all {values : List Value} (anf : values.all isAnfValue = true) :
    values.flatMap globs = [] := by
  rw [List.flatMap_eq_nil_iff]
  exact fun value member => globs_anf (List.all_eq_true.mp anf value member)

/-- The labels among the operands of a conversion are those of functions of the term. -/
theorem globs_close {t : Exp} (anf : isAnf t = true) (c : Nat) :
    (operandsOf (t.close c).1).flatMap globs ⊆ labels t := by
  induction t generalizing c with
  | haltExp value =>
    intro glob member
    have member : glob ∈ [value].flatMap globs := member
    rw [List.flatMap_singleton, globs_anf anf] at member
    cases member
  | jumpExp joinName slotValue =>
    intro glob member
    have member : glob ∈ slotValue.toList.flatMap globs := member
    rw [globs_all anf] at member
    cases member
  | funExp name params body rest ihBody ihRest =>
    intro glob member
    rw [Exp.close_funExp, operandsOf, operandsOf, List.flatMap_append, List.mem_append] at member
    rcases member with inRecord | inRest
    · rcases List.mem_append.mp inRecord with isName | isVar
      · cases List.mem_singleton.mp isName
        exact List.mem_cons_self
      · rcases List.mem_flatMap.mp isVar with ⟨_, captured, isGlob⟩
        rcases List.mem_map.mp captured with ⟨x, -, rfl⟩
        cases isGlob
    · have later := ihRest (Bool.and_eq_true_iff.mp anf).2 (c + 1) inRest
      exact List.map_subset _ (fun f later => List.mem_cons_of_mem _
        (List.mem_append_right _ later)) later
  | joinExp name slot body rest ihBody ihRest =>
    rcases Bool.and_eq_true_iff.mp anf with ⟨anfBody, anfRest⟩
    rw [Exp.close_joinExp, operandsOf, List.flatMap_append]
    refine List.append_subset.mpr ⟨?_, ?_⟩
    · exact List.Subset.trans (ihBody anfBody _) (List.map_subset _ (List.subset_append_left _ _))
    · exact List.Subset.trans (ihRest anfRest c) (List.map_subset _ (List.subset_append_right _ _))
  | appExp name funName paramValues rest ih =>
    rcases Bool.and_eq_true_iff.mp anf with ⟨anfValues, anfRest⟩
    rw [Exp.close, operandsOf, operandsOf, List.flatMap_append, List.flatMap_cons,
      globs_all anfValues]
    exact ih anfRest (c + 1)
  | bopExp name bop param1 param2 rest ih =>
    rcases Bool.and_eq_true_iff.mp anf with ⟨anfParams, anfRest⟩
    rcases Bool.and_eq_true_iff.mp anfParams with ⟨anf1, anf2⟩
    rw [Exp.close, operandsOf, List.flatMap_cons, List.flatMap_cons, globs_anf anf1,
      globs_anf anf2]
    exact ih anfRest c
  | ifExp cond thenBranch elseBranch ihThen ihElse =>
    rcases Bool.and_eq_true_iff.mp anf with ⟨anfCond, anfElse⟩
    rcases Bool.and_eq_true_iff.mp anfCond with ⟨anfCond, anfThen⟩
    rw [Exp.close_ifExp, operandsOf, List.flatMap_cons, List.flatMap_append, globs_anf anfCond,
      List.nil_append]
    refine List.append_subset.mpr ⟨?_, ?_⟩
    · exact List.Subset.trans (ihThen anfThen _) (List.map_subset _ (List.subset_append_left _ _))
    · exact List.Subset.trans (ihElse anfElse c) (List.map_subset _ (List.subset_append_right _ _))
  | tupleExp name values rest => cases anf
  | projExp name tuple index rest => cases anf

/-- A record of a conversion has at most one operand for each of the names that occur in the term,
and its label. -/
theorem recordSizes_close {t : Exp} (plain : Plain t) {names : List Var}
    (occurs : ∀ x, Occurs t x → x ∈ names) (c : Nat) :
    ∀ size ∈ recordSizes (t.close c).1, size ≤ names.length + 1 := by
  induction t generalizing c with
  | haltExp value => exact fun _ member => (List.not_mem_nil member).elim
  | jumpExp joinName slotValue => exact fun _ member => (List.not_mem_nil member).elim
  | funExp name params body rest ihBody ihRest =>
    intro size member
    rw [Exp.close_funExp, recordSizes, recordSizes] at member
    rcases List.mem_cons.mp member with rfl | later
    · rw [List.length_cons, List.length_map]
      refine Nat.succ_le_succ (List.Subperm.length_le ?_)
      exact (Lib.OrdSet.nodup _).subperm fun x captured =>
        occurs x (.inl ((mem_freeVars plain.tidy).mp captured))
    · exact ihRest plain.funRest (fun x within => occurs x within.funRest) _ size later
  | joinExp name slot body rest ihBody ihRest =>
    rw [Exp.close_joinExp]
    exact List.forall_mem_append.mpr
      ⟨ihBody plain.joinBody (fun x within => occurs x within.joinBody) _,
        ihRest plain.joinRest (fun x within => occurs x within.joinRest) _⟩
  | appExp name funName paramValues rest ih =>
    exact ih plain.appRest (fun x within => occurs x within.appRest) _
  | bopExp name bop param1 param2 rest ih =>
    exact ih plain.bopRest (fun x within => occurs x within.bopRest) _
  | ifExp cond thenBranch elseBranch ihThen ihElse =>
    rw [Exp.close_ifExp]
    exact List.forall_mem_append.mpr
      ⟨ihThen plain.thenBranch (fun x within => occurs x within.thenBranch) _,
        ihElse plain.elseBranch (fun x within => occurs x within.elseBranch) _⟩
  | tupleExp name values rest => cases plain.anf
  | projExp name tuple index rest => cases plain.anf

section Program

variable {t : Exp}

theorem globs_program (plain : Plain t) : ∀ f ∈ program (closureConvert t),
    (operandsOf f.2.2).flatMap globs ⊆ labels t := by
  intro f member
  rcases List.mem_cons.mp member with rfl | inFunctions
  · exact globs_close plain.anf 0
  · rcases function_origin plain 0 f inFunctions with ⟨d, d', origin, -, within⟩
    rw [operandsOf_captures]
    exact List.Subset.trans (globs_close origin.funBody.anf d') (List.map_subset _ within)

theorem recordSizes_program (plain : Plain t) (closed : t.free = ∅) :
    ∀ f ∈ program (closureConvert t), ∀ size ∈ recordSizes f.2.2,
      size ≤ t.boundNames.length + 1 := by
  have occurs : ∀ x, Occurs t x → x ∈ t.boundNames := by
    intro x occurs
    refine occurs.resolve_left fun free => ?_
    rw [closed] at free
    cases free
  intro f member
  rcases List.mem_cons.mp member with rfl | inFunctions
  · exact recordSizes_close plain occurs 0
  · rcases function_origin plain 0 f inFunctions with ⟨d, d', origin, under, -⟩
    rw [recordSizes_captures]
    exact recordSizes_close origin.funBody (fun x within => occurs x (under x within.funBody)) d'

end Program

/-! ## Blocks -/

/-- What a term binds, the blocks it is split into bind. -/
theorem Splits.bindings {t left : Exp} {split : List Join} (splits : Splits t left split) :
    (bindings t).Perm (bindings left ++ boundBy split) := by
  induction splits with
  | haltExp => exact .refl _
  | funExp _ ih => exact ih
  | joinExp _ _ ihBody ihRest =>
    refine List.perm_iff_count.mpr fun x => ?_
    have ofBody := ihBody.count_eq x
    have ofRest := ihRest.count_eq x
    simp only [Hoist.bindings, boundBy, List.flatMap_append, List.flatMap_cons, Join.bound,
      List.count_append] at ofBody ofRest ⊢
    omega
  | jumpExp => exact .refl _
  | appExp _ ih => exact ih.cons _
  | bopExp _ ih => exact ih.cons _
  | ifExp _ _ _ _ ihThen ihElse =>
    refine List.perm_iff_count.mpr fun x => ?_
    have ofThen := ihThen.count_eq x
    have ofElse := ihElse.count_eq x
    simp only [Hoist.bindings, boundBy, List.flatMap_append, List.flatMap_cons, List.flatMap_nil,
      Join.bound, Option.toList_none, List.count_append, List.count_nil] at ofThen ofElse ⊢
    omega
  | tupleExp _ ih => exact ih.cons _
  | projExp _ ih => exact ih.cons _

/-- What a function binds, its blocks bind. -/
theorem nodup_boundBy {params : List Var} {body : Exp} (name : Var) (c : Nat)
    (nodup : (params ++ bindings body).Nodup) : ((functionOf name params body c).params ++
      boundBy ((functionOf name params body c).entryBlock ::
        (functionOf name params body c).blocks)).Nodup :=
  ((Splits.bindings (splits_block body c)).append_left params).nodup_iff.mp nodup

/-! ## Scopes -/

/-- An operand that reads what is bound is in scope, unless it is the label of `main`. -/
theorem valueInScope_of_reads {vars : List Var} {value : Value}
    (reads : ∀ x ∈ readVars value, x ∈ vars) (notMain : "main" ∉ globs value) :
    valueInScope vars value = true := by
  cases value with
  | intValue n => rfl
  | varValue x => exact decide_eq_true (reads x (List.mem_singleton_self x))
  | globValue glob => exact decide_eq_true fun eq => notMain (List.mem_singleton.mpr eq.symm)

theorem valuesInScope_of_reads {vars : List Var} {values : List Value}
    (reads : ∀ x ∈ values.flatMap readVars, x ∈ vars) (notMain : "main" ∉ values.flatMap globs) :
    values.all (valueInScope vars) = true := by
  rw [List.all_eq_true]
  intro value member
  exact valueInScope_of_reads
    (fun x isRead => reads x (List.mem_flatMap.mpr ⟨value, member, isRead⟩))
    fun isMain => notMain (List.mem_flatMap.mpr ⟨value, member, isMain⟩)

theorem within_bind {vars : List Var} {bound : Finset Var} {name : Var}
    (within : ∀ x ∈ bound, x ∈ vars) : ∀ x ∈ bound ∪ {name}, x ∈ name :: vars := by
  intro x member
  rcases Finset.mem_union.mp member with old | isName
  · exact List.mem_cons_of_mem _ (within x old)
  · exact List.mem_cons.mpr (.inl (Finset.mem_singleton.mp isName))

/-- Where what is read is bound, variables are in scope: every callee is a variable. -/
theorem varsInScope_of_reads {own vars : List Var} {bound : Finset Var} {t : Exp}
    (reads : ReadsBound bound t) (within : ∀ x ∈ bound, x ∈ vars)
    (notMain : "main" ∉ (operandsOf t).flatMap globs) : varsInScope own vars t = true := by
  induction t generalizing bound vars with
  | haltExp value =>
    exact valueInScope_of_reads (fun x isRead => within x (reads x isRead))
      (by simpa [operandsOf] using notMain)
  | jumpExp joinName slotValue =>
    cases slotValue with
    | none => rfl
    | some value =>
      exact valueInScope_of_reads (fun x isRead => within x (reads x (by simpa using isRead)))
        (by simpa [operandsOf] using notMain)
  | funExp name params body rest _ ih => exact ih reads within notMain
  | joinExp name slot body rest ihBody ihRest =>
    rw [operandsOf, List.flatMap_append, List.mem_append, not_or] at notMain
    rw [varsInScope, ihBody reads.1 ?_ notMain.1, ihRest reads.2 within notMain.2]
    · rfl
    · intro x member
      rcases Finset.mem_union.mp member with old | isSlot
      · exact List.mem_append_right _ (within x old)
      · exact List.mem_append_left _ (List.mem_toFinset.mp isSlot)
  | appExp name funName paramValues rest ih =>
    rw [operandsOf, List.flatMap_append, List.mem_append, not_or] at notMain
    rw [varsInScope, decide_eq_true (within _ reads.1), ih reads.2.2 (within_bind within) notMain.2,
      valuesInScope_of_reads (fun x isRead => within x (reads.2.1 x isRead)) notMain.1]
    rfl
  | bopExp name bop param1 param2 rest ih =>
    rw [operandsOf, List.flatMap_cons, List.flatMap_cons, List.mem_append, List.mem_append, not_or,
      not_or] at notMain
    have inBoth := List.forall_mem_append.mp reads.1
    rw [varsInScope, ih reads.2 (within_bind within) notMain.2.2,
      valueInScope_of_reads (fun x isRead => within x (inBoth.1 x isRead)) notMain.1,
      valueInScope_of_reads (fun x isRead => within x (inBoth.2 x isRead)) notMain.2.1]
    rfl
  | ifExp cond thenBranch elseBranch ihThen ihElse =>
    rw [operandsOf, List.flatMap_cons, List.flatMap_append, List.mem_append, List.mem_append,
      not_or, not_or] at notMain
    rw [varsInScope, ihThen reads.2.1 within notMain.2.1, ihElse reads.2.2 within notMain.2.2,
      valueInScope_of_reads (fun x isRead => within x (reads.1 x isRead)) notMain.1]
    rfl
  | tupleExp name values rest ih =>
    rw [operandsOf, List.flatMap_append, List.mem_append, not_or] at notMain
    rw [varsInScope, ih reads.2 (within_bind within) notMain.2,
      valuesInScope_of_reads (fun x isRead => within x (reads.1 x isRead)) notMain.1]
    rfl
  | projExp name tuple index rest ih =>
    rw [varsInScope, decide_eq_true (within _ reads.1), ih reads.2 (within_bind within) notMain]
    rfl

end Lambcalc.Driver
