import Lambcalc.Anf.Capture
import Lambcalc.Lower.Source
import Mathlib.Data.Finset.Image

/-!
# Every name is defined before it is used

The functions that a source program is turned into, by renaming, the ANF pass, closure conversion
and hoisting, and what lowering finds in them.
-/

namespace Lambcalc.Ast.Exp

/-! ## Renaming -/

section Relabelling

variable (label : String → Nat → String) (e : Exp) (σ : String → String) (i : Nat)

@[simp] theorem hasIf_relabel : (e.relabel label σ i).hasIf = e.hasIf := by
  induction e generalizing σ i with
  | intExp value => rfl
  | varExp name => rfl
  | lamExp param body _ => rfl
  | appExp fn arg ihFn ihArg => simp only [relabel, hasIf, ihFn, ihArg]
  | bopExp bop arg1 arg2 ih1 ih2 => simp only [relabel, hasIf, ih1, ih2]
  | ifExp cond then_ els _ _ _ => rfl

@[simp] theorem isAtom_relabel : (e.relabel label σ i).isAtom = e.isAtom := by
  cases e <;> rfl

@[simp] theorem inOrder_relabel (entry : Bool) :
    (e.relabel label σ i).inOrder entry = e.inOrder entry := by
  induction e generalizing σ i entry with
  | intExp value => rfl
  | varExp name => rfl
  | lamExp param body ih => exact ih ..
  | appExp fn arg ihFn ihArg =>
    simp only [relabel, inOrder, keeps, ihFn, ihArg, hasIf_relabel, isAtom_relabel]
  | bopExp bop arg1 arg2 ih1 ih2 =>
    simp only [relabel, inOrder, keeps, ih1, ih2, hasIf_relabel, isAtom_relabel]
  | ifExp cond then_ els ihCond ihThen ihEls =>
    simp only [relabel, inOrder, ihCond, ihThen, ihEls]

/-- What is free after relabelling is the image of what was free before. -/
theorem free_relabel_subset : (e.relabel label σ i).free ⊆ e.free.image σ := by
  induction e generalizing σ i with
  | intExp value => exact Finset.empty_subset _
  | varExp name => exact (Finset.image_singleton σ name).symm.subset
  | lamExp param body ih =>
    intro x member
    obtain ⟨ne, occurs⟩ := Finset.mem_erase.mp member
    obtain ⟨y, free, rfl⟩ := Finset.mem_image.mp (ih _ _ occurs)
    by_cases eq : y = param
    · rw [eq, Function.update_self] at ne
      cases ne rfl
    · rw [Function.update_of_ne eq]
      exact Finset.mem_image_of_mem σ (Finset.mem_erase.mpr ⟨eq, free⟩)
  | appExp fn arg ihFn ihArg =>
    rw [Exp.free, Finset.image_union]
    exact Finset.union_subset_union (ihFn ..) (ihArg ..)
  | bopExp bop arg1 arg2 ih1 ih2 =>
    rw [Exp.free, Finset.image_union]
    exact Finset.union_subset_union (ih1 ..) (ih2 ..)
  | ifExp cond then_ els ihCond ihThen ihEls =>
    rw [Exp.free, Finset.image_union, Finset.image_union]
    exact Finset.union_subset_union (Finset.union_subset_union (ihCond ..) (ihThen ..)) (ihEls ..)

end Relabelling

/-- Renaming can turn `param` into a temporary of the ANF pass. -/
def IsTemporary (param : String) : Prop := ∃ i j, Lib.Overlap (data param) i "tmp" j

/-- The parameters stay apart from each other, and from the names that later passes generate. -/
structure ParamsDistinct (e : Exp) : Prop where
  clash : ¬ e.SuffixClash
  temporary : ∀ p ∈ e.params, ¬ IsTemporary p
  reserved : ∀ p ∈ e.params, ¬ Convert.Reserved p

/-- Parameters without digits are apart from each other and from the names the passes make, unless
one of them is what these begin with. -/
theorem paramsDistinct_of_letters {e : Exp}
    (letters : ∀ p ∈ e.params, ∀ c ∈ p.toList, c.isDigit = false)
    (others : ∀ p ∈ e.params, data p ≠ "tmp" ∧ data p ≠ "closure" ∧ data p ≠ "proj") :
    e.ParamsDistinct where
  clash := not_suffixClash_of_letters letters
  temporary := by
    rintro p isParam ⟨i, j, overlap⟩
    exact (others p isParam).1 (overlap.of_letters (letters_data letters isParam)).1
  reserved p isParam :=
    Convert.not_reserved_of_letters (letters_data letters isParam) (others p isParam).2

end Lambcalc.Ast.Exp

namespace Lambcalc.Lower

open Anf Hoist Lambcalc.Convert

/-- The A-normal form of a renamed program whose parameters are distinct. -/
theorem plain_convert {e : Ast.Exp} {c c' : Nat} {t : Exp} (closed : e.Closed)
    (distinct : e.ParamsDistinct)
    (ran : convert (e.relabel Ast.suffixed id 0) c = .ok (t, c')) :
    (e.relabel Ast.suffixed id 0).Apart ∧ (e.relabel Ast.suffixed id 0).Closed ∧ Plain t := by
  have stillClosed : (e.relabel Ast.suffixed id 0).Closed := by
    have within := e.free_relabel_subset Ast.suffixed id 0
    rw [closed, Finset.image_empty] at within
    exact Finset.subset_empty.mp within
  have names : ∀ x ∈ (e.relabel Ast.suffixed id 0).names, (∀ i, x ≠ tmp i) ∧ ¬ Inserted x := by
    apply names_relabel (P := fun x => (∀ i, x ≠ tmp i) ∧ ¬ Inserted x) e
    · intro p member i
      refine ⟨fun j eq => ?_, fun inserted => ?_⟩
      · exact distinct.temporary p member ⟨i, j, suffixed_eq_tmp_iff.mp eq⟩
      · exact distinct.reserved p member (inserted_suffixed inserted)
    · intro x occurs
      rw [closed] at occurs
      cases occurs
  have applies : (e.relabel Ast.suffixed id 0).appliesInt = false := by
    by_contra applies
    obtain ⟨error, threw⟩ := convert_eq_error.mpr (Bool.not_eq_false _ ▸ applies)
    cases threw.symm.trans ran
  have apart : (e.relabel Ast.suffixed id 0).Apart := ⟨fun x member => (names x member).1, applies⟩
  have nodup : (e.relabel Ast.suffixed id 0).params.Nodup :=
    (Ast.Exp.params_perm_visited _).nodup_iff.mpr ((Ast.nodup_suffixed_iff e id).mpr distinct.clash)
  obtain rfl := convert_around ran
  refine ⟨apart, stillClosed, tidy_around stillClosed apart nodup c, isAnf_convert ran, ?_⟩
  intro x occurs
  rcases occurs with free | bound
  · have occurs := (mem_free_haltExp apart c x).mp free
    rw [stillClosed] at occurs
    cases occurs
  · have names' := (boundNames_around _ c 0 _).mem_iff.mp bound
    rw [Exp.boundNames, List.append_nil, List.mem_append] at names'
    rcases names' with isParam | isTmp
    · exact (names x (Ast.Exp.params_subset _ isParam)).2
    · obtain ⟨i, -, rfl⟩ := List.mem_map.mp isTmp
      exact not_inserted_tmp i

/-- Where the parameters of the program are distinct, lowering finds every name exactly if the
program is in order. -/
theorem defined_iff_inOrder {e : Ast.Exp} {n n' : Nat} {t : Exp} (closed : e.Closed)
    (distinct : e.ParamsDistinct)
    (ran : convertDefunc (e.relabel Ast.suffixed id 0) n = .ok (t, n')) :
    (∀ fn ∈ hoist (closureConvert t), Defined fn) ↔ e.inOrder true = true := by
  rw [convertDefunc_eq_ok] at ran
  obtain ⟨apart, stillClosed, plain⟩ := plain_convert closed distinct ran
  rw [defined_hoist, finds_closureConvert plain, convert_around ran]
  refine (functionOk_around apart stillClosed.subset (fun i _ => Finset.notMem_empty _)
    fun _ _ based inBase inNamed =>
      ordered_around _ apart (Fits.haltExp _ n) based inBase inNamed).trans ?_
  rw [Ast.Exp.inOrder_relabel]

/-- Lowering the functions that a closed program is converted and hoisted into finds every name,
exactly if it does so in the nested term (whatever the names of the program are). If the
parameters of the program are distinct, it does so exactly if the program is in order. -/
theorem lowering_defined_iff (e : Ast.Exp) (n n' : Nat) (closed : e.Closed) (e' : Ast.Exp)
    (ρ : Ast.RenameMap) (renamed : Ast.rename e = some (.returned e' ρ)) (t : Exp)
    (ran : convertDefunc e' n = .ok (t, n')) :
    ((∀ fn ∈ hoist (closureConvert t), Defined fn) ↔
      (functionFinds ∅ (closureConvert t) && functionsFind (closureConvert t)) = true) ∧
    (e.ParamsDistinct →
      ((∀ fn ∈ hoist (closureConvert t), Defined fn) ↔ e.inOrder true = true)) := by
  refine ⟨defined_hoist _, fun distinct => ?_⟩
  cases (Ast.rename_eq_relabel closed).symm.trans renamed
  exact defined_iff_inOrder closed distinct ran

/-- `fn x => x + (if x then 1 else 2)`. -/
def addBranch : Ast.Exp :=
  .lamExp "x" (.bopExp .plus (.varExp "x") (.ifExp (.varExp "x") (.intExp 1) (.intExp 2)))

theorem addBranch_distinct : addBranch.ParamsDistinct :=
  Ast.Exp.paramsDistinct_of_letters (by simp [addBranch, Ast.Exp.params]) (by decide)

theorem lowering_defined_iff_addBranch : ∃ t,
    convertDefunc (addBranch.relabel Ast.suffixed id 0) 0 = .ok (t, 4) ∧
      ((∀ fn ∈ hoist (closureConvert t), Defined fn) ↔ addBranch.inOrder true = true) := by
  have ran : convertDefunc (addBranch.relabel Ast.suffixed id 0) 0 =
      .ok (.funExp "tmp3" ["x0"] (.joinExp "tmp0" (some "tmp1")
        (.bopExp "tmp2" .plus (.varValue "x0") (.varValue "tmp1") (.haltExp (.varValue "tmp2")))
        (.ifExp (.varValue "x0") (.jumpExp "tmp0" (some (.intValue 1)))
          (.jumpExp "tmp0" (some (.intValue 2))))) (.haltExp (.varValue "tmp3")), 4) := by
    decide
  exact ⟨_, ran, (lowering_defined_iff addBranch 0 4 (by decide) _ _
    (Ast.rename_eq_relabel (by decide)) _ ran).2 addBranch_distinct⟩

/-- `(if 1 then 2 else 3) + (if 4 then 5 else 6)`: the block of the sum is nested in the block
after the first `if`, and is lowered before it. -/
def addBranches : Ast.Exp :=
  .bopExp .plus (.ifExp (.intExp 1) (.intExp 2) (.intExp 3))
    (.ifExp (.intExp 4) (.intExp 5) (.intExp 6))

theorem addBranches_undefined : ∃ t, addBranches.Closed ∧
    Ast.rename addBranches = some (.returned addBranches fun _ => none) ∧
    convertDefunc addBranches 0 = .ok (t, 5) ∧
    ¬ ∀ fn ∈ hoist (closureConvert t), Defined fn := by
  refine ⟨.joinExp "tmp0" (some "tmp1") (.joinExp "tmp2" (some "tmp3")
      (.bopExp "tmp4" .plus (.varValue "tmp1") (.varValue "tmp3") (.haltExp (.varValue "tmp4")))
      (.ifExp (.intValue 4) (.jumpExp "tmp2" (some (.intValue 5)))
        (.jumpExp "tmp2" (some (.intValue 6)))))
    (.ifExp (.intValue 1) (.jumpExp "tmp0" (some (.intValue 2)))
      (.jumpExp "tmp0" (some (.intValue 3)))), ?_, ?_, ?_, ?_⟩
  · decide
  · exact Ast.rename_eq_relabel (by decide)
  · decide
  · decide

end Lambcalc.Lower
