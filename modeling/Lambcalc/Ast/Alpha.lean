import Lambcalc.Ast.RenameCorrect
import Lambcalc.Lib.Numbered

/-!
# Alpha equivalence and the names `rename` makes

Two trees are alpha-equivalent if they differ only in the names of their parameters:
`AlphaEq` walks both and keeps the pairs of parameters whose bodies it is in, innermost
first. A relabelling whose labels are pairwise distinct is alpha-equivalent to the tree.
The labels of `rename` are distinct exactly when no two lambdas are in a `SuffixClash`.
-/

namespace Lambcalc.Ast

/-- `x` on the left and `y` on the right are bound at the same place of `scope`, or both
nowhere and equal. -/
def Linked : List (String × String) → String → String → Prop
  | [], x, y => x = y
  | (p, q) :: scope, x, y => (x = p ∧ y = q) ∨ (x ≠ p ∧ y ≠ q ∧ Linked scope x y)

/-- The trees differ only in their parameters, under parameters already paired in `scope`. -/
def AlphaEq : List (String × String) → Exp → Exp → Prop
  | _, .intExp m, .intExp n => m = n
  | scope, .varExp x, .varExp y => Linked scope x y
  | scope, .lamExp p body, .lamExp q body' => AlphaEq ((p, q) :: scope) body body'
  | scope, .appExp fn arg, .appExp fn' arg' => AlphaEq scope fn fn' ∧ AlphaEq scope arg arg'
  | scope, .bopExp bop arg1 arg2, .bopExp bop' arg1' arg2' =>
    bop = bop' ∧ AlphaEq scope arg1 arg1' ∧ AlphaEq scope arg2 arg2'
  | scope, .ifExp cond then_ els, .ifExp cond' then_' els' =>
    AlphaEq scope cond cond' ∧ AlphaEq scope then_ then_' ∧ AlphaEq scope els els'
  | _, _, _ => False

/-! ## Distinct labels keep the binding structure -/

/-- `σ` sends every variable of `dom` to the parameter that `scope` pairs with its binder. -/
def Links (scope : List (String × String)) (dom : Finset String) (σ : String → String) : Prop :=
  ∀ x ∈ dom, Linked scope x (σ x) ∧ σ x ∈ scope.map Prod.snd

theorem Links.mono {scope : List (String × String)} {dom dom' : Finset String}
    {σ : String → String} (links : Links scope dom σ) (sub : dom' ⊆ dom) : Links scope dom' σ :=
  fun x member => links x (sub member)

/-- Under a new pair, whose label no pair of the scope has. -/
theorem Links.body {scope : List (String × String)} {param label : String} {body : Exp}
    {σ : String → String} (links : Links scope (Exp.lamExp param body).free σ)
    (fresh : label ∉ scope.map Prod.snd) :
    Links ((param, label) :: scope) body.free (Function.update σ param label) := by
  intro x member
  by_cases eq : x = param
  · subst eq
    rw [Function.update_self]
    exact ⟨.inl ⟨rfl, rfl⟩, List.mem_cons_self⟩
  · rw [Function.update_of_ne eq]
    obtain ⟨linked, inScope⟩ := links x (Finset.mem_erase.mpr ⟨eq, member⟩)
    have ne : σ x ≠ label := fun same => fresh (same ▸ inScope)
    exact ⟨.inr ⟨eq, ne, linked⟩, List.mem_cons_of_mem _ inScope⟩

/-- A relabelling with pairwise distinct labels, none of them in scope, is alpha-equivalent
to the tree. -/
theorem alphaEq_relabel {label : String → Nat → String} {e : Exp} {σ : String → String} {i : Nat}
    {scope : List (String × String)} (links : Links scope e.free σ)
    (fresh : (scope.map Prod.snd).Disjoint (e.relabel label σ i).visited)
    (nodup : (e.relabel label σ i).visited.Nodup) : AlphaEq scope e (e.relabel label σ i) := by
  induction e generalizing σ i scope with
  | intExp value => rfl
  | varExp name => exact (links name (Finset.mem_singleton_self name)).1
  | lamExp param body ih =>
    obtain ⟨notMem, nodupBody⟩ := List.nodup_cons.mp nodup
    obtain ⟨notInScope, freshBody⟩ := List.disjoint_cons_right.mp fresh
    refine ih (links.body notInScope) ?_ nodupBody
    exact List.disjoint_cons_left.mpr ⟨notMem, freshBody⟩
  | appExp fn arg ihFn ihArg =>
    obtain ⟨nodupArg, nodupFn, -⟩ := List.nodup_append'.mp nodup
    obtain ⟨freshArg, freshFn⟩ := List.disjoint_append_right.mp fresh
    exact ⟨ihFn (links.mono Finset.subset_union_left) freshFn nodupFn,
      ihArg (links.mono Finset.subset_union_right) freshArg nodupArg⟩
  | bopExp bop arg1 arg2 ih1 ih2 =>
    obtain ⟨nodup2, nodup1, -⟩ := List.nodup_append'.mp nodup
    obtain ⟨fresh2, fresh1⟩ := List.disjoint_append_right.mp fresh
    exact ⟨rfl, ih1 (links.mono Finset.subset_union_left) fresh1 nodup1,
      ih2 (links.mono Finset.subset_union_right) fresh2 nodup2⟩
  | ifExp cond then_ els ihCond ihThen ihEls =>
    obtain ⟨nodupRest, nodupCond, -⟩ := List.nodup_append'.mp nodup
    obtain ⟨nodupEls, nodupThen, -⟩ := List.nodup_append'.mp nodupRest
    obtain ⟨freshRest, freshCond⟩ := List.disjoint_append_right.mp fresh
    obtain ⟨freshEls, freshThen⟩ := List.disjoint_append_right.mp freshRest
    exact ⟨ihCond (links.mono (Finset.subset_union_left.trans Finset.subset_union_left))
        freshCond nodupCond,
      ihThen (links.mono (Finset.subset_union_right.trans Finset.subset_union_left))
        freshThen nodupThen,
      ihEls (links.mono Finset.subset_union_right) freshEls nodupEls⟩

/-! ## When the names of `rename` are distinct -/

/-- Two lambdas, visited `i`-th and later `j`-th, get one name: the first one's parameter, up to
a NUL in it, is the second one's with digits behind it, and `j` begins with these digits and ends
in `i`. -/
def Exp.SuffixClash (e : Exp) : Prop :=
  ∃ i j p q, i < j ∧ e.visited[i]? = some p ∧ e.visited[j]? = some q ∧
    Lib.Overlap (data p) i (data q) j

/-- The names `rename` makes are different exactly if no two lambdas clash. -/
theorem nodup_suffixed_iff (e : Exp) (σ : String → String) :
    (e.relabel suffixed σ 0).visited.Nodup ↔ ¬ e.SuffixClash := by
  rw [Exp.visited_relabel, List.nodup_iff_getElem?_ne_getElem?]
  constructor
  · rintro distinct ⟨i, j, p, q, lt, first, second, overlap⟩
    obtain ⟨bound, -⟩ := List.getElem?_eq_some_iff.mp second
    have names : suffixed p i = suffixed q j := overlap.eq
    refine distinct i j lt (by simpa using bound) ?_
    simpa [first, second] using names
  · intro apart i j lt bound eq
    have bound' : j < e.visited.length := by simpa using bound
    obtain ⟨p, first⟩ : ∃ p, e.visited[i]? = some p := ⟨_, List.getElem?_eq_getElem (by omega)⟩
    obtain ⟨q, second⟩ : ∃ q, e.visited[j]? = some q := ⟨_, List.getElem?_eq_getElem bound'⟩
    have names : suffixed p i = suffixed q j := by simpa [first, second] using eq
    exact apart ⟨i, j, p, q, lt, first, second,
      (Lib.append_toString_eq_iff_of_le lt.le).mp names⟩

/-- `data` makes no digits. -/
theorem letters_data {e : Exp} {p : String}
    (letters : ∀ p ∈ e.params, ∀ c ∈ p.toList, c.isDigit = false) (isParam : p ∈ e.params) :
    ∀ c ∈ (data p).toList, c.isDigit = false :=
  fun c member => letters p isParam c (mem_of_mem_data member)

/-- Lambdas whose parameters have no digits do not clash. -/
theorem not_suffixClash_of_letters {e : Exp}
    (letters : ∀ p ∈ e.params, ∀ c ∈ p.toList, c.isDigit = false) : ¬ e.SuffixClash := by
  rintro ⟨i, j, p, q, lt, first, -, overlap⟩
  have isParam : p ∈ e.params :=
    (Exp.params_perm_visited e).mem_iff.mpr (List.mem_of_getElem? first)
  exact lt.ne (overlap.of_letters (letters_data letters isParam)).2

/-- On a closed tree `rename` succeeds. What it leaves behind is alpha-equivalent to the tree
and has pairwise distinct parameters exactly when no two of the tree's lambdas clash. -/
theorem rename_correct_iff (e : Exp) (closed : e.Closed) :
    ∃ e', rename e = some (.returned e' fun _ => none) ∧
      ((AlphaEq [] e e' ∧ e'.params.Nodup) ↔ ¬ e.SuffixClash) := by
  refine ⟨_, rename_eq_relabel closed, ?_⟩
  have distinct : (e.relabel suffixed id 0).params.Nodup ↔ ¬ e.SuffixClash :=
    (Exp.params_perm_visited _).nodup_iff.trans (nodup_suffixed_iff e id)
  refine ⟨fun correct => distinct.mp correct.2, fun apart => ⟨?_, distinct.mpr apart⟩⟩
  refine alphaEq_relabel ?_ (List.disjoint_nil_left _) ((nodup_suffixed_iff e id).mpr apart)
  intro x member
  rw [closed] at member
  cases member

/-- `(fn x => (fn y => x + y) (x + 2)) 3`. -/
def nested : Exp :=
  .appExp (.lamExp "x" (.appExp (.lamExp "y" (.bopExp .plus (.varExp "x") (.varExp "y")))
    (.bopExp .plus (.varExp "x") (.intExp 2)))) (.intExp 3)

theorem nested_letters : ∀ p ∈ nested.params, ∀ c ∈ p.toList, c.isDigit = false := by
  simp [nested, Exp.params]

theorem rename_correct_iff_nested : ∃ e', rename nested = some (.returned e' fun _ => none) ∧
    AlphaEq [] nested e' ∧ e'.params.Nodup := by
  rcases rename_correct_iff nested (by decide) with ⟨e', renamed, correct⟩
  exact ⟨e', renamed, correct.mpr (not_suffixClash_of_letters nested_letters)⟩

/-- Eleven nested lambdas, of which `a1` is the first and `a` the last, around the variable
`a1`: the first and the last one are both renamed to `a10`, and the variable changes its
binder. -/
def deepShadow : Exp :=
  ["a1", "b", "b", "b", "b", "b", "b", "b", "b", "b", "a"].foldr .lamExp (.varExp "a1")

theorem deepShadow_renamed_wrong : deepShadow.Closed ∧ (∀ x ∈ deepShadow.names, isIdentifier x) ∧
    ∃ e', rename deepShadow = some (.returned e' fun _ => none) ∧
      ¬ AlphaEq [] deepShadow e' ∧ ¬ e'.params.Nodup := by
  refine ⟨by decide, by decide, _, rename_eq_relabel (by decide), ?_, by decide⟩
  intro alphaEq
  -- under eleven pairs, the variable would have to avoid the innermost new name
  simp [deepShadow, Exp.relabel, AlphaEq, Linked, suffixed] at alphaEq
  exact alphaEq.1 (by decide)

end Lambcalc.Ast
