import Lambcalc.Ast.Alpha
import Lambcalc.Ast.Semantics

/-!
# Renaming keeps the meaning

Alpha-equivalent programs evaluate to the same integers. Values are related as the programs are:
two closures are, if their bodies are alpha-equivalent where the variables that are paired have
related values. So what `rename` leaves behind means what it was given, wherever it keeps the
binders apart.
-/

namespace Lambcalc.Ast

/-! ## Both directions -/

/-- Links read the same from right to left. -/
theorem Linked.symm {scope : List (String × String)} {x y : String} (linked : Linked scope x y) :
    Linked (scope.map Prod.swap) y x := by
  induction scope with
  | nil => exact Eq.symm linked
  | cons pair scope ih =>
    rcases linked with ⟨left, right⟩ | ⟨left, right, further⟩
    · exact .inl ⟨right, left⟩
    · exact .inr ⟨right, left, ih further⟩

/-- Alpha equivalence does not depend on which tree is first. -/
theorem AlphaEq.symm {scope : List (String × String)} {e e' : Exp} (alpha : AlphaEq scope e e') :
    AlphaEq (scope.map Prod.swap) e' e := by
  induction e generalizing scope e' with
  | intExp value =>
    cases e' with
    | intExp value' => exact Eq.symm alpha
    | _ => exact alpha.elim
  | varExp name =>
    cases e' with
    | varExp name' => exact Linked.symm alpha
    | _ => exact alpha.elim
  | lamExp param body ih =>
    cases e' with
    | lamExp param' body' =>
      have alpha : AlphaEq ((param, param') :: scope) body body' := alpha
      exact ih alpha
    | _ => exact alpha.elim
  | appExp fn arg ihFn ihArg =>
    cases e' with
    | appExp fn' arg' => exact ⟨ihFn alpha.1, ihArg alpha.2⟩
    | _ => exact alpha.elim
  | bopExp bop arg1 arg2 ih1 ih2 =>
    cases e' with
    | bopExp bop' arg1' arg2' => exact ⟨alpha.1.symm, ih1 alpha.2.1, ih2 alpha.2.2⟩
    | _ => exact alpha.elim
  | ifExp cond then_ els ihCond ihThen ihEls =>
    cases e' with
    | ifExp cond' then' els' => exact ⟨ihCond alpha.1, ihThen alpha.2.1, ihEls alpha.2.2⟩
    | _ => exact alpha.elim

/-! ## Values -/

/-- Values that differ only in the names of parameters. -/
inductive AlphaVal : Val → Val → Prop
  | int (n : Word) : AlphaVal (.int n) (.int n)
  | clos {ρ ρ' : Env} {param param' : String} {body body' : Exp} {scope : List (String × String)}
      (alpha : AlphaEq ((param, param') :: scope) body body')
      (both : ∀ x y, Linked scope x y → (ρ x = none ↔ ρ' y = none))
      (related : ∀ x y v v', Linked scope x y → ρ x = some v → ρ' y = some v' → AlphaVal v v') :
      AlphaVal (.clos ρ param body) (.clos ρ' param' body')

/-- Environments in which the variables that are paired have related values, or none. -/
structure AlphaEnv (scope : List (String × String)) (ρ ρ' : Env) : Prop where
  both : ∀ x y, Linked scope x y → (ρ x = none ↔ ρ' y = none)
  related : ∀ x y v v', Linked scope x y → ρ x = some v → ρ' y = some v' → AlphaVal v v'

section Environments

variable {scope : List (String × String)} {ρ ρ' : Env}

/-- Linked variables have related values. -/
theorem AlphaEnv.lookup (env : AlphaEnv scope ρ ρ') {x y : String} {v : Val}
    (linked : Linked scope x y) (found : ρ x = some v) : ∃ v', ρ' y = some v' ∧ AlphaVal v v' := by
  cases found' : ρ' y with
  | none =>
    rw [(env.both x y linked).mpr found'] at found
    cases found
  | some v' => exact ⟨v', rfl, env.related x y v v' linked found found'⟩

/-- A pair of parameters comes into scope. -/
theorem AlphaEnv.update (env : AlphaEnv scope ρ ρ') {v v' : Val} (rel : AlphaVal v v')
    (param param' : String) : AlphaEnv ((param, param') :: scope)
      (Function.update ρ param (some v)) (Function.update ρ' param' (some v')) where
  both x y linked := by
    rcases linked with ⟨rfl, rfl⟩ | ⟨left, right, further⟩
    · rw [Function.update_self, Function.update_self]
      exact iff_of_false (Option.some_ne_none v) (Option.some_ne_none v')
    · rw [Function.update_of_ne left, Function.update_of_ne right]
      exact env.both x y further
  related x y w w' linked found found' := by
    rcases linked with ⟨rfl, rfl⟩ | ⟨left, right, further⟩
    · rw [Function.update_self] at found found'
      cases found
      cases found'
      exact rel
    · rw [Function.update_of_ne left] at found
      rw [Function.update_of_ne right] at found'
      exact env.related x y w w' further found found'

theorem alphaEnv_empty : AlphaEnv [] (fun _ => none) (fun _ => none) where
  both _ _ _ := Iff.rfl
  related _ _ _ _ _ found := by cases found

end Environments

/-! ## Evaluation -/

/-- Alpha-equivalent trees evaluate to values that are related. The induction is on the
evaluation. -/
theorem Eval.alpha {ρ : Env} {e : Exp} {v : Val} (run : Eval ρ e v) {e' : Exp} {ρ' : Env}
    {scope : List (String × String)} (alpha : AlphaEq scope e e') (env : AlphaEnv scope ρ ρ') :
    ∃ v', Eval ρ' e' v' ∧ AlphaVal v v' := by
  induction run generalizing e' ρ' scope with
  | @intExp ρ value =>
    cases e' with
    | intExp value' =>
      cases (alpha : value = value')
      exact ⟨_, .intExp, .int _⟩
    | _ => exact alpha.elim
  | @varExp ρ name v found =>
    cases e' with
    | varExp name' =>
      rcases env.lookup alpha found with ⟨v', found', rel⟩
      exact ⟨v', .varExp found', rel⟩
    | _ => exact alpha.elim
  | @lamExp ρ param body =>
    cases e' with
    | lamExp param' body' => exact ⟨_, .lamExp, .clos alpha env.both env.related⟩
    | _ => exact alpha.elim
  | appExp _ _ _ ihFn ihArg ihBody =>
    cases e' with
    | appExp fn' arg' =>
      rcases ihFn alpha.1 env with ⟨f', runFn, relFn⟩
      rcases ihArg alpha.2 env with ⟨a', runArg, relArg⟩
      cases relFn with
      | clos alphaBody both related =>
        -- the body runs where the closures were made
        rcases ihBody alphaBody (AlphaEnv.update ⟨both, related⟩ relArg _ _) with
          ⟨w', runBody, rel⟩
        exact ⟨w', .appExp runFn runArg runBody, rel⟩
    | _ => exact alpha.elim
  | bopExp _ _ ih1 ih2 =>
    cases e' with
    | bopExp bop' arg1' arg2' =>
      rcases alpha with ⟨rfl, alpha1, alpha2⟩
      rcases ih1 alpha1 env with ⟨_, run1, ⟨m⟩⟩
      rcases ih2 alpha2 env with ⟨_, run2, ⟨n⟩⟩
      exact ⟨_, .bopExp run1 run2, .int _⟩
    | _ => exact alpha.elim
  | ifThen _ ne _ ihCond ihThen =>
    cases e' with
    | ifExp cond' then' els' =>
      rcases ihCond alpha.1 env with ⟨_, runCond, ⟨n⟩⟩
      rcases ihThen alpha.2.1 env with ⟨v', runThen, rel⟩
      exact ⟨v', .ifThen runCond ne runThen, rel⟩
    | _ => exact alpha.elim
  | ifElse _ _ ihCond ihEls =>
    cases e' with
    | ifExp cond' then' els' =>
      rcases ihCond alpha.1 env with ⟨_, runCond, ⟨n⟩⟩
      rcases ihEls alpha.2.2 env with ⟨v', runEls, rel⟩
      exact ⟨v', .ifElse runCond runEls, rel⟩
    | _ => exact alpha.elim

/-- Alpha-equivalent programs evaluate to the same integers. -/
theorem eval_iff_of_alphaEq {e e' : Exp} (alpha : AlphaEq [] e e') (n : Word) :
    Eval (fun _ => none) e (.int n) ↔ Eval (fun _ => none) e' (.int n) := by
  constructor
  · intro run
    rcases run.alpha alpha alphaEnv_empty with ⟨_, run', ⟨⟩⟩
    exact run'
  · intro run
    rcases run.alpha alpha.symm alphaEnv_empty with ⟨_, run', ⟨⟩⟩
    exact run'

/-- Renaming a closed program no two of whose lambdas clash is a relabelling that evaluates to the
same integers. -/
theorem eval_relabel_iff {e : Exp} (closed : e.Closed) (apart : ¬ e.SuffixClash) (n : Word) :
    Eval (fun _ => none) e (.int n) ↔
      Eval (fun _ => none) (e.relabel suffixed id 0) (.int n) := by
  refine eval_iff_of_alphaEq (alphaEq_relabel ?_ (List.disjoint_nil_left _)
    ((nodup_suffixed_iff e id).mpr apart)) n
  intro x member
  rw [closed] at member
  cases member

/-- On a closed program no two of whose lambdas clash, `rename` succeeds, and what it leaves behind
has different parameters and evaluates to the same integers. -/
theorem rename_preserves_meaning (e : Exp) (closed : e.Closed) (apart : ¬ e.SuffixClash) :
    ∃ e', rename e = some (.returned e' fun _ => none) ∧ e'.params.Nodup ∧
      ∀ n, Eval (fun _ => none) e (.int n) ↔ Eval (fun _ => none) e' (.int n) := by
  refine ⟨_, rename_eq_relabel closed, ?_, eval_relabel_iff closed apart⟩
  exact (Exp.params_perm_visited _).nodup_iff.mpr ((nodup_suffixed_iff e id).mpr apart)

/-- `(fn x => (fn x => x) 1) 2`. -/
theorem rename_preserves_meaning_shadow : ∃ e', rename (.appExp (.lamExp "x" (.appExp
      (.lamExp "x" (.varExp "x")) (.intExp 1))) (.intExp 2)) = some (.returned e' fun _ => none) ∧
    Eval (fun _ => none) e' (.int 1) := by
  rcases rename_preserves_meaning (.appExp (.lamExp "x" (.appExp (.lamExp "x" (.varExp "x"))
    (.intExp 1))) (.intExp 2)) (by decide) (not_suffixClash_of_letters (by simp [Exp.params])) with
    ⟨e', renamed, -, means⟩
  exact ⟨e', renamed, (means 1).mp (.appExp .lamExp .intExp
    (.appExp .lamExp .intExp (.varExp (Function.update_self ..))))⟩

end Lambcalc.Ast
