import Lambcalc.Anf.DefuncCorrect
import Lambcalc.Anf.Semantics
import Lambcalc.Lib.Numbered

/-!
# The ANF conversion preserves meaning

The conversion of `e` with a continuation `k` runs the code of `e` and then the term `k`
makes of the value of `e`. `Lands` says what is known at that point: which operand `k` was
given, that it denotes the source value, and that the environment has only gained
temporaries drawn in between. `eval_convertWith` and `eval_of_convertWith` are the two
directions of the simulation; they differ in which run is given and which is constructed.

The join points in scope are the same before and after the code of `e`: a join body runs
under the join points of its `JoinExp`.
-/

namespace Lambcalc.Anf

/-! ## Temporaries -/

theorem tmp_injective {i j : Nat} (eq : tmp i = tmp j) : i = j :=
  Lib.append_toString_injective eq

/-- The temporaries drawn while the counter goes from `c` to `c'`. -/
def tmpsIn (c c' : Nat) : Set Var := {x | ∃ i, c ≤ i ∧ i < c' ∧ x = tmp i}

theorem tmpsIn_mono {c c' d d' : Nat} (low : d ≤ c) (high : c' ≤ d') : tmpsIn c c' ⊆ tmpsIn d d' :=
  fun _ ⟨i, ge, lt, eq⟩ => ⟨i, by omega, by omega, eq⟩

/-- `x` is not a temporary that can still be drawn from counter `c`. -/
def Old (c : Nat) (x : Var) : Prop := ∀ i ≥ c, x ≠ tmp i

theorem Old.mono {c c' : Nat} {x : Var} (old : Old c x) (le : c ≤ c') : Old c' x :=
  fun i ge => old i (le.trans ge)

/-- A name from before is none of the temporaries drawn from here on. -/
theorem Old.notMem {c c' d : Nat} {x : Var} (old : Old c x) (le : c ≤ d) : x ∉ tmpsIn d c' :=
  fun ⟨i, ge, _, eq⟩ => old i (le.trans ge) eq

theorem old_tmp {i c : Nat} (lt : i < c) : Old c (tmp i) := by
  intro j ge eq
  have := tmp_injective eq
  omega

/-- The variables and parameters of `e` are no temporaries that can still be drawn. -/
def Avoids (e : Ast.Exp) (c : Nat) : Prop := ∀ x, x ∈ e.free ∨ x ∈ e.params → Old c x

theorem Avoids.mono {e : Ast.Exp} {c c' : Nat} (avoids : Avoids e c) (le : c ≤ c') :
    Avoids e c' := fun x member => (avoids x member).mono le

/-- An operand that is no temporary still to be drawn. -/
def Value.Old (c : Nat) : Value → Prop
  | .varValue var => Anf.Old c var
  | _ => True

/-- Environments that differ only in temporaries drawn from `c` to `c'`. -/
def Extends (c c' : Nat) (ρ ρ' : Env Val) : Prop := Set.EqOn ρ' ρ (tmpsIn c c')ᶜ

theorem Extends.refl (c : Nat) (ρ : Env Val) : Extends c c ρ ρ := fun _ _ => rfl

/-- One extension after the other. -/
theorem Extends.trans {c c' c'' : Nat} {ρ ρ' ρ'' : Env Val} (first : Extends c c' ρ ρ')
    (second : Extends c' c'' ρ' ρ'') (le : c ≤ c') (le' : c' ≤ c'') : Extends c c'' ρ ρ'' := by
  intro x notMem
  have notSecond : x ∉ tmpsIn c' c'' := fun member => notMem (tmpsIn_mono le le_rfl member)
  have notFirst : x ∉ tmpsIn c c' := fun member => notMem (tmpsIn_mono le_rfl le' member)
  exact (second notSecond).trans (first notFirst)

theorem Extends.step {c c' : Nat} {ρ ρ' : Env Val} (ext : Extends c c' ρ ρ') (le : c ≤ c') :
    Extends c (c' + 1) ρ ρ' :=
  ext.trans (fun _ _ => rfl) le (Nat.le_succ c')

/-- Binding the next temporary. -/
theorem Extends.set {c i : Nat} {ρ ρ' : Env Val} (ext : Extends c i ρ ρ') (v : Val)
    (le : c ≤ i) : Extends c (i + 1) ρ (ρ'.set (tmp i) v) := by
  intro x notMem
  have ne : x ≠ tmp i := fun eq => notMem ⟨i, le, by omega, eq⟩
  rw [Env.set_of_ne ne]
  exact ext fun member => notMem (tmpsIn_mono le_rfl (by omega) member)

theorem Extends.old {c c' : Nat} {ρ ρ' : Env Val} (ext : Extends c c' ρ ρ') {x : Var}
    (old : Old c x) : ρ' x = ρ x := ext (old.notMem le_rfl)

/-- An old value evaluates as before. -/
theorem Extends.value {c c' : Nat} {ρ ρ' : Env Val} (ext : Extends c c' ρ ρ') {a : Value}
    (old : a.Old c) : a.eval ρ' = a.eval ρ := by
  cases a with
  | varValue var => exact ext.old old
  | _ => rfl

/-! ## Related values -/

/-- A source value and its counterpart: equal integers, or a source closure and the closure
of its converted body, under environments related on the free variables of the function.
The functions `vs` and `vs'` name the values of these. -/
inductive ValRel : Ast.Val → Val → Prop
  | int (n : Word) : ValRel (.int n) (.int n)
  | clos {ρ : Ast.Env} {ρ' : Env Val} {param : String} {body : Ast.Exp} {code : Exp}
      {c c' : Nat} {vs : String → Ast.Val} {vs' : String → Val} :
    convert body c = .ok (code, c') → Avoids (.lamExp param body) c →
    (∀ x ∈ (Ast.Exp.lamExp param body).free, ρ x = some (vs x)) →
    (∀ x ∈ (Ast.Exp.lamExp param body).free, ρ' x = some (vs' x)) →
    (∀ x ∈ (Ast.Exp.lamExp param body).free, ValRel (vs x) (vs' x)) →
    ValRel (.clos ρ param body) (.clos ρ' [param] code)

/-- Environments related on the variables of `dom`. -/
def EnvRel (dom : Finset String) (ρ : Ast.Env) (ρ' : Env Val) : Prop :=
  ∀ x ∈ dom, ∃ v v', ρ x = some v ∧ ρ' x = some v' ∧ ValRel v v'

theorem EnvRel.mono {dom dom' : Finset String} {ρ : Ast.Env} {ρ' : Env Val}
    (rel : EnvRel dom ρ ρ') (sub : dom' ⊆ dom) : EnvRel dom' ρ ρ' :=
  fun x member => rel x (sub member)

/-- New temporaries do not matter to old names. -/
theorem EnvRel.ext {dom : Finset String} {ρ : Ast.Env} {ρ' ρ'' : Env Val} {c c' : Nat}
    (rel : EnvRel dom ρ ρ') (ext : Extends c c' ρ' ρ'') (old : ∀ x ∈ dom, Old c x) :
    EnvRel dom ρ ρ'' := by
  intro x member
  obtain ⟨v, v', found, found', related⟩ := rel x member
  exact ⟨v, v', found, (ext.old (old x member)).trans found', related⟩

/-- A closure and its converted code are related where their environments are. -/
theorem ValRel.of_envRel {ρ : Ast.Env} {ρ' : Env Val} {param : String} {body : Ast.Exp}
    {code : Exp} {c c' : Nat} (ran : convert body c = .ok (code, c'))
    (avoids : Avoids (.lamExp param body) c)
    (rel : EnvRel (Ast.Exp.lamExp param body).free ρ ρ') :
    ValRel (.clos ρ param body) (.clos ρ' [param] code) := by
  refine @ValRel.clos ρ ρ' param body code c c' (fun x => (ρ x).getD (.int 0))
    (fun x => (ρ' x).getD (.int 0)) ran avoids ?_ ?_ ?_
  · intro x member
    obtain ⟨v, v', found, -, -⟩ := rel x member
    simp [found]
  · intro x member
    obtain ⟨v, v', -, found', -⟩ := rel x member
    simp [found']
  · intro x member
    obtain ⟨v, v', found, found', related⟩ := rel x member
    simpa [found, found'] using related

/-- What a closure related to a source closure looks like. -/
theorem ValRel.clos_inv {ρ : Ast.Env} {param : String} {body : Ast.Exp} {v' : Val}
    (rel : ValRel (.clos ρ param body) v') :
    ∃ ρ' code c c', v' = .clos ρ' [param] code ∧ convert body c = .ok (code, c') ∧
      Avoids (.lamExp param body) c ∧ EnvRel (Ast.Exp.lamExp param body).free ρ ρ' := by
  cases rel with
  | clos ran avoids found found' related =>
    exact ⟨_, _, _, _, rfl, ran, avoids,
      fun x member => ⟨_, _, found x member, found' x member, related x member⟩⟩

/-- What a source value related to a closure looks like. -/
theorem ValRel.of_clos {v : Ast.Val} {ρ' : Env Val} {params : List Var} {code : Exp}
    (rel : ValRel v (.clos ρ' params code)) :
    ∃ ρ param body c c', v = .clos ρ param body ∧ params = [param] ∧
      convert body c = .ok (code, c') ∧ Avoids (.lamExp param body) c ∧
      EnvRel (Ast.Exp.lamExp param body).free ρ ρ' := by
  cases rel with
  | clos ran avoids found found' related =>
    exact ⟨_, _, _, _, _, rfl, rfl, ran, avoids,
      fun x member => ⟨_, _, found x member, found' x member, related x member⟩⟩

/-- Binding the parameter to related arguments. -/
theorem EnvRel.bind_param {ρ : Ast.Env} {ρ' : Env Val} {param : String} {body : Ast.Exp}
    (rel : EnvRel (Ast.Exp.lamExp param body).free ρ ρ') {v : Ast.Val} {v' : Val}
    (related : ValRel v v') :
    EnvRel body.free (Function.update ρ param (some v)) (ρ'.set param v') := by
  intro x member
  by_cases eq : x = param
  · subst eq
    exact ⟨v, v', Function.update_self .., Env.set_self .., related⟩
  · rw [Function.update_of_ne eq, Env.set_of_ne eq]
    exact rel x (Finset.mem_erase.mpr ⟨eq, member⟩)

/-! ## Reaching the continuation -/

/-- The conversion with continuation `k`, begun at counter `c` under `ρ`, reaches the term
`tk` that `k` built, under `ρ'`: `k` was given an operand for the source value `v`. -/
def Lands (k : Cont) (c : Nat) (ρ : Env Val) (v : Ast.Val) (tk : Exp) (ρ' : Env Val) : Prop :=
  ∃ a m m' v', k a m = .ok (tk, m') ∧ c ≤ m ∧ Extends c m ρ ρ' ∧ a.Old m ∧
    a.eval ρ' = some v' ∧ ValRel v v'

/-- Landing on a temporary that has just been bound. -/
theorem Lands.of_tmp {k : Cont} {c i m' : Nat} {ρ ρ' : Env Val} {v : Ast.Val} {v' : Val}
    {tk : Exp} (ran : k (.varValue (tmp i)) (i + 1) = .ok (tk, m')) (le : c ≤ i)
    (ext : Extends c i ρ ρ') (rel : ValRel v v') : Lands k c ρ v tk (ρ'.set (tmp i) v') :=
  ⟨_, i + 1, m', v', ran, by omega, ext.set v' le, old_tmp (Nat.lt_succ_self i),
    Env.set_self .., rel⟩

/-- What is left of a landing that only remembers the values: enough for the halting
continuation. -/
theorem Lands.halt {c : Nat} {ρ ρ' : Env Val} {v : Ast.Val} {tk : Exp}
    (lands : Lands haltCont c ρ v tk ρ') :
    ∃ v', ValRel v v' ∧ ∀ joins fuel, eval (fuel + 1) ρ' joins tk = some v' := by
  obtain ⟨a, m, m', v', ran, -, -, -, value, rel⟩ := lands
  cases ran
  exact ⟨v', rel, fun _ _ => value⟩

/-- Landing in the branch of an `if`: the jump enters the join point with the value. -/
theorem Lands.jump {i c : Nat} {ρ ρ' : Env Val} {v : Ast.Val} {tk : Exp}
    (lands : Lands (jumpCont (tmp i)) c ρ v tk ρ') :
    ∃ v', ValRel v v' ∧ ∀ slot env body joins fuel w,
      eval (fuel + 1) ρ' (⟨tmp i, some slot, env, body⟩ :: joins) tk = some w ↔
        eval fuel (env.set slot v') joins body = some w := by
  obtain ⟨a, m, m', v', ran, -, -, -, value, rel⟩ := lands
  cases ran
  refine ⟨v', rel, fun slot env body joins fuel w => ?_⟩
  have slotValue : (some a).mapM (Value.eval ρ') = some (some v') := by
    rw [Option.mapM_some, value]
    rfl
  rw [eval_jumpExp]
  constructor
  · rintro ⟨join, outer, u, inner, found, value', passed, evals⟩
    cases (findJoin_self _ joins).symm.trans found
    cases slotValue.symm.trans value'
    cases passed
    exact evals
  · exact fun evals => ⟨_, _, some v', _, findJoin_self _ joins, slotValue, rfl, evals⟩

/-- An operand that denotes a closure is a variable. -/
theorem Value.eq_var_of_clos {a : Value} {ρ ρ' : Env Val} {params : List Var} {code : Exp}
    (value : a.eval ρ = some (.clos ρ' params code)) : ∃ name, a = .varValue name := by
  cases a with
  | intValue n => cases value
  | varValue name => exact ⟨name, rfl⟩
  | globValue glob => cases value

/-- What is applied is a variable. -/
theorem Value.eq_var_of_stringValue {a : Value} {ρ : Env Val} {v : Val} {g : Var → FreshM Exp}
    {c : Nat} {result : Exp × Nat} (value : a.eval ρ = some v)
    (ran : (stringValue "function" a >>= g) c = .ok result) : ∃ name, a = .varValue name := by
  cases a with
  | intValue n => cases ran
  | varValue name => exact ⟨name, rfl⟩
  | globValue glob => cases value

section Avoiding

variable {c : Nat} {x : String} {e1 e2 e3 : Ast.Exp} {bop : Ast.Bop}

attribute [local simp] Ast.Exp.free Ast.Exp.params

theorem Avoids.body (avoids : Avoids (.lamExp x e1) c) : Avoids e1 c := by
  intro y member
  by_cases eq : y = x
  · exact avoids y (.inr (by simp [Ast.Exp.params, eq]))
  · refine avoids y (member.imp (fun free => ?_) (fun bound => ?_))
    · exact Finset.mem_erase.mpr ⟨eq, free⟩
    · exact List.mem_cons_of_mem _ bound

theorem Avoids.fn (avoids : Avoids (.appExp e1 e2) c) : Avoids e1 c := fun y member =>
  avoids y (by simp [Ast.Exp.free, Ast.Exp.params]; tauto)

theorem Avoids.arg (avoids : Avoids (.appExp e1 e2) c) : Avoids e2 c := fun y member =>
  avoids y (by simp [Ast.Exp.free, Ast.Exp.params]; tauto)

theorem Avoids.arg1 (avoids : Avoids (.bopExp bop e1 e2) c) : Avoids e1 c := fun y member =>
  avoids y (by simp [Ast.Exp.free, Ast.Exp.params]; tauto)

theorem Avoids.arg2 (avoids : Avoids (.bopExp bop e1 e2) c) : Avoids e2 c := fun y member =>
  avoids y (by simp [Ast.Exp.free, Ast.Exp.params]; tauto)

theorem Avoids.cond (avoids : Avoids (.ifExp e1 e2 e3) c) : Avoids e1 c := fun y member =>
  avoids y (by simp [Ast.Exp.free, Ast.Exp.params]; tauto)

theorem Avoids.then_ (avoids : Avoids (.ifExp e1 e2 e3) c) : Avoids e2 c := fun y member =>
  avoids y (by simp [Ast.Exp.free, Ast.Exp.params]; tauto)

theorem Avoids.els (avoids : Avoids (.ifExp e1 e2 e3) c) : Avoids e3 c := fun y member =>
  avoids y (by simp [Ast.Exp.free, Ast.Exp.params]; tauto)

end Avoiding

/-- The environments stay related after temporaries have been bound. -/
theorem EnvRel.after {e : Ast.Exp} {dom : Finset String} {ρ : Ast.Env} {ρ' ρ'' : Env Val}
    {c c' : Nat} (rel : EnvRel dom ρ ρ') (sub : e.free ⊆ dom) (ext : Extends c c' ρ' ρ'')
    (avoids : Avoids e c) : EnvRel e.free ρ ρ'' :=
  (rel.mono sub).ext ext fun x member => avoids x (.inl member)

/-! ## From the source to the A-normal form -/

/-- The code of an `if` runs the branch its condition picks, then the join body. -/
theorem eval_of_branch {i c : Nat} {n : Word} {a : Value} {slot : Var} {body tk : Exp}
    {ρ ρ' : Env Val} {v : Ast.Val} (thenBranch elseBranch : Exp)
    (value : a.eval ρ = some (.int n)) (lands : Lands (jumpCont (tmp i)) c ρ v tk ρ')
    (back : ∀ joins fuel w, eval fuel ρ' joins tk = some w →
      ∃ fuel', eval fuel' ρ joins (if n = 0 then elseBranch else thenBranch) = some w) :
    ∃ v', ValRel v v' ∧ ∀ joins fuel w, eval fuel (ρ.set slot v') joins body = some w →
      ∃ fuel', eval fuel' ρ joins (.joinExp (tmp i) (some slot) body
        (.ifExp a thenBranch elseBranch)) = some w := by
  obtain ⟨v', rel, enters⟩ := lands.jump
  refine ⟨v', rel, fun joins fuel w evals => ?_⟩
  obtain ⟨fuel', ranBranch⟩ := back _ _ w ((enters slot ρ body joins fuel w).mpr evals)
  exact ⟨fuel' + 2, eval_ifExp.mpr ⟨n, value, ranBranch⟩⟩

/-- The conversion of a source expression that evaluates to `v` lands with `v`, and returns
what the term it lands on returns. -/
theorem eval_convertWith {ρs : Ast.Env} {e : Ast.Exp} {v : Ast.Val} (run : Ast.Eval ρs e v)
    {k : Cont} {c c' : Nat} {t : Exp} {ρ : Env Val} (ran : convertWith e k c = .ok (t, c'))
    (grows : ∀ a, (k a).Grows) (avoids : Avoids e c) (env : EnvRel e.free ρs ρ) :
    ∃ tk ρ', Lands k c ρ v tk ρ' ∧ ∀ joins fuel w, eval fuel ρ' joins tk = some w →
      ∃ fuel', eval fuel' ρ joins t = some w := by
  induction run generalizing k c c' t ρ with
  | intExp =>
    exact ⟨t, ρ, ⟨_, c, c', _, ran, le_rfl, .refl c ρ, trivial, rfl, .int _⟩,
      fun _ fuel _ evals => ⟨fuel, evals⟩⟩
  | @varExp ρs name v found =>
    obtain ⟨v₁, v', found₁, found', rel⟩ := env name (Finset.mem_singleton_self name)
    cases found.symm.trans found₁
    have old : Old c name := avoids name (.inl (Finset.mem_singleton_self name))
    exact ⟨t, ρ, ⟨_, c, c', v', ran, le_rfl, .refl c ρ, old, found', rel⟩,
      fun _ fuel _ evals => ⟨fuel, evals⟩⟩
  | @lamExp ρs param body =>
    obtain ⟨code, m, rest, ranBody, ranRest, rfl⟩ := convertWith_lamExp.mp ran
    have le : c ≤ m := convert_grows body _ _ _ ranBody
    have ext : Extends c m ρ ρ := fun _ _ => rfl
    exact ⟨rest, _, .of_tmp ranRest le ext (.of_envRel ranBody avoids env),
      fun _ fuel _ evals => ⟨fuel + 1, evals⟩⟩
  | @appExp ρs ρs' fn arg body param v w runFn runArg runBody ihFn ihArg ihBody =>
    rw [convertWith_appExp] at ran
    -- the function lands with a closure, so its operand is a variable
    obtain ⟨tk₁, ρ₁, ⟨a₁, m₁, m₁', v₁, ran₁, le₁, ext₁, old₁, value₁, rel₁⟩, back₁⟩ :=
      ihFn ran (fun a => (stringValue_grows _ a).bind fun _ =>
        convertWith_grows (buildApp_grows grows _) arg) avoids.fn
        (env.mono Finset.subset_union_left)
    obtain ⟨ρ', code, b, b', rfl, ranBody, avoidsBody, envBody⟩ := rel₁.clos_inv
    obtain ⟨name, rfl⟩ := Value.eq_var_of_clos value₁
    change convertWith arg (buildApp k name) m₁ = _ at ran₁
    obtain ⟨tk₂, ρ₂, ⟨a₂, m₂, m₂', v₂, ran₂, le₂, ext₂, old₂, value₂, rel₂⟩, back₂⟩ :=
      ihArg ran₁ (buildApp_grows grows _) (avoids.arg.mono le₁)
        (env.after Finset.subset_union_right ext₁ avoids.arg)
    obtain ⟨rest, ranRest, rfl⟩ := buildApp_ok.mp ran₂
    -- the call
    obtain ⟨tk₃, ρ₃, landsBody, backBody⟩ := ihBody ranBody (fun _ => .pure _) avoidsBody.body
      (envBody.bind_param rel₂)
    obtain ⟨w', relBody, halts⟩ := landsBody.halt
    obtain ⟨fuelBody, ranCall⟩ := backBody [] 1 w' (halts [] 0)
    refine ⟨rest, _, .of_tmp ranRest (le₁.trans le₂) (ext₁.trans ext₂ le₁ le₂) relBody, ?_⟩
    intro joins fuel u evals
    obtain ⟨fuel₂, evals₂⟩ := back₂ joins (max fuelBody fuel + 1) u (eval_appExp.mpr
      ⟨ρ', [param], code, [v₂], _, w', (ext₂.old old₁).trans value₁, by simp [value₂], rfl,
        eval_mono (le_max_left ..) ranCall, eval_mono (le_max_right ..) evals⟩)
    exact back₁ joins fuel₂ u evals₂
  | @bopExp ρs bop arg1 arg2 m n run1 run2 ih1 ih2 =>
    rw [convertWith_bopExp] at ran
    obtain ⟨tk₁, ρ₁, ⟨a₁, m₁, m₁', v₁, ran₁, le₁, ext₁, old₁, value₁, rel₁⟩, back₁⟩ :=
      ih1 ran (fun a => convertWith_grows (buildBop_grows grows _ _) arg2) avoids.arg1
        (env.mono Finset.subset_union_left)
    obtain ⟨tk₂, ρ₂, ⟨a₂, m₂, m₂', v₂, ran₂, le₂, ext₂, old₂, value₂, rel₂⟩, back₂⟩ :=
      ih2 ran₁ (buildBop_grows grows _ _) (avoids.arg2.mono le₁)
        (env.after Finset.subset_union_right ext₁ avoids.arg2)
    obtain ⟨rest, ranRest, rfl⟩ := buildBop_ok.mp ran₂
    cases rel₁
    cases rel₂
    refine ⟨rest, _, .of_tmp ranRest (le₁.trans le₂) (ext₁.trans ext₂ le₁ le₂) (.int _), ?_⟩
    intro joins fuel u evals
    obtain ⟨fuel₂, evals₂⟩ := back₂ joins (fuel + 1) u
      (eval_bopExp.mpr ⟨m, n, (ext₂.value old₁).trans value₁, value₂, evals⟩)
    exact back₁ joins fuel₂ u evals₂
  | @ifThen ρs cond then_ els n v runCond nonzero runThen ihCond ihThen =>
    rw [convertWith_ifExp] at ran
    obtain ⟨tk₁, ρ₁, ⟨a₁, m₁, m₁', v₁, ran₁, le₁, ext₁, old₁, value₁, rel₁⟩, back₁⟩ :=
      ihCond ran (buildIf_grows grows then_ els) avoids.cond
        (env.mono (Finset.subset_union_left.trans Finset.subset_union_left))
    cases rel₁
    obtain ⟨body, m, thenBranch, m', elseBranch, ranBody, ranThen, ranElse, rfl⟩ :=
      buildIf_ok.mp ran₁
    have le : c ≤ m := by have := grows _ _ _ _ ranBody; omega
    obtain ⟨tk₂, ρ₂, lands₂, back₂⟩ := ihThen ranThen (fun _ => .pure _) (avoids.then_.mono le)
      (env.after (Finset.subset_union_right.trans Finset.subset_union_left) ext₁ avoids.then_)
    obtain ⟨v', rel, ranIf⟩ := eval_of_branch thenBranch elseBranch value₁ lands₂
      (by rw [if_neg nonzero]; exact back₂)
    refine ⟨body, _, .of_tmp ranBody (Nat.le_succ_of_le le₁) (ext₁.step le₁) rel, ?_⟩
    intro joins fuel w evals
    obtain ⟨fuel', ranJoin⟩ := ranIf joins fuel w evals
    exact back₁ joins fuel' w ranJoin
  | @ifElse ρs cond then_ els v runCond runElse ihCond ihElse =>
    rw [convertWith_ifExp] at ran
    obtain ⟨tk₁, ρ₁, ⟨a₁, m₁, m₁', v₁, ran₁, le₁, ext₁, old₁, value₁, rel₁⟩, back₁⟩ :=
      ihCond ran (buildIf_grows grows then_ els) avoids.cond
        (env.mono (Finset.subset_union_left.trans Finset.subset_union_left))
    cases rel₁
    obtain ⟨body, m, thenBranch, m', elseBranch, ranBody, ranThen, ranElse, rfl⟩ :=
      buildIf_ok.mp ran₁
    have le : c ≤ m' := by
      have := grows _ _ _ _ ranBody
      have := convertWith_grows (fun _ => .pure _) then_ _ _ _ ranThen
      omega
    obtain ⟨tk₂, ρ₂, lands₂, back₂⟩ := ihElse ranElse (fun _ => .pure _) (avoids.els.mono le)
      (env.after Finset.subset_union_right ext₁ avoids.els)
    obtain ⟨v', rel, ranIf⟩ := eval_of_branch thenBranch elseBranch value₁ lands₂ back₂
    refine ⟨body, _, .of_tmp ranBody (Nat.le_succ_of_le le₁) (ext₁.step le₁) rel, ?_⟩
    intro joins fuel w evals
    obtain ⟨fuel', ranJoin⟩ := ranIf joins fuel w evals
    exact back₁ joins fuel' w ranJoin

/-! ## From the A-normal form to the source -/

/-- A run that lands in a branch of an `if` goes on with the join body. -/
theorem branch_of_eval {fuel i c : Nat} {slot : Var} {body tk : Exp} {ρ ρ' : Env Val}
    {v : Ast.Val} {joins : List (JoinPoint Val)} {w : Val}
    (lands : Lands (jumpCont (tmp i)) c ρ v tk ρ')
    (evals : eval (fuel + 1) ρ' (⟨tmp i, some slot, ρ, body⟩ :: joins) tk = some w) :
    ∃ v', ValRel v v' ∧ eval (fuel + 1) (ρ.set slot v') joins body = some w := by
  obtain ⟨v', rel, enters⟩ := lands.jump
  exact ⟨v', rel, eval_succ ((enters slot ρ body joins fuel w).mp evals)⟩

/-- A converted expression whose code returns evaluates in the source, to the value it lands
with, and the term it lands on returns the same. The outer induction is on the fuel, for the
bodies of called closures, the inner one on the expression. -/
theorem eval_of_convertWith (fuel : Nat) (e : Ast.Exp) {ρs : Ast.Env} {k : Cont} {c c' : Nat}
    {t : Exp} {ρ : Env Val} {joins : List (JoinPoint Val)} {w : Val}
    (ran : convertWith e k c = .ok (t, c')) (grows : ∀ a, (k a).Grows) (avoids : Avoids e c)
    (env : EnvRel e.free ρs ρ) (evals : eval fuel ρ joins t = some w) :
    ∃ v tk ρ', Ast.Eval ρs e v ∧ Lands k c ρ v tk ρ' ∧ eval fuel ρ' joins tk = some w := by
  induction fuel using Nat.strong_induction_on generalizing e ρs k c c' t ρ joins w with
  | _ fuel ihFuel =>
  induction e generalizing k c c' t ρ joins w with
  | intExp value =>
    exact ⟨_, t, ρ, .intExp, ⟨_, c, c', _, ran, le_rfl, .refl c ρ, trivial, rfl, .int _⟩, evals⟩
  | varExp name =>
    obtain ⟨v, v', found, found', rel⟩ := env name (Finset.mem_singleton_self name)
    have old : Old c name := avoids name (.inl (Finset.mem_singleton_self name))
    exact ⟨v, t, ρ, .varExp found,
      ⟨_, c, c', v', ran, le_rfl, .refl c ρ, old, found', rel⟩, evals⟩
  | lamExp param body =>
    obtain ⟨code, m, rest, ranBody, ranRest, rfl⟩ := convertWith_lamExp.mp ran
    have le : c ≤ m := convert_grows body _ _ _ ranBody
    obtain ⟨fuel, rfl⟩ := exists_succ_of_eval evals
    exact ⟨_, rest, _, .lamExp,
      .of_tmp ranRest le (fun _ _ => rfl) (.of_envRel ranBody avoids env), eval_succ evals⟩
  | appExp fn arg ihFn ihArg =>
    rw [convertWith_appExp] at ran
    obtain ⟨vf, tk₁, ρ₁, runFn, ⟨a₁, m₁, m₁', v₁, ran₁, le₁, ext₁, old₁, value₁, rel₁⟩, evals₁⟩ :=
      ihFn ran (fun a => (stringValue_grows _ a).bind fun _ =>
        convertWith_grows (buildApp_grows grows _) arg) avoids.fn
        (env.mono Finset.subset_union_left) evals
    obtain ⟨name, rfl⟩ := Value.eq_var_of_stringValue value₁ ran₁
    change convertWith arg (buildApp k name) m₁ = _ at ran₁
    obtain ⟨v₂, tk₂, ρ₂, runArg, ⟨a₂, m₂, m₂', v₂', ran₂, le₂, ext₂, old₂, value₂, rel₂⟩, evals₂⟩ :=
      ihArg ran₁ (buildApp_grows grows _) (avoids.arg.mono le₁)
        (env.after Finset.subset_union_right ext₁ avoids.arg) evals₁
    obtain ⟨rest, ranRest, rfl⟩ := buildApp_ok.mp ran₂
    obtain ⟨fuel, rfl⟩ := exists_succ_of_eval evals
    obtain ⟨ρ', params, code, args, inner, u, found, values, bound, ranCall, evalsRest⟩ :=
      eval_appExp.mp evals₂
    -- the called closure is the one the function landed with
    cases ((ext₂.old old₁).trans value₁).symm.trans found
    obtain ⟨ρs', param, body, b, b', rfl, rfl, ranBody, avoidsBody, envBody⟩ := rel₁.of_clos
    obtain rfl : args = [v₂'] := by simpa [value₂] using values.symm
    cases bound
    obtain ⟨w', tk₃, ρ₃, runBody, landsBody, evalsBody⟩ := ihFuel fuel (Nat.lt_succ_self fuel) body
      ranBody (fun _ => .pure _) avoidsBody.body (envBody.bind_param rel₂) ranCall
    obtain ⟨u', relBody, halts⟩ := landsBody.halt
    cases (halts [] fuel).symm.trans (eval_succ evalsBody)
    exact ⟨_, rest, _, .appExp runFn runArg runBody,
      .of_tmp ranRest (le₁.trans le₂) (ext₁.trans ext₂ le₁ le₂) relBody, eval_succ evalsRest⟩
  | bopExp bop arg1 arg2 ih1 ih2 =>
    rw [convertWith_bopExp] at ran
    obtain ⟨v₁, tk₁, ρ₁, run₁, ⟨a₁, m₁, m₁', v₁', ran₁, le₁, ext₁, old₁, value₁, rel₁⟩, evals₁⟩ :=
      ih1 ran (fun a => convertWith_grows (buildBop_grows grows _ _) arg2) avoids.arg1
        (env.mono Finset.subset_union_left) evals
    obtain ⟨v₂, tk₂, ρ₂, run₂, ⟨a₂, m₂, m₂', v₂', ran₂, le₂, ext₂, old₂, value₂, rel₂⟩, evals₂⟩ :=
      ih2 ran₁ (buildBop_grows grows _ _) (avoids.arg2.mono le₁)
        (env.after Finset.subset_union_right ext₁ avoids.arg2) evals₁
    obtain ⟨rest, ranRest, rfl⟩ := buildBop_ok.mp ran₂
    obtain ⟨fuel, rfl⟩ := exists_succ_of_eval evals
    obtain ⟨m, n, left, right, evalsRest⟩ := eval_bopExp.mp evals₂
    cases ((ext₂.value old₁).trans value₁).symm.trans left
    cases value₂.symm.trans right
    cases rel₁
    cases rel₂
    exact ⟨_, rest, _, .bopExp run₁ run₂,
      .of_tmp ranRest (le₁.trans le₂) (ext₁.trans ext₂ le₁ le₂) (.int _), eval_succ evalsRest⟩
  | ifExp cond then_ els ihCond ihThen ihEls =>
    rw [convertWith_ifExp] at ran
    obtain ⟨vc, tk₁, ρ₁, runCond, ⟨a₁, m₁, m₁', v₁, ran₁, le₁, ext₁, old₁, value₁, rel₁⟩, evals₁⟩ :=
      ihCond ran (buildIf_grows grows then_ els) avoids.cond
        (env.mono (Finset.subset_union_left.trans Finset.subset_union_left)) evals
    obtain ⟨body, m, thenBranch, m', elseBranch, ranBody, ranThen, ranElse, rfl⟩ :=
      buildIf_ok.mp ran₁
    have le : c ≤ m := by have := grows _ _ _ _ ranBody; omega
    have le' : m ≤ m' := convertWith_grows (fun _ => .pure _) then_ _ _ _ ranThen
    -- two units of fuel are spent on the `JoinExp` and the `IfExp`
    obtain ⟨fuel, rfl⟩ := exists_succ_of_eval evals
    have evalsIf : eval fuel ρ₁ (⟨tmp m₁, some (tmp (m₁ + 1)), ρ₁, body⟩ :: joins)
        (.ifExp a₁ thenBranch elseBranch) = some w := evals₁
    obtain ⟨fuel, rfl⟩ := exists_succ_of_eval evalsIf
    obtain ⟨n, value, evalsBranch⟩ := eval_ifExp.mp evalsIf
    cases value₁.symm.trans value
    cases rel₁
    by_cases zero : n = 0
    · subst zero
      obtain ⟨v, tk₂, ρ₂, runElse, lands₂, evals₂⟩ := ihEls ranElse (fun _ => .pure _)
        (avoids.els.mono (le.trans le'))
        (env.after Finset.subset_union_right ext₁ avoids.els) (eval_succ (eval_succ evalsBranch))
      obtain ⟨v', rel, evalsBody⟩ := branch_of_eval lands₂ evals₂
      exact ⟨v, body, _, .ifElse runCond runElse,
        .of_tmp ranBody (Nat.le_succ_of_le le₁) (ext₁.step le₁) rel, evalsBody⟩
    · rw [if_neg zero] at evalsBranch
      obtain ⟨v, tk₂, ρ₂, runThen, lands₂, evals₂⟩ := ihThen ranThen (fun _ => .pure _)
        (avoids.then_.mono le)
        (env.after (Finset.subset_union_right.trans Finset.subset_union_left) ext₁ avoids.then_)
        (eval_succ (eval_succ evalsBranch))
      obtain ⟨v', rel, evalsBody⟩ := branch_of_eval lands₂ evals₂
      exact ⟨v, body, _, .ifThen runCond zero runThen,
        .of_tmp ranBody (Nat.le_succ_of_le le₁) (ext₁.step le₁) rel, evalsBody⟩

/-! ## Whole programs -/

/-- A closed tree avoids the temporaries if its parameters do. -/
theorem Avoids.of_params {e : Ast.Exp} {counter : Nat} (closed : e.Closed)
    (params : ∀ x ∈ e.params, ∀ i ≥ counter, x ≠ tmp i) : Avoids e counter := by
  rintro x (free | bound)
  · rw [closed] at free
    cases free
  · exact params x bound

/-- A closed tree asks nothing of the environments. -/
theorem EnvRel.of_closed {e : Ast.Exp} (closed : e.Closed) (ρs : Ast.Env) (ρ : Env Val) :
    EnvRel e.free ρs ρ := by
  intro x member
  rw [closed] at member
  cases member

/-- A closed expression evaluates to an integer exactly when its A-normal form returns it,
whichever converter made the form. The parameters only have to be no names `fresh` can still
draw; two lambdas may share one. -/
theorem convert_preserves_meaning (e : Ast.Exp) (counter : Nat) (closed : e.Closed)
    (params : ∀ x ∈ e.params, ∀ i ≥ counter, x ≠ tmp i) (named : e.appliesInt = false) :
    ∃ t counter', convert e counter = .ok (t, counter') ∧
      convertDefunc e counter = .ok (t, counter') ∧
      ∀ n, Ast.Eval (fun _ => none) e (.int n) ↔ Returns t (.int n) := by
  obtain ⟨⟨t, counter'⟩, ran⟩ := convertWith_returns (k := haltCont) named
    (fun _ _ => .pure _) counter
  have avoids : Avoids e counter := .of_params closed params
  refine ⟨t, counter', ran, convertDefunc_eq_ok.mpr ran, fun n => ⟨fun run => ?_, ?_⟩⟩
  · obtain ⟨tk, ρ', lands, back⟩ :=
      eval_convertWith run ran (fun _ => .pure _) avoids (.of_closed closed _ fun _ => none)
    obtain ⟨v', rel, halts⟩ := lands.halt
    cases rel
    exact back [] 1 _ (halts [] 0)
  · rintro ⟨fuel, evals⟩
    obtain ⟨v, tk, ρ', run, lands, evalsHalt⟩ :=
      eval_of_convertWith fuel e ran (fun _ => .pure _) avoids (.of_closed closed _ _) evals
    obtain ⟨v', rel, halts⟩ := lands.halt
    cases (halts [] fuel).symm.trans (eval_succ evalsHalt)
    cases rel
    exact run

/-- `(fn x => x + 1) 1`, whose two temporaries are `tmp0` and `tmp1`. -/
theorem convert_preserves_meaning_increment :
    ∃ t counter', convert (.appExp (.lamExp "x" (.bopExp .plus (.varExp "x") (.intExp 1)))
        (.intExp 1)) 0 = .ok (t, counter') ∧
      convertDefunc (.appExp (.lamExp "x" (.bopExp .plus (.varExp "x") (.intExp 1)))
        (.intExp 1)) 0 = .ok (t, counter') ∧
      ∀ n, Ast.Eval (fun _ => none) (.appExp (.lamExp "x" (.bopExp .plus (.varExp "x")
        (.intExp 1))) (.intExp 1)) (.int n) ↔ Returns t (.int n) := by
  refine convert_preserves_meaning _ 0 (by decide) ?_ rfl
  intro x member i _ eq
  obtain rfl : x = "x" := by simpa [Ast.Exp.params] using member
  -- a temporary has at least the three letters of its prefix
  have length : "x".length = "tmp".length + (toString i).length :=
    (congrArg String.length eq).trans (String.length_append ..)
  have one : "x".length = 1 := by decide
  have three : "tmp".length = 3 := by decide
  omega

end Lambcalc.Anf
