import Lambcalc.Anf.Env

/-!
# Environment semantics of A-normal forms

The meaning of the output of the ANF pass. `Fun` binds a closure, `Join` binds a
continuation with its slot, `Jump` enters it with the slot value, `Halt` returns from the
function that runs it. Applying an integer and calculating or branching with a closure are
stuck, as are `Tuple`, `Proj` and globals, which the pass does not produce.

`eval` is a definitional interpreter: `none` stands for a stuck term or too little fuel, and
`eval_mono` says that more fuel keeps a value.
-/

namespace Lambcalc.Anf

/-- Values of A-normal forms: integers and closures. -/
inductive Val where
  | int (n : Word)
  | clos (env : Var → Option Val) (params : List Var) (body : Exp)

namespace Val

def asInt : Val → Option Word
  | int n => some n
  | clos .. => none

def asClos : Val → Option (Env Val × List Var × Exp)
  | int _ => none
  | clos env params body => some (env, params, body)

theorem asInt_eq_some {v : Val} {n : Word} : v.asInt = some n ↔ v = int n := by
  cases v <;> simp [asInt]

theorem asClos_eq_some {v : Val} {ρ : Env Val} {params : List Var} {body : Exp} :
    v.asClos = some (ρ, params, body) ↔ v = clos ρ params body := by
  cases v <;> simp [asClos]

end Val

/-- The value of an operand. -/
def Value.eval (ρ : Env Val) : Value → Option Val
  | .intValue value => some (.int (.ofLiteral value))
  | .varValue var => ρ var
  | .globValue _ => none

/-- The value `t` returns under the environment `ρ` and the join points `joins`. -/
def eval : Nat → Env Val → List (JoinPoint Val) → Exp → Option Val
  | 0, _, _, _ => none
  | _ + 1, ρ, _, .haltExp value => value.eval ρ
  | fuel + 1, ρ, joins, .funExp name params body rest =>
    eval fuel (ρ.set name (.clos ρ params body)) joins rest
  | fuel + 1, ρ, joins, .joinExp name slot body rest =>
    eval fuel ρ (⟨name, slot, ρ, body⟩ :: joins) rest
  | fuel + 1, ρ, joins, .jumpExp joinName slotValue => do
    let (join, outer) ← findJoin joins joinName
    let value ← slotValue.mapM (Value.eval ρ)
    let inner ← passSlot join.env join.slot value
    eval fuel inner outer join.body
  | fuel + 1, ρ, joins, .appExp name funName paramValues rest => do
    let (env, params, body) ← (← ρ funName).asClos
    let args ← paramValues.mapM (Value.eval ρ)
    let inner ← Env.bind env params args
    let v ← eval fuel inner [] body
    eval fuel (ρ.set name v) joins rest
  | fuel + 1, ρ, joins, .bopExp name bop param1 param2 rest => do
    let m ← (← param1.eval ρ).asInt
    let n ← (← param2.eval ρ).asInt
    eval fuel (ρ.set name (.int (bop.eval m n))) joins rest
  | fuel + 1, ρ, joins, .ifExp cond thenBranch elseBranch => do
    let n ← (← cond.eval ρ).asInt
    eval fuel ρ joins (if n = 0 then elseBranch else thenBranch)
  | _ + 1, _, _, .tupleExp .. => none
  | _ + 1, _, _, .projExp .. => none

/-- `t` returns `v` when it is run as a whole program. -/
def Returns (t : Exp) (v : Val) : Prop := ∃ fuel, eval fuel (fun _ => none) [] t = some v

theorem exists_succ_of_eval {fuel : Nat} {ρ : Env Val} {joins : List (JoinPoint Val)} {t : Exp}
    {v : Val} (ran : eval fuel ρ joins t = some v) : ∃ n, fuel = n + 1 := by
  cases fuel with
  | zero => cases ran
  | succ n => exact ⟨n, rfl⟩

/-! ## One node -/

section Nodes

variable {fuel : Nat} {ρ : Env Val} {joins : List (JoinPoint Val)} {w : Val}

attribute [local simp] eval

/-- A jump binds the slot of the join and goes on with its body, under the joins outside it. -/
theorem eval_jumpExp {joinName : Var} {slotValue : Option Value} :
    eval (fuel + 1) ρ joins (.jumpExp joinName slotValue) = some w ↔
      ∃ join outer value inner, findJoin joins joinName = some (join, outer) ∧
        slotValue.mapM (Value.eval ρ) = some value ∧
        passSlot join.env join.slot value = some inner ∧
        eval fuel inner outer join.body = some w := by
  simp only [eval, Option.bind_eq_bind, Option.bind_eq_some_iff, Prod.exists]
  grind

/-- A call binds the parameters and runs the body without joins, and its value is bound in the
rest. -/
theorem eval_appExp {name funName : Var} {paramValues : List Value} {rest : Exp} :
    eval (fuel + 1) ρ joins (.appExp name funName paramValues rest) = some w ↔
      ∃ env params body args inner v, ρ funName = some (.clos env params body) ∧
        paramValues.mapM (Value.eval ρ) = some args ∧ Env.bind env params args = some inner ∧
        eval fuel inner [] body = some v ∧ eval fuel (ρ.set name v) joins rest = some w := by
  simp only [eval, Option.bind_eq_bind, Option.bind_eq_some_iff, Prod.exists,
    Val.asClos_eq_some]
  constructor
  · rintro ⟨_, found, env, params, body, rfl, args, evalArgs, inner, bound, v, ran, rest⟩
    exact ⟨env, params, body, args, inner, v, found, evalArgs, bound, ran, rest⟩
  · rintro ⟨env, params, body, args, inner, v, found, evalArgs, bound, ran, rest⟩
    exact ⟨_, found, env, params, body, rfl, args, evalArgs, inner, bound, v, ran, rest⟩

/-- An operation on two integers. -/
theorem eval_bopExp {name : Var} {bop : Ast.Bop} {param1 param2 : Value} {rest : Exp} :
    eval (fuel + 1) ρ joins (.bopExp name bop param1 param2 rest) = some w ↔
      ∃ m n, param1.eval ρ = some (.int m) ∧ param2.eval ρ = some (.int n) ∧
        eval fuel (ρ.set name (.int (bop.eval m n))) joins rest = some w := by
  simp only [eval, Option.bind_eq_bind, Option.bind_eq_some_iff, Val.asInt_eq_some]
  constructor
  · rintro ⟨_, value1, m, rfl, _, value2, n, rfl, ran⟩
    exact ⟨m, n, value1, value2, ran⟩
  · rintro ⟨m, n, value1, value2, ran⟩
    exact ⟨_, value1, m, rfl, _, value2, n, rfl, ran⟩

/-- Zero takes the second branch. -/
theorem eval_ifExp {cond : Value} {thenBranch elseBranch : Exp} :
    eval (fuel + 1) ρ joins (.ifExp cond thenBranch elseBranch) = some w ↔
      ∃ n, cond.eval ρ = some (.int n) ∧
        eval fuel ρ joins (if n = 0 then elseBranch else thenBranch) = some w := by
  simp only [eval, Option.bind_eq_bind, Option.bind_eq_some_iff, Val.asInt_eq_some]
  constructor
  · rintro ⟨_, value, n, rfl, ran⟩
    exact ⟨n, value, ran⟩
  · rintro ⟨n, value, ran⟩
    exact ⟨_, value, n, rfl, ran⟩

end Nodes

/-- More fuel does not change a result. -/
theorem eval_succ {fuel : Nat} {ρ : Env Val} {joins : List (JoinPoint Val)} {t : Exp} {v : Val}
    (ran : eval fuel ρ joins t = some v) : eval (fuel + 1) ρ joins t = some v := by
  induction fuel generalizing ρ joins t v with
  | zero => cases ran
  | succ fuel ih =>
    cases t with
    | haltExp value => exact ran
    | funExp name params body rest => exact ih ran
    | joinExp name slot body rest => exact ih ran
    | jumpExp joinName slotValue =>
      obtain ⟨join, outer, value, inner, found, passed, entered, ran⟩ := eval_jumpExp.mp ran
      exact eval_jumpExp.mpr ⟨join, outer, value, inner, found, passed, entered, ih ran⟩
    | appExp name funName paramValues rest =>
      obtain ⟨env, params, body, args, inner, u, found, values, bound, ran, rest⟩ :=
        eval_appExp.mp ran
      exact eval_appExp.mpr
        ⟨env, params, body, args, inner, u, found, values, bound, ih ran, ih rest⟩
    | bopExp name bop param1 param2 rest =>
      obtain ⟨m, n, value1, value2, ran⟩ := eval_bopExp.mp ran
      exact eval_bopExp.mpr ⟨m, n, value1, value2, ih ran⟩
    | ifExp cond thenBranch elseBranch =>
      obtain ⟨n, value, ran⟩ := eval_ifExp.mp ran
      exact eval_ifExp.mpr ⟨n, value, ih ran⟩
    | tupleExp name values rest => cases ran
    | projExp name tuple index rest => cases ran

/-- More fuel keeps a value. -/
theorem eval_mono {small large : Nat} (le : small ≤ large) {ρ : Env Val}
    {joins : List (JoinPoint Val)} {t : Exp} {v : Val} (ran : eval small ρ joins t = some v) :
    eval large ρ joins t = some v := by
  induction le with
  | refl => exact ran
  | step _ ih => exact eval_succ ih

end Lambcalc.Anf
