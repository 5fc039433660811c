import Lambcalc.Anf.Exp
import Mathlib.Tactic.Common

/-!
# The recursive ANF converter

`AnfConvertVisitor` and `anf::convert` of `src/anf.cpp`. The static name counter is the state
of `FreshM`, a thrown `std::runtime_error` its error. A continuation runs inside the
conversion, so the names it draws are numbered where the C++ calls it: a `FunExp` draws its
own name between its body and its rest, a join draws its body before both branches.
-/

namespace Lambcalc.Anf

/-- `std::runtime_error`. -/
structure RuntimeError where
  what : String
  deriving DecidableEq, Repr

/-- Computations over the static `counter` that may throw. -/
abbrev FreshM (α : Type) := StateT Nat (Except RuntimeError) α

/-! ## Running `FreshM` -/

theorem FreshM.pure_apply {α : Type} (a : α) (c : Nat) : (pure a : FreshM α) c = .ok (a, c) := rfl

theorem FreshM.throw_apply {α : Type} (error : RuntimeError) (c : Nat) :
    (throw error : FreshM α) c = .error error := rfl

theorem FreshM.bind_ok {α β : Type} {x : FreshM α} {g : α → FreshM β} {c c' : Nat} {a : α}
    (ran : x c = .ok (a, c')) : (x >>= g) c = g a c' := by
  simp only [bind, StateT.bind, Except.bind, ran]

theorem FreshM.bind_error {α β : Type} {x : FreshM α} {g : α → FreshM β} {c : Nat}
    {error : RuntimeError} (ran : x c = .error error) : (x >>= g) c = .error error := by
  simp only [bind, StateT.bind, Except.bind, ran]

/-- A bind returns exactly when both parts do. -/
theorem FreshM.bind_eq_ok {α β : Type} {x : FreshM α} {g : α → FreshM β} {c c'' : Nat} {b : β} :
    (x >>= g) c = .ok (b, c'') ↔ ∃ a c', x c = .ok (a, c') ∧ g a c' = .ok (b, c'') := by
  cases ran : x c with
  | error error => simp [FreshM.bind_error ran]
  | ok result =>
    obtain ⟨a, c'⟩ := result
    rw [FreshM.bind_ok ran]
    simp

/-! ## The converter -/

/-- The name `anf::fresh` makes of a counter value. -/
def tmp (counter : Nat) : Var := "tmp" ++ toString counter

/-- `anf::fresh`. -/
def fresh : FreshM Var := fun counter => .ok (tmp counter, counter + 1)

theorem fresh_bind_apply {α : Type} (g : Var → FreshM α) (c : Nat) :
    (fresh >>= g) c = g (tmp c) (c + 1) := rfl

/-- `StringValueVisitor<lit>`. -/
def stringValue (lit : String) : Value → FreshM Var
  | .varValue var => pure var
  | .globValue glob => pure glob
  | .intValue _ => throw ⟨lit ++ " expected to return var or glob"⟩

/-- `anf::Cont`. -/
abbrev Cont := Value → FreshM Exp

/-- The continuation of `anf::convert`. -/
def haltCont : Cont := fun value => pure (.haltExp value)

/-- The continuation both branches of an `IfExp` are converted with. -/
def jumpCont (joinName : Var) : Cont := fun value => pure (.jumpExp joinName (some value))

/-- `ast::convert`, the visitor `AnfConvertVisitor`. -/
def convertWith : Ast.Exp → Cont → FreshM Exp
  | .intExp value, k => k (.intValue value)
  | .varExp name, k => k (.varValue name)
  | .lamExp param body, k => do
    let body ← convertWith body haltCont
    let name ← fresh
    let rest ← k (.varValue name)
    pure (.funExp name [param] body rest)
  | .appExp fn arg, k =>
    convertWith fn fun fnValue => do
      let fnName ← stringValue "function" fnValue
      convertWith arg fun argValue => do
        let name ← fresh
        let rest ← k (.varValue name)
        pure (.appExp name fnName [argValue] rest)
  | .bopExp bop arg1 arg2, k =>
    convertWith arg1 fun arg1Value =>
      convertWith arg2 fun arg2Value => do
        let name ← fresh
        let rest ← k (.varValue name)
        pure (.bopExp name bop arg1Value arg2Value rest)
  | .ifExp cond then_ els, k =>
    convertWith cond fun condValue => do
      let joinName ← fresh
      let slot ← fresh
      let body ← k (.varValue slot)
      let thenBranch ← convertWith then_ (jumpCont joinName)
      let elseBranch ← convertWith els (jumpCont joinName)
      pure (.joinExp joinName (some slot) body (.ifExp condValue thenBranch elseBranch))

/-- `anf::convert`. -/
def convert (exp : Ast.Exp) : FreshM Exp := convertWith exp haltCont

/-! ## The node each visitor builds -/

section Nodes

variable {k : Cont} {c c' : Nat} {t : Exp}

/-- A lambda: its body is converted to the end, and then the continuation gets a new name for it. -/
theorem convertWith_lamExp {param : String} {body : Ast.Exp} :
    convertWith (.lamExp param body) k c = .ok (t, c') ↔
      ∃ code m rest, convert body c = .ok (code, m) ∧
        k (.varValue (tmp m)) (m + 1) = .ok (rest, c') ∧
        t = .funExp (tmp m) [param] code rest := by
  simp only [convertWith, FreshM.bind_eq_ok, fresh, FreshM.pure_apply, convert]
  constructor
  · rintro ⟨code, m, ran, _, _, ⟨⟩, rest, _, ranRest, ⟨⟩⟩
    exact ⟨code, m, rest, ran, ranRest, rfl⟩
  · rintro ⟨code, m, rest, ran, ranRest, rfl⟩
    exact ⟨code, m, ran, _, _, rfl, rest, _, ranRest, rfl⟩

/-- The term built for an application once its operands are known. -/
def buildApp (k : Cont) (fnName : Var) (argValue : Value) : FreshM Exp := do
  let name ← fresh
  let rest ← k (.varValue name)
  pure (.appExp name fnName [argValue] rest)

/-- The term built for an operator once its operands are known. -/
def buildBop (k : Cont) (bop : Ast.Bop) (arg1Value arg2Value : Value) : FreshM Exp := do
  let name ← fresh
  let rest ← k (.varValue name)
  pure (.bopExp name bop arg1Value arg2Value rest)

/-- The term built for an `if` once its condition is known. -/
def buildIf (k : Cont) (then_ els : Ast.Exp) (condValue : Value) : FreshM Exp := do
  let joinName ← fresh
  let slot ← fresh
  let body ← k (.varValue slot)
  let thenBranch ← convertWith then_ (jumpCont joinName)
  let elseBranch ← convertWith els (jumpCont joinName)
  pure (.joinExp joinName (some slot) body (.ifExp condValue thenBranch elseBranch))

/-- An application: the function, its name, the argument and the node. -/
theorem convertWith_appExp (fn arg : Ast.Exp) (k : Cont) :
    convertWith (.appExp fn arg) k = convertWith fn fun fnValue =>
      stringValue "function" fnValue >>= fun fnName => convertWith arg (buildApp k fnName) := rfl

/-- An operation: the first operand, the second and the node. -/
theorem convertWith_bopExp (bop : Ast.Bop) (arg1 arg2 : Ast.Exp) (k : Cont) :
    convertWith (.bopExp bop arg1 arg2) k =
      convertWith arg1 fun arg1Value => convertWith arg2 (buildBop k bop arg1Value) := rfl

/-- An `If`: the condition, and the node with the branches. -/
theorem convertWith_ifExp (cond then_ els : Ast.Exp) (k : Cont) :
    convertWith (.ifExp cond then_ els) k = convertWith cond (buildIf k then_ els) := rfl

/-- The node of an application is drawn before what follows it. -/
theorem buildApp_ok {fnName : Var} {argValue : Value} :
    buildApp k fnName argValue c = .ok (t, c') ↔
      ∃ rest, k (.varValue (tmp c)) (c + 1) = .ok (rest, c') ∧
        t = .appExp (tmp c) fnName [argValue] rest := by
  simp only [buildApp, fresh_bind_apply, FreshM.bind_eq_ok, FreshM.pure_apply]
  constructor
  · rintro ⟨rest, _, ranRest, ⟨⟩⟩
    exact ⟨rest, ranRest, rfl⟩
  · rintro ⟨rest, ranRest, rfl⟩
    exact ⟨rest, _, ranRest, rfl⟩

/-- The node of an operation is drawn before what follows it. -/
theorem buildBop_ok {bop : Ast.Bop} {arg1Value arg2Value : Value} :
    buildBop k bop arg1Value arg2Value c = .ok (t, c') ↔
      ∃ rest, k (.varValue (tmp c)) (c + 1) = .ok (rest, c') ∧
        t = .bopExp (tmp c) bop arg1Value arg2Value rest := by
  simp only [buildBop, fresh_bind_apply, FreshM.bind_eq_ok, FreshM.pure_apply]
  constructor
  · rintro ⟨rest, _, ranRest, ⟨⟩⟩
    exact ⟨rest, ranRest, rfl⟩
  · rintro ⟨rest, ranRest, rfl⟩
    exact ⟨rest, _, ranRest, rfl⟩

/-- The join and its slot are drawn first, then comes what follows the `If`, then the branches. -/
theorem buildIf_ok {then_ els : Ast.Exp} {condValue : Value} :
    buildIf k then_ els condValue c = .ok (t, c') ↔
      ∃ body m thenBranch m' elseBranch,
        k (.varValue (tmp (c + 1))) (c + 2) = .ok (body, m) ∧
        convertWith then_ (jumpCont (tmp c)) m = .ok (thenBranch, m') ∧
        convertWith els (jumpCont (tmp c)) m' = .ok (elseBranch, c') ∧
        t = .joinExp (tmp c) (some (tmp (c + 1))) body
          (.ifExp condValue thenBranch elseBranch) := by
  simp only [buildIf, fresh_bind_apply, FreshM.bind_eq_ok, FreshM.pure_apply]
  constructor
  · rintro ⟨body, m, ranBody, thenBranch, m', ranThen, elseBranch, _, ranElse, ⟨⟩⟩
    exact ⟨body, m, thenBranch, m', elseBranch, ranBody, ranThen, ranElse, rfl⟩
  · rintro ⟨body, m, thenBranch, m', elseBranch, ranBody, ranThen, ranElse, rfl⟩
    exact ⟨body, m, ranBody, thenBranch, m', ranThen, elseBranch, _, ranElse, rfl⟩

end Nodes

/-! ## The counter only grows -/

/-- A computation that never sets the counter back. -/
def FreshM.Grows {α : Type} (x : FreshM α) : Prop := ∀ c a c', x c = .ok (a, c') → c ≤ c'

theorem FreshM.Grows.bind {α β : Type} {x : FreshM α} {g : α → FreshM β} (grows : x.Grows)
    (next : ∀ a, (g a).Grows) : (x >>= g).Grows := by
  intro c b c'' ran
  obtain ⟨a, c', ranX, ranG⟩ := FreshM.bind_eq_ok.mp ran
  exact (grows _ _ _ ranX).trans (next a _ _ _ ranG)

theorem FreshM.Grows.pure {α : Type} (a : α) : (pure a : FreshM α).Grows := by
  rintro c _ _ ⟨⟩
  exact le_rfl

theorem fresh_grows : fresh.Grows := by
  rintro c _ _ ⟨⟩
  exact Nat.le_succ c

theorem stringValue_grows (lit : String) (value : Value) : (stringValue lit value).Grows := by
  cases value with
  | intValue value => exact fun _ _ _ ran => nomatch ran
  | varValue var => exact .pure var
  | globValue glob => exact .pure glob

/-- A conversion never takes the counter back. -/
theorem convertWith_grows {k : Cont} (grows : ∀ value, (k value).Grows) (e : Ast.Exp) :
    (convertWith e k).Grows := by
  induction e generalizing k with
  | intExp value => exact grows _
  | varExp name => exact grows _
  | lamExp param body ih =>
    exact (ih fun _ => .pure _).bind fun _ => fresh_grows.bind fun _ => (grows _).bind fun _ =>
      .pure _
  | appExp fn arg ihFn ihArg =>
    exact ihFn fun _ => (stringValue_grows _ _).bind fun _ => ihArg fun _ =>
      fresh_grows.bind fun _ => (grows _).bind fun _ => .pure _
  | bopExp bop arg1 arg2 ih1 ih2 =>
    exact ih1 fun _ => ih2 fun _ => fresh_grows.bind fun _ => (grows _).bind fun _ => .pure _
  | ifExp cond then_ els ihCond ihThen ihEls =>
    exact ihCond fun _ => fresh_grows.bind fun _ => fresh_grows.bind fun _ =>
      (grows _).bind fun _ => (ihThen fun _ => .pure _).bind fun _ =>
      (ihEls fun _ => .pure _).bind fun _ => .pure _

theorem buildApp_grows {k : Cont} (grows : ∀ value, (k value).Grows) (fnName : Var)
    (argValue : Value) : (buildApp k fnName argValue).Grows :=
  fresh_grows.bind fun _ => (grows _).bind fun _ => .pure _

theorem buildBop_grows {k : Cont} (grows : ∀ value, (k value).Grows) (bop : Ast.Bop)
    (arg1Value arg2Value : Value) : (buildBop k bop arg1Value arg2Value).Grows :=
  fresh_grows.bind fun _ => (grows _).bind fun _ => .pure _

theorem buildIf_grows {k : Cont} (grows : ∀ value, (k value).Grows) (then_ els : Ast.Exp)
    (condValue : Value) : (buildIf k then_ els condValue).Grows :=
  fresh_grows.bind fun _ => fresh_grows.bind fun _ => (grows _).bind fun _ =>
    (convertWith_grows (fun _ => .pure _) then_).bind fun _ =>
    (convertWith_grows (fun _ => .pure _) els).bind fun _ => .pure _

/-- `convert` never takes the counter back. -/
theorem convert_grows (e : Ast.Exp) : (convert e).Grows := convertWith_grows (fun _ => .pure _) e

end Lambcalc.Anf
