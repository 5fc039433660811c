import Lambcalc.Convert.FreeVars

/-!
# Closure conversion

`ClosureConvertVisitor` and `convert::closureConvert` of `src/convert.cpp`, as the recursion
its worklist carries out. A node takes its number when it is visited; the children pushed
last are visited first, so a rest comes before the body it follows and an else branch before
the then branch. The captures of a `FunExp` are computed when it is visited, on a subtree
that is still untouched, and an `AppExp` is wrapped in its `ProjExp` once its rest is done.
-/

namespace Lambcalc.Anf

/-- `fresh("closure")`, at a given value of `counter_`. -/
def closureName (counter : Nat) : Var := "closure" ++ toString counter

/-- `fresh("proj")`, at a given value of `counter_`. -/
def projName (counter : Nat) : Var := "proj" ++ toString counter

/-- The loop that puts a `ProjExp` for every captured variable in front of a body: `i` is the
index of the first one, and each further one is wrapped around the ones before. -/
def captures (closureParam : Var) : List Var → Nat → Exp → Exp
  | [], _, body => body
  | var :: vars, i, body => captures closureParam vars (i + 1) (.projExp var closureParam i body)

/-- The visits of `t` and its subterms with `counter_` at a given value: the term they leave
and the value they leave in `counter_`. -/
def Exp.close : Exp → Nat → Exp × Nat
  | .haltExp value, c => (.haltExp value, c)
  | .funExp name params body rest, c =>
    let freeVariables := (freeVars (.funExp name params body rest)).toList
    let closureParam := closureName c
    let (rest, c₁) := rest.close (c + 1)
    let (body, c₂) := body.close c₁
    let vars := .globValue name :: freeVariables.map .varValue
    (.funExp name (closureParam :: params) (captures closureParam freeVariables 1 body)
      (.tupleExp name vars rest), c₂)
  | .joinExp name slot body rest, c =>
    let (rest, c₁) := rest.close c
    let (body, c₂) := body.close c₁
    (.joinExp name slot body rest, c₂)
  | .jumpExp joinName slotValue, c => (.jumpExp joinName slotValue, c)
  | .appExp name funName paramValues rest, c =>
    let proj := projName c
    let (rest, c₁) := rest.close (c + 1)
    (.projExp proj funName 0 (.appExp name proj (.varValue funName :: paramValues) rest), c₁)
  | .bopExp name bop param1 param2 rest, c =>
    let (rest, c₁) := rest.close c
    (.bopExp name bop param1 param2 rest, c₁)
  | .ifExp cond thenBranch elseBranch, c =>
    let (elseBranch, c₁) := elseBranch.close c
    let (thenBranch, c₂) := thenBranch.close c₁
    (.ifExp cond thenBranch elseBranch, c₂)
  | .tupleExp name values rest, c =>
    let (rest, c₁) := rest.close c
    (.tupleExp name values rest, c₁)
  | .projExp name tuple index rest, c =>
    let (rest, c₁) := rest.close c
    (.projExp name tuple index rest, c₁)

/-- `convert::closureConvert`. -/
def closureConvert (start : Exp) : Exp := (start.close 0).1

/-- The last test of `test/convert.cpp`. -/
example : closureConvert (.funExp "f1" ["a"] (.funExp "f2" ["b"]
      (.bopExp "r" .plus (.varValue "a") (.varValue "b") (.haltExp (.varValue "r")))
      (.haltExp (.varValue "f2")))
      (.appExp "t1" "f1" [.intValue 1] (.appExp "t2" "t1" [.intValue 2]
        (.haltExp (.varValue "t2"))))) =
    .funExp "f1" ["closure0", "a"] (.funExp "f2" ["closure3", "b"]
      (.projExp "a" "closure3" 1
        (.bopExp "r" .plus (.varValue "a") (.varValue "b") (.haltExp (.varValue "r"))))
      (.tupleExp "f2" [.globValue "f2", .varValue "a"] (.haltExp (.varValue "f2"))))
      (.tupleExp "f1" [.globValue "f1"] (.projExp "proj1" "f1" 0 (.appExp "t1" "proj1"
        [.varValue "f1", .intValue 1] (.projExp "proj2" "t1" 0 (.appExp "t2" "proj2"
          [.varValue "t1", .intValue 2] (.haltExp (.varValue "t2"))))))) := by decide

/-! ## Numbers -/

/-- The numbers the visits of `t` take: one for each function and each application. -/
def Exp.closes : Exp → Nat
  | .haltExp _ => 0
  | .funExp _ _ body rest => body.closes + rest.closes + 1
  | .joinExp _ _ body rest => body.closes + rest.closes
  | .jumpExp _ _ => 0
  | .appExp _ _ _ rest => rest.closes + 1
  | .bopExp _ _ _ _ rest => rest.closes
  | .ifExp _ thenBranch elseBranch => thenBranch.closes + elseBranch.closes
  | .tupleExp _ _ rest => rest.closes
  | .projExp _ _ _ rest => rest.closes

theorem Exp.close_counter (t : Exp) (c : Nat) : (t.close c).2 = c + t.closes := by
  induction t generalizing c with
  | haltExp => rfl
  | jumpExp => rfl
  | funExp name params body rest ihBody ihRest =>
    simp only [close, closes, ihBody, ihRest]
    omega
  | joinExp name slot body rest ihBody ihRest =>
    simp only [close, closes, ihBody, ihRest]
    omega
  | appExp name funName paramValues rest ih =>
    simp only [close, closes, ih]
    omega
  | ifExp cond thenBranch elseBranch ihThen ihElse =>
    simp only [close, closes, ihThen, ihElse]
    omega
  | bopExp name bop param1 param2 rest ih => exact ih c
  | tupleExp name values rest ih => exact ih c
  | projExp name tuple index rest ih => exact ih c

section Nodes

variable (c : Nat) (name : Var)

theorem Exp.close_funExp (params : List Var) (body rest : Exp) :
    ((funExp name params body rest).close c).1 =
      funExp name (closureName c :: params)
        (captures (closureName c) (freeVars (funExp name params body rest)).toList 1
          (body.close (c + 1 + rest.closes)).1)
        (tupleExp name
          (.globValue name :: (freeVars (funExp name params body rest)).toList.map .varValue)
          (rest.close (c + 1)).1) := by
  simp only [close, close_counter]

theorem Exp.close_joinExp (slot : Option Var) (body rest : Exp) :
    ((joinExp name slot body rest).close c).1 =
      joinExp name slot (body.close (c + rest.closes)).1 (rest.close c).1 := by
  simp only [close, close_counter]

theorem Exp.close_ifExp (cond : Value) (thenBranch elseBranch : Exp) :
    ((ifExp cond thenBranch elseBranch).close c).1 =
      ifExp cond (thenBranch.close (c + elseBranch.closes)).1 (elseBranch.close c).1 := by
  simp only [close, close_counter]

end Nodes

/-! ## The names that are inserted -/

/-- The names the visits of `t` generate, from a given value of `counter_` on. -/
def Exp.generated : Exp → Nat → List Var
  | .haltExp _, _ => []
  | .funExp _ _ body rest, c =>
    closureName c :: (rest.generated (c + 1) ++ body.generated (c + 1 + rest.closes))
  | .joinExp _ _ body rest, c => rest.generated c ++ body.generated (c + rest.closes)
  | .jumpExp _ _, _ => []
  | .appExp _ _ _ rest, c => projName c :: rest.generated (c + 1)
  | .bopExp _ _ _ _ rest, c => rest.generated c
  | .ifExp _ thenBranch elseBranch, c =>
    elseBranch.generated c ++ thenBranch.generated (c + elseBranch.closes)
  | .tupleExp _ _ rest, c => rest.generated c
  | .projExp _ _ _ rest, c => rest.generated c

end Lambcalc.Anf
