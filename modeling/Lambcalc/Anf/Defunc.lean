import Lambcalc.Anf.Convert
import Lambcalc.Lib.StepMachine
import Mathlib.Algebra.GroupWithZero.Nat

/-!
# The stack-safe ANF converter

`convertDefunc` of `src/anf.cpp`: a loop in three modes over two stacks of frames. `KFrame`
holds what is left to convert once the current value is known, `K2Frame` what is left to
build once the current output term is known. The loop's local variables are the fields of
`Machine`, shared between the modes as in the source: a mode reads only the registers its
predecessor has set. A moved-from `unique_ptr` is `none`; the top of a vector is the head
of its list.
-/

namespace Lambcalc.Anf

/-- The alternatives of `KFrame<Ptr>`. -/
inductive KFrame where
  | app1 (x : Ast.Exp)
  | app2 (f : Value)
  | bop1 (y : Ast.Exp) (bop : Ast.Bop)
  | bop2 (x : Value) (bop : Ast.Bop)
  | if1 (t f : Ast.Exp)
  | if2 (j : Var)
  deriving DecidableEq, Repr

/-- The alternatives of `K2Frame<Ptr>`. -/
inductive K2Frame where
  | lam1 (k : List KFrame) (v : Var)
  | lam2 (f v : Var) (body : Exp)
  | app1 (r f : Var) (x : Value)
  | bop1 (r : Var) (bop : Ast.Bop) (x y : Value)
  | if1 (t f : Ast.Exp) (j p : Var) (c : Value)
  | if2 (f : Ast.Exp) (j p : Var) (c : Value) (rest : Exp)
  | if3 (t : Exp) (j p : Var) (c : Value) (rest : Exp)
  deriving DecidableEq, Repr

/-- The `dispatch` variable of the loop. -/
inductive Dispatch where
  | applyK2
  | applyK
  | go
  deriving DecidableEq, Repr

/-- The variables of the loop, and the static name counter. -/
structure Machine where
  goExp : Ast.Exp
  k2Exp : Option Exp
  k : List KFrame
  k2 : List K2Frame
  value : Value
  dispatch : Dispatch
  counter : Nat

/-- How the loop ends: `return k2_exp`, the exception of `K_App2`, or a read of a
moved-from `k2_exp`. -/
inductive Outcome where
  | returned (exp : Exp) (counter : Nat)
  | threw (error : RuntimeError)
  | nullPointer
  deriving DecidableEq, Repr

namespace Machine

/-- `case APPLY_K2` on a popped frame; `k2Exp` has been moved out of its register. -/
def applyK2Frame (m : Machine) (k2Exp : Exp) : K2Frame → Machine
  | .lam1 k v =>
    let f := tmp m.counter
    { m with
      counter := m.counter + 1, k := k, value := .varValue f
      k2 := .lam2 f v k2Exp :: m.k2, dispatch := .applyK }
  | .lam2 f v body => { m with k2Exp := some (.funExp f [v] body k2Exp) }
  | .app1 r f x => { m with k2Exp := some (.appExp r f [x] k2Exp) }
  | .bop1 r bop x y => { m with k2Exp := some (.bopExp r bop x y k2Exp) }
  | .if1 t f j p c =>
    { m with goExp := t, k2 := .if2 f j p c k2Exp :: m.k2, k := [.if2 j], dispatch := .go }
  | .if2 f j p c rest =>
    { m with goExp := f, k2 := .if3 k2Exp j p c rest :: m.k2, k := [.if2 j], dispatch := .go }
  | .if3 t j p c rest => { m with k2Exp := some (.joinExp j (some p) rest (.ifExp c t k2Exp)) }

/-- `case APPLY_K` on a popped frame. -/
def applyKFrame (m : Machine) : KFrame → Machine ⊕ Outcome
  | .app1 x => .inl { m with goExp := x, k := .app2 m.value :: m.k, dispatch := .go }
  | .app2 (.varValue f) =>
    let r := tmp m.counter
    .inl { m with
      counter := m.counter + 1, k2 := .app1 r f m.value :: m.k2, value := .varValue r }
  | .app2 _ => .inr (.threw ⟨"must apply named value"⟩)
  | .bop1 y bop => .inl { m with goExp := y, k := .bop2 m.value bop :: m.k, dispatch := .go }
  | .bop2 x bop =>
    let r := tmp m.counter
    .inl { m with
      counter := m.counter + 1, k2 := .bop1 r bop x m.value :: m.k2, value := .varValue r }
  | .if1 t f =>
    let j := tmp m.counter
    let p := tmp (m.counter + 1)
    .inl { m with
      counter := m.counter + 2, k2 := .if1 t f j p m.value :: m.k2, value := .varValue p }
  | .if2 j => .inl { m with k2Exp := some (.jumpExp j (some m.value)), dispatch := .applyK2 }

/-- `case GO`. -/
def goStep (m : Machine) : Machine :=
  match m.goExp with
  | .intExp value => { m with value := .intValue value, dispatch := .applyK }
  | .varExp name => { m with value := .varValue name, dispatch := .applyK }
  | .lamExp param body => { m with goExp := body, k := [], k2 := .lam1 m.k param :: m.k2 }
  | .appExp fn arg => { m with goExp := fn, k := .app1 arg :: m.k }
  | .bopExp bop arg1 arg2 => { m with goExp := arg1, k := .bop1 arg2 bop :: m.k }
  | .ifExp cond then_ els => { m with goExp := cond, k := .if1 then_ els :: m.k }

/-- One turn of the loop. -/
def step (m : Machine) : Machine ⊕ Outcome :=
  match m.dispatch with
  | .applyK2 =>
    match m.k2Exp, m.k2 with
    | none, _ => .inr .nullPointer
    | some k2Exp, [] => .inr (.returned k2Exp m.counter)
    | some k2Exp, frame :: k2 => .inl (applyK2Frame { m with k2 := k2, k2Exp := none } k2Exp frame)
  | .applyK =>
    match m.k with
    | [] => .inl { m with k2Exp := some (.haltExp m.value), dispatch := .applyK2 }
    | frame :: k => applyKFrame { m with k := k } frame
  | .go => .inl (goStep m)

/-- The variables as the loop starts. -/
def start (root : Ast.Exp) (counter : Nat) : Machine where
  goExp := root
  k2Exp := none
  k := []
  k2 := []
  value := .intValue 0
  dispatch := .go
  counter := counter

end Machine

/-! ## A measure of the work left -/

/-- Turns the loop needs for `e`, apart from those its frames are charged with. -/
def workExp : Ast.Exp → Nat
  | .intExp _ => 2
  | .varExp _ => 2
  | .lamExp _ body => workExp body + 4
  | .appExp fn arg => workExp fn + workExp arg + 3
  | .bopExp _ arg1 arg2 => workExp arg1 + workExp arg2 + 3
  | .ifExp cond then_ els => workExp cond + workExp then_ + workExp els + 6

def workKFrame : KFrame → Nat
  | .app1 x => workExp x + 2
  | .app2 _ => 2
  | .bop1 y _ => workExp y + 2
  | .bop2 _ _ => 2
  | .if1 t f => workExp t + workExp f + 5
  | .if2 _ => 0

def workK (k : List KFrame) : Nat := (k.map workKFrame).sum

def workK2Frame : K2Frame → Nat
  | .lam1 k _ => workK k + 3
  | .lam2 _ _ _ => 1
  | .app1 _ _ _ => 1
  | .bop1 _ _ _ _ => 1
  | .if1 t f _ _ _ => workExp t + workExp f + 4
  | .if2 f _ _ _ _ => workExp f + 2
  | .if3 _ _ _ _ _ => 1

def workK2 (k2 : List K2Frame) : Nat := (k2.map workK2Frame).sum

/-- Turns left in the loop. The `k` of an `applyK2` state is stale: the next mode replaces
it. -/
def Machine.work (m : Machine) : Nat :=
  match m.dispatch with
  | .applyK2 => workK2 m.k2
  | .applyK => workK m.k + workK2 m.k2 + 1
  | .go => workExp m.goExp + workK m.k + workK2 m.k2

/-- `anf::convertDefunc`: the loop, run for as many turns as it needs. -/
def convertDefunc (root : Ast.Exp) : FreshM Exp := fun counter =>
  let m := Machine.start root counter
  match Lib.iterate Machine.step (m.work + 1) m with
  | some (.returned exp counter) => .ok (exp, counter)
  | some (.threw error) => .error error
  | some .nullPointer => .error ⟨"null pointer"⟩
  | none => .error ⟨"out of fuel"⟩

end Lambcalc.Anf
