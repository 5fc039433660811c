import Lambcalc.Lib.Computation

/-!
# The derivation of the ANF converter

`src/anf-defunctionalization.sml`, which derives the converter of `src/anf.cpp` step by step: the
conversion with continuations, and its continuation-passing form. Integers are those of an
implementation whose `Int.maxInt` is `NONE`.
-/

namespace Lambcalc.Derivation

open Lib

/-! ## Syntax -/

namespace Lam

/-- `Lam.bop`. -/
inductive Bop where
  | plus
  | minus
  | times
  deriving DecidableEq, Repr

/-- `Lam.exp`. -/
inductive Exp where
  | int (i : Int)
  | var (v : String)
  | lam (v : String) (body : Exp)
  | app (f x : Exp)
  | bop (bop : Bop) (x y : Exp)
  | ite (c t f : Exp)
  deriving DecidableEq, Repr

end Lam

/-- `Anf.value`. -/
inductive Value where
  | int (i : Int)
  | var (v : String)
  | glob (v : String)
  deriving DecidableEq, Repr

/-- `Anf.exp`. -/
inductive Exp where
  | halt (value : Value)
  | function (f : String) (params : List String) (body rest : Exp)
  | join (j : String) (p : Option String) (body rest : Exp)
  | jump (j : String) (value : Option Value)
  | app (r f : String) (args : List Value) (rest : Exp)
  | bop (r : String) (bop : Lam.Bop) (x y : Value) (rest : Exp)
  | ite (c : Value) (t f : Exp)
  | tuple (r : String) (values : List Value) (rest : Exp)
  | proj (r x : String) (i : Int) (rest : Exp)
  deriving DecidableEq, Repr

/-! ## Effects -/

/-- The exception `Fail`. -/
structure Fail where
  message : String
  deriving DecidableEq, Repr

/-- What an application does: it may draw names from the counter `c`, raise `Fail`, or not end. -/
abbrev M : Type → Type := Computation Int Fail

/-- `Int.toString`, which writes a minus sign as a tilde. -/
def intToString : Int → String
  | .ofNat n => toString n
  | .negSucc n => "~" ++ toString (n + 1)

/-- `fresh`. -/
def fresh (p : String) : M String := .update fun c => (p ++ intToString c, c + 1)

/-- `raise Fail "must apply named value"`. -/
def mustApply : M Exp := .fail ⟨"must apply named value"⟩

/-! ## With continuations -/

/-- `go` of `convert`. -/
def go : Lam.Exp → (Value → M Exp) → M Exp
  | .int i, k => k (.int i)
  | .var v, k => k (.var v)
  | .lam v body, k => do
    let body ← go body fun value => pure (.halt value)
    let f ← fresh "f"
    return .function f [v] body (← k (.var f))
  | .app f x, k =>
    go f fun f => go x fun x =>
      match f with
      | .var f => do
        let r ← fresh "r"
        return .app r f [x] (← k (.var r))
      | _ => mustApply
  | .bop bop x y, k =>
    go x fun x => go y fun y => do
      let r ← fresh "r"
      return .bop r bop x y (← k (.var r))
  | .ite c t f, k =>
    go c fun c => do
      let j ← fresh "j"
      let p ← fresh "p"
      let jump : Value → M Exp := fun p => pure (.jump j (some p))
      return .join j (some p) (← k (.var p)) (.ite c (← go t jump) (← go f jump))

/-- `convert`. -/
def convert (exp : Lam.Exp) : M Exp := go exp fun value => pure (.halt value)

/-! ## Step 1: continuation-passing style -/

/-- The type of `k'`: what to do with an expression. -/
abbrev Next := Exp → M Exp

/-- The type of `k`, which calls its own continuation in turn. -/
abbrev Cont := Value × Next → M Exp

/-- What `convertCPS` starts with, and each body of a function. -/
def haltCPS : Cont := fun (value, k') => k' (.halt value)

/-- `jump` of `convertCPS`. -/
def jumpCPS (j : String) : Cont := fun (v, k') => k' (.jump j (some v))

/-- `go` of `convertCPS`. -/
def goCPS : Lam.Exp → Next → Cont → M Exp
  | .int i, k', k => k (.int i, k')
  | .var v, k', k => k (.var v, k')
  | .lam v body, k', k =>
    let k' : Next := fun body => do
      let f ← fresh "f"
      k (.var f, fun rest => k' (.function f [v] body rest))
    goCPS body k' haltCPS
  | .app f x, k', k =>
    goCPS f k' fun (f, k') => goCPS x k' fun (x, k') =>
      match f with
      | .var f => do
        let r ← fresh "r"
        k (.var r, fun rest => k' (.app r f [x] rest))
      | _ => mustApply
  | .bop bop x y, k', k =>
    goCPS x k' fun (x, k') => goCPS y k' fun (y, k') => do
      let r ← fresh "r"
      k (.var r, fun rest => k' (.bop r bop x y rest))
  | .ite c t f, k', k =>
    goCPS c k' fun (c, k') => do
      let j ← fresh "j"
      let p ← fresh "p"
      k (.var p, fun rest =>
        goCPS t (fun t => goCPS f (fun f => k' (.join j (some p) rest (.ite c t f))) (jumpCPS j))
          (jumpCPS j))

/-- `convertCPS`. -/
def convertCPS (e : Lam.Exp) : M Exp := goCPS e pure haltCPS

end Lambcalc.Derivation
