import Lambcalc.Derivation.Convert

/-!
# The defunctionalized converters

The last two versions of the derivation: the closures of `convertCPS` as data, and these data as
lists of frames. Their functions call each other in tail position; they take fuel.
-/

namespace Lambcalc.Derivation

open Lib

/-! ## Steps 2 to 4: closures as data -/

mutual

/-- The closures that stand for `k'`. -/
inductive K' where
  | convert
  | lam1 (k' : K') (k : K) (v : String)
  | lam2 (k' : K') (f v : String) (body : Exp)
  | app1 (r f : String) (x : Value) (k' : K')
  | bop1 (r : String) (bop : Lam.Bop) (x y : Value) (k' : K')
  | ite1 (t f : Lam.Exp) (k' : K') (j p : String) (c : Value)
  | ite2 (f : Lam.Exp) (k' : K') (j p : String) (c : Value) (rest : Exp)
  | ite3 (t : Exp) (k' : K') (j p : String) (c : Value) (rest : Exp)

/-- The closures that stand for `k`. -/
inductive K where
  | lam1
  | app1 (x : Lam.Exp) (k : K)
  | app2 (f : Value) (k : K)
  | bop1 (y : Lam.Exp) (bop : Lam.Bop) (k : K)
  | bop2 (x : Value) (bop : Lam.Bop) (k : K)
  | ite1 (t f : Lam.Exp) (k : K)
  | ite2 (j : String)

end

namespace Defunc

mutual

/-- `go` of `convertDefunc`. -/
def go : Nat → Lam.Exp → K' → K → M Exp
  | 0, _, _, _ => .unfinished
  | fuel + 1, exp, k', k =>
    match exp with
    | .int i => applyK fuel k (.int i) k'
    | .var v => applyK fuel k (.var v) k'
    | .lam v body => go fuel body (.lam1 k' k v) .lam1
    | .app f x => go fuel f k' (.app1 x k)
    | .bop bop x y => go fuel x k' (.bop1 y bop k)
    | .ite c t f => go fuel c k' (.ite1 t f k)

/-- `applyK'` of `convertDefunc`. -/
def applyK' : Nat → K' → Exp → M Exp
  | 0, _, _ => .unfinished
  | _ + 1, .convert, exp => pure exp
  | fuel + 1, .lam1 k' k v, body => do
    let f ← fresh "f"
    applyK fuel k (.var f) (.lam2 k' f v body)
  | fuel + 1, .lam2 k' f v body, rest => applyK' fuel k' (.function f [v] body rest)
  | fuel + 1, .app1 r f x k', rest => applyK' fuel k' (.app r f [x] rest)
  | fuel + 1, .bop1 r bop x y k', rest => applyK' fuel k' (.bop r bop x y rest)
  | fuel + 1, .ite1 t f k' j p c, rest => go fuel t (.ite2 f k' j p c rest) (.ite2 j)
  | fuel + 1, .ite2 f k' j p c rest, t => go fuel f (.ite3 t k' j p c rest) (.ite2 j)
  | fuel + 1, .ite3 t k' j p c rest, f => applyK' fuel k' (.join j (some p) rest (.ite c t f))

/-- `applyK` of `convertDefunc`. -/
def applyK : Nat → K → Value → K' → M Exp
  | 0, _, _, _ => .unfinished
  | fuel + 1, .lam1, value, k' => applyK' fuel k' (.halt value)
  | fuel + 1, .app1 x k, f, k' => go fuel x k' (.app2 f k)
  | fuel + 1, .app2 f k, x, k' =>
    match f with
    | .var f => do
      let r ← fresh "r"
      applyK fuel k (.var r) (.app1 r f x k')
    | _ => mustApply
  | fuel + 1, .bop1 y bop k, x, k' => go fuel y k' (.bop2 x bop k)
  | fuel + 1, .bop2 x bop k, y, k' => do
    let r ← fresh "r"
    applyK fuel k (.var r) (.bop1 r bop x y k')
  | fuel + 1, .ite1 t f k, c, k' => do
    let j ← fresh "j"
    let p ← fresh "p"
    applyK fuel k (.var p) (.ite1 t f k' j p c)
  | fuel + 1, .ite2 j, v, k' => applyK' fuel k' (.jump j (some v))

end

end Defunc

/-- `convertDefunc`. -/
def convertDefunc (fuel : Nat) (e : Lam.Exp) : M Exp := Defunc.go fuel e .convert .lam1

/-! ## Step 5: lists of frames -/

/-- `KFrame`. -/
inductive KFrame where
  | app1 (x : Lam.Exp)
  | app2 (f : Value)
  | bop1 (y : Lam.Exp) (bop : Lam.Bop)
  | bop2 (x : Value) (bop : Lam.Bop)
  | ite1 (t f : Lam.Exp)
  | ite2 (j : String)
  deriving DecidableEq, Repr

/-- `K'Frame`. -/
inductive K'Frame where
  | lam1 (k : List KFrame) (v : String)
  | lam2 (f v : String) (body : Exp)
  | app1 (r f : String) (x : Value)
  | bop1 (r : String) (bop : Lam.Bop) (x y : Value)
  | ite1 (t f : Lam.Exp) (j p : String) (c : Value)
  | ite2 (f : Lam.Exp) (j p : String) (c : Value) (rest : Exp)
  | ite3 (t : Exp) (j p : String) (c : Value) (rest : Exp)
  deriving DecidableEq, Repr

namespace Frames

mutual

/-- `go` of `convertDefunc'`. -/
def go : Nat → Lam.Exp → List K'Frame → List KFrame → M Exp
  | 0, _, _, _ => .unfinished
  | fuel + 1, exp, k', k =>
    match exp with
    | .int i => applyK fuel k (.int i) k'
    | .var v => applyK fuel k (.var v) k'
    | .lam v body => go fuel body (.lam1 k v :: k') []
    | .app f x => go fuel f k' (.app1 x :: k)
    | .bop bop x y => go fuel x k' (.bop1 y bop :: k)
    | .ite c t f => go fuel c k' (.ite1 t f :: k)

/-- `applyK'` of `convertDefunc'`. -/
def applyK' : Nat → List K'Frame → Exp → M Exp
  | 0, _, _ => .unfinished
  | _ + 1, [], exp => pure exp
  | fuel + 1, .lam1 k v :: k', body => do
    let f ← fresh "f"
    applyK fuel k (.var f) (.lam2 f v body :: k')
  | fuel + 1, .lam2 f v body :: k', rest => applyK' fuel k' (.function f [v] body rest)
  | fuel + 1, .app1 r f x :: k', rest => applyK' fuel k' (.app r f [x] rest)
  | fuel + 1, .bop1 r bop x y :: k', rest => applyK' fuel k' (.bop r bop x y rest)
  | fuel + 1, .ite1 t f j p c :: k', rest => go fuel t (.ite2 f j p c rest :: k') [.ite2 j]
  | fuel + 1, .ite2 f j p c rest :: k', t => go fuel f (.ite3 t j p c rest :: k') [.ite2 j]
  | fuel + 1, .ite3 t j p c rest :: k', f =>
    applyK' fuel k' (.join j (some p) rest (.ite c t f))

/-- `applyK` of `convertDefunc'`. -/
def applyK : Nat → List KFrame → Value → List K'Frame → M Exp
  | 0, _, _, _ => .unfinished
  | fuel + 1, [], value, k' => applyK' fuel k' (.halt value)
  | fuel + 1, .app1 x :: k, f, k' => go fuel x k' (.app2 f :: k)
  | fuel + 1, .app2 f :: k, x, k' =>
    match f with
    | .var f => do
      let r ← fresh "r"
      applyK fuel k (.var r) (.app1 r f x :: k')
    | _ => mustApply
  | fuel + 1, .bop1 y bop :: k, x, k' => go fuel y k' (.bop2 x bop :: k)
  | fuel + 1, .bop2 x bop :: k, y, k' => do
    let r ← fresh "r"
    applyK fuel k (.var r) (.bop1 r bop x y :: k')
  | fuel + 1, .ite1 t f :: k, c, k' => do
    let j ← fresh "j"
    let p ← fresh "p"
    applyK fuel k (.var p) (.ite1 t f j p c :: k')
  | fuel + 1, .ite2 j :: _, v, k' => applyK' fuel k' (.jump j (some v))

end

end Frames

/-- `convertDefunc'`. -/
def convertDefunc' (fuel : Nat) (e : Lam.Exp) : M Exp := Frames.go fuel e [] []

end Lambcalc.Derivation
