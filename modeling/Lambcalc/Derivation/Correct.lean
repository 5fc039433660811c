import Lambcalc.Derivation.Defunc

/-!
# The steps of the derivation are equivalences

Each version computes what the one before it does: the continuations of `convertCPS` pass on what
those of `convert` make of a value, its closures are what the data of `convertDefunc` stand for,
and these are what the lists of frames of `convertDefunc'` stand for.
-/

namespace Lambcalc.Derivation

open Lib

/-! ## Continuation-passing style -/

/-- `k` hands what `direct` makes of the value to its continuation. -/
def HandsOn (direct : Value → M Exp) (k : Cont) : Prop := ∀ v k', k (v, k') = direct v >>= k'

theorem handsOn_halt : HandsOn (fun value => pure (.halt value)) haltCPS := fun _ _ => rfl

theorem handsOn_jump (j : String) : HandsOn (fun p => pure (.jump j (some p))) (jumpCPS j) :=
  fun _ _ => rfl

/-- In continuation-passing style the conversion does the same and hands its result on. -/
theorem goCPS_eq (e : Lam.Exp) (k' : Next) {direct : Value → M Exp} {k : Cont}
    (handsOn : HandsOn direct k) : goCPS e k' k = go e direct >>= k' := by
  induction e generalizing k' direct k with
  | int i => exact handsOn _ _
  | var v => exact handsOn _ _
  | lam v body ih =>
    rw [goCPS, ih _ handsOn_halt, go]
    simp only [handsOn _ _, bind_assoc, pure_bind]
  | app f x ihF ihX =>
    rw [goCPS, go]
    refine ihF k' fun f k' => ihX k' fun x k' => ?_
    cases f with
    | var f => simp only [handsOn _ _, bind_assoc, pure_bind]
    | _ => rfl
  | bop bop x y ihX ihY =>
    rw [goCPS, go]
    refine ihX k' fun x k' => ihY k' fun y k' => ?_
    simp only [handsOn _ _, bind_assoc, pure_bind]
  | ite c t f ihC ihT ihF =>
    rw [goCPS, go]
    refine ihC k' fun c k' => ?_
    simp only [handsOn _ _, ihT _ (handsOn_jump _), ihF _ (handsOn_jump _), bind_assoc, pure_bind]

/-- The first step: the continuations are in continuation-passing style. -/
theorem convertCPS_eq (e : Lam.Exp) : convertCPS e = convert e := by
  rw [convertCPS, goCPS_eq e pure handsOn_halt, bind_pure, convert]

/-! ## Defunctionalization -/

mutual

/-- The closure of `convertCPS` that the data stand for. -/
def K'.denote : K' → Next
  | .convert => pure
  | .lam1 k' k v => fun body => do
    let f ← fresh "f"
    k.denote (.var f, fun rest => k'.denote (.function f [v] body rest))
  | .lam2 k' f v body => fun rest => k'.denote (.function f [v] body rest)
  | .app1 r f x k' => fun rest => k'.denote (.app r f [x] rest)
  | .bop1 r bop x y k' => fun rest => k'.denote (.bop r bop x y rest)
  | .ite1 t f k' j p c => fun rest =>
    goCPS t (fun t => goCPS f (fun f => k'.denote (.join j (some p) rest (.ite c t f)))
      (jumpCPS j)) (jumpCPS j)
  | .ite2 f k' j p c rest => fun t =>
    goCPS f (fun f => k'.denote (.join j (some p) rest (.ite c t f))) (jumpCPS j)
  | .ite3 t k' j p c rest => fun f => k'.denote (.join j (some p) rest (.ite c t f))

/-- The closure of `convertCPS` that the data stand for. -/
def K.denote : K → Cont
  | .lam1 => haltCPS
  | .app1 x k => fun (f, k') => goCPS x k' fun (x, k') =>
    match f with
    | .var f => do
      let r ← fresh "r"
      k.denote (.var r, fun rest => k' (.app r f [x] rest))
    | _ => mustApply
  | .app2 f k => fun (x, k') =>
    match f with
    | .var f => do
      let r ← fresh "r"
      k.denote (.var r, fun rest => k' (.app r f [x] rest))
    | _ => mustApply
  | .bop1 y bop k => fun (x, k') => goCPS y k' fun (y, k') => do
    let r ← fresh "r"
    k.denote (.var r, fun rest => k' (.bop r bop x y rest))
  | .bop2 x bop k => fun (y, k') => do
    let r ← fresh "r"
    k.denote (.var r, fun rest => k' (.bop r bop x y rest))
  | .ite1 t f k => fun (c, k') => do
    let j ← fresh "j"
    let p ← fresh "p"
    k.denote (.var p, fun rest =>
      goCPS t (fun t => goCPS f (fun f => k' (.join j (some p) rest (.ite c t f))) (jumpCPS j))
        (jumpCPS j))
  | .ite2 j => jumpCPS j

end

/-! ### A measure of the calls left -/

/-- The calls needed for `e`, apart from those that its closures are charged with. -/
def Lam.Exp.work : Lam.Exp → Nat
  | .int _ => 2
  | .var _ => 2
  | .lam _ body => body.work + 4
  | .app f x => f.work + x.work + 3
  | .bop _ x y => x.work + y.work + 3
  | .ite c t f => c.work + t.work + f.work + 6

mutual

def K'.work : K' → Nat
  | .convert => 0
  | .lam1 k' k _ => k'.work + k.work + 3
  | .lam2 k' _ _ _ => k'.work + 1
  | .app1 _ _ _ k' => k'.work + 1
  | .bop1 _ _ _ _ k' => k'.work + 1
  | .ite1 t f k' _ _ _ => t.work + f.work + k'.work + 4
  | .ite2 f k' _ _ _ _ => f.work + k'.work + 2
  | .ite3 _ k' _ _ _ _ => k'.work + 1

def K.work : K → Nat
  | .lam1 => 0
  | .app1 x k => x.work + k.work + 2
  | .app2 _ k => k.work + 2
  | .bop1 y _ k => y.work + k.work + 2
  | .bop2 _ _ k => k.work + 2
  | .ite1 t f k => t.work + f.work + k.work + 5
  | .ite2 _ => 0

end

/-- With enough fuel, each function does what `convertCPS` does with the closures. -/
theorem defunc_eq (fuel : Nat) :
    (∀ e k' k, e.work + k.work + k'.work < fuel →
      Defunc.go fuel e k' k = goCPS e k'.denote k.denote) ∧
    (∀ k' exp, k'.work < fuel → Defunc.applyK' fuel k' exp = k'.denote exp) ∧
    ∀ k v k', k.work + k'.work + 1 < fuel →
      Defunc.applyK fuel k v k' = k.denote (v, k'.denote) := by
  induction fuel with
  | zero => exact ⟨fun _ _ _ enough => by omega, fun _ _ enough => by omega,
      fun _ _ _ enough => by omega⟩
  | succ fuel ih =>
    rcases ih with ⟨ihGo, ihK', ihK⟩
    refine ⟨?go, ?applyK', ?applyK⟩
    case go =>
      intro e k' k enough
      cases e with
      | int i =>
        rw [Lam.Exp.work] at enough
        exact ihK _ _ _ (by omega)
      | var v =>
        rw [Lam.Exp.work] at enough
        exact ihK _ _ _ (by omega)
      | lam v body =>
        rw [Lam.Exp.work] at enough
        rw [Defunc.go, ihGo _ _ _ (by rw [K'.work, K.work]; omega), goCPS, K'.denote, K.denote]
      | app f x =>
        rw [Lam.Exp.work] at enough
        exact (ihGo f k' (.app1 x k) (by rw [K.work]; omega)).trans rfl
      | bop bop x y =>
        rw [Lam.Exp.work] at enough
        rw [Defunc.go, ihGo _ _ _ (by rw [K.work]; omega), goCPS, K.denote]
      | ite c t f =>
        rw [Lam.Exp.work] at enough
        rw [Defunc.go, ihGo _ _ _ (by rw [K.work]; omega), goCPS, K.denote]
    case applyK' =>
      intro k' exp enough
      cases k' with
      | convert => rfl
      | lam1 k' k v =>
        rw [K'.work] at enough
        rw [Defunc.applyK', K'.denote]
        refine bind_congr fun f => ?_
        rw [ihK _ _ _ (by rw [K'.work]; omega), K'.denote]
      | lam2 k' f v body =>
        rw [K'.work] at enough
        exact ihK' _ _ (by omega)
      | app1 r f x k' =>
        rw [K'.work] at enough
        exact ihK' _ _ (by omega)
      | bop1 r bop x y k' =>
        rw [K'.work] at enough
        exact ihK' _ _ (by omega)
      | ite1 t f k' j p c =>
        rw [K'.work] at enough
        rw [Defunc.applyK', ihGo _ _ _ (by rw [K'.work, K.work]; omega), K'.denote, K'.denote,
          K.denote]
      | ite2 f k' j p c rest =>
        rw [K'.work] at enough
        rw [Defunc.applyK', ihGo _ _ _ (by rw [K'.work, K.work]; omega), K'.denote, K'.denote,
          K.denote]
      | ite3 t k' j p c rest =>
        rw [K'.work] at enough
        exact ihK' _ _ (by omega)
    case applyK =>
      intro k v k' enough
      cases k with
      | lam1 =>
        rw [K.work] at enough
        exact ihK' _ _ (by omega)
      | app1 x k =>
        rw [K.work] at enough
        rw [Defunc.applyK, ihGo _ _ _ (by rw [K.work]; omega), K.denote, K.denote]
      | app2 f k =>
        rw [K.work] at enough
        cases f with
        | var f =>
          refine bind_congr fun r => ?_
          rw [ihK _ _ _ (by rw [K'.work]; omega), K'.denote]
        | _ => rfl
      | bop1 y bop k =>
        rw [K.work] at enough
        rw [Defunc.applyK, ihGo _ _ _ (by rw [K.work]; omega), K.denote, K.denote]
      | bop2 x bop k =>
        rw [K.work] at enough
        rw [Defunc.applyK, K.denote]
        refine bind_congr fun r => ?_
        rw [ihK _ _ _ (by rw [K'.work]; omega), K'.denote]
      | ite1 t f k =>
        rw [K.work] at enough
        rw [Defunc.applyK, K.denote]
        refine bind_congr fun j => bind_congr fun p => ?_
        rw [ihK _ _ _ (by rw [K'.work]; omega), K'.denote]
      | ite2 j =>
        rw [K.work] at enough
        exact ihK' _ _ (by omega)

/-- The second step: continuations are data. With enough fuel it is the same. -/
theorem convertDefunc_eq {e : Lam.Exp} {fuel : Nat} (enough : e.work < fuel) :
    convertDefunc fuel e = convertCPS e := by
  rw [convertDefunc, (defunc_eq fuel).1 _ _ _ (by rw [K.work, K'.work]; omega), K'.denote,
    K.denote, convertCPS]

/-! ## Frames -/

/-- The data that a list of frames stands for. -/
def K.ofFrames : List KFrame → K
  | [] => .lam1
  | .app1 x :: k => .app1 x (ofFrames k)
  | .app2 f :: k => .app2 f (ofFrames k)
  | .bop1 y bop :: k => .bop1 y bop (ofFrames k)
  | .bop2 x bop :: k => .bop2 x bop (ofFrames k)
  | .ite1 t f :: k => .ite1 t f (ofFrames k)
  | .ite2 j :: _ => .ite2 j

/-- The data that a list of frames stands for. -/
def K'.ofFrames : List K'Frame → K'
  | [] => .convert
  | .lam1 k v :: k' => .lam1 (ofFrames k') (.ofFrames k) v
  | .lam2 f v body :: k' => .lam2 (ofFrames k') f v body
  | .app1 r f x :: k' => .app1 r f x (ofFrames k')
  | .bop1 r bop x y :: k' => .bop1 r bop x y (ofFrames k')
  | .ite1 t f j p c :: k' => .ite1 t f (ofFrames k') j p c
  | .ite2 f j p c rest :: k' => .ite2 f (ofFrames k') j p c rest
  | .ite3 t j p c rest :: k' => .ite3 t (ofFrames k') j p c rest

/-- With the same fuel, each function does what its counterpart does with the data. -/
theorem frames_eq (fuel : Nat) :
    (∀ e k' k, Frames.go fuel e k' k = Defunc.go fuel e (.ofFrames k') (.ofFrames k)) ∧
    (∀ k' exp, Frames.applyK' fuel k' exp = Defunc.applyK' fuel (.ofFrames k') exp) ∧
    ∀ k v k', Frames.applyK fuel k v k' = Defunc.applyK fuel (.ofFrames k) v (.ofFrames k') := by
  induction fuel with
  | zero => exact ⟨fun _ _ _ => rfl, fun _ _ => rfl, fun _ _ _ => rfl⟩
  | succ fuel ih =>
    rcases ih with ⟨ihGo, ihK', ihK⟩
    refine ⟨?go, ?applyK', ?applyK⟩
    case go =>
      intro e k' k
      cases e with
      | int i => exact ihK _ _ _
      | var v => exact ihK _ _ _
      | _ => exact ihGo _ _ _
    case applyK' =>
      intro k' exp
      cases k' with
      | nil => rfl
      | cons frame k' =>
        cases frame with
        | lam1 k v => exact bind_congr fun f => ihK _ _ _
        | ite1 t f j p c => exact ihGo _ _ _
        | ite2 f j p c rest => exact ihGo _ _ _
        | _ => exact ihK' _ _
    case applyK =>
      intro k v k'
      cases k with
      | nil => exact ihK' _ _
      | cons frame k =>
        cases frame with
        | app1 x => exact ihGo _ _ _
        | app2 f =>
          cases f with
          | var f => exact bind_congr fun r => ihK _ _ _
          | _ => rfl
        | bop1 y bop => exact ihGo _ _ _
        | bop2 x bop => exact bind_congr fun r => ihK _ _ _
        | ite1 t f => exact bind_congr fun j => bind_congr fun p => ihK _ _ _
        | ite2 j => exact ihK' _ _

/-- The third step: the data are lists of frames. -/
theorem convertDefunc'_eq (fuel : Nat) (e : Lam.Exp) :
    convertDefunc' fuel e = convertDefunc fuel e := (frames_eq fuel).1 e [] []

/-! ## All four -/

/-- It returns or raises an exception, from every counter. -/
def Finishes {α : Type} (x : M α) : Prop := ∀ c, x c ≠ .unfinished

/-- One after the other. -/
theorem Finishes.bind {α β : Type} {x : M α} {f : α → M β} (first : Finishes x)
    (second : ∀ a, Finishes (f a)) : Finishes (x >>= f) := by
  intro c stops
  rcases Computation.bind_eq_unfinished.mp stops with stops | ⟨a, c', -, stops⟩
  · exact first c stops
  · exact second a c' stops

theorem finishes_pure {α : Type} (a : α) : Finishes (pure a : M α) := fun _ => nofun

theorem finishes_fresh (p : String) : Finishes (fresh p) := fun _ => nofun

/-- The conversion does not run for ever, if its continuation does not. -/
theorem go_finishes (e : Lam.Exp) {k : Value → M Exp} (finishes : ∀ v, Finishes (k v)) :
    Finishes (go e k) := by
  induction e generalizing k with
  | int i => exact finishes _
  | var v => exact finishes _
  | lam v body ih =>
    rw [go]
    exact (ih fun _ => finishes_pure _).bind fun _ => (finishes_fresh "f").bind fun _ =>
      (finishes _).bind fun _ => finishes_pure _
  | app f x ihF ihX =>
    rw [go]
    refine ihF fun f => ihX fun x => ?_
    cases f with
    | var f => exact (finishes_fresh "r").bind fun _ => (finishes _).bind fun _ => finishes_pure _
    | _ => exact fun _ => nofun
  | bop bop x y ihX ihY =>
    rw [go]
    exact ihX fun _ => ihY fun _ => (finishes_fresh "r").bind fun _ =>
      (finishes _).bind fun _ => finishes_pure _
  | ite c t f ihC ihT ihF =>
    rw [go]
    exact ihC fun _ => (finishes_fresh "j").bind fun _ => (finishes_fresh "p").bind fun _ =>
      (finishes _).bind fun _ => (ihT fun _ => finishes_pure _).bind fun _ =>
        (ihF fun _ => finishes_pure _).bind fun _ => finishes_pure _

/-- The four versions of the converter agree on every expression, from every value of the counter:
they all raise `Fail`, or they all return the same expression, and they leave the same counter. -/
theorem derivation_agrees (e : Lam.Exp) (c : Int) :
    (∃ fail c', convert e c = .failed fail c' ∧ convertCPS e c = .failed fail c' ∧
      ∃ m, ∀ fuel ≥ m, convertDefunc fuel e c = .failed fail c' ∧
        convertDefunc' fuel e c = .failed fail c') ∨
    ∃ exp c', convert e c = .returned exp c' ∧ convertCPS e c = .returned exp c' ∧
      ∃ m, ∀ fuel ≥ m, convertDefunc fuel e c = .returned exp c' ∧
        convertDefunc' fuel e c = .returned exp c' := by
  have enough : ∀ fuel ≥ e.work + 1, convertDefunc fuel e c = convert e c ∧
      convertDefunc' fuel e c = convert e c := by
    intro fuel le
    rw [convertDefunc'_eq, convertDefunc_eq (show e.work < fuel from le), convertCPS_eq]
    exact ⟨rfl, rfl⟩
  cases ran : convert e c with
  | failed fail c' =>
    rw [ran] at enough
    exact .inl ⟨fail, c', rfl, (congrFun (convertCPS_eq e) c).trans ran, _, enough⟩
  | returned exp c' =>
    rw [ran] at enough
    exact .inr ⟨exp, c', rfl, (congrFun (convertCPS_eq e) c).trans ran, _, enough⟩
  | unfinished => exact (go_finishes e (fun _ => finishes_pure _) c ran).elim

end Lambcalc.Derivation
