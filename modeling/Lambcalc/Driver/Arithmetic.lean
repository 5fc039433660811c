import Lambcalc.Anf.Preservation
import Lambcalc.Driver.Compile
import Lambcalc.Emit.Simulation

/-!
# Arithmetic

What the passes make of an expression of literals and operators: straight-line code, which computes
the value of the expression modulo `2^64` without a cell of memory.
-/

namespace Lambcalc.Driver

open Anf Lib Lib.Ir Emit Emit.LLVMLowerVisitor

/-! ## Values -/

/-- The operators, on integers. -/
def onInt : Ast.Bop → Int → Int → Int
  | .plus, m, n => m + n
  | .minus, m, n => m - n
  | .times, m, n => m * n

/-- The value of an expression of literals and operators. -/
def value : Ast.Exp → Option Int
  | .intExp n => some n
  | .bopExp bop arg1 arg2 => do return onInt bop (← value arg1) (← value arg2)
  | _ => none

theorem value_bopExp {bop : Ast.Bop} {arg1 arg2 : Ast.Exp} {n : Int}
    (eq : value (.bopExp bop arg1 arg2) = some n) :
    ∃ n₁ n₂, value arg1 = some n₁ ∧ value arg2 = some n₂ ∧ onInt bop n₁ n₂ = n := by
  rcases Option.bind_eq_some_iff.mp eq with ⟨n₁, eq₁, rest⟩
  rcases Option.bind_eq_some_iff.mp rest with ⟨n₂, eq₂, last⟩
  exact ⟨n₁, n₂, eq₁, eq₂, Option.some.inj last⟩

/-- The operators of `i64` are those on integers, modulo `2^64`. -/
theorem eval_ofLiteral (bop : Ast.Bop) (m n : Int) :
    (binaryOp bop).eval (Word.ofLiteral m) (Word.ofLiteral n) = Word.ofLiteral (onInt bop m n) := by
  unfold Word.ofLiteral
  cases bop with
  | plus => exact (BitVec.ofInt_add m n).symm
  | minus =>
    show BitVec.ofInt 64 m - BitVec.ofInt 64 n = BitVec.ofInt 64 (m - n)
    rw [Int.sub_eq_add_neg, BitVec.ofInt_add, BitVec.ofInt_neg, BitVec.sub_eq_add_neg]
  | times => exact (BitVec.ofInt_mul m n).symm

/-! ## Straight-line code -/

/-- What is known of the values of names. -/
abbrev Known : Type := Var → Option Word

def readWord (ρ : Known) : Value → Option Word
  | .intValue n => some (.ofLiteral n)
  | .varValue x => ρ x
  | .globValue _ => none

/-- What straight-line code returns. -/
def straight : Exp → Known → Option Word
  | .haltExp v, ρ => readWord ρ v
  | .bopExp name bop param1 param2 rest, ρ => do
    let m ← readWord ρ param1
    let n ← readWord ρ param2
    straight rest (Function.update ρ name (some ((binaryOp bop).eval m n)))
  | _, _ => none

/-- A value that the names from `tmp c` on do not change. -/
def Settled (c : Nat) : Value → Prop
  | .varValue x => ∀ i ≥ c, x ≠ tmp i
  | _ => True

/-- Only the names from `tmp c` on have changed. -/
def Extends (c : Nat) (ρ ρ' : Known) : Prop := ∀ x, (∀ i ≥ c, x ≠ tmp i) → ρ' x = ρ x

section Conversion

variable {c c₁ c₂ : Nat} {ρ ρ₁ ρ₂ : Known} {v : Value}

theorem Settled.mono (settled : Settled c v) (le : c ≤ c₁) : Settled c₁ v := by
  cases v with
  | varValue x => exact fun i ge => settled i (le.trans ge)
  | _ => trivial

theorem Settled.read (settled : Settled c v) (ext : Extends c ρ ρ₁) :
    readWord ρ₁ v = readWord ρ v := by
  cases v with
  | varValue x => exact ext x settled
  | _ => rfl

theorem Extends.trans (first : Extends c ρ ρ₁) (second : Extends c₁ ρ₁ ρ₂) (le : c ≤ c₁) :
    Extends c ρ ρ₂ := fun x other =>
  (second x fun i ge => other i (le.trans ge)).trans (first x other)

theorem extends_update (le : c ≤ c₁) (w : Word) :
    Extends c ρ (Function.update ρ (tmp c₁) (some w)) := fun _ other =>
  Function.update_of_ne (other c₁ le) _ _

/-- Conversion makes code that computes the value of the expression and goes on with the code of the
continuation. -/
theorem convertWith_straight {e : Ast.Exp} {n : Int} (isValue : value e = some n) {k : Cont}
    {w : Word} (next : ∀ c₁ ρ₁ v, c ≤ c₁ → Extends c ρ ρ₁ → Settled c₁ v →
      readWord ρ₁ v = some (.ofLiteral n) →
      ∃ t c', k v c₁ = .ok (t, c') ∧ straight t ρ₁ = some w) :
    ∃ t c', convertWith e k c = .ok (t, c') ∧ straight t ρ = some w := by
  induction e generalizing c ρ n k w with
  | intExp m =>
    cases isValue
    exact next c ρ (.intValue m) le_rfl (fun _ _ => rfl) trivial rfl
  | bopExp bop arg1 arg2 ih1 ih2 =>
    rcases value_bopExp isValue with ⟨n₁, n₂, isValue1, isValue2, rfl⟩
    rw [convertWith_bopExp]
    refine ih1 isValue1 fun c₁ ρ₁ v₁ le₁ ext₁ settled₁ read₁ => ?_
    refine ih2 isValue2 fun c₂ ρ₂ v₂ le₂ ext₂ settled₂ read₂ => ?_
    have read₁' : readWord ρ₂ v₁ = some (.ofLiteral n₁) := (settled₁.read ext₂).trans read₁
    -- the result of the operator
    let ρ₃ : Known := Function.update ρ₂ (tmp c₂) (some (.ofLiteral (onInt bop n₁ n₂)))
    have ext₃ : Extends c ρ ρ₃ :=
      (ext₁.trans ext₂ le₁).trans (extends_update le_rfl _) (le₁.trans le₂)
    have settled₃ : Settled (c₂ + 1) (.varValue (tmp c₂)) := by
      intro i ge eq
      have := tmp_injective eq
      omega
    rcases next (c₂ + 1) ρ₃ (.varValue (tmp c₂)) (by omega) ext₃ settled₃
      (Function.update_self _ _ _) with ⟨t, c', ran, computes⟩
    refine ⟨_, c', buildBop_ok.mpr ⟨t, ran, rfl⟩, ?_⟩
    rw [straight, read₁', read₂]
    simp only [Option.bind_eq_bind, Option.bind_some, eval_ofLiteral]
    exact computes
  | _ => cases isValue

/-- So the conversion of the whole makes code that returns the value. -/
theorem convert_straight {e : Ast.Exp} {n : Int} (isValue : value e = some n) (c : Nat) :
    ∃ t c', convert e c = .ok (t, c') ∧ straight t (fun _ => none) = some (.ofLiteral n) :=
  convertWith_straight isValue fun c₁ _ v _ _ _ read => ⟨.haltExp v, c₁, rfl, read⟩

end Conversion

/-! ## The passes after it -/

section Passes

variable {t : Exp} {ρ : Known} {w : Word}

/-- Straight-line code has no functions to close. -/
theorem close_straight (computes : straight t ρ = some w) (c : Nat) : t.close c = (t, c) := by
  induction t generalizing ρ with
  | haltExp v => rfl
  | bopExp name bop param1 param2 rest ih =>
    rcases Option.bind_eq_some_iff.mp computes with ⟨m, -, computes⟩
    rcases Option.bind_eq_some_iff.mp computes with ⟨n, -, computes⟩
    rw [Exp.close, ih computes]
  | _ => cases computes

/-- And nothing to hoist. -/
theorem hoist_straight (computes : straight t ρ = some w) (c : Nat) : Hoist.hoists t = 0 ∧
    Hoist.block t c = t ∧ Hoist.blocks t c = [] ∧ Hoist.lifted t c = [] := by
  induction t generalizing ρ with
  | haltExp v => exact ⟨rfl, rfl, rfl, rfl⟩
  | bopExp name bop param1 param2 rest ih =>
    rcases Option.bind_eq_some_iff.mp computes with ⟨m, -, computes⟩
    rcases Option.bind_eq_some_iff.mp computes with ⟨n, -, computes⟩
    rcases ih computes with ⟨none, block, blocks, lifted⟩
    refine ⟨none, ?_, blocks, lifted⟩
    rw [Hoist.block, block]
  | _ => cases computes

/-- `main` alone is left, with one block. -/
theorem passes_straight (computes : straight t ρ = some w) : Hoist.hoist (closureConvert t) =
    [⟨"main", [], ⟨Hoist.entryName 0, none, t⟩, []⟩] := by
  rcases hoist_straight computes 0 with ⟨none, block, blocks, lifted⟩
  rw [closureConvert, close_straight computes, Hoist.hoist_eq, Hoist.functionOf, none, block,
    blocks, lifted]
  rfl

end Passes

/-! ## The code of `main` -/

/-- The operands under the names are constants or results that are there already, and evaluate to
what is known of the names. -/
def Holds {M : Module} (m : Machine M) (ρ : Known) (visitor : LLVMLowerVisitor) (frame : Frame) :
    Prop :=
  ∀ x w, ρ x = some w → ∃ op, visitor.namedValues x = some op ∧ m.eval frame op = some w ∧
    ∀ type, ∀ id ≥ visitor.next, op ≠ .inst type id

section Code

variable {M : Module} {m : Machine M} {ρ : Known} {visitor : LLVMLowerVisitor} {frame : Frame}
  {w : Word}

theorem Holds.operand (holds : Holds m ρ visitor frame) {v : Value} (read : readWord ρ v = some w) :
    ∃ op, visitor.operand v = .ok (op, visitor) ∧ m.eval frame op = some w := by
  cases v with
  | intValue n =>
    cases read
    exact ⟨_, rfl, rfl⟩
  | varValue x =>
    rcases holds x w read with ⟨op, named, evaluates, -⟩
    exact ⟨op, by simp only [LLVMLowerVisitor.operand, LLVMLowerVisitor.visitValue, named],
      evaluates⟩
  | globValue x => cases read

/-- The result of the next instruction holds under its name. -/
theorem Holds.enter (holds : Holds m ρ visitor frame) (name : Var) (type : Ty) (w : Word) :
    Holds m (Function.update ρ name (some w)) (visitor.enter name type)
      (frame.set visitor.next w) := by
  intro x u known
  by_cases eq : x = name
  · cases eq
    rw [Function.update_self] at known
    cases known
    refine ⟨.inst type visitor.next, Function.update_self _ _ _, eval_set_self type, ?_⟩
    rintro type' id ge ⟨⟩
    exact Nat.not_succ_le_self _ ge
  · rw [Function.update_of_ne eq] at known
    rcases holds x u known with ⟨op, named, evaluates, below⟩
    refine ⟨op, (Function.update_of_ne eq _ _).trans named, ?_, fun type' id ge =>
      below type' id (Nat.le_of_succ_le ge)⟩
    rw [eval_set_of_ne fun type' => below type' _ le_rfl]
    exact evaluates

/-- Straight-line code is lowered, and the run of its instructions returns what it computes,
whatever the machine. -/
theorem lowerExp_straight (memory : Memory) {t : Exp} (computes : straight t ρ = some w)
    (holds : Holds m ρ visitor frame) :
    ∃ code visitor', lowerExp t visitor = .ok (code, visitor') ∧
      visitor'.module_ = visitor.module_ ∧
      ∃ fuel, iterate m.step fuel ⟨frame, code, [], memory⟩ = some (.returned w) := by
  induction t generalizing ρ visitor frame with
  | haltExp v =>
    rcases holds.operand computes with ⟨op, found, evaluates⟩
    refine ⟨[⟨visitor.next, .ret op⟩], visitor.skip 1, ?_, rfl, 1, ?_⟩
    · rw [lowerExp, LLVMLowerVisitor.haltExp, found]
      rfl
    · exact iterate_of_inr (m.step_ret evaluates) 0
  | bopExp name bop param1 param2 rest ih =>
    rcases Option.bind_eq_some_iff.mp computes with ⟨m₁, read₁, computes⟩
    rcases Option.bind_eq_some_iff.mp computes with ⟨m₂, read₂, computes⟩
    rcases holds.operand read₁ with ⟨op₁, found₁, evaluates₁⟩
    rcases holds.operand read₂ with ⟨op₂, found₂, evaluates₂⟩
    rcases ih computes (holds.enter name op₁.type _) with
      ⟨code, visitor', lowered, module_, fuel, ran⟩
    refine ⟨⟨visitor.next, .binary (binaryOp bop) op₁ op₂⟩ :: code, visitor', ?_, module_,
      fuel + 1, ?_⟩
    · have node : visitor.bopExp name bop param1 param2 = .ok
          ([⟨visitor.next, .binary (binaryOp bop) op₁ op₂⟩], visitor.enter name op₁.type) := by
        rw [LLVMLowerVisitor.bopExp, except_bind_of_ok found₁]
        exact except_bind_of_ok found₂
      rw [lowerExp, except_bind_of_ok node]
      exact except_bind_of_ok lowered
    · rw [iterate_of_inl (m.step_binary evaluates₁ evaluates₂)]
      exact ran
  | _ => cases computes

end Code

/-! ## The module -/

/-- `main` returns `w`, on every machine. -/
def Computes (M : Module) (w : Word) : Prop :=
  ∀ m : Machine M, ∃ body code fuel, M.bodies.lookup "main" = some body ∧ body.head? = some code ∧
    iterate m.step fuel ⟨⟨body, [], fun _ => none, []⟩, code, [], ⟨fun _ => .free, 0⟩⟩ =
      some (.returned w)

/-- A machine for a module that declares one function. -/
def loneMachine (name : String) (type : FunctionType) (bodies : List (String × Body)) :
    Machine ⟨[(name, type)], [], bodies⟩ where
  toAllocator := .placing fun _ => 0
  addressOf _ := 0
  apart := by
    intro f memberF g memberG _
    rw [List.mem_singleton.mp memberF, List.mem_singleton.mp memberG]

/-- One function with one block of straight-line code is lowered to a module that computes its
value. -/
theorem lowerModule_straight {t : Exp} {w : Word} (computes : straight t (fun _ => none) = some w)
    (entry : Var) : ∃ code,
      lowerModule [⟨"main", [], ⟨entry, none, t⟩, []⟩] =
        .ok ⟨[("main", ⟨.i64, []⟩)], [], [("main", [code])]⟩ ∧
      Computes ⟨[("main", ⟨.i64, []⟩)], [], [("main", [code])]⟩ w := by
  -- the visitor at the start of the entry block
  let start : LLVMLowerVisitor := ⟨⟨[("main", ⟨.i64, []⟩)], [], []⟩, 0,
    fun _ => none, fun _ => none,
    Function.update (fun _ => none) entry (some 0)⟩
  have holds : ∀ {M : Module} (m : Machine M) (frame : Frame),
      Holds m (fun _ => none) start frame := fun _ _ _ _ known => nomatch known
  let frame : Body → Frame := fun body => ⟨body, [], fun _ => none, []⟩
  let memory : Memory := ⟨fun _ => .free, 0⟩
  rcases lowerExp_straight memory computes
    (holds (loneMachine "main" ⟨.i64, []⟩ []) (frame [])) with ⟨code, visitor, lowered, module_, -⟩
  refine ⟨code, ?_, fun m => ?_⟩
  · have prepared : prepare ⟨[("main", ⟨.i64, []⟩)], [], []⟩ ⟨"main", [], ⟨entry, none, t⟩, []⟩ =
        .ok ([], start) := rfl
    have function : lowerFunction ⟨[("main", ⟨.i64, []⟩)], [], []⟩
        ⟨"main", [], ⟨entry, none, t⟩, []⟩ =
        .ok ⟨[("main", ⟨.i64, []⟩)], [], [("main", [code])]⟩ := by
      rw [lowerFunction, except_bind_of_ok prepared]
      refine (except_bind_of_ok lowered).trans ?_
      show Except.ok (⟨visitor.module_.declared, visitor.module_.globals,
        visitor.module_.bodies ++ [("main", [code])]⟩ : Module) = _
      rw [module_]
      rfl
    exact except_bind_of_ok function
  · rcases lowerExp_straight memory computes (holds m (frame [code])) with
      ⟨code', visitor', lowered', -, fuel, ran⟩
    cases lowered.symm.trans lowered'
    exact ⟨[code], code, fuel, rfl, rfl, ran⟩

end Lambcalc.Driver
