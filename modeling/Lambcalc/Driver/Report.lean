import Lambcalc.Driver.Arithmetic
import Lambcalc.Parse.Checked
import Lambcalc.Parse.Errors

/-!
# What is printed

The last lines of the loop of `src/main.cpp`: `main` of the module, which returns an `i64`, is
called as a function that returns an `int`, so that the low half of its result is printed.
-/

namespace Lambcalc.Driver

open Anf Lib Lib.Ir Emit Parse

/-- What is printed of the result of `main`: the low 32 bits, as an `int`. -/
def printed (result : Word) : Int := (result.setWidth 32).toInt

/-- For the expression at the start of the text, with the static counter of `anf::fresh` at a given
value, every step is defined and the loop prints `n`. -/
def Prints (text : List Char) (counter : Nat) (n : Int) : Prop :=
  ∃ fuel exp parser fns counter' M result,
    parseExpression defaultInfixBp fuel (Parser.new (CheckedLexer.new text)).peeked =
      .returned exp parser ∧ parser.lexer.defined = true ∧
    compile exp counter = .ok (fns, counter') ∧ lowerModule fns = .ok M ∧ Computes M result ∧
    printed result = n

/-- The low half is the whole exactly in the range of `int`. -/
theorem printed_eq_iff (w : Word) :
    printed w = w.toInt ↔ -2 ^ 31 ≤ w.toInt ∧ w.toInt ≤ 2 ^ 31 - 1 := by
  unfold printed
  rw [BitVec.toInt_setWidth, BitVec.toInt_eq_toNat_bmod]
  have bound := w.isLt
  simp only [Int.bmod_def]
  omega

/-- There is nothing to rename in arithmetic. -/
theorem relabel_arithmetic {e : Ast.Exp} {v : Int} (isValue : value e = some v)
    (label : String → Nat → String) (σ : String → String) (i : Nat) :
    e.Closed ∧ e.relabel label σ i = e := by
  induction e generalizing v i with
  | intExp n => exact ⟨rfl, rfl⟩
  | bopExp bop arg1 arg2 ih1 ih2 =>
    rcases value_bopExp isValue with ⟨n₁, n₂, isValue1, isValue2, -⟩
    rcases ih1 isValue1 (i + arg2.lambdas) with ⟨closed1, same1⟩
    rcases ih2 isValue2 i with ⟨closed2, same2⟩
    refine ⟨?_, ?_⟩
    · show arg1.free ∪ arg2.free = ∅
      rw [closed1, closed2, Finset.empty_union]
    · rw [Ast.Exp.relabel, same1, same2]
  | _ => cases isValue

/-- Arithmetic is compiled to a module that computes its value. -/
theorem compile_arithmetic {e : Ast.Exp} {v : Int} (isValue : value e = some v) (counter : Nat) :
    ∃ fns counter' code, compile e counter = .ok (fns, counter') ∧
      lowerModule fns = .ok ⟨[("main", ⟨.i64, []⟩)], [], [("main", [code])]⟩ ∧
      Computes ⟨[("main", ⟨.i64, []⟩)], [], [("main", [code])]⟩ (Word.ofLiteral v) := by
  rcases relabel_arithmetic isValue Ast.suffixed id 0 with ⟨closed, same⟩
  rcases convert_straight isValue counter with ⟨t, counter', ran, computes⟩
  rcases lowerModule_straight computes (Hoist.entryName 0) with ⟨code, lowered, computes'⟩
  refine ⟨_, counter', code, ?_, lowered, computes'⟩
  rw [compile_closed closed, same, convertDefunc_eq_ok.mpr ran, ← passes_straight computes]

/-- The result of a run is determined. -/
theorem Computes.unique {code : List Instruction} {w w' : Word}
    (computes : Computes ⟨[("main", ⟨.i64, []⟩)], [], [("main", [code])]⟩ w)
    (computes' : Computes ⟨[("main", ⟨.i64, []⟩)], [], [("main", [code])]⟩ w') : w = w' := by
  rcases computes (loneMachine _ _ _) with ⟨body, entry, m, found, head, ran⟩
  rcases computes' (loneMachine _ _ _) with ⟨body', entry', n, found', head', ran'⟩
  cases found.symm.trans found'
  cases head.symm.trans head'
  have same := (iterate_mono ran (le_max_left m n)).symm.trans
    (iterate_mono ran' (le_max_right m n))
  exact Result.returned.inj (Option.some.inj same)

section Texts

variable {p rest : List Spelling} {text : List Char} {e : Ast.Exp} {v : Int}

/-- What is printed for a text of arithmetic. -/
theorem prints_iff (writes : Writes (p ++ rest) text) (ended : Ended rest)
    (arithmetic : ∀ spelling ∈ p, spelling.isArithmetic = true)
    (derives : Derives .ending .sum (p.map Spelling.lexeme) e) (isValue : value e = some v)
    (counter : Nat) (n : Int) : Prints text counter n ↔
      (p.all Spelling.fits = true ∧ printed (Word.ofLiteral v) = n) := by
  rcases parseExpression_arithmetic writes ended arithmetic derives with
    ⟨fuel, parser, parsed, defined⟩
  rcases compile_arithmetic isValue counter with ⟨fns, counter', code, compiled, lowered, computes⟩
  constructor
  · rintro ⟨fuel', exp, parser', fns', c', M, result, parsed', defined', compiled', lowered',
      computes', rfl⟩
    have same := parseExpression_unique (m := fuel) (n := fuel') (by rw [parsed]; nofun)
      (by rw [parsed']; nofun)
    cases parsed.symm.trans (same.trans parsed')
    cases compiled.symm.trans compiled'
    cases lowered.symm.trans lowered'
    cases computes.unique computes'
    exact ⟨defined.symm.trans defined', rfl⟩
  · rintro ⟨fits, rfl⟩
    exact ⟨fuel, e, parser, fns, counter', _, _, parsed, defined.trans fits, compiled, lowered,
      computes, rfl⟩

theorem all_fits_iff : p.all Spelling.fits = true ↔
    ∀ zeros literal, .number zeros literal ∈ p → literal ≤ 2 ^ 31 - 1 := by
  rw [List.all_eq_true]
  constructor
  · intro fits zeros literal member
    exact of_decide_eq_true (fits _ member)
  · intro small spelling member
    cases spelling with
    | number zeros literal => exact decide_eq_true (small zeros literal member)
    | _ => rfl

/-- For a text of literals, operators and parentheses, the loop prints the value of the expression
modulo `2^64` in two's complement if and only if every literal and the printed value are in the
range of `int`. -/
theorem prints_value_iff (writes : Writes (p ++ rest) text) (ended : Ended rest)
    (arithmetic : ∀ spelling ∈ p, spelling.isArithmetic = true)
    (derives : Derives .ending .sum (p.map Spelling.lexeme) e) (isValue : value e = some v)
    (counter : Nat) : Prints text counter (BitVec.ofInt 64 v).toInt ↔
      (∀ zeros literal, .number zeros literal ∈ p → literal ≤ 2 ^ 31 - 1) ∧
        -2 ^ 31 ≤ (BitVec.ofInt 64 v).toInt ∧ (BitVec.ofInt 64 v).toInt ≤ 2 ^ 31 - 1 := by
  rw [prints_iff writes ended arithmetic derives isValue, all_fits_iff, ← printed_eq_iff]
  rfl

end Texts

/-! ## One operator -/

/-- Two literals with an operator between them. -/
def operation (m : Nat) (op : Spelling) (n : Nat) : List Spelling :=
  [.number 0 m, op, .number 0 n]

/-- Their text without spaces. -/
def operationText (m : Nat) (op : Spelling) (n : Nat) : List Char :=
  Nat.toDigits 10 m ++ (op.text ++ (Nat.toDigits 10 n ++ []))

section Operation

variable {op : Spelling} {bop : Ast.Bop} (m n : Nat)

theorem isSymbol_of_opToken (isOp : op.token = opToken bop) :
    op.Valid ∧ op.isNumber = false ∧ op.isWord = false ∧ op.isArithmetic = true := by
  cases bop <;> cases op <;> first | exact ⟨trivial, rfl, rfl, rfl⟩ | cases isOp

theorem operation_writes (isOp : op.token = opToken bop) :
    Writes (operation m op n ++ []) (operationText m op n) := by
  rcases isSymbol_of_opToken isOp with ⟨valid, notNumber, notWord, -⟩
  have empty : Blank [] := List.forall_mem_nil _
  have last : Writes [.number 0 n] (Nat.toDigits 10 n ++ []) :=
    .cons empty trivial (.nil empty) nofun
  have middle : Writes [op, .number 0 n] (op.text ++ (Nat.toDigits 10 n ++ [])) := by
    refine .cons empty valid last fun next _ needs => ?_
    rw [Spelling.NeedsSpace, notNumber, notWord] at needs
    rcases needs with ⟨⟨⟩, -⟩ | ⟨⟨⟩, -⟩
  refine .cons empty trivial middle fun next head needs => ?_
  cases head
  rw [Spelling.NeedsSpace, notNumber] at needs
  rcases needs with ⟨⟨⟩, -⟩ | ⟨-, ⟨⟩⟩

theorem operation_arithmetic (isOp : op.token = opToken bop) :
    ∀ spelling ∈ operation m op n, spelling.isArithmetic = true :=
  List.forall_mem_cons.mpr ⟨rfl, List.forall_mem_cons.mpr
    ⟨(isSymbol_of_opToken isOp).2.2.2, List.forall_mem_singleton.mpr rfl⟩⟩

theorem operation_derives (isOp : op.token = opToken bop) : Derives .ending .sum
    ((operation m op n).map Spelling.lexeme) (.bopExp bop (.intExp m) (.intExp n)) := by
  have literal : ∀ (level : Level) (k : Nat),
      Derives .closed level [(Spelling.number 0 k).lexeme] (.intExp k) :=
    fun level k => .looser (show level.rank ≤ Level.atom.rank from level.rank_le) (.number rfl)
  have sum : Level.sum.rank ≤ (opLevel bop).rank := by cases bop <;> decide
  exact .closed (.looser sum (.bop (literal _ m) isOp (literal _ n)))

end Operation

theorem prints_value_iff_product : Prints "7*6".toList 0 42 := by
  have isTimes : Spelling.times.token = opToken .times := rfl
  have fits : (operation 7 .times 6).all Spelling.fits = true := rfl
  exact (prints_value_iff (operation_writes 7 6 isTimes) (.inl rfl)
    (operation_arithmetic 7 6 isTimes) (operation_derives 7 6 isTimes) rfl 0).mpr
      ⟨all_fits_iff.mp fits, by decide⟩

/-- The value of `2147483647+1` is printed as a negative number, and the literal of
`2147483648+0` is no `int`. -/
theorem prints_low_half :
    (Prints "2147483647+1".toList 0 (-2147483648) ∧
      ¬ Prints "2147483647+1".toList 0 (BitVec.ofInt 64 (2147483647 + 1)).toInt) ∧
    ¬ Prints "2147483648+0".toList 0 (BitVec.ofInt 64 (2147483648 + 0)).toInt := by
  have isPlus : Spelling.plus.token = opToken .plus := rfl
  have sum : ∀ k, Prints "2147483647+1".toList 0 k ↔ (operation 2147483647 .plus 1).all
      Spelling.fits = true ∧ printed (Word.ofLiteral (2147483647 + 1)) = k := fun k =>
    prints_iff (operation_writes 2147483647 1 isPlus) (.inl rfl)
      (operation_arithmetic 2147483647 1 isPlus) (operation_derives 2147483647 1 isPlus) rfl 0 k
  have large : ∀ k, Prints "2147483648+0".toList 0 k ↔ (operation 2147483648 .plus 0).all
      Spelling.fits = true ∧ printed (Word.ofLiteral (2147483648 + 0)) = k := fun k =>
    prints_iff (operation_writes 2147483648 0 isPlus) (.inl rfl)
      (operation_arithmetic 2147483648 0 isPlus) (operation_derives 2147483648 0 isPlus) rfl 0 k
  rw [sum, sum, large]
  decide

end Lambcalc.Driver
