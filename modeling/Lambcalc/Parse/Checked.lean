import Lambcalc.Parse.Layout
import Mathlib.Data.List.Forall2

/-!
# Numbers out of range

The lexer with a note whether each number so far could be converted to `int`, and what it makes of
a text of numbers, operators and parentheses, the numbers as large as they may be.
-/

namespace Lambcalc.Parse

open Ast Lib

/-- The digits of the number that `getToken` reads next. -/
def CharLexer.digits (lexer : CharLexer) : List Char :=
  ((lexer.takeWhile isspace).2.takeWhile Char.isDigit).1

/-- The lexer, and whether what it has assigned to `numberValue_` was always defined. -/
structure CheckedLexer where
  lexer : CharLexer
  defined : Bool
  deriving DecidableEq, Repr

namespace CheckedLexer

def new (text : List Char) : CheckedLexer := ⟨CharLexer.new text, true⟩

/-- `Lexer::getToken`. -/
def getToken (checked : CheckedLexer) : Token × CheckedLexer :=
  let (token, lexer) := checked.lexer.getToken
  let converts := token ≠ .number ∨ toInt (strtod checked.lexer.digits) = some lexer.numberValue
  (token, ⟨lexer, checked.defined && converts⟩)

instance : Lexer CheckedLexer where
  getToken := getToken
  getIdentifier checked := checked.lexer.identifier
  getNumber checked := checked.lexer.numberValue

end CheckedLexer

/-! ## Texts of numbers, operators and parentheses -/

namespace Spelling

/-- A number, an operator or a parenthesis. -/
def isArithmetic : Spelling → Bool
  | number _ _ | lParen | rParen | plus | minus | times => true
  | _ => false

/-- The number that a spelling stands for. -/
def value : Spelling → Int
  | number _ value => value
  | _ => 0

/-- The token with its lexeme, if it is no identifier. -/
def lexeme (spelling : Spelling) : Lexeme := ⟨spelling.token, "", spelling.value⟩

/-- Numbers are in the range of `int`. -/
def fits : Spelling → Bool
  | number _ value => value ≤ 2 ^ 31 - 1
  | _ => true

end Spelling

/-- A spelling, and the same token with the same number. -/
def ReadAs (spelling : Spelling) (l : Lexeme) : Prop :=
  l.token = spelling.token ∧ (spelling.token = .number → l.number = spelling.value)

section Tokens

variable {spelling : Spelling} {spellings rest : List Spelling} {text : List Char}

theorem digits_before (text : List Char) (identifier : String) (numberValue : Int) :
    (CharLexer.before text identifier numberValue).digits =
      (text.dropWhile isspace).takeWhile Char.isDigit := by
  rw [CharLexer.digits, CharLexer.takeWhile_before, CharLexer.takeWhile_before]

/-- The next token of a text of arithmetic. -/
theorem getToken_arithmetic (arithmetic : spelling.isArithmetic = true)
    (writes : Writes (spelling :: spellings) text) (identifier : String) (numberValue : Int) :
    ∃ rest numberValue', Writes spellings rest ∧
      (CharLexer.before text identifier numberValue).getToken =
        (spelling.token, CharLexer.before rest identifier numberValue') ∧
      (spelling.token = .number → numberValue' = spelling.value ∧
        CharLexer.number (CharLexer.before text identifier numberValue).digits =
          spelling.value) := by
  cases writes with
  | @cons _ _ blanks rest blank valid writes apart =>
    rw [getToken_blanks blank]
    have symbol : ∀ c : Char, isspace c = false → c ≠ '=' → c.isAlpha = false →
        c.isDigit = false → (CharLexer.before ([c] ++ rest) identifier numberValue).getToken =
          (CharLexer.ofChar c, CharLexer.before rest identifier numberValue) :=
      fun c visible ne alpha digit => CharLexer.getToken_symbol visible ne alpha digit
    cases spelling with
    | number zeros value =>
      have stops := (stops_of_writes writes apart).2 rfl
      have isDigit := digits_number zeros value
      have eq : CharLexer.number (Spelling.number zeros value).text = value :=
        number_zeros zeros value
      refine ⟨rest, value, writes, ?_, fun _ => ⟨rfl, ?_⟩⟩
      · rw [← eq]
        exact CharLexer.getToken_digits (text_ne_nil valid) isDigit stops
      · -- no digit is a space
        have visible : ∀ c ∈ ((Spelling.number zeros value).text ++ rest).head?,
            isspace c = false := by
          intro c head
          rw [List.head?_append_of_ne_nil _ (text_ne_nil valid)] at head
          have range := range_of_isDigit (isDigit c (List.mem_of_mem_head? head))
          exact isspace_eq_false_of_gt (by omega)
        rw [digits_before, (CharLexer.span_append blank visible).2,
          (CharLexer.span_append isDigit stops).1, eq]
        rfl
    | lParen => exact ⟨rest, _, writes, symbol '(' rfl (by decide) rfl rfl, nofun⟩
    | rParen => exact ⟨rest, _, writes, symbol ')' rfl (by decide) rfl rfl, nofun⟩
    | plus => exact ⟨rest, _, writes, symbol '+' rfl (by decide) rfl rfl, nofun⟩
    | minus => exact ⟨rest, _, writes, symbol '-' rfl (by decide) rfl rfl, nofun⟩
    | times => exact ⟨rest, _, writes, symbol '*' rfl (by decide) rfl rfl, nofun⟩
    | _ => cases arithmetic

/-- The parser is before the text, with nothing in its buffer. -/
structure Parser.Facing (s : Parser CheckedLexer) (text : List Char) : Prop where
  empty : s.peekToken = none
  lexer : ∃ identifier numberValue, s.lexer.lexer = CharLexer.before text identifier numberValue

theorem facing_new (text : List Char) :
    (Parser.new (CheckedLexer.new text)).Facing (' ' :: text) :=
  ⟨rfl, "", 0, rfl⟩

/-- With nothing in its buffer, a parser reads what the lexer does. -/
theorem Parser.advance_of_none {L : Type} [Lexer L] {s : Parser L} (empty : s.peekToken = none) :
    s.advance =
      { s with
        lexer := (Lexer.getToken s.lexer).2
        currentToken := (Lexer.getToken s.lexer).1 } := by
  unfold advance
  rw [empty]

/-- One token of arithmetic. -/
theorem Parser.Facing.advance {s : Parser CheckedLexer} (facing : s.Facing text)
    (arithmetic : spelling.isArithmetic = true) (writes : Writes (spelling :: spellings) text) :
    ReadAs spelling s.advance.lexeme ∧ (∃ rest, Writes spellings rest ∧ s.advance.Facing rest) ∧
      s.advance.lexer.defined = (s.lexer.defined && spelling.fits) := by
  rcases facing with ⟨empty, identifier, numberValue, eq⟩
  rcases getToken_arithmetic arithmetic writes identifier numberValue with
    ⟨rest, numberValue', writes', call, number⟩
  rw [← eq] at call number
  have read : Lexer.getToken s.lexer = (spelling.token,
      ⟨CharLexer.before rest identifier numberValue', s.lexer.defined &&
        (spelling.token ≠ .number ∨ toInt (strtod s.lexer.lexer.digits) = some numberValue')⟩) := by
    show s.lexer.getToken = _
    rw [CheckedLexer.getToken, call]
    rfl
  rw [Parser.advance_of_none empty, read]
  refine ⟨⟨rfl, fun isNumber => (number isNumber).1⟩, ⟨rest, writes', empty, _, _, rfl⟩, ?_⟩
  have converts : (spelling.token ≠ .number ∨
      toInt (strtod s.lexer.lexer.digits) = some numberValue') ↔ spelling.fits = true := by
    cases spelling with
    | number zeros value =>
      rcases number rfl with ⟨rfl, eq⟩
      rw [toInt_strtod, eq]
      show (Token.number ≠ .number ∨
        (if (value : Int) ≤ 2 ^ 31 - 1 then some (value : Int) else none)
        = some (value : Int)) ↔ decide (value ≤ 2 ^ 31 - 1) = true
      rw [decide_eq_true_iff]
      by_cases small : (value : Int) ≤ 2 ^ 31 - 1
      · rw [if_pos small]
        exact iff_of_true (.inr rfl) (by omega)
      · rw [if_neg small]
        exact iff_of_false (by simp) (by omega)
    | _ => exact iff_of_true (.inl nofun) rfl
  show (s.lexer.defined && decide _) = _
  rw [decide_eq_decide.mpr converts, Bool.decide_coe]

/-- All tokens of arithmetic. -/
theorem Parser.Facing.reads {s : Parser CheckedLexer} (facing : s.Facing text)
    (arithmetic : ∀ spelling ∈ spellings, spelling.isArithmetic = true)
    (writes : Writes (spellings ++ rest) text) :
    ∃ p s', Reads s p s' ∧ List.Forall₂ ReadAs spellings p ∧
      (∃ text', Writes rest text' ∧ s'.Facing text') ∧
      s'.lexer.defined = (s.lexer.defined && spellings.all Spelling.fits) := by
  induction spellings generalizing s text with
  | nil => exact ⟨[], s, .refl s, .nil, ⟨text, writes, facing⟩, (Bool.and_true _).symm⟩
  | cons spelling spellings ih =>
    rcases List.forall_mem_cons.mp arithmetic with ⟨first, others⟩
    rcases facing.advance first writes with ⟨readAs, ⟨text', writes', facing'⟩, defined⟩
    rcases ih facing' others writes' with ⟨p, s', reads, same, left, defined'⟩
    refine ⟨_, s', .token reads, .cons readAs same, left, ?_⟩
    rw [defined', defined, List.all_cons, Bool.and_assoc]

/-- What comes after an expression: nothing, or a semicolon. -/
def Ended (rest : List Spelling) : Prop := rest = [] ∨ rest.head? = some .semicolon

/-- At the end of an expression, a look ahead makes no difference. -/
theorem Parser.Facing.peeked {s : Parser CheckedLexer} (facing : s.Facing text)
    (ended : Ended rest) (writes : Writes rest text) :
    s.ahead.rank = 0 ∧ s.peeked.lexer.defined = s.lexer.defined := by
  rcases facing with ⟨empty, identifier, numberValue, eq⟩
  have call : s.lexer.lexer.getToken.1 = .eof ∨ s.lexer.lexer.getToken.1 = .semicolon := by
    rw [eq]
    rcases ended with rfl | head
    · exact .inl (congrArg Prod.fst (getToken_writes_nil writes identifier numberValue))
    · cases rest with
      | nil => cases head
      | cons spelling spellings =>
        cases head
        rcases getToken_writes writes identifier numberValue with ⟨_, _, _, -, call, -⟩
        exact .inr (congrArg Prod.fst call)
  have peek : s.ahead = s.lexer.lexer.getToken.1 ∧
      s.peeked.lexer.defined = (s.lexer.defined && decide (s.lexer.lexer.getToken.1 ≠ .number ∨
        toInt (strtod s.lexer.lexer.digits) = some s.lexer.lexer.getToken.2.numberValue)) := by
    unfold Parser.ahead Parser.peeked Parser.peek
    rw [empty]
    exact ⟨rfl, rfl⟩
  rw [peek.1, peek.2]
  rcases call with eof | semicolon
  · rw [eof]
    exact ⟨rfl, by simp⟩
  · rw [semicolon]
    exact ⟨rfl, by simp⟩

end Tokens

/-! ## Expressions -/

/-- Derivations depend on the numbers of numbers and the identifiers of identifiers. -/
def Lexeme.Same (l l' : Lexeme) : Prop :=
  l.token = l'.token ∧ (l.token = .identifier → l.identifier = l'.identifier) ∧
    (l.token = .number → l.number = l'.number)

theorem same_append {p p₁ p₂ : List Lexeme} (same : List.Forall₂ Lexeme.Same p (p₁ ++ p₂)) :
    ∃ q₁ q₂, p = q₁ ++ q₂ ∧ List.Forall₂ Lexeme.Same q₁ p₁ ∧ List.Forall₂ Lexeme.Same q₂ p₂ :=
  ⟨p.take p₁.length, p.drop p₁.length, (List.take_append_drop _ _).symm,
    List.forall₂_take_append p p₁ p₂ same, List.forall₂_drop_append p p₁ p₂ same⟩

theorem same_cons {p p' : List Lexeme} {l : Lexeme}
    (same : List.Forall₂ Lexeme.Same p (l :: p')) :
    ∃ l' q, p = l' :: q ∧ l'.Same l ∧ List.Forall₂ Lexeme.Same q p' := by
  cases same with
  | cons head tail => exact ⟨_, _, rfl, head, tail⟩

/-- Derivations depend on the kinds of the lexemes, and on the values of words and numbers only. -/
theorem Derives.congr {shape : Shape} {level : Level} {p : List Lexeme} {e : Exp}
    (derives : Derives shape level p e) {q : List Lexeme} (same : List.Forall₂ Lexeme.Same q p) :
    Derives shape level q e := by
  induction derives generalizing q with
  | number isNumber =>
    rcases same_cons same with ⟨l, _, rfl, ⟨token, -, number⟩, ⟨⟩⟩
    have isNumber' := token.trans isNumber
    exact number isNumber' ▸ .number isNumber'
  | identifier isIdentifier =>
    rcases same_cons same with ⟨l, _, rfl, ⟨token, identifier, -⟩, ⟨⟩⟩
    have isIdentifier' := token.trans isIdentifier
    exact identifier isIdentifier' ▸ .identifier isIdentifier'
  | parens isLeft _ isRight ih =>
    rcases same_cons same with ⟨left, _, rfl, ⟨token, -⟩, same⟩
    rcases same_append same with ⟨q, _, rfl, inner, same⟩
    rcases same_cons same with ⟨right, _, rfl, ⟨token', -⟩, ⟨⟩⟩
    exact .parens (token.trans isLeft) (ih inner) (token'.trans isRight)
  | looser le _ ih => exact .looser le (ih same)
  | app _ _ ihFn ihArg =>
    rcases same_append same with ⟨q₁, q₂, rfl, fn, arg⟩
    exact .app (ihFn fn) (ihArg arg)
  | bop _ isOp _ ih1 ih2 =>
    rcases same_append same with ⟨q₁, _, rfl, arg1, same⟩
    rcases same_cons same with ⟨op, q₂, rfl, ⟨token, -⟩, arg2⟩
    exact .bop (ih1 arg1) (token.trans isOp) (ih2 arg2)
  | closed _ ih => exact .closed (ih same)
  | fn isFn isName isArrow _ ih =>
    rcases same_cons same with ⟨fn, _, rfl, ⟨token, -⟩, same⟩
    rcases same_cons same with ⟨x, _, rfl, ⟨token', identifier, -⟩, same⟩
    rcases same_cons same with ⟨arrow, q, rfl, ⟨token'', -⟩, body⟩
    have isName' := token'.trans isName
    exact identifier isName' ▸ .fn (token.trans isFn) isName' (token''.trans isArrow) (ih body)
  | ite isIf _ isThen _ isElse _ ih1 ih2 ih3 =>
    rcases same_cons same with ⟨if_, _, rfl, ⟨token, -⟩, same⟩
    rcases same_append same with ⟨q₁, _, rfl, cond, same⟩
    rcases same_cons same with ⟨then_, _, rfl, ⟨token', -⟩, same⟩
    rcases same_append same with ⟨q₂, _, rfl, thenBranch, same⟩
    rcases same_cons same with ⟨else_, q₃, rfl, ⟨token'', -⟩, elseBranch⟩
    exact .ite (token.trans isIf) (ih1 cond) (token'.trans isThen) (ih2 thenBranch)
      (token''.trans isElse) (ih3 elseBranch)

/-- What has been read of arithmetic derives what its spellings do. -/
theorem Derives.of_readAs {spellings : List Spelling} {p : List Lexeme} {e : Exp}
    (derives : Derives .ending .sum (spellings.map Spelling.lexeme) e)
    (arithmetic : ∀ spelling ∈ spellings, spelling.isArithmetic = true)
    (readAs : List.Forall₂ ReadAs spellings p) : Derives .ending .sum p e := by
  refine derives.congr ?_
  clear derives
  induction readAs with
  | nil => exact .nil
  | @cons spelling l spellings p first _ ih =>
    rcases List.forall_mem_cons.mp arithmetic with ⟨isArithmetic, others⟩
    refine .cons ⟨first.1, fun isName => ?_, fun isNumber => ?_⟩ (ih others)
    · rw [first.1] at isName
      cases spelling with
      | identifier name => cases isArithmetic
      | _ => cases isName
    · exact first.2 (first.1 ▸ isNumber)

/-- The parser, on a text that writes an expression of arithmetic, after a look at its first
token. -/
theorem parseExpression_arithmetic {p rest : List Spelling} {text : List Char} {e : Exp}
    (writes : Writes (p ++ rest) text) (ended : Ended rest)
    (arithmetic : ∀ spelling ∈ p, spelling.isArithmetic = true)
    (derives : Derives .ending .sum (p.map Spelling.lexeme) e) :
    ∃ fuel s, parseExpression defaultInfixBp fuel (Parser.new (CheckedLexer.new text)).peeked =
      .returned e s ∧ s.lexer.defined = p.all Spelling.fits := by
  rcases (facing_new text).reads arithmetic writes.space with
    ⟨q, s, reads, readAs, ⟨text', writes', facing⟩, defined⟩
  rcases facing.peeked ended writes' with ⟨rank, same⟩
  rcases (parseExpression_iff _ s.peeked e).mpr
    ⟨q, reads.peeked.of_peeked (Parser.peeked_peeked _), s.peeked_peeked,
      derives.of_readAs arithmetic readAs, by rw [Parser.ahead_peeked, rank]⟩ with ⟨fuel, ran⟩
  refine ⟨fuel, s.peeked, ran, ?_⟩
  rw [same, defined]
  exact Bool.true_and _

end Lambcalc.Parse
