import Lambcalc.Parse.Lexer

/-!
# Printing

`PrintExpVisitor` of `src/visitor.cpp`, and what the lexer makes of what it prints: the tokens of
an atom of the grammar, since the printer puts everything but names and numbers into parentheses.
-/

namespace Lambcalc.Parse

open Ast

/-- `binOpString`. -/
def binOpString : Bop → String
  | .plus => "+"
  | .minus => "-"
  | .times => "*"

/-- `PrintExpVisitor`: what it writes to its stream. -/
def printExp : Exp → String
  | .intExp value => toString value
  | .varExp name => name
  | .lamExp param body => "(fn " ++ param ++ " => " ++ printExp body ++ ")"
  | .appExp fn arg => "(" ++ printExp fn ++ " " ++ printExp arg ++ ")"
  | .bopExp bop arg1 arg2 =>
    "(" ++ printExp arg1 ++ " " ++ binOpString bop ++ " " ++ printExp arg2 ++ ")"
  | .ifExp cond then_ els =>
    "(if " ++ printExp cond ++ " then " ++ printExp then_ ++ " else " ++ printExp els ++ ")"

/-- A name that the lexer reads as an identifier. -/
def isName (name : String) : Bool :=
  isIdentifier name && !(["fn", "if", "then", "else"].contains name)

theorem keyword_of_isName {name : String} (named : isName name = true) :
    CharLexer.keyword name = .identifier := by
  obtain ⟨identifier, notKeyword⟩ := Bool.and_eq_true_iff.mp named
  have arrow : name ≠ "=>" := by
    intro eq
    rw [eq] at identifier
    exact absurd identifier (by decide)
  simp only [List.contains_cons, List.contains_nil, Bool.or_false, Bool.not_eq_true',
    Bool.or_eq_false_iff, beq_eq_false_iff_ne] at notKeyword
  obtain ⟨fn, if_, then_, else_⟩ := notKeyword
  rw [CharLexer.keyword, if_neg fn, if_neg arrow, if_neg if_, if_neg then_, if_neg else_]

/-- The identifiers are names, and the integers are in the range of the numerals. -/
def isPrintable : Exp → Bool
  | .intExp value => 0 ≤ value && value ≤ 2 ^ 31 - 1
  | .varExp name => isName name
  | .lamExp param body => isName param && isPrintable body
  | .appExp fn arg => isPrintable fn && isPrintable arg
  | .bopExp _ arg1 arg2 => isPrintable arg1 && isPrintable arg2
  | .ifExp cond then_ els => isPrintable cond && isPrintable then_ && isPrintable els

/-! ## A parser before a text -/

/-- The next token comes from `text`. -/
def Parser.Before (s : Parser CharLexer) (text : List Char) : Prop :=
  s.peekToken = none ∧ ∃ identifier numberValue,
    s.lexer.getToken = (CharLexer.before text identifier numberValue).getToken

/-- The text does not go on with a letter or a digit. -/
def Stops (text : List Char) : Prop := ∀ c ∈ text.head?, c.isAlphanum = false

section Tokens

variable {s : Parser CharLexer} {text rest : List Char}

theorem before_new (text : List Char) : (Parser.new (CharLexer.new text)).Before text := by
  refine ⟨rfl, "", 0, ?_⟩
  show (CharLexer.new text).getToken = _
  rw [CharLexer.new_eq, CharLexer.getToken_space (by decide)]

/-- A space before the next token makes no difference. -/
theorem Parser.Before.space (before : s.Before (' ' :: text)) : s.Before text := by
  obtain ⟨none, identifier, numberValue, lexes⟩ := before
  refine ⟨none, identifier, numberValue, ?_⟩
  rw [lexes, CharLexer.getToken_space (by decide)]

/-- What the lexer does with the text, the parser does. -/
theorem Parser.Before.step {token : Token} (name : String → String) (value : Int → Int)
    (lexes : ∀ identifier numberValue,
      (CharLexer.before text identifier numberValue).getToken =
        (token, CharLexer.before rest (name identifier) (value numberValue)))
    (before : s.Before text) :
    ∃ l, Reads s [l] s.advance ∧ s.advance.Before rest ∧ l.token = token ∧
      (∃ identifier, l.identifier = name identifier) ∧ ∃ number, l.number = value number := by
  obtain ⟨none, identifier, numberValue, ran⟩ := before
  have advanced : s.advance = ⟨CharLexer.before rest (name identifier) (value numberValue), token,
      Option.none⟩ := by
    unfold Parser.advance
    rw [none]
    show (⟨(CharLexer.getToken s.lexer).2, (CharLexer.getToken s.lexer).1, Option.none⟩ :
      Parser CharLexer) = _
    rw [ran, lexes]
  refine ⟨s.advance.lexeme, .single s, ?_⟩
  rw [advanced]
  exact ⟨⟨rfl, _, _, rfl⟩, rfl, ⟨identifier, rfl⟩, numberValue, rfl⟩

/-- A character that is a token. -/
theorem Parser.Before.symbol {c : Char} (before : s.Before (c :: rest))
    (visible : isspace c = false) (ne : c ≠ '=') (alpha : c.isAlpha = false)
    (digit : c.isDigit = false) :
    ∃ l s', Reads s [l] s' ∧ s'.Before rest ∧ l.token = CharLexer.ofChar c := by
  obtain ⟨l, reads, before', token, -⟩ := before.step id id
    fun _ _ => CharLexer.getToken_symbol visible ne alpha digit
  exact ⟨l, s.advance, reads, before', token⟩

theorem Parser.Before.arrow (before : s.Before ('=' :: '>' :: rest)) :
    ∃ l s', Reads s [l] s' ∧ s'.Before rest ∧ l.token = .arrow := by
  obtain ⟨l, reads, before', token, -⟩ := before.step id id fun _ _ => CharLexer.getToken_arrow
  exact ⟨l, s.advance, reads, before', token⟩

theorem Parser.Before.word {name : String} (before : s.Before (name.toList ++ rest))
    (isName : isIdentifier name = true) (stops : Stops rest) :
    ∃ l s', Reads s [l] s' ∧ s'.Before rest ∧ l.token = CharLexer.keyword name ∧
      l.identifier = name := by
  obtain ⟨l, reads, before', token, ⟨_, identifier⟩, -⟩ := before.step (fun _ => name) id
    fun _ _ => CharLexer.getToken_word isName stops
  exact ⟨l, s.advance, reads, before', token, identifier⟩

theorem Parser.Before.numeral {n : Nat} (before : s.Before (Nat.toDigits 10 n ++ rest))
    (stops : Stops rest) :
    ∃ l s', Reads s [l] s' ∧ s'.Before rest ∧ l.token = .number ∧ l.number = n := by
  have digits : ∀ c ∈ rest.head?, c.isDigit = false := by
    intro c member
    exact (Bool.or_eq_false_iff.mp (stops c member)).2
  obtain ⟨l, reads, before', token, -, ⟨_, number⟩⟩ := before.step id (fun _ => n)
    fun _ _ => CharLexer.getToken_number digits
  exact ⟨l, s.advance, reads, before', token, number⟩

end Tokens

/-! ## Printed expressions -/

/-- Before a separator, the lexer makes of the text tokens that derive `e`. -/
def IsRead (text : List Char) (shape : Shape) (level : Level) (e : Exp) : Prop :=
  ∀ (s : Parser CharLexer) (rest : List Char), Stops rest → s.Before (text ++ rest) →
    ∃ p s', Reads s p s' ∧ s'.Before rest ∧ Derives shape level p e

section Texts

variable {text text1 text2 text3 : List Char} {e e1 e2 e3 : Exp}

theorem stops_space (text : List Char) : Stops (' ' :: text) := by
  intro c head
  cases head
  rfl

theorem stops_rParen (text : List Char) : Stops (')' :: text) := by
  intro c head
  cases head
  rfl

theorem isRead_name {name : String} (named : isName name = true) :
    IsRead name.toList .closed .atom (.varExp name) := by
  intro s rest stops before
  obtain ⟨identifier, notKeyword⟩ := Bool.and_eq_true_iff.mp named
  obtain ⟨l, s', reads, before', token, rfl⟩ := before.word identifier stops
  exact ⟨[l], s', reads, before', .identifier (token.trans (keyword_of_isName named))⟩

theorem isRead_numeral (n : Nat) : IsRead (Nat.toDigits 10 n) .closed .atom (.intExp n) := by
  intro s rest stops before
  obtain ⟨l, s', reads, before', token, number⟩ := before.numeral stops
  exact ⟨[l], s', reads, before', number ▸ .number token⟩

theorem IsRead.parens (inner : IsRead text .ending .sum e) :
    IsRead ('(' :: (text ++ [')'])) .closed .atom e := by
  intro s rest stops before
  rw [List.cons_append, List.append_assoc] at before
  obtain ⟨left, s1, reads1, before1, isLeft⟩ := before.symbol rfl (by decide) rfl rfl
  obtain ⟨p, s2, reads2, before2, derives⟩ := inner s1 _ (stops_rParen rest) before1
  obtain ⟨right, s3, reads3, before3, isRight⟩ := before2.symbol rfl (by decide) rfl rfl
  exact ⟨left :: (p ++ [right]), s3, reads1.append (reads2.append reads3), before3,
    .parens isLeft derives isRight⟩

theorem IsRead.lam {param : String} (named : isName param = true)
    (body : IsRead text .closed .atom e) :
    IsRead ("fn".toList ++ ' ' :: (param.toList ++ ' ' :: '=' :: '>' :: ' ' :: text)) .ending .sum
      (.lamExp param e) := by
  intro s rest stops before
  obtain ⟨identifier, -⟩ := Bool.and_eq_true_iff.mp named
  rw [List.append_assoc, List.cons_append, List.append_assoc] at before
  obtain ⟨fn, s1, reads1, before1, isFn, -⟩ := before.word (by decide) (stops_space _)
  obtain ⟨x, s2, reads2, before2, isIdentifier, rfl⟩ :=
    before1.space.word identifier (stops_space _)
  obtain ⟨arrow, s3, reads3, before3, isArrow⟩ := before2.space.arrow
  obtain ⟨p, s4, reads4, before4, derives⟩ := body s3 rest stops before3.space
  exact ⟨fn :: x :: arrow :: p, s4, reads1.append (reads2.append (reads3.append reads4)), before4,
    .fn isFn (isIdentifier.trans (keyword_of_isName named)) isArrow
      (.closed (.looser (by decide) derives))⟩

theorem IsRead.app (fn : IsRead text1 .closed .atom e1) (arg : IsRead text2 .closed .atom e2) :
    IsRead (text1 ++ ' ' :: text2) .ending .sum (.appExp e1 e2) := by
  intro s rest stops before
  rw [List.append_assoc] at before
  obtain ⟨p, s1, reads1, before1, derives1⟩ := fn s _ (stops_space _) before
  obtain ⟨q, s2, reads2, before2, derives2⟩ := arg s1 rest stops before1.space
  exact ⟨p ++ q, s2, reads1.append reads2, before2,
    .closed (.looser (by decide) (.app (.looser (by decide) derives1) derives2))⟩

theorem IsRead.bop (bop : Bop) (arg1 : IsRead text1 .closed .atom e1)
    (arg2 : IsRead text2 .closed .atom e2) :
    IsRead (text1 ++ ' ' :: ((binOpString bop).toList ++ ' ' :: text2)) .ending .sum
      (.bopExp bop e1 e2) := by
  intro s rest stops before
  rw [List.append_assoc, List.cons_append, List.append_assoc] at before
  obtain ⟨p, s1, reads1, before1, derives1⟩ := arg1 s _ (stops_space _) before
  have operator : ∃ op s2, Reads s1 [op] s2 ∧ s2.Before (' ' :: text2 ++ rest) ∧
      op.token = opToken bop := by
    cases bop with
    | plus => exact before1.space.symbol rfl (by decide) rfl rfl
    | minus => exact before1.space.symbol rfl (by decide) rfl rfl
    | times => exact before1.space.symbol rfl (by decide) rfl rfl
  obtain ⟨op, s2, reads2, before2, isOp⟩ := operator
  obtain ⟨q, s3, reads3, before3, derives2⟩ := arg2 s2 rest stops before2.space
  have positive : Level.sum.rank ≤ (opLevel bop).rank := by cases bop <;> decide
  exact ⟨p ++ op :: q, s3, reads1.append (reads2.append reads3), before3,
    .closed (.looser positive (.bop (.looser (Level.rank_le _) derives1) isOp
      (.looser (Level.rank_le _) derives2)))⟩

theorem IsRead.ite (cond : IsRead text1 .closed .atom e1) (then_ : IsRead text2 .closed .atom e2)
    (els : IsRead text3 .closed .atom e3) :
    IsRead ("if".toList ++ ' ' :: (text1 ++ ' ' :: ("then".toList ++ ' ' :: (text2 ++
      ' ' :: ("else".toList ++ ' ' :: text3))))) .ending .sum (.ifExp e1 e2 e3) := by
  intro s rest stops before
  simp only [List.append_assoc, List.cons_append] at before
  obtain ⟨l1, s1, reads1, before1, isIf, -⟩ := before.word (by decide) (stops_space _)
  obtain ⟨p, s2, reads2, before2, derives1⟩ := cond s1 _ (stops_space _) before1.space
  obtain ⟨l2, s3, reads3, before3, isThen, -⟩ :=
    before2.space.word (by decide) (stops_space _)
  obtain ⟨q, s4, reads4, before4, derives2⟩ := then_ s3 _ (stops_space _) before3.space
  obtain ⟨l3, s5, reads5, before5, isElse, -⟩ :=
    before4.space.word (by decide) (stops_space _)
  obtain ⟨r, s6, reads6, before6, derives3⟩ := els s5 rest stops before5.space
  exact ⟨l1 :: (p ++ l2 :: (q ++ l3 :: r)), s6,
    reads1.append (reads2.append (reads3.append (reads4.append (reads5.append reads6)))), before6,
    .ite isIf (.closed (.looser (by decide) derives1)) isThen
      (.closed (.looser (by decide) derives2)) isElse (.closed (.looser (by decide) derives3))⟩

/-- What is printed is read as an atom. -/
theorem isRead_printExp : ∀ {e : Exp}, isPrintable e = true →
    IsRead (printExp e).toList .closed .atom e
  | .intExp value, printable => by
    obtain ⟨nonneg, -⟩ := Bool.and_eq_true_iff.mp printable
    obtain ⟨n, rfl⟩ := Int.eq_ofNat_of_zero_le (of_decide_eq_true nonneg)
    have digits : (printExp (.intExp n)).toList = Nat.toDigits 10 n := by
      show (Nat.repr n).toList = _
      simp
    rw [digits]
    exact isRead_numeral n
  | .varExp name, printable => isRead_name printable
  | .lamExp param body, printable => by
    obtain ⟨named, inner⟩ := Bool.and_eq_true_iff.mp printable
    simpa [printExp] using ((isRead_printExp inner).lam named).parens
  | .appExp fn arg, printable => by
    obtain ⟨left, right⟩ := Bool.and_eq_true_iff.mp printable
    simpa [printExp] using ((isRead_printExp left).app (isRead_printExp right)).parens
  | .bopExp bop arg1 arg2, printable => by
    obtain ⟨left, right⟩ := Bool.and_eq_true_iff.mp printable
    simpa [printExp] using ((isRead_printExp left).bop bop (isRead_printExp right)).parens
  | .ifExp cond then_ els, printable => by
    obtain ⟨both, last⟩ := Bool.and_eq_true_iff.mp printable
    obtain ⟨first, second⟩ := Bool.and_eq_true_iff.mp both
    simpa [printExp] using ((isRead_printExp first).ite (isRead_printExp second)
      (isRead_printExp last)).parens

end Texts

end Lambcalc.Parse
