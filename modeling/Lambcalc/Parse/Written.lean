import Lambcalc.Parse.Checked
import Lambcalc.Parse.Repl

/-!
# Reading a session as it is typed

The read loop on a text that writes the tokens of some expressions, in any layout, each with
semicolons after it. What comes back are the trees that the tokens derive.
-/

namespace Lambcalc.Parse

open Ast Lib

/-! ## Lexemes -/

/-- The name that a spelling stands for. -/
def Spelling.name : Spelling → String
  | identifier name => name
  | _ => ""

/-- The token with its lexeme. -/
def Spelling.written (spelling : Spelling) : Lexeme :=
  ⟨spelling.token, spelling.name, spelling.value⟩

/-- The tokens with a space after each. -/
def spaced (spellings : List Spelling) : List Char :=
  spellings.flatMap fun spelling => spelling.text ++ [' ']

theorem writes_spaced {spellings : List Spelling}
    (valid : ∀ spelling ∈ spellings, spelling.Valid) : Writes spellings (spaced spellings) := by
  have none : Blank [] := List.forall_mem_nil _
  induction spellings with
  | nil => exact .nil none
  | cons spelling spellings ih =>
    rcases List.forall_mem_cons.mp valid with ⟨first, others⟩
    have split : spaced (spelling :: spellings) =
        [] ++ (spelling.text ++ (' ' :: spaced spellings)) := by
      rw [List.nil_append, spaced, List.flatMap_cons, List.append_assoc]
      rfl
    rw [split]
    exact .cons none first (ih others).space fun _ _ _ => ⟨' ', rfl, rfl⟩

/-! ## The parser before a text -/

/-- The next tokens are these. -/
def Parser.Expects (s : Parser CharLexer) (spellings : List Spelling) : Prop :=
  ∃ text, s.Awaits text ∧ Writes spellings text

section Tokens

variable {s : Parser CharLexer} {spelling : Spelling} {spellings rest : List Spelling}

theorem expects_new {text : List Char} (writes : Writes spellings text) :
    (Parser.new (CharLexer.new text)).Expects spellings :=
  ⟨text, (before_new text).awaits, writes⟩

/-- The parser reads the next token, and what it stands for. -/
theorem Parser.Expects.advance (expects : s.Expects (spelling :: spellings))
    (inRange : spelling.InRange) :
    s.advance.lexeme.Same spelling.written ∧ s.advance.Expects spellings := by
  rcases expects with ⟨text, ⟨s₀, ⟨none, identifier, numberValue, lexes⟩, eq⟩, writes⟩
  rcases getToken_writes writes identifier numberValue with
    ⟨text', identifier', numberValue', writes', call, isLexeme⟩
  have advanced : s.advance =
      ⟨CharLexer.before text' identifier' numberValue', spelling.token, Option.none⟩ := by
    rw [← Parser.advance_peeked, ← eq, Parser.advance_peeked, Parser.advance_of_none none]
    show (⟨s₀.lexer.getToken.2, s₀.lexer.getToken.1, s₀.peekToken⟩ : Parser CharLexer) = _
    rw [lexes, call, none]
  have lexeme := isLexeme inRange
  rw [advanced]
  refine ⟨⟨rfl, fun isName => ?_, fun isNumber => ?_⟩, text',
    Parser.Before.awaits ⟨rfl, identifier', numberValue', rfl⟩, writes'⟩
  · cases spelling with
    | identifier name => exact lexeme
    | _ => cases isName
  · cases spelling with
    | number zeros value => exact lexeme.2
    | _ => cases isNumber

theorem Parser.Expects.ahead (expects : s.Expects (spelling :: spellings))
    (inRange : spelling.InRange) : s.ahead = spelling.token := by
  rw [← Parser.currentToken_advance]
  exact (expects.advance inRange).1.1

/-- The parser reads some tokens. -/
theorem Parser.Expects.reads (expects : s.Expects (spellings ++ rest))
    (inRange : ∀ spelling ∈ spellings, spelling.InRange) :
    ∃ p s', Reads s p s' ∧ List.Forall₂ Lexeme.Same p (spellings.map Spelling.written) ∧
      s'.Expects rest := by
  induction spellings generalizing s with
  | nil => exact ⟨[], s, .refl s, .nil, expects⟩
  | cons spelling spellings ih =>
    rcases List.forall_mem_cons.mp inRange with ⟨first, others⟩
    rcases expects.advance first with ⟨same, expects'⟩
    rcases ih expects' others with ⟨p, s', reads, sames, left⟩
    exact ⟨_, s', .token reads, .cons same sames, left⟩

theorem Parser.Expects.eof (expects : s.Expects []) : s.ahead = .eof := by
  rcases expects with ⟨text, ⟨s₀, ⟨none, identifier, numberValue, lexes⟩, eq⟩, writes⟩
  rw [← Parser.ahead_peeked, ← eq, Parser.ahead_peeked]
  unfold Parser.ahead Parser.peek
  rw [none]
  show s₀.lexer.getToken.1 = .eof
  rw [lexes, getToken_writes_nil writes]

theorem Parser.Expects.peeked (expects : s.Expects spellings) : s.peeked.Expects spellings := by
  rcases expects with ⟨text, ⟨s₀, before, eq⟩, writes⟩
  exact ⟨text, ⟨s₀, before, eq.trans (Parser.peeked_peeked s).symm⟩, writes⟩

end Tokens

/-! ## One expression -/

/-- An expression starts with no semicolon. -/
theorem Derives.head {shape : Shape} {level : Level} {p : List Lexeme} {e : Exp}
    (derives : Derives shape level p e) : ∃ l rest, p = l :: rest ∧ l.token ≠ .semicolon := by
  induction derives with
  | number isNumber => exact ⟨_, [], rfl, by rw [isNumber]; exact Token.noConfusion⟩
  | identifier isName => exact ⟨_, [], rfl, by rw [isName]; exact Token.noConfusion⟩
  | parens isLeft _ _ _ => exact ⟨_, _, rfl, by rw [isLeft]; exact Token.noConfusion⟩
  | looser _ _ ih => exact ih
  | app _ _ ih _ =>
    rcases ih with ⟨l, rest, rfl, other⟩
    exact ⟨l, _, rfl, other⟩
  | bop _ _ _ ih _ =>
    rcases ih with ⟨l, rest, rfl, other⟩
    exact ⟨l, _, rfl, other⟩
  | closed _ ih => exact ih
  | fn isFn _ _ _ _ => exact ⟨_, _, rfl, by rw [isFn]; exact Token.noConfusion⟩
  | ite isIf _ _ _ _ _ _ _ _ => exact ⟨_, _, rfl, by rw [isIf]; exact Token.noConfusion⟩

/-- An expression before a semicolon is parsed, with the semicolon in the buffer. -/
theorem Parser.Expects.expression {s : Parser CharLexer} {spellings rest : List Spelling} {e : Exp}
    (expects : s.Expects (spellings ++ .semicolon :: rest))
    (inRange : ∀ spelling ∈ spellings, spelling.InRange)
    (derives : Derives .ending .sum (spellings.map Spelling.written) e) :
    s.ahead ≠ .semicolon ∧ ∃ s', s'.Expects (.semicolon :: rest) ∧
      ∃ fuel, parseExpression defaultInfixBp fuel s.peeked = .returned e s' := by
  rcases expects.reads inRange with ⟨p, s', reads, same, left⟩
  have derived : Derives .ending .sum p e := derives.congr same
  rcases derived.head with ⟨l, p, rfl, other⟩
  refine ⟨reads.head ▸ other, s'.peeked, left.peeked, ?_⟩
  refine (parseExpression_iff _ _ e).mpr ⟨l :: p, reads.peeked.of_peeked (Parser.peeked_peeked s),
    Parser.peeked_peeked s', derived, ?_⟩
  rw [Parser.ahead_peeked, left.ahead trivial]
  rfl

/-! ## Sessions -/

/-- What is typed for one expression: its tokens, and the semicolons after the first one. -/
structure Typed where
  spellings : List Spelling
  more : Nat
  exp : Exp

namespace Typed

/-- The tokens of what is typed. -/
def tokens (typed : Typed) : List Spelling :=
  typed.spellings ++ List.replicate (typed.more + 1) .semicolon

/-- The tokens are those of the expression, and numbers are in range. -/
structure Grammatical (typed : Typed) : Prop where
  inRange : ∀ spelling ∈ typed.spellings, spelling.InRange
  derives : Derives .ending .sum (typed.spellings.map Spelling.written) typed.exp

end Typed

section Sessions

variable {events : List Event} {ending : Ending}

/-- `f 2 ; ;`. -/
def typedApplication : Typed :=
  ⟨[.identifier "f", .number 0 2], 1, .appExp (.varExp "f") (.intExp 2)⟩

theorem grammatical_typedApplication : typedApplication.Grammatical := by
  have fn : Derives .closed .atom [(Spelling.identifier "f").written] (.varExp "f") :=
    .identifier rfl
  have arg : Derives .closed .atom [(Spelling.number 0 2).written] (.intExp 2) := .number rfl
  refine ⟨?_, .closed (.looser (by decide) (.app (.looser (Level.rank_le _) fn) arg))⟩
  simp [typedApplication, Spelling.InRange]

theorem writes_typedApplication : Writes (List.replicate 1 .semicolon ++
    [typedApplication].flatMap Typed.tokens) (spaced [.semicolon, .identifier "f", .number 0 2,
      .semicolon, .semicolon]) := by
  have valid : ∀ spelling ∈ [Spelling.semicolon, .identifier "f", .number 0 2, .semicolon,
      .semicolon], spelling.Valid := by
    simp [Spelling.Valid]
    decide
  exact writes_spaced valid

end Sessions

end Lambcalc.Parse
