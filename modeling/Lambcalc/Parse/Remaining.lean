import Lambcalc.Parse.Errors

/-!
# The remaining input

What a parser does depends on its buffered token and on the text that its lexer has not read yet,
and on nothing else in it: not on the last lexemes, which are overwritten before they are used
again, nor on white space before the next token.
-/

namespace Lambcalc.Parse

open Ast Lib

namespace CharLexer

/-- The text that has not become a token yet, with the last character. -/
def remaining (lexer : CharLexer) : List Char :=
  match lexer.lastChar with
  | none => []
  | some c => c :: lexer.input

@[simp] theorem remaining_before (text : List Char) (identifier : String) (numberValue : Int) :
    (before text identifier numberValue).remaining = text := by
  cases text with
  | nil => rfl
  | cons c text => rfl

/-- The remaining text from the next token on. -/
def upcoming (lexer : CharLexer) : List Char := lexer.remaining.dropWhile isspace

theorem getToken_spaces (text : List Char) (identifier : String) (numberValue : Int) :
    getToken (before text identifier numberValue) =
      getToken (before (text.dropWhile isspace) identifier numberValue) := by
  induction text with
  | nil => rfl
  | cons c text ih =>
    by_cases space : isspace c = true
    · rw [getToken_space space, ih, List.dropWhile_cons_of_pos space]
    · rw [List.dropWhile_cons_of_neg space]

theorem eq_before {lexer : CharLexer} (more : lexer.remaining ≠ []) :
    lexer = before lexer.remaining lexer.identifier lexer.numberValue := by
  rcases lexer with ⟨input, lastChar, identifier, numberValue⟩
  cases lastChar with
  | none => exact absurd rfl more
  | some c => rfl

/-- Without another token, the lexer comes to the end of the input. -/
theorem getToken_of_nil {lexer : CharLexer} (nothing : lexer.upcoming = []) :
    (getToken lexer).1 = .eof ∧ (getToken lexer).2.remaining = [] := by
  by_cases more : lexer.remaining = []
  · rcases lexer with ⟨input, lastChar, identifier, numberValue⟩
    cases lastChar with
    | none => simp [getToken, takeWhile, readWhile, remaining]
    | some c => cases more
  · have empty : lexer.remaining.dropWhile isspace = [] := nothing
    rw [eq_before more, getToken_spaces, empty, getToken_nil]
    exact ⟨rfl, rfl⟩

theorem getToken_of_cons {lexer : CharLexer} {c : Char} {text : List Char}
    (next : lexer.upcoming = c :: text) :
    isspace c = false ∧
      getToken lexer = getToken (before (c :: text) lexer.identifier lexer.numberValue) := by
  have first : lexer.remaining.dropWhile isspace = c :: text := next
  have more : lexer.remaining ≠ [] := by
    intro empty
    rw [empty] at first
    cases first
  constructor
  · have stops := List.head?_dropWhile_not isspace lexer.remaining
    rw [first] at stops
    simpa using stops
  · conv_lhs => rw [eq_before more, getToken_spaces, first]

theorem keyword_ne_number (identifier : String) : keyword identifier ≠ .number := by
  unfold keyword
  repeat' split
  all_goals exact Token.noConfusion

theorem ofChar_ne (c : Char) : ofChar c ≠ .identifier ∧ ofChar c ≠ .number := by
  unfold ofChar
  repeat' split
  all_goals exact ⟨Token.noConfusion, Token.noConfusion⟩

/-- The next token, its lexeme and what is left only depend on what comes up. -/
theorem getToken_congr {lexer lexer' : CharLexer} (same : lexer.upcoming = lexer'.upcoming) :
    (getToken lexer).1 = (getToken lexer').1 ∧
    (getToken lexer).2.upcoming = (getToken lexer').2.upcoming ∧
    ((getToken lexer).1 = .identifier →
      (getToken lexer).2.identifier = (getToken lexer').2.identifier) ∧
    ((getToken lexer).1 = .number →
      (getToken lexer).2.numberValue = (getToken lexer').2.numberValue) := by
  cases next : lexer.upcoming with
  | nil =>
    rcases getToken_of_nil next with ⟨eof, left⟩
    rcases getToken_of_nil (same ▸ next) with ⟨eof', left'⟩
    rw [eof, eof']
    refine ⟨rfl, ?_, nofun, nofun⟩
    unfold upcoming
    rw [left, left']
  | cons c text =>
    rcases getToken_of_cons next with ⟨visible, eq⟩
    rcases getToken_of_cons (same ▸ next) with ⟨-, eq'⟩
    rw [eq, eq', getToken_cons visible, getToken_cons visible]
    unfold upcoming
    split
    · exact ⟨rfl, by simp, nofun, nofun⟩
    split
    · exact ⟨rfl, by simp, fun _ => rfl, fun isNumber => absurd isNumber (keyword_ne_number _)⟩
    split
    · exact ⟨rfl, by simp, nofun, fun _ => rfl⟩
    · exact ⟨rfl, by simp, fun isIdentifier => absurd isIdentifier (ofChar_ne c).1,
        fun isNumber => absurd isNumber (ofChar_ne c).2⟩

/-- What is left is the end of what was left before. -/
theorem remaining_getToken (lexer : CharLexer) :
    (getToken lexer).2.remaining <:+ lexer.remaining := by
  cases next : lexer.upcoming with
  | nil =>
    rw [(getToken_of_nil next).2]
    exact List.nil_suffix
  | cons c text =>
    rcases getToken_of_cons next with ⟨visible, eq⟩
    have whole : c :: text <:+ lexer.remaining := next ▸ List.dropWhile_suffix isspace
    refine List.IsSuffix.trans ?_ whole
    have behind : text <:+ c :: text := List.suffix_cons c text
    rw [eq, getToken_cons visible]
    split
    · exact (remaining_before _ _ _).symm ▸ (List.tail_suffix text).trans behind
    split
    · exact (remaining_before _ _ _).symm ▸ (List.dropWhile_suffix _).trans behind
    split
    · exact (remaining_before _ _ _).symm ▸ List.dropWhile_suffix _
    · exact (remaining_before _ _ _).symm ▸ behind

/-- A new lexer has the text before it, up to white space. -/
theorem upcoming_new (lexer : CharLexer) : (new lexer.remaining).upcoming = lexer.upcoming :=
  List.dropWhile_cons_of_pos rfl

end CharLexer

/-! ## Alike parsers -/

namespace Parser

variable {L : Type} [Lexer L] (s : Parser L)

theorem peekToken_peeked : s.peeked.peekToken = some s.ahead := by
  unfold peeked ahead peek
  split
  · assumption
  · rfl

theorem advance_of_some {token : Token} (buffered : s.peekToken = some token) :
    s.advance = { s with currentToken := token, peekToken := none } := by
  unfold advance
  rw [buffered]

end Parser

/-- So it is after some tokens. -/
theorem Advances.remaining {s s' : Parser CharLexer} {p : List Lexeme}
    (advances : Advances s p s') : s'.lexer.remaining <:+ s.lexer.remaining := by
  induction advances with
  | done => exact List.suffix_refl _
  | @token s s' p _ ih =>
    refine ih.trans ?_
    unfold Parser.advance
    cases s.peekToken with
    | some token => exact List.suffix_refl _
    | none => exact CharLexer.remaining_getToken s.lexer

/-- The parsers have the same token buffered, with the same lexeme, or none, and the same text
before them. -/
structure Alike (s t : Parser CharLexer) : Prop where
  peekToken : s.peekToken = t.peekToken
  upcoming : s.lexer.upcoming = t.lexer.upcoming
  identifier : s.peekToken = some .identifier → s.lexer.identifier = t.lexer.identifier
  number : s.peekToken = some .number → s.lexer.numberValue = t.lexer.numberValue

namespace Alike

variable {s t : Parser CharLexer}

/-- An empty buffer, and the same text. -/
theorem of_upcoming (empty : s.peekToken = none) (empty' : t.peekToken = none)
    (same : s.lexer.upcoming = t.lexer.upcoming) : Alike s t where
  peekToken := empty.trans empty'.symm
  upcoming := same
  identifier buffered := by rw [empty] at buffered; cases buffered
  number buffered := by rw [empty] at buffered; cases buffered

/-- A look at the next token shows the same one. -/
theorem peek (alike : Alike s t) : s.ahead = t.ahead ∧ Alike s.peeked t.peeked := by
  unfold Parser.ahead Parser.peeked Parser.peek
  cases buffered : s.peekToken with
  | some token =>
    rw [← alike.peekToken, buffered]
    exact ⟨rfl, alike⟩
  | none =>
    rw [← alike.peekToken, buffered]
    rcases CharLexer.getToken_congr alike.upcoming with ⟨token, upcoming, identifier, number⟩
    exact ⟨token, ⟨congrArg some token, upcoming, fun isSome => identifier (Option.some.inj isSome),
      fun isSome => number (Option.some.inj isSome)⟩⟩

/-- They read the same token, with the same lexeme. -/
theorem advance (alike : Alike s t) : Alike s.advance t.advance ∧
    (s.ahead = .identifier → s.advance.lexer.identifier = t.advance.lexer.identifier) ∧
    (s.ahead = .number → s.advance.lexer.numberValue = t.advance.lexer.numberValue) := by
  have peeked := alike.peek.2
  have buffered : s.peeked.peekToken = some s.ahead := s.peekToken_peeked
  have buffered' : t.peeked.peekToken = some t.ahead := t.peekToken_peeked
  rw [← s.advance_peeked, ← t.advance_peeked, s.peeked.advance_of_some buffered,
    t.peeked.advance_of_some buffered']
  exact ⟨.of_upcoming rfl rfl peeked.upcoming, fun eq => peeked.identifier (eq ▸ buffered),
    fun eq => peeked.number (eq ▸ buffered)⟩

end Alike

/-- `x` does the same from parsers that are alike. -/
def Oblivious {α : Type} (x : ParserM CharLexer α) : Prop :=
  ∀ s t, Alike s t → (x s).Related Alike (x t)

section Oblivious

variable {α β : Type} {s t : Parser CharLexer} {x : ParserM CharLexer Exp}

theorem Oblivious.bind {x : ParserM CharLexer α} {f : α → ParserM CharLexer β}
    (first : Oblivious x) (second : ∀ a, Oblivious (f a)) : Oblivious (x >>= f) :=
  fun s t alike => Computation.related_bind (first s t alike) second

theorem oblivious_pure (a : α) : Oblivious (pure a : ParserM CharLexer α) :=
  fun _ _ alike => .returned alike

/-- After an expected token, its lexeme is the same as well. -/
theorem related_expect {token : Token} {message : String} {f : Unit → ParserM CharLexer α}
    (alike : Alike s t)
    (rest : s.ahead = token → t.ahead = token → (f () s.advance).Related Alike (f () t.advance)) :
    ((nextToken >>= fun _ => assertToken token message >>= f) s).Related Alike
      ((nextToken >>= fun _ => assertToken token message >>= f) t) := by
  have same := alike.peek.1
  rw [expect_apply, expect_apply]
  by_cases eq : s.ahead = token
  · rw [if_pos eq, if_pos (same ▸ eq)]
    exact rest eq (same ▸ eq)
  · rw [if_neg eq, if_neg (same ▸ eq)]
    exact .failed alike.advance.1

theorem oblivious_expect {token : Token} {message : String} {f : Unit → ParserM CharLexer α}
    (rest : Oblivious (f ())) :
    Oblivious (nextToken >>= fun _ => assertToken token message >>= f) :=
  fun _ _ alike => related_expect alike fun _ _ => rest _ _ alike.advance.1

theorem oblivious_parseParens (parses : Oblivious x) : Oblivious (parseParens x) :=
  parses.bind fun e => oblivious_expect (oblivious_pure e)

theorem oblivious_parseIf (parses : Oblivious x) : Oblivious (parseIf x) :=
  parses.bind fun _ => oblivious_expect <| parses.bind fun _ => oblivious_expect <|
    parses.bind fun _ => oblivious_pure _

theorem oblivious_parseFn (parses : Oblivious x) : Oblivious (parseFn x) := by
  intro s t alike
  refine related_expect alike fun isName _ => ?_
  have same : Lexer.getIdentifier s.advance.lexer = Lexer.getIdentifier t.advance.lexer :=
    alike.advance.2.1 isName
  rw [getIdentifier, Computation.update_bind_apply, Computation.update_bind_apply, same]
  exact oblivious_expect (parses.bind fun _ => oblivious_pure _) _ _ alike.advance.1

/-- On parsers that are alike, a primary ends alike. -/
theorem related_parsePrimary (parses : Oblivious x) (alike : Alike s t) :
    (parsePrimary x s.advance).Related Alike (parsePrimary x t.advance) := by
  rcases alike.advance with ⟨alike', identifier, number⟩
  cases next : s.ahead with
  | lParen =>
    rw [parsePrimary_of_token next, parsePrimary_of_token (alike.peek.1 ▸ next)]
    exact oblivious_parseParens parses _ _ alike'
  | fn =>
    rw [parsePrimary_of_token next, parsePrimary_of_token (alike.peek.1 ▸ next)]
    exact oblivious_parseFn parses _ _ alike'
  | if_ =>
    rw [parsePrimary_of_token next, parsePrimary_of_token (alike.peek.1 ▸ next)]
    exact oblivious_parseIf parses _ _ alike'
  | number =>
    have same : s.advance.lexeme.number = t.advance.lexeme.number := number next
    rw [parsePrimary_of_token next, parsePrimary_of_token (alike.peek.1 ▸ next), same]
    exact .returned alike'
  | identifier =>
    have same : s.advance.lexeme.identifier = t.advance.lexeme.identifier := identifier next
    rw [parsePrimary_of_token next, parsePrimary_of_token (alike.peek.1 ▸ next), same]
    exact .returned alike'
  | _ =>
    rw [parsePrimary_of_token next, parsePrimary_of_token (alike.peek.1 ▸ next)]
    exact .failed alike'

/-- So does `parseBinOp`, and its loop. -/
theorem parse_oblivious (infixBp : InfixBp) (fuel : Nat) :
    (∀ minBP, Oblivious (parseBinOp infixBp fuel minBP)) ∧
    ∀ minBP lhs, Oblivious (parseOperators infixBp fuel minBP lhs) := by
  induction fuel with
  | zero => exact ⟨fun _ _ _ _ => .unfinished, fun _ _ _ _ _ => .unfinished⟩
  | succ fuel ih =>
    rcases ih with ⟨ihBinOp, ihOperators⟩
    constructor
    · intro minBP s t alike
      rw [parseBinOp, bind_nextToken, bind_nextToken]
      exact Computation.related_bind (related_parsePrimary (ihBinOp baseBP) alike)
        (ihOperators minBP)
    · intro minBP lhs s t alike
      rcases alike.peek with ⟨same, peeked⟩
      rw [parseOperators, bind_peekToken, bind_peekToken, same]
      cases parseOp t.ahead with
      | some bop =>
        dsimp only
        cases infixBp bop with
        | some powers =>
          rcases powers with ⟨lbp, rbp⟩
          dsimp only
          by_cases loose : lbp < minBP
          · rw [if_pos loose]
            exact .returned peeked
          · rw [if_neg loose]
            show ((nextToken >>= _) _).Related Alike ((nextToken >>= _) _)
            rw [bind_nextToken, bind_nextToken]
            exact ((ihBinOp rbp).bind fun rhs => ihOperators minBP _) _ _ peeked.advance.1
        | none => exact .returned peeked
      | none =>
        dsimp only
        by_cases argument : t.ahead = .lParen ∨ t.ahead = .number ∨ t.ahead = .identifier
        · rw [if_pos argument]
          by_cases loose : appLbp < minBP
          · rw [if_pos loose]
            exact .returned peeked
          · rw [if_neg loose]
            exact ((ihBinOp appRbp).bind fun rhs => ihOperators minBP _) _ _ peeked
        · rw [if_neg argument]
          exact .returned peeked

theorem parseExpression_oblivious (infixBp : InfixBp) (fuel : Nat) :
    Oblivious (parseExpression infixBp fuel) :=
  (parse_oblivious infixBp fuel).1 baseBP

end Oblivious

end Lambcalc.Parse
