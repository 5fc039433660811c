import Lambcalc.Parse.Correct

/-!
# Parsing a stream of tokens

The parser over a lexer that hands out a stream of tokens and keeps only the last lexeme. Here
the number of tokens that have been consumed can be read off the state.
-/

namespace Lambcalc.Parse

open Ast Lib

/-- A stream of tokens, of which the first `position` have been lexed. -/
structure TokenStream where
  tokens : Nat → Lexeme
  position : Nat

/-- The token that has been lexed last. -/
def TokenStream.last (stream : TokenStream) : Option Lexeme :=
  match stream.position with
  | 0 => none
  | position + 1 => some (stream.tokens position)

instance : Lexer TokenStream where
  getToken stream :=
    ((stream.tokens stream.position).token, { stream with position := stream.position + 1 })
  getIdentifier stream := (stream.last.map Lexeme.identifier).getD ""
  getNumber stream := (stream.last.map Lexeme.number).getD 0

namespace Parser

/-- A token in the buffer is the one that has been lexed last. -/
def Valid (s : Parser TokenStream) : Prop :=
  ∀ token, s.peekToken = some token → s.lexer.last.map Lexeme.token = some token

/-- The number of tokens that have been lexed, without the one in the buffer. -/
def consumed (s : Parser TokenStream) : Nat :=
  match s.peekToken with
  | some _ => s.lexer.position - 1
  | none => s.lexer.position

/-- The next `n` tokens. -/
def upcoming (s : Parser TokenStream) (n : Nat) : List Lexeme :=
  (List.range n).map fun i => s.lexer.tokens (s.consumed + i)

theorem valid_new (stream : TokenStream) : (Parser.new stream).Valid :=
  fun _ buffered => nomatch buffered

section Steps

variable {s s' : Parser TokenStream}

theorem Valid.of_some {token : Token} (valid : s.Valid) (buffered : s.peekToken = some token) :
    s.lexer.position = s.consumed + 1 ∧ (s.lexer.tokens s.consumed).token = token := by
  have last := valid token buffered
  unfold TokenStream.last at last
  unfold consumed
  rw [buffered]
  cases position : s.lexer.position with
  | zero =>
    rw [position] at last
    cases last
  | succ n =>
    rw [position] at last
    exact ⟨rfl, Option.some.inj last⟩

/-- The next token is current, and has been lexed last. -/
theorem Valid.advance_eq (valid : s.Valid) : s.advance =
    ⟨⟨s.lexer.tokens, s.consumed + 1⟩, (s.lexer.tokens s.consumed).token, none⟩ := by
  cases buffered : s.peekToken with
  | some token =>
    obtain ⟨position, next⟩ := valid.of_some buffered
    unfold advance
    rw [buffered, next, ← position]
  | none =>
    unfold advance consumed
    rw [buffered]
    rfl

theorem peeked_of_some {token : Token} (buffered : s.peekToken = some token) : s.peeked = s := by
  unfold peeked peek
  rw [buffered]

theorem Valid.peeked_eq (valid : s.Valid) : s.peeked = ⟨⟨s.lexer.tokens, s.consumed + 1⟩,
    s.currentToken, some (s.lexer.tokens s.consumed).token⟩ := by
  cases buffered : s.peekToken with
  | some token =>
    obtain ⟨position, next⟩ := valid.of_some buffered
    rw [peeked_of_some buffered, next, ← position, ← buffered]
  | none =>
    unfold peeked peek consumed
    rw [buffered]
    rfl

theorem Valid.peeked (valid : s.Valid) : s.peeked.Valid := by
  rw [valid.peeked_eq]
  intro token buffered
  cases buffered
  rfl

theorem Valid.of_peeked (valid : s.peeked.Valid) : s.Valid := by
  intro token buffered
  rw [peeked_of_some buffered] at valid
  exact valid token buffered

theorem Valid.advance (valid : s.Valid) : s.advance.Valid := by
  rw [valid.advance_eq]
  exact fun _ buffered => nomatch buffered

theorem Valid.lexeme_eq (valid : s.Valid) : s.advance.lexeme = s.lexer.tokens s.consumed := by
  rw [valid.advance_eq]
  rfl

theorem Valid.ahead_eq (valid : s.Valid) : s.ahead = (s.lexer.tokens s.consumed).token := by
  rw [← currentToken_advance, valid.advance_eq]

theorem upcoming_succ (valid : s.Valid) (n : Nat) :
    s.upcoming (n + 1) = s.advance.lexeme :: s.advance.upcoming n := by
  rw [valid.lexeme_eq, valid.advance_eq]
  unfold upcoming
  rw [List.range_succ_eq_map, List.map_cons, List.map_map]
  refine congrArg _ (List.map_congr_left fun i _ => ?_)
  show s.lexer.tokens (s.consumed + (i + 1)) = s.lexer.tokens (s.consumed + 1 + i)
  rw [Nat.add_comm i, ← Nat.add_assoc]

theorem Valid.of_peeked_eq (valid : s.Valid) (eq : s.peeked = s'.peeked) :
    s'.Valid ∧ s'.lexer.tokens = s.lexer.tokens ∧ s'.consumed = s.consumed := by
  have valid' : s'.Valid := Valid.of_peeked (eq ▸ valid.peeked)
  have same := (valid.peeked_eq.symm.trans eq).trans valid'.peeked_eq
  injection same with lexer
  injection lexer with tokens position
  exact ⟨valid', tokens.symm, Nat.succ.inj position.symm⟩

/-- What has been read is a piece of the stream. -/
theorem upcoming_of_reads {p : List Lexeme} (reads : Reads s p s') (valid : s.Valid) :
    s'.Valid ∧ s'.lexer.tokens = s.lexer.tokens ∧ s'.consumed = s.consumed + p.length ∧
      p = s.upcoming p.length := by
  induction reads with
  | done eq =>
    obtain ⟨valid', tokens, consumed⟩ := valid.of_peeked_eq eq
    exact ⟨valid', tokens, consumed, rfl⟩
  | @token s s' p reads ih =>
    obtain ⟨valid', tokens, consumed, pieces⟩ := ih valid.advance
    rw [valid.advance_eq] at tokens consumed
    refine ⟨valid', tokens, ?_, ?_⟩
    · rw [consumed, List.length_cons]
      exact Nat.add_right_comm ..
    · rw [List.length_cons, upcoming_succ valid, ← pieces]

theorem reads_upcoming (valid : s.Valid) (n : Nat) : ∃ s', Reads s (s.upcoming n) s' := by
  induction n generalizing s with
  | zero => exact ⟨s, .refl s⟩
  | succ n ih =>
    obtain ⟨s', reads⟩ := ih valid.advance
    rw [upcoming_succ valid]
    exact ⟨s', .token reads⟩

end Steps

end Parser

theorem Token.rank_eq_zero_iff (token : Token) : token.rank = 0 ↔
    token ∉ [.plus, .minus, .times, .lParen, .number, .identifier] := by
  cases token <;> simp [Token.rank]

/-- For every stream of tokens, `parseExpression` returns a tree, having consumed the next `n`
tokens, exactly if these derive the tree and the token after them does not continue it. -/
theorem parseExpression_accepts_iff (s : Parser TokenStream) (valid : s.Valid) (e : Exp) (n : Nat) :
    (∃ fuel s', parseExpression defaultInfixBp fuel s = .returned e s' ∧
      s'.consumed = s.consumed + n) ↔
    Derives .ending .sum (s.upcoming n) e ∧
      (s.lexer.tokens (s.consumed + n)).token ∉
        [.plus, .minus, .times, .lParen, .number, .identifier] := by
  rw [← Token.rank_eq_zero_iff]
  constructor
  · intro accepts
    obtain ⟨fuel, s', ran, consumed⟩ := accepts
    obtain ⟨p, reads, -, derives, rank⟩ := (parseExpression_iff s s' e).mp ⟨fuel, ran⟩
    obtain ⟨valid', tokens, length, pieces⟩ := Parser.upcoming_of_reads reads valid
    obtain rfl : p.length = n := Nat.add_left_cancel (length.symm.trans consumed)
    rw [valid'.ahead_eq, tokens, consumed] at rank
    exact ⟨pieces ▸ derives, rank⟩
  · intro both
    obtain ⟨derives, rank⟩ := both
    obtain ⟨s', reads⟩ := Parser.reads_upcoming valid n
    obtain ⟨valid', tokens, length, -⟩ := Parser.upcoming_of_reads reads.peeked valid
    have consumed : s'.peeked.consumed = s.consumed + n := by
      rw [length, Parser.upcoming, List.length_map, List.length_range]
    rw [← consumed, ← tokens, ← valid'.ahead_eq] at rank
    obtain ⟨fuel, ran⟩ := (parseExpression_iff s s'.peeked e).mpr
      ⟨_, reads.peeked, Parser.peeked_peeked s', derives, rank⟩
    exact ⟨fuel, s'.peeked, ran, consumed⟩

/-- `f x ;`, again and again. -/
def callStream : TokenStream where
  tokens i := [⟨.identifier, "f", 0⟩, ⟨.identifier, "x", 0⟩, ⟨.semicolon, "x", 0⟩].getD (i % 3)
    ⟨.eof, "x", 0⟩
  position := 0

theorem parseExpression_accepts_iff_call : ∃ fuel s', parseExpression defaultInfixBp fuel
      (Parser.new callStream) = .returned (.appExp (.varExp "f") (.varExp "x")) s' ∧
    s'.consumed = (Parser.new callStream).consumed + 2 := by
  refine (parseExpression_accepts_iff _ (Parser.valid_new callStream) _ 2).mpr ⟨?_, by decide⟩
  have fn : Derives .closed .application [⟨.identifier, "f", 0⟩] (.varExp "f") :=
    .looser (by decide) (.identifier rfl)
  have arg : Derives .closed .atom [⟨.identifier, "x", 0⟩] (.varExp "x") := .identifier rfl
  exact .closed (.looser (by decide) (.app fn arg))

end Lambcalc.Parse
