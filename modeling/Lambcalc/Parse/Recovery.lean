import Lambcalc.Parse.Remaining
import Lambcalc.Parse.Repl
import Lambcalc.Parse.Viable

/-!
# Recovery from parse errors

After an exception the read loop goes on with the input behind the token that it is about, as a
new parser would. So it comes to the end of every text, unless an assertion fails.
-/

namespace Lambcalc.Parse

open Ast Lib

/-! ## Rounds of the loop -/

/-- How a round of the read loop ends. -/
inductive Round (L : Type) where
  | continued (event : Option Event) (parser : Parser L)
  | broke (e : ParserException) (parser : Parser L)
  | aborted (message : String)
  | unfinished
  deriving DecidableEq, Repr

section Rounds

variable {L : Type} [Lexer L]

/-- The body of the read loop, up to what it does with an expression. -/
def readRound (infixBp : InfixBp) (fuel : Nat) (parser : Parser L) : Round L :=
  if parser.peekToken = some .semicolon then .continued none parser.advance
  else
    let (token, parser) := parser.peek
    if token = .semicolon then .continued none parser
    else
      match parseExpression infixBp fuel parser with
      | .returned exp parser => .continued (some (.read exp)) parser
      | .failed (.exception e) parser =>
        if e.abort then .broke e parser else .continued (some (.error e)) parser
      | .failed (.assertion message) _ => .aborted message
      | .unfinished => .unfinished

/-- The parser after a round. -/
def Round.parser : Round L → Option (Parser L)
  | continued _ parser => some parser
  | broke _ parser => some parser
  | aborted _ => none
  | unfinished => none

/-- The loop goes on after a round. -/
def Round.andThen (round : Round L) (loop : Parser L → List Event × Ending) :
    List Event × Ending :=
  match round with
  | continued event parser => (event.toList ++ (loop parser).1, (loop parser).2)
  | broke e _ => ([.error e], .broke)
  | aborted message => ([], .aborted message)
  | unfinished => ([], .unfinished)

variable {fuel : Nat} {s s' s'' : Parser L}

theorem readRound_buffered (buffered : s.peekToken = some .semicolon) :
    readRound defaultInfixBp fuel s = .continued none s.advance := if_pos buffered

theorem readRound_semicolon (unbuffered : s.peekToken ≠ some .semicolon)
    (next : s.ahead = .semicolon) : readRound defaultInfixBp fuel s = .continued none s.peeked :=
  (if_neg unbuffered).trans (if_pos next)

theorem readRound_other (other : s.ahead ≠ .semicolon) : readRound defaultInfixBp fuel s =
    match parseExpression defaultInfixBp fuel s.peeked with
    | .returned exp parser => .continued (some (.read exp)) parser
    | .failed (.exception e) parser =>
      if e.abort then .broke e parser else .continued (some (.error e)) parser
    | .failed (.assertion message) _ => .aborted message
    | .unfinished => .unfinished :=
  (if_neg (peekToken_ne_of_ahead other)).trans (if_neg other)

/-- The loop is its rounds. -/
theorem readLoop_succ : readLoop defaultInfixBp (fuel + 1) s =
    (readRound defaultInfixBp fuel s).andThen (readLoop defaultInfixBp fuel) := by
  by_cases buffered : s.peekToken = some .semicolon
  · rw [readRound_buffered buffered, readLoop, if_pos buffered]
    rfl
  by_cases next : s.ahead = .semicolon
  · rw [readRound_semicolon buffered next, readLoop, if_neg buffered]
    exact if_pos next
  · rw [readRound_other next, readLoop_other next]
    cases parseExpression defaultInfixBp fuel s.peeked with
    | returned exp parser => rfl
    | failed failure parser =>
      cases failure with
      | exception e => by_cases abort : e.abort = true <;> simp [abort, Round.andThen]
      | assertion message => rfl
    | unfinished => rfl

/-- What a round comes to that parses. -/
theorem readRound_cases (fuel : Nat) (other : s.ahead ≠ .semicolon) :
    (∃ exp s', parseExpression defaultInfixBp fuel s.peeked = .returned exp s' ∧
      readRound defaultInfixBp fuel s = .continued (some (.read exp)) s') ∨
    (∃ e s', parseExpression defaultInfixBp fuel s.peeked = .failed (.exception e) s' ∧
      e.abort = false ∧ readRound defaultInfixBp fuel s = .continued (some (.error e)) s') ∨
    (∃ e s', parseExpression defaultInfixBp fuel s.peeked = .failed (.exception e) s' ∧
      e.abort = true ∧ readRound defaultInfixBp fuel s = .broke e s') ∨
    (∃ message s', parseExpression defaultInfixBp fuel s.peeked = .failed (.assertion message) s' ∧
      readRound defaultInfixBp fuel s = .aborted message) ∨
    (parseExpression defaultInfixBp fuel s.peeked = .unfinished ∧
      readRound defaultInfixBp fuel s = .unfinished) := by
  rw [readRound_other other]
  cases parseExpression defaultInfixBp fuel s.peeked with
  | returned exp s' => exact .inl ⟨exp, s', rfl, rfl⟩
  | failed failure s' =>
    cases failure with
    | exception e =>
      cases abort : e.abort with
      | false => exact .inr (.inl ⟨e, s', rfl, abort, by simp [abort]⟩)
      | true => exact .inr (.inr (.inl ⟨e, s', rfl, abort, by simp [abort]⟩))
    | assertion message => exact .inr (.inr (.inr (.inl ⟨message, s', rfl, rfl⟩)))
  | unfinished => exact .inr (.inr (.inr (.inr ⟨rfl, rfl⟩)))

/-- A round that parses reads a token at least. -/
theorem readRound_reads (other : s.ahead ≠ .semicolon)
    (ran : (readRound defaultInfixBp fuel s).parser = some s') :
    ∃ p, p ≠ [] ∧ Reads s p s' := by
  have failed : ∀ {e}, parseExpression defaultInfixBp fuel s.peeked = .failed (.exception e) s' →
      ∃ p, p ≠ [] ∧ Reads s p s' := by
    intro e thrown
    rcases (parseExpression_failed_iff _ _ _).mp ⟨fuel, thrown⟩ with ⟨p, advances, fails⟩
    exact ⟨p, fails.ne_nil, advances.reads.of_peeked s.peeked_peeked.symm⟩
  rcases readRound_cases fuel other with ⟨exp, s₁, parsed, eq⟩ | ⟨e, s₁, thrown, -, eq⟩ |
    ⟨e, s₁, thrown, -, eq⟩ | ⟨message, s₁, -, eq⟩ | ⟨-, eq⟩
  · rw [eq] at ran
    cases ran
    rcases (parseExpression_iff _ _ _).mp ⟨fuel, parsed⟩ with ⟨p, reads, -, derives, -⟩
    exact ⟨p, derives.ne_nil, reads.of_peeked s.peeked_peeked.symm⟩
  · rw [eq] at ran
    cases ran
    exact failed thrown
  · rw [eq] at ran
    cases ran
    exact failed thrown
  · rw [eq] at ran
    cases ran
  · rw [eq] at ran
    cases ran

/-- So do any two successive rounds. -/
theorem readRound_twice {fuel' : Nat} {event : Option Event}
    (first : readRound defaultInfixBp fuel s = .continued event s')
    (second : (readRound defaultInfixBp fuel' s').parser = some s'') :
    ∃ p, p ≠ [] ∧ Reads s p s'' := by
  -- what a round has read is read in two rounds
  have later : ∀ {p}, p ≠ [] → Reads s p s' → ∃ p, p ≠ [] ∧ Reads s p s'' := by
    intro p nonempty reads
    by_cases next : s'.ahead = .semicolon
    · by_cases buffered : s'.peekToken = some .semicolon
      · rw [readRound_buffered buffered] at second
        cases second
        exact ⟨_, by simp, reads.append (.single s')⟩
      · rw [readRound_semicolon buffered next] at second
        cases second
        exact ⟨p, nonempty, reads.peeked⟩
    · rcases readRound_reads next second with ⟨q, -, reads'⟩
      exact ⟨p ++ q, by simp [nonempty], reads.append reads'⟩
  by_cases next : s.ahead = .semicolon
  · by_cases buffered : s.peekToken = some .semicolon
    · rw [readRound_buffered buffered] at first
      cases first
      exact later (List.cons_ne_nil _ []) (.single s)
    · rw [readRound_semicolon buffered next] at first
      cases first
      -- the semicolon is in the buffer now
      have isBuffered : s.peeked.peekToken = some .semicolon := next ▸ s.peekToken_peeked
      rw [readRound_buffered isBuffered] at second
      cases second
      rw [s.advance_peeked]
      exact ⟨_, List.cons_ne_nil _ [], .single s⟩
  · have ran : (readRound defaultInfixBp fuel s).parser = some s' := by rw [first]; rfl
    rcases readRound_reads next ran with ⟨p, nonempty, reads⟩
    exact later nonempty reads

/-! ## The end of the input -/

variable {n : Nat} {events : List Event} {ending : Ending}

/-- With enough fuel, a round does not depend on it. -/
theorem readRound_settles (ends : EndsIn s n) (other : s.ahead ≠ .semicolon) (fuel : Nat)
    (enough : 2 * n + 1 ≤ fuel) :
    readRound defaultInfixBp fuel s = readRound defaultInfixBp (2 * n + 1) s := by
  have ends' : EndsIn s.peeked n := ends.congr s.peeked_peeked.symm
  have finished : ∀ fuel, 2 * n + 1 ≤ fuel →
      parseExpression defaultInfixBp fuel s.peeked ≠ .unfinished :=
    fun fuel enough => (parse_ends fuel).1 n .sum s.peeked ends' enough
  rw [readRound_other other, readRound_other other,
    parseExpression_unique (finished fuel enough) (finished _ le_rfl)]

/-- The loop goes on after a round. -/
theorem Yields.round {event : Option Event} (rest : Yields s' events ending) {m : Nat}
    (ran : ∀ fuel ≥ m, readRound defaultInfixBp fuel s = .continued event s') :
    Yields s (event.toList ++ events) ending := by
  rcases rest with ⟨k, rest⟩
  refine ⟨max m k + 1, fun fuel le => ?_⟩
  rcases Nat.exists_eq_add_of_le' le with ⟨more, rfl⟩
  show readLoop defaultInfixBp (more + max m k + 1) s = _
  rw [readLoop_succ, ran _ (by omega), Round.andThen, rest _ (by omega)]

/-- If the tokens end, so does the loop: with the exception at the end of the input, which is the
first one that aborts, or with a failed assertion. -/
theorem yields_end (ends : EndsIn s n) :
    (∃ events, (∀ e, .error e ∈ events → e.abort = false) ∧
      Yields s (events ++ [.error (invalidToken .eof)]) .broke) ∨
    ∃ events message, Yields s events (.aborted message) := by
  induction n using Nat.strong_induction_on generalizing s with
  | _ n ih =>
    by_cases eof : s.ahead = .eof
    · exact .inl ⟨[], nofun, yields_eof eof⟩
    have pos := ends.pos eof
    by_cases semicolon : s.ahead = .semicolon
    · rcases ih (n - 1) (by omega) ends.advance with ⟨events, none, rest⟩ | ⟨events, message, rest⟩
      · exact .inl ⟨events, none, rest.semicolon semicolon⟩
      · exact .inr ⟨events, message, rest.semicolon semicolon⟩
    have settled := readRound_settles ends semicolon
    -- behind the tokens of a round
    have later : ∀ {event s'}, readRound defaultInfixBp (2 * n + 1) s = .continued event s' →
        (∀ e, event = some (.error e) → e.abort = false) →
        (∃ events, (∀ e, .error e ∈ events → e.abort = false) ∧
          Yields s (events ++ [.error (invalidToken .eof)]) .broke) ∨
        ∃ events message, Yields s events (.aborted message) := by
      intro event s' eq goesOn
      have ran : (readRound defaultInfixBp (2 * n + 1) s).parser = some s' := by rw [eq]; rfl
      rcases readRound_reads semicolon ran with ⟨p, nonempty, reads⟩
      have some : 0 < p.length := List.length_pos_iff.mpr nonempty
      have ran : ∀ fuel ≥ 2 * n + 1, readRound defaultInfixBp fuel s = .continued event s' :=
        fun fuel enough => (settled fuel enough).trans eq
      rcases ih (n - p.length) (by omega) (ends.reads reads) with
        ⟨events, none, rest⟩ | ⟨events, message, rest⟩
      · refine .inl ⟨event.toList ++ events, ?_, ?_⟩
        · intro e member
          rcases List.mem_append.mp member with first | last
          · exact goesOn e (Option.mem_toList.mp first)
          · exact none e last
        · rw [List.append_assoc]
          exact rest.round ran
      · exact .inr ⟨_, message, rest.round ran⟩
    rcases readRound_cases (2 * n + 1) semicolon with ⟨exp, s', -, eq⟩ |
      ⟨e, s', -, goesOn, eq⟩ | ⟨e, s', thrown, abort, eq⟩ | ⟨message, s', -, eq⟩ | ⟨stops, -⟩
    · exact later eq nofun
    · refine later eq ?_
      rintro e' ⟨⟩
      exact goesOn
    · rcases parseExpression_thrown thrown with ⟨-, p, l, -, -, -, -, rfl⟩
      have isEof : l.token = .eof := of_decide_eq_true abort
      refine .inl ⟨[], nofun, 2 * n + 2, fun fuel enough => ?_⟩
      rcases Nat.exists_eq_add_of_le' enough with ⟨more, rfl⟩
      show readLoop defaultInfixBp (more + (2 * n + 1) + 1) s = _
      rw [readLoop_succ, settled _ (by omega), eq, isEof]
      rfl
    · refine .inr ⟨[], message, 2 * n + 2, fun fuel enough => ?_⟩
      rcases Nat.exists_eq_add_of_le' enough with ⟨more, rfl⟩
      show readLoop defaultInfixBp (more + (2 * n + 1) + 1) s = _
      rw [readLoop_succ, settled _ (by omega), eq]
      rfl
    · have ends' : EndsIn s.peeked n := ends.congr s.peeked_peeked.symm
      exact absurd stops ((parse_ends (2 * n + 1)).1 n .sum s.peeked ends' le_rfl)

end Rounds

/-! ## A new parser -/

/-- The read loop goes on in the same way from parsers that are alike. -/
theorem readLoop_congr (fuel : Nat) {s t : Parser CharLexer} (alike : Alike s t) :
    readLoop defaultInfixBp fuel s = readLoop defaultInfixBp fuel t := by
  induction fuel generalizing s t with
  | zero => rfl
  | succ fuel ih =>
    rcases alike.peek with ⟨same, peeked⟩
    rw [readLoop_succ, readLoop_succ]
    by_cases buffered : s.peekToken = some .semicolon
    · rw [readRound_buffered buffered, readRound_buffered (alike.peekToken ▸ buffered)]
      rw [Round.andThen, Round.andThen, ih alike.advance.1]
    by_cases next : s.ahead = .semicolon
    · rw [readRound_semicolon buffered next,
        readRound_semicolon (alike.peekToken ▸ buffered) (same ▸ next)]
      rw [Round.andThen, Round.andThen, ih peeked]
    rw [readRound_other next, readRound_other (same ▸ next)]
    have related := parseExpression_oblivious defaultInfixBp fuel _ _ peeked
    generalize parseExpression defaultInfixBp fuel s.peeked = outcome at related
    generalize parseExpression defaultInfixBp fuel t.peeked = outcome' at related
    cases related with
    | returned alike' =>
      dsimp only
      rw [Round.andThen, Round.andThen, ih alike']
    | @failed failure s' t' alike' =>
      cases failure with
      | exception e =>
        dsimp only
        cases e.abort with
        | true => rfl
        | false => rw [if_neg (by simp), if_neg (by simp), Round.andThen, Round.andThen, ih alike']
      | assertion message => rfl
    | unfinished => rfl

/-- A new lexer and parser on the remaining input. -/
def Parser.fresh (s : Parser CharLexer) : Parser CharLexer :=
  Parser.new (CharLexer.new s.lexer.remaining)

/-- With an empty buffer, a parser is as good as a new one. -/
theorem alike_fresh {s : Parser CharLexer} (empty : s.peekToken = none) : Alike s s.fresh :=
  .of_upcoming empty rfl s.lexer.upcoming_new.symm

/-! ## Recovery -/

/-- Where `parseExpression` throws an exception, the tokens that it has consumed end in the first
one that no expression can start with, where one has to: what comes before is viable, and the
tokens that keep it so are those that an expression can start with. Nothing is buffered then, and
on the remaining input the parser gives the same results as a new one. So any two successive
rounds of the read loop consume a token, and on every text the loop ends with the exception that
aborts at the end of the input, unless an assertion fails. -/
theorem parseExpression_recovers :
    (∀ (L : Type) [Lexer L] (s s' : Parser L) (fuel : Nat) (e : ParserException),
      parseExpression defaultInfixBp fuel s = .failed (.exception e) s' →
      s'.peekToken = none ∧ ∃ p l, Advances s (p ++ [l]) s' ∧ Viable p ∧
        (∀ l', Viable (p ++ [l']) ↔ l'.token.starts = true) ∧ l.token.starts = false ∧
        e = invalidToken l.token) ∧
    (∀ (s s' : Parser CharLexer) (fuel : Nat) (e : ParserException),
      parseExpression defaultInfixBp fuel s = .failed (.exception e) s' →
      s'.lexer.remaining <:+ s.lexer.remaining ∧ ∀ fuel,
        (parseExpression defaultInfixBp fuel s').result =
          (parseExpression defaultInfixBp fuel s'.fresh).result ∧
        readLoop defaultInfixBp fuel s' = readLoop defaultInfixBp fuel s'.fresh) ∧
    (∀ (L : Type) [Lexer L] (s s' s'' : Parser L) (fuel fuel' : Nat) (event : Option Event),
      readRound defaultInfixBp fuel s = .continued event s' →
      (readRound defaultInfixBp fuel' s').parser = some s'' →
      ∃ p, p ≠ [] ∧ Reads s p s'') ∧
    ∀ s : Parser CharLexer,
      (∀ fuel message, (readLoop defaultInfixBp fuel s).2 ≠ .aborted message) →
      ∃ events, (∀ e, .error e ∈ events → e.abort = false) ∧
        Yields s (events ++ [.error (invalidToken .eof)]) .broke := by
  refine ⟨?thrown, ?remaining, ?rounds, ?loop⟩
  case thrown => exact fun L _ s s' fuel e thrown => parseExpression_thrown thrown
  case remaining =>
    intro s s' fuel e thrown
    rcases parseExpression_thrown thrown with ⟨empty, p, l, advances, -⟩
    have alike := alike_fresh empty
    exact ⟨advances.remaining, fun fuel =>
      ⟨(parseExpression_oblivious defaultInfixBp fuel _ _ alike).result, readLoop_congr fuel alike⟩⟩
  case rounds =>
    exact fun L _ s s' s'' fuel fuel' event first second => readRound_twice first second
  case loop =>
    intro s holds
    rcases endsIn_text s with ⟨n, ends⟩
    rcases yields_end ends with found | ⟨events, message, m, fails⟩
    · exact found
    · exact absurd (congrArg Prod.snd (fails m le_rfl)) (holds m message)

/-- In `1 + ) 2`, the parenthesis is the offending token. -/
theorem parseExpression_recovers_paren :
    (∃ s', parseExpression defaultInfixBp 9 (Parser.new (CharLexer.new "1 + ) 2".toList)) =
        .failed (.exception (invalidToken .rParen)) s' ∧
      s'.peekToken = none ∧ readLoop defaultInfixBp 9 s' =
        readLoop defaultInfixBp 9 (Parser.new (CharLexer.new " 2".toList))) ∧
    (∃ p s'', p ≠ [] ∧ Reads (Parser.new (CharLexer.new ";".toList)) p s'') ∧
    ∃ events, Yields (Parser.new (CharLexer.new [])) events .broke := by
  rcases parseExpression_recovers with ⟨thrown, remaining, rounds, loop⟩
  refine ⟨?_, ?_, ?_⟩
  · have ran : ∃ s', parseExpression defaultInfixBp 9
        (Parser.new (CharLexer.new "1 + ) 2".toList)) =
        .failed (.exception (invalidToken .rParen)) s' ∧
      s'.fresh = Parser.new (CharLexer.new " 2".toList) := ⟨_, rfl, rfl⟩
    rcases ran with ⟨s', ran, fresh⟩
    exact ⟨s', ran, (thrown _ _ _ _ _ ran).1, fresh ▸ ((remaining _ _ _ _ ran).2 9).2⟩
  · rcases rounds _ (Parser.new (CharLexer.new ";".toList)) _ _ 1 1 _ rfl rfl with ⟨p, some, reads⟩
    exact ⟨p, _, some, reads⟩
  · have holds : ∀ fuel message,
        (readLoop defaultInfixBp fuel (Parser.new (CharLexer.new []))).2 ≠ .aborted message := by
      intro fuel message
      match fuel with
      | 0 => exact nofun
      | 1 => exact nofun
      | fuel + 2 => exact nofun
    rcases loop _ holds with ⟨events, -, yields⟩
    exact ⟨_, yields⟩

end Lambcalc.Parse
