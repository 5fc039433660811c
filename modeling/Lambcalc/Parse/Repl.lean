import Lambcalc.Parse.Print

/-!
# The read loop

The loop of `main` in `src/main.cpp`, up to what it does with an expression: that does not touch
the parser. A session of printed expressions is read back as these expressions.
-/

namespace Lambcalc.Parse

open Ast Lib

/-! ## The loop -/

/-- What a round of the loop comes to: an expression for the rest of its body, or the exception
that it reports. -/
inductive Event where
  | read (exp : Exp)
  | error (e : ParserException)
  deriving DecidableEq, Repr

/-- How the loop ends: by `break`, or by a failed `assert`. -/
inductive Ending where
  | broke
  | aborted (message : String)
  | unfinished
  deriving DecidableEq, Repr

/-- The loop of `main`. An exception leaves the parser as it was when it was thrown. -/
def readLoop {L : Type} [Lexer L] (infixBp : InfixBp) : Nat → Parser L → List Event × Ending
  | 0, _ => ([], .unfinished)
  | fuel + 1, parser =>
    -- If a peek token is already buffered, consume it.
    if parser.peekToken = some .semicolon then readLoop infixBp fuel parser.advance
    else
      let (token, parser) := parser.peek
      if token = .semicolon then readLoop infixBp fuel parser
      else
        match parseExpression infixBp fuel parser with
        | .returned exp parser =>
          let (events, ending) := readLoop infixBp fuel parser
          (.read exp :: events, ending)
        | .failed (.exception e) parser =>
          if e.abort then ([.error e], .broke)
          else
            let (events, ending) := readLoop infixBp fuel parser
            (.error e :: events, ending)
        | .failed (.assertion message) _ => ([], .aborted message)
        | .unfinished => ([], .unfinished)

/-- With enough fuel, the loop comes to this. -/
def Yields {L : Type} [Lexer L] (s : Parser L) (events : List Event) (ending : Ending) : Prop :=
  ∃ m, ∀ fuel ≥ m, readLoop defaultInfixBp fuel s = (events, ending)

section Rounds

variable {L : Type} [Lexer L] {s s' : Parser L} {events : List Event} {ending : Ending}

theorem peekToken_ne_of_ahead (other : s.ahead ≠ .semicolon) : s.peekToken ≠ some .semicolon := by
  intro buffered
  refine other ?_
  unfold Parser.ahead Parser.peek
  rw [buffered]

/-- A semicolon is skipped, in one round or in two. -/
theorem Yields.semicolon (rest : Yields s.advance events ending) (next : s.ahead = .semicolon) :
    Yields s events ending := by
  obtain ⟨m, ran⟩ := rest
  refine ⟨m + 2, fun fuel le => ?_⟩
  obtain ⟨fuel, rfl⟩ := Nat.exists_eq_add_of_le' le
  -- a token that is in the buffer after a look at it
  have buffered : s.peeked.peekToken = some .semicolon := by
    rw [← next]
    unfold Parser.peeked Parser.ahead Parser.peek
    cases token : s.peekToken with
    | some token => exact token
    | none => rfl
  show readLoop defaultInfixBp (fuel + m + 1 + 1) s = _
  by_cases already : s.peekToken = some .semicolon
  · rw [readLoop, if_pos already]
    exact ran _ (by omega)
  · rw [readLoop, if_neg already]
    show (if s.ahead = .semicolon then readLoop defaultInfixBp (fuel + m + 1) s.peeked else _) = _
    rw [if_pos next, readLoop, if_pos buffered, Parser.advance_peeked]
    exact ran _ (by omega)

/-- Any other token is where the parser starts. -/
theorem readLoop_other (other : s.ahead ≠ .semicolon) (fuel : Nat) :
    readLoop defaultInfixBp (fuel + 1) s =
      match parseExpression defaultInfixBp fuel s.peeked with
      | .returned exp parser =>
        (.read exp :: (readLoop defaultInfixBp fuel parser).1,
          (readLoop defaultInfixBp fuel parser).2)
      | .failed (.exception e) parser =>
        if e.abort then ([.error e], .broke)
        else (.error e :: (readLoop defaultInfixBp fuel parser).1,
          (readLoop defaultInfixBp fuel parser).2)
      | .failed (.assertion message) _ => ([], .aborted message)
      | .unfinished => ([], .unfinished) := by
  rw [readLoop, if_neg (peekToken_ne_of_ahead other)]
  exact if_neg other

theorem Yields.read (rest : Yields s' events ending) {exp : Exp} (other : s.ahead ≠ .semicolon)
    (parses : ∃ fuel, parseExpression defaultInfixBp fuel s.peeked = .returned exp s') :
    Yields s (.read exp :: events) ending := by
  obtain ⟨m, ran⟩ := rest
  obtain ⟨n, parses⟩ := parses
  refine ⟨max m n + 1, fun fuel le => ?_⟩
  obtain ⟨fuel, rfl⟩ := Nat.exists_eq_add_of_le' le
  have more : parseExpression defaultInfixBp (fuel + max m n) s.peeked = .returned exp s' :=
    (parseLevel_mono (by omega) .sum).returned parses
  rw [← Nat.add_assoc, readLoop_other other, more]
  dsimp only
  rw [ran _ (by omega)]

/-- At the end of the input, the exception aborts. -/
theorem yields_eof (next : s.ahead = .eof) :
    Yields s [.error ⟨"Invalid token: -1", true⟩] .broke := by
  refine ⟨2, fun fuel le => ?_⟩
  obtain ⟨fuel, rfl⟩ := Nat.exists_eq_add_of_le' le
  have next' : s.peeked.ahead = .eof := (Parser.ahead_peeked s).trans next
  have primary : parsePrimary (parseLevel fuel .sum) s.peeked.advance =
      .failed (.exception ⟨"Invalid token: -1", true⟩) s.peeked.advance := by
    rw [parsePrimary_of_token next']
    rfl
  have fails : parseExpression defaultInfixBp (fuel + 1) s.peeked =
      .failed (.exception ⟨"Invalid token: -1", true⟩) s.peeked.advance := by
    show parseLevel (fuel + 1) .sum s.peeked = _
    rw [parseLevel_succ, Computation.bind_of_failed primary]
  have other : s.ahead ≠ .semicolon := by
    rw [next]
    exact Token.noConfusion
  show readLoop defaultInfixBp (fuel + 1 + 1) s = _
  rw [readLoop_other other, fails]
  rfl

end Rounds

/-! ## Sessions -/

/-- Before a text, up to a look at its first token. -/
def Parser.Awaits (s : Parser CharLexer) (text : List Char) : Prop :=
  ∃ s₀ : Parser CharLexer, s₀.Before text ∧ s₀.peeked = s.peeked

section Sessions

variable {s : Parser CharLexer} {text : List Char} {events : List Event} {ending : Ending}

theorem Parser.Before.awaits (before : s.Before text) : s.Awaits text := ⟨s, before, rfl⟩

theorem Parser.Before.awaits_peeked (before : s.Before text) : s.peeked.Awaits text :=
  ⟨s, before, (Parser.peeked_peeked s).symm⟩

theorem Reads.of_awaits {s₀ s' : Parser CharLexer} {p : List Lexeme} (reads : Reads s₀ p s')
    (eq : s₀.peeked = s.peeked) : Reads s p s' := reads.of_peeked eq.symm

theorem Parser.Awaits.semicolon (awaits : s.Awaits (';' :: text)) :
    s.ahead = .semicolon ∧ s.advance.Awaits text := by
  obtain ⟨s₀, before, eq⟩ := awaits
  obtain ⟨l, s', reads, before', token⟩ := before.symbol rfl (by decide) rfl rfl
  have here := reads.of_awaits eq
  exact ⟨here.head.trans token, s', before', here.tail.2.nil.symm⟩

theorem Parser.Awaits.eof (awaits : s.Awaits []) : s.ahead = .eof := by
  obtain ⟨s₀, ⟨none, identifier, numberValue, lexes⟩, eq⟩ := awaits
  rw [← Parser.ahead_peeked, ← eq, Parser.ahead_peeked]
  unfold Parser.ahead Parser.peek
  rw [none]
  show (CharLexer.getToken s₀.lexer).1 = .eof
  rw [lexes, CharLexer.getToken_nil]

/-- A printed expression before a semicolon is parsed, with the semicolon in the buffer. -/
theorem Parser.Awaits.printExp {e : Exp} (printable : isPrintable e = true)
    (awaits : s.Awaits ((printExp e).toList ++ ';' :: text)) :
    s.ahead ≠ .semicolon ∧ ∃ s', s'.Awaits (';' :: text) ∧
      ∃ fuel, parseExpression defaultInfixBp fuel s.peeked = .returned e s' := by
  obtain ⟨s₀, before, eq⟩ := awaits
  have stops : Stops (';' :: text) := by
    intro c head
    cases head
    rfl
  obtain ⟨p, s', reads, before', derives⟩ := isRead_printExp printable s₀ _ stops before
  have here := reads.of_awaits eq
  obtain ⟨l, rest, rfl, starts⟩ := derives.atom_head rfl rfl
  constructor
  · intro semicolon
    rw [← here.head, semicolon] at starts
    cases starts
  · have next : s'.ahead = .semicolon := before'.awaits.semicolon.1
    refine ⟨s'.peeked, before'.awaits_peeked, (parseExpression_iff _ _ e).mpr
      ⟨l :: rest, here.peeked.of_peeked (Parser.peeked_peeked s), Parser.peeked_peeked s',
        .closed (.looser (by decide) derives), ?_⟩⟩
    rw [Parser.ahead_peeked, next]
    rfl

theorem yields_semicolons (n : Nat)
    (rest : ∀ s : Parser CharLexer, s.Awaits text → Yields s events ending) :
    ∀ s : Parser CharLexer, s.Awaits (List.replicate n ';' ++ text) → Yields s events ending := by
  induction n with
  | zero => exact rest
  | succ n ih =>
    intro s awaits
    obtain ⟨next, awaits'⟩ := Parser.Awaits.semicolon awaits
    exact (ih s.advance awaits').semicolon next

end Sessions

/-- Printed expressions, each with one semicolon and some more after it. -/
def printItems (items : List (Exp × Nat)) : List Char :=
  items.flatMap fun item => (printExp item.1).toList ++ List.replicate (item.2 + 1) ';'

/-- What is read of them. -/
def readItems (items : List (Exp × Nat)) : List Event :=
  items.map (fun item => .read item.1) ++ [.error ⟨"Invalid token: -1", true⟩]

/-- The loop reads printed expressions back, one event for each, and then meets the end. -/
theorem yields_printItems (items : List (Exp × Nat))
    (printable : ∀ item ∈ items, isPrintable item.1 = true) :
    ∀ s : Parser CharLexer, s.Awaits (printItems items) → Yields s (readItems items) .broke := by
  induction items with
  | nil => exact fun s awaits => yields_eof awaits.eof
  | cons item items ih =>
    intro s awaits
    have rest := ih fun item member => printable item (List.mem_cons_of_mem _ member)
    have text : printItems (item :: items) = (printExp item.1).toList ++
        ';' :: (List.replicate item.2 ';' ++ printItems items) := by
      unfold printItems
      rw [List.flatMap_cons, List.append_assoc, List.replicate_succ, List.cons_append]
    rw [text] at awaits
    obtain ⟨other, s', awaits', parses⟩ :=
      awaits.printExp (printable item List.mem_cons_self)
    exact (yields_semicolons (item.2 + 1) rest s' awaits').read other parses

/-- Reading undoes printing: with enough fuel, the loop reads the expressions of a session in
their order, and ends with the exception at the end of the input. -/
theorem readLoop_printed_session (n : Nat) (items : List (Exp × Nat))
    (printable : ∀ item ∈ items, isPrintable item.1 = true) :
    ∃ m, ∀ fuel ≥ m, readLoop defaultInfixBp fuel
        (Parser.new (CharLexer.new (List.replicate n ';' ++ printItems items))) =
      (items.map (fun item => .read item.1) ++ [.error ⟨"Invalid token: -1", true⟩], .broke) :=
  yields_semicolons n (yields_printItems items printable) _ (before_new _).awaits

/-- `;(fn x => (x + 1));;(f 2);` -/
theorem readLoop_printed_session_two : ∃ m, ∀ fuel ≥ m, readLoop defaultInfixBp fuel
      (Parser.new (CharLexer.new (List.replicate 1 ';' ++ printItems
        [(.lamExp "x" (.bopExp .plus (.varExp "x") (.intExp 1)), 1),
          (.appExp (.varExp "f") (.intExp 2), 0)]))) =
    ([.read (.lamExp "x" (.bopExp .plus (.varExp "x") (.intExp 1))),
      .read (.appExp (.varExp "f") (.intExp 2)), .error ⟨"Invalid token: -1", true⟩], .broke) :=
  readLoop_printed_session 1 _ (by decide)

end Lambcalc.Parse
