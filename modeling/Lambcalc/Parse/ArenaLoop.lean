import Lambcalc.Parse.InArena
import Lambcalc.Parse.Remaining
import Lambcalc.Parse.Written

/-!
# The read loop in an arena

The loop of `main` in `src/main.cpp` with its arena, which each round starts with `reset`. What is
read is an address in it. An exception of the arena is no `ParserException`, and ends the process.
-/

namespace Lambcalc.Parse

open Ast Lib Arena

/-- What a round of the loop comes to: the address of an expression in the memory as it is then, or
the exception that it reports. -/
inductive ArenaEvent where
  | read (ptr : Address) (m : Memory)
  | error (e : ParserException)

/-- How the loop ends. -/
inductive ArenaEnding where
  | ended (ending : Ending)
  | thrown (e : Arena.Failure)

/-- The loop of `main`. What it does with an expression makes no nodes in the arena. -/
def InArena.readLoop {L : Type} [Lexer L] (T : ElementType) (infixBp : InfixBp) :
    Nat → Parser L → Memory → List ArenaEvent × ArenaEnding
  | 0, _, _ => ([], .ended .unfinished)
  | fuel + 1, parser, m =>
    let m := m.reset
    -- If a peek token is already buffered, consume it.
    if parser.peekToken = some .semicolon then InArena.readLoop T infixBp fuel parser.advance m
    else
      let (token, parser) := parser.peek
      if token = .semicolon then InArena.readLoop T infixBp fuel parser m
      else
        match InArena.parseExpression T infixBp fuel (parser, m) with
        | .returned ptr (parser, m) =>
          let (events, ending) := InArena.readLoop T infixBp fuel parser m
          (.read ptr m :: events, ending)
        | .failed (.inl (.exception e)) (parser, m) =>
          if e.abort then ([.error e], .ended .broke)
          else
            let (events, ending) := InArena.readLoop T infixBp fuel parser m
            (.error e :: events, ending)
        | .failed (.inl (.assertion message)) _ => ([], .ended (.aborted message))
        | .failed (.inr e) _ => ([], .thrown e)
        | .unfinished => ([], .ended .unfinished)

/-! ## Rounds -/

/-- How many nodes an expression may have. -/
def capacity (buffer : Buffer) (T : ElementType) : Nat := (Memory.start buffer).slots T

theorem Memory.Good.slots_reset {buffer : Buffer} {T : ElementType} {m : Memory}
    (good : m.Good buffer T) : m.reset.slots T = capacity buffer T := by
  have same : m.reset.state.arena = (Memory.start buffer).state.arena := by
    show (⟨_, _, _⟩ : Allocator) = ⟨_, _, _⟩
    rw [good.sound.orig, good.sound.end_]
  unfold capacity Memory.slots
  rw [same]

/-- The expression is at this address, with its nodes in different blocks of the arena. -/
def Memory.Contains (buffer : Buffer) (T : ElementType) (m : Memory) (ptr : Address) (e : Exp) :
    Prop := m.Good buffer T ∧ ∃ as, TreeAt m.cells ptr e as ∧ as.Nodup

theorem Holds.contains {buffer : Buffer} {T : ElementType} {m m' : Memory} {e : Exp}
    {ptr : Address} (held : Holds buffer T m e m' ptr) : m'.Contains buffer T ptr e := by
  rcases held with ⟨as, tree, grown⟩
  exact ⟨grown.good, as, tree, grown.nodup⟩

section Rounds

variable {L : Type} [Lexer L] {T : ElementType} {infixBp : InfixBp} {fuel : Nat} {s : Parser L}
  {m : Memory}

theorem InArena.readLoop_buffered (buffered : s.peekToken = some .semicolon) :
    InArena.readLoop T infixBp (fuel + 1) s m =
      InArena.readLoop T infixBp fuel s.advance m.reset := by
  rw [InArena.readLoop]
  exact if_pos buffered

theorem InArena.readLoop_semicolon (notBuffered : s.peekToken ≠ some .semicolon)
    (next : s.ahead = .semicolon) : InArena.readLoop T infixBp (fuel + 1) s m =
      InArena.readLoop T infixBp fuel s.peeked m.reset := by
  rw [InArena.readLoop]
  dsimp only
  rw [if_neg notBuffered]
  exact if_pos next

/-- A token that is no semicolon is where the parser starts. -/
theorem InArena.readLoop_other (other : s.ahead ≠ .semicolon) :
    InArena.readLoop T infixBp (fuel + 1) s m =
      match InArena.parseExpression T infixBp fuel (s.peeked, m.reset) with
      | .returned ptr (parser, m) =>
        (.read ptr m :: (InArena.readLoop T infixBp fuel parser m).1,
          (InArena.readLoop T infixBp fuel parser m).2)
      | .failed (.inl (.exception e)) (parser, m) =>
        if e.abort then ([.error e], .ended .broke)
        else (.error e :: (InArena.readLoop T infixBp fuel parser m).1,
          (InArena.readLoop T infixBp fuel parser m).2)
      | .failed (.inl (.assertion message)) _ => ([], .ended (.aborted message))
      | .failed (.inr e) _ => ([], .thrown e)
      | .unfinished => ([], .ended .unfinished) := by
  rw [InArena.readLoop]
  dsimp only
  rw [if_neg (peekToken_ne_of_ahead other)]
  exact if_neg other

end Rounds

/-! ## Any input -/

/-- What becomes of the rounds of the loop in an arena: each expression that is read is in memory,
until a round in which the arena is full. That round would not have read an expression that fits. -/
inductive Fits (buffer : Buffer) (T : ElementType) :
    List Event → Ending → List ArenaEvent → ArenaEnding → Prop
  | ended {ending : Ending} : Fits buffer T [] ending [] (.ended ending)
  | read {e : Exp} {ptr : Address} {m : Memory} {events : List Event} {ending : Ending}
    {events' : List ArenaEvent} {ending' : ArenaEnding} : e.size ≤ capacity buffer T →
    m.Contains buffer T ptr e → Fits buffer T events ending events' ending' →
    Fits buffer T (.read e :: events) ending (.read ptr m :: events') ending'
  | error {e : ParserException} {events : List Event} {ending : Ending}
    {events' : List ArenaEvent} {ending' : ArenaEnding} :
    Fits buffer T events ending events' ending' →
    Fits buffer T (.error e :: events) ending (.error e :: events') ending'
  | full {events : List Event} {ending : Ending} :
    (∀ e, events.head? = some (.read e) → capacity buffer T < e.size) →
    Fits buffer T events ending [] (.thrown .badAlloc)

/-- On every input, the loop in an arena does what the loop does, with each expression in memory, as
long as no round takes more nodes than the arena has room for. -/
theorem readLoop_inArena {L : Type} [Lexer L] {buffer : Buffer} {T : ElementType}
    (whole : T.align ∣ T.size) (infixBp : InfixBp) (fuel : Nat) (s : Parser L) (m : Memory)
    (good : m.Good buffer T) :
    Fits buffer T (readLoop infixBp fuel s).1 (readLoop infixBp fuel s).2
      (InArena.readLoop T infixBp fuel s m).1 (InArena.readLoop T infixBp fuel s m).2 := by
  induction fuel generalizing s m with
  | zero => exact .ended
  | succ fuel ih =>
    rw [readLoop, InArena.readLoop]
    dsimp only
    by_cases buffered : s.peekToken = some .semicolon
    · rw [if_pos buffered, if_pos buffered]
      exact ih _ _ good.reset
    rw [if_neg buffered, if_neg buffered]
    rcases s.peek with ⟨token, parser⟩
    dsimp only
    by_cases isSemicolon : token = .semicolon
    · rw [if_pos isSemicolon, if_pos isSemicolon]
      exact ih _ _ good.reset
    rw [if_neg isSemicolon, if_neg isSemicolon]
    have room : m.reset.slots T = capacity buffer T := good.slots_reset
    have outcome := limited_parseExpression whole good.reset infixBp fuel parser
    generalize parseExpression infixBp fuel parser = o at outcome ⊢
    generalize InArena.parseExpression T infixBp fuel (parser, m.reset) = o' at outcome ⊢
    cases outcome with
    | returned held taken => exact .read (by omega) held.contains (ih _ _ held.good)
    | @failed e _ _ kept =>
      cases e with
      | exception e =>
        dsimp only
        split
        · exact .error .ended
        · exact .error (ih _ _ kept)
      | assertion message => exact .ended
    | unfinished => exact .ended
    | full short =>
      refine .full fun e head => ?_
      rcases o with ⟨a, s'⟩ | ⟨e' | message, s'⟩ | _
      · have large := short a s' rfl
        cases head
        omega
      · dsimp only at head
        split at head
        · cases head
        · cases head
      · cases head
      · cases head

/-- `f x;`, in a buffer for three nodes. -/
theorem readLoop_inArena_full :
    let rounds := InArena.readLoop expType defaultInfixBp 9
      (Parser.new (CharLexer.new ['f', ' ', 'x', ';'])) (.start ⟨4096, 4240, by decide, by decide⟩)
    rounds.1 = [] ∧ rounds.2 = .thrown .badAlloc := by
  have plain : readLoop defaultInfixBp 9 (Parser.new (CharLexer.new ['f', ' ', 'x', ';'])) =
      ([.read (.appExp (.varExp "f") (.varExp "x")), .error ⟨"Invalid token: -1", true⟩],
        .broke) := rfl
  have whole : expType.align ∣ expType.size := by decide
  have fits := readLoop_inArena whole defaultInfixBp 9
    (Parser.new (CharLexer.new ['f', ' ', 'x', ';'])) _
    (Memory.good_start ⟨4096, 4240, by decide, by decide⟩ expType)
  rw [plain] at fits
  dsimp only at fits ⊢
  generalize InArena.readLoop (L := CharLexer) expType defaultInfixBp 9 _ _ = rounds at fits ⊢
  rcases rounds with ⟨events, ending⟩
  cases fits with
  | read size _ _ => exact absurd size (by decide)
  | full _ => exact ⟨rfl, rfl⟩

/-! ## Sessions -/

/-- With enough fuel, the loop comes to something with `P`, whatever is in the arena before. -/
def YieldsInArena {L : Type} [Lexer L] (buffer : Buffer) (T : ElementType) (s : Parser L)
    (P : List ArenaEvent → ArenaEnding → Prop) : Prop :=
  ∃ n, ∀ fuel ≥ n, ∀ m, m.Good buffer T →
    P (InArena.readLoop T defaultInfixBp fuel s m).1 (InArena.readLoop T defaultInfixBp fuel s m).2

section Yields

variable {L : Type} [Lexer L] {buffer : Buffer} {T : ElementType} {s s' : Parser L} {e : Exp}
  {P Q : List ArenaEvent → ArenaEnding → Prop}

/-- A semicolon is skipped, in one round or in two. -/
theorem YieldsInArena.semicolon (rest : YieldsInArena buffer T s.advance P)
    (next : s.ahead = .semicolon) : YieldsInArena buffer T s P := by
  rcases rest with ⟨n, ran⟩
  refine ⟨n + 2, fun fuel le m good => ?_⟩
  rcases Nat.exists_eq_add_of_le' le with ⟨fuel, rfl⟩
  have buffered : s.peeked.peekToken = some .semicolon :=
    s.peekToken_peeked.trans (congrArg some next)
  rw [show fuel + (n + 2) = fuel + n + 1 + 1 from rfl]
  by_cases already : s.peekToken = some .semicolon
  · rw [InArena.readLoop_buffered already]
    exact ran _ (by omega) _ good.reset
  · rw [InArena.readLoop_semicolon already next, InArena.readLoop_buffered buffered,
      Parser.advance_peeked]
    exact ran _ (by omega) _ good.reset.reset

/-- What the first round with another token comes to. -/
theorem YieldsInArena.round (whole : T.align ∣ T.size) (other : s.ahead ≠ .semicolon)
    (parses : ∃ fuel, parseExpression defaultInfixBp fuel s.peeked = .returned e s')
    (rest : YieldsInArena buffer T s' Q)
    (read : e.size ≤ capacity buffer T → ∀ ptr m events ending, m.Contains buffer T ptr e →
      Q events ending → P (.read ptr m :: events) ending)
    (full : capacity buffer T < e.size → P [] (.thrown .badAlloc)) :
    YieldsInArena buffer T s P := by
  rcases rest with ⟨n, ran⟩
  rcases parses with ⟨n', parses⟩
  refine ⟨max n n' + 1, fun fuel le m good => ?_⟩
  rcases Nat.exists_eq_add_of_le' le with ⟨fuel, rfl⟩
  have more : parseExpression defaultInfixBp (fuel + max n n') s.peeked = .returned e s' :=
    (parseLevel_mono (by omega) .sum).returned parses
  have room : m.reset.slots T = capacity buffer T := good.slots_reset
  have outcome := limited_parseExpression whole good.reset defaultInfixBp (fuel + max n n') s.peeked
  rw [more] at outcome
  rw [← Nat.add_assoc, InArena.readLoop_other other]
  generalize InArena.parseExpression T defaultInfixBp (fuel + max n n') (s.peeked, m.reset) = o
    at outcome ⊢
  cases outcome with
  | returned held taken =>
    exact read (by omega) _ _ _ _ held.contains (ran _ (by omega) _ held.good)
  | full short =>
    have large := short e s' rfl
    exact full (by omega)

/-- At the end of the input nothing is allocated, and the exception aborts. -/
theorem YieldsInArena.eof (next : s.ahead = .eof)
    (ended : P [.error ⟨"Invalid token: -1", true⟩] (.ended .broke)) :
    YieldsInArena buffer T s P := by
  refine ⟨2, fun fuel le m _ => ?_⟩
  rcases Nat.exists_eq_add_of_le' le with ⟨fuel, rfl⟩
  have current : s.peeked.advance.currentToken = .eof :=
    (Parser.currentToken_advance _).trans ((Parser.ahead_peeked s).trans next)
  have advanced : Computation.aside (φ := Arena.Failure) nextToken (s.peeked, m.reset) =
      .returned () (s.peeked.advance, m.reset) := rfl
  have primary : InArena.parsePrimary (InArena.make T) (InArena.parseBinOp (InArena.make T)
      defaultInfixBp fuel baseBP) (s.peeked.advance, m.reset) =
        .failed (.inl (.exception ⟨"Invalid token: -1", true⟩)) (s.peeked.advance, m.reset) := by
    have token : Computation.aside (φ := Arena.Failure) getCurrentToken
        (s.peeked.advance, m.reset) = .returned .eof (s.peeked.advance, m.reset) := by
      rw [← current]
      rfl
    rw [InArena.parsePrimary, Computation.bind_of_returned token]
    rfl
  have fails : InArena.parseExpression T defaultInfixBp (fuel + 1) (s.peeked, m.reset) =
      .failed (.inl (.exception ⟨"Invalid token: -1", true⟩)) (s.peeked.advance, m.reset) := by
    rw [InArena.parseExpression, InArena.parseBinOp, Computation.bind_of_returned advanced,
      Computation.bind_of_failed primary]
  have other : s.ahead ≠ .semicolon := by
    rw [next]
    exact Token.noConfusion
  rw [show fuel + 2 = fuel + 1 + 1 from rfl, InArena.readLoop_other other, fails]
  exact ended

end Yields

/-- What the loop in an arena comes to in a session: each expression, at an address where it lies,
up to the first one with more nodes than there is room for, or else up to the end of the input. -/
inductive Shown (buffer : Buffer) (T : ElementType) :
    List Typed → List ArenaEvent → ArenaEnding → Prop
  | eof : Shown buffer T [] [.error ⟨"Invalid token: -1", true⟩] (.ended .broke)
  | read {typed : Typed} {session : List Typed} {ptr : Address} {m : Memory}
    {events : List ArenaEvent} {ending : ArenaEnding} : typed.exp.size ≤ capacity buffer T →
    m.Contains buffer T ptr typed.exp → Shown buffer T session events ending →
    Shown buffer T (typed :: session) (.read ptr m :: events) ending
  | full {typed : Typed} {session : List Typed} : capacity buffer T < typed.exp.size →
    Shown buffer T (typed :: session) [] (.thrown .badAlloc)

section Sessions

variable {buffer : Buffer} {T : ElementType} {P : List ArenaEvent → ArenaEnding → Prop}

theorem yieldsInArena_replicate {rest : List Spelling} (n : Nat)
    (yields : ∀ s : Parser CharLexer, s.Expects rest → YieldsInArena buffer T s P) :
    ∀ s : Parser CharLexer, s.Expects (List.replicate n .semicolon ++ rest) →
      YieldsInArena buffer T s P := by
  induction n with
  | zero => exact yields
  | succ n ih =>
    intro s expects
    exact (ih s.advance (expects.advance trivial).2).semicolon (expects.ahead trivial)

theorem yieldsInArena_typed (whole : T.align ∣ T.size) (session : List Typed)
    (grammatical : ∀ typed ∈ session, typed.Grammatical) :
    ∀ s : Parser CharLexer, s.Expects (session.flatMap Typed.tokens) →
      YieldsInArena buffer T s (Shown buffer T session) := by
  induction session with
  | nil => exact fun s expects => .eof expects.eof .eof
  | cons typed session ih =>
    intro s expects
    rcases List.forall_mem_cons.mp grammatical with ⟨first, others⟩
    rw [List.flatMap_cons, Typed.tokens, List.replicate_succ, List.append_assoc,
      List.cons_append] at expects
    rcases expects.expression first.inRange first.derives with ⟨other, s', left, parses⟩
    have left : s'.Expects (List.replicate (typed.more + 1) .semicolon ++
        session.flatMap Typed.tokens) := left
    exact .round whole other parses (yieldsInArena_replicate _ (ih others) s' left)
      (fun fits _ _ _ _ contained shown => .read fits contained shown) .full

/-- On a text that writes expressions, in any layout, with semicolons before and after each, the
loop in an arena reads these expressions, each into memory, as long as each has at most as many
nodes as fit into the arena. At the first one that has more, `std::bad_alloc` ends the process. -/
theorem readLoop_inArena_typed_session (whole : T.align ∣ T.size) (n : Nat) (session : List Typed)
    (grammatical : ∀ typed ∈ session, typed.Grammatical) {text : List Char}
    (writes : Writes (List.replicate n .semicolon ++ session.flatMap Typed.tokens) text) :
    YieldsInArena buffer T (Parser.new (CharLexer.new text)) (Shown buffer T session) :=
  yieldsInArena_replicate n (yieldsInArena_typed whole session grammatical) _ (expects_new writes)

/-- `; f 2 ; ;`, in a buffer for four nodes. -/
theorem readLoop_inArena_typed_session_application : ∃ fuel ptr m,
    let rounds := InArena.readLoop expType defaultInfixBp fuel (Parser.new (CharLexer.new (spaced
        [.semicolon, .identifier "f", .number 0 2, .semicolon, .semicolon])))
      (.start ⟨4096, 4288, by decide, by decide⟩)
    rounds.1 = [.read ptr m, .error ⟨"Invalid token: -1", true⟩] ∧ rounds.2 = .ended .broke := by
  have whole : expType.align ∣ expType.size := by decide
  have yields : YieldsInArena ⟨4096, 4288, by decide, by decide⟩ expType _ _ :=
    readLoop_inArena_typed_session whole 1 [typedApplication]
      (List.forall_mem_singleton.mpr grammatical_typedApplication) writes_typedApplication
  rcases yields with ⟨n, shown⟩
  have rounds := shown n le_rfl _ (Memory.good_start _ expType)
  refine ⟨n, ?_⟩
  dsimp only
  generalize InArena.readLoop (L := CharLexer) expType defaultInfixBp n _ _ = result at rounds ⊢
  rcases result with ⟨events, ending⟩
  cases rounds with
  | read _ _ others =>
    cases others with
    | eof => exact ⟨_, _, rfl, rfl⟩
  | full large => exact absurd large (by decide)

end Sessions

end Lambcalc.Parse
