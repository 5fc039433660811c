import Lambcalc.Parse.Grammar

/-!
# The parser accepts its grammar

Soundness and completeness of `parseBinOp` for the levels of the grammar, over any lexer. Of the
token after an expression, what matters is its rank: the loop goes on as long as the next token
binds at least as tightly as the level that is parsed.
-/

namespace Lambcalc.Parse

open Ast Lib

section Reading

variable {L : Type} [Lexer L]

/-! ## Reading tokens -/

namespace Parser

/-- The current token with what the lexer has for it. -/
def lexeme (s : Parser L) : Lexeme :=
  ⟨s.currentToken, Lexer.getIdentifier s.lexer, Lexer.getNumber s.lexer⟩

/-- The next token. -/
def ahead (s : Parser L) : Token := s.peek.1

/-- The parser after looking at the next token. -/
def peeked (s : Parser L) : Parser L := s.peek.2

@[simp] theorem peeked_peeked (s : Parser L) : s.peeked.peeked = s.peeked := by
  cases s with
  | mk lexer currentToken peekToken => cases peekToken <;> rfl

@[simp] theorem ahead_peeked (s : Parser L) : s.peeked.ahead = s.ahead := by
  cases s with
  | mk lexer currentToken peekToken => cases peekToken <;> rfl

/-- A look at the next token does not change which one comes next. -/
@[simp] theorem advance_peeked (s : Parser L) : s.peeked.advance = s.advance := by
  cases s with
  | mk lexer currentToken peekToken => cases peekToken <;> rfl

@[simp] theorem currentToken_advance (s : Parser L) : s.advance.currentToken = s.ahead := by
  cases s with
  | mk lexer currentToken peekToken => cases peekToken <;> rfl

end Parser

/-- `s'` is what `s` becomes by reading these tokens, up to a look at the next one. -/
inductive Reads : Parser L → List Lexeme → Parser L → Prop
  | done {s s' : Parser L} : s.peeked = s'.peeked → Reads s [] s'
  | token {s s' : Parser L} {p : List Lexeme} :
    Reads s.advance p s' → Reads s (s.advance.lexeme :: p) s'

namespace Reads

variable {s s' s'' : Parser L} {p q : List Lexeme} {l : Lexeme}

theorem refl (s : Parser L) : Reads s [] s := .done rfl

theorem single (s : Parser L) : Reads s [s.advance.lexeme] s.advance := .token (.refl _)

theorem of_peeked (eq : s.peeked = s'.peeked) (reads : Reads s' p s'') : Reads s p s'' := by
  cases reads with
  | done eq' => exact .done (eq.trans eq')
  | token reads =>
    have same : s'.advance = s.advance := by
      rw [← Parser.advance_peeked s', ← eq, Parser.advance_peeked]
    rw [same] at reads ⊢
    exact .token reads

theorem append (first : Reads s p s') (second : Reads s' q s'') : Reads s (p ++ q) s'' := by
  induction first with
  | done eq => exact second.of_peeked eq
  | token _ ih => exact .token (ih second)

theorem to_peeked (reads : Reads s p s') (eq : s'.peeked = s''.peeked) : Reads s p s'' := by
  have last : Reads s' [] s'' := .done eq
  simpa using reads.append last

theorem peeked (reads : Reads s p s') : Reads s p s'.peeked :=
  reads.to_peeked (Parser.peeked_peeked s').symm

theorem split (reads : Reads s (p ++ q) s'') : ∃ s', Reads s p s' ∧ Reads s' q s'' := by
  induction p generalizing s with
  | nil => exact ⟨s, .refl s, reads⟩
  | cons l p ih =>
    cases reads with
    | token reads =>
      obtain ⟨s', first, second⟩ := ih reads
      exact ⟨s', .token first, second⟩

theorem tail (reads : Reads s (l :: p) s') : s.advance.lexeme = l ∧ Reads s.advance p s' := by
  cases reads with
  | token reads => exact ⟨rfl, reads⟩

theorem head (reads : Reads s (l :: p) s') : s.ahead = l.token := by
  rw [← reads.tail.1]
  exact (Parser.currentToken_advance s).symm

theorem nil (reads : Reads s [] s') : s.peeked = s'.peeked := by
  cases reads with
  | done eq => exact eq

end Reads

/-! ## The functions of the parser, one step at a time -/

section Steps

variable {α : Type} {x : ParserM L Exp} {f : Unit → ParserM L α} {s s' : Parser L} {e : Exp}

theorem bind_nextToken : (nextToken >>= f) s = f () s.advance := rfl

theorem bind_peekToken {f : Token → ParserM L α} : (peekToken >>= f) s = f s.ahead s.peeked := rfl

/-- The next token has to be this one. -/
theorem expect_apply (token : Token) (message : String) :
    (nextToken >>= fun _ => assertToken token message >>= f) s =
      if s.ahead = token then f () s.advance else .failed (.assertion message) s.advance := by
  rw [bind_nextToken]
  by_cases eq : s.ahead = token
  · rw [if_pos eq]
    exact Computation.bind_of_returned (by simp [assertToken, getCurrentToken, eq])
  · rw [if_neg eq]
    exact Computation.bind_of_failed (by simp [assertToken, getCurrentToken, eq])

theorem expect_eq_returned {token : Token} {message : String} {a : α} :
    (nextToken >>= fun _ => assertToken token message >>= f) s = .returned a s' ↔
      s.ahead = token ∧ f () s.advance = .returned a s' := by
  rw [expect_apply]
  by_cases eq : s.ahead = token
  · simp [eq]
  · simp [eq]

theorem parseParens_eq_returned : parseParens x s = .returned e s' ↔
    ∃ s₁, x s = .returned e s₁ ∧ s₁.ahead = .rParen ∧ s₁.advance = s' := by
  unfold parseParens
  rw [Computation.bind_eq_returned]
  constructor
  · intro ran
    obtain ⟨e₁, s₁, ran, rest⟩ := ran
    obtain ⟨isRight, last⟩ := expect_eq_returned.mp rest
    cases last
    exact ⟨s₁, ran, isRight, rfl⟩
  · intro ran
    obtain ⟨s₁, ran, isRight, rfl⟩ := ran
    exact ⟨e, s₁, ran, expect_eq_returned.mpr ⟨isRight, rfl⟩⟩

theorem parseFn_eq_returned : parseFn x s = .returned e s' ↔
    ∃ body, s.ahead = .identifier ∧ s.advance.ahead = .arrow ∧
      x s.advance.advance = .returned body s' ∧ .lamExp s.advance.lexeme.identifier body = e := by
  unfold parseFn
  rw [expect_eq_returned]
  constructor
  · intro ran
    obtain ⟨isIdentifier, rest⟩ := ran
    obtain ⟨isArrow, rest⟩ := expect_eq_returned.mp rest
    obtain ⟨body, s₁, ran, last⟩ := Computation.bind_eq_returned.mp rest
    cases last
    exact ⟨body, isIdentifier, isArrow, ran, rfl⟩
  · intro ran
    obtain ⟨body, isIdentifier, isArrow, ran, rfl⟩ := ran
    refine ⟨isIdentifier, expect_eq_returned.mpr ⟨isArrow, ?_⟩⟩
    exact Computation.bind_eq_returned.mpr ⟨body, s', ran, rfl⟩

theorem parseIf_eq_returned : parseIf x s = .returned e s' ↔
    ∃ e1 s₁ e2 s₂ e3, x s = .returned e1 s₁ ∧ s₁.ahead = .then_ ∧
      x s₁.advance = .returned e2 s₂ ∧ s₂.ahead = .else_ ∧ x s₂.advance = .returned e3 s' ∧
      .ifExp e1 e2 e3 = e := by
  unfold parseIf
  rw [Computation.bind_eq_returned]
  constructor
  · intro ran
    obtain ⟨e1, s₁, ran1, rest⟩ := ran
    obtain ⟨isThen, rest⟩ := expect_eq_returned.mp rest
    obtain ⟨e2, s₂, ran2, rest⟩ := Computation.bind_eq_returned.mp rest
    obtain ⟨isElse, rest⟩ := expect_eq_returned.mp rest
    obtain ⟨e3, s₃, ran3, last⟩ := Computation.bind_eq_returned.mp rest
    cases last
    exact ⟨e1, s₁, e2, s₂, e3, ran1, isThen, ran2, isElse, ran3, rfl⟩
  · intro ran
    obtain ⟨e1, s₁, e2, s₂, e3, ran1, isThen, ran2, isElse, ran3, rfl⟩ := ran
    refine ⟨e1, s₁, ran1, expect_eq_returned.mpr ⟨isThen, ?_⟩⟩
    refine Computation.bind_eq_returned.mpr ⟨e2, s₂, ran2, expect_eq_returned.mpr ⟨isElse, ?_⟩⟩
    exact Computation.bind_eq_returned.mpr ⟨e3, s', ran3, rfl⟩

end Steps

/-- The binding power at which a level is parsed. -/
def minBP : Level → Int
  | .sum => 0
  | .product => 2
  | .application => 4
  | .atom => 101

/-- `parseBinOp` at a level. -/
def parseLevel (fuel : Nat) (level : Level) : ParserM L Exp :=
  parseBinOp defaultInfixBp fuel (minBP level)

/-- The loop of `parseBinOp` at a level. -/
def parseRest (fuel : Nat) (level : Level) (lhs : Exp) : ParserM L Exp :=
  parseOperators defaultInfixBp fuel (minBP level) lhs

section Loop

variable {fuel : Nat} {level : Level} {lhs : Exp} {s : Parser L}

theorem parseLevel_succ : parseLevel (fuel + 1) level s =
    (parsePrimary (parseLevel fuel .sum) >>= parseRest fuel level) s.advance := rfl

/-- A look at the next token changes nothing for the loop, which begins with one. -/
theorem parseRest_peeked : parseRest fuel level lhs s.peeked = parseRest fuel level lhs s := by
  cases fuel with
  | zero => rfl
  | succ fuel =>
    rw [parseRest, parseOperators, bind_peekToken, bind_peekToken, Parser.ahead_peeked,
      Parser.peeked_peeked]

/-- A token that binds less tightly ends the loop. -/
theorem parseRest_stop (loose : s.ahead.rank < level.rank) :
    parseRest (fuel + 1) level lhs s = .returned lhs s.peeked := by
  rw [parseRest, parseOperators, bind_peekToken]
  generalize s.ahead = token at loose ⊢
  cases level <;> cases token <;> first | rfl | exact absurd loose (by decide)

/-- An operator that binds at least as tightly takes the left operand. -/
theorem parseRest_bop {bop : Bop} (next : s.ahead = opToken bop)
    (tight : level.rank ≤ (opLevel bop).rank) : parseRest (fuel + 1) level lhs s =
      (parseLevel fuel (opLevel bop).next >>= fun rhs =>
        parseRest fuel level (.bopExp bop lhs rhs)) s.advance := by
  rw [← Parser.advance_peeked]
  rw [parseRest, parseOperators, bind_peekToken, next]
  cases level <;> cases bop <;> first | rfl | exact absurd tight (by decide)

/-- And so does an argument. -/
theorem parseRest_app (next : s.ahead.rank = Level.application.rank)
    (tight : level.rank ≤ Level.application.rank) : parseRest (fuel + 1) level lhs s =
      (parseLevel fuel .atom >>= fun rhs => parseRest fuel level (.appExp lhs rhs)) s.peeked := by
  rw [parseRest, parseOperators, bind_peekToken]
  generalize s.ahead = token at next ⊢
  cases level <;> cases token <;>
    first | rfl | exact absurd next (Nat.ne_of_beq_eq_false rfl) | exact absurd tight (by decide)

/-- These are all cases. -/
theorem ahead_cases (token : Token) (level : Level) : token.rank < level.rank ∨
    (∃ bop, token = opToken bop ∧ level.rank ≤ (opLevel bop).rank) ∨
    (token.rank = Level.application.rank ∧ level.rank ≤ Level.application.rank) := by
  by_cases loose : token.rank < level.rank
  · exact .inl loose
  · right
    have rank := Nat.le_of_not_lt loose
    cases token with
    | plus => exact .inl ⟨.plus, rfl, rank⟩
    | minus => exact .inl ⟨.minus, rfl, rank⟩
    | times => exact .inl ⟨.times, rfl, rank⟩
    | lParen => exact .inr ⟨rfl, rank⟩
    | number => exact .inr ⟨rfl, rank⟩
    | identifier => exact .inr ⟨rfl, rank⟩
    | _ =>
      have positive : 1 ≤ level.rank := by cases level <;> decide
      exact absurd (positive.trans rank) (Nat.not_succ_le_zero 0)

end Loop

/-! ## Fuel -/

section Fuel

variable {x y : ParserM L Exp}

theorem parseParens_below (below : Computation.Below x y) :
    Computation.Below (parseParens x) (parseParens y) :=
  below.bind fun _ => .refl _

theorem parseFn_below (below : Computation.Below x y) :
    Computation.Below (parseFn x) (parseFn y) := by
  refine .bind (.refl nextToken) fun _ => .bind (.refl _) fun _ => .bind (.refl _) fun _ => ?_
  exact .bind (.refl nextToken) fun _ => .bind (.refl _) fun _ => below.bind fun _ => .refl _

theorem parseIf_below (below : Computation.Below x y) :
    Computation.Below (parseIf x) (parseIf y) := by
  refine below.bind fun _ => .bind (.refl nextToken) fun _ => .bind (.refl _) fun _ => ?_
  refine below.bind fun _ => .bind (.refl nextToken) fun _ => .bind (.refl _) fun _ => ?_
  exact below.bind fun _ => .refl _

theorem parsePrimary_below (below : Computation.Below x y) :
    Computation.Below (parsePrimary x) (parsePrimary y) := by
  refine .bind (.refl getCurrentToken) fun token => ?_
  cases token with
  | lParen => exact parseParens_below below
  | fn => exact parseFn_below below
  | if_ => exact parseIf_below below
  | _ => exact .refl _

/-- More fuel does not change an outcome. -/
theorem parse_succ (infixBp : InfixBp) (fuel : Nat) :
    (∀ minBP, Computation.Below (parseBinOp (L := L) infixBp fuel minBP)
      (parseBinOp infixBp (fuel + 1) minBP)) ∧
    ∀ minBP lhs, Computation.Below (parseOperators (L := L) infixBp fuel minBP lhs)
      (parseOperators infixBp (fuel + 1) minBP lhs) := by
  induction fuel with
  | zero =>
    constructor
    · exact fun minBP => Computation.below_unfinished _
    · exact fun minBP lhs => Computation.below_unfinished _
  | succ fuel ih =>
    obtain ⟨ihBinOp, ihOperators⟩ := ih
    constructor
    · intro minBP
      refine .bind (.refl nextToken) fun _ => ?_
      exact (parsePrimary_below (ihBinOp baseBP)).bind fun lhs => ihOperators minBP lhs
    · intro minBP lhs
      refine .bind (.refl peekToken) fun token => ?_
      cases parseOp token with
      | some bop =>
        dsimp only
        cases infixBp bop with
        | some bp =>
          by_cases stops : bp.1 < minBP
          · simp only [if_pos stops]
            exact .refl _
          · simp only [if_neg stops]
            refine .bind (.refl nextToken) fun _ => (ihBinOp bp.2).bind fun rhs => ?_
            exact ihOperators minBP _
        | none => exact .refl _
      | none =>
        dsimp only
        by_cases starts : token = .lParen ∨ token = .number ∨ token = .identifier
        · simp only [if_pos starts]
          by_cases stops : appLbp < minBP
          · simp only [if_pos stops]
            exact .refl _
          · simp only [if_neg stops]
            exact (ihBinOp appRbp).bind fun rhs => ihOperators minBP _
        · simp only [if_neg starts]
          exact .refl _

theorem parseLevel_mono {m n : Nat} (le : m ≤ n) (level : Level) :
    Computation.Below (parseLevel (L := L) m level) (parseLevel n level) :=
  .of_succ (fun fuel => (parse_succ defaultInfixBp fuel).1 (minBP level)) le

theorem parseRest_mono {m n : Nat} (le : m ≤ n) (level : Level) (lhs : Exp) :
    Computation.Below (parseRest (L := L) m level lhs) (parseRest n level lhs) :=
  .of_succ (fun fuel => (parse_succ defaultInfixBp fuel).2 (minBP level) lhs) le

end Fuel

/-! ## Soundness -/

/-- What parsing at a level makes of some tokens, if the next token has this rank. -/
def Parsed (level : Level) (p : List Lexeme) (e : Exp) (rank : Nat) : Prop :=
  (Derives .closed level p e ∧ rank < level.rank) ∨ (Derives .ending level p e ∧ rank = 0)

/-- Whatever `x` returns, it has read tokens that make it, and looked at the next one. -/
def Sound (level : Level) (x : ParserM L Exp) : Prop :=
  ∀ s e s', x s = .returned e s' →
    ∃ p, Reads s p s' ∧ s'.peeked = s' ∧ Parsed level p e s'.ahead.rank

theorem Parsed.expression {p : List Lexeme} {e : Exp} {rank : Nat} (parsed : Parsed .sum p e rank) :
    Derives .ending .sum p e ∧ rank = 0 := by
  rcases parsed with ⟨closed, loose⟩ | ending
  · exact ⟨.closed closed, Nat.lt_one_iff.mp loose⟩
  · exact ending

/-- A primary is an atom, or an unparenthesised `fn` or `if`, which nothing can follow. -/
theorem parsePrimary_sound {x : ParserM L Exp} (sound : Sound .sum x) {s s' : Parser L} {e : Exp}
    (ran : parsePrimary x s.advance = .returned e s') :
    ∃ p, Reads s p s' ∧ (Derives .closed .atom p e ∨
      (∀ level, Derives .ending level p e) ∧ s'.ahead.rank = 0) := by
  have expression : ∀ {s e s'}, x s = .returned e s' →
      ∃ p, Reads s p s' ∧ Derives .ending .sum p e ∧ s'.ahead.rank = 0 := by
    intro s e s' ran
    obtain ⟨p, reads, -, parsed⟩ := sound _ _ _ ran
    exact ⟨p, reads, parsed.expression⟩
  have current : s.advance.lexeme.token = s.advance.currentToken := rfl
  unfold parsePrimary at ran
  rw [getCurrentToken, Computation.update_bind_apply] at ran
  simp only at ran
  cases token : s.advance.currentToken with
  | lParen =>
    rw [token] at ran
    obtain ⟨s₁, inner, isRight, rfl⟩ := parseParens_eq_returned.mp ran
    obtain ⟨p, reads, derives, -⟩ := expression inner
    refine ⟨_, .token (reads.append (.single s₁)), .inl (.parens (current.trans token) derives ?_)⟩
    exact (Parser.currentToken_advance s₁).trans isRight
  | number =>
    rw [token] at ran
    cases ran
    exact ⟨_, .single s, .inl (.number (current.trans token))⟩
  | identifier =>
    rw [token] at ran
    cases ran
    exact ⟨_, .single s, .inl (.identifier (current.trans token))⟩
  | fn =>
    rw [token] at ran
    obtain ⟨body, isIdentifier, isArrow, inner, rfl⟩ := parseFn_eq_returned.mp ran
    obtain ⟨p, reads, derives, rank⟩ := expression inner
    refine ⟨_, .token (.token (.token reads)), .inr ⟨fun level => ?_, rank⟩⟩
    exact .fn (current.trans token) ((Parser.currentToken_advance _).trans isIdentifier)
      ((Parser.currentToken_advance _).trans isArrow) derives
  | if_ =>
    rw [token] at ran
    obtain ⟨e1, s₁, e2, s₂, e3, ran1, isThen, ran2, isElse, ran3, rfl⟩ :=
      parseIf_eq_returned.mp ran
    obtain ⟨p, reads1, derives1, -⟩ := expression ran1
    obtain ⟨q, reads2, derives2, -⟩ := expression ran2
    obtain ⟨r, reads3, derives3, rank⟩ := expression ran3
    refine ⟨_, .token (reads1.append (.token (reads2.append (.token reads3)))),
      .inr ⟨fun level => ?_, rank⟩⟩
    exact .ite (current.trans token) derives1 ((Parser.currentToken_advance _).trans isThen)
      derives2 ((Parser.currentToken_advance _).trans isElse) derives3
  | _ =>
    rw [token] at ran
    cases ran

/-- What the loop has made of the tokens so far: something closed, to which the next token does
not bind more tightly than its own operations do, or something that nothing can follow. -/
def LeftOperand (level : Level) (p : List Lexeme) (e : Exp) (rank : Nat) : Prop :=
  (∃ tight, Derives .closed tight p e ∧ level.rank ≤ tight.rank ∧ rank ≤ tight.rank) ∨
    (Derives .ending level p e ∧ rank = 0)

section Operands

variable {level : Level} {p q : List Lexeme} {lhs rhs : Exp} {rank : Nat}

theorem LeftOperand.parsed (operand : LeftOperand level p lhs rank) (loose : rank < level.rank) :
    Parsed level p lhs rank := by
  rcases operand with ⟨tight, derives, le, -⟩ | ending
  · exact .inl ⟨.looser le derives, loose⟩
  · exact .inr ending

/-- An operation to whose level the next token belongs has a closed left operand. -/
theorem LeftOperand.closed (operand : LeftOperand level p lhs rank) {tight : Level}
    (next : rank = tight.rank) : Derives .closed tight p lhs := by
  rcases operand with ⟨tight', derives, -, le⟩ | ⟨-, none⟩
  · exact .looser (next ▸ le) derives
  · have positive : 1 ≤ tight.rank := by cases tight <;> decide
    omega

theorem LeftOperand.bop {bop : Bop} {op : Lexeme} (left : Derives .closed (opLevel bop) p lhs)
    (isOp : op.token = opToken bop) (right : Parsed (opLevel bop).next q rhs rank)
    (le : level.rank ≤ (opLevel bop).rank) :
    LeftOperand level (p ++ op :: q) (.bopExp bop lhs rhs) rank := by
  rcases right with ⟨closed, loose⟩ | ⟨ending, none⟩
  · have next := Level.rank_next bop
    exact .inl ⟨opLevel bop, .bop left isOp closed, le, by omega⟩
  · exact .inr ⟨.looser le (.bop left isOp ending), none⟩

theorem LeftOperand.app (left : Derives .closed .application p lhs)
    (right : Derives .closed .atom q rhs) (small : rank ≤ 3)
    (le : level.rank ≤ Level.application.rank) :
    LeftOperand level (p ++ q) (.appExp lhs rhs) rank :=
  .inl ⟨.application, .app left right, le, small⟩

/-- An argument is an atom. -/
theorem Parsed.argument {s s' : Parser L} (parsed : Parsed .atom q rhs rank) (reads : Reads s q s')
    (starts : s.ahead.rank = 3) : Derives .closed .atom q rhs := by
  rcases parsed with ⟨closed, -⟩ | ⟨ending, -⟩
  · exact closed
  · cases q with
    | nil => exact absurd rfl ending.ne_nil
    | cons l q => exact ending.argument rfl rfl (reads.head ▸ starts)

end Operands

/-- `parseBinOp` and its loop only return what is derived from what they have read. -/
theorem parse_sound (fuel : Nat) : (∀ level, Sound level (parseLevel (L := L) fuel level)) ∧
    ∀ level lhs p (s₀ s : Parser L), Reads s₀ p s → LeftOperand level p lhs s.ahead.rank →
      ∀ e s', parseRest fuel level lhs s = .returned e s' →
        ∃ q, Reads s₀ q s' ∧ s'.peeked = s' ∧ Parsed level q e s'.ahead.rank := by
  induction fuel with
  | zero =>
    constructor
    · intro level s e s' ran
      cases ran
    · intro level lhs p s₀ s reads operand e s' ran
      cases ran
  | succ fuel ih =>
    obtain ⟨ihLevel, ihRest⟩ := ih
    constructor
    · intro level s e s' ran
      rw [parseLevel_succ] at ran
      obtain ⟨lhs, s₁, primary, rest⟩ := Computation.bind_eq_returned.mp ran
      obtain ⟨p, reads, atom | ⟨ending, none⟩⟩ := parsePrimary_sound (ihLevel .sum) primary
      · have small : s₁.ahead.rank ≤ Level.atom.rank := (Token.rank_le _).trans (by decide)
        exact ihRest level lhs p s s₁ reads (.inl ⟨.atom, atom, level.rank_le, small⟩) e s' rest
      · exact ihRest level lhs p s s₁ reads (.inr ⟨ending level, none⟩) e s' rest
    · intro level lhs p s₀ s reads operand e s' ran
      rcases ahead_cases s.ahead level with loose | ⟨bop, next, le⟩ | ⟨next, le⟩
      · rw [parseRest_stop loose] at ran
        cases ran
        refine ⟨p, reads.peeked, Parser.peeked_peeked s, ?_⟩
        rw [Parser.ahead_peeked]
        exact operand.parsed loose
      · rw [parseRest_bop next le] at ran
        obtain ⟨rhs, s₁, ranRight, rest⟩ := Computation.bind_eq_returned.mp ran
        obtain ⟨q, readsRight, -, parsed⟩ := ihLevel _ _ _ _ ranRight
        have left := operand.closed (next ▸ Token.rank_opToken bop)
        have isOp : s.advance.lexeme.token = opToken bop :=
          (Parser.currentToken_advance s).trans next
        exact ihRest level _ _ s₀ s₁ (reads.append (.token readsRight))
          (.bop left isOp parsed le) e s' rest
      · rw [parseRest_app next le] at ran
        obtain ⟨rhs, s₁, ranRight, rest⟩ := Computation.bind_eq_returned.mp ran
        obtain ⟨q, readsRight, -, parsed⟩ := ihLevel _ _ _ _ ranRight
        have readsArgument := readsRight.of_peeked (Parser.peeked_peeked s).symm
        have argument := parsed.argument readsArgument next
        exact ihRest level _ _ s₀ s₁ (reads.append readsArgument)
          (.app (operand.closed next) argument (Token.rank_le _) le) e s' rest

/-! ## Completeness -/

variable (L) in
/-- Where the tokens are next, parsing comes to the tree. After a closed phrase that is what the
loop goes on with, and the outcome, a tree or a failure, is the one of the loop. -/
def Arrives (level : Level) (p : List Lexeme) (e : Exp) : Shape → Prop
  | .closed => ∀ (loose : Level) (s s' : Parser L), loose.rank ≤ level.rank → Reads s p s' →
    s'.ahead.rank ≤ level.rank → ∀ fuel outcome, parseRest fuel loose e s' = outcome →
      outcome ≠ .unfinished → ∃ fuel, parseLevel fuel loose s = outcome
  | .ending => ∀ (loose : Level) (s s' : Parser L), loose.rank ≤ level.rank → Reads s p s' →
    s'.ahead.rank = 0 → ∃ fuel, parseLevel fuel loose s = .returned e s'.peeked

section Phrases

variable {shape : Shape} {level tight loose : Level} {p q : List Lexeme} {lhs rhs e : Exp}
  {s s₁ s₂ s₃ s' : Parser L}

theorem Arrives.looser (arrives : Arrives L tight p e shape)
    (le : loose.rank ≤ tight.rank) : Arrives L loose p e shape := by
  cases shape with
  | closed =>
    intro level s s' looser reads rank
    exact arrives level s s' (looser.trans le) reads (rank.trans le)
  | ending =>
    intro level s s' looser reads rank
    exact arrives level s s' (looser.trans le) reads rank

/-- The loop stops where nothing binds tightly enough. -/
theorem Arrives.stops (arrives : Arrives L level p e shape) (le : loose.rank ≤ level.rank)
    (reads : Reads s p s') (stops : s'.ahead.rank = 0 ∨
      (shape = .closed ∧ s'.ahead.rank ≤ level.rank ∧ s'.ahead.rank < loose.rank)) :
    ∃ fuel, parseLevel fuel loose s = .returned e s'.peeked := by
  have positive : 1 ≤ loose.rank := by cases loose <;> decide
  cases shape with
  | closed =>
    exact arrives loose s s' le reads (by omega) 1 _ (parseRest_stop (by omega)) (by simp)
  | ending =>
    refine arrives loose s s' le reads ?_
    exact stops.resolve_right fun closed => Shape.noConfusion closed.1

/-- An operation, after its left operand. -/
theorem Arrives.operation {node : Exp → Exp} (left : Arrives L tight p lhs .closed)
    (le : loose.rank ≤ tight.rank) (reads : Reads s p s₁) (next : s₁.ahead.rank = tight.rank)
    (step : ∀ fuel, parseRest (fuel + 1) loose lhs s₁ =
      (parseLevel fuel tight.next >>= fun rhs => parseRest fuel loose (node rhs)) s₂)
    {m n : Nat} {outcome : Outcome (Parser L) Failure Exp}
    (right : parseLevel m tight.next s₂ = .returned rhs s₃)
    (rest : parseRest n loose (node rhs) s₃ = outcome) (ends : outcome ≠ .unfinished) :
    ∃ fuel, parseLevel fuel loose s = outcome := by
  refine left loose s s₁ le reads next.le (max m n + 1) outcome ?_ ends
  rw [step, Computation.bind_of_returned
    ((parseLevel_mono (le_max_left m n) _).returned right), ← rest]
  exact (parseRest_mono (le_max_right m n) _ _).ends (rest ▸ ends)

/-- A primary, after which the loop ends. -/
theorem parseLevel_of_primary {fuel n : Nat} {outcome : Outcome (Parser L) Failure Exp}
    (primary : parsePrimary (parseLevel fuel .sum) s.advance = .returned e s₁)
    (rest : parseRest n loose e s₁ = outcome) (ends : outcome ≠ .unfinished) :
    ∃ fuel, parseLevel fuel loose s = outcome := by
  refine ⟨max fuel n + 1, ?_⟩
  rw [parseLevel_succ, Computation.bind_of_returned
    ((parsePrimary_below (parseLevel_mono (le_max_left fuel n) .sum)).returned primary), ← rest]
  exact (parseRest_mono (le_max_right fuel n) _ _).ends (rest ▸ ends)

theorem parsePrimary_of_token {x : ParserM L Exp} {token : Token} (next : s.ahead = token) :
    parsePrimary x s.advance = (match token with
      | .lParen => parseParens x
      | .number => pure (.intExp s.advance.lexeme.number)
      | .fn => parseFn x
      | .if_ => parseIf x
      | .identifier => pure (.varExp s.advance.lexeme.identifier)
      | _ => .fail (.exception ⟨"Invalid token: " ++ toString token.toInt, token = Token.eof⟩))
        s.advance := by
  rw [parsePrimary, getCurrentToken, Computation.update_bind_apply, Parser.currentToken_advance,
    next]
  cases token <;> rfl

/-- After an unparenthesised `fn` or `if`, the loop stops. -/
theorem parseRest_ended (rank : s.ahead.rank = 0) :
    parseRest 1 loose e s.peeked = .returned e s.peeked := by
  have positive : 1 ≤ loose.rank := by cases loose <;> decide
  rw [parseRest_peeked, parseRest_stop (by omega)]

/-- The loop only depends on the tokens to come. -/
theorem parseRest_congr {fuel : Nat} (eq : s.peeked = s'.peeked) :
    parseRest fuel loose e s = parseRest fuel loose e s' := by
  rw [← parseRest_peeked, eq, parseRest_peeked]

end Phrases

/-- Where the tokens of a derivation are next, parsing comes to its tree, or goes on after it. -/
theorem arrives_of_derives {shape : Shape} {level : Level} {p : List Lexeme} {e : Exp}
    (derives : Derives shape level p e) : Arrives L level p e shape := by
  induction derives with
  | number isNumber =>
    intro loose s s' le reads rank fuel outcome rest ends
    obtain ⟨rfl, last⟩ := reads.tail
    have primary : parsePrimary (parseLevel 0 .sum) s.advance =
        .returned (.intExp s.advance.lexeme.number) s.advance := by
      rw [parsePrimary_of_token ((Parser.currentToken_advance s).symm.trans isNumber)]
      rfl
    exact parseLevel_of_primary primary ((parseRest_congr last.nil).trans rest) ends
  | identifier isIdentifier =>
    intro loose s s' le reads rank fuel outcome rest ends
    obtain ⟨rfl, last⟩ := reads.tail
    have primary : parsePrimary (parseLevel 0 .sum) s.advance =
        .returned (.varExp s.advance.lexeme.identifier) s.advance := by
      rw [parsePrimary_of_token ((Parser.currentToken_advance s).symm.trans isIdentifier)]
      rfl
    exact parseLevel_of_primary primary ((parseRest_congr last.nil).trans rest) ends
  | @parens left right p e isLeft _ isRight ih =>
    intro loose s s' le reads rank fuel outcome rest ends
    obtain ⟨s₁, readsInner, readsRight⟩ := reads.tail.2.split
    have closes := readsRight.head.trans isRight
    obtain ⟨m, inner⟩ := ih .sum s.advance s₁ le_rfl readsInner (by rw [closes]; rfl)
    have primary : parsePrimary (parseLevel m .sum) s.advance = .returned e s₁.advance := by
      rw [parsePrimary_of_token (reads.head.trans isLeft)]
      exact parseParens_eq_returned.mpr ⟨s₁.peeked, inner, (Parser.ahead_peeked s₁).trans closes,
        Parser.advance_peeked s₁⟩
    exact parseLevel_of_primary primary ((parseRest_congr readsRight.tail.2.nil).trans rest) ends
  | looser le _ ih => exact ih.looser le
  | app left right ihLeft ihRight =>
    intro loose s s' le reads rank fuel outcome rest ends
    obtain ⟨s₁, readsLeft, readsRight⟩ := reads.split
    obtain ⟨l, q, rfl, starts⟩ := right.atom_head rfl rfl
    have next : s₁.ahead.rank = Level.application.rank := readsRight.head ▸ starts
    have small : s'.ahead.rank < Level.atom.rank := Nat.lt_succ_of_le (Token.rank_le _)
    obtain ⟨m, ran⟩ := ihRight.stops le_rfl
      (readsRight.of_peeked (Parser.peeked_peeked s₁)) (.inr ⟨rfl, small.le, small⟩)
    exact ihLeft.operation le readsLeft next (fun fuel => parseRest_app next le) ran
      (parseRest_peeked.trans rest) ends
  | @bop shape bop op p q arg1 arg2 left isOp right ihLeft ihRight =>
    have operation : ∀ (loose : Level) (s s' : Parser L), loose.rank ≤ (opLevel bop).rank →
        Reads s (p ++ op :: q) s' → (s'.ahead.rank = 0 ∨ (shape = .closed ∧
          s'.ahead.rank ≤ (opLevel bop).next.rank ∧ s'.ahead.rank < (opLevel bop).next.rank)) →
        ∀ fuel outcome, parseRest fuel loose (.bopExp bop arg1 arg2) s'.peeked = outcome →
          outcome ≠ .unfinished → ∃ fuel, parseLevel fuel loose s = outcome := by
      intro loose s s' le reads stops fuel outcome rest ends
      obtain ⟨s₁, readsLeft, readsRight⟩ := reads.split
      have next := readsRight.head.trans isOp
      obtain ⟨m, ran⟩ := ihRight.stops le_rfl readsRight.tail.2 stops
      exact ihLeft.operation le readsLeft (next ▸ Token.rank_opToken bop)
        (fun fuel => parseRest_bop next le) ran rest ends
    have next := Level.rank_next bop
    cases shape with
    | closed =>
      intro loose s s' le reads rank fuel outcome rest ends
      exact operation loose s s' le reads (.inr ⟨rfl, by omega, by omega⟩) fuel outcome
        (parseRest_peeked.trans rest) ends
    | ending =>
      intro loose s s' le reads rank
      exact operation loose s s' le reads (.inl rank) 1 _ (parseRest_ended rank) (by simp)
  | closed inner ih =>
    intro loose s s' le reads rank
    exact ih.stops le reads (.inl rank)
  | @fn level fn x arrow p body isFn isIdentifier isArrow _ ih =>
    intro loose s s' le reads rank
    obtain ⟨-, reads1⟩ := reads.tail
    obtain ⟨rfl, reads2⟩ := reads1.tail
    obtain ⟨m, ran⟩ := ih .sum _ s' le_rfl reads2.tail.2 rank
    have primary : parsePrimary (parseLevel m .sum) s.advance =
        .returned (.lamExp s.advance.advance.lexeme.identifier body) s'.peeked := by
      rw [parsePrimary_of_token (reads.head.trans isFn)]
      exact parseFn_eq_returned.mpr ⟨body, reads1.head.trans isIdentifier,
        reads2.head.trans isArrow, ran, rfl⟩
    exact parseLevel_of_primary primary (parseRest_ended rank) (by simp)
  | @ite level if_ then_ else_ p q r e1 e2 e3 isIf _ isThen _ isElse _ ih1 ih2 ih3 =>
    intro loose s s' le reads rank
    obtain ⟨s₁, reads1, rest1⟩ := reads.tail.2.split
    obtain ⟨s₂, reads2, rest2⟩ := rest1.tail.2.split
    have thens := rest1.head.trans isThen
    have elses := rest2.head.trans isElse
    obtain ⟨m1, ran1⟩ := ih1 .sum s.advance s₁ le_rfl reads1 (by rw [thens]; rfl)
    obtain ⟨m2, ran2⟩ := ih2 .sum s₁.advance s₂ le_rfl reads2 (by rw [elses]; rfl)
    obtain ⟨m3, ran3⟩ := ih3 .sum s₂.advance s' le_rfl rest2.tail.2 rank
    have primary : parsePrimary (parseLevel (max m1 (max m2 m3)) .sum) s.advance =
        .returned (.ifExp e1 e2 e3) s'.peeked := by
      rw [parsePrimary_of_token (reads.head.trans isIf)]
      refine parseIf_eq_returned.mpr ⟨e1, s₁.peeked, e2, s₂.peeked, e3,
        (parseLevel_mono (by omega) _).returned ran1, (Parser.ahead_peeked s₁).trans thens,
        ?_, (Parser.ahead_peeked s₂).trans elses, ?_, rfl⟩
      · rw [Parser.advance_peeked]
        exact (parseLevel_mono (by omega) _).returned ran2
      · rw [Parser.advance_peeked]
        exact (parseLevel_mono (by omega) _).returned ran3
    exact parseLevel_of_primary primary (parseRest_ended rank) (by simp)

/-- `parseExpression` returns a tree exactly for the tokens that derive it, if the next token
does not continue the expression. It has then read these tokens and looked at the next one. -/
theorem parseExpression_iff (s s' : Parser L) (e : Exp) :
    (∃ fuel, parseExpression defaultInfixBp fuel s = .returned e s') ↔
      ∃ p, Reads s p s' ∧ s'.peeked = s' ∧ Derives .ending .sum p e ∧ s'.ahead.rank = 0 := by
  constructor
  · intro ran
    obtain ⟨fuel, ran⟩ := ran
    obtain ⟨p, reads, buffered, parsed⟩ := (parse_sound fuel).1 .sum s e s' ran
    exact ⟨p, reads, buffered, parsed.expression⟩
  · intro found
    obtain ⟨p, reads, buffered, derives, rank⟩ := found
    obtain ⟨fuel, ran⟩ := arrives_of_derives derives .sum s s' le_rfl reads rank
    exact ⟨fuel, buffered ▸ ran⟩

end Reading

end Lambcalc.Parse
