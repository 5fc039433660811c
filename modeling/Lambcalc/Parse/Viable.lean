import Lambcalc.Parse.Errors
import Lambcalc.Parse.Stream

/-!
# Where an expression has to start

Tokens are viable if an expression can begin with them. The parser throws an exception at the
first token that leaves them so no longer, in a place where an expression has to start: every
token that one can start with would have been viable there, and no other.
-/

namespace Lambcalc.Parse

open Ast Lib

/-- The tokens begin an expression. -/
def Viable (p : List Lexeme) : Prop := ∃ more e, Derives .ending .sum (p ++ more) e

/-- After these tokens, parsing at this level is where an expression has to start. -/
inductive Wants : Level → List Lexeme → Prop
  | here {level : Level} : Wants level []
  | inside {level : Level} {p q : List Lexeme} : Opens p → Wants .sum q → Wants level (p ++ q)
  | bop {level : Level} {bop : Bop} {op : Lexeme} {p q : List Lexeme} {e : Exp} :
    level.rank ≤ (opLevel bop).rank → Derives .closed (opLevel bop) p e →
    op.token = opToken bop → Wants (opLevel bop).next q → Wants level (p ++ op :: q)
  | app {level : Level} {l : Lexeme} {p q : List Lexeme} {e : Exp} :
    level.rank ≤ Level.application.rank → Derives .closed .application p e → l.token.rank = 3 →
    Wants .atom (l :: q) → Wants level (p ++ l :: q)

theorem Token.starts_of_rank {token : Token} (rank : token.rank = 3) : token.starts = true := by
  cases token with
  | lParen => rfl
  | number => rfl
  | identifier => rfl
  | _ => cases rank

/-- An exception is about the token after which an expression had to start. -/
theorem Fails.wants {level : Level} {p : List Lexeme} {f : Failure} (fails : Fails level p f)
    {e : ParserException} (isException : f = .exception e) :
    ∃ q l, p = q ++ [l] ∧ Wants level q ∧ l.token.starts = false ∧ e = invalidToken l.token := by
  induction fails with
  | @start level l notStart =>
    cases isException
    exact ⟨[], l, rfl, .here, notStart, rfl⟩
  | expected _ => cases isException
  | @inside level p q f opens _ ih =>
    rcases ih isException with ⟨q, l, rfl, wants, notStart, eq⟩
    exact ⟨p ++ q, l, (List.append_assoc _ _ _).symm, .inside opens wants, notStart, eq⟩
  | @bop level bop op p q e f le left isOp _ ih =>
    rcases ih isException with ⟨q, l, rfl, wants, notStart, eq⟩
    exact ⟨p ++ op :: q, l, by simp, .bop le left isOp wants, notStart, eq⟩
  | @app level l p q e f le left starts _ ih =>
    rcases ih isException with ⟨q', l', eq', wants, notStart, eq⟩
    cases q' with
    | nil =>
      -- the first token of an argument starts one
      cases eq'
      rw [Token.starts_of_rank starts] at notStart
      cases notStart
    | cons l₀ q' =>
      cases eq'
      exact ⟨p ++ l :: q', l', by simp, .app le left starts wants, notStart, eq⟩

/-- And any token that starts none is met by one. -/
theorem Wants.fails {level : Level} {p : List Lexeme} (wants : Wants level p) {l : Lexeme}
    (notStart : l.token.starts = false) :
    Fails level (p ++ [l]) (.exception (invalidToken l.token)) := by
  induction wants with
  | here => exact .start notStart
  | inside opens _ ih =>
    rw [List.append_assoc]
    exact .inside opens ih
  | bop le left isOp _ ih =>
    rw [List.append_assoc]
    exact .bop le left isOp ih
  | app le left starts _ ih =>
    rw [List.append_assoc]
    exact .app le left starts ih

/-! ## Viable tokens -/

section Fill

variable {m : List Lexeme}

/-- An atom is an expression at every level. -/
theorem Derives.of_atom {p : List Lexeme} {e : Exp} (derives : Derives .closed .atom p e)
    (level : Level) : Derives .ending level p e := by
  have tightest : level.rank ≤ Level.atom.rank := level.rank_le
  exact .closed (.looser tightest derives)

/-- A token with nothing else to it. -/
def plain (token : Token) : Lexeme := ⟨token, "", 0⟩

theorem isPlain (token : Token) : (plain token).token = token := rfl

theorem derives_number : Derives .ending .sum [plain .number] (.intExp 0) :=
  Derives.of_atom (.number rfl) .sum

/-- Inside a primary, what derives an expression can be completed to one at any level. -/
theorem Opens.fill {p : List Lexeme} (opens : Opens p) {q : List Lexeme} {e : Exp}
    (derives : Derives .ending .sum q e) (level : Level) :
    ∃ more e, Derives .ending level (p ++ q ++ more) e := by
  cases opens with
  | @parens left isLeft =>
    have atom := Derives.parens isLeft derives (isPlain .rParen)
    exact ⟨_, _, atom.of_atom level⟩
  | @fn fn x arrow isFn isName isArrow =>
    have body : Derives .ending level (fn :: x :: arrow :: q) (.lamExp x.identifier e) :=
      .fn isFn isName isArrow derives
    exact ⟨[], _, by rwa [List.append_nil]⟩
  | cond isIf =>
    have cond : Derives .ending level _ _ := .ite isIf derives (isPlain .then_) derives_number
      (isPlain .else_) derives_number
    exact ⟨_, _, cond⟩
  | @then_ if_ then_ p e1 isIf derives1 isThen =>
    have cond : Derives .ending level _ _ := .ite isIf derives1 isThen derives (isPlain .else_)
      derives_number
    refine ⟨[plain .else_, plain .number], .ifExp e1 e (.intExp 0), ?_⟩
    simpa only [List.cons_append, List.append_assoc, List.nil_append] using cond
  | @else_ if_ then_ else_ p1 p2 e1 e2 isIf derives1 isThen derives2 isElse =>
    have cond : Derives .ending level _ _ := .ite isIf derives1 isThen derives2 isElse derives
    refine ⟨[], .ifExp e1 e2 e, ?_⟩
    simpa only [List.cons_append, List.append_assoc, List.nil_append, List.append_nil] using cond

/-- Where an expression has to start, one can. -/
theorem Wants.fill {level : Level} {p : List Lexeme} (wants : Wants level p)
    (fills : ∀ level, ∃ e, Derives .ending level m e) :
    ∃ more e, Derives .ending level (p ++ m ++ more) e := by
  induction wants with
  | @here level =>
    rcases fills level with ⟨e, derives⟩
    exact ⟨[], e, by rwa [List.append_nil]⟩
  | @inside level p q opens _ ih =>
    rcases ih with ⟨more, e, derives⟩
    rcases opens.fill derives level with ⟨more', e', derives'⟩
    exact ⟨more ++ more', e', by simpa only [List.append_assoc] using derives'⟩
  | @bop level bop op p q e le left isOp _ ih =>
    rcases ih with ⟨more, e', derives⟩
    have operation := Derives.looser le (.bop left isOp derives)
    exact ⟨more, _, by simpa only [List.append_assoc, List.cons_append] using operation⟩
  | @app level l p q e le left starts _ ih =>
    rcases ih with ⟨more, e', derives⟩
    have call := Derives.looser le (.closed (.app left (derives.argument rfl rfl starts)))
    exact ⟨more, _, by simpa only [List.append_assoc, List.cons_append] using call⟩

/-- Every token that starts a primary starts an expression at each level. -/
theorem fills_of_starts {l : Lexeme} (starts : l.token.starts = true) :
    ∃ more, ∀ level, ∃ e, Derives .ending level (l :: more) e := by
  have atom : ∀ {p e}, Derives .closed .atom p e → ∀ level, ∃ e, Derives .ending level p e :=
    fun derives level => ⟨_, derives.of_atom level⟩
  cases isToken : l.token with
  | number => exact ⟨[], atom (.number isToken)⟩
  | identifier => exact ⟨[], atom (.identifier isToken)⟩
  | lParen => exact ⟨_, atom (.parens isToken derives_number (isPlain .rParen))⟩
  | fn =>
    exact ⟨_, fun level => ⟨_, .fn isToken (isPlain .identifier) (isPlain .arrow) derives_number⟩⟩
  | if_ =>
    exact ⟨_, fun level => ⟨_, .ite isToken derives_number (isPlain .then_) derives_number
      (isPlain .else_) derives_number⟩⟩
  | _ =>
    rw [isToken] at starts
    cases starts

end Fill

/-- These tokens, and then the end of the input. -/
def streamOf (p : List Lexeme) : TokenStream := ⟨fun i => p.getD i (plain .eof), 0⟩

theorem upcoming_streamOf (p : List Lexeme) :
    (Parser.new (streamOf p)).upcoming p.length = p := by
  apply List.ext_getElem
  · simp [Parser.upcoming]
  · intro i small _
    simp [Parser.upcoming, Parser.new, Parser.consumed, streamOf] at small ⊢
    simp [small]

/-- No expression begins with tokens on which parsing fails. -/
theorem Fails.not_viable {p : List Lexeme} {f : Failure} (fails : Fails .sum p f) : ¬ Viable p := by
  rintro ⟨more, e, derives⟩
  rcases Parser.reads_upcoming (Parser.valid_new (streamOf (p ++ more))) (p ++ more).length
    with ⟨s', reads⟩
  rw [upcoming_streamOf] at reads
  have valid := Parser.upcoming_of_reads reads (Parser.valid_new _)
  have ended : s'.ahead = .eof := by
    rw [valid.1.ahead_eq, valid.2.1, valid.2.2.1]
    simp [Parser.new, Parser.consumed, streamOf, isPlain]
  -- one run returns a tree
  rcases (parseExpression_iff _ s'.peeked e).mpr ⟨p ++ more, reads.peeked, s'.peeked_peeked,
    derives, by rw [Parser.ahead_peeked, ended]; rfl⟩ with ⟨m, returned⟩
  -- and one fails
  rcases List.eq_nil_or_concat' p with rfl | ⟨q, l, rfl⟩
  · exact fails.ne_nil rfl
  rw [List.append_assoc q [l] more] at reads returned
  rcases reads.split with ⟨s₁, first, second⟩
  have advances := first.after (second.tail.1 ▸ Advances.single s₁)
  rcases (parseExpression_failed_iff _ _ f).mpr ⟨_, advances, fails⟩ with ⟨n, failed⟩
  have same := parseExpression_unique (m := m) (n := n) (by rw [returned]; simp)
    (by rw [failed]; simp)
  rw [returned, failed] at same
  cases same

/-- Where an expression has to start, these tokens may come next. -/
theorem Wants.viable_iff {p : List Lexeme} (wants : Wants .sum p) (l : Lexeme) :
    Viable (p ++ [l]) ↔ l.token.starts = true := by
  constructor
  · intro viable
    by_contra notStart
    exact (wants.fails (Bool.not_eq_true _ ▸ notStart)).not_viable viable
  · intro starts
    rcases fills_of_starts starts with ⟨more, fills⟩
    rcases wants.fill fills with ⟨more', e, derives⟩
    exact ⟨more ++ more', e, by simpa only [List.append_assoc, List.cons_append, List.nil_append]
      using derives⟩

theorem Viable.left {p q : List Lexeme} (viable : Viable (p ++ q)) : Viable p := by
  rcases viable with ⟨more, e, derives⟩
  exact ⟨q ++ more, e, by rwa [← List.append_assoc]⟩

theorem Wants.viable {p : List Lexeme} (wants : Wants .sum p) : Viable p :=
  ((wants.viable_iff (plain .number)).mpr rfl).left

section Reading

variable {L : Type} [Lexer L] {s s' : Parser L} {p : List Lexeme}

/-- Reading a token empties the buffer. -/
theorem Parser.peekToken_advance (s : Parser L) : s.advance.peekToken = none := by
  unfold Parser.advance
  split
  · rfl
  · assumption

theorem Advances.peekToken (advances : Advances s p s') (nonempty : p ≠ []) :
    s'.peekToken = none := by
  induction advances with
  | done => exact absurd rfl nonempty
  | @token s s' p rest ih =>
    cases p with
    | nil =>
      cases rest
      exact s.peekToken_advance
    | cons l p => exact ih (List.cons_ne_nil l p)

/-- An exception is thrown right after the first token that no expression can start with where one
has to, and the buffer is empty then. -/
theorem parseExpression_thrown {fuel : Nat} {e : ParserException}
    (ran : parseExpression defaultInfixBp fuel s = .failed (.exception e) s') :
    s'.peekToken = none ∧ ∃ p l, Advances s (p ++ [l]) s' ∧ Viable p ∧
      (∀ l', Viable (p ++ [l']) ↔ l'.token.starts = true) ∧ l.token.starts = false ∧
      e = invalidToken l.token := by
  rcases (parseExpression_failed_iff s s' _).mp ⟨fuel, ran⟩ with ⟨p, advances, fails⟩
  rcases fails.wants rfl with ⟨q, l, rfl, wants, notStart, eq⟩
  exact ⟨advances.peekToken (by simp), q, l, advances, wants.viable, wants.viable_iff, notStart, eq⟩

end Reading

end Lambcalc.Parse
