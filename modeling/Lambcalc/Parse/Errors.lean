import Lambcalc.Parse.Correct
import Lambcalc.Parse.Lexer

/-!
# How parsing fails

`Fails` says, with derivations of the grammar, which tokens end a call of the parser and how: the
last of them is the offending one. Where an expression has to start, the parser throws an
exception; where it expects a certain token, it asserts (`Expects`).
-/

namespace Lambcalc.Parse

open Ast Lib

/-! ## The grammar of failures -/

/-- After the tokens `p`, the assertion `message` is on the next token, and `l` fails it. What
follows an expression has to be a token that does not continue it. -/
inductive Expects : List Lexeme → Lexeme → String → Prop
  | param {fn l : Lexeme} :
    fn.token = .fn → l.token ≠ .identifier → Expects [fn] l "Expected variable parameter"
  | arrow {fn x l : Lexeme} :
    fn.token = .fn → x.token = .identifier → l.token ≠ .arrow →
    Expects [fn, x] l "Expected arrow after function parameter"
  | rParen {left l : Lexeme} {p : List Lexeme} {e : Exp} :
    left.token = .lParen → Derives .ending .sum p e → l.token.rank = 0 → l.token ≠ .rParen →
    Expects (left :: p) l "Expected right parenthesis"
  | then_ {if_ l : Lexeme} {p : List Lexeme} {e : Exp} :
    if_.token = .if_ → Derives .ending .sum p e → l.token.rank = 0 → l.token ≠ .then_ →
    Expects (if_ :: p) l "Expected then after if condition"
  | else_ {if_ then_ l : Lexeme} {p q : List Lexeme} {e1 e2 : Exp} :
    if_.token = .if_ → Derives .ending .sum p e1 → then_.token = .then_ →
    Derives .ending .sum q e2 → l.token.rank = 0 → l.token ≠ .else_ →
    Expects (if_ :: (p ++ then_ :: q)) l "Expected else after then expression"

/-- After the tokens `p` of a primary, an expression has to follow. -/
inductive Opens : List Lexeme → Prop
  | parens {left : Lexeme} : left.token = .lParen → Opens [left]
  | fn {fn x arrow : Lexeme} :
    fn.token = .fn → x.token = .identifier → arrow.token = .arrow → Opens [fn, x, arrow]
  | cond {if_ : Lexeme} : if_.token = .if_ → Opens [if_]
  | then_ {if_ then_ : Lexeme} {p : List Lexeme} {e : Exp} :
    if_.token = .if_ → Derives .ending .sum p e → then_.token = .then_ →
    Opens (if_ :: (p ++ [then_]))
  | else_ {if_ then_ else_ : Lexeme} {p q : List Lexeme} {e1 e2 : Exp} :
    if_.token = .if_ → Derives .ending .sum p e1 → then_.token = .then_ →
    Derives .ending .sum q e2 → else_.token = .else_ →
    Opens (if_ :: (p ++ then_ :: (q ++ [else_])))

/-- The tokens that a primary can start with. -/
def Token.starts : Token → Bool
  | lParen => true
  | number => true
  | fn => true
  | if_ => true
  | identifier => true
  | _ => false

/-- The exception for a token that no primary starts with. -/
def invalidToken (token : Token) : ParserException :=
  ⟨"Invalid token: " ++ toString token.toInt, token = .eof⟩

/-- Parsing at this level fails, after these tokens. -/
inductive Fails : Level → List Lexeme → Failure → Prop
  | start {level : Level} {l : Lexeme} :
    l.token.starts = false → Fails level [l] (.exception (invalidToken l.token))
  | expected {level : Level} {p : List Lexeme} {l : Lexeme} {message : String} :
    Expects p l message → Fails level (p ++ [l]) (.assertion message)
  | inside {level : Level} {p q : List Lexeme} {f : Failure} :
    Opens p → Fails .sum q f → Fails level (p ++ q) f
  | bop {level : Level} {bop : Bop} {op : Lexeme} {p q : List Lexeme} {e : Exp} {f : Failure} :
    level.rank ≤ (opLevel bop).rank → Derives .closed (opLevel bop) p e →
    op.token = opToken bop → Fails (opLevel bop).next q f → Fails level (p ++ op :: q) f
  | app {level : Level} {l : Lexeme} {p q : List Lexeme} {e : Exp} {f : Failure} :
    level.rank ≤ Level.application.rank → Derives .closed .application p e → l.token.rank = 3 →
    Fails .atom (l :: q) f → Fails level (p ++ l :: q) f

theorem Fails.ne_nil {level : Level} {p : List Lexeme} {f : Failure} (fails : Fails level p f) :
    p ≠ [] := by
  induction fails with
  | start _ => exact List.cons_ne_nil _ _
  | expected _ => exact List.append_ne_nil_of_right_ne_nil _ (List.cons_ne_nil _ _)
  | inside _ _ ih => exact List.append_ne_nil_of_right_ne_nil _ ih
  | bop _ _ _ _ _ => exact List.append_ne_nil_of_right_ne_nil _ (List.cons_ne_nil _ _)
  | app _ _ _ _ _ => exact List.append_ne_nil_of_right_ne_nil _ (List.cons_ne_nil _ _)

section Reading

variable {L : Type} [Lexer L]

/-! ## Reading to the last token -/

/-- `s'` is what `s` becomes by reading these tokens. -/
inductive Advances : Parser L → List Lexeme → Parser L → Prop
  | done {s : Parser L} : Advances s [] s
  | token {s s' : Parser L} {p : List Lexeme} :
    Advances s.advance p s' → Advances s (s.advance.lexeme :: p) s'

namespace Advances

variable {s s' s'' : Parser L} {p q : List Lexeme} {l : Lexeme}

theorem single (s : Parser L) : Advances s [s.advance.lexeme] s.advance := .token .done

theorem reads (advances : Advances s p s') : Reads s p s' := by
  induction advances with
  | done => exact .refl _
  | token _ ih => exact .token ih

theorem of_peeked (advances : Advances s' (l :: p) s'') (eq : s.peeked = s'.peeked) :
    Advances s (l :: p) s'' := by
  have same : s'.advance = s.advance := by
    rw [← Parser.advance_peeked s', ← eq, Parser.advance_peeked]
  cases advances with
  | token advances =>
    rw [same] at advances ⊢
    exact .token advances

theorem split (advances : Advances s (p ++ q) s'') : ∃ s', Reads s p s' ∧ Advances s' q s'' := by
  induction p generalizing s with
  | nil => exact ⟨s, .refl s, advances⟩
  | cons l p ih =>
    cases advances with
    | token advances =>
      obtain ⟨s', first, second⟩ := ih advances
      exact ⟨s', .token first, second⟩

theorem tail (advances : Advances s (l :: p) s') :
    s.advance.lexeme = l ∧ Advances s.advance p s' := by
  cases advances with
  | token advances => exact ⟨rfl, advances⟩

theorem head (advances : Advances s (l :: p) s') : s.ahead = l.token := advances.reads.head

theorem last (advances : Advances s [l] s') : s.advance = s' := by
  obtain ⟨-, done⟩ := advances.tail
  cases done
  rfl

end Advances

/-- Only the state before the last token matters up to a look ahead. -/
theorem Reads.after {s s' s'' : Parser L} {p q : List Lexeme} {l : Lexeme} (first : Reads s p s')
    (second : Advances s' (l :: q) s'') : Advances s (p ++ l :: q) s'' := by
  induction first with
  | done eq => exact second.of_peeked eq
  | token _ ih => exact .token (ih second)

/-! ## Where the functions of the parser fail -/

section Steps

variable {α : Type} {x : ParserM L Exp} {f : Unit → ParserM L α} {s s' : Parser L}
  {failure : Failure}

theorem expect_eq_failed {token : Token} {message : String} :
    (nextToken >>= fun _ => assertToken token message >>= f) s = .failed failure s' ↔
      (s.ahead ≠ token ∧ s.advance = s' ∧ .assertion message = failure) ∨
      (s.ahead = token ∧ f () s.advance = .failed failure s') := by
  rw [expect_apply]
  by_cases eq : s.ahead = token
  · simp [eq]
  · simp [eq, and_comm]

theorem parseParens_eq_failed : parseParens x s = .failed failure s' ↔
    x s = .failed failure s' ∨ ∃ e s₁, x s = .returned e s₁ ∧ s₁.ahead ≠ .rParen ∧
      s₁.advance = s' ∧ .assertion "Expected right parenthesis" = failure := by
  unfold parseParens
  rw [Computation.bind_eq_failed]
  refine or_congr_right (exists_congr fun e => exists_congr fun s₁ => and_congr_right fun _ => ?_)
  rw [expect_eq_failed]
  refine or_iff_left fun passes => ?_
  cases passes.2

/-- Where a `fn` fails: at its parameter, at its arrow or in its body. -/
theorem parseFn_eq_failed : parseFn x s = .failed failure s' ↔
    (s.ahead ≠ .identifier ∧ s.advance = s' ∧
      .assertion "Expected variable parameter" = failure) ∨
    (s.ahead = .identifier ∧
      ((s.advance.ahead ≠ .arrow ∧ s.advance.advance = s' ∧
        .assertion "Expected arrow after function parameter" = failure) ∨
      (s.advance.ahead = .arrow ∧ x s.advance.advance = .failed failure s'))) := by
  unfold parseFn
  rw [expect_eq_failed]
  refine or_congr_right (and_congr_right fun _ => ?_)
  rw [getIdentifier, Computation.update_bind_apply, expect_eq_failed]
  refine or_congr_right (and_congr_right fun _ => ?_)
  rw [Computation.bind_eq_failed]
  refine or_iff_left fun returns => ?_
  obtain ⟨body, s₁, -, last⟩ := returns
  cases last

/-- Where an `if` fails: in one of its three expressions or at the token between two of them. -/
theorem parseIf_eq_failed : parseIf x s = .failed failure s' ↔
    x s = .failed failure s' ∨ ∃ e1 s₁, x s = .returned e1 s₁ ∧
      ((s₁.ahead ≠ .then_ ∧ s₁.advance = s' ∧
        .assertion "Expected then after if condition" = failure) ∨
      (s₁.ahead = .then_ ∧ (x s₁.advance = .failed failure s' ∨
        ∃ e2 s₂, x s₁.advance = .returned e2 s₂ ∧
          ((s₂.ahead ≠ .else_ ∧ s₂.advance = s' ∧
            .assertion "Expected else after then expression" = failure) ∨
          (s₂.ahead = .else_ ∧ x s₂.advance = .failed failure s'))))) := by
  unfold parseIf
  rw [Computation.bind_eq_failed]
  refine or_congr_right (exists_congr fun e1 => exists_congr fun s₁ => and_congr_right fun _ => ?_)
  rw [expect_eq_failed]
  refine or_congr_right (and_congr_right fun _ => ?_)
  rw [Computation.bind_eq_failed]
  refine or_congr_right (exists_congr fun e2 => exists_congr fun s₂ => and_congr_right fun _ => ?_)
  rw [expect_eq_failed]
  refine or_congr_right (and_congr_right fun _ => ?_)
  rw [Computation.bind_eq_failed]
  refine or_iff_left fun returns => ?_
  obtain ⟨e3, s₃, -, last⟩ := returns
  cases last

end Steps

/-! ## Soundness -/

/-- Where `x` fails, it has read tokens after which parsing fails like this. -/
def FailsSound (level : Level) (x : ParserM L Exp) : Prop :=
  ∀ s f s', x s = .failed f s' → ∃ p, Advances s p s' ∧ Fails level p f

/-- Where a primary fails, the tokens read are those of a phrase that fails at every level. The
cases are those of the first token: where the expression within fails, and where the token after it
is another one. -/
theorem parsePrimary_fails {x : ParserM L Exp} (sound : Sound .sum x) (fails : FailsSound .sum x)
    {s s' : Parser L} {f : Failure} (ran : parsePrimary x s.advance = .failed f s') :
    ∃ p, Advances s p s' ∧ ∀ level, Fails level p f := by
  have expression : ∀ {s e s'}, x s = .returned e s' →
      ∃ p, Reads s p s' ∧ Derives .ending .sum p e ∧ s'.ahead.rank = 0 := by
    intro s e s' ran
    obtain ⟨p, reads, -, parsed⟩ := sound _ _ _ ran
    exact ⟨p, reads, parsed.expression⟩
  have current : ∀ s : Parser L, s.advance.lexeme.token = s.ahead := Parser.currentToken_advance
  -- an expression within the primary fails
  have inside : ∀ {s₀ s₁ : Parser L} {p : List Lexeme}, Opens p → Reads s₀ p s₁ →
      x s₁ = .failed f s' → ∃ q, Advances s₀ q s' ∧ ∀ level, Fails level q f := by
    intro s₀ s₁ p opens reads ran
    obtain ⟨q, advances, failing⟩ := fails _ _ _ ran
    cases q with
    | nil => exact absurd rfl failing.ne_nil
    | cons l q => exact ⟨_, reads.after advances, fun level => .inside opens failing⟩
  cases token : s.ahead with
  | lParen =>
    have isLeft := (current s).trans token
    rw [parsePrimary_of_token token] at ran
    rcases parseParens_eq_failed.mp ran with inner | ⟨e, s₁, inner, notRight, rfl, rfl⟩
    · exact inside (.parens isLeft) (.single s) inner
    · obtain ⟨p, reads, derives, rank⟩ := expression inner
      refine ⟨_, (Reads.token reads).after (.single s₁), fun level => .expected ?_⟩
      exact .rParen isLeft derives ((current s₁).symm ▸ rank) ((current s₁).symm ▸ notRight)
  | fn =>
    have isFn := (current s).trans token
    rw [parsePrimary_of_token token] at ran
    rcases parseFn_eq_failed.mp ran with ⟨notName, rfl, rfl⟩ | ⟨isName, rest⟩
    · refine ⟨_, (Reads.single s).after (.single s.advance), fun level => .expected ?_⟩
      exact .param isFn ((current _).symm ▸ notName)
    · have reads2 := Reads.token (.single s.advance)
      rcases rest with ⟨notArrow, rfl, rfl⟩ | ⟨isArrow, inner⟩
      · refine ⟨_, reads2.after (.single s.advance.advance), fun level => .expected ?_⟩
        exact .arrow isFn ((current _).trans isName) ((current _).symm ▸ notArrow)
      · exact inside (.fn isFn ((current _).trans isName) ((current _).trans isArrow))
          (.token (.token (.single _))) inner
  | if_ =>
    have isIf := (current s).trans token
    rw [parsePrimary_of_token token] at ran
    rcases parseIf_eq_failed.mp ran with inner | ⟨e1, s₁, ran1, rest⟩
    · exact inside (.cond isIf) (.single s) inner
    · obtain ⟨p, reads1, derives1, rank1⟩ := expression ran1
      rcases rest with ⟨notThen, rfl, rfl⟩ | ⟨isThen, inner | ⟨e2, s₂, ran2, rest⟩⟩
      · refine ⟨_, (Reads.token reads1).after (.single s₁), fun level => .expected ?_⟩
        exact .then_ isIf derives1 ((current _).symm ▸ rank1) ((current _).symm ▸ notThen)
      · exact inside (.then_ isIf derives1 ((current _).trans isThen))
          (.token (reads1.append (.single s₁))) inner
      · obtain ⟨q, reads2, derives2, rank2⟩ := expression ran2
        have readsThen := Reads.token (reads1.append (.token reads2))
        rcases rest with ⟨notElse, rfl, rfl⟩ | ⟨isElse, inner⟩
        · refine ⟨_, readsThen.after (.single s₂), fun level => .expected ?_⟩
          exact .else_ isIf derives1 ((current _).trans isThen) derives2
            ((current _).symm ▸ rank2) ((current _).symm ▸ notElse)
        · exact inside (.else_ isIf derives1 ((current _).trans isThen) derives2
            ((current _).trans isElse))
            (.token (reads1.append (.token (reads2.append (.single s₂))))) inner
  | number =>
    rw [parsePrimary_of_token token] at ran
    cases ran
  | identifier =>
    rw [parsePrimary_of_token token] at ran
    cases ran
  | _ =>
    rw [parsePrimary_of_token token] at ran
    cases ran
    refine ⟨_, .single s, fun level => ?_⟩
    have notStart : s.advance.lexeme.token.starts = false := by
      rw [current, token]
      rfl
    have failing : Fails level _ _ := .start notStart
    rw [current, token] at failing
    exact failing

/-- `parseBinOp` and its loop fail the way the tokens say that they have read. -/
theorem parse_fails (fuel : Nat) :
    (∀ level, FailsSound level (parseLevel (L := L) fuel level)) ∧
    ∀ level lhs p (s₀ s : Parser L), Reads s₀ p s → LeftOperand level p lhs s.ahead.rank →
      ∀ f s', parseRest fuel level lhs s = .failed f s' →
        ∃ q, Advances s₀ q s' ∧ Fails level q f := by
  induction fuel with
  | zero =>
    constructor
    · intro level s f s' ran
      cases ran
    · intro level lhs p s₀ s reads operand f s' ran
      cases ran
  | succ fuel ih =>
    obtain ⟨ihLevel, ihRest⟩ := ih
    have sound := (parse_sound (L := L) fuel).1
    constructor
    · intro level s f s' ran
      rw [parseLevel_succ] at ran
      rcases Computation.bind_eq_failed.mp ran with primary | ⟨lhs, s₁, primary, rest⟩
      · obtain ⟨p, advances, failing⟩ := parsePrimary_fails (sound .sum) (ihLevel .sum) primary
        exact ⟨p, advances, failing level⟩
      · obtain ⟨p, reads, atom | ⟨ending, none⟩⟩ := parsePrimary_sound (sound .sum) primary
        · have small : s₁.ahead.rank ≤ Level.atom.rank := (Token.rank_le _).trans (by decide)
          exact ihRest level lhs p s s₁ reads (.inl ⟨.atom, atom, level.rank_le, small⟩) f s' rest
        · exact ihRest level lhs p s s₁ reads (.inr ⟨ending level, none⟩) f s' rest
    · intro level lhs p s₀ s reads operand f s' ran
      rcases ahead_cases s.ahead level with loose | ⟨bop, next, le⟩ | ⟨next, le⟩
      · rw [parseRest_stop loose] at ran
        cases ran
      · rw [parseRest_bop next le] at ran
        have left := operand.closed (next ▸ Token.rank_opToken bop)
        have isOp : s.advance.lexeme.token = opToken bop :=
          (Parser.currentToken_advance s).trans next
        rcases Computation.bind_eq_failed.mp ran with right | ⟨rhs, s₁, ranRight, rest⟩
        · obtain ⟨q, advances, failing⟩ := ihLevel _ _ _ _ right
          exact ⟨_, reads.after (.token advances), .bop le left isOp failing⟩
        · obtain ⟨q, readsRight, -, parsed⟩ := sound _ _ _ _ ranRight
          exact ihRest level _ _ s₀ s₁ (reads.append (.token readsRight))
            (.bop left isOp parsed le) f s' rest
      · rw [parseRest_app next le] at ran
        have left : Derives .closed .application p lhs := operand.closed next
        rcases Computation.bind_eq_failed.mp ran with right | ⟨rhs, s₁, ranRight, rest⟩
        · obtain ⟨q, advances, failing⟩ := ihLevel _ _ _ _ right
          cases q with
          | nil => exact absurd rfl failing.ne_nil
          | cons l q =>
            have advances' := advances.of_peeked (Parser.peeked_peeked s).symm
            refine ⟨_, reads.after advances', .app le left ?_ failing⟩
            rw [← advances'.head]
            exact next
        · obtain ⟨q, readsRight, -, parsed⟩ := sound _ _ _ _ ranRight
          have readsArgument := readsRight.of_peeked (Parser.peeked_peeked s).symm
          have argument := parsed.argument readsArgument next
          exact ihRest level _ _ s₀ s₁ (reads.append readsArgument)
            (.app left argument (Token.rank_le _) le) f s' rest

/-! ## Completeness -/

section Phrases

variable {level : Level} {p q : List Lexeme} {f : Failure} {s s₁ s' : Parser L}

theorem parseLevel_of_failed (fuel : Nat)
    (primary : parsePrimary (parseLevel fuel .sum) s.advance = .failed f s') :
    ∃ fuel, parseLevel fuel level s = .failed f s' :=
  ⟨fuel + 1, by rw [parseLevel_succ, Computation.bind_of_failed primary]⟩

theorem parseLevel_failed_mono {m n : Nat} (le : m ≤ n)
    (ran : parseLevel m level s = .failed f s') :
    parseLevel n level s = .failed f s' := by
  rw [(parseLevel_mono le level).ends (by simp [ran]), ran]

/-- Where the tokens of an expression are next, followed by one that does not continue it. -/
theorem parses_expression {l : Lexeme} {e : Exp} (derives : Derives .ending .sum p e)
    (reads : Reads s p s₁) (next : Advances s₁ (l :: q) s') (rank : l.token.rank = 0) :
    ∃ fuel, parseLevel fuel .sum s = .returned e s₁.peeked :=
  arrives_of_derives derives .sum s s₁ le_rfl reads (by rw [next.head, rank])

/-- An expression within a primary fails. -/
theorem parseLevel_of_opens (opens : Opens p) {q : List Lexeme} (advances : Advances s (p ++ q) s')
    (fails : ∀ {s}, Advances s q s' → ∃ fuel, parseLevel fuel .sum s = .failed f s') :
    ∃ fuel, parseLevel fuel level s = .failed f s' := by
  cases opens with
  | parens isLeft =>
    obtain ⟨m, ran⟩ := fails advances.tail.2
    refine parseLevel_of_failed m ?_
    rw [parsePrimary_of_token (advances.head.trans isLeft)]
    exact parseParens_eq_failed.mpr (.inl ran)
  | fn isFn isName isArrow =>
    have advances1 := advances.tail.2
    have advances2 := advances1.tail.2
    obtain ⟨m, ran⟩ := fails advances2.tail.2
    refine parseLevel_of_failed m ?_
    rw [parsePrimary_of_token (advances.head.trans isFn)]
    exact parseFn_eq_failed.mpr (.inr ⟨advances1.head.trans isName,
      .inr ⟨advances2.head.trans isArrow, ran⟩⟩)
  | cond isIf =>
    obtain ⟨m, ran⟩ := fails advances.tail.2
    refine parseLevel_of_failed m ?_
    rw [parsePrimary_of_token (advances.head.trans isIf)]
    exact parseIf_eq_failed.mpr (.inl ran)
  | @then_ if_ then_ p e isIf derives isThen =>
    rw [List.cons_append, List.append_assoc] at advances
    obtain ⟨s₁, reads, next⟩ := advances.tail.2.split
    obtain ⟨m, ran1⟩ := parses_expression derives reads next (by rw [isThen]; rfl)
    obtain ⟨n, ran2⟩ := fails next.tail.2
    refine parseLevel_of_failed (max m n) ?_
    rw [parsePrimary_of_token (advances.head.trans isIf)]
    refine parseIf_eq_failed.mpr (.inr ⟨e, s₁.peeked, ?_, .inr ⟨?_, .inl ?_⟩⟩)
    · exact (parseLevel_mono (le_max_left m n) _).returned ran1
    · rw [Parser.ahead_peeked, next.head, isThen]
    · rw [Parser.advance_peeked]
      exact parseLevel_failed_mono (le_max_right m n) ran2
  | @else_ if_ then_ else_ p1 p2 e1 e2 isIf derives1 isThen derives2 isElse =>
    rw [List.cons_append, List.append_assoc, List.cons_append, List.append_assoc] at advances
    obtain ⟨s₁, reads1, next1⟩ := advances.tail.2.split
    obtain ⟨s₂, reads2, next2⟩ := next1.tail.2.split
    obtain ⟨m1, ran1⟩ := parses_expression derives1 reads1 next1 (by rw [isThen]; rfl)
    obtain ⟨m2, ran2⟩ := parses_expression derives2 reads2 next2 (by rw [isElse]; rfl)
    obtain ⟨m3, ran3⟩ := fails next2.tail.2
    refine parseLevel_of_failed (max m1 (max m2 m3)) ?_
    rw [parsePrimary_of_token (advances.head.trans isIf)]
    refine parseIf_eq_failed.mpr (.inr ⟨e1, s₁.peeked, ?_, .inr ⟨?_, .inr ⟨e2, s₂.peeked, ?_,
      .inr ⟨?_, ?_⟩⟩⟩⟩)
    · exact (parseLevel_mono (by omega) _).returned ran1
    · rw [Parser.ahead_peeked, next1.head, isThen]
    · rw [Parser.advance_peeked]
      exact (parseLevel_mono (by omega) _).returned ran2
    · rw [Parser.ahead_peeked, next2.head, isElse]
    · rw [Parser.advance_peeked]
      exact parseLevel_failed_mono (by omega) ran3

/-- An assertion within a primary fails. -/
theorem parseLevel_of_expects {l : Lexeme} {message : String} (expects : Expects p l message)
    (advances : Advances s (p ++ [l]) s') :
    ∃ fuel, parseLevel fuel level s = .failed (.assertion message) s' := by
  cases expects with
  | param isFn notName =>
    have advances1 := advances.tail.2
    refine parseLevel_of_failed 0 ?_
    rw [parsePrimary_of_token (advances.head.trans isFn)]
    exact parseFn_eq_failed.mpr (.inl ⟨advances1.head ▸ notName, advances1.last, rfl⟩)
  | arrow isFn isName notArrow =>
    have advances1 := advances.tail.2
    have advances2 := advances1.tail.2
    refine parseLevel_of_failed 0 ?_
    rw [parsePrimary_of_token (advances.head.trans isFn)]
    exact parseFn_eq_failed.mpr (.inr ⟨advances1.head.trans isName,
      .inl ⟨advances2.head ▸ notArrow, advances2.last, rfl⟩⟩)
  | rParen isLeft derives rank notRight =>
    obtain ⟨s₁, reads, next⟩ := advances.tail.2.split
    obtain ⟨m, ran⟩ := parses_expression derives reads next rank
    refine parseLevel_of_failed m ?_
    rw [parsePrimary_of_token (advances.head.trans isLeft)]
    refine parseParens_eq_failed.mpr (.inr ⟨_, s₁.peeked, ran, ?_, ?_, rfl⟩)
    · rwa [Parser.ahead_peeked, next.head]
    · rw [Parser.advance_peeked, next.last]
  | then_ isIf derives rank notThen =>
    obtain ⟨s₁, reads, next⟩ := advances.tail.2.split
    obtain ⟨m, ran⟩ := parses_expression derives reads next rank
    refine parseLevel_of_failed m ?_
    rw [parsePrimary_of_token (advances.head.trans isIf)]
    refine parseIf_eq_failed.mpr (.inr ⟨_, s₁.peeked, ran, .inl ⟨?_, ?_, rfl⟩⟩)
    · rwa [Parser.ahead_peeked, next.head]
    · rw [Parser.advance_peeked, next.last]
  | @else_ if_ then_ l p1 p2 e1 e2 isIf derives1 isThen derives2 rank notElse =>
    rw [List.cons_append, List.append_assoc] at advances
    obtain ⟨s₁, reads1, next1⟩ := advances.tail.2.split
    obtain ⟨s₂, reads2, next2⟩ := next1.tail.2.split
    obtain ⟨m, ran1⟩ := parses_expression derives1 reads1 next1 (by rw [isThen]; rfl)
    obtain ⟨n, ran2⟩ := parses_expression derives2 reads2 next2 rank
    refine parseLevel_of_failed (max m n) ?_
    rw [parsePrimary_of_token (advances.head.trans isIf)]
    refine parseIf_eq_failed.mpr (.inr ⟨e1, s₁.peeked, ?_, .inr ⟨?_, .inr ⟨e2, s₂.peeked, ?_,
      .inl ⟨?_, ?_, rfl⟩⟩⟩⟩)
    · exact (parseLevel_mono (le_max_left m n) _).returned ran1
    · rw [Parser.ahead_peeked, next1.head, isThen]
    · rw [Parser.advance_peeked]
      exact (parseLevel_mono (le_max_right m n) _).returned ran2
    · rwa [Parser.ahead_peeked, next2.head]
    · rw [Parser.advance_peeked, next2.last]

end Phrases

/-- Where these tokens are next, parsing fails. -/
theorem parseLevel_of_fails {level : Level} {p : List Lexeme} {f : Failure}
    (fails : Fails level p f) {s s' : Parser L} (advances : Advances s p s') :
    ∃ fuel, parseLevel fuel level s = .failed f s' := by
  induction fails generalizing s with
  | @start level l notStart =>
    refine parseLevel_of_failed 0 ?_
    rw [parsePrimary_of_token advances.head, ← advances.last]
    revert notStart
    cases l.token with
    | lParen => exact (nomatch ·)
    | number => exact (nomatch ·)
    | identifier => exact (nomatch ·)
    | fn => exact (nomatch ·)
    | if_ => exact (nomatch ·)
    | _ => exact fun _ => rfl
  | expected expects => exact parseLevel_of_expects expects advances
  | inside opens _ ih => exact parseLevel_of_opens opens advances ih
  | @bop level bop op p q e f le left isOp _ ih =>
    obtain ⟨s₁, reads, next⟩ := advances.split
    obtain ⟨m, ran⟩ := ih next.tail.2
    have isNext := next.head.trans isOp
    refine arrives_of_derives left level s s₁ le reads
      (by rw [isNext, Token.rank_opToken]) (m + 1) _ ?_ (by simp)
    rw [parseRest_bop isNext le]
    exact Computation.bind_of_failed ran
  | @app level l p q e f le left starts _ ih =>
    obtain ⟨s₁, reads, next⟩ := advances.split
    have isNext : s₁.ahead.rank = Level.application.rank := next.head ▸ starts
    obtain ⟨m, ran⟩ := ih (next.of_peeked (Parser.peeked_peeked s₁))
    refine arrives_of_derives left level s s₁ le reads isNext.le (m + 1) _ ?_ (by simp)
    rw [parseRest_app isNext le]
    exact Computation.bind_of_failed ran

/-- `parseExpression` fails exactly where the tokens say so, after the offending token. -/
theorem parseExpression_failed_iff (s s' : Parser L) (f : Failure) :
    (∃ fuel, parseExpression defaultInfixBp fuel s = .failed f s') ↔
      ∃ p, Advances s p s' ∧ Fails .sum p f := by
  constructor
  · intro ran
    obtain ⟨fuel, ran⟩ := ran
    exact (parse_fails fuel).1 .sum s f s' ran
  · intro found
    obtain ⟨p, advances, fails⟩ := found
    exact parseLevel_of_fails fails advances

/-! ## Termination -/

/-- From the `n`-th token on, the tokens are `Eof`. -/
def EndsIn (s : Parser L) (n : Nat) : Prop := ∀ k, n ≤ k → (Parser.advance^[k] s).ahead = .eof

section Ends

variable {s s' : Parser L} {n : Nat} {p : List Lexeme}

theorem EndsIn.advance (ends : EndsIn s n) : EndsIn s.advance (n - 1) :=
  fun k le => ends (k + 1) (by omega)

theorem EndsIn.mono {m : Nat} (ends : EndsIn s m) (le : m ≤ n) : EndsIn s n :=
  fun k le' => ends k (le.trans le')

theorem EndsIn.congr (ends : EndsIn s n) (eq : s.peeked = s'.peeked) : EndsIn s' n := by
  intro k le
  have ahead := ends k le
  cases k with
  | zero =>
    show s'.ahead = .eof
    rw [← Parser.ahead_peeked, ← eq, Parser.ahead_peeked]
    exact ahead
  | succ k =>
    rw [Function.iterate_succ_apply] at ahead ⊢
    rwa [← Parser.advance_peeked, ← eq, Parser.advance_peeked]

theorem EndsIn.reads (ends : EndsIn s n) (reads : Reads s p s') : EndsIn s' (n - p.length) := by
  induction reads generalizing n with
  | done eq => exact ends.congr eq
  | token _ ih =>
    have rest := ih ends.advance
    rwa [Nat.sub_sub, Nat.add_comm] at rest

/-- Where a token other than `Eof` comes next, there is something left. -/
theorem EndsIn.pos (ends : EndsIn s n) (next : s.ahead ≠ .eof) : 0 < n :=
  Nat.pos_of_ne_zero fun zero => next (ends 0 zero.le)

variable {x : ParserM L Exp} {m : Nat}

/-- A primary ends if the expressions in it do, which have fewer tokens. -/
theorem parsePrimary_ends (ends : EndsIn s.advance n) (sound : Sound .sum x)
    (parses : ∀ s, EndsIn s n → x s ≠ .unfinished) :
    parsePrimary x s.advance ≠ .unfinished := by
  have later : ∀ {s e s'}, EndsIn s n → x s = .returned e s' → EndsIn s' n := by
    intro s e s' ends ran
    obtain ⟨p, reads, -⟩ := sound s e s' ran
    exact (ends.reads reads).mono (by omega)
  have advance : ∀ {s : Parser L}, EndsIn s n → EndsIn s.advance n := fun ends =>
    ends.advance.mono (by omega)
  intro ran
  cases token : s.ahead with
  | lParen =>
    have ran : parseParens x s.advance = .unfinished := (parsePrimary_of_token token).symm.trans ran
    unfold parseParens at ran
    rcases Computation.bind_eq_unfinished.mp ran with stops | ⟨e, s₁, -, rest⟩
    · exact parses _ ends stops
    · rw [expect_apply] at rest
      split at rest <;> cases rest
  | fn =>
    have ran : parseFn x s.advance = .unfinished := (parsePrimary_of_token token).symm.trans ran
    unfold parseFn at ran
    rw [expect_apply] at ran
    split at ran
    · rw [getIdentifier, Computation.update_bind_apply, expect_apply] at ran
      split at ran
      · rcases Computation.bind_eq_unfinished.mp ran with stops | ⟨e, s₁, -, rest⟩
        · exact parses _ (advance (advance ends)) stops
        · cases rest
      · cases ran
    · cases ran
  | if_ =>
    have ran : parseIf x s.advance = .unfinished := (parsePrimary_of_token token).symm.trans ran
    unfold parseIf at ran
    rcases Computation.bind_eq_unfinished.mp ran with stops | ⟨e1, s₁, ran1, rest⟩
    · exact parses _ ends stops
    · have ends1 := advance (later ends ran1)
      rw [expect_apply] at rest
      split at rest
      · rcases Computation.bind_eq_unfinished.mp rest with stops | ⟨e2, s₂, ran2, rest⟩
        · exact parses _ ends1 stops
        · have ends2 := advance (later ends1 ran2)
          rw [expect_apply] at rest
          split at rest
          · rcases Computation.bind_eq_unfinished.mp rest with stops | ⟨e3, s₃, -, rest⟩
            · exact parses _ ends2 stops
            · cases rest
          · cases rest
      · cases rest
  | _ =>
    rw [parsePrimary_of_token token] at ran
    cases ran

end Ends

/-- On `n` tokens, `parseBinOp` and its loop end with fuel for two calls a token. -/
theorem parse_ends (fuel : Nat) :
    (∀ n level (s : Parser L), EndsIn s n → 2 * n + 1 ≤ fuel →
      parseLevel fuel level s ≠ .unfinished) ∧
    ∀ n level lhs (s : Parser L), EndsIn s n → 2 * n + 2 ≤ fuel →
      parseRest fuel level lhs s ≠ .unfinished := by
  induction fuel with
  | zero =>
    constructor
    · intro n level s _ le
      omega
    · intro n level lhs s _ le
      omega
  | succ fuel ih =>
    obtain ⟨ihLevel, ihRest⟩ := ih
    have sound := (parse_sound (L := L) fuel).1
    have shorter : ∀ {n level e} {s s' : Parser L}, EndsIn s n →
        parseLevel fuel level s = .returned e s' → EndsIn s' (n - 1) := by
      intro n level e s s' ends ran
      obtain ⟨p, reads, -, parsed⟩ := sound level s e s' ran
      have nonempty : p ≠ [] := parsed.elim (fun closed => closed.1.ne_nil) fun ending =>
        ending.1.ne_nil
      have length := List.length_pos_iff.mpr nonempty
      exact (ends.reads reads).mono (by omega)
    constructor
    · intro n level s ends le ran
      rw [parseLevel_succ] at ran
      by_cases zero : n = 0
      · -- at the end of the input, no primary starts
        have failed : parsePrimary (parseLevel fuel .sum) s.advance =
            .failed (.exception (invalidToken .eof)) s.advance := by
          have eof : s.ahead = .eof := ends 0 zero.le
          rw [parsePrimary_of_token eof]
          rfl
        rw [Computation.bind_of_failed failed] at ran
        cases ran
      · rcases Computation.bind_eq_unfinished.mp ran with stops | ⟨lhs, s₁, primary, rest⟩
        · refine parsePrimary_ends ends.advance (sound .sum) (fun s' ends' => ?_) stops
          exact ihLevel (n - 1) .sum s' ends' (by omega)
        · obtain ⟨p, reads, derived⟩ := parsePrimary_sound (sound .sum) primary
          have nonempty : p ≠ [] :=
            derived.elim (fun atom => atom.ne_nil) fun ending => (ending.1 .sum).ne_nil
          have length := List.length_pos_iff.mpr nonempty
          exact ihRest (n - 1) level lhs s₁ ((ends.reads reads).mono (by omega)) (by omega) rest
    · intro n level lhs s ends le ran
      rcases ahead_cases s.ahead level with loose | ⟨bop, next, tight⟩ | ⟨next, tight⟩
      · rw [parseRest_stop loose] at ran
        cases ran
      · have pos : 0 < n := ends.pos (next ▸ by cases bop <;> exact Token.noConfusion)
        rw [parseRest_bop next tight] at ran
        rcases Computation.bind_eq_unfinished.mp ran with stops | ⟨rhs, s₁, ranRight, rest⟩
        · exact ihLevel (n - 1) _ _ ends.advance (by omega) stops
        · exact ihRest (n - 1) level _ s₁ ((shorter ends.advance ranRight).mono (by omega))
            (by omega) rest
      · have pos : 0 < n := ends.pos fun eof => by
          rw [eof] at next
          cases next
        have ends' : EndsIn s.peeked n := ends.congr (Parser.peeked_peeked s).symm
        rw [parseRest_app next tight] at ran
        rcases Computation.bind_eq_unfinished.mp ran with stops | ⟨rhs, s₁, ranRight, rest⟩
        · exact ihLevel n _ _ ends' (by omega) stops
        · exact ihRest (n - 1) level _ s₁ (shorter ends' ranRight) (by omega) rest

/-- Two runs that end, end the same way. -/
theorem parseExpression_unique {m n : Nat} {s : Parser L}
    (ends : parseExpression defaultInfixBp m s ≠ .unfinished)
    (ends' : parseExpression defaultInfixBp n s ≠ .unfinished) :
    parseExpression defaultInfixBp m s = parseExpression defaultInfixBp n s := by
  rcases le_total m n with le | le
  · exact ((parseLevel_mono le .sum).ends ends).symm
  · exact (parseLevel_mono le .sum).ends ends'

end Reading

/-! ## Texts -/

namespace CharLexer

/-- The number of characters that are left. -/
def left (lexer : CharLexer) : Nat := lexer.lastChar.toList.length + lexer.input.length

theorem left_get (lexer : CharLexer) : lexer.get.left = lexer.input.length := by
  cases input : lexer.input with
  | nil => simp [left, get, input]
  | cons c input => simp [left, get, input, Nat.add_comm]

/-- Reading a word leaves no more characters than there were, and fewer if it is not empty. -/
theorem readWhile_length (p : Char → Bool) (lastChar : Option Char) (input : List Char) :
    (readWhile p lastChar input).2.1.toList.length + (readWhile p lastChar input).2.2.length ≤
        lastChar.toList.length + input.length ∧
      ∀ c, lastChar = some c → p c = true →
        (readWhile p lastChar input).2.1.toList.length + (readWhile p lastChar input).2.2.length <
          lastChar.toList.length + input.length := by
  fun_induction readWhile p lastChar input with
  | case1 input => exact ⟨le_rfl, fun c eq => by cases eq⟩
  | case2 c passes => exact ⟨by simp, fun _ _ _ => by simp⟩
  | case3 c fails =>
    refine ⟨le_rfl, fun c' eq passes => ?_⟩
    cases eq
    exact absurd passes fails
  | case4 c d input passes read rest eq ih =>
    rw [eq] at ih
    have shorter := ih.1
    simp only [Option.toList_some, List.length_cons, List.length_nil] at shorter ⊢
    exact ⟨by omega, fun _ _ _ => by omega⟩
  | case5 c d input fails =>
    refine ⟨le_rfl, fun c' eq passes => ?_⟩
    cases eq
    exact absurd passes fails

/-- A loop reads characters, and the first one if it passes. -/
theorem left_takeWhile (p : Char → Bool) (lexer : CharLexer) :
    (lexer.takeWhile p).2.left ≤ lexer.left ∧
      ∀ c, lexer.lastChar = some c → p c = true → (lexer.takeWhile p).2.left < lexer.left :=
  readWhile_length p lexer.lastChar lexer.input

theorem keyword_ne_eof (identifier : String) : keyword identifier ≠ .eof := by
  unfold keyword
  repeat' split
  all_goals exact Token.noConfusion

theorem ofChar_ne_eof (c : Char) : ofChar c ≠ .eof := by
  unfold ofChar
  repeat' split
  all_goals exact Token.noConfusion

/-- The end of the input comes after white space, and stays. Any other token takes a character. -/
theorem getToken_left (lexer : CharLexer) :
    ((getToken lexer).1 = .eof ∧ (getToken (getToken lexer).2).1 = .eof) ∨
      ((getToken lexer).1 ≠ .eof ∧ (getToken lexer).2.left < lexer.left) := by
  have skipped := (left_takeWhile isspace lexer).1
  generalize skip : (lexer.takeWhile isspace).2 = visible at skipped
  cases last : visible.lastChar with
  | none =>
    have eof : ∀ l : CharLexer, (l.takeWhile isspace).2 = visible →
        getToken l = (.eof, visible) := by
      intro l eq
      unfold getToken
      rw [eq]
      simp only [last]
    have stays : (visible.takeWhile isspace).2 = visible := by
      obtain ⟨input, lastChar, identifier, numberValue⟩ := visible
      cases last
      simp [takeWhile, readWhile]
    rw [eof lexer skip, eof visible stays]
    exact .inl ⟨rfl, rfl⟩
  | some c =>
    have size : visible.left = visible.input.length + 1 := by
      simp [left, last, Nat.add_comm]
    have one := left_get visible
    have two := left_get visible.get
    right
    unfold getToken
    rw [skip]
    simp only [last]
    have input : visible.get.input.length ≤ visible.input.length := by simp [get]
    by_cases arrow : c = '=' ∧ visible.input.head? = some '>'
    · rw [if_pos arrow]
      exact ⟨Token.noConfusion, show visible.get.get.left < _ by omega⟩
    · rw [if_neg arrow]
      by_cases alpha : c.isAlpha = true
      · rw [if_pos alpha]
        have read := (left_takeWhile Char.isAlphanum visible.get).1
        exact ⟨keyword_ne_eof _, show ((visible.get.takeWhile Char.isAlphanum).2).left < _ by omega⟩
      · rw [if_neg alpha]
        by_cases digit : c.isDigit = true
        · rw [if_pos digit]
          have read := (left_takeWhile Char.isDigit visible).2 c last digit
          exact ⟨Token.noConfusion, show ((visible.takeWhile Char.isDigit).2).left < _ by omega⟩
        · rw [if_neg digit]
          exact ⟨ofChar_ne_eof c, show visible.get.left < _ by omega⟩

end CharLexer

/-- The tokens of a text end. -/
theorem endsIn_text (s : Parser CharLexer) : ∃ n, EndsIn s n := by
  have later : ∀ {s : Parser CharLexer} {n : Nat}, EndsIn s.advance n → EndsIn s (n + 1) := by
    intro s n ends k le
    obtain ⟨k, rfl⟩ := Nat.exists_eq_add_of_le' le
    exact ends (k + n) (by omega)
  have atEnd : ∀ k (lexer : CharLexer) current, (CharLexer.getToken lexer).1 = .eof →
      (Parser.advance^[k] ⟨lexer, current, none⟩).ahead = .eof := by
    intro k
    induction k with
    | zero => exact fun lexer current eof => eof
    | succ k ih =>
      intro lexer current eof
      refine ih _ _ ?_
      rcases lexer.getToken_left with ⟨-, again⟩ | ⟨other, -⟩
      · exact again
      · exact absurd eof other
  have unbuffered : ∀ m (lexer : CharLexer) current, lexer.left < m →
      ∃ n, EndsIn ⟨lexer, current, none⟩ n := by
    intro m
    induction m with
    | zero => exact fun lexer current lt => absurd lt (Nat.not_lt_zero _)
    | succ m ih =>
      intro lexer current lt
      rcases lexer.getToken_left with ⟨eof, -⟩ | ⟨-, shorter⟩
      · exact ⟨0, fun k _ => atEnd k lexer current eof⟩
      · obtain ⟨n, ends⟩ := ih (CharLexer.getToken lexer).2 (CharLexer.getToken lexer).1 (by omega)
        exact ⟨n + 1, later ends⟩
  obtain ⟨lexer, current, buffer⟩ := s
  cases buffer with
  | none => exact unbuffered _ lexer current (Nat.lt_succ_self _)
  | some token =>
    obtain ⟨n, ends⟩ := unbuffered _ lexer token (Nat.lt_succ_self _)
    exact ⟨n + 1, later ends⟩

/-- A call of `parseExpression` returns a tree or throws an exception, exactly if the tokens ahead
do not begin with what fails an assertion. -/
theorem parse_reports_iff (s : Parser CharLexer) :
    ((∃ fuel e s', parseExpression defaultInfixBp fuel s = .returned e s') ∨
      ∃ fuel e s', parseExpression defaultInfixBp fuel s = .failed (.exception e) s') ↔
    ∀ p s' message, Advances s p s' → ¬ Fails .sum p (.assertion message) := by
  obtain ⟨n, ends⟩ := endsIn_text s
  have finishes := (parse_ends (2 * n + 1)).1 n .sum s ends le_rfl
  constructor
  · intro reports p s' message advances fails
    obtain ⟨fuel, asserts⟩ := (parseExpression_failed_iff s s' _).mpr ⟨p, advances, fails⟩
    rcases reports with ⟨fuel', e, s'', ran⟩ | ⟨fuel', e, s'', ran⟩
    · have same := parseExpression_unique (m := fuel) (n := fuel') (s := s)
        (by simp [asserts]) (by simp [ran])
      rw [asserts, ran] at same
      cases same
    · have same := parseExpression_unique (m := fuel) (n := fuel') (s := s)
        (by simp [asserts]) (by simp [ran])
      rw [asserts, ran] at same
      cases same
  · intro apart
    cases ran : parseExpression defaultInfixBp (2 * n + 1) s with
    | returned e s' => exact .inl ⟨_, e, s', ran⟩
    | failed f s' =>
      cases f with
      | exception e => exact .inr ⟨_, e, s', ran⟩
      | assertion message =>
        obtain ⟨p, advances, fails⟩ := (parseExpression_failed_iff s s' _).mp ⟨_, ran⟩
        exact absurd fails (apart p s' message advances)
    | unfinished => exact absurd ran finishes

/-- `(1`: at the end of the input, the assertion on the closing parenthesis fails. -/
theorem unclosed_asserts : ∃ fuel s',
    parseExpression defaultInfixBp fuel (Parser.new (CharLexer.new "(1".toList)) =
      .failed (.assertion "Expected right parenthesis") s' ∧
    ¬ ((∃ fuel e s', parseExpression defaultInfixBp fuel (Parser.new (CharLexer.new "(1".toList)) =
        .returned e s') ∨
      ∃ fuel e s', parseExpression defaultInfixBp fuel (Parser.new (CharLexer.new "(1".toList)) =
        .failed (.exception e) s') := by
  refine ⟨10, _, rfl, fun reports => ?_⟩
  have same : ∀ {fuel}, parseExpression defaultInfixBp fuel
        (Parser.new (CharLexer.new "(1".toList)) ≠ .unfinished →
      parseExpression defaultInfixBp 10 (Parser.new (CharLexer.new "(1".toList)) =
        parseExpression defaultInfixBp fuel (Parser.new (CharLexer.new "(1".toList)) :=
    fun ends => parseExpression_unique (by decide) ends
  rcases reports with ⟨fuel, e, s', ran⟩ | ⟨fuel, e, s', ran⟩
  · cases (same (by rw [ran]; simp)).trans ran
  · cases (same (by rw [ran]; simp)).trans ran

end Lambcalc.Parse
