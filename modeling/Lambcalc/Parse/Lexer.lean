import Lambcalc.Parse.Correct
import Mathlib

/-!
# The lexer

`Lexer` of `include/lexer.h` and `src/lexer.cpp`, over a text instead of a stream. Characters are
classified as in the C locale.
-/

namespace Lambcalc.Parse

/-- `isspace`. -/
def isspace (c : Char) : Bool :=
  c = ' ' || c = '\t' || c = '\n' || c.toNat = 11 || c.toNat = 12 || c = '\r'

/-- The fields of `Lexer`. No last character stands for `EOF`. -/
structure CharLexer where
  input : List Char
  lastChar : Option Char
  identifier : String
  numberValue : Int
  deriving DecidableEq, Repr

namespace CharLexer

/-- A new lexer. -/
def new (text : List Char) : CharLexer := ⟨text, some ' ', "", 0⟩

/-- `lastChar_ = in_.get()`. -/
def get (lexer : CharLexer) : CharLexer :=
  { lexer with lastChar := lexer.input.head?, input := lexer.input.tail }

/-- A loop that reads on while the last character passes `p`: the characters that do, the first
one that does not, and the input behind it. -/
def readWhile (p : Char → Bool) : Option Char → List Char → List Char × Option Char × List Char
  | none, input => ([], none, input)
  | some c, [] => if p c then ([c], none, []) else ([], some c, [])
  | some c, d :: input =>
    if p c then
      let (read, rest) := readWhile p (some d) input
      (c :: read, rest)
    else ([], some c, d :: input)

/-- Read on while the last character passes `p`. -/
def takeWhile (p : Char → Bool) (lexer : CharLexer) : List Char × CharLexer :=
  let (read, lastChar, input) := readWhile p lexer.lastChar lexer.input
  (read, { lexer with lastChar := lastChar, input := input })

/-- The token of an identifier. -/
def keyword (identifier : String) : Token :=
  if identifier = "fn" then .fn
  else if identifier = "=>" then .arrow
  else if identifier = "if" then .if_
  else if identifier = "then" then .then_
  else if identifier = "else" then .else_
  else .identifier

/-- `static_cast<Token>`. -/
def ofChar (c : Char) : Token :=
  if c = '(' then .lParen
  else if c = ')' then .rParen
  else if c = '+' then .plus
  else if c = '-' then .minus
  else if c = '*' then .times
  else if c = ';' then .semicolon
  else .other c

/-- `strtod`, assigned to an `int`. The result is exact below 2^53, and its conversion is defined
if it is in the range of `int`; other values are not those of a run. -/
def number (digits : List Char) : Int := Nat.ofDigitChars 10 digits 0

/-- `Lexer::getToken`. -/
def getToken (lexer : CharLexer) : Token × CharLexer :=
  let lexer := (lexer.takeWhile isspace).2
  match lexer.lastChar with
  | none => (.eof, lexer)
  | some c =>
    if c = '=' ∧ lexer.input.head? = some '>' then (.arrow, lexer.get.get)
    else if c.isAlpha then
      let (rest, lexer) := lexer.get.takeWhile Char.isAlphanum
      let identifier := String.ofList (c :: rest)
      (keyword identifier, { lexer with identifier := identifier })
    else if c.isDigit then
      let (digits, lexer) := lexer.takeWhile Char.isDigit
      (.number, { lexer with numberValue := number digits })
    else (ofChar c, lexer.get)

instance : Lexer CharLexer where
  getToken := getToken
  getIdentifier := identifier
  getNumber := numberValue

end CharLexer

/-- `Parser.ParsesOperators` of `test/parser.cpp`. -/
example : ∃ s, parseExpression defaultInfixBp 30
      (Parser.new (CharLexer.new " (fn a => a + 1 + 2 * 3 * 4 + 5 ) ".toList)) =
    .returned (.lamExp "a" (.bopExp .plus (.bopExp .plus (.bopExp .plus (.varExp "a") (.intExp 1))
      (.bopExp .times (.bopExp .times (.intExp 2) (.intExp 3)) (.intExp 4))) (.intExp 5))) s :=
  ⟨_, rfl⟩

/-! ## The next token of a text -/

section Characters

variable {c : Char}

theorem isspace_eq_false_of_gt (gt : 32 < c.toNat) : isspace c = false := by
  have other : ∀ d : Char, d.toNat ≤ 32 → c ≠ d := by
    intro d le eq
    rw [eq] at gt
    omega
  have space := other ' ' (by decide)
  have tab := other '\t' (by decide)
  have newline := other '\n' (by decide)
  have return' := other '\r' (by decide)
  have vertical : c.toNat ≠ 11 := by omega
  have feed : c.toNat ≠ 12 := by omega
  simp [isspace, space, tab, newline, return', vertical, feed]

theorem gt_of_isAlpha (alpha : c.isAlpha = true) : 61 < c.toNat := by
  simp only [Char.isAlpha, Char.isUpper, Char.isLower, Bool.or_eq_true, Bool.and_eq_true,
    decide_eq_true_eq, ge_iff_le, UInt32.le_iff_toNat_le] at alpha
  have value : c.toNat = c.val.toNat := rfl
  have upper : 'A'.val.toNat = 65 := rfl
  have lower : 'a'.val.toNat = 97 := rfl
  omega

theorem range_of_isDigit (digit : c.isDigit = true) : 48 ≤ c.toNat ∧ c.toNat ≤ 57 := by
  simp only [Char.isDigit, Bool.and_eq_true, decide_eq_true_eq, ge_iff_le,
    UInt32.le_iff_toNat_le] at digit
  exact digit

theorem isAlpha_of_isDigit (digit : c.isDigit = true) : c.isAlpha = false := by
  by_contra alpha
  have letter := gt_of_isAlpha (by simpa using alpha)
  have range := range_of_isDigit digit
  omega

end Characters

namespace CharLexer

/-- A lexer that has `text` before it. -/
def before (text : List Char) (identifier : String) (numberValue : Int) : CharLexer :=
  ⟨text.tail, text.head?, identifier, numberValue⟩

section Texts

variable {c : Char} {text word rest digits : List Char} {identifier : String} {numberValue : Int}

theorem new_eq (text : List Char) : new text = before (' ' :: text) "" 0 := rfl

theorem get_before : (before (c :: text) identifier numberValue).get =
    before text identifier numberValue := rfl

theorem readWhile_eq (p : Char → Bool) (text : List Char) : readWhile p text.head? text.tail =
    (text.takeWhile p, (text.dropWhile p).head?, (text.dropWhile p).tail) := by
  induction text with
  | nil => rfl
  | cons c text ih =>
    cases text with
    | nil => by_cases passes : p c = true <;> simp [readWhile, passes]
    | cons d text =>
      simp only [List.head?_cons, List.tail_cons] at ih ⊢
      by_cases passes : p c = true
      · rw [readWhile, if_pos passes, ih, List.takeWhile_cons_of_pos passes,
          List.dropWhile_cons_of_pos passes]
      · rw [readWhile, if_neg passes, List.takeWhile_cons_of_neg passes,
          List.dropWhile_cons_of_neg passes, List.head?_cons, List.tail_cons]

theorem takeWhile_before (p : Char → Bool) : (before text identifier numberValue).takeWhile p =
    (text.takeWhile p, before (text.dropWhile p) identifier numberValue) := by
  unfold takeWhile before
  rw [readWhile_eq]

theorem getToken_nil : getToken (before [] identifier numberValue) =
    (.eof, before [] identifier numberValue) := rfl

theorem getToken_space (space : isspace c = true) :
    getToken (before (c :: text) identifier numberValue) =
      getToken (before text identifier numberValue) := by
  unfold getToken
  rw [takeWhile_before, takeWhile_before, List.dropWhile_cons_of_pos space]

/-- The token that begins with a given character. -/
theorem getToken_cons (visible : isspace c = false) :
    getToken (before (c :: text) identifier numberValue) =
      if c = '=' ∧ text.head? = some '>' then (.arrow, before text.tail identifier numberValue)
      else if c.isAlpha then
        (keyword (String.ofList (c :: text.takeWhile Char.isAlphanum)),
          before (text.dropWhile Char.isAlphanum)
            (String.ofList (c :: text.takeWhile Char.isAlphanum)) numberValue)
      else if c.isDigit then
        (.number, before ((c :: text).dropWhile Char.isDigit) identifier
          (number ((c :: text).takeWhile Char.isDigit)))
      else (ofChar c, before text identifier numberValue) := by
  have stays : (c :: text).dropWhile isspace = c :: text :=
    List.dropWhile_cons_of_neg (by simp [visible])
  have lastChar : (before (c :: text) identifier numberValue).lastChar = some c := rfl
  have input : (before (c :: text) identifier numberValue).input = text := rfl
  unfold getToken
  rw [takeWhile_before, stays]
  dsimp only
  rw [lastChar]
  dsimp only
  rw [input, get_before, takeWhile_before, takeWhile_before]
  rfl

/-- A run of characters ends where the text behind it does not begin with one of them. -/
theorem span_append {p : Char → Bool} (passes : ∀ c ∈ word, p c = true)
    (stops : ∀ c ∈ rest.head?, p c = false) :
    (word ++ rest).takeWhile p = word ∧ (word ++ rest).dropWhile p = rest := by
  rw [List.takeWhile_append_of_pos passes, List.dropWhile_append_of_pos passes]
  cases rest with
  | nil => exact ⟨List.append_nil word, rfl⟩
  | cons c rest =>
    have stop : ¬ p c = true := by simp [stops c rfl]
    rw [List.takeWhile_cons_of_neg stop, List.dropWhile_cons_of_neg stop, List.append_nil]
    exact ⟨rfl, rfl⟩

theorem getToken_symbol (visible : isspace c = false) (ne : c ≠ '=') (alpha : c.isAlpha = false)
    (digit : c.isDigit = false) : getToken (before (c :: text) identifier numberValue) =
      (ofChar c, before text identifier numberValue) := by
  rw [getToken_cons visible, if_neg fun arrow => ne arrow.1, if_neg (by simp [alpha]),
    if_neg (by simp [digit])]

theorem getToken_arrow : getToken (before ('=' :: '>' :: text) identifier numberValue) =
    (.arrow, before text identifier numberValue) := by
  rw [getToken_cons (by decide), if_pos ⟨rfl, rfl⟩]
  rfl

/-- A word is read up to the first character that is no letter and no digit. -/
theorem getToken_word {name : String} (isName : Ast.isIdentifier name = true)
    (stops : ∀ c ∈ rest.head?, c.isAlphanum = false) :
    getToken (before (name.toList ++ rest) identifier numberValue) =
      (keyword name, before rest name numberValue) := by
  unfold Ast.isIdentifier at isName
  cases letters : name.toList with
  | nil =>
    rw [letters] at isName
    cases isName
  | cons c word =>
    rw [letters] at isName
    obtain ⟨alpha, alnum⟩ := Bool.and_eq_true_iff.mp isName
    obtain ⟨read, left⟩ := span_append (List.all_eq_true.mp alnum) stops
    have letter := gt_of_isAlpha alpha
    have ne : ¬ (c = '=' ∧ (word ++ rest).head? = some '>') := by
      intro arrow
      rw [arrow.1] at letter
      exact absurd letter (by decide)
    have same : String.ofList (c :: word) = name := by rw [← letters, String.ofList_toList]
    rw [List.cons_append, getToken_cons (isspace_eq_false_of_gt (by omega)), if_neg ne,
      if_pos alpha, read, left, same]

/-- Digits are read up to the first character that is no digit. -/
theorem getToken_digits (nonempty : digits ≠ []) (isDigit : ∀ c ∈ digits, c.isDigit = true)
    (stops : ∀ c ∈ rest.head?, c.isDigit = false) :
    getToken (before (digits ++ rest) identifier numberValue) =
      (.number, before rest identifier (number digits)) := by
  rcases span_append isDigit stops with ⟨read, left⟩
  cases digits with
  | nil => exact (nonempty rfl).elim
  | cons c digits' =>
    have digit := isDigit c List.mem_cons_self
    have range := range_of_isDigit digit
    have ne : ¬ (c = '=' ∧ (digits' ++ rest).head? = some '>') := by
      rintro ⟨rfl, -⟩
      exact absurd range.2 (by decide)
    rw [List.cons_append] at read left ⊢
    rw [getToken_cons (isspace_eq_false_of_gt (by omega)), if_neg ne,
      if_neg (by simp [isAlpha_of_isDigit digit]), if_pos digit, read, left]

/-- A numeral is read up to the first character that is no digit. -/
theorem getToken_number {n : Nat} (stops : ∀ c ∈ rest.head?, c.isDigit = false) :
    getToken (before (Nat.toDigits 10 n ++ rest) identifier numberValue) =
      (.number, before rest identifier n) := by
  have isDigit : ∀ c ∈ Nat.toDigits 10 n, c.isDigit = true := fun c member =>
    Nat.isDigit_of_mem_toDigits (by decide) (by decide) member
  rw [getToken_digits Nat.toDigits_ne_nil isDigit stops, number, Nat.ofDigitChars_ten_toDigits]

end Texts

end CharLexer

end Lambcalc.Parse
