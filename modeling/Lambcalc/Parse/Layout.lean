import Lambcalc.Lib.Rounding
import Lambcalc.Parse.Print

/-!
# Lexing undoes layout

How the tokens of the language are written, and what repeated calls of `getToken` make of a text
that writes tokens with white space between them.
-/

namespace Lambcalc.Parse

open Lib

/-! ## Numbers -/

/-- Doubles are less than two to this power. -/
def maxExponent : Nat := 1024

/-- `strtod` of digits: the nearest `double`, or infinity. -/
def strtod (digits : List Char) : Option Nat :=
  let value := nearest 53 (Nat.ofDigitChars 10 digits 0)
  if value < 2 ^ maxExponent then some value else none

/-- The conversion of a `double` to `int`, which is undefined out of its range. -/
def toInt (double : Option Nat) : Option Int :=
  match double with
  | some value => if value ≤ 2 ^ 31 - 1 then some value else none
  | none => none

/-- What `numberValue_` is assigned is defined up to the largest `int`, and exact. -/
theorem toInt_strtod (digits : List Char) : toInt (strtod digits) =
    if CharLexer.number digits ≤ 2 ^ 31 - 1 then some (CharLexer.number digits) else none := by
  unfold strtod CharLexer.number
  generalize Nat.ofDigitChars 10 digits 0 = n
  dsimp only
  rcases Nat.lt_or_ge n (2 ^ 53) with small | large
  · have finite : n < 2 ^ maxExponent :=
      small.trans_le (Nat.pow_le_pow_right Nat.two_pos (by decide))
    rw [nearest_of_lt small, if_pos finite]
    show (if n ≤ 2 ^ 31 - 1 then some (n : Int) else none) = _
    refine if_congr ?_ rfl rfl
    omega
  · have beyond : ¬ (n : Int) ≤ 2 ^ 31 - 1 := by omega
    have large' := le_nearest (show 0 < 53 by decide) large
    rw [if_neg beyond]
    split
    · exact if_neg (by omega)
    · rfl

/-! ## Spellings -/

/-- A token of the language as it is written. A number may have leading zeros. -/
inductive Spelling where
  | number (zeros value : Nat)
  | identifier (name : String)
  | fn
  | arrow
  | if_
  | then_
  | else_
  | lParen
  | rParen
  | plus
  | minus
  | times
  | semicolon
  deriving DecidableEq, Repr

namespace Spelling

def token : Spelling → Token
  | number _ _ => .number
  | identifier _ => .identifier
  | fn => .fn
  | arrow => .arrow
  | if_ => .if_
  | then_ => .then_
  | else_ => .else_
  | lParen => .lParen
  | rParen => .rParen
  | plus => .plus
  | minus => .minus
  | times => .times
  | semicolon => .semicolon

def text : Spelling → List Char
  | number zeros value => List.replicate zeros '0' ++ Nat.toDigits 10 value
  | identifier name => name.toList
  | fn => ['f', 'n']
  | arrow => ['=', '>']
  | if_ => ['i', 'f']
  | then_ => ['t', 'h', 'e', 'n']
  | else_ => ['e', 'l', 's', 'e']
  | lParen => ['(']
  | rParen => [')']
  | plus => ['+']
  | minus => ['-']
  | times => ['*']
  | semicolon => [';']

/-- Identifiers are no keywords. -/
def Valid : Spelling → Prop
  | identifier name => isName name = true
  | _ => True

/-- Numbers are in the range of `int`. -/
def InRange : Spelling → Prop
  | number _ value => value ≤ 2 ^ 31 - 1
  | _ => True

/-- An identifier or a keyword. -/
def isWord : Spelling → Bool
  | identifier _ | fn | if_ | then_ | else_ => true
  | _ => false

def isNumber : Spelling → Bool
  | number _ _ => true
  | _ => false

/-- Without a space, the first token would go on with the characters of the second one. -/
def NeedsSpace (left right : Spelling) : Prop :=
  left.isWord = true ∧ (right.isWord = true ∨ right.isNumber = true) ∨
    left.isNumber = true ∧ right.isNumber = true

/-- What the lexer has for the token when it has just been lexed. -/
def IsLexeme (spelling : Spelling) (lexer : CharLexer) : Prop :=
  match spelling with
  | number _ value =>
    toInt (strtod spelling.text) = some lexer.numberValue ∧ lexer.numberValue = value
  | identifier name => lexer.identifier = name
  | _ => True

end Spelling

/-- White space. -/
def Blank (text : List Char) : Prop := ∀ c ∈ text, isspace c = true

/-- The text writes the tokens. -/
inductive Writes : List Spelling → List Char → Prop
  | nil {blanks : List Char} (blank : Blank blanks) : Writes [] blanks
  | cons {spelling : Spelling} {spellings : List Spelling} {blanks text : List Char}
    (blank : Blank blanks) (valid : spelling.Valid) (writes : Writes spellings text)
    (apart : ∀ next ∈ spellings.head?, spelling.NeedsSpace next →
      ∃ c ∈ text.head?, isspace c = true) :
    Writes (spelling :: spellings) (blanks ++ (spelling.text ++ text))

/-! ## One token -/

section Tokens

variable {spelling : Spelling} {spellings : List Spelling} {text : List Char}

theorem getToken_blanks {blanks : List Char} (blank : Blank blanks) (text : List Char)
    (identifier : String) (numberValue : Int) :
    (CharLexer.before (blanks ++ text) identifier numberValue).getToken =
      (CharLexer.before text identifier numberValue).getToken := by
  induction blanks with
  | nil => rfl
  | cons c blanks ih =>
    rcases List.forall_mem_cons.mp blank with ⟨space, others⟩
    exact (CharLexer.getToken_space space).trans (ih others)

theorem number_zeros (zeros value : Nat) :
    CharLexer.number (List.replicate zeros '0' ++ Nat.toDigits 10 value) = value := by
  rw [CharLexer.number, Nat.ofDigitChars_append, Nat.ofDigitChars_replicate_zero, Nat.mul_zero,
    Nat.ofDigitChars_ten_toDigits]

theorem digits_number (zeros value : Nat) :
    ∀ c ∈ (Spelling.number zeros value).text, c.isDigit = true := by
  intro c member
  rcases List.mem_append.mp member with zero | digit
  · rw [List.eq_of_mem_replicate zero]
    rfl
  · exact Nat.isDigit_of_mem_toDigits (by decide) (by decide) digit

/-- A spelling that starts with a letter is a word, and one that starts with a digit a number. -/
theorem head_text (valid : spelling.Valid) {c : Char} (head : c ∈ spelling.text.head?) :
    (c.isAlpha = true → spelling.isWord = true) ∧
      (c.isDigit = true → spelling.isNumber = true) := by
  cases spelling with
  | number zeros value =>
    have digit := digits_number zeros value c (List.mem_of_mem_head? head)
    refine ⟨fun alpha => ?_, fun _ => rfl⟩
    rw [isAlpha_of_isDigit digit] at alpha
    cases alpha
  | identifier name =>
    refine ⟨fun _ => rfl, fun digit => ?_⟩
    rcases Bool.and_eq_true_iff.mp valid with ⟨isIdentifier, -⟩
    change c ∈ name.toList.head? at head
    unfold Ast.isIdentifier at isIdentifier
    cases letters : name.toList with
    | nil =>
      rw [letters] at head
      cases head
    | cons first word =>
      rw [letters] at head isIdentifier
      cases head
      have alpha := (Bool.and_eq_true_iff.mp isIdentifier).1
      rw [isAlpha_of_isDigit digit] at alpha
      cases alpha
  | fn | if_ | then_ | else_ | arrow | lParen | rParen | plus | minus | times | semicolon =>
    cases head
    decide

theorem text_ne_nil (valid : spelling.Valid) : spelling.text ≠ [] := by
  cases spelling with
  | number zeros value => exact List.append_ne_nil_of_right_ne_nil _ Nat.toDigits_ne_nil
  | identifier name =>
    intro empty
    rcases Bool.and_eq_true_iff.mp valid with ⟨isIdentifier, -⟩
    unfold Ast.isIdentifier at isIdentifier
    rw [show name.toList = [] from empty] at isIdentifier
    cases isIdentifier
  | fn | if_ | then_ | else_ | arrow | lParen | rParen | plus | minus | times | semicolon =>
    exact List.cons_ne_nil _ _

/-- A text starts with a space, or with its first token. -/
theorem head_of_writes (writes : Writes spellings text) {c : Char} (head : c ∈ text.head?) :
    isspace c = true ∨
      ∃ next ∈ spellings.head?, next.Valid ∧ c ∈ next.text.head? := by
  cases writes with
  | nil blank => exact .inl (blank c (List.mem_of_mem_head? head))
  | @cons spelling spellings blanks text blank valid writes apart =>
    cases blanks with
    | cons b blanks =>
      cases head
      exact .inl (blank _ List.mem_cons_self)
    | nil =>
      rw [List.nil_append, List.head?_append_of_ne_nil _ (text_ne_nil valid)] at head
      exact .inr ⟨spelling, rfl, valid, head⟩

theorem isAlphanum_of_isspace {c : Char} (space : isspace c = true) : c.isAlphanum = false := by
  by_contra alnum
  have visible : isspace c = false := by
    refine isspace_eq_false_of_gt ?_
    rcases Bool.or_eq_true_iff.mp (Bool.not_eq_false _ ▸ alnum) with alpha | digit
    · exact lt_trans (by decide) (gt_of_isAlpha alpha)
    · exact lt_of_lt_of_le (by decide) (range_of_isDigit digit).1
  rw [space] at visible
  cases visible

/-- A token ends where the text behind it begins, if there is a space where one is needed. -/
theorem stops_of_writes {left : Spelling} (writes : Writes spellings text)
    (apart : ∀ next ∈ spellings.head?, left.NeedsSpace next → ∃ c ∈ text.head?, isspace c = true) :
    (left.isWord = true → Stops text) ∧
      (left.isNumber = true → ∀ c ∈ text.head?, c.isDigit = false) := by
  have noSpace : ∀ {c next}, c ∈ text.head? → next ∈ spellings.head? → left.NeedsSpace next →
      c.isAlphanum = false := by
    intro c next head first needs
    rcases apart next first needs with ⟨c', head', space⟩
    cases Option.mem_unique head head'
    exact isAlphanum_of_isspace space
  constructor
  · intro isWord c head
    rcases head_of_writes writes head with space | ⟨next, first, valid, starts⟩
    · exact isAlphanum_of_isspace space
    · by_contra alnum
      rcases Bool.or_eq_true_iff.mp (Bool.not_eq_false _ ▸ alnum) with alpha | digit
      · exact alnum (noSpace head first (.inl ⟨isWord, .inl ((head_text valid starts).1 alpha)⟩))
      · exact alnum (noSpace head first (.inl ⟨isWord, .inr ((head_text valid starts).2 digit)⟩))
  · intro isNumber c head
    rcases head_of_writes writes head with space | ⟨next, first, valid, starts⟩
    · exact (Bool.or_eq_false_iff.mp (isAlphanum_of_isspace space)).2
    · by_contra digit
      have isDigit : c.isDigit = true := by simpa using digit
      have needs : left.NeedsSpace next := .inr ⟨isNumber, (head_text valid starts).2 isDigit⟩
      exact digit (Bool.or_eq_false_iff.mp (noSpace head first needs)).2

/-- The next token of a text that writes tokens, and the text behind it. -/
theorem getToken_writes (writes : Writes (spelling :: spellings) text) (identifier : String)
    (numberValue : Int) : ∃ rest identifier' numberValue', Writes spellings rest ∧
      (CharLexer.before text identifier numberValue).getToken =
        (spelling.token, CharLexer.before rest identifier' numberValue') ∧
      (spelling.InRange → spelling.IsLexeme (CharLexer.before rest identifier' numberValue')) := by
  cases writes with
  | @cons _ _ blanks rest blank valid writes apart =>
    rcases stops_of_writes writes apart with ⟨wordStops, numberStops⟩
    rw [getToken_blanks blank]
    have word : ∀ name : String, Ast.isIdentifier name = true → spelling.isWord = true →
        (CharLexer.before (name.toList ++ rest) identifier numberValue).getToken =
          (CharLexer.keyword name, CharLexer.before rest name numberValue) :=
      fun name isIdentifier isWord => CharLexer.getToken_word isIdentifier (wordStops isWord)
    have symbol : ∀ c : Char, isspace c = false → c ≠ '=' → c.isAlpha = false →
        c.isDigit = false → (CharLexer.before ([c] ++ rest) identifier numberValue).getToken =
          (CharLexer.ofChar c, CharLexer.before rest identifier numberValue) :=
      fun c visible ne alpha digit => CharLexer.getToken_symbol visible ne alpha digit
    cases spelling with
    | number zeros value =>
      have text : (Spelling.number zeros value).text ≠ [] := text_ne_nil valid
      have eq : CharLexer.number (Spelling.number zeros value).text = value :=
        number_zeros zeros value
      refine ⟨rest, identifier, value, writes, ?_, fun inRange => ⟨?_, rfl⟩⟩
      · rw [← eq]
        exact CharLexer.getToken_digits text (digits_number zeros value) (numberStops rfl)
      · have small : (value : Int) ≤ 2 ^ 31 - 1 := by
          have le : value ≤ 2 ^ 31 - 1 := inRange
          omega
        rw [toInt_strtod, eq, if_pos small]
        rfl
    | identifier name =>
      rcases Bool.and_eq_true_iff.mp valid with ⟨isIdentifier, -⟩
      refine ⟨rest, name, numberValue, writes, ?_, fun _ => rfl⟩
      exact (word name isIdentifier rfl).trans (by rw [keyword_of_isName valid]; rfl)
    | arrow =>
      exact ⟨rest, identifier, numberValue, writes, CharLexer.getToken_arrow, fun _ => trivial⟩
    | fn => exact ⟨rest, _, _, writes, word "fn" (by decide) rfl, fun _ => trivial⟩
    | if_ => exact ⟨rest, _, _, writes, word "if" (by decide) rfl, fun _ => trivial⟩
    | then_ => exact ⟨rest, _, _, writes, word "then" (by decide) rfl, fun _ => trivial⟩
    | else_ => exact ⟨rest, _, _, writes, word "else" (by decide) rfl, fun _ => trivial⟩
    | lParen => exact ⟨rest, _, _, writes, symbol '(' rfl (by decide) rfl rfl, fun _ => trivial⟩
    | rParen => exact ⟨rest, _, _, writes, symbol ')' rfl (by decide) rfl rfl, fun _ => trivial⟩
    | plus => exact ⟨rest, _, _, writes, symbol '+' rfl (by decide) rfl rfl, fun _ => trivial⟩
    | minus => exact ⟨rest, _, _, writes, symbol '-' rfl (by decide) rfl rfl, fun _ => trivial⟩
    | times => exact ⟨rest, _, _, writes, symbol '*' rfl (by decide) rfl rfl, fun _ => trivial⟩
    | semicolon => exact ⟨rest, _, _, writes, symbol ';' rfl (by decide) rfl rfl, fun _ => trivial⟩

/-- After the last token there is only the end of the text. -/
theorem getToken_writes_nil (writes : Writes [] text) (identifier : String) (numberValue : Int) :
    (CharLexer.before text identifier numberValue).getToken =
      (.eof, CharLexer.before [] identifier numberValue) := by
  cases writes with
  | nil blank =>
    have ends := getToken_blanks blank [] identifier numberValue
    rw [List.append_nil] at ends
    exact ends.trans CharLexer.getToken_nil

theorem Writes.space (writes : Writes spellings text) : Writes spellings (' ' :: text) := by
  have blank : ∀ {blanks : List Char}, Blank blanks → Blank (' ' :: blanks) :=
    fun blank => List.forall_mem_cons.mpr ⟨rfl, blank⟩
  cases writes with
  | nil isBlank => exact .nil (blank isBlank)
  | cons isBlank valid writes apart => exact .cons (blank isBlank) valid writes apart

end Tokens

/-! ## All tokens -/

/-- The lexer after some calls of `getToken`. -/
def CharLexer.after (calls : Nat) (lexer : CharLexer) : CharLexer :=
  (fun lexer => (getToken lexer).2)^[calls] lexer

/-- What call number `i` has to return, and what the lexer has for it. -/
def CallsReturn (spellings : List Spelling) (i : Nat) (call : Token × CharLexer) : Prop :=
  (∀ spelling, spellings[i]? = some spelling →
    call.1 = spelling.token ∧ spelling.IsLexeme call.2) ∧
  (spellings.length ≤ i → call.1 = .eof)

/-- By induction on the number of calls: each call returns the next spelling, and after the last one
the end of the input. -/
theorem callsReturn_before {spellings : List Spelling} (i : Nat) :
    ∀ {text : List Char} (identifier : String) (numberValue : Int), Writes spellings text →
      (∀ spelling ∈ spellings, spelling.InRange) →
      CallsReturn spellings i
        ((CharLexer.before text identifier numberValue).after i).getToken := by
  induction i generalizing spellings with
  | zero =>
    intro text identifier numberValue writes inRange
    cases spellings with
    | nil =>
      refine ⟨fun spelling found => ?_, fun _ => ?_⟩
      · cases found
      · exact congrArg Prod.fst (getToken_writes_nil writes identifier numberValue)
    | cons spelling spellings =>
      rcases getToken_writes writes identifier numberValue with
        ⟨rest, identifier', numberValue', -, call, lexeme⟩
      refine ⟨fun next found => ?_, fun none => by cases none⟩
      cases found
      refine ⟨congrArg Prod.fst call, ?_⟩
      show spelling.IsLexeme (CharLexer.before text identifier numberValue).getToken.2
      rw [call]
      exact lexeme (inRange spelling List.mem_cons_self)
  | succ i ih =>
    intro text identifier numberValue writes inRange
    unfold CharLexer.after
    rw [Function.iterate_succ_apply]
    cases spellings with
    | nil =>
      rw [getToken_writes_nil writes identifier numberValue]
      rcases ih identifier numberValue (.nil (List.forall_mem_nil _)) inRange with ⟨found, ends⟩
      exact ⟨found, fun _ => ends (Nat.zero_le i)⟩
    | cons spelling spellings =>
      rcases getToken_writes writes identifier numberValue with
        ⟨rest, identifier', numberValue', writes', call, -⟩
      rw [call]
      rcases ih identifier' numberValue' writes' fun next member =>
        inRange next (List.mem_cons_of_mem _ member) with ⟨found, ends⟩
      exact ⟨found, fun le => ends (Nat.le_of_succ_le_succ le)⟩

/-- Lexing undoes layout: the calls of `getToken` on a text that writes tokens return these tokens
with their lexemes, and then the end of the input again and again. -/
theorem getToken_undoes_layout {spellings : List Spelling} {text : List Char}
    (writes : Writes spellings text) (inRange : ∀ spelling ∈ spellings, spelling.InRange)
    (i : Nat) :
    CallsReturn spellings i ((CharLexer.new text).after i).getToken := by
  rw [CharLexer.new_eq]
  exact callsReturn_before i "" 0 writes.space inRange

/-- `fn x=>007` -/
theorem getToken_undoes_layout_seven : CallsReturn [.fn, .identifier "x", .arrow, .number 2 7] 3
    ((CharLexer.new ['f', 'n', ' ', 'x', '=', '>', '0', '0', '7']).after 3).getToken := by
  have empty : Blank [] := List.forall_mem_nil _
  have end_ : Writes [] [] := .nil empty
  have seven : Writes [.number 2 7] ['0', '0', '7'] :=
    .cons empty trivial end_ fun next head => by cases head
  have arrow : Writes [.arrow, .number 2 7] ['=', '>', '0', '0', '7'] := by
    refine .cons empty trivial seven fun next head needs => ?_
    rcases needs with ⟨no, -⟩ | ⟨no, -⟩ <;> cases no
  have x : Writes [.identifier "x", .arrow, .number 2 7] [' ', 'x', '=', '>', '0', '0', '7'] := by
    have blank : Blank [' '] := List.forall_mem_singleton.mpr rfl
    have named : isName "x" = true := by decide
    refine .cons blank named arrow fun next head needs => ?_
    cases head
    rcases needs with ⟨-, no | no⟩ | ⟨no, -⟩ <;> cases no
  have fn : Writes [.fn, .identifier "x", .arrow, .number 2 7]
      ['f', 'n', ' ', 'x', '=', '>', '0', '0', '7'] :=
    .cons empty trivial x fun next head needs => ⟨' ', rfl, rfl⟩
  refine getToken_undoes_layout fn ?_ 3
  simp [Spelling.InRange]

end Lambcalc.Parse
