import Lambcalc.Anf.WellFormed
import Lambcalc.Lib.Words
import Lambcalc.Parse.Print

/-!
# The dump of a term

`anf::PrintExpVisitor` of `src/visitor.cpp`, by which the tests compare terms: where all names are
identifiers, a dump determines the term, except that it does not tell labels from variables.
-/

namespace Lambcalc.Anf

open Lib
open Ast (isIdentifier)
open Parse (binOpString)

/-! ## Printing -/

/-- `PrintValueVisitor`: what it writes to its stream. -/
def Value.print : Value → String
  | intValue value => toString value
  | varValue var => var
  | globValue glob => glob

/-- The loop of `print_vector`. -/
def printElements : List String → String
  | [] => ""
  | [element] => element
  | element :: element' :: elements => element ++ ", " ++ printElements (element' :: elements)

/-- `print_vector`. -/
def printVector (elements : List String) : String := "[" ++ printElements elements ++ "]"

/-- `print_optional`. -/
def printOptional : Option String → String
  | some element => "<" ++ element ++ ">"
  | none => "<>"

/-- What is written for a node: its fields between braces. -/
def printNode (constructor : String) (fields : List String) : String :=
  constructor ++ " \x7b " ++ printElements fields ++ " \x7d"

/-- `Exp::dump`: what `PrintExpVisitor` writes to its stream. -/
def Exp.dump : Exp → String
  | haltExp value => printNode "HaltExp" [value.print]
  | funExp name params body rest =>
    printNode "FunExp" [name, printVector params, body.dump, rest.dump]
  | joinExp name slot body rest =>
    printNode "JoinExp" [name, printOptional slot, body.dump, rest.dump]
  | jumpExp joinName slotValue =>
    printNode "JumpExp" [joinName, printOptional (slotValue.map Value.print)]
  | appExp name funName paramValues rest =>
    printNode "AppExp" [name, funName, printVector (paramValues.map Value.print), rest.dump]
  | bopExp name bop param1 param2 rest =>
    printNode "BopExp" [name, binOpString bop, param1.print, param2.print, rest.dump]
  | ifExp cond thenBranch elseBranch =>
    printNode "IfExp" [cond.print, thenBranch.dump, elseBranch.dump]
  | tupleExp name values rest =>
    printNode "TupleExp" [name, printVector (values.map Value.print), rest.dump]
  | projExp name tuple index rest => printNode "ProjExp" [name, tuple, toString index, rest.dump]

/-- The first test of `test/anf.cpp`. -/
example : (Exp.bopExp "tmp0" .times (.intValue 2) (.intValue 3) (.bopExp "tmp1" .plus
      (.varValue "tmp0") (.intValue 4) (.haltExp (.varValue "tmp1")))).dump =
    "BopExp { tmp0, *, 2, 3, BopExp { tmp1, +, tmp0, 4, HaltExp { tmp1 } } }" := rfl

/-! ## What a dump tells -/

/-- The value, where labels are not told from variables. -/
def Value.forget : Value → Value
  | intValue value => intValue value
  | varValue var => varValue var
  | globValue glob => varValue glob

/-- The term, where labels are not told from variables. -/
def Exp.forget : Exp → Exp
  | haltExp value => haltExp value.forget
  | funExp name params body rest => funExp name params body.forget rest.forget
  | joinExp name slot body rest => joinExp name slot body.forget rest.forget
  | jumpExp joinName slotValue => jumpExp joinName (slotValue.map Value.forget)
  | appExp name funName paramValues rest =>
    appExp name funName (paramValues.map Value.forget) rest.forget
  | bopExp name bop param1 param2 rest =>
    bopExp name bop param1.forget param2.forget rest.forget
  | ifExp cond thenBranch elseBranch =>
    ifExp cond.forget thenBranch.forget elseBranch.forget
  | tupleExp name values rest => tupleExp name (values.map Value.forget) rest.forget
  | projExp name tuple index rest => projExp name tuple index rest.forget

/-- The names in it are identifiers. -/
def Value.legible : Value → Bool
  | intValue _ => true
  | varValue var => isIdentifier var
  | globValue glob => isIdentifier glob

/-- The names in it are identifiers. -/
def Exp.legible : Exp → Bool
  | haltExp value => value.legible
  | funExp name params body rest =>
    isIdentifier name && params.all isIdentifier && body.legible && rest.legible
  | joinExp name slot body rest =>
    isIdentifier name && slot.all isIdentifier && body.legible && rest.legible
  | jumpExp joinName slotValue => isIdentifier joinName && slotValue.all Value.legible
  | appExp name funName paramValues rest =>
    isIdentifier name && isIdentifier funName && paramValues.all Value.legible && rest.legible
  | bopExp name _ param1 param2 rest =>
    isIdentifier name && param1.legible && param2.legible && rest.legible
  | ifExp cond thenBranch elseBranch => cond.legible && thenBranch.legible && elseBranch.legible
  | tupleExp name values rest => isIdentifier name && values.all Value.legible && rest.legible
  | projExp name tuple _ rest => isIdentifier name && isIdentifier tuple && rest.legible

/-- A label prints as the variable of its name. -/
@[simp] theorem Value.print_forget (value : Value) : value.forget.print = value.print := by
  cases value <;> rfl

/-- The dump does not tell labels from variables. -/
theorem Exp.dump_forget (t : Exp) : t.forget.dump = t.dump := by
  have values : ∀ values : List Value,
      (values.map Value.forget).map Value.print = values.map Value.print := by
    intro values
    rw [List.map_map]
    exact List.map_congr_left fun value _ => value.print_forget
  induction t with
  | haltExp value => simp only [forget, dump, Value.print_forget]
  | funExp name params body rest ihBody ihRest => simp only [forget, dump, ihBody, ihRest]
  | joinExp name slot body rest ihBody ihRest => simp only [forget, dump, ihBody, ihRest]
  | jumpExp joinName slotValue =>
    cases slotValue with
    | none => rfl
    | some value => simp only [forget, dump, Option.map_some, Value.print_forget]
  | appExp name funName paramValues rest ih => simp only [forget, dump, ih, values]
  | bopExp name bop param1 param2 rest ih => simp only [forget, dump, ih, Value.print_forget]
  | ifExp cond thenBranch elseBranch ihThen ihElse =>
    simp only [forget, dump, ihThen, ihElse, Value.print_forget]
  | tupleExp name values' rest ih => simp only [forget, dump, ih, values]
  | projExp name tuple index rest ih => simp only [forget, dump, ih]

/-! ## Words -/

/-- The characters of names, numbers and operators. -/
def isLetter (c : Char) : Bool := c.isAlphanum || c == '+' || c == '-' || c == '*'

theorem isWord_name {name : String} (identifier : isIdentifier name = true) :
    IsWord isLetter name.toList := by
  unfold isIdentifier at identifier
  cases chars : name.toList with
  | nil =>
    rw [chars] at identifier
    cases identifier
  | cons first rest =>
    rw [chars] at identifier
    rcases Bool.and_eq_true_iff.mp identifier with ⟨alpha, alphanum⟩
    refine ⟨List.forall_mem_cons.mpr ⟨?_, fun c member => ?_⟩, List.cons_ne_nil first rest⟩
    · simp [isLetter, Char.isAlphanum, alpha]
    · simp [isLetter, List.all_eq_true.mp alphanum c member]

theorem isWord_nat (n : Nat) : IsWord isLetter (toString n).toList := by
  have digits : (toString n).toList = Nat.toDigits 10 n := by simp
  rw [digits]
  refine ⟨fun c member => ?_, Nat.toDigits_ne_nil⟩
  have digit : c.isDigit = true := Nat.isDigit_of_mem_toDigits (by omega) (by omega) member
  simp [isLetter, Char.isAlphanum, digit]

/-- A number is a numeral, or a minus and a numeral. -/
theorem toList_int (n : Int) : (∃ m : Nat, (toString n).toList = (toString m).toList) ∨
    ∃ m : Nat, (toString n).toList = '-' :: (toString m).toList := by
  cases n with
  | ofNat m => exact .inl ⟨m, rfl⟩
  | negSucc m =>
    refine .inr ⟨m + 1, ?_⟩
    show ("-" ++ toString (m + 1)).toList = _
    rw [String.toList_append]
    rfl

/-- A printed value is a word. -/
theorem isWord_value {value : Value} (legible : value.legible = true) :
    IsWord isLetter value.print.toList := by
  cases value with
  | intValue n =>
    have word := toList_int n
    rcases word with ⟨m, eq⟩ | ⟨m, eq⟩
    · show IsWord isLetter (toString n).toList
      rw [eq]
      exact isWord_nat m
    · show IsWord isLetter (toString n).toList
      rw [eq]
      exact ⟨List.forall_mem_cons.mpr ⟨rfl, (isWord_nat m).letters⟩, List.cons_ne_nil _ _⟩
  | varValue var => exact isWord_name legible
  | globValue glob => exact isWord_name legible

/-- Numbers are no identifiers. -/
theorem not_isIdentifier_int (n : Int) : isIdentifier (toString n) = false := by
  have first : ∀ m : Nat, ∃ c rest, (toString m).toList = c :: rest ∧ c.isAlpha = false := by
    intro m
    have digits : (toString m).toList = Nat.toDigits 10 m := by simp
    cases chars : Nat.toDigits 10 m with
    | nil => exact absurd chars Nat.toDigits_ne_nil
    | cons c rest =>
      have member : c ∈ Nat.toDigits 10 m := chars ▸ List.mem_cons_self
      exact ⟨c, rest, digits.trans chars, Parse.isAlpha_of_isDigit
        (Nat.isDigit_of_mem_toDigits (by omega) (by omega) member)⟩
  unfold isIdentifier
  rcases toList_int n with ⟨m, eq⟩ | ⟨m, eq⟩
  · rcases first m with ⟨c, rest, chars, alpha⟩
    rw [eq, chars]
    simp [alpha]
  · rw [eq]
    rfl

/-- What is printed tells the value. -/
theorem Value.forget_of_print {value value' : Value} (legible : value.legible = true)
    (legible' : value'.legible = true) (eq : value.print = value'.print) :
    value.forget = value'.forget := by
  -- what is no number is the variable of the name that is printed
  have named : ∀ {v : Value}, v.legible = true →
      (∃ n, v = .intValue n) ∨ isIdentifier v.print = true ∧ v.forget = .varValue v.print := by
    intro v legible
    cases v with
    | intValue n => exact .inl ⟨n, rfl⟩
    | varValue var => exact .inr ⟨legible, rfl⟩
    | globValue glob => exact .inr ⟨legible, rfl⟩
  rcases named legible with ⟨n, rfl⟩ | ⟨identifier, forgets⟩
  · rcases named legible' with ⟨n', rfl⟩ | ⟨identifier', -⟩
    · exact congrArg Value.intValue (Int.repr_injective eq)
    · rw [← eq] at identifier'
      cases (not_isIdentifier_int n).symm.trans identifier'
  · rcases named legible' with ⟨n', rfl⟩ | ⟨-, forgets'⟩
    · rw [eq] at identifier
      cases (not_isIdentifier_int n').symm.trans identifier
    · rw [forgets, forgets', eq]

/-! ## Fields -/

/-- Before a delimiter, the two texts can be told apart. -/
def Separate (x x' : String) : Prop := ∀ rest rest', EndsWord isLetter rest →
  EndsWord isLetter rest' → x.toList ++ rest = x'.toList ++ rest' → x = x' ∧ rest = rest'

theorem separate_word {x x' : String} (isWord : IsWord isLetter x.toList)
    (isWord' : IsWord isLetter x'.toList) : Separate x x' := by
  intro rest rest' ends ends' eq
  rcases word_append isWord.letters isWord'.letters ends ends' eq with ⟨same, left⟩
  exact ⟨String.toList_injective same, left⟩

theorem toList_printElements (elements : List String) :
    (printElements elements).toList = separated [',', ' '] (elements.map String.toList) := by
  induction elements using printElements.induct with
  | case1 => rfl
  | case2 element => rfl
  | case3 element element' elements ih =>
    rw [printElements, String.toList_append, String.toList_append, ih, List.append_assoc]
    rfl

/-- A printed vector can be told from what follows it. -/
theorem vector_append {xs xs' : List String} (areWords : ∀ x ∈ xs, IsWord isLetter x.toList)
    (areWords' : ∀ x ∈ xs', IsWord isLetter x.toList) {rest rest' : List Char}
    (eq : (printVector xs).toList ++ rest = (printVector xs').toList ++ rest') :
    xs = xs' ∧ rest = rest' := by
  simp only [printVector, String.toList_append, toList_printElements, List.append_assoc] at eq
  rcases separated_append rfl rfl (by decide) (List.forall_mem_map.mpr areWords)
    (List.forall_mem_map.mpr areWords') (List.cons.inj eq).2 with ⟨same, left⟩
  have injective : Function.Injective String.toList := fun _ _ => String.toList_injective
  exact ⟨List.map_injective_iff.mpr injective same, left⟩

/-- A printed slot can be told from what follows it. -/
theorem optional_append {x x' : Option String} (isWord : ∀ y ∈ x, IsWord isLetter y.toList)
    (isWord' : ∀ y ∈ x', IsWord isLetter y.toList) {rest rest' : List Char}
    (eq : (printOptional x).toList ++ rest = (printOptional x').toList ++ rest') :
    x = x' ∧ rest = rest' := by
  have text : ∀ x : Option String,
      (printOptional x).toList = '<' :: ((x.getD "").toList ++ ['>']) := by
    intro x
    cases x with
    | none => rfl
    | some y =>
      rw [printOptional, String.toList_append, String.toList_append, List.append_assoc]
      rfl
  have letters : ∀ {x : Option String}, (∀ y ∈ x, IsWord isLetter y.toList) →
      ∀ c ∈ (x.getD "").toList, isLetter c = true := by
    intro x isWord
    cases x with
    | none => exact List.forall_mem_nil _
    | some y => exact (isWord y rfl).letters
  rw [text, text, List.cons_append, List.cons_append, List.append_assoc, List.append_assoc] at eq
  rcases word_append (letters isWord) (letters isWord') (endsWord_cons rfl rest)
    (endsWord_cons rfl rest') (List.cons.inj eq).2 with ⟨same, left⟩
  refine ⟨?_, (List.cons.inj left).2⟩
  cases x with
  | none =>
    cases x' with
    | none => rfl
    | some y' => exact ((isWord' y' rfl).nonempty same.symm).elim
  | some y =>
    cases x' with
    | none => exact ((isWord y rfl).nonempty same).elim
    | some y' => exact congrArg some (String.toList_injective same)

/-- Fields that can be told apart one by one can be told apart in a list up to the closing brace. -/
theorem separated_fields {fields fields' : List String}
    (separate : List.Forall₂ Separate fields fields') {rest rest' : List Char}
    (eq : separated [',', ' '] (fields.map String.toList) ++ ' ' :: '}' :: rest =
      separated [',', ' '] (fields'.map String.toList) ++ ' ' :: '}' :: rest') :
    fields = fields' ∧ rest = rest' := by
  induction separate with
  | nil => exact ⟨rfl, (List.cons.inj (List.cons.inj eq).2).2⟩
  | @cons x x' xs xs' first others ih =>
    cases others with
    | nil =>
      rcases first _ _ (endsWord_cons rfl _) (endsWord_cons rfl _) eq with ⟨rfl, left⟩
      exact ⟨rfl, (List.cons.inj (List.cons.inj left).2).2⟩
    | cons second others =>
      simp only [List.map_cons, separated, List.append_assoc, List.cons_append,
        List.nil_append] at eq
      rcases first _ _ (endsWord_cons rfl _) (endsWord_cons rfl _) eq with ⟨rfl, left⟩
      rcases ih (List.cons.inj (List.cons.inj left).2).2 with ⟨same, left⟩
      rw [same]
      exact ⟨rfl, left⟩

/-- The text of a node. -/
theorem toList_printNode (constructor : String) (fields : List String) :
    (printNode constructor fields).toList = constructor.toList ++ (' ' :: '{' :: ' ' ::
      (separated [',', ' '] (fields.map String.toList) ++ [' ', '}'])) := by
  simp only [printNode, String.toList_append, toList_printElements, List.append_assoc]
  rfl

/-- The fields of a node are determined, if each can be told apart from that of the other node. -/
theorem printNode_append {constructor : String} {fields fields' : List String}
    (separate : List.Forall₂ Separate fields fields') {rest rest' : List Char}
    (eq : (printNode constructor fields).toList ++ rest =
      (printNode constructor fields').toList ++ rest') : fields = fields' ∧ rest = rest' := by
  simp only [toList_printNode, List.append_assoc, List.cons_append, List.nil_append] at eq
  have inside := List.append_cancel_left eq
  simp only [List.cons.injEq, true_and] at inside
  exact separated_fields separate inside

/-- And so is the constructor. -/
theorem constructor_of_printNode {constructor constructor' : String} {fields fields' : List String}
    (isWord : IsWord isLetter constructor.toList) (isWord' : IsWord isLetter constructor'.toList)
    {rest rest' : List Char} (eq : (printNode constructor fields).toList ++ rest =
      (printNode constructor' fields').toList ++ rest') : constructor = constructor' := by
  simp only [toList_printNode, List.append_assoc, List.cons_append] at eq
  rcases word_append isWord.letters isWord'.letters (endsWord_cons rfl _) (endsWord_cons rfl _) eq
    with ⟨same, -⟩
  exact String.toList_injective same

/-! ## Terms -/

/-- The name that is written before the fields of the node. -/
def Exp.constructor : Exp → String
  | haltExp _ => "HaltExp"
  | funExp _ _ _ _ => "FunExp"
  | joinExp _ _ _ _ => "JoinExp"
  | jumpExp _ _ => "JumpExp"
  | appExp _ _ _ _ => "AppExp"
  | bopExp _ _ _ _ _ => "BopExp"
  | ifExp _ _ _ => "IfExp"
  | tupleExp _ _ _ => "TupleExp"
  | projExp _ _ _ _ => "ProjExp"

/-- Texts that begin with dumps of terms begin with the same constructor. -/
theorem Exp.constructor_eq {t t' : Exp} {rest rest' : List Char}
    (eq : t.dump.toList ++ rest = t'.dump.toList ++ rest') : t.constructor = t'.constructor := by
  have node : ∀ t : Exp, ∃ fields, t.dump = printNode t.constructor fields := by
    intro t
    cases t <;> exact ⟨_, rfl⟩
  have isWord : ∀ t : Exp, IsWord isLetter t.constructor.toList := by
    intro t
    have names : ∀ name ∈ ["HaltExp", "FunExp", "JoinExp", "JumpExp", "AppExp", "BopExp", "IfExp",
        "TupleExp", "ProjExp"], isIdentifier name = true := by decide
    refine isWord_name (names _ ?_)
    cases t <;> simp [constructor]
  rcases node t with ⟨fields, text⟩
  rcases node t' with ⟨fields', text'⟩
  rw [text, text'] at eq
  exact constructor_of_printNode (isWord t) (isWord t') eq

/-- What follows the dump of `t` is determined, and up to labels the term is. -/
def Exp.Told (t : Exp) : Prop := ∀ (t' : Exp) (rest rest' : List Char), t'.legible = true →
  t.dump.toList ++ rest = t'.dump.toList ++ rest' → t.forget = t'.forget ∧ rest = rest'

section Told

variable {t t' : Exp}

theorem Exp.Told.separate (told : t.Told) (legible : t'.legible = true) :
    Separate t.dump t'.dump := by
  intro rest rest' _ _ eq
  rcases told t' rest rest' legible eq with ⟨same, left⟩
  refine ⟨?_, left⟩
  rw [← t.dump_forget, same, t'.dump_forget]

/-- Where a term can be told by its dump, equal dumps are those of terms equal up to labels. -/
theorem Exp.Told.forget_eq (told : t.Told) (legible : t'.legible = true) (eq : t.dump = t'.dump) :
    t.forget = t'.forget :=
  (told t' [] [] legible (by rw [eq])).1

end Told

theorem separate_name {x x' : Var} (identifier : isIdentifier x = true)
    (identifier' : isIdentifier x' = true) : Separate x x' :=
  separate_word (isWord_name identifier) (isWord_name identifier')

theorem separate_value {value value' : Value} (legible : value.legible = true)
    (legible' : value'.legible = true) : Separate value.print value'.print :=
  separate_word (isWord_value legible) (isWord_value legible')

theorem separate_bop (bop bop' : Ast.Bop) : Separate (binOpString bop) (binOpString bop') := by
  have isWord : ∀ bop : Ast.Bop, IsWord isLetter (binOpString bop).toList := by
    intro bop
    cases bop <;> exact ⟨by simp [binOpString, isLetter], by simp [binOpString]⟩
  exact separate_word (isWord bop) (isWord bop')

section Vectors

variable {xs xs' : List Var} {vs vs' : List Value}

theorem words_names (identifiers : xs.all isIdentifier = true) :
    ∀ x ∈ xs, IsWord isLetter x.toList :=
  fun x member => isWord_name (List.all_eq_true.mp identifiers x member)

theorem words_values (legible : vs.all Value.legible = true) :
    ∀ x ∈ vs.map Value.print, IsWord isLetter x.toList :=
  List.forall_mem_map.mpr fun v member => isWord_value (List.all_eq_true.mp legible v member)

/-- Vectors are told apart by what is printed of them. -/
theorem separate_vector (areWords : ∀ x ∈ xs, IsWord isLetter x.toList)
    (areWords' : ∀ x ∈ xs', IsWord isLetter x.toList) :
    Separate (printVector xs) (printVector xs') := by
  intro rest rest' _ _ eq
  rcases vector_append areWords areWords' eq with ⟨rfl, left⟩
  exact ⟨rfl, left⟩

/-- Different lists of words print differently. -/
theorem printVector_injective (areWords : ∀ x ∈ xs, IsWord isLetter x.toList)
    (areWords' : ∀ x ∈ xs', IsWord isLetter x.toList) (eq : printVector xs = printVector xs') :
    xs = xs' := by
  have texts : (printVector xs).toList ++ [] = (printVector xs').toList ++ [] := by rw [eq]
  exact (vector_append areWords areWords' texts).1

/-- Operands that print alike differ in labels only. -/
theorem forget_of_prints (legible : vs.all Value.legible = true)
    (legible' : vs'.all Value.legible = true) (eq : vs.map Value.print = vs'.map Value.print) :
    vs.map Value.forget = vs'.map Value.forget := by
  induction vs generalizing vs' with
  | nil =>
    cases vs' with
    | nil => rfl
    | cons v' vs' => cases eq
  | cons v vs ih =>
    cases vs' with
    | nil => cases eq
    | cons v' vs' =>
      rcases Bool.and_eq_true_iff.mp legible with ⟨first, others⟩
      rcases Bool.and_eq_true_iff.mp legible' with ⟨first', others'⟩
      rcases List.cons.inj eq with ⟨same, sames⟩
      exact congrArg₂ List.cons (Value.forget_of_print first first' same) (ih others others' sames)

/-- A vector of values is determined by what is printed, up to labels. -/
theorem forget_of_printVector (legible : vs.all Value.legible = true)
    (legible' : vs'.all Value.legible = true)
    (eq : printVector (vs.map Value.print) = printVector (vs'.map Value.print)) :
    vs.map Value.forget = vs'.map Value.forget := by
  have prints := printVector_injective (words_values legible) (words_values legible') eq
  exact forget_of_prints legible legible' prints

end Vectors

section Optionals

variable {x x' : Option Var} {v v' : Option Value}

theorem word_slot (identifier : x.all isIdentifier = true) : ∀ y ∈ x, IsWord isLetter y.toList := by
  rintro y rfl
  exact isWord_name identifier

theorem word_slotValue (legible : v.all Value.legible = true) :
    ∀ y ∈ v.map Value.print, IsWord isLetter y.toList := by
  intro y member
  rcases Option.mem_map.mp member with ⟨value, rfl, rfl⟩
  exact isWord_value legible

theorem separate_optional (isWord : ∀ y ∈ x, IsWord isLetter y.toList)
    (isWord' : ∀ y ∈ x', IsWord isLetter y.toList) :
    Separate (printOptional x) (printOptional x') := by
  intro rest rest' _ _ eq
  rcases optional_append isWord isWord' eq with ⟨rfl, left⟩
  exact ⟨rfl, left⟩

/-- Different slots print differently. -/
theorem printOptional_injective (isWord : ∀ y ∈ x, IsWord isLetter y.toList)
    (isWord' : ∀ y ∈ x', IsWord isLetter y.toList) (eq : printOptional x = printOptional x') :
    x = x' := by
  have texts : (printOptional x).toList ++ [] = (printOptional x').toList ++ [] := by rw [eq]
  exact (optional_append isWord isWord' texts).1

/-- Slot values that print alike differ in labels only. -/
theorem forget_of_printOptional (legible : v.all Value.legible = true)
    (legible' : v'.all Value.legible = true)
    (eq : v.map Value.print = v'.map Value.print) : v.map Value.forget = v'.map Value.forget := by
  cases v with
  | none =>
    cases v' with
    | none => rfl
    | some value' => cases eq
  | some value =>
    cases v' with
    | none => cases eq
    | some value' =>
      exact congrArg some (Value.forget_of_print legible legible' (Option.some.inj eq))

end Optionals

theorem binOpString_injective {bop bop' : Ast.Bop} (eq : binOpString bop = binOpString bop') :
    bop = bop' := by
  revert eq
  cases bop <;> cases bop' <;> decide

-- One lemma for each kind of node: its fields can be told apart one after another.
section Nodes

open Exp

theorem told_haltExp {value : Value}
    (legible : (haltExp value).legible = true) : (haltExp value).Told := by
  intro t' rest rest' legible' eq
  have same := constructor_eq eq
  cases t' with
  | haltExp value' =>
    rcases printNode_append (.cons (separate_value legible legible') .nil) eq with ⟨fields, left⟩
    have values := Value.forget_of_print legible legible' (List.cons.inj fields).1
    exact ⟨congrArg haltExp values, left⟩
  | _ => simp [constructor] at same

theorem told_funExp {name : Var} {params : List Var} {body rest : Exp}
    (ihBody : body.legible = true → body.Told) (ihRest : rest.legible = true → rest.Told)
    (legible : (funExp name params body rest).legible = true) :
    (funExp name params body rest).Told := by
  intro t' after after' legible' eq
  have same := constructor_eq eq
  cases t' with
  | funExp name' params' body' rest' =>
    simp only [Exp.legible, Bool.and_eq_true] at legible legible'
    rcases legible with ⟨⟨⟨isName, areNames⟩, legibleBody⟩, legibleRest⟩
    rcases legible' with ⟨⟨⟨isName', areNames'⟩, legibleBody'⟩, legibleRest'⟩
    have told := ihBody legibleBody
    have told' := ihRest legibleRest
    rcases printNode_append (.cons (separate_name isName isName')
      (.cons (separate_vector (words_names areNames) (words_names areNames'))
        (.cons (told.separate legibleBody') (.cons (told'.separate legibleRest') .nil)))) eq with
      ⟨fields, left⟩
    simp only [List.cons.injEq, and_true] at fields
    rcases fields with ⟨rfl, vectors, bodies, rests⟩
    have names := printVector_injective (words_names areNames) (words_names areNames') vectors
    rw [forget, forget, names, told.forget_eq legibleBody' bodies,
      told'.forget_eq legibleRest' rests]
    exact ⟨rfl, left⟩
  | _ => simp [constructor] at same

theorem told_joinExp {name : Var} {slot : Option Var} {body rest : Exp}
    (ihBody : body.legible = true → body.Told) (ihRest : rest.legible = true → rest.Told)
    (legible : (joinExp name slot body rest).legible = true) :
    (joinExp name slot body rest).Told := by
  intro t' after after' legible' eq
  have same := constructor_eq eq
  cases t' with
  | joinExp name' slot' body' rest' =>
    simp only [Exp.legible, Bool.and_eq_true] at legible legible'
    rcases legible with ⟨⟨⟨isName, isSlot⟩, legibleBody⟩, legibleRest⟩
    rcases legible' with ⟨⟨⟨isName', isSlot'⟩, legibleBody'⟩, legibleRest'⟩
    have told := ihBody legibleBody
    have told' := ihRest legibleRest
    rcases printNode_append (.cons (separate_name isName isName')
      (.cons (separate_optional (word_slot isSlot) (word_slot isSlot'))
        (.cons (told.separate legibleBody') (.cons (told'.separate legibleRest') .nil)))) eq with
      ⟨fields, left⟩
    simp only [List.cons.injEq, and_true] at fields
    rcases fields with ⟨rfl, slots, bodies, rests⟩
    rw [forget, forget, printOptional_injective (word_slot isSlot) (word_slot isSlot') slots,
      told.forget_eq legibleBody' bodies, told'.forget_eq legibleRest' rests]
    exact ⟨rfl, left⟩
  | _ => simp [constructor] at same

theorem told_jumpExp {joinName : Var} {slotValue : Option Value}
    (legible : (jumpExp joinName slotValue).legible = true) :
    (jumpExp joinName slotValue).Told := by
  intro t' after after' legible' eq
  have same := constructor_eq eq
  cases t' with
  | jumpExp joinName' slotValue' =>
    simp only [Exp.legible, Bool.and_eq_true] at legible legible'
    rcases legible with ⟨isName, isValue⟩
    rcases legible' with ⟨isName', isValue'⟩
    rcases printNode_append (.cons (separate_name isName isName')
      (.cons (separate_optional (word_slotValue isValue) (word_slotValue isValue')) .nil)) eq with
      ⟨fields, left⟩
    simp only [List.cons.injEq, and_true] at fields
    rcases fields with ⟨rfl, values⟩
    have prints :=
      printOptional_injective (word_slotValue isValue) (word_slotValue isValue') values
    rw [forget, forget, forget_of_printOptional isValue isValue' prints]
    exact ⟨rfl, left⟩
  | _ => simp [constructor] at same

theorem told_appExp {name funName : Var} {paramValues : List Value} {rest : Exp}
    (ih : rest.legible = true → rest.Told)
    (legible : (appExp name funName paramValues rest).legible = true) :
    (appExp name funName paramValues rest).Told := by
  intro t' after after' legible' eq
  have same := constructor_eq eq
  cases t' with
  | appExp name' funName' paramValues' rest' =>
    simp only [Exp.legible, Bool.and_eq_true] at legible legible'
    rcases legible with ⟨⟨⟨isName, isFun⟩, areValues⟩, legibleRest⟩
    rcases legible' with ⟨⟨⟨isName', isFun'⟩, areValues'⟩, legibleRest'⟩
    have told := ih legibleRest
    rcases printNode_append (.cons (separate_name isName isName')
      (.cons (separate_name isFun isFun')
        (.cons (separate_vector (words_values areValues) (words_values areValues'))
          (.cons (told.separate legibleRest') .nil)))) eq with ⟨fields, left⟩
    simp only [List.cons.injEq, and_true] at fields
    rcases fields with ⟨rfl, rfl, vectors, rests⟩
    rw [forget, forget, forget_of_printVector areValues areValues' vectors,
      told.forget_eq legibleRest' rests]
    exact ⟨rfl, left⟩
  | _ => simp [constructor] at same

theorem told_bopExp {name : Var} {bop : Ast.Bop} {param1 param2 : Value} {rest : Exp}
    (ih : rest.legible = true → rest.Told)
    (legible : (bopExp name bop param1 param2 rest).legible = true) :
    (bopExp name bop param1 param2 rest).Told := by
  intro t' after after' legible' eq
  have same := constructor_eq eq
  cases t' with
  | bopExp name' bop' param1' param2' rest' =>
    simp only [Exp.legible, Bool.and_eq_true] at legible legible'
    rcases legible with ⟨⟨⟨isName, isValue1⟩, isValue2⟩, legibleRest⟩
    rcases legible' with ⟨⟨⟨isName', isValue1'⟩, isValue2'⟩, legibleRest'⟩
    have told := ih legibleRest
    rcases printNode_append (.cons (separate_name isName isName')
      (.cons (separate_bop bop bop') (.cons (separate_value isValue1 isValue1')
        (.cons (separate_value isValue2 isValue2')
          (.cons (told.separate legibleRest') .nil))))) eq with ⟨fields, left⟩
    simp only [List.cons.injEq, and_true] at fields
    rcases fields with ⟨rfl, bops, values1, values2, rests⟩
    rw [forget, forget, binOpString_injective bops,
      Value.forget_of_print isValue1 isValue1' values1,
      Value.forget_of_print isValue2 isValue2' values2, told.forget_eq legibleRest' rests]
    exact ⟨rfl, left⟩
  | _ => simp [constructor] at same

theorem told_ifExp {cond : Value} {thenBranch elseBranch : Exp}
    (ihThen : thenBranch.legible = true → thenBranch.Told)
    (ihElse : elseBranch.legible = true → elseBranch.Told)
    (legible : (ifExp cond thenBranch elseBranch).legible = true) :
    (ifExp cond thenBranch elseBranch).Told := by
  intro t' after after' legible' eq
  have same := constructor_eq eq
  cases t' with
  | ifExp cond' thenBranch' elseBranch' =>
    simp only [Exp.legible, Bool.and_eq_true] at legible legible'
    rcases legible with ⟨⟨isValue, legibleThen⟩, legibleElse⟩
    rcases legible' with ⟨⟨isValue', legibleThen'⟩, legibleElse'⟩
    have told := ihThen legibleThen
    have told' := ihElse legibleElse
    rcases printNode_append (.cons (separate_value isValue isValue')
      (.cons (told.separate legibleThen') (.cons (told'.separate legibleElse') .nil))) eq with
      ⟨fields, left⟩
    simp only [List.cons.injEq, and_true] at fields
    rcases fields with ⟨values, thens, elses⟩
    rw [forget, forget, Value.forget_of_print isValue isValue' values,
      told.forget_eq legibleThen' thens, told'.forget_eq legibleElse' elses]
    exact ⟨rfl, left⟩
  | _ => simp [constructor] at same

theorem told_tupleExp {name : Var} {values : List Value} {rest : Exp}
    (ih : rest.legible = true → rest.Told)
    (legible : (tupleExp name values rest).legible = true) : (tupleExp name values rest).Told := by
  intro t' after after' legible' eq
  have same := constructor_eq eq
  cases t' with
  | tupleExp name' values' rest' =>
    simp only [Exp.legible, Bool.and_eq_true] at legible legible'
    rcases legible with ⟨⟨isName, areValues⟩, legibleRest⟩
    rcases legible' with ⟨⟨isName', areValues'⟩, legibleRest'⟩
    have told := ih legibleRest
    rcases printNode_append (.cons (separate_name isName isName')
      (.cons (separate_vector (words_values areValues) (words_values areValues'))
        (.cons (told.separate legibleRest') .nil))) eq with ⟨fields, left⟩
    simp only [List.cons.injEq, and_true] at fields
    rcases fields with ⟨rfl, vectors, rests⟩
    rw [forget, forget, forget_of_printVector areValues areValues' vectors,
      told.forget_eq legibleRest' rests]
    exact ⟨rfl, left⟩
  | _ => simp [constructor] at same

theorem told_projExp {name tuple : Var} {index : Nat} {rest : Exp}
    (ih : rest.legible = true → rest.Told)
    (legible : (projExp name tuple index rest).legible = true) :
    (projExp name tuple index rest).Told := by
  intro t' after after' legible' eq
  have same := constructor_eq eq
  cases t' with
  | projExp name' tuple' index' rest' =>
    simp only [Exp.legible, Bool.and_eq_true] at legible legible'
    rcases legible with ⟨⟨isName, isTuple⟩, legibleRest⟩
    rcases legible' with ⟨⟨isName', isTuple'⟩, legibleRest'⟩
    have told := ih legibleRest
    rcases printNode_append (.cons (separate_name isName isName')
      (.cons (separate_name isTuple isTuple')
        (.cons (separate_word (isWord_nat index) (isWord_nat index'))
          (.cons (told.separate legibleRest') .nil)))) eq with ⟨fields, left⟩
    simp only [List.cons.injEq, and_true] at fields
    rcases fields with ⟨rfl, rfl, indices, rests⟩
    rw [forget, forget, toString_injective indices, told.forget_eq legibleRest' rests]
    exact ⟨rfl, left⟩
  | _ => simp [constructor] at same

end Nodes

/-- Every term of identifiers is determined by its dump, up to labels. -/
theorem Exp.told {t : Exp} (legible : t.legible = true) : t.Told := by
  induction t with
  | haltExp value => exact told_haltExp legible
  | funExp name params body rest ihBody ihRest => exact told_funExp ihBody ihRest legible
  | joinExp name slot body rest ihBody ihRest => exact told_joinExp ihBody ihRest legible
  | jumpExp joinName slotValue => exact told_jumpExp legible
  | appExp name funName paramValues rest ih => exact told_appExp ih legible
  | bopExp name bop param1 param2 rest ih => exact told_bopExp ih legible
  | ifExp cond thenBranch elseBranch ihThen ihElse => exact told_ifExp ihThen ihElse legible
  | tupleExp name values rest ih => exact told_tupleExp ih legible
  | projExp name tuple index rest ih => exact told_projExp ih legible

/-- A dump determines a term whose names are identifiers, except that it does not tell labels from
variables. -/
theorem Exp.dump_eq_iff (t t' : Exp) (legible : t.legible = true) (legible' : t'.legible = true) :
    t.dump = t'.dump ↔ t.forget = t'.forget := by
  constructor
  · exact (told legible).forget_eq legible'
  · intro same
    rw [← t.dump_forget, same, t'.dump_forget]

/-- A record of `f` that is projected and called, with `value` as the operand. -/
def Exp.callOf (value : Value) : Exp :=
  .tupleExp "f" [value, .intValue 1] (.projExp "proj0" "f" 0 (.appExp "tmp0" "proj0"
    [.varValue "f", value] (.ifExp (.varValue "tmp0") (.jumpExp "j" (some value))
      (.haltExp (.intValue 2)))))

/-- A label in the record prints as a variable does, and not as a number does. -/
theorem Exp.dump_eq_iff_labels :
    (callOf (.globValue "f")).dump = (callOf (.varValue "f")).dump ∧
      (callOf (.intValue 1)).dump ≠ (callOf (.varValue "f")).dump := by
  refine ⟨(dump_eq_iff _ _ (by decide) (by decide)).mpr rfl, ?_⟩
  rw [Ne, dump_eq_iff _ _ (by decide) (by decide)]
  decide

/-! ## The dump of an A-normal form -/

/-- The names are identifiers, and there are no labels. -/
def Exp.Clear (t : Exp) : Prop := t.legible = true ∧ t.forget = t

def Value.Clear (value : Value) : Prop := value.legible = true ∧ value.forget = value

/-- Temporaries are identifiers. -/
theorem isIdentifier_tmp (i : Nat) : isIdentifier (tmp i) = true := by
  have digits : (tmp i).toList = 't' :: 'm' :: 'p' :: Nat.toDigits 10 i := by
    simp [tmp]
  unfold isIdentifier
  rw [digits]
  refine Bool.and_eq_true_iff.mpr ⟨rfl, List.all_eq_true.mpr ?_⟩
  refine List.forall_mem_cons.mpr ⟨rfl, List.forall_mem_cons.mpr ⟨rfl, fun c member => ?_⟩⟩
  have digit : c.isDigit = true := Nat.isDigit_of_mem_toDigits (by omega) (by omega) member
  simp [Char.isAlphanum, digit]

section Conversions

variable {e : Ast.Exp}

theorem clear_value (names : ∀ x ∈ e.names, isIdentifier x = true) (c : Nat) :
    (e.value c).Clear := by
  cases e with
  | intExp value => exact ⟨rfl, rfl⟩
  | varExp name => exact ⟨names name List.mem_cons_self, rfl⟩
  | _ => exact ⟨isIdentifier_tmp _, rfl⟩

/-- What is applied is no integer, so its text is an identifier. -/
theorem isIdentifier_name {fn arg : Ast.Exp} (named : (Ast.Exp.appExp fn arg).appliesInt = false)
    (names : ∀ x ∈ fn.names, isIdentifier x = true) (c : Nat) :
    isIdentifier (fn.value c).name = true := by
  cases fn with
  | intExp value => simp [Ast.Exp.appliesInt] at named
  | varExp name => exact names name List.mem_cons_self
  | _ => exact isIdentifier_tmp _

/-- Around a clear term, the conversion of a tree whose names are identifiers is clear. -/
theorem clear_around (named : e.appliesInt = false)
    (names : ∀ x ∈ e.names, isIdentifier x = true) {c d : Nat} {tk : Exp} (clear : tk.Clear) :
    (e.around c d tk).Clear := by
  induction e generalizing c d tk with
  | intExp value => exact clear
  | varExp name => exact clear
  | lamExp param body ih =>
    rcases List.forall_mem_cons.mp names with ⟨isParam, names⟩
    have halts : (Exp.haltExp (body.value c)).Clear := by
      rcases clear_value names c with ⟨legible, same⟩
      exact ⟨legible, congrArg Exp.haltExp same⟩
    rcases ih named names (c := c) (d := 0) halts with ⟨legible, same⟩
    refine ⟨?_, ?_⟩
    · simp [Ast.Exp.around, Exp.legible, isIdentifier_tmp, isParam, legible, clear.1]
    · simp [Ast.Exp.around, Exp.forget, same, clear.2]
  | appExp fn arg ihFn ihArg =>
    rcases named_appExp named with ⟨namedFn, namedArg⟩
    rcases List.forall_mem_append.mp names with ⟨namesFn, namesArg⟩
    rcases clear_value namesArg (c + fn.lead) with ⟨legible, same⟩
    have node : (Exp.appExp (tmp (c + fn.lead + arg.lead)) (fn.value c).name
        [arg.value (c + fn.lead)] tk).Clear := by
      refine ⟨?_, ?_⟩
      · simp [Exp.legible, isIdentifier_tmp, isIdentifier_name named namesFn, legible, clear.1]
      · simp [Exp.forget, same, clear.2]
    exact ihFn namedFn namesFn (ihArg namedArg namesArg node)
  | bopExp bop arg1 arg2 ih1 ih2 =>
    rcases named_bopExp named with ⟨named1, named2⟩
    rcases List.forall_mem_append.mp names with ⟨names1, names2⟩
    rcases clear_value names1 c with ⟨legible1, same1⟩
    rcases clear_value names2 (c + arg1.lead) with ⟨legible2, same2⟩
    have node : (Exp.bopExp (tmp (c + arg1.lead + arg2.lead)) bop (arg1.value c)
        (arg2.value (c + arg1.lead)) tk).Clear := by
      refine ⟨?_, ?_⟩
      · simp [Exp.legible, isIdentifier_tmp, legible1, legible2, clear.1]
      · simp [Exp.forget, same1, same2, clear.2]
    exact ih1 named1 names1 (ih2 named2 names2 node)
  | ifExp cond then_ els ihCond ihThen ihEls =>
    rcases named_ifExp named with ⟨namedCond, namedThen, namedEls⟩
    rcases List.forall_mem_append.mp names with ⟨namesCondThen, namesEls⟩
    rcases List.forall_mem_append.mp namesCondThen with ⟨namesCond, namesThen⟩
    have jumps : ∀ {value : Value}, value.Clear →
        (Exp.jumpExp (tmp (c + cond.lead)) (some value)).Clear := by
      rintro value ⟨legible, same⟩
      exact ⟨by simp [Exp.legible, isIdentifier_tmp, legible], by simp [Exp.forget, same]⟩
    rcases clear_value namesCond c with ⟨legible, same⟩
    rcases ihThen namedThen namesThen (c := c + cond.lead + 2 + d) (d := 0)
      (jumps (clear_value namesThen (c + cond.lead + 2 + d))) with ⟨legibleThen, sameThen⟩
    rcases ihEls namedEls namesEls (c := c + cond.lead + 2 + d + then_.draws) (d := 0)
      (jumps (clear_value namesEls (c + cond.lead + 2 + d + then_.draws))) with
      ⟨legibleEls, sameEls⟩
    refine ihCond namedCond namesCond ⟨?_, ?_⟩
    · simp [Exp.legible, isIdentifier_tmp, legible, legibleThen, legibleEls, clear.1]
    · simp [Exp.forget, same, sameThen, sameEls, clear.2]

/-- The A-normal form of a tree whose names are identifiers is clear. -/
theorem clear_convert (names : ∀ x ∈ e.names, isIdentifier x = true) {c c' : Nat} {t : Exp}
    (ran : convert e c = .ok (t, c')) : t.Clear := by
  have named : e.appliesInt = false := by
    by_contra applies
    rcases convertWith_throws_of_appliesInt (Bool.eq_true_of_not_eq_false applies) haltCont c with
      ⟨error, throws⟩
    cases throws.symm.trans ran
  rw [convert_around ran]
  rcases clear_value names c with ⟨legible, same⟩
  exact clear_around named names ⟨legible, congrArg Exp.haltExp same⟩

/-- So comparing the dumps of two converted expressions, as the tests do, compares the terms. -/
theorem dump_convert_eq_iff {e e' : Ast.Exp} (names : ∀ x ∈ e.names, isIdentifier x = true)
    (names' : ∀ x ∈ e'.names, isIdentifier x = true) {c c' d d' : Nat} {t t' : Exp}
    (ran : convert e c = .ok (t, d)) (ran' : convert e' c' = .ok (t', d')) :
    t.dump = t'.dump ↔ t = t' := by
  have clear : t.Clear := clear_convert names ran
  have clear' : t'.Clear := clear_convert names' ran'
  constructor
  · intro eq
    rw [← clear.2, ← clear'.2]
    exact (Exp.told clear.1).forget_eq clear'.1 eq
  · exact congrArg Exp.dump

end Conversions

end Lambcalc.Anf
