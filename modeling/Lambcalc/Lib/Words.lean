import Mathlib.Data.List.Basic

/-!
# Texts of words and delimiters

Texts over an alphabet that is split into the letters of words and the delimiters. Where a word ends
at a delimiter, the text before it determines the word; where words are listed with delimiters
between them, it determines the list.
-/

namespace Lambcalc.Lib

section Words

variable {α : Type} {isLetter : α → Bool}

/-- The text goes on with no letter. -/
def EndsWord (isLetter : α → Bool) (rest : List α) : Prop := ∀ c ∈ rest.head?, isLetter c = false

/-- A word: some letters. -/
structure IsWord (isLetter : α → Bool) (word : List α) : Prop where
  letters : ∀ c ∈ word, isLetter c = true
  nonempty : word ≠ []

theorem endsWord_cons {c : α} (delimiter : isLetter c = false) (rest : List α) :
    EndsWord isLetter (c :: rest) := by
  intro d head
  cases head
  exact delimiter

/-- A word that ends is determined. -/
theorem word_append {w w' rest rest' : List α} (letters : ∀ c ∈ w, isLetter c = true)
    (letters' : ∀ c ∈ w', isLetter c = true) (ends : EndsWord isLetter rest)
    (ends' : EndsWord isLetter rest') (eq : w ++ rest = w' ++ rest') : w = w' ∧ rest = rest' := by
  have stop : ∀ {c : α} {w rest : List α}, isLetter c = true → EndsWord isLetter rest →
      rest ≠ c :: w := by
    rintro c w _ isIn ends rfl
    rw [ends c rfl] at isIn
    cases isIn
  induction w generalizing w' with
  | nil =>
    cases w' with
    | nil => exact ⟨rfl, eq⟩
    | cons c w' => exact (stop (letters' c List.mem_cons_self) ends eq).elim
  | cons c w ih =>
    cases w' with
    | nil => exact (stop (letters c List.mem_cons_self) ends' eq.symm).elim
    | cons c' w' =>
      rcases List.cons.inj eq with ⟨rfl, below⟩
      rcases ih (List.forall_mem_cons.mp letters).2 (List.forall_mem_cons.mp letters').2 below with
        ⟨rfl, same⟩
      exact ⟨rfl, same⟩

/-- Words with a separator between them. -/
def separated (separator : List α) : List (List α) → List α
  | [] => []
  | [w] => w
  | w :: w' :: words => w ++ (separator ++ separated separator (w' :: words))

/-- A list of words that ends with another delimiter than the separator is determined. -/
theorem separated_append {d e : α} {separator : List α} (delimiter : isLetter d = false)
    (end_ : isLetter e = false) (other : d ≠ e) {words words' : List (List α)}
    (areWords : ∀ w ∈ words, IsWord isLetter w) (areWords' : ∀ w ∈ words', IsWord isLetter w)
    {rest rest' : List α} (eq : separated (d :: separator) words ++ e :: rest =
      separated (d :: separator) words' ++ e :: rest') : words = words' ∧ rest = rest' := by
  -- the first word of a list, and what comes after it
  have split : ∀ w words (rest : List α), ∃ c tail, separated (d :: separator) (w :: words) ++
      e :: rest = w ++ c :: tail ∧ isLetter c = false ∧ (words = [] → c = e ∧ tail = rest) ∧
      (words ≠ [] → c = d ∧
        tail = separator ++ (separated (d :: separator) words ++ e :: rest)) := by
    intro w words rest
    cases words with
    | nil => exact ⟨e, rest, rfl, end_, fun _ => ⟨rfl, rfl⟩, fun ne => (ne rfl).elim⟩
    | cons w' words =>
      refine ⟨d, _, ?_, delimiter, nofun, fun _ => ⟨rfl, rfl⟩⟩
      simp only [separated, List.append_assoc, List.cons_append]
  have empty : ∀ {w words} {rest rest' : List α}, IsWord isLetter w →
      e :: rest ≠ separated (d :: separator) (w :: words) ++ e :: rest' := by
    intro w words rest rest' isWord eq
    rcases split w words rest' with ⟨c, tail, same, -⟩
    rw [same] at eq
    cases w with
    | nil => exact isWord.nonempty rfl
    | cons b w =>
      rcases List.cons.inj eq with ⟨rfl, -⟩
      rw [isWord.letters _ List.mem_cons_self] at end_
      cases end_
  induction words generalizing words' with
  | nil =>
    cases words' with
    | nil => exact ⟨rfl, (List.cons.inj eq).2⟩
    | cons w' words' => exact (empty (areWords' w' List.mem_cons_self) eq).elim
  | cons w words ih =>
    cases words' with
    | nil => exact (empty (areWords w List.mem_cons_self) eq.symm).elim
    | cons w' words' =>
      rcases List.forall_mem_cons.mp areWords with ⟨isWord, others⟩
      rcases List.forall_mem_cons.mp areWords' with ⟨isWord', others'⟩
      rcases split w words rest with ⟨c, tail, same, ends, last, more⟩
      rcases split w' words' rest' with ⟨c', tail', same', ends', last', more'⟩
      rw [same, same'] at eq
      rcases word_append isWord.letters isWord'.letters (endsWord_cons ends tail)
        (endsWord_cons ends' tail') eq with ⟨rfl, after⟩
      rcases List.cons.inj after with ⟨rfl, rfl⟩
      by_cases alone : words = []
      · by_cases alone' : words' = []
        · subst alone alone'
          exact ⟨rfl, (last rfl).2.symm.trans (last' rfl).2⟩
        · exact (other ((more' alone').1.symm.trans (last alone).1)).elim
      · by_cases alone' : words' = []
        · exact (other ((more alone).1.symm.trans (last' alone').1)).elim
        · have tails := (more alone).2.symm.trans (more' alone').2
          rcases ih others others' (List.append_cancel_left tails) with ⟨rfl, same⟩
          exact ⟨rfl, same⟩

end Words

end Lambcalc.Lib
