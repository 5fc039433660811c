import Mathlib.Data.Nat.Notation
import Mathlib.Data.String.Basic

/-!
# Names made of a prefix and a decimal number

Facts about the strings `s ++ toString n` a compiler draws fresh names from: when two of them
are the same string. With one prefix the numbers must agree. With two, one prefix is the
other followed by digits that the other's number begins with, which `Overlap` says.
-/

namespace Lambcalc.Lib

theorem toString_injective {m n : Nat} (eq : toString m = toString n) : m = n := by
  have digits : Nat.toDigits 10 m = Nat.toDigits 10 n := by
    simpa using congrArg String.toList eq
  have values := congrArg (Nat.ofDigitChars 10 · 0) digits
  simpa using values

/-- Under one prefix, different numbers make different names. -/
theorem append_toString_injective {s : String} {m n : Nat}
    (eq : s ++ toString m = s ++ toString n) : m = n :=
  toString_injective ((String.append_right_inj s).mp eq)

theorem length_toString_mono {m n : Nat} (le : m ≤ n) :
    (toString m).length ≤ (toString n).length := by
  have pos : 0 < (toString n).length := Nat.length_repr_pos
  have bound : n < 10 ^ (toString n).length := (Nat.length_repr_le_iff pos).mp le_rfl
  exact (Nat.length_repr_le_iff pos).mpr (by omega)

/-- `p` is `q` with digits `d` behind it, and `j` in decimal is `d` and then `i`: the name
made of `p` and `i` is the name made of `q` and `j`. -/
def Overlap (p : String) (i : Nat) (q : String) (j : Nat) : Prop :=
  ∃ d, p = q ++ d ∧ toString j = d ++ toString i

theorem Overlap.eq {p q : String} {i j : Nat} (overlap : Overlap p i q j) :
    p ++ toString i = q ++ toString j := by
  obtain ⟨d, rfl, digits⟩ := overlap
  rw [digits, String.append_assoc]

/-- Two numbered names are the same string exactly if they overlap one way or the other. -/
theorem append_toString_eq_iff {p q : String} {i j : Nat} :
    p ++ toString i = q ++ toString j ↔ Overlap p i q j ∨ Overlap q j p i := by
  constructor
  · intro eq
    have lists : p.toList ++ (toString i).toList = q.toList ++ (toString j).toList := by
      simpa only [String.toList_append] using congrArg String.toList eq
    rcases List.append_eq_append_iff.mp lists with ⟨d, left, right⟩ | ⟨d, left, right⟩
    · have prefixes : q = p ++ String.ofList d := by
        rw [← String.toList_inj, String.toList_append, String.toList_ofList, left]
      have numbers : toString i = String.ofList d ++ toString j := by
        rw [← String.toList_inj, String.toList_append, String.toList_ofList, right]
      exact .inr ⟨String.ofList d, prefixes, numbers⟩
    · have prefixes : p = q ++ String.ofList d := by
        rw [← String.toList_inj, String.toList_append, String.toList_ofList, left]
      have numbers : toString j = String.ofList d ++ toString i := by
        rw [← String.toList_inj, String.toList_append, String.toList_ofList, right]
      exact .inl ⟨String.ofList d, prefixes, numbers⟩
  · rintro (overlap | overlap)
    · exact overlap.eq
    · exact overlap.eq.symm

/-- The name with the smaller number has the longer prefix. -/
theorem append_toString_eq_iff_of_le {p q : String} {i j : Nat} (le : i ≤ j) :
    p ++ toString i = q ++ toString j ↔ Overlap p i q j := by
  refine append_toString_eq_iff.trans ⟨?_, .inl⟩
  rintro (overlap | ⟨d, rfl, digits⟩)
  · exact overlap
  · have length : (toString i).length = d.length + (toString j).length :=
      (congrArg String.length digits).trans (String.length_append ..)
    have mono := length_toString_mono le
    obtain rfl : d = "" := String.length_eq_zero_iff.mp (by omega)
    exact ⟨"", by simp, by simpa using digits.symm⟩

/-- A prefix that does not end in a digit is the shorter one. -/
theorem append_toString_eq_iff_of_last {p q : String} {c : Char} {i j : Nat}
    (last : q.toList.getLast? = some c) (nondigit : c.isDigit = false) :
    p ++ toString i = q ++ toString j ↔ Overlap p i q j := by
  refine append_toString_eq_iff.trans ⟨?_, .inl⟩
  rintro (overlap | ⟨d, rfl, digits⟩)
  · exact overlap
  · by_cases empty : d = ""
    · subst empty
      exact ⟨"", by simp, by simpa using digits.symm⟩
    · have nonempty : d.toList ≠ [] := by simpa using empty
      have ends : d.toList.getLast? = some c := by
        rw [String.toList_append, List.getLast?_append] at last
        rw [List.getLast?_eq_some_getLast nonempty] at last ⊢
        simpa using last
      have member : c ∈ (toString i).toList := by
        rw [digits, String.toList_append]
        exact List.mem_append_left _ (List.mem_of_getLast? ends)
      have digit : c.isDigit = true := by
        have digits' : c ∈ Nat.toDigits 10 i := by simpa using member
        exact Nat.isDigit_of_mem_toDigits (by omega) (by omega) digits'
      rw [nondigit] at digit
      cases digit

/-- A prefix without digits overlaps with itself only. -/
theorem Overlap.of_letters {p q : String} {i j : Nat} (overlap : Overlap p i q j)
    (letters : ∀ c ∈ p.toList, c.isDigit = false) : p = q ∧ i = j := by
  rcases overlap with ⟨d, rfl, digits⟩
  have empty : d = "" := by
    rw [← String.toList_eq_nil_iff, List.eq_nil_iff_forall_not_mem]
    intro c member
    have inNumber : c ∈ (toString j).toList := by
      rw [digits, String.toList_append]
      exact List.mem_append_left _ member
    have inDigits : c ∈ Nat.toDigits 10 j := by simpa using inNumber
    have digit : c.isDigit = true := Nat.isDigit_of_mem_toDigits (by omega) (by omega) inDigits
    have letter := letters c (by simp [member])
    rw [digit] at letter
    cases letter
  subst empty
  exact ⟨by simp, toString_injective (by simpa using digits.symm)⟩

end Lambcalc.Lib
