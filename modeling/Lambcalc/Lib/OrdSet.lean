import Mathlib.Order.Lattice
import Mathlib.Data.List.Basic

/-!
# Sets kept in increasing order

`OrdSet α` is a finite set stored as the list of its elements in strictly increasing order,
so that going through it gives every element once and in order.
-/

namespace Lambcalc.Lib

variable {α : Type*} [LinearOrder α]

/-- A finite set, as its elements in increasing order. -/
structure OrdSet (α : Type*) [LinearOrder α] where
  toList : List α
  sorted : toList.Pairwise (· < ·)

/-- Put `x` in its place in a sorted list, unless it is there already. -/
def insertSorted (x : α) : List α → List α
  | [] => [x]
  | y :: ys =>
    if x < y then x :: y :: ys else if x = y then y :: ys else y :: insertSorted x ys

theorem mem_insertSorted {x z : α} {ys : List α} : z ∈ insertSorted x ys ↔ z = x ∨ z ∈ ys := by
  induction ys with
  | nil => simp [insertSorted]
  | cons y ys ih =>
    unfold insertSorted
    split
    · simp
    · split
      · next eq => simp [eq]
      · simp [ih, or_left_comm]

theorem sorted_insertSorted {x : α} {ys : List α} (sorted : ys.Pairwise (· < ·)) :
    (insertSorted x ys).Pairwise (· < ·) := by
  induction ys with
  | nil => exact List.pairwise_singleton ..
  | cons y ys ih =>
    obtain ⟨below, sortedTail⟩ := List.pairwise_cons.mp sorted
    unfold insertSorted
    split
    · next lt =>
      refine List.pairwise_cons.mpr ⟨fun z member => ?_, sorted⟩
      rcases List.mem_cons.mp member with rfl | member
      · exact lt
      · exact lt.trans (below z member)
    · next notLt =>
      split
      · exact sorted
      · next ne =>
        refine List.pairwise_cons.mpr ⟨fun z member => ?_, ih sortedTail⟩
        rcases mem_insertSorted.mp member with rfl | member
        · exact lt_of_le_of_ne (not_lt.mp notLt) (Ne.symm ne)
        · exact below z member

namespace OrdSet

instance : Membership α (OrdSet α) := ⟨fun s x => x ∈ s.toList⟩

theorem mem_toList {s : OrdSet α} {x : α} : x ∈ s.toList ↔ x ∈ s := Iff.rfl

theorem nodup (s : OrdSet α) : s.toList.Nodup := s.sorted.imp fun lt => lt.ne

def empty : OrdSet α := ⟨[], .nil⟩

theorem not_mem_empty (x : α) : x ∉ (empty : OrdSet α) := List.not_mem_nil

def insert (s : OrdSet α) (x : α) : OrdSet α :=
  ⟨insertSorted x s.toList, sorted_insertSorted s.sorted⟩

@[simp] theorem mem_insert {s : OrdSet α} {x z : α} : z ∈ s.insert x ↔ z = x ∨ z ∈ s :=
  mem_insertSorted

def erase (s : OrdSet α) (x : α) : OrdSet α :=
  ⟨s.toList.filter (· ≠ x), s.sorted.filter _⟩

@[simp] theorem mem_erase {s : OrdSet α} {x z : α} : z ∈ s.erase x ↔ z ∈ s ∧ z ≠ x := by
  simp [← mem_toList, erase]

@[simp] theorem mem_foldl_erase {s : OrdSet α} {xs : List α} {z : α} :
    z ∈ xs.foldl erase s ↔ z ∈ s ∧ z ∉ xs := by
  induction xs generalizing s with
  | nil => simp
  | cons x xs ih =>
    rw [List.foldl_cons, ih, mem_erase, List.mem_cons]
    tauto

end OrdSet

end Lambcalc.Lib
