import Lambcalc.Emit.Bodies
import Lambcalc.Hoist.Semantics
import Mathlib.Data.List.Infix

/-!
# Words for values

How the machine represents the values and the heap of the block program. An integer is its word, an
address the word where the machine has placed the record, and a label the address of its function.
Calls leave the cells of their callers alone: `Evolves` is what they may change.
-/

namespace Lambcalc.Emit

open Anf (Exp Value Var Env passSlot)
open Hoist Lib Lib.Ir LLVMLowerVisitor
open Lambcalc.Convert (Val Heap read cell callee)

variable {M : Module} {m : Machine M}

/-! ## Values -/

/-- The word for a value, if the records have been placed at `addrs`. -/
inductive Represents (m : Machine M) (addrs : List Word) : Val → Word → Prop where
  | int {n : Word} : Represents m addrs (.int n) n
  | addr {a : Nat} {base : Word} (placed : addrs[a]? = some base) :
    Represents m addrs (.addr a) base
  | label {name : Var} : Represents m addrs (.label name) (m.addressOf name)

theorem Represents.mono {addrs addrs' : List Word} {v : Val} {w : Word}
    (represents : Represents m addrs v w) (grown : addrs <+: addrs') : Represents m addrs' v w := by
  cases represents with
  | int => exact .int
  | addr placed =>
    obtain ⟨more, rfl⟩ := grown
    obtain ⟨lt, -⟩ := List.getElem?_eq_some_iff.mp placed
    exact .addr ((List.getElem?_append_left lt).trans placed)
  | label => exact .label

/-! ## Heaps -/

/-- The records of the block program, where they have been placed, and the memory of the machine. -/
structure World where
  addrs : List Word
  heap : Heap
  memory : Memory

namespace World

/-- The cell belongs to a record. -/
def InHeap (W : World) (c : Word) : Prop :=
  ∃ (a i : Nat) (base : Word) (cells : Convert.Record), W.addrs[a]? = some base ∧
    W.heap[a]? = some cells ∧ i < cells.length ∧ c = cellAt base i

/-- Each record has a place, where memory holds the words for its cells. -/
structure Sound (m : Machine M) (W : World) : Prop where
  length : W.addrs.length = W.heap.length
  holds : ∀ {a i : Nat} {base : Word} {cells : Convert.Record} {cell : Value × Val},
    W.addrs[a]? = some base → W.heap[a]? = some cells → cells[i]? = some cell →
    ∃ w, W.memory.cells (cellAt base i) = .holds w ∧ Represents m W.addrs cell.2 w

/-- The cells of a call are in use, and belong to no record. -/
def Owned (own : List Word) (W : World) : Prop :=
  ∀ c ∈ own, W.memory.cells c ≠ .free ∧ ¬ W.InHeap c

/-- What a call with the cells `own` may do: it changes no other cells that are in use, and takes
none of them for its records. -/
structure Evolves (own : List Word) (W W' : World) : Prop where
  addrs : W.addrs <+: W'.addrs
  live : ∀ c, W.memory.cells c ≠ .free → W'.memory.cells c ≠ .free
  kept : ∀ c ∉ own, W.memory.cells c ≠ .free → W'.memory.cells c = W.memory.cells c
  apart : ∀ c, W.memory.cells c ≠ .free → ¬ W.InHeap c → ¬ W'.InHeap c

variable {W W₁ W₂ : World} {own : List Word}

theorem Evolves.refl (own : List Word) (W : World) : Evolves own W W :=
  ⟨List.prefix_rfl, fun _ live => live, fun _ _ _ => rfl, fun _ _ apart => apart⟩

theorem Evolves.trans (first : Evolves own W W₁) (second : Evolves own W₁ W₂) :
    Evolves own W W₂ where
  addrs := first.addrs.trans second.addrs
  live c live := second.live c (first.live c live)
  kept c other live := (second.kept c other (first.live c live)).trans (first.kept c other live)
  apart c live apart := second.apart c (first.live c live) (first.apart c live apart)

theorem Evolves.mono {own' : List Word} (evolves : Evolves own W W₁) (sub : own ⊆ own') :
    Evolves own' W W₁ :=
  { evolves with kept := fun c other => evolves.kept c fun member => other (sub member) }

theorem Owned.evolves {own' : List Word} (owned : Owned own W) (evolves : Evolves own' W W₁) :
    Owned own W₁ := fun c member =>
  ⟨evolves.live c (owned c member).1, evolves.apart c (owned c member).1 (owned c member).2⟩

/-- The cells of a record are in use. -/
theorem Sound.live (sound : Sound m W) {c : Word} (inHeap : W.InHeap c) :
    W.memory.cells c ≠ .free := by
  obtain ⟨a, i, base, cells, placed, found, lt, rfl⟩ := inHeap
  obtain ⟨w, holds, -⟩ := sound.holds placed found (List.getElem?_eq_getElem lt)
  rw [holds]
  exact Cell.noConfusion

/-- Other memory does not matter. -/
theorem Sound.congr (sound : Sound m W) {memory : Memory}
    (same : ∀ c, W.InHeap c → memory.cells c = W.memory.cells c) :
    Sound m { W with memory := memory } where
  length := sound.length
  holds := by
    intro a i base cells cell placed found at_
    obtain ⟨w, holds, represents⟩ := sound.holds placed found at_
    have inHeap : W.InHeap (cellAt base i) :=
      ⟨a, i, base, cells, placed, found, (List.getElem?_eq_some_iff.mp at_).1, rfl⟩
    exact ⟨w, (same _ inHeap).trans holds, represents⟩

/-! ### Cells of a call -/

/-- A cell of the call is written. -/
theorem Sound.write_own (sound : Sound m W) (owned : Owned own W) {c : Word} (member : c ∈ own)
    (w : Word) : Sound m { W with memory := W.memory.write c w } ∧
      Evolves own W { W with memory := W.memory.write c w } := by
  refine ⟨sound.congr fun c' inHeap => Memory.write_of_ne ?_ _ w, List.prefix_rfl,
    fun c' live => ?_, fun c' other live => Memory.write_of_ne ?_ _ w, fun _ _ apart => apart⟩
  · rintro rfl
    exact (owned _ member).2 inHeap
  · show (W.memory.write c w).cells c' ≠ .free
    by_cases eq : c' = c
    · rw [eq, Memory.write_self]
      exact Cell.noConfusion
    · rw [Memory.write_of_ne eq]
      exact live
  · rintro rfl
    exact other member

/-- Cells that were free are allocated. -/
theorem Sound.allocate (sound : Sound m W) {new : List Word}
    (unused : ∀ c ∈ new, W.memory.cells c = .free) :
    Sound m { W with memory := W.memory.allocate new } ∧
      Evolves [] W { W with memory := W.memory.allocate new } := by
  have same : ∀ c, W.memory.cells c ≠ .free →
      (W.memory.allocate new).cells c = W.memory.cells c := fun c live =>
    Memory.allocate_other (fun member => live (unused c member)) _
  refine ⟨sound.congr fun c inHeap => same c (sound.live inHeap), List.prefix_rfl,
    fun c live => ?_, fun c _ live => same c live, fun _ _ apart => apart⟩
  show (W.memory.allocate new).cells c ≠ .free
  rw [same c live]
  exact live

/-- A call that ends releases its cells, which were free before. -/
theorem Sound.release {own' : List Word} (sound : Sound m W₂) (owned : Owned own' W₂)
    (begun : Evolves [] W W₁) (unused : ∀ c ∈ own', W.memory.cells c = .free)
    (evolves : Evolves own' W₁ W₂) :
    Sound m { W₂ with memory := W₂.memory.release own' } ∧
      Evolves [] W { W₂ with memory := W₂.memory.release own' } := by
  have all := (begun.mono (List.nil_subset own')).trans evolves
  have same : ∀ c ∉ own', (W₂.memory.release own').cells c = W₂.memory.cells c :=
    fun c other => Memory.release_other other _
  have others : ∀ c, W.memory.cells c ≠ .free → c ∉ own' :=
    fun c live member => live (unused c member)
  refine ⟨sound.congr fun c inHeap => same c fun member => (owned c member).2 inHeap, all.addrs,
    fun c live => ?_, fun c _ live => ?_, all.apart⟩
  · show (W₂.memory.release own').cells c ≠ .free
    rw [same c (others c live)]
    exact all.live c live
  · show (W₂.memory.release own').cells c = W.memory.cells c
    rw [same c (others c live)]
    exact all.kept c (others c live) live

/-! ### Records -/

/-- A record is placed at free cells, which have been filled. -/
theorem Sound.place (sound : Sound m W) {base : Word} {cells : Convert.Record} {memory : Memory}
    (unused : ∀ i < cells.length, W.memory.cells (cellAt base i) = .free)
    (kept : ∀ c, W.memory.cells c ≠ .free → memory.cells c = W.memory.cells c)
    (filled : ∀ i cell, cells[i]? = some cell → ∃ w, memory.cells (cellAt base i) = .holds w ∧
      Represents m (W.addrs ++ [base]) cell.2 w) :
    Sound m ⟨W.addrs ++ [base], W.heap ++ [cells], memory⟩ ∧
      Evolves [] W ⟨W.addrs ++ [base], W.heap ++ [cells], memory⟩ := by
  have grown : W.addrs <+: W.addrs ++ [base] := List.prefix_append _ _
  have placed_cases : ∀ {a : Nat} {base' : Word} {cells' : Convert.Record},
      (W.addrs ++ [base])[a]? = some base' →
      (W.heap ++ [cells])[a]? = some cells' →
      (W.addrs[a]? = some base' ∧ W.heap[a]? = some cells') ∨ base' = base ∧ cells' = cells := by
    intro a base' cells' placed found
    have length := sound.length
    by_cases lt : a < W.addrs.length
    · rw [List.getElem?_append_left lt] at placed
      rw [List.getElem?_append_left (length ▸ lt)] at found
      exact .inl ⟨placed, found⟩
    · rw [List.getElem?_append_right (Nat.le_of_not_lt lt)] at placed
      rw [List.getElem?_append_right (length ▸ Nat.le_of_not_lt lt), ← length] at found
      rw [List.getElem?_singleton] at placed found
      split at placed
      · rename_i isLast
        rw [if_pos isLast] at found
        cases placed
        cases found
        exact .inr ⟨rfl, rfl⟩
      · cases placed
  refine ⟨⟨?_, ?_⟩, grown, fun c live => ?_, fun c _ live => kept c live, fun c live apart => ?_⟩
  · rw [List.length_append, List.length_append, sound.length]
    rfl
  · intro a i base' cells' cell placed found at_
    rcases placed_cases placed found with ⟨before, before'⟩ | ⟨rfl, rfl⟩
    · obtain ⟨w, holds, represents⟩ := sound.holds before before' at_
      have live : W.memory.cells (cellAt base' i) ≠ .free := by
        rw [holds]
        exact Cell.noConfusion
      exact ⟨w, (kept _ live).trans holds, represents.mono grown⟩
    · exact filled i cell at_
  · show memory.cells c ≠ .free
    rw [kept c live]
    exact live
  · rintro ⟨a, i, base', cells', placed, found, lt, rfl⟩
    rcases placed_cases placed found with ⟨before, before'⟩ | ⟨rfl, rfl⟩
    · exact apart ⟨a, i, base', cells', before, before', lt, rfl⟩
    · exact live (unused i lt)

end World

end Lambcalc.Emit
