import Mathlib.Data.Set.Lattice
import Mathlib.Order.CompletePartialOrder
import Mathlib.Tactic.Common

/-!
# Blocks handed out of a region

An allocator that takes each block out of what is unused so far never hands out the same place
twice. What is used may be more than what has been handed out.
-/

namespace Lambcalc.Lib

variable {α : Type*}

/-- Blocks of `region` have been handed out, and nothing outside of `used`. -/
structure HandedOut (region used : Set α) (blocks : List (Set α)) : Prop where
  inside : used ⊆ region
  covered : ∀ block ∈ blocks, block ⊆ used
  apart : blocks.Pairwise Disjoint

namespace HandedOut

variable {region used used' block : Set α} {blocks : List (Set α)}

theorem nil (inside : used ⊆ region) : HandedOut region used [] :=
  ⟨inside, List.forall_mem_nil _, .nil⟩

/-- Every block lies in the region. -/
theorem subset (out : HandedOut region used blocks) (member : block ∈ blocks) : block ⊆ region :=
  (out.covered block member).trans out.inside

/-- What is unused is part of no block. -/
theorem disjoint (out : HandedOut region used blocks) (unused : Disjoint block used) :
    ∀ other ∈ blocks, Disjoint block other :=
  fun other member => unused.mono_right (out.covered other member)

/-- One more block, out of what was unused. -/
theorem cons (out : HandedOut region used blocks) (unused : Disjoint block used)
    (grows : used ⊆ used') (covers : block ⊆ used') (inside : used' ⊆ region) :
    HandedOut region used' (block :: blocks) where
  inside := inside
  covered := List.forall_mem_cons.mpr
    ⟨covers, fun other member => (out.covered other member).trans grows⟩
  apart := List.pairwise_cons.mpr ⟨out.disjoint unused, out.apart⟩

end HandedOut

end Lambcalc.Lib
