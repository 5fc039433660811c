import Lambcalc.InPlace.ConvertCorrect
import Lambcalc.InPlace.Destructor
import Lambcalc.InPlace.HoistCorrect

/-!
# The nodes of a round

What a round of the loop of `src/main.cpp` does with the nodes of a term: it is converted in place,
hoisted in place, and what is left of it goes out of scope at the end of the round.
-/

namespace Lambcalc.InPlace

open Anf
open Lib (Addr Ptr Linked Link Layout Store Allocator)

/-- The owners in a function. -/
def Function.owners (f : Function) : List Ptr := f.entryBlock.body :: f.blocks.map Join.body

theorem owners_inMemory (f : PlacedFunction) :
    f.inMemory.owners = f.pieces.map fun p => some p.2.addr := by
  simp only [Function.owners, PlacedFunction.inMemory, PlacedFunction.pieces, List.map_cons,
    List.map_map]
  rfl

/-- Both passes succeed. When the owners that are left then go out of scope, in whatever order, all
the nodes of the term and all that the passes have made are freed, and no others: the memory is as
it was without the term. -/
theorem round_frees_nodes (alloc : Allocator Node) {s : Nodes} {t : Exp} {l : Layout}
    (owns : Owns s .root t l) :
    ∃ converted collected hoisted,
      (∃ m, ∀ fuel > m, closureConvert alloc fuel s = some (some converted)) ∧
      (∃ m, ∀ fuel > m, hoist alloc fuel converted = some (some (collected, hoisted))) ∧
      ∀ owners, owners.Perm (hoisted.root :: collected.flatMap Function.owners) →
        ∃ m, ∀ fuel ≥ m, ∀ depth, ∃ s', Store.deleteAll fuel (depth + 2) owners hoisted = some s' ∧
          ∀ a, s'.cell a = if a ∈ l.cells then none else s.cell a := by
  rcases closureConvert_ends alloc owns with
    ⟨first, run, last, l₁, -, zero, same, converts, endsConvert⟩
  have owns₁ : Owns last.nodes .root _ l₁ := converts.owns
  rcases hoist_ends alloc owns₁ with
    ⟨start, run', last', main, rest, l₂, functions, -, -, empty, -, before, hoists, endsHoist⟩
  refine ⟨last.nodes, last'.collected, last'.nodes, ⟨_, endsConvert⟩, ⟨_, endsHoist⟩,
    fun owners perm => ?_⟩
  -- what the owners own
  let pieces := functions.flatMap PlacedFunction.pieces
  obtain ⟨x, placed⟩ : ∃ x, Pieces last'.nodes ((x, l₂) :: pieces) := ⟨_, hoists.pieces⟩
  have root : last'.nodes.root = some l₂.addr := hoists.replaced.link_root rfl
  have left : last'.nodes.root :: last'.collected.flatMap Function.owners =
      ((x, l₂) :: pieces).map fun p => some p.2.addr := by
    rw [root, hoists.collected, empty, List.nil_append, List.flatMap_map, List.map_cons,
      List.map_flatMap]
    exact congrArg _ (List.flatMap_congr fun f _ => owners_inMemory f)
  rcases placed.forest.perm (left ▸ perm.symm) with ⟨F, forest, sameCells⟩
  -- how the memory has changed since the start
  have replaced : s.Replaced .root l.cells (some l₂.addr) (cellsOf ((x, l₂) :: pieces))
      last'.nodes :=
    ((same ▸ converts.replaced).trans before Link.Outside.ofRoot).trans hoists.replaced
      Link.Outside.ofRoot
  refine ⟨(Linked.names Node).length * (F.length + 1), fun fuel enough depth => ?_⟩
  rcases Store.deleteAll_forest nodup_names forest (sameCells.nodup_iff.mp placed.apart) enough
    depth with ⟨s', deleted, freed⟩
  refine ⟨s', deleted, fun a => ?_⟩
  by_cases made : a ∈ F
  · rw [freed.gone a made]
    split
    · rfl
    · next old => exact ((replaced.fresh a (sameCells.mem_iff.mpr made)).resolve_left old).symm
  · have notMem := mt sameCells.mem_iff.mp made
    rw [freed.kept a made]
    split
    · next old => exact replaced.freed a old notMem
    · next new => exact replaced.elsewhere a new notMem nofun

theorem round_frees_nodes_callIdentity : ∃ converted collected hoisted,
    (∃ fuel, closureConvert (.least Node) fuel callIdentityNodes = some (some converted)) ∧
    (∃ fuel, hoist (.least Node) fuel converted = some (some (collected, hoisted))) ∧
    ∃ fuel s', Store.deleteAll fuel 2 (hoisted.root :: collected.flatMap Function.owners) hoisted =
      some s' ∧ ∀ a, s'.cell a = none := by
  rcases round_frees_nodes (.least Node) owns_callIdentity with
    ⟨converted, collected, hoisted, ⟨m, converts⟩, ⟨n, hoists⟩, frees⟩
  rcases frees _ (.refl _) with ⟨k, deletes⟩
  rcases deletes k le_rfl 0 with ⟨s', deleted, left⟩
  refine ⟨converted, collected, hoisted, ⟨_, converts (m + 1) m.lt_succ_self⟩,
    ⟨_, hoists (n + 1) n.lt_succ_self⟩, k, s', deleted, fun a => ?_⟩
  rw [left a]
  split
  · rfl
  · next other =>
    simp only [Layout.cells, List.mem_cons, List.mem_append, List.not_mem_nil, or_false,
      not_or] at other
    simp [callIdentityNodes, Store.cell_write_ne, other]
    rfl

end Lambcalc.InPlace
