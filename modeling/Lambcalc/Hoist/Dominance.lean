import Lambcalc.Anf.WellFormed
import Lambcalc.Convert.Closed
import Lambcalc.Hoist.WellFormed
import Mathlib.Data.Finset.Lattice.Lemmas

/-!
# Definitions dominate uses

A path of a function goes from its entry block from block to block, along jumps and branches. On
every path to a block, what the block reads is a parameter or has been bound on the way. This is
lexical scope: each block starts with at least the variables that were in scope where its `Join` or
`If` was (`scopes`), and jumps to a join only come from the rest of it, where these are still bound.
-/

namespace Lambcalc.Hoist

open Lambcalc.Convert
open Anf (Exp Value Var captures closureConvert convertDefunc tmp)

/-! ## Paths -/

/-- The blocks that `body` can go to. -/
def successors : Exp → List Var
  | .haltExp _ => []
  | .funExp _ _ _ rest => successors rest
  | .joinExp _ _ _ rest => successors rest
  | .jumpExp joinName _ => [joinName]
  | .appExp _ _ _ rest => successors rest
  | .bopExp _ _ _ _ rest => successors rest
  | .ifExp _ thenBranch elseBranch => successors thenBranch ++ successors elseBranch
  | .tupleExp _ _ rest => successors rest
  | .projExp _ _ _ rest => successors rest

/-- A path from the entry block of `fn` through the blocks `earlier` to another one. -/
inductive Path (fn : Function) : List Join → Join → Prop where
  | entry : Path fn [] fn.entryBlock
  | step {earlier : List Join} {b next : Join} (path : Path fn earlier b)
      (member : next ∈ fn.entryBlock :: fn.blocks) (goes : next.name ∈ successors b.body) :
      Path fn (earlier ++ [b]) next

/-- The names a block binds: its slot and its let-bound names. -/
def Join.bound (b : Join) : List Var := b.slot.toList ++ bindings b.body

/-- The names that are bound on the way through `earlier`. -/
def boundBy (earlier : List Join) : List Var := earlier.flatMap Join.bound

/-! ## The scopes of blocks -/

/-- The blocks of `t`, each with the variables in scope where it was nested, if those of `vars` are
in scope at `t`. -/
def scopes : Exp → Nat → Finset Var → List (Join × Finset Var)
  | .haltExp _, _, _ => []
  | .funExp _ _ body rest, c, vars => scopes rest (c + hoists body + 1) vars
  | .joinExp name slot body rest, c, vars =>
    scopes body c (vars ∪ slot.toList.toFinset) ++ [(⟨name, slot, block body c⟩, vars)] ++
      scopes rest (c + hoists body) vars
  | .jumpExp _ _, _, _ => []
  | .appExp name _ _ rest, c, vars => scopes rest c (vars ∪ {name})
  | .bopExp name _ _ _ rest, c, vars => scopes rest c (vars ∪ {name})
  | .ifExp _ thenBranch elseBranch, c, vars =>
    let d := c + hoists thenBranch + hoists elseBranch
    scopes thenBranch c vars ++ scopes elseBranch (c + hoists thenBranch) vars ++
      [(⟨thenName d, none, block thenBranch c⟩, vars),
        (⟨elseName (d + 1), none, block elseBranch (c + hoists thenBranch)⟩, vars)]
  | .tupleExp name _ rest, c, vars => scopes rest c (vars ∪ {name})
  | .projExp name _ _ rest, c, vars => scopes rest c (vars ∪ {name})

theorem map_fst_scopes (t : Exp) (c : Nat) (vars : Finset Var) :
    (scopes t c vars).map Prod.fst = blocks t c := by
  induction t generalizing c vars with
  | haltExp value => rfl
  | funExp name params body rest ihBody ihRest => exact ihRest _ _
  | joinExp name slot body rest ihBody ihRest => simp [scopes, blocks, ihBody, ihRest]
  | jumpExp joinName slotValue => rfl
  | appExp name funName paramValues rest ih => exact ih _ _
  | bopExp name bop param1 param2 rest ih => exact ih _ _
  | ifExp cond thenBranch elseBranch ihThen ihElse => simp [scopes, blocks, ihThen, ihElse]
  | tupleExp name values rest ih => exact ih _ _
  | projExp name tuple index rest ih => exact ih _ _

/-- What is left of `t` reads what is in scope. -/
theorem readsBound_block {vars : Finset Var} {t : Exp} (reads : ReadsBound vars t) (c : Nat) :
    ReadsBound vars (block t c) := by
  induction t generalizing vars c with
  | haltExp value => exact reads
  | funExp name params body rest ihBody ihRest => exact ihRest reads _
  | joinExp name slot body rest ihBody ihRest => exact ihRest reads.2 _
  | jumpExp joinName slotValue => exact reads
  | appExp name funName paramValues rest ih => exact ⟨reads.1, reads.2.1, ih reads.2.2 _⟩
  | bopExp name bop param1 param2 rest ih => exact ⟨reads.1, ih reads.2 _⟩
  | ifExp cond thenBranch elseBranch ihThen ihElse =>
    exact ⟨reads.1, fun x member => absurd member List.not_mem_nil,
      fun x member => absurd member List.not_mem_nil⟩
  | tupleExp name values rest ih => exact ⟨reads.1, ih reads.2 _⟩
  | projExp name tuple index rest ih => exact ⟨reads.1, ih reads.2 _⟩

/-- So does each block of `t`, where its slot and its scope are bound. -/
theorem readsBound_scopes {vars : Finset Var} {t : Exp} (reads : ReadsBound vars t) {c : Nat}
    {entry : Join × Finset Var} (member : entry ∈ scopes t c vars) :
    ReadsBound (entry.2 ∪ entry.1.slot.toList.toFinset) entry.1.body := by
  induction t generalizing vars c with
  | haltExp value => cases member
  | funExp name params body rest ihBody ihRest => exact ihRest reads member
  | joinExp name slot body rest ihBody ihRest =>
    simp only [scopes, List.mem_append, List.mem_singleton] at member
    rcases member with (inBody | rfl) | inRest
    · exact ihBody reads.1 inBody
    · exact readsBound_block reads.1 c
    · exact ihRest reads.2 inRest
  | jumpExp joinName slotValue => cases member
  | appExp name funName paramValues rest ih => exact ih reads.2.2 member
  | bopExp name bop param1 param2 rest ih => exact ih reads.2 member
  | ifExp cond thenBranch elseBranch ihThen ihElse =>
    simp only [scopes, List.mem_append, List.mem_cons, List.not_mem_nil, or_false] at member
    rcases member with (inThen | inElse) | rfl | rfl
    · exact ihThen reads.2.1 inThen
    · exact ihElse reads.2.2 inElse
    · exact (readsBound_block reads.2.1 c).mono Finset.subset_union_left
    · exact (readsBound_block reads.2.2 _).mono Finset.subset_union_left
  | tupleExp name values rest ih => exact ih reads.2 member
  | projExp name tuple index rest ih => exact ih reads.2 member

/-! ## Where jumps land -/

/-- The block `name` was nested where only variables of `vars` were in scope. -/
def Lands (all : List (Join × Finset Var)) (name : Var) (vars : Finset Var) : Prop :=
  ∃ entry ∈ all, entry.1.name = name ∧ entry.2 ⊆ vars

theorem Lands.mono {all : List (Join × Finset Var)} {name : Var} {vars vars' : Finset Var}
    (lands : Lands all name vars) (sub : vars ⊆ vars') : Lands all name vars' := by
  obtain ⟨entry, member, named, within⟩ := lands
  exact ⟨entry, member, named, within.trans sub⟩

/-- A node that binds `name` and goes on with what `rest` becomes. -/
theorem lands_let {all : List (Join × Finset Var)} {joins : List (Var × Bool)}
    {inner : List (Join × Finset Var)} {name : Var} {rest : Exp} {vars : Finset Var}
    (ih : (∀ target slot, joins.lookup target = some slot → Lands all target (vars ∪ {name})) →
      (∀ target ∈ successors rest, Lands all target (vars ∪ {name} ∪ (bindings rest).toFinset)) ∧
        ∀ entry ∈ inner, ∀ target ∈ successors entry.1.body,
          Lands all target (entry.2 ∪ entry.1.bound.toFinset))
    (known : ∀ target slot, joins.lookup target = some slot → Lands all target vars) :
    (∀ target ∈ successors rest, Lands all target (vars ∪ (name :: bindings rest).toFinset)) ∧
      ∀ entry ∈ inner, ∀ target ∈ successors entry.1.body,
        Lands all target (entry.2 ∪ entry.1.bound.toFinset) := by
  obtain ⟨own, others⟩ := ih fun target slot found =>
    (known target slot found).mono Finset.subset_union_left
  refine ⟨fun target goes => ?_, others⟩
  have lands := own target goes
  rwa [Finset.union_assoc, ← Finset.insert_eq, ← List.toFinset_cons] at lands

/-- What is left of `t` goes to a block whose scope is bound once it ends, and so does each block of
`t`, if this holds for the joins around `t` already where `t` starts. -/
theorem lands_scopes {all : List (Join × Finset Var)} {joins : List (Var × Bool)} {t : Exp}
    {c : Nat} {vars : Finset Var} (placed : scopes t c vars ⊆ all)
    (jumps : jumpsInScope joins t = true)
    (known : ∀ name slot, joins.lookup name = some slot → Lands all name vars) :
    (∀ name ∈ successors (block t c), Lands all name (vars ∪ (bindings (block t c)).toFinset)) ∧
      ∀ entry ∈ scopes t c vars, ∀ name ∈ successors entry.1.body,
        Lands all name (entry.2 ∪ entry.1.bound.toFinset) := by
  induction t generalizing joins c vars with
  | haltExp value => exact ⟨fun _ member => (List.not_mem_nil member).elim,
    fun _ member => (List.not_mem_nil member).elim⟩
  | funExp name params body rest ihBody ihRest => exact ihRest placed jumps known
  | joinExp name slot body rest ihBody ihRest =>
    simp only [scopes, List.append_subset, List.cons_subset] at placed
    obtain ⟨⟨placedBody, placedBlock, -⟩, placedRest⟩ := placed
    obtain ⟨jumpsBody, jumpsRest⟩ := Bool.and_eq_true_iff.mp jumps
    have inBody := ihBody placedBody jumpsBody fun name slot found =>
      (known name slot found).mono Finset.subset_union_left
    have inRest := ihRest placedRest jumpsRest fun target isSome found => by
      by_cases eq : target = name
      · exact ⟨_, placedBlock, eq.symm, le_rfl⟩
      · rw [List.lookup_cons, beq_eq_false_iff_ne.mpr eq] at found
        exact known target isSome found
    refine ⟨inRest.1, fun entry member target goes => ?_⟩
    simp only [scopes, List.mem_append, List.mem_singleton] at member
    rcases member with (nested | rfl) | later
    · exact inBody.2 entry nested target goes
    · have lands := inBody.1 target goes
      rwa [Finset.union_assoc, ← List.toFinset_append] at lands
    · exact inRest.2 entry later target goes
  | jumpExp joinName slotValue =>
    refine ⟨fun target goes => ?_, fun _ member => (List.not_mem_nil member).elim⟩
    have found := eq_of_beq jumps
    rw [← List.mem_singleton.mp goes] at found
    exact (known target _ found).mono Finset.subset_union_left
  | appExp name funName paramValues rest ih =>
    simp only [block, successors, bindings, scopes]
    exact lands_let (ih placed jumps) known
  | bopExp name bop param1 param2 rest ih =>
    simp only [block, successors, bindings, scopes]
    exact lands_let (ih placed jumps) known
  | ifExp cond thenBranch elseBranch ihThen ihElse =>
    simp only [scopes, List.append_subset, List.cons_subset] at placed
    obtain ⟨⟨placedThen, placedElse⟩, thenBlock, elseBlock, -⟩ := placed
    obtain ⟨jumpsThen, jumpsElse⟩ := Bool.and_eq_true_iff.mp jumps
    have inThen := ihThen placedThen jumpsThen known
    have inElse := ihElse placedElse jumpsElse known
    refine ⟨fun target goes => ?_, fun entry member target goes => ?_⟩
    · rcases List.mem_cons.mp goes with rfl | goes
      · exact ⟨_, thenBlock, rfl, Finset.subset_union_left⟩
      · rw [List.mem_singleton.mp goes]
        exact ⟨_, elseBlock, rfl, Finset.subset_union_left⟩
    · simp only [scopes, List.mem_append, List.mem_cons, List.not_mem_nil, or_false] at member
      rcases member with (nested | nested) | rfl | rfl
      · exact inThen.2 entry nested target goes
      · exact inElse.2 entry nested target goes
      · exact inThen.1 target goes
      · exact inElse.1 target goes
  | tupleExp name values rest ih =>
    simp only [block, successors, bindings, scopes]
    exact lands_let (ih placed jumps) known
  | projExp name tuple index rest ih =>
    simp only [block, successors, bindings, scopes]
    exact lands_let (ih placed jumps) known

/-! ## Paths of a function -/

/-- On every path of a function that hoisting makes, the scope of a block is bound, and so is what
the block reads. -/
theorem Path.readsBound {name : Var} {params : List Var} {body : Exp} {c : Nat}
    (nodup : (joinNames body).Nodup) (apart : ∀ x ∈ joinNames body, ¬ Generated x)
    (jumps : jumpsInScope [] body = true) (reads : ReadsBound params.toFinset body)
    {earlier : List Join} {b : Join} (path : Path (functionOf name params body c) earlier b) :
    ReadsBound (params ++ boundBy earlier ++ b.slot.toList).toFinset b.body := by
  let all := (⟨entryName (c + hoists body), none, block body c⟩, params.toFinset) ::
    scopes body c params.toFinset
  have blocksOf : all.map Prod.fst =
      (functionOf name params body c).entryBlock :: (functionOf name params body c).blocks :=
    congrArg (_ :: ·) (map_fst_scopes body c params.toFinset)
  have placed : scopes body c params.toFinset ⊆ all := List.subset_cons_self ..
  have lands := lands_scopes placed jumps fun _ _ found => by cases found
  have readsAll : ∀ entry ∈ all,
      ReadsBound (entry.2 ∪ entry.1.slot.toList.toFinset) entry.1.body := by
    intro entry member
    rcases List.mem_cons.mp member with rfl | member
    · exact (readsBound_block reads c).mono Finset.subset_union_left
    · exact readsBound_scopes reads member
  have landsAll : ∀ entry ∈ all, ∀ target ∈ successors entry.1.body,
      Lands all target (entry.2 ∪ entry.1.bound.toFinset) := by
    intro entry member target goes
    rcases List.mem_cons.mp member with rfl | member
    · exact lands.1 target goes
    · exact lands.2 entry member target goes
  have named : (all.map fun entry => entry.1.name).Nodup := by
    have unique : (((functionOf name params body c).entryBlock ::
        (functionOf name params body c).blocks).map Join.name).Nodup :=
      nodup_functionOf c nodup apart
    rwa [← blocksOf, List.map_map] at unique
  -- along the path: the block has an entry, and its scope has been bound
  have inScope : ∃ vars, (b, vars) ∈ all ∧ vars ⊆ (params ++ boundBy earlier).toFinset := by
    induction path with
    | entry => exact ⟨_, List.mem_cons_self, by simp [boundBy]⟩
    | step path member goes ih =>
      obtain ⟨vars, inAll, within⟩ := ih
      obtain ⟨⟨target, vars'⟩, inAll', eq, within'⟩ := landsAll _ inAll _ goes
      rw [← blocksOf] at member
      obtain ⟨⟨found, vars''⟩, inAll'', rfl⟩ := List.mem_map.mp member
      -- block names are unique, so the block of that name is the one nested there
      cases List.inj_on_of_nodup_map named inAll' inAll'' eq
      refine ⟨vars', inAll', within'.trans ?_⟩
      simp only [boundBy, List.flatMap_append, List.flatMap_singleton]
      rw [← List.append_assoc, List.toFinset_append]
      exact Finset.union_subset_union within le_rfl
  obtain ⟨vars, inAll, within⟩ := inScope
  refine (readsAll _ inAll).mono ?_
  rw [List.toFinset_append]
  exact Finset.union_subset_union within le_rfl

/-! ## From the source -/

/-- Each lifted function comes from one of the term. -/
theorem functions_lifted (t : Exp) (c : Nat) :
    ∀ fn ∈ lifted t c, ∃ f ∈ functions t, ∃ d, fn = functionOf f.1 f.2.1 f.2.2 d := by
  induction t generalizing c with
  | haltExp value => exact fun _ member => (List.not_mem_nil member).elim
  | funExp name params body rest ihBody ihRest =>
    intro fn member
    simp only [lifted, List.mem_append, List.mem_singleton] at member
    rcases member with (nested | rfl) | later
    · obtain ⟨f, inBody, made⟩ := ihBody _ fn nested
      exact ⟨f, List.mem_cons_of_mem _ (List.mem_append_left _ inBody), made⟩
    · exact ⟨(name, params, body), List.mem_cons_self, c, rfl⟩
    · obtain ⟨f, inRest, made⟩ := ihRest _ fn later
      exact ⟨f, List.mem_cons_of_mem _ (List.mem_append_right _ inRest), made⟩
  | joinExp name slot body rest ihBody ihRest =>
    intro fn member
    rcases List.mem_append.mp member with nested | later
    · obtain ⟨f, inBody, made⟩ := ihBody _ fn nested
      exact ⟨f, List.mem_append_left _ inBody, made⟩
    · obtain ⟨f, inRest, made⟩ := ihRest _ fn later
      exact ⟨f, List.mem_append_right _ inRest, made⟩
  | jumpExp joinName slotValue => exact fun _ member => (List.not_mem_nil member).elim
  | appExp name funName paramValues rest ih => exact ih c
  | bopExp name bop param1 param2 rest ih => exact ih c
  | ifExp cond thenBranch elseBranch ihThen ihElse =>
    intro fn member
    rcases List.mem_append.mp member with inThen | inElse
    · obtain ⟨f, member, made⟩ := ihThen _ fn inThen
      exact ⟨f, List.mem_append_left _ member, made⟩
    · obtain ⟨f, member, made⟩ := ihElse _ fn inElse
      exact ⟨f, List.mem_append_right _ member, made⟩
  | tupleExp name values rest ih => exact ih c
  | projExp name tuple index rest ih => exact ih c

section Captures

variable (closureParam : Var) (vars : List Var) (i : Nat) (body : Exp)

theorem jumpsInScope_captures (joins : List (Var × Bool)) :
    jumpsInScope joins (captures closureParam vars i body) = jumpsInScope joins body := by
  induction vars generalizing i body with
  | nil => rfl
  | cons var vars ih => exact ih ..

theorem joinNames_captures : joinNames (captures closureParam vars i body) = joinNames body := by
  induction vars generalizing i body with
  | nil => rfl
  | cons var vars ih => exact ih ..

end Captures

theorem joinNames_close (t : Exp) (c : Nat) : joinNames (t.close c).1 = joinNames t := by
  induction t generalizing c with
  | haltExp value => rfl
  | funExp name params body rest ihBody ihRest =>
    simp only [Exp.close_funExp, joinNames, joinNames_captures, ihBody, ihRest]
  | joinExp name slot body rest ihBody ihRest =>
    simp only [Exp.close_joinExp, joinNames, ihBody, ihRest]
  | jumpExp joinName slotValue => rfl
  | appExp name funName paramValues rest ih => exact ih _
  | bopExp name bop param1 param2 rest ih => exact ih _
  | ifExp cond thenBranch elseBranch ihThen ihElse =>
    simp only [Exp.close_ifExp, joinNames, ihThen, ihElse]
  | tupleExp name values rest ih => exact ih _
  | projExp name tuple index rest ih => exact ih _

theorem joinNames_bound (t : Exp) : (joinNames t).Sublist t.boundNames := by
  induction t with
  | haltExp value => exact .slnil
  | funExp name params body rest ihBody ihRest =>
    rw [Exp.boundNames, List.append_assoc]
    exact ((ihBody.append ihRest).trans (List.sublist_append_right ..)).cons _
  | joinExp name slot body rest ihBody ihRest =>
    rw [Exp.boundNames, List.append_assoc]
    exact ((ihBody.append ihRest).trans (List.sublist_append_right ..)).cons_cons _
  | jumpExp joinName slotValue => exact .slnil
  | appExp name funName paramValues rest ih => exact ih.cons _
  | bopExp name bop param1 param2 rest ih => exact ih.cons _
  | ifExp cond thenBranch elseBranch ihThen ihElse => exact ihThen.append ihElse
  | tupleExp name values rest ih => exact ih.cons _
  | projExp name tuple index rest ih => exact ih.cons _

theorem joinNames_introduced (t : Exp) : (joinNames t).Sublist t.introduced := by
  induction t with
  | haltExp value => exact .slnil
  | funExp name params body rest ihBody ihRest => exact (ihBody.append ihRest).cons _
  | joinExp name slot body rest ihBody ihRest =>
    rw [Exp.introduced, List.append_assoc]
    exact ((ihBody.append ihRest).trans (List.sublist_append_right ..)).cons_cons _
  | jumpExp joinName slotValue => exact .slnil
  | appExp name funName paramValues rest ih => exact ih.cons _
  | bopExp name bop param1 param2 rest ih => exact ih.cons _
  | ifExp cond thenBranch elseBranch ihThen ihElse => exact ihThen.append ihElse
  | tupleExp name values rest ih => exact ih.cons _
  | projExp name tuple index rest ih => exact ih.cons _

theorem lookup_joins {joins : List Var} {name : Var} (member : name ∈ joins) :
    (joins.map (·, true)).lookup name = some true := by
  induction joins with
  | nil => cases member
  | cons join joins ih =>
    rw [List.map_cons, List.lookup_cons]
    by_cases eq : name = join
    · simp [eq]
    · rw [beq_eq_false_iff_ne.mpr eq]
      exact ih ((List.mem_cons.mp member).resolve_left eq)

/-- The jumps of an A-normal form stay in scope when it is closed. -/
theorem jumpsInScope_close {joins : List Var} {t : Exp} (joined : t.Joined joins) (c : Nat) :
    jumpsInScope (joins.map (·, true)) (t.close c).1 = true ∧
      ∀ f ∈ functions (t.close c).1, jumpsInScope [] f.2.2 = true := by
  fun_induction Exp.Joined joins t generalizing c with
  | case1 joins value => exact ⟨rfl, fun _ member => (List.not_mem_nil member).elim⟩
  | case2 joins name params body rest ihBody ihRest =>
    rw [Exp.close_funExp]
    obtain ⟨body', inBody⟩ := ihBody joined.1 (c + 1 + rest.closes)
    obtain ⟨rest', inRest⟩ := ihRest joined.2 (c + 1)
    refine ⟨rest', fun f member => ?_⟩
    simp only [functions, functions_captures, List.mem_cons, List.mem_append] at member
    rcases member with rfl | nested | later
    · rwa [jumpsInScope_captures]
    · exact inBody f nested
    · exact inRest f later
  | case3 joins name slot body cond thenBranch elseBranch ihBody ihThen ihElse =>
    obtain ⟨isSlot, joinedBody, joinedThen, joinedElse⟩ := joined
    rw [Exp.close_joinExp, Exp.close_ifExp]
    obtain ⟨body', inBody⟩ := ihBody joinedBody (c + (Exp.ifExp cond thenBranch elseBranch).closes)
    obtain ⟨then', inThen⟩ := ihThen joinedThen (c + elseBranch.closes)
    obtain ⟨else', inElse⟩ := ihElse joinedElse c
    refine ⟨?_, fun f member => ?_⟩
    · simp only [jumpsInScope, isSlot, body', Bool.true_and]
      exact Bool.and_eq_true_iff.mpr ⟨then', else'⟩
    · simp only [functions, List.mem_append] at member
      rcases member with nested | later | later
      · exact inBody f nested
      · exact inThen f later
      · exact inElse f later
  | case4 => exact joined.elim
  | case5 joins joinName slotValue =>
    refine ⟨?_, fun _ member => (List.not_mem_nil member).elim⟩
    simp only [Exp.close, jumpsInScope, lookup_joins joined.2, joined.1, beq_self_eq_true]
  | case6 joins name funName paramValues rest ih => exact ih joined (c + 1)
  | case7 joins name bop param1 param2 rest ih => exact ih joined c
  | case8 => exact joined.elim
  | case9 joins name values rest ih => exact ih joined c
  | case10 joins name tuple index rest ih => exact ih joined c

theorem not_generated_tmp (i : Nat) : ¬ Generated (tmp i) := by
  rintro ⟨k, eq | eq | eq⟩ <;> have heads := congrArg (fun s : String => s.toList.take 2) eq <;>
    simp [thenName, elseName, entryName, tmp] at heads

/-- In the functions that a closed program is turned into, definitions dominate uses: on every path
to a block, each variable the block reads is a parameter of the function, is bound in an earlier
block of the path, is the slot of the block, or is bound before it in the block. -/
theorem uses_dominated (e : Ast.Exp) (closed : e.Closed) (n m : Nat) (t : Exp)
    (ran : convertDefunc e n = .ok (t, m)) (distinct : t.boundNames.Nodup)
    (fresh : ∀ x ∈ t.boundNames, x ∉ t.generated 0) :
    ∀ fn ∈ hoist (closureConvert t), ∀ earlier b, Path fn earlier b →
      ReadsBound (fn.params ++ boundBy earlier ++ b.slot.toList).toFinset b.body := by
  have converts : Anf.convert e n = .ok (t, m) := Anf.convertDefunc_eq_ok.mp ran
  have closed' : t.free = ∅ := Finset.subset_empty.mp (closed ▸ Anf.free_convert_subset converts)
  obtain ⟨reads, readsFun⟩ := readsBound_close (settled_of_closed closed' distinct fresh)
  obtain ⟨jumps, jumpsFun⟩ := jumpsInScope_close (Anf.joined_convert converts) 0
  have nodup : (joinNames (t.close 0).1).Nodup :=
    joinNames_close t 0 ▸ distinct.sublist (joinNames_bound t)
  have apart : ∀ x ∈ joinNames (t.close 0).1, ¬ Generated x := by
    intro x member
    rw [joinNames_close] at member
    have isDrawn :=
      (Anf.introduced_convert converts).mem_iff.mp ((joinNames_introduced t).subset member)
    obtain ⟨i, -, rfl⟩ := List.mem_map.mp isDrawn
    exact not_generated_tmp i
  intro fn member earlier b path
  rw [hoist_eq, List.mem_append, List.mem_singleton] at member
  rcases member with isLifted | rfl
  · obtain ⟨f, inFunctions, d, rfl⟩ := functions_lifted _ _ fn isLifted
    have names := joinNames_sublist (t.close 0).1 inFunctions
    exact path.readsBound (nodup.sublist names) (fun x inNames => apart x (names.subset inNames))
      (jumpsFun f inFunctions) (readsFun f inFunctions)
  · exact path.readsBound nodup apart jumps (by simpa using reads)

/-- What `fn x => if x then 1 else x` is turned into. -/
def branching : Function where
  name := "tmp2"
  params := ["closure0", "x"]
  entryBlock := ⟨"entry2", none,
    .ifExp (.varValue "x") (.jumpExp "then0" none) (.jumpExp "else1" none)⟩
  blocks := [⟨"tmp0", some "tmp1", .haltExp (.varValue "tmp1")⟩,
    ⟨"then0", none, .jumpExp "tmp0" (some (.intValue 1))⟩,
    ⟨"else1", none, .jumpExp "tmp0" (some (.varValue "x"))⟩]

theorem uses_dominated_branch :
    ReadsBound (branching.params ++ boundBy [branching.entryBlock,
        ⟨"else1", none, .jumpExp "tmp0" (some (.varValue "x"))⟩] ++ ["tmp1"]).toFinset
      (.haltExp (.varValue "tmp1")) :=
  uses_dominated (.lamExp "x" (.ifExp (.varExp "x") (.intExp 1) (.varExp "x"))) (by decide) 0 3
    (.funExp "tmp2" ["x"] (.joinExp "tmp0" (some "tmp1") (.haltExp (.varValue "tmp1"))
      (.ifExp (.varValue "x") (.jumpExp "tmp0" (some (.intValue 1)))
        (.jumpExp "tmp0" (some (.varValue "x"))))) (.haltExp (.varValue "tmp2")))
    (Anf.convertDefunc_eq_ok.mpr (by rfl)) (by decide) (by decide) branching (by decide) _
    ⟨"tmp0", some "tmp1", .haltExp (.varValue "tmp1")⟩
    (.step (.step .entry (b := branching.entryBlock) (by decide) (by decide)) (by decide)
      (by decide))

end Lambcalc.Hoist
