import Lambcalc.Hoist.Semantics
import Lambcalc.Lib.Numbered

/-!
# What hoisting is given, and where it puts it

The conditions under which names can be read without their scopes: which names a function
binds, which join points a jump may go to, which variables occur. From them it
follows that block names are unique in each function that hoisting makes, and that it makes
exactly one function for every label.
-/

namespace Lambcalc.Hoist

open Lambcalc.Convert
open Anf (Exp Value Var Env JoinPoint findJoin passSlot)

/-! ## Conditions on closure-converted terms -/

/-- The names one function binds in `t`, outside the functions `t` contains: slots and the
names of `App`, `Bop`, `Tuple` and `Proj`. -/
def bindings : Exp → List Var
  | .haltExp _ => []
  | .funExp _ _ _ rest => bindings rest
  | .joinExp _ slot body rest => slot.toList ++ bindings body ++ bindings rest
  | .jumpExp _ _ => []
  | .appExp name _ _ rest => name :: bindings rest
  | .bopExp name _ _ _ rest => name :: bindings rest
  | .ifExp _ thenBranch elseBranch => bindings thenBranch ++ bindings elseBranch
  | .tupleExp name _ rest => name :: bindings rest
  | .projExp name _ _ rest => name :: bindings rest

/-- The names of the joins of `t`, at any depth. -/
def joinNames : Exp → List Var
  | .haltExp _ => []
  | .funExp _ _ body rest => joinNames body ++ joinNames rest
  | .joinExp name _ body rest => name :: (joinNames body ++ joinNames rest)
  | .jumpExp _ _ => []
  | .appExp _ _ _ rest => joinNames rest
  | .bopExp _ _ _ _ rest => joinNames rest
  | .ifExp _ thenBranch elseBranch => joinNames thenBranch ++ joinNames elseBranch
  | .tupleExp _ _ rest => joinNames rest
  | .projExp _ _ _ rest => joinNames rest

/-- Outside the functions `t` contains, every jump of `t` names one of `joins` or a join of `t`
whose rest encloses it, and has a value exactly if that join has a slot. -/
def jumpsInScope : List (Var × Bool) → Exp → Bool
  | _, .haltExp _ => true
  | joins, .funExp _ _ _ rest => jumpsInScope joins rest
  | joins, .joinExp name slot body rest =>
    jumpsInScope joins body && jumpsInScope ((name, slot.isSome) :: joins) rest
  | joins, .jumpExp joinName slotValue => joins.lookup joinName == some slotValue.isSome
  | joins, .appExp _ _ _ rest => jumpsInScope joins rest
  | joins, .bopExp _ _ _ _ rest => jumpsInScope joins rest
  | joins, .ifExp _ thenBranch elseBranch =>
    jumpsInScope joins thenBranch && jumpsInScope joins elseBranch
  | joins, .tupleExp _ _ rest => jumpsInScope joins rest
  | joins, .projExp _ _ _ rest => jumpsInScope joins rest

/-- The operand is a literal, a variable in scope or a label other than `main`. -/
def valueInScope (vars : List Var) : Value → Bool
  | .intValue _ => true
  | .varValue var => decide (var ∈ vars)
  | .globValue glob => decide (glob ≠ "main")

/-- Outside the functions `t` contains, every variable of `t` is one of `vars` or bound before
it, and no label is `main`. A call by a label does not use a name that the function binds,
which are `own`. -/
def varsInScope (own : List Var) : List Var → Exp → Bool
  | vars, .haltExp value => valueInScope vars value
  | vars, .funExp _ _ _ rest => varsInScope own vars rest
  | vars, .joinExp _ slot body rest =>
    varsInScope own (slot.toList ++ vars) body && varsInScope own vars rest
  | vars, .jumpExp _ slotValue => slotValue.all (valueInScope vars)
  | vars, .appExp name funName paramValues rest =>
    (decide (funName ∈ vars) || decide (funName ∉ "main" :: own)) &&
      paramValues.all (valueInScope vars) && varsInScope own (name :: vars) rest
  | vars, .bopExp name _ param1 param2 rest =>
    valueInScope vars param1 && valueInScope vars param2 && varsInScope own (name :: vars) rest
  | vars, .ifExp cond thenBranch elseBranch =>
    valueInScope vars cond && varsInScope own vars thenBranch && varsInScope own vars elseBranch
  | vars, .tupleExp name values rest =>
    values.all (valueInScope vars) && varsInScope own (name :: vars) rest
  | vars, .projExp name tuple _ rest =>
    decide (tuple ∈ vars) && varsInScope own (name :: vars) rest

/-- The labels of the functions of `t`. -/
def labels (t : Exp) : List Var := (functions t).map Prod.fst

/-- The functions of the program `t`, which is the body of `main`. -/
def program (t : Exp) : List (Var × List Var × Exp) := ("main", [], t) :: functions t

/-- A name hoisting can give to a block. -/
def Generated (x : Var) : Prop := ∃ k, x = thenName k ∨ x = elseName k ∨ x = entryName k

/-- A name with another first letter is not generated. -/
theorem not_generated_of_head {x : Var} (notT : x.toList.head? ≠ some 't')
    (notE : x.toList.head? ≠ some 'e') : ¬ Generated x := by
  intro generated
  rcases generated with ⟨k, rfl | rfl | rfl⟩
  · simp [thenName] at notT
  · simp [elseName] at notE
  · simp [entryName] at notE

/-! ## Block names -/

/-- The names of the blocks `t` appends. -/
def blockNames (t : Exp) (c : Nat) : List Var := (blocks t c).map Join.name

/-- `x` is one of `joins`, or the block of a branch with a number from `lo` to below `hi`. -/
def Named (joins : List Var) (lo hi : Nat) (x : Var) : Prop :=
  x ∈ joins ∨ ∃ k, lo ≤ k ∧ k < hi ∧ (x = thenName k ∨ x = elseName k)

theorem Named.mono {joins joins' : List Var} {lo lo' hi hi' : Nat} {x : Var}
    (named : Named joins lo hi x) (joinsLe : joins ⊆ joins') (loLe : lo' ≤ lo) (hiLe : hi ≤ hi') :
    Named joins' lo' hi' x := by
  rcases named with member | ⟨k, loK, kHi, eq⟩
  · exact .inl (joinsLe member)
  · exact .inr ⟨k, by omega, by omega, eq⟩

theorem thenName_ne_elseName (j k : Nat) : thenName j ≠ elseName k := by
  intro eq
  have seconds := congrArg (fun s : String => s.toList[1]?) eq
  simp [thenName, elseName] at seconds

theorem branch_number {j k : Nat} {x : Var} (left : x = thenName j ∨ x = elseName j)
    (right : x = thenName k ∨ x = elseName k) : j = k := by
  rcases left with rfl | rfl
  · rcases right with eq | eq
    · exact Lib.append_toString_injective eq
    · exact absurd eq (thenName_ne_elseName j k)
  · rcases right with eq | eq
    · exact absurd eq.symm (thenName_ne_elseName k j)
    · exact Lib.append_toString_injective eq

theorem generated_of_branch {k : Nat} {x : Var} (eq : x = thenName k ∨ x = elseName k) :
    Generated x := by
  rcases eq with eq | eq
  · exact ⟨k, .inl eq⟩
  · exact ⟨k, .inr (.inl eq)⟩

theorem Named.mem_joins {joins : List Var} {lo hi : Nat} {x : Var}
    (named : Named joins lo hi x) (apart : ¬ Generated x) : x ∈ joins := by
  rcases named with member | ⟨k, -, -, eq⟩
  · exact member
  · exact absurd (generated_of_branch eq) apart

theorem entryName_not_branch (n k : Nat) :
    ¬ (entryName n = thenName k ∨ entryName n = elseName k) := by
  intro eq
  rcases eq with eq | eq
  · have seconds := congrArg (fun s : String => s.toList[1]?) eq
    simp [thenName, entryName] at seconds
  · have seconds := congrArg (fun s : String => s.toList[1]?) eq
    simp [elseName, entryName] at seconds

/-- Names from different joins and different ranges of numbers are different. -/
theorem nodup_append_named {joins joins' : List Var} {lo mid hi : Nat} {xs ys : List Var}
    (nodup : xs.Nodup) (nodup' : ys.Nodup) (named : ∀ x ∈ xs, Named joins lo mid x)
    (named' : ∀ x ∈ ys, Named joins' mid hi x) (disjoint : joins.Disjoint joins')
    (apart : ∀ x ∈ joins, ¬ Generated x) (apart' : ∀ x ∈ joins', ¬ Generated x) :
    (xs ++ ys).Nodup := by
  refine List.nodup_append'.mpr ⟨nodup, nodup', fun x left right => ?_⟩
  rcases named x left with member | ⟨j, -, jMid, eq⟩
  · exact disjoint member ((named' x right).mem_joins (apart x member))
  · rcases named' x right with member | ⟨k, midK, -, eq'⟩
    · exact apart' x member (generated_of_branch eq)
    · have := branch_number eq eq'
      omega

/-- A block is called after a join of the term or after a number drawn for it. -/
theorem named_blockNames (t : Exp) (c : Nat) :
    ∀ x ∈ blockNames t c, Named (joinNames t) c (c + hoists t) x := by
  induction t generalizing c with
  | haltExp value => exact fun x member => nomatch member
  | jumpExp joinName slotValue => exact fun x member => nomatch member
  | funExp name params body rest ihBody ihRest =>
    intro x member
    apply (ihRest _ x member).mono (List.subset_append_right ..) (by omega)
    simp only [hoists]
    omega
  | joinExp name slot body rest ihBody ihRest =>
    intro x member
    simp only [blockNames, blocks, List.map_append, List.append_assoc, List.mem_append,
      List.map_cons, List.map_nil, List.mem_singleton] at member
    simp only [hoists, joinNames]
    rcases member with member | rfl | member
    · exact (ihBody c x member).mono (fun y left => by simp [left]) le_rfl (by omega)
    · exact .inl List.mem_cons_self
    · exact (ihRest _ x member).mono (fun y right => by simp [right]) (by omega) (by omega)
  | appExp name funName paramValues rest ih => exact ih c
  | bopExp name bop param1 param2 rest ih => exact ih c
  | ifExp cond thenBranch elseBranch ihThen ihElse =>
    intro x member
    simp only [blockNames, blocks, List.map_append, List.append_assoc, List.mem_append,
      List.map_cons, List.map_nil, List.mem_cons, List.not_mem_nil, or_false] at member
    simp only [hoists, joinNames]
    rcases member with member | member | rfl | rfl
    · exact (ihThen c x member).mono (List.subset_append_left ..) le_rfl (by omega)
    · exact (ihElse _ x member).mono (List.subset_append_right ..) (by omega) (by omega)
    · exact .inr ⟨_, by omega, by omega, .inl rfl⟩
    · exact .inr ⟨_, by omega, by omega, .inr rfl⟩
  | tupleExp name values rest ih => exact ih c
  | projExp name tuple index rest ih => exact ih c

/-- The blocks of a function have different names, if its joins do and none is called like a branch.
By induction on the term; the numbers of its parts lie in disjoint ranges. -/
theorem nodup_blockNames {t : Exp} (c : Nat) (nodup : (joinNames t).Nodup)
    (apart : ∀ x ∈ joinNames t, ¬ Generated x) : (blockNames t c).Nodup := by
  induction t generalizing c with
  | haltExp value => exact .nil
  | jumpExp joinName slotValue => exact .nil
  | funExp name params body rest ihBody ihRest =>
    exact ihRest _ (List.nodup_append'.mp nodup).2.1 fun x member =>
      apart x (List.mem_append_right _ member)
  | joinExp name slot body rest ihBody ihRest =>
    obtain ⟨notMem, nodup⟩ := List.nodup_cons.mp nodup
    obtain ⟨nodupBody, nodupRest, disjoint⟩ := List.nodup_append'.mp nodup
    have apartRest : ∀ x ∈ name :: joinNames rest, ¬ Generated x := fun x member =>
      apart x (List.cons_subset_cons _ (List.subset_append_right ..) member)
    have apartBody : ∀ x ∈ joinNames body, ¬ Generated x := fun x member =>
      apart x (List.mem_cons_of_mem _ (List.mem_append_left _ member))
    have namedRest : ∀ x ∈ name :: blockNames rest (c + hoists body),
        Named (name :: joinNames rest) (c + hoists body) (c + hoists body + hoists rest) x := by
      intro x member
      rcases List.mem_cons.mp member with rfl | member
      · exact .inl List.mem_cons_self
      · exact (named_blockNames rest _ x member).mono (List.subset_cons_self ..) le_rfl le_rfl
    have fresh : name ∉ blockNames rest (c + hoists body) := fun member =>
      notMem (List.mem_append_right _
        ((named_blockNames rest _ name member).mem_joins (apartRest name List.mem_cons_self)))
    have split : blockNames (.joinExp name slot body rest) c =
        blockNames body c ++ name :: blockNames rest (c + hoists body) := by
      simp [blockNames, blocks]
    rw [split]
    apply nodup_append_named (ihBody c nodupBody apartBody) _ (named_blockNames body c) namedRest _
      apartBody apartRest
    · exact List.nodup_cons.mpr
        ⟨fresh, ihRest _ nodupRest fun x member => apartRest x (List.mem_cons_of_mem _ member)⟩
    · exact List.disjoint_cons_right.mpr
        ⟨fun member => notMem (List.mem_append_left _ member), disjoint⟩
  | appExp name funName paramValues rest ih => exact ih c nodup apart
  | bopExp name bop param1 param2 rest ih => exact ih c nodup apart
  | ifExp cond thenBranch elseBranch ihThen ihElse =>
    obtain ⟨nodupThen, nodupElse, disjoint⟩ := List.nodup_append'.mp nodup
    have apartThen : ∀ x ∈ joinNames thenBranch, ¬ Generated x := fun x member =>
      apart x (List.mem_append_left _ member)
    have apartElse : ∀ x ∈ joinNames elseBranch, ¬ Generated x := fun x member =>
      apart x (List.mem_append_right _ member)
    have branches := nodup_append_named (ihThen c nodupThen apartThen)
      (ihElse (c + hoists thenBranch) nodupElse apartElse) (named_blockNames thenBranch c)
      (named_blockNames elseBranch _) disjoint apartThen apartElse
    have namedBranches : ∀ x ∈ blockNames thenBranch c ++
        blockNames elseBranch (c + hoists thenBranch),
        Named (joinNames (.ifExp cond thenBranch elseBranch)) c
          (c + hoists thenBranch + hoists elseBranch) x := by
      intro x member
      rcases List.mem_append.mp member with member | member
      · exact (named_blockNames _ c x member).mono (List.subset_append_left ..) le_rfl (by omega)
      · exact (named_blockNames _ _ x member).mono (List.subset_append_right ..) (by omega) le_rfl
    have jumps : ∀ x ∈ [thenName (c + hoists thenBranch + hoists elseBranch),
        elseName (c + hoists thenBranch + hoists elseBranch + 1)],
        Named [] (c + hoists thenBranch + hoists elseBranch)
          (c + hoists thenBranch + hoists elseBranch + 2) x := by
      intro x member
      rcases List.mem_cons.mp member with rfl | member
      · exact .inr ⟨_, le_rfl, by omega, .inl rfl⟩
      · exact .inr ⟨_, by omega, by omega, .inr (List.mem_singleton.mp member)⟩
    have split : blockNames (.ifExp cond thenBranch elseBranch) c =
        (blockNames thenBranch c ++ blockNames elseBranch (c + hoists thenBranch)) ++
          [thenName (c + hoists thenBranch + hoists elseBranch),
            elseName (c + hoists thenBranch + hoists elseBranch + 1)] := by
      simp [blockNames, blocks]
    rw [split]
    apply nodup_append_named branches _ namedBranches jumps (List.disjoint_nil_right _) apart
      (fun x member => absurd member List.not_mem_nil)
    exact List.nodup_cons.mpr
      ⟨fun member => thenName_ne_elseName _ _ (List.mem_singleton.mp member),
      List.nodup_singleton _⟩
  | tupleExp name values rest ih => exact ih c nodup apart
  | projExp name tuple index rest ih => exact ih c nodup apart

/-- In a function that hoisting makes, a block is found by its name. -/
theorem nodup_functionOf {name : Var} {params : List Var} {body : Exp} (c : Nat)
    (nodup : (joinNames body).Nodup) (apart : ∀ x ∈ joinNames body, ¬ Generated x) :
    (((functionOf name params body c).entryBlock :: (functionOf name params body c).blocks).map
      Join.name).Nodup := by
  refine List.nodup_cons.mpr ⟨fun member => ?_, nodup_blockNames c nodup apart⟩
  rcases named_blockNames body c _ member with member | ⟨k, -, -, eq⟩
  · exact apart _ member ⟨_, .inr (.inr rfl)⟩
  · exact entryName_not_branch _ _ eq

/-! ## Functions -/

/-- Hoisting makes one function for every label. -/
theorem names_lifted (t : Exp) (c : Nat) : ((lifted t c).map Function.name).Perm (labels t) := by
  induction t generalizing c with
  | haltExp value => exact .nil
  | jumpExp joinName slotValue => exact .nil
  | funExp name params body rest ihBody ihRest =>
    simp only [lifted, labels, functions, List.map_append, List.map_cons, List.append_assoc,
      List.singleton_append]
    exact List.perm_middle.trans (((ihBody c).append (ihRest _)).cons name)
  | joinExp name slot body rest ihBody ihRest =>
    simp only [lifted, labels, functions, List.map_append]
    exact (ihBody c).append (ihRest _)
  | appExp name funName paramValues rest ih => exact ih c
  | bopExp name bop param1 param2 rest ih => exact ih c
  | ifExp cond thenBranch elseBranch ihThen ihElse =>
    simp only [lifted, labels, functions, List.map_append]
    exact (ihThen c).append (ihElse _)
  | tupleExp name values rest ih => exact ih c
  | projExp name tuple index rest ih => exact ih c

/-- Each function of the term is lifted, under some value of the counter. -/
theorem mem_lifted {name : Var} {params : List Var} {body : Exp} (t : Exp) (c : Nat)
    (member : (name, params, body) ∈ functions t) :
    ∃ d, functionOf name params body d ∈ lifted t c := by
  induction t generalizing c with
  | haltExp value => cases member
  | jumpExp joinName slotValue => cases member
  | funExp name' params' body' rest ihBody ihRest =>
    simp only [lifted, List.append_assoc, List.mem_append, List.mem_singleton]
    rcases List.mem_cons.mp member with eq | member
    · cases eq
      exact ⟨c, .inr (.inl rfl)⟩
    rcases List.mem_append.mp member with member | member
    · obtain ⟨d, member⟩ := ihBody c member
      exact ⟨d, .inl member⟩
    · obtain ⟨d, member⟩ := ihRest (c + hoists body' + 1) member
      exact ⟨d, .inr (.inr member)⟩
  | joinExp name' slot body' rest ihBody ihRest =>
    simp only [lifted, List.mem_append]
    rcases List.mem_append.mp member with member | member
    · obtain ⟨d, member⟩ := ihBody c member
      exact ⟨d, .inl member⟩
    · obtain ⟨d, member⟩ := ihRest (c + hoists body') member
      exact ⟨d, .inr member⟩
  | appExp name' funName paramValues rest ih => exact ih c member
  | bopExp name' bop param1 param2 rest ih => exact ih c member
  | ifExp cond thenBranch elseBranch ihThen ihElse =>
    simp only [lifted, List.mem_append]
    rcases List.mem_append.mp member with member | member
    · obtain ⟨d, member⟩ := ihThen c member
      exact ⟨d, .inl member⟩
    · obtain ⟨d, member⟩ := ihElse (c + hoists thenBranch) member
      exact ⟨d, .inr member⟩
  | tupleExp name' values rest ih => exact ih c member
  | projExp name' tuple index rest ih => exact ih c member

/-- The joins of a function are joins of the program. -/
theorem joinNames_sublist {f : Var × List Var × Exp} (t : Exp) (member : f ∈ functions t) :
    (joinNames f.2.2).Sublist (joinNames t) := by
  induction t with
  | haltExp value => cases member
  | jumpExp joinName slotValue => cases member
  | funExp name params body rest ihBody ihRest =>
    rcases List.mem_cons.mp member with rfl | member
    · exact List.sublist_append_left ..
    rcases List.mem_append.mp member with member | member
    · exact (ihBody member).trans (List.sublist_append_left ..)
    · exact (ihRest member).trans (List.sublist_append_right ..)
  | joinExp name slot body rest ihBody ihRest =>
    apply List.Sublist.cons
    rcases List.mem_append.mp member with member | member
    · exact (ihBody member).trans (List.sublist_append_left ..)
    · exact (ihRest member).trans (List.sublist_append_right ..)
  | appExp name funName paramValues rest ih => exact ih member
  | bopExp name bop param1 param2 rest ih => exact ih member
  | ifExp cond thenBranch elseBranch ihThen ihElse =>
    rcases List.mem_append.mp member with member | member
    · exact (ihThen member).trans (List.sublist_append_left ..)
    · exact (ihElse member).trans (List.sublist_append_right ..)
  | tupleExp name values rest ih => exact ih member
  | projExp name tuple index rest ih => exact ih member

/-! ## Finding a block and a function -/

theorem find?_of_nodup {α : Type} {key : α → Var} {entries : List α} {a : α}
    (nodup : (entries.map key).Nodup) (member : a ∈ entries) :
    entries.find? (key · = key a) = some a := by
  induction entries with
  | nil => cases member
  | cons head entries ih =>
    obtain ⟨notMem, nodupTail⟩ := List.nodup_cons.mp nodup
    rcases List.mem_cons.mp member with rfl | member
    · exact List.find?_cons_of_pos (by simp)
    · have ne : key head ≠ key a := fun eq => notMem (eq ▸ List.mem_map_of_mem member)
      rw [List.find?_cons_of_neg (by simpa using ne)]
      exact ih nodupTail member

theorem findFunction_main {t : Exp} (notMain : "main" ∉ labels t) :
    findFunction (hoist t) "main" = some (functionOf "main" [] t 0) := by
  have none : (lifted t 0).find? (·.name = "main") = none := by
    apply List.find?_eq_none.mpr
    intro fn member isMain
    rw [← of_decide_eq_true isMain] at notMain
    exact notMain ((names_lifted t 0).subset (List.mem_map_of_mem member))
  rw [findFunction, hoist_eq, List.find?_append, none]
  rfl

/-- A label other than `main` is a function before hoisting exactly if it is one after. -/
theorem findFunction_label {t : Exp} (nodup : (labels t).Nodup) {label : Var}
    (ne : label ≠ "main") :
    (codeOf t label = none ∧ findFunction (hoist t) label = none) ∨
      ∃ params body d, (label, params, body) ∈ functions t ∧
        codeOf t label = some (params, body) ∧
        findFunction (hoist t) label = some (functionOf label params body d) := by
  have main : [functionOf "main" [] t 0].find? (·.name = label) = none := by
    simpa [functionOf] using ne.symm
  have lookup : findFunction (hoist t) label = (lifted t 0).find? (·.name = label) := by
    rw [findFunction, hoist_eq, List.find?_append, main, Option.or_none]
  rw [lookup]
  by_cases known : label ∈ labels t
  · obtain ⟨⟨_, params, body⟩, member, rfl⟩ := List.mem_map.mp known
    obtain ⟨d, made⟩ := mem_lifted t 0 member
    refine .inr ⟨params, body, d, member, lookup_of_mem nodup member, ?_⟩
    exact find?_of_nodup ((names_lifted t 0).nodup_iff.mpr nodup) made
  · refine .inl ⟨List.lookup_eq_none_iff.mpr fun entry member => ?_, ?_⟩
    · simpa using fun eq : label = entry.1 => known (eq ▸ List.mem_map_of_mem member)
    · apply List.find?_eq_none.mpr
      intro fn member eq
      rw [← of_decide_eq_true eq] at known
      exact known ((names_lifted t 0).subset (List.mem_map_of_mem member))

end Lambcalc.Hoist
