import Lambcalc.Anf.Exp
import Lambcalc.Lib.OrdSet
import Lambcalc.Lib.StepMachine
import Mathlib.Data.Finset.Basic
import Mathlib.Data.String.Basic

/-!
# Free variables

`convert::freeVars` of `src/convert.cpp`: one set for the whole walk, into which the visitor
inserts every name it reads, and out of which a task erases a binder's name once the part it
scopes over has been walked. A node's later children are walked first.

`Exp.free` is the textbook definition. The two agree on a term whose bound names are pairwise
distinct and none of them free in it (`Exp.Tidy`): erasing a binder then takes nothing away
that was inserted for another reason.
-/

namespace Lambcalc.Anf

open Lib (OrdSet)

/-! ## The textbook definition -/

/-- The names an operand reads. -/
def Value.names : Value → List Var
  | .intValue _ => []
  | .varValue var => [var]
  | .globValue glob => [glob]

namespace Exp

/-- The names of variables and globals that occur free in `t`. -/
def free : Exp → Finset Var
  | haltExp value => value.names.toFinset
  | funExp name params body rest => (body.free \ params.toFinset) ∪ (rest.free \ {name})
  | joinExp _ slot body rest => (body.free \ slot.toList.toFinset) ∪ rest.free
  | jumpExp _ slotValue => (slotValue.toList.flatMap Value.names).toFinset
  | appExp name funName paramValues rest =>
    (funName :: paramValues.flatMap Value.names).toFinset ∪ (rest.free \ {name})
  | bopExp name _ param1 param2 rest =>
    (param1.names ++ param2.names).toFinset ∪ (rest.free \ {name})
  | ifExp cond thenBranch elseBranch => cond.names.toFinset ∪ thenBranch.free ∪ elseBranch.free
  | tupleExp name values rest => (values.flatMap Value.names).toFinset ∪ (rest.free \ {name})
  | projExp name tuple _ rest => {tuple} ∪ (rest.free \ {name})

/-- The names `t` binds: functions, parameters, let-bound results, joins and slots. -/
def boundNames : Exp → List Var
  | haltExp _ => []
  | funExp name params body rest => name :: (params ++ body.boundNames ++ rest.boundNames)
  | joinExp name slot body rest => name :: (slot.toList ++ body.boundNames ++ rest.boundNames)
  | jumpExp _ _ => []
  | appExp name _ _ rest => name :: rest.boundNames
  | bopExp name _ _ _ rest => name :: rest.boundNames
  | ifExp _ thenBranch elseBranch => thenBranch.boundNames ++ elseBranch.boundNames
  | tupleExp name _ rest => name :: rest.boundNames
  | projExp name _ _ rest => name :: rest.boundNames

end Exp

/-! ## The worklist -/

/-- A `NodeTask`, or the `FnTask` that erases the names of a binder. -/
inductive FreeVarsTask where
  | node (exp : Exp)
  | erase (names : List Var)
  deriving DecidableEq, Repr

/-- `FreeVarsVisitor`: the set it fills and its worklist, top first. -/
structure FreeVarsVisitor where
  freeVars : OrdSet Var
  worklist : List FreeVarsTask

/-- `visitVarValue` and `visitGlobValue`. -/
def visitValue (freeVars : OrdSet Var) : Value → OrdSet Var
  | .intValue _ => freeVars
  | .varValue var => freeVars.insert var
  | .globValue glob => freeVars.insert glob

namespace FreeVarsVisitor

/-- The visit of a node: its operands, then the tasks for its children. -/
def visit (v : FreeVarsVisitor) : Exp → FreeVarsVisitor
  | .haltExp value => { v with freeVars := visitValue v.freeVars value }
  | .funExp name params body rest =>
    { v with worklist :=
        .node rest :: .erase [name] :: .node body :: .erase params :: v.worklist }
  | .joinExp name slot body rest =>
    match slot with
    | some slot =>
      { v with worklist :=
          .node rest :: .erase [name] :: .node body :: .erase [slot] :: v.worklist }
    | none => { v with worklist := .node rest :: .erase [name] :: .node body :: v.worklist }
  | .jumpExp _ slotValue =>
    match slotValue with
    | some value => { v with freeVars := visitValue v.freeVars value }
    | none => v
  | .appExp name funName paramValues rest =>
    { freeVars := paramValues.foldl visitValue (visitValue v.freeVars (.varValue funName))
      worklist := .node rest :: .erase [name] :: v.worklist }
  | .bopExp name _ param1 param2 rest =>
    { freeVars := visitValue (visitValue v.freeVars param1) param2
      worklist := .node rest :: .erase [name] :: v.worklist }
  | .ifExp cond thenBranch elseBranch =>
    { freeVars := visitValue v.freeVars cond
      worklist := .node elseBranch :: .node thenBranch :: v.worklist }
  | .tupleExp name values rest =>
    { freeVars := values.foldl visitValue v.freeVars
      worklist := .node rest :: .erase [name] :: v.worklist }
  | .projExp name tuple _ rest =>
    { freeVars := visitValue v.freeVars (.varValue tuple)
      worklist := .node rest :: .erase [name] :: v.worklist }

/-- One turn of the loop. -/
def step (v : FreeVarsVisitor) : FreeVarsVisitor ⊕ OrdSet Var :=
  match v.worklist with
  | [] => .inr v.freeVars
  | .node exp :: worklist => .inl ({ v with worklist := worklist }.visit exp)
  | .erase names :: worklist =>
    .inl { freeVars := names.foldl OrdSet.erase v.freeVars, worklist := worklist }

end FreeVarsVisitor

/-- Turns the loop spends on `t`: one for each node and one for each binder. -/
def Exp.turns : Exp → Nat
  | .haltExp _ => 1
  | .funExp _ _ body rest => body.turns + rest.turns + 3
  | .joinExp _ slot body rest => slot.toList.length + body.turns + rest.turns + 2
  | .jumpExp _ _ => 1
  | .appExp _ _ _ rest => rest.turns + 2
  | .bopExp _ _ _ _ rest => rest.turns + 2
  | .ifExp _ thenBranch elseBranch => thenBranch.turns + elseBranch.turns + 1
  | .tupleExp _ _ rest => rest.turns + 2
  | .projExp _ _ _ rest => rest.turns + 2

/-- `convert::freeVars`, run for as many turns as it needs. The root's visit before the loop
is the first turn. -/
def freeVars (root : Exp) : OrdSet Var :=
  (Lib.iterate FreeVarsVisitor.step (root.turns + 1) ⟨OrdSet.empty, [.node root]⟩).getD
    OrdSet.empty

/-- The second test of `test/convert.cpp`. -/
example : (freeVars (.funExp "f" ["a", "b"] (.joinExp "j" (some "c")
      (.tupleExp "t" [.varValue "b", .varValue "c", .varValue "d"]
        (.projExp "p" "t" 0 (.haltExp (.varValue "p"))))
      (.bopExp "x" .plus (.varValue "a") (.varValue "e")
        (.jumpExp "j" (some (.globValue "g"))))) (.haltExp (.varValue "f")))).toList =
    ["d", "e", "g"] := by decide

/-! ## What the loop computes -/

/-- The set after the walk of `t`, started with the set `s`. -/
def Exp.collect : Exp → OrdSet Var → OrdSet Var
  | .haltExp value, s => visitValue s value
  | .funExp name params body rest, s =>
    params.foldl OrdSet.erase (body.collect ((rest.collect s).erase name))
  | .joinExp name slot body rest, s =>
    slot.toList.foldl OrdSet.erase (body.collect ((rest.collect s).erase name))
  | .jumpExp _ slotValue, s => slotValue.toList.foldl visitValue s
  | .appExp name funName paramValues rest, s =>
    (rest.collect (paramValues.foldl visitValue (s.insert funName))).erase name
  | .bopExp name _ param1 param2 rest, s =>
    (rest.collect (visitValue (visitValue s param1) param2)).erase name
  | .ifExp cond thenBranch elseBranch, s =>
    thenBranch.collect (elseBranch.collect (visitValue s cond))
  | .tupleExp name values rest, s => (rest.collect (values.foldl visitValue s)).erase name
  | .projExp name tuple _ rest, s => (rest.collect (s.insert tuple)).erase name

/-- The tasks that a node leads to collect what the recursion collects, and leave the rest of the
worklist as it was. -/
theorem FreeVarsVisitor.runs_node (t : Exp) (s : OrdSet Var) (worklist : List FreeVarsTask) :
    Lib.Runs step t.turns ⟨s, .node t :: worklist⟩ ⟨t.collect s, worklist⟩ := by
  have erases : ∀ (s : OrdSet Var) (names : List Var) (worklist : List FreeVarsTask),
      Lib.Runs step 1 ⟨s, .erase names :: worklist⟩ ⟨names.foldl OrdSet.erase s, worklist⟩ :=
    fun s names worklist => .of_step rfl
  induction t generalizing s worklist with
  | haltExp value => exact .of_step rfl
  | funExp name params body rest ihBody ihRest =>
    have visits : Lib.Runs step 1 ⟨s, .node (.funExp name params body rest) :: worklist⟩
        ⟨s, .node rest :: .erase [name] :: .node body :: .erase params :: worklist⟩ := .of_step rfl
    have runs := (((visits.trans (ihRest _ _)).trans (erases _ _ _)).trans (ihBody _ _)).trans
      (erases _ _ _)
    have turns : 1 + (body.turns + (1 + (rest.turns + 1))) = body.turns + rest.turns + 3 := by omega
    rw [turns] at runs
    exact runs
  | joinExp name slot body rest ihBody ihRest =>
    cases slot with
    | none =>
      have visits : Lib.Runs step 1 ⟨s, .node (.joinExp name none body rest) :: worklist⟩
          ⟨s, .node rest :: .erase [name] :: .node body :: worklist⟩ := .of_step rfl
      have runs := ((visits.trans (ihRest _ _)).trans (erases _ _ _)).trans (ihBody _ _)
      have turns : body.turns + (1 + (rest.turns + 1)) = 0 + body.turns + rest.turns + 2 := by omega
      rw [turns] at runs
      exact runs
    | some slot =>
      have visits : Lib.Runs step 1 ⟨s, .node (.joinExp name (some slot) body rest) :: worklist⟩
          ⟨s, .node rest :: .erase [name] :: .node body :: .erase [slot] :: worklist⟩ :=
        .of_step rfl
      have runs := (((visits.trans (ihRest _ _)).trans (erases _ _ _)).trans (ihBody _ _)).trans
        (erases _ _ _)
      have turns : 1 + (body.turns + (1 + (rest.turns + 1))) = 1 + body.turns + rest.turns + 2 := by
        omega
      rw [turns] at runs
      exact runs
  | jumpExp joinName slotValue =>
    cases slotValue with
    | none => exact .of_step rfl
    | some value => exact .of_step rfl
  | appExp name funName paramValues rest ih =>
    have visits : Lib.Runs step 1 ⟨s, .node (.appExp name funName paramValues rest) :: worklist⟩
        ⟨_, .node rest :: .erase [name] :: worklist⟩ := .of_step rfl
    have runs := (visits.trans (ih _ _)).trans (erases _ _ _)
    rw [Nat.add_comm 1] at runs
    exact runs
  | bopExp name bop param1 param2 rest ih =>
    have visits : Lib.Runs step 1 ⟨s, .node (.bopExp name bop param1 param2 rest) :: worklist⟩
        ⟨_, .node rest :: .erase [name] :: worklist⟩ := .of_step rfl
    have runs := (visits.trans (ih _ _)).trans (erases _ _ _)
    rw [Nat.add_comm 1] at runs
    exact runs
  | ifExp cond thenBranch elseBranch ihThen ihElse =>
    have visits : Lib.Runs step 1 ⟨s, .node (.ifExp cond thenBranch elseBranch) :: worklist⟩
        ⟨_, .node elseBranch :: .node thenBranch :: worklist⟩ := .of_step rfl
    exact (visits.trans (ihElse _ _)).trans (ihThen _ _)
  | tupleExp name values rest ih =>
    have visits : Lib.Runs step 1 ⟨s, .node (.tupleExp name values rest) :: worklist⟩
        ⟨_, .node rest :: .erase [name] :: worklist⟩ := .of_step rfl
    have runs := (visits.trans (ih _ _)).trans (erases _ _ _)
    rw [Nat.add_comm 1] at runs
    exact runs
  | projExp name tuple index rest ih =>
    have visits : Lib.Runs step 1 ⟨s, .node (.projExp name tuple index rest) :: worklist⟩
        ⟨_, .node rest :: .erase [name] :: worklist⟩ := .of_step rfl
    have runs := (visits.trans (ih _ _)).trans (erases _ _ _)
    rw [Nat.add_comm 1] at runs
    exact runs

theorem freeVars_eq_collect (t : Exp) : freeVars t = t.collect OrdSet.empty := by
  have stops := (FreeVarsVisitor.runs_node t OrdSet.empty []).stops (.of_step rfl)
  unfold freeVars
  rw [stops.iterate (by omega)]
  rfl

/-! ## Agreement with the textbook definition -/

/-- The bound names of `t` are pairwise distinct, and none of them occurs free in `t`. -/
structure Exp.Tidy (t : Exp) : Prop where
  nodup : t.boundNames.Nodup
  apart : ∀ x ∈ t.free, x ∉ t.boundNames

/-- A part of a tidy term, under binders `names` of the term, is tidy. -/
theorem Exp.Tidy.part {t part : Exp} (names : List Var) (tidy : t.Tidy)
    (bound : (names ++ part.boundNames).Sublist t.boundNames)
    (free : ∀ x ∈ part.free, x ∉ names → x ∈ t.free) : part.Tidy := by
  have nodup := tidy.nodup.sublist bound
  refine ⟨(List.nodup_append'.mp nodup).2.1, fun x occurs binds => ?_⟩
  by_cases member : x ∈ names
  · exact (List.nodup_append'.mp nodup).2.2 member binds
  · exact tidy.apart x (free x occurs member) (bound.subset (List.mem_append_right _ binds))

section Parts

variable {name tuple : Var} {params : List Var} {slot : Option Var} {body rest : Exp}
  {values : List Value} {bop : Ast.Bop} {value1 value2 : Value} {index : Nat}

theorem Exp.Tidy.funBody (tidy : (funExp name params body rest).Tidy) : body.Tidy := by
  refine tidy.part params ?_ fun x occurs notMem => ?_
  · exact .cons _ (List.sublist_append_left ..)
  · exact Finset.mem_union_left _ (Finset.mem_sdiff.mpr ⟨occurs, by simpa using notMem⟩)

theorem Exp.Tidy.funRest (tidy : (funExp name params body rest).Tidy) : rest.Tidy := by
  refine tidy.part [name] ?_ fun x occurs notMem => ?_
  · exact .cons_cons _ (List.sublist_append_right ..)
  · exact Finset.mem_union_right _ (Finset.mem_sdiff.mpr ⟨occurs, by simpa using notMem⟩)

theorem Exp.Tidy.joinBody (tidy : (joinExp name slot body rest).Tidy) : body.Tidy := by
  refine tidy.part slot.toList ?_ fun x occurs notMem => ?_
  · exact .cons _ (List.sublist_append_left ..)
  · exact Finset.mem_union_left _ (Finset.mem_sdiff.mpr ⟨occurs, by simpa using notMem⟩)

theorem Exp.Tidy.joinRest (tidy : (joinExp name slot body rest).Tidy) : rest.Tidy :=
  tidy.part [] (.cons _ (List.sublist_append_right ..))
    fun _ occurs _ => Finset.mem_union_right _ occurs

/-- The rest of a let-like node that binds `name`. -/
theorem Exp.Tidy.letRest {t : Exp} (tidy : t.Tidy) (bound : t.boundNames = name :: rest.boundNames)
    (free : rest.free \ {name} ⊆ t.free) : rest.Tidy := by
  refine tidy.part [name] ?_ fun x occurs notMem => ?_
  · exact bound ▸ .refl _
  · exact free (Finset.mem_sdiff.mpr ⟨occurs, by simpa using notMem⟩)

theorem Exp.Tidy.appRest (tidy : (appExp name tuple values rest).Tidy) : rest.Tidy :=
  tidy.letRest rfl Finset.subset_union_right

theorem Exp.Tidy.bopRest (tidy : (bopExp name bop value1 value2 rest).Tidy) : rest.Tidy :=
  tidy.letRest rfl Finset.subset_union_right

theorem Exp.Tidy.tupleRest (tidy : (tupleExp name values rest).Tidy) : rest.Tidy :=
  tidy.letRest rfl Finset.subset_union_right

theorem Exp.Tidy.projRest (tidy : (projExp name tuple index rest).Tidy) : rest.Tidy :=
  tidy.letRest rfl Finset.subset_union_right

theorem Exp.Tidy.thenBranch (tidy : (ifExp value1 body rest).Tidy) : body.Tidy :=
  tidy.part [] (List.sublist_append_left ..)
    fun _ occurs _ => Finset.mem_union_left _ (Finset.mem_union_right _ occurs)

theorem Exp.Tidy.elseBranch (tidy : (ifExp value1 body rest).Tidy) : rest.Tidy :=
  tidy.part [] (List.sublist_append_right ..) fun _ occurs _ => Finset.mem_union_right _ occurs

end Parts

@[simp] theorem mem_visitValue {s : OrdSet Var} {value : Value} {x : Var} :
    x ∈ visitValue s value ↔ x ∈ s ∨ x ∈ value.names := by
  cases value <;> simp [visitValue, Value.names, or_comm]

@[simp] theorem mem_foldl_visitValue {s : OrdSet Var} {values : List Value} {x : Var} :
    x ∈ values.foldl visitValue s ↔ x ∈ s ∨ x ∈ values.flatMap Value.names := by
  induction values generalizing s with
  | nil => simp
  | cons value values ih => rw [List.foldl_cons, ih, mem_visitValue, List.flatMap_cons,
      List.mem_append, or_assoc]

/-- The walk of a tidy term takes its bound names out of the set and puts its free names in. -/
theorem mem_collect {t : Exp} (tidy : t.Tidy) {s : OrdSet Var} {x : Var} :
    x ∈ t.collect s ↔ (x ∈ s ∧ x ∉ t.boundNames) ∨ x ∈ t.free := by
  induction t generalizing s with
  | haltExp value => simp [Exp.collect, Exp.boundNames, Exp.free]
  | funExp name params body rest ihBody ihRest =>
    have apart := tidy.apart x
    simp only [Exp.collect, OrdSet.mem_foldl_erase, ihBody tidy.funBody, OrdSet.mem_erase,
      ihRest tidy.funRest, Exp.boundNames, Exp.free, Finset.mem_union, Finset.mem_sdiff,
      List.mem_toFinset, Finset.mem_singleton, List.mem_cons, List.mem_append] at apart ⊢
    grind
  | joinExp name slot body rest ihBody ihRest =>
    have apart := tidy.apart x
    simp only [Exp.collect, OrdSet.mem_foldl_erase, ihBody tidy.joinBody, OrdSet.mem_erase,
      ihRest tidy.joinRest, Exp.boundNames, Exp.free, Finset.mem_union, Finset.mem_sdiff,
      List.mem_toFinset, List.mem_cons, List.mem_append] at apart ⊢
    grind
  | jumpExp joinName slotValue =>
    simp only [Exp.collect, mem_foldl_visitValue, Exp.boundNames, Exp.free, List.mem_toFinset,
      List.not_mem_nil, not_false_eq_true, and_true]
  | appExp name funName paramValues rest ih =>
    have apart := tidy.apart x
    simp only [Exp.collect, OrdSet.mem_erase, ih tidy.appRest, mem_foldl_visitValue,
      OrdSet.mem_insert, Exp.boundNames, Exp.free, Finset.mem_union, Finset.mem_sdiff,
      List.mem_toFinset, Finset.mem_singleton, List.mem_cons] at apart ⊢
    grind
  | bopExp name bop param1 param2 rest ih =>
    have apart := tidy.apart x
    simp only [Exp.collect, OrdSet.mem_erase, ih tidy.bopRest, mem_visitValue, Exp.boundNames,
      Exp.free, Finset.mem_union, Finset.mem_sdiff, List.mem_toFinset, Finset.mem_singleton,
      List.mem_cons, List.mem_append] at apart ⊢
    grind
  | ifExp cond thenBranch elseBranch ihThen ihElse =>
    have apart := tidy.apart x
    simp only [Exp.collect, ihThen tidy.thenBranch, ihElse tidy.elseBranch, mem_visitValue,
      Exp.boundNames, Exp.free, Finset.mem_union, List.mem_toFinset, List.mem_append] at apart ⊢
    grind
  | tupleExp name values rest ih =>
    have apart := tidy.apart x
    simp only [Exp.collect, OrdSet.mem_erase, ih tidy.tupleRest, mem_foldl_visitValue,
      Exp.boundNames, Exp.free, Finset.mem_union, Finset.mem_sdiff, List.mem_toFinset,
      Finset.mem_singleton, List.mem_cons] at apart ⊢
    grind
  | projExp name tuple index rest ih =>
    have apart := tidy.apart x
    simp only [Exp.collect, OrdSet.mem_erase, ih tidy.projRest, OrdSet.mem_insert,
      Exp.boundNames, Exp.free, Finset.mem_union, Finset.mem_sdiff, Finset.mem_singleton,
      List.mem_cons] at apart ⊢
    grind

/-- On a tidy term the worklist computes the textbook set. -/
theorem mem_freeVars {t : Exp} (tidy : t.Tidy) {x : Var} : x ∈ freeVars t ↔ x ∈ t.free := by
  rw [freeVars_eq_collect, mem_collect tidy]
  simp [OrdSet.not_mem_empty]

/-- The loop of `freeVars` ends, and what it returns is the textbook set. -/
theorem freeVars_returns_free (t : Exp) (tidy : t.Tidy) : ∃ fuel,
    Lib.iterate FreeVarsVisitor.step fuel ⟨OrdSet.empty, [.node t]⟩ = some (freeVars t) ∧
      ∀ x, x ∈ freeVars t ↔ x ∈ t.free := by
  have stops : Lib.Stops FreeVarsVisitor.step (1 + t.turns) ⟨OrdSet.empty, [.node t]⟩
      (t.collect OrdSet.empty) :=
    (FreeVarsVisitor.runs_node t OrdSet.empty []).stops (.of_step rfl)
  refine ⟨1 + t.turns, ?_, fun x => mem_freeVars tidy⟩
  rw [freeVars_eq_collect]
  exact stops.iterate le_rfl

/-- A function with a join of its own and a free variable. -/
theorem freeVars_returns_free_fun : ∃ fuel, Lib.iterate FreeVarsVisitor.step fuel
      ⟨OrdSet.empty, [.node (.funExp "f" ["a"] (.joinExp "j" (some "c") (.haltExp (.varValue "c"))
        (.bopExp "x" .plus (.varValue "a") (.varValue "e") (.jumpExp "j" (some (.varValue "x")))))
        (.haltExp (.varValue "f")))]⟩ =
      some (freeVars (.funExp "f" ["a"] (.joinExp "j" (some "c") (.haltExp (.varValue "c"))
        (.bopExp "x" .plus (.varValue "a") (.varValue "e") (.jumpExp "j" (some (.varValue "x")))))
        (.haltExp (.varValue "f")))) ∧
    ∀ x, x ∈ freeVars (.funExp "f" ["a"] (.joinExp "j" (some "c") (.haltExp (.varValue "c"))
        (.bopExp "x" .plus (.varValue "a") (.varValue "e") (.jumpExp "j" (some (.varValue "x")))))
        (.haltExp (.varValue "f"))) ↔
      x ∈ (Exp.funExp "f" ["a"] (.joinExp "j" (some "c") (.haltExp (.varValue "c"))
        (.bopExp "x" .plus (.varValue "a") (.varValue "e") (.jumpExp "j" (some (.varValue "x")))))
        (.haltExp (.varValue "f"))).free :=
  freeVars_returns_free _ ⟨by decide, by decide⟩

end Lambcalc.Anf
