import Lambcalc.Emit.Applications
import Lambcalc.Emit.Simulation

/-!
# What lowering makes returns what the block program returns

The functions that closed, closure-converted code is hoisted into are what the simulation asks for,
if no label is the name of another function: labels are distinct, and none is `main` or `malloc`.
-/

namespace Lambcalc.Emit

open Anf (Exp Value Var closureConvert)
open Hoist Lib Lib.Ir LLVMLowerVisitor World
open Lambcalc.Convert (ReadsBound readVars functions Val)

/-! ## Closed programs -/

/-- The label that an operand stands for. -/
def globs : Value → List Var
  | .globValue glob => [glob]
  | _ => []

/-- The operands of `t`, outside the functions it contains. -/
def operandsOf : Exp → List Value
  | .haltExp value => [value]
  | .funExp _ _ _ rest => operandsOf rest
  | .joinExp _ _ body rest => operandsOf body ++ operandsOf rest
  | .jumpExp _ slotValue => slotValue.toList
  | .appExp _ _ paramValues rest => paramValues ++ operandsOf rest
  | .bopExp _ _ param1 param2 rest => param1 :: param2 :: operandsOf rest
  | .ifExp cond thenBranch elseBranch => cond :: (operandsOf thenBranch ++ operandsOf elseBranch)
  | .tupleExp _ values rest => values ++ operandsOf rest
  | .projExp _ _ _ rest => operandsOf rest

/-- The numbers of operands of the records of `t`, outside the functions it contains. -/
def recordSizes : Exp → List Nat
  | .haltExp _ => []
  | .funExp _ _ _ rest => recordSizes rest
  | .joinExp _ _ body rest => recordSizes body ++ recordSizes rest
  | .jumpExp _ _ => []
  | .appExp _ _ _ rest => recordSizes rest
  | .bopExp _ _ _ _ rest => recordSizes rest
  | .ifExp _ thenBranch elseBranch => recordSizes thenBranch ++ recordSizes elseBranch
  | .tupleExp _ values rest => values.length :: recordSizes rest
  | .projExp _ _ _ rest => recordSizes rest

/-- In each function of the program `t`, what is read is bound, jumps name joins in scope and carry
a value exactly if the join has a slot, and labels are those of functions. -/
structure Closed (t : Exp) : Prop where
  reads : ∀ f ∈ program t, ReadsBound f.2.1.toFinset f.2.2
  jumps : ∀ f ∈ program t, jumpsInScope [] f.2.2 = true
  globs : ∀ f ∈ program t, ∀ glob ∈ (operandsOf f.2.2).flatMap globs, glob ∈ labels t

/-! ## Functions of a closed program -/

/-- Different names that are not in scope, the first of which comes into scope. -/
theorem apart_cons {vars : Finset Var} {name : Var} {names : List Var}
    (nodup : (name :: names).Nodup) (apart : ∀ x ∈ vars, x ∉ name :: names) :
    names.Nodup ∧ ∀ x ∈ vars ∪ {name}, x ∉ names := by
  obtain ⟨notMem, nodupTail⟩ := List.nodup_cons.mp nodup
  refine ⟨nodupTail, fun x member => ?_⟩
  rcases Finset.mem_union.mp member with inScope | isName
  · exact fun inNames => apart x inScope (List.mem_cons_of_mem _ inNames)
  · exact Finset.mem_singleton.mp isName ▸ notMem

/-- The names of a join and its body, and those of its rest. -/
theorem apart_join {vars : Finset Var} {name : Var} {slot : Option Var} {leftBody left : Exp}
    {inner blocks : List Join}
    (nodup : (bindings left ++ boundBy (inner ++ ⟨name, slot, leftBody⟩ :: blocks)).Nodup)
    (apart : ∀ x ∈ vars, x ∉ bindings left ++ boundBy (inner ++ ⟨name, slot, leftBody⟩ :: blocks)) :
    ((bindings leftBody ++ boundBy inner).Nodup ∧
      ∀ x ∈ vars ∪ slot.toList.toFinset, x ∉ bindings leftBody ++ boundBy inner) ∧
    (bindings left ++ boundBy blocks).Nodup ∧ ∀ x ∈ vars, x ∉ bindings left ++ boundBy blocks := by
  simp only [boundBy, List.flatMap_append, List.flatMap_cons, Join.bound, List.nodup_append,
    List.mem_append, Finset.mem_union, List.mem_toFinset] at nodup apart ⊢
  grind

/-- The names of the two branches of an `If`. -/
theorem apart_branches {vars : Finset Var} {leftThen leftElse : Exp}
    {innerThen innerElse : List Join}
    {thenBlock elseBlock : Var}
    (nodup : (boundBy (innerThen ++ innerElse ++
      [⟨thenBlock, none, leftThen⟩, ⟨elseBlock, none, leftElse⟩])).Nodup)
    (apart : ∀ x ∈ vars, x ∉ boundBy (innerThen ++ innerElse ++
      [⟨thenBlock, none, leftThen⟩, ⟨elseBlock, none, leftElse⟩])) :
    ((bindings leftThen ++ boundBy innerThen).Nodup ∧
      ∀ x ∈ vars, x ∉ bindings leftThen ++ boundBy innerThen) ∧
    (bindings leftElse ++ boundBy innerElse).Nodup ∧
      ∀ x ∈ vars, x ∉ bindings leftElse ++ boundBy innerElse := by
  simp only [boundBy, List.flatMap_append, List.flatMap_cons, Join.bound, List.nodup_append,
    List.mem_append, List.flatMap_nil, Option.toList_none, List.nil_append] at nodup apart ⊢
  grind

theorem not_readVars {vars : Finset Var} {name : Var} {values : List Value}
    (reads : ∀ x ∈ values.flatMap readVars, x ∈ vars) (new : name ∉ vars) :
    ∀ value ∈ values, value ≠ .varValue name := by
  rintro value member rfl
  exact new (reads name (List.mem_flatMap.mpr ⟨_, member, List.mem_singleton_self name⟩))

/-- The blocks of a closed function, whose names are different, do not fill a record with itself. -/
theorem Splits.regular {t left : Exp} {split : List Join} (splits : Splits t left split)
    {vars : Finset Var} (reads : ReadsBound vars t)
    (nodup : (bindings left ++ boundBy split).Nodup)
    (apart : ∀ x ∈ vars, x ∉ bindings left ++ boundBy split)
    (notMalloc : ∀ value ∈ operandsOf t, NotMalloc value)
    (small : ∀ size ∈ recordSizes t, size < 2 ^ 61) :
    Regular left ∧ ∀ b ∈ split, Regular b.body := by
  induction splits generalizing vars with
  | haltExp => exact ⟨notMalloc _ List.mem_cons_self, List.forall_mem_nil _⟩
  | funExp _ ih => exact ih reads nodup apart notMalloc small
  | joinExp _ _ ihBody ihRest =>
    obtain ⟨⟨nodupBody, apartBody⟩, nodupRest, apartRest⟩ := apart_join nodup apart
    obtain ⟨notBody, notRest⟩ := List.forall_mem_append.mp notMalloc
    obtain ⟨smallBody, smallRest⟩ := List.forall_mem_append.mp small
    obtain ⟨body, inner⟩ := ihBody reads.1 nodupBody apartBody notBody smallBody
    obtain ⟨rest, blocks⟩ := ihRest reads.2 nodupRest apartRest notRest smallRest
    exact ⟨rest, List.forall_mem_append.mpr ⟨inner, List.forall_mem_cons.mpr ⟨body, blocks⟩⟩⟩
  | jumpExp =>
    exact ⟨fun value member => notMalloc value (Option.mem_toList.mpr member),
      List.forall_mem_nil _⟩
  | appExp _ ih =>
    obtain ⟨nodupRest, apartRest⟩ := apart_cons nodup apart
    obtain ⟨notValues, notRest⟩ := List.forall_mem_append.mp notMalloc
    obtain ⟨rest, blocks⟩ := ih reads.2.2 nodupRest apartRest notRest small
    exact ⟨⟨notValues, rest⟩, blocks⟩
  | bopExp _ ih =>
    obtain ⟨nodupRest, apartRest⟩ := apart_cons nodup apart
    obtain ⟨not1, others⟩ := List.forall_mem_cons.mp notMalloc
    obtain ⟨not2, notRest⟩ := List.forall_mem_cons.mp others
    obtain ⟨rest, blocks⟩ := ih reads.2 nodupRest apartRest notRest small
    exact ⟨⟨not1, not2, rest⟩, blocks⟩
  | ifExp _ _ _ _ ihThen ihElse =>
    obtain ⟨⟨nodupThen, apartThen⟩, nodupElse, apartElse⟩ := apart_branches nodup apart
    obtain ⟨notCond, others⟩ := List.forall_mem_cons.mp notMalloc
    obtain ⟨notThen, notElse⟩ := List.forall_mem_append.mp others
    obtain ⟨smallThen, smallElse⟩ := List.forall_mem_append.mp small
    obtain ⟨then_, innerThen⟩ := ihThen reads.2.1 nodupThen apartThen notThen smallThen
    obtain ⟨else_, innerElse⟩ := ihElse reads.2.2 nodupElse apartElse notElse smallElse
    have plain : ∀ join, Regular (.jumpExp join none) := fun _ _ member => by cases member
    refine ⟨⟨notCond, plain _, plain _⟩, ?_⟩
    refine List.forall_mem_append.mpr ⟨List.forall_mem_append.mpr ⟨innerThen, innerElse⟩, ?_⟩
    exact List.forall_mem_cons.mpr ⟨then_, List.forall_mem_singleton.mpr else_⟩
  | @tupleExp name values rest left blocks _ ih =>
    obtain ⟨nodupRest, apartRest⟩ := apart_cons nodup apart
    obtain ⟨notValues, notRest⟩ := List.forall_mem_append.mp notMalloc
    obtain ⟨smallHead, smallRest⟩ := List.forall_mem_cons.mp small
    obtain ⟨regular, others⟩ := ih reads.2 nodupRest apartRest notRest smallRest
    have notItself := not_readVars reads.1 fun inScope => apart name inScope List.mem_cons_self
    exact ⟨⟨fun value member => ⟨notValues value member, notItself value member⟩, smallHead,
      regular⟩, others⟩
  | projExp _ ih =>
    obtain ⟨nodupRest, apartRest⟩ := apart_cons nodup apart
    exact ih reads.2 nodupRest apartRest notMalloc small

/-- A function of a closed program in which every application calls what it has projected. -/
theorem orderly_functionOf {f : Var × List Var × Exp} {c : Nat}
    (reads : ReadsBound f.2.1.toFinset f.2.2) (inScope : jumpsInScope [] f.2.2 = true)
    (notMalloc : ∀ value ∈ operandsOf f.2.2, NotMalloc value)
    (small : ∀ size ∈ recordSizes f.2.2, size < 2 ^ 61) (calls : projected none f.2.2 = true)
    {fn : Function} (eq : fn = functionOf f.1 f.2.1 f.2.2 c)
    (names : (fn.params ++ boundBy (fn.entryBlock :: fn.blocks)).Nodup)
    (blocks : ((fn.entryBlock :: fn.blocks).map Join.name).Nodup) : Orderly fn := by
  subst eq
  have splits := splits_block f.2.2 c
  obtain ⟨-, nodup, apart⟩ := List.nodup_append.mp names
  have apart' : ∀ x ∈ f.2.1.toFinset,
      x ∉ bindings (block f.2.2 c) ++ boundBy (Hoist.blocks f.2.2 c) :=
    fun x isParam member => apart x (List.mem_toFinset.mp isParam) x member rfl
  have regular := Splits.regular splits reads nodup apart' notMalloc small
  have accepted := splits.jumps_accepted (List.Subset.refl _) inScope fun _ _ eq => by cases eq
  have projects := Splits.projected splits calls
  exact ⟨⟨List.forall_mem_cons.mpr splits.flat, List.forall_mem_cons.mpr projects,
    List.forall_mem_cons.mpr accepted⟩, List.forall_mem_cons.mpr regular, names, blocks⟩

/-! ## Whole programs -/

/-- `main` returns what the block program returns. -/
theorem mainReturns_of_blockYields {M : Module} {fns : List Function} (links : Links M fns)
    (noParams : ∀ main, findFunction fns "main" = some main → main.params = []) (m : Machine M)
    {n : Word} (yields : BlockYields fns n) : m.MainReturns n := by
  obtain ⟨main, fuel, H, found, ran⟩ := yields
  obtain ⟨orderly, -, body, defined, definedIn⟩ := links.function "main" main found
  obtain ⟨Γ, allocas, entry, codes, laid, rfl, declares⟩ := definedIn.laid
  let W : World := ⟨[], [], ⟨fun _ => .free, 0⟩⟩
  let start : Frame := ⟨(allocas ++ entry) :: codes, [], fun _ => none, []⟩
  have sound : Sound m W := ⟨rfl, fun placed => by cases placed⟩
  have bound : Anf.Env.bind (fun _ => none) main.params [] = some fun _ => (none : Option Val) := by
    rw [noParams main found]
    rfl
  have inEntry := List.mem_cons_self (a := main.entryBlock) (l := main.blocks)
  have leads : Leads m.step .outOfMemory (∃ W', Returns m W' [] W (.int n) H ·)
      ⟨start, allocas ++ entry, [], W.memory⟩ := by
    refine leads_allocas laid.allocates (begun_call sound rfl)
      fun frame memory ids begun made _ => ?_
    have related : Related m Γ _ start.body frame.own frame { W with memory := memory } :=
      ⟨laid.matches begun made bound .nil, begun.sound, begun.owned⟩
    have follows := simulates links fuel { W with memory := memory } [] ran
      ⟨orderly, ⟨allocas, entry, codes, laid, rfl⟩, declares⟩ (orderly.lowerable.jumps _ inEntry)
      (orderly.lowerable.calls _ inEntry) (fun _ eq => by cases eq) (orderly.regular _ inEntry)
      laid.emitted related
    exact follows.imp fun s returns =>
      ⟨frame.own, returns.trans (begun.evolves.mono (List.nil_subset _))⟩
  refine ⟨_, _, defined, rfl, leads.iterate fun s returns => ?_⟩
  obtain ⟨own, returns⟩ := returns
  cases returns with
  | intro owns reads represents heap sound evolves =>
    cases represents
    exact m.step_ret reads

/-- The functions that a closed program is hoisted into are orderly, if the names of each are
different. -/
theorem orderly_hoist {t : Exp} (closed : Closed t) (calls : projected none t = true)
    (notMalloc : "malloc" ∉ labels t)
    (small : ∀ f ∈ program t, ∀ size ∈ recordSizes f.2.2, size < 2 ^ 61)
    (names : ∀ fn ∈ hoist t, (fn.params ++ boundBy (fn.entryBlock :: fn.blocks)).Nodup)
    (blocks : ∀ fn ∈ hoist t, ((fn.entryBlock :: fn.blocks).map Join.name).Nodup) :
    ∀ fn ∈ hoist t, Orderly fn := by
  have each : ∀ f ∈ program t, projected none f.2.2 = true → ∀ c, ∀ fn ∈ hoist t,
      fn = functionOf f.1 f.2.1 f.2.2 c → Orderly fn := by
    intro f inProgram calls c fn member eq
    refine orderly_functionOf (closed.reads f inProgram) (closed.jumps f inProgram)
      (fun value isOperand isMalloc => ?_) (small f inProgram) calls eq (names fn member)
      (blocks fn member)
    refine notMalloc
      (closed.globs f inProgram "malloc" (List.mem_flatMap.mpr ⟨value, isOperand, ?_⟩))
    rw [isMalloc]
    exact List.mem_singleton_self _
  intro fn member
  have place := member
  rw [hoist_eq] at place
  rcases List.mem_append.mp place with inLifted | isMain
  · obtain ⟨f, inFunctions, c, eq⟩ := functions_lifted t 0 fn inLifted
    exact each f (List.mem_cons_of_mem _ inFunctions) (projected_functions calls f inFunctions) c fn
      member eq
  · exact each ("main", [], t) List.mem_cons_self calls 0 fn member (List.mem_singleton.mp isMain)

/-- What lowering asks of `t`, labels aside: `t` is closed once it is converted, its records have as
many operands as a vector can have, and in each of its functions, value names and block names are
different, and definitions come before uses. -/
structure Ordered (t : Exp) : Prop where
  closed : Closed (closureConvert t)
  small : ∀ f ∈ program (closureConvert t), ∀ size ∈ recordSizes f.2.2, size < 2 ^ 61
  names : ∀ fn ∈ hoist (closureConvert t), (fn.params ++ boundBy (fn.entryBlock :: fn.blocks)).Nodup
  blocks : ∀ fn ∈ hoist (closureConvert t), ((fn.entryBlock :: fn.blocks).map Join.name).Nodup
  defined : ∀ fn ∈ hoist (closureConvert t), Lower.Defined fn

/-- Lowering simulates the block program: of the functions that closed, closure-converted code is
hoisted into, with labels that are distinct and not `main` or `malloc`, it makes a module whose
`main` returns `n` if the block program returns the integer `n`, or the machine finds no place for
a new cell or record. -/
theorem lowerModule_simulates (t : Exp) (ordered : Ordered t)
    (distinctLabels : (labels (closureConvert t)).Nodup)
    (notMain : "main" ∉ labels (closureConvert t))
    (notMalloc : "malloc" ∉ labels (closureConvert t)) :
    ∃ M, lowerModule (hoist (closureConvert t)) = .ok M ∧ ∀ (m : Machine M) (n : Word),
      BlockYields (hoist (closureConvert t)) n → m.MainReturns n := by
  have orderly := orderly_hoist ordered.closed (projected_close t 0) notMalloc ordered.small
    ordered.names ordered.blocks
  have perm : ((hoist (closureConvert t)).map Function.name).Perm
      (labels (closureConvert t) ++ ["main"]) := by
    rw [hoist_eq, List.map_append]
    exact (names_lifted _ 0).append_right _
  have distinct : ((hoist (closureConvert t)).map Function.name).Nodup := by
    refine perm.nodup_iff.mpr (List.nodup_append.mpr ⟨distinctLabels, List.nodup_singleton _, ?_⟩)
    rintro x isLabel y isMain rfl
    exact notMain (List.mem_singleton.mp isMain ▸ isLabel)
  have apart : "malloc" ∉ (hoist (closureConvert t)).map Function.name := by
    rw [perm.mem_iff, List.mem_append, not_or]
    exact ⟨notMalloc, by decide⟩
  obtain ⟨M, lowered⟩ :=
    (lowers_iff (fun fn member => (orderly fn member).lowerable) distinct).mpr ordered.defined
  have links := links_lowerModule orderly distinct apart lowered
  refine ⟨M, lowered, fun m n yields => mainReturns_of_blockYields links (fun main found => ?_) m
    yields⟩
  rw [findFunction_main notMain] at found
  cases found
  rfl

/-- The A-normal form of `(fn x => x) 1`. -/
def callIdentity : Exp :=
  .funExp "tmp0" ["x"] (.haltExp (.varValue "x"))
    (.appExp "tmp1" "tmp0" [.intValue 1] (.haltExp (.varValue "tmp1")))

/-- A machine that places records 4096 bytes apart. -/
def identityMachine : Machine identityModule where
  toAllocator := .placing fun memory => BitVec.ofNat 64 (4096 * (memory.requests + 1))
  addressOf name := BitVec.ofNat 64 ((identityModule.declared.map Prod.fst).idxOf name)
  apart := by decide

theorem lowerModule_simulates_callIdentity :
    lowerModule (hoist (closureConvert callIdentity)) = .ok identityModule ∧
      BlockYields (hoist (closureConvert callIdentity)) 1 ∧ identityMachine.MainReturns 1 := by
  have yields : BlockYields (hoist (closureConvert callIdentity)) 1 := ⟨_, 5, _, rfl, rfl⟩
  have isModule : lowerModule (hoist (closureConvert callIdentity)) = .ok identityModule := by
    decide
  obtain ⟨M, lowered, returns⟩ := lowerModule_simulates callIdentity ⟨⟨by decide, by decide,
    by decide⟩, by decide, by decide, by decide, by decide⟩ (by decide) (by decide) (by decide)
  cases isModule.symm.trans lowered
  exact ⟨isModule, yields, returns identityMachine 1 yields⟩

/-- Two functions of one label: the second one has fewer parameters. -/
def repeatedLabel : Exp :=
  .funExp "g" [] (.funExp "f" ["x"] (.haltExp (.intValue 6)) (.haltExp (.intValue 8)))
    (.funExp "f" [] (.haltExp (.intValue 5)) (.haltExp (.intValue 7)))

/-- A function with the label `main`. -/
def labelMain : Exp := .funExp "main" [] (.haltExp (.intValue 5)) (.haltExp (.intValue 7))

/-- A function with the label `malloc`. -/
def labelMalloc : Exp := .funExp "malloc" ["x"] (.haltExp (.intValue 5)) (.haltExp (.intValue 7))

/-- What it is lowered to: the record of the function is requested from the function. -/
def labelMallocModule : Module where
  declared := [("malloc", ⟨.i64, [.ptr, .i64]⟩), ("main", ⟨.i64, []⟩)]
  globals := []
  bodies := [("malloc", [[⟨0, .ret (.const 5)⟩]]),
    ("main", [[⟨0, .call mallocTy (.symbol "malloc") [.const 8]⟩,
      ⟨1, .ptrToInt (.inst .ptr 0)⟩, ⟨2, .gep (.inst .ptr 0) 0⟩,
      ⟨3, .store (.address "malloc") (.inst .ptr 2)⟩, ⟨4, .ret (.const 7)⟩]])]

/-- The function is called with too few arguments. -/
theorem labelMalloc_stuck (m : Machine labelMallocModule) (n : Word) : ¬ m.MainReturns n := by
  rintro ⟨body, code, defined, head, fuel, ended⟩
  cases defined
  cases head
  have declared : labelMallocModule.declared.lookup "malloc" = some ⟨.i64, [.ptr, .i64]⟩ := rfl
  have stuck : ∀ frame code callers memory, m.step ⟨frame,
      ⟨0, .call mallocTy (.symbol "malloc") [.const 8]⟩ :: code, callers, memory⟩ =
        .inr .stuck := by
    intro frame code callers memory
    simp [Machine.step, Machine.execute, Machine.eval, m.find?_declared declared, guard, failure]
  cases fuel with
  | zero => rcases ended with ended | ended <;> cases ended
  | succ fuel =>
    rcases ended with ended | ended
    · cases (iterate_of_inr (stuck _ _ _ _) fuel).symm.trans ended
    · cases (iterate_of_inr (stuck _ _ _ _) fuel).symm.trans ended

theorem labels_matter :
    (Ordered repeatedLabel ∧ BlockYields (hoist (closureConvert repeatedLabel)) 7 ∧
      lowerModule (hoist (closureConvert repeatedLabel)) = .error .undefined) ∧
    (Ordered labelMain ∧ BlockYields (hoist (closureConvert labelMain)) 5 ∧
      lowerModule (hoist (closureConvert labelMain)) = .error .undefined) ∧
    (Ordered labelMalloc ∧ BlockYields (hoist (closureConvert labelMalloc)) 7 ∧
      ∃ M, lowerModule (hoist (closureConvert labelMalloc)) = .ok M ∧
        ∀ m : Machine M, ¬ m.MainReturns 7) := by
  refine ⟨⟨⟨⟨by decide, by decide, by decide⟩, by decide, by decide, by decide, by decide⟩, ?_,
    by decide⟩, ⟨⟨⟨by decide, by decide, by decide⟩, by decide, by decide, by decide, by decide⟩,
    ?_, by decide⟩, ⟨⟨by decide, by decide, by decide⟩, by decide, by decide, by decide, by decide⟩,
    ?_, ?_⟩
  · exact ⟨_, 4, _, rfl, rfl⟩
  · exact ⟨_, 4, _, rfl, rfl⟩
  · exact ⟨_, 4, _, rfl, rfl⟩
  · exact ⟨labelMallocModule, by decide, fun m => labelMalloc_stuck m 7⟩

end Lambcalc.Emit
