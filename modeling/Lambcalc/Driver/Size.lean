import Lambcalc.Driver.Correct
import Lambcalc.Emit.Size

/-!
# The size of a compiled program

How many instructions `main` of `src/main.cpp` hands over for an expression, if the `IRBuilder` does
not fold operations and comparisons of constants. Each node of the expression costs a constant: no
pass copies a term, since a conversion puts what follows an `If` into one join. Besides, a function
costs four instructions for each name it captures, two where its record is filled and two where it
is read. As the conversion asks `freeVars` of the whole `FunExp`, a function captures what its rest
reads, too.
-/

namespace Lambcalc

open Lambcalc.Convert
open Anf Hoist Emit
open Lower (Plain Occurs)

/-- The instructions of the module for `e`, but for those that handle captured names and for the
last one of `main`. -/
def Ast.Exp.instructions : Ast.Exp → Nat
  | .intExp _ => 0
  | .varExp _ => 0
  | .lamExp _ body => body.instructions + 5
  | .appExp fn arg => fn.instructions + arg.instructions + 5
  | .bopExp _ arg1 arg2 => arg1.instructions + arg2.instructions + 1
  | .ifExp cond then_ els => cond.instructions + then_.instructions + els.instructions + 8

namespace Anf.Exp

/-- The instructions of the module for `t`, but for those that handle captured names. -/
def instructions : Exp → Nat
  | haltExp _ => 1
  | funExp _ _ body rest => body.instructions + rest.instructions + 4
  | joinExp _ slot body rest => body.instructions + rest.instructions + 2 * slot.toList.length
  | jumpExp _ slotValue => slotValue.toList.length + 1
  | appExp _ _ _ rest => rest.instructions + 5
  | bopExp _ _ _ _ rest => rest.instructions + 1
  | ifExp _ thenBranch elseBranch => thenBranch.instructions + elseBranch.instructions + 2
  | tupleExp _ values rest => rest.instructions + 2 * values.length + 2
  | projExp _ _ _ rest => rest.instructions + 3

/-- The names that the functions of `t` capture, all together. -/
def captured : Exp → Nat
  | haltExp _ => 0
  | funExp name params body rest =>
    (freeVars (funExp name params body rest)).toList.length + body.captured + rest.captured
  | joinExp _ _ body rest => body.captured + rest.captured
  | jumpExp _ _ => 0
  | appExp _ _ _ rest => rest.captured
  | bopExp _ _ _ _ rest => rest.captured
  | ifExp _ thenBranch elseBranch => thenBranch.captured + elseBranch.captured
  | tupleExp _ _ rest => rest.captured
  | projExp _ _ _ rest => rest.captured

end Anf.Exp

namespace Driver

/-! ## Conversion to A-normal form -/

@[simp] theorem instructions_relabel (label : String → Nat → String) (e : Ast.Exp)
    (σ : String → String) (i : Nat) : (e.relabel label σ i).instructions = e.instructions := by
  induction e generalizing σ i with
  | intExp value => rfl
  | varExp name => rfl
  | lamExp param body ih => simp only [Ast.Exp.relabel, Ast.Exp.instructions, ih]
  | appExp fn arg ihFn ihArg => simp only [Ast.Exp.relabel, Ast.Exp.instructions, ihFn, ihArg]
  | bopExp bop arg1 arg2 ih1 ih2 => simp only [Ast.Exp.relabel, Ast.Exp.instructions, ih1, ih2]
  | ifExp cond then_ els ihCond ihThen ihEls =>
    simp only [Ast.Exp.relabel, Ast.Exp.instructions, ihCond, ihThen, ihEls]

theorem instructions_around (e : Ast.Exp) (c d : Nat) (tk : Exp) :
    (e.around c d tk).instructions = e.instructions + tk.instructions := by
  induction e generalizing c d tk with
  | intExp value => exact (Nat.zero_add _).symm
  | varExp name => exact (Nat.zero_add _).symm
  | lamExp param body ih =>
    simp only [Ast.Exp.around, Exp.instructions, ih, Ast.Exp.instructions]
    omega
  | appExp fn arg ihFn ihArg =>
    simp only [Ast.Exp.around, ihFn, ihArg, Exp.instructions, Ast.Exp.instructions]
    omega
  | bopExp bop arg1 arg2 ih1 ih2 =>
    simp only [Ast.Exp.around, ih1, ih2, Exp.instructions, Ast.Exp.instructions]
    omega
  | ifExp cond then_ els ihCond ihThen ihEls =>
    simp only [Ast.Exp.around, ihCond, ihThen, ihEls, Exp.instructions, Ast.Exp.instructions,
      Option.toList_some, List.length_singleton]
    omega

/-- A conversion makes a function of each lambda. -/
theorem length_functions_around (e : Ast.Exp) (c d : Nat) (tk : Exp) :
    (functions (e.around c d tk)).length = e.params.length + (functions tk).length := by
  induction e generalizing c d tk with
  | intExp value => exact (Nat.zero_add _).symm
  | varExp name => exact (Nat.zero_add _).symm
  | lamExp param body ih =>
    simp only [Ast.Exp.around, functions, List.length_cons, List.length_append, ih,
      Ast.Exp.params, List.length_nil]
    omega
  | appExp fn arg ihFn ihArg =>
    simp only [Ast.Exp.around, ihFn, ihArg, functions, Ast.Exp.params, List.length_append]
    omega
  | bopExp bop arg1 arg2 ih1 ih2 =>
    simp only [Ast.Exp.around, ih1, ih2, functions, Ast.Exp.params, List.length_append]
    omega
  | ifExp cond then_ els ihCond ihThen ihEls =>
    simp only [Ast.Exp.around, ihCond, ihThen, ihEls, functions, Ast.Exp.params,
      List.length_append, List.length_nil]
    omega

/-- A function captures each name that occurs at most once. -/
theorem captured_le {t : Exp} (plain : Plain t) {names : List Var}
    (occurs : ∀ x, Occurs t x → x ∈ names) :
    t.captured ≤ (functions t).length * names.length := by
  induction t with
  | haltExp value => exact Nat.zero_le _
  | jumpExp joinName slotValue => exact Nat.zero_le _
  | funExp name params body rest ihBody ihRest =>
    have own : (freeVars (.funExp name params body rest)).toList.length ≤ names.length :=
      List.Subperm.length_le ((Lib.OrdSet.nodup _).subperm fun x member =>
        occurs x (.inl ((mem_freeVars plain.tidy).mp member)))
    have inBody := ihBody plain.funBody fun x within => occurs x within.funBody
    have inRest := ihRest plain.funRest fun x within => occurs x within.funRest
    simp only [Exp.captured, functions, List.length_cons, List.length_append, Nat.add_mul,
      Nat.one_mul]
    omega
  | joinExp name slot body rest ihBody ihRest =>
    have inBody := ihBody plain.joinBody fun x within => occurs x within.joinBody
    have inRest := ihRest plain.joinRest fun x within => occurs x within.joinRest
    simp only [Exp.captured, functions, List.length_append, Nat.add_mul]
    omega
  | appExp name funName paramValues rest ih =>
    exact ih plain.appRest fun x within => occurs x within.appRest
  | bopExp name bop param1 param2 rest ih =>
    exact ih plain.bopRest fun x within => occurs x within.bopRest
  | ifExp cond thenBranch elseBranch ihThen ihElse =>
    have inThen := ihThen plain.thenBranch fun x within => occurs x within.thenBranch
    have inElse := ihElse plain.elseBranch fun x within => occurs x within.elseBranch
    simp only [Exp.captured, functions, List.length_append, Nat.add_mul]
    omega
  | tupleExp name values rest => cases plain.anf
  | projExp name tuple index rest => cases plain.anf

/-! ## Closure conversion -/

/-- The name is that of a closure parameter. -/
def IsClosure (pointer : Option Var) : Prop := ∀ x, pointer = some x → ∃ i, closureName i = x

/-- The size of what a term is hoisted into: its own body, and those of its functions. -/
def programSize (pointer : Option Var) (t : Exp) : Nat :=
  bodySize pointer t +
    ((functions t).map fun f => bodySize (closureParameter f.2.1) f.2.2).sum

/-- A captured name is read out of the record, by way of the pointer. -/
theorem bodySize_captures (closureParam : Var) (vars : List Var) (i : Nat) (body : Exp) :
    bodySize (some closureParam) (captures closureParam vars i body) =
      2 * vars.length + bodySize (some closureParam) body := by
  induction vars generalizing i body with
  | nil => exact (Nat.zero_add _).symm
  | cons var vars ih =>
    rw [captures, ih, bodySize, if_pos rfl, List.length_cons]
    omega

theorem closureParameter_of_notMem {param : Var} {params : List Var} (other : param ∉ params) :
    closureParameter (param :: params) = some param := by
  show params.foldl rebind (some param) = some param
  induction params with
  | nil => rfl
  | cons p params ih =>
    rcases not_or.mp (mt List.mem_cons.mpr other) with ⟨ne, others⟩
    rw [List.foldl_cons, rebind_of_ne (fun eq => ne (Option.some.inj eq))]
    exact ih others

/-- Closure conversion adds to the size of a term what its functions capture, four times. -/
theorem programSize_close {t : Exp} (mentions : Mentions (¬ Inserted ·) t) (anf : isAnf t = true)
    (c : Nat) {pointer : Option Var} (closure : IsClosure pointer) :
    programSize pointer (t.close c).1 = t.instructions + 4 * t.captured := by
  induction t generalizing c pointer with
  | haltExp value => rfl
  | jumpExp joinName slotValue => rfl
  | funExp name params body rest ihBody ihRest =>
    rcases mentions with ⟨others, mentionsBody, mentionsRest⟩
    rcases Bool.and_eq_true_iff.mp anf with ⟨anfBody, anfRest⟩
    have own : closureParameter (closureName c :: params) = some (closureName c) :=
      closureParameter_of_notMem fun member => others _ member ⟨c, .inl rfl⟩
    have ownClosure : IsClosure (some (closureName c)) := fun x eq => ⟨c, Option.some.inj eq⟩
    have ofBody := ihBody mentionsBody anfBody (c + 1 + rest.closes) ownClosure
    have ofRest := ihRest mentionsRest anfRest (c + 1) closure
    rw [Exp.close_funExp]
    simp only [programSize, functions, functions_captures, List.map_cons, List.map_append,
      List.sum_cons, List.sum_append, own, bodySize_captures, bodySize, List.length_cons,
      List.length_map, Exp.instructions, Exp.captured] at ofBody ofRest ⊢
    omega
  | joinExp name slot body rest ihBody ihRest =>
    rcases mentions with ⟨mentionsBody, mentionsRest⟩
    rcases Bool.and_eq_true_iff.mp anf with ⟨anfBody, anfRest⟩
    have ofBody := ihBody mentionsBody anfBody (c + rest.closes) closure
    have ofRest := ihRest mentionsRest anfRest c closure
    rw [Exp.close_joinExp]
    simp only [programSize, functions, List.map_append, List.sum_append, bodySize,
      Exp.instructions, Exp.captured] at ofBody ofRest ⊢
    omega
  | appExp name funName paramValues rest ih =>
    rcases mentions with ⟨notInserted, -, mentionsRest⟩
    have ofRest := ih mentionsRest (Bool.and_eq_true_iff.mp anf).2 (c + 1) closure
    -- neither the callee nor what is read out of its record is the pointer
    have callee : pointer ≠ some funName := fun eq => by
      rcases closure _ eq with ⟨i, rfl⟩
      exact notInserted ⟨i, .inl rfl⟩
    have target : pointer ≠ some (projName c) := fun eq => by
      rcases closure _ eq with ⟨i, same⟩
      exact closureName_ne_projName i c same
    simp only [Exp.close, programSize, functions, bodySize, if_neg callee, if_neg target,
      Exp.instructions, Exp.captured] at ofRest ⊢
    omega
  | bopExp name bop param1 param2 rest ih =>
    have ofRest := ih mentions.2.2 (Bool.and_eq_true_iff.mp anf).2 c closure
    simp only [Exp.close, programSize, functions, bodySize, Exp.instructions,
      Exp.captured] at ofRest ⊢
    omega
  | ifExp cond thenBranch elseBranch ihThen ihElse =>
    rcases mentions with ⟨-, mentionsThen, mentionsElse⟩
    rcases Bool.and_eq_true_iff.mp anf with ⟨anfCond, anfElse⟩
    have ofThen := ihThen mentionsThen (Bool.and_eq_true_iff.mp anfCond).2
      (c + elseBranch.closes) closure
    have ofElse := ihElse mentionsElse anfElse c closure
    rw [Exp.close_ifExp]
    simp only [programSize, functions, List.map_append, List.sum_append, bodySize,
      Exp.instructions, Exp.captured] at ofThen ofElse ⊢
    omega
  | tupleExp name values rest => cases anf
  | projExp name tuple index rest => cases anf

/-! ## Hoisting -/

/-- Hoisting moves bodies and copies none. -/
theorem functionSize_hoist (t : Exp) :
    ((hoist t).map functionSize).sum = programSize none t := by
  have ofFunction : ∀ f : Var × List Var × Exp, ∀ d, functionSize (functionOf f.1 f.2.1 f.2.2 d) =
      bodySize (closureParameter f.2.1) f.2.2 := fun f d =>
    (Splits.bodySize (splits_block f.2.2 d) _).symm
  have inOrder : (lifted t 0).map functionSize =
      (postorder t).map fun f => bodySize (closureParameter f.2.1) f.2.2 := by
    refine List.forall₂_eq_eq_eq ▸ ?_
    rw [List.forall₂_map_left_iff, List.forall₂_map_right_iff]
    refine ((lifted_postorder t 0).flip).imp fun fn f made => ?_
    rcases made with ⟨d, rfl⟩
    exact ofFunction f d
  have sameSum : ((lifted t 0).map functionSize).sum =
      ((functions t).map fun f => bodySize (closureParameter f.2.1) f.2.2).sum := by
    rw [inOrder]
    exact ((postorder_perm t).map _).sum_eq
  rw [hoist_eq, List.map_append, List.sum_append, sameSum, List.map_singleton,
    List.sum_singleton, ofFunction ("main", [], t) 0, programSize, Nat.add_comm]
  rfl

/-! ## Lowering -/

theorem mem_closureParameter {params : List Var} {x : Var}
    (isPointer : closureParameter params = some x) : x ∈ params := by
  cases params with
  | nil => cases isPointer
  | cons param params =>
    rcases fades_closureParameter param params with eq | eq
    · cases eq.symm.trans isPointer
      exact List.mem_cons_self
    · cases eq.symm.trans isPointer

/-- The hoisted functions have what counting their instructions asks for. -/
theorem Compilable.sized {t : Exp} (ready : Compilable t)
    (mentions : Mentions (¬ Inserted ·) t) : ∀ fn ∈ hoist (closureConvert t), Sized fn := by
  have cells := labelsInCells_close ready.plain.anf 0
  have calls := projected_close t 0
  have noPointer : PointerInserted none := fun _ eq => by cases eq
  rcases avoids_close mentions ready.plain.anf 0 noPointer with ⟨apartMain, aparts⟩
  intro fn member
  rcases ready.made fn member with ⟨f, inProgram, d, rfl, nodup, joinsNodup, joinsApart⟩
  have ofBody : projected none f.2.2 = true ∧ labelsInCells f.2.2 = true ∧
      avoids (closureParameter f.2.1) f.2.2 = true := by
    rcases List.mem_cons.mp inProgram with rfl | inFunctions
    · exact ⟨calls, cells, apartMain⟩
    · exact ⟨projected_functions calls f inFunctions, labelsInCells_functions cells f inFunctions,
        aparts f inFunctions⟩
  have hoisted :=
    hoisted_functionOf joinsNodup joinsApart (ready.closed_program.jumps f inProgram) d
  refine ⟨Hoisted.lowerable hoisted ofBody.1, Hoisted.labelsInCells hoisted ofBody.2.1,
    List.forall_mem_cons.mpr (Splits.avoids hoisted.splits ofBody.2.2), rfl, fun x bound eq => ?_⟩
  have different := List.nodup_append'.mp (nodup_boundBy f.1 d nodup)
  exact different.2.2 (mem_closureParameter eq) bound

/-! ## The whole compiler -/

/-- A closed program in order, whose parameters stay apart from each other and from the names the
passes make, is compiled to a constant number of instructions for each of its nodes and four for
each name that a function captures, and these are at most quadratic in the program. The builder is
taken to fold no operations and comparisons of constants. -/
theorem compile_instructions (e : Ast.Exp) (closed : e.Closed) (distinct : e.ParamsDistinct)
    (named : e.appliesInt = false) (inOrder : e.inOrder true = true) (counter : Nat) :
    ∃ t fns counter' M, convertDefunc (e.relabel Ast.suffixed id 0) counter = .ok (t, counter') ∧
      compile e counter = .ok (fns, counter') ∧ lowerModule fns = .ok M ∧
      (Emit.instructions M).length = e.instructions + 4 * t.captured + 1 ∧
      t.captured ≤ e.params.length * (e.params.length + e.draws) := by
  rcases compile_returns closed distinct named counter with
    ⟨t, counter', done, compiled, ready, size, -⟩
  have ran := convertDefunc_eq_ok.mp done
  have mentions := mentions_convert closed distinct.reserved ran
  have sized := ready.sized mentions
  rcases (lowers_iff (fun fn member => (sized fn member).lowerable) ready.functionNames.1).mpr
    ((Lower.defined_iff_inOrder closed distinct done).mpr inOrder) with ⟨M, lowered⟩
  refine ⟨t, _, counter', M, done, compiled, lowered, ?_, ?_⟩
  · rw [length_lowerModule sized ready.functionNames.1 lowered, functionSize_hoist]
    have noClosure : IsClosure none := fun _ eq => by cases eq
    have converted := programSize_close mentions ready.plain.anf 0 noClosure
    have fromSource : t.instructions = e.instructions + 1 := by
      rw [convert_around ran, instructions_around, instructions_relabel]
      rfl
    refine converted.trans ?_
    rw [fromSource]
    exact Nat.add_right_comm ..
  · have occurs : ∀ x, Occurs t x → x ∈ t.boundNames := by
      intro x occurs
      refine occurs.resolve_left fun free => ?_
      rw [ready.closed] at free
      cases free
    have lambdas : (functions t).length = e.params.length := by
      rw [convert_around ran, length_functions_around, length_params_relabel]
      rfl
    rw [← size, ← lambdas]
    exact captured_le ready.plain occurs

/-- `(fn x => fn y => x) 1`. The inner function captures `x`. -/
def constantOne : Ast.Exp := .appExp (.lamExp "x" (.lamExp "y" (.varExp "x"))) (.intExp 1)

theorem constantOne_distinct : constantOne.ParamsDistinct :=
  Ast.Exp.paramsDistinct_of_letters (by simp [constantOne, Ast.Exp.params]) (by decide)

theorem compile_instructions_constantOne : ∃ fns M, compile constantOne 0 = .ok (fns, 3) ∧
    lowerModule fns = .ok M ∧ (Emit.instructions M).length = 20 := by
  have ran : convertDefunc (constantOne.relabel Ast.suffixed id 0) 0 = .ok
      (.funExp "tmp1" ["x0"] (.funExp "tmp0" ["y1"] (.haltExp (.varValue "x0"))
        (.haltExp (.varValue "tmp0"))) (.appExp "tmp2" "tmp1" [.intValue 1]
          (.haltExp (.varValue "tmp2"))), 3) := by decide
  rcases compile_instructions constantOne (by decide) constantOne_distinct (by decide) (by decide) 0
    with ⟨t, fns, counter', M, done, compiled, lowered, size, -⟩
  cases ran.symm.trans done
  refine ⟨fns, M, compiled, lowered, size.trans ?_⟩
  decide

end Driver

end Lambcalc
