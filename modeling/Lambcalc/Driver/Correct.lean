import Lambcalc.Ast.Meaning
import Lambcalc.Driver.Compile
import Lambcalc.Driver.Names

/-!
# The compiler is correct

What `main` of `src/main.cpp` makes of an expression, up to the module it runs, means what the
expression means. The passes are put in a row: what each one asks of its input is shown of the
output of the ones before it, for a program whose parameters keep apart.
-/

namespace Lambcalc.Driver

open Lambcalc.Convert
open Anf Hoist Lower Emit Lib.Ir

/-! ## What the ANF pass leaves to the others -/

/-- A closed A-normal form with all that the later passes ask of it. -/
structure Compilable (t : Exp) : Prop where
  plain : Plain t
  closed : t.free = ∅
  joined : t.Joined []
  temporary : ∀ x ∈ t.introduced, ∃ i, tmp i = x
  distinct : t.introduced.Nodup

/-- The A-normal form of a program with distinct parameters has all the later passes ask for. -/
theorem compilable_convert {e : Ast.Exp} {n n' : Nat} {t : Exp} (closed : e.Closed)
    (distinct : e.ParamsDistinct)
    (ran : convert (e.relabel Ast.suffixed id 0) n = .ok (t, n')) : Compilable t := by
  rcases plain_convert closed distinct ran with ⟨apart, stillClosed, plain⟩
  have around := convert_around ran
  have introduced : t.introduced.Perm
      ((List.range' n (e.relabel Ast.suffixed id 0).draws).map tmp) := by
    have perm := introduced_around (e.relabel Ast.suffixed id 0) n 0
      (.haltExp ((e.relabel Ast.suffixed id 0).value n))
    rw [← around, Exp.introduced, List.append_nil] at perm
    exact perm.trans ((numbers_perm _ n).map tmp)
  refine ⟨plain, ?_, ?_, fun x member => ?_, ?_⟩
  · rw [Finset.eq_empty_iff_forall_notMem]
    intro x free
    rw [around, mem_free_haltExp apart n x, stillClosed] at free
    cases free
  · rw [around]
    exact joined_around _ n 0 trivial
  · rcases List.mem_map.mp (introduced.mem_iff.mp member) with ⟨i, -, eq⟩
    exact ⟨i, eq⟩
  · exact introduced.nodup_iff.mpr ((List.nodup_range' ..).map fun _ _ => tmp_injective)

theorem tmp_ne_malloc (i : Nat) : tmp i ≠ "malloc" := by
  intro eq
  have heads := congrArg (fun s : String => s.toList.head?) eq
  simp [tmp] at heads

namespace Compilable

variable {t : Exp}

theorem settled (ready : Compilable t) : Convert.Settled ∅ t 0 := by
  refine settled_of_closed ready.closed ready.plain.tidy.nodup fun x bound made => ?_
  rcases generated_later made with ⟨i, -, inserted⟩
  exact ready.plain.apart x (.inr bound) ⟨i, inserted⟩

theorem labels_nodup (ready : Compilable t) : (labels (closureConvert t)).Nodup := by
  unfold closureConvert
  rw [labels_close]
  exact ready.distinct.sublist (labels_introduced t)

/-- Labels are temporaries. -/
theorem notMem_labels (ready : Compilable t) {name : Var} (other : ∀ i, tmp i ≠ name) :
    name ∉ labels (closureConvert t) := by
  unfold closureConvert
  rw [labels_close]
  intro member
  rcases ready.temporary name ((labels_introduced t).subset member) with ⟨i, eq⟩
  exact other i eq

theorem joinNames_nodup (ready : Compilable t) : (joinNames (closureConvert t)).Nodup := by
  unfold closureConvert
  rw [joinNames_close]
  exact ready.distinct.sublist (joinNames_introduced t)

theorem joinNames_apart (ready : Compilable t) :
    ∀ x ∈ joinNames (closureConvert t), ¬ Generated x := by
  unfold closureConvert
  rw [joinNames_close]
  intro x member
  rcases ready.temporary x ((joinNames_introduced t).subset member) with ⟨i, rfl⟩
  exact not_generated_tmp i

/-- The conversion is a closed program. -/
theorem closed_program (ready : Compilable t) : Closed (closureConvert t) := by
  rcases readsBound_close ready.settled with ⟨reads, readsFun⟩
  rcases jumpsInScope_close ready.joined 0 with ⟨jumps, jumpsFun⟩
  refine ⟨List.forall_mem_cons.mpr ⟨reads, readsFun⟩, List.forall_mem_cons.mpr ⟨jumps, jumpsFun⟩,
    fun f member glob isGlob => ?_⟩
  unfold closureConvert
  rw [labels_close]
  exact globs_program ready.plain f member isGlob

theorem varsInScope_program (ready : Compilable t) : ∀ f ∈ program (closureConvert t),
    varsInScope (f.2.1 ++ bindings f.2.2) f.2.1 f.2.2 = true := by
  intro f member
  refine varsInScope_of_reads (ready.closed_program.reads f member)
    (fun x isParam => List.mem_toFinset.mp isParam) fun isMain => ?_
  exact ready.notMem_labels tmp_ne_main (ready.closed_program.globs f member "main" isMain)

/-! ## The passes -/

/-- Closure conversion keeps the meaning. -/
theorem returns_iff_yields (ready : Compilable t) (n : Word) :
    Returns t (.int n) ↔ Yields (closureConvert t) n := by
  have none : ∀ x, x ∉ t.free := fun x member => by
    rw [ready.closed] at member
    cases member
  have fresh : ∀ x, x ∈ t.free ∨ x ∈ t.boundNames → x ∉ t.generated 0 := fun x named =>
    ready.settled.fresh x (.inr (named.resolve_left (none x)))
  have inOrder : Ready (codeOf (closureConvert t)) t 0 :=
    ⟨ready.plain.tidy, ready.plain.anf, fresh, fun entry member =>
      lookup_of_mem (ready.plain.tidy.nodup.sublist (functions_close t 0)) member⟩
  have env : Convert.EnvRel (codeOf (closureConvert t)) [] t.free (fun _ => .none)
      (fun _ => .none) := fun x occurs => absurd occurs (none x)
  constructor
  · rintro ⟨fuel, evals⟩
    rcases run_of_eval evals inOrder env .nil with ⟨fuel', v', H', ran, rel, -⟩
    cases rel
    exact ⟨fuel', H', ran⟩
  · rintro ⟨fuel, H', ran⟩
    rcases (eval_of_run fuel inOrder env .nil).2 _ _ ran with ⟨fuel', v, evals, rel, -⟩
    cases rel
    exact ⟨fuel', evals⟩

/-- Hoisting keeps the meaning. -/
theorem yields_iff_blockYields (ready : Compilable t) (n : Word) :
    Yields (closureConvert t) n ↔ BlockYields (hoist (closureConvert t)) n := by
  have placed : ∀ f ∈ program (closureConvert t), ∀ d, (joinNames f.2.2).Sublist
      (joinNames (closureConvert t)) → Placed (f.2.1 ++ bindings f.2.2)
        (functionOf f.1 f.2.1 f.2.2 d) f.2.1 [] f.2.2 d := fun f member d within =>
    .of_function d (nodup_program ready.plain f member) (ready.closed_program.jumps f member)
      (ready.varsInScope_program f member) (ready.joinNames_nodup.sublist within)
      fun x isJoin => ready.joinNames_apart x (within.subset isJoin)
  have linked : Linked (codeOf (closureConvert t)) (hoist (closureConvert t)) := by
    intro label ne
    rcases findFunction_label ready.labels_nodup ne with unknown | ⟨params, body, d, member, known⟩
    · exact .inl unknown
    · exact .inr ⟨params, body, d, known.1, known.2,
        placed _ (List.mem_cons_of_mem _ member) d (joinNames_sublist _ member)⟩
  have main := findFunction_main (ready.notMem_labels tmp_ne_main)
  have bound : Env.bind (fun _ => none) [] [] = some (fun _ => (none : Option Convert.Val)) := rfl
  have start : Related ([] ++ bindings (closureConvert t))
      (functionOf "main" [] (closureConvert t) 0) [] (fun _ => none) (fun _ => none) [] []
      (closureConvert t) 0 :=
    .of_call (placed _ List.mem_cons_self 0 (.refl _)) bound
      (fun _ member => (List.not_mem_nil member).elim)
      fun _ member => (List.not_mem_nil member).elim
  constructor
  · rintro ⟨fuel, H, ran⟩
    rcases runBlock_of_run linked ran start with ⟨⟨fuel', ran'⟩, -⟩
    exact ⟨_, fuel', H, main, ran'⟩
  · rintro ⟨_, fuel, H, found, ran⟩
    cases found.symm.trans main
    rcases run_of_runBlock linked ran start with ⟨⟨fuel', ran'⟩, -⟩
    exact ⟨fuel', H, ran'⟩

/-- What is hoisted is made of the functions of the program. -/
theorem made (ready : Compilable t) : ∀ fn ∈ hoist (closureConvert t),
    ∃ f ∈ program (closureConvert t), ∃ d, fn = functionOf f.1 f.2.1 f.2.2 d ∧
      (f.2.1 ++ bindings f.2.2).Nodup ∧ (joinNames f.2.2).Nodup ∧
        ∀ x ∈ joinNames f.2.2, ¬ Generated x := by
  have within : ∀ f ∈ program (closureConvert t),
      (joinNames f.2.2).Sublist (joinNames (closureConvert t)) := by
    intro f member
    rcases List.mem_cons.mp member with rfl | inFunctions
    · exact .refl _
    · exact joinNames_sublist _ inFunctions
  intro fn member
  have made : ∃ f ∈ program (closureConvert t), ∃ d, fn = functionOf f.1 f.2.1 f.2.2 d := by
    rw [hoist_eq] at member
    rcases List.mem_append.mp member with inLifted | isMain
    · rcases functions_lifted _ 0 fn inLifted with ⟨f, inFunctions, d, eq⟩
      exact ⟨f, List.mem_cons_of_mem _ inFunctions, d, eq⟩
    · exact ⟨_, List.mem_cons_self, 0, List.mem_singleton.mp isMain⟩
  rcases made with ⟨f, inProgram, d, eq⟩
  exact ⟨f, inProgram, d, eq, nodup_program ready.plain f inProgram,
    ready.joinNames_nodup.sublist (within f inProgram),
    fun x isJoin => ready.joinNames_apart x ((within f inProgram).subset isJoin)⟩

theorem functionNames (ready : Compilable t) :
    ((hoist (closureConvert t)).map Function.name).Nodup ∧
      "malloc" ∉ (hoist (closureConvert t)).map Function.name := by
  have perm : ((hoist (closureConvert t)).map Function.name).Perm
      (labels (closureConvert t) ++ ["main"]) := by
    rw [hoist_eq, List.map_append]
    exact (names_lifted _ 0).append_right _
  refine ⟨perm.nodup_iff.mpr (List.nodup_append'.mpr ⟨ready.labels_nodup,
    List.nodup_singleton _, List.disjoint_singleton.mpr (ready.notMem_labels tmp_ne_main)⟩), ?_⟩
  rw [perm.mem_iff, List.mem_append, not_or]
  exact ⟨ready.notMem_labels tmp_ne_malloc, by decide⟩

/-- Lowering keeps the meaning, where it finds every name. -/
theorem lowers (ready : Compilable t) (small : t.boundNames.length + 1 < 2 ^ 61)
    (defined : ∀ fn ∈ hoist (closureConvert t), Lower.Defined fn) :
    ∃ M, lowerModule (hoist (closureConvert t)) = .ok M ∧ ∀ (m : Machine M) (n : Word),
      BlockYields (hoist (closureConvert t)) n → m.MainReturns n := by
  have orderly : ∀ fn ∈ hoist (closureConvert t), Orderly fn := by
    refine orderly_hoist ready.closed_program (projected_close t 0)
      (ready.notMem_labels tmp_ne_malloc) (fun f member size isSize => ?_) (fun fn member => ?_)
      fun fn member => ?_
    · exact (recordSizes_program ready.plain ready.closed f member size isSize).trans_lt small
    · rcases ready.made fn member with ⟨f, -, d, rfl, nodup, -⟩
      exact nodup_boundBy _ d nodup
    · rcases ready.made fn member with ⟨f, -, d, rfl, -, nodup, apart⟩
      exact nodup_functionOf d nodup apart
  rcases ready.functionNames with ⟨distinct, notMalloc⟩
  rcases (lowers_iff (fun fn member => (orderly fn member).lowerable) distinct).mpr defined with
    ⟨M, lowered⟩
  have links := links_lowerModule orderly distinct notMalloc lowered
  refine ⟨M, lowered, fun m n yields =>
    mainReturns_of_blockYields links (fun main found => ?_) m yields⟩
  rw [findFunction_main (ready.notMem_labels tmp_ne_main)] at found
  cases found
  rfl

end Compilable

/-! ## The compiler -/

/-- The ANF pass keeps the meaning of a program with no temporary among its parameters. -/
theorem eval_iff_returns {e : Ast.Exp} {n n' : Nat} {t : Exp} (closed : e.Closed)
    (params : ∀ x ∈ e.params, ∀ i, x ≠ tmp i) (ran : convert e n = .ok (t, n')) (w : Word) :
    Ast.Eval (fun _ => none) e (.int w) ↔ Returns t (.int w) := by
  have avoids : Avoids e n := .of_params closed fun x member i _ => params x member i
  constructor
  · intro run
    rcases eval_convertWith run ran (fun _ => .pure _) avoids (.of_closed closed _ fun _ => none)
      with ⟨tk, ρ', lands, back⟩
    rcases lands.halt with ⟨v', rel, halts⟩
    cases rel
    exact back [] 1 _ (halts [] 0)
  · rintro ⟨fuel, evals⟩
    rcases eval_of_convertWith fuel e ran (fun _ => .pure _) avoids (.of_closed closed _ _) evals
      with ⟨v, tk, ρ', run, lands, evalsHalt⟩
    rcases lands.halt with ⟨v', rel, halts⟩
    cases (halts [] fuel).symm.trans (eval_succ evalsHalt)
    cases rel
    exact run

/-- Renaming keeps the number of lambdas. -/
theorem length_params_relabel (label : String → Nat → String) (e : Ast.Exp) (σ : String → String)
    (i : Nat) : (e.relabel label σ i).params.length = e.params.length := by
  rw [(Ast.Exp.params_perm_visited _).length_eq, Ast.Exp.visited_relabel, List.length_map,
    List.length_zipIdx, (Ast.Exp.params_perm_visited e).length_eq]

section Programs

variable {e : Ast.Exp}

/-- What the passes make of a program comes from a term that means the same. -/
theorem compile_returns (closed : e.Closed) (distinct : e.ParamsDistinct)
    (named : e.appliesInt = false) (counter : Nat) :
    ∃ t counter', convertDefunc (e.relabel Ast.suffixed id 0) counter = .ok (t, counter') ∧
      compile e counter = .ok (hoist (closureConvert t), counter') ∧ Compilable t ∧
      t.boundNames.length = e.params.length + e.draws ∧
      ∀ n, Ast.Eval (fun _ => none) e (.int n) ↔ Returns t (.int n) := by
  let e' : Ast.Exp := e.relabel Ast.suffixed id 0
  have named' : e'.appliesInt = false := by rw [Ast.Exp.appliesInt_relabel, named]
  rcases convertWith_returns named' (fun _ _ => .pure _) counter with ⟨⟨t, counter'⟩, ran⟩
  have ran : convert e' counter = .ok (t, counter') := ran
  have done : convertDefunc e' counter = .ok (t, counter') := convertDefunc_eq_ok.mpr ran
  rcases plain_convert closed distinct ran with ⟨apart, stillClosed, plain⟩
  refine ⟨t, counter', done, ?_, compilable_convert closed distinct ran, ?_, fun n => ?_⟩
  · rw [compile_closed closed, done]
  · have bound := (boundNames_around e' counter 0 (.haltExp (e'.value counter))).length_eq
    rw [← convert_around ran, Exp.boundNames, List.append_nil, List.length_append, List.length_map,
      (numbers_perm e' counter).length_eq, List.length_range', draws_relabel] at bound
    rw [bound, length_params_relabel]
  · exact (Ast.eval_relabel_iff closed distinct.clash n).trans (eval_iff_returns stillClosed
      (fun x isParam => apart.1 x (Ast.Exp.params_subset _ isParam)) ran n)

/-- The passes up to `hoist` keep the meaning of a closed program that applies no literal and whose
parameters stay apart from each other and from the names the passes make: they end with functions
that return an integer exactly if the program evaluates to it. -/
theorem compile_preserves_meaning (e : Ast.Exp) (closed : e.Closed) (distinct : e.ParamsDistinct)
    (named : e.appliesInt = false) (counter : Nat) :
    ∃ fns counter', compile e counter = .ok (fns, counter') ∧
      ∀ n, Ast.Eval (fun _ => none) e (.int n) ↔ BlockYields fns n := by
  rcases compile_returns closed distinct named counter with
    ⟨t, counter', -, compiled, ready, -, means⟩
  exact ⟨_, counter', compiled, fun n =>
    (means n).trans ((ready.returns_iff_yields n).trans (ready.yields_iff_blockYields n))⟩

/-- Such a program, if it is in order and not too large, is lowered, and this keeps the meaning. -/
theorem compile_lowers (closed : e.Closed) (distinct : e.ParamsDistinct)
    (named : e.appliesInt = false) (inOrder : e.inOrder true = true)
    (small : e.params.length + e.draws + 1 < 2 ^ 61) (counter : Nat) :
    ∃ fns counter' M, compile e counter = .ok (fns, counter') ∧ lowerModule fns = .ok M ∧
      ∀ n, (Ast.Eval (fun _ => none) e (.int n) ↔ BlockYields fns n) ∧
        ∀ m : Machine M, BlockYields fns n → m.MainReturns n := by
  rcases compile_returns closed distinct named counter with
    ⟨t, counter', done, compiled, ready, size, means⟩
  have defined := (defined_iff_inOrder closed distinct done).mpr inOrder
  rcases ready.lowers (size ▸ small) defined with ⟨M, lowered, returns⟩
  refine ⟨_, counter', M, compiled, lowered, fun n => ⟨?_, fun m => returns m n⟩⟩
  exact (means n).trans ((ready.returns_iff_yields n).trans (ready.yields_iff_blockYields n))

/-- The compiler is correct: such a program is lowered to a module whose `main`, on every machine,
returns what the program evaluates to, or runs out of memory. -/
theorem main_returns_value (e : Ast.Exp) (closed : e.Closed) (distinct : e.ParamsDistinct)
    (named : e.appliesInt = false) (inOrder : e.inOrder true = true)
    (small : e.params.length + e.draws + 1 < 2 ^ 61) (counter : Nat) :
    ∃ fns counter' M, compile e counter = .ok (fns, counter') ∧ lowerModule fns = .ok M ∧
      ∀ (m : Machine M) (n : Word), Ast.Eval (fun _ => none) e (.int n) → m.MainReturns n := by
  rcases compile_lowers closed distinct named inOrder small counter with
    ⟨fns, counter', M, compiled, lowered, means⟩
  refine ⟨fns, counter', M, compiled, lowered, fun m n evaluates => ?_⟩
  exact (means n).2 m ((means n).1.mp evaluates)

end Programs

/-- `(fn x => x + 1) 1`. -/
def increment : Ast.Exp :=
  .appExp (.lamExp "x" (.bopExp .plus (.varExp "x") (.intExp 1))) (.intExp 1)

theorem increment_distinct : increment.ParamsDistinct :=
  Ast.Exp.paramsDistinct_of_letters (by simp [increment, Ast.Exp.params]) (by decide)

theorem eval_increment : Ast.Eval (fun _ => none) increment (.int 2) := by
  have two : Ast.Bop.plus.eval (.ofLiteral 1) (.ofLiteral 1) = 2 := by decide
  rw [← two]
  exact .appExp .lamExp .intExp (.bopExp (.varExp (Function.update_self ..)) .intExp)

theorem compile_preserves_meaning_increment :
    ∃ fns counter', compile increment 0 = .ok (fns, counter') ∧ BlockYields fns 2 := by
  rcases compile_preserves_meaning increment (by decide) increment_distinct (by decide) 0 with
    ⟨fns, counter', compiled, means⟩
  exact ⟨fns, counter', compiled, (means 2).mp eval_increment⟩

theorem main_returns_value_increment :
    ∃ fns counter' M, compile increment 0 = .ok (fns, counter') ∧ lowerModule fns = .ok M ∧
      ∀ m : Machine M, m.MainReturns 2 := by
  have small : increment.params.length + increment.draws + 1 < 2 ^ 61 := by
    simp [increment, Ast.Exp.params, Ast.Exp.draws]
  rcases main_returns_value increment (by decide) increment_distinct (by decide) (by decide) small
    0 with ⟨fns, counter', M, compiled, lowered, returns⟩
  exact ⟨fns, counter', M, compiled, lowered, fun m => returns m 2 eval_increment⟩

end Lambcalc.Driver
