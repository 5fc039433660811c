import Lambcalc.Ast.Rename
import Mathlib.Data.List.Nodup
import Mathlib.Data.List.Perm.Basic

/-!
# What renaming does to a tree

`Exp.relabel` is the recursion behind the worklist: every lambda is numbered as it is
visited, a node's later children before its earlier ones, and takes a new parameter made of
its old one and its number. `rename_eq_relabel` says that the loop of `rename` computes it.

The new names are the old ones with a decimal number appended, so two of them can meet. The
names of a closed tree come out pairwise distinct, and its binding structure intact, exactly
when no two lambdas are in a `SuffixClash`.
-/

namespace Lambcalc.Ast

namespace Exp

/-! ## The recursion -/

/-- The number of lambdas of `e`. -/
def lambdas : Exp → Nat
  | intExp _ => 0
  | varExp _ => 0
  | lamExp _ body => body.lambdas + 1
  | appExp fn arg => fn.lambdas + arg.lambdas
  | bopExp _ arg1 arg2 => arg1.lambdas + arg2.lambdas
  | ifExp cond then_ els => cond.lambdas + then_.lambdas + els.lambdas

/-- `e` with variables renamed by `σ` and the parameter of the lambda visited `i`-th replaced
by its `label`. -/
def relabel (label : String → Nat → String) : Exp → (String → String) → Nat → Exp
  | intExp value, _, _ => intExp value
  | varExp name, σ, _ => varExp (σ name)
  | lamExp param body, σ, i =>
    lamExp (label param i) (body.relabel label (Function.update σ param (label param i)) (i + 1))
  | appExp fn arg, σ, i => appExp (fn.relabel label σ (i + arg.lambdas)) (arg.relabel label σ i)
  | bopExp bop arg1 arg2, σ, i =>
    bopExp bop (arg1.relabel label σ (i + arg2.lambdas)) (arg2.relabel label σ i)
  | ifExp cond then_ els, σ, i =>
    ifExp (cond.relabel label σ (i + els.lambdas + then_.lambdas))
      (then_.relabel label σ (i + els.lambdas)) (els.relabel label σ i)

/-- The parameters of the lambdas of `e`, in the order they are visited. -/
def visited : Exp → List String
  | intExp _ => []
  | varExp _ => []
  | lamExp param body => param :: body.visited
  | appExp fn arg => arg.visited ++ fn.visited
  | bopExp _ arg1 arg2 => arg2.visited ++ arg1.visited
  | ifExp cond then_ els => els.visited ++ then_.visited ++ cond.visited

/-- Every lambda is visited once. -/
@[simp] theorem length_visited (e : Exp) : e.visited.length = e.lambdas := by
  induction e with
  | intExp => rfl
  | varExp => rfl
  | lamExp param body ih => simp [visited, lambdas, ih]
  | appExp fn arg ihFn ihArg => simp [visited, lambdas, ihFn, ihArg, Nat.add_comm]
  | bopExp bop arg1 arg2 ih1 ih2 => simp [visited, lambdas, ih1, ih2, Nat.add_comm]
  | ifExp cond then_ els ihCond ihThen ihEls =>
    simp only [visited, lambdas, List.length_append, ihCond, ihThen, ihEls]
    omega

/-- The parameters in the order of the visits are those in reading order, permuted. -/
theorem params_perm_visited (e : Exp) : e.params.Perm e.visited := by
  induction e with
  | intExp => exact .nil
  | varExp => exact .nil
  | lamExp param body ih => exact .cons param ih
  | appExp fn arg ihFn ihArg => exact (ihFn.append ihArg).trans List.perm_append_comm
  | bopExp bop arg1 arg2 ih1 ih2 => exact (ih1.append ih2).trans List.perm_append_comm
  | ifExp cond then_ els ihCond ihThen ihEls =>
    refine (List.perm_append_comm.trans (ihEls.append (ihCond.append ihThen))).trans ?_
    rw [visited, List.append_assoc]
    exact .append_left _ List.perm_append_comm

/-- The parameters of a relabelled tree are the labels in visit order. -/
theorem visited_relabel (label : String → Nat → String) (e : Exp) (σ : String → String)
    (i : Nat) :
    (e.relabel label σ i).visited = (e.visited.zipIdx i).map fun (p, j) => label p j := by
  induction e generalizing σ i with
  | intExp => rfl
  | varExp => rfl
  | lamExp param body ih => simp [relabel, visited, ih]
  | appExp fn arg ihFn ihArg => simp [relabel, visited, ihFn, ihArg, List.zipIdx_append]
  | bopExp bop arg1 arg2 ih1 ih2 => simp [relabel, visited, ih1, ih2, List.zipIdx_append]
  | ifExp cond then_ els ihCond ihThen ihEls =>
    simp [relabel, visited, ihCond, ihThen, ihEls, List.zipIdx_append, Nat.add_assoc]

/-- Relabelling makes no literals. -/
@[simp] theorem appliesInt_relabel (label : String → Nat → String) (e : Exp)
    (σ : String → String) (i : Nat) : (e.relabel label σ i).appliesInt = e.appliesInt := by
  induction e generalizing σ i with
  | intExp => rfl
  | varExp => rfl
  | lamExp param body ih => exact ih ..
  | appExp fn arg ihFn ihArg =>
    have fnSame := ihFn σ (i + arg.lambdas)
    cases fn with
    | intExp => rfl
    | _ => exact congrArg₂ (fun x y => (false || x) || y) fnSame (ihArg σ i)
  | bopExp bop arg1 arg2 ih1 ih2 => rw [relabel, appliesInt, appliesInt, ih1, ih2]
  | ifExp cond then_ els ihCond ihThen ihEls =>
    rw [relabel, appliesInt, appliesInt, ihCond, ihThen, ihEls]

end Exp

/-! ## The loop computes the recursion -/

/-- What `rename_` makes of a variable. -/
def RenameMap.apply (ρ : RenameMap) (name : String) : String := (ρ name).getD name

theorem RenameMap.apply_update (ρ : RenameMap) (param renamed : String) :
    RenameMap.apply (Function.update ρ param (some renamed)) =
      Function.update ρ.apply param renamed := by
  funext name
  by_cases eq : name = param
  · subst eq
    simp [RenameMap.apply]
  · simp [RenameMap.apply, Function.update_of_ne eq]

/-- Every free variable of `e` has an entry in `rename_`. -/
def RenameMap.Covers (ρ : RenameMap) (e : Exp) : Prop := ∀ x ∈ e.free, (ρ x).isSome

/-- Under a lambda, the map with its parameter covers the body. -/
theorem RenameMap.Covers.body {ρ : RenameMap} {param renamed : String} {body : Exp}
    (covers : ρ.Covers (.lamExp param body)) :
    RenameMap.Covers (Function.update ρ param (some renamed)) body := by
  intro x member
  by_cases eq : x = param
  · subst eq
    simp
  · rw [Function.update_of_ne eq]
    exact covers x (Finset.mem_erase.mpr ⟨eq, member⟩)

section Covering

variable {ρ : RenameMap} {bop : Bop} {e1 e2 e3 : Exp}

theorem RenameMap.Covers.fn (covers : ρ.Covers (.appExp e1 e2)) : ρ.Covers e1 :=
  fun x member => covers x (Finset.mem_union_left _ member)

theorem RenameMap.Covers.arg (covers : ρ.Covers (.appExp e1 e2)) : ρ.Covers e2 :=
  fun x member => covers x (Finset.mem_union_right _ member)

theorem RenameMap.Covers.arg1 (covers : ρ.Covers (.bopExp bop e1 e2)) : ρ.Covers e1 :=
  fun x member => covers x (Finset.mem_union_left _ member)

theorem RenameMap.Covers.arg2 (covers : ρ.Covers (.bopExp bop e1 e2)) : ρ.Covers e2 :=
  fun x member => covers x (Finset.mem_union_right _ member)

theorem RenameMap.Covers.cond (covers : ρ.Covers (.ifExp e1 e2 e3)) : ρ.Covers e1 :=
  fun x member => covers x (Finset.mem_union_left _ (Finset.mem_union_left _ member))

theorem RenameMap.Covers.then_ (covers : ρ.Covers (.ifExp e1 e2 e3)) : ρ.Covers e2 :=
  fun x member => covers x (Finset.mem_union_left _ (Finset.mem_union_right _ member))

theorem RenameMap.Covers.els (covers : ρ.Covers (.ifExp e1 e2 e3)) : ρ.Covers e3 :=
  fun x member => covers x (Finset.mem_union_right _ member)

end Covering

section Turns

variable {exp : Exp} {i : Nat} {ρ : RenameMap} {link : Path} {worklist : List RenameTask}

/-- A lambda is renamed, and its old entry is kept in a task below its body. -/
theorem Renamer.runs_lamExp {param : String} {body : Exp}
    (found : exp.get link = some (.lamExp param body)) :
    Lib.Runs step 1 ⟨exp, i, ρ, .node link :: worklist⟩
      ⟨exp.put link (.lamExp (suffixed param i) body), i + 1,
        Function.update ρ param (some (suffixed param i)),
        .node (link ++ [.body]) :: .restore param (ρ param) :: worklist⟩ := by
  refine .of_step ?_
  simp only [step, visit, found]

/-- The argument is visited before the function. -/
theorem Renamer.runs_appExp {fn arg : Exp} (found : exp.get link = some (.appExp fn arg)) :
    Lib.Runs step 1 ⟨exp, i, ρ, .node link :: worklist⟩
      ⟨exp, i, ρ, .node (link ++ [.arg]) :: .node (link ++ [.fn]) :: worklist⟩ := by
  refine .of_step ?_
  simp only [step, visit, found]

/-- The second operand is visited before the first. -/
theorem Renamer.runs_bopExp {bop : Bop} {arg1 arg2 : Exp}
    (found : exp.get link = some (.bopExp bop arg1 arg2)) :
    Lib.Runs step 1 ⟨exp, i, ρ, .node link :: worklist⟩
      ⟨exp, i, ρ, .node (link ++ [.arg2]) :: .node (link ++ [.arg1]) :: worklist⟩ := by
  refine .of_step ?_
  simp only [step, visit, found]

/-- The branches are visited last to first, and then the condition. -/
theorem Renamer.runs_ifExp {cond then_ els : Exp}
    (found : exp.get link = some (.ifExp cond then_ els)) :
    Lib.Runs step 1 ⟨exp, i, ρ, .node link :: worklist⟩
      ⟨exp, i, ρ, .node (link ++ [.els]) :: .node (link ++ [.then_]) ::
        .node (link ++ [.cond]) :: worklist⟩ := by
  refine .of_step ?_
  simp only [step, visit, found]

end Turns

/-- The turns spent on a node replace it by its relabelling, count its lambdas and leave
`rename_` as it was. -/
theorem Renamer.runs_node (e : Exp) {exp : Exp} {i : Nat} {ρ : RenameMap} {link : Path}
    {worklist : List RenameTask} (found : exp.get link = some e) (covers : ρ.Covers e) :
    Lib.Runs step e.turns ⟨exp, i, ρ, .node link :: worklist⟩
      ⟨exp.put link (e.relabel suffixed ρ.apply i), i + e.lambdas, ρ, worklist⟩ := by
  induction e generalizing exp i ρ link worklist with
  | intExp value =>
    refine .of_step ?_
    simp only [step, visit, found, Exp.relabel, Exp.put_get found]
    rfl
  | varExp name =>
    obtain ⟨renamed, entry⟩ := Option.isSome_iff_exists.mp
      (covers name (Finset.mem_singleton_self name))
    refine .of_step ?_
    simp only [step, visit, found, entry, Exp.relabel, RenameMap.apply, Option.getD_some]
    rfl
  | lamExp param body ih =>
    let renamed := suffixed param i
    let ρ' := Function.update ρ param (some renamed)
    have visits : Lib.Runs step 1 ⟨exp, i, ρ, .node link :: worklist⟩
        ⟨exp.put link (.lamExp renamed body), i + 1, ρ',
          .node (link ++ [.body]) :: .restore param (ρ param) :: worklist⟩ := runs_lamExp found
    have found' := Exp.get_put (.lamExp renamed body) found
    have restores : ∀ exp j, Lib.Runs step 1 ⟨exp, j, ρ', .restore param (ρ param) :: worklist⟩
        ⟨exp, j, ρ, worklist⟩ := by
      intro exp j
      refine .of_step ?_
      simp only [step, ρ', Function.update_idem, Function.update_eq_self]
    have runs := (visits.trans (ih (Exp.get_snoc found' rfl) covers.body)).trans (restores _ _)
    rw [Exp.put_snoc found' rfl, Exp.put_put, RenameMap.apply_update, Nat.add_assoc i,
      Nat.add_comm 1 body.lambdas, Nat.add_comm 1] at runs
    exact runs
  | appExp fn arg ihFn ihArg =>
    have runsArg : Lib.Runs step arg.turns
        ⟨exp, i, ρ, .node (link ++ [.arg]) :: .node (link ++ [.fn]) :: worklist⟩ _ :=
      ihArg (Exp.get_snoc found rfl) covers.arg
    rw [Exp.put_snoc found rfl] at runsArg
    have found' := Exp.get_put (.appExp fn (arg.relabel suffixed ρ.apply i)) found
    have runsFn : Lib.Runs step fn.turns
        ⟨_, i + arg.lambdas, ρ, .node (link ++ [.fn]) :: worklist⟩ _ :=
      ihFn (Exp.get_snoc found' rfl) covers.fn
    rw [Exp.put_snoc found' rfl, Exp.put_put, Nat.add_assoc, Nat.add_comm arg.lambdas] at runsFn
    exact ((runs_appExp found).trans runsArg).trans runsFn
  | bopExp bop arg1 arg2 ih1 ih2 =>
    have runs2 : Lib.Runs step arg2.turns
        ⟨exp, i, ρ, .node (link ++ [.arg2]) :: .node (link ++ [.arg1]) :: worklist⟩ _ :=
      ih2 (Exp.get_snoc found rfl) covers.arg2
    rw [Exp.put_snoc found rfl] at runs2
    have found' := Exp.get_put (.bopExp bop arg1 (arg2.relabel suffixed ρ.apply i)) found
    have runs1 : Lib.Runs step arg1.turns
        ⟨_, i + arg2.lambdas, ρ, .node (link ++ [.arg1]) :: worklist⟩ _ :=
      ih1 (Exp.get_snoc found' rfl) covers.arg1
    rw [Exp.put_snoc found' rfl, Exp.put_put, Nat.add_assoc, Nat.add_comm arg2.lambdas] at runs1
    exact ((runs_bopExp found).trans runs2).trans runs1
  | ifExp cond then_ els ihCond ihThen ihEls =>
    have runsEls : Lib.Runs step els.turns ⟨exp, i, ρ, .node (link ++ [.els]) ::
        .node (link ++ [.then_]) :: .node (link ++ [.cond]) :: worklist⟩ _ :=
      ihEls (Exp.get_snoc found rfl) covers.els
    rw [Exp.put_snoc found rfl] at runsEls
    have found' := Exp.get_put (.ifExp cond then_ (els.relabel suffixed ρ.apply i)) found
    have runsThen : Lib.Runs step then_.turns ⟨_, i + els.lambdas, ρ,
        .node (link ++ [.then_]) :: .node (link ++ [.cond]) :: worklist⟩ _ :=
      ihThen (Exp.get_snoc found' rfl) covers.then_
    rw [Exp.put_snoc found' rfl, Exp.put_put] at runsThen
    have found'' := Exp.get_put (.ifExp cond (then_.relabel suffixed ρ.apply
      (i + els.lambdas)) (els.relabel suffixed ρ.apply i)) found
    have runsCond : Lib.Runs step cond.turns ⟨_, i + els.lambdas + then_.lambdas, ρ,
        .node (link ++ [.cond]) :: worklist⟩ _ :=
      ihCond (Exp.get_snoc found'' rfl) covers.cond
    rw [Exp.put_snoc found'' rfl, Exp.put_put] at runsCond
    have runs := (((runs_ifExp found).trans runsEls).trans runsThen).trans runsCond
    have turns : cond.turns + (then_.turns + (els.turns + 1)) =
        (Exp.ifExp cond then_ els).turns := by
      simp only [Exp.turns]
      omega
    have counted : i + els.lambdas + then_.lambdas + cond.lambdas =
        i + (Exp.ifExp cond then_ els).lambdas := by
      simp only [Exp.lambdas]
      omega
    rw [turns, counted] at runs
    exact runs

/-- The occurrences in the text that no lambda binds, from left to right. -/
def Exp.freeOccurrences : Exp → List String
  | .intExp _ => []
  | .varExp name => [name]
  | .lamExp param body => body.freeOccurrences.filter (· ≠ param)
  | .appExp fn arg => fn.freeOccurrences ++ arg.freeOccurrences
  | .bopExp _ arg1 arg2 => arg1.freeOccurrences ++ arg2.freeOccurrences
  | .ifExp cond then_ els =>
    cond.freeOccurrences ++ (then_.freeOccurrences ++ els.freeOccurrences)

/-- Free occurrences are those of the free variables. -/
theorem Exp.mem_freeOccurrences {e : Exp} {x : String} : x ∈ e.freeOccurrences ↔ x ∈ e.free := by
  induction e with
  | intExp value => simp [freeOccurrences, free]
  | varExp name => simp [freeOccurrences, free]
  | lamExp param body ih => simp [freeOccurrences, free, ih, and_comm]
  | appExp fn arg ihFn ihArg => simp [freeOccurrences, free, ihFn, ihArg]
  | bopExp bop arg1 arg2 ih1 ih2 => simp [freeOccurrences, free, ih1, ih2]
  | ifExp cond then_ els ihCond ihThen ihEls =>
    simp [freeOccurrences, free, ihCond, ihThen, ihEls]

theorem Exp.closed_of_last {e : Exp} (last : e.freeOccurrences.getLast? = none) : e.Closed := by
  refine Finset.eq_empty_of_forall_notMem fun x member => ?_
  have occurs := Exp.mem_freeOccurrences.mpr member
  rw [List.getLast?_eq_none_iff.mp last] at occurs
  cases occurs

/-- The occurrences in the text that have no entry in `rename_`. -/
def RenameMap.missing (ρ : RenameMap) (e : Exp) : List String :=
  e.freeOccurrences.filter fun x => (ρ x).isNone

/-- Nothing is missing exactly if the map covers the tree. -/
theorem RenameMap.missing_eq_nil_iff {ρ : RenameMap} {e : Exp} :
    ρ.missing e = [] ↔ ρ.Covers e := by
  simp only [missing, List.filter_eq_nil_iff, Exp.mem_freeOccurrences, Covers,
    Bool.not_eq_true, Option.isNone_eq_false_iff]

/-- What is missing under a lambda is what the map with its parameter is missing. -/
theorem RenameMap.missing_lamExp {ρ : RenameMap} {param renamed : String} {body : Exp} :
    ρ.missing (.lamExp param body) =
      RenameMap.missing (Function.update ρ param (some renamed)) body := by
  unfold missing
  rw [Exp.freeOccurrences, List.filter_filter]
  refine List.filter_congr fun x _ => ?_
  by_cases eq : x = param
  · rw [eq, Function.update_self]
    simp
  · rw [Function.update_of_ne eq]
    simp [eq]

theorem last_of_append {l₁ l₂ : List String} {x : String} (last : (l₁ ++ l₂).getLast? = some x) :
    (l₂ = [] ∧ l₁.getLast? = some x) ∨ l₂.getLast? = some x := by
  cases l₂ with
  | nil => exact .inl ⟨rfl, by rwa [List.append_nil] at last⟩
  | cons y l₂ =>
    rw [List.getLast?_append_of_ne_nil _ (List.cons_ne_nil y l₂)] at last
    exact .inr last

/-- A node with a variable that has no entry in `rename_` makes the loop throw, within the turns
spent on it. Later children are visited first, so that the last such variable is reported. -/
theorem Renamer.throws_node (e : Exp) {exp : Exp} {i : Nat} {ρ : RenameMap} {link : Path}
    {worklist : List RenameTask} {name : String} (found : exp.get link = some e)
    (last : (ρ.missing e).getLast? = some name) :
    ∃ turns, turns ≤ e.turns ∧
      Lib.Stops step turns ⟨exp, i, ρ, .node link :: worklist⟩ (.threw ⟨name⟩) := by
  induction e generalizing exp i ρ link worklist with
  | intExp value => cases last
  | varExp name' =>
    have missing : ρ name' = none ∧ name' = name := by
      unfold RenameMap.missing at last
      cases entry : ρ name' with
      | none => simpa [Exp.freeOccurrences, entry] using last
      | some renamed => simp [Exp.freeOccurrences, entry] at last
    obtain ⟨missing, rfl⟩ := missing
    refine ⟨1, le_rfl, .of_step ?_⟩
    simp only [step, visit, found, missing]
  | lamExp param body ih =>
    rw [RenameMap.missing_lamExp] at last
    have found' := Exp.get_put (.lamExp (suffixed param i) body) found
    have foundBody : Exp.get _ (link ++ [.body]) = some body := Exp.get_snoc found' rfl
    obtain ⟨turns, le, stops⟩ := ih foundBody last
    exact ⟨_, by simp only [Exp.turns]; omega, (runs_lamExp found).stops stops⟩
  | appExp fn arg ihFn ihArg =>
    rw [RenameMap.missing, Exp.freeOccurrences, List.filter_append] at last
    obtain ⟨covers, last⟩ | last := last_of_append last
    · have runsArg : Lib.Runs step arg.turns
          ⟨exp, i, ρ, .node (link ++ [.arg]) :: .node (link ++ [.fn]) :: worklist⟩ _ :=
        runs_node arg (Exp.get_snoc found rfl) (RenameMap.missing_eq_nil_iff.mp covers)
      rw [Exp.put_snoc found rfl] at runsArg
      have found' := Exp.get_put (.appExp fn (arg.relabel suffixed ρ.apply i)) found
      have foundFn : Exp.get _ (link ++ [.fn]) = some fn := Exp.get_snoc found' rfl
      obtain ⟨turns, le, stops⟩ := ihFn foundFn last
      exact ⟨_, by simp only [Exp.turns]; omega,
        ((runs_appExp found).trans runsArg).stops stops⟩
    · have foundArg : exp.get (link ++ [.arg]) = some arg := Exp.get_snoc found rfl
      obtain ⟨turns, le, stops⟩ := ihArg foundArg last
      exact ⟨_, by simp only [Exp.turns]; omega, (runs_appExp found).stops stops⟩
  | bopExp bop arg1 arg2 ih1 ih2 =>
    rw [RenameMap.missing, Exp.freeOccurrences, List.filter_append] at last
    obtain ⟨covers, last⟩ | last := last_of_append last
    · have runs2 : Lib.Runs step arg2.turns
          ⟨exp, i, ρ, .node (link ++ [.arg2]) :: .node (link ++ [.arg1]) :: worklist⟩ _ :=
        runs_node arg2 (Exp.get_snoc found rfl) (RenameMap.missing_eq_nil_iff.mp covers)
      rw [Exp.put_snoc found rfl] at runs2
      have found' := Exp.get_put (.bopExp bop arg1 (arg2.relabel suffixed ρ.apply i)) found
      have found1 : Exp.get _ (link ++ [.arg1]) = some arg1 := Exp.get_snoc found' rfl
      obtain ⟨turns, le, stops⟩ := ih1 found1 last
      exact ⟨_, by simp only [Exp.turns]; omega,
        ((runs_bopExp found).trans runs2).stops stops⟩
    · have found2 : exp.get (link ++ [.arg2]) = some arg2 := Exp.get_snoc found rfl
      obtain ⟨turns, le, stops⟩ := ih2 found2 last
      exact ⟨_, by simp only [Exp.turns]; omega, (runs_bopExp found).stops stops⟩
  | ifExp cond then_ els ihCond ihThen ihEls =>
    rw [RenameMap.missing, Exp.freeOccurrences, List.filter_append, List.filter_append,
      ← List.append_assoc] at last
    obtain ⟨coversEls, last⟩ | last := last_of_append last
    · have runsEls : Lib.Runs step els.turns ⟨exp, i, ρ, .node (link ++ [.els]) ::
          .node (link ++ [.then_]) :: .node (link ++ [.cond]) :: worklist⟩ _ :=
        runs_node els (Exp.get_snoc found rfl) (RenameMap.missing_eq_nil_iff.mp coversEls)
      rw [Exp.put_snoc found rfl] at runsEls
      have found' := Exp.get_put (.ifExp cond then_ (els.relabel suffixed ρ.apply i)) found
      obtain ⟨coversThen, last⟩ | last := last_of_append last
      · have runsThen : Lib.Runs step then_.turns ⟨_, i + els.lambdas, ρ,
            .node (link ++ [.then_]) :: .node (link ++ [.cond]) :: worklist⟩ _ :=
          runs_node then_ (Exp.get_snoc found' rfl) (RenameMap.missing_eq_nil_iff.mp coversThen)
        rw [Exp.put_snoc found' rfl, Exp.put_put] at runsThen
        have found'' := Exp.get_put (.ifExp cond (then_.relabel suffixed ρ.apply
          (i + els.lambdas)) (els.relabel suffixed ρ.apply i)) found
        have foundCond : Exp.get _ (link ++ [.cond]) = some cond := Exp.get_snoc found'' rfl
        obtain ⟨turns, le, stops⟩ := ihCond foundCond last
        exact ⟨_, by simp only [Exp.turns]; omega,
          (((runs_ifExp found).trans runsEls).trans runsThen).stops stops⟩
      · have foundThen : Exp.get _ (link ++ [.then_]) = some then_ := Exp.get_snoc found' rfl
        obtain ⟨turns, le, stops⟩ := ihThen foundThen last
        exact ⟨_, by simp only [Exp.turns]; omega,
          ((runs_ifExp found).trans runsEls).stops stops⟩
    · have foundEls : exp.get (link ++ [.els]) = some els := Exp.get_snoc found rfl
      obtain ⟨turns, le, stops⟩ := ihEls foundEls last
      exact ⟨_, by simp only [Exp.turns]; omega, (runs_ifExp found).stops stops⟩

/-- On a closed tree `rename` returns the relabelled tree, with `rename_` empty again. -/
theorem rename_eq_relabel {e : Exp} (closed : e.Closed) :
    rename e = some (.returned (e.relabel suffixed id 0) fun _ => none) := by
  have covers : RenameMap.Covers (fun _ => none) e := by
    intro x member
    rw [closed] at member
    cases member
  have runs : Lib.Runs Renamer.step e.turns (Renamer.start e) _ :=
    Renamer.runs_node e rfl covers
  exact (runs.stops (.of_step rfl)).iterate (by omega)

/-- On any other tree it throws, and reports the last variable of the text that no lambda binds. -/
theorem rename_of_last {e : Exp} {name : String} (last : e.freeOccurrences.getLast? = some name) :
    rename e = some (.threw ⟨name⟩) := by
  have all : RenameMap.missing (fun _ => none) e = e.freeOccurrences :=
    List.filter_eq_self.mpr fun _ _ => rfl
  have root : e.get [] = some e := rfl
  obtain ⟨turns, le, stops⟩ := Renamer.throws_node e root (all ▸ last)
  exact stops.iterate (by omega)

/-- On a tree with a free variable, `rename` throws. -/
theorem rename_throws {e : Exp} (open_ : ¬ e.Closed) :
    ∃ error, rename e = some (.threw error) := by
  cases last : e.freeOccurrences.getLast? with
  | some name => exact ⟨⟨name⟩, rename_of_last last⟩
  | none => exact absurd (Exp.closed_of_last last) open_

/-- `rename` throws exactly on the trees that are not closed. -/
theorem rename_throws_iff {e : Exp} :
    (∃ error, rename e = some (.threw error)) ↔ ¬ e.Closed := by
  constructor
  · intro throws closed
    obtain ⟨error, threw⟩ := throws
    rw [rename_eq_relabel closed] at threw
    cases threw
  · exact rename_throws

/-- What `rename` reports is the last variable of the text that no lambda binds. -/
theorem rename_reports_last (e : Exp) (name : String) :
    rename e = some (.threw ⟨name⟩) ↔ e.freeOccurrences.getLast? = some name := by
  constructor
  · intro threw
    cases last : e.freeOccurrences.getLast? with
    | some name' =>
      cases threw.symm.trans (rename_of_last last)
      rfl
    | none => exact absurd (Exp.closed_of_last last) (rename_throws_iff.mp ⟨_, threw⟩)
  · exact rename_of_last

end Lambcalc.Ast
