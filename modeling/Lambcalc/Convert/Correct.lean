import Lambcalc.Anf.Semantics
import Lambcalc.Convert.ClosureConvert
import Lambcalc.Convert.Semantics

/-!
# Closure conversion preserves meaning

A closure is related to the address of a record that has its label and the values of its
captured variables, in an inductive relation `ValRel` that follows the environments of nested
closures. Heaps only grow, so a related address stays related. Records are never updated.

`run_of_eval` and `eval_of_run` are the two directions of the simulation. The second one also
shows, of runs that never finish as well, that every call passes the record of its callee and
that captured variables are read back with the values they had (`Faithful`).
-/

namespace Lambcalc.Convert

open Anf

/-! ## What the pass is given -/

/-- The operand is a literal or a variable. -/
def isAnfValue : Value → Bool
  | .globValue _ => false
  | _ => true

/-- The nodes the ANF pass produces: no record operations and no globals. -/
def isAnf : Exp → Bool
  | .haltExp value => isAnfValue value
  | .funExp _ _ body rest => isAnf body && isAnf rest
  | .joinExp _ _ body rest => isAnf body && isAnf rest
  | .jumpExp _ slotValue => slotValue.toList.all isAnfValue
  | .appExp _ _ paramValues rest => paramValues.all isAnfValue && isAnf rest
  | .bopExp _ _ param1 param2 rest => isAnfValue param1 && isAnfValue param2 && isAnf rest
  | .ifExp cond thenBranch elseBranch =>
    isAnfValue cond && isAnf thenBranch && isAnf elseBranch
  | .tupleExp _ _ _ => false
  | .projExp _ _ _ _ => false

/-- What is known of every subterm `t` the pass meets, with `counter_` at `c`: its names are
in order, none of those it inserts is among them, and `code` has its functions. -/
structure Ready (code : Code) (t : Exp) (c : Nat) : Prop where
  tidy : t.Tidy
  anf : isAnf t = true
  fresh : ∀ x, x ∈ t.free ∨ x ∈ t.boundNames → x ∉ t.generated c
  known : ∀ entry ∈ functions (t.close c).1, code entry.1 = some entry.2

section Parts

variable {code : Code} {c : Nat} {name fn : Var} {params : List Var} {slot : Option Var}
  {body rest : Exp} {values : List Value} {bop : Ast.Bop} {value1 value2 : Value}

theorem functions_captures (closureParam : Var) (vars : List Var) (i : Nat) (body : Exp) :
    functions (captures closureParam vars i body) = functions body := by
  induction vars generalizing i body with
  | nil => rfl
  | cons var vars ih => exact ih ..

theorem Ready.funBody (ready : Ready code (.funExp name params body rest) c) :
    Ready code body (c + 1 + rest.closes) := by
  refine ⟨ready.tidy.funBody, (Bool.and_eq_true_iff.mp ready.anf).1, fun x occurs made => ?_,
    fun entry member => ?_⟩
  · refine ready.fresh x ?_ (List.mem_cons_of_mem _ (List.mem_append_right _ made))
    simp only [Exp.free, Exp.boundNames, Finset.mem_union, Finset.mem_sdiff, List.mem_toFinset,
      List.mem_cons, List.mem_append]
    tauto
  · refine ready.known entry ?_
    rw [Exp.close_funExp, functions, functions_captures]
    exact List.mem_cons_of_mem _ (List.mem_append_left _ member)

theorem Ready.funRest (ready : Ready code (.funExp name params body rest) c) :
    Ready code rest (c + 1) := by
  refine ⟨ready.tidy.funRest, (Bool.and_eq_true_iff.mp ready.anf).2, fun x occurs made => ?_,
    fun entry member => ?_⟩
  · refine ready.fresh x ?_ (List.mem_cons_of_mem _ (List.mem_append_left _ made))
    simp only [Exp.free, Exp.boundNames, Finset.mem_union, Finset.mem_sdiff,
      Finset.mem_singleton, List.mem_cons, List.mem_append]
    tauto
  · refine ready.known entry ?_
    rw [Exp.close_funExp, functions]
    exact List.mem_cons_of_mem _ (List.mem_append_right _ member)

theorem Ready.joinBody (ready : Ready code (.joinExp name slot body rest) c) :
    Ready code body (c + rest.closes) := by
  refine ⟨ready.tidy.joinBody, (Bool.and_eq_true_iff.mp ready.anf).1, fun x occurs made => ?_,
    fun entry member => ?_⟩
  · refine ready.fresh x ?_ (List.mem_append_right _ made)
    simp only [Exp.free, Exp.boundNames, Finset.mem_union, Finset.mem_sdiff, List.mem_toFinset,
      List.mem_cons, List.mem_append]
    tauto
  · refine ready.known entry ?_
    rw [Exp.close_joinExp, functions]
    exact List.mem_append_left _ member

theorem Ready.joinRest (ready : Ready code (.joinExp name slot body rest) c) :
    Ready code rest c := by
  refine ⟨ready.tidy.joinRest, (Bool.and_eq_true_iff.mp ready.anf).2, fun x occurs made => ?_,
    fun entry member => ?_⟩
  · refine ready.fresh x ?_ (List.mem_append_left _ made)
    simp only [Exp.free, Exp.boundNames, Finset.mem_union, List.mem_cons, List.mem_append]
    tauto
  · refine ready.known entry ?_
    rw [Exp.close_joinExp, functions]
    exact List.mem_append_right _ member

theorem Ready.appRest (ready : Ready code (.appExp name fn values rest) c) :
    Ready code rest (c + 1) := by
  refine ⟨ready.tidy.appRest, (Bool.and_eq_true_iff.mp ready.anf).2, fun x occurs made => ?_,
    fun entry member => ready.known entry member⟩
  refine ready.fresh x ?_ (List.mem_cons_of_mem _ made)
  simp only [Exp.free, Exp.boundNames, Finset.mem_union, Finset.mem_sdiff,
    Finset.mem_singleton, List.mem_cons]
  tauto

theorem Ready.bopRest (ready : Ready code (.bopExp name bop value1 value2 rest) c) :
    Ready code rest c := by
  refine ⟨ready.tidy.bopRest, (Bool.and_eq_true_iff.mp ready.anf).2, fun x occurs made => ?_,
    fun entry member => ready.known entry member⟩
  refine ready.fresh x ?_ made
  simp only [Exp.free, Exp.boundNames, Finset.mem_union, Finset.mem_sdiff,
    Finset.mem_singleton, List.mem_cons]
  tauto

theorem Ready.thenBranch (ready : Ready code (.ifExp value1 body rest) c) :
    Ready code body (c + rest.closes) := by
  obtain ⟨anf, -⟩ := Bool.and_eq_true_iff.mp ready.anf
  refine ⟨ready.tidy.thenBranch, (Bool.and_eq_true_iff.mp anf).2, fun x occurs made => ?_,
    fun entry member => ?_⟩
  · refine ready.fresh x ?_ (List.mem_append_right _ made)
    simp only [Exp.free, Exp.boundNames, Finset.mem_union, List.mem_append]
    tauto
  · refine ready.known entry ?_
    rw [Exp.close_ifExp, functions]
    exact List.mem_append_left _ member

theorem Ready.elseBranch (ready : Ready code (.ifExp value1 body rest) c) :
    Ready code rest c := by
  refine ⟨ready.tidy.elseBranch, (Bool.and_eq_true_iff.mp ready.anf).2, fun x occurs made => ?_,
    fun entry member => ?_⟩
  · refine ready.fresh x ?_ (List.mem_append_left _ made)
    simp only [Exp.free, Exp.boundNames, Finset.mem_union, List.mem_append]
    tauto
  · refine ready.known entry ?_
    rw [Exp.close_ifExp, functions]
    exact List.mem_append_right _ member

end Parts

/-! ## Related values -/

/-- The cells of the record made for the function `name` that captures `vars`. -/
def closureCells (name : Var) (vars : List Var) (value : Var → Val) : Record :=
  (.globValue name, .label name) :: vars.map fun x => (.varValue x, value x)

/-- A closure and the address of its record. The functions `vs` and `vs'` name the values of
its free variables on both sides. -/
inductive ValRel (code : Code) (H : Heap) : Anf.Val → Val → Prop
  | int (n : Word) : ValRel code H (.int n) (.int n)
  | clos {ρ : Env Anf.Val} {params : List Var} {body : Exp} {a c : Nat} {name closureParam : Var}
      {vars : List Var} {vs : Var → Anf.Val} {vs' : Var → Val} :
    H[a]? = some (closureCells name vars vs') →
    code name = some (closureParam :: params, captures closureParam vars 1 (body.close c).1) →
    Ready code body c → closureParam ∉ vars → closureParam ∉ params →
    (∀ x ∈ params, x ∉ vars) →
    (∀ x ∈ body.free, x ∉ params → x ∈ vars) →
    (∀ x ∈ body.free, x ∉ params → ρ x = some (vs x)) →
    (∀ x ∈ body.free, x ∉ params → ValRel code H (vs x) (vs' x)) →
    ValRel code H (.clos ρ params body) (.addr a)

/-- A record stays where it is as the heap grows. -/
theorem allocated_mono {H H' : Heap} {a : Nat} {cells : Record} (allocated : H[a]? = some cells)
    (grows : H <+: H') : H'[a]? = some cells := by
  obtain ⟨more, rfl⟩ := grows
  rw [List.getElem?_append_left (List.getElem?_eq_some_iff.mp allocated).1, allocated]

theorem ValRel.heap {code : Code} {H H' : Heap} {v : Anf.Val} {v' : Val}
    (rel : ValRel code H v v') (grows : H <+: H') : ValRel code H' v v' := by
  induction rel with
  | int n => exact .int n
  | clos allocated known ready notVar notParam apart captured found _ ih =>
    exact .clos (allocated_mono allocated grows) known ready notVar notParam apart captured found
      ih

/-- Environments related on the variables of `dom`. -/
def EnvRel (code : Code) (H : Heap) (dom : Finset Var) (ρ : Env Anf.Val) (ρ' : Env Val) : Prop :=
  ∀ x ∈ dom, ∃ v v', ρ x = some v ∧ ρ' x = some v' ∧ ValRel code H v v'

/-- Join points related in the environments of their `JoinExp`s, up to the slot. -/
structure JoinRel (code : Code) (H : Heap) (join : JoinPoint Anf.Val) (join' : JoinPoint Val) :
    Prop where
  name : join'.name = join.name
  slot : join'.slot = join.slot
  body : ∃ c, join'.body = (join.body.close c).1 ∧ Ready code join.body c
  env : EnvRel code H (join.body.free \ join.slot.toList.toFinset) join.env join'.env

section Growing

variable {code : Code} {H H' : Heap} {dom : Finset Var} {ρ : Env Anf.Val} {ρ' : Env Val}

theorem EnvRel.mono {dom' : Finset Var} (rel : EnvRel code H dom ρ ρ') (sub : dom' ⊆ dom) :
    EnvRel code H dom' ρ ρ' :=
  fun x member => rel x (sub member)

theorem EnvRel.heap (rel : EnvRel code H dom ρ ρ') (grows : H <+: H') :
    EnvRel code H' dom ρ ρ' := by
  intro x member
  obtain ⟨v, v', found, found', related⟩ := rel x member
  exact ⟨v, v', found, found', related.heap grows⟩

/-- Binding one more name on both sides. -/
theorem EnvRel.set {name : Var} {v : Anf.Val} {v' : Val} (rel : EnvRel code H (dom \ {name}) ρ ρ')
    (related : ValRel code H v v') : EnvRel code H dom (ρ.set name v) (ρ'.set name v') := by
  intro x member
  by_cases eq : x = name
  · subst eq
    exact ⟨v, v', Env.set_self .., Env.set_self .., related⟩
  · rw [Env.set_of_ne eq, Env.set_of_ne eq]
    exact rel x (Finset.mem_sdiff.mpr ⟨member, by simpa using eq⟩)

/-- Binding a name of the output alone, which the input does not read. -/
theorem EnvRel.set_right {name : Var} (rel : EnvRel code H dom ρ ρ') (v' : Val)
    (notMem : name ∉ dom) : EnvRel code H dom ρ (ρ'.set name v') := by
  intro x member
  have ne : x ≠ name := fun eq => notMem (eq ▸ member)
  rw [Env.set_of_ne ne]
  exact rel x member

theorem JoinRel.heap {join : JoinPoint Anf.Val} {join' : JoinPoint Val}
    (rel : JoinRel code H join join') (grows : H <+: H') : JoinRel code H' join join' :=
  ⟨rel.name, rel.slot, rel.body, rel.env.heap grows⟩

theorem joinsRel_heap {joins : List (JoinPoint Anf.Val)} {joins' : List (JoinPoint Val)}
    (rel : List.Forall₂ (JoinRel code H) joins joins') (grows : H <+: H') :
    List.Forall₂ (JoinRel code H') joins joins' :=
  rel.imp fun _ _ related => related.heap grows

/-! ## Operands, join points and parameters -/

/-- An operand whose names are in the related part of the environments has related values. -/
theorem EnvRel.operand (rel : EnvRel code H dom ρ ρ') {value : Value}
    (anf : isAnfValue value = true) (names : ∀ x ∈ value.names, x ∈ dom) :
    ∃ v v', value.eval ρ = some v ∧ read ρ' value = some v' ∧ ValRel code H v v' := by
  cases value with
  | intValue value => exact ⟨_, _, rfl, rfl, .int _⟩
  | varValue var => exact rel var (names var (List.mem_singleton_self var))
  | globValue glob => cases anf

theorem EnvRel.operands (rel : EnvRel code H dom ρ ρ') {values : List Value}
    (anf : values.all isAnfValue = true) (names : ∀ x ∈ values.flatMap Value.names, x ∈ dom) :
    ∃ vs vs', values.mapM (Value.eval ρ) = some vs ∧ values.mapM (read ρ') = some vs' ∧
      List.Forall₂ (ValRel code H) vs vs' := by
  induction values with
  | nil => exact ⟨[], [], rfl, rfl, .nil⟩
  | cons value values ih =>
    obtain ⟨anfHead, anfTail⟩ := Bool.and_eq_true_iff.mp anf
    obtain ⟨v, v', eval, reads, related⟩ := rel.operand anfHead fun x member =>
      names x (List.mem_append_left _ member)
    obtain ⟨vs, vs', evals, readss, relateds⟩ := ih anfTail fun x member =>
      names x (List.mem_append_right _ member)
    exact ⟨v :: vs, v' :: vs', by simp [eval, evals], by simp [reads, readss],
      .cons related relateds⟩

/-- Related join points are found together. -/
theorem findJoin_rel {joins : List (JoinPoint Anf.Val)} {joins' : List (JoinPoint Val)}
    (rel : List.Forall₂ (JoinRel code H) joins joins') (name : Var) :
    (findJoin joins name = none ∧ findJoin joins' name = none) ∨
      ∃ join outer join' outer', findJoin joins name = some (join, outer) ∧
        findJoin joins' name = some (join', outer') ∧ JoinRel code H join join' ∧
        List.Forall₂ (JoinRel code H) outer outer' := by
  induction rel with
  | nil => exact .inl ⟨rfl, rfl⟩
  | @cons join join' joins joins' related relateds ih =>
    unfold findJoin
    rw [related.name]
    split
    · exact .inr ⟨join, joins, join', joins', rfl, rfl, related, relateds⟩
    · exact ih

/-- A slot is passed its value on both sides or on none. -/
theorem passSlot_rel {body : Exp} {slot : Option Var} {value : Option Value}
    (rel : EnvRel code H (body.free \ slot.toList.toFinset) ρ ρ') {σ : Env Anf.Val} {σ' : Env Val}
    (operands : EnvRel code H dom σ σ') (anf : value.toList.all isAnfValue = true)
    (names : ∀ x ∈ value.toList.flatMap Value.names, x ∈ dom) :
    ∃ v v', value.mapM (Value.eval σ) = some v ∧ value.mapM (read σ') = some v' ∧
      ((passSlot ρ slot v = none ∧ passSlot ρ' slot v' = none) ∨
        ∃ inner inner', passSlot ρ slot v = some inner ∧ passSlot ρ' slot v' = some inner' ∧
          EnvRel code H body.free inner inner') := by
  cases value with
  | none =>
    refine ⟨none, none, rfl, rfl, ?_⟩
    cases slot with
    | none => exact .inr ⟨ρ, ρ', rfl, rfl, rel.mono (by simp)⟩
    | some slot => exact .inl ⟨rfl, rfl⟩
  | some value =>
    have anfValue : isAnfValue value = true := by simpa using anf
    obtain ⟨v, v', eval, reads, related⟩ := operands.operand anfValue (by simpa using names)
    refine ⟨some v, some v', by rw [Option.mapM_some, eval]; rfl,
      by rw [Option.mapM_some, reads]; rfl, ?_⟩
    cases slot with
    | none => exact .inl ⟨rfl, rfl⟩
    | some slot => exact .inr ⟨_, _, rfl, rfl, EnvRel.set (rel.mono (by simp)) related⟩

/-- Parameters take related arguments on both sides or on none. Other names keep their
values. -/
theorem bind_rel {R : Anf.Val → Val → Prop} {params : List Var} {args : List Anf.Val}
    {args' : List Val} (rel : List.Forall₂ R args args') (ρ : Env Anf.Val) (ρ' : Env Val) :
    (Env.bind ρ params args = none ∧ Env.bind ρ' params args' = none) ∨
      ∃ inner inner', Env.bind ρ params args = some inner ∧
        Env.bind ρ' params args' = some inner' ∧
        (∀ x ∈ params, ∃ v v', inner x = some v ∧ inner' x = some v' ∧ R v v') ∧
        ∀ x ∉ params, inner x = ρ x ∧ inner' x = ρ' x := by
  induction rel generalizing params ρ ρ' with
  | nil =>
    cases params with
    | nil => exact .inr ⟨ρ, ρ', rfl, rfl, by simp, by simp⟩
    | cons param params => exact .inl ⟨rfl, rfl⟩
  | @cons v v' args args' related relateds ih =>
    cases params with
    | nil => exact .inl ⟨rfl, rfl⟩
    | cons param params =>
      rcases @ih params (ρ.set param v) (ρ'.set param v') with fails | binds
      · exact .inl fails
      · obtain ⟨inner, inner', bound, bound', inside, outside⟩ := binds
        refine .inr ⟨inner, inner', bound, bound', fun x member => ?_, fun x notMem => ?_⟩
        · by_cases later : x ∈ params
          · exact inside x later
          · obtain rfl : x = param := (List.mem_cons.mp member).resolve_right later
            obtain ⟨same, same'⟩ := outside x later
            exact ⟨v, v', by rw [same, Env.set_self], by rw [same', Env.set_self], related⟩
        · obtain ⟨ne, later⟩ := not_or.mp fun either => notMem (List.mem_cons.mpr either)
          obtain ⟨same, same'⟩ := outside x later
          exact ⟨by rw [same, Env.set_of_ne ne], by rw [same', Env.set_of_ne ne]⟩

end Growing

/-! ## Making and opening a closure -/

/-- The record `cells` is filled with the values of `vars`. -/
theorem fill_record {ρ : Env Val} {name : Var} {vars : List Var} {value : Var → Val}
    (found : ∀ x ∈ vars, ρ x = some (value x)) :
    (Value.globValue name :: vars.map .varValue).mapM (cell ρ) =
      some (closureCells name vars value) := by
  have filled : (vars.map Value.varValue).mapM (cell ρ) =
      some (vars.map fun x => (.varValue x, value x)) := by
    induction vars with
    | nil => rfl
    | cons x vars ih =>
      have head : cell ρ (.varValue x) = some (.varValue x, value x) := by
        simp [cell, read, found x List.mem_cons_self]
      have tail := ih fun y member => found y (List.mem_cons_of_mem _ member)
      simp [head, tail]
  have head : cell ρ (.globValue name) = some (.globValue name, .label name) := rfl
  simp [head, filled, closureCells]

/-- The environment in which `vars` have been read back. -/
def readBack (ρ : Env Val) (vars : List Var) (value : Var → Val) : Env Val :=
  fun x => if x ∈ vars then some (value x) else ρ x

theorem readBack_of_mem {ρ : Env Val} {vars : List Var} {value : Var → Val} {x : Var}
    (member : x ∈ vars) : readBack ρ vars value x = some (value x) := if_pos member

theorem readBack_of_notMem {ρ : Env Val} {vars : List Var} {value : Var → Val} {x : Var}
    (notMem : x ∉ vars) : readBack ρ vars value x = ρ x := if_neg notMem

theorem readBack_cons (ρ : Env Val) (x : Var) (vars : List Var) (value : Var → Val) :
    (readBack ρ vars value).set x (value x) = readBack ρ (x :: vars) value := by
  funext y
  by_cases eq : y = x
  · subst eq
    rw [Env.set_self, readBack_of_mem List.mem_cons_self]
  · rw [Env.set_of_ne eq]
    simp [readBack, eq]

section Captures

variable {code : Code} {ρ : Env Val} {joins : List (JoinPoint Val)} {H : Heap}
  {closureParam : Var} {a : Nat} {cells : Record} {value : Var → Val}

/-- The cells from index `i` on hold the values of `vars`. -/
def Holds (cells : Record) (i : Nat) (vars : List Var) (value : Var → Val) : Prop :=
  ∀ k x, vars[k]? = some x → cells[i + k]? = some (.varValue x, value x)

theorem Holds.tail {i : Nat} {x : Var} {vars : List Var} (holds : Holds cells i (x :: vars) value) :
    Holds cells (i + 1) vars value := by
  intro k y found
  have held := holds (k + 1) y (by simpa using found)
  rwa [Nat.add_right_comm, Nat.add_assoc]

theorem holds_closureCells (name : Var) (vars : List Var) (value : Var → Val) :
    Holds (closureCells name vars value) 1 vars value := by
  intro k x found
  simp [closureCells, Nat.add_comm 1 k, found]

/-- The projections in front of a body read the captured variables back. -/
theorem run_captures {vars : List Var} {i fuel : Nat} {body : Exp} {w : Val × Heap}
    (param : ρ closureParam = some (.addr a)) (allocated : H[a]? = some cells)
    (notVar : closureParam ∉ vars) (holds : Holds cells i vars value) :
    run code fuel ρ joins H (captures closureParam vars i body) = some w ↔
      ∃ n, fuel = n + vars.length ∧ run code n (readBack ρ vars value) joins H body = some w := by
  induction vars generalizing i body with
  | nil =>
    have same : readBack ρ [] value = ρ := funext fun x => readBack_of_notMem List.not_mem_nil
    simp [captures, same]
  | cons x vars ih =>
    obtain ⟨ne, notLater⟩ := not_or.mp fun either => notVar (List.mem_cons.mpr either)
    rw [captures, ih notLater holds.tail]
    have head := holds 0 x rfl
    have kept : readBack ρ vars value closureParam = some (.addr a) :=
      (readBack_of_notMem notLater).trans param
    constructor
    · rintro ⟨n, rfl, ran⟩
      obtain ⟨n, rfl⟩ := exists_succ_of_run ran
      obtain ⟨a', cells', operand, v, found, allocated', inRange, ran⟩ := run_projExp.mp ran
      cases found.symm.trans kept
      cases allocated'.symm.trans allocated
      cases inRange.symm.trans head
      rw [readBack_cons] at ran
      exact ⟨n, by rw [List.length_cons]; omega, ran⟩
    · rintro ⟨n, rfl, ran⟩
      rw [← readBack_cons] at ran
      exact ⟨n + 1, by rw [List.length_cons]; omega,
        run_projExp.mpr ⟨a, cells, _, _, kept, allocated, head, ran⟩⟩

/-- The projections at the start of a function read its captures back, one by one. -/
theorem faithful_captures {vars : List Var} {i fuel : Nat} {body : Exp}
    (param : ρ closureParam = some (.addr a)) (allocated : H[a]? = some cells)
    (notVar : closureParam ∉ vars) (holds : Holds cells i vars value)
    (faithful : ∀ n, fuel = n + vars.length →
      Faithful code n (readBack ρ vars value) joins H body) :
    Faithful code fuel ρ joins H (captures closureParam vars i body) := by
  induction vars generalizing i body with
  | nil =>
    have same : readBack ρ [] value = ρ := funext fun x => readBack_of_notMem List.not_mem_nil
    exact same ▸ faithful fuel rfl
  | cons x vars ih =>
    obtain ⟨ne, notLater⟩ := not_or.mp fun either => notVar (List.mem_cons.mpr either)
    have head := holds 0 x rfl
    have kept : readBack ρ vars value closureParam = some (.addr a) :=
      (readBack_of_notMem notLater).trans param
    refine ih notLater holds.tail fun n eq => ?_
    cases n with
    | zero => trivial
    | succ n =>
      intro a' cells' operand v found allocated' inRange
      cases found.symm.trans kept
      cases allocated'.symm.trans allocated
      cases inRange.symm.trans head
      rw [readBack_cons]
      exact ⟨.inr rfl, faithful n (by rw [List.length_cons]; omega)⟩

end Captures

section Closures

variable {code : Code} {H : Heap} {c : Nat} {name : Var} {params : List Var} {body rest : Exp}
  {ρ : Env Anf.Val} {ρ' : Env Val}

/-- The names of a converted function are apart from each other. -/
theorem Ready.fun_names (ready : Ready code (.funExp name params body rest) c) :
    closureName c ∉ (freeVars (.funExp name params body rest)).toList ∧
      closureName c ∉ params ∧
      ∀ x ∈ params, x ∉ (freeVars (.funExp name params body rest)).toList := by
  have made : closureName c ∈ (Exp.funExp name params body rest).generated c :=
    List.mem_cons_self
  refine ⟨fun member => ?_, fun member => ?_, fun x param member => ?_⟩
  · exact ready.fresh _ (.inl ((mem_freeVars ready.tidy).mp member)) made
  · exact ready.fresh _ (.inr (List.mem_cons_of_mem _ (by simp [member]))) made
  · exact ready.tidy.apart x ((mem_freeVars ready.tidy).mp member)
      (List.mem_cons_of_mem _ (by simp [param]))

/-- A function of the input is related to the record that its conversion makes. -/
theorem closure_rel (ready : Ready code (.funExp name params body rest) c)
    (env : EnvRel code H (Exp.funExp name params body rest).free ρ ρ') :
    ∃ cells, (Value.globValue name :: (freeVars (.funExp name params body rest)).toList.map
        .varValue).mapM (cell ρ') = some cells ∧
      ValRel code (H ++ [cells]) (.clos ρ params body) (.addr H.length) := by
  let vars := (freeVars (.funExp name params body rest)).toList
  let vs := fun x => (ρ x).getD (.int 0)
  let vs' := fun x => (ρ' x).getD (.int 0)
  have inVars : ∀ x ∈ body.free, x ∉ params → x ∈ vars := by
    intro x occurs notParam
    refine (mem_freeVars ready.tidy).mpr (Finset.mem_union_left _ ?_)
    exact Finset.mem_sdiff.mpr ⟨occurs, by simpa using notParam⟩
  have related : ∀ x ∈ vars, ρ x = some (vs x) ∧ ρ' x = some (vs' x) ∧
      ValRel code H (vs x) (vs' x) := by
    intro x member
    obtain ⟨v, v', found, found', rel⟩ := env x ((mem_freeVars ready.tidy).mp member)
    simp only [vs, vs', found, found', Option.getD_some, true_and]
    exact rel
  refine ⟨_, fill_record fun x member => (related x member).2.1, ?_⟩
  obtain ⟨notVar, notParam, apart⟩ := ready.fun_names
  have known := ready.known (name, _, _) (by rw [Exp.close_funExp]; exact List.mem_cons_self)
  have grows : H <+: H ++ [closureCells name vars vs'] := List.prefix_append ..
  exact @ValRel.clos code _ ρ params body H.length _ name _ vars vs vs'
    List.getElem?_concat_length known ready.funBody notVar notParam apart inVars
    (fun x occurs notParam => (related x (inVars x occurs notParam)).1)
    (fun x occurs notParam => (related x (inVars x occurs notParam)).2.2.heap grows)

/-- What a call of related closures with related arguments finds: the record, the code of its
label, and, once the parameters are bound, related environments behind the projections. -/
theorem ValRel.call {v' : Val} {args : List Anf.Val} {args' : List Val}
    (rel : ValRel code H (.clos ρ params body) v')
    (relArgs : List.Forall₂ (ValRel code H) args args') :
    ∃ a c label closureParam vars vs', v' = .addr a ∧
      H[a]? = some (closureCells label vars vs') ∧
      code label = some (closureParam :: params, captures closureParam vars 1 (body.close c).1) ∧
      Ready code body c ∧ closureParam ∉ vars ∧
      ((Env.bind ρ params args = none ∧
        Env.bind (fun _ => none) (closureParam :: params) (.addr a :: args') = none) ∨
      ∃ inner inner', Env.bind ρ params args = some inner ∧
        Env.bind (fun _ => none) (closureParam :: params) (.addr a :: args') = some inner' ∧
        inner' closureParam = some (.addr a) ∧
        EnvRel code H body.free inner (readBack inner' vars vs')) := by
  cases rel with
  | @clos _ _ _ a c label closureParam vars vs vs' allocated known ready notVar notParam apart
      captured found related =>
    refine ⟨a, c, label, closureParam, vars, vs', rfl, allocated, known, ready, notVar, ?_⟩
    rcases @bind_rel _ params _ _ relArgs ρ (Env.set (fun _ => none) closureParam (.addr a))
      with fails | ⟨inner, inner', bound, bound', inside, outside⟩
    · exact .inl fails
    · refine .inr ⟨inner, inner', bound, bound', ?_, fun x occurs => ?_⟩
      · rw [(outside closureParam notParam).2, Env.set_self]
      · by_cases param : x ∈ params
        · rw [readBack_of_notMem (apart x param)]
          exact inside x param
        · rw [readBack_of_mem (captured x occurs param), (outside x param).1]
          exact ⟨_, _, found x occurs param, rfl, related x occurs param⟩

end Closures

/-! ## The simulation -/

section Simulation

variable {code : Code}

theorem JoinRel.of_join {name : Var} {slot : Option Var} {body rest : Exp} {c : Nat} {H : Heap}
    {ρ : Env Anf.Val} {ρ' : Env Val} (ready : Ready code (.joinExp name slot body rest) c)
    (env : EnvRel code H (Exp.joinExp name slot body rest).free ρ ρ') :
    JoinRel code H ⟨name, slot, ρ, body⟩ ⟨name, slot, ρ', (body.close (c + rest.closes)).1⟩ :=
  ⟨rfl, rfl, ⟨_, rfl, ready.joinBody⟩, env.mono Finset.subset_union_left⟩

theorem Ready.app_names {name funName : Var} {paramValues : List Value} {rest : Exp} {c : Nat}
    (ready : Ready code (.appExp name funName paramValues rest) c) :
    funName ≠ projName c ∧ (∀ x ∈ paramValues.flatMap Value.names, x ≠ projName c) ∧
      projName c ∉ rest.free \ {name} := by
  have made : projName c ∈ (Exp.appExp name funName paramValues rest).generated c :=
    List.mem_cons_self
  have fresh : ∀ x, x ∈ (Exp.appExp name funName paramValues rest).free → x ≠ projName c :=
    fun x occurs eq => ready.fresh x (.inl occurs) (eq ▸ made)
  refine ⟨fresh _ ?_, fun x member => fresh x ?_, fun member => fresh _ ?_ rfl⟩
  · exact Finset.mem_union_left _ (by simp)
  · exact Finset.mem_union_left _ (List.mem_toFinset.mpr (List.mem_cons_of_mem _ member))
  · exact Finset.mem_union_right _ member

theorem read_set {ρ : Env Val} {y : Var} {v : Val} {value : Value}
    (ne : ∀ x ∈ value.names, x ≠ y) : read (ρ.set y v) value = read ρ value := by
  cases value with
  | varValue var => exact Env.set_of_ne (ne var (List.mem_singleton_self var)) ..
  | _ => rfl

theorem mapM_read_set {ρ : Env Val} {y : Var} {v : Val} {values : List Value}
    (ne : ∀ x ∈ values.flatMap Value.names, x ≠ y) :
    values.mapM (read (ρ.set y v)) = values.mapM (read ρ) := by
  induction values with
  | nil => rfl
  | cons value values ih =>
    rw [List.mapM_cons, List.mapM_cons,
      read_set fun x member => ne x (List.mem_append_left _ member),
      ih fun x member => ne x (List.mem_append_right _ member)]

section Calling

variable {name funName closureParam : Var} {paramValues : List Value} {rest code' : Exp}
  {params vars : List Var} {vs' : Var → Val} {c a : Nat} {ρ' : Env Val} {H : Heap}
  {args' : List Val}

/-- A converted application passes the record whose label it calls, before the arguments. -/
theorem Ready.app_arguments (ready : Ready code (.appExp name funName paramValues rest) c)
    (label : Var) (found : ρ' funName = some (.addr a))
    (values : paramValues.mapM (read ρ') = some args') :
    (Value.varValue funName :: paramValues).mapM (read (ρ'.set (projName c) (.label label))) =
      some (.addr a :: args') := by
  obtain ⟨notFun, notArgs, -⟩ := ready.app_names
  have head : read (ρ'.set (projName c) (.label label)) (.varValue funName) = some (.addr a) :=
    (Env.set_of_ne notFun ..).trans found
  rw [List.mapM_cons, head, mapM_read_set notArgs, values]
  rfl

/-- The two nodes of a converted application call the code of the record. -/
theorem Ready.run_app (ready : Ready code (.appExp name funName paramValues rest) c)
    {label : Var} (found : ρ' funName = some (.addr a))
    (values : paramValues.mapM (read ρ') = some args')
    (allocated : H[a]? = some (closureCells label vars vs'))
    (known : code label = some (closureParam :: params, code')) {fuel : Nat}
    {joins' : List (JoinPoint Val)} {w : Val × Heap} :
    run code (fuel + 2) ρ' joins' H ((Exp.appExp name funName paramValues rest).close c).1 =
        some w ↔
      ∃ inner' u' H₁, Env.bind (fun _ => none) (closureParam :: params) (.addr a :: args') =
          some inner' ∧ run code fuel inner' [] H code' = some (u', H₁) ∧
        run code fuel ((ρ'.set (projName c) (.label label)).set name u') joins' H₁
          (rest.close (c + 1)).1 = some w := by
  have arguments := ready.app_arguments label found values
  have target : callee (ρ'.set (projName c) (Val.label label)) (projName c) = some label :=
    callee_of_label (Env.set_self ..)
  rw [Exp.close, run_projExp]
  constructor
  · rintro ⟨a', cells, operand, v, found', allocated', inRange, ran⟩
    cases found'.symm.trans found
    cases allocated'.symm.trans allocated
    cases inRange
    obtain ⟨_, _, _, args, inner', u', H₁, target', known', values', bound, ranBody, ranRest⟩ :=
      run_appExp.mp ran
    cases target'.symm.trans target
    cases known'.symm.trans known
    cases values'.symm.trans arguments
    exact ⟨inner', u', H₁, bound, ranBody, ranRest⟩
  · rintro ⟨inner', u', H₁, bound, ranBody, ranRest⟩
    exact ⟨a, _, _, _, found, allocated, rfl, run_appExp.mpr
      ⟨_, _, _, _, inner', u', H₁, target, known, arguments, bound, ranBody, ranRest⟩⟩

end Calling

/-- An operand that is an integer is the same integer in the output. -/
theorem EnvRel.int_operand {H : Heap} {dom : Finset Var} {ρ : Env Anf.Val} {ρ' : Env Val}
    {value : Value} (env : EnvRel code H dom ρ ρ') (anf : isAnfValue value = true)
    (names : ∀ x ∈ value.names, x ∈ dom) (n : Word) :
    value.eval ρ = some (.int n) ↔ read ρ' value = some (.int n) := by
  obtain ⟨v, v', evals, reads, related⟩ := env.operand anf names
  rw [evals, reads, Option.some_inj, Option.some_inj]
  constructor
  · rintro rfl
    cases related
    rfl
  · rintro rfl
    cases related
    rfl

theorem EnvRel.bop_operands {H : Heap} {ρ : Env Anf.Val} {ρ' : Env Val} {name : Var}
    {bop : Ast.Bop} {param1 param2 : Value} {rest : Exp} {c : Nat}
    (env : EnvRel code H (Exp.bopExp name bop param1 param2 rest).free ρ ρ')
    (ready : Ready code (.bopExp name bop param1 param2 rest) c) (m n : Word) :
    (param1.eval ρ = some (.int m) ↔ read ρ' param1 = some (.int m)) ∧
      (param2.eval ρ = some (.int n) ↔ read ρ' param2 = some (.int n)) := by
  obtain ⟨anf, -⟩ := Bool.and_eq_true_iff.mp ready.anf
  obtain ⟨anf1, anf2⟩ := Bool.and_eq_true_iff.mp anf
  constructor
  · refine env.int_operand anf1 (fun x member => Finset.mem_union_left _ ?_) m
    exact List.mem_toFinset.mpr (List.mem_append_left _ member)
  · refine env.int_operand anf2 (fun x member => Finset.mem_union_left _ ?_) n
    exact List.mem_toFinset.mpr (List.mem_append_right _ member)

theorem EnvRel.condition {H : Heap} {ρ : Env Anf.Val} {ρ' : Env Val} {cond : Value}
    {thenBranch elseBranch : Exp} {c : Nat}
    (env : EnvRel code H (Exp.ifExp cond thenBranch elseBranch).free ρ ρ')
    (ready : Ready code (.ifExp cond thenBranch elseBranch) c) (n : Word) :
    cond.eval ρ = some (.int n) ↔ read ρ' cond = some (.int n) := by
  obtain ⟨anf, -⟩ := Bool.and_eq_true_iff.mp ready.anf
  refine env.int_operand (Bool.and_eq_true_iff.mp anf).1 (fun x member => ?_) n
  exact Finset.mem_union_left _ (Finset.mem_union_left _ (List.mem_toFinset.mpr member))

/-- What the input returns, the output returns. -/
theorem run_of_eval {fuel : Nat} {t : Exp} {c : Nat} {ρ : Env Anf.Val} {ρ' : Env Val}
    {joins : List (JoinPoint Anf.Val)} {joins' : List (JoinPoint Val)} {H : Heap} {v : Anf.Val}
    (ran : eval fuel ρ joins t = some v) (ready : Ready code t c)
    (env : EnvRel code H t.free ρ ρ') (rel : List.Forall₂ (JoinRel code H) joins joins') :
    ∃ fuel' v' H', run code fuel' ρ' joins' H (t.close c).1 = some (v', H') ∧
      ValRel code H' v v' ∧ H <+: H' := by
  induction fuel generalizing t c ρ ρ' joins joins' H v with
  | zero => cases ran
  | succ fuel ih =>
    cases t with
    | haltExp value =>
      obtain ⟨u, u', evals, reads, related⟩ := env.operand ready.anf fun x member =>
        List.mem_toFinset.mpr member
      cases evals.symm.trans ran
      exact ⟨1, u', H, by simp [Exp.close, run, reads], related, List.prefix_rfl⟩
    | funExp name params body rest =>
      obtain ⟨cells, filled, related⟩ := closure_rel ready env
      have grows : H <+: H ++ [cells] := List.prefix_append ..
      obtain ⟨fuel', v', H', ran', relV, grows'⟩ := ih ran ready.funRest
        (EnvRel.set ((env.mono Finset.subset_union_right).heap grows) related)
        (joinsRel_heap rel grows)
      refine ⟨fuel' + 2, v', H', ?_, relV, grows.trans grows'⟩
      rw [Exp.close_funExp, run]
      exact run_tupleExp.mpr ⟨cells, filled, ran'⟩
    | joinExp name slot body rest =>
      obtain ⟨fuel', v', H', ran', relV, grows⟩ := ih ran ready.joinRest
        (env.mono Finset.subset_union_right) (.cons (.of_join ready env) rel)
      refine ⟨fuel' + 1, v', H', ?_, relV, grows⟩
      rw [Exp.close_joinExp, run]
      exact ran'
    | jumpExp joinName slotValue =>
      obtain ⟨join, outer, value, inner, found, passed, entered, ran⟩ := eval_jumpExp.mp ran
      rcases findJoin_rel rel joinName with fails | ⟨_, _, join', outer', found₁, found', relJoin,
        relOuter⟩
      · cases fails.1.symm.trans found
      · cases found₁.symm.trans found
        obtain ⟨d, body', readyBody⟩ := relJoin.body
        obtain ⟨value₁, value', passed₁, passed', slots⟩ := passSlot_rel relJoin.env env
          ready.anf fun x member => List.mem_toFinset.mpr member
        cases passed₁.symm.trans passed
        rcases slots with fails | ⟨_, inner', entered₁, entered', relInner⟩
        · cases fails.1.symm.trans entered
        · cases entered₁.symm.trans entered
          obtain ⟨fuel', v', H', ran', relV, grows⟩ := ih ran readyBody relInner relOuter
          refine ⟨fuel' + 1, v', H', ?_, relV, grows⟩
          rw [Exp.close, run_jumpExp]
          exact ⟨join', outer', value', inner', found', passed', relJoin.slot ▸ entered',
            body' ▸ ran'⟩
    | appExp name funName paramValues rest =>
      obtain ⟨ρf, params, body, args, inner, u, callee, values, bound, ranBody, ranRest⟩ :=
        eval_appExp.mp ran
      obtain ⟨f, f', found, found', relF⟩ := env funName (Finset.mem_union_left _ (by simp))
      cases found.symm.trans callee
      obtain ⟨args₁, args', values₁, values', relArgs⟩ := env.operands
        (Bool.and_eq_true_iff.mp ready.anf).1 fun x member => Finset.mem_union_left _
          (List.mem_toFinset.mpr (List.mem_cons_of_mem _ member))
      cases values₁.symm.trans values
      obtain ⟨a, d, label, closureParam, vars, vs', rfl, allocated, known, readyBody, notVar,
        calls⟩ :=
        relF.call relArgs
      rcases calls with fails | ⟨_, inner', bound₁, bound', own, relInner⟩
      · cases fails.1.symm.trans bound
      · cases bound₁.symm.trans bound
        obtain ⟨fuelBody, u', H₁, ranBody', relU, grows₁⟩ := ih ranBody readyBody relInner .nil
        have ranCall := (run_captures own allocated notVar
          (holds_closureCells label vars vs')).mpr ⟨fuelBody, rfl, ranBody'⟩
        obtain ⟨-, -, notRest⟩ := ready.app_names
        obtain ⟨fuelRest, v', H₂, ranRest', relV, grows₂⟩ := ih ranRest ready.appRest
          (EnvRel.set (((env.mono Finset.subset_union_right).heap grows₁).set_right
            (.label label) notRest) relU) (joinsRel_heap rel grows₁)
        have ran' := (ready.run_app found' values' allocated known).mpr ⟨inner', u', H₁, bound',
          run_mono (le_max_left ..) ranCall, run_mono (le_max_right ..) ranRest'⟩
        exact ⟨_, v', H₂, ran', relV, grows₁.trans grows₂⟩
    | bopExp name bop param1 param2 rest =>
      obtain ⟨m, n, value1, value2, ran⟩ := eval_bopExp.mp ran
      obtain ⟨same1, same2⟩ := env.bop_operands ready m n
      obtain ⟨fuel', v', H', ran', relV, grows⟩ := ih ran ready.bopRest
        (EnvRel.set (env.mono Finset.subset_union_right) (.int (bop.eval m n))) rel
      exact ⟨fuel' + 1, v', H', run_bopExp.mpr ⟨m, n, same1.mp value1, same2.mp value2, ran'⟩,
        relV, grows⟩
    | ifExp cond thenBranch elseBranch =>
      obtain ⟨n, value, ran⟩ := eval_ifExp.mp ran
      have reads := (env.condition ready n).mp value
      by_cases zero : n = 0
      · rw [if_pos zero] at ran
        obtain ⟨fuel', v', H', ran', relV, grows⟩ := ih ran ready.elseBranch
          (env.mono Finset.subset_union_right) rel
        refine ⟨fuel' + 1, v', H', ?_, relV, grows⟩
        rw [Exp.close_ifExp, run_ifExp]
        exact ⟨n, reads, by rwa [if_pos zero]⟩
      · rw [if_neg zero] at ran
        obtain ⟨fuel', v', H', ran', relV, grows⟩ := ih ran ready.thenBranch
          (env.mono (Finset.subset_union_right.trans Finset.subset_union_left)) rel
        refine ⟨fuel' + 1, v', H', ?_, relV, grows⟩
        rw [Exp.close_ifExp, run_ifExp]
        exact ⟨n, reads, by rwa [if_neg zero]⟩
    | tupleExp name values rest => cases ran
    | projExp name tuple index rest => cases ran

/-- The output runs faithfully, and what it returns, the input returns. The induction is on the
fuel of the output, whose calls and captures take several steps for one of the input's. -/
theorem eval_of_run (fuel : Nat) {t : Exp} {c : Nat} {ρ : Env Anf.Val} {ρ' : Env Val}
    {joins : List (JoinPoint Anf.Val)} {joins' : List (JoinPoint Val)} {H : Heap}
    (ready : Ready code t c) (env : EnvRel code H t.free ρ ρ')
    (rel : List.Forall₂ (JoinRel code H) joins joins') :
    Faithful code fuel ρ' joins' H (t.close c).1 ∧
      ∀ v' H', run code fuel ρ' joins' H (t.close c).1 = some (v', H') →
        ∃ fuel' v, eval fuel' ρ joins t = some v ∧ ValRel code H' v v' ∧ H <+: H' := by
  induction fuel using Nat.strong_induction_on generalizing t c ρ ρ' joins joins' H with
  | _ fuel ih =>
  cases fuel with
  | zero => exact ⟨trivial, fun v' H' ran => absurd ran (Option.some_ne_none _).symm⟩
  | succ fuel =>
    cases t with
    | haltExp value =>
      refine ⟨trivial, fun v' H' ran => ?_⟩
      obtain ⟨u, u', evals, reads, related⟩ := env.operand ready.anf fun x member =>
        List.mem_toFinset.mpr member
      rw [Exp.close, run, reads] at ran
      cases ran
      exact ⟨1, u, evals, related, List.prefix_rfl⟩
    | funExp name params body rest =>
      obtain ⟨cells, filled, related⟩ := closure_rel ready env
      have grows : H <+: H ++ [cells] := List.prefix_append ..
      have env' := EnvRel.set ((env.mono Finset.subset_union_right).heap grows) related
      rw [Exp.close_funExp, run]
      cases fuel with
      | zero => exact ⟨trivial, fun v' H' ran => absurd ran (Option.some_ne_none _).symm⟩
      | succ fuel =>
        obtain ⟨faithful, back⟩ := ih fuel (by omega) ready.funRest env' (joinsRel_heap rel grows)
        constructor
        · intro cells' filled'
          cases filled'.symm.trans filled
          exact faithful
        · intro v' H' ran
          obtain ⟨cells', filled', ran⟩ := run_tupleExp.mp ran
          cases filled'.symm.trans filled
          obtain ⟨fuel', v, evals, relV, grows'⟩ := back v' H' ran
          exact ⟨fuel' + 1, v, evals, relV, grows.trans grows'⟩
    | joinExp name slot body rest =>
      rw [Exp.close_joinExp, run]
      obtain ⟨faithful, back⟩ := ih fuel (Nat.lt_succ_self fuel) ready.joinRest
        (env.mono Finset.subset_union_right) (.cons (.of_join ready env) rel)
      refine ⟨faithful, fun v' H' ran => ?_⟩
      obtain ⟨fuel', v, evals, relV, grows⟩ := back v' H' ran
      exact ⟨fuel' + 1, v, evals, relV, grows⟩
    | jumpExp joinName slotValue =>
      rw [Exp.close]
      -- one run of the join body, whether the jump is followed for its calls or its result
      have enters : ∀ {join' outer' value' inner'},
          findJoin joins' joinName = some (join', outer') →
          slotValue.mapM (read ρ') = some value' →
          passSlot join'.env join'.slot value' = some inner' →
          Faithful code fuel inner' outer' H join'.body ∧
          ∀ v' H', run code fuel inner' outer' H join'.body = some (v', H') →
            ∃ fuel' v, eval fuel' ρ joins (.jumpExp joinName slotValue) = some v ∧
              ValRel code H' v v' ∧ H <+: H' := by
        intro join' outer' value' inner' found' passed' entered'
        rcases findJoin_rel rel joinName with fails | ⟨join, outer, _, _, found, found₁, relJoin,
          relOuter⟩
        · cases fails.2.symm.trans found'
        cases found₁.symm.trans found'
        obtain ⟨d, body', readyBody⟩ := relJoin.body
        obtain ⟨value, _, passed, passed₁, slots⟩ := passSlot_rel relJoin.env env
          ready.anf fun x member => List.mem_toFinset.mpr member
        cases passed₁.symm.trans passed'
        rw [relJoin.slot] at entered'
        rcases slots with fails | ⟨inner, _, entered, entered₁, relInner⟩
        · cases fails.2.symm.trans entered'
        cases entered₁.symm.trans entered'
        rw [body']
        obtain ⟨faithful, back⟩ := ih fuel (Nat.lt_succ_self fuel) readyBody relInner relOuter
        refine ⟨faithful, fun v' H' ran => ?_⟩
        obtain ⟨fuel', v, evals, relV, grows⟩ := back v' H' ran
        exact ⟨fuel' + 1, v, eval_jumpExp.mpr ⟨join, outer, value, inner, found, passed, entered,
          evals⟩, relV, grows⟩
      constructor
      · intro join' outer' value' inner' found' passed' entered'
        exact (enters found' passed' entered').1
      · intro v' H' ran
        obtain ⟨join', outer', value', inner', found', passed', entered', ran⟩ := run_jumpExp.mp ran
        exact (enters found' passed' entered').2 v' H' ran
    | appExp name funName paramValues rest =>
      obtain ⟨f, f', found, found', relF⟩ := env funName (Finset.mem_union_left _ (by simp))
      obtain ⟨args, args', values, values', relArgs⟩ := env.operands
        (Bool.and_eq_true_iff.mp ready.anf).1 fun x member => Finset.mem_union_left _
          (List.mem_toFinset.mpr (List.mem_cons_of_mem _ member))
      cases f with
      | int n =>
        -- an integer is no record, and the output is stuck as the input is
        cases relF
        rw [Exp.close]
        constructor
        · intro a cells operand v found₁
          cases found₁.symm.trans found'
        · intro v' H' ran
          obtain ⟨a, cells, operand, v, found₁, -⟩ := run_projExp.mp ran
          cases found₁.symm.trans found'
      | clos ρf params body =>
      obtain ⟨a, d, label, closureParam, vars, vs', rfl, allocated, known, readyBody, notVar,
        calls⟩ :=
        relF.call relArgs
      cases fuel with
      | zero =>
        rw [Exp.close]
        constructor
        · intro a₁ cells operand v found₁ allocated₁ inRange
          exact ⟨.inl rfl, trivial⟩
        · intro v' H' ran
          obtain ⟨_, _, _, _, _, _, _, ran⟩ := run_projExp.mp ran
          cases ran
      | succ fuel =>
      have calling : ∀ inner', Env.bind (fun _ => none) (closureParam :: params)
            (.addr a :: args') = some inner' →
          Faithful code fuel inner' [] H (captures closureParam vars 1 (body.close d).1) ∧
          ∀ u' H₁, run code fuel inner' [] H (captures closureParam vars 1 (body.close d).1) =
              some (u', H₁) →
            ∃ inner fuel' u, Env.bind ρf params args = some inner ∧
              eval fuel' inner [] body = some u ∧ ValRel code H₁ u u' ∧ H <+: H₁ := by
        intro inner' bound'
        rcases calls with fails | ⟨inner, _, bound, bound₁, own, relInner⟩
        · cases fails.2.symm.trans bound'
        cases bound₁.symm.trans bound'
        have holds := holds_closureCells label vars vs'
        constructor
        · refine faithful_captures own allocated notVar holds fun n eq => ?_
          exact (ih n (by omega) readyBody relInner .nil).1
        · intro u' H₁ ran
          obtain ⟨n, eq, ran⟩ := (run_captures own allocated notVar holds).mp ran
          obtain ⟨fuel', u, evals, relU, grows⟩ :=
            (ih n (by omega) readyBody relInner .nil).2 u' H₁ ran
          exact ⟨inner, fuel', u, bound, evals, relU, grows⟩
      have continues : ∀ {u u' H₁}, ValRel code H₁ u u' → H <+: H₁ → _ :=
        fun relU grows => ih fuel (by omega) ready.appRest
          (EnvRel.set (((env.mono Finset.subset_union_right).heap grows).set_right
            (.label label) ready.app_names.2.2) relU) (joinsRel_heap rel grows)
      constructor
      · rw [Exp.close]
        intro a₁ cells operand v found₁ allocated₁ inRange
        cases found₁.symm.trans found'
        cases allocated₁.symm.trans allocated
        cases inRange
        refine ⟨.inl rfl, fun label₁ params₁ code₁ args₁ found₁ known₁ values₁ => ?_⟩
        cases found₁.symm.trans (callee_of_label (Env.set_self ..))
        cases known₁.symm.trans known
        cases values₁.symm.trans (ready.app_arguments label found' values')
        refine ⟨⟨a, _, rfl, allocated, rfl⟩, fun inner' bound' => ?_⟩
        obtain ⟨faithful, back⟩ := calling inner' bound'
        refine ⟨faithful, fun u' H₁ ran => ?_⟩
        obtain ⟨_, _, u, _, _, relU, grows⟩ := back u' H₁ ran
        exact (continues relU grows).1
      · intro v' H' ran
        obtain ⟨inner', u', H₁, bound', ranBody, ranRest⟩ :=
          (ready.run_app found' values' allocated known).mp ran
        obtain ⟨inner, fuel₁, u, bound, evalsBody, relU, grows₁⟩ :=
          (calling inner' bound').2 u' H₁ ranBody
        obtain ⟨fuel₂, v, evalsRest, relV, grows₂⟩ := (continues relU grows₁).2 v' H' ranRest
        have evals := eval_appExp.mpr ⟨ρf, params, body, args, inner, u, found, values, bound,
          eval_mono (le_max_left ..) evalsBody, eval_mono (le_max_right ..) evalsRest⟩
        exact ⟨_, v, evals, relV, grows₁.trans grows₂⟩
    | bopExp name bop param1 param2 rest =>
      have continues : ∀ m n, read ρ' param1 = some (.int m) → read ρ' param2 = some (.int n) → _ :=
        fun m n _ _ => ih fuel (Nat.lt_succ_self fuel) ready.bopRest
          (EnvRel.set (env.mono Finset.subset_union_right) (.int (bop.eval m n))) rel
      constructor
      · exact fun m n reads1 reads2 => (continues m n reads1 reads2).1
      · intro v' H' ran
        obtain ⟨m, n, reads1, reads2, ran⟩ := run_bopExp.mp ran
        obtain ⟨fuel', v, evals, relV, grows⟩ := (continues m n reads1 reads2).2 v' H' ran
        obtain ⟨same1, same2⟩ := env.bop_operands ready m n
        exact ⟨fuel' + 1, v, eval_bopExp.mpr ⟨m, n, same1.mpr reads1, same2.mpr reads2, evals⟩,
          relV, grows⟩
    | ifExp cond thenBranch elseBranch =>
      rw [Exp.close_ifExp]
      obtain ⟨faithfulThen, backThen⟩ := ih fuel (Nat.lt_succ_self fuel) ready.thenBranch
        (env.mono (Finset.subset_union_right.trans Finset.subset_union_left)) rel
      obtain ⟨faithfulElse, backElse⟩ := ih fuel (Nat.lt_succ_self fuel) ready.elseBranch
        (env.mono Finset.subset_union_right) rel
      constructor
      · intro n reads
        by_cases zero : n = 0
        · rwa [if_pos zero]
        · rwa [if_neg zero]
      · intro v' H' ran
        obtain ⟨n, reads, ran⟩ := run_ifExp.mp ran
        have value := (env.condition ready n).mpr reads
        by_cases zero : n = 0
        · rw [if_pos zero] at ran
          obtain ⟨fuel', v, evals, relV, grows⟩ := backElse v' H' ran
          exact ⟨fuel' + 1, v, eval_ifExp.mpr ⟨n, value, by rwa [if_pos zero]⟩, relV, grows⟩
        · rw [if_neg zero] at ran
          obtain ⟨fuel', v, evals, relV, grows⟩ := backThen v' H' ran
          exact ⟨fuel' + 1, v, eval_ifExp.mpr ⟨n, value, by rwa [if_neg zero]⟩, relV, grows⟩
    | tupleExp name values rest => cases ready.anf
    | projExp name tuple index rest => cases ready.anf

end Simulation

/-! ## Whole programs -/

/-- The functions of the output keep the names of those of the input. -/
theorem functions_close (t : Exp) (c : Nat) :
    ((functions (t.close c).1).map Prod.fst).Sublist t.boundNames := by
  induction t generalizing c with
  | haltExp value => exact .slnil
  | jumpExp joinName slotValue => exact .slnil
  | funExp name params body rest ihBody ihRest =>
    rw [Exp.close_funExp, functions, functions_captures, functions, List.map_cons, List.map_append]
    refine .cons_cons _ ?_
    rw [List.append_assoc]
    exact ((ihBody _).append (ihRest _)).trans (List.sublist_append_right ..)
  | joinExp name slot body rest ihBody ihRest =>
    rw [Exp.close_joinExp, functions, List.map_append]
    refine .cons _ ?_
    rw [List.append_assoc]
    exact ((ihBody _).append (ihRest _)).trans (List.sublist_append_right ..)
  | appExp name funName paramValues rest ih => exact .cons _ (ih _)
  | bopExp name bop param1 param2 rest ih => exact .cons _ (ih _)
  | ifExp cond thenBranch elseBranch ihThen ihElse =>
    rw [Exp.close_ifExp, functions, List.map_append]
    exact (ihThen _).append (ihElse _)
  | tupleExp name values rest ih => exact .cons _ (ih _)
  | projExp name tuple index rest ih => exact .cons _ (ih _)

/-- Closure conversion preserves meaning: a closed output of the ANF pass, its bound names
pairwise distinct and none of them generated by the conversion, returns the integer `n`
exactly if its conversion does. Every run of the conversion, finished or not, passes each
callee its own record and reads captured variables back with the values they had. -/
theorem closureConvert_preserves_meaning (t : Exp) (closed : t.free = ∅) (anf : isAnf t = true)
    (distinct : t.boundNames.Nodup) (fresh : ∀ x ∈ t.boundNames, x ∉ t.generated 0) :
    (∀ n, Returns t (.int n) ↔ Yields (closureConvert t) n) ∧
      ∀ fuel, Faithful (codeOf (closureConvert t)) fuel (fun _ => none) [] []
        (closureConvert t) := by
  have none : ∀ x, x ∉ t.free := fun x member => by
    rw [closed] at member
    cases member
  have ready : Ready (codeOf (closureConvert t)) t 0 := by
    refine ⟨⟨distinct, fun x occurs => absurd occurs (none x)⟩, anf, fun x named => ?_,
      fun entry member => ?_⟩
    · exact fresh x (named.resolve_left (none x))
    · exact lookup_of_mem (distinct.sublist (functions_close t 0)) member
  have env : EnvRel (codeOf (closureConvert t)) [] t.free (fun _ => .none) (fun _ => .none) :=
    fun x occurs => absurd occurs (none x)
  refine ⟨fun n => ⟨?_, ?_⟩, fun fuel => (eval_of_run fuel ready env .nil).1⟩
  · rintro ⟨fuel, evals⟩
    obtain ⟨fuel', v', H', ran, rel, -⟩ := run_of_eval evals ready env .nil
    cases rel
    exact ⟨fuel', H', ran⟩
  · rintro ⟨fuel, H', ran⟩
    obtain ⟨fuel', v, evals, rel, -⟩ := (eval_of_run fuel ready env .nil).2 _ _ ran
    cases rel
    exact ⟨fuel', evals⟩

/-- The A-normal form of `(fn x => x + 1) 1`. -/
theorem closureConvert_preserves_meaning_increment :
    (∀ n, Returns (.funExp "tmp1" ["x0"] (.bopExp "tmp0" .plus (.varValue "x0") (.intValue 1)
        (.haltExp (.varValue "tmp0"))) (.appExp "tmp2" "tmp1" [.intValue 1]
        (.haltExp (.varValue "tmp2")))) (.int n) ↔
      Yields (closureConvert (.funExp "tmp1" ["x0"] (.bopExp "tmp0" .plus (.varValue "x0")
        (.intValue 1) (.haltExp (.varValue "tmp0"))) (.appExp "tmp2" "tmp1" [.intValue 1]
        (.haltExp (.varValue "tmp2"))))) n) ∧
    ∀ fuel, Faithful (codeOf (closureConvert (.funExp "tmp1" ["x0"] (.bopExp "tmp0" .plus
        (.varValue "x0") (.intValue 1) (.haltExp (.varValue "tmp0"))) (.appExp "tmp2" "tmp1"
        [.intValue 1] (.haltExp (.varValue "tmp2")))))) fuel (fun _ => none) [] []
      (closureConvert (.funExp "tmp1" ["x0"] (.bopExp "tmp0" .plus (.varValue "x0")
        (.intValue 1) (.haltExp (.varValue "tmp0"))) (.appExp "tmp2" "tmp1" [.intValue 1]
        (.haltExp (.varValue "tmp2"))))) :=
  closureConvert_preserves_meaning _ (by decide) (by decide) (by decide) (by decide)

end Lambcalc.Convert
