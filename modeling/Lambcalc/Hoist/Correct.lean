import Lambcalc.Convert.ClosureConvert
import Lambcalc.Hoist.WellFormed

/-!
# Hoisting preserves meaning

The nested term and the blocks compute the same values and the same records. They differ in
what is in scope: a join body sees the variables of its own scope, while a block sees all
that the call has bound so far. `Related` says that the two environments agree on the scope
`vars` of the subterm at hand, and, for every join point in scope, on the scope that this join
body was given. Nothing in scope is bound again, so the agreement lasts.

`runBlock_of_run` and `run_of_runBlock` are the two directions of the simulation.
-/

namespace Lambcalc.Hoist

open Lambcalc.Convert
open Anf (Exp Value Var Env JoinPoint closureConvert findJoin findJoin_self passSlot)

/-! ## Values and records -/

/-- The value is not `main` as a label, which only hoisting defines. -/
def NotMain (v : Val) : Prop := v ≠ .label "main"

/-- No record has `main` in a cell. -/
def HeapOk (H : Heap) : Prop := ∀ cells ∈ H, ∀ cell ∈ cells, NotMain cell.2

theorem HeapOk.alloc {H : Heap} {cells : Record} (heap : HeapOk H)
    (known : ∀ cell ∈ cells, NotMain cell.2) : HeapOk (H ++ [cells]) := by
  intro record member
  rcases List.mem_append.mp member with member | member
  · exact heap record member
  · rw [List.mem_singleton.mp member]
    exact known

/-! ## Environments -/

/-- The environments of a nested term and of its block agree on the scope `vars`, and bind
nothing but the names of their function. -/
structure EnvOk (own vars : List Var) (ρ ρ' : Env Val) : Prop where
  scope : ∀ x ∈ vars, ∃ v, ρ x = some v ∧ ρ' x = some v ∧ NotMain v
  outside : ∀ x, x ∉ own → ρ x = none ∧ ρ' x = none

section Environments

variable {own vars : List Var} {ρ ρ' : Env Val}

theorem EnvOk.set (env : EnvOk own vars ρ ρ') {x : Var} {v : Val} (mine : x ∈ own)
    (known : NotMain v) : EnvOk own (x :: vars) (ρ.set x v) (ρ'.set x v) := by
  constructor
  · intro y member
    by_cases eq : y = x
    · subst eq
      exact ⟨v, Env.set_self .., Env.set_self .., known⟩
    · rw [Env.set_of_ne eq, Env.set_of_ne eq]
      exact env.scope y ((List.mem_cons.mp member).resolve_left eq)
  · intro y notOwn
    have ne : y ≠ x := fun eq => notOwn (eq ▸ mine)
    rw [Env.set_of_ne ne, Env.set_of_ne ne]
    exact env.outside y notOwn

/-- A block may bind what is not in the scope of a join point. -/
theorem EnvOk.set_right (env : EnvOk own vars ρ ρ') {x : Var} (v : Val) (mine : x ∈ own)
    (fresh : x ∉ vars) : EnvOk own vars ρ (ρ'.set x v) := by
  constructor
  · intro y member
    have ne : y ≠ x := fun eq => fresh (eq ▸ member)
    rw [Env.set_of_ne ne]
    exact env.scope y member
  · intro y notOwn
    have ne : y ≠ x := fun eq => notOwn (eq ▸ mine)
    rw [Env.set_of_ne ne]
    exact env.outside y notOwn

theorem EnvOk.read (env : EnvOk own vars ρ ρ') {value : Value}
    (inScope : valueInScope vars value = true) :
    ∃ v, read ρ value = some v ∧ read ρ' value = some v ∧ NotMain v := by
  cases value with
  | intValue value => exact ⟨_, rfl, rfl, fun eq => by cases eq⟩
  | varValue var => exact env.scope var (of_decide_eq_true inScope)
  | globValue glob =>
    exact ⟨_, rfl, rfl, fun eq => of_decide_eq_true inScope (Val.label.inj eq)⟩

theorem mapM_agree {α β : Type} {f g : α → Option β} {P : β → Prop} {as : List α}
    (agree : ∀ a ∈ as, ∃ b, f a = some b ∧ g a = some b ∧ P b) :
    ∃ bs, as.mapM f = some bs ∧ as.mapM g = some bs ∧ ∀ b ∈ bs, P b := by
  induction as with
  | nil => exact ⟨[], rfl, rfl, fun b member => nomatch member⟩
  | cons a as ih =>
    obtain ⟨b, left, right, holds⟩ := agree a List.mem_cons_self
    obtain ⟨bs, lefts, rights, all⟩ := ih fun a member => agree a (List.mem_cons_of_mem _ member)
    refine ⟨b :: bs, ?_, ?_, List.forall_mem_cons.mpr ⟨holds, all⟩⟩
    · simp [List.mapM_cons, left, lefts]
    · simp [List.mapM_cons, right, rights]

theorem EnvOk.reads (env : EnvOk own vars ρ ρ') {values : List Value}
    (inScope : values.all (valueInScope vars) = true) :
    ∃ vs, values.mapM (Convert.read ρ) = some vs ∧ values.mapM (Convert.read ρ') = some vs ∧
      ∀ v ∈ vs, NotMain v :=
  mapM_agree fun value member => env.read (List.all_eq_true.mp inScope value member)

theorem EnvOk.cells (env : EnvOk own vars ρ ρ') {values : List Value}
    (inScope : values.all (valueInScope vars) = true) :
    ∃ cells, values.mapM (cell ρ) = some cells ∧ values.mapM (cell ρ') = some cells ∧
      ∀ cell ∈ cells, NotMain cell.2 := by
  apply mapM_agree
  intro value member
  obtain ⟨v, left, right, known⟩ := env.read (List.all_eq_true.mp inScope value member)
  refine ⟨(value, v), ?_, ?_, known⟩
  · rw [cell, left]
    rfl
  · rw [cell, right]
    rfl

/-- Both call the same label, and it is not `main`. -/
theorem EnvOk.callee (env : EnvOk own vars ρ ρ') {funName : Var}
    (inScope : (decide (funName ∈ vars) || decide (funName ∉ "main" :: own)) = true) :
    callee ρ funName = callee ρ' funName ∧ callee ρ funName ≠ some "main" := by
  unfold Convert.callee
  rcases Bool.or_eq_true_iff.mp inScope with isVar | isLabel
  · obtain ⟨v, left, right, known⟩ := env.scope funName (of_decide_eq_true isVar)
    rw [left, right]
    exact ⟨rfl, fun eq => known (Val.asLabel_eq_some.mp eq)⟩
  · have apart := of_decide_eq_true isLabel
    obtain ⟨left, right⟩ := env.outside funName fun member => apart (List.mem_cons_of_mem _ member)
    rw [left, right]
    exact ⟨rfl, fun eq => apart (List.mem_cons.mpr (.inl (Option.some.inj eq)))⟩

/-- After binding, a parameter is one of the arguments and every other name what it was. -/
theorem bind_scope {params : List Var} {args : List Val} {inner : Env Val}
    (bound : Env.bind ρ params args = some inner) (x : Var) :
    (x ∈ params ∧ ∃ v ∈ args, inner x = some v) ∨ (x ∉ params ∧ inner x = ρ x) := by
  induction params generalizing ρ args with
  | nil =>
    cases args with
    | nil =>
      cases bound
      exact .inr ⟨List.not_mem_nil, rfl⟩
    | cons v vs => cases bound
  | cons param params ih =>
    cases args with
    | nil => cases bound
    | cons v vs =>
      rcases ih bound with ⟨member, u, arg, eq⟩ | ⟨notMem, eq⟩
      · exact .inl ⟨List.mem_cons_of_mem _ member, u, List.mem_cons_of_mem _ arg, eq⟩
      · by_cases isParam : x = param
        · subst isParam
          exact .inl ⟨List.mem_cons_self, v, List.mem_cons_self, eq.trans (Env.set_self ..)⟩
        · refine .inr ⟨fun member => ?_, eq.trans (Env.set_of_ne isParam ..)⟩
          exact (List.mem_cons.mp member).elim isParam notMem

/-- A call starts with its parameters in scope. -/
theorem EnvOk.of_bind {params locals : List Var} {args : List Val} {inner : Env Val}
    (bound : Env.bind (fun _ => none) params args = some inner) (known : ∀ v ∈ args, NotMain v) :
    EnvOk (params ++ locals) params inner inner := by
  constructor
  · intro x member
    rcases bind_scope bound x with ⟨_, v, arg, eq⟩ | ⟨notMem, _⟩
    · exact ⟨v, eq, eq, known v arg⟩
    · exact absurd member notMem
  · intro x notOwn
    rcases bind_scope bound x with ⟨member, _⟩ | ⟨_, eq⟩
    · exact absurd (List.mem_append_left _ member) notOwn
    · exact ⟨eq, eq⟩

end Environments

/-! ## Subterms and their blocks -/

/-- What a block has to know of a join point in scope. -/
def joinKey (join : JoinPoint Val) : Var × Bool := (join.name, join.slot.isSome)

/-- The subterm `t` of a function, visited with `counter_` at `c`: its names are in scope,
those it binds are new, and its blocks are blocks of `fn`. -/
structure Placed (own : List Var) (fn : Function) (vars : List Var)
    (joins : List (Var × Bool)) (t : Exp) (c : Nat) : Prop where
  distinct : (bindings t).Nodup
  fresh : ∀ x ∈ bindings t, x ∉ vars ∧ x ∈ own
  jumps : jumpsInScope joins t = true
  named : varsInScope own vars t = true
  emitted : blocks t c ⊆ fn.blocks
  unique : ((fn.entryBlock :: fn.blocks).map Join.name).Nodup

section Subterms

variable {own : List Var} {fn : Function} {vars : List Var} {joins : List (Var × Bool)}
  {name : Var} {rest : Exp} {c : Nat}

theorem Placed.funRest {params : List Var} {body : Exp}
    (placed : Placed own fn vars joins (.funExp name params body rest) c) :
    Placed own fn vars joins rest (c + hoists body + 1) :=
  { placed with }

theorem Placed.joinBody {slot : Option Var} {body : Exp}
    (placed : Placed own fn vars joins (.joinExp name slot body rest) c) :
    Placed own fn (slot.toList ++ vars) joins body c := by
  have distinct := placed.distinct
  have fresh := placed.fresh
  rw [bindings, List.append_assoc] at distinct fresh
  obtain ⟨-, distinct, disjoint⟩ := List.nodup_append'.mp distinct
  refine ⟨(List.nodup_append'.mp distinct).1, fun x member => ?_,
    (Bool.and_eq_true_iff.mp placed.jumps).1, (Bool.and_eq_true_iff.mp placed.named).1, ?_,
    placed.unique⟩
  · have new := fresh x (by simp [member])
    refine ⟨fun either => ?_, new.2⟩
    rcases List.mem_append.mp either with isSlot | isVar
    · exact disjoint isSlot (List.mem_append_left _ member)
    · exact new.1 isVar
  · exact fun b member => placed.emitted (by simp [blocks, member])

theorem Placed.slot {slot : Option Var} {body : Exp}
    (placed : Placed own fn vars joins (.joinExp name slot body rest) c) :
    ∀ x ∈ slot, x ∉ vars ∧ x ∈ own :=
  fun x isSlot => placed.fresh x (by simp [bindings, Option.mem_def.mp isSlot])

theorem Placed.joinRest {slot : Option Var} {body : Exp}
    (placed : Placed own fn vars joins (.joinExp name slot body rest) c) :
    Placed own fn vars ((name, slot.isSome) :: joins) rest (c + hoists body) := by
  refine ⟨(List.nodup_append'.mp placed.distinct).2.1, fun x member => ?_,
    (Bool.and_eq_true_iff.mp placed.jumps).2, (Bool.and_eq_true_iff.mp placed.named).2, ?_,
    placed.unique⟩
  · exact placed.fresh x (List.mem_append_right _ member)
  · exact fun b member => placed.emitted (by simp [blocks, member])

theorem Placed.joinBlock {slot : Option Var} {body : Exp}
    (placed : Placed own fn vars joins (.joinExp name slot body rest) c) :
    ⟨name, slot, block body c⟩ ∈ fn.blocks :=
  placed.emitted (by simp [blocks])

theorem Placed.ifThen {cond : Value} {thenBranch elseBranch : Exp}
    (placed : Placed own fn vars joins (.ifExp cond thenBranch elseBranch) c) :
    Placed own fn vars joins thenBranch c := by
  refine ⟨(List.nodup_append'.mp placed.distinct).1, fun x member => ?_,
    (Bool.and_eq_true_iff.mp placed.jumps).1,
    (Bool.and_eq_true_iff.mp (Bool.and_eq_true_iff.mp placed.named).1).2, ?_, placed.unique⟩
  · exact placed.fresh x (List.mem_append_left _ member)
  · exact fun b member => placed.emitted (by simp [blocks, member])

theorem Placed.ifElse {cond : Value} {thenBranch elseBranch : Exp}
    (placed : Placed own fn vars joins (.ifExp cond thenBranch elseBranch) c) :
    Placed own fn vars joins elseBranch (c + hoists thenBranch) := by
  refine ⟨(List.nodup_append'.mp placed.distinct).2.1, fun x member => ?_,
    (Bool.and_eq_true_iff.mp placed.jumps).2, (Bool.and_eq_true_iff.mp placed.named).2, ?_,
    placed.unique⟩
  · exact placed.fresh x (List.mem_append_right _ member)
  · exact fun b member => placed.emitted (by simp [blocks, member])

/-- A node that binds `name` and goes on with `rest`. -/
theorem Placed.letRest {t : Exp} (rest : Exp) (placed : Placed own fn vars joins t c)
    (binds : bindings t = name :: bindings rest) (jumps : jumpsInScope joins rest = true)
    (named : varsInScope own (name :: vars) rest = true)
    (emits : blocks t c = blocks rest c) :
    Placed own fn (name :: vars) joins rest c ∧ name ∉ vars ∧ name ∈ own := by
  have distinct := placed.distinct
  have fresh := placed.fresh
  rw [binds] at distinct fresh
  obtain ⟨notMem, distinct⟩ := List.nodup_cons.mp distinct
  refine ⟨⟨distinct, fun x member => ?_, jumps, named, emits ▸ placed.emitted, placed.unique⟩,
    fresh name List.mem_cons_self⟩
  have new := fresh x (List.mem_cons_of_mem _ member)
  refine ⟨fun either => ?_, new.2⟩
  rcases List.mem_cons.mp either with rfl | isVar
  · exact notMem member
  · exact new.1 isVar

/-- A block of the function is found by its name. -/
theorem Placed.findBlock {t : Exp} (placed : Placed own fn vars joins t c) {b : Join}
    (member : b ∈ fn.blocks) : fn.findBlock b.name = some b :=
  find?_of_nodup placed.unique (List.mem_cons_of_mem _ member)

end Subterms

/-! ## Join points and their blocks -/

/-- Every join point in scope has its block in `fn`, and the environment `ρ'` of the call
agrees with the one of the join point on a scope within `vars`. -/
inductive JoinsOk (own : List Var) (fn : Function) (ρ' : Env Val) :
    List Var → List (JoinPoint Val) → Prop where
  | nil {vars : List Var} : JoinsOk own fn ρ' vars []
  | cons {vars joinVars : List Var} {join : JoinPoint Val} {joins : List (JoinPoint Val)} {c : Nat}
    (within : joinVars ⊆ vars) (env : EnvOk own joinVars join.env ρ')
    (emitted : ⟨join.name, join.slot, block join.body c⟩ ∈ fn.blocks)
    (slot : ∀ x ∈ join.slot, x ∉ joinVars ∧ x ∈ own)
    (body : Placed own fn (join.slot.toList ++ joinVars) (joins.map joinKey) join.body c)
    (outer : JoinsOk own fn ρ' joinVars joins) : JoinsOk own fn ρ' vars (join :: joins)

section JoinPoints

variable {own : List Var} {fn : Function} {vars vars' : List Var} {ρ ρ' : Env Val}
  {joins : List (JoinPoint Val)}

theorem JoinsOk.mono (ok : JoinsOk own fn ρ' vars joins) (within : vars ⊆ vars') :
    JoinsOk own fn ρ' vars' joins := by
  cases ok with
  | nil => exact .nil
  | cons within' env emitted slot body outer =>
    exact .cons (List.Subset.trans within' within) env emitted slot body outer

theorem JoinsOk.set (ok : JoinsOk own fn ρ' vars joins) {x : Var} (v : Val)
    (mine : x ∈ own) (fresh : x ∉ vars) : JoinsOk own fn (ρ'.set x v) vars joins := by
  induction ok with
  | nil => exact .nil
  | cons within env emitted slot body _ ih =>
    have fresh' := fun member => fresh (within member)
    exact .cons within (env.set_right v mine fresh') emitted slot body (ih fresh')

/-- A jump in scope finds a join point. -/
theorem JoinsOk.find (ok : JoinsOk own fn ρ' vars joins) {joinName : Var} {hasSlot : Bool}
    (inScope : (joins.map joinKey).lookup joinName = some hasSlot) :
    ∃ join outer, findJoin joins joinName = some (join, outer) ∧ join.name = joinName ∧
      join.slot.isSome = hasSlot ∧ JoinsOk own fn ρ' vars (join :: outer) := by
  induction ok with
  | nil => cases inScope
  | @cons vars joinVars join joins c within env emitted slot body outer ih =>
    by_cases eq : join.name = joinName
    · subst eq
      rw [List.map_cons, joinKey, List.lookup_cons, beq_self_eq_true] at inScope
      cases inScope
      exact ⟨join, joins, findJoin_self .., rfl, rfl, .cons within env emitted slot body outer⟩
    · rw [List.map_cons, joinKey, List.lookup_cons, beq_false_of_ne (Ne.symm eq)] at inScope
      obtain ⟨join', outer', found, same, slots, ok⟩ := ih inScope
      exact ⟨join', outer', by rw [findJoin, if_neg eq, found], same, slots, ok.mono within⟩

end JoinPoints

/-! ## The relation the simulation keeps -/

/-- A nested term in its environment, join points and records, and its block in the
environment of the call and the same records. -/
structure Related (own : List Var) (fn : Function) (vars : List Var) (ρ ρ' : Env Val)
    (joins : List (JoinPoint Val)) (H : Heap) (t : Exp) (c : Nat) : Prop where
  placed : Placed own fn vars (joins.map joinKey) t c
  env : EnvOk own vars ρ ρ'
  joins : JoinsOk own fn ρ' vars joins
  heap : HeapOk H

/-- Every label but `main` has a function before hoisting exactly if it has one after, and the
latter is made of the former. -/
def Linked (code : Code) (fns : List Function) : Prop :=
  ∀ label, label ≠ "main" →
    (code label = none ∧ findFunction fns label = none) ∨
    ∃ params body d, code label = some (params, body) ∧
      findFunction fns label = some (functionOf label params body d) ∧
      Placed (params ++ bindings body) (functionOf label params body d) params [] body d

section Nodes

variable {own : List Var} {fn : Function} {vars : List Var} {ρ ρ' : Env Val}
  {joins : List (JoinPoint Val)} {H : Heap} {name : Var} {rest : Exp} {c : Nat}

theorem Related.funRest {params : List Var} {body : Exp}
    (rel : Related own fn vars ρ ρ' joins H (.funExp name params body rest) c) :
    Related own fn vars ρ ρ' joins H rest (c + hoists body + 1) :=
  ⟨rel.placed.funRest, rel.env, rel.joins, rel.heap⟩

theorem Related.joinRest {slot : Option Var} {body : Exp}
    (rel : Related own fn vars ρ ρ' joins H (.joinExp name slot body rest) c) :
    Related own fn vars ρ ρ' (⟨name, slot, ρ, body⟩ :: joins) H rest (c + hoists body) :=
  ⟨rel.placed.joinRest, rel.env, .cons (List.Subset.refl _) rel.env rel.placed.joinBlock
    rel.placed.slot rel.placed.joinBody rel.joins, rel.heap⟩

/-- A value has been computed for `name`, and the run goes on with `rest`. -/
theorem Related.letRest {t : Exp} (rel : Related own fn vars ρ ρ' joins H t c)
    (next : Placed own fn (name :: vars) (joins.map joinKey) rest c ∧ name ∉ vars ∧ name ∈ own)
    {v : Val} {H' : Heap} (known : NotMain v) (heap : HeapOk H') :
    Related own fn (name :: vars) (ρ.set name v) (ρ'.set name v) joins H' rest c := by
  obtain ⟨placed, fresh, mine⟩ := next
  exact ⟨placed, rel.env.set mine known,
    (rel.joins.set v mine fresh).mono (List.subset_cons_self ..), heap⟩

/-- A jump enters the body of its join point, and the block of this body. -/
theorem Related.jump {joinName : Var} {slotValue : Option Value}
    (rel : Related own fn vars ρ ρ' joins H (.jumpExp joinName slotValue) c)
    :
    ∃ join outer value inner inner' joinVars d, findJoin joins joinName = some (join, outer) ∧
      fn.findBlock joinName = some ⟨join.name, join.slot, block join.body d⟩ ∧
      slotValue.mapM (Convert.read ρ) = some value ∧
      slotValue.mapM (Convert.read ρ') = some value ∧
      passSlot join.env join.slot value = some inner ∧ passSlot ρ' join.slot value = some inner' ∧
      Related own fn joinVars inner inner' outer H join.body d := by
  have inScope : (joins.map joinKey).lookup joinName = some slotValue.isSome :=
    eq_of_beq rel.placed.jumps
  obtain ⟨join, outer, found, rfl, slots, ok⟩ := rel.joins.find inScope
  cases ok with
  | @cons _ joinVars _ _ d within env emitted slot body outerOk =>
  have block := rel.placed.findBlock emitted
  have isScoped := rel.placed.named
  obtain ⟨joinName, joinSlot, joinEnv, joinBody⟩ := join
  cases joinSlot with
  | none =>
    cases slotValue with
    | some value => cases slots
    | none =>
      exact ⟨_, outer, none, joinEnv, ρ', joinVars, d, found, block, rfl, rfl, rfl, rfl, body, env,
        outerOk, rel.heap⟩
  | some x =>
    cases slotValue with
    | none => cases slots
    | some value =>
      obtain ⟨v, left, right, known⟩ := rel.env.read isScoped
      obtain ⟨fresh, mine⟩ := slot x rfl
      refine ⟨_, outer, some v, joinEnv.set x v, ρ'.set x v, x :: joinVars, d, found, block, ?_, ?_,
        rfl, rfl, body, env.set mine known, ?_, rel.heap⟩
      · rw [Option.mapM_some, left]
        rfl
      · rw [Option.mapM_some, right]
        rfl
      · exact (outerOk.set v mine fresh).mono (List.subset_cons_self ..)

theorem Related.ifThen {cond : Value} {thenBranch elseBranch : Exp}
    (rel : Related own fn vars ρ ρ' joins H (.ifExp cond thenBranch elseBranch) c) :
    fn.findBlock (thenName (c + hoists thenBranch + hoists elseBranch)) =
        some ⟨thenName (c + hoists thenBranch + hoists elseBranch), none, block thenBranch c⟩ ∧
      Related own fn vars ρ ρ' joins H thenBranch c := by
  have member : ⟨thenName (c + hoists thenBranch + hoists elseBranch), none,
      block thenBranch c⟩ ∈ fn.blocks := rel.placed.emitted (by simp [blocks])
  exact ⟨rel.placed.findBlock member, rel.placed.ifThen, rel.env, rel.joins, rel.heap⟩

theorem Related.ifElse {cond : Value} {thenBranch elseBranch : Exp}
    (rel : Related own fn vars ρ ρ' joins H (.ifExp cond thenBranch elseBranch) c) :
    fn.findBlock (elseName (c + hoists thenBranch + hoists elseBranch + 1)) =
        some ⟨elseName (c + hoists thenBranch + hoists elseBranch + 1), none,
          block elseBranch (c + hoists thenBranch)⟩ ∧
      Related own fn vars ρ ρ' joins H elseBranch (c + hoists thenBranch) := by
  have member : ⟨elseName (c + hoists thenBranch + hoists elseBranch + 1), none,
      block elseBranch (c + hoists thenBranch)⟩ ∈ fn.blocks := rel.placed.emitted (by simp [blocks])
  exact ⟨rel.placed.findBlock member, rel.placed.ifElse, rel.env, rel.joins, rel.heap⟩

/-- A jump to the block of a branch. -/
theorem runBlock_branch {fns : List Function} {fuel : Nat} {joinName : Var} {body : Exp}
    {w : Val × Heap} (found : fn.findBlock joinName = some ⟨joinName, none, body⟩) :
    runBlock fns (fuel + 1) fn ρ' H (.jumpExp joinName none) = some w ↔
      runBlock fns fuel fn ρ' H body = some w := by
  rw [runBlock, found]
  rfl

/-- A call starts with its function related to the one before hoisting. -/
theorem Related.of_call {params : List Var} {body : Exp} {args : List Val} {inner : Env Val}
    (placed : Placed (params ++ bindings body) fn params [] body c)
    (bound : Env.bind (fun _ => none) params args = some inner) (known : ∀ v ∈ args, NotMain v)
    (heap : HeapOk H) :
    Related (params ++ bindings body) fn params inner inner [] H body c :=
  ⟨placed, .of_bind bound known, .nil, heap⟩

end Nodes

/-! ## Simulation -/

section Simulation

variable {code : Code} {fns : List Function}

/-- What the nested term returns, its block returns. By induction on the fuel. -/
theorem runBlock_of_run (linked : Linked code fns) {fuel : Nat}
    {own : List Var} {fn : Function} {vars : List Var} {ρ ρ' : Env Val}
    {joins : List (JoinPoint Val)} {H : Heap} {t : Exp} {c : Nat} {w : Val × Heap}
    (ran : run code fuel ρ joins H t = some w)
    (rel : Related own fn vars ρ ρ' joins H t c) :
    (∃ fuel', runBlock fns fuel' fn ρ' H (block t c) = some w) ∧ NotMain w.1 ∧ HeapOk w.2 := by
  induction fuel generalizing own fn vars ρ ρ' joins H t c w with
  | zero => cases ran
  | succ fuel ih =>
    have isScoped := rel.placed.named
    cases t with
    | haltExp value =>
      obtain ⟨v, left, right, known⟩ := rel.env.read isScoped
      rw [run, left] at ran
      cases ran
      refine ⟨⟨1, ?_⟩, known, rel.heap⟩
      rw [block, runBlock, right]
      rfl
    | funExp name params body rest => exact ih (t := rest) ran rel.funRest
    | joinExp name slot body rest => exact ih (t := rest) ran rel.joinRest
    | jumpExp joinName slotValue =>
      obtain ⟨join, outer, value, inner, inner', joinVars, d, found, found', passed, passed',
        entered, entered', related⟩ := rel.jump
      obtain ⟨_, _, _, _, found₁, passed₁, entered₁, ran⟩ := run_jumpExp.mp ran
      cases found₁.symm.trans found
      cases passed₁.symm.trans passed
      cases entered₁.symm.trans entered
      obtain ⟨⟨fuel', ran'⟩, ok⟩ := ih ran related
      exact ⟨⟨fuel' + 1, runBlock_jumpExp.mpr ⟨_, _, _, found', passed', entered', ran'⟩⟩, ok⟩
    | appExp name funName paramValues rest =>
      obtain ⟨calls, scopedRest⟩ := Bool.and_eq_true_iff.mp isScoped
      obtain ⟨scopedName, scopedValues⟩ := Bool.and_eq_true_iff.mp calls
      obtain ⟨args, left, right, known⟩ := rel.env.reads scopedValues
      obtain ⟨same, ne⟩ := rel.env.callee scopedName
      obtain ⟨label, _, _, _, inner, v, H', target, codeOfLabel, values, bound, ranBody, ranRest⟩ :=
        run_appExp.mp ran
      cases values.symm.trans left
      have labelNe : label ≠ "main" := fun eq => ne (eq ▸ target)
      rcases linked label labelNe with unknown | ⟨params, body, d, before, after, placed⟩
      · cases codeOfLabel.symm.trans unknown.1
      · cases codeOfLabel.symm.trans before
        obtain ⟨⟨fuelBody, ranBody'⟩, knownV, heap⟩ :=
          ih ranBody (.of_call placed bound known rel.heap)
        have next := rel.placed.letRest rest rfl rel.placed.jumps scopedRest rfl
        obtain ⟨⟨fuelRest, ranRest'⟩, ok⟩ := ih ranRest (rel.letRest next knownV heap)
        refine ⟨⟨max fuelBody fuelRest + 1, runBlock_appExp.mpr ?_⟩, ok⟩
        exact ⟨label, _, _, inner, v, H', same ▸ target, after, right, bound,
          runBlock_mono (le_max_left ..) ranBody', runBlock_mono (le_max_right ..) ranRest'⟩
    | bopExp name bop param1 param2 rest =>
      obtain ⟨scopedParams, scopedRest⟩ := Bool.and_eq_true_iff.mp isScoped
      obtain ⟨scoped1, scoped2⟩ := Bool.and_eq_true_iff.mp scopedParams
      obtain ⟨v1, left1, right1, _⟩ := rel.env.read scoped1
      obtain ⟨v2, left2, right2, _⟩ := rel.env.read scoped2
      obtain ⟨m, n, value1, value2, ran⟩ := run_bopExp.mp ran
      have next := rel.placed.letRest rest rfl rel.placed.jumps scopedRest rfl
      have known : NotMain (.int (bop.eval m n)) := fun eq => by cases eq
      obtain ⟨⟨fuel', ran'⟩, ok⟩ := ih ran (rel.letRest next known rel.heap)
      refine ⟨⟨fuel' + 1, runBlock_bopExp.mpr ⟨m, n, ?_, ?_, ran'⟩⟩, ok⟩
      · rw [right1, ← left1, value1]
      · rw [right2, ← left2, value2]
    | ifExp cond thenBranch elseBranch =>
      obtain ⟨scopedThen, -⟩ := Bool.and_eq_true_iff.mp isScoped
      obtain ⟨v, left, right, _⟩ := rel.env.read (Bool.and_eq_true_iff.mp scopedThen).1
      obtain ⟨n, value, ran⟩ := run_ifExp.mp ran
      have value' : read ρ' cond = some (.int n) := by rw [right, ← left, value]
      obtain ⟨foundThen, relThen⟩ := rel.ifThen
      obtain ⟨foundElse, relElse⟩ := rel.ifElse
      by_cases zero : n = 0
      · rw [if_pos zero] at ran
        obtain ⟨⟨fuel', ran'⟩, ok⟩ := ih ran relElse
        refine ⟨⟨fuel' + 2, runBlock_ifExp.mpr ⟨n, value', ?_⟩⟩, ok⟩
        rw [if_pos zero]
        exact (runBlock_branch foundElse).mpr ran'
      · rw [if_neg zero] at ran
        obtain ⟨⟨fuel', ran'⟩, ok⟩ := ih ran relThen
        refine ⟨⟨fuel' + 2, runBlock_ifExp.mpr ⟨n, value', ?_⟩⟩, ok⟩
        rw [if_neg zero]
        exact (runBlock_branch foundThen).mpr ran'
    | tupleExp name values rest =>
      obtain ⟨scopedValues, scopedRest⟩ := Bool.and_eq_true_iff.mp isScoped
      obtain ⟨cells, left, right, known⟩ := rel.env.cells scopedValues
      obtain ⟨_, filled, ran⟩ := run_tupleExp.mp ran
      cases filled.symm.trans left
      have next := rel.placed.letRest rest rfl rel.placed.jumps scopedRest rfl
      have address : NotMain (.addr H.length) := fun eq => by cases eq
      obtain ⟨⟨fuel', ran'⟩, ok⟩ := ih ran (rel.letRest next address (rel.heap.alloc known))
      exact ⟨⟨fuel' + 1, runBlock_tupleExp.mpr ⟨cells, right, ran'⟩⟩, ok⟩
    | projExp name tuple index rest =>
      obtain ⟨scopedTuple, scopedRest⟩ := Bool.and_eq_true_iff.mp isScoped
      obtain ⟨v, left, right, _⟩ := rel.env.scope tuple (of_decide_eq_true scopedTuple)
      obtain ⟨a, cells, operand, v, found, allocated, inRange, ran⟩ := run_projExp.mp ran
      have next := rel.placed.letRest rest rfl rel.placed.jumps scopedRest rfl
      have known : NotMain v :=
        rel.heap cells (List.mem_of_getElem? allocated) _ (List.mem_of_getElem? inRange)
      obtain ⟨⟨fuel', ran'⟩, ok⟩ := ih ran (rel.letRest next known rel.heap)
      refine ⟨⟨fuel' + 1,
        runBlock_projExp.mpr ⟨a, cells, operand, v, ?_, allocated, inRange, ran'⟩⟩, ok⟩
      rw [right, ← left, found]

/-- What a block returns, its nested term returns. By induction on the fuel, and within one
step on the term, whose functions and joins take no step of the block. -/
theorem run_of_runBlock (linked : Linked code fns) {fuel : Nat}
    {own : List Var} {fn : Function} {vars : List Var} {ρ ρ' : Env Val}
    {joins : List (JoinPoint Val)} {H : Heap} {t : Exp} {c : Nat} {w : Val × Heap}
    (ran : runBlock fns fuel fn ρ' H (block t c) = some w)
    (rel : Related own fn vars ρ ρ' joins H t c) :
    (∃ fuel', run code fuel' ρ joins H t = some w) ∧ NotMain w.1 ∧ HeapOk w.2 := by
  induction fuel generalizing own fn vars ρ ρ' joins H t c w with
  | zero => cases ran
  | succ fuel ih =>
    induction t generalizing own fn vars ρ ρ' joins H c w with
    | haltExp value =>
      obtain ⟨v, left, right, known⟩ := rel.env.read rel.placed.named
      rw [block, runBlock, right] at ran
      cases ran
      refine ⟨⟨1, ?_⟩, known, rel.heap⟩
      rw [run, left]
      rfl
    | funExp name params body rest _ ihRest =>
      obtain ⟨⟨fuel', ran'⟩, ok⟩ := ihRest ran rel.funRest
      exact ⟨⟨fuel' + 1, ran'⟩, ok⟩
    | joinExp name slot body rest _ ihRest =>
      obtain ⟨⟨fuel', ran'⟩, ok⟩ := ihRest ran rel.joinRest
      exact ⟨⟨fuel' + 1, ran'⟩, ok⟩
    | jumpExp joinName slotValue =>
      obtain ⟨join, outer, value, inner, inner', joinVars, d, found, found', passed, passed',
        entered, entered', related⟩ := rel.jump
      obtain ⟨_, _, _, found₁, passed₁, entered₁, ran⟩ := runBlock_jumpExp.mp ran
      cases found₁.symm.trans found'
      cases passed₁.symm.trans passed'
      cases entered₁.symm.trans entered'
      obtain ⟨⟨fuel', ran'⟩, ok⟩ := ih ran related
      exact ⟨⟨fuel' + 1, run_jumpExp.mpr ⟨_, _, _, _, found, passed, entered, ran'⟩⟩, ok⟩
    | appExp name funName paramValues rest =>
      obtain ⟨calls, scopedRest⟩ := Bool.and_eq_true_iff.mp rel.placed.named
      obtain ⟨scopedName, scopedValues⟩ := Bool.and_eq_true_iff.mp calls
      obtain ⟨args, left, right, known⟩ := rel.env.reads scopedValues
      obtain ⟨same, ne⟩ := rel.env.callee scopedName
      obtain ⟨label, called, _, inner, v, H', target, calledIs, values, bound, ranBody, ranRest⟩ :=
        runBlock_appExp.mp ran
      cases values.symm.trans right
      have target' := same.trans target
      have labelNe : label ≠ "main" := fun eq => ne (eq ▸ target')
      rcases linked label labelNe with unknown | ⟨params, body, d, before, after, placed⟩
      · cases calledIs.symm.trans unknown.2
      · cases calledIs.symm.trans after
        obtain ⟨⟨fuelBody, ranBody'⟩, knownV, heap⟩ :=
          ih ranBody (.of_call placed bound known rel.heap)
        have next := rel.placed.letRest rest rfl rel.placed.jumps scopedRest rfl
        obtain ⟨⟨fuelRest, ranRest'⟩, ok⟩ := ih ranRest (rel.letRest next knownV heap)
        refine ⟨⟨max fuelBody fuelRest + 1, run_appExp.mpr ?_⟩, ok⟩
        exact ⟨label, params, body, _, inner, v, H', target', before, left, bound,
          run_mono (le_max_left ..) ranBody', run_mono (le_max_right ..) ranRest'⟩
    | bopExp name bop param1 param2 rest =>
      obtain ⟨scopedParams, scopedRest⟩ := Bool.and_eq_true_iff.mp rel.placed.named
      obtain ⟨scoped1, scoped2⟩ := Bool.and_eq_true_iff.mp scopedParams
      obtain ⟨v1, left1, right1, _⟩ := rel.env.read scoped1
      obtain ⟨v2, left2, right2, _⟩ := rel.env.read scoped2
      obtain ⟨m, n, value1, value2, ran⟩ := runBlock_bopExp.mp ran
      have next := rel.placed.letRest rest rfl rel.placed.jumps scopedRest rfl
      have known : NotMain (.int (bop.eval m n)) := fun eq => by cases eq
      obtain ⟨⟨fuel', ran'⟩, ok⟩ := ih ran (rel.letRest next known rel.heap)
      refine ⟨⟨fuel' + 1, run_bopExp.mpr ⟨m, n, ?_, ?_, ran'⟩⟩, ok⟩
      · rw [left1, ← right1, value1]
      · rw [left2, ← right2, value2]
    | ifExp cond thenBranch elseBranch =>
      obtain ⟨scopedThen, -⟩ := Bool.and_eq_true_iff.mp rel.placed.named
      obtain ⟨v, left, right, _⟩ := rel.env.read (Bool.and_eq_true_iff.mp scopedThen).1
      obtain ⟨n, value, ran⟩ := runBlock_ifExp.mp ran
      have value' : read ρ cond = some (.int n) := by rw [left, ← right, value]
      obtain ⟨foundThen, relThen⟩ := rel.ifThen
      obtain ⟨foundElse, relElse⟩ := rel.ifElse
      -- the jump to the branch takes one more step of the block
      cases fuel with
      | zero => cases ran
      | succ fuel =>
        by_cases zero : n = 0
        · rw [if_pos zero] at ran
          obtain ⟨⟨fuel', ran'⟩, ok⟩ :=
            ih (runBlock_succ ((runBlock_branch foundElse).mp ran)) relElse
          exact ⟨⟨fuel' + 1, run_ifExp.mpr ⟨n, value', by rwa [if_pos zero]⟩⟩, ok⟩
        · rw [if_neg zero] at ran
          obtain ⟨⟨fuel', ran'⟩, ok⟩ :=
            ih (runBlock_succ ((runBlock_branch foundThen).mp ran)) relThen
          exact ⟨⟨fuel' + 1, run_ifExp.mpr ⟨n, value', by rwa [if_neg zero]⟩⟩, ok⟩
    | tupleExp name values rest =>
      obtain ⟨scopedValues, scopedRest⟩ := Bool.and_eq_true_iff.mp rel.placed.named
      obtain ⟨cells, left, right, known⟩ := rel.env.cells scopedValues
      obtain ⟨_, filled, ran⟩ := runBlock_tupleExp.mp ran
      cases filled.symm.trans right
      have next := rel.placed.letRest rest rfl rel.placed.jumps scopedRest rfl
      have address : NotMain (.addr H.length) := fun eq => by cases eq
      obtain ⟨⟨fuel', ran'⟩, ok⟩ := ih ran (rel.letRest next address (rel.heap.alloc known))
      exact ⟨⟨fuel' + 1, run_tupleExp.mpr ⟨cells, left, ran'⟩⟩, ok⟩
    | projExp name tuple index rest =>
      obtain ⟨scopedTuple, scopedRest⟩ := Bool.and_eq_true_iff.mp rel.placed.named
      obtain ⟨u, left, right, _⟩ := rel.env.scope tuple (of_decide_eq_true scopedTuple)
      obtain ⟨a, cells, operand, v, found, allocated, inRange, ran⟩ := runBlock_projExp.mp ran
      have next := rel.placed.letRest rest rfl rel.placed.jumps scopedRest rfl
      have known : NotMain v :=
        rel.heap cells (List.mem_of_getElem? allocated) _ (List.mem_of_getElem? inRange)
      obtain ⟨⟨fuel', ran'⟩, ok⟩ := ih ran (rel.letRest next known rel.heap)
      refine ⟨⟨fuel' + 1, run_projExp.mpr ⟨a, cells, operand, v, ?_, allocated, inRange, ran'⟩⟩, ok⟩
      rw [left, ← right, found]

end Simulation

/-! ## Whole programs -/

theorem Placed.of_function {name : Var} {params : List Var} {body : Exp}
    (d : Nat) (distinct : (params ++ bindings body).Nodup) (jumps : jumpsInScope [] body = true)
    (named : varsInScope (params ++ bindings body) params body = true)
    (nodup : (joinNames body).Nodup) (apart : ∀ x ∈ joinNames body, ¬ Generated x) :
    Placed (params ++ bindings body) (functionOf name params body d) params [] body d := by
  obtain ⟨-, nodupBody, disjoint⟩ := List.nodup_append'.mp distinct
  refine ⟨nodupBody, fun x member => ?_, jumps, named, List.Subset.refl _,
    nodup_functionOf d nodup apart⟩
  exact ⟨fun isParam => disjoint isParam member, List.mem_append_right _ member⟩

/-- Hoisting preserves meaning: if labels and join names are pairwise distinct, none of them a
name that hoisting makes, the names each function binds are pairwise distinct, jumps name joins
in scope with a value exactly for a slot, and variables are in scope, the nested term
returns the integer `n` exactly if its hoisted functions do. -/
theorem hoist_preserves_meaning (t : Exp) (distinctLabels : (labels t).Nodup)
    (notMain : "main" ∉ labels t) (distinctJoins : (joinNames t).Nodup)
    (notGenerated : ∀ x ∈ joinNames t, ¬ Generated x)
    (distinct : ∀ f ∈ program t, (f.2.1 ++ bindings f.2.2).Nodup)
    (jumps : ∀ f ∈ program t, jumpsInScope [] f.2.2 = true)
    (named : ∀ f ∈ program t,
      varsInScope (f.2.1 ++ bindings f.2.2) f.2.1 f.2.2 = true) (n : Word) :
    Yields t n ↔ BlockYields (hoist t) n := by
  have linked : Linked (codeOf t) (hoist t) := by
    intro label ne
    rcases findFunction_label distinctLabels ne with unknown | ⟨params, body, d, member, known⟩
    · exact .inl unknown
    · have inProgram := List.mem_cons_of_mem ("main", [], t) member
      have sub := joinNames_sublist t member
      exact .inr ⟨params, body, d, known.1, known.2, .of_function d (distinct _ inProgram)
        (jumps _ inProgram) (named _ inProgram) (distinctJoins.sublist sub)
        fun x isJoin => notGenerated x (sub.subset isJoin)⟩
  have isMain : ("main", [], t) ∈ program t := List.mem_cons_self
  have bound : Env.bind (fun _ => none) [] [] = some (fun _ => (none : Option Val)) := rfl
  have start : Related ([] ++ bindings t) (functionOf "main" [] t 0) []
      (fun _ => none) (fun _ => none) [] [] t 0 :=
    .of_call (.of_function 0 (distinct _ isMain) (jumps _ isMain) (named _ isMain) distinctJoins
      notGenerated) bound (fun v member => nomatch member) (fun cells member => nomatch member)
  have main := findFunction_main notMain
  constructor
  · intro returns
    obtain ⟨fuel, H, ran⟩ := returns
    obtain ⟨⟨fuel', ran'⟩, -⟩ := runBlock_of_run linked ran start
    exact ⟨_, fuel', H, main, ran'⟩
  · intro returns
    obtain ⟨_, fuel, H, found, ran⟩ := returns
    cases found.symm.trans main
    obtain ⟨⟨fuel', ran'⟩, -⟩ := run_of_runBlock linked ran start
    exact ⟨fuel', H, ran'⟩

/-- A function with a join, called by its label. -/
theorem hoist_preserves_meaning_call :
    Yields (.funExp "f" ["a"] (.joinExp "j" (some "c") (.haltExp (.varValue "c"))
        (.jumpExp "j" (some (.varValue "a")))) (.appExp "x" "f" [.intValue 1]
          (.haltExp (.varValue "x")))) 1 ↔
      BlockYields (hoist (.funExp "f" ["a"] (.joinExp "j" (some "c") (.haltExp (.varValue "c"))
        (.jumpExp "j" (some (.varValue "a")))) (.appExp "x" "f" [.intValue 1]
          (.haltExp (.varValue "x"))))) 1 := by
  apply hoist_preserves_meaning
  · decide
  · decide
  · decide
  · intro x isJoin
    obtain rfl : x = "j" := List.mem_singleton.mp isJoin
    exact not_generated_of_head (by decide) (by decide)
  · decide
  · decide
  · decide

/-- The scopes matter: a join body that reads a variable bound only after its `Join` is stuck,
while its block finds the variable in the environment of the call. -/
theorem hoist_unscoped_differs :
    ∃ t, closureConvert t = t ∧ (labels t).Nodup ∧ "main" ∉ labels t ∧ (joinNames t).Nodup ∧
      (∀ x ∈ joinNames t, ¬ Generated x) ∧
      (∀ f ∈ program t, (f.2.1 ++ bindings f.2.2).Nodup) ∧
      (∀ f ∈ program t, jumpsInScope [] f.2.2 = true) ∧
      ¬ Yields t 2 ∧ BlockYields (hoist t) 2 := by
  refine ⟨.joinExp "j" none (.haltExp (.varValue "x"))
      (.bopExp "x" .plus (.intValue 1) (.intValue 1)
    (.jumpExp "j" none)), rfl, by decide, by decide, by decide, ?_, by decide, by decide, ?_, ?_⟩
  · intro x isJoin
    obtain rfl : x = "j" := List.mem_singleton.mp isJoin
    exact not_generated_of_head (by decide) (by decide)
  · intro returns
    obtain ⟨fuel, H, ran⟩ := returns
    rcases fuel with _ | _ | _ | _ | fuel <;> cases ran
  · exact ⟨_, 3, [], rfl, rfl⟩

end Lambcalc.Hoist
