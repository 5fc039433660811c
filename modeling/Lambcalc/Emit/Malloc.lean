import Lambcalc.Emit.Visits

/-!
# The declaration of `malloc`

Lowering declares `malloc` at the first `Tuple`. It is the function that allocates records only if
no label has this name, and no global variable either.
-/

namespace Lambcalc.Emit

open Anf Hoist Lib Lib.Ir LLVMLowerVisitor

/-- `malloc` is what the first `Tuple` declares, or not declared yet. -/
structure MallocFree (M : Module) : Prop where
  globals : "malloc" ∉ M.globals
  declared : ∀ type, M.declared.lookup "malloc" = some type → type = mallocTy

/-- The value is not the global `malloc`. -/
def NotMalloc (value : Value) : Prop := value ≠ .globValue "malloc"

/-- What lowering asks of a term beyond its names: records are of a size that can be requested, they
are not filled with themselves, and `malloc` is no label. -/
def Regular : Exp → Prop
  | .haltExp value => NotMalloc value
  | .funExp _ _ _ rest => Regular rest
  | .joinExp _ _ body rest => Regular body ∧ Regular rest
  | .jumpExp _ slotValue => ∀ value ∈ slotValue, NotMalloc value
  | .appExp _ _ paramValues rest => (∀ value ∈ paramValues, NotMalloc value) ∧ Regular rest
  | .bopExp _ _ param1 param2 rest => NotMalloc param1 ∧ NotMalloc param2 ∧ Regular rest
  | .ifExp cond thenBranch elseBranch =>
    NotMalloc cond ∧ Regular thenBranch ∧ Regular elseBranch
  | .tupleExp name values rest =>
    (∀ value ∈ values, NotMalloc value ∧ value ≠ .varValue name) ∧ values.length < 2 ^ 61 ∧
      Regular rest
  | .projExp _ _ _ rest => Regular rest

section Malloc

variable {v : LLVMLowerVisitor}

/-- Reading an operand other than the label `malloc` leaves `malloc` as it was. -/
theorem MallocFree.operand (free : MallocFree v.module_) {value : Value}
    (notMalloc : NotMalloc value) :
    Ensures (fun r => MallocFree r.2.module_) (v.operand value) := by
  intro r ended
  cases value with
  | intValue value =>
    cases ended
    exact free
  | varValue var =>
    cases found : v.namedValues var with
    | none =>
      simp only [LLVMLowerVisitor.operand, LLVMLowerVisitor.visitValue, found] at ended
      cases ended
    | some op =>
      simp only [LLVMLowerVisitor.operand, LLVMLowerVisitor.visitValue, found] at ended
      cases ended
      exact free
  | globValue glob =>
    by_cases known : (v.module_.declared.lookup glob).isSome = true ∨ glob ∈ v.module_.globals
    · simp only [LLVMLowerVisitor.operand, LLVMLowerVisitor.visitValue, if_pos known] at ended
      cases ended
      exact free
    · simp only [LLVMLowerVisitor.operand, LLVMLowerVisitor.visitValue, if_neg known] at ended
      cases ended
      refine ⟨fun member => ?_, free.declared⟩
      rcases List.mem_append.mp member with before | new
      · exact free.globals before
      · exact notMalloc (congrArg _ (List.mem_singleton.mp new).symm)

theorem MallocFree.operands (free : MallocFree v.module_) {values : List Value}
    (notMalloc : ∀ value ∈ values, NotMalloc value) :
    Ensures (fun r => MallocFree r.2.module_) (v.operands values) := by
  induction values generalizing v with
  | nil => exact .ok free
  | cons value values ih =>
    obtain ⟨head, tail⟩ := List.forall_mem_cons.mp notMalloc
    exact (free.operand head).bind fun first free => (ih free tail).bind fun others free => .ok free

theorem MallocFree.storeCells {ptr : Operand} {i : Nat} (free : MallocFree v.module_)
    {values : List Value} (notMalloc : ∀ value ∈ values, NotMalloc value) :
    Ensures (fun r => MallocFree r.2.module_) (storeCells ptr v i values) := by
  induction values generalizing v i with
  | nil => exact .ok free
  | cons value values ih =>
    obtain ⟨head, tail⟩ := List.forall_mem_cons.mp notMalloc
    refine (free.operand head).bind fun first free => ?_
    exact (ih (v := first.2.skip 2) free tail).bind fun others free => .ok free

theorem MallocFree.getMalloc (free : MallocFree v.module_) :
    MallocFree v.getMalloc.module_ ∧
      v.getMalloc.module_.declared.lookup "malloc" = some mallocTy := by
  unfold LLVMLowerVisitor.getMalloc
  cases known : v.module_.declared.lookup "malloc" with
  | some type =>
    rw [if_pos (.inl rfl), known, free.declared type known]
    exact ⟨free, rfl⟩
  | none =>
    have unknown : ¬ ((none : Option FunctionType).isSome = true ∨
        "malloc" ∈ v.module_.globals) := by
      intro either
      rcases either with isSome | member
      · cases isSome
      · exact free.globals member
    have found : (v.module_.declared ++ [("malloc", mallocTy)]).lookup "malloc" =
        some mallocTy := by
      rw [List.lookup_append, known]
      rfl
    rw [if_neg unknown]
    refine ⟨⟨free.globals, fun type eq => ?_⟩, found⟩
    cases found.symm.trans eq
    rfl

theorem MallocFree.createIntToPtr (free : MallocFree v.module_) (op : Operand) :
    MallocFree (v.createIntToPtr op).2.2.module_ := by
  unfold LLVMLowerVisitor.createIntToPtr
  split
  · exact free
  · exact free

theorem ensures_find {α : Type} (map : Var → Option α) (name : Var) :
    Ensures (fun _ => True) (find map name) := fun _ _ => trivial

variable {name : Var}

theorem MallocFree.appExp (free : MallocFree v.module_) {funName : Var} {paramValues : List Value}
    (notMalloc : ∀ value ∈ paramValues, NotMalloc value) :
    Ensures (fun r => MallocFree r.2.module_) (v.appExp name funName paramValues) := by
  refine (free.operands notMalloc).bind fun params free => ?_
  cases found : params.2.namedValues funName with
  | some fnPtrInt =>
    simp only [found]
    exact .ok (free.createIntToPtr fnPtrInt)
  | none =>
    simp only [found]
    exact (ensures_find _ funName).bind fun _ _ => .ok free

theorem MallocFree.bopExp (free : MallocFree v.module_) {bop : Ast.Bop} {param1 param2 : Value}
    (notMalloc1 : NotMalloc param1) (notMalloc2 : NotMalloc param2) :
    Ensures (fun r => MallocFree r.2.module_) (v.bopExp name bop param1 param2) :=
  (free.operand notMalloc1).bind fun _ free =>
    (free.operand notMalloc2).bind fun _ free => .ok free

theorem MallocFree.tupleExp (free : MallocFree v.module_) {values : List Value}
    (notMalloc : ∀ value ∈ values, NotMalloc value) :
    Ensures (fun r => MallocFree r.2.module_) (v.tupleExp name values) := by
  exact (MallocFree.storeCells (v := (v.getMalloc.skip 1).enter name .i64) free.getMalloc.1
    notMalloc).bind fun _ free => .ok free

theorem MallocFree.projExp (free : MallocFree v.module_) {tuple : Var} {index : Nat} :
    Ensures (fun r => MallocFree r.2.module_) (v.projExp name tuple index) :=
  (ensures_find _ tuple).bind fun op _ => .ok (free.createIntToPtr op)

/-- A node and its rest. -/
theorem MallocFree.let_ {node : Except Fault (List Instruction × LLVMLowerVisitor)} {rest : Exp}
    (first : Ensures (fun r => MallocFree r.2.module_) node)
    (second : ∀ w, MallocFree w.module_ →
      Ensures (fun r => MallocFree r.2.module_) (lowerExp rest w)) :
    Ensures (fun r => MallocFree r.2.module_) (do
      let (code, visitor) ← node
      let (codeRest, visitor) ← lowerExp rest visitor
      return (code ++ codeRest, visitor)) :=
  first.bind fun _ free => (second _ free).bind fun _ free => .ok free

/-- Lowering a term leaves `malloc` what a `Tuple` declares, or undeclared. -/
theorem MallocFree.lowerExp (free : MallocFree v.module_) {t : Exp} (isFlat : flat t = true)
    (regular : Regular t) : Ensures (fun r => MallocFree r.2.module_) (Emit.lowerExp t v) := by
  induction t generalizing v with
  | haltExp value => exact (free.operand regular).bind fun _ free => .ok free
  | funExp name params body rest => cases isFlat
  | joinExp name slot body rest => cases isFlat
  | jumpExp joinName slotValue =>
    refine (ensures_find _ joinName).bind fun block _ => ?_
    cases slotValue with
    | none => exact .ok free
    | some value =>
      exact (ensures_find _ joinName).bind fun slot _ =>
        (free.operand (regular value rfl)).bind fun _ free => .ok free
  | appExp name funName paramValues rest ih =>
    exact .let_ (free.appExp regular.1) fun w free => ih free isFlat regular.2
  | bopExp name bop param1 param2 rest ih =>
    exact .let_ (free.bopExp regular.1 regular.2.1) fun w free => ih free isFlat regular.2.2
  | ifExp cond thenBranch elseBranch =>
    obtain ⟨plainThen, plainElse⟩ := Bool.and_eq_true_iff.mp isFlat
    obtain ⟨thenJoin, rfl⟩ := isPlainJump_eq_true.mp plainThen
    obtain ⟨elseJoin, rfl⟩ := isPlainJump_eq_true.mp plainElse
    refine (free.operand regular.1).bind fun first free => ?_
    show Ensures _ (find first.2.namedBlocks thenJoin >>= _)
    refine (ensures_find _ thenJoin).bind fun _ _ => ?_
    show Ensures _ (find first.2.namedBlocks elseJoin >>= _)
    exact (ensures_find _ elseJoin).bind fun _ _ => .ok free
  | tupleExp name values rest ih =>
    exact .let_ (free.tupleExp fun value member => (regular.1 value member).1) fun w free =>
      ih free isFlat regular.2.2
  | projExp name tuple index rest ih =>
    exact .let_ free.projExp fun w free => ih free isFlat regular

theorem MallocFree.lowerBlock (free : MallocFree v.module_) {b : Join} {body : Body}
    (isFlat : flat b.body = true) (regular : Regular b.body) :
    Ensures (fun r => MallocFree r.2.module_) (Emit.lowerBlock (body, v) b) := by
  intro r lowered
  obtain ⟨index, load, w, code, -, loads, loweredBody, -⟩ := lowerBlock_eq_ok lowered
  have free' : MallocFree w.module_ := by
    cases loads with
    | none slot => exact free
    | some slot found => exact free
  exact free'.lowerExp isFlat regular _ loweredBody

/-- Lowering a function leaves `malloc` to the first `Tuple`. -/
theorem MallocFree.lowerFunction {M M' : Module} {fn : Function} (free : MallocFree M)
    (lowerable : Lowerable fn) (regular : ∀ b ∈ fn.entryBlock :: fn.blocks, Regular b.body)
    (lowered : Emit.lowerFunction M fn = .ok M') : MallocFree M' := by
  obtain ⟨allocas, v, code, w, body, v', prepared, entry, -, blocks, -, rfl⟩ :=
    lowerFunction_eq_ok lowerable lowered
  obtain ⟨flatEntry, flats⟩ := List.forall_mem_cons.mp lowerable.flat
  obtain ⟨regularEntry, regulars⟩ := List.forall_mem_cons.mp regular
  rw [← prepare_module prepared] at free
  have freeEntry : MallocFree w.module_ := free.lowerExp flatEntry regularEntry _ entry
  have turn : ∀ b ∈ fn.blocks, ∀ r : Body × LLVMLowerVisitor, MallocFree r.2.module_ →
      Ensures (fun r => MallocFree r.2.module_) (Emit.lowerBlock r b) :=
    fun b member r free => free.lowerBlock (flats b member) (regulars b member)
  have freeBlocks : MallocFree v'.module_ := Ensures.foldlM turn freeEntry _ blocks
  exact ⟨freeBlocks.globals, freeBlocks.declared⟩

end Malloc

end Lambcalc.Emit
