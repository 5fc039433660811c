import Lambcalc.Convert.Correct
import Lambcalc.Emit.Visits

/-!
# The types of the instructions

`getFunctionType` makes the first parameter a pointer, and a call passes the closure there, which is
an `i64` wherever it comes from: only the own closure parameter of a function is a pointer, until
its name is entered again. `typesExp` follows that name through a function. Lowering makes well
typed instructions exactly if an application never passes anything else first, and nothing else
reads that name.
-/

namespace Lambcalc.Emit

open Anf Hoist Lib Lib.Ir LLVMLowerVisitor
open Lambcalc.Convert (functions isAnfValue)

/-! ## The name of a pointer -/

/-- The value is the variable `pointer`. -/
def isPointer (pointer : Option Var) : Value → Bool
  | .varValue var => pointer == some var
  | _ => false

/-- The name of the pointer, once `name` has been entered as an integer. -/
def rebind (pointer : Option Var) (name : Var) : Option Var :=
  if pointer = some name then none else pointer

theorem rebind_ne (pointer : Option Var) (name : Var) : rebind pointer name ≠ some name := by
  unfold rebind
  split
  · simp
  · assumption

/-- Arguments as `getFunctionType` types them: a pointer and then integers. -/
def argsTyped (pointer : Option Var) : List Value → Bool
  | [] => true
  | value :: values => isPointer pointer value && values.all fun value => !isPointer pointer value

/-- The types of a block: `none` if they do not agree, and else the name of the pointer after it. -/
def typesExp : Exp → Option Var → Option (Option Var)
  | .haltExp value, pointer => if isPointer pointer value then none else some pointer
  | .funExp _ _ _ _, _ => none
  | .joinExp _ _ _ _, _ => none
  | .jumpExp _ _, pointer => some pointer
  | .appExp name _ paramValues rest, pointer =>
    if argsTyped pointer paramValues then typesExp rest (rebind pointer name) else none
  | .bopExp name _ param1 param2 rest, pointer =>
    if !isPointer pointer param1 && !isPointer pointer param2 then
      typesExp rest (rebind pointer name)
    else none
  | .ifExp cond _ _, pointer => if isPointer pointer cond then none else some pointer
  | .tupleExp name _ rest, pointer => typesExp rest (rebind pointer name)
  | .projExp name _ _ rest, pointer => typesExp rest (rebind pointer name)

def typesBlock (pointer : Option Var) (b : Join) : Option (Option Var) :=
  typesExp b.body (b.slot.elim pointer (rebind pointer))

/-- The closure parameter, if no other parameter has its name. -/
def closureParameter : List Var → Option Var
  | [] => none
  | param :: params => params.foldl rebind (some param)

/-- The types of a function agree. -/
def typesFunction (fn : Function) : Bool :=
  (typesExp fn.entryBlock.body (closureParameter fn.params) >>=
    fn.blocks.foldlM typesBlock).isSome

/-! ## Labels in cells -/

/-- No operand of `t` is a label, except in the cells of a record. -/
def labelsInCells : Exp → Bool
  | .haltExp value => isAnfValue value
  | .funExp _ _ body rest => labelsInCells body && labelsInCells rest
  | .joinExp _ _ body rest => labelsInCells body && labelsInCells rest
  | .jumpExp _ _ => true
  | .appExp _ _ paramValues rest => paramValues.all isAnfValue && labelsInCells rest
  | .bopExp _ _ param1 param2 rest =>
    isAnfValue param1 && isAnfValue param2 && labelsInCells rest
  | .ifExp cond thenBranch elseBranch =>
    isAnfValue cond && labelsInCells thenBranch && labelsInCells elseBranch
  | .tupleExp _ _ rest => labelsInCells rest
  | .projExp _ _ _ rest => labelsInCells rest

/-! ## Code -/

/-- Every instruction is well typed. -/
def WellTyped (code : List Instruction) : Prop := ∀ i ∈ code, i.op.wellTyped = true

theorem wellTyped_append {code code' : List Instruction} :
    WellTyped (code ++ code') ↔ WellTyped code ∧ WellTyped code' := List.forall_mem_append

theorem wellTyped_cons {i : Instruction} {code : List Instruction} :
    WellTyped (i :: code) ↔ i.op.wellTyped = true ∧ WellTyped code := List.forall_mem_cons

theorem wellTyped_nil : WellTyped [] := List.forall_mem_nil _

/-- The types of named values: integers, except for `pointer`. -/
def NamedTyped (pointer : Option Var) (named : Var → Option Operand) : Prop :=
  ∀ x op, named x = some op → op.type = if pointer = some x then .ptr else .i64

theorem NamedTyped.update {pointer : Option Var} {named : Var → Option Operand}
    (typed : NamedTyped pointer named) (name : Var) (op : Operand) (isInt : op.type = .i64) :
    NamedTyped (rebind pointer name) (Function.update named name (some op)) := by
  intro x op' found
  by_cases eq : x = name
  · rw [eq, Function.update_self] at found
    cases found
    rw [isInt, eq, if_neg (rebind_ne pointer name)]
  · rw [Function.update_of_ne eq] at found
    rw [typed _ _ found]
    unfold rebind
    by_cases isName : pointer = some name
    · have isOther : pointer ≠ some x := fun isX => eq (Option.some.inj (isX.symm.trans isName))
      rw [if_pos isName, if_neg isOther]
      rfl
    · rw [if_neg isName]

/-- Named values are integers, except for `pointer`, and slots are pointers. -/
structure Typed (pointer : Option Var) (v : LLVMLowerVisitor) : Prop where
  named : NamedTyped pointer v.namedValues
  slots : ∀ {j slot}, v.spillSlots j = some slot → slot.type = .ptr

section Typed

variable {pointer : Option Var} {v v' : LLVMLowerVisitor}

theorem Typed.congr (typed : Typed pointer v) (sameNamed : v'.namedValues = v.namedValues)
    (sameSlots : v'.spillSlots = v.spillSlots) : Typed pointer v' where
  named _ _ found := typed.named _ _ (sameNamed ▸ found)
  slots found := typed.slots (sameSlots ▸ found)

theorem Typed.only (typed : Typed pointer v) (only : OnlyGlobals v v') : Typed pointer v' :=
  typed.congr only.named only.keeps.slots

theorem Typed.enter (typed : Typed pointer v) (name : Var) :
    Typed (rebind pointer name) (v.enter name .i64) where
  slots := typed.slots
  named := NamedTyped.update typed.named name _ rfl

theorem Typed.reads (typed : Typed pointer v) {value : Value} {op : Operand}
    (reads : Reads v value op) (anf : isAnfValue value = true) :
    op.type = if isPointer pointer value then .ptr else .i64 := by
  cases reads with
  | intValue => rfl
  | @varValue var op found =>
    rw [typed.named _ _ found]
    unfold isPointer
    by_cases eq : pointer = some var
    · rw [if_pos eq, if_pos (beq_iff_eq.mpr eq)]
    · rw [if_neg eq, if_neg (fun same => eq (beq_iff_eq.mp same))]
  | address => cases anf
  | symbol => cases anf

/-- An operand is an integer exactly if it is not the pointer. -/
theorem Typed.isInt (typed : Typed pointer v) {value : Value} {op : Operand}
    (reads : Reads v value op) (anf : isAnfValue value = true) :
    op.type = .i64 ↔ isPointer pointer value = false := by
  rw [typed.reads reads anf]
  cases isPointer pointer value <;> simp

theorem Typed.isPtr (typed : Typed pointer v) {value : Value} {op : Operand}
    (reads : Reads v value op) (anf : isAnfValue value = true) :
    op.type = .ptr ↔ isPointer pointer value = true := by
  rw [typed.reads reads anf]
  cases isPointer pointer value <;> simp

/-- The operands of a call have the types of its parameters exactly if the first one is the pointer
and no other is. -/
theorem Typed.args (typed : Typed pointer v) {values : List Value} {ops : List Operand}
    (reads : List.Forall₂ (Reads v) values ops) (anf : values.all isAnfValue = true) :
    ops.map Operand.type = (getFunctionType values).params ↔ argsTyped pointer values = true := by
  cases reads with
  | nil => exact iff_of_true rfl rfl
  | @cons value op values ops first others =>
    obtain ⟨anfFirst, anfOthers⟩ := Bool.and_eq_true_iff.mp anf
    have ints : ops.map Operand.type = values.mapIdx (fun i _ => if i + 1 = 0 then .ptr else .i64) ↔
        values.all (fun value => !isPointer pointer value) = true := by
      clear first anf
      induction others with
      | nil => exact iff_of_true rfl rfl
      | @cons value op values ops reads _ ih =>
        obtain ⟨anfValue, anfOthers⟩ := Bool.and_eq_true_iff.mp anfOthers
        rw [List.map_cons, List.mapIdx_cons, List.all_cons, List.cons.injEq, Bool.and_eq_true_iff,
          Bool.not_eq_true', ← typed.isInt reads anfValue]
        exact and_congr Iff.rfl (ih anfOthers)
    have params : (getFunctionType (value :: values)).params =
        .ptr :: values.mapIdx (fun i _ => if i + 1 = 0 then .ptr else .i64) :=
      List.mapIdx_cons (a := value)
    rw [params, List.map_cons, List.cons.injEq, typed.isPtr first anfFirst, ints, argsTyped,
      Bool.and_eq_true_iff]

end Typed

/-! ## Nodes -/

/-- The types agree exactly if `good`, and the visitor is typed by what they say. -/
def Agrees (types : Option (Option Var)) (good : Prop) (v : LLVMLowerVisitor) : Prop :=
  match types with
  | some pointer => good ∧ Typed pointer v
  | none => ¬ good

section Agrees

variable {types : Option (Option Var)} {good good' : Prop} {v v' : LLVMLowerVisitor}

theorem Agrees.congr (agrees : Agrees types good v) (same : good ↔ good') :
    Agrees types good' v := by
  cases types with
  | some pointer => exact ⟨same.mp agrees.1, agrees.2⟩
  | none => exact fun holds => agrees (same.mpr holds)

theorem Agrees.bind {next : Option Var → Option (Option Var)} (first : Agrees types good v)
    (second : ∀ pointer, Typed pointer v → Agrees (next pointer) good' v') :
    Agrees (types >>= next) (good ∧ good') v' := by
  cases types with
  | none => exact fun both => first both.1
  | some pointer =>
    have agrees := second pointer first.2
    show Agrees (next pointer) (good ∧ good') v'
    exact agrees.congr (and_iff_right first.1).symm

theorem Agrees.iff (agrees : Agrees types good v) : good ↔ types.isSome = true := by
  cases types with
  | some pointer => exact iff_of_true agrees.1 rfl
  | none => exact iff_of_false agrees Bool.false_ne_true

end Agrees

section Nodes

variable {v v' : LLVMLowerVisitor} {pointer : Option Var} {code : List Instruction} {name : Var}

/-- A node that is typed if a condition holds, and its rest. -/
theorem agrees_let {condition : Bool} {types : Option (Option Var)} {rest : List Instruction}
    {w : LLVMLowerVisitor} (node : WellTyped code ↔ condition = true)
    (typed : condition = true → Typed (rebind pointer name) w)
    (others : Typed (rebind pointer name) w → Agrees types (WellTyped rest) v') :
    Agrees (if condition then types else none) (WellTyped (code ++ rest)) v' := by
  cases condition with
  | true =>
    have both : WellTyped (code ++ rest) ↔ WellTyped rest :=
      wellTyped_append.trans (and_iff_right (node.mpr rfl))
    exact (others (typed rfl)).congr both.symm
  | false => exact fun both => Bool.false_ne_true (node.mp (wellTyped_append.mp both).1)

/-- A cast of a named value is well typed, and makes a pointer. -/
theorem Casts.wellTyped {op ptr : Operand} (casts : Casts v op ptr code v')
    (isWord : op.type = .ptr ∨ op.type = .i64) : WellTyped code ∧ ptr.type = .ptr := by
  cases casts with
  | same isPtr => exact ⟨wellTyped_nil, isPtr⟩
  | cast isInt =>
    refine ⟨wellTyped_cons.mpr ⟨?_, wellTyped_nil⟩, rfl⟩
    exact decide_eq_true (isWord.resolve_left isInt)

theorem Casts.typed {op ptr : Operand} (casts : Casts v op ptr code v')
    (typed : Typed pointer v) : Typed pointer v' := by
  cases casts with
  | same isPtr => exact typed
  | cast isInt => exact typed.congr rfl rfl

theorem Typed.isWord (typed : Typed pointer v) {x : Var} {op : Operand}
    (found : v.namedValues x = some op) : op.type = .ptr ∨ op.type = .i64 := by
  rw [typed.named _ _ found]
  by_cases eq : pointer = some x
  · exact .inl (if_pos eq)
  · exact .inr (if_neg eq)

theorem Stores.wellTyped {ptr : Operand} {i : Nat} {values : List Value}
    (stores : Stores ptr v i values code v') (isPtr : ptr.type = .ptr) : WellTyped code := by
  induction stores with
  | nil => exact wellTyped_nil
  | cons _ _ _ ih =>
    exact wellTyped_cons.mpr ⟨decide_eq_true isPtr, wellTyped_cons.mpr ⟨rfl, ih⟩⟩

theorem Stores.typed {ptr : Operand} {i : Nat} {values : List Value}
    (stores : Stores ptr v i values code v') (typed : Typed pointer v) : Typed pointer v' := by
  induction stores with
  | nil => exact typed
  | cons _ only _ ih => exact ih ((typed.only only).congr rfl rfl)

/-- What a term is lowered to is well typed exactly if its types agree. -/
theorem agrees_lowerExp {t : Exp} {last : Option Var} (isFlat : flat t = true)
    (calls : projected last t = true) (cells : labelsInCells t = true)
    (known : ∀ x, last = some x → (v.namedValues x).isSome = true) (typed : Typed pointer v)
    (lowered : lowerExp t v = .ok (code, v')) :
    Agrees (typesExp t pointer) (WellTyped code) v' := by
  have unknown : ∀ {v : LLVMLowerVisitor} x, (none : Option Var) = some x →
      (v.namedValues x).isSome = true := fun _ eq => by cases eq
  induction t generalizing v pointer code last with
  | haltExp value =>
    obtain ⟨op, w, reads, only, rfl, rfl⟩ := haltExp_eq_ok lowered
    have isInt := typed.isInt reads cells
    unfold typesExp
    cases is : isPointer pointer value with
    | false =>
      have good := decide_eq_true (isInt.mpr is)
      exact ⟨wellTyped_cons.mpr ⟨good, wellTyped_nil⟩, (typed.only only).congr rfl rfl⟩
    | true =>
      intro good
      have eq := isInt.mp (of_decide_eq_true (wellTyped_cons.mp good).1)
      cases eq.symm.trans is
  | funExp name params body rest => cases isFlat
  | joinExp name slot body rest => cases isFlat
  | jumpExp joinName slotValue =>
    cases slotValue with
    | none =>
      obtain ⟨block, found, rfl, rfl⟩ := jumpExp_none_eq_ok lowered
      exact ⟨wellTyped_cons.mpr ⟨rfl, wellTyped_nil⟩, typed.congr rfl rfl⟩
    | some value =>
      obtain ⟨block, slot, op, w, foundBlock, foundSlot, reads, only, rfl, rfl⟩ :=
        jumpExp_some_eq_ok lowered
      have good := decide_eq_true (typed.slots foundSlot)
      exact ⟨wellTyped_cons.mpr ⟨good, wellTyped_cons.mpr ⟨rfl, wellTyped_nil⟩⟩,
        (typed.only only).congr rfl rfl⟩
  | appExp name funName paramValues rest ih =>
    obtain ⟨called, callsRest⟩ := Bool.and_eq_true_iff.mp calls
    obtain ⟨anf, cellsRest⟩ := Bool.and_eq_true_iff.mp cells
    obtain ⟨fnPtrInt, found⟩ := Option.isSome_iff_exists.mp (known funName (beq_iff_eq.mp called))
    obtain ⟨first, w, codeRest, visited, loweredRest, rfl⟩ := let_eq_ok lowered
    obtain ⟨params, w₁, fn, cast, w₂, reads, only, casts, rfl, rfl⟩ := appExp_eq_ok found visited
    have typed₁ := typed.only only
    obtain ⟨castTyped, isPtr⟩ := casts.wellTyped (typed.isWord found)
    refine agrees_let ?_ (fun _ => (casts.typed typed₁).enter name) fun typed' =>
      ih isFlat callsRest cellsRest unknown typed' loweredRest
    rw [wellTyped_append, and_iff_right castTyped, wellTyped_cons, and_iff_left wellTyped_nil]
    rw [Op.wellTyped, Bool.and_eq_true_iff, decide_eq_true_iff, decide_eq_true_iff,
      and_iff_right isPtr]
    exact typed.args reads anf
  | bopExp name bop param1 param2 rest ih =>
    obtain ⟨anf, cellsRest⟩ := Bool.and_eq_true_iff.mp cells
    obtain ⟨anf1, anf2⟩ := Bool.and_eq_true_iff.mp anf
    obtain ⟨first, w, codeRest, visited, loweredRest, rfl⟩ := let_eq_ok lowered
    obtain ⟨op1, op2, w₁, reads1, reads2, only, rfl, rfl⟩ := bopExp_eq_ok visited
    have isInts : WellTyped [⟨w₁.next, .binary (binaryOp bop) op1 op2⟩] ↔
        (!isPointer pointer param1 && !isPointer pointer param2) = true := by
      rw [wellTyped_cons, and_iff_left wellTyped_nil, Op.wellTyped, Bool.and_eq_true_iff,
        decide_eq_true_iff, decide_eq_true_iff, typed.isInt reads1 anf1, typed.isInt reads2 anf2,
        Bool.and_eq_true_iff, Bool.not_eq_true', Bool.not_eq_true']
    refine agrees_let isInts (fun both => ?_) fun typed' =>
      ih isFlat calls cellsRest unknown typed' loweredRest
    obtain ⟨isInt, -⟩ := Bool.and_eq_true_iff.mp both
    rw [(typed.isInt reads1 anf1).mpr (Bool.not_eq_true' _ ▸ isInt)]
    exact (typed.only only).enter name
  | ifExp cond thenBranch elseBranch =>
    obtain ⟨plainThen, plainElse⟩ := Bool.and_eq_true_iff.mp isFlat
    obtain ⟨thenJoin, rfl⟩ := isPlainJump_eq_true.mp plainThen
    obtain ⟨elseJoin, rfl⟩ := isPlainJump_eq_true.mp plainElse
    obtain ⟨op, w, thenBlock, elseBlock, reads, only, foundThen, foundElse, rfl, rfl⟩ :=
      visitIfJump_eq_ok lowered
    have anf := (Bool.and_eq_true_iff.mp (Bool.and_eq_true_iff.mp cells).1).1
    have isInt := typed.isInt reads anf
    unfold typesExp
    cases is : isPointer pointer cond with
    | false =>
      have good : (decide (op.type = .i64) && decide ((Operand.const 0).type = .i64)) = true :=
        Bool.and_eq_true_iff.mpr ⟨decide_eq_true (isInt.mpr is), rfl⟩
      exact ⟨wellTyped_cons.mpr ⟨good, wellTyped_cons.mpr ⟨rfl, wellTyped_nil⟩⟩,
        (typed.only only).congr rfl rfl⟩
    | true =>
      intro good
      have both := Bool.and_eq_true_iff.mp (wellTyped_cons.mp good).1
      cases (isInt.mp (of_decide_eq_true both.1)).symm.trans is
  | tupleExp name values rest ih =>
    obtain ⟨first, w, codeRest, visited, loweredRest, rfl⟩ := let_eq_ok lowered
    obtain ⟨code, stores, rfl⟩ := tupleExp_eq_ok visited
    have start : Typed pointer (v.getMalloc.skip 1) :=
      typed.congr (keeps_getMalloc v).2 (keeps_getMalloc v).1.slots
    have good : WellTyped (⟨v.getMalloc.next, .call mallocTy (.symbol "malloc")
          [.const (BitVec.ofNat 64 (values.length * 8))]⟩ ::
        ⟨v.getMalloc.next + 1, .ptrToInt (.inst .ptr v.getMalloc.next)⟩ :: code) :=
      wellTyped_cons.mpr ⟨rfl, wellTyped_cons.mpr ⟨rfl, stores.wellTyped rfl⟩⟩
    exact agrees_let (iff_of_true good rfl) (fun _ => stores.typed (start.enter name))
      fun typed' => ih isFlat calls cells unknown typed' loweredRest
  | projExp name tuple index rest ih =>
    obtain ⟨first, w, codeRest, visited, loweredRest, rfl⟩ := let_eq_ok lowered
    obtain ⟨tupleInt, ptr, cast, w₁, found, casts, rfl, rfl⟩ := projExp_eq_ok visited
    obtain ⟨castTyped, isPtr⟩ := casts.wellTyped (typed.isWord found)
    have good : WellTyped (cast ++ [⟨w₁.next, .gep ptr index⟩,
        ⟨w₁.next + 1, .load (.inst .ptr w₁.next)⟩]) :=
      wellTyped_append.mpr ⟨castTyped, wellTyped_cons.mpr ⟨decide_eq_true isPtr,
        wellTyped_cons.mpr ⟨rfl, wellTyped_nil⟩⟩⟩
    have entered := Typed.enter (v := w₁.skip 1) ((casts.typed typed).congr rfl rfl) name
    refine agrees_let (iff_of_true good rfl) (fun _ => entered) fun typed' =>
      ih isFlat calls cells (fun x eq => ?_) typed' loweredRest
    cases eq
    simp [LLVMLowerVisitor.enter]

end Nodes

/-! ## Functions -/

/-- The code of every block is well typed. -/
def BodyTyped (body : Body) : Prop := ∀ code ∈ body, WellTyped code

theorem bodyTyped_modify {body : Body} {index : Nat} (inRange : index < body.length)
    (code : List Instruction) :
    BodyTyped (body.modify index (· ++ code)) ↔ BodyTyped body ∧ WellTyped code := by
  unfold BodyTyped
  induction body generalizing index with
  | nil => cases inRange
  | cons first body ih =>
    cases index with
    | zero =>
      rw [List.modify_zero_cons, List.forall_mem_cons, List.forall_mem_cons, wellTyped_append]
      exact and_right_comm
    | succ index =>
      rw [List.modify_succ_cons, List.forall_mem_cons, List.forall_mem_cons,
        ih (Nat.lt_of_succ_lt_succ inRange)]
      exact and_assoc.symm

section Functions

variable {v v' : LLVMLowerVisitor} {pointer : Option Var} {body body' : Body}

/-- What a block is lowered to is well typed exactly if its types agree. -/
theorem agrees_lowerBlock {b : Join} (isFlat : flat b.body = true)
    (calls : projected none b.body = true) (cells : labelsInCells b.body = true)
    (inRange : ∀ x i, v.namedBlocks x = some i → i < body.length) (typed : Typed pointer v)
    (lowered : lowerBlock (body, v) b = .ok (body', v')) :
    ∃ good, Agrees (typesBlock pointer b) good v' ∧ (BodyTyped body' ↔ BodyTyped body ∧ good) ∧
      body'.length = body.length := by
  obtain ⟨index, load, w, code, found, loads, loweredBody, rfl⟩ := lowerBlock_eq_ok lowered
  have start : WellTyped load ∧ Typed (b.slot.elim pointer (rebind pointer)) w := by
    cases loads with
    | none slot =>
      rw [slot]
      exact ⟨wellTyped_nil, typed⟩
    | some slot found =>
      rw [slot]
      have good := decide_eq_true (typed.slots found)
      exact ⟨wellTyped_cons.mpr ⟨good, wellTyped_nil⟩, typed.enter _⟩
  have agrees := agrees_lowerExp isFlat calls cells (fun _ eq => by cases eq) start.2 loweredBody
  refine ⟨_, agrees, ?_, List.length_modify _ _ _⟩
  rw [bodyTyped_modify (inRange _ _ found), wellTyped_append, and_iff_right start.1]

/-- The code before is well typed if that after a block is. -/
theorem bodyTyped_lowerBlock {b : Join} (lowered : lowerBlock (body, v) b = .ok (body', v'))
    (good : BodyTyped body') : BodyTyped body := by
  obtain ⟨index, load, w, code, -, -, -, rfl⟩ := lowerBlock_eq_ok lowered
  by_cases inRange : index < body.length
  · exact ((bodyTyped_modify inRange _).mp good).1
  · rwa [List.modify_eq_self (Nat.le_of_not_lt inRange)] at good

theorem bodyTyped_blocks {blocks : List Join}
    (lowered : blocks.foldlM lowerBlock (body, v) = .ok (body', v')) (good : BodyTyped body') :
    BodyTyped body := by
  induction blocks generalizing body v with
  | nil =>
    cases lowered
    exact good
  | cons b blocks ih =>
    rw [List.foldlM_cons] at lowered
    obtain ⟨⟨body₁, v₁⟩, first, others⟩ := except_bind_eq_ok.mp lowered
    exact bodyTyped_lowerBlock first (ih others)

/-- The blocks agree with their types exactly if each of them does. -/
theorem agrees_blocks {blocks : List Join} (isFlat : ∀ b ∈ blocks, flat b.body = true)
    (calls : ∀ b ∈ blocks, projected none b.body = true)
    (cells : ∀ b ∈ blocks, labelsInCells b.body = true)
    (inRange : ∀ x i, v.namedBlocks x = some i → i < body.length) (typed : Typed pointer v)
    (lowered : blocks.foldlM lowerBlock (body, v) = .ok (body', v')) :
    BodyTyped body' ↔ BodyTyped body ∧ (blocks.foldlM typesBlock pointer).isSome = true := by
  induction blocks generalizing body v pointer with
  | nil =>
    cases lowered
    exact (and_iff_left rfl).symm
  | cons b blocks ih =>
    obtain ⟨flatHead, flatTail⟩ := List.forall_mem_cons.mp isFlat
    obtain ⟨callsHead, callsTail⟩ := List.forall_mem_cons.mp calls
    obtain ⟨cellsHead, cellsTail⟩ := List.forall_mem_cons.mp cells
    rw [List.foldlM_cons] at lowered ⊢
    obtain ⟨⟨body₁, v₁⟩, first, others⟩ := except_bind_eq_ok.mp lowered
    obtain ⟨good, agrees, both, length⟩ :=
      agrees_lowerBlock flatHead callsHead cellsHead inRange typed first
    cases types : typesBlock pointer b with
    | none =>
      rw [types] at agrees
      refine iff_of_false (fun goodBody => ?_) fun ended => Bool.false_ne_true ended.2
      exact agrees (both.mp (bodyTyped_blocks others goodBody)).2
    | some pointer' =>
      rw [types] at agrees
      have inRange₁ : ∀ x i, v₁.namedBlocks x = some i → i < body₁.length := by
        rw [length, (enters_lowerBlock flatHead callsHead first).keeps.blocks]
        exact inRange
      refine (ih flatTail callsTail cellsTail inRange₁ agrees.2 others).trans ?_
      rw [both, and_iff_left agrees.1]
      rfl

end Functions

/-! ## Modules -/

/-- Creating blocks makes allocations alone, slots that are pointers, and indices of blocks. -/
theorem createBlocks_typed (blocks : List Join) (index : Nat) (v : LLVMLowerVisitor) :
    WellTyped (createBlocks blocks index v).1 ∧
      (∀ j slot, (createBlocks blocks index v).2.spillSlots j = some slot →
        v.spillSlots j = some slot ∨ slot.type = .ptr) ∧
      ∀ x i, (createBlocks blocks index v).2.namedBlocks x = some i →
        v.namedBlocks x = some i ∨ i < index + blocks.length := by
  induction blocks generalizing index v with
  | nil => exact ⟨wellTyped_nil, fun _ _ found => .inl found, fun _ _ found => .inl found⟩
  | cons block blocks ih =>
    have created : ∀ {x i}, Function.update v.namedBlocks block.name (some index) x = some i →
        v.namedBlocks x = some i ∨ i < index + (block :: blocks).length := by
      intro x i found
      by_cases eq : x = block.name
      · rw [eq, Function.update_self] at found
        cases found
        exact .inr (Nat.lt_add_of_pos_right (Nat.succ_pos _))
      · rw [Function.update_of_ne eq] at found
        exact .inl found
    have later : ∀ {i}, i < index + 1 + blocks.length → i < index + (block :: blocks).length := by
      intro i lt
      rw [List.length_cons]
      omega
    cases slot : block.slot with
    | none =>
      simp only [createBlocks, slot]
      obtain ⟨typed, slots, inRange⟩ := ih (index + 1)
        { v with namedBlocks := Function.update v.namedBlocks block.name (some index) }
      exact ⟨typed, slots, fun x i found => (inRange x i found).elim created fun lt =>
        .inr (later lt)⟩
    | some name =>
      simp only [createBlocks, slot]
      obtain ⟨typed, slots, inRange⟩ := ih (index + 1)
        { v.skip 1 with
          namedBlocks := Function.update v.namedBlocks block.name (some index)
          spillSlots := Function.update v.spillSlots block.name (some (.inst .ptr v.next)) }
      refine ⟨wellTyped_cons.mpr ⟨rfl, typed⟩, fun j slot found => ?_,
        fun x i found => (inRange x i found).elim created fun lt => .inr (later lt)⟩
      rcases slots j slot found with before | isPtr
      · by_cases eq : j = block.name
        · simp only [eq, Function.update_self, Option.some.injEq] at before
          exact .inr (before ▸ rfl)
        · simp only [Function.update_of_ne eq] at before
          exact .inl before
      · exact .inr isPtr

/-- Arguments that are integers are entered as such. -/
theorem NamedTyped.nameArgs {pointer : Option Var} {named named' : Var → Option Operand}
    (typed : NamedTyped pointer named) {types : List Ty} {params : List Var} {index : Nat}
    (isInt : ∀ type ∈ types, type = .i64) (lengths : types.length = params.length)
    (ended : Emit.nameArgs types params index named = .ok named') :
    NamedTyped (params.foldl rebind pointer) named' := by
  induction types generalizing params index named pointer with
  | nil =>
    cases params with
    | nil =>
      cases ended
      exact typed
    | cons param params => cases lengths
  | cons type types ih =>
    cases params with
    | nil => cases lengths
    | cons param params =>
      obtain ⟨isIntHead, isIntTail⟩ := List.forall_mem_cons.mp isInt
      exact ih (NamedTyped.update typed param (.arg type index) isIntHead) isIntTail
        (Nat.succ.inj lengths) ended

/-- The arguments of a function are entered with the closure parameter as the pointer. -/
theorem nameArgs_typed {params : List Var} {named named' : Var → Option Operand}
    (empty : named = fun _ => none)
    (ended : Emit.nameArgs (getFunctionType params).params params 0 named = .ok named') :
    NamedTyped (closureParameter params) named' := by
  subst empty
  cases params with
  | nil =>
    cases ended
    exact fun x op found => by cases found
  | cons param params =>
    have types : (getFunctionType (param :: params)).params =
        .ptr :: params.mapIdx (fun i _ => if i + 1 = 0 then .ptr else .i64) :=
      List.mapIdx_cons (a := param)
    rw [types] at ended
    have start : NamedTyped (some param)
        (Function.update (fun _ => none) param (some (.arg .ptr 0))) := by
      intro x op found
      by_cases eq : x = param
      · rw [eq, Function.update_self] at found
        cases found
        rw [eq, if_pos rfl]
        rfl
      · rw [Function.update_of_ne eq] at found
        cases found
    refine NamedTyped.nameArgs start (fun type member => ?_) List.length_mapIdx ended
    obtain ⟨i, lt, rfl⟩ := List.mem_mapIdx.mp member
    rfl

/-- What comes before the blocks is well typed, and the closure parameter is the pointer. -/
theorem prepare_typed {module_ : Module} {fn : Function} {allocas : List Instruction}
    {v : LLVMLowerVisitor}
    (declared : module_.declared.lookup fn.name = some (getFunctionType fn.params))
    (prepared : prepare module_ fn = .ok (allocas, v)) :
    WellTyped allocas ∧ Typed (closureParameter fn.params) v ∧
      ∀ x i, v.namedBlocks x = some i → i < 1 + fn.blocks.length := by
  rw [prepare, except_bind_of_ok (find_eq_ok.mpr declared)] at prepared
  obtain ⟨named, named_, eq⟩ := except_bind_eq_ok.mp prepared
  let start : LLVMLowerVisitor := ⟨module_, 0, fun _ => none, fun _ => none,
    Function.update (fun _ => none) fn.entryBlock.name (some 0)⟩
  obtain ⟨goodAllocas, slots, inRange⟩ := createBlocks_typed fn.blocks 1 start
  obtain ⟨sameNamed, -⟩ := createBlocks_enters fn.blocks 1 start
  cases eq
  refine ⟨goodAllocas, ⟨?_, fun found => ?_⟩, fun x i found => ?_⟩
  · exact nameArgs_typed sameNamed named_
  · rcases slots _ _ found with before | isPtr
    · cases before
    · exact isPtr
  · rcases inRange x i found with before | lt
    · by_cases eq : x = fn.entryBlock.name
      · simp only [start, eq, Function.update_self, Option.some.injEq] at before
        omega
      · simp only [start, Function.update_of_ne eq] at before
        cases before
    · exact lt

/-- What lowering asks of the types of a function. -/
theorem typed_lowerFunction {M M' : Module} {fn : Function} (lowerable : Lowerable fn)
    (cells : ∀ b ∈ fn.entryBlock :: fn.blocks, labelsInCells b.body = true)
    (declared : M.declared.lookup fn.name = some (getFunctionType fn.params))
    (lowered : lowerFunction M fn = .ok M') :
    ∃ body, M'.bodies = M.bodies ++ [(fn.name, body)] ∧
      (BodyTyped body ↔ typesFunction fn = true) := by
  obtain ⟨allocas, v, code, w, body, v', prepared, entry, entersEntry, blocks, -, rfl⟩ :=
    lowerFunction_eq_ok lowerable lowered
  obtain ⟨goodAllocas, typed, inRange⟩ := prepare_typed declared prepared
  obtain ⟨flatEntry, flats⟩ := List.forall_mem_cons.mp lowerable.flat
  obtain ⟨callsEntry, calls⟩ := List.forall_mem_cons.mp lowerable.calls
  obtain ⟨cellsEntry, cells⟩ := List.forall_mem_cons.mp cells
  have unknown : ∀ x, (none : Option Var) = some x → (v.namedValues x).isSome = true :=
    fun _ eq => by cases eq
  have agrees := agrees_lowerExp flatEntry callsEntry cellsEntry unknown typed entry
  refine ⟨body, rfl, ?_⟩
  have emptyTyped : BodyTyped (fn.blocks.map fun _ => []) := by
    intro code member
    obtain ⟨b, -, rfl⟩ := List.mem_map.mp member
    exact wellTyped_nil
  have created : BodyTyped ((allocas ++ code) :: fn.blocks.map fun _ => []) ↔ WellTyped code := by
    refine List.forall_mem_cons.trans ((and_iff_left emptyTyped).trans ?_)
    rw [wellTyped_append, and_iff_right goodAllocas]
  unfold typesFunction
  cases types : typesExp fn.entryBlock.body (closureParameter fn.params) with
  | none =>
    rw [types] at agrees
    exact iff_of_false (fun good => agrees (created.mp (bodyTyped_blocks blocks good)))
      Bool.false_ne_true
  | some pointer =>
    rw [types] at agrees
    have inRange' : ∀ x i, w.namedBlocks x = some i →
        i < ((allocas ++ code) :: fn.blocks.map fun _ => []).length := by
      rw [entersEntry.keeps.blocks, List.length_cons, List.length_map, Nat.add_comm]
      exact inRange
    rw [agrees_blocks flats calls cells inRange' agrees.2 blocks, created,
      and_iff_right agrees.1]
    rfl

/-- The functions of a module, lowered one after another. -/
theorem typed_functions {fns : List Function} {M M' : Module}
    (lowerable : ∀ fn ∈ fns, Lowerable fn)
    (cells : ∀ fn ∈ fns, ∀ b ∈ fn.entryBlock :: fn.blocks, labelsInCells b.body = true)
    (declared : ∀ fn ∈ fns, M.declared.lookup fn.name = some (getFunctionType fn.params))
    (lowered : fns.foldlM lowerFunction M = .ok M') :
    M'.WellTyped ↔ M.WellTyped ∧ ∀ fn ∈ fns, typesFunction fn = true := by
  induction fns generalizing M with
  | nil =>
    cases lowered
    exact (and_iff_left (List.forall_mem_nil _)).symm
  | cons fn fns ih =>
    obtain ⟨lowerableHead, lowerableTail⟩ := List.forall_mem_cons.mp lowerable
    obtain ⟨cellsHead, cellsTail⟩ := List.forall_mem_cons.mp cells
    obtain ⟨declaredHead, declaredTail⟩ := List.forall_mem_cons.mp declared
    rw [List.foldlM_cons] at lowered
    obtain ⟨M₁, first, others⟩ := except_bind_eq_ok.mp lowered
    obtain ⟨body, bodies, typed⟩ := typed_lowerFunction lowerableHead cellsHead declaredHead first
    have later : ∀ fn' ∈ fns, M₁.declared.lookup fn'.name = some (getFunctionType fn'.params) :=
      fun fn' member => declared_lowerFunction lowerableHead first (declaredTail fn' member)
    rw [ih lowerableTail cellsTail later others, List.forall_mem_cons, ← and_assoc]
    refine and_congr ?_ Iff.rfl
    unfold Module.WellTyped
    rw [bodies, List.forall_mem_append, List.forall_mem_singleton]
    exact and_congr Iff.rfl typed

/-- Lowering functions with different names makes a well typed module, exactly if no lookup comes
before the name is defined and the types of every function agree. -/
theorem lowers_wellTyped_iff {fns : List Function} (lowerable : ∀ fn ∈ fns, Lowerable fn)
    (cells : ∀ fn ∈ fns, ∀ b ∈ fn.entryBlock :: fn.blocks, labelsInCells b.body = true)
    (distinct : (fns.map Function.name).Nodup) :
    (∃ M, lowerModule fns = .ok M ∧ M.WellTyped) ↔
      ∀ fn ∈ fns, Lower.Defined fn ∧ typesFunction fn = true := by
  have declared : ∀ fn ∈ fns, (fns.foldl declareFunction ⟨[], [], []⟩).declared.lookup fn.name =
      some (getFunctionType fn.params) := by
    intro fn member
    rw [lookup_declared, findFunction, find?_of_nodup distinct member]
    rfl
  have noBodies : (fns.foldl declareFunction ⟨[], [], []⟩).WellTyped := by
    unfold Module.WellTyped
    rw [bodies_declared]
    exact List.forall_mem_nil _
  have typed : ∀ {M}, lowerModule fns = .ok M →
      (M.WellTyped ↔ ∀ fn ∈ fns, typesFunction fn = true) := fun lowered =>
    (typed_functions lowerable cells declared lowered).trans (and_iff_right noBodies)
  constructor
  · intro good
    obtain ⟨M, lowered, good⟩ := good
    have defined := (lowers_iff lowerable distinct).mp ⟨M, lowered⟩
    exact fun fn member => ⟨defined fn member, (typed lowered).mp good fn member⟩
  · intro both
    obtain ⟨M, lowered⟩ := (lowers_iff lowerable distinct).mpr fun fn member => (both fn member).1
    exact ⟨M, lowered, (typed lowered).mpr fun fn member => (both fn member).2⟩

end Lambcalc.Emit
