import Lambcalc.Emit.Emitted

/-!
# The bodies of functions

Where the code of each block lies in the body of its function (`Laid`), with the visitor that the
function is left with: block number `i` of the function is block number `i + 1` of the body, after
the entry block, which makes a slot for each block that has one.
-/

namespace Lambcalc.Emit

open Anf Hoist Lib Lib.Ir LLVMLowerVisitor

/-! ## What comes before the blocks -/

section Creates

variable {v v' : LLVMLowerVisitor} {blocks : List Join} {index : Nat} {code : List Instruction}

theorem Creates.next (creates : Creates blocks index v code v') : v.next ≤ v'.next := by
  induction creates with
  | nil => exact le_rfl
  | plain slot creates ih => exact ih
  | spilled slot creates ih => exact (Nat.le_succ _).trans ih

theorem Creates.allocas (creates : Creates blocks index v code v') :
    ∀ i ∈ code, i.op = .alloca := by
  induction creates with
  | nil => exact List.forall_mem_nil _
  | plain slot creates ih => exact ih
  | spilled slot creates ih => exact List.forall_mem_cons.mpr ⟨rfl, ih⟩

/-- A slot is the result of one of the allocations. -/
theorem Creates.slots (creates : Creates blocks index v code v') {j : Var} {slot : Operand}
    (found : v'.spillSlots j = some slot) : v.spillSlots j = some slot ∨
      ∃ id, slot = .inst .ptr id ∧ ⟨id, .alloca⟩ ∈ code ∧ id < v'.next := by
  induction creates with
  | nil => exact .inl found
  | plain _ creates ih => exact ih found
  | @spilled b blocks index v v' name code _ creates ih =>
    rcases ih found with before | ⟨id, eq, member, lt⟩
    · by_cases isName : j = b.name
      · simp only [isName, Function.update_self, Option.some.injEq] at before
        exact .inr ⟨v.next, before.symm, List.mem_cons_self,
          (Nat.lt_succ_self _).trans_le creates.next⟩
      · simp only [Function.update_of_ne isName] at before
        exact .inl before
    · exact .inr ⟨id, eq, List.mem_cons_of_mem _ member, lt⟩

theorem Creates.others (creates : Creates blocks index v code v') {x : Var}
    (notMem : x ∉ blocks.map Join.name) : v'.namedBlocks x = v.namedBlocks x := by
  induction creates with
  | nil => rfl
  | plain _ creates ih =>
    obtain ⟨ne, notMem⟩ := not_or.mp (mt List.mem_cons.mpr notMem)
    exact (ih notMem).trans (Function.update_of_ne ne _ _)
  | spilled _ creates ih =>
    obtain ⟨ne, notMem⟩ := not_or.mp (mt List.mem_cons.mpr notMem)
    exact (ih notMem).trans (Function.update_of_ne ne _ _)

/-- Blocks of different names get consecutive numbers. -/
theorem Creates.numbering (creates : Creates blocks index v code v')
    (nodup : (blocks.map Join.name).Nodup) {i : Nat} {b : Join} (at_ : blocks[i]? = some b) :
    v'.namedBlocks b.name = some (index + i) := by
  induction creates generalizing i with
  | nil => cases at_
  | plain _ creates ih =>
    obtain ⟨notMem, nodupTail⟩ := List.nodup_cons.mp nodup
    cases i with
    | zero =>
      cases at_
      exact (creates.others notMem).trans (Function.update_self _ _ _)
    | succ i =>
      rw [ih nodupTail at_]
      congr 1
      omega
  | spilled _ creates ih =>
    obtain ⟨notMem, nodupTail⟩ := List.nodup_cons.mp nodup
    cases i with
    | zero =>
      cases at_
      exact (creates.others notMem).trans (Function.update_self _ _ _)
    | succ i =>
      rw [ih nodupTail at_]
      congr 1
      omega

theorem Creates.bounded (creates : Creates blocks index v code v') {x : Var} {i : Nat}
    (found : v'.namedBlocks x = some i) :
    v.namedBlocks x = some i ∨ i < index + blocks.length := by
  have step : ∀ {named : Var → Option Nat} {name : Var} {index count : Nat},
      Function.update named name (some index) x = some i ∨ i < index + 1 + count →
      named x = some i ∨ i < index + (count + 1) := by
    intro named name index count cases_
    rcases cases_ with found | lt
    · by_cases isName : x = name
      · rw [isName, Function.update_self] at found
        cases found
        exact .inr (by omega)
      · exact .inl ((Function.update_of_ne isName _ _).symm.trans found)
    · exact .inr (by omega)
  induction creates with
  | nil => exact .inl found
  | plain _ _ ih => exact step (ih found)
  | spilled _ _ ih => exact step (ih found)

end Creates

/-- Every parameter is entered as the argument of its number. -/
theorem nameArgs_eq_ok {types : List Ty} {params : List Var} {index : Nat}
    {named named' : Var → Option Operand} (ended : nameArgs types params index named = .ok named')
    (lengths : types.length = params.length) (nodup : params.Nodup) :
    (∀ x ∉ params, named' x = named x) ∧
      ∀ i x, params[i]? = some x → ∃ type, named' x = some (.arg type (index + i)) := by
  induction types generalizing params index named with
  | nil =>
    cases params with
    | nil =>
      cases ended
      exact ⟨fun _ _ => rfl, fun i x at_ => by cases at_⟩
    | cons param params => cases lengths
  | cons type types ih =>
    cases params with
    | nil => cases lengths
    | cons param params =>
      obtain ⟨notMem, nodupTail⟩ := List.nodup_cons.mp nodup
      obtain ⟨others, params'⟩ := ih ended (Nat.succ.inj lengths) nodupTail
      refine ⟨fun x notParam => ?_, fun i x at_ => ?_⟩
      · obtain ⟨ne, notTail⟩ := not_or.mp (mt List.mem_cons.mpr notParam)
        exact (others x notTail).trans (Function.update_of_ne ne _ _)
      · cases i with
        | zero =>
          cases at_
          exact ⟨type, (others _ notMem).trans (Function.update_self _ _ _)⟩
        | succ i =>
          obtain ⟨type, found⟩ := params' i x at_
          refine ⟨type, found.trans ?_⟩
          congr 2
          omega

/-- What lowering starts the blocks of a function with. -/
structure Prepared (fn : Function) (allocas : List Instruction) (v : LLVMLowerVisitor) : Prop where
  allocates : ∀ i ∈ allocas, i.op = .alloca
  slots : ∀ j slot, v.spillSlots j = some slot →
    ∃ id, slot = .inst .ptr id ∧ ⟨id, .alloca⟩ ∈ allocas
  numbering : ∀ i b, fn.blocks[i]? = some b → v.namedBlocks b.name = some (1 + i)
  params : ∀ i x, fn.params[i]? = some x → ∃ type, v.namedValues x = some (.arg type i)
  numbered : Numbered v
  new : ∀ x ∉ fn.params, v.namedValues x = none

/-- What lowering a function starts from: its parameters named, a slot for each join that has one,
and a block for each name. -/
theorem prepare_eq_ok {M : Module} {fn : Function} {allocas : List Instruction}
    {v : LLVMLowerVisitor} (prepared : prepare M fn = .ok (allocas, v))
    (declared : M.declared.lookup fn.name = some (getFunctionType fn.params))
    (nodup : fn.params.Nodup) (names : (fn.blocks.map Join.name).Nodup) :
    Prepared fn allocas v := by
  rw [prepare, except_bind_of_ok (find_eq_ok.mpr declared)] at prepared
  obtain ⟨named, ended, eq⟩ := except_bind_eq_ok.mp prepared
  cases eq
  let start : LLVMLowerVisitor := ⟨M, 0, fun _ => none, fun _ => none,
    Function.update (fun _ => none) fn.entryBlock.name (some 0)⟩
  have creates := creates_createBlocks fn.blocks 1 start
  have empty := (createBlocks_enters fn.blocks 1 start).1
  obtain ⟨others, params⟩ := nameArgs_eq_ok ended (length_getFunctionType fn.params) nodup
  have new : ∀ x ∉ fn.params, named x = none := fun x notParam =>
    (others x notParam).trans (congrFun empty x)
  have slots : ∀ j slot, (createBlocks fn.blocks 1 start).2.spillSlots j = some slot →
      ∃ id, slot = .inst .ptr id ∧ ⟨id, .alloca⟩ ∈ (createBlocks fn.blocks 1 start).1 ∧
        id < (createBlocks fn.blocks 1 start).2.next := fun j slot found =>
    (creates.slots found).resolve_left fun before => by cases before
  have isParam : ∀ x type id, named x ≠ some (.inst type id) := by
    intro x type id found
    by_cases member : x ∈ fn.params
    · obtain ⟨i, at_⟩ := List.getElem?_of_mem member
      obtain ⟨type', isArg⟩ := params i x at_
      cases isArg.symm.trans found
    · cases (new x member).symm.trans found
  refine ⟨creates.allocas, fun j slot found => ?_, fun i b at_ => creates.numbering names at_,
    fun i x at_ => ?_, ⟨fun x type id found => (isParam x type id found).elim,
      fun j type id found => ?_⟩, new⟩
  · obtain ⟨id, eq, member, -⟩ := slots j slot found
    exact ⟨id, eq, member⟩
  · obtain ⟨type, found⟩ := params i x at_
    exact ⟨type, Nat.zero_add i ▸ found⟩
  · obtain ⟨id', eq, -, lt⟩ := slots j _ found
    cases eq
    exact lt

/-! ## Blocks -/

/-- The code of a block: its slot is loaded first. -/
inductive BlockCode (Γ : LLVMLowerVisitor) (b : Join) : List Instruction → Prop where
  | plain {code : List Instruction} (slot : b.slot = none) (emitted : Emitted Γ b.body code) :
    BlockCode Γ b code
  | spilled {name : Var} {address : Operand} {id : Nat} {code : List Instruction}
      (slot : b.slot = some name) (found : Γ.spillSlots b.name = some address)
      (defines : Defines Γ name id) (emitted : Emitted Γ b.body code) :
    BlockCode Γ b (⟨id, .load address⟩ :: code)

section Blocks

variable {v w v' Γ : LLVMLowerVisitor}

theorem Loads.blockCode {b : Join} {load code : List Instruction} (loads : Loads v b load w)
    (numbered : Numbered v) (later : Later v w) (later' : Later w Γ)
    (emitted : Emitted Γ b.body code) : BlockCode Γ b (load ++ code) := by
  cases loads with
  | none slot => exact .plain slot emitted
  | some slot found =>
    refine .spilled slot ?_ (defines_of_enter numbered later') emitted
    rw [(later.trans later').keeps.slots]
    exact found

/-- New names that are entered before others that are new as well. -/
theorem Enters.append {names names' : List Var} (first : Enters names v w)
    (new : ∀ x ∈ names ++ names', v.namedValues x = none) (nodup : (names ++ names').Nodup) :
    Later v w ∧ ∀ x ∈ names', w.namedValues x = none := by
  obtain ⟨newFirst, newSecond⟩ := List.forall_mem_append.mp new
  refine ⟨first.later newFirst, fun x member => ?_⟩
  rw [first.others x fun inFirst => List.disjoint_of_nodup_append nodup inFirst member]
  exact newSecond x member

/-- Lowering puts the code of each block into its place, if names are new and entered once. -/
theorem placed_blocks {blocks : List Join} {done body : Body}
    (numbering : ∀ i b, blocks[i]? = some b → v.namedBlocks b.name = some (done.length + i))
    (isFlat : ∀ b ∈ blocks, flat b.body = true)
    (calls : ∀ b ∈ blocks, projected none b.body = true)
    (regular : ∀ b ∈ blocks, Regular b.body) (free : MallocFree v.module_) (numbered : Numbered v)
    (new : ∀ x ∈ boundBy blocks, v.namedValues x = none) (nodup : (boundBy blocks).Nodup)
    (lowered : blocks.foldlM lowerBlock (done ++ blocks.map fun _ => [], v) = .ok (body, v')) :
    ∃ codes, body = done ++ codes ∧ List.Forall₂ (BlockCode v') blocks codes := by
  induction blocks generalizing done v with
  | nil =>
    cases lowered
    exact ⟨[], rfl, .nil⟩
  | cons b blocks ih =>
    obtain ⟨flatHead, flatTail⟩ := List.forall_mem_cons.mp isFlat
    obtain ⟨callsHead, callsTail⟩ := List.forall_mem_cons.mp calls
    obtain ⟨regularHead, regularTail⟩ := List.forall_mem_cons.mp regular
    rw [List.foldlM_cons] at lowered
    obtain ⟨⟨body₁, v₁⟩, first, others⟩ := except_bind_eq_ok.mp lowered
    have free₁ : MallocFree v₁.module_ := free.lowerBlock flatHead regularHead _ first
    have enters := enters_lowerBlock flatHead callsHead first
    have entersTail := enters_blocks flatTail callsTail others
    obtain ⟨later, newTail⟩ := enters.append new nodup
    have nodupTail := (List.nodup_append.mp nodup).2.1
    obtain ⟨index, load, w, code, found, loads, loweredBody, rfl⟩ := lowerBlock_eq_ok first
    cases found.symm.trans (numbering 0 b rfl)
    have placed : (done ++ [] :: blocks.map fun _ => []).modify (done.length + 0)
        (· ++ (load ++ code)) = (done ++ [load ++ code]) ++ blocks.map fun _ => [] := by
      refine (List.modifyTailIdx_add _ 0 done _).trans ?_
      rw [List.append_assoc]
      rfl
    have head : BlockCode v' b (load ++ code) := by
      have names := List.nodup_append.mp nodup |>.1
      obtain ⟨laterLoad, newBody⟩ := loads.enters.append
        (fun x member => new x (List.mem_append_left _ member)) names
      have entersBody := enters_lowerExp flatHead callsHead (fun _ eq => by cases eq) loweredBody
      have laterBody := (entersBody.later newBody).trans (entersTail.later newTail)
      have freeBody : MallocFree w.module_ := by
        cases loads with
        | none slot => exact free
        | some slot found => exact free
      exact loads.blockCode numbered laterLoad laterBody (emitted_lowerExp flatHead callsHead
        (fun _ eq => by cases eq) regularHead freeBody (loads.enters.numbered numbered) newBody
        (List.nodup_append.mp names).2.1 loweredBody (entersTail.later newTail))
    rw [List.map_cons, placed] at others
    have numberingTail : ∀ i b', blocks[i]? = some b' →
        v₁.namedBlocks b'.name = some ((done ++ [load ++ code]).length + i) := by
      intro i b' at_
      rw [enters.keeps.blocks, numbering (i + 1) b' at_, List.length_append, List.length_singleton,
        Nat.add_assoc, Nat.add_comm 1]
    obtain ⟨codes, rfl, each⟩ := ih numberingTail flatTail callsTail regularTail free₁
      (enters.numbered numbered) newTail nodupTail others
    exact ⟨(load ++ code) :: codes, by simp, .cons head each⟩

end Blocks

/-! ## Functions -/

theorem exists_of_forall₂ {α β : Type} {R : α → β → Prop} {as : List α} {bs : List β}
    (related : List.Forall₂ R as bs) {i : Nat} {a : α} (at_ : as[i]? = some a) :
    ∃ b, bs[i]? = some b ∧ R a b := by
  induction related generalizing i with
  | nil => cases at_
  | @cons a' b as bs head tail ih =>
    cases i with
    | zero =>
      cases at_
      exact ⟨b, rfl, head⟩
    | succ i => exact ih at_

/-- What a function has to be for every name to be found in its body: lowering accepts it, and value
names and block names are different. -/
structure Orderly (fn : Function) : Prop where
  lowerable : Lowerable fn
  regular : ∀ b ∈ fn.entryBlock :: fn.blocks, Regular b.body
  names : (fn.params ++ boundBy (fn.entryBlock :: fn.blocks)).Nodup
  blocks : ((fn.entryBlock :: fn.blocks).map Join.name).Nodup

/-- The body `(allocas ++ entry) :: codes` of `fn`. -/
structure Laid (Γ : LLVMLowerVisitor) (fn : Function) (allocas entry : List Instruction)
    (codes : Body) : Prop where
  allocates : ∀ i ∈ allocas, i.op = .alloca
  slots : ∀ j slot, Γ.spillSlots j = some slot →
    ∃ id, slot = .inst .ptr id ∧ ⟨id, .alloca⟩ ∈ allocas
  params : ∀ i x, fn.params[i]? = some x → ∃ type, Γ.namedValues x = some (.arg type i)
  emitted : Emitted Γ fn.entryBlock.body entry
  numbering : ∀ i b, fn.blocks[i]? = some b → Γ.namedBlocks b.name = some (1 + i)
  blocks : List.Forall₂ (BlockCode Γ) fn.blocks codes

/-- The code of a block, and where it lies. -/
theorem Laid.block {Γ : LLVMLowerVisitor} {fn : Function} {allocas entry : List Instruction}
    {codes : Body} (laid : Laid Γ fn allocas entry codes) {b : Join} (member : b ∈ fn.blocks) :
    ∃ index code, Γ.namedBlocks b.name = some index ∧
      ((allocas ++ entry) :: codes)[index]? = some code ∧ BlockCode Γ b code := by
  obtain ⟨i, at_⟩ := List.getElem?_of_mem member
  obtain ⟨code, placed, blockCode⟩ := exists_of_forall₂ laid.blocks at_
  refine ⟨1 + i, code, laid.numbering i b at_, ?_, blockCode⟩
  rw [Nat.add_comm, List.getElem?_cons_succ]
  exact placed

/-- A lowered function is laid out as its blocks: the slots and the entry first, then the blocks in
their order. -/
theorem laid_lowerFunction {M M' : Module} {fn : Function} (orderly : Orderly fn)
    (free : MallocFree M)
    (declared : M.declared.lookup fn.name = some (getFunctionType fn.params))
    (lowered : lowerFunction M fn = .ok M') :
    ∃ Γ allocas entry codes, Laid Γ fn allocas entry codes ∧
      M' = { Γ.module_ with bodies := M.bodies ++ [(fn.name, (allocas ++ entry) :: codes)] } := by
  obtain ⟨allocas, v, entry, w, body, Γ, prepared, loweredEntry, enters, loweredBlocks,
    entersBlocks, rfl⟩ := lowerFunction_eq_ok orderly.lowerable lowered
  obtain ⟨flatEntry, flats⟩ := List.forall_mem_cons.mp orderly.lowerable.flat
  obtain ⟨callsEntry, calls⟩ := List.forall_mem_cons.mp orderly.lowerable.calls
  obtain ⟨regularEntry, regulars⟩ := List.forall_mem_cons.mp orderly.regular
  obtain ⟨nodupParams, nodupBound, apart⟩ := List.nodup_append.mp orderly.names
  have start := prepare_eq_ok prepared declared nodupParams (List.nodup_cons.mp orderly.blocks).2
  have freeStart : MallocFree v.module_ := (prepare_module prepared).symm ▸ free
  have sub : (bindings fn.entryBlock.body ++ boundBy fn.blocks).Sublist
      (boundBy (fn.entryBlock :: fn.blocks)) := (List.sublist_append_right _ _).append_right _
  have nodup := nodupBound.sublist sub
  have new : ∀ x ∈ bindings fn.entryBlock.body ++ boundBy fn.blocks, v.namedValues x = none :=
    fun x member => start.new x fun isParam => apart x isParam x (sub.subset member) rfl
  obtain ⟨later, newBlocks⟩ := enters.append new nodup
  have laterBlocks := entersBlocks.later newBlocks
  have keeps := later.keeps.trans laterBlocks.keeps
  have freeEntry : MallocFree w.module_ := freeStart.lowerExp flatEntry regularEntry _ loweredEntry
  have numbering : ∀ i b, fn.blocks[i]? = some b →
      w.namedBlocks b.name = some ([allocas ++ entry].length + i) := by
    intro i b at_
    rw [later.keeps.blocks]
    exact start.numbering i b at_
  obtain ⟨codes, rfl, each⟩ := placed_blocks numbering flats calls regulars freeEntry
    (enters.numbered start.numbered) newBlocks (List.nodup_append.mp nodup).2.1 loweredBlocks
  have emitted := emitted_lowerExp flatEntry callsEntry (fun _ eq => by cases eq) regularEntry
    freeStart start.numbered (fun x member => new x (List.mem_append_left _ member))
    (List.nodup_append.mp nodup).1 loweredEntry laterBlocks
  refine ⟨Γ, allocas, entry, codes, ⟨start.allocates, fun j slot found => ?_, fun i x at_ => ?_,
    emitted, fun i b at_ => ?_, each⟩, rfl⟩
  · exact start.slots j slot (keeps.slots ▸ found)
  · obtain ⟨type, found⟩ := start.params i x at_
    exact ⟨type, (later.trans laterBlocks).found found⟩
  · rw [keeps.blocks]
    exact start.numbering i b at_

/-! ## Modules -/

/-- The body of `fn` in `M`, which declares what the visitor of `fn` has declared. -/
structure DefinedIn (M : Module) (fn : Function) (definition : String × Body) : Prop where
  name : definition.1 = fn.name
  laid : ∃ Γ allocas entry codes, Laid Γ fn allocas entry codes ∧
    definition.2 = (allocas ++ entry) :: codes ∧
    ∀ name type, Γ.module_.declared.lookup name = some type →
      M.declared.lookup name = some type

/-- Every function of the list is in the module that lowering it leaves. -/
theorem definedIn_foldlM {fns : List Function} {M M' : Module}
    (orderly : ∀ fn ∈ fns, Orderly fn) (free : MallocFree M)
    (declared : ∀ fn ∈ fns, M.declared.lookup fn.name = some (getFunctionType fn.params))
    (lowered : fns.foldlM lowerFunction M = .ok M') :
    (∀ name type, M.declared.lookup name = some type → M'.declared.lookup name = some type) ∧
      ∃ definitions, M'.bodies = M.bodies ++ definitions ∧
        List.Forall₂ (DefinedIn M') fns definitions := by
  induction fns generalizing M with
  | nil =>
    cases lowered
    exact ⟨fun _ _ found => found, [], (List.append_nil _).symm, .nil⟩
  | cons fn fns ih =>
    obtain ⟨orderlyHead, orderlyTail⟩ := List.forall_mem_cons.mp orderly
    obtain ⟨declaredHead, declaredTail⟩ := List.forall_mem_cons.mp declared
    rw [List.foldlM_cons] at lowered
    obtain ⟨M₁, first, others⟩ := except_bind_eq_ok.mp lowered
    have free₁ := free.lowerFunction orderlyHead.lowerable orderlyHead.regular first
    have keeps : ∀ name type, M.declared.lookup name = some type →
        M₁.declared.lookup name = some type := fun name type =>
      declared_lowerFunction orderlyHead.lowerable first
    obtain ⟨keeps', definitions, eq, each⟩ := ih orderlyTail free₁
      (fun fn member => keeps _ _ (declaredTail fn member)) others
    obtain ⟨Γ, allocas, entry, codes, laid, rfl⟩ :=
      laid_lowerFunction orderlyHead free declaredHead first
    refine ⟨fun name type found => keeps' name type (keeps name type found),
      (fn.name, (allocas ++ entry) :: codes) :: definitions, ?_, .cons ⟨rfl, ?_⟩ each⟩
    · rw [eq, List.append_assoc]
      rfl
    · exact ⟨Γ, allocas, entry, codes, laid, rfl, keeps'⟩

/-- The body that is found under a name is that of the function of this name. -/
theorem lookup_definitions {M : Module} {fns : List Function} {definitions : List (String × Body)}
    (each : List.Forall₂ (DefinedIn M) fns definitions) (name : Var) :
    (findFunction fns name = none ∧ definitions.lookup name = none) ∨
      ∃ fn body, findFunction fns name = some fn ∧ definitions.lookup name = some body ∧
        DefinedIn M fn (name, body) := by
  induction each with
  | nil => exact .inl ⟨rfl, rfl⟩
  | @cons fn definition fns definitions defined each ih =>
    rw [findFunction_cons, List.lookup_cons]
    by_cases eq : fn.name = name
    · refine .inr ⟨fn, definition.2, if_pos eq, ?_, eq ▸ defined.name ▸ defined⟩
      rw [defined.name, eq, beq_self_eq_true]
    · have ne : (name == definition.1) = false := beq_false_of_ne fun isName =>
        eq (defined.name.symm.trans isName.symm)
      rw [if_neg eq, ne]
      exact ih

/-- What calls find in `M`: the bodies of functions, and no body of `malloc`. -/
structure Links (M : Module) (fns : List Function) : Prop where
  function : ∀ name fn, findFunction fns name = some fn → Orderly fn ∧
    M.declared.lookup name = some (getFunctionType fn.params) ∧
    ∃ body, M.bodies.lookup name = some body ∧ DefinedIn M fn (name, body)
  malloc : M.bodies.lookup "malloc" = none

theorem globals_declared (fns : List Function) (M : Module) :
    (fns.foldl declareFunction M).globals = M.globals := by
  induction fns generalizing M with
  | nil => rfl
  | cons fn fns ih =>
    rw [List.foldl_cons, ih, declareFunction]
    split
    · rfl
    · rfl

theorem mem_of_findFunction {fns : List Function} {name : Var} {fn : Function}
    (found : findFunction fns name = some fn) : fn ∈ fns ∧ fn.name = name := by
  unfold findFunction at found
  have isName := List.find?_some found
  exact ⟨List.mem_of_find?_eq_some found, of_decide_eq_true isName⟩

/-- Lowering functions of different names, none of them `malloc`, makes what calls look for. -/
theorem links_lowerModule {fns : List Function} {M : Module} (orderly : ∀ fn ∈ fns, Orderly fn)
    (distinct : (fns.map Function.name).Nodup) (notMalloc : "malloc" ∉ fns.map Function.name)
    (lowered : lowerModule fns = .ok M) : Links M fns := by
  have found : ∀ fn ∈ fns, findFunction fns fn.name = some fn := fun fn member =>
    find?_of_nodup distinct member
  have declared : ∀ name fn, findFunction fns name = some fn →
      (fns.foldl declareFunction ⟨[], [], []⟩).declared.lookup name =
        some (getFunctionType fn.params) := by
    intro name fn found
    rw [lookup_declared, found]
    rfl
  have unknown : findFunction fns "malloc" = none := by
    by_contra known
    obtain ⟨fn, found⟩ := Option.ne_none_iff_exists'.mp known
    obtain ⟨member, isMalloc⟩ := mem_of_findFunction found
    exact notMalloc (isMalloc ▸ List.mem_map_of_mem member)
  have free : MallocFree (fns.foldl declareFunction ⟨[], [], []⟩) := by
    refine ⟨?_, fun type eq => ?_⟩
    · rw [globals_declared]
      exact List.not_mem_nil
    · rw [lookup_declared, unknown] at eq
      cases eq
  obtain ⟨keeps, definitions, bodies, each⟩ := definedIn_foldlM orderly free
    (fun fn member => declared _ _ (found fn member)) lowered
  rw [bodies_declared, List.nil_append] at bodies
  refine ⟨fun name fn found => ?_, ?_⟩
  · obtain ⟨member, -⟩ := mem_of_findFunction found
    rcases lookup_definitions each name with ⟨none_, -⟩ | ⟨fn', body, found', defined, definedIn⟩
    · cases found.symm.trans none_
    · cases found.symm.trans found'
      exact ⟨orderly fn member, keeps _ _ (declared _ _ found), body, bodies ▸ defined, definedIn⟩
  · rcases lookup_definitions each "malloc" with ⟨-, none_⟩ | ⟨fn, body, found, -⟩
    · exact bodies ▸ none_
    · cases unknown.symm.trans found

end Lambcalc.Emit
