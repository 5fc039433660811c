import Lambcalc.Emit.Simulation

/-!
# A conditional with two jumps

`visitIfJump` stores to the slots of both jumps before it branches, and what it stores is the
condition. The other way to lower the conditional is a branch to two new blocks, each of which
lowers its jump like any other one. The two agree exactly if what the jump that is taken passes is
the condition itself.
-/

namespace Lambcalc.Emit

open Anf Hoist Lib Lib.Ir LLVMLowerVisitor

/-- A `JumpExp`: where it goes, and what it passes. -/
structure Jump where
  joinName : Var
  slotValue : Option Value
  deriving DecidableEq, Repr

/-- The conditional by way of two new blocks, `fresh` and the next one: what is appended at the
insert point, and the code of the two blocks. -/
def LLVMLowerVisitor.visitIfBlocks (visitor : LLVMLowerVisitor) (fresh : Nat) (condition : Value)
    (thenJump elseJump : Jump) : Except Fault
      ((List Instruction × List Instruction × List Instruction) × LLVMLowerVisitor) := do
  let (value, visitor) ← visitor.operand condition
  let cond := visitor.next
  let (thenCode, visitor) ← (visitor.skip 2).jumpExp thenJump.joinName thenJump.slotValue
  let (elseCode, visitor) ← visitor.jumpExp elseJump.joinName elseJump.slotValue
  return (([⟨cond, .icmpNe value (.const 0)⟩,
    ⟨cond + 1, .condBr (.inst .i1 cond) fresh (fresh + 1)⟩], thenCode, elseCode), visitor)

/-! ## What a run finds -/

section Runs

variable {M : Module} (m : Machine M) (v : LLVMLowerVisitor)

/-- The word that a value is lowered to. -/
def wordOf (frame : Frame) (value : Value) : Option Word :=
  (v.visitValue value).1.bind (m.eval frame)

/-- Where the slot of a block lies. -/
def slotAddress (frame : Frame) (joinName : Var) : Option Word :=
  (v.spillSlots joinName).bind (m.eval frame)

/-- What the slot of a block holds. -/
def slotContents (s : State) (joinName : Var) : Option Cell :=
  (slotAddress m v s.frame joinName).map s.memory.cells

/-- What lowering and the run have prepared when the conditional is reached: results have earlier
numbers, every slot is allocated, and every block is part of the body. -/
structure Poised (frame : Frame) (memory : Memory) : Prop where
  numbered : Numbered v
  slots : ∀ j slot, v.spillSlots j = some slot →
    ∃ a, m.eval frame slot = some a ∧ memory.cells a ≠ .free
  blocks : ∀ j index, v.namedBlocks j = some index → ∃ code, frame.body[index]? = some code

/-- After these turns the run is at the start of the block of this name, in the same call. -/
structure Arrives (joinName : Var) (turns : Nat) (s s' : State) : Prop where
  run : after m.step turns s = some s'
  block : ∃ index, v.namedBlocks joinName = some index ∧ s'.frame.body[index]? = some s'.code
  callers : s'.callers = s.callers

/-- The two runs come to the block of the jump with the same in its slot, which is what the jump
passes. -/
def ArriveAlike (jump : Jump) (direct : Nat × State) (indirect : Nat × State) : Prop :=
  ∃ s s', Arrives m v jump.joinName direct.1 direct.2 s ∧
    Arrives m v jump.joinName indirect.1 indirect.2 s' ∧
    slotContents m v s jump.joinName = slotContents m v s' jump.joinName ∧
    ∀ value, jump.slotValue = some value →
      slotContents m v s jump.joinName = (wordOf m v direct.2.frame value).map .holds

/-- The jump that is taken passes the word of the condition. If it passes none, then the other one
passes none to the same slot, unless the slot holds this word already. -/
def PassesCondition (frame : Frame) (memory : Memory) (w : Word) (taken other : Jump) : Prop :=
  match taken.slotValue with
  | some value => wordOf m v frame value = some w
  | none => ∀ a, slotAddress m v frame taken.joinName = some a → other.slotValue.isSome = true →
    slotAddress m v frame other.joinName = some a → memory.cells a = .holds w

/-- What is left of memory when `w` has been stored to the slot of a jump that passes a value. -/
def storing (frame : Frame) (jump : Jump) (w : Word) (memory : Memory) : Memory :=
  match jump.slotValue, slotAddress m v frame jump.joinName with
  | some _, some a => memory.write a w
  | _, _ => memory

end Runs

/-- The jump that a conditional on this word takes. -/
def taken {α : Type} (w : Word) (thenOne elseOne : α) : α := if w = 0 then elseOne else thenOne

/-- The branch on the flag goes where the conditional goes. -/
theorem taken_flag {α : Type} (w : Word) (thenOne elseOne : α) :
    (if (if w = 0 then (0 : Word) else 1) = 0 then elseOne else thenOne) =
      taken w thenOne elseOne := by
  by_cases zero : w = 0
  · rw [taken, if_pos zero, if_pos rfl, if_pos zero]
  · rw [taken, if_neg zero, if_neg zero]
    exact if_neg (by decide)

section Words

variable {M : Module} {m : Machine M} {v v' : LLVMLowerVisitor} {frame : Frame} {memory : Memory}
  {value : Value} {id : Nat} {w : Word}

/-- An operand for the value evaluates to its word. -/
theorem wordOf_reads {op : Operand} (reads : Reads v value op) :
    wordOf m v frame value = m.eval frame op := by
  unfold wordOf
  cases reads with
  | intValue => rfl
  | varValue found => rw [LLVMLowerVisitor.visitValue, found, Option.bind_some]
  | address => rw [LLVMLowerVisitor.visitValue]; split <;> rfl
  | symbol => rw [LLVMLowerVisitor.visitValue]; split <;> rfl

theorem eval_body (body : Body) (op : Operand) :
    m.eval { frame with body := body } op = m.eval frame op := by
  cases op <;> rfl

theorem wordOf_body (body : Body) (value : Value) :
    wordOf m v { frame with body := body } value = wordOf m v frame value := by
  rw [wordOf, wordOf, show m.eval { frame with body := body } = m.eval frame from
    funext (eval_body body)]

theorem slotAddress_body (body : Body) (joinName : Var) :
    slotAddress m v { frame with body := body } joinName = slotAddress m v frame joinName := by
  rw [slotAddress, slotAddress, show m.eval { frame with body := body } = m.eval frame from
    funext (eval_body body)]

/-- A result with a later number changes no word that has a name. -/
theorem wordOf_set (numbered : Numbered v) (new : v.next ≤ id) :
    wordOf m v (frame.set id w) value = wordOf m v frame value := by
  rcases operand_cases v value with ⟨op, -, -, reads, -⟩ | ⟨x, rfl, unknown, -⟩
  · rw [wordOf_reads reads, wordOf_reads reads]
    refine eval_set_of_ne fun type eq => ?_
    subst eq
    cases reads with
    | varValue found => exact absurd (numbered.named _ _ _ found) (Nat.not_lt.mpr new)
  · simp only [wordOf, LLVMLowerVisitor.visitValue, unknown]
    rfl

theorem slotAddress_set (numbered : Numbered v) (new : v.next ≤ id) (joinName : Var) :
    slotAddress m v (frame.set id w) joinName = slotAddress m v frame joinName := by
  unfold slotAddress
  cases found : v.spillSlots joinName with
  | none => rfl
  | some slot =>
    refine eval_set_of_ne fun type eq => ?_
    subst eq
    exact absurd (numbered.slots _ _ _ found) (Nat.not_lt.mpr new)

theorem wordOf_congr (same : v'.namedValues = v.namedValues) :
    wordOf m v' frame value = wordOf m v frame value := by
  rcases operand_cases v value with ⟨op, -, -, reads, -⟩ | ⟨x, rfl, unknown, -⟩
  · rw [wordOf_reads reads, wordOf_reads (reads.congr same)]
  · simp only [wordOf, LLVMLowerVisitor.visitValue, same]

/-- The cell of a slot after such a store. -/
theorem cells_storing (jump : Jump) (a : Word) :
    (storing m v frame jump w memory).cells a =
      if jump.slotValue.isSome = true ∧ slotAddress m v frame jump.joinName = some a then .holds w
      else memory.cells a := by
  unfold storing
  cases passes : jump.slotValue with
  | none => simp
  | some value =>
    cases found : slotAddress m v frame jump.joinName with
    | none => simp
    | some c =>
      by_cases eq : c = a
      · subst eq
        simp
      · have other : ¬ (some c = some a) := fun same => eq (Option.some.inj same)
        rw [if_neg fun both => other both.2]
        exact Memory.write_of_ne (Ne.symm eq) _ _

theorem live_storing {jump : Jump} {a : Word} (live : memory.cells a ≠ .free) :
    (storing m v frame jump w memory).cells a ≠ .free := by
  rw [cells_storing]
  split
  · exact Cell.noConfusion
  · exact live

theorem slotAddress_some {slot : Operand} {joinName : Var}
    (found : v.spillSlots joinName = some slot) :
    slotAddress m v frame joinName = m.eval frame slot := by
  rw [slotAddress, found, Option.bind_some]

end Words

section Poised

variable {M : Module} {m : Machine M} {v : LLVMLowerVisitor} {frame : Frame} {memory : Memory}

theorem storing_set (numbered : Numbered v) {id : Nat} {u : Word} (new : v.next ≤ id)
    (jump : Jump) (w : Word) (memory : Memory) :
    storing m v (frame.set id u) jump w memory = storing m v frame jump w memory := by
  rw [storing, storing, slotAddress_set numbered new]

theorem storing_body (body : Body) (jump : Jump) (w : Word) :
    storing m v { frame with body := body } jump w memory = storing m v frame jump w memory := by
  rw [storing, storing, slotAddress_body]

/-- Stores leave what has been prepared. -/
theorem Poised.storing (poised : Poised m v frame memory) (jump : Jump) (w : Word) :
    Poised m v frame (storing m v frame jump w memory) where
  numbered := poised.numbered
  slots j slot found := by
    obtain ⟨a, reads, live⟩ := poised.slots j slot found
    exact ⟨a, reads, live_storing live⟩
  blocks := poised.blocks

/-- So does a later result. -/
theorem Poised.set (poised : Poised m v frame memory) {id : Nat} (new : v.next ≤ id) (u : Word) :
    Poised m v (frame.set id u) memory where
  numbered := poised.numbered
  slots j slot found := by
    obtain ⟨a, reads, live⟩ := poised.slots j slot found
    refine ⟨a, ?_, live⟩
    rw [← slotAddress_some found, slotAddress_set poised.numbered new, slotAddress_some found]
    exact reads
  blocks := poised.blocks

/-- And blocks that are put after the others. -/
theorem Poised.append (poised : Poised m v frame memory) {body : Body} (more : Body)
    (length : body.length = frame.body.length) :
    Poised m v { frame with body := body ++ more } memory where
  numbered := poised.numbered
  slots j slot found := by
    obtain ⟨a, reads, live⟩ := poised.slots j slot found
    exact ⟨a, (eval_body _ slot).trans reads, live⟩
  blocks j index found := by
    obtain ⟨code, at_⟩ := poised.blocks j index found
    have lt : index < body.length := length ▸ (List.getElem?_eq_some_iff.mp at_).1
    exact ⟨body[index], (List.getElem?_append_left lt).trans (List.getElem?_eq_getElem lt)⟩

/-- A map with one entry. -/
theorem update_none_eq_some {α : Type} {x y : Var} {a b : α}
    (found : Function.update (fun _ => none) x (some a) y = some b) : y = x ∧ b = a := by
  by_cases eq : y = x
  · subst eq
    rw [Function.update_self] at found
    exact ⟨rfl, (Option.some.inj found).symm⟩
  · rw [Function.update_of_ne eq] at found
    cases found

/-- The branches of a function go to its blocks. -/
theorem prepare_targets {M : Module} {fn : Function} {allocas : List Instruction}
    (prepared : prepare M fn = .ok (allocas, v)) {joinName : Var} {index : Nat}
    (found : v.namedBlocks joinName = some index) : index < 1 + fn.blocks.length := by
  obtain ⟨type, -, prepared⟩ := except_bind_eq_ok.mp prepared
  obtain ⟨named, -, eq⟩ := except_bind_eq_ok.mp prepared
  cases eq
  rcases (creates_createBlocks fn.blocks 1 _).bounded found with isEntry | lt
  · rw [(update_none_eq_some isEntry).2]
    omega
  · exact lt

/-- A call in which the slots have been allocated is prepared for the conditionals of the
function. -/
theorem poised_prepare {fn : Function} {allocas : List Instruction} {W : World} {start : Frame}
    {ids : List Nat} (prepared : prepare M fn = .ok (allocas, v))
    (declared : M.declared.lookup fn.name = some (getFunctionType fn.params))
    (nodup : fn.params.Nodup) (names : (fn.blocks.map Join.name).Nodup)
    (begun : Begun m W start ids frame memory) (made : ∀ i ∈ allocas, i.id ∈ ids)
    (length : frame.body.length = 1 + fn.blocks.length) : Poised m v frame memory where
  numbered := (prepare_eq_ok prepared declared nodup names).numbered
  slots j slot found := by
    obtain ⟨id, rfl, member⟩ := (prepare_eq_ok prepared declared nodup names).slots j slot found
    obtain ⟨c, owns, reads⟩ := begun.made id (made _ member)
    exact ⟨c, reads, (begun.owned c owns).1⟩
  blocks j index found :=
    ⟨_, List.getElem?_eq_getElem (length ▸ prepare_targets prepared found)⟩

/-- Visits that enter no slots and no blocks keep it so. -/
theorem Poised.enters {v' : LLVMLowerVisitor} {names : List Var}
    (poised : Poised m v frame memory) (enters : Enters names v v') :
    Poised m v' frame memory where
  numbered := enters.numbered poised.numbered
  slots j slot found := poised.slots j slot (enters.keeps.slots ▸ found)
  blocks j index found := poised.blocks j index (enters.keeps.blocks ▸ found)

end Poised

/-! ## What the two lowerings do -/

section Inversions

variable {v v' : LLVMLowerVisitor} {code : List Instruction}

theorem storeSlot_eq_ok {op : Operand} {jump : Jump}
    (visited : v.storeSlot op jump.joinName jump.slotValue = .ok (code, v')) :
    jump.slotValue = none ∧ code = [] ∧ v' = v ∨
      ∃ value slot, jump.slotValue = some value ∧ v.spillSlots jump.joinName = some slot ∧
        code = [⟨v.next, .store op slot⟩] ∧ v' = v.skip 1 := by
  cases passes : jump.slotValue with
  | none =>
    rw [passes] at visited
    cases visited
    exact .inl ⟨rfl, rfl, rfl⟩
  | some value =>
    rw [passes] at visited
    obtain ⟨slot, found, eq⟩ := except_bind_eq_ok.mp visited
    cases eq
    exact .inr ⟨value, slot, rfl, find_eq_ok.mp found, rfl, rfl⟩

theorem storeSlot_keeps {op : Operand} {jump : Jump}
    (visited : v.storeSlot op jump.joinName jump.slotValue = .ok (code, v')) :
    v'.spillSlots = v.spillSlots ∧ v'.namedBlocks = v.namedBlocks := by
  rcases storeSlot_eq_ok visited with ⟨-, -, rfl⟩ | ⟨value, slot, -, -, -, rfl⟩
  · exact ⟨rfl, rfl⟩
  · exact ⟨rfl, rfl⟩

/-- What `visitIfJump` emits: the condition, the two stores and the branch. -/
theorem visitIfJump_inv {condition : Value} {thenJump elseJump : Jump}
    (visited : v.visitIfJump condition thenJump.joinName thenJump.slotValue elseJump.joinName
      elseJump.slotValue = .ok (code, v')) :
    ∃ op w thenStore w₁ elseStore w₂ id thenBlock elseBlock, Reads v condition op ∧
      OnlyGlobals v w ∧
      (w.skip 1).storeSlot op thenJump.joinName thenJump.slotValue = .ok (thenStore, w₁) ∧
      w₁.storeSlot op elseJump.joinName elseJump.slotValue = .ok (elseStore, w₂) ∧
      v.namedBlocks thenJump.joinName = some thenBlock ∧
      v.namedBlocks elseJump.joinName = some elseBlock ∧
      code = ⟨w.next, .icmpNe op (.const 0)⟩ :: (thenStore ++ (elseStore ++
        [⟨id, .condBr (.inst .i1 w.next) thenBlock elseBlock⟩])) := by
  obtain ⟨⟨op, w⟩, first, visited⟩ := except_bind_eq_ok.mp visited
  obtain ⟨⟨thenStore, w₁⟩, storedThen, visited⟩ := except_bind_eq_ok.mp visited
  obtain ⟨⟨elseStore, w₂⟩, storedElse, visited⟩ := except_bind_eq_ok.mp visited
  obtain ⟨thenBlock, foundThen, visited⟩ := except_bind_eq_ok.mp visited
  obtain ⟨elseBlock, foundElse, eq⟩ := except_bind_eq_ok.mp visited
  cases eq
  obtain ⟨reads, globals, rfl⟩ := operand_eq_ok first
  have same := (storeSlot_keeps storedElse).2.trans (storeSlot_keeps storedThen).2
  refine ⟨op, _, thenStore, w₁, elseStore, w₂, w₂.next, thenBlock, elseBlock, reads,
    ⟨globals, rfl⟩, storedThen, storedElse, ?_, ?_, ?_⟩
  · exact same ▸ find_eq_ok.mp foundThen
  · exact same ▸ find_eq_ok.mp foundElse
  · rw [List.append_assoc]

/-- A jump that passes a value finds a slot. -/
theorem visitIfJump_slots {condition : Value} {thenJump elseJump : Jump} {w : Word}
    (visited : v.visitIfJump condition thenJump.joinName thenJump.slotValue elseJump.joinName
      elseJump.slotValue = .ok (code, v')) (value : Value)
    (passes : (taken w thenJump elseJump).slotValue = some value) :
    ∃ slot, v.spillSlots (taken w thenJump elseJump).joinName = some slot := by
  obtain ⟨op, w₀, thenStore, w₁, elseStore, w₂, id, thenBlock, elseBlock, -, ⟨globals, rfl⟩,
    storedThen, storedElse, -⟩ := visitIfJump_inv visited
  have found : ∀ {jump : Jump} {w w' : LLVMLowerVisitor} {code : List Instruction},
      jump.slotValue = some value → w.spillSlots = v.spillSlots →
      w.storeSlot op jump.joinName jump.slotValue = .ok (code, w') →
      ∃ slot, v.spillSlots jump.joinName = some slot := by
    intro jump w w' code passes same stored
    rcases storeSlot_eq_ok stored with ⟨none_, -⟩ | ⟨value, slot, -, found, -⟩
    · cases passes.symm.trans none_
    · exact ⟨slot, same ▸ found⟩
  unfold taken at passes ⊢
  split
  · rename_i zero
    rw [if_pos zero] at passes
    exact found passes (storeSlot_keeps storedThen).1 storedElse
  · rename_i nonzero
    rw [if_neg nonzero] at passes
    have same : ((v.withGlobals globals).skip 1).spillSlots = v.spillSlots := rfl
    exact found passes same storedThen

theorem visitIfBlocks_inv {fresh : Nat} {condition : Value} {thenJump elseJump : Jump}
    {branch thenCode elseCode : List Instruction}
    (visited : v.visitIfBlocks fresh condition thenJump elseJump =
      .ok ((branch, thenCode, elseCode), v')) :
    ∃ op w w₁, Reads v condition op ∧ OnlyGlobals v w ∧
      (w.skip 2).jumpExp thenJump.joinName thenJump.slotValue = .ok (thenCode, w₁) ∧
      w₁.jumpExp elseJump.joinName elseJump.slotValue = .ok (elseCode, v') ∧
      branch = [⟨w.next, .icmpNe op (.const 0)⟩,
        ⟨w.next + 1, .condBr (.inst .i1 w.next) fresh (fresh + 1)⟩] := by
  obtain ⟨⟨op, w⟩, first, visited⟩ := except_bind_eq_ok.mp visited
  obtain ⟨⟨thenCode', w₁⟩, loweredThen, visited⟩ := except_bind_eq_ok.mp visited
  obtain ⟨⟨elseCode', w₂⟩, loweredElse, eq⟩ := except_bind_eq_ok.mp visited
  cases eq
  obtain ⟨reads, only⟩ := operand_eq_ok first
  exact ⟨op, w, w₁, reads, only, loweredThen, loweredElse, rfl⟩

theorem jumpExp_keeps {jump : Jump}
    (visited : v.jumpExp jump.joinName jump.slotValue = .ok (code, v')) :
    v'.namedValues = v.namedValues ∧ v'.spillSlots = v.spillSlots ∧
      v'.namedBlocks = v.namedBlocks := by
  cases passes : jump.slotValue with
  | none =>
    rw [passes] at visited
    obtain ⟨block, -, -, rfl⟩ := jumpExp_none_eq_ok visited
    exact ⟨rfl, rfl, rfl⟩
  | some value =>
    rw [passes] at visited
    obtain ⟨block, slot, op, w, -, -, -, ⟨globals, rfl⟩, -, rfl⟩ := jumpExp_some_eq_ok visited
    exact ⟨rfl, rfl, rfl⟩

end Inversions

section Steps

variable {M : Module} {m : Machine M} {v v' w' : LLVMLowerVisitor} {frame : Frame}
  {memory : Memory} {callers : List Caller} {code rest : List Instruction} {jump : Jump} {w : Word}

/-- The store of `visitIfJump` for one of the jumps. -/
theorem after_storeSlot {op : Operand} (poised : Poised m v frame memory)
    (reads : m.eval frame op = some w) (same : w'.spillSlots = v.spillSlots)
    (visited : w'.storeSlot op jump.joinName jump.slotValue = .ok (code, v')) (turns : Nat) :
    after m.step (code.length + turns) ⟨frame, code ++ rest, callers, memory⟩ =
      after m.step turns ⟨frame, rest, callers, storing m v frame jump w memory⟩ := by
  rcases storeSlot_eq_ok visited with ⟨none_, rfl, -⟩ | ⟨value, slot, some_, found, rfl, -⟩
  · rw [storing, none_, List.length_nil, Nat.zero_add]
    rfl
  · rw [same] at found
    obtain ⟨a, address, live⟩ := poised.slots _ slot found
    rw [storing, some_, slotAddress_some found, address, List.length_singleton, Nat.add_comm]
    exact after_of_inl (m.step_store address reads live) turns

/-- A jump stores what it passes, and goes to its block. -/
theorem after_jumpExp (poised : Poised m v frame memory) (named : w'.namedValues = v.namedValues)
    (slots : w'.spillSlots = v.spillSlots) (blocks : w'.namedBlocks = v.namedBlocks)
    (passes : ∀ value, jump.slotValue = some value → wordOf m v frame value = some w)
    (visited : w'.jumpExp jump.joinName jump.slotValue = .ok (code, v')) :
    ∃ index block, v.namedBlocks jump.joinName = some index ∧ frame.body[index]? = some block ∧
      after m.step code.length ⟨frame, code, callers, memory⟩ =
        some ⟨frame, block, callers, storing m v frame jump w memory⟩ := by
  cases some_ : jump.slotValue with
  | none =>
    rw [some_] at visited
    obtain ⟨index, found, rfl, -⟩ := jumpExp_none_eq_ok visited
    rw [blocks] at found
    obtain ⟨block, at_⟩ := poised.blocks _ index found
    rw [storing, some_]
    exact ⟨index, block, found, at_, after_of_inl (m.step_br at_) 0⟩
  | some value =>
    rw [some_] at visited
    obtain ⟨index, slot, op, u, found, foundSlot, reads, -, rfl, -⟩ := jumpExp_some_eq_ok visited
    rw [blocks] at found
    rw [slots] at foundSlot
    obtain ⟨block, at_⟩ := poised.blocks _ index found
    obtain ⟨a, address, live⟩ := poised.slots _ slot foundSlot
    have word := passes value some_
    rw [wordOf_reads (reads.congr named.symm)] at word
    rw [storing, some_, slotAddress_some foundSlot, address]
    refine ⟨index, block, found, at_, ?_⟩
    exact (after_of_inl (m.step_store address word live) 1).trans (after_of_inl (m.step_br at_) 0)

/-- `visitIfJump` stores the condition to the slots of both jumps, and branches. -/
theorem after_visitIfJump {condition : Value} {thenJump elseJump : Jump}
    (poised : Poised m v frame memory) (isCond : wordOf m v frame condition = some w)
    (lowered : v.visitIfJump condition thenJump.joinName thenJump.slotValue elseJump.joinName
      elseJump.slotValue = .ok (code, v')) :
    ∃ id u index block, v.next ≤ id ∧
      v.namedBlocks (taken w thenJump elseJump).joinName = some index ∧
      frame.body[index]? = some block ∧
      after m.step code.length ⟨frame, code, callers, memory⟩ = some ⟨frame.set id u, block,
        callers, storing m v frame elseJump w (storing m v frame thenJump w memory)⟩ := by
  obtain ⟨op, w₀, thenStore, w₁, elseStore, w₂, id, thenBlock, elseBlock, reads, ⟨globals, rfl⟩,
    storedThen, storedElse, foundThen, foundElse, rfl⟩ := visitIfJump_inv lowered
  have slots : ((v.withGlobals globals).skip 1).spillSlots = v.spillSlots := rfl
  have new : v.next ≤ (v.withGlobals globals).next := le_rfl
  generalize (v.withGlobals globals).next = cond at new ⊢
  have word := (wordOf_reads reads).symm.trans isCond
  have zero : m.eval frame (.const 0) = some 0 := rfl
  obtain ⟨u, isFlag⟩ : ∃ u : Word, u = if w = 0 then 0 else 1 := ⟨_, rfl⟩
  have word' : m.eval (frame.set cond u) op = some w :=
    (wordOf_reads reads).symm.trans ((wordOf_set poised.numbered new).trans isCond)
  have found : v.namedBlocks (taken w thenJump elseJump).joinName =
      some (taken w thenBlock elseBlock) := by
    unfold taken
    split
    · exact foundElse
    · exact foundThen
  obtain ⟨block, at_⟩ := poised.blocks _ _ found
  rw [← taken_flag, ← isFlag] at at_
  refine ⟨cond, u, _, block, new, found, ?_, ?_⟩
  · rwa [← taken_flag, ← isFlag]
  have slots' := (storeSlot_keeps storedThen).1.trans slots
  rw [List.length_cons, List.length_append, List.length_append, List.length_singleton,
    after_of_inl (m.step_icmpNe word zero), ← isFlag,
    after_storeSlot (poised.set new u) word' slots storedThen,
    after_storeSlot ((poised.set new u).storing thenJump w) word' slots' storedElse,
    after_of_inl (m.step_condBr (eval_set_self .i1) at_), storing_set poised.numbered new,
    storing_set poised.numbered new]
  rfl

/-- By way of the two blocks, only the jump that is taken stores what it passes. -/
theorem after_visitIfBlocks {condition : Value} {thenJump elseJump : Jump} {word : Word}
    {branch thenCode elseCode : List Instruction} {body : Body}
    (poised : Poised m v frame memory) (isBody : frame.body = body ++ [thenCode, elseCode])
    (isCond : wordOf m v frame condition = some w)
    (passes : ∀ value, (taken w thenJump elseJump).slotValue = some value →
      wordOf m v frame value = some word)
    (lowered : v.visitIfBlocks body.length condition thenJump elseJump =
      .ok ((branch, thenCode, elseCode), v')) :
    ∃ id u index block, v.next ≤ id ∧
      v.namedBlocks (taken w thenJump elseJump).joinName = some index ∧
      frame.body[index]? = some block ∧
      after m.step (branch.length + (taken w thenCode elseCode).length)
        ⟨frame, branch, callers, memory⟩ = some ⟨frame.set id u, block, callers,
          storing m v frame (taken w thenJump elseJump) word memory⟩ := by
  obtain ⟨op, w₀, w₁, reads, ⟨globals, rfl⟩, loweredThen, loweredElse, rfl⟩ :=
    visitIfBlocks_inv lowered
  have new : v.next ≤ (v.withGlobals globals).next := le_rfl
  have sameThen := jumpExp_keeps loweredThen
  have jumps : ∃ w₂ w₃ : LLVMLowerVisitor, w₂.namedValues = v.namedValues ∧
      w₂.spillSlots = v.spillSlots ∧ w₂.namedBlocks = v.namedBlocks ∧
      w₂.jumpExp (taken w thenJump elseJump).joinName (taken w thenJump elseJump).slotValue =
        .ok (taken w thenCode elseCode, w₃) := by
    unfold taken
    split
    · exact ⟨_, _, sameThen.1, sameThen.2.1, sameThen.2.2, loweredElse⟩
    · exact ⟨(v.withGlobals globals).skip 2, _, rfl, rfl, rfl, loweredThen⟩
  obtain ⟨w₂, w₃, named, slots, blocks, jumps⟩ := jumps
  generalize (v.withGlobals globals).next = cond at new ⊢
  have word' := (wordOf_reads reads).symm.trans isCond
  have zero : m.eval frame (.const 0) = some 0 := rfl
  obtain ⟨u, isFlag⟩ : ∃ u : Word, u = if w = 0 then 0 else 1 := ⟨_, rfl⟩
  have at_ : (frame.set cond u).body[taken w body.length (body.length + 1)]? =
      some (taken w thenCode elseCode) := by
    show frame.body[_]? = _
    rw [isBody, taken, taken]
    split
    · simp
    · simp
  rw [← taken_flag, ← isFlag] at at_
  have values : ∀ value, (taken w thenJump elseJump).slotValue = some value →
      wordOf m v (frame.set cond u) value = some word := fun value passed =>
    (wordOf_set poised.numbered new).trans (passes value passed)
  obtain ⟨index, block, found, at', jumped⟩ :=
    after_jumpExp (poised.set new u) named slots blocks values jumps
  refine ⟨cond, u, index, block, new, found, at', ?_⟩
  rw [List.length_cons, List.length_singleton, Nat.add_comm]
  rw [storing_set poised.numbered new] at jumped
  refine (after_of_inl (m.step_icmpNe word' zero) _).trans ?_
  rw [← isFlag]
  exact (after_of_inl (m.step_condBr (eval_set_self .i1) at_) _).trans jumped

end Steps

/-! ## When the two agree -/

section Agree

variable {M : Module} {m : Machine M} {v v₁ v₂ : LLVMLowerVisitor} {frame : Frame}
  {memory : Memory} {callers : List Caller} {condition : Value} {thenJump elseJump : Jump}
  {code branch thenCode elseCode : List Instruction} {body : Body} {w : Word}

theorem arriveAlike_iff {jump : Jump} {turns turns' : Nat} {s₀ s₀' s s' : State}
    (arrives : Arrives m v jump.joinName turns s₀ s)
    (arrives' : Arrives m v jump.joinName turns' s₀' s') :
    ArriveAlike m v jump (turns, s₀) (turns', s₀') ↔
      slotContents m v s jump.joinName = slotContents m v s' jump.joinName ∧
        ∀ value, jump.slotValue = some value →
          slotContents m v s jump.joinName = (wordOf m v s₀.frame value).map .holds := by
  constructor
  · rintro ⟨t, t', first, second, same, passed⟩
    cases first.run.symm.trans arrives.run
    cases second.run.symm.trans arrives'.run
    exact ⟨same, passed⟩
  · rintro ⟨same, passed⟩
    exact ⟨s, s', arrives, arrives', same, passed⟩

/-- The slot of the jump that is taken: `memory'` is what the stores of the condition to both slots
leave. -/
theorem contents_agree_iff {jump other : Jump} {word : Word} {memory' : Memory}
    (slots : ∀ value, jump.slotValue = some value →
      ∃ a, slotAddress m v frame jump.joinName = some a)
    (passes : ∀ value, jump.slotValue = some value → wordOf m v frame value = some word)
    (both : ∀ a, memory'.cells a = if jump.slotValue.isSome = true ∧
        slotAddress m v frame jump.joinName = some a ∨ other.slotValue.isSome = true ∧
        slotAddress m v frame other.joinName = some a then .holds w else memory.cells a) :
    (slotAddress m v frame jump.joinName).map memory'.cells =
        (slotAddress m v frame jump.joinName).map (storing m v frame jump word memory).cells ↔
      PassesCondition m v frame memory w jump other := by
  unfold PassesCondition
  cases passed : jump.slotValue with
  | none =>
    cases found : slotAddress m v frame jump.joinName with
    | none => simp
    | some a =>
      have unchanged : (storing m v frame jump word memory).cells a = memory.cells a := by
        rw [cells_storing, passed]
        simp
      have stored := both a
      rw [passed] at stored
      rw [Option.map_some, Option.map_some, Option.some.injEq, unchanged, stored]
      constructor
      · rintro same c isC passes' isOther
        cases isC
        rw [if_pos (.inr ⟨passes', isOther⟩)] at same
        exact same.symm
      · intro holds
        split
        · rename_i stores
          rcases stores with ⟨no, -⟩ | ⟨passes', isOther⟩
          · cases no
          · exact (holds a rfl passes' isOther).symm
        · rfl
  | some value =>
    obtain ⟨a, found⟩ := slots value passed
    have stored := both a
    rw [passed, found, if_pos (.inl ⟨rfl, rfl⟩)] at stored
    have holds : (storing m v frame jump word memory).cells a = .holds word := by
      rw [cells_storing, passed, found]
      exact if_pos ⟨rfl, rfl⟩
    rw [found, Option.map_some, Option.map_some, stored, holds, Option.some.injEq,
      Cell.holds.injEq]
    show w = word ↔ wordOf m v frame value = some w
    rw [passes value passed, Option.some.injEq]
    exact eq_comm

/-- The memory that `visitIfJump` leaves. -/
theorem cells_both (a : Word) :
    (storing m v frame elseJump w (storing m v frame thenJump w memory)).cells a =
      if (taken w thenJump elseJump).slotValue.isSome = true ∧
          slotAddress m v frame (taken w thenJump elseJump).joinName = some a ∨
        (taken w elseJump thenJump).slotValue.isSome = true ∧
          slotAddress m v frame (taken w elseJump thenJump).joinName = some a then .holds w
      else memory.cells a := by
  rw [cells_storing, cells_storing, ← ite_or]
  by_cases zero : w = 0
  · simp only [taken, if_pos zero]
  · simp only [taken, if_neg zero]
    exact if_congr or_comm rfl rfl

theorem slotContents_set (numbered : Numbered v) {id : Nat} {u : Word} (new : v.next ≤ id)
    (block : List Instruction) (joinName : Var) :
    slotContents m v ⟨frame.set id u, block, callers, memory⟩ joinName =
      (slotAddress m v frame joinName).map memory.cells := by
  rw [slotContents, slotAddress_set numbered new]

/-- The direct lowering of a conditional comes to the same block with the same in its slot as the
one by way of two blocks exactly if the jump that is taken passes the condition. -/
theorem visitIfJump_agrees_iff (poised : Poised m v frame memory)
    (isCond : wordOf m v frame condition = some w)
    (passes : ∀ value, (taken w thenJump elseJump).slotValue = some value →
      ∃ word, wordOf m v frame value = some word)
    (length : body.length = frame.body.length)
    (direct : v.visitIfJump condition thenJump.joinName thenJump.slotValue elseJump.joinName
      elseJump.slotValue = .ok (code, v₁))
    (indirect : v.visitIfBlocks body.length condition thenJump elseJump =
      .ok ((branch, thenCode, elseCode), v₂)) :
    ArriveAlike m v (taken w thenJump elseJump)
        (code.length, ⟨frame, code, callers, memory⟩)
        (branch.length + (taken w thenCode elseCode).length,
          ⟨{ frame with body := body ++ [thenCode, elseCode] }, branch, callers, memory⟩) ↔
      PassesCondition m v frame memory w (taken w thenJump elseJump)
        (taken w elseJump thenJump) := by
  set jump := taken w thenJump elseJump with isJump
  obtain ⟨word, passes'⟩ : ∃ word, ∀ value, jump.slotValue = some value →
      wordOf m v frame value = some word := by
    cases passed : jump.slotValue with
    | none => exact ⟨0, fun value eq => by cases eq⟩
    | some value =>
      obtain ⟨word, found⟩ := passes value passed
      exact ⟨word, fun value' eq => by cases eq; exact found⟩
  set frame' : Frame := { frame with body := body ++ [thenCode, elseCode] } with isFrame'
  have poised' : Poised m v frame' memory := poised.append [thenCode, elseCode] length
  have wordOf' : ∀ value, wordOf m v frame' value = wordOf m v frame value := wordOf_body _
  have slotAddress' : ∀ j, slotAddress m v frame' j = slotAddress m v frame j := slotAddress_body _
  have storing' : ∀ jump w, storing m v frame' jump w memory = storing m v frame jump w memory :=
    storing_body _
  obtain ⟨id, u, index, block, new, found, at_, ran⟩ :=
    after_visitIfJump poised isCond direct
  obtain ⟨id', u', index', block', new', found', at', ran'⟩ :=
    after_visitIfBlocks poised' rfl ((wordOf' _).trans isCond)
      (fun value passed => (wordOf' value).trans (passes' value passed)) indirect
  have arrives : Arrives m v jump.joinName code.length ⟨frame, code, callers, memory⟩ _ :=
    ⟨ran, ⟨index, found, at_⟩, rfl⟩
  have arrives' : Arrives m v jump.joinName (branch.length + (taken w thenCode elseCode).length)
    ⟨frame', branch, callers, memory⟩ _ := ⟨ran', ⟨index', found', at'⟩, rfl⟩
  rw [arriveAlike_iff arrives arrives', slotContents_set poised.numbered new,
    slotContents_set poised.numbered new', slotAddress', storing', ← isJump]
  have slots : ∀ value, jump.slotValue = some value →
      ∃ a, slotAddress m v frame jump.joinName = some a := by
    intro value passed
    obtain ⟨slot, spilled⟩ := visitIfJump_slots direct value passed
    obtain ⟨a, reads, -⟩ := poised.slots _ slot spilled
    exact ⟨a, (slotAddress_some spilled).trans reads⟩
  rw [contents_agree_iff slots passes' cells_both]
  refine and_iff_left_of_imp fun agrees value passed => ?_
  obtain ⟨a, address⟩ := slots value passed
  have word' : wordOf m v frame value = some w := by
    rw [PassesCondition, passed] at agrees
    exact agrees
  have isTaken : jump.slotValue.isSome = true ∧ slotAddress m v frame jump.joinName = some a :=
    ⟨Option.isSome_iff_exists.mpr ⟨value, passed⟩, address⟩
  show _ = (wordOf m v frame value).map Cell.holds
  rw [address, word', Option.map_some, Option.map_some, cells_both, if_pos (.inl isTaken)]

end Agree

/-- The visitor and the run for a function with one block, `j`, that has a slot. -/
def slotVisitor : LLVMLowerVisitor :=
  (createBlocks [⟨"j", some "x", .haltExp (.varValue "x")⟩] 1
    ⟨⟨[], [], []⟩, 0, fun _ => none, fun _ => none, fun _ => none⟩).2

def slotMachine : Machine ⟨[], [], []⟩ where
  toAllocator := .placing fun _ => 8
  addressOf _ := 0
  apart := List.forall_mem_nil _

def slotFrame : Frame where
  body := [[], [⟨1, .load (.inst .ptr 0)⟩, ⟨2, .ret (.inst .i64 1)⟩]]
  args := []
  results := Function.update (fun _ => none) 0 (some 8)
  own := [8]

def slotMemory : Memory := Memory.allocate ⟨fun _ => .free, 0⟩ [8]

theorem poised_slot : Poised slotMachine slotVisitor slotFrame slotMemory where
  numbered := {
    named x type id found := by cases found
    slots j type id found := by
      cases (update_none_eq_some found).2
      decide }
  slots j slot found := by
    cases (update_none_eq_some found).2
    exact ⟨8, rfl, by decide⟩
  blocks j index found := by
    cases (update_none_eq_some found).2
    exact ⟨_, rfl⟩

/-- The code that `visitIfJump` appends for `if condition then j 5 else j 6`. -/
def slotDirect (condition : Word) : List Instruction :=
  [⟨1, .icmpNe (.const condition) (.const 0)⟩, ⟨2, .store (.const condition) (.inst .ptr 0)⟩,
    ⟨3, .store (.const condition) (.inst .ptr 0)⟩, ⟨4, .condBr (.inst .i1 1) 1 1⟩]

/-- The code by way of two blocks. -/
def slotBranch (condition : Word) : List Instruction :=
  [⟨1, .icmpNe (.const condition) (.const 0)⟩, ⟨2, .condBr (.inst .i1 1) 2 3⟩]

/-- The two blocks. -/
def slotJumps : Body :=
  [[⟨3, .store (.const 5) (.inst .ptr 0)⟩, ⟨4, .br 1⟩],
    [⟨5, .store (.const 6) (.inst .ptr 0)⟩, ⟨6, .br 1⟩]]

/-- For `if 5 then j 5 else j 6` both pass 5. -/
theorem visitIfJump_agrees_five :
    ArriveAlike slotMachine slotVisitor ⟨"j", some (.intValue 5)⟩
      (4, ⟨slotFrame, slotDirect 5, [], slotMemory⟩)
      (4, ⟨{ slotFrame with body := slotFrame.body ++ slotJumps }, slotBranch 5, [],
        slotMemory⟩) := by
  let thenJump : Jump := ⟨"j", some (.intValue 5)⟩
  let elseJump : Jump := ⟨"j", some (.intValue 6)⟩
  have direct : slotVisitor.visitIfJump (.intValue 5) thenJump.joinName thenJump.slotValue
      elseJump.joinName elseJump.slotValue = .ok (slotDirect 5, slotVisitor.skip 4) := rfl
  have indirect : slotVisitor.visitIfBlocks slotFrame.body.length (.intValue 5) thenJump elseJump =
      .ok ((slotBranch 5, [⟨3, .store (.const 5) (.inst .ptr 0)⟩, ⟨4, .br 1⟩],
        [⟨5, .store (.const 6) (.inst .ptr 0)⟩, ⟨6, .br 1⟩]), slotVisitor.skip 6) := rfl
  have word : wordOf slotMachine slotVisitor slotFrame (.intValue 5) = some 5 := rfl
  exact (visitIfJump_agrees_iff poised_slot word (fun value passed => by
    cases passed
    exact ⟨5, rfl⟩) rfl direct indirect).mpr rfl

/-- For `if 1 then j 5 else j 6` the direct code passes 1, and the other one 5. -/
theorem visitIfJump_passes_one :
    (∃ after, slotVisitor.visitIfJump (.intValue 1) "j" (some (.intValue 5)) "j"
      (some (.intValue 6)) = .ok (slotDirect 1, after)) ∧
    (∃ code after, slotVisitor.visitIfBlocks slotFrame.body.length (.intValue 1)
      ⟨"j", some (.intValue 5)⟩ ⟨"j", some (.intValue 6)⟩ = .ok ((slotBranch 1, code), after) ∧
      [code.1, code.2] = slotJumps) ∧
    ¬ ArriveAlike slotMachine slotVisitor ⟨"j", some (.intValue 5)⟩
      (4, ⟨slotFrame, slotDirect 1, [], slotMemory⟩)
      (4, ⟨{ slotFrame with body := slotFrame.body ++ slotJumps }, slotBranch 1, [],
        slotMemory⟩) := by
  refine ⟨⟨_, rfl⟩, ⟨_, _, rfl, rfl⟩, ?_⟩
  rintro ⟨s, s', arrives, arrives', same, -⟩
  have ran := arrives.run
  have ran' := arrives'.run
  cases ran
  cases ran'
  revert same
  decide

end Lambcalc.Emit
