import Lambcalc.Emit.World

/-!
# Lowering simulates the block program

A run of the block program is followed by the machine, node by node: the results of a call represent
the environment of the call (`Matches`), a slot is stored to right before the branch that leads to
its load, and a call leaves a sound world to its caller.
-/

namespace Lambcalc.Emit

open Anf (Exp Value Var Env passSlot)
open Hoist Lib Lib.Ir LLVMLowerVisitor World
open Lambcalc.Convert (Val Heap read cell callee)

variable {M : Module} {m : Machine M} {Γ : LLVMLowerVisitor}

/-! ## Results -/

section Eval

variable {frame : Frame} {id : Nat} {w : Word}

theorem eval_set_self (type : Ty) : m.eval (frame.set id w) (.inst type id) = some w :=
  Function.update_self _ _ _

theorem eval_set_of_ne {op : Operand} (ne : ∀ type, op ≠ .inst type id) :
    m.eval (frame.set id w) op = m.eval frame op := by
  cases op with
  | inst type id' =>
    have other : id' ≠ id := fun eq => ne type (eq ▸ rfl)
    exact Function.update_of_ne other _ _
  | const value => rfl
  | arg type index => rfl
  | symbol name => rfl
  | address name => rfl

end Eval

/-- The results of a call represent its environment, and a slot is a cell of the call. -/
structure Matches (m : Machine M) (Γ : LLVMLowerVisitor) (addrs : List Word) (ρ : Env Val)
    (body : Body) (own : List Word) (frame : Frame) : Prop where
  sameBody : frame.body = body
  sameOwn : frame.own = own
  vars : ∀ x v, ρ x = some v →
    ∃ op w, Γ.namedValues x = some op ∧ m.eval frame op = some w ∧ Represents m addrs v w
  slots : ∀ j slot, Γ.spillSlots j = some slot → ∃ c ∈ own, m.eval frame slot = some c

section Matches

variable {addrs addrs' : List Word} {ρ : Env Val} {body : Body} {own : List Word} {frame : Frame}
  {id : Nat} {w : Word}

theorem Matches.mono (matched : Matches m Γ addrs ρ body own frame) (grown : addrs <+: addrs') :
    Matches m Γ addrs' ρ body own frame :=
  { matched with
    vars := fun x v found => by
      obtain ⟨op, w, known, reads, represents⟩ := matched.vars x v found
      exact ⟨op, w, known, reads, represents.mono grown⟩ }

/-- A temporary result changes no name. -/
theorem Matches.temporary (matched : Matches m Γ addrs ρ body own frame) (temp : Temporary Γ id) :
    Matches m Γ addrs ρ body own (frame.set id w) where
  sameBody := matched.sameBody
  sameOwn := matched.sameOwn
  vars x v found := by
    obtain ⟨op, w', known, reads, represents⟩ := matched.vars x v found
    refine ⟨op, w', known, ?_, represents⟩
    rw [eval_set_of_ne fun type eq => temp.named x type (eq ▸ known)]
    exact reads
  slots j slot found := by
    obtain ⟨c, member, reads⟩ := matched.slots j slot found
    refine ⟨c, member, ?_⟩
    rw [eval_set_of_ne fun type eq => temp.slots j type (eq ▸ found)]
    exact reads

/-- The result for a name represents its new value. -/
theorem Matches.define {name : Var} {v : Val} (matched : Matches m Γ addrs ρ body own frame)
    (defines : Defines Γ name id) (represents : Represents m addrs v w) :
    Matches m Γ addrs (ρ.set name v) body own (frame.set id w) where
  sameBody := matched.sameBody
  sameOwn := matched.sameOwn
  vars x u found := by
    by_cases isName : x = name
    · subst isName
      cases (Env.set_self ρ x v).symm.trans found
      obtain ⟨type, known⟩ := defines.found
      exact ⟨.inst type id, w, known, eval_set_self type, represents⟩
    · rw [Env.set_of_ne isName] at found
      obtain ⟨op, w', known, reads, represents'⟩ := matched.vars x u found
      refine ⟨op, w', known, ?_, represents'⟩
      rw [eval_set_of_ne fun type eq => isName (defines.named x type (eq ▸ known))]
      exact reads
  slots j slot found := by
    obtain ⟨c, member, reads⟩ := matched.slots j slot found
    refine ⟨c, member, ?_⟩
    rw [eval_set_of_ne fun type eq => defines.slots j type (eq ▸ found)]
    exact reads

theorem Matches.var (matched : Matches m Γ addrs ρ body own frame) {x : Var} {v : Val}
    {op : Operand} (found : ρ x = some v) (known : Γ.namedValues x = some op) :
    ∃ w, m.eval frame op = some w ∧ Represents m addrs v w := by
  obtain ⟨op', w, known', reads, represents⟩ := matched.vars x v found
  cases known.symm.trans known'
  exact ⟨w, reads, represents⟩

/-- An operand represents the value that the block program reads. -/
theorem Matches.reads (matched : Matches m Γ addrs ρ body own frame) {value : Value} {v : Val}
    {op : Operand} (found : read ρ value = some v) (reads : Reads Γ value op) :
    ∃ w, m.eval frame op = some w ∧ Represents m addrs v w := by
  cases reads with
  | intValue =>
    cases found
    exact ⟨_, rfl, .int⟩
  | varValue known => exact matched.var found known
  | address =>
    cases found
    exact ⟨_, rfl, .label⟩
  | symbol =>
    cases found
    exact ⟨_, rfl, .label⟩

theorem Matches.reads_int (matched : Matches m Γ addrs ρ body own frame) {value : Value}
    {n : Word} {op : Operand} (found : read ρ value = some (.int n)) (reads : Reads Γ value op) :
    m.eval frame op = some n := by
  obtain ⟨w, eq, represents⟩ := matched.reads found reads
  cases represents
  exact eq

theorem Matches.reads_all (matched : Matches m Γ addrs ρ body own frame) {values : List Value}
    {vs : List Val} {ops : List Operand} (found : values.mapM (read ρ) = some vs)
    (reads : List.Forall₂ (Reads Γ) values ops) :
    ∃ ws, ops.mapM (m.eval frame) = some ws ∧ List.Forall₂ (Represents m addrs) vs ws := by
  induction reads generalizing vs with
  | nil =>
    cases found
    exact ⟨[], rfl, .nil⟩
  | @cons value op values ops head tail ih =>
    rw [List.mapM_cons] at found
    obtain ⟨v, foundHead, found⟩ := Option.bind_eq_some_iff.mp found
    obtain ⟨vs, foundTail, eq⟩ := Option.bind_eq_some_iff.mp found
    cases eq
    obtain ⟨w, readsHead, represents⟩ := matched.reads foundHead head
    obtain ⟨ws, readsTail, all⟩ := ih foundTail
    exact ⟨w :: ws, by simp [List.mapM_cons, readsHead, readsTail], .cons represents all⟩

end Matches

/-! ## Pieces of code -/

section Pieces

variable {addrs : List Word} {ρ : Env Val} {body : Body} {own : List Word} {frame : Frame}
  {callers : List Caller} {memory : Memory} {code rest : List Instruction} {P : State → Prop}

/-- After a cast, the pointer is the word that was cast. -/
theorem leads_cast {op ptr : Operand} {w : Word} (casts : CastTo Γ op ptr code)
    (matched : Matches m Γ addrs ρ body own frame) (found : m.eval frame op = some w)
    (next : ∀ frame', Matches m Γ addrs ρ body own frame' → m.eval frame' ptr = some w →
      Leads m.step .outOfMemory P ⟨frame', rest, callers, memory⟩) :
    Leads m.step .outOfMemory P ⟨frame, code ++ rest, callers, memory⟩ := by
  cases casts with
  | same => exact next frame matched found
  | cast temp =>
    exact .next (m.step_intToPtr found) (next _ (matched.temporary temp) (eval_set_self _))

/-- A call of `malloc` places a record of `count` cells, or there is no place for it. -/
theorem leads_malloc {ptr count : Nat} (declared : M.declared.lookup "malloc" = some mallocTy)
    (undefined : M.bodies.lookup "malloc" = none) (small : count < 2 ^ 61)
    (next : ∀ base, m.place memory count = some base → Leads m.step .outOfMemory P
      ⟨frame.set ptr base, rest, callers, memory.allocate (Memory.record base count)⟩) :
    Leads m.step .outOfMemory P ⟨frame, ⟨ptr, .call mallocTy (.symbol "malloc")
      [.const (BitVec.ofNat 64 (count * 8))]⟩ :: rest, callers, memory⟩ := by
  have target : m.eval frame (.symbol "malloc") = some (m.addressOf "malloc") := rfl
  have bytes : [Operand.const (BitVec.ofNat 64 (count * 8))].mapM (m.eval frame) =
      some [BitVec.ofNat 64 (count * 8)] := rfl
  have cells : ((BitVec.ofNat 64 (count * 8)).toNat + 7) / 8 = count := by
    rw [BitVec.toNat_ofNat]
    omega
  cases placed : m.place memory count with
  | none =>
    refine .stop ((m.step_malloc target declared rfl undefined bytes).trans ?_)
    rw [cells, placed]
  | some base =>
    refine .next ((m.step_malloc target declared rfl undefined bytes).trans ?_) (next base placed)
    rw [cells, placed]

/-- Filling the cells of a record, from number `i` on, changes nothing else. -/
theorem leads_fills {ptr i : Nat} {values : List Value} {cells : Convert.Record} {base : Word}
    {count : Nat} (fills : Fills Γ ptr i values code)
    (matched : Matches m Γ addrs ρ body own frame) (pointer : frame.results ptr = some base)
    (read : values.mapM (cell ρ) = some cells) (bounded : base.toNat + 8 * count ≤ 2 ^ 64)
    (length : i + values.length = count)
    (live : ∀ j < count, memory.cells (cellAt base j) ≠ .free)
    (next : ∀ frame' memory', Matches m Γ addrs ρ body own frame' →
      (∀ j cell, cells[j]? = some cell → ∃ w, memory'.cells (cellAt base (i + j)) = .holds w ∧
        Represents m addrs cell.2 w) →
      (∀ c, (∀ j, i ≤ j → j < count → c ≠ cellAt base j) → memory'.cells c = memory.cells c) →
      Leads m.step .outOfMemory P ⟨frame', rest, callers, memory'⟩) :
    Leads m.step .outOfMemory P ⟨frame, code ++ rest, callers, memory⟩ := by
  induction fills generalizing frame memory cells with
  | nil =>
    cases read
    exact next frame memory matched (fun j cell at_ => by cases at_) fun _ _ => rfl
  | @cons i gep id value values op code reads temp ne fills ih =>
    rw [List.mapM_cons] at read
    obtain ⟨head, readHead, read⟩ := Option.bind_eq_some_iff.mp read
    obtain ⟨tail, readTail, eq⟩ := Option.bind_eq_some_iff.mp read
    cases eq
    obtain ⟨v, readValue, rfl⟩ := Option.map_eq_some_iff.mp readHead
    rw [List.length_cons] at length
    have matched' := matched.temporary (w := cellAt base i) temp
    obtain ⟨w, found, represents⟩ := matched'.reads readValue reads
    have pointer' : (frame.set gep (cellAt base i)).results ptr = some base :=
      (Function.update_of_ne ne.symm _ _).trans pointer
    have isLive := live i (by omega)
    have readsPointer : m.eval frame (.inst .ptr ptr) = some base := pointer
    refine .next (m.step_gep readsPointer)
      (.next (m.step_store (eval_set_self _) found isLive) ?_)
    refine ih matched' pointer' readTail (by omega) (fun j lt => ?_) fun frame' memory' matched'
      filled kept => next frame' memory' matched' (fun j cell at_ => ?_) fun c other => ?_
    · by_cases eq : cellAt base j = cellAt base i
      · rw [eq, Memory.write_self]
        exact Cell.noConfusion
      · rw [Memory.write_of_ne eq]
        exact live j lt
    · cases j with
      | zero =>
        cases at_
        refine ⟨w, (kept _ fun j le lt same => ?_).trans (Memory.write_self _ _ _), represents⟩
        have := cellAt_injective bounded (by omega) lt same
        omega
      | succ j =>
        obtain ⟨u, holds, represents'⟩ := filled j cell at_
        exact ⟨u, by rwa [Nat.add_right_comm] at holds, represents'⟩
    · refine (kept c fun j le lt => other j (by omega) lt).trans (Memory.write_of_ne ?_ _ _)
      exact other i le_rfl (by omega)

end Pieces

/-! ## Calls -/

/-- A call that has begun with `start`, when the allocations `ids` have been made. -/
structure Begun (m : Machine M) (W : World) (start : Frame) (ids : List Nat) (frame : Frame)
    (memory : Memory) : Prop where
  body : frame.body = start.body
  args : frame.args = start.args
  made : ∀ id ∈ ids, ∃ c ∈ frame.own, frame.results id = some c
  unused : ∀ c ∈ frame.own, W.memory.cells c = .free
  sound : Sound m { W with memory := memory }
  owned : Owned frame.own { W with memory := memory }
  evolves : Evolves [] W { W with memory := memory }

section Calls

variable {W : World} {start frame : Frame} {ids : List Nat} {memory : Memory}

theorem begun_call (sound : Sound m W) (empty : start.own = []) :
    Begun m W start [] start W.memory where
  body := rfl
  args := rfl
  made := List.forall_mem_nil _
  unused := by
    rw [empty]
    exact List.forall_mem_nil _
  sound := sound
  owned := by
    rw [empty]
    exact List.forall_mem_nil _
  evolves := .refl _ _

/-- One more allocation. -/
theorem Begun.alloca (begun : Begun m W start ids frame memory) {id : Nat} {base : Word}
    (placed : m.place memory 1 = some base) :
    Begun m W start (id :: ids) { frame.set id base with own := base :: frame.own }
      (memory.allocate (Memory.record base 1)) := by
  have isBase : base ∈ Memory.record base 1 :=
    Memory.mem_record.mpr ⟨0, Nat.one_pos, by simp [cellAt]⟩
  have unused := m.unused placed
  obtain ⟨sound, evolves⟩ := begun.sound.allocate unused
  have free : W.memory.cells base = .free := by
    by_contra live
    exact begun.evolves.live base live (unused base isBase)
  refine ⟨begun.body, begun.args, ?_, ?_, sound, ?_, begun.evolves.trans evolves⟩
  · refine List.forall_mem_cons.mpr ⟨⟨base, List.mem_cons_self, Function.update_self _ _ _⟩,
      fun id' member => ?_⟩
    obtain ⟨c, owns, found⟩ := begun.made id' member
    by_cases eq : id' = id
    · exact ⟨base, List.mem_cons_self, eq ▸ Function.update_self _ _ _⟩
    · exact ⟨c, List.mem_cons_of_mem _ owns, (Function.update_of_ne eq _ _).trans found⟩
  · exact List.forall_mem_cons.mpr ⟨free, begun.unused⟩
  · refine List.forall_mem_cons.mpr ⟨⟨?_, fun inHeap => ?_⟩, begun.owned.evolves evolves⟩
    · show (memory.allocate (Memory.record base 1)).cells base ≠ .free
      rw [Memory.allocate_new isBase]
      exact Cell.noConfusion
    · exact begun.sound.live inHeap (unused base isBase)

/-- All allocations. -/
theorem leads_allocas {allocas rest : List Instruction} {callers : List Caller} {P : State → Prop}
    (allocates : ∀ i ∈ allocas, i.op = .alloca) (begun : Begun m W start ids frame memory)
    (next : ∀ frame' memory' ids', Begun m W start ids' frame' memory' →
      (∀ i ∈ allocas, i.id ∈ ids') → ids ⊆ ids' →
      Leads m.step .outOfMemory P ⟨frame', rest, callers, memory'⟩) :
    Leads m.step .outOfMemory P ⟨frame, allocas ++ rest, callers, memory⟩ := by
  induction allocas generalizing frame memory ids with
  | nil => exact next frame memory ids begun (List.forall_mem_nil _) (List.Subset.refl _)
  | cons i allocas ih =>
    obtain ⟨isAlloca, others⟩ := List.forall_mem_cons.mp allocates
    obtain ⟨id, op⟩ := i
    cases isAlloca
    cases placed : m.place memory 1 with
    | none => exact .stop (m.step_alloca_none placed)
    | some base =>
      refine .next (m.step_alloca_some placed) (ih others (begun.alloca placed) ?_)
      intro frame' memory' ids' begun' made sub
      refine next frame' memory' ids' begun' (List.forall_mem_cons.mpr ⟨?_, made⟩) ?_
      · exact sub List.mem_cons_self
      · exact fun id member => sub (List.mem_cons_of_mem _ member)

/-- A variable of a new environment is a parameter, with the argument of its number. -/
theorem bind_eq_some {V : Type} {ρ ρ' : Env V} {params : List Var} {args : List V}
    (bound : Env.bind ρ params args = some ρ') :
    params.length = args.length ∧ ∀ x v, ρ' x = some v →
      ρ x = some v ∨ ∃ i : Nat, params[i]? = some x ∧ args[i]? = some v := by
  induction params generalizing ρ args with
  | nil =>
    cases args with
    | nil =>
      cases bound
      exact ⟨rfl, fun x v found => .inl found⟩
    | cons arg args => cases bound
  | cons param params ih =>
    cases args with
    | nil => cases bound
    | cons arg args =>
      obtain ⟨lengths, values⟩ := ih bound
      refine ⟨congrArg Nat.succ lengths, fun x v found => ?_⟩
      rcases values x v found with before | ⟨i, isParam, isArg⟩
      · by_cases eq : x = param
        · subst eq
          cases (Env.set_self ρ x arg).symm.trans before
          exact .inr ⟨0, rfl, rfl⟩
        · exact .inl ((Env.set_of_ne eq ρ arg).symm.trans before)
      · exact .inr ⟨i + 1, isParam, isArg⟩

/-- A call starts with its parameters represented by its arguments. -/
theorem Laid.matches {fn : Function} {allocas entry : List Instruction} {codes : Body}
    (laid : Laid Γ fn allocas entry codes) (begun : Begun m W start ids frame memory)
    (made : ∀ i ∈ allocas, i.id ∈ ids) {args : List Val} {ρ : Env Val}
    (bound : Env.bind (fun _ => none) fn.params args = some ρ)
    (represents : List.Forall₂ (Represents m W.addrs) args start.args) :
    Matches m Γ W.addrs ρ start.body frame.own frame where
  sameBody := begun.body
  sameOwn := rfl
  vars x v found := by
    obtain ⟨-, values⟩ := bind_eq_some bound
    obtain ⟨i, isParam, isArg⟩ := (values x v found).resolve_left fun eq => by cases eq
    obtain ⟨type, known⟩ := laid.params i x isParam
    obtain ⟨w, isWord, holds⟩ := exists_of_forall₂ represents isArg
    refine ⟨.arg type i, w, known, ?_, holds⟩
    show frame.args[i]? = some w
    rw [begun.args]
    exact isWord
  slots j slot found := by
    obtain ⟨id, rfl, member⟩ := laid.slots j slot found
    exact begun.made id (made _ member)

end Calls

/-! ## Nodes -/

/-- The body of `fn` in `M`, and the visitor that `fn` was left with. -/
structure Installed (M : Module) (Γ : LLVMLowerVisitor) (fn : Function) (body : Body) : Prop where
  orderly : Orderly fn
  laid : ∃ allocas entry codes, Laid Γ fn allocas entry codes ∧ body = (allocas ++ entry) :: codes
  declares : ∀ name type, Γ.module_.declared.lookup name = some type →
    M.declared.lookup name = some type

/-- A state of a call of the block program, and one of the machine. -/
structure Related (m : Machine M) (Γ : LLVMLowerVisitor) (ρ : Env Val) (body : Body)
    (own : List Word) (frame : Frame) (W : World) : Prop where
  matched : Matches m Γ W.addrs ρ body own frame
  sound : Sound m W
  owned : Owned own W

/-- A call with the cells `own` that has started in `W` is about to return `v`. -/
inductive Returns (m : Machine M) (own : List Word) (callers : List Caller) (W : World) (v : Val)
    (H : Heap) : State → Prop where
  | intro {frame : Frame} {id : Nat} {op : Operand} {rest : List Instruction} {W' : World}
      {w : Word} (owns : frame.own = own) (reads : m.eval frame op = some w)
      (represents : Represents m W'.addrs v w) (heap : W'.heap = H) (sound : Sound m W')
      (evolves : Evolves own W W') :
      Returns m own callers W v H ⟨frame, ⟨id, .ret op⟩ :: rest, callers, W'.memory⟩

theorem Returns.trans {own : List Word} {callers : List Caller} {W W' : World} {v : Val} {H : Heap}
    {s : State} (evolves : Evolves own W W') (returns : Returns m own callers W' v H s) :
    Returns m own callers W v H s := by
  cases returns with
  | intro owns reads represents heap sound evolves' =>
    exact .intro owns reads represents heap sound (evolves.trans evolves')

/-- With this fuel, the machine follows the block program to the end of a call. -/
def Simulates (m : Machine M) (fns : List Function) (fuel : Nat) : Prop :=
  ∀ (W : World) (callers : List Caller) {fn : Function} {t : Exp} {last : Option Var}
    {ρ : Env Val} {v : Val} {H : Heap} {Γ : LLVMLowerVisitor} {body : Body} {own : List Word}
    {frame : Frame} {code : List Instruction},
    runBlock fns fuel fn ρ W.heap t = some (v, H) → Installed M Γ fn body →
    (∀ jump ∈ jumps t, Accepts fn.blocks jump) → projected last t = true →
    (∀ x, last = some x → (ρ x).isSome = true) → Regular t → Emitted Γ t code →
    Related m Γ ρ body own frame W →
    Leads m.step .outOfMemory (Returns m own callers W v H) ⟨frame, code, callers, W.memory⟩

section Nodes

variable {fns : List Function} {fuel : Nat} {fn : Function} {ρ : Env Val} {v : Val} {H : Heap}
  {body : Body} {own : List Word} {frame : Frame} {code : List Instruction}
  {callers : List Caller} {W : World} {name : Var} {rest : Exp}

/-- The block that a jump goes to. -/
theorem Installed.block (installed : Installed M Γ fn body) {jump : Var × Bool}
    (accepts : Accepts fn.blocks jump) :
    ∃ b ∈ fn.blocks, fn.findBlock jump.1 = some b ∧ b.slot.isSome = jump.2 ∧
      ∃ index code, Γ.namedBlocks jump.1 = some index ∧ body[index]? = some code ∧
        Γ.spillSlots jump.1 = Γ.spillSlots b.name ∧ BlockCode Γ b code := by
  obtain ⟨b, member, isName, hasSlot⟩ := accepts
  obtain ⟨allocas, entry, codes, laid, rfl⟩ := installed.laid
  obtain ⟨index, code, numbered, placed, blockCode⟩ := laid.block member
  rw [← isName]
  exact ⟨b, member, find?_of_nodup installed.orderly.blocks (List.mem_cons_of_mem _ member),
    hasSlot, index, code, numbered, placed, rfl, blockCode⟩

theorem Installed.accepted (installed : Installed M Γ fn body) {b : Join} (member : b ∈ fn.blocks) :
    (∀ jump ∈ jumps b.body, Accepts fn.blocks jump) ∧ projected none b.body = true ∧
      Regular b.body :=
  have inFunction := List.mem_cons_of_mem _ member
  ⟨installed.orderly.lowerable.jumps b inFunction, installed.orderly.lowerable.calls b inFunction,
    installed.orderly.regular b inFunction⟩

/-- A jump stores to the slot of its block, which the block loads. -/
theorem simulates_jumpExp (ih : Simulates m fns fuel) {joinName : Var} {slotValue : Option Value}
    (ran : runBlock fns (fuel + 1) fn ρ W.heap (.jumpExp joinName slotValue) = some (v, H))
    (installed : Installed M Γ fn body) (accepts : Accepts fn.blocks (joinName, slotValue.isSome))
    (emitted : Emitted Γ (.jumpExp joinName slotValue) code)
    (related : Related m Γ ρ body own frame W) :
    Leads m.step .outOfMemory (Returns m own callers W v H) ⟨frame, code, callers, W.memory⟩ := by
  obtain ⟨join, value, inner, found, passed, entered, ran⟩ := runBlock_jumpExp.mp ran
  obtain ⟨b, member, foundBlock, hasSlot, index, blockCode, numbered, placed, sameSlot, isCode⟩ :=
    installed.block accepts
  cases found.symm.trans foundBlock
  obtain ⟨accepted, calls, regular⟩ := installed.accepted member
  have unknown : ∀ x, (none : Option Var) = some x → (inner x).isSome = true := fun _ eq => by
    cases eq
  have placed' : frame.body[index]? = some blockCode := related.matched.sameBody ▸ placed
  cases emitted with
  | jumpExp target =>
    cases target.symm.trans numbered
    cases passed
    cases isCode with
    | spilled slot => simp [slot] at hasSlot
    | plain slot emitted =>
      rw [slot] at entered
      cases entered
      exact .next (m.step_br placed')
        (ih W callers ran installed accepted calls unknown regular emitted related)
  | passExp target foundSlot reads =>
    cases target.symm.trans numbered
    cases isCode with
    | plain slot => simp [slot] at hasSlot
    | spilled slot foundLoad defines emitted =>
      cases foundSlot.symm.trans (sameSlot.trans foundLoad)
      obtain ⟨u, readValue, rfl⟩ := Option.map_eq_some_iff.mp passed
      rw [slot] at entered
      cases entered
      obtain ⟨w, found, represents⟩ := related.matched.reads readValue reads
      obtain ⟨c, owns, address⟩ := related.matched.slots _ _ foundSlot
      obtain ⟨sound, evolves⟩ := related.sound.write_own related.owned owns w
      have live := (related.owned c owns).1
      refine .next (m.step_store address found live) (.next (m.step_br placed')
        (.next (m.step_load address (Memory.write_self _ _ _)) ?_))
      have leads := ih { W with memory := W.memory.write c w } callers ran installed accepted calls
        unknown regular emitted
        ⟨related.matched.define defines represents, sound, related.owned.evolves evolves⟩
      exact leads.imp fun _ => Returns.trans evolves

/-- A call runs the body of its label, whose cells are released when it returns. -/
theorem simulates_appExp (links : Links M fns) (ih : Simulates m fns fuel) {last : Option Var}
    {funName : Var} {paramValues : List Value}
    (ran : runBlock fns (fuel + 1) fn ρ W.heap (.appExp name funName paramValues rest) =
      some (v, H))
    (installed : Installed M Γ fn body) (accepted : ∀ jump ∈ jumps rest, Accepts fn.blocks jump)
    (calls : projected last (.appExp name funName paramValues rest) = true)
    (known : ∀ x, last = some x → (ρ x).isSome = true) (regular : Regular rest)
    (emitted : Emitted Γ (.appExp name funName paramValues rest) code)
    (related : Related m Γ ρ body own frame W) :
    Leads m.step .outOfMemory (Returns m own callers W v H) ⟨frame, code, callers, W.memory⟩ := by
  obtain ⟨label, called, args, inner, u, H₁, target, found, values, bound, ranCall, ranRest⟩ :=
    runBlock_appExp.mp ran
  obtain ⟨isLast, callsRest⟩ := Bool.and_eq_true_iff.mp calls
  obtain ⟨f, isFun⟩ := Option.isSome_iff_exists.mp (known funName (beq_iff_eq.mp isLast))
  rw [callee, isFun, Convert.Val.asLabel_eq_some] at target
  subst target
  obtain ⟨orderly, declared, body', defined, definedIn⟩ := links.function label called found
  obtain ⟨Γ', allocas, entry, codes, laid, rfl, declares⟩ := definedIn.laid
  have installed' : Installed M Γ' called ((allocas ++ entry) :: codes) :=
    ⟨orderly, ⟨allocas, entry, codes, laid, rfl⟩, declares⟩
  have unknown : ∀ (ρ : Env Val) x, (none : Option Var) = some x → (ρ x).isSome = true :=
    fun _ _ eq => by cases eq
  cases emitted with
  | @appExp _ _ _ _ fnPtrInt _ params _ codeRest id callee casts reads defines emitted =>
    obtain ⟨w, readFun, isAddress⟩ := related.matched.var isFun callee
    cases isAddress
    refine leads_cast casts related.matched readFun fun frame' matched readTarget => ?_
    obtain ⟨words, readArgs, represents⟩ := matched.reads_all values reads
    have length : words.length = (getFunctionType called.params).params.length := by
      rw [length_getFunctionType, (bind_eq_some bound).1, represents.length_eq]
    refine .next (m.step_call readTarget declared defined readArgs length rfl) ?_
    have begun : Begun m W ⟨(allocas ++ entry) :: codes, words, fun _ => none, []⟩ [] _ W.memory :=
      begun_call related.sound rfl
    refine leads_allocas laid.allocates begun fun frame₁ memory₁ ids begun made _ => ?_
    have entered : Related m Γ' inner ((allocas ++ entry) :: codes) frame₁.own frame₁
        { W with memory := memory₁ } :=
      ⟨laid.matches begun made bound represents, begun.sound, begun.owned⟩
    have inEntry := List.mem_cons_self (a := called.entryBlock) (l := called.blocks)
    have leadsCall := ih { W with memory := memory₁ } (⟨frame', id, codeRest⟩ :: callers) ranCall
      installed' (orderly.lowerable.jumps _ inEntry) (orderly.lowerable.calls _ inEntry) (unknown _)
      (orderly.regular _ inEntry) laid.emitted entered
    refine leadsCall.bind fun s' returns => ?_
    cases returns with
    | @intro frame₂ id₂ op₂ rest₂ W₂ w₂ owns readsResult representsResult heap sound evolves =>
      refine .next (m.step_ret_caller readsResult) ?_
      rw [owns]
      obtain ⟨sound', evolves'⟩ := sound.release (begun.owned.evolves evolves) begun.evolves
        begun.unused evolves
      subst heap
      have leadsRest := ih { W₂ with memory := W₂.memory.release frame₁.own } callers ranRest
        installed accepted callsRest (unknown _) regular emitted
        ⟨(matched.mono evolves'.addrs).define defines representsResult, sound',
          related.owned.evolves evolves'⟩
      exact leadsRest.imp fun _ => Returns.trans (evolves'.mono (List.nil_subset _))

theorem read_set_of_ne {value : Value} (ne : value ≠ .varValue name) (u : Val) :
    read (ρ.set name u) value = read ρ value := by
  cases value with
  | varValue x => exact Env.set_of_ne (fun eq => ne (congrArg _ eq)) _ _
  | intValue n => rfl
  | globValue glob => rfl

theorem mapM_cell_set {values : List Value} (ne : ∀ value ∈ values, value ≠ .varValue name)
    (u : Val) : values.mapM (cell (ρ.set name u)) = values.mapM (cell ρ) := by
  induction values with
  | nil => rfl
  | cons value values ih =>
    obtain ⟨neHead, neTail⟩ := List.forall_mem_cons.mp ne
    rw [List.mapM_cons, List.mapM_cons, cell, cell, read_set_of_ne neHead, ih neTail]

theorem length_of_mapM {α β : Type} {f : α → Option β} {as : List α} {bs : List β}
    (eq : as.mapM f = some bs) : bs.length = as.length := by
  induction as generalizing bs with
  | nil =>
    cases eq
    rfl
  | cons a as ih =>
    rw [List.mapM_cons] at eq
    obtain ⟨b, -, eq⟩ := Option.bind_eq_some_iff.mp eq
    obtain ⟨bs', tail, eq⟩ := Option.bind_eq_some_iff.mp eq
    cases eq
    exact congrArg Nat.succ (ih tail)

/-- A record is requested from `malloc` and filled. -/
theorem simulates_tupleExp (links : Links M fns) (ih : Simulates m fns fuel) {values : List Value}
    (ran : runBlock fns (fuel + 1) fn ρ W.heap (.tupleExp name values rest) = some (v, H))
    (installed : Installed M Γ fn body) (accepted : ∀ jump ∈ jumps rest, Accepts fn.blocks jump)
    (calls : projected none rest = true) (regular : Regular (.tupleExp name values rest))
    (emitted : Emitted Γ (.tupleExp name values rest) code)
    (related : Related m Γ ρ body own frame W) :
    Leads m.step .outOfMemory (Returns m own callers W v H) ⟨frame, code, callers, W.memory⟩ := by
  obtain ⟨cells, filled, ran⟩ := runBlock_tupleExp.mp ran
  obtain ⟨eachValue, small, regularRest⟩ := regular
  have length := length_of_mapM filled
  cases emitted with
  | @tupleExp _ _ _ ptr id cellCode codeRest known temp defines fills emitted =>
    refine leads_malloc (installed.declares _ _ known) links.malloc small fun base placed => ?_
    have unused := m.unused placed
    have isCell : ∀ j < values.length, cellAt base j ∈ Memory.record base values.length :=
      fun j lt => Memory.mem_record.mpr ⟨j, lt, rfl⟩
    have grown : W.addrs <+: W.addrs ++ [base] := List.prefix_append _ _
    have represents : Represents m (W.addrs ++ [base]) (.addr W.heap.length) base := by
      refine .addr ?_
      rw [← related.sound.length, List.getElem?_concat_length]
    have matched := ((related.matched.mono grown).temporary (w := base) temp).define defines
      represents
    have pointer : ((frame.set ptr base).set id base).results ptr = some base := by
      by_cases eq : ptr = id
      · exact eq ▸ Function.update_self _ _ _
      · exact (Function.update_of_ne eq _ _).trans (Function.update_self _ _ _)
    have filled' := (mapM_cell_set (ρ := ρ) (fun value member => (eachValue value member).2)
      (.addr W.heap.length)).trans filled
    refine .next (m.step_ptrToInt (eval_set_self _)) (leads_fills fills matched pointer filled'
      (m.bounded placed) (Nat.zero_add _) (fun j lt => ?_)
      fun frame' memory' matched' holds kept => ?_)
    · rw [Memory.allocate_new (isCell j lt)]
      exact Cell.noConfusion
    · have same : ∀ c, W.memory.cells c ≠ .free → memory'.cells c = W.memory.cells c := by
        intro c live
        have notNew : c ∉ Memory.record base values.length := fun member =>
          live (unused c member)
        rw [kept c fun j _ lt eq => notNew (eq ▸ isCell j lt), Memory.allocate_other notNew]
      have held : ∀ i cell, cells[i]? = some cell → ∃ w, memory'.cells (cellAt base i) = .holds w ∧
          Represents m (W.addrs ++ [base]) cell.2 w := by
        intro i cell at_
        obtain ⟨w, held, represents⟩ := holds i cell at_
        exact ⟨w, by rwa [Nat.zero_add] at held, represents⟩
      obtain ⟨sound, evolves⟩ :=
        related.sound.place (fun i lt => unused _ (isCell i (length ▸ lt))) same held
      have leads := ih ⟨W.addrs ++ [base], W.heap ++ [cells], memory'⟩ callers ran installed
        accepted calls (fun _ eq => by cases eq) regularRest emitted
        ⟨matched', sound, related.owned.evolves evolves⟩
      exact leads.imp fun _ => Returns.trans (evolves.mono (List.nil_subset _))

/-- A cell is read from its record. -/
theorem simulates_projExp (ih : Simulates m fns fuel) {tuple : Var} {index : Nat}
    (ran : runBlock fns (fuel + 1) fn ρ W.heap (.projExp name tuple index rest) = some (v, H))
    (installed : Installed M Γ fn body) (accepted : ∀ jump ∈ jumps rest, Accepts fn.blocks jump)
    (calls : projected (some name) rest = true) (regular : Regular rest)
    (emitted : Emitted Γ (.projExp name tuple index rest) code)
    (related : Related m Γ ρ body own frame W) :
    Leads m.step .outOfMemory (Returns m own callers W v H) ⟨frame, code, callers, W.memory⟩ := by
  obtain ⟨a, cells, operand, u, found, allocated, inRange, ran⟩ := runBlock_projExp.mp ran
  cases emitted with
  | projExp known casts temp defines emitted =>
    obtain ⟨base, readTuple, isRecord⟩ := related.matched.var found known
    cases isRecord with
    | addr placed =>
      obtain ⟨w, held, represents⟩ := related.sound.holds placed allocated inRange
      refine leads_cast casts related.matched readTuple fun frame' matched readPtr => ?_
      refine .next (m.step_gep readPtr) (.next (m.step_load (eval_set_self _) held) ?_)
      refine ih W callers ran installed accepted calls (fun x eq => ?_) regular emitted
        ⟨(matched.temporary temp).define defines represents, related.sound, related.owned⟩
      cases eq
      rw [Env.set_self]
      rfl

/-- A branch goes where one of its jumps goes. -/
theorem simulates_ifExp (ih : Simulates m fns fuel) {cond : Value} {thenBranch elseBranch : Exp}
    (ran : runBlock fns (fuel + 1) fn ρ W.heap (.ifExp cond thenBranch elseBranch) = some (v, H))
    (installed : Installed M Γ fn body)
    (accepted : ∀ jump ∈ jumps thenBranch ++ jumps elseBranch, Accepts fn.blocks jump)
    (emitted : Emitted Γ (.ifExp cond thenBranch elseBranch) code)
    (related : Related m Γ ρ body own frame W) :
    Leads m.step .outOfMemory (Returns m own callers W v H) ⟨frame, code, callers, W.memory⟩ := by
  obtain ⟨n, isInt, ran⟩ := runBlock_ifExp.mp ran
  cases emitted with
  | @ifExp _ thenJoin elseJoin op id id' thenBlock elseBlock reads temp thenTarget elseTarget =>
    obtain ⟨acceptedThen, acceptedElse⟩ := List.forall_mem_append.mp accepted
    have goes : ∀ {join : Var} {index : Nat}, Accepts fn.blocks (join, false) →
        Γ.namedBlocks join = some index →
        runBlock fns fuel fn ρ W.heap (.jumpExp join none) = some (v, H) →
        ∃ block, body[index]? = some block ∧
          Leads m.step .outOfMemory (Returns m own callers W v H)
            ⟨frame.set id (if n = 0 then 0 else 1), block, callers, W.memory⟩ := by
      intro join index accepts target ran
      obtain ⟨b, -, -, -, index', block, numbered, placed, -, -⟩ := installed.block accepts
      cases target.symm.trans numbered
      have matched := related.matched.temporary (w := if n = 0 then 0 else 1) temp
      -- the jump itself would be this branch
      have plain : Emitted Γ (.jumpExp join none) [⟨0, .br index⟩] := .jumpExp target
      have calls : projected none (.jumpExp join none) = true := rfl
      have leads := ih W callers ran installed (List.forall_mem_singleton.mpr accepts) calls
        (fun _ eq => by cases eq) (fun _ eq => by cases eq) plain
        ⟨matched, related.sound, related.owned⟩
      refine ⟨block, placed, leads.of_next (m.step_br ?_) fun returns => by cases returns⟩
      exact matched.sameBody ▸ placed
    have compared : m.eval frame op = some n := related.matched.reads_int isInt reads
    have zero : m.eval frame (.const 0) = some 0 := rfl
    refine .next (m.step_icmpNe compared zero) ?_
    by_cases isZero : n = 0
    · rw [if_pos isZero] at ran ⊢
      obtain ⟨block, placed, leads⟩ := goes (acceptedElse _ List.mem_cons_self) elseTarget ran
      rw [if_pos isZero] at leads
      refine .next (m.step_condBr (eval_set_self .i1) ?_) leads
      rw [if_pos rfl]
      exact related.matched.sameBody ▸ placed
    · rw [if_neg isZero] at ran ⊢
      obtain ⟨block, placed, leads⟩ := goes (acceptedThen _ List.mem_cons_self) thenTarget ran
      rw [if_neg isZero] at leads
      refine .next (m.step_condBr (eval_set_self .i1) ?_) leads
      rw [if_neg (by decide)]
      exact related.matched.sameBody ▸ placed

/-- The machine follows every run of the block program. -/
theorem simulates (links : Links M fns) : ∀ fuel, Simulates m fns fuel := by
  intro fuel
  induction fuel with
  | zero =>
    intro W callers fn t last ρ v H Γ body own frame code ran
    cases ran
  | succ fuel ih =>
    intro W callers fn t last ρ v H Γ body own frame code ran installed accepted calls known regular
      emitted related
    cases t with
    | haltExp value =>
      obtain ⟨u, readValue, eq⟩ := Option.map_eq_some_iff.mp ran
      cases eq
      cases emitted with
      | haltExp reads =>
        obtain ⟨w, found, represents⟩ := related.matched.reads readValue reads
        exact .here (.intro related.matched.sameOwn found represents rfl related.sound
          (.refl own W))
    | funExp name params body rest => cases ran
    | joinExp name slot body rest => cases ran
    | jumpExp joinName slotValue =>
      exact simulates_jumpExp ih ran installed (accepted _ List.mem_cons_self) emitted related
    | appExp name funName paramValues rest =>
      exact simulates_appExp links ih ran installed accepted calls known regular.2 emitted related
    | bopExp name bop param1 param2 rest =>
      obtain ⟨n₁, n₂, int1, int2, ran⟩ := runBlock_bopExp.mp ran
      cases emitted with
      | bopExp reads1 reads2 defines emitted =>
        have found1 := related.matched.reads_int int1 reads1
        have found2 := related.matched.reads_int int2 reads2
        have computes : (binaryOp bop).eval n₁ n₂ = bop.eval n₁ n₂ := by cases bop <;> rfl
        refine .next (m.step_binary found1 found2) ?_
        rw [computes]
        exact ih W callers ran installed accepted calls (fun _ eq => by cases eq) regular.2.2
          emitted
          ⟨related.matched.define defines .int, related.sound, related.owned⟩
    | ifExp cond thenBranch elseBranch =>
      exact simulates_ifExp ih ran installed accepted emitted related
    | tupleExp name values rest =>
      exact simulates_tupleExp links ih ran installed accepted calls regular emitted related
    | projExp name tuple index rest =>
      exact simulates_projExp ih ran installed accepted calls regular emitted related

end Nodes

end Lambcalc.Emit
