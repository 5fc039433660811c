import Lambcalc.Arena.Allocator
import Lambcalc.Lib.Regions

/-!
# Runs of the arena

What holds of the arena over a buffer after any calls of `allocate` and `reset`: the blocks returned
since the last `reset` are aligned, lie in the buffer, and do not overlap.
-/

namespace Lambcalc.Arena

open Lib Allocator

/-- An array of `char`. Its end is an address, and its length a `ptrdiff_t`. -/
structure Buffer where
  orig : Address
  end_ : Address
  le : orig.toNat ≤ end_.toNat
  small : end_.toNat - orig.toNat < 2 ^ 63

inductive Call where
  | allocate (T : ElementType) (count : Nat)
  | reset

/-- A block that has been returned. -/
structure Block where
  T : ElementType
  count : Nat
  ptr : Address

namespace Block

/-- The addresses of its bytes. -/
def bytes (block : Block) : Set Nat :=
  Set.Ico block.ptr.toNat (block.ptr.toNat + block.count * block.T.size)

def Aligned (block : Block) : Prop := block.T.align ∣ block.ptr.toNat

end Block

/-- The arena, with the blocks that have been returned since the last `reset`. -/
structure State where
  arena : Allocator
  blocks : List Block

/-- The constructor, for a buffer. -/
def State.start (buffer : Buffer) : State := ⟨.new buffer.orig buffer.end_, []⟩

/-- What a caller of `allocate` goes on with: it may go on after an exception, but not after an
overflow. -/
def settle (s : State) (T : ElementType) (count : Nat) :
    EStateM.Result Failure Allocator Address → Option State
  | .ok ptr arena => some ⟨arena, ⟨T, count, ptr⟩ :: s.blocks⟩
  | .error .badAlloc arena => some { s with arena := arena }
  | .error .badArrayNewLength arena => some { s with arena := arena }
  | .error .overflow _ => none

/-- One call. -/
def step (s : State) : Call → Option State
  | .allocate T count => settle s T count (Allocator.allocate T count s.arena)
  | .reset => some ⟨s.arena.reset, []⟩

def run (s : State) (calls : List Call) : Option State := calls.foldlM step s

/-! ## The invariant -/

/-- What has been used of the buffer. -/
def used (arena : Allocator) : Set Nat := Set.Ico arena.orig_.toNat arena.begin_.toNat

/-- The addresses of the buffer. -/
def region (arena : Allocator) : Set Nat := Set.Ico arena.orig_.toNat arena.end_.toNat

structure Sound (buffer : Buffer) (s : State) : Prop where
  orig : s.arena.orig_ = buffer.orig
  end_ : s.arena.end_ = buffer.end_
  valid : s.arena.Valid
  handedOut : HandedOut (region s.arena) (used s.arena) (s.blocks.map Block.bytes)
  aligned : ∀ block ∈ s.blocks, block.Aligned

section Invariant

variable {buffer : Buffer} {s : State} {T : ElementType} {count : Nat}

theorem used_subset {arena : Allocator} (valid : arena.Valid) : used arena ⊆ region arena :=
  Set.Ico_subset_Ico_right valid.upper

theorem sound_start (buffer : Buffer) : Sound buffer (.start buffer) where
  orig := rfl
  end_ := rfl
  valid := ⟨le_rfl, buffer.le, buffer.small⟩
  handedOut := .nil (used_subset ⟨le_rfl, buffer.le, buffer.small⟩)
  aligned := List.forall_mem_nil _

theorem Sound.reset (sound : Sound buffer s) : Sound buffer ⟨s.arena.reset, []⟩ := by
  have valid : s.arena.reset.Valid :=
    ⟨le_rfl, sound.valid.lower.trans sound.valid.upper, sound.valid.small⟩
  exact ⟨sound.orig, sound.end_, valid, .nil (used_subset valid), List.forall_mem_nil _⟩

/-- Within the room, addresses do not wrap around. -/
theorem toNat_add {arena : Allocator} (valid : arena.Valid) {bytes : Nat}
    (le : bytes ≤ arena.room) :
    (arena.begin_ + BitVec.ofNat 64 bytes).toNat = arena.begin_.toNat + bytes := by
  have upper := valid.upper
  have below := arena.end_.isLt
  unfold Allocator.room at le
  rw [BitVec.toNat_add, BitVec.toNat_ofNat]
  omega

/-- The block that a call returns if it succeeds. -/
def next (arena : Allocator) (T : ElementType) (count : Nat) : Block :=
  ⟨T, count, arena.begin_ + BitVec.ofNat 64 (padding T.align arena.begin_.toNat)⟩

theorem next_aligned {arena : Allocator} (valid : arena.Valid)
    (le : arena.needed T count ≤ arena.room) : (next arena T count).Aligned := by
  have ptr : (next arena T count).ptr.toNat = _ :=
    toNat_add valid ((Nat.le_add_right _ (count * T.size)).trans le)
  unfold Block.Aligned
  rw [ptr]
  exact dvd_add_padding (ElementType.align_pos T) arena.begin_.toNat

/-- The block begins where nothing has been used, and ends with what is then used. -/
theorem bytes_next {arena : Allocator} (valid : arena.Valid)
    (le : arena.needed T count ≤ arena.room) : (next arena T count).bytes =
      Set.Ico (arena.begin_.toNat + padding T.align arena.begin_.toNat)
        (arena.take (arena.needed T count)).begin_.toNat := by
  have ptr : (next arena T count).ptr.toNat = _ :=
    toNat_add valid ((Nat.le_add_right _ (count * T.size)).trans le)
  have after : (arena.take (arena.needed T count)).begin_.toNat = _ := toNat_add valid le
  rw [Block.bytes, ptr, after, Allocator.needed, ← Nat.add_assoc]
  rfl

theorem next_unused {arena : Allocator} (valid : arena.Valid)
    (le : arena.needed T count ≤ arena.room) :
    Disjoint (next arena T count).bytes (used arena) := by
  rw [bytes_next valid le, Set.disjoint_left]
  rintro a ⟨atLeast, -⟩ ⟨-, less⟩
  omega

/-- One more block has been returned. -/
theorem Sound.allocate (sound : Sound buffer s)
    (le : s.arena.needed T count ≤ s.arena.room) :
    Sound buffer ⟨s.arena.take (s.arena.needed T count), next s.arena T count :: s.blocks⟩ := by
  have lower := sound.valid.lower
  have upper := sound.valid.upper
  have after : (s.arena.take (s.arena.needed T count)).begin_.toNat = _ :=
    toNat_add sound.valid le
  have valid : (s.arena.take (s.arena.needed T count)).Valid := by
    refine ⟨?_, ?_, sound.valid.small⟩
    · rw [after]
      exact lower.trans (Nat.le_add_right _ _)
    · rw [after]
      unfold Allocator.room at le
      show _ ≤ s.arena.end_.toNat
      omega
  refine ⟨sound.orig, sound.end_, valid, ?_, ?_⟩
  · refine sound.handedOut.cons (next_unused sound.valid le) ?_ ?_ (used_subset valid)
    · refine Set.Ico_subset_Ico_right ?_
      rw [after]
      exact Nat.le_add_right _ _
    · rw [bytes_next sound.valid le]
      exact Set.Ico_subset_Ico_left (lower.trans (Nat.le_add_right _ _))
  · exact List.forall_mem_cons.mpr ⟨next_aligned sound.valid le, sound.aligned⟩

/-- What is needed for one element less. -/
theorem needed_le {arena : Allocator} (fits : arena.needed T (count + 1) ≤ arena.room) :
    arena.needed T count ≤ arena.room := by
  refine le_trans (Nat.add_le_add_left ?_ _) fits
  exact Nat.mul_le_mul_right _ (Nat.le_succ _)

/-- A call keeps the arena sound. -/
theorem Sound.step (sound : Sound buffer s) (call : Call) :
    ∃ s', Arena.step s call = some s' ∧ Sound buffer s' := by
  cases call with
  | reset => exact ⟨_, rfl, sound.reset⟩
  | allocate T count =>
    rw [Arena.step, allocate_eq sound.valid]
    by_cases fits : s.arena.needed T (count + 1) ≤ s.arena.room
    · rw [if_pos fits]
      exact ⟨_, rfl, sound.allocate (needed_le fits)⟩
    · rw [if_neg fits]
      exact ⟨_, rfl, sound⟩

/-- So do all calls. -/
theorem Sound.run (sound : Sound buffer s) (calls : List Call) :
    ∃ s', Arena.run s calls = some s' ∧ Sound buffer s' := by
  induction calls generalizing s with
  | nil => exact ⟨s, rfl, sound⟩
  | cons call calls ih =>
    rcases sound.step call with ⟨s', stepped, sound'⟩
    rcases ih sound' with ⟨s'', ran, sound''⟩
    refine ⟨s'', ?_, sound''⟩
    rw [Arena.run, List.foldlM_cons, stepped]
    exact ran

end Invariant

/-! ## What the arena guarantees -/

/-- A call returns a new block of the buffer, or changes nothing. -/
def Serves (s : State) (T : ElementType) (count : Nat) : Prop :=
  (∃ ptr arena, allocate T count s.arena = .ok ptr arena ∧ Block.Aligned ⟨T, count, ptr⟩ ∧
    Block.bytes ⟨T, count, ptr⟩ ⊆ region s.arena ∧
    ∀ other ∈ s.blocks, Disjoint (Block.bytes ⟨T, count, ptr⟩) other.bytes) ∨
  allocate T count s.arena = .error .badAlloc s.arena

/-- After any calls, the arena is in its buffer, the blocks returned since the last `reset` are
aligned, lie in the buffer and do not overlap, and so does the next one. -/
theorem arena_serves (buffer : Buffer) (calls : List Call) :
    ∃ s, run (.start buffer) calls = some s ∧
      (s.arena.orig_ = buffer.orig ∧ s.arena.end_ = buffer.end_) ∧
      (s.arena.orig_.toNat ≤ s.arena.begin_.toNat ∧
        s.arena.begin_.toNat ≤ s.arena.end_.toNat) ∧
      (∀ block ∈ s.blocks, block.Aligned ∧ block.bytes ⊆ region s.arena) ∧
      s.blocks.Pairwise (Function.onFun Disjoint Block.bytes) ∧
      ∀ T count, Serves s T count := by
  rcases (sound_start buffer).run calls with ⟨s, ran, sound⟩
  refine ⟨s, ran, ⟨sound.orig, sound.end_⟩, ⟨sound.valid.lower, sound.valid.upper⟩,
    fun block member => ⟨sound.aligned block member, ?_⟩, ?_, fun T count => ?_⟩
  · exact sound.handedOut.subset (List.mem_map_of_mem member)
  · exact List.Pairwise.of_map Block.bytes (fun _ _ apart => apart) sound.handedOut.apart
  · unfold Serves
    rw [allocate_eq sound.valid]
    by_cases fits : s.arena.needed T (count + 1) ≤ s.arena.room
    · have out := (sound.allocate (needed_le fits)).handedOut
      rw [if_pos fits]
      refine .inl ⟨_, _, rfl, next_aligned sound.valid (needed_le fits), ?_, fun other member => ?_⟩
      · exact out.subset (List.mem_map_of_mem List.mem_cons_self)
      · exact sound.handedOut.disjoint (next_unused sound.valid (needed_le fits)) _
          (List.mem_map_of_mem member)
    · rw [if_neg fits]
      exact .inr rfl

/-! ## What the arena refuses -/

/-- The call ends with `bad_alloc`. -/
def Throws (s : State) (T : ElementType) (count : Nat) : Prop :=
  ∃ arena, allocate T count s.arena = .error .badAlloc arena

theorem Sound.throws_iff {buffer : Buffer} {s : State} (sound : Sound buffer s) (T : ElementType)
    (count : Nat) : Throws s T count ↔ s.arena.room < s.arena.needed T (count + 1) := by
  unfold Throws
  rw [allocate_eq sound.valid]
  by_cases fits : s.arena.needed T (count + 1) ≤ s.arena.room
  · rw [if_pos fits]
    refine ⟨?_, fun less => absurd fits (Nat.not_le.mpr less)⟩
    rintro ⟨arena, eq⟩
    cases eq
  · rw [if_neg fits]
    exact ⟨fun _ => Nat.lt_of_not_le fits, fun _ => ⟨_, rfl⟩⟩

/-- After any calls, the arena refuses exactly what does not fit if the block does not fit, or one
more element would fit as well. -/
theorem arena_refuses_iff (buffer : Buffer) (calls : List Call) :
    ∃ s, run (.start buffer) calls = some s ∧ ∀ T count,
      ((Throws s T count ↔ s.arena.room < s.arena.needed T count) ↔
        s.arena.room < s.arena.needed T count ∨ s.arena.needed T (count + 1) ≤ s.arena.room) := by
  rcases (sound_start buffer).run calls with ⟨s, ran, sound⟩
  refine ⟨s, ran, fun T count => ?_⟩
  have mono : s.arena.room < s.arena.needed T count → s.arena.room < s.arena.needed T (count + 1) :=
    fun less => Nat.lt_of_not_le fun fits => absurd (needed_le fits) (Nat.not_le.mpr less)
  rw [sound.throws_iff]
  constructor
  · intro exact
    rcases Nat.lt_or_ge s.arena.room (s.arena.needed T (count + 1)) with refused | fits
    · exact .inl (exact.mp refused)
    · exact .inr fits
  · rintro (less | fits)
    · exact ⟨fun _ => less, mono⟩
    · exact ⟨fun refused => absurd fits (Nat.not_le.mpr refused), mono⟩

/-- `int`. -/
def intType : ElementType := ⟨4, 4, by decide, by decide, 2, by decide, rfl⟩

/-- A buffer for one `int` is refused to it. -/
theorem arena_refuses_last :
    let s := State.start ⟨16, 20, by decide, by decide⟩
    Throws s intType 1 ∧ s.arena.needed intType 1 ≤ s.arena.room := by
  refine ⟨?_, by decide⟩
  rw [(sound_start ⟨16, 20, by decide, by decide⟩).throws_iff]
  decide

end Lambcalc.Arena
