import Lambcalc.Lib.Align
import Mathlib.Order.Interval.Set.Basic

/-!
# The arena

`arena::Allocator` of `include/arena.h`. Pointers are words. The computations in `ptrdiff_t` are
those of integers, and end the call if a result does not fit; the padding is computed on words.
-/

namespace Lambcalc.Arena

open Lib

abbrev Address := BitVec 64

/-- A type `T`: its size and its alignment, a power of two. -/
structure ElementType where
  size : Nat
  align : Nat
  pos : 0 < size
  small : size < 2 ^ 63
  power : ∃ log < 64, align = 2 ^ log

structure Allocator where
  begin_ : Address
  orig_ : Address
  end_ : Address

/-- How a call ends without a pointer. -/
inductive Failure where
  | badAlloc
  | badArrayNewLength
  | overflow

namespace Allocator

/-- The constructor. -/
def new (begin_ end_ : Address) : Allocator := ⟨begin_, begin_, end_⟩

/-- The result of a computation in `ptrdiff_t`. -/
def ptrdiff (n : Int) : EStateM Failure Allocator Int :=
  if -2 ^ 63 ≤ n ∧ n < 2 ^ 63 then pure n else throw .overflow

def allocate (T : ElementType) (count : Int) : EStateM Failure Allocator Address := do
  let arena ← get
  let size ← ptrdiff T.size
  let pad := (-arena.begin_ &&& (BitVec.ofNat 64 T.align - 1)).toInt
  let room ← ptrdiff (arena.end_.toNat - arena.begin_.toNat)
  let room ← ptrdiff (room - pad)
  -- the division of integers in C++ rounds towards zero
  if count ≥ room.tdiv size then throw .badAlloc
  let bytes ← ptrdiff (count * size)
  let taken ← ptrdiff (pad + bytes)
  set { arena with begin_ := arena.begin_ + BitVec.ofInt 64 taken }
  -- the array new throws, and what was taken stays taken
  if count < 0 then throw .badArrayNewLength
  return arena.begin_ + BitVec.ofInt 64 pad

def reset (arena : Allocator) : Allocator := { arena with begin_ := arena.orig_ }

/-- The arena lies in a buffer, of at most as many bytes as `ptrdiff_t` can tell. -/
structure Valid (arena : Allocator) : Prop where
  lower : arena.orig_.toNat ≤ arena.begin_.toNat
  upper : arena.begin_.toNat ≤ arena.end_.toNat
  small : arena.end_.toNat - arena.orig_.toNat < 2 ^ 63

/-- What is left of the buffer. -/
def room (arena : Allocator) : Nat := arena.end_.toNat - arena.begin_.toNat

/-- What a block of `count` elements takes, with the bytes before it that align it. -/
def needed (arena : Allocator) (T : ElementType) (count : Nat) : Nat :=
  padding T.align arena.begin_.toNat + count * T.size

/-- What a call leaves that has taken `bytes` bytes. -/
def take (arena : Allocator) (bytes : Nat) : Allocator :=
  { arena with begin_ := arena.begin_ + BitVec.ofNat 64 bytes }

section Allocate

variable {arena : Allocator} {T : ElementType} {count : Nat}

theorem ElementType.align_pos (T : ElementType) : 0 < T.align := by
  rcases T.power with ⟨log, -, eq⟩
  exact eq ▸ Nat.two_pow_pos log

/-- The padding is as short as it can be: a block fits if there is any aligned place for it. -/
theorem needed_le_iff : arena.needed T count ≤ arena.room ↔
    ∃ distance, T.align ∣ arena.begin_.toNat + distance ∧
      distance + count * T.size ≤ arena.room := by
  constructor
  · intro fits
    exact ⟨_, dvd_add_padding (ElementType.align_pos T) _, fits⟩
  · rintro ⟨distance, aligned, fits⟩
    exact (Nat.add_le_add_right (padding_le (ElementType.align_pos T) aligned) _).trans fits

theorem ptrdiff_of_small {n : Int} (lower : -2 ^ 63 ≤ n) (upper : n < 2 ^ 63) :
    ptrdiff n = pure n := if_pos ⟨lower, upper⟩

/-- The padding, as it is computed on words. -/
theorem toInt_pad (T : ElementType) (begin_ : Address) :
    (-begin_ &&& (BitVec.ofNat 64 T.align - 1)).toInt = (padding T.align begin_.toNat : Int) ∧
      padding T.align begin_.toNat < 2 ^ 63 := by
  rcases T.power with ⟨log, lt, eq⟩
  have bound : padding T.align begin_.toNat < 2 ^ log :=
    eq ▸ padding_lt (Nat.two_pow_pos log) _
  have le : 2 ^ log ≤ 2 ^ 63 := Nat.pow_le_pow_right Nat.two_pos (by omega)
  have toNat : (-begin_ &&& (BitVec.ofNat 64 T.align - 1)).toNat =
      padding T.align begin_.toNat := by
    rw [eq]
    exact toNat_neg_and_mask lt begin_
  refine ⟨?_, bound.trans_le le⟩
  rw [BitVec.toInt_eq_toNat_of_lt (by omega), toNat]

/-- The guard, also where the padding is longer than the room. -/
theorem tdiv_le_iff {room pad size count : Nat} (pos : 0 < size) :
    ((room : Int) - pad).tdiv size ≤ count ↔ room < pad + (count + 1) * size := by
  rcases Nat.lt_or_ge room pad with exceeds | fits
  · have negative : (room : Int) - pad = -((pad - room : Nat) : Int) := by omega
    have quotient : 0 ≤ (((pad - room) / size : Nat) : Int) := Int.natCast_nonneg _
    rw [negative, Int.neg_tdiv, ← Int.ofNat_tdiv]
    exact ⟨fun _ => Nat.lt_add_right _ exceeds, fun _ => by omega⟩
  · rw [← Int.natCast_sub fits, ← Int.ofNat_tdiv, Int.ofNat_le, ← Nat.lt_add_one_iff,
      Nat.div_lt_iff_lt_mul pos]
    omega

theorem get_bind {β : Type} (f : Allocator → EStateM Failure Allocator β) (arena : Allocator) :
    (get >>= f) arena = f arena arena := rfl

theorem ptrdiff_bind {β : Type} {n : Int} (lower : -2 ^ 63 ≤ n) (upper : n < 2 ^ 63)
    (f : Int → EStateM Failure Allocator β) : ptrdiff n >>= f = f n := by
  rw [ptrdiff_of_small lower upper, pure_bind]

/-- A call succeeds if one more element would fit as well, and else changes nothing. -/
theorem allocate_eq (valid : arena.Valid) : allocate T count arena =
    if arena.needed T (count + 1) ≤ arena.room then
      .ok (arena.begin_ + BitVec.ofNat 64 (padding T.align arena.begin_.toNat))
        (arena.take (arena.needed T count))
    else .error .badAlloc arena := by
  have upper := valid.upper
  have lower := valid.lower
  have small := valid.small
  have sizeSmall := T.small
  rcases toInt_pad T arena.begin_ with ⟨pad, padSmall⟩
  have room : ((arena.end_.toNat : Int) - arena.begin_.toNat) = (arena.room : Int) :=
    (Int.natCast_sub upper).symm
  have roomSmall : arena.room < 2 ^ 63 := by
    unfold Allocator.room
    omega
  rw [allocate, get_bind, ptrdiff_bind (by omega) (by omega), room,
    ptrdiff_bind (by omega) (by omega), pad, ptrdiff_bind (by omega) (by omega)]
  by_cases fits : arena.needed T (count + 1) ≤ arena.room
  · have isLess : ¬ (count : Int) ≥
        ((arena.room : Int) - padding T.align arena.begin_.toNat).tdiv T.size :=
      fun guard => absurd ((tdiv_le_iff T.pos).mp guard) (Nat.not_lt.mpr fits)
    have taken : padding T.align arena.begin_.toNat + count * T.size + T.size ≤ arena.room := by
      rw [Nat.add_assoc, ← Nat.succ_mul]
      exact fits
    have product : ((count : Int) * T.size) = ((count * T.size : Nat) : Int) :=
      (Int.natCast_mul count T.size).symm
    rw [if_pos fits, if_neg isLess, product, ptrdiff_bind (by omega) (by omega),
      ptrdiff_bind (by omega) (by omega), ← Int.natCast_add, BitVec.ofInt_natCast,
      BitVec.ofInt_natCast, if_neg (Int.not_lt.mpr (Int.natCast_nonneg count))]
    rfl
  · have guard : (count : Int) ≥
        ((arena.room : Int) - padding T.align arena.begin_.toNat).tdiv T.size :=
      (tdiv_le_iff T.pos).mpr (Nat.lt_of_not_le fits)
    rw [if_neg fits, if_pos guard]
    rfl

end Allocate

end Allocator

end Lambcalc.Arena
