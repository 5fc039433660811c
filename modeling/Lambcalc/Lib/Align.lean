import Mathlib.Algebra.Order.Group.Nat
import Mathlib.Algebra.Ring.Nat
import Mathlib.Data.Nat.ModEq
import Mathlib.Tactic.Common

/-!
# Padding to an alignment

`padding align address` is the least number of bytes after which an address is aligned. On machine
words, and for a power of two, it is what negating and masking the address computes.
-/

namespace Lambcalc.Lib

/-- How far it is from `address` to the next multiple of `align`. -/
def padding (align address : Nat) : Nat := (align - address % align) % align

theorem padding_lt {align : Nat} (pos : 0 < align) (address : Nat) :
    padding align address < align := Nat.mod_lt _ pos

theorem dvd_add_padding {align : Nat} (pos : 0 < align) (address : Nat) :
    align ∣ address + padding align address := by
  have rest := Nat.mod_lt address pos
  refine Nat.dvd_of_mod_eq_zero ?_
  calc (address + padding align address) % align
      = (address % align + (align - address % align)) % align := by
        rw [padding, Nat.add_mod_mod, Nat.mod_add_mod]
    _ = align % align := by rw [Nat.add_sub_cancel' rest.le]
    _ = 0 := Nat.mod_self align

/-- Every distance to a multiple is the padding, up to multiples. -/
theorem mod_eq_padding {align address distance : Nat} (pos : 0 < align)
    (dvd : align ∣ address + distance) : distance % align = padding align address := by
  have same : address + distance ≡ address + padding align address [MOD align] :=
    (Nat.mod_eq_zero_of_dvd dvd).trans (Nat.mod_eq_zero_of_dvd (dvd_add_padding pos address)).symm
  have eq := Nat.ModEq.add_left_cancel' address same
  rwa [Nat.ModEq, Nat.mod_eq_of_lt (padding_lt pos address)] at eq

/-- No smaller distance leads to a multiple. -/
theorem padding_le {align address distance : Nat} (pos : 0 < align)
    (dvd : align ∣ address + distance) : padding align address ≤ distance := by
  rw [← mod_eq_padding pos dvd]
  exact Nat.mod_le distance align

/-- Padding is computed on words by negation and a mask. -/
theorem toNat_neg_and_mask {width log : Nat} (lt : log < width) (address : BitVec width) :
    (-address &&& (BitVec.ofNat width (2 ^ log) - 1)).toNat =
      padding (2 ^ log) address.toNat := by
  have pos : 0 < 2 ^ log := Nat.two_pow_pos log
  have small : 2 ^ log < 2 ^ width := Nat.pow_lt_pow_right Nat.one_lt_two lt
  have dvd : 2 ^ log ∣ 2 ^ width := Nat.pow_dvd_pow 2 lt.le
  have below := address.isLt
  have mask : (BitVec.ofNat width (2 ^ log) - 1).toNat = 2 ^ log - 1 := by
    have one : (1 : BitVec width).toNat = 1 := BitVec.toNat_one (by omega)
    have power : (BitVec.ofNat width (2 ^ log)).toNat = 2 ^ log := Nat.mod_eq_of_lt small
    rw [BitVec.toNat_sub, one, power,
      show 2 ^ width - 1 + 2 ^ log = 2 ^ log - 1 + 2 ^ width by omega,
      Nat.add_mod_right, Nat.mod_eq_of_lt (by omega)]
  rw [BitVec.toNat_and, mask, Nat.and_two_pow_sub_one_eq_mod, BitVec.toNat_neg,
    Nat.mod_mod_of_dvd _ dvd]
  refine mod_eq_padding pos ?_
  rwa [Nat.add_sub_cancel' below.le]

end Lambcalc.Lib
