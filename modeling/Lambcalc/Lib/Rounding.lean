import Mathlib.Algebra.Order.Group.Nat
import Mathlib.Data.Nat.Size
import Mathlib.Tactic.Common

/-!
# Rounding to significant bits

`nearest precision n` is the natural number of at most `precision` significant bits that is nearest
to `n`, and of two such numbers the one whose last bit is even. With 53 bits these are the doubles
without a fraction.
-/

namespace Lambcalc.Lib

/-- The distance of neighbours of `n` that have `precision` significant bits. -/
def ulp (precision n : Nat) : Nat := 2 ^ (n.size - precision)

def nearest (precision n : Nat) : Nat :=
  let unit := ulp precision n
  let quotient := n / unit
  let rest := n % unit
  if unit < 2 * rest ∨ unit = 2 * rest ∧ quotient % 2 = 1 then (quotient + 1) * unit
  else quotient * unit

/-- A number that has few enough bits is not changed. -/
theorem nearest_of_lt {precision n : Nat} (lt : n < 2 ^ precision) : nearest precision n = n := by
  have unit : ulp precision n = 1 := by
    rw [ulp, Nat.sub_eq_zero_of_le (Nat.size_le.mpr lt), Nat.pow_zero]
  simp [nearest, unit, Nat.mod_one]

/-- A number that has more bits stays above those that have not. -/
theorem le_nearest {precision n : Nat} (pos : 0 < precision) (le : 2 ^ precision ≤ n) :
    2 ^ precision ≤ nearest precision n := by
  have bits : precision < n.size := Nat.lt_size.mpr le
  have top : 2 ^ (n.size - 1) ≤ n := Nat.lt_size.mp (by omega)
  have split : 2 ^ (n.size - 1) = 2 ^ (precision - 1) * ulp precision n := by
    rw [ulp, ← Nat.pow_add]
    congr 1
    omega
  have quotient : 2 ^ (precision - 1) ≤ n / ulp precision n :=
    (Nat.le_div_iff_mul_le (Nat.two_pow_pos _)).mpr (split ▸ top)
  have floor : 2 ^ precision ≤ n / ulp precision n * ulp precision n := by
    calc 2 ^ precision ≤ 2 ^ (n.size - 1) := Nat.pow_le_pow_right Nat.two_pos (by omega)
      _ = 2 ^ (precision - 1) * ulp precision n := split
      _ ≤ n / ulp precision n * ulp precision n := Nat.mul_le_mul_right _ quotient
  unfold nearest
  dsimp only
  split
  · exact floor.trans (Nat.mul_le_mul_right _ (Nat.le_succ _))
  · exact floor

end Lambcalc.Lib
