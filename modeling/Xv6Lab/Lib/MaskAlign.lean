import Mathlib.Data.Nat.Bitwise
import Mathlib.Tactic.IntervalCases

/-!
# Rounding with a low-bit mask

C rounds to a power-of-two boundary by clearing low bits: `x & ~(A - 1)` rounds `x` down
to a multiple of `A = 2^k`, and `(x + (A - 1)) & ~(A - 1)` rounds it up. On a `w`-bit
unsigned type the addition wraps first, so the round-up agrees with the arithmetic one
only while `x + (A - 1)` stays below `2^w`.

* `land_two_pow_sub_two_pow` — the mask `2^w - 2^k` keeps exactly the bits `k .. w-1`;
* `UInt32.toNat_and_not` and `UInt32.toNat_roundUp` — the same for `unsigned`, with the
  wrap of the round-up made explicit;
* `UInt32.toNat_roundUp_of_lt` — below the wrap, the round-up is `⌈x / 2^k⌉ * 2^k`.
-/

namespace MaskAlign

/-- Clearing the low `k` bits of a `w`-bit number rounds it down to a multiple of `2^k`. -/
theorem land_two_pow_sub_two_pow (a w k : ℕ) (hk : k ≤ w) (ha : a < 2 ^ w) :
    a &&& (2 ^ w - 2 ^ k) = a / 2 ^ k * 2 ^ k := by
  apply Nat.eq_of_testBit_eq
  intro i
  have hmask : (2 ^ w - 2 ^ k).testBit i = (decide (k ≤ i) && decide (i < w)) := by
    have hsplit : 2 ^ w - 2 ^ k = (2 ^ (w - k) - 1) <<< k := by
      rw [Nat.shiftLeft_eq, Nat.sub_mul, one_mul, ← Nat.pow_add, Nat.sub_add_cancel hk]
    rw [hsplit, Nat.testBit_shiftLeft, Nat.testBit_two_pow_sub_one]
    by_cases hki : k ≤ i
    · simp only [hki, decide_true, Bool.true_and]
      congr 1
      exact propext ⟨fun h => by omega, fun h => by omega⟩
    · simp [hki]
  have hdown : (a / 2 ^ k * 2 ^ k).testBit i = (decide (k ≤ i) && a.testBit i) := by
    rw [← Nat.shiftLeft_eq, Nat.testBit_shiftLeft, ← Nat.shiftRight_eq_div_pow,
      Nat.testBit_shiftRight]
    by_cases hki : k ≤ i
    · simp only [hki, decide_true, Bool.true_and]
      congr 1
      omega
    · simp [hki]
  rw [Nat.testBit_and, hmask, hdown]
  -- above the width both sides read a zero bit of `a`
  by_cases hiw : i < w
  · cases a.testBit i <;> simp [hiw]
  · have hbit : a.testBit i = false :=
      Nat.testBit_lt_two_pow (lt_of_lt_of_le ha (Nat.pow_le_pow_right (by norm_num) (by omega)))
    simp [hbit, hiw]

end MaskAlign

namespace UInt32

open MaskAlign

/-- `x & ~(2^k - 1)` on `unsigned`: round down to a multiple of `2^k`. -/
theorem toNat_and_not (x : UInt32) (k : ℕ) (hk : k ≤ 32) :
    (x &&& ~~~(2 ^ k - 1 : ℕ).toUInt32).toNat = x.toNat / 2 ^ k * 2 ^ k := by
  have hpow : 2 ^ k ≤ 2 ^ 32 := Nat.pow_le_pow_right (by norm_num) hk
  have hpos : 0 < 2 ^ k := Nat.two_pow_pos k
  have hmask : (~~~(2 ^ k - 1 : ℕ).toUInt32).toNat = 2 ^ 32 - 2 ^ k := by
    rw [UInt32.toNat_not, Nat.toUInt32, UInt32.toNat_ofNat', Nat.mod_eq_of_lt (by omega)]
    simp only [UInt32.size]
    omega
  rw [UInt32.toNat_and, hmask]
  exact land_two_pow_sub_two_pow x.toNat 32 k hk x.toNat_lt

/-- `(x + (2^k - 1)) & ~(2^k - 1)` on `unsigned`: the sum wraps, then the low bits go. -/
theorem toNat_roundUp (x : UInt32) (k : ℕ) (hk : k ≤ 32) :
    ((x + (2 ^ k - 1 : ℕ).toUInt32) &&& ~~~(2 ^ k - 1 : ℕ).toUInt32).toNat =
      (x.toNat + (2 ^ k - 1)) % 2 ^ 32 / 2 ^ k * 2 ^ k := by
  have hpow : 2 ^ k ≤ 2 ^ 32 := Nat.pow_le_pow_right (by norm_num) hk
  rw [toNat_and_not _ k hk, UInt32.toNat_add, Nat.toUInt32, UInt32.toNat_ofNat',
    Nat.mod_eq_of_lt (a := 2 ^ k - 1) (by omega)]

/-- Below the wrap, the masked round-up is the arithmetic one. -/
theorem toNat_roundUp_of_lt (x : UInt32) (k : ℕ) (hk : k ≤ 32)
    (hx : x.toNat + (2 ^ k - 1) < 2 ^ 32) :
    ((x + (2 ^ k - 1 : ℕ).toUInt32) &&& ~~~(2 ^ k - 1 : ℕ).toUInt32).toNat =
      (x.toNat + (2 ^ k - 1)) / 2 ^ k * 2 ^ k := by
  rw [toNat_roundUp x k hk, Nat.mod_eq_of_lt hx]

end UInt32

namespace UInt64

open MaskAlign

/-- `x & ~(2^k - 1)` on `uint64`: round down to a multiple of `2^k`. -/
theorem toNat_and_not (x : UInt64) (k : ℕ) (hk : k ≤ 64) :
    (x &&& ~~~(2 ^ k - 1 : ℕ).toUInt64).toNat = x.toNat / 2 ^ k * 2 ^ k := by
  have hpow : 2 ^ k ≤ 2 ^ 64 := Nat.pow_le_pow_right (by norm_num) hk
  have hpos : 0 < 2 ^ k := Nat.two_pow_pos k
  have hmask : (~~~(2 ^ k - 1 : ℕ).toUInt64).toNat = 2 ^ 64 - 2 ^ k := by
    rw [UInt64.toNat_not, Nat.toUInt64, UInt64.toNat_ofNat', Nat.mod_eq_of_lt (by omega)]
    simp only [UInt64.size]
    omega
  rw [UInt64.toNat_and, hmask]
  exact land_two_pow_sub_two_pow x.toNat 64 k hk x.toNat_lt

/-- `(x + (2^k - 1)) & ~(2^k - 1)` on `uint64`: the sum wraps, then the low bits go. -/
theorem toNat_roundUp (x : UInt64) (k : ℕ) (hk : k ≤ 64) :
    ((x + (2 ^ k - 1 : ℕ).toUInt64) &&& ~~~(2 ^ k - 1 : ℕ).toUInt64).toNat =
      (x.toNat + (2 ^ k - 1)) % 2 ^ 64 / 2 ^ k * 2 ^ k := by
  have hpow : 2 ^ k ≤ 2 ^ 64 := Nat.pow_le_pow_right (by norm_num) hk
  rw [toNat_and_not _ k hk, UInt64.toNat_add, Nat.toUInt64, UInt64.toNat_ofNat',
    Nat.mod_eq_of_lt (a := 2 ^ k - 1) (by omega)]

end UInt64
