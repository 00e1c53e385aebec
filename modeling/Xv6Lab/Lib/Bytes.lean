import Mathlib.Logic.Function.Basic
import Mathlib.Data.Nat.Bitwise

/-!
# Byte maps: little-endian words, copies and bit flags

A memory or a disk block is a map from offsets to bytes. A 32-bit word is four bytes, and a
16-bit half word two, least significant first, as RISC-V stores them; `copy` is `memmove` of a
range; a bitmap keeps flag `i` in bit `i % 8` of byte `i / 8`, tested and changed with the
masks `1 << (i % 8)`.

* `getWord_setWord_self`, `getWord_setWord_of_far` — a word reads back what was stored,
  and a store elsewhere does not change it.
* `getWord_of_bytes`, `getHalf_of_bytes` — a word or half word reads as the value whose bytes
  it holds.
* `copyForward_eq_copy`, `copyBackward_eq_copy` — a copy one byte at a time, forward or
  backward, is `copy` from the bytes as they were when its direction suits the overlap.
* `isFree_markUsed`, `isFree_markFree` — setting or clearing one flag changes no other.
-/

namespace ByteMap

/-! ### Little-endian words -/

/-- The value of the four bytes at `p`, least significant first. -/
def getWord (f : ℕ → UInt8) (p : ℕ) : UInt32 :=
  UInt32.ofNat ((f p).toNat + 256 * (f (p + 1)).toNat + 65536 * (f (p + 2)).toNat +
    16777216 * (f (p + 3)).toNat)

/-- Byte `k` of `v`, least significant first. -/
def byteOf (v : UInt32) (k : ℕ) : UInt8 := UInt8.ofNat (v.toNat / 256 ^ k)

/-- `f` with `v` stored at `p` as four bytes. -/
def setWord (f : ℕ → UInt8) (p : ℕ) (v : UInt32) : ℕ → UInt8 := fun x =>
  if p ≤ x ∧ x < p + 4 then byteOf v (x - p) else f x

section Words

variable (f : ℕ → UInt8) (p : ℕ) (v : UInt32)

theorem setWord_of_not_mem {x : ℕ} (hx : x < p ∨ p + 4 ≤ x) : setWord f p v x = f x :=
  if_neg (by omega)

theorem getWord_congr {g : ℕ → UInt8} (h : ∀ k < 4, f (p + k) = g (p + k)) :
    getWord f p = getWord g p := by
  have h₀ := h 0 (by decide)
  have h₁ := h 1 (by decide)
  have h₂ := h 2 (by decide)
  have h₃ := h 3 (by decide)
  simp only [Nat.add_zero] at h₀
  rw [getWord, getWord, h₀, h₁, h₂, h₃]

/-- Four bytes that are those of `v` read back as `v`. -/
theorem getWord_of_bytes (h : ∀ k < 4, f (p + k) = byteOf v k) : getWord f p = v := by
  have hb : ∀ k < 4, (f (p + k)).toNat = v.toNat / 256 ^ k % 256 := by
    intro k hk
    rw [h k hk, byteOf, UInt8.toNat_ofNat']
  have h₀ := hb 0 (by decide)
  have h₁ := hb 1 (by decide)
  have h₂ := hb 2 (by decide)
  have h₃ := hb 3 (by decide)
  simp only [Nat.add_zero, pow_zero, Nat.div_one, pow_one] at h₀ h₁ h₂ h₃
  have hv := v.toNat_lt
  apply UInt32.toNat_inj.mp
  rw [getWord, UInt32.toNat_ofNat', h₀, h₁, h₂, h₃]
  rw [show (256 : ℕ) ^ 2 = 65536 from rfl, show (256 : ℕ) ^ 3 = 16777216 from rfl,
    show (2 : ℕ) ^ 32 = 4294967296 from rfl] at *
  omega

/-- A stored word reads back. -/
theorem getWord_setWord_self : getWord (setWord f p v) p = v :=
  getWord_of_bytes _ _ _ fun k hk => by rw [setWord, if_pos (by omega), Nat.add_sub_cancel_left]

/-- A word stored elsewhere leaves this one as it was. -/
theorem getWord_setWord_of_far {q : ℕ} (h : q + 4 ≤ p ∨ p + 4 ≤ q) :
    getWord (setWord f q v) p = getWord f p :=
  getWord_congr _ _ fun k hk => setWord_of_not_mem f q v (by omega)

theorem getWord_zero : getWord (fun _ => 0) p = 0 := rfl

end Words

/-! ### Little-endian half words -/

/-- The value of the two bytes at `p`, least significant first. -/
def getHalf (f : ℕ → UInt8) (p : ℕ) : UInt16 :=
  UInt16.ofNat ((f p).toNat + 256 * (f (p + 1)).toNat)

/-- Byte `k` of `v`, least significant first. -/
def halfByte (v : UInt16) (k : ℕ) : UInt8 := UInt8.ofNat (v.toNat / 256 ^ k)

section Halves

variable (f : ℕ → UInt8) (p : ℕ) (v : UInt16)

theorem getHalf_congr {g : ℕ → UInt8} (h : ∀ k < 2, f (p + k) = g (p + k)) :
    getHalf f p = getHalf g p := by
  have h₀ := h 0 (by decide)
  have h₁ := h 1 (by decide)
  simp only [Nat.add_zero] at h₀
  rw [getHalf, getHalf, h₀, h₁]

/-- Two bytes that are those of `v` read back as `v`. -/
theorem getHalf_of_bytes (h : ∀ k < 2, f (p + k) = halfByte v k) : getHalf f p = v := by
  have hb : ∀ k < 2, (f (p + k)).toNat = v.toNat / 256 ^ k % 256 := by
    intro k hk
    rw [h k hk, halfByte, UInt8.toNat_ofNat']
  have h₀ := hb 0 (by decide)
  have h₁ := hb 1 (by decide)
  simp only [Nat.add_zero, pow_zero, Nat.div_one, pow_one] at h₀ h₁
  have hv := v.toNat_lt
  apply UInt16.toNat_inj.mp
  rw [getHalf, UInt16.toNat_ofNat', h₀, h₁]
  rw [show (2 : ℕ) ^ 16 = 65536 from rfl] at *
  omega

end Halves

/-! ### Copies -/

/-- `memmove(dst + d, src + s, n)`. -/
def copy (dst : ℕ → UInt8) (d : ℕ) (src : ℕ → UInt8) (s n : ℕ) : ℕ → UInt8 := fun x =>
  if d ≤ x ∧ x < d + n then src (s + (x - d)) else dst x

section Copies

variable (dst : ℕ → UInt8) (d : ℕ) (src : ℕ → UInt8) (s n : ℕ)

theorem copy_of_mem {x : ℕ} (hx : d ≤ x ∧ x < d + n) : copy dst d src s n x = src (s + (x - d)) :=
  if_pos hx

theorem copy_of_not_mem {x : ℕ} (hx : x < d ∨ d + n ≤ x) : copy dst d src s n x = dst x :=
  if_neg (by omega)

theorem copy_zero : copy dst d src s 0 = dst :=
  funext fun _ => copy_of_not_mem dst d src s 0 (by omega)

end Copies

/-! ### Copying one byte at a time

A `memmove` copies in place, one byte after another, and reads each source byte after the
writes before it. Forward from the first byte, no byte is overwritten before it is read when
the destination starts at or below the source, or past the end of it (`copyForward_eq_copy`);
backward from the last byte, when it starts at or above the source, or ends below it
(`copyBackward_eq_copy`). Either way the result is `copy` from the bytes as they were. -/

/-- `while(n-- > 0) *d++ = *s++;` -/
def copyForward (f : ℕ → UInt8) (d s : ℕ) : ℕ → ℕ → UInt8
  | 0 => f
  | n + 1 => copyForward (Function.update f d (f s)) (d + 1) (s + 1) n

/-- `d += n; s += n; while(n-- > 0) *--d = *--s;`: the bytes `n - 1` down to `0`. -/
def copyBackward (f : ℕ → UInt8) (d s : ℕ) : ℕ → ℕ → UInt8
  | 0 => f
  | n + 1 => copyBackward (Function.update f (d + n) (f (s + n))) d s n

section Loops

variable (f : ℕ → UInt8) {d s n : ℕ}

/-- The first byte written, then the other `n` copied from the memory it left. -/
theorem copy_update_first (h : d ≤ s ∨ s + (n + 1) ≤ d) :
    copy (Function.update f d (f s)) (d + 1) (Function.update f d (f s)) (s + 1) n =
      copy f d f s (n + 1) := by
  funext x
  by_cases hx : d + 1 ≤ x ∧ x < d + 1 + n
  · -- the source byte read for `x` is not the one written first
    have hs : s + 1 + (x - (d + 1)) ≠ d := by omega
    rw [copy_of_mem _ _ _ _ _ hx, Function.update_of_ne hs, copy_of_mem _ _ _ _ _ (by omega),
      show s + 1 + (x - (d + 1)) = s + (x - d) by omega]
  · by_cases hd : x = d
    · subst hd
      rw [copy_of_not_mem _ _ _ _ _ (by omega), Function.update_self,
        copy_of_mem _ _ _ _ _ (by omega), Nat.sub_self, Nat.add_zero]
    · rw [copy_of_not_mem _ _ _ _ _ (by omega), Function.update_of_ne hd,
        copy_of_not_mem _ _ _ _ _ (by omega)]

/-- The last byte written, then the other `n` copied from the memory it left. -/
theorem copy_update_last (h : s ≤ d ∨ d + (n + 1) ≤ s) :
    copy (Function.update f (d + n) (f (s + n))) d (Function.update f (d + n) (f (s + n))) s n =
      copy f d f s (n + 1) := by
  funext x
  by_cases hx : d ≤ x ∧ x < d + n
  · -- the source byte read for `x` is not the one written last
    have hs : s + (x - d) ≠ d + n := by omega
    rw [copy_of_mem _ _ _ _ _ hx, Function.update_of_ne hs, copy_of_mem _ _ _ _ _ (by omega)]
  · by_cases hd : x = d + n
    · subst hd
      rw [copy_of_not_mem _ _ _ _ _ (by omega), Function.update_self,
        copy_of_mem _ _ _ _ _ (by omega), Nat.add_sub_cancel_left]
    · rw [copy_of_not_mem _ _ _ _ _ (by omega), Function.update_of_ne hd,
        copy_of_not_mem _ _ _ _ _ (by omega)]

/-- Copying forward is `copy` unless the destination starts inside the source, past its
first byte. -/
theorem copyForward_eq_copy (h : d ≤ s ∨ s + n ≤ d) : copyForward f d s n = copy f d f s n := by
  -- each pass writes the first byte and moves both pointers on
  induction n generalizing f d s with
  | zero => exact (copy_zero f d f s).symm
  | succ n ih => rw [copyForward, ih _ (by omega), copy_update_first f h]

/-- Copying backward is `copy` unless the source starts inside the destination, past its
first byte. -/
theorem copyBackward_eq_copy (h : s ≤ d ∨ d + n ≤ s) : copyBackward f d s n = copy f d f s n := by
  -- each pass writes the last byte and leaves the pointers at the start
  induction n generalizing f with
  | zero => exact (copy_zero f d f s).symm
  | succ n ih => rw [copyBackward, ih _ (by omega), copy_update_last f h]

end Loops

/-! ### Bit flags -/

/-- `(x & (1 << k)) == 0`. -/
def bitClear (x : UInt8) (k : ℕ) : Bool := x.toNat &&& (1 <<< k) == 0

/-- `x |= 1 << k`. -/
def setBit (x : UInt8) (k : ℕ) : UInt8 := UInt8.ofNat (x.toNat ||| (1 <<< k))

/-- `x &= ~(1 << k)`: the bits of the byte other than `k`. -/
def clearBit (x : UInt8) (k : ℕ) : UInt8 := UInt8.ofNat (x.toNat &&& (255 - (1 <<< k)))

/-- Flag `i` of the bitmap `f` is clear. -/
def isFree (f : ℕ → UInt8) (i : ℕ) : Bool := bitClear (f (i / 8)) (i % 8)

/-- `f` with flag `i` set. -/
def markUsed (f : ℕ → UInt8) (i : ℕ) : ℕ → UInt8 :=
  Function.update f (i / 8) (setBit (f (i / 8)) (i % 8))

/-- `f` with flag `i` cleared. -/
def markFree (f : ℕ → UInt8) (i : ℕ) : ℕ → UInt8 :=
  Function.update f (i / 8) (clearBit (f (i / 8)) (i % 8))

section Bits

variable (x : UInt8) {k j : ℕ}

theorem bitClear_eq (k : ℕ) : bitClear x k = !x.toNat.testBit k := by
  rw [bitClear, Nat.one_shiftLeft, Nat.and_two_pow]
  cases x.toNat.testBit k <;> simp

theorem testBit_setBit (hk : k < 8) (j : ℕ) :
    (setBit x k).toNat.testBit j = (x.toNat.testBit j || decide (k = j)) := by
  have hlt : x.toNat ||| 2 ^ k < 2 ^ 8 :=
    Nat.or_lt_two_pow x.toNat_lt (Nat.pow_lt_pow_right (by decide) hk)
  rw [setBit, Nat.one_shiftLeft, UInt8.toNat_ofNat_of_lt' hlt, Nat.testBit_or, Nat.testBit_two_pow]

/-- The mask `~(1 << k)` within a byte: every bit of the byte but `k`. -/
theorem mask_eq (hk : k < 8) : 255 - 2 ^ k = (2 ^ 8 - 1) ^^^ 2 ^ k := by
  have hall : ∀ k < 8, 255 - 2 ^ k = (2 ^ 8 - 1) ^^^ 2 ^ k := by decide
  exact hall k hk

theorem testBit_clearBit (hk : k < 8) (hj : j < 8) :
    (clearBit x k).toNat.testBit j = (x.toNat.testBit j && !decide (k = j)) := by
  have hlt : x.toNat &&& (255 - 2 ^ k) < 2 ^ 8 :=
    Nat.and_lt_two_pow _ (lt_of_le_of_lt (Nat.sub_le 255 _) (by decide))
  rw [clearBit, Nat.one_shiftLeft, UInt8.toNat_ofNat_of_lt' hlt, Nat.testBit_and, mask_eq hk,
    Nat.testBit_xor, Nat.testBit_two_pow_sub_one, Nat.testBit_two_pow, decide_eq_true hj]
  cases decide (k = j) <;> rfl

variable (f : ℕ → UInt8) (i : ℕ)

/-- Setting flag `i` clears nothing, and leaves every other flag as it was. -/
theorem isFree_markUsed (j : ℕ) : isFree (markUsed f i) j = (isFree f j && decide (i ≠ j)) := by
  unfold isFree markUsed
  by_cases h : i / 8 = j / 8
  · -- the same byte: only the bit of `i` changes
    rw [← h, Function.update_self, bitClear_eq, bitClear_eq, testBit_setBit _ (Nat.mod_lt _ (by decide))]
    have hij : decide (i % 8 = j % 8) = !decide (i ≠ j) := by
      by_cases e : i = j
      · simp [e]
      · simp only [e, ne_eq, not_false_eq_true, decide_true, Bool.not_true, decide_eq_false_iff_not]
        omega
    rw [hij]
    cases (f (i / 8)).toNat.testBit (j % 8) <;> cases decide (i ≠ j) <;> rfl
  · have hij : i ≠ j := fun e => h (e ▸ rfl)
    rw [Function.update_of_ne (Ne.symm h), decide_eq_true hij, Bool.and_true]

/-- Clearing flag `i` sets nothing, and leaves every other flag as it was. -/
theorem isFree_markFree (j : ℕ) : isFree (markFree f i) j = (isFree f j || decide (i = j)) := by
  unfold isFree markFree
  by_cases h : i / 8 = j / 8
  · -- the same byte: only the bit of `i` changes
    rw [← h, Function.update_self, bitClear_eq, bitClear_eq,
      testBit_clearBit _ (Nat.mod_lt _ (by decide)) (Nat.mod_lt _ (by decide))]
    have hij : decide (i % 8 = j % 8) = decide (i = j) := by
      by_cases e : i = j
      · simp [e]
      · simp only [e, decide_false, decide_eq_false_iff_not]
        omega
    rw [hij]
    cases (f (i / 8)).toNat.testBit (j % 8) <;> cases decide (i = j) <;> rfl
  · have hij : ¬ i = j := fun e => h (e ▸ rfl)
    rw [Function.update_of_ne (Ne.symm h), decide_eq_false hij, Bool.or_false]

end Bits

end ByteMap
