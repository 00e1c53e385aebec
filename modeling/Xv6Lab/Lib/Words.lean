import Xv6Lab.Lib.Bytes

/-!
# Little-endian words of any width, and `memset`

A machine word of `n` bytes at `p` in a byte map is read least significant byte first
(`getLE`) and stored the same way (`setLE`); `fill` is `memset` of a range. Everything a
store or a fill changes lies in its range, so a word outside it reads as before; a word read
back after a store of it is the value stored, taken modulo `256^n`.

* `getLE_congr` — a word depends only on its own bytes;
* `getLE_setLE_self`, `getLE_setLE_of_disjoint` — a stored word reads back, and a store
  elsewhere leaves a word as it was;
* `getLE_fill_of_disjoint`, `getLE_copy_of_disjoint` — the same for `memset` and `memmove`.
-/

namespace ByteMap

/-- The value of the `n` bytes at `p`, least significant first. -/
def getLE (f : ℕ → UInt8) (p : ℕ) : ℕ → ℕ
  | 0 => 0
  | n + 1 => (f p).toNat + 256 * getLE f (p + 1) n

theorem getLE_succ (f : ℕ → UInt8) (p n : ℕ) :
    getLE f p (n + 1) = (f p).toNat + 256 * getLE f (p + 1) n := rfl

/-- `f` with the `n` low bytes of `v` stored at `p`, least significant first. -/
def setLE (f : ℕ → UInt8) (p n v : ℕ) : ℕ → UInt8 := fun x =>
  if p ≤ x ∧ x < p + n then UInt8.ofNat (v / 256 ^ (x - p)) else f x

/-- `memset(p, c, n)`. -/
def fill (f : ℕ → UInt8) (p : ℕ) (c : UInt8) (n : ℕ) : ℕ → UInt8 := fun x =>
  if p ≤ x ∧ x < p + n then c else f x

section LE

variable (f : ℕ → UInt8)

theorem getLE_congr {g : ℕ → UInt8} :
    ∀ {p n : ℕ}, (∀ k < n, f (p + k) = g (p + k)) → getLE f p n = getLE g p n
  | _, 0, _ => rfl
  | p, n + 1, h => by
    have h₀ : f p = g p := h 0 (Nat.succ_pos n)
    have hs : ∀ k < n, f (p + 1 + k) = g (p + 1 + k) := fun k hk => by
      rw [Nat.add_assoc, Nat.add_comm 1 k]
      exact h (k + 1) (by omega)
    rw [getLE_succ, getLE_succ, h₀, getLE_congr hs]

theorem getLE_lt : ∀ (p n : ℕ), getLE f p n < 256 ^ n
  | _, 0 => Nat.one_pos
  | p, n + 1 => by
    have h₁ := getLE_lt (p + 1) n
    have h₂ := (f p).toNat_lt
    rw [getLE_succ, pow_succ]
    omega

theorem setLE_of_not_mem {p n v x : ℕ} (hx : x < p ∨ p + n ≤ x) : setLE f p n v x = f x :=
  if_neg (by omega)

theorem fill_of_not_mem {p n x : ℕ} {c : UInt8} (hx : x < p ∨ p + n ≤ x) : fill f p c n x = f x :=
  if_neg (by omega)

/-- A stored word reads back, modulo `256^n`. -/
theorem getLE_setLE_self : ∀ (p n v : ℕ), getLE (setLE f p n v) p n = v % 256 ^ n
  | _, 0, v => by rw [pow_zero, Nat.mod_one]; rfl
  | p, n + 1, v => by
    -- the upper bytes are those of `v / 256` stored one byte further on
    have hup : getLE (setLE f p (n + 1) v) (p + 1) n =
        getLE (setLE f (p + 1) n (v / 256)) (p + 1) n := by
      apply getLE_congr
      intro k hk
      simp only [setLE, if_pos (show p ≤ p + 1 + k ∧ p + 1 + k < p + (n + 1) by omega),
        if_pos (show p + 1 ≤ p + 1 + k ∧ p + 1 + k < p + 1 + n by omega)]
      rw [show p + 1 + k - p = k + 1 by omega, show p + 1 + k - (p + 1) = k by omega, pow_succ',
        ← Nat.div_div_eq_div_mul]
    have hlow : (setLE f p (n + 1) v p).toNat = v % 256 := by
      simp [setLE, UInt8.toNat_ofNat']
    rw [getLE_succ, hup, getLE_setLE_self, hlow, pow_succ', Nat.mod_mul, Nat.add_comm]

/-- A word stored elsewhere leaves this one as it was. -/
theorem getLE_setLE_of_disjoint {p n q m v : ℕ} (h : q + m ≤ p ∨ p + n ≤ q) :
    getLE (setLE f q m v) p n = getLE f p n :=
  getLE_congr _ fun k hk => setLE_of_not_mem f (by omega)

theorem getLE_fill_of_disjoint {p n q m : ℕ} {c : UInt8} (h : q + m ≤ p ∨ p + n ≤ q) :
    getLE (fill f q c m) p n = getLE f p n :=
  getLE_congr _ fun k hk => fill_of_not_mem f (by omega)

theorem getLE_copy_of_disjoint {p n d s m : ℕ} {src : ℕ → UInt8} (h : d + m ≤ p ∨ p + n ≤ d) :
    getLE (copy f d src s m) p n = getLE f p n :=
  getLE_congr _ fun k hk => copy_of_not_mem f d src s m (by omega)

/-- A word inside a filled range is the fill byte repeated. -/
theorem getLE_fill_of_le {p n q m : ℕ} {c : UInt8} (h : q ≤ p ∧ p + n ≤ q + m) :
    getLE (fill f q c m) p n = getLE (fun _ => c) p n :=
  getLE_congr _ fun k hk => if_pos (by omega)

/-- A word of zero bytes is `0`. -/
theorem getLE_zero : ∀ (p n : ℕ), getLE (fun _ => 0) p n = 0
  | _, 0 => rfl
  | p, n + 1 => by rw [getLE_succ, getLE_zero (p + 1) n]; rfl

end LE

end ByteMap
