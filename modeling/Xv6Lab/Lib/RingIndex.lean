import Mathlib.Data.List.Basic
import Mathlib.Data.Nat.ModEq

/-!
# Rings with free-running `uint` counters

A ring of `N` slots is addressed by `uint` counters that run freely and wrap at `2^32`:
counter `i` lives in slot `i % N`. When `N` divides `2^32` a counter keeps its slot across
the wrap, and the distance `b - a` of two counters, taken in `uint` arithmetic, counts the
entries from `a` up to `b`. `segment N buf a b` lists those entries, oldest first.

* `dist_add` — distances add up along the ring, and `eq_of_dist_eq_zero` — counters at
  distance `0` are equal;
* `segment_append` — a segment splits at any counter between its ends;
* `segment_cons`, `segment_succ`, `segment_pred_append` — the first entry, one more at the end,
  the last entry;
* `segment_update` — a store into the slot of `b` leaves the entries from `a` up to `b` as
  they were while fewer than `N` are in there.
-/

namespace RingIndex

variable {α : Type*} {N : ℕ}

/-- The entries of a ring of `N` slots from counter `a` up to counter `b`, oldest first. -/
def segment (N : ℕ) (buf : ℕ → α) (a b : UInt32) : List α :=
  (List.range (b - a).toNat).map fun k => buf ((a.toNat + k) % N)

@[simp] theorem length_segment (buf : ℕ → α) (a b : UInt32) :
    (segment N buf a b).length = (b - a).toNat := by
  simp [segment]

@[simp] theorem segment_self (buf : ℕ → α) (a : UInt32) : segment N buf a a = [] := by
  simp [segment]

/-! ### Distances -/

/-- A counter between `a` and `c` splits the distance from `a` to `c`. -/
theorem dist_add {a b c : UInt32} (h : (b - a).toNat ≤ (c - a).toNat) :
    (c - a).toNat = (b - a).toNat + (c - b).toNat := by
  have := a.toNat_lt
  have := b.toNat_lt
  have := c.toNat_lt
  simp only [UInt32.toNat_sub] at *
  omega

theorem dist_succ {a b : UInt32} (h : (b - a).toNat < 2 ^ 32 - 1) :
    (b + 1 - a).toNat = (b - a).toNat + 1 := by
  have := a.toNat_lt
  have := b.toNat_lt
  simp only [UInt32.toNat_sub, UInt32.toNat_add, UInt32.toNat_one] at *
  omega

theorem dist_pred {a b : UInt32} (h : a ≠ b) : (b - 1 - a).toNat = (b - a).toNat - 1 := by
  have := a.toNat_lt
  have := b.toNat_lt
  have hne : a.toNat ≠ b.toNat := fun h' => h (UInt32.toNat_inj.mp h')
  simp only [UInt32.toNat_sub, UInt32.toNat_one] at *
  omega

theorem dist_pos {a b : UInt32} (h : a ≠ b) : 0 < (b - a).toNat := by
  have := a.toNat_lt
  have := b.toNat_lt
  have hne : a.toNat ≠ b.toNat := fun h' => h (UInt32.toNat_inj.mp h')
  simp only [UInt32.toNat_sub] at *
  omega

theorem dist_cons {a b : UInt32} (h : a ≠ b) : (b - (a + 1)).toNat = (b - a).toNat - 1 := by
  have := a.toNat_lt
  have := b.toNat_lt
  have hne : a.toNat ≠ b.toNat := fun h' => h (UInt32.toNat_inj.mp h')
  simp only [UInt32.toNat_sub, UInt32.toNat_add, UInt32.toNat_one] at *
  omega

theorem eq_of_dist_eq_zero {a b : UInt32} (h : (b - a).toNat = 0) : a = b := by
  have := a.toNat_lt
  have := b.toNat_lt
  rw [UInt32.toNat_sub] at h
  exact UInt32.toNat_inj.mp (by omega)

/-- A counter past `b` on the way from `a` is not `a`. -/
theorem ne_of_dist_le {a b c : UInt32} (h : (b - a).toNat ≤ (c - a).toNat) (hab : a ≠ b) :
    a ≠ c := by
  intro hac
  subst hac
  rw [UInt32.sub_self, UInt32.toNat_zero, Nat.le_zero] at h
  exact hab (eq_of_dist_eq_zero h)

/-! ### Slots -/

/-- Two counters less than `N` apart in the same direction are in different slots. -/
theorem slot_ne {x k d : ℕ} (hk : k < d) (hd : d < N) : (x + k) % N ≠ (x + d) % N := by
  intro h
  have hmod : k % N = d % N := Nat.ModEq.add_left_cancel' x h
  rw [Nat.mod_eq_of_lt (Nat.lt_trans hk hd), Nat.mod_eq_of_lt hd] at hmod
  exact Nat.ne_of_lt hk hmod

section Slots

variable (hN : N ∣ 2 ^ 32)
include hN

/-- A counter's slot is its value's slot before the wrap. -/
theorem mod_wrap (x k : ℕ) : (x % 2 ^ 32 + k) % N = (x + k) % N := by
  rw [Nat.add_mod, Nat.mod_mod_of_dvd x hN, ← Nat.add_mod]

/-- Walking the distance from `a` lands in the slot of `b`. -/
theorem slot_dist (a b : UInt32) : (a.toNat + (b - a).toNat) % N = b.toNat % N := by
  have hsum : (a.toNat + (b - a).toNat) % 2 ^ 32 = b.toNat := by
    have := a.toNat_lt
    have := b.toNat_lt
    rw [UInt32.toNat_sub]
    omega
  rw [← Nat.mod_mod_of_dvd _ hN, hsum]

theorem slot_add (a b : UInt32) (k : ℕ) :
    (a.toNat + ((b - a).toNat + k)) % N = (b.toNat + k) % N := by
  rw [← Nat.add_assoc, Nat.add_mod, slot_dist hN a b, ← Nat.add_mod]

theorem slot_succ (a : UInt32) (k : ℕ) : ((a + 1).toNat + k) % N = (a.toNat + (k + 1)) % N := by
  rw [UInt32.toNat_add, UInt32.toNat_one, mod_wrap hN, Nat.add_assoc, Nat.add_comm 1 k]

/-! ### Segments -/

theorem segment_append (buf : ℕ → α) {a b c : UInt32} (h : (b - a).toNat ≤ (c - a).toNat) :
    segment N buf a c = segment N buf a b ++ segment N buf b c := by
  rw [segment, dist_add h, List.range_add, List.map_append, List.map_map]
  congr 1
  refine List.map_congr_left fun k _ => ?_
  simp only [Function.comp_apply]
  rw [slot_add hN]

theorem segment_cons (buf : ℕ → α) {a b : UInt32} (h : a ≠ b) :
    segment N buf a b = buf (a.toNat % N) :: segment N buf (a + 1) b := by
  obtain ⟨d, hd⟩ : ∃ d, (b - a).toNat = d + 1 :=
    ⟨_, (Nat.succ_pred_eq_of_pos (dist_pos h)).symm⟩
  have hd' : (b - (a + 1)).toNat = d := by rw [dist_cons h, hd]; rfl
  rw [segment, segment, hd, hd', List.range_succ_eq_map, List.map_cons, List.map_map, Nat.add_zero]
  congr 1
  refine List.map_congr_left fun k _ => ?_
  simp only [Function.comp_apply]
  rw [slot_succ hN]

theorem segment_succ (buf : ℕ → α) {a b : UInt32} (h : (b - a).toNat < 2 ^ 32 - 1) :
    segment N buf a (b + 1) = segment N buf a b ++ [buf (b.toNat % N)] := by
  rw [segment, segment, dist_succ h, List.range_succ, List.map_append, List.map_singleton,
    slot_dist hN]

theorem segment_pred_append (buf : ℕ → α) {a b : UInt32} (h : a ≠ b) :
    segment N buf a b = segment N buf a (b - 1) ++ [buf ((b - 1).toNat % N)] := by
  have hlt : (b - 1 - a).toNat < 2 ^ 32 - 1 := by
    have := dist_pred h
    have := (b - a).toNat_lt
    omega
  rw [← segment_succ hN buf hlt, UInt32.sub_add_cancel]

/-- A store into the slot of `b` leaves the entries from `a` up to `b`. -/
theorem segment_update [DecidableEq α] (buf : ℕ → α) (x : α) {a b : UInt32}
    (hlt : (b - a).toNat < N) :
    segment N (Function.update buf (b.toNat % N) x) a b = segment N buf a b := by
  refine List.map_congr_left fun k hk => ?_
  have hk := List.mem_range.mp hk
  rw [Function.update_of_ne]
  rw [← slot_dist hN a b]
  exact slot_ne hk hlt

end Slots

end RingIndex
