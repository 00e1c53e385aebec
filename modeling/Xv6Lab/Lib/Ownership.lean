import Mathlib.Logic.Function.Basic
import Mathlib.Data.Nat.Notation

/-!
# Blocks owned by slots

An allocator hands out numbered blocks; each slot of its clients holds one block number, `0`
for none. `Owns ref used lo hi` says the slots hold distinct blocks, all in `[lo, hi)` and
marked used, and that every block below `lo` is marked used, so that a block the allocator
finds unmarked is held by no slot.

* `Owns.assign` — a free block given to an empty slot keeps the invariant.
* `Owns.release` — a slot's block unmarked and the slot emptied keeps it.
* `Owns.congr` — the invariant only looks at the slots' blocks and at the marks below `hi`.
* `Owns.empty` — slots that hold nothing, over marked blocks below `lo`.
* `Keeps` — every slot that holds a block still holds it: what an allocation does to the
  slots it does not fill.
-/

namespace Ownership

variable {ι : Type}

/-- The slots `ref` hold distinct blocks of `[lo, hi)`, each marked `used`; the blocks below
`lo` are all marked. -/
structure Owns (ref : ι → ℕ) (used : ℕ → Prop) (lo hi : ℕ) : Prop where
  inj : ∀ p q, ref p ≠ 0 → ref p = ref q → p = q
  range : ∀ p, ref p ≠ 0 → lo ≤ ref p ∧ ref p < hi
  marked : ∀ p, ref p ≠ 0 → used (ref p)
  reserved : ∀ b < lo, used b

variable {ref : ι → ℕ} {used : ℕ → Prop} {lo hi : ℕ}

/-- An unmarked block is held by no slot. -/
theorem Owns.ne_of_not_used (h : Owns ref used lo hi) {b : ℕ} (hb : ¬ used b) (hb0 : b ≠ 0)
    (p : ι) : ref p ≠ b := by
  intro hp
  exact hb (hp ▸ h.marked p (hp ▸ hb0))

/-- The invariant only looks at the slots' blocks and at the marks below `hi`. -/
theorem Owns.congr {ref' : ι → ℕ} {used' : ℕ → Prop} (h : Owns ref used lo hi)
    (href : ∀ p, ref' p = ref p) (hused : ∀ b < hi, used' b ↔ used b) (hlo : lo ≤ hi) :
    Owns ref' used' lo hi := by
  have href' : ref' = ref := funext href
  subst href'
  refine ⟨h.inj, h.range, fun p hp => (hused _ (h.range p hp).2).mpr (h.marked p hp),
    fun b hb => (hused b (by omega)).mpr (h.reserved b hb)⟩

/-- Slots that hold nothing, with the blocks below `lo` marked. -/
theorem Owns.empty (hempty : ∀ p, ref p = 0) (h : ∀ b < lo, used b) : Owns ref used lo hi where
  inj p _ hp := absurd (hempty p) hp
  range p hp := absurd (hempty p) hp
  marked p hp := absurd (hempty p) hp
  reserved := h

/-- Every slot of `ref` that holds a block holds the same block in `ref'`. -/
def Keeps (ref ref' : ι → ℕ) : Prop := ∀ p, ref p ≠ 0 → ref' p = ref p

theorem Keeps.refl (ref : ι → ℕ) : Keeps ref ref := fun _ _ => rfl

theorem Keeps.trans {ref' ref'' : ι → ℕ} (h : Keeps ref ref') (h' : Keeps ref' ref'') :
    Keeps ref ref'' := fun p hp => (h' p (by rw [h p hp]; exact hp)).trans (h p hp)

variable [DecidableEq ι]

/-- A free block of `[lo, hi)` given to an empty slot, and marked. -/
theorem Owns.assign (h : Owns ref used lo hi) {p : ι} (hp : ref p = 0) {b : ℕ} (hb0 : b ≠ 0)
    (hlo : lo ≤ b) (hhi : b < hi) (hfree : ¬ used b) {used' : ℕ → Prop}
    (hused : ∀ x < hi, used' x ↔ (x = b ∨ used x)) :
    Owns (Function.update ref p b) used' lo hi := by
  have hheld := h.ne_of_not_used hfree hb0
  refine ⟨fun q r hq hqr => ?_, fun q hq => ?_, fun q hq => ?_, fun x hx => ?_⟩
  · -- the new block is held by `p` alone
    by_cases hqp : q = p
    · subst hqp
      by_cases hrp : r = q
      · exact hrp.symm
      · rw [Function.update_self, Function.update_of_ne hrp] at hqr
        exact absurd hqr.symm (hheld r)
    · rw [Function.update_of_ne hqp] at hq hqr
      by_cases hrp : r = p
      · subst hrp
        rw [Function.update_self] at hqr
        exact absurd hqr (hheld q)
      · rw [Function.update_of_ne hrp] at hqr
        exact h.inj q r hq hqr
  · by_cases hqp : q = p
    · subst hqp
      rw [Function.update_self]
      exact ⟨hlo, hhi⟩
    · rw [Function.update_of_ne hqp] at hq ⊢
      exact h.range q hq
  · by_cases hqp : q = p
    · subst hqp
      rw [Function.update_self]
      exact (hused b hhi).mpr (.inl rfl)
    · rw [Function.update_of_ne hqp] at hq ⊢
      exact (hused _ (h.range q hq).2).mpr (.inr (h.marked q hq))
  · exact (hused x (by omega)).mpr (.inr (h.reserved x hx))

/-- A slot's block unmarked, and the slot emptied. -/
theorem Owns.release (h : Owns ref used lo hi) {p : ι} (hp : ref p ≠ 0) {used' : ℕ → Prop}
    (hused : ∀ x < hi, used' x ↔ (x ≠ ref p ∧ used x)) :
    Owns (Function.update ref p 0) used' lo hi := by
  refine ⟨fun q r hq hqr => ?_, fun q hq => ?_, fun q hq => ?_, fun x hx => ?_⟩
  · have hqp : q ≠ p := fun e => hq (e ▸ Function.update_self p 0 ref)
    rw [Function.update_of_ne hqp] at hq hqr
    by_cases hrp : r = p
    · subst hrp
      rw [Function.update_self] at hqr
      exact absurd hqr hq
    · rw [Function.update_of_ne hrp] at hqr
      exact h.inj q r hq hqr
  · have hqp : q ≠ p := fun e => hq (e ▸ Function.update_self p 0 ref)
    rw [Function.update_of_ne hqp] at hq ⊢
    exact h.range q hq
  · have hqp : q ≠ p := fun e => hq (e ▸ Function.update_self p 0 ref)
    rw [Function.update_of_ne hqp] at hq ⊢
    -- another slot's block is not the block released
    have hne : ref q ≠ ref p := fun e => hqp (h.inj q p hq e)
    exact (hused _ (h.range q hq).2).mpr ⟨hne, h.marked q hq⟩
  · have hr := h.range p hp
    have hpx : ref p ≠ x := fun e => by omega
    exact (hused x (by omega)).mpr ⟨Ne.symm hpx, h.reserved x hx⟩

/-- Filling an empty slot keeps every other. -/
theorem keeps_update {p : ι} (hp : ref p = 0) (b : ℕ) : Keeps ref (Function.update ref p b) := by
  intro q hq
  have hqp : q ≠ p := fun e => hq (e ▸ hp)
  exact Function.update_of_ne hqp _ _

end Ownership
