import Xv6Lab.Dalloc.Code
import Mathlib.Data.Set.Insert

/-!
# Where the calls of `dalloc.c` write

`dinit`, `dalloc` and `dfree` follow `next` pointers from `dmem.start` and write headers at the
cells they reach, and a split writes one more header further up in the block it splits. None of
this needs the heap to be well formed. From any memory, take a set of cells closed under
`next` that holds `dmem.start` and lies at or above `PHYSTOP - HEAP_SIZE`. Each call writes only
cells of such a set and leaves such a set behind: `rooted_dinit`, `Rooted.dalloc` and
`Rooted.dfree`. A size that wraps breaks the block list, but it does not change this, because
a split lands at `curr + required_size` and never below `curr`.

When both allocators share physical memory, this is what the page allocator needs from the
heap: no call of `dalloc.c` writes a cell below the heap (`WritesIn.below`).
-/

namespace Xv6Lab.Dalloc

open ListSeg

/-- The cells `R` hold every header a walk from `dmem.start` reaches, and none of them lies
below the heap. -/
structure Rooted (s : DMem) (R : Set ℕ) : Prop where
  start : s.start = 0 ∨ s.start ∈ R
  closed : Closed DHeader.next 0 s.mem R
  above : ∀ a ∈ R, heapBase ≤ a

/-- `mem'` differs from `mem` only at cells of `R`. -/
def WritesIn (R : Set ℕ) (mem mem' : ℕ → DHeader) : Prop := ∀ a, a ∉ R → mem' a = mem a

section WritesIn

variable {R R' : Set ℕ} {mem mem' mem'' : ℕ → DHeader}

theorem WritesIn.refl (R : Set ℕ) (mem : ℕ → DHeader) : WritesIn R mem mem := fun _ _ => rfl

theorem WritesIn.trans (h : WritesIn R mem mem') (h' : WritesIn R mem' mem'') :
    WritesIn R mem mem'' := fun a ha => (h' a ha).trans (h a ha)

theorem WritesIn.mono (h : WritesIn R mem mem') (hR : R ⊆ R') : WritesIn R' mem mem' :=
  fun a ha => h a fun hm => ha (hR hm)

theorem writesIn_update {a : ℕ} (ha : a ∈ R) (v : DHeader) :
    WritesIn R mem (Function.update mem a v) :=
  fun _ hx => Function.update_of_ne (by rintro rfl; exact hx ha) _ _

/-- **The frame rule.** Writes to cells at or above the heap leave every cell below it. -/
theorem WritesIn.below (h : WritesIn R mem mem') (hR : ∀ a ∈ R, heapBase ≤ a) {a : ℕ}
    (ha : a < heapBase) : mem' a = mem a :=
  h a fun hm => absurd (hR a hm) (Nat.not_le.mpr ha)

end WritesIn

/-! ### The field writes -/

section Fields

variable {R : Set ℕ} {mem : ℕ → DHeader}

theorem closed_setDataSize (h : Closed DHeader.next 0 mem R) (a : ℕ) (v : UInt32) :
    Closed DHeader.next 0 (setDataSize mem a v) R :=
  h.update_same_next rfl

theorem closed_setUsed (h : Closed DHeader.next 0 mem R) (a : ℕ) (v : Bool) :
    Closed DHeader.next 0 (setUsed mem a v) R :=
  h.update_same_next rfl

theorem closed_setNext_insert (h : Closed DHeader.next 0 mem R) (a : ℕ) {v : ℕ}
    (hv : v = 0 ∨ v ∈ R) : Closed DHeader.next 0 (setNext mem a v) (insert a R) :=
  h.update_insert hv

theorem closed_setNext_mem (h : Closed DHeader.next 0 mem R) {a : ℕ} (ha : a ∈ R) {v : ℕ}
    (hv : v = 0 ∨ v ∈ R) : Closed DHeader.next 0 (setNext mem a v) R :=
  h.update_mem ha hv

end Fields

/-! ### `dinit` -/

theorem rooted_dinit (s : DMem) : Rooted (dinit s) {heapBase} where
  start := .inr rfl
  closed a ha := by
    rw [Set.mem_singleton_iff] at ha
    subst ha
    left
    simp [dinit, setNext, heapBase]
  above _ ha := le_of_eq (Set.mem_singleton_iff.mp ha).symm

theorem writesIn_dinit (s : DMem) : WritesIn {heapBase} s.mem (dinit s).mem := by
  have hb : heapBase ∈ ({heapBase} : Set ℕ) := rfl
  exact ((writesIn_update hb _).trans (writesIn_update hb _)).trans (writesIn_update hb _)

/-! ### `dalloc` -/

/-- The body of `dalloc` at a cell `curr` of a closed set: the set, with the header a split
puts at `curr + required_size`, stays closed, and only its cells change. -/
theorem allocAt_closed {R : Set ℕ} {mem : ℕ → DHeader} (hR : Closed DHeader.next 0 mem R)
    (hab : ∀ a ∈ R, heapBase ≤ a) {curr : ℕ} (hc : curr ∈ R) (size req : UInt32) :
    ∃ R', Closed DHeader.next 0 (allocAt mem curr size req) R' ∧ (∀ a ∈ R', heapBase ≤ a) ∧
      R ⊆ R' ∧ WritesIn R' mem (allocAt mem curr size req) := by
  dsimp only [allocAt]
  split_ifs with hsplit
  · -- the split: the new header takes over the link of `curr`, and `curr` links to it
    have hc' : curr ∈ insert (curr + req.toNat) R := Set.mem_insert_of_mem _ hc
    have hnb : curr + req.toNat ∈ insert (curr + req.toNat) R := Set.mem_insert _ _
    refine ⟨insert (curr + req.toNat) R, ?_, fun a ha => ?_, Set.subset_insert _ _, fun a ha => ?_⟩
    · apply closed_setUsed
      apply closed_setNext_mem _ hc' (.inr hnb)
      apply closed_setDataSize
      apply closed_setUsed
      apply closed_setNext_insert
      · exact closed_setDataSize hR _ _
      · exact closed_setDataSize hR _ _ curr hc
    · rcases Set.mem_insert_iff.mp ha with rfl | ha
      · exact le_trans (hab curr hc) (Nat.le_add_right _ _)
      · exact hab a ha
    · have h₁ : a ≠ curr + req.toNat := fun e => ha (e ▸ hnb)
      have h₂ : a ≠ curr := fun e => ha (e ▸ hc')
      simp only [setUsed, setNext, setDataSize, Function.update_of_ne h₁, Function.update_of_ne h₂]
  · exact ⟨R, closed_setUsed hR curr true, hab, subset_rfl, writesIn_update hc _⟩

/-- **`dalloc` writes only cells of the list.** From a rooted heap, `dalloc` of any size
leaves a rooted heap, and every cell it changes lies in the new set. -/
theorem Rooted.dalloc {s s' : DMem} {R : Set ℕ} (h : Rooted s R) {size : UInt32} {p : ℕ}
    (hr : Xv6Lab.Dalloc.dalloc s size = some (s', p)) :
    ∃ R', Rooted s' R' ∧ WritesIn R' s.mem s'.mem := by
  dsimp only [Xv6Lab.Dalloc.dalloc] at hr
  cases hf : firstCell DHeader.next 0 (fits (align (size + headerSize.toUInt32))) walkFuel
      s.mem s.start with
  | none =>
    rw [hf] at hr
    cases hr
  | some r =>
    rcases r with _ | curr
    · rw [hf] at hr
      cases hr
      exact ⟨R, h, WritesIn.refl _ _⟩
    · rw [hf] at hr
      cases hr
      have hc : curr ∈ R := h.closed.firstCell_mem _ h.start hf
      obtain ⟨R', hcl, hab, hsub, hw⟩ := allocAt_closed h.closed h.above hc size
        (align (size + headerSize.toUInt32))
      exact ⟨R', ⟨h.start.imp_right fun hs => hsub hs, hcl, hab⟩, hw⟩

/-! ### `coalesce_blocks` and `dfree` -/

/-- The loop of `coalesce_blocks` from `null` or a cell of a closed set keeps the set closed
and writes only its cells. By induction on the fuel, as the loop recurses. -/
theorem coalesceLoop_closed {R : Set ℕ} :
    ∀ {fuel : ℕ} {mem mem' : ℕ → DHeader} {curr : ℕ}, Closed DHeader.next 0 mem R →
      (curr = 0 ∨ curr ∈ R) → coalesceLoop fuel mem curr = some mem' →
      Closed DHeader.next 0 mem' R ∧ WritesIn R mem mem'
  | 0, _, _, _, _, _, hl => by cases hl
  | fuel + 1, mem, mem', curr, hR, hc, hl => by
    rw [coalesceLoop] at hl
    split_ifs at hl with hne hfree
    · -- a merge: `curr` takes over the link of the block after it
      have hcR : curr ∈ R := hc.resolve_left hne.1
      have hR₁ := closed_setDataSize hR curr
        ((mem curr).dataSize + ((mem (mem curr).next).dataSize + headerSize.toUInt32))
      have hR₂ := closed_setNext_mem hR₁ hcR (hR₁.next_next hcR (by
        show (setDataSize mem curr _ curr).next ≠ 0
        simpa [setDataSize] using hne.2))
      obtain ⟨hcl, hw⟩ := coalesceLoop_closed hR₂ (.inr hcR) hl
      exact ⟨hcl, ((writesIn_update hcR _).trans (writesIn_update hcR _)).trans hw⟩
    · -- a step to the next block
      exact coalesceLoop_closed hR (hR curr (hc.resolve_left hne.1)) hl
    · cases hl
      exact ⟨hR, WritesIn.refl _ _⟩

/-- **`dfree` writes only cells of the list.** From a rooted heap, a `dfree` that returns
leaves a rooted heap over the same cells and changes only them. -/
theorem Rooted.dfree {s s' : DMem} {R : Set ℕ} (h : Rooted s R) {addr : ℕ}
    (hr : Xv6Lab.Dalloc.dfree s addr = some (.ok s')) : Rooted s' R ∧ WritesIn R s.mem s'.mem := by
  dsimp only [Xv6Lab.Dalloc.dfree] at hr
  split_ifs at hr with halign
  · cases hr
  cases hf : firstCell DHeader.next 0
      (fun curr _ => decide (curr = (addr + 2 ^ 64 - headerSize) % 2 ^ 64)) walkFuel s.mem s.start with
  | none =>
    rw [hf] at hr
    cases hr
  | some r =>
    rcases r with _ | curr
    · rw [hf] at hr
      cases hr
    · rw [hf] at hr
      have hc : curr ∈ R := h.closed.firstCell_mem _ h.start hf
      -- `coalesce_blocks` after `used = 0` at the header found
      obtain ⟨mem', hloop, rfl⟩ : ∃ mem', coalesceLoop walkFuel (setUsed s.mem curr false) s.start =
          some mem' ∧ s' = { s with mem := mem' } := by
        simp only [coalesceBlocks, Option.map_map, Option.map_eq_some_iff, Function.comp_apply,
          Except.ok.injEq] at hr
        obtain ⟨mem', hloop, rfl⟩ := hr
        exact ⟨mem', hloop, rfl⟩
      obtain ⟨hcl, hw⟩ := coalesceLoop_closed (closed_setUsed h.closed curr false) h.start hloop
      exact ⟨⟨h.start, hcl, h.above⟩, (writesIn_update hc _).trans hw⟩

/-- A heap that agrees with a rooted one on its cells, with the same start, is rooted. -/
theorem Rooted.congr {s s' : DMem} {R : Set ℕ} (h : Rooted s R) (hs : s'.start = s.start)
    (hm : ∀ a ∈ R, s'.mem a = s.mem a) : Rooted s' R where
  start := hs ▸ h.start
  closed a ha := by
    rw [hm a ha]
    exact h.closed a ha
  above := h.above

end Xv6Lab.Dalloc
