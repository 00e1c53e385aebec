import Xv6Lab.Dalloc.Algebra

/-!
# `coalesce_blocks` on any block list

The loop of `coalesce_blocks` merges a free block with a free successor and stays where it
is, or steps on. A merge removes one block after `curr` and a step moves past one, so the
loop ends within one iteration per block (`coalesceLoop_start`), on any finite acyclic list
and not only on a heap of the invariant. What it leaves has no two consecutive free blocks and
the same used blocks, in order, with their addresses and data sizes.

The merged size `curr->data_size + curr->next->data_size + HEADER_SIZE` is an `unsigned`:
while the blocks take less than `2^32` bytes together, headers included, the span of the list
is kept (`span_coalesceList`), and `coalesce_blocks_wraps_span` shows two free blocks of
almost `4 GiB` each merged into one of almost `4 GiB`.
-/

namespace Xv6Lab.Dalloc

/-- The bytes the blocks take, headers included: `HEADER_SIZE + data_size`, summed. -/
def span (bs : List Block) : ℕ := (bs.map fun b => headerSize + b.dataSize.toNat).sum

@[simp] theorem span_nil : span [] = 0 := rfl

@[simp] theorem span_cons (b : Block) (bs : List Block) :
    span (b :: bs) = headerSize + b.dataSize.toNat + span bs := by
  simp [span]

/-- A merge below the wrap adds the second block, header included, to the first. -/
theorem dataSize_merge {b c : Block} (h : b.dataSize.toNat + c.dataSize.toNat + headerSize < 2 ^ 32) :
    (merge b c).dataSize.toNat = b.dataSize.toNat + c.dataSize.toNat + headerSize := by
  simp only [merge, headerSize] at h ⊢
  rw [UInt32.toNat_add, UInt32.toNat_add]
  simp only [Nat.toUInt32, UInt32.toNat_ofNat']
  omega

theorem span_coalesceFrom (b : Block) (bs : List Block) (h : span (b :: bs) < 2 ^ 32) :
    span (coalesceFrom b bs) = span (b :: bs) := by
  induction bs generalizing b with
  | nil => rfl
  | cons c cs ih =>
    by_cases hfree : !b.used && !c.used
    · -- `b` takes in `c` and its header: the span of the two, one header less
      have hm : span (merge b c :: cs) = span (b :: c :: cs) := by
        simp only [span_cons] at h ⊢
        rw [dataSize_merge (by simp only [headerSize] at h ⊢; omega)]
        simp only [headerSize]
        omega
      simp only [coalesceFrom, hfree, if_true]
      rw [ih (merge b c) (hm ▸ h), hm]
    · have hc : span (c :: cs) < 2 ^ 32 := by
        simp only [span_cons] at h ⊢
        omega
      simp only [coalesceFrom, hfree, Bool.false_eq_true, if_false, span_cons] at ⊢ h
      rw [ih c hc, span_cons]

theorem span_coalesceList (bs : List Block) (h : span bs < 2 ^ 32) :
    span (coalesceList bs) = span bs := by
  cases bs with
  | nil => rfl
  | cons b bs => exact span_coalesceFrom b bs h

theorem noFreePair_coalesceList (bs : List Block) : NoFreePair (coalesceList bs) := by
  cases bs with
  | nil => exact List.IsChain.nil
  | cons b bs => exact noFreePair_coalesceFrom b bs

/-- **`coalesce_blocks` below the wrap.** On a finite acyclic block list of `n` blocks whose
span is below `2^32`, the loop of `coalesce_blocks` ends within `n` iterations (and at least
one), and leaves a list with no two consecutive free blocks, the same used blocks in order,
each with its address and data size, and the same span. -/
theorem coalesce_blocks_below_wrap {s : DMem} {bs : List Block} (h : Holds s bs) {fuel : ℕ}
    (hpos : 0 < fuel) (hfuel : bs.length ≤ fuel) (hspan : span bs < 2 ^ 32) :
    ∃ mem' cs, coalesceLoop fuel s.mem s.start = some mem' ∧ Holds { s with mem := mem' } cs ∧
      NoFreePair cs ∧ usedBlocks cs = usedBlocks bs ∧ span cs = span bs := by
  obtain ⟨mem', hrun, hholds⟩ := coalesceLoop_start h hpos hfuel
  exact ⟨mem', coalesceList bs, hrun, hholds, noFreePair_coalesceList bs,
    usedBlocks_coalesceList bs, span_coalesceList bs hspan⟩

/-- Five blocks from `0x1000`: two free, one used, two free, each header followed by its data. -/
def mixedBlocks : List Block :=
  [⟨0x1000, 0x30, false⟩, ⟨0x1040, 0x30, false⟩, ⟨0x1080, 0x10, true⟩, ⟨0x10A0, 0x20, false⟩,
    ⟨0x10D0, 0x10, false⟩]

/-- The headers of `mixedBlocks`, linked in order. -/
def mixedHeaders : ℕ → DHeader := fun a =>
  if a = 0x1000 then ⟨0x30, false, 0x1040⟩
  else if a = 0x1040 then ⟨0x30, false, 0x1080⟩
  else if a = 0x1080 then ⟨0x10, true, 0x10A0⟩
  else if a = 0x10A0 then ⟨0x20, false, 0x10D0⟩
  else if a = 0x10D0 then ⟨0x10, false, 0⟩ else ⟨0, false, 0⟩

theorem holds_mixedHeaders : Holds ⟨0x1000, mixedHeaders⟩ mixedBlocks :=
  ⟨.cons (by decide) (.cons (by decide) (.cons (by decide) (.cons (by decide)
    (.cons (by decide) (.nil 0))))), by decide⟩

/-- `coalesce_blocks` on two pairs of free neighbours around a used block, with one iteration
per block: each pair is merged. -/
theorem coalesce_blocks_below_wrap_mixed :
    ∃ mem' cs, coalesceLoop 5 mixedHeaders 0x1000 = some mem' ∧
      Holds { (⟨0x1000, mixedHeaders⟩ : DMem) with mem := mem' } cs ∧
      NoFreePair cs ∧ usedBlocks cs = usedBlocks mixedBlocks ∧ span cs = span mixedBlocks :=
  coalesce_blocks_below_wrap holds_mixedHeaders (by decide) (by decide) (by decide)

-- the two pairs become one free block each
example : coalesceList mixedBlocks =
    [⟨0x1000, 0x70, false⟩, ⟨0x1080, 0x10, true⟩, ⟨0x10A0, 0x40, false⟩] := by
  decide

/-! ### Past the wrap -/

/-- Two free blocks of data size `0xFFFFFFF0`, at `0x1000` and `0x2000`. -/
def hugePair : ℕ → DHeader := fun a =>
  if a = 0x1000 then ⟨0xFFFFFFF0, false, 0x2000⟩
  else if a = 0x2000 then ⟨0xFFFFFFF0, false, 0⟩ else ⟨0, false, 0⟩

theorem holds_hugePair :
    Holds ⟨0x1000, hugePair⟩ [⟨0x1000, 0xFFFFFFF0, false⟩, ⟨0x2000, 0xFFFFFFF0, false⟩] :=
  ⟨.cons (by decide) (.cons (by decide) (.nil 0)), by decide⟩

/-- **The span wraps.** `coalesce_blocks` on two free blocks of `0xFFFFFFF0` bytes each, a span
of `2^33`, leaves one free block of `0xFFFFFFF0` bytes: a span of `2^32`. -/
theorem coalesce_blocks_wraps_span :
    ∃ mem', coalesceLoop 2 hugePair 0x1000 = some mem' ∧
      Holds ⟨0x1000, mem'⟩ [⟨0x1000, 0xFFFFFFF0, false⟩] ∧
      span [⟨0x1000, 0xFFFFFFF0, false⟩, ⟨0x2000, 0xFFFFFFF0, false⟩] = 2 ^ 33 ∧
      span [⟨0x1000, 0xFFFFFFF0, false⟩] = 2 ^ 32 := by
  obtain ⟨mem', hrun, hholds⟩ := coalesceLoop_start holds_hugePair (show 0 < 2 by decide) le_rfl
  have hc : coalesceList [⟨0x1000, 0xFFFFFFF0, false⟩, ⟨0x2000, 0xFFFFFFF0, false⟩] =
      [⟨0x1000, 0xFFFFFFF0, false⟩] := by decide
  rw [hc] at hholds
  exact ⟨mem', hrun, hholds, by decide, by decide⟩

end Xv6Lab.Dalloc
