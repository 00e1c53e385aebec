import Xv6Lab.Dalloc.Runs

/-!
# `dalloc` at the edges of its arithmetic

`dalloc` computes `required_size = round16(size + HEADER_SIZE)` in `unsigned` and tests
`curr->data_size >= required_size`. Two edges of that:

* `dalloc_of_no_wrap` — while `size + 31 < 2^32` nothing wraps: `dalloc` returns 0 with the
  list unchanged, or the data area of a used block of a heap of the invariant, at least
  `size` long and inside the heap;
* `dalloc_wraps_near_four_gib` — for sizes within 32 of `2^32` the sums wrap:
  `dalloc(0xFFFFFFF0)` has `required_size = 0` and writes the split header over the block's
  own, so that `curr->next = curr`, and `dalloc(0xFFFFFFFF)` hands out a block of 0 bytes;
* `dalloc_skips_exact_fit` — the test compares a data size, header excluded, with a size that
  includes the header, so a free block whose data area is exactly `round16(size)` is passed
  over: `dalloc(HEAP_SIZE - 16)` fails on the heap `dinit` leaves.
-/

namespace Xv6Lab.Dalloc

/-- **Below the wrap.** On a heap of the invariant, `dalloc(size)` for `size + 31 < 2^32`
returns 0 and leaves the block list as it was, or hands out the data area of a used block of
a list of the invariant, at least `size` long and inside the heap. -/
theorem dalloc_of_no_wrap {s : DMem} {bs : List Block} (h : Holds s bs) (hinv : HeapInv bs)
    {size : UInt32} (hs : size.toNat + 31 < 2 ^ 32) :
    (∃ s', dalloc s size = some (s', 0) ∧ Holds s' bs) ∨
      ∃ s' bs' c, dalloc s size = some (s', c.addr + headerSize) ∧ Holds s' bs' ∧
        HeapInv bs' ∧ c ∈ bs' ∧ c.used = true ∧ size.toNat ≤ c.dataSize.toNat ∧
        heapBase ≤ c.addr ∧ c.endAddr ≤ phystop := by
  have hreq := requiredSize_toNat hs
  have hreq0 : 0 < (align (size + headerSize.toUInt32)).toNat := by
    rw [hreq, headerSize]
    omega
  obtain ⟨s₁, hrun, hholds, -⟩ := dalloc_holds h hinv.length_lt size (hinv.splitFresh hreq0)
  have hinv' := heapInv_allocList hinv hs
  cases hfind : bs.find? (Block.fits (align (size + headerSize.toUInt32))) with
  | none =>
    rw [allocList_of_find_none hfind] at hrun hholds
    exact .inl ⟨s₁, hrun, hholds⟩
  | some b =>
    obtain ⟨pre, post, rfl, he⟩ := allocList_of_find size hfind
    rw [he] at hrun hholds hinv'
    have hfit := (List.find?_eq_some_iff_append.mp hfind).1
    simp only [Block.fits, Bool.and_eq_true, decide_eq_true_eq] at hfit
    obtain ⟨c, hc, hcu, hca, hcd⟩ := head_mem_splitBlock size (align (size + headerSize.toUInt32)) b
    have hcmem : c ∈ pre ++ splitBlock size (align (size + headerSize.toUInt32)) b ++ post := by
      simp [hc]
    -- the head is `round16(size)` long, or the whole block, which is longer still
    have hsize : size.toNat ≤ c.dataSize.toNat := by
      rw [hcd]
      split
      · exact le_align_toNat (by omega)
      · have := UInt32.le_iff_toNat_le.mp hfit.2
        rw [hreq] at this
        have : size.toNat ≤ (align size).toNat := le_align_toNat (by omega)
        omega
    obtain ⟨hlo, hhi⟩ := hinv'.tiles.bounds.2 c hcmem
    exact .inr ⟨s₁, _, c, hca ▸ hrun, hholds, hinv', hcmem, hcu, hsize, hlo, hhi⟩

/-- **At the wrap.** On the heap `dinit` leaves, `dalloc(0xFFFFFFF0)` computes
`required_size = 0`, splits at `curr + 0` and leaves the header with `next` pointing to itself
and a data size reaching past `PHYSTOP`; `dalloc(0xFFFFFFFF)` computes `required_size = 16`
and hands out a block of data size 0. -/
theorem dalloc_wraps_near_four_gib :
    (∃ s', dalloc initState.heap 0xFFFFFFF0 = some (s', heapBase + headerSize) ∧
      (s'.mem heapBase).next = heapBase ∧ (s'.mem heapBase).used = true ∧
      phystop < heapBase + headerSize + (s'.mem heapBase).dataSize.toNat) ∧
    (∃ s', dalloc initState.heap 0xFFFFFFFF = some (s', heapBase + headerSize) ∧
      (s'.mem heapBase).used = true ∧ (s'.mem heapBase).dataSize = 0) :=
  ⟨⟨_, rfl, by decide, by decide, by decide⟩, ⟨_, rfl, by decide, by decide⟩⟩

/-- **An exact fit is passed over.** `dinit` leaves one free block whose data area is
`HEAP_SIZE - 16 = round16(HEAP_SIZE - 16)` bytes, and `dalloc(HEAP_SIZE - 16)` returns 0. -/
theorem dalloc_skips_exact_fit :
    Reachable initState ∧ Holds initState.heap [initBlock] ∧ initBlock.used = false ∧
      initBlock.dataSize = align (heapSize - headerSize).toUInt32 ∧
      dalloc initState.heap (heapSize - headerSize).toUInt32 = some (initState.heap, 0) :=
  ⟨.init zeroMem, holds_dinit zeroMem, rfl, by decide, rfl⟩

end Xv6Lab.Dalloc
