import Xv6Lab.Dalloc.BlockList
import Mathlib.Data.List.Chain

/-!
# The representation invariant of the heap

`HeapInv bs` is what the block list of a heap that has only been through `dinit`,
`dalloc` and `dfree` looks like:

* it tiles the heap: the first header is at `PHYSTOP - HEAP_SIZE`, each block's successor
  starts right after the block's data area, and the last block ends at `PHYSTOP`;
* every header address and every data size is a multiple of 16;
* no two consecutive blocks are both free.

The preservation lemmas are `heapInv_allocList` (for every size that does not wrap the
two round-ups of `dalloc`) and `heapInv_freeList` (for any header of the list). The
facts the refinement lemmas of `BlockList.lean` need from a tiled heap are
`HeapInv.length_lt` (fewer blocks than the fuel) and `HeapInv.splitFresh` (the header a
split writes lies strictly inside the block being split).
-/

namespace Xv6Lab.Dalloc

/-! ### Tilings -/

theorem heapBase_lt_phystop : heapBase < phystop := by decide

theorem phystop_eq : phystop = heapBase + heapSize := by decide

theorem phystop_lt_heapBase_add : phystop < heapBase + 2 ^ 32 := by decide

theorem heapBase_pos : 0 < heapBase := by decide

/-- The blocks `bs` tile `[a, top)`. -/
def Tiles : ℕ → List Block → ℕ → Prop
  | a, [], top => a = top
  | a, b :: bs, top => b.addr = a ∧ Tiles (a + headerSize + b.dataSize.toNat) bs top

/-- The end of a block: its header and data area together. -/
def Block.endAddr (b : Block) : ℕ := b.addr + headerSize + b.dataSize.toNat

/-- No two consecutive blocks are both free. -/
def NoFreePair (bs : List Block) : Prop :=
  bs.IsChain fun b c => b.used = true ∨ c.used = true

/-- The representation invariant of the block list. -/
structure HeapInv (bs : List Block) : Prop where
  tiles : Tiles heapBase bs phystop
  addr_aligned : ∀ b ∈ bs, b.addr % alignmentSize = 0
  size_aligned : ∀ b ∈ bs, b.dataSize.toNat % alignmentSize = 0
  noFreePair : NoFreePair bs

theorem Block.addr_lt_endAddr (b : Block) : b.addr < b.endAddr := by
  simp only [Block.endAddr, headerSize]
  omega

@[simp] theorem tiles_nil {a top : ℕ} : Tiles a [] top ↔ a = top := Iff.rfl

@[simp] theorem tiles_cons {a top : ℕ} {b : Block} {bs : List Block} :
    Tiles a (b :: bs) top ↔ b.addr = a ∧ Tiles b.endAddr bs top := by
  simp only [Tiles, Block.endAddr]
  constructor
  · rintro ⟨rfl, h⟩
    exact ⟨rfl, h⟩
  · rintro ⟨rfl, h⟩
    exact ⟨rfl, h⟩

theorem tiles_append {a top : ℕ} {bs cs : List Block} :
    Tiles a (bs ++ cs) top ↔ ∃ m, Tiles a bs m ∧ Tiles m cs top := by
  induction bs generalizing a with
  | nil => simp
  | cons b bs ih =>
    simp only [List.cons_append, tiles_cons, ih]
    constructor
    · rintro ⟨hb, m, h1, h2⟩
      exact ⟨m, ⟨hb, h1⟩, h2⟩
    · rintro ⟨m, ⟨hb, h1⟩, h2⟩
      exact ⟨hb, m, h1, h2⟩

/-- A tiling is ordered: each block ends at or before the start of every later block, and
all of them lie in `[a, top)`. -/
theorem Tiles.bounds {a top : ℕ} {bs : List Block} (h : Tiles a bs top) :
    a ≤ top ∧ ∀ b ∈ bs, a ≤ b.addr ∧ b.endAddr ≤ top := by
  induction bs generalizing a with
  | nil => exact ⟨le_of_eq h, by simp⟩
  | cons b bs ih =>
    obtain ⟨rfl, hrest⟩ := tiles_cons.mp h
    obtain ⟨hle, hall⟩ := ih hrest
    have hb := b.addr_lt_endAddr
    refine ⟨by omega, fun c hc => ?_⟩
    rcases List.mem_cons.mp hc with rfl | hc
    · exact ⟨le_refl _, hle⟩
    · have := hall c hc
      exact ⟨by omega, this.2⟩

theorem Tiles.pairwise {a top : ℕ} {bs : List Block} (h : Tiles a bs top) :
    bs.Pairwise fun b c => b.endAddr ≤ c.addr := by
  induction bs generalizing a with
  | nil => exact List.Pairwise.nil
  | cons b bs ih =>
    obtain ⟨rfl, hrest⟩ := tiles_cons.mp h
    exact List.Pairwise.cons (fun c hc => (hrest.bounds.2 c hc).1) (ih hrest)

/-- The extent of a tiled heap is the sum of the extents of its blocks. -/
theorem Tiles.span {a top : ℕ} {bs : List Block} (h : Tiles a bs top) :
    top = a + (bs.map fun b => headerSize + b.dataSize.toNat).sum := by
  induction bs generalizing a with
  | nil => exact h.symm
  | cons b bs ih =>
    obtain ⟨rfl, hrest⟩ := tiles_cons.mp h
    rw [ih hrest]
    simp [Block.endAddr]
    omega

/-- Two blocks of a tiling with different headers do not overlap. -/
theorem Tiles.apart {a top : ℕ} {bs : List Block} (h : Tiles a bs top) {b c : Block}
    (hb : b ∈ bs) (hc : c ∈ bs) (hne : b.addr ≠ c.addr) :
    b.endAddr ≤ c.addr ∨ c.endAddr ≤ b.addr := by
  obtain ⟨pre, post, rfl⟩ := List.append_of_mem hb
  have hpw := h.pairwise
  rw [List.pairwise_append] at hpw
  rcases List.mem_append.mp hc with hc | hc
  · -- `c` comes before `b`
    exact .inr (hpw.2.2 c hc b List.mem_cons_self)
  · rcases List.mem_cons.mp hc with rfl | hc
    · exact absurd rfl hne
    · -- `c` comes after `b`
      exact .inl ((List.pairwise_cons.mp hpw.2.1).1 c hc)

/-- A point strictly inside a block of a tiling is the header of no block. -/
theorem Tiles.not_mem_of_inside {a top : ℕ} {bs : List Block} (h : Tiles a bs top)
    {b : Block} (hb : b ∈ bs) {x : ℕ} (hlo : b.addr < x) (hhi : x < b.endAddr) :
    x ∉ bs.map Block.addr := by
  intro hx
  obtain ⟨c, hc, rfl⟩ := List.mem_map.mp hx
  have hc' := c.addr_lt_endAddr
  rcases h.apart hb hc (by omega) with h1 | h1 <;> omega

/-! ### The arithmetic of `dalloc` below the wrap -/

theorem align_toNat_of_lt {x : UInt32} (hx : x.toNat + 15 < 2 ^ 32) :
    (align x).toNat = (x.toNat + 15) / 16 * 16 := by
  have := UInt32.toNat_roundUp_of_lt x 4 (by norm_num) (by simpa using hx)
  simpa [align, alignmentSize] using this

/-- Whatever wraps, the mask leaves a multiple of 16. -/
theorem align_toNat_mod (x : UInt32) : (align x).toNat % alignmentSize = 0 := by
  have := UInt32.toNat_roundUp x 4 (by norm_num)
  simp only [align, alignmentSize] at this ⊢
  norm_num at this ⊢
  omega

/-- `dalloc` rounds `size + HEADER_SIZE` and `size` separately; below the wrap the first
is the second plus one header, so the split puts the new header right after the head's
data area. -/
theorem requiredSize_toNat {size : UInt32} (hs : size.toNat + 31 < 2 ^ 32) :
    (align (size + headerSize.toUInt32)).toNat = (align size).toNat + headerSize := by
  have hadd : (size + headerSize.toUInt32).toNat = size.toNat + 16 := by
    rw [UInt32.toNat_add]
    simp only [headerSize, Nat.toUInt32, UInt32.toNat_ofNat']
    omega
  rw [align_toNat_of_lt (by omega), align_toNat_of_lt (by omega), hadd, headerSize]
  omega

theorem le_align_toNat {size : UInt32} (hs : size.toNat + 15 < 2 ^ 32) :
    size.toNat ≤ (align size).toNat := by
  rw [align_toNat_of_lt hs]
  omega

/-! ### `dalloc` keeps the invariant -/

/-- The blocks `splitBlock` leaves tile exactly the block they come from. -/
theorem tiles_splitBlock {size : UInt32} (hs : size.toNat + 31 < 2 ^ 32) {b : Block}
    (hfit : align (size + headerSize.toUInt32) ≤ b.dataSize) :
    Tiles b.addr (splitBlock size (align (size + headerSize.toUInt32)) b) b.endAddr := by
  have hreq := requiredSize_toNat hs
  rw [UInt32.le_iff_toNat_le] at hfit
  unfold splitBlock
  split
  · rename_i hlt
    rw [gt_iff_lt, UInt32.lt_iff_toNat_lt] at hlt
    simp only [tiles_cons, Block.endAddr, tiles_nil, true_and]
    rw [UInt32.toNat_sub_of_le _ _ (UInt32.le_iff_toNat_le.mpr (by omega))]
    omega
  · simp [Block.endAddr]

theorem aligned_splitBlock {size : UInt32} (hs : size.toNat + 31 < 2 ^ 32) {b : Block}
    (hb : b.addr % alignmentSize = 0 ∧ b.dataSize.toNat % alignmentSize = 0)
    (hfit : align (size + headerSize.toUInt32) ≤ b.dataSize) :
    ∀ c ∈ splitBlock size (align (size + headerSize.toUInt32)) b,
      c.addr % alignmentSize = 0 ∧ c.dataSize.toNat % alignmentSize = 0 := by
  have hreq := requiredSize_toNat hs
  have hmod := align_toNat_mod size
  rw [UInt32.le_iff_toNat_le] at hfit
  unfold splitBlock
  split
  · intro c hc
    simp only [List.mem_cons, List.not_mem_nil, or_false] at hc
    rcases hc with rfl | rfl
    · exact ⟨hb.1, hmod⟩
    · rw [UInt32.toNat_sub_of_le _ _ (UInt32.le_iff_toNat_le.mpr hfit)]
      simp only [alignmentSize, headerSize] at hb hmod hreq hfit ⊢
      omega
  · intro c hc
    simp only [List.mem_singleton] at hc
    subst hc
    exact hb

/-- Replacing a free block by a list that starts with a used block keeps consecutive
blocks from being both free. -/
theorem noFreePair_replace {pre post mid : List Block} {b : Block}
    (h : NoFreePair (pre ++ b :: post)) (hfree : b.used = false) (hmid : NoFreePair mid)
    (hhead : ∀ x ∈ mid.head?, x.used = true) : NoFreePair (pre ++ mid ++ post) := by
  unfold NoFreePair at *
  rw [List.isChain_append] at h
  obtain ⟨hpre, hbpost, -⟩ := h
  rw [List.isChain_cons] at hbpost
  obtain ⟨hlink, hpost⟩ := hbpost
  rw [List.isChain_append, List.isChain_append]
  refine ⟨⟨hpre, hmid, fun x _ y hy => Or.inr (hhead y hy)⟩, hpost, fun x _ y hy => ?_⟩
  rcases hlink y hy with hb | hy
  · rw [hfree] at hb
    exact absurd hb Bool.false_ne_true
  · exact Or.inr hy

/-- **`dalloc` keeps the invariant**, for every size whose round-ups do not wrap. -/
theorem heapInv_allocList {bs : List Block} (h : HeapInv bs) {size : UInt32}
    (hs : size.toNat + 31 < 2 ^ 32) :
    HeapInv (allocList size (align (size + headerSize.toUInt32)) bs).1 := by
  set req := align (size + headerSize.toUInt32) with hreq
  cases hfind : bs.find? (Block.fits req) with
  | none => rwa [allocList_of_find_none hfind]
  | some b =>
    obtain ⟨pre, post, rfl, he⟩ := allocList_of_find size hfind
    rw [he]
    have hfit := (List.find?_eq_some_iff_append.mp hfind).1
    simp only [Block.fits, Bool.and_eq_true, Bool.not_eq_eq_eq_not, Bool.not_true,
      decide_eq_true_eq] at hfit
    obtain ⟨hfree, hle⟩ := hfit
    have hb : b ∈ pre ++ b :: post := by simp
    obtain ⟨m, hpre, hbt⟩ := tiles_append.mp h.tiles
    obtain ⟨rfl, hpost⟩ := tiles_cons.mp hbt
    refine ⟨?_, ?_, ?_, ?_⟩
    · rw [List.append_assoc]
      exact tiles_append.mpr ⟨b.addr, hpre, tiles_append.mpr ⟨b.endAddr,
        tiles_splitBlock hs hle, hpost⟩⟩
    · intro c hc
      simp only [List.mem_append] at hc
      rcases hc with (hc | hc) | hc
      · exact h.addr_aligned c (by simp [hc])
      · exact (aligned_splitBlock hs ⟨h.addr_aligned b hb, h.size_aligned b hb⟩ hle c hc).1
      · exact h.addr_aligned c (by simp [hc])
    · intro c hc
      simp only [List.mem_append] at hc
      rcases hc with (hc | hc) | hc
      · exact h.size_aligned c (by simp [hc])
      · exact (aligned_splitBlock hs ⟨h.addr_aligned b hb, h.size_aligned b hb⟩ hle c hc).2
      · exact h.size_aligned c (by simp [hc])
    · apply noFreePair_replace h.noFreePair hfree
      · unfold splitBlock
        split <;> simp [NoFreePair]
      · unfold splitBlock
        split <;> simp

/-! ### `dfree` keeps the invariant -/

theorem tiles_markFree {a top hdr : ℕ} {bs : List Block} :
    Tiles a (markFree hdr bs) top ↔ Tiles a bs top := by
  induction bs generalizing a with
  | nil => rfl
  | cons b bs ih =>
    by_cases hb : b.addr = hdr
    · simp [markFree, hb, Block.endAddr]
    · simp [markFree, hb, ih]

theorem mem_markFree {hdr : ℕ} {bs : List Block} {c : Block} (hc : c ∈ markFree hdr bs) :
    ∃ b ∈ bs, c.addr = b.addr ∧ c.dataSize = b.dataSize := by
  induction bs with
  | nil => simp [markFree] at hc
  | cons b bs ih =>
    by_cases hb : b.addr = hdr
    · rw [markFree, if_pos hb, List.mem_cons] at hc
      rcases hc with rfl | hc
      · exact ⟨b, List.mem_cons_self, rfl, rfl⟩
      · exact ⟨c, List.mem_cons_of_mem _ hc, rfl, rfl⟩
    · rw [markFree, if_neg hb, List.mem_cons] at hc
      rcases hc with rfl | hc
      · exact ⟨c, List.mem_cons_self, rfl, rfl⟩
      · obtain ⟨d, hd, h1, h2⟩ := ih hc
        exact ⟨d, List.mem_cons_of_mem _ hd, h1, h2⟩

/-- Merging keeps the tiling, as long as the heap is shorter than `2^32`, so that the sum
of two data sizes and a header never wraps. -/
theorem tiles_coalesceFrom {a top : ℕ} {b : Block} {bs : List Block}
    (h : Tiles a (b :: bs) top) (htop : top < a + 2 ^ 32) : Tiles a (coalesceFrom b bs) top := by
  induction bs generalizing a b with
  | nil => exact h
  | cons c cs ih =>
    obtain ⟨hb, hc⟩ := tiles_cons.mp h
    obtain ⟨hca, hcs⟩ := tiles_cons.mp hc
    by_cases hfree : !b.used && !c.used
    · -- the merged block ends where `c` ended
      have hend : (merge b c).endAddr = c.endAddr := by
        have hcb := (tiles_cons.mp hc).2.bounds.1
        simp only [Block.endAddr, merge, headerSize] at hca hcb htop ⊢
        rw [UInt32.toNat_add, UInt32.toNat_add]
        simp only [Nat.toUInt32, UInt32.toNat_ofNat']
        omega
      have hm : Tiles a (merge b c :: cs) top := tiles_cons.mpr ⟨hb, hend ▸ hcs⟩
      simpa [coalesceFrom, hfree] using ih hm htop
    · have hrest := ih hc (by have := b.addr_lt_endAddr; omega)
      simpa [coalesceFrom, hfree, hb] using hrest

theorem aligned_coalesceFrom {b : Block} {bs : List Block}
    (h : ∀ c ∈ b :: bs, c.addr % alignmentSize = 0 ∧ c.dataSize.toNat % alignmentSize = 0) :
    ∀ c ∈ coalesceFrom b bs, c.addr % alignmentSize = 0 ∧ c.dataSize.toNat % alignmentSize = 0 := by
  induction bs generalizing b with
  | nil => exact h
  | cons c cs ih =>
    by_cases hfree : !b.used && !c.used
    · simp only [coalesceFrom, hfree, if_true]
      apply ih
      intro d hd
      rcases List.mem_cons.mp hd with rfl | hd
      · -- `2^32` is a multiple of 16, so the merged size is one too, wrap or not
        have hb := h b List.mem_cons_self
        have hc := h c (by simp)
        refine ⟨hb.1, ?_⟩
        simp only [merge, alignmentSize, headerSize] at hb hc ⊢
        rw [UInt32.toNat_add, UInt32.toNat_add]
        simp only [Nat.toUInt32, UInt32.toNat_ofNat']
        omega
      · exact h d (by simp [hd])
    · simp only [coalesceFrom, hfree]
      intro d hd
      rcases List.mem_cons.mp hd with rfl | hd
      · exact h d List.mem_cons_self
      · exact ih (fun e he => h e (List.mem_cons_of_mem _ he)) d hd

/-- Whatever the list, the merge loop leaves no two consecutive free blocks. -/
theorem noFreePair_coalesceFrom (b : Block) (bs : List Block) : NoFreePair (coalesceFrom b bs) := by
  induction bs generalizing b with
  | nil => exact List.IsChain.singleton b
  | cons c cs ih =>
    by_cases hfree : !b.used && !c.used
    · simpa [coalesceFrom, hfree] using ih (merge b c)
    · -- `b` stays, and the rest starts with `c`'s flag: one of the two is used
      obtain ⟨c', rest, he, -, hu⟩ := coalesceFrom_head c cs
      have hrest := ih c
      simp only [coalesceFrom, hfree, he]
      rw [he] at hrest
      refine List.IsChain.cons_cons ?_ hrest
      rw [hu]
      cases hb : b.used <;> cases hc : c.used <;> simp_all

/-- **`dfree` keeps the invariant**, for any header on the list. -/
theorem heapInv_freeList {bs : List Block} (h : HeapInv bs) (hdr : ℕ) :
    HeapInv (freeList hdr bs) := by
  have ht : Tiles heapBase (markFree hdr bs) phystop := tiles_markFree.mpr h.tiles
  have hal : ∀ c ∈ markFree hdr bs,
      c.addr % alignmentSize = 0 ∧ c.dataSize.toNat % alignmentSize = 0 := fun c hc => by
    obtain ⟨b, hb, h1, h2⟩ := mem_markFree hc
    rw [h1, h2]
    exact ⟨h.addr_aligned b hb, h.size_aligned b hb⟩
  unfold freeList
  cases hm : markFree hdr bs with
  | nil =>
    rw [hm] at ht
    exact absurd ht (ne_of_lt heapBase_lt_phystop)
  | cons m ms =>
    rw [hm] at ht hal
    simp only [coalesceList]
    have hal' := aligned_coalesceFrom hal
    exact ⟨tiles_coalesceFrom ht phystop_lt_heapBase_add,
      fun c hc => (hal' c hc).1, fun c hc => (hal' c hc).2, noFreePair_coalesceFrom m ms⟩

/-! ### What a tiled heap gives the refinement lemmas -/

theorem span_ge_length (bs : List Block) :
    headerSize * bs.length ≤ (bs.map fun b => headerSize + b.dataSize.toNat).sum := by
  induction bs with
  | nil => simp
  | cons b bs ih =>
    simp only [List.length_cons, List.map_cons, List.sum_cons]
    rw [Nat.mul_succ]
    omega

/-- Every block takes at least a header's worth of the heap, so the walks never run out of
fuel on a tiled heap. -/
theorem HeapInv.length_lt {bs : List Block} (h : HeapInv bs) : bs.length < walkFuel := by
  have hspan := h.tiles.span
  have hge := span_ge_length bs
  rw [phystop_eq] at hspan
  simp only [walkFuel, heapSize, headerSize] at hspan hge ⊢
  omega

/-- A split lands strictly inside the block it splits, so on no header and not on null. -/
theorem HeapInv.splitFresh {bs : List Block} (h : HeapInv bs) {req : UInt32}
    (hreq : 0 < req.toNat) : SplitFresh req bs := by
  intro b hb _ hlt
  rw [UInt32.lt_iff_toNat_lt] at hlt
  have hlo := (h.tiles.bounds.2 b hb).1
  have hpos := heapBase_pos
  refine ⟨h.tiles.not_mem_of_inside hb (by omega) ?_, by omega⟩
  simp only [Block.endAddr]
  omega

/-! ### `dinit` -/

/-- The single free block `dinit` leaves. -/
def initBlock : Block := ⟨heapBase, (heapSize - headerSize).toUInt32, false⟩

theorem holds_dinit (s : DMem) : Holds (dinit s) [initBlock] := by
  constructor
  · show ListSeg.Path DHeader.next 0 (dinit s).mem heapBase [heapBase] 0
    refine .cons (ne_of_gt heapBase_pos) ?_
    simp [dinit, setNext, setUsed, setDataSize, heapBase]
  · simp [view, dinit, setNext, setUsed, setDataSize, initBlock, Block.ofHeader, heapBase]

theorem heapInv_init : HeapInv [initBlock] := by
  refine ⟨?_, ?_, ?_, List.IsChain.singleton _⟩
  · simp only [tiles_cons, tiles_nil, Block.endAddr, initBlock, true_and]
    decide
  · simp only [List.mem_singleton, forall_eq, initBlock]
    decide
  · simp only [List.mem_singleton, forall_eq, initBlock]
    decide

end Xv6Lab.Dalloc
