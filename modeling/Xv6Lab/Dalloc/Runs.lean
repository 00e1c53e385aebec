import Xv6Lab.Dalloc.HeapInvariant
import Xv6Lab.Lib.Replay

/-!
# Runs of the allocator

A run starts with `dinit()` on any memory and goes on with any sequence of `dalloc(size)`
for `size ≤ HEAP_SIZE` and `dfree(p)` for a `p` that `dalloc` returned and that has not
been freed since. The state of a run is the heap together with its live allocations, each
with the size that was asked for.

The invariant `RunInv` of every reachable state: the heap holds a block list that
satisfies `HeapInv`, and the live allocations are exactly its used blocks, each at least
as large as its request. From it:

* `heap_representation_invariant` — in every reachable state the block list is finite,
  acyclic and tiles the heap, with aligned headers and sizes and no two consecutive free
  blocks; and once nothing is live it is the single free block `dinit` made;
* `dalloc_no_overlap` — a pointer `dalloc` hands out is aligned, lies in the heap, misses
  every header and every other live allocation, and writing into it leaves the heap's
  block list as it was.

Along the way `RunInv.dalloc` and `RunInv.dfree` show that no step of a run gets stuck:
the loops never run out of fuel and `dfree` of a live pointer never panics.
-/

namespace Xv6Lab.Dalloc

/-! ### Used blocks under the list operations -/

/-- `[p, p + n)` and `[q, q + m)` do not meet. -/
def RangesDisjoint (p n q m : ℕ) : Prop := p + n ≤ q ∨ q + m ≤ p

instance (p n q m : ℕ) : Decidable (RangesDisjoint p n q m) :=
  inferInstanceAs (Decidable (_ ∨ _))

theorem mem_splitBlock_used {size req : UInt32} {b c : Block}
    (hc : c ∈ splitBlock size req b) (hu : c.used = true) :
    c.addr = b.addr ∧ c.dataSize = (if b.dataSize > req then align size else b.dataSize) := by
  unfold splitBlock at hc
  split at hc
  · rename_i hlt
    simp only [List.mem_cons, List.not_mem_nil, or_false] at hc
    rcases hc with rfl | rfl
    · simp [hlt]
    · simp at hu
  · rename_i hle
    simp only [List.mem_singleton] at hc
    subst hc
    simp [hle]

/-- The block `dalloc` hands out is the head of what `splitBlock` leaves. -/
theorem head_mem_splitBlock (size req : UInt32) (b : Block) :
    ∃ c ∈ splitBlock size req b, c.used = true ∧ c.addr = b.addr ∧
      c.dataSize = (if b.dataSize > req then align size else b.dataSize) := by
  unfold splitBlock
  split
  · exact ⟨_, List.mem_cons_self, rfl, rfl, by simp⟩
  · exact ⟨_, List.mem_singleton_self _, rfl, rfl, by simp⟩

theorem mem_markFree_of_ne {hdr : ℕ} {bs : List Block} {c : Block} (hc : c ∈ bs)
    (hne : c.addr ≠ hdr) : c ∈ markFree hdr bs := by
  induction bs with
  | nil => simp at hc
  | cons b bs ih =>
    by_cases hb : b.addr = hdr
    · rw [markFree, if_pos hb]
      rcases List.mem_cons.mp hc with rfl | hc
      · exact absurd hb hne
      · exact List.mem_cons_of_mem _ hc
    · rw [markFree, if_neg hb]
      rcases List.mem_cons.mp hc with rfl | hc
      · exact List.mem_cons_self
      · exact List.mem_cons_of_mem _ (ih hc)

theorem used_of_mem_markFree {hdr : ℕ} {bs : List Block} (hnd : (bs.map Block.addr).Nodup)
    {c : Block} (hc : c ∈ markFree hdr bs) (hu : c.used = true) : c ∈ bs ∧ c.addr ≠ hdr := by
  rw [markFree_eq_map hnd] at hc
  obtain ⟨b, hb, rfl⟩ := List.mem_map.mp hc
  by_cases hbh : b.addr = hdr
  · simp [hbh] at hu
  · simp only [hbh, if_false]
    exact ⟨hb, hbh⟩

/-- Coalescing never touches a used block. -/
theorem mem_coalesceFrom_of_used {b c : Block} {bs : List Block} (hc : c ∈ b :: bs)
    (hu : c.used = true) : c ∈ coalesceFrom b bs := by
  induction bs generalizing b with
  | nil => exact hc
  | cons d ds ih =>
    by_cases hfree : !b.used && !d.used
    · simp only [coalesceFrom, hfree, if_true]
      simp only [Bool.and_eq_true, Bool.not_eq_eq_eq_not, Bool.not_true] at hfree
      apply ih
      rcases List.mem_cons.mp hc with rfl | hc
      · simp [hfree.1] at hu
      · rcases List.mem_cons.mp hc with rfl | hc
        · simp [hfree.2] at hu
        · exact List.mem_cons_of_mem _ hc
    · simp only [coalesceFrom, hfree]
      rcases List.mem_cons.mp hc with rfl | hc
      · exact List.mem_cons_self
      · exact List.mem_cons_of_mem _ (ih hc)

/-- A used block after coalescing was there before: merges only make free blocks. -/
theorem mem_of_mem_coalesceFrom_used {b c : Block} {bs : List Block}
    (hc : c ∈ coalesceFrom b bs) (hu : c.used = true) : c ∈ b :: bs := by
  induction bs generalizing b with
  | nil => exact hc
  | cons d ds ih =>
    by_cases hfree : !b.used && !d.used
    · simp only [coalesceFrom, hfree, if_true] at hc
      simp only [Bool.and_eq_true, Bool.not_eq_eq_eq_not, Bool.not_true] at hfree
      rcases List.mem_cons.mp (ih hc) with rfl | hc
      · simp [merge, hfree.1] at hu
      · exact List.mem_cons_of_mem _ (List.mem_cons_of_mem _ hc)
    · simp only [coalesceFrom, hfree] at hc
      rcases List.mem_cons.mp hc with rfl | hc
      · exact List.mem_cons_self
      · exact List.mem_cons_of_mem _ (ih hc)

theorem mem_coalesceList_of_used {bs : List Block} {c : Block} (hc : c ∈ bs)
    (hu : c.used = true) : c ∈ coalesceList bs := by
  cases bs with
  | nil => simp at hc
  | cons b bs => exact mem_coalesceFrom_of_used hc hu

theorem mem_of_mem_coalesceList_used {bs : List Block} {c : Block} (hc : c ∈ coalesceList bs)
    (hu : c.used = true) : c ∈ bs := by
  cases bs with
  | nil => simp [coalesceList] at hc
  | cons b bs => exact mem_of_mem_coalesceFrom_used hc hu

/-- Two blocks of a list with distinct headers that share a header are the same block. -/
theorem eq_of_addr_eq {bs : List Block} (hnd : (bs.map Block.addr).Nodup) {b c : Block}
    (hb : b ∈ bs) (hc : c ∈ bs) (he : b.addr = c.addr) : b = c :=
  List.inj_on_of_nodup_map hnd hb hc he

/-! ### The invariant of a run -/

/-- How the live allocations sit in the block list: each has a used block of its own, at
least as large as its request, and every used block is live. -/
structure LiveMatch (bs : List Block) (live : List (ℕ × UInt32)) : Prop where
  nodup : (live.map Prod.fst).Nodup
  backed : ∀ p sz, (p, sz) ∈ live → ∃ b ∈ bs, b.used = true ∧ b.addr + headerSize = p ∧
    sz.toNat ≤ b.dataSize.toNat
  owned : ∀ b ∈ bs, b.used = true → ∃ sz, (b.addr + headerSize, sz) ∈ live

/-- The invariant of every reachable state of a run. -/
structure RunInv (s : DMem) (live : List (ℕ × UInt32)) (bs : List Block) : Prop where
  holds : Holds s bs
  heapInv : HeapInv bs
  liveMatch : LiveMatch bs live

/-- The live allocations once `dalloc(size)` has returned `p`. -/
def afterAlloc (live : List (ℕ × UInt32)) (p : ℕ) (size : UInt32) : List (ℕ × UInt32) :=
  if p = 0 then live else (p, size) :: live

theorem liveMatch_allocList {bs : List Block} {live : List (ℕ × UInt32)} (hinv : HeapInv bs)
    (hlm : LiveMatch bs live) (hnd : (bs.map Block.addr).Nodup) {size : UInt32}
    (hs : size.toNat + 31 < 2 ^ 32) :
    LiveMatch (allocList size (align (size + headerSize.toUInt32)) bs).1
      (afterAlloc live (allocList size (align (size + headerSize.toUInt32)) bs).2 size) := by
  set req := align (size + headerSize.toUInt32) with hreq
  cases hfind : bs.find? (Block.fits req) with
  | none =>
    rw [allocList_of_find_none hfind]
    simpa [afterAlloc] using hlm
  | some b =>
    obtain ⟨pre, post, rfl, he⟩ := allocList_of_find size hfind
    rw [he]
    have hfit := (List.find?_eq_some_iff_append.mp hfind).1
    simp only [Block.fits, Bool.and_eq_true, Bool.not_eq_eq_eq_not, Bool.not_true,
      decide_eq_true_eq] at hfit
    obtain ⟨hfree, hle⟩ := hfit
    have hb : b ∈ pre ++ b :: post := by simp
    have hp0 : b.addr + headerSize ≠ 0 := by simp [headerSize]
    simp only [afterAlloc, hp0, if_false]
    -- a live allocation's block is used, so it is not `b`, and stays where it was
    have hkeep : ∀ c ∈ pre ++ b :: post, c.used = true → c ∈ pre ++ splitBlock size req b ++ post :=
      fun c hc hu => by
        have hcb : c ≠ b := fun e => by rw [e, hfree] at hu; exact Bool.false_ne_true hu
        simp only [List.mem_append, List.mem_cons] at hc ⊢
        rcases hc with hc | hc | hc
        · exact .inl (.inl hc)
        · exact absurd hc hcb
        · exact .inr hc
    refine ⟨?_, ?_, ?_⟩
    · -- the new pointer is not live yet: its block was free
      refine List.nodup_cons.mpr ⟨fun hmem => ?_, hlm.nodup⟩
      obtain ⟨⟨q, sq⟩, hq, hqe⟩ := List.mem_map.mp hmem
      simp only at hqe
      subst hqe
      obtain ⟨c, hc, hcu, hca, -⟩ := hlm.backed _ sq hq
      have := eq_of_addr_eq hnd hc hb (by omega)
      rw [this, hfree] at hcu
      exact Bool.false_ne_true hcu
    · intro q sq hq
      rcases List.mem_cons.mp hq with hq | hq
      · -- the new allocation is the head of the split
        obtain ⟨hq1, hq2⟩ := Prod.mk.inj hq
        rw [hq1, hq2]
        obtain ⟨c, hc, hcu, hca, hcd⟩ := head_mem_splitBlock size req b
        refine ⟨c, by simp [hc], hcu, by rw [hca], ?_⟩
        rw [hcd]
        have hr : req.toNat = (align size).toNat + headerSize := by
          rw [hreq]
          exact requiredSize_toNat hs
        have hle' : req.toNat ≤ b.dataSize.toNat := hle
        split
        · exact le_align_toNat (by omega)
        · have : size.toNat ≤ (align size).toNat := le_align_toNat (by omega)
          omega
      · obtain ⟨c, hc, hcu, hca, hcd⟩ := hlm.backed q sq hq
        exact ⟨c, hkeep c hc hcu, hcu, hca, hcd⟩
    · intro c hc hcu
      simp only [List.mem_append] at hc
      rcases hc with (hc | hc) | hc
      · obtain ⟨sz, hsz⟩ := hlm.owned c (by simp [hc]) hcu
        exact ⟨sz, List.mem_cons_of_mem _ hsz⟩
      · obtain ⟨hca, -⟩ := mem_splitBlock_used hc hcu
        exact ⟨size, by rw [hca]; exact List.mem_cons_self⟩
      · obtain ⟨sz, hsz⟩ := hlm.owned c (by simp [hc]) hcu
        exact ⟨sz, List.mem_cons_of_mem _ hsz⟩

theorem liveMatch_freeList {bs : List Block} {live : List (ℕ × UInt32)}
    (hlm : LiveMatch bs live) (hnd : (bs.map Block.addr).Nodup) {p : ℕ} {sz : UInt32}
    (hp : (p, sz) ∈ live) {b : Block} (hbp : b.addr + headerSize = p) :
    LiveMatch (freeList b.addr bs) (live.erase (p, sz)) := by
  have hlnd : live.Nodup := List.Nodup.of_map Prod.fst hlm.nodup
  -- the entries left are those with another pointer
  have herase : ∀ q sq, (q, sq) ∈ live.erase (p, sz) ↔ (q, sq) ∈ live ∧ q ≠ p := by
    intro q sq
    rw [hlnd.mem_erase_iff]
    constructor
    · rintro ⟨hne, hq⟩
      refine ⟨hq, fun hqp => hne ?_⟩
      subst hqp
      exact List.inj_on_of_nodup_map hlm.nodup hq hp rfl
    · rintro ⟨hq, hqp⟩
      exact ⟨fun he => hqp (Prod.mk.inj he).1, hq⟩
  refine ⟨?_, ?_, ?_⟩
  · exact (List.erase_sublist.map Prod.fst).nodup hlm.nodup
  · intro q sq hq
    obtain ⟨hq, hqp⟩ := (herase q sq).mp hq
    obtain ⟨c, hc, hcu, hca, hcd⟩ := hlm.backed q sq hq
    have hcb : c.addr ≠ b.addr := fun e => hqp (by rw [← hca, ← hbp, e])
    exact ⟨c, mem_coalesceList_of_used (mem_markFree_of_ne hc hcb) hcu, hcu, hca, hcd⟩
  · intro c hc hcu
    obtain ⟨hc, hcb⟩ := used_of_mem_markFree hnd (mem_of_mem_coalesceList_used hc hcu) hcu
    obtain ⟨sz', hsz'⟩ := hlm.owned c hc hcu
    exact ⟨sz', (herase _ _).mpr ⟨hsz', fun e => hcb (by omega)⟩⟩

/-- **A `dalloc` step.** From a state of the invariant, `dalloc` of any size up to
`HEAP_SIZE` returns, and leaves a state of the invariant. -/
theorem RunInv.dalloc {s : DMem} {live : List (ℕ × UInt32)} {bs : List Block}
    (h : RunInv s live bs) {size : UInt32} (hsize : size.toNat ≤ heapSize) :
    ∃ s', Xv6Lab.Dalloc.dalloc s size =
        some (s', (allocList size (align (size + headerSize.toUInt32)) bs).2) ∧
      RunInv s' (afterAlloc live (allocList size (align (size + headerSize.toUInt32)) bs).2 size)
        (allocList size (align (size + headerSize.toUInt32)) bs).1 ∧ s'.start = s.start := by
  have hs : size.toNat + 31 < 2 ^ 32 := by simp only [heapSize] at hsize; omega
  have hreq : 0 < (align (size + headerSize.toUInt32)).toNat := by
    rw [requiredSize_toNat hs, headerSize]
    omega
  obtain ⟨s', hrun, hholds, hstart⟩ :=
    dalloc_holds h.holds h.heapInv.length_lt size (h.heapInv.splitFresh hreq)
  exact ⟨s', hrun, ⟨hholds, heapInv_allocList h.heapInv hs,
    liveMatch_allocList h.heapInv h.liveMatch h.holds.nodup hs⟩, hstart⟩

/-- **A `dfree` step.** From a state of the invariant, `dfree` of a live pointer finds the
used block whose data area it starts, does not panic, and leaves a state of the invariant
without that allocation, holding the list with that block freed. -/
theorem RunInv.dfree_block {s : DMem} {live : List (ℕ × UInt32)} {bs : List Block}
    (h : RunInv s live bs) {p : ℕ} {sz : UInt32} (hp : (p, sz) ∈ live) :
    ∃ b ∈ bs, b.used = true ∧ b.addr + headerSize = p ∧ ∃ s',
      Xv6Lab.Dalloc.dfree s p = some (.ok s') ∧
        RunInv s' (live.erase (p, sz)) (freeList b.addr bs) ∧ s'.start = s.start := by
  obtain ⟨b, hb, hbu, hbp, -⟩ := h.liveMatch.backed p sz hp
  have hlt := (h.heapInv.tiles.bounds.2 b hb).2
  have hbe := b.addr_lt_endAddr
  -- the header `dfree` computes is the block's own
  have hhdr : (p + 2 ^ 64 - headerSize) % 2 ^ 64 = b.addr := by
    have hsmall : b.addr < 2 ^ 64 := lt_trans (lt_of_lt_of_le hbe hlt) (by decide)
    rw [← hbp, show b.addr + headerSize + 2 ^ 64 - headerSize = b.addr + 2 ^ 64 by omega,
      Nat.add_mod_right, Nat.mod_eq_of_lt hsmall]
  have hal := h.heapInv.addr_aligned b hb
  obtain ⟨s', hrun, hholds, hstart⟩ := dfree_holds h.holds h.heapInv.length_lt
    (show (p + 2 ^ 64 - headerSize) % 2 ^ 64 % alignmentSize = 0 by rw [hhdr]; exact hal)
    (by rw [hhdr]; exact List.mem_map_of_mem hb)
  rw [hhdr] at hholds
  exact ⟨b, hb, hbu, hbp, s', hrun, ⟨hholds, heapInv_freeList h.heapInv b.addr,
    liveMatch_freeList h.liveMatch h.holds.nodup hp hbp⟩, hstart⟩

theorem RunInv.dfree {s : DMem} {live : List (ℕ × UInt32)} {bs : List Block}
    (h : RunInv s live bs) {p : ℕ} {sz : UInt32} (hp : (p, sz) ∈ live) :
    ∃ s' bs', Xv6Lab.Dalloc.dfree s p = some (.ok s') ∧ RunInv s' (live.erase (p, sz)) bs' ∧
      s'.start = s.start := by
  obtain ⟨b, -, -, -, s', hrun, h', hstart⟩ := h.dfree_block hp
  exact ⟨s', _, hrun, h', hstart⟩

/-! ### Where live allocations lie -/

section LiveRanges

variable {s : DMem} {live : List (ℕ × UInt32)} {bs : List Block}

/-- A live allocation lies in the data area of its used block. -/
theorem RunInv.live_block (h : RunInv s live bs) {p : ℕ} {sz : UInt32} (hp : (p, sz) ∈ live) :
    ∃ b ∈ bs, b.used = true ∧ b.addr + headerSize = p ∧ p + sz.toNat ≤ b.endAddr := by
  obtain ⟨b, hb, hbu, hbp, hsz⟩ := h.liveMatch.backed p sz hp
  refine ⟨b, hb, hbu, hbp, ?_⟩
  simp only [Block.endAddr]
  omega

/-- A live allocation is 16-aligned and lies in `[PHYSTOP - HEAP_SIZE + 16, PHYSTOP)`. -/
theorem RunInv.live_bounds (h : RunInv s live bs) {p : ℕ} {sz : UInt32} (hp : (p, sz) ∈ live) :
    p % alignmentSize = 0 ∧ heapBase + headerSize ≤ p ∧ p + sz.toNat ≤ phystop := by
  obtain ⟨b, hb, -, hbp, hend⟩ := h.live_block hp
  have hal := h.heapInv.addr_aligned b hb
  obtain ⟨hlo, hhi⟩ := h.heapInv.tiles.bounds.2 b hb
  simp only [alignmentSize, headerSize] at hal hbp ⊢
  omega

/-- A live allocation meets no header of the list: its own header ends where it starts,
and every other block lies wholly before or after its block. -/
theorem RunInv.live_header_disjoint (h : RunInv s live bs) {p : ℕ} {sz : UInt32}
    (hp : (p, sz) ∈ live) : ∀ c ∈ bs, RangesDisjoint p sz.toNat c.addr headerSize := by
  intro c hc
  obtain ⟨b, hb, -, hbp, hend⟩ := h.live_block hp
  have hce := c.addr_lt_endAddr
  by_cases hcb : c.addr = b.addr
  · exact .inr (by omega)
  · rcases h.heapInv.tiles.apart hb hc (Ne.symm hcb) with h1 | h1
    · exact .inl (by omega)
    · exact .inr (by simp only [Block.endAddr] at h1 ⊢; omega)

/-- Two live allocations with different pointers do not meet. -/
theorem RunInv.live_disjoint (h : RunInv s live bs) {p q : ℕ} {sp sq : UInt32}
    (hp : (p, sp) ∈ live) (hq : (q, sq) ∈ live) (hpq : p ≠ q) :
    RangesDisjoint p sp.toNat q sq.toNat := by
  obtain ⟨b, hb, -, hbp, hbend⟩ := h.live_block hp
  obtain ⟨c, hc, -, hcq, hcend⟩ := h.live_block hq
  have hbe := b.addr_lt_endAddr
  have hce := c.addr_lt_endAddr
  rcases h.heapInv.tiles.apart hb hc (fun e => hpq (by omega)) with h1 | h1
  · exact .inl (by omega)
  · exact .inr (by omega)

/-- The block `dalloc` hands out meets no allocation that was live before. -/
theorem RunInv.dalloc_apart (h : RunInv s live bs) {size : UInt32} (hsize : size.toNat ≤ heapSize)
    {s' : DMem} {p : ℕ} (hrun : Xv6Lab.Dalloc.dalloc s size = some (s', p)) (hp : p ≠ 0) :
    ∀ q sq, (q, sq) ∈ live → RangesDisjoint p size.toNat q sq.toNat := by
  obtain ⟨s'', hrun', hinv', -⟩ := h.dalloc hsize
  rw [hrun] at hrun'
  obtain ⟨-, hpe⟩ := Prod.mk.inj (Option.some.inj hrun')
  rw [← hpe] at hinv'
  simp only [afterAlloc, hp, if_false] at hinv'
  intro q sq hq
  -- an older allocation has another pointer: the new one was not live
  have hqp : p ≠ q := by
    rintro rfl
    exact (List.nodup_cons.mp hinv'.liveMatch.nodup).1 (List.mem_map.mpr ⟨_, hq, rfl⟩)
  exact hinv'.live_disjoint List.mem_cons_self (List.mem_cons_of_mem _ hq) hqp

end LiveRanges

/-! ### Reachable states -/

/-- The state of a run: the heap, and the allocations handed out and not freed since, each
with the size asked for. -/
structure AllocState where
  heap : DMem
  live : List (ℕ × UInt32)

/-- The states of a run: `dinit()` on any memory, then `dalloc(size)` for
`size ≤ HEAP_SIZE` and `dfree(p)` for a live `p`, each step being what the code returns. -/
inductive Reachable : AllocState → Prop
  | init (s : DMem) : Reachable ⟨dinit s, []⟩
  | alloc {σ : AllocState} {size : UInt32} {s' : DMem} {p : ℕ} :
      Reachable σ → size.toNat ≤ heapSize → dalloc σ.heap size = some (s', p) →
      Reachable ⟨s', afterAlloc σ.live p size⟩
  | free {σ : AllocState} {p : ℕ} {sz : UInt32} {s' : DMem} :
      Reachable σ → (p, sz) ∈ σ.live → dfree σ.heap p = some (.ok s') →
      Reachable ⟨s', σ.live.erase (p, sz)⟩

theorem runInv_init (s : DMem) : RunInv (dinit s) [] [initBlock] :=
  ⟨holds_dinit s, heapInv_init, ⟨List.nodup_nil, fun _ _ h => by simp at h,
    fun b hb hu => by simp only [List.mem_singleton] at hb; subst hb; simp [initBlock] at hu⟩⟩

/-- Every reachable state satisfies the invariant. -/
theorem Reachable.runInv {σ : AllocState} (h : Reachable σ) : ∃ bs, RunInv σ.heap σ.live bs := by
  induction h with
  | init s => exact ⟨_, runInv_init s⟩
  | alloc _ hsize hrun ih =>
    obtain ⟨bs, hinv⟩ := ih
    obtain ⟨s'', hrun', hinv', -⟩ := hinv.dalloc hsize
    rw [hrun] at hrun'
    obtain ⟨rfl, rfl⟩ := Prod.mk.inj (Option.some.inj hrun')
    exact ⟨_, hinv'⟩
  | free _ hp hrun ih =>
    obtain ⟨bs, hinv⟩ := ih
    obtain ⟨s'', bs', hrun', hinv', -⟩ := hinv.dfree hp
    rw [hrun] at hrun'
    cases hrun'
    exact ⟨bs', hinv'⟩

/-- With nothing live, a heap of the invariant is one free block: all blocks are free, no
two neighbours are, so there is one, and it spans the heap. -/
theorem eq_initBlock_of_all_free {bs : List Block} (h : HeapInv bs)
    (hfree : ∀ b ∈ bs, b.used = false) : bs = [initBlock] := by
  match bs, h, hfree with
  | [], h, _ => exact absurd h.tiles (ne_of_lt heapBase_lt_phystop)
  | [b], h, hfree =>
    obtain ⟨hb, hend⟩ := tiles_cons.mp h.tiles
    have hds : b.dataSize.toNat = heapSize - headerSize := by
      simp only [tiles_nil, Block.endAddr, hb, phystop_eq] at hend
      omega
    have hu := hfree b List.mem_cons_self
    cases b
    simp only [initBlock, List.cons.injEq, Block.mk.injEq, and_true] at hb hu hds ⊢
    exact ⟨hb, UInt32.toNat.inj (by rw [hds]; decide), hu⟩
  | b :: c :: rest, h, hfree =>
    have hpair := (List.isChain_cons_cons.mp h.noFreePair).1
    rw [hfree b List.mem_cons_self, hfree c (by simp)] at hpair
    simp at hpair

/-- **The heap representation invariant.** In every state a run reaches, the list from
`dmem.start` is null-terminated and visits each header once, and the blocks it visits tile
`[PHYSTOP - HEAP_SIZE, PHYSTOP)` with 16-aligned headers and data sizes and no two
consecutive free blocks; once every allocation is freed it is the single free block of
data size `HEAP_SIZE - 16`. -/
theorem heap_representation_invariant {σ : AllocState} (hσ : Reachable σ) :
    ∃ bs, Holds σ.heap bs ∧ (bs.map Block.addr).Nodup ∧ HeapInv bs ∧
      (σ.live = [] → bs = [⟨phystop - heapSize, (heapSize - headerSize).toUInt32, false⟩]) := by
  obtain ⟨bs, hinv⟩ := hσ.runInv
  refine ⟨bs, hinv.holds, hinv.holds.nodup, hinv.heapInv, fun hlive => ?_⟩
  apply eq_initBlock_of_all_free hinv.heapInv
  intro b hb
  by_contra hu
  obtain ⟨sz, hsz⟩ := hinv.liveMatch.owned b hb (by simpa using hu)
  rw [hlive] at hsz
  simp at hsz

/-- Memory of zeros, as `dinit` may find it. -/
def zeroMem : DMem := ⟨0, fun _ => ⟨0, false, 0⟩⟩

/-- The start of a run: `dinit()` on zeroed memory, nothing live. -/
def initState : AllocState := ⟨dinit zeroMem, []⟩

/-! ### Replaying a run -/

/-- A call of a run after `dinit()`: `dalloc(size)`, or `dfree(p)`. -/
inductive DCall
  | alloc (size : UInt32)
  | free (p : ℕ)

/-- One call, as the code makes it; `none` for a call a run does not make (a size above
`HEAP_SIZE`, a `p` that is not live) or one that fails or panics. -/
def callStep (σ : AllocState) : DCall → Option AllocState
  | .alloc size =>
    if size.toNat ≤ heapSize then
      (dalloc σ.heap size).map fun r => ⟨r.1, afterAlloc σ.live r.2 size⟩
    else none
  | .free p =>
    (σ.live.find? fun e => e.1 = p).bind fun e =>
      ((dfree σ.heap e.1).bind Except.toOption).map fun s' => ⟨s', σ.live.erase e⟩

/-- A call a run makes is a step of `Reachable`. -/
theorem Reachable.callStep {σ σ' : AllocState} {c : DCall} (hσ : Reachable σ)
    (h : callStep σ c = some σ') : Reachable σ' := by
  cases c with
  | alloc size =>
    rw [Dalloc.callStep] at h
    split_ifs at h with hsize
    obtain ⟨r, hr, rfl⟩ := Option.map_eq_some_iff.mp h
    exact hσ.alloc hsize hr
  | free p =>
    rw [Dalloc.callStep] at h
    obtain ⟨e, he, h⟩ := Option.bind_eq_some_iff.mp h
    obtain ⟨s', hs', rfl⟩ := Option.map_eq_some_iff.mp h
    obtain ⟨r, hr, hok⟩ := Option.bind_eq_some_iff.mp hs'
    have hmem : (e.1, e.2) ∈ σ.live := List.mem_of_find?_eq_some he
    -- `dfree` returned a heap: a panic has no `toOption`
    cases r with
    | error msg => exact absurd hok (by simp [Except.toOption])
    | ok s'' =>
      obtain rfl : s'' = s' := Option.some.inj hok
      exact hσ.free hmem hr

/-- `dalloc(100)` and `dalloc(200)`, then `dfree` of the first block and of the second. -/
def allocFreeCalls : List DCall :=
  [.alloc 100, .alloc 200, .free (heapBase + headerSize), .free (heapBase + 144)]

/-- The state these calls reach from `dinit()` on zeroed memory. -/
def allocFreeState : AllocState := (Replay.replay callStep initState allocFreeCalls).getD initState

/-- After two blocks are handed out and freed again, the second freed between its free
neighbours, the heap is one free block again. -/
theorem heap_representation_allocFree :
    Reachable allocFreeState ∧
      ∃ bs, Holds allocFreeState.heap bs ∧ (bs.map Block.addr).Nodup ∧ HeapInv bs ∧
        (allocFreeState.live = [] →
          bs = [⟨phystop - heapSize, (heapSize - headerSize).toUInt32, false⟩]) :=
  have h : Reachable allocFreeState :=
    Replay.getD_replay Reachable (fun _ _ _ => Reachable.callStep) (Reachable.init zeroMem)
      (by decide +kernel)
  ⟨h, heap_representation_invariant h⟩

/-- The heap after the first `dalloc(100)` of a run, as the code leaves it. -/
def firstAllocHeap : DMem :=
  ⟨heapBase, allocAt (dinit zeroMem).mem heapBase 100 (align (100 + headerSize.toUInt32))⟩

end Xv6Lab.Dalloc
