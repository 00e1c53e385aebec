import Xv6Lab.Dalloc.Runs
import Xv6Lab.Lib.Interleave

/-!
# Identities of the allocator

A heap of the invariant is fixed by its used blocks (`eq_of_usedBlocks_eq`): the tiling
leaves gaps between them, and with no two free blocks adjacent each gap is empty or one free
block that spans it. `dalloc` adds one used block and `dfree` removes one, so two equations
follow:

* `dalloc_dfree_inverse` — `dfree` of what `dalloc` has just handed out gives back the block
  list as it was, whether the block was split or fitted exactly;
* `dfree_order_irrelevant` — freeing live allocations in any order leaves the same block list.
-/

namespace Xv6Lab.Dalloc

/-! ### The used blocks fix the heap -/

/-- The blocks handed out, in list order. -/
def usedBlocks (bs : List Block) : List Block := bs.filter Block.used

@[simp] theorem usedBlocks_nil : usedBlocks [] = [] := rfl

theorem usedBlocks_cons_used {b : Block} (hb : b.used = true) (bs : List Block) :
    usedBlocks (b :: bs) = b :: usedBlocks bs := by
  simp [usedBlocks, hb]

theorem usedBlocks_cons_free {b : Block} (hb : b.used = false) (bs : List Block) :
    usedBlocks (b :: bs) = usedBlocks bs := by
  simp [usedBlocks, hb]

theorem usedBlocks_append (bs cs : List Block) :
    usedBlocks (bs ++ cs) = usedBlocks bs ++ usedBlocks cs :=
  List.filter_append ..

theorem mem_of_mem_usedBlocks {b : Block} {bs : List Block} (hb : b ∈ usedBlocks bs) : b ∈ bs :=
  (List.mem_filter.mp hb).1

theorem NoFreePair.tail {b : Block} {bs : List Block} (h : NoFreePair (b :: bs)) :
    NoFreePair bs :=
  List.IsChain.tail h

/-- Every block takes room, so nothing tiles an empty range. -/
theorem Tiles.eq_nil {a : ℕ} {cs : List Block} (h : Tiles a cs a) : cs = [] := by
  cases cs with
  | nil => rfl
  | cons c cs =>
    obtain ⟨hc, hcs⟩ := tiles_cons.mp h
    have hle := hcs.bounds.1
    have hlt := c.addr_lt_endAddr
    omega

/-- Where the gap that a list of blocks starts with ends: at its first used block, or at
the top. -/
def gapEnd (top : ℕ) (bs : List Block) : ℕ :=
  match usedBlocks bs with
  | [] => top
  | d :: _ => d.addr

/-- A free block of the invariant spans the whole gap it starts. -/
theorem endAddr_eq_gapEnd {b : Block} {bs : List Block} {top : ℕ}
    (h : Tiles b.endAddr bs top) (hn : NoFreePair (b :: bs)) (hb : b.used = false) :
    b.endAddr = gapEnd top bs := by
  cases bs with
  | nil => exact h
  | cons d ds =>
    -- the block after a free one is used
    have hd : d.used = true := by
      have := (List.isChain_cons_cons.mp hn).1
      rw [hb] at this
      simpa using this
    obtain ⟨hda, -⟩ := tiles_cons.mp h
    simp [gapEnd, usedBlocks_cons_used hd, hda]

theorem Block.eq_of_endAddr {b c : Block} (ha : b.addr = c.addr) (hu : b.used = c.used)
    (he : b.endAddr = c.endAddr) : b = c := by
  have hd : b.dataSize = c.dataSize :=
    UInt32.toNat.inj (by simp only [Block.endAddr] at he; omega)
  cases b
  cases c
  simp_all

/-- **A heap of the invariant is fixed by its used blocks.** Two tilings of one range with no
two consecutive free blocks and the same used blocks are equal. -/
theorem eq_of_usedBlocks_eq {a top : ℕ} {bs cs : List Block} (hb : Tiles a bs top)
    (hc : Tiles a cs top) (hnb : NoFreePair bs) (hnc : NoFreePair cs)
    (hu : usedBlocks bs = usedBlocks cs) : bs = cs := by
  induction bs generalizing a cs with
  | nil =>
    rw [tiles_nil] at hb
    subst hb
    exact hc.eq_nil.symm
  | cons b bs ih =>
    cases cs with
    | nil =>
      rw [tiles_nil] at hc
      subst hc
      exact absurd hb.eq_nil (List.cons_ne_nil b bs)
    | cons c cs =>
      obtain ⟨hba, hbs⟩ := tiles_cons.mp hb
      obtain ⟨hca, hcs⟩ := tiles_cons.mp hc
      -- a used block at the head of one list is a later block of the other
      have later : ∀ {d e : Block} {ds : List Block}, d.addr = a → Tiles d.endAddr ds top →
          e.addr = a → e ∈ usedBlocks ds → False := fun {d e ds} hd hds he hmem => by
        have h1 := (hds.bounds.2 e (mem_of_mem_usedBlocks hmem)).1
        have h2 := d.addr_lt_endAddr
        omega
      cases hbu : b.used <;> cases hcu : c.used
      · -- two free heads: each spans the gap up to the first used block
        rw [usedBlocks_cons_free hbu, usedBlocks_cons_free hcu] at hu
        have hbc : b = c := Block.eq_of_endAddr (hba.trans hca.symm) (hbu.trans hcu.symm) (by
          rw [endAddr_eq_gapEnd hbs hnb hbu, endAddr_eq_gapEnd hcs hnc hcu, gapEnd, gapEnd, hu])
        subst hbc
        rw [ih hbs hcs hnb.tail hnc.tail hu]
      · rw [usedBlocks_cons_free hbu, usedBlocks_cons_used hcu] at hu
        exact (later hba hbs hca (hu ▸ List.mem_cons_self)).elim
      · rw [usedBlocks_cons_used hbu, usedBlocks_cons_free hcu] at hu
        exact (later hca hcs hba (hu ▸ List.mem_cons_self)).elim
      · rw [usedBlocks_cons_used hbu, usedBlocks_cons_used hcu] at hu
        obtain ⟨rfl, hu'⟩ := List.cons_eq_cons.mp hu
        rw [ih hbs hcs hnb.tail hnc.tail hu']

/-! ### What the operations do to the used blocks -/

theorem usedBlocks_coalesceFrom (b : Block) (bs : List Block) :
    usedBlocks (coalesceFrom b bs) = usedBlocks (b :: bs) := by
  induction bs generalizing b with
  | nil => rfl
  | cons c cs ih =>
    by_cases hfree : !b.used && !c.used
    · -- the merged block is as free as the two it joins
      obtain ⟨hb, hc⟩ : b.used = false ∧ c.used = false := by simpa using hfree
      simp only [coalesceFrom, hfree, if_true]
      rw [ih, usedBlocks_cons_free (b := merge b c) hb, usedBlocks_cons_free hb,
        usedBlocks_cons_free hc]
    · simp only [coalesceFrom, hfree, if_false, Bool.false_eq_true]
      cases hb : b.used
      · rw [usedBlocks_cons_free hb, usedBlocks_cons_free hb, ih]
      · rw [usedBlocks_cons_used hb, usedBlocks_cons_used hb, ih]

theorem usedBlocks_coalesceList (bs : List Block) :
    usedBlocks (coalesceList bs) = usedBlocks bs := by
  cases bs with
  | nil => rfl
  | cons b bs => exact usedBlocks_coalesceFrom b bs

/-- Used blocks with another header than `hdr`: all of them, when none has it. -/
theorem filter_usedBlocks_of_not_mem {hdr : ℕ} {bs : List Block} (h : hdr ∉ bs.map Block.addr) :
    (usedBlocks bs).filter (fun c => c.addr ≠ hdr) = usedBlocks bs :=
  List.filter_eq_self.mpr fun c hc => by
    have hne : c.addr ≠ hdr := fun e => h (e ▸ List.mem_map_of_mem (mem_of_mem_usedBlocks hc))
    simpa using hne

theorem usedBlocks_markFree {hdr : ℕ} {bs : List Block} (hnd : (bs.map Block.addr).Nodup) :
    usedBlocks (markFree hdr bs) = (usedBlocks bs).filter fun c => c.addr ≠ hdr := by
  induction bs with
  | nil => rfl
  | cons b bs ih =>
    rw [List.map_cons, List.nodup_cons] at hnd
    by_cases hb : b.addr = hdr
    · have hrest : (usedBlocks bs).filter (fun c => c.addr ≠ hdr) = usedBlocks bs :=
        filter_usedBlocks_of_not_mem (hb ▸ hnd.1)
      rw [markFree, if_pos hb, usedBlocks_cons_free rfl]
      cases hu : b.used
      · rw [usedBlocks_cons_free hu, hrest]
      · rw [usedBlocks_cons_used hu, List.filter_cons_of_neg (by simpa using hb), hrest]
    · rw [markFree, if_neg hb]
      cases hu : b.used
      · rw [usedBlocks_cons_free hu, usedBlocks_cons_free hu, ih hnd.2]
      · rw [usedBlocks_cons_used hu, usedBlocks_cons_used hu, ih hnd.2,
          List.filter_cons_of_pos (by simpa using hb)]

/-- `dfree` removes one used block and keeps the others, in order. -/
theorem usedBlocks_freeList {hdr : ℕ} {bs : List Block} (hnd : (bs.map Block.addr).Nodup) :
    usedBlocks (freeList hdr bs) = (usedBlocks bs).filter fun c => c.addr ≠ hdr := by
  rw [freeList, usedBlocks_coalesceList, usedBlocks_markFree hnd]

/-- The used block `dalloc` makes of `b` sits at `b`'s header. -/
theorem filter_usedBlocks_splitBlock (size req : UInt32) (b : Block) :
    (usedBlocks (splitBlock size req b)).filter (fun c => c.addr ≠ b.addr) = [] :=
  List.filter_eq_nil_iff.mpr fun c hc => by
    have := (mem_splitBlock_used (mem_of_mem_usedBlocks hc) (List.mem_filter.mp hc).2).1
    simpa using this

/-- A heap holds one block list. -/
theorem Holds.unique {s : DMem} {bs cs : List Block} (hb : Holds s bs) (hc : Holds s cs) :
    bs = cs := by
  rw [← hb.view_eq, ← hc.view_eq, hb.seg.unique hc.seg]

/-! ### `dfree` undoes `dalloc` -/

/-- **`dfree` undoes `dalloc`.** On a heap of the invariant, when `dalloc(size)` for a size up
to `HEAP_SIZE` hands out `p`, `dfree(p)` does not panic and leaves the block list exactly as it
was before the `dalloc`: addresses, data sizes and flags. -/
theorem dalloc_dfree_inverse {s : DMem} {bs : List Block} (h : Holds s bs) (hinv : HeapInv bs)
    {size : UInt32} (hsize : size.toNat ≤ heapSize) {s' : DMem} {p : ℕ}
    (hrun : dalloc s size = some (s', p)) (hp : p ≠ 0) :
    ∃ s'', dfree s' p = some (.ok s'') ∧ Holds s'' bs := by
  have hs : size.toNat + 31 < 2 ^ 32 := by simp only [heapSize] at hsize; omega
  have hreq : 0 < (align (size + headerSize.toUInt32)).toNat := by
    rw [requiredSize_toNat hs, headerSize]
    omega
  obtain ⟨s₁, hrun₁, hholds, -⟩ := dalloc_holds h hinv.length_lt size (hinv.splitFresh hreq)
  rw [hrun] at hrun₁
  obtain ⟨rfl, rfl⟩ := Prod.mk.inj (Option.some.inj hrun₁)
  have hinv' := heapInv_allocList hinv hs
  cases hfind : bs.find? (Block.fits (align (size + headerSize.toUInt32))) with
  | none =>
    rw [allocList_of_find_none hfind] at hp
    exact absurd rfl hp
  | some b =>
    obtain ⟨pre, post, rfl, he⟩ := allocList_of_find size hfind
    rw [he] at hholds hinv' ⊢
    have hb : b ∈ pre ++ b :: post := by simp
    have hfree : b.used = false := by
      have := (List.find?_eq_some_iff_append.mp hfind).1
      simp only [Block.fits, Bool.and_eq_true, Bool.not_eq_eq_eq_not, Bool.not_true] at this
      exact this.1
    -- the header `dfree` computes is `b`'s
    have hhdr : (b.addr + headerSize + 2 ^ 64 - headerSize) % 2 ^ 64 = b.addr := by
      have hlt := (hinv.tiles.bounds.2 b hb).2
      have hbe := b.addr_lt_endAddr
      have hsmall : b.addr < 2 ^ 64 := lt_trans (lt_of_lt_of_le hbe hlt) (by decide)
      rw [show b.addr + headerSize + 2 ^ 64 - headerSize = b.addr + 2 ^ 64 by omega,
        Nat.add_mod_right, Nat.mod_eq_of_lt hsmall]
    have hmem : b.addr ∈ (pre ++ splitBlock size (align (size + headerSize.toUInt32)) b ++
        post).map Block.addr := by
      obtain ⟨c, hc, -, hca, -⟩ := head_mem_splitBlock size (align (size + headerSize.toUInt32)) b
      exact List.mem_map.mpr ⟨c, by simp [hc], hca⟩
    obtain ⟨s'', hrun', hholds', -⟩ := dfree_holds hholds hinv'.length_lt
      (by rw [hhdr]; exact hinv.addr_aligned b hb) (by rw [hhdr]; exact hmem)
    rw [hhdr] at hholds'
    refine ⟨s'', hrun', ?_⟩
    -- the list `dfree` leaves has the used blocks of the one before `dalloc`
    have hnd := h.nodup
    rw [List.map_append, List.map_cons, List.nodup_append] at hnd
    have hpre : b.addr ∉ pre.map Block.addr := fun hm => hnd.2.2 _ hm _ List.mem_cons_self rfl
    have hpost : b.addr ∉ post.map Block.addr := (List.nodup_cons.mp hnd.2.1).1
    have hinvf := heapInv_freeList hinv' b.addr
    have hlist : freeList b.addr (pre ++ splitBlock size (align (size + headerSize.toUInt32)) b ++
        post) = pre ++ b :: post := by
      refine eq_of_usedBlocks_eq hinvf.tiles hinv.tiles hinvf.noFreePair hinv.noFreePair ?_
      rw [usedBlocks_freeList hholds.nodup, usedBlocks_append, usedBlocks_append, List.filter_append,
        List.filter_append, filter_usedBlocks_of_not_mem hpre, filter_usedBlocks_of_not_mem hpost,
        filter_usedBlocks_splitBlock, usedBlocks_append, usedBlocks_cons_free hfree,
        List.append_nil]
    rwa [hlist] at hholds'

theorem dalloc_dfree_inverse_first :
    Holds initState.heap [initBlock] ∧ HeapInv [initBlock] ∧ (100 : UInt32).toNat ≤ heapSize ∧
      dalloc initState.heap 100 = some (firstAllocHeap, heapBase + headerSize) ∧
      heapBase + headerSize ≠ 0 ∧
      ∃ s'', dfree firstAllocHeap (heapBase + headerSize) = some (.ok s'') ∧
        Holds s'' [initBlock] :=
  ⟨holds_dinit zeroMem, heapInv_init, by decide, rfl, by decide,
    dalloc_dfree_inverse (holds_dinit zeroMem) heapInv_init
      (show (100 : UInt32).toNat ≤ heapSize by decide)
      (show dalloc (dinit zeroMem) 100 = some (firstAllocHeap, heapBase + headerSize) from rfl)
      (by decide)⟩

/-! ### Frees commute -/

/-- `dfree` of each pointer of a list in turn: the first panic, or the heap at the end. -/
def dfreeAll (s : DMem) (ps : List ℕ) : Option (Except String DMem) :=
  Interleave.run dfree s ps

/-- Freeing distinct live allocations one after the other never panics, and leaves a heap of
the invariant whose used blocks are those of the others. -/
theorem RunInv.dfreeAll_ok {s : DMem} {live : List (ℕ × UInt32)} {bs : List Block}
    (h : RunInv s live bs) {ps : List ℕ} (hnd : ps.Nodup)
    (hlive : ∀ p ∈ ps, ∃ sz, (p, sz) ∈ live) :
    ∃ s' bs', dfreeAll s ps = some (.ok s') ∧ Holds s' bs' ∧ HeapInv bs' ∧
      usedBlocks bs' = (usedBlocks bs).filter fun c => c.addr + headerSize ∉ ps := by
  induction ps generalizing s live bs with
  | nil => exact ⟨s, bs, rfl, h.holds, h.heapInv, by simp⟩
  | cons p ps ih =>
    obtain ⟨sz, hp⟩ := hlive p List.mem_cons_self
    obtain ⟨b, -, -, hbp, s₁, hrun, h₁, -⟩ := h.dfree_block hp
    rw [List.nodup_cons] at hnd
    -- the other pointers stay live
    have hlive' : ∀ q ∈ ps, ∃ sq, (q, sq) ∈ live.erase (p, sz) := fun q hq => by
      obtain ⟨sq, hsq⟩ := hlive q (List.mem_cons_of_mem _ hq)
      have hne : (q, sq) ≠ (p, sz) := fun e => hnd.1 ((Prod.mk.inj e).1 ▸ hq)
      exact ⟨sq, (List.mem_erase_of_ne hne).mpr hsq⟩
    obtain ⟨s', bs', hrun', hholds, hinv, hused⟩ := ih h₁ hnd.2 hlive'
    have hrun₂ : dfreeAll s (p :: ps) = some (.ok s') := by
      simp only [dfreeAll, Interleave.run, hrun, Option.bind_some]
      exact hrun'
    refine ⟨s', bs', hrun₂, hholds, hinv, ?_⟩
    rw [hused, usedBlocks_freeList h.holds.nodup, List.filter_filter]
    refine List.filter_congr fun c _ => ?_
    by_cases hc : c.addr = b.addr
    · simp [hc, ← hbp]
    · have hcp : c.addr + headerSize ≠ p := fun e => hc (by omega)
      simp [hc, hcp]

/-- **Frees commute.** In every state a run reaches, freeing distinct live allocations in two
orders that are permutations of each other never panics, and leaves heaps that hold the same
block list: the heap depends on the set freed, not on the order. -/
theorem dfree_order_irrelevant {σ : AllocState} (hσ : Reachable σ) {ps qs : List ℕ}
    (hnd : ps.Nodup) (hperm : ps.Perm qs) (hlive : ∀ p ∈ ps, ∃ sz, (p, sz) ∈ σ.live) :
    ∃ s s' bs, dfreeAll σ.heap ps = some (.ok s) ∧ dfreeAll σ.heap qs = some (.ok s') ∧
      Holds s bs ∧ Holds s' bs := by
  obtain ⟨bs, h⟩ := hσ.runInv
  obtain ⟨s, bs₁, hrun, hh, hinv, hu⟩ := h.dfreeAll_ok hnd hlive
  obtain ⟨s', bs₂, hrun', hh', hinv', hu'⟩ :=
    h.dfreeAll_ok (hperm.nodup_iff.mp hnd) fun q hq => hlive q (hperm.mem_iff.mpr hq)
  -- both orders free the same blocks, and a heap of the invariant is fixed by the rest
  have heq : bs₁ = bs₂ := by
    refine eq_of_usedBlocks_eq hinv.tiles hinv'.tiles hinv.noFreePair hinv'.noFreePair ?_
    rw [hu, hu']
    exact List.filter_congr fun c _ => by simp [hperm.mem_iff]
  exact ⟨s, s', bs₁, hrun, hrun', hh, heq ▸ hh'⟩

/-- A run with two allocations live: `dalloc(100)`, then `dalloc(200)`, after `dinit`. -/
def twoAllocs : AllocState :=
  ⟨⟨heapBase, allocAt firstAllocHeap.mem (heapBase + 128) 200 (align (200 + headerSize.toUInt32))⟩,
    [(heapBase + 144, 200), (heapBase + headerSize, 100)]⟩

theorem twoAllocs_reachable : Reachable twoAllocs := by
  have h₁ : Reachable ⟨firstAllocHeap, afterAlloc [] (heapBase + headerSize) 100⟩ :=
    .alloc (.init zeroMem) (by decide) rfl
  have h₂ : Reachable ⟨⟨heapBase, allocAt firstAllocHeap.mem (heapBase + 128) 200
      (align (200 + headerSize.toUInt32))⟩,
      afterAlloc (afterAlloc [] (heapBase + headerSize) 100) (heapBase + 144) 200⟩ :=
    .alloc h₁ (by decide) rfl
  exact h₂

theorem dfree_order_irrelevant_two :
    Reachable twoAllocs ∧ [heapBase + headerSize, heapBase + 144].Nodup ∧
      [heapBase + headerSize, heapBase + 144].Perm [heapBase + 144, heapBase + headerSize] ∧
      (∀ p ∈ [heapBase + headerSize, heapBase + 144], ∃ sz, (p, sz) ∈ twoAllocs.live) ∧
      ∃ s s' bs, dfreeAll twoAllocs.heap [heapBase + headerSize, heapBase + 144] = some (.ok s) ∧
        dfreeAll twoAllocs.heap [heapBase + 144, heapBase + headerSize] = some (.ok s') ∧
        Holds s bs ∧ Holds s' bs := by
  have hnd : [heapBase + headerSize, heapBase + 144].Nodup := by decide
  have hperm : [heapBase + headerSize, heapBase + 144].Perm
      [heapBase + 144, heapBase + headerSize] := List.Perm.swap _ _ _
  have hlive : ∀ p ∈ [heapBase + headerSize, heapBase + 144], ∃ sz, (p, sz) ∈ twoAllocs.live := by
    intro p hp
    simp only [List.mem_cons, List.not_mem_nil, or_false] at hp
    rcases hp with rfl | rfl
    · exact ⟨100, by decide⟩
    · exact ⟨200, by decide⟩
  exact ⟨twoAllocs_reachable, hnd, hperm, hlive,
    dfree_order_irrelevant twoAllocs_reachable hnd hperm hlive⟩

end Xv6Lab.Dalloc
