import Xv6Lab.Vm.Map

/-!
# `uvmunmap` on a page-table tree

`kfree` of a page that is not free pushes it on the free list in memory and writes only that
page (`FreeList.kfree`). `uvmunmap(pagetable, va, npages, do_free)` walks to each of its pages
without allocation and clears the leaf PTE, after freeing the page it maps when `do_free` is
set. On a tree in which every page of the range is mapped by a leaf, with distinct pages
that are neither free nor pages of the tree when they are to be freed, it never panics:
it clears exactly those leaves and puts exactly those pages on the free list
(`uvmunmap_spec`).
-/

namespace Xv6Lab.Vm

open Kalloc ByteMap ListSeg

variable {kend : UInt64}

/-- The physical page a PTE points at. -/
def target (pte : UInt64) : ℕ := (pte2pa pte).toNat

/-- The head of a free list is `0` or one of its pages, so it fits in a word. -/
theorem FreeList.freelist_lt {pm : PhysMem} {fl : List ℕ} (h : FreeList kend pm fl) :
    pm.freelist < 2 ^ 64 := by
  rcases h.seg.head_cases with ⟨h0, -⟩ | ⟨-, t, rfl⟩
  · rw [h0]
    norm_num
  · exact (h.page _ List.mem_cons_self).toNat_lt

/-- **`kfree` of a page that is not free** pushes it on the free list and writes only it. -/
theorem FreeList.kfree {pm : PhysMem} {fl : List ℕ} {p : ℕ} (h : FreeList kend pm fl)
    (hp : Page kend p) (hpf : p ∉ fl) :
    ∃ pm', pm.kfree kend p = .ok pm' ∧ FreeList kend pm' (p :: fl) ∧ Same (· = p) pm pm' := by
  have hbad : ¬ (p % Kalloc.pgsize ≠ 0 ∨ p < kend.toNat ∨ p ≥ Dalloc.phystop) := by
    have hb := hp.below_heap
    have hheap : Dalloc.heapSize ≤ Dalloc.phystop := by decide
    have hpg : Kalloc.pgsize = 4096 := rfl
    simp only [ne_eq, not_or, not_not, not_le, not_lt]
    exact ⟨hp.aligned, hp.above_end, by omega⟩
  have hsame : Same (· = p) pm
      { (pm.fill p 1 Kalloc.pgsize).store p pm.freelist.toUInt64 with freelist := p } := by
    have hs := (same_fill pm hp.aligned' 1).trans (same_store (pm.fill p 1 4096)
      (a := p) (by have := hp.aligned'; omega) pm.freelist.toUInt64)
    rw [show pageOf p = p by have := hp.aligned'; unfold pageOf; omega] at hs
    exact hs.mono fun q hq => hq.elim id id
  refine ⟨{ (pm.fill p 1 Kalloc.pgsize).store p pm.freelist.toUInt64 with freelist := p },
    by rw [PhysMem.kfree, if_neg hbad]; rfl, ⟨?_, ?_⟩, hsame⟩
  · -- the new head links to the old one
    refine Path.cons hp.ne_zero ?_
    show Path id 0 _ (getLE (setLE (ByteMap.fill pm.bytes p 1 4096) p 8 pm.freelist.toUInt64.toNat)
      p 8) fl 0
    rw [getLE_setLE_self, Nat.toUInt64_eq, UInt64.toNat_ofNat',
      Nat.mod_mod_of_dvd _ (by norm_num), Nat.mod_eq_of_lt (by simpa using h.freelist_lt)]
    exact seg_frame h.seg (fun q hq => (h.page q hq).aligned') hsame fun q hq he => hpf (he ▸ hq)
  · intro q hq
    rcases List.mem_cons.mp hq with rfl | hq
    · exact hp
    · exact h.page q hq

/-- The page a leaf maps, when `uvmunmap` is to free it, goes on the free list. -/
theorem FreeList.kfree_if {pm : PhysMem} {fl : List ℕ} {p : ℕ} (doFree : Bool)
    (h : FreeList kend pm fl) (hp : doFree → Page kend p) (hpf : doFree → p ∉ fl) :
    ∃ pm', (if doFree then pm.kfree kend p else .ok pm) = .ok pm' ∧
      FreeList kend pm' ((if doFree then [p] else []) ++ fl) ∧
      Same (fun q => doFree ∧ q = p) pm pm' := by
  cases doFree with
  | false => exact ⟨pm, rfl, h, Same.refl _ pm⟩
  | true =>
    obtain ⟨pm', hk, hf, hs⟩ := h.kfree (hp rfl) (hpf rfl)
    exact ⟨pm', hk, hf, hs.mono fun q hq => ⟨rfl, hq⟩⟩

/-! ### The loop of `uvmunmap` -/

/-- A page that is not a page of the tree, pushed on the free list, keeps the two apart. -/
theorem Apart.push_if {tab : Slot → ℕ} {fl : List ℕ} (hap : Apart tab fl) {t : ℕ} (doFree : Bool)
    (ht : doFree → ¬ IsTable tab t) : Apart tab ((if doFree then [t] else []) ++ fl) :=
  fun s hs hm => by
    rcases List.mem_append.mp hm with hm | hm
    · cases doFree with
      | false => simp at hm
      | true => exact ht rfl ⟨s, hs, List.mem_singleton.mp hm⟩
    · exact hap s hs hm

/-- Below `MAXVA` the leaf of an address is the leaf of its page. -/
theorem leaf_congr_vpn (pm : PhysMem) (tab : Slot → ℕ) {va va' : UInt64} (h : va < maxva)
    (h' : va' < maxva) (hv : vpn va' = vpn va) : leaf pm tab va' = leaf pm tab va := by
  obtain ⟨hs, h0⟩ := (leafSlot_eq_iff h h').mpr hv
  unfold leaf
  rw [hs, h0]

/-- **One pass of `uvmunmap`** at a page mapped by a leaf: the page is freed if asked, its
leaf cleared, and the loop goes on at the next page. -/
theorem uvmunmapLoop_succ {pm : PhysMem} {tab : Slot → ℕ} {fl : List ℕ} {doFree : Bool}
    {stop a : UInt64} (n : ℕ) (h : Tree kend pm tab) (hf : FreeList kend pm fl) (hap : Apart tab fl)
    (hstop : a < stop) (hmax : a < maxva) (hv : leaf pm tab a &&& pteV ≠ 0)
    (hflag : pteFlags (leaf pm tab a) ≠ pteV)
    (hdata : doFree → Page kend (target (leaf pm tab a)) ∧ target (leaf pm tab a) ∉ fl ∧
      ¬ IsTable tab (target (leaf pm tab a))) :
    ∃ pm₂, uvmunmapLoop kend (tab .root) doFree stop (n + 1) pm a =
        uvmunmapLoop kend (tab .root) doFree stop n pm₂ (a + pgsize) ∧
      Tree kend pm₂ tab ∧
      FreeList kend pm₂ ((if doFree then [target (leaf pm tab a)] else []) ++ fl) ∧
      Same (fun q => IsTable tab q ∨ (doFree ∧ q = target (leaf pm tab a))) pm pm₂ ∧
      ∀ va, va < maxva → leaf pm₂ tab va = if vpn va = vpn a then 0 else leaf pm tab va := by
  -- a mapped page has a level-0 page above it
  have hl : tab (leafSlot a) ≠ 0 := fun hl => hv (by rw [leaf, if_pos hl]; rfl)
  have hw : tab (leafSlot a) + 8 * px 0 a ≠ 0 := by omega
  have hload : pm.load (tab (leafSlot a) + 8 * px 0 a) = leaf pm tab a := (leaf_eq_load hl).symm
  obtain ⟨pm₁, hk, hf₁, hs₁⟩ := hf.kfree_if doFree (fun hd => (hdata hd).1) (fun hd => (hdata hd).2.1)
  have hnot : ∀ s, tab s ≠ 0 → ¬ (doFree ∧ tab s = target (leaf pm tab a)) :=
    fun s hs hd => (hdata hd.1).2.2 ⟨s, hs, hd.2⟩
  have h₁ := h.frame hs₁ (hnot _ h.root) fun i hi => hnot _ hi
  have hap₁ := hap.push_if doFree fun hd => (hdata hd).2.2
  have hleaf₁ := leaf_frame h hs₁ hnot
  have hk₂ := Kept.store h₁ hf₁ hap₁ hl 0
  refine ⟨pm₁.store (tab (leafSlot a) + 8 * px 0 a) 0, ?_, hk₂.tree, hk₂.free,
    (hs₁.trans hk₂.same).mono fun q hq => hq.elim .inr .inl, fun va hva => ?_⟩
  · rw [uvmunmapLoop, if_pos hstop, walk_of_lt false hmax]
    dsimp only
    rw [h.walkFrom_false, if_neg hl, if_neg hw, hload, if_neg hv, if_neg hflag]
    dsimp only
    rw [show (pte2pa (leaf pm tab a)).toNat = target (leaf pm tab a) from rfl, hk]
  · rw [leaf_store_vpn h₁ hl hmax 0 hva, hleaf₁]

/-- **The loop of `uvmunmap`** over `k` pages from `a`, each mapped by a leaf, and, when they
are to be freed, mapping distinct pages that are neither free nor pages of the tree: it
clears exactly those leaves and puts exactly those pages on the free list. -/
theorem uvmunmapLoop_spec {tab : Slot → ℕ} {doFree : Bool} {stop : UInt64}
    (hstop : stop.toNat ≤ 2 ^ 38) :
    ∀ (k n : ℕ) (pm : PhysMem) (fl : List ℕ) (a : UInt64),
      Tree kend pm tab → FreeList kend pm fl → Apart tab fl → a.toNat % 4096 = 0 →
      a.toNat + 4096 * k = stop.toNat → k ≤ n →
      (∀ va, va < maxva → vpn a ≤ vpn va → vpn va < vpn a + k →
        leaf pm tab va &&& pteV ≠ 0 ∧ pteFlags (leaf pm tab va) ≠ pteV) →
      (doFree → ∀ va, va < maxva → vpn a ≤ vpn va → vpn va < vpn a + k →
        Page kend (target (leaf pm tab va)) ∧ target (leaf pm tab va) ∉ fl ∧
        ¬ IsTable tab (target (leaf pm tab va))) →
      (doFree → ∀ va va', va < maxva → va' < maxva → vpn a ≤ vpn va → vpn va < vpn a + k →
        vpn a ≤ vpn va' → vpn va' < vpn a + k →
        target (leaf pm tab va) = target (leaf pm tab va') → vpn va = vpn va') →
      ∃ pm' freed, uvmunmapLoop kend (tab .root) doFree stop n pm a = .ok pm' ∧
        Tree kend pm' tab ∧ FreeList kend pm' (freed ++ fl) ∧
        (∀ q, q ∈ freed ↔ doFree ∧ ∃ va, va < maxva ∧ vpn a ≤ vpn va ∧ vpn va < vpn a + k ∧
          q = target (leaf pm tab va)) ∧
        Same (fun q => IsTable tab q ∨ q ∈ freed) pm pm' ∧
        ∀ va, va < maxva →
          leaf pm' tab va = if vpn a ≤ vpn va ∧ vpn va < vpn a + k then 0 else leaf pm tab va
  | 0, n, pm, fl, a, h, hf, _, _, hk, _, _, _, _ => by
    have has : a = stop := UInt64.toNat_inj.mp (by omega)
    refine ⟨pm, [], ?_, h, hf, fun q => ?_, Same.refl _ pm,
      fun va _ => by rw [if_neg (by omega)]⟩
    · cases n with
      | zero => rfl
      | succ n => rw [uvmunmapLoop, if_neg (has ▸ UInt64.lt_irrefl a)]
    · constructor
      · intro hq
        simp at hq
      · rintro ⟨-, va, -, h₁, h₂, -⟩
        omega
  | k + 1, n, pm, fl, a, h, hf, hap, hal, hk, hn, hmap, hdata, hinj => by
    obtain ⟨n, rfl⟩ : ∃ n', n = n' + 1 := ⟨n - 1, by omega⟩
    have hmax : a < maxva := UInt64.lt_iff_toNat_lt.mpr (by rw [maxva_toNat]; omega)
    have hnext := vpn_add_pgsize hmax
    obtain ⟨hv, hflag⟩ := hmap a hmax le_rfl (by omega)
    have hlt : a < stop := UInt64.lt_iff_toNat_lt.mpr (by omega)
    obtain ⟨pm₂, heq, h₂, hf₂, hs₂, hleaf₂⟩ := uvmunmapLoop_succ n h hf hap hlt hmax hv hflag
      (fun hd => hdata hd a hmax le_rfl (by omega))
    -- the later pages read as before the first pass
    have hlater : ∀ va, va < maxva → vpn (a + pgsize) ≤ vpn va → leaf pm₂ tab va = leaf pm tab va :=
      fun va hva h₁ => by rw [hleaf₂ va hva, if_neg (by omega)]
    obtain ⟨pm', freed, heq', h', hf', hmem, hs', hleaf'⟩ :=
      uvmunmapLoop_spec hstop k n pm₂ _ (a + pgsize) h₂ hf₂
        (hap.push_if doFree fun hd => (hdata hd a hmax le_rfl (by omega)).2.2)
        (by rw [toNat_add_pgsize hmax]; omega) (by rw [toNat_add_pgsize hmax]; omega) (by omega)
        (fun va hva h₁ h₂ => by
          rw [hlater va hva h₁]
          exact hmap va hva (by omega) (by omega))
        (fun hd va hva h₁ h₂ => by
          rw [hlater va hva h₁]
          obtain ⟨hp, hfl, ht⟩ := hdata hd va hva (by omega) (by omega)
          refine ⟨hp, fun hm => ?_, ht⟩
          rw [hd, if_pos rfl, List.singleton_append] at hm
          rcases List.mem_cons.mp hm with he | hm
          · have := hinj hd va a hva hmax (by omega) (by omega) le_rfl (by omega) he
            omega
          · exact hfl hm)
        (fun hd va va' hva hva' h₁ h₂ h₁' h₂' he => by
          rw [hlater va hva h₁, hlater va' hva' h₁'] at he
          exact hinj hd va va' hva hva' (by omega) (by omega) (by omega) (by omega) he)
    refine ⟨pm', freed ++ (if doFree then [target (leaf pm tab a)] else []), by rw [heq]; exact heq',
      h', by rw [List.append_assoc]; exact hf', fun q => ?_,
      (hs₂.trans hs').mono fun q hq => ?_, fun va hva => ?_⟩
    · rw [List.mem_append, hmem q]
      constructor
      · rintro (⟨hd, va, hva, h₁, h₂, rfl⟩ | hq)
        · exact ⟨hd, va, hva, by omega, by omega, by rw [hlater va hva h₁]⟩
        · cases doFree with
          | false => simp at hq
          | true => exact ⟨rfl, a, hmax, le_rfl, by omega, List.mem_singleton.mp hq⟩
      · rintro ⟨hd, va, hva, h₁, h₂, rfl⟩
        by_cases hva' : vpn va = vpn a
        · right
          rw [hd, if_pos rfl, leaf_congr_vpn pm tab hmax hva hva']
          exact List.mem_singleton_self _
        · exact .inl ⟨hd, va, hva, by omega, by omega, by rw [hlater va hva (by omega)]⟩
    · rcases hq with (hq | ⟨hd, rfl⟩) | (hq | hq)
      · exact .inl hq
      · exact .inr (List.mem_append_right _ (by rw [hd, if_pos rfl]; exact List.mem_singleton_self _))
      · exact .inl hq
      · exact .inr (List.mem_append_left _ hq)
    · rw [hleaf' va hva, hleaf₂ va hva]
      by_cases hva' : vpn va = vpn a
      · rw [if_neg (by omega), if_pos hva', if_pos (by omega)]
      · by_cases hin : vpn (a + pgsize) ≤ vpn va ∧ vpn va < vpn (a + pgsize) + k
        · rw [if_pos hin, if_pos (by omega)]
        · rw [if_neg hin, if_neg hva', if_neg (by omega)]

/-- `va + npages * PGSIZE` for a range below `MAXVA`. -/
theorem toNat_stop {va npages : UInt64} (h : va.toNat + 4096 * npages.toNat ≤ 2 ^ 38) :
    (va + npages * pgsize).toNat = va.toNat + 4096 * npages.toNat := by
  have hn : npages.toNat * 4096 < 2 ^ 64 := by omega
  rw [UInt64.toNat_add, UInt64.toNat_mul, show pgsize.toNat = 4096 from rfl, Nat.mod_eq_of_lt hn,
    Nat.mod_eq_of_lt (by omega)]
  omega

/-- **`uvmunmap(pagetable, va, npages, do_free)` on a tree** whose pages in the range are
mapped by leaves, which map distinct pages that are neither free nor pages of the tree when
they are to be freed: it never panics, clears exactly those leaves, and puts exactly those
pages on the free list when `do_free` is set. -/
theorem uvmunmap_spec {pm : PhysMem} {tab : Slot → ℕ} {fl : List ℕ} (h : Tree kend pm tab)
    (hf : FreeList kend pm fl) (hap : Apart tab fl) (va npages : UInt64) (doFree : Bool)
    (hal : va.toNat % 4096 = 0) (hrange : va.toNat + 4096 * npages.toNat ≤ 2 ^ 38)
    (hmap : ∀ va', va' < maxva → vpn va ≤ vpn va' → vpn va' < vpn va + npages.toNat →
      leaf pm tab va' &&& pteV ≠ 0 ∧ pteFlags (leaf pm tab va') ≠ pteV)
    (hdata : doFree → ∀ va', va' < maxva → vpn va ≤ vpn va' → vpn va' < vpn va + npages.toNat →
      Page kend (target (leaf pm tab va')) ∧ target (leaf pm tab va') ∉ fl ∧
      ¬ IsTable tab (target (leaf pm tab va')))
    (hinj : doFree → ∀ va' va'', va' < maxva → va'' < maxva → vpn va ≤ vpn va' →
      vpn va' < vpn va + npages.toNat → vpn va ≤ vpn va'' → vpn va'' < vpn va + npages.toNat →
      target (leaf pm tab va') = target (leaf pm tab va'') → vpn va' = vpn va'') :
    ∃ pm' freed, uvmunmap kend pm (tab .root) va npages doFree = .ok pm' ∧
      Tree kend pm' tab ∧ FreeList kend pm' (freed ++ fl) ∧
      (∀ q, q ∈ freed ↔ doFree ∧ ∃ va', va' < maxva ∧ vpn va ≤ vpn va' ∧
        vpn va' < vpn va + npages.toNat ∧ q = target (leaf pm tab va')) ∧
      Same (fun q => IsTable tab q ∨ q ∈ freed) pm pm' ∧
      ∀ va', va' < maxva → leaf pm' tab va' =
        if vpn va ≤ vpn va' ∧ vpn va' < vpn va + npages.toNat then 0 else leaf pm tab va' := by
  have hstop := toNat_stop hrange
  obtain ⟨pm', freed, heq, hrest⟩ := uvmunmapLoop_spec (by omega) npages.toNat npages.toNat pm fl
    va h hf hap hal hstop.symm le_rfl hmap hdata hinj
  refine ⟨pm', freed, ?_, hrest⟩
  have hal' : va % pgsize = 0 := UInt64.toNat_inj.mp (by rw [UInt64.toNat_mod]; exact hal)
  rw [uvmunmap, if_neg (not_not.mpr hal')]
  exact heq

end Xv6Lab.Vm
