import Xv6Lab.Vm.Space
import Xv6Lab.Vm.Copy

/-!
# Growing and shrinking user memory: `uvmalloc` and `uvmdealloc`

The user part of the address space of a process of size `sz` (`AddrSpace`) is a tree in
which every page is owned once (`Space`), every page below `PGROUNDUP(sz)` is mapped by a
leaf to a page of RAM, and no page from there up to `TRAPFRAME` is mapped.

`uvmdealloc(pagetable, oldsz, newsz)` unmaps and frees the pages from `PGROUNDUP(newsz)` to
`PGROUNDUP(oldsz)` and returns `newsz` (`uvmdealloc_spec`); its page count goes through an
`int`, which holds every count below `TRAPFRAME`.

`uvmalloc(pagetable, oldsz, newsz, xperm)` maps a zeroed page from `kalloc` at each page from
`PGROUNDUP(oldsz)` while below `newsz`. Its loop keeps `Growing`: the pages mapped so far hold
zeroed pages that were free, every other leaf is as it was, and every page taken from the
free list is free again, a page of the tree, or one of those pages. A failure, of `kalloc` or
of `mappages`, gives back the page of the pass and calls `uvmdealloc` from the current page
down to `PGROUNDUP(oldsz)`, which from `Growing` frees exactly the pages mapped so far
(`Growing.rollback`): the mapping is as before and only pages of the tree stay taken
(`RolledBack`). `uvmalloc_spec` puts the loop together.

The flags `PTE_R | PTE_U | xperm` must fit below bit 10: a wider `xperm` runs into the page
number of the PTE, and `uvmalloc_wide_xperm_maps_root` shows a page mapped that way landing on
the root page of the table.
-/

namespace Xv6Lab.Vm

open Kalloc ByteMap

variable {kend : UInt64}

/-! ### The address space of a process -/

section AddrSpace

variable (kend)

/-- The user part of the address space of a process of size `sz`: every page owned once,
every page below `PGROUNDUP(sz)` mapped by a leaf to a page of RAM, and no page from
`PGROUNDUP(sz)` up to `TRAPFRAME` mapped. -/
structure AddrSpace (pm : PhysMem) (tab : Slot → ℕ) (fl : List ℕ) (sz : UInt64) : Prop
    extends Space kend pm tab fl where
  sz_le : sz ≤ trapframe
  user : ∀ va, va < maxva → vpn va < vpn (pgroundup sz) → DataLeaf kend (leaf pm tab va)
  unmapped : ∀ va, va < trapframe → vpn (pgroundup sz) ≤ vpn va → leaf pm tab va &&& pteV = 0

end AddrSpace

/-- The mapping the leaves give: the PTE of each page below `MAXVA` that is valid. -/
def mapping (l : UInt64 → UInt64) (va : UInt64) : Option UInt64 :=
  if va < maxva ∧ l va &&& pteV ≠ 0 then some (l va) else none

/-- A page all of whose bytes are zero. -/
def Zeroed (pm : PhysMem) (p : ℕ) : Prop := ∀ x, pageOf x = p → pm.bytes x = 0

variable {pm pm' : PhysMem} {tab tab' : Slot → ℕ} {fl fl' : List ℕ}

theorem trapframe_toNat : trapframe.toNat = 2 ^ 38 - 8192 := by decide

/-- A page below a page boundary `b ≤ TRAPFRAME` lies below `TRAPFRAME`. -/
theorem lt_trapframe_of_vpn {va b : UInt64} (hb : b ≤ trapframe) (h : vpn va < vpn b) :
    va < trapframe := by
  have hb' := UInt64.le_iff_toNat_le.mp hb
  rw [trapframe_toNat] at hb'
  rw [UInt64.lt_iff_toNat_lt, trapframe_toNat]
  unfold vpn at h
  omega

theorem lt_maxva_of_lt_trapframe {va : UInt64} (h : va < trapframe) : va < maxva := by
  have h' := UInt64.lt_iff_toNat_lt.mp h
  rw [trapframe_toNat] at h'
  rw [UInt64.lt_iff_toNat_lt, maxva_toNat]
  omega

/-- `PGROUNDUP` is monotone up to `TRAPFRAME`. -/
theorem vpn_pgroundup_le {a b : UInt64} (hab : a ≤ b) (hb : b ≤ trapframe) :
    vpn (pgroundup a) ≤ vpn (pgroundup b) := by
  have ha : a ≤ trapframe := UInt64.le_iff_toNat_le.mpr
    (le_trans (UInt64.le_iff_toNat_le.mp hab) (UInt64.le_iff_toNat_le.mp hb))
  rw [vpn_pgroundup_of_le ha, vpn_pgroundup_of_le hb]
  exact Nat.div_le_div_right (by have := UInt64.le_iff_toNat_le.mp hab; omega)

/-- A page boundary is its own `PGROUNDUP`. -/
theorem vpn_pgroundup_of_aligned {a : UInt64} (ha : a.toNat % 4096 = 0) (h : a ≤ trapframe) :
    vpn (pgroundup a) = vpn a := by
  rw [vpn_pgroundup_of_le h, vpn]
  omega

/-! ### Zeroed pages and the mapping -/

theorem Zeroed.frame {P : ℕ → Prop} {p : ℕ} (hz : Zeroed pm p) (hs : Same P pm pm') (hp : ¬ P p) :
    Zeroed pm' p := fun x hx => (hs x (by rw [hx]; exact hp)).trans (hz x hx)

theorem zeroed_fill (pm : PhysMem) {p : ℕ} (hp : p % 4096 = 0) : Zeroed (pm.fill p 0 4096) p :=
  fun x hx => by
    unfold pageOf at hx
    show ByteMap.fill pm.bytes p 0 4096 x = 0
    exact if_pos ⟨by omega, by omega⟩

/-- Two leaf functions that agree below `MAXVA` wherever one of them is valid give one
mapping. -/
theorem mapping_eq {l l' : UInt64 → UInt64}
    (h : ∀ va, va < maxva → l' va = l va ∨ (l' va &&& pteV = 0 ∧ l va &&& pteV = 0)) :
    mapping l' = mapping l := by
  funext va
  unfold mapping
  by_cases hva : va < maxva
  · rcases h va hva with he | ⟨h₁, h₂⟩
    · rw [he]
    · rw [if_neg fun hc => hc.2 h₁, if_neg fun hc => hc.2 h₂]
  · rw [if_neg fun hc => hva hc.1, if_neg fun hc => hva hc.1]

/-- One mapping: a leaf valid in one is the same leaf in the other. -/
theorem leaf_eq_of_mapping {l l' : UInt64 → UInt64} (h : mapping l' = mapping l) {va : UInt64}
    (hva : va < maxva) (hv : l va &&& pteV ≠ 0) : l' va = l va := by
  have e := congrFun h va
  unfold mapping at e
  rw [if_pos (show va < maxva ∧ l va &&& pteV ≠ 0 from ⟨hva, hv⟩)] at e
  by_cases hv' : l' va &&& pteV = 0
  · rw [if_neg fun hc => hc.2 hv'] at e
    exact absurd e (by simp)
  · rw [if_pos ⟨hva, hv'⟩] at e
    exact Option.some.inj e

/-- One mapping: a leaf invalid in one is invalid in the other. -/
theorem invalid_of_mapping {l l' : UInt64 → UInt64} (h : mapping l' = mapping l) {va : UInt64}
    (hva : va < maxva) (hv : l va &&& pteV = 0) : l' va &&& pteV = 0 := by
  by_contra hv'
  have e := leaf_eq_of_mapping h.symm hva hv'
  rw [e] at hv
  exact hv' hv

/-- Every page still owned once and the mapping as before: the same address space. -/
theorem AddrSpace.of_mapping {sz : UInt64} (h : AddrSpace kend pm tab fl sz)
    (hs : Space kend pm' tab' fl') (hm : mapping (leaf pm' tab') = mapping (leaf pm tab)) :
    AddrSpace kend pm' tab' fl' sz where
  toSpace := hs
  sz_le := h.sz_le
  user va hva hv := by
    rw [leaf_eq_of_mapping hm hva (h.user va hva hv).1]
    exact h.user va hva hv
  unmapped va hva hv := invalid_of_mapping hm (lt_maxva_of_lt_trapframe hva) (h.unmapped va hva hv)

/-! ### `uvmcreate` -/

/-- The tree of `uvmcreate`: a root page and nothing below it. -/
def bareTree (root : ℕ) : Slot → ℕ := fun s => if s = .root then root else 0

/-- A word of a zeroed page reads `0`. -/
theorem Zeroed.load {p a : ℕ} (hz : Zeroed pm p) (ha : a % 8 = 0) (hpa : pageOf a = p) :
    pm.load a = 0 := by
  have hb : getLE pm.bytes a 8 = getLE (fun _ => 0) a 8 :=
    getLE_congr _ fun t ht => hz (a + t) (by rw [pageOf_word ha ht, hpa])
  rw [PhysMem.load, hb, getLE_zero]
  rfl

theorem uvmcreate_eq {p : ℕ} {t : List ℕ} (hf : FreeList kend pm (p :: t)) :
    uvmcreate pm = (pm.kalloc.1.fill p 0 4096, p) := by
  rcases hf.kalloc with ⟨hnil, -⟩ | ⟨q, t', he, hk, -, -⟩
  · exact absurd hnil (List.cons_ne_nil p t)
  obtain ⟨rfl, -⟩ := List.cons.inj he
  obtain ⟨n, hn⟩ := Nat.exists_eq_succ_of_ne_zero (hf.page p List.mem_cons_self).ne_zero
  have hk' : pm.kalloc = (pm.kalloc.1, n + 1) := Prod.ext rfl (hk.trans hn)
  rw [uvmcreate, hk', hn]
  rfl

/-- **`uvmcreate()`** takes the first free page, zeroed, as the root of an empty tree: the
address space of size `0`. -/
theorem uvmcreate_addrSpace {p : ℕ} {t : List ℕ} (hf : FreeList kend pm (p :: t)) :
    AddrSpace kend (pm.kalloc.1.fill p 0 4096) (bareTree p) t 0 := by
  rcases hf.kalloc with ⟨hnil, -⟩ | ⟨q, t', he, -, hf₁, -⟩
  · exact absurd hnil (List.cons_ne_nil p t)
  obtain ⟨rfl, rfl⟩ := List.cons.inj he
  have hp := hf.page p List.mem_cons_self
  have hqt : p ∉ t := (List.nodup_cons.mp hf.seg.nodup).1
  have hz := zeroed_fill pm.kalloc.1 hp.aligned'
  have hroot : bareTree p .root = p := if_pos rfl
  -- every slot but the root is empty
  have hslot : ∀ s, bareTree p s ≠ 0 → s = .root := fun s hs => by
    by_contra hne
    exact hs (if_neg hne)
  have hleaf : ∀ va, leaf (pm.kalloc.1.fill p 0 4096) (bareTree p) va = 0 := fun va =>
    if_pos (if_neg fun h => by cases h)
  have htree : Tree kend (pm.kalloc.1.fill p 0 4096) (bareTree p) := by
    refine ⟨by rw [hroot]; exact hp.ne_zero, fun s s' hs he => ?_, fun s hs => ?_,
      fun i j hl => absurd (hslot _ hl) (by simp), fun i => ?_,
      fun i j hm => absurd (hslot _ hm) (by simp)⟩
    · have h₁ := hslot s hs
      subst h₁
      exact (hslot s' (by rw [← he]; exact hs)).symm
    · rw [hslot s hs, hroot]
      exact hp
    · rw [hroot, show bareTree p (.mid i) = 0 from if_neg (by simp), entry_zero]
      exact hz.load (by have := hp.aligned'; omega) (pageOf_entry hp.aligned' i.isLt)
  have hfree : FreeList kend (pm.kalloc.1.fill p 0 4096) t :=
    hf₁.frame (same_fill _ hp.aligned' 0) rfl fun r hr he => hqt (he ▸ hr)
  refine ⟨⟨htree, hfree, fun s hs hm => ?_, fun va _ hv => ?_, fun va _ _ _ hv => ?_⟩,
    UInt64.le_iff_toNat_le.mpr (by decide), fun va _ hv => ?_, fun va _ _ => ?_⟩
  · rw [hslot s hs, hroot] at hm
    exact hqt hm
  · exact absurd (by rw [hleaf va]; exact UInt64.zero_and) hv
  · exact absurd (by rw [hleaf va]; exact UInt64.zero_and) hv
  · exact absurd hv (by rw [show vpn (pgroundup 0) = 0 by decide]; omega)
  · rw [hleaf va]
    exact UInt64.zero_and

/-! ### `uvmdealloc` -/

/-- A count below `2^31` goes through an `int` and back unchanged. -/
theorem toUInt64_toInt64_toInt32 {x : UInt64} (h : x.toNat < 2 ^ 31) :
    x.toUInt32.toInt32.toInt64.toUInt64 = x := by
  apply UInt64.toBitVec_inj.mp
  simp only [Int64.toBitVec_toUInt64, Int32.toBitVec_toInt64, UInt32.toBitVec_toInt32,
    UInt64.toBitVec_toUInt32]
  have hx : x.toBitVec.toNat < 2 ^ 31 := h
  rw [BitVec.signExtend_eq_setWidth_of_msb_false
    (BitVec.msb_eq_false_iff_two_mul_lt.mpr (by simp; omega))]
  bv_omega

/-- **`uvmdealloc(pagetable, oldsz, newsz)`** with `newsz < oldsz ≤ TRAPFRAME`, the pages from
`PGROUNDUP(newsz)` to `PGROUNDUP(oldsz)` mapped by leaves to pages of RAM: it returns `newsz`
after `uvmunmap` with `do_free` of exactly those pages. -/
theorem uvmdealloc_spec {oldsz newsz : UInt64} (h : Space kend pm tab fl) (hlt : newsz < oldsz)
    (hold : oldsz ≤ trapframe)
    (huser : ∀ va, va < maxva → vpn (pgroundup newsz) ≤ vpn va → vpn va < vpn (pgroundup oldsz) →
      DataLeaf kend (leaf pm tab va)) :
    ∃ pm' freed, uvmdealloc kend pm (tab .root) oldsz newsz = .ok (pm', newsz) ∧
      Space kend pm' tab (freed ++ fl) ∧
      (∀ q, q ∈ freed ↔ ∃ va, va < maxva ∧ vpn (pgroundup newsz) ≤ vpn va ∧
        vpn va < vpn (pgroundup oldsz) ∧ q = target (leaf pm tab va)) ∧
      ∀ va, va < maxva → leaf pm' tab va =
        if vpn (pgroundup newsz) ≤ vpn va ∧ vpn va < vpn (pgroundup oldsz) then 0
        else leaf pm tab va := by
  have hlt' := UInt64.lt_iff_toNat_lt.mp hlt
  have hold' := UInt64.le_iff_toNat_le.mp hold
  have hnew : newsz ≤ trapframe := UInt64.le_iff_toNat_le.mpr (by omega)
  have ho := toNat_pgroundup_of_le hold
  have hn := toNat_pgroundup_of_le hnew
  have hvo := vpn_pgroundup_of_le hold
  have hvn := vpn_pgroundup_of_le hnew
  rw [trapframe_toNat] at hold'
  rw [uvmdealloc, if_neg (UInt64.not_le.mpr hlt)]
  by_cases hp : pgroundup newsz < pgroundup oldsz
  · rw [if_pos hp]
    have hp' := UInt64.lt_iff_toNat_lt.mp hp
    -- the page count, `(PGROUNDUP(oldsz) - PGROUNDUP(newsz)) / PGSIZE`, fits in an `int`
    have hN : ((pgroundup oldsz - pgroundup newsz) / pgsize).toNat =
        vpn (pgroundup oldsz) - vpn (pgroundup newsz) := by
      rw [UInt64.toNat_div, UInt64.toNat_sub_of_le _ _ (UInt64.le_iff_toNat_le.mpr (by omega)),
        show pgsize.toNat = 4096 from rfl, hvo, hvn, ho, hn]
      omega
    have hround := toUInt64_toInt64_toInt32 (x := (pgroundup oldsz - pgroundup newsz) / pgsize)
      (by rw [hN, hvo]; omega)
    have hend : vpn (pgroundup newsz) + ((pgroundup oldsz - pgroundup newsz) / pgsize).toNat =
        vpn (pgroundup oldsz) := by
      rw [hN]
      omega
    obtain ⟨pm', freed, heq, hS, hmem, -, hleaf⟩ := h.unmap (pgroundup newsz) _
      (by rw [hn]; omega) (by rw [hN, hn, hvo, hvn]; omega)
      (fun va hva h₁ h₂ => huser va hva h₁ (by rw [hend] at h₂; exact h₂))
    rw [hend] at hmem hleaf
    refine ⟨pm', freed, ?_, hS, hmem, hleaf⟩
    dsimp only
    rw [hround, heq]
    rfl
  · rw [if_neg hp]
    have hle : vpn (pgroundup oldsz) ≤ vpn (pgroundup newsz) := by
      have := UInt64.le_iff_toNat_le.mp (UInt64.not_lt.mp hp)
      rw [hvo, hvn]
      rw [ho, hn] at this
      omega
    refine ⟨pm, [], rfl, h, fun q => ⟨fun hq => absurd hq List.not_mem_nil, ?_⟩,
      fun va _ => by rw [if_neg (by omega)]⟩
    rintro ⟨va, -, h₁, h₂, -⟩
    omega

/-- **`uvmdealloc` on an address space** of size `oldsz > newsz`: the address space of size
`newsz`, with the pages from `PGROUNDUP(newsz)` to `PGROUNDUP(oldsz)` unmapped and freed. -/
theorem AddrSpace.shrink {oldsz newsz : UInt64} (h : AddrSpace kend pm tab fl oldsz)
    (hlt : newsz < oldsz) :
    ∃ pm' freed, uvmdealloc kend pm (tab .root) oldsz newsz = .ok (pm', newsz) ∧
      AddrSpace kend pm' tab (freed ++ fl) newsz ∧
      (∀ q, q ∈ freed ↔ ∃ va, va < maxva ∧ vpn (pgroundup newsz) ≤ vpn va ∧
        vpn va < vpn (pgroundup oldsz) ∧ q = target (leaf pm tab va)) ∧
      ∀ va, va < maxva → leaf pm' tab va =
        if vpn (pgroundup newsz) ≤ vpn va ∧ vpn va < vpn (pgroundup oldsz) then 0
        else leaf pm tab va := by
  have hnew : newsz ≤ trapframe := UInt64.le_iff_toNat_le.mpr
    (by have := UInt64.lt_iff_toNat_lt.mp hlt; have := UInt64.le_iff_toNat_le.mp h.sz_le; omega)
  have hmono := vpn_pgroundup_le (UInt64.le_iff_toNat_le.mpr
    (Nat.le_of_lt (UInt64.lt_iff_toNat_lt.mp hlt))) h.sz_le
  obtain ⟨pm', freed, heq, hS, hmem, hleaf⟩ :=
    uvmdealloc_spec h.toSpace hlt h.sz_le fun va hva _ h₂ => h.user va hva h₂
  refine ⟨pm', freed, heq, ⟨hS, hnew, fun va hva hv => ?_, fun va hva hv => ?_⟩, hmem, hleaf⟩
  · rw [hleaf va hva, if_neg (by omega)]
    exact h.user va hva (by omega)
  · rw [hleaf va (lt_maxva_of_lt_trapframe hva)]
    by_cases hin : vpn (pgroundup newsz) ≤ vpn va ∧ vpn va < vpn (pgroundup oldsz)
    · rw [if_pos hin]
      exact UInt64.zero_and
    · rw [if_neg hin]
      exact h.unmapped va hva (by omega)

/-! ### The loop of `uvmalloc` -/

/-- What `uvmalloc` has done to the pages `[lo, hi)`: each maps, with the flags `perm`, a
zeroed page that was on the free list `fl`, and every other leaf is as it was. -/
structure Grown (perm : UInt64) (lo hi : ℕ) (fl : List ℕ) (pm : PhysMem)
    (before after : UInt64 → UInt64) : Prop where
  new : ∀ va, va < maxva → lo ≤ vpn va → vpn va < hi →
    ∃ p ∈ fl, after va = pa2pte p.toUInt64 ||| perm ||| pteV ∧ Zeroed pm p
  old : ∀ va, va < maxva → ¬ (lo ≤ vpn va ∧ vpn va < hi) → after va = before va

section Growing

variable (kend)

/-- The loop of `uvmalloc` at page `a`, started at page `lo` from `pm₀ tab₀ fl₀`: every page
owned once, the pages `[lo, a)` grown, and every page taken from the free list a page of the
tree or one of those pages, unless it is free again. -/
structure Growing (perm lo : UInt64) (pm₀ : PhysMem) (tab₀ : Slot → ℕ) (fl₀ : List ℕ)
    (a : UInt64) (pm : PhysMem) (tab : Slot → ℕ) (fl : List ℕ) : Prop where
  space : Space kend pm tab fl
  root : tab .root = tab₀ .root
  grown : Grown perm (vpn lo) (vpn a) fl₀ pm (leaf pm₀ tab₀) (leaf pm tab)
  sub : ∀ p ∈ fl, p ∈ fl₀
  taken : ∀ p ∈ fl₀, p ∈ fl ∨ IsTable tab p ∨
    ∃ va, va < maxva ∧ vpn lo ≤ vpn va ∧ vpn va < vpn a ∧ target (leaf pm tab va) = p

/-- How a failed `uvmalloc` from `pm₀ tab₀ fl₀` ends: every page owned once, the mapping as
before, and every page it took from the free list given back unless it is a page of the
tree. -/
structure RolledBack (pm₀ : PhysMem) (tab₀ : Slot → ℕ) (fl₀ : List ℕ) (pm : PhysMem)
    (tab : Slot → ℕ) (fl : List ℕ) : Prop where
  space : Space kend pm tab fl
  root : tab .root = tab₀ .root
  mapping_eq : mapping (leaf pm tab) = mapping (leaf pm₀ tab₀)
  given : ∀ p ∈ fl₀, p ∈ fl ∨ IsTable tab p

end Growing

section Loop

variable {pm₀ : PhysMem} {tab₀ : Slot → ℕ} {fl₀ : List ℕ} {perm a : UInt64}

theorem growing_start {oldsz : UInt64} (h₀ : AddrSpace kend pm₀ tab₀ fl₀ oldsz) (perm : UInt64) :
    Growing kend perm (pgroundup oldsz) pm₀ tab₀ fl₀ (pgroundup oldsz) pm₀ tab₀ fl₀ :=
  ⟨h₀.toSpace, rfl, ⟨fun _ _ h₁ h₂ => absurd h₂ (by omega), fun _ _ _ => rfl⟩, fun _ hp => hp,
    fun _ hp => .inl hp⟩

/-- A page mapped so far: a zeroed page that was free, neither free now nor a page of the
tree. -/
theorem Growing.mapped {lo : UInt64} (hg : Growing kend perm lo pm₀ tab₀ fl₀ a pm tab fl)
    (hpage : ∀ p ∈ fl₀, Page kend p) (hperm : (perm ||| pteV).toNat < 1024) {va : UInt64}
    (hva : va < maxva) (h₁ : vpn lo ≤ vpn va) (h₂ : vpn va < vpn a) :
    ∃ p ∈ fl₀, leaf pm tab va = pa2pte p.toUInt64 ||| perm ||| pteV ∧ Zeroed pm p ∧
      p ∉ fl ∧ ¬ IsTable tab p := by
  obtain ⟨p, hp, he, hz⟩ := hg.grown.new va hva h₁ h₂
  have hv : leaf pm tab va &&& pteV ≠ 0 := by
    rw [he]
    exact or_pteV_valid _
  have ht : target (leaf pm tab va) = p := by
    rw [he]
    exact target_pte (hpage p hp) hperm
  obtain ⟨hfl, htab⟩ := hg.space.data va hva hv
  rw [ht] at hfl htab
  exact ⟨p, hp, he, hz, hfl, htab⟩

/-- The loop's state survives a change that touches no page mapped so far: memory changed
only in pages that were free or of the tree, the pages of the tree kept, every leaf as it
was. -/
theorem Growing.change {lo : UInt64} {P : ℕ → Prop}
    (hg : Growing kend perm lo pm₀ tab₀ fl₀ a pm tab fl)
    (hpage : ∀ p ∈ fl₀, Page kend p) (hperm : (perm ||| pteV).toNat < 1024)
    (hS : Space kend pm' tab' fl') (hroot : tab' .root = tab .root) (hs : Same P pm pm')
    (hP : ∀ q, P q → q ∈ fl ∨ IsTable tab q) (hkeep : ∀ q, IsTable tab q → IsTable tab' q)
    (hleaf : ∀ va, va < maxva → leaf pm' tab' va = leaf pm tab va) (hsub : ∀ q ∈ fl', q ∈ fl₀)
    (hfl : ∀ q ∈ fl, q ∈ fl' ∨ IsTable tab' q) :
    Growing kend perm lo pm₀ tab₀ fl₀ a pm' tab' fl' where
  space := hS
  root := hroot.trans hg.root
  grown := by
    refine ⟨fun va hva h₁ h₂ => ?_, fun va hva hout => by rw [hleaf va hva, hg.grown.old va hva hout]⟩
    obtain ⟨p, hp, he, hz, hpf, hpt⟩ := hg.mapped hpage hperm hva h₁ h₂
    exact ⟨p, hp, by rw [hleaf va hva, he], hz.frame hs fun hPp => (hP p hPp).elim hpf hpt⟩
  sub := hsub
  taken q hq := by
    rcases hg.taken q hq with hq | hq | ⟨va, hva, h₁, h₂, he⟩
    · exact (hfl q hq).elim .inl fun ht => .inr (.inl ht)
    · exact .inr (.inl (hkeep q hq))
    · exact .inr (.inr ⟨va, hva, h₁, h₂, by rw [hleaf va hva, he]⟩)

/-- The loop's state moved on to the next page: the zeroed page `p`, taken from the free
list, is mapped at `a`, and nothing else mapped so far is touched. -/
theorem Growing.extend {lo : UInt64} {P : ℕ → Prop} {p : ℕ}
    (hg : Growing kend perm lo pm₀ tab₀ fl₀ a pm tab fl)
    (hpage : ∀ p ∈ fl₀, Page kend p) (hperm : (perm ||| pteV).toNat < 1024) (hmax : a < maxva)
    (hlo : vpn lo ≤ vpn a) (hS : Space kend pm' tab' fl') (hroot : tab' .root = tab .root)
    (hs : Same P pm pm') (hP : ∀ q, P q → q ∈ fl ∨ IsTable tab q)
    (hkeep : ∀ q, IsTable tab q → IsTable tab' q) (hp : p ∈ fl) (hz : Zeroed pm' p)
    (hleaf : ∀ va, va < maxva → leaf pm' tab' va =
      if vpn va = vpn a then pa2pte p.toUInt64 ||| perm ||| pteV else leaf pm tab va)
    (hsub : ∀ q ∈ fl', q ∈ fl₀) (hfl : ∀ q ∈ fl, q = p ∨ q ∈ fl' ∨ IsTable tab' q) :
    Growing kend perm lo pm₀ tab₀ fl₀ (a + pgsize) pm' tab' fl' where
  space := hS
  root := hroot.trans hg.root
  grown := by
    rw [vpn_add_pgsize hmax]
    refine ⟨fun va hva h₁ h₂ => ?_, fun va hva hout => ?_⟩
    · rw [hleaf va hva]
      by_cases hvv : vpn va = vpn a
      · rw [if_pos hvv]
        exact ⟨p, hg.sub p hp, rfl, hz⟩
      · rw [if_neg hvv]
        obtain ⟨q, hq, he, hzq, hqf, hqt⟩ := hg.mapped hpage hperm hva h₁ (by omega)
        exact ⟨q, hq, he, hzq.frame hs fun hPq => (hP q hPq).elim hqf hqt⟩
    · rw [hleaf va hva, if_neg (by omega), hg.grown.old va hva (by omega)]
  sub := hsub
  taken q hq := by
    rw [vpn_add_pgsize hmax]
    rcases hg.taken q hq with hq | hq | ⟨va, hva, h₁, h₂, he⟩
    · rcases hfl q hq with rfl | hq | hq
      · refine .inr (.inr ⟨a, hmax, hlo, by omega, ?_⟩)
        rw [hleaf a hmax, if_pos rfl]
        exact target_pte (hpage _ (hg.sub _ hp)) hperm
      · exact .inl hq
      · exact .inr (.inl hq)
    · exact .inr (.inl (hkeep q hq))
    · exact .inr (.inr ⟨va, hva, h₁, by omega, by rw [hleaf va hva, if_neg (by omega), he]⟩)

/-- **The rollback of `uvmalloc`**: from the loop's state at page `a`,
`uvmdealloc(pagetable, a, PGROUNDUP(oldsz))` unmaps and frees exactly the pages mapped so
far, and the mapping is as it was. -/
theorem Growing.rollback {oldsz xperm : UInt64} (h₀ : AddrSpace kend pm₀ tab₀ fl₀ oldsz)
    (hx : xperm.toNat < 1024)
    (hg : Growing kend (pteR ||| pteU ||| xperm) (pgroundup oldsz) pm₀ tab₀ fl₀ a pm tab fl)
    (ha : a.toNat % 4096 = 0) (hlo : (pgroundup oldsz).toNat ≤ a.toNat) (hat : a ≤ trapframe) :
    ∃ pm' fl' s, uvmdealloc kend pm (tab₀ .root) a (pgroundup oldsz) = .ok (pm', s) ∧
      RolledBack kend pm₀ tab₀ fl₀ pm' tab fl' := by
  have hP := toNat_pgroundup_of_le h₀.sz_le
  have hat' := UInt64.le_iff_toNat_le.mp hat
  have hlot : pgroundup oldsz ≤ trapframe := UInt64.le_iff_toNat_le.mpr (by omega)
  have hvlo := vpn_pgroundup_of_aligned (by rw [hP]; omega) hlot
  have hvpa := vpn_pgroundup_of_aligned ha hat
  -- the pages `[PGROUNDUP(oldsz), a)` were not mapped before the call
  have hbefore : ∀ va, va < maxva → vpn (pgroundup oldsz) ≤ vpn va → vpn va < vpn a →
      leaf pm₀ tab₀ va &&& pteV = 0 := fun va _ h₁ h₂ =>
    h₀.unmapped va (lt_trapframe_of_vpn hat h₂) h₁
  rw [← hg.root]
  by_cases heq : a.toNat = (pgroundup oldsz).toNat
  · -- nothing mapped yet: `uvmdealloc` returns at once
    have hae : a = pgroundup oldsz := UInt64.toNat_inj.mp heq
    subst hae
    refine ⟨pm, fl, pgroundup oldsz,
      by rw [uvmdealloc, if_pos (UInt64.le_iff_toNat_le.mpr le_rfl)],
      ⟨hg.space, hg.root, mapping_eq fun va hva => .inl (hg.grown.old va hva (by omega)),
        fun q hq => ?_⟩⟩
    rcases hg.taken q hq with hq | hq | ⟨va, -, h₁, h₂, -⟩
    · exact .inl hq
    · exact .inr hq
    · omega
  have hlt : pgroundup oldsz < a := UInt64.lt_iff_toNat_lt.mpr (by omega)
  obtain ⟨pm', freed, hd, hS, hmem, hleaf⟩ := uvmdealloc_spec hg.space hlt hat
    fun va hva h₁ h₂ => by
      rw [hvlo] at h₁
      rw [hvpa] at h₂
      obtain ⟨p, hp, he, -⟩ := hg.grown.new va hva h₁ h₂
      rw [he]
      exact dataLeaf_pte (h₀.free.page p hp) hx
  rw [hvlo, hvpa] at hmem hleaf
  refine ⟨pm', freed ++ fl, pgroundup oldsz, hd,
    ⟨hS, hg.root, mapping_eq fun va hva => ?_, fun q hq => ?_⟩⟩
  · rw [hleaf va hva]
    by_cases hin : vpn (pgroundup oldsz) ≤ vpn va ∧ vpn va < vpn a
    · rw [if_pos hin]
      exact .inr ⟨UInt64.zero_and, hbefore va hva hin.1 hin.2⟩
    · rw [if_neg hin]
      exact .inl (hg.grown.old va hva hin)
  · rcases hg.taken q hq with hq | hq | ⟨va, hva, h₁, h₂, he⟩
    · exact .inl (List.mem_append_right _ hq)
    · exact .inr hq
    · exact .inl (List.mem_append_left _ ((hmem q).mpr ⟨va, hva, h₁, h₂, he.symm⟩))

/-- **One pass of the loop of `uvmalloc`** at a page `a` below `TRAPFRAME`, the page `p` at
the front of the free list: `kalloc` takes it and `memset` zeroes it. Then `mappages` either
maps it at `a`, and the loop's state moves on to the next page, or runs out of page-table
pages with nothing mapped, and `kfree` gives `p` back, the state the one at `a` again. -/
theorem Growing.pass {oldsz xperm : UInt64} {p : ℕ} {t : List ℕ}
    (h₀ : AddrSpace kend pm₀ tab₀ fl₀ oldsz) (hx : xperm.toNat < 1024)
    (hg : Growing kend (pteR ||| pteU ||| xperm) (pgroundup oldsz) pm₀ tab₀ fl₀ a pm tab (p :: t))
    (ha : a.toNat % 4096 = 0) (hlo : (pgroundup oldsz).toNat ≤ a.toNat)
    (hat : a.toNat + 4096 ≤ trapframe.toNat) (hf₁ : FreeList kend pm.kalloc.1 t)
    (hs₁ : Same (· = p) pm pm.kalloc.1) :
    ∃ pm₃ tab₃ fl₃ r, mappages (pm.kalloc.1.fill p 0 4096) (tab₀ .root) a pgsize p.toUInt64
        (pteR ||| pteU ||| xperm) = .ok (pm₃, r) ∧
      ((r = 0 ∧ Growing kend (pteR ||| pteU ||| xperm) (pgroundup oldsz) pm₀ tab₀ fl₀
          (a + pgsize) pm₃ tab₃ fl₃) ∨
        (r ≠ 0 ∧ ∃ pm₄, pm₃.kfree kend p = .ok pm₄ ∧
          Growing kend (pteR ||| pteU ||| xperm) (pgroundup oldsz) pm₀ tab₀ fl₀ a pm₄ tab₃ [p])) := by
  have hperm := userFlags_toNat_lt hx
  have hpage : ∀ q ∈ fl₀, Page kend q := h₀.free.page
  have hS := hg.space
  have hp : Page kend p := hS.free.page p List.mem_cons_self
  have htf := trapframe_toNat
  have hmax : a < maxva := UInt64.lt_iff_toNat_lt.mpr (by rw [maxva_toNat]; omega)
  have hvlo : vpn (pgroundup oldsz) ≤ vpn a := Nat.div_le_div_right hlo
  -- `kalloc` and `memset`: the page `p` belongs to nobody and holds zeros
  obtain ⟨hS₁, hu₁⟩ := hS.take hf₁ hs₁
  obtain ⟨hS₂, hu₂⟩ := hS₁.write_unowned hu₁ (same_fill pm.kalloc.1 hp.aligned' 0) rfl
  have hz₂ := zeroed_fill pm.kalloc.1 hp.aligned'
  have hs₂ := hs₁.trans (same_fill pm.kalloc.1 hp.aligned' 0)
  have hleaf₂ := leaf_frame hS.tree hs₂ fun s hs he =>
    hS.apart s hs (by rcases he with he | he <;> rw [he] <;> exact List.mem_cons_self)
  -- `a` is not mapped: the loop started at `PGROUNDUP(oldsz)` and has not been there yet
  have hlast : vpn (a + pgsize - 1) = vpn a := by
    have h1 : (a + pgsize).toNat = a.toNat + 4096 := toNat_add_pgsize hmax
    rw [vpn, vpn, UInt64.toNat_sub_of_le _ _
      (UInt64.le_iff_toNat_le.mpr (by rw [h1]; show 1 ≤ a.toNat + 4096; omega)), h1]
    show (a.toNat + 4096 - 1) / 4096 = a.toNat / 4096
    omega
  have hfree : ∀ va, va < maxva → vpn a ≤ vpn va → vpn va ≤ vpn (a + pgsize - 1) →
      leaf (pm.kalloc.1.fill p 0 4096) tab va &&& pteV = 0 := fun va hva h₁ h₂ => by
    rw [hlast] at h₂
    rw [hleaf₂ va, hg.grown.old va hva (by omega)]
    refine h₀.unmapped va (UInt64.lt_iff_toNat_lt.mpr ?_) (by omega)
    unfold vpn at h₁ h₂
    omega
  obtain ⟨pm₃, tab₃, fl₃, r, b, hm, hk, hb₁, -, hr, hmap⟩ :=
    mappages_spec hS₂.tree hS₂.free hS₂.apart a pgsize p.toUInt64 (pteR ||| pteU ||| xperm)
      (by decide) (by rw [show pgsize.toNat = 4096 from rfl]; omega) hfree
  have hdown : pgrounddown a = a := UInt64.toNat_inj.mp (by rw [pgrounddown_toNat]; omega)
  rw [hlast] at hr
  rw [hdown] at hmap
  rw [hg.root] at hm
  have hroot : tab₃ .root = tab .root := hk.grows.keep _ hS.tree.root
  -- memory changed only in `p` and in pages of the tree, which were pages of the tree or free
  have hP₃ : ∀ q, ((q = p ∨ q = p) ∨ IsTable tab₃ q) → q ∈ p :: t ∨ IsTable tab q := by
    rintro q ((rfl | rfl) | hq)
    · exact .inl List.mem_cons_self
    · exact .inl List.mem_cons_self
    · exact (hk.grows.isTable_cases hq).elim .inr fun hm => .inl (List.mem_cons_of_mem _ hm)
  refine ⟨pm₃, tab₃, fl₃, r, hm, ?_⟩
  rcases hr with ⟨rfl, rfl⟩ | ⟨rfl, rfl, hb⟩
  · -- mapped: the state moves on to the next page
    have hleaf₃ := hmap.single
    refine .inl ⟨rfl, hg.extend hpage hperm hmax hvlo
      (hS₂.map_page hk (by rw [target_pte hp hperm]; exact hu₂) hleaf₃) hroot (hs₂.trans hk.same)
      hP₃ (fun q => hk.grows.isTable) List.mem_cons_self
      (hz₂.frame hk.same fun ht => (hk.grows.isTable_cases ht).elim hu₂.2.1 hu₂.1)
      (fun va hva => by rw [hleaf₃ va hva, hleaf₂ va])
      (fun q hq => hg.sub q (List.mem_cons_of_mem _ (hk.grows.suffix.subset hq))) fun q hq => ?_⟩
    rcases List.mem_cons.mp hq with rfl | hq
    · exact .inl rfl
    · by_cases hq' : q ∈ fl₃
      · exact .inr (.inl hq')
      · exact .inr (.inr (hk.grows.taken q hq hq'))
  · -- out of page-table pages: nothing mapped, and `p` goes back on the free list
    obtain rfl : b = vpn a := by omega
    have hleaf₃ := hmap.empty
    have hS₃ := hS₂.kept hk hleaf₃
    have hu₃ := hu₂.kept hk hleaf₃
    obtain ⟨pm₄, hkf, hS₄, hs₄⟩ := hS₃.give hu₃ hp
    refine .inr ⟨by decide, pm₄, hkf, hg.change hpage hperm hS₄ hroot ((hs₂.trans hk.same).trans hs₄)
      (fun q hq => hq.elim (hP₃ q) fun he => .inl (he ▸ List.mem_cons_self))
      (fun q => hk.grows.isTable)
      (fun va hva => by
        rw [leaf_frame hS₃.tree hs₄ (fun s hs he => hu₃.2.1 ⟨s, hs, he⟩), hleaf₃ va hva, hleaf₂ va])
      (fun q hq => by rw [List.mem_singleton.mp hq]; exact hg.sub p List.mem_cons_self)
      fun q hq => ?_⟩
    rcases List.mem_cons.mp hq with rfl | hq
    · exact .inl List.mem_cons_self
    · exact .inr (hk.grows.taken q hq List.not_mem_nil)

/-! ### The loop and the call -/

theorem uvmallocLoop_kalloc_zero {pt : ℕ} {lo newsz xperm : UInt64} {n : ℕ} (hlt : a < newsz)
    (hk : pm.kalloc = (pm, 0)) :
    uvmallocLoop kend pt lo newsz xperm (n + 1) pm a =
      (uvmdealloc kend pm pt a lo).map fun r => (r.1, 0) := by
  rw [uvmallocLoop, if_pos hlt, hk]
  rfl

theorem uvmallocLoop_mapped {pt p : ℕ} {lo newsz xperm : UInt64} {n : ℕ} {pm₁ pm₃ : PhysMem}
    (hlt : a < newsz) (hk : pm.kalloc = (pm₁, p)) (hp : p ≠ 0)
    (hm : mappages (pm₁.fill p 0 4096) pt a pgsize p.toUInt64 (pteR ||| pteU ||| xperm) =
      .ok (pm₃, 0)) :
    uvmallocLoop kend pt lo newsz xperm (n + 1) pm a =
      uvmallocLoop kend pt lo newsz xperm n pm₃ (a + pgsize) := by
  obtain ⟨q, rfl⟩ := Nat.exists_eq_succ_of_ne_zero hp
  simp only [uvmallocLoop, if_pos hlt, hk, show pgsize.toNat = 4096 from rfl, hm]
  rfl

theorem uvmallocLoop_unmapped {pt p : ℕ} {lo newsz xperm : UInt64} {n : ℕ} {pm₁ pm₃ pm₄ : PhysMem}
    {r : ℤ} (hlt : a < newsz) (hk : pm.kalloc = (pm₁, p)) (hp : p ≠ 0)
    (hm : mappages (pm₁.fill p 0 4096) pt a pgsize p.toUInt64 (pteR ||| pteU ||| xperm) =
      .ok (pm₃, r)) (hr : r ≠ 0) (hf : pm₃.kfree kend p = .ok pm₄) :
    uvmallocLoop kend pt lo newsz xperm (n + 1) pm a =
      (uvmdealloc kend pm₄ pt a lo).map fun r => (r.1, 0) := by
  obtain ⟨q, rfl⟩ := Nat.exists_eq_succ_of_ne_zero hp
  simp only [uvmallocLoop, if_pos hlt, hk, show pgsize.toNat = 4096 from rfl, hm, ne_eq, hr,
    not_false_eq_true, if_true, hf]

/-- **The loop of `uvmalloc`** from a state at page `a`, with fuel for the pages left below
`newsz ≤ TRAPFRAME`: it reaches `PGROUNDUP(newsz)` and returns `newsz`, or rolls back and
returns `0`. The induction is on the fuel; `Growing.pass` and `Growing.rollback` carry each
pass. -/
theorem uvmallocLoop_spec {oldsz newsz xperm : UInt64} (h₀ : AddrSpace kend pm₀ tab₀ fl₀ oldsz)
    (hx : xperm.toNat < 1024) (hnew : newsz ≤ trapframe) :
    ∀ (n : ℕ) (pm : PhysMem) (tab : Slot → ℕ) (fl : List ℕ) (a : UInt64),
      Growing kend (pteR ||| pteU ||| xperm) (pgroundup oldsz) pm₀ tab₀ fl₀ a pm tab fl →
      a.toNat % 4096 = 0 → (pgroundup oldsz).toNat ≤ a.toNat → a.toNat ≤ (pgroundup newsz).toNat →
      newsz.toNat ≤ a.toNat + 4096 * n →
      ∃ pm' tab' fl' r,
        uvmallocLoop kend (tab₀ .root) (pgroundup oldsz) newsz xperm n pm a = .ok (pm', r) ∧
        ((r = newsz ∧ Growing kend (pteR ||| pteU ||| xperm) (pgroundup oldsz) pm₀ tab₀ fl₀
            (pgroundup newsz) pm' tab' fl') ∨
          (r = 0 ∧ RolledBack kend pm₀ tab₀ fl₀ pm' tab' fl'))
  | 0, pm, tab, fl, a, hg, ha, h₁, h₂, hn => by
    -- out of fuel only with the loop done: `a` is `PGROUNDUP(newsz)`
    have hP := toNat_pgroundup_of_le hnew
    obtain rfl : a = pgroundup newsz := UInt64.toNat_inj.mp (by rw [hP] at h₂ ⊢; omega)
    exact ⟨pm, tab, fl, newsz, rfl, .inl ⟨rfl, hg⟩⟩
  | n + 1, pm, tab, fl, a, hg, ha, h₁, h₂, hn => by
    have hP := toNat_pgroundup_of_le hnew
    have hnew' := UInt64.le_iff_toNat_le.mp hnew
    have htf := trapframe_toNat
    by_cases hlt : a < newsz
    · have hlt' := UInt64.lt_iff_toNat_lt.mp hlt
      have hat : a.toNat + 4096 ≤ trapframe.toNat := by rw [hP] at h₂; omega
      have hatf : a ≤ trapframe := UInt64.le_iff_toNat_le.mpr (by omega)
      rcases hg.space.free.kalloc with ⟨rfl, hk⟩ | ⟨p, t, rfl, hkp, hf₁, hs₁⟩
      · -- `kalloc` fails: roll back
        obtain ⟨pm', fl', s, hd, hrb⟩ := hg.rollback h₀ hx ha h₁ hatf
        exact ⟨pm', tab, fl', 0, by rw [uvmallocLoop_kalloc_zero hlt hk, hd]; rfl, .inr ⟨rfl, hrb⟩⟩
      have hp0 : p ≠ 0 := (hg.space.free.page p List.mem_cons_self).ne_zero
      have hk : pm.kalloc = (pm.kalloc.1, p) := Prod.ext rfl hkp
      obtain ⟨pm₃, tab₃, fl₃, r, hm, ⟨rfl, hg'⟩ | ⟨hr, pm₄, hf, hg'⟩⟩ :=
        hg.pass h₀ hx ha h₁ hat hf₁ hs₁
      · -- mapped: the next page
        have hmax : a < maxva := UInt64.lt_iff_toNat_lt.mpr (by rw [maxva_toNat]; omega)
        have hnext := toNat_add_pgsize hmax
        obtain ⟨pm', tab', fl', r', heq, hres⟩ := uvmallocLoop_spec h₀ hx hnew n pm₃ tab₃ fl₃
          (a + pgsize) hg' (by omega) (by omega) (by rw [hP] at h₂ ⊢; omega) (by omega)
        exact ⟨pm', tab', fl', r', by rw [uvmallocLoop_mapped hlt hk hp0 hm, heq], hres⟩
      · -- `mappages` fails: `kfree` of the page, then roll back
        obtain ⟨pm', fl', s, hd, hrb⟩ := hg'.rollback h₀ hx ha h₁ hatf
        exact ⟨pm', tab₃, fl', 0, by rw [uvmallocLoop_unmapped hlt hk hp0 hm hr hf, hd]; rfl,
          .inr ⟨rfl, hrb⟩⟩
    · -- the loop is done: `a` is `PGROUNDUP(newsz)`
      have hge := UInt64.le_iff_toNat_le.mp (UInt64.not_lt.mp hlt)
      obtain rfl : a = pgroundup newsz := UInt64.toNat_inj.mp (by rw [hP] at h₂ ⊢; omega)
      exact ⟨pm, tab, fl, newsz, by rw [uvmallocLoop, if_neg hlt], .inl ⟨rfl, hg⟩⟩

/-- The loop done at `PGROUNDUP(newsz)`: the address space of size `newsz`. -/
theorem Growing.addrSpace {oldsz newsz xperm : UInt64} (h₀ : AddrSpace kend pm₀ tab₀ fl₀ oldsz)
    (hx : xperm.toNat < 1024) (hle : oldsz ≤ newsz) (hnew : newsz ≤ trapframe)
    (hg : Growing kend (pteR ||| pteU ||| xperm) (pgroundup oldsz) pm₀ tab₀ fl₀ (pgroundup newsz)
      pm tab fl) :
    AddrSpace kend pm tab fl newsz where
  toSpace := hg.space
  sz_le := hnew
  user va hva hv := by
    by_cases h₁ : vpn (pgroundup oldsz) ≤ vpn va
    · obtain ⟨p, hp, he, -⟩ := hg.grown.new va hva h₁ hv
      rw [he]
      exact dataLeaf_pte (h₀.free.page p hp) hx
    · rw [hg.grown.old va hva fun h => h₁ h.1]
      exact h₀.user va hva (by omega)
  unmapped va hva hv := by
    have hmono := vpn_pgroundup_le hle hnew
    rw [hg.grown.old va (lt_maxva_of_lt_trapframe hva) (by omega)]
    exact h₀.unmapped va hva (by omega)

/-- **`uvmalloc(pagetable, oldsz, newsz, xperm)`** on the address space of size
`oldsz ≤ newsz ≤ TRAPFRAME`, with `xperm` of flag bits only: it returns `newsz`, the address
space of size `newsz`, with the pages from `PGROUNDUP(oldsz)` to `newsz` mapped to zeroed
pages that were free; or it returns `0`, the address space of size `oldsz` with the mapping as
before, and every page it took from the free list free again or a page of the tree. -/
theorem uvmalloc_spec {oldsz newsz xperm : UInt64} (h₀ : AddrSpace kend pm₀ tab₀ fl₀ oldsz)
    (hle : oldsz ≤ newsz) (hnew : newsz ≤ trapframe) (hx : xperm.toNat < 1024) :
    ∃ pm' tab' fl' r, uvmalloc kend pm₀ (tab₀ .root) oldsz newsz xperm = .ok (pm', r) ∧
      tab' .root = tab₀ .root ∧
      ((r = newsz ∧ AddrSpace kend pm' tab' fl' newsz ∧
          Grown (pteR ||| pteU ||| xperm) (vpn (pgroundup oldsz)) (vpn (pgroundup newsz)) fl₀ pm'
            (leaf pm₀ tab₀) (leaf pm' tab')) ∨
        (r = 0 ∧ AddrSpace kend pm' tab' fl' oldsz ∧
          mapping (leaf pm' tab') = mapping (leaf pm₀ tab₀) ∧ ∀ p ∈ fl₀, p ∈ fl' ∨ IsTable tab' p)) := by
  have hPo := toNat_pgroundup_of_le h₀.sz_le
  have hPn := toNat_pgroundup_of_le hnew
  have hle' := UInt64.le_iff_toNat_le.mp hle
  obtain ⟨pm', tab', fl', r, heq, hres⟩ := uvmallocLoop_spec h₀ hx hnew
    (newsz.toNat / pgsize.toNat + 1) pm₀ tab₀ fl₀ (pgroundup oldsz) (growing_start h₀ _)
    (by rw [hPo]; omega) le_rfl (by rw [hPo, hPn]; omega)
    (by rw [show pgsize.toNat = 4096 from rfl]; omega)
  have hcall : uvmalloc kend pm₀ (tab₀ .root) oldsz newsz xperm = .ok (pm', r) := by
    rw [uvmalloc, if_neg (UInt64.not_lt.mpr hle)]
    exact heq
  rcases hres with ⟨hr, hg⟩ | ⟨hr, hrb⟩
  · exact ⟨pm', tab', fl', r, hcall, hg.root, .inl ⟨hr, hg.addrSpace h₀ hx hle hnew, hg.grown⟩⟩
  · exact ⟨pm', tab', fl', r, hcall, hrb.root,
      .inr ⟨hr, h₀.of_mapping hrb.space hrb.mapping_eq, hrb.mapping_eq, hrb.given⟩⟩

end Loop

/-! ### Resizing user memory -/

/-- **Growing and shrinking user memory is all-or-nothing.** On the address space of size
`oldsz`, `uvmalloc` up to `newsz ≤ TRAPFRAME` with `xperm` of flag bits only either returns
`newsz` with the new pages mapped to zeroed pages that were free (distinct, as every page of
the address space of size `newsz` is owned once) and every other leaf as it was, or returns
`0` with the mapping as before and every page it took free again or a page of the tree; and
`uvmdealloc` down to `newsz < oldsz` unmaps and frees exactly the pages from
`PGROUNDUP(newsz)` to `PGROUNDUP(oldsz)` and returns `newsz`. -/
theorem uvm_resize_all_or_nothing {oldsz : UInt64} (h : AddrSpace kend pm tab fl oldsz) :
    (∀ newsz xperm : UInt64, oldsz ≤ newsz → newsz ≤ trapframe → xperm.toNat < 1024 →
      ∃ pm' tab' fl' r, uvmalloc kend pm (tab .root) oldsz newsz xperm = .ok (pm', r) ∧
        tab' .root = tab .root ∧
        ((r = newsz ∧ AddrSpace kend pm' tab' fl' newsz ∧
            Grown (pteR ||| pteU ||| xperm) (vpn (pgroundup oldsz)) (vpn (pgroundup newsz)) fl
              pm' (leaf pm tab) (leaf pm' tab')) ∨
          (r = 0 ∧ AddrSpace kend pm' tab' fl' oldsz ∧
            mapping (leaf pm' tab') = mapping (leaf pm tab) ∧
            ∀ p ∈ fl, p ∈ fl' ∨ IsTable tab' p))) ∧
    (∀ newsz : UInt64, newsz < oldsz →
      ∃ pm' freed, uvmdealloc kend pm (tab .root) oldsz newsz = .ok (pm', newsz) ∧
        AddrSpace kend pm' tab (freed ++ fl) newsz ∧
        (∀ q, q ∈ freed ↔ ∃ va, va < maxva ∧ vpn (pgroundup newsz) ≤ vpn va ∧
          vpn va < vpn (pgroundup oldsz) ∧ q = target (leaf pm tab va)) ∧
        ∀ va, va < maxva → leaf pm' tab va =
          if vpn (pgroundup newsz) ≤ vpn va ∧ vpn va < vpn (pgroundup oldsz) then 0
          else leaf pm tab va) :=
  ⟨fun _ _ hle hnew hx => uvmalloc_spec h hle hnew hx, fun _ hlt => h.shrink hlt⟩

/-! ### A process of two pages -/

/-- The empty free list, before `kinit`. -/
theorem freeList_empty : FreeList kernelEnd ⟨fun _ => 0, 0⟩ [] :=
  ⟨.nil 0, fun _ h => absurd h List.not_mem_nil⟩

/-- `kfree` of the pages `ps` in turn, as `freerange` frees them, pushes each on the free list.
By induction on `ps`, the memory and the free list generalised. -/
theorem FreeList.foldlM_kfree {pm : PhysMem} {fl : List ℕ} (h : FreeList kend pm fl)
    {ps : List ℕ} (hp : ∀ p ∈ ps, Page kend p) (hnd : (ps ++ fl).Nodup) :
    ∃ pm', ps.foldlM (PhysMem.kfree kend) pm = .ok pm' ∧ FreeList kend pm' (ps.reverse ++ fl) := by
  induction ps generalizing pm fl with
  | nil => exact ⟨pm, rfl, h⟩
  | cons p ps ih =>
    have hpf : p ∉ fl := fun hm => (List.nodup_cons.mp hnd).1 (List.mem_append_right _ hm)
    obtain ⟨pm₁, e₁, h₁, -⟩ := h.kfree (hp p List.mem_cons_self) hpf
    have hnd₁ : (ps ++ p :: fl).Nodup := List.perm_middle.symm.nodup_iff.mp hnd
    obtain ⟨pm', e', h'⟩ := ih h₁ (fun q hq => hp q (List.mem_cons_of_mem _ hq)) hnd₁
    refine ⟨pm', ?_, ?_⟩
    · rw [List.foldlM_cons, e₁]
      exact e'
    · simpa only [List.reverse_cons, List.append_assoc, List.singleton_append] using h'

/-- The twelve pages below the `dalloc` heap, lowest first. -/
def topPages : List ℕ := (List.range 12).map fun i => 0x86ff4000 + 4096 * i

theorem page_of_mem_topPages {p : ℕ} (hp : p ∈ topPages) : Page kernelEnd p := by
  obtain ⟨i, hi, rfl⟩ := List.mem_map.mp hp
  have hi' := List.mem_range.mp hi
  have hend : kernelEnd.toNat = 0x80020000 := rfl
  have hup : (Kalloc.pgroundup kernelEnd).toNat = 0x80020000 := by decide
  have htop : Dalloc.phystop - Dalloc.heapSize = 0x87000000 := by decide
  have hpg : Kalloc.pgsize = 4096 := rfl
  exact ⟨by omega, by rw [hpg]; omega, by rw [hend]; omega, by rw [hup]; omega,
    by rw [htop, hpg]; omega⟩

/-- A process of two writable pages: after `kinit` has freed `topPages`, `uvmcreate` and
`uvmalloc(pagetable, 0, 8192, PTE_W)`, as `growproc` grows a process. Physical memory, the root
page, and what `uvmalloc` returned. -/
def twoPageImage : Except String (PhysMem × ℕ × UInt64) := do
  let pm ← topPages.foldlM (PhysMem.kfree kernelEnd) ⟨fun _ => 0, 0⟩
  let (pm, pt) := uvmcreate pm
  let (pm, sz) ← uvmalloc kernelEnd pm pt 0 8192 pteW
  return (pm, pt, sz)

/-- `uvmalloc` returned `8192`, two pages or more are still free, and the root has no entry
from `255`, the entry of `TRAPFRAME`, on. -/
def twoPageCheck (r : PhysMem × ℕ × UInt64) : Bool :=
  let (pm, pt, sz) := r
  sz == 8192 && pt == 0x86fff000 && pm.freelist != 0 && getLE pm.bytes pm.freelist 8 != 0 &&
    (List.range' 255 257).all fun i => pm.load (pt + 8 * i) == 0

/-- An entry of `0` points at no page. -/
theorem eq_zero_of_entry {c : ℕ} (h : entry c = 0) : c = 0 := by
  by_contra hc
  exact entry_and_pteV hc (by rw [h]; exact UInt64.zero_and)

/-- The address space `twoPageImage` builds: two pages mapped, two pages or more still free, and
no level-1 page from root entry `255` on. -/
theorem twoPage_addrSpace :
    ∃ pm tab q t, AddrSpace kernelEnd pm tab (q :: t) 8192 ∧ t ≠ [] ∧
      ∀ i : Fin 512, 255 ≤ i.val → tab (.mid i) = 0 := by
  obtain ⟨pm₁, e₁, hf₁⟩ := freeList_empty.foldlM_kfree (fun _ => page_of_mem_topPages)
    (by decide)
  have hrev : topPages.reverse ++ [] = 0x86fff000 :: topPages.reverse.tail := by decide
  rw [hrev] at hf₁
  have h₀ := uvmcreate_addrSpace hf₁
  obtain ⟨pm', tab', fl', r, hu, hroot, hres⟩ := uvmalloc_spec h₀
    (show (0 : UInt64) ≤ 8192 from UInt64.zero_le) (by decide) (show pteW.toNat < 1024 by decide)
  have hroot₀ : bareTree 0x86fff000 .root = 0x86fff000 := if_pos rfl
  rw [hroot₀] at hu hroot
  obtain ⟨⟨pm, pt, sz⟩, himg, hc⟩ := FS.exists_ok_of_any (p := twoPageCheck)
    (x := twoPageImage) (by decide +kernel)
  simp only [twoPageCheck, Bool.and_eq_true, beq_iff_eq, bne_iff_ne, ne_eq, List.all_eq_true,
    List.mem_range'] at hc
  obtain ⟨⟨⟨⟨rfl, rfl⟩, hfl⟩, hnext⟩, hzero⟩ := hc
  -- the image is the run the lemmas above describe
  simp only [twoPageImage, e₁, bind, Except.bind, uvmcreate_eq hf₁, hu, pure, Except.pure,
    Except.ok.injEq, Prod.mk.injEq] at himg
  obtain ⟨rfl, -, rfl⟩ := himg
  rcases hres with ⟨-, h, -⟩ | ⟨hr, -⟩
  · -- the first two links of the free list are not null
    rcases h.free.seg.head_cases with ⟨h0, -⟩ | ⟨-, t, rfl⟩
    · exact absurd h0 hfl
    have ht : ListSeg.Seg id 0 (fun a => getLE pm'.bytes a 8) (getLE pm'.bytes pm'.freelist 8) t :=
      (ListSeg.path_cons_iff.mp h.free.seg).2.2
    refine ⟨pm', tab', _, t, h, ?_, fun i hi => ?_⟩
    · rcases ht.head_cases with ⟨h0, -⟩ | ⟨-, u, rfl⟩
      · exact absurd h0 hnext
      · exact List.cons_ne_nil _ _
    · apply eq_zero_of_entry
      rw [← h.tree.rootPte i, hroot]
      exact hzero i.val ⟨i.val - 255, by omega, by omega⟩
  · exact absurd hr (by decide)

/-- The process of two pages, resized. -/
theorem uvm_resize_all_or_nothing_twoPage :
    ∃ pm tab fl, AddrSpace kernelEnd pm tab fl 8192 ∧ fl ≠ [] ∧
    (∀ newsz xperm : UInt64, 8192 ≤ newsz → newsz ≤ trapframe → xperm.toNat < 1024 →
      ∃ pm' tab' fl' r, uvmalloc kernelEnd pm (tab .root) 8192 newsz xperm = .ok (pm', r) ∧
        tab' .root = tab .root ∧
        ((r = newsz ∧ AddrSpace kernelEnd pm' tab' fl' newsz ∧
            Grown (pteR ||| pteU ||| xperm) (vpn (pgroundup 8192)) (vpn (pgroundup newsz)) fl
              pm' (leaf pm tab) (leaf pm' tab')) ∨
          (r = 0 ∧ AddrSpace kernelEnd pm' tab' fl' 8192 ∧
            mapping (leaf pm' tab') = mapping (leaf pm tab) ∧
            ∀ p ∈ fl, p ∈ fl' ∨ IsTable tab' p))) ∧
    (∀ newsz : UInt64, newsz < 8192 →
      ∃ pm' freed, uvmdealloc kernelEnd pm (tab .root) 8192 newsz = .ok (pm', newsz) ∧
        AddrSpace kernelEnd pm' tab (freed ++ fl) newsz ∧
        (∀ q, q ∈ freed ↔ ∃ va, va < maxva ∧ vpn (pgroundup newsz) ≤ vpn va ∧
          vpn va < vpn (pgroundup 8192) ∧ q = target (leaf pm tab va)) ∧
        ∀ va, va < maxva → leaf pm' tab va =
          if vpn (pgroundup newsz) ≤ vpn va ∧ vpn va < vpn (pgroundup 8192) then 0
          else leaf pm tab va) := by
  obtain ⟨pm, tab, q, t, h, -, -⟩ := twoPage_addrSpace
  exact ⟨pm, tab, q :: t, h, List.cons_ne_nil q t, uvm_resize_all_or_nothing h⟩

/-! ### A wide `xperm` -/

/-- Physical memory after `kinit` has freed the four pages below the `dalloc` heap. -/
def fourPages : Except String PhysMem := do
  let pm ← PhysMem.kfree kernelEnd ⟨fun _ => 0, 0⟩ 0x86ffc000
  let pm ← PhysMem.kfree kernelEnd pm 0x86ffd000
  let pm ← PhysMem.kfree kernelEnd pm 0x86ffe000
  PhysMem.kfree kernelEnd pm 0x86fff000

/-- A fresh page table, grown by one page with `xperm = 0x400`, the lowest bit of the page
number of a PTE: physical memory, the root page, and what `uvmalloc` returned. -/
def wideImage : Except String (PhysMem × ℕ × UInt64) := do
  let pm ← fourPages
  let (pm, pt) := uvmcreate pm
  let (pm, sz) ← uvmalloc kernelEnd pm pt 0 4096 0x400
  return (pm, pt, sz)

/-- The page `0` of the grown table maps the root page itself. -/
def wideCheck (r : PhysMem × ℕ × UInt64) : Bool :=
  let (pm, pt, sz) := r
  sz == 4096 && pt == 0x86fff000 && walkaddr pm pt 0 == pt.toUInt64

/-- **A wide `xperm` maps a page of the table.** On the address space of size `0` that
`uvmcreate` makes from four free pages, `uvmalloc(pagetable, 0, 4096, 0x400)` returns `4096`,
and the page it mapped at `0` is not the page it took from `kalloc` but the root page of the
table, which was not free: bit 10 of the PTE is the low bit of its page number. -/
theorem uvmalloc_wide_xperm_maps_root :
    ∃ pm₀ fl pm, AddrSpace kernelEnd pm₀ (bareTree 0x86fff000) fl 0 ∧ 0x86fff000 ∉ fl ∧
      uvmalloc kernelEnd pm₀ 0x86fff000 0 4096 0x400 = .ok (pm, 4096) ∧
      walkaddr pm 0x86fff000 0 = 0x86fff000 := by
  have hp : ∀ p : ℕ, p ∈ [0x86ffc000, 0x86ffd000, 0x86ffe000, 0x86fff000] → Page kernelEnd p := by
    intro p hp
    simp only [List.mem_cons, List.not_mem_nil, or_false] at hp
    rcases hp with rfl | rfl | rfl | rfl <;> exact ⟨by decide, by decide, by decide, by decide, by decide⟩
  obtain ⟨pm₁, e₁, hf₁, -⟩ := freeList_empty.kfree (hp 0x86ffc000 (by simp)) List.not_mem_nil
  obtain ⟨pm₂, e₂, hf₂, -⟩ := hf₁.kfree (hp 0x86ffd000 (by simp)) (by decide)
  obtain ⟨pm₃, e₃, hf₃, -⟩ := hf₂.kfree (hp 0x86ffe000 (by simp)) (by decide)
  obtain ⟨pm₄, e₄, hf₄, -⟩ := hf₃.kfree (hp 0x86fff000 (by simp)) (by decide)
  have hfour : fourPages = .ok pm₄ := by
    simp only [fourPages, e₁, e₂, e₃, e₄, bind, Except.bind]
  obtain ⟨⟨pm, pt, sz⟩, himg, hc⟩ := FS.exists_ok_of_any (p := wideCheck) (x := wideImage)
    (by decide)
  simp only [wideCheck, Bool.and_eq_true, beq_iff_eq] at hc
  obtain ⟨⟨rfl, rfl⟩, hwalk⟩ := hc
  simp only [wideImage, hfour, bind, Except.bind, uvmcreate_eq hf₄] at himg
  refine ⟨_, _, pm, uvmcreate_addrSpace hf₄, by decide, ?_, hwalk⟩
  cases hu : uvmalloc kernelEnd ((pm₄.kalloc).1.fill 0x86fff000 0 4096) 0x86fff000 0 4096 0x400 with
  | error e => simp [hu] at himg
  | ok v =>
    simp only [hu, pure, Except.pure, Except.ok.injEq, Prod.mk.injEq, true_and] at himg
    rw [← himg.1, ← himg.2]

end Xv6Lab.Vm
