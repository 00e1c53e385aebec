import Xv6Lab.Vm.Walk

/-!
# `mappages` on a page-table tree

Storing a leaf PTE changes the leaf of one virtual page and nothing else of the tree
(`leaf_store`, `Kept.store`). `mappages` walks to each page of its range with allocation and
stores `PA2PTE(pa) | perm | PTE_V` there; on a tree in which no page of the range is mapped
it never panics, and it either maps the whole range to consecutive physical pages and
returns `0`, or runs out of free pages part way, with the pages before that mapped, and
returns `-1` (`mappages_spec`). Every other leaf is as it was.
-/

namespace Xv6Lab.Vm

open Kalloc ByteMap ListSeg

variable {kend : UInt64}

theorem walk_of_lt {pm : PhysMem} {pt : ℕ} {va : UInt64} (alloc : Bool) (h : va < maxva) :
    walk pm pt va alloc = .ok (walkFrom alloc va 2 pm pt) :=
  if_neg (UInt64.not_le.mpr h)

/-- Below `MAXVA`, two addresses have one leaf PTE exactly when they lie in one page. -/
theorem leafSlot_eq_iff {va va' : UInt64} (h : va < maxva) (h' : va' < maxva) :
    (leafSlot va' = leafSlot va ∧ px 0 va' = px 0 va) ↔ vpn va' = vpn va := by
  constructor
  · rintro ⟨hs, h0⟩
    simp only [leafSlot, Slot.low.injEq, Fin.mk.injEq] at hs
    exact vpn_eq_of_px h' h hs.1 hs.2 h0
  · intro hv
    have hpx : ∀ l, l ≤ 2 → px l va' = px l va := fun l hl => by rw [px_eq l hl, px_eq l hl, hv]
    refine ⟨?_, hpx 0 (by omega)⟩
    simp only [leafSlot, Slot.low.injEq, Fin.mk.injEq]
    exact ⟨hpx 2 le_rfl, hpx 1 (by omega)⟩

/-- The word of the leaf PTE for `a`. -/
theorem leafWord_mod_eight {pm : PhysMem} {tab : Slot → ℕ} (h : Tree kend pm tab) {a : UInt64}
    (ha : tab (leafSlot a) ≠ 0) : (tab (leafSlot a) + 8 * px 0 a) % 8 = 0 :=
  entry_mod_eight (h.page _ ha).aligned'

theorem leaf_eq_load {pm : PhysMem} {tab : Slot → ℕ} {a : UInt64} (ha : tab (leafSlot a) ≠ 0) :
    leaf pm tab a = pm.load (tab (leafSlot a) + 8 * px 0 a) :=
  if_neg ha

/-- **A store to the leaf PTE of `a`** changes that leaf and no other. -/
theorem leaf_store {pm : PhysMem} {tab : Slot → ℕ} (h : Tree kend pm tab) {a : UInt64}
    (ha : tab (leafSlot a) ≠ 0) (v : UInt64) (va : UInt64) :
    leaf (pm.store (tab (leafSlot a) + 8 * px 0 a) v) tab va =
      if leafSlot va = leafSlot a ∧ px 0 va = px 0 a then v else leaf pm tab va := by
  have hal := (h.page _ ha).aligned'
  split_ifs with hw
  · rw [leaf_eq_load (by rw [hw.1]; exact ha), hw.1, hw.2, PhysMem.load_store_self]
  unfold leaf
  split_ifs with hl
  · rfl
  have hal' := (h.page _ hl).aligned'
  have hne : tab (leafSlot va) + 8 * px 0 va ≠ tab (leafSlot a) + 8 * px 0 a := by
    by_cases hs : leafSlot va = leafSlot a
    · have h0 : px 0 va ≠ px 0 a := fun h0 => hw ⟨hs, h0⟩
      rw [hs]
      omega
    · exact entry_ne_of_page_ne hal' hal (fun he => hs (h.inj _ _ hl he)) (px_lt 0 va) (px_lt 0 a)
  exact PhysMem.load_store_of_disjoint _ _ (by omega)

/-- The same, by virtual page. -/
theorem leaf_store_vpn {pm : PhysMem} {tab : Slot → ℕ} (h : Tree kend pm tab) {a : UInt64}
    (ha : tab (leafSlot a) ≠ 0) (halt : a < maxva) (v : UInt64) {va : UInt64} (hva : va < maxva) :
    leaf (pm.store (tab (leafSlot a) + 8 * px 0 a) v) tab va =
      if vpn va = vpn a then v else leaf pm tab va := by
  rw [leaf_store h ha v va]
  exact if_congr (leafSlot_eq_iff halt hva) rfl rfl

/-- A store to a leaf PTE keeps the tree and the free list. -/
theorem Kept.store {pm : PhysMem} {tab : Slot → ℕ} {fl : List ℕ} (h : Tree kend pm tab)
    (hf : FreeList kend pm fl) (hap : Apart tab fl) {a : UInt64} (ha : tab (leafSlot a) ≠ 0)
    (v : UInt64) : Kept kend pm tab fl (pm.store (tab (leafSlot a) + 8 * px 0 a) v) tab fl := by
  have hw := leafWord_mod_eight h ha
  have hpage : pageOf (tab (leafSlot a) + 8 * px 0 a) = tab (leafSlot a) :=
    pageOf_entry (h.page _ ha).aligned' (px_lt 0 a)
  have hs := same_store pm hw v
  rw [hpage] at hs
  -- the leaf page is neither the root nor a level-1 page
  refine ⟨Grows.refl tab fl, h.frame hs (fun he => absurd (h.inj _ _ h.root he) (by simp [leafSlot]))
      (fun i hi he => absurd (h.inj _ _ hi he) (by simp [leafSlot])),
    hf.frame hs rfl fun q hq he => hap _ ha (he ▸ hq), hs.mono fun q hq => ?_⟩
  exact hq ▸ isTable_of_ne _ ha

/-! ### The loop of `mappages` -/

theorem vpn_add_pgsize {a : UInt64} (h : a < maxva) : vpn (a + pgsize) = vpn a + 1 := by
  have := UInt64.lt_iff_toNat_lt.mp h
  rw [maxva_toNat] at this
  rw [vpn, vpn, UInt64.toNat_add, show pgsize.toNat = 4096 from rfl, Nat.mod_eq_of_lt (by omega)]
  omega

theorem toNat_add_pgsize {a : UInt64} (h : a < maxva) : (a + pgsize).toNat = a.toNat + 4096 := by
  have := UInt64.lt_iff_toNat_lt.mp h
  rw [maxva_toNat] at this
  rw [UInt64.toNat_add, show pgsize.toNat = 4096 from rfl, Nat.mod_eq_of_lt (by omega)]

/-- The physical page `mappages` gives to the virtual page `n` pages into its range. -/
theorem pa_add_pgsize (pa : UInt64) {m n : ℕ} (h : n < m) :
    pa + pgsize + ((m - (n + 1)) * 4096).toUInt64 = pa + ((m - n) * 4096).toUInt64 := by
  rw [Nat.toUInt64_eq, Nat.toUInt64_eq, UInt64.add_assoc, show pgsize = UInt64.ofNat 4096 from rfl,
    ← UInt64.ofNat_add]
  congr 2
  omega

/-- What `mappages` did to the leaves: the pages `[vpn a, b)` map to consecutive physical
pages from `pa`, and the others are as they were. -/
def MappedFrom (perm : UInt64) (a pa : UInt64) (b : ℕ) (before after : UInt64 → UInt64) : Prop :=
  ∀ va, va < maxva → after va =
    if vpn a ≤ vpn va ∧ vpn va < b then pa2pte (pa + ((vpn va - vpn a) * 4096).toUInt64) ||| perm ||| pteV
    else before va

/-- The last page of the range. -/
theorem mappedFrom_one {perm a pa v : UInt64} {before after : UInt64 → UInt64}
    (hv : v = pa2pte pa ||| perm ||| pteV)
    (h : ∀ va, va < maxva → after va = if vpn va = vpn a then v else before va) :
    MappedFrom perm a pa (vpn a + 1) before after := fun va hva => by
  rw [h va hva]
  by_cases hvv : vpn va = vpn a
  · rw [if_pos hvv, if_pos ⟨hvv.ge, by omega⟩, hvv, Nat.sub_self, Nat.zero_mul, hv,
      show (0 : ℕ).toUInt64 = 0 from rfl, UInt64.add_zero]
  · rw [if_neg hvv, if_neg (by omega)]

/-- A range of one page, read back: the leaf of that page and no other. -/
theorem MappedFrom.single {perm a pa : UInt64} {before after : UInt64 → UInt64}
    (h : MappedFrom perm a pa (vpn a + 1) before after) (va : UInt64) (hva : va < maxva) :
    after va = if vpn va = vpn a then pa2pte pa ||| perm ||| pteV else before va := by
  rw [h va hva]
  by_cases hvv : vpn va = vpn a
  · rw [if_pos ⟨hvv.ge, by omega⟩, if_pos hvv, hvv, Nat.sub_self, Nat.zero_mul,
      show (0 : ℕ).toUInt64 = 0 from rfl, UInt64.add_zero]
  · rw [if_neg (by omega), if_neg hvv]

/-- An empty range leaves every leaf as it was. -/
theorem MappedFrom.empty {perm a pa : UInt64} {before after : UInt64 → UInt64}
    (h : MappedFrom perm a pa (vpn a) before after) (va : UInt64) (hva : va < maxva) :
    after va = before va := by
  rw [h va hva, if_neg (by omega)]

/-- One page mapped in front of a range mapped from the next page on. -/
theorem MappedFrom.cons {perm a pa v : UInt64} {b : ℕ} {before mid after : UInt64 → UInt64}
    (hv : v = pa2pte pa ||| perm ||| pteV)
    (h : ∀ va, va < maxva → mid va = if vpn va = vpn a then v else before va)
    (hnext : vpn (a + pgsize) = vpn a + 1) (hb : vpn a + 1 ≤ b)
    (hrest : MappedFrom perm (a + pgsize) (pa + pgsize) b mid after) :
    MappedFrom perm a pa b before after := fun va hva => by
  rw [hrest va hva, hnext, h va hva]
  by_cases hvv : vpn va = vpn a
  · rw [if_neg (by omega), if_pos hvv, if_pos ⟨hvv.ge, by omega⟩, hvv, Nat.sub_self,
      Nat.zero_mul, hv, show (0 : ℕ).toUInt64 = 0 from rfl, UInt64.add_zero]
  · rw [if_neg hvv]
    by_cases hin : vpn a + 1 ≤ vpn va ∧ vpn va < b
    · rw [if_pos hin, if_pos ⟨by omega, hin.2⟩, pa_add_pgsize pa (by omega)]
    · rw [if_neg hin, if_neg (by omega)]

/-- **The loop of `mappages`** from page `a` to page `last`, none of them mapped: it either
maps them all and returns `0`, or returns `-1` when the free list runs out, with the pages
before that mapped and the last one not. -/
theorem mappagesLoop_spec {perm last : UInt64} (hlast : last < maxva) (hal : last.toNat % 4096 = 0) :
    ∀ (n : ℕ) (pm : PhysMem) (tab : Slot → ℕ) (fl : List ℕ) (a pa : UInt64),
      Tree kend pm tab → FreeList kend pm fl → Apart tab fl → a.toNat % 4096 = 0 → a ≤ last →
      (last.toNat - a.toNat) / 4096 < n →
      (∀ va, va < maxva → vpn a ≤ vpn va → vpn va ≤ vpn last → leaf pm tab va &&& pteV = 0) →
      ∃ pm' tab' fl' r b, mappagesLoop (tab .root) perm last n pm a pa = .ok (pm', r) ∧
        Kept kend pm tab fl pm' tab' fl' ∧ vpn a ≤ b ∧ b ≤ vpn last + 1 ∧
        ((r = 0 ∧ b = vpn last + 1) ∨ (r = -1 ∧ fl' = [] ∧ b ≤ vpn last)) ∧
        MappedFrom perm a pa b (leaf pm tab) (leaf pm' tab')
  | 0, _, _, _, _, _, _, _, _, _, _, hn, _ => absurd hn (Nat.not_lt_zero _)
  | n + 1, pm, tab, fl, a, pa, h, hf, hap, ha, hale, hn, hfree => by
    have halt : a < maxva := UInt64.lt_of_le_of_lt hale hlast
    have hale' := UInt64.le_iff_toNat_le.mp hale
    have hvl : vpn a ≤ vpn last := Nat.div_le_div_right hale'
    obtain ⟨tab₁, fl₁, hw, hres⟩ := walk_alloc h hf hap a
    have hap₁ := hw.grows.apart hap
    rw [mappagesLoop, walk_of_lt true halt]
    dsimp only
    rw [← hw.grows.keep _ h.root] at hw hres ⊢
    rcases hres with ⟨hr0, rfl⟩ | ⟨hl, hr⟩
    · -- out of memory: nothing more is mapped
      rw [if_pos hr0]
      refine ⟨_, tab₁, [], -1, vpn a, rfl, hw.toKept, le_rfl, by omega, .inr ⟨rfl, rfl, hvl⟩,
        fun va _ => ?_⟩
      rw [if_neg (by omega), hw.leaf va]
    rw [if_neg (by rw [hr]; omega), hr]
    -- the page is not mapped yet, so there is no remap
    have hremap : (walkFrom true a 2 pm (tab₁ .root)).1.load (tab₁ (leafSlot a) + 8 * px 0 a) &&&
        pteV = 0 := by
      rw [← leaf_eq_load hl, hw.leaf a]
      exact hfree a halt le_rfl hvl
    rw [if_neg (not_not.mpr hremap)]
    have hk := Kept.store hw.tree hw.free hap₁ hl (pa2pte pa ||| perm ||| pteV)
    have hleaf := fun va (hva : va < maxva) =>
      (leaf_store_vpn hw.tree hl halt (pa2pte pa ||| perm ||| pteV) hva).trans
        (by rw [hw.leaf va])
    by_cases hlast' : a = last
    · rw [if_pos hlast']
      subst hlast'
      exact ⟨_, tab₁, fl₁, 0, vpn a + 1, rfl, hw.toKept.trans hk, by omega, le_rfl,
        .inl ⟨rfl, rfl⟩, mappedFrom_one rfl hleaf⟩
    rw [if_neg hlast']
    have hlt : a.toNat + 4096 ≤ last.toNat := by
      have : a.toNat ≠ last.toNat := fun he => hlast' (UInt64.toNat_inj.mp he)
      omega
    have hnext := vpn_add_pgsize halt
    obtain ⟨pm', tab', fl', r, b, heq, hk', hb₁, hb₂, hr', hmap⟩ :=
      mappagesLoop_spec hlast hal n _ tab₁ fl₁ (a + pgsize) (pa + pgsize) hk.tree hk.free hap₁
        (by rw [toNat_add_pgsize halt]; omega)
        (UInt64.le_iff_toNat_le.mpr (by rw [toNat_add_pgsize halt]; exact hlt))
        (by rw [toNat_add_pgsize halt]; omega)
        (fun va hva h₁ h₂ => by
          rw [hleaf va hva, if_neg (by omega)]
          exact hfree va hva (by omega) h₂)
    exact ⟨pm', tab', fl', r, b, heq, (hw.toKept.trans hk).trans hk', by omega, hb₂, hr',
      MappedFrom.cons rfl hleaf hnext (by omega) hmap⟩

/-! ### `mappages` -/

theorem pgrounddown_aligned (a : UInt64) : (pgrounddown a).toNat % 4096 = 0 := by
  rw [pgrounddown_toNat]
  exact Nat.mul_mod_left _ _

theorem toNat_pos_of_ne {x : UInt64} (h : x ≠ 0) : 0 < x.toNat :=
  Nat.pos_of_ne_zero fun h0 => h (UInt64.toNat_inj.mp (by rw [h0]; rfl))

/-- The last byte of a range that fits below `MAXVA`. -/
theorem toNat_last {va size : UInt64} (hsize : size ≠ 0) (hrange : va.toNat + size.toNat ≤ 2 ^ 38) :
    (va + size - 1).toNat = va.toNat + size.toNat - 1 := by
  have hs := toNat_pos_of_ne hsize
  have hsum : (va + size).toNat = va.toNat + size.toNat := by
    rw [UInt64.toNat_add, Nat.mod_eq_of_lt (by omega)]
  have h1 : (1 : UInt64).toNat = 1 := rfl
  rw [UInt64.toNat_sub_of_le _ _ (UInt64.le_iff_toNat_le.mpr (by rw [hsum, h1]; omega)), hsum, h1]

/-- **`mappages(pagetable, va, size, pa, perm)` on a tree** whose pages in the range are not
mapped, the range below `MAXVA`: it either maps every page of the range to consecutive
physical pages from `pa` and returns `0`, or runs out of free pages with the pages before
that mapped and returns `-1`. It never panics, keeps the tree and changes no other leaf. -/
theorem mappages_spec {pm : PhysMem} {tab : Slot → ℕ} {fl : List ℕ} (h : Tree kend pm tab)
    (hf : FreeList kend pm fl) (hap : Apart tab fl) (va size pa perm : UInt64) (hsize : size ≠ 0)
    (hrange : va.toNat + size.toNat ≤ 2 ^ 38)
    (hfree : ∀ va', va' < maxva → vpn va ≤ vpn va' → vpn va' ≤ vpn (va + size - 1) →
      leaf pm tab va' &&& pteV = 0) :
    ∃ pm' tab' fl' r b, mappages pm (tab .root) va size pa perm = .ok (pm', r) ∧
      Kept kend pm tab fl pm' tab' fl' ∧ vpn va ≤ b ∧ b ≤ vpn (va + size - 1) + 1 ∧
      ((r = 0 ∧ b = vpn (va + size - 1) + 1) ∨ (r = -1 ∧ fl' = [] ∧ b ≤ vpn (va + size - 1))) ∧
      MappedFrom perm (pgrounddown va) pa b (leaf pm tab) (leaf pm' tab') := by
  have hl := toNat_last hsize hrange
  have hs := toNat_pos_of_ne hsize
  have hlast : pgrounddown (va + size - 1) < maxva := by
    rw [UInt64.lt_iff_toNat_lt, pgrounddown_toNat, maxva_toNat, hl]
    have := Nat.div_mul_le_self (va.toNat + size.toNat - 1) 4096
    omega
  have hle : pgrounddown va ≤ pgrounddown (va + size - 1) := by
    rw [UInt64.le_iff_toNat_le, pgrounddown_toNat, pgrounddown_toNat, hl]
    exact Nat.mul_le_mul_right _ (Nat.div_le_div_right (by omega))
  have hsub := UInt64.toNat_sub_of_le _ _ hle
  obtain ⟨pm', tab', fl', r, b, heq, hk, hb₁, hb₂, hr, hmap⟩ :=
    @mappagesLoop_spec kend perm _ hlast (pgrounddown_aligned _)
      ((pgrounddown (va + size - 1) - pgrounddown va).toNat / pgsize.toNat + 1) pm tab fl
      (pgrounddown va) pa h hf hap (pgrounddown_aligned _) hle
      (by rw [hsub]; exact Nat.lt_succ_self _)
      (fun va' hva h₁ h₂ => hfree va' hva (by rwa [vpn_pgrounddown] at h₁)
        (by rwa [vpn_pgrounddown] at h₂))
  simp only [vpn_pgrounddown] at hb₁ hb₂ hr
  exact ⟨pm', tab', fl', r, b, by rw [mappages, if_neg hsize]; exact heq, hk, hb₁, hb₂, hr, hmap⟩

end Xv6Lab.Vm
