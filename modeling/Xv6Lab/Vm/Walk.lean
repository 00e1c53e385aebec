import Xv6Lab.Vm.Table

/-!
# `walk` with allocation

`walk(pagetable, va, 1)` descends the tree and hangs a fresh page from the free list into
every missing entry on the way to `va`. On a tree whose pages are not free
(`Apart tab fl`), what it leaves is again a tree (`Walked`): the old pages in their slots,
new pages only from the front of the free list, memory changed only in pages of the tree,
and every leaf as it was. It returns the address of the leaf PTE for `va`, or `0` with the
free list used up (`walk_alloc`).
-/

namespace Xv6Lab.Vm

open Kalloc ByteMap ListSeg

/-! ### One level of `walk` -/

theorem walkFrom_of_valid {alloc : Bool} {va : UInt64} {level : ℕ} {pm : PhysMem} {pt : ℕ}
    (h : pm.load (pt + 8 * px (level + 1) va) &&& pteV ≠ 0) :
    walkFrom alloc va (level + 1) pm pt =
      walkFrom alloc va level pm (pte2pa (pm.load (pt + 8 * px (level + 1) va))).toNat := by
  rw [walkFrom]
  exact if_pos h

/-- A missing entry and no free page: `walk` returns `0`. -/
theorem walkFrom_of_kalloc_zero {va : UInt64} {level : ℕ} {pm pm₁ : PhysMem} {pt : ℕ}
    (h : pm.load (pt + 8 * px (level + 1) va) &&& pteV = 0) (hk : pm.kalloc = (pm₁, 0)) :
    walkFrom true va (level + 1) pm pt = (pm₁, 0) := by
  rw [walkFrom]
  dsimp only
  rw [if_neg (not_not.mpr h), if_neg (by decide), hk]
  rfl

/-- A missing entry: `walk` zeroes a page from `kalloc`, points the entry at it and goes on
below it. -/
theorem walkFrom_of_kalloc {va : UInt64} {level : ℕ} {pm pm₁ : PhysMem} {pt p : ℕ}
    (h : pm.load (pt + 8 * px (level + 1) va) &&& pteV = 0) (hk : pm.kalloc = (pm₁, p))
    (hp : p ≠ 0) :
    walkFrom true va (level + 1) pm pt =
      walkFrom true va level ((pm₁.fill p 0 4096).store (pt + 8 * px (level + 1) va) (entry p)) p := by
  obtain ⟨q, rfl⟩ := Nat.exists_eq_succ_of_ne_zero hp
  rw [walkFrom]
  dsimp only
  rw [if_neg (not_not.mpr h), if_neg (by decide), hk, entry, if_neg hp]
  rfl

/-! ### What a walk leaves -/

/-- `tab'` is `tab` with pages from the front of the free list hung into empty slots. -/
structure Grows (tab tab' : Slot → ℕ) (fl fl' : List ℕ) : Prop where
  suffix : fl' <:+ fl
  keep : ∀ s, tab s ≠ 0 → tab' s = tab s
  fresh : ∀ s, tab s = 0 → tab' s ≠ 0 → tab' s ∈ fl ∧ tab' s ∉ fl'
  taken : ∀ q ∈ fl, q ∉ fl' → IsTable tab' q

theorem Grows.isTable {tab tab' : Slot → ℕ} {fl fl' : List ℕ} (h : Grows tab tab' fl fl') {q : ℕ}
    (hq : IsTable tab q) : IsTable tab' q := by
  obtain ⟨s, hs, rfl⟩ := hq
  exact ⟨s, by rw [h.keep s hs]; exact hs, h.keep s hs⟩

/-- A page of the grown tree was a page of the tree or free. -/
theorem Grows.isTable_cases {tab tab' : Slot → ℕ} {fl fl' : List ℕ} (h : Grows tab tab' fl fl')
    {q : ℕ} (hq : IsTable tab' q) : IsTable tab q ∨ q ∈ fl := by
  obtain ⟨s, hs, rfl⟩ := hq
  by_cases hs0 : tab s = 0
  · exact .inr (h.fresh s hs0 hs).1
  · exact .inl ⟨s, hs0, (h.keep s hs0).symm⟩

theorem Grows.refl (tab : Slot → ℕ) (fl : List ℕ) : Grows tab tab fl fl :=
  ⟨List.suffix_refl fl, fun _ _ => rfl, fun _ h h' => absurd h h', fun _ hq hq' => absurd hq hq'⟩

theorem Grows.trans {tab tab' tab'' : Slot → ℕ} {fl fl' fl'' : List ℕ} (h : Grows tab tab' fl fl')
    (h' : Grows tab' tab'' fl' fl'') : Grows tab tab'' fl fl'' where
  suffix := h'.suffix.trans h.suffix
  keep s hs := (h'.keep s (by rw [h.keep s hs]; exact hs)).trans (h.keep s hs)
  fresh s hs hs'' := by
    by_cases hs' : tab' s = 0
    · obtain ⟨hin, hout⟩ := h'.fresh s hs' hs''
      exact ⟨h.suffix.subset hin, hout⟩
    · rw [h'.keep s hs']
      obtain ⟨hin, hout⟩ := h.fresh s hs hs'
      exact ⟨hin, fun hm => hout (h'.suffix.subset hm)⟩
  taken q hq hq'' := by
    by_cases hq' : q ∈ fl'
    · exact h'.taken q hq' hq''
    · exact h'.isTable (h.taken q hq hq')

/-- The pages of the tree are not free. -/
def Apart (tab : Slot → ℕ) (fl : List ℕ) : Prop := ∀ s, tab s ≠ 0 → tab s ∉ fl

theorem Grows.apart {tab tab' : Slot → ℕ} {fl fl' : List ℕ} (h : Grows tab tab' fl fl')
    (ha : Apart tab fl) : Apart tab' fl' := fun s hs => by
  by_cases hs0 : tab s = 0
  · exact (h.fresh s hs0 hs).2
  · rw [h.keep s hs0]
    exact fun hm => ha s hs0 (h.suffix.subset hm)

section Walked

variable (kend : UInt64)

/-- Memory `pm'` holds the tree `tab'`, which grew out of `tab` with pages from the front of
the free list, and differs from `pm` only in pages of that tree. -/
structure Kept (pm : PhysMem) (tab : Slot → ℕ) (fl : List ℕ) (pm' : PhysMem) (tab' : Slot → ℕ)
    (fl' : List ℕ) : Prop where
  grows : Grows tab tab' fl fl'
  tree : Tree kend pm' tab'
  free : FreeList kend pm' fl'
  same : Same (IsTable tab') pm pm'

/-- What `walk` leaves: the tree kept, and every leaf as it was. -/
structure Walked (pm : PhysMem) (tab : Slot → ℕ) (fl : List ℕ) (pm' : PhysMem) (tab' : Slot → ℕ)
    (fl' : List ℕ) : Prop extends Kept kend pm tab fl pm' tab' fl' where
  leaf : ∀ va, leaf pm' tab' va = leaf pm tab va

end Walked

variable {kend : UInt64}

theorem Kept.refl {pm : PhysMem} {tab : Slot → ℕ} {fl : List ℕ} (h : Tree kend pm tab)
    (hf : FreeList kend pm fl) : Kept kend pm tab fl pm tab fl :=
  ⟨Grows.refl tab fl, h, hf, Same.refl _ pm⟩

theorem Kept.trans {pm pm' pm'' : PhysMem} {tab tab' tab'' : Slot → ℕ} {fl fl' fl'' : List ℕ}
    (h : Kept kend pm tab fl pm' tab' fl') (h' : Kept kend pm' tab' fl' pm'' tab'' fl'') :
    Kept kend pm tab fl pm'' tab'' fl'' where
  grows := h.grows.trans h'.grows
  tree := h'.tree
  free := h'.free
  same := (h.same.trans h'.same).mono fun _ hq => hq.elim h'.grows.isTable id

theorem Walked.refl {pm : PhysMem} {tab : Slot → ℕ} {fl : List ℕ} (h : Tree kend pm tab)
    (hf : FreeList kend pm fl) : Walked kend pm tab fl pm tab fl :=
  ⟨Kept.refl h hf, fun _ => rfl⟩

theorem Walked.trans {pm pm' pm'' : PhysMem} {tab tab' tab'' : Slot → ℕ} {fl fl' fl'' : List ℕ}
    (h : Walked kend pm tab fl pm' tab' fl') (h' : Walked kend pm' tab' fl' pm'' tab'' fl'') :
    Walked kend pm tab fl pm'' tab'' fl'' :=
  ⟨h.toKept.trans h'.toKept, fun va => (h'.leaf va).trans (h.leaf va)⟩

/-- One page hung into the empty slot `x`, below the entry at word `w`. -/
theorem Walked.attach {pm : PhysMem} {tab : Slot → ℕ} {p : ℕ} {t : List ℕ} {x : Slot} {w : ℕ}
    (h : Tree kend pm tab) (hf : FreeList kend pm (p :: t)) (ha : Apart tab (p :: t))
    (hx : tab x = 0) (hk : FreeList kend pm.kalloc.1 t) (hs : Same (· = p) pm pm.kalloc.1)
    (hw : w % 8 = 0) (hwt : IsTable tab (pageOf w))
    (hwl : ∀ i j, tab (.low i j) ≠ 0 → pageOf w ≠ tab (.low i j))
    (htree : Tree kend ((pm.kalloc.1.fill p 0 4096).store w (entry p)) (Function.update tab x p)) :
    Walked kend pm tab (p :: t) ((pm.kalloc.1.fill p 0 4096).store w (entry p))
      (Function.update tab x p) t := by
  have hp := hf.page p List.mem_cons_self
  have hnew : ∀ s, tab s ≠ 0 → tab s ≠ p := fun s hs he => ha s hs (he ▸ List.mem_cons_self)
  have hwp : pageOf w ≠ p := by
    obtain ⟨s, hs, he⟩ := hwt
    exact he ▸ hnew s hs
  have hpt : p ∉ t := (List.nodup_cons.mp hf.seg.nodup).1
  refine ⟨⟨⟨List.suffix_cons p t, fun s hs => ?_, fun s hs hs' => ?_, fun q hq hqt => ?_⟩, htree, ?_, ?_⟩,
    leaf_attach h hx hw hwl hp hnew hs hwp⟩
  · rw [Function.update_of_ne (fun hsx : s = x => hs (by rw [hsx]; exact hx))]
  · have hsx : s = x := by
      by_contra hsx
      rw [Function.update_of_ne hsx] at hs'
      exact hs' hs
    subst hsx
    rw [Function.update_self]
    exact ⟨List.mem_cons_self, hpt⟩
  · -- the one page taken is the new page of the tree
    obtain rfl : q = p := (List.mem_cons.mp hq).resolve_right hqt
    exact ⟨x, by rw [Function.update_self]; exact hp.ne_zero, Function.update_self ..⟩
  · refine hk.frame (same_attach _ hp.aligned' hw) rfl fun q hq hqw => ?_
    rcases hqw with rfl | hqw
    · exact hpt hq
    · obtain ⟨s, hs, he⟩ := hwt
      exact ha s hs (by rw [he, ← hqw]; exact List.mem_cons_of_mem _ hq)
  · refine ((hs.trans (same_attach _ hp.aligned' hw)).mono fun q hq => ?_)
    rcases hq with rfl | rfl | rfl
    · exact ⟨x, by rw [Function.update_self]; exact hp.ne_zero, Function.update_self ..⟩
    · exact ⟨x, by rw [Function.update_self]; exact hp.ne_zero, Function.update_self ..⟩
    · obtain ⟨s, hs, he⟩ := hwt
      exact ⟨s, by rw [Function.update_of_ne (fun hsx : s = x => hs (by rw [hsx]; exact hx))]; exact hs,
        by rw [Function.update_of_ne (fun hsx : s = x => hs (by rw [hsx]; exact hx))]; exact he⟩

/-- What `walk` returns: the address of the leaf PTE for `va` in the tree, or `0` with the
free list used up. -/
def WalkResult (r : ℕ) (tab : Slot → ℕ) (fl : List ℕ) (va : UInt64) : Prop :=
  (r = 0 ∧ fl = []) ∨ (tab (leafSlot va) ≠ 0 ∧ r = tab (leafSlot va) + 8 * px 0 va)

theorem entry_zero_and : entry 0 &&& pteV = 0 := by
  rw [entry_zero]
  rfl

/-- The level-1 step of `walk` with allocation, from the level-1 page on the way to `va`. -/
theorem walk_mid {pm : PhysMem} {tab : Slot → ℕ} {fl : List ℕ} (h : Tree kend pm tab)
    (hf : FreeList kend pm fl) (ha : Apart tab fl) (va : UInt64)
    (hm : tab (.mid ⟨px 2 va, px_lt 2 va⟩) ≠ 0) :
    ∃ tab' fl', Walked kend pm tab fl (walkFrom true va 1 pm (tab (.mid ⟨px 2 va, px_lt 2 va⟩))).1
      tab' fl' ∧ WalkResult (walkFrom true va 1 pm (tab (.mid ⟨px 2 va, px_lt 2 va⟩))).2 tab' fl' va := by
  have hmid := h.midPte ⟨px 2 va, px_lt 2 va⟩ ⟨px 1 va, px_lt 1 va⟩ hm
  have hc := (h.page _ hm).aligned'
  by_cases hl : tab (leafSlot va) = 0
  · have hv : pm.load (tab (.mid ⟨px 2 va, px_lt 2 va⟩) + 8 * px (0 + 1) va) &&& pteV = 0 := by
      rw [hmid]
      exact hl ▸ entry_zero_and
    rcases hf.kalloc with ⟨rfl, hk⟩ | ⟨p, t, rfl, hkp, hkf, hks⟩
    · rw [walkFrom_of_kalloc_zero hv hk]
      exact ⟨tab, [], Walked.refl h hf, .inl ⟨rfl, rfl⟩⟩
    have hp := hf.page p List.mem_cons_self
    have hk : pm.kalloc = (pm.kalloc.1, p) := by rw [← hkp]
    rw [walkFrom_of_kalloc hv hk hp.ne_zero, walkFrom]
    refine ⟨Function.update tab (leafSlot va) p, t, ?_, .inr ⟨?_, ?_⟩⟩
    · -- the new level-0 page hangs from the level-1 page on the way
      have hw := entry_mod_eight (i := px 1 va) hc
      have hpage : pageOf (tab (.mid ⟨px 2 va, px_lt 2 va⟩) + 8 * px 1 va) =
          tab (.mid ⟨px 2 va, px_lt 2 va⟩) := pageOf_entry hc (px_lt 1 va)
      refine Walked.attach h hf ha hl hkf hks hw (by rw [hpage]; exact isTable_of_ne _ hm)
        (fun i j hl' he => ?_) (h.attachLow hm hl hp (fun s hs he => ha s hs (he ▸ List.mem_cons_self)) hks)
      rw [hpage] at he
      exact absurd (h.inj _ _ hm he) (by simp)
    · rw [Function.update_self]
      exact hp.ne_zero
    · rw [Function.update_self]
  · have hl' : tab (.low ⟨px 2 va, px_lt 2 va⟩ ⟨px 1 va, px_lt 1 va⟩) ≠ 0 := hl
    have hq := h.page _ hl'
    have hv : pm.load (tab (.mid ⟨px 2 va, px_lt 2 va⟩) + 8 * px (0 + 1) va) &&& pteV ≠ 0 := by
      rw [hmid]
      exact entry_and_pteV hl
    rw [walkFrom_of_valid hv, hmid, pte2pa_entry hl' hq.aligned' hq.toNat_lt, walkFrom]
    exact ⟨tab, fl, Walked.refl h hf, .inr ⟨hl, rfl⟩⟩

/-- **`walk(pagetable, va, 1)` on a tree.** It hangs new pages from the front of the free
list into the missing entries on the way to `va` and returns the address of the leaf PTE for
`va`, or `0` when the free list runs out. -/
theorem walk_alloc {pm : PhysMem} {tab : Slot → ℕ} {fl : List ℕ} (h : Tree kend pm tab)
    (hf : FreeList kend pm fl) (ha : Apart tab fl) (va : UInt64) :
    ∃ tab' fl', Walked kend pm tab fl (walkFrom true va 2 pm (tab .root)).1 tab' fl' ∧
      WalkResult (walkFrom true va 2 pm (tab .root)).2 tab' fl' va := by
  have hroot := h.rootPte ⟨px 2 va, px_lt 2 va⟩
  have hr := (h.page _ h.root).aligned'
  by_cases hm : tab (.mid ⟨px 2 va, px_lt 2 va⟩) = 0
  · have hv : pm.load (tab .root + 8 * px (1 + 1) va) &&& pteV = 0 := by
      rw [hroot]
      exact hm ▸ entry_zero_and
    rcases hf.kalloc with ⟨rfl, hk⟩ | ⟨p, t, rfl, hkp, hkf, hks⟩
    · rw [walkFrom_of_kalloc_zero hv hk]
      exact ⟨tab, [], Walked.refl h hf, .inl ⟨rfl, rfl⟩⟩
    have hp := hf.page p List.mem_cons_self
    have hk : pm.kalloc = (pm.kalloc.1, p) := by rw [← hkp]
    rw [walkFrom_of_kalloc hv hk hp.ne_zero]
    -- the new level-1 page hangs from the root; below it the level-1 step goes on
    have hw := entry_mod_eight (i := px 2 va) hr
    have hpage : pageOf (tab .root + 8 * px 2 va) = tab .root := pageOf_entry hr (px_lt 2 va)
    have hw₁ := Walked.attach (x := .mid ⟨px 2 va, px_lt 2 va⟩) h hf ha hm hkf hks hw
      (by rw [hpage]; exact isTable_of_ne _ h.root)
      (fun i j _ he => absurd (h.inj .root (.low i j) h.root (hpage.symm.trans he)) (by simp))
      (h.attachMid hm hp (fun s hs he => ha s hs (he ▸ List.mem_cons_self)) hks)
    have hmid := walk_mid hw₁.tree hw₁.free (hw₁.grows.apart ha) va
      (by rw [Function.update_self]; exact hp.ne_zero)
    rw [Function.update_self] at hmid
    obtain ⟨tab', fl', hw₂, hres⟩ := hmid
    exact ⟨tab', fl', hw₁.trans hw₂, hres⟩
  · have hq := h.page _ hm
    have hv : pm.load (tab .root + 8 * px (1 + 1) va) &&& pteV ≠ 0 := by
      rw [hroot]
      exact entry_and_pteV hm
    rw [walkFrom_of_valid hv, hroot, pte2pa_entry hm hq.aligned' hq.toNat_lt]
    exact walk_mid h hf ha va hm

end Xv6Lab.Vm
