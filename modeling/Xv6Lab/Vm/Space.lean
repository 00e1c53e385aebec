import Xv6Lab.Vm.Unmap

/-!
# The pages an address space owns

`Space kend pm tab fl` is a page-table tree in memory beside the free list of `kalloc`, with
every page owned once: the pages of the tree are not free, and the pages the valid leaves
map are neither free nor pages of the tree, and are distinct. This is what makes the
allocations of `walk` and `kalloc` safe for the address space: a page taken from the free
list is no page the table or its leaves use.

Each operation of `kernel/vm.c` keeps it: `Space.walked` (a `walk`), `Space.map_page` (a
leaf set to a page nobody owns), `Space.take` (`kalloc` and a `memset` of the page it
returns), `Space.give` (`kfree` of a page nobody owns), `Space.unmap` (`uvmunmap`).
-/

namespace Xv6Lab.Vm

open Kalloc

variable {kend : UInt64}

section Space

variable (kend)

/-- A tree whose pages, the pages its valid leaves map, and the free pages are all apart. -/
structure Space (pm : PhysMem) (tab : Slot → ℕ) (fl : List ℕ) : Prop where
  tree : Tree kend pm tab
  free : FreeList kend pm fl
  apart : Apart tab fl
  data : ∀ va, va < maxva → leaf pm tab va &&& pteV ≠ 0 →
    target (leaf pm tab va) ∉ fl ∧ ¬ IsTable tab (target (leaf pm tab va))
  inj : ∀ va va', va < maxva → va' < maxva → leaf pm tab va &&& pteV ≠ 0 →
    leaf pm tab va' &&& pteV ≠ 0 → target (leaf pm tab va) = target (leaf pm tab va') →
    vpn va = vpn va'

end Space

variable {pm pm' : PhysMem} {tab tab' : Slot → ℕ} {fl fl' : List ℕ}

/-- A page nobody owns: not free, not a page of the tree, not mapped by a valid leaf. -/
def Unowned (pm : PhysMem) (tab : Slot → ℕ) (fl : List ℕ) (p : ℕ) : Prop :=
  p ∉ fl ∧ ¬ IsTable tab p ∧ ∀ va, va < maxva → leaf pm tab va &&& pteV ≠ 0 → target (leaf pm tab va) ≠ p

/-- A tree grown from free pages, with every leaf below `MAXVA` as it was, keeps every page
owned once. -/
theorem Space.kept (h : Space kend pm tab fl) (hk : Kept kend pm tab fl pm' tab' fl')
    (hleaf : ∀ va, va < maxva → leaf pm' tab' va = leaf pm tab va) : Space kend pm' tab' fl' where
  tree := hk.tree
  free := hk.free
  apart := hk.grows.apart h.apart
  data va hva hv := by
    rw [hleaf va hva] at hv ⊢
    obtain ⟨hfl, ht⟩ := h.data va hva hv
    exact ⟨fun hm => hfl (hk.grows.suffix.subset hm),
      fun ht' => (hk.grows.isTable_cases ht').elim ht hfl⟩
  inj va va' hva hva' hv hv' he := by
    rw [hleaf va hva] at hv he
    rw [hleaf va' hva'] at hv' he
    exact h.inj va va' hva hva' hv hv' he

/-- A tree grown by `walk` keeps every page owned once: its new pages were free. -/
theorem Space.walked (h : Space kend pm tab fl) (hw : Walked kend pm tab fl pm' tab' fl') :
    Space kend pm' tab' fl' :=
  h.kept hw.toKept fun va _ => hw.leaf va

/-- A page nobody owns stays so while the tree grows from free pages and no leaf changes. -/
theorem Unowned.kept {p : ℕ} (hp : Unowned pm tab fl p) (hk : Kept kend pm tab fl pm' tab' fl')
    (hleaf : ∀ va, va < maxva → leaf pm' tab' va = leaf pm tab va) : Unowned pm' tab' fl' p :=
  ⟨fun hm => hp.1 (hk.grows.suffix.subset hm), fun ht => (hk.grows.isTable_cases ht).elim hp.2.1 hp.1,
    fun va hva hv => by
      rw [hleaf va hva] at hv ⊢
      exact hp.2.2 va hva hv⟩

/-- Memory changed only outside the pages the space owns leaves it as it was. -/
theorem Space.frame {P : ℕ → Prop} (h : Space kend pm tab fl) (hs : Same P pm pm')
    (htab : ∀ s, tab s ≠ 0 → ¬ P (tab s)) (hfl : ∀ p ∈ fl, ¬ P p) (hl : pm'.freelist = pm.freelist) :
    Space kend pm' tab fl := by
  have hleaf := leaf_frame h.tree hs htab
  exact ⟨h.tree.frame hs (htab _ h.tree.root) fun i hi => htab _ hi, h.free.frame hs hl hfl, h.apart,
    fun va hva hv => by rw [hleaf] at hv ⊢; exact h.data va hva hv,
    fun va va' hva hva' hv hv' he => by
      rw [hleaf] at hv he
      rw [hleaf] at hv' he
      exact h.inj va va' hva hva' hv hv' he⟩

/-- **`kalloc` and a `memset`**: the page `p` taken from the front of the free list belongs to
nobody, and writing it changes nothing the space owns. -/
theorem Space.take {p : ℕ} {t : List ℕ} (h : Space kend pm tab (p :: t)) {pm₁ : PhysMem}
    (hf : FreeList kend pm₁ t) (hs : Same (· = p) pm pm₁) :
    Space kend pm₁ tab t ∧ Unowned pm₁ tab t p := by
  have hnd := List.nodup_cons.mp h.free.seg.nodup
  have htab : ∀ s, tab s ≠ 0 → tab s ≠ p := fun s hs he => h.apart s hs (he ▸ List.mem_cons_self)
  have hleaf := leaf_frame h.tree hs htab
  refine ⟨⟨h.tree.frame hs (htab _ h.tree.root) fun i hi => htab _ hi, hf,
      fun s hs hm => h.apart s hs (List.mem_cons_of_mem _ hm), fun va hva hv => ?_,
      fun va va' hva hva' hv hv' he => ?_⟩, hnd.1, fun ⟨s, hs, he⟩ => htab s hs he,
      fun va hva hv he => ?_⟩
  · rw [hleaf] at hv ⊢
    obtain ⟨hfl, ht⟩ := h.data va hva hv
    exact ⟨fun hm => hfl (List.mem_cons_of_mem _ hm), ht⟩
  · rw [hleaf] at hv he
    rw [hleaf] at hv' he
    exact h.inj va va' hva hva' hv hv' he
  · rw [hleaf] at hv he
    exact (h.data va hva hv).1 (he ▸ List.mem_cons_self)

theorem Space.write_unowned {p : ℕ} (h : Space kend pm tab fl) (hp : Unowned pm tab fl p)
    (hs : Same (· = p) pm pm') (hl : pm'.freelist = pm.freelist) :
    Space kend pm' tab fl ∧ Unowned pm' tab fl p := by
  have htab : ∀ s, tab s ≠ 0 → tab s ≠ p := fun s hs he => hp.2.1 ⟨s, hs, he⟩
  have hleaf := leaf_frame h.tree hs htab
  refine ⟨h.frame hs htab (fun q hq he => hp.1 (he ▸ hq)) hl, hp.1, hp.2.1, fun va hva hv => ?_⟩
  rw [hleaf] at hv ⊢
  exact hp.2.2 va hva hv

/-- **`kfree` of a page nobody owns** puts it back on the free list. -/
theorem Space.give {p : ℕ} (h : Space kend pm tab fl) (hp : Unowned pm tab fl p)
    (hpage : Page kend p) :
    ∃ pm', pm.kfree kend p = .ok pm' ∧ Space kend pm' tab (p :: fl) ∧ Same (· = p) pm pm' := by
  obtain ⟨pm', hk, hf, hs⟩ := h.free.kfree hpage hp.1
  have htab : ∀ s, tab s ≠ 0 → tab s ≠ p := fun s hs he => hp.2.1 ⟨s, hs, he⟩
  have hleaf := leaf_frame h.tree hs htab
  refine ⟨pm', hk, ⟨h.tree.frame hs (htab _ h.tree.root) fun i hi => htab _ hi, hf,
    fun s hs hm => ?_, fun va hva hv => ?_, fun va va' hva hva' hv hv' he => ?_⟩, hs⟩
  · rcases List.mem_cons.mp hm with he | hm
    · exact htab s hs he
    · exact h.apart s hs hm
  · rw [hleaf] at hv ⊢
    obtain ⟨hfl, ht⟩ := h.data va hva hv
    exact ⟨fun hm => (List.mem_cons.mp hm).elim (hp.2.2 va hva hv) hfl, ht⟩
  · rw [hleaf] at hv he
    rw [hleaf] at hv' he
    exact h.inj va va' hva hva' hv hv' he

/-- **A leaf set to a page nobody owns**, the tree kept: the page is owned once again. -/
theorem Space.map_page {a v : UInt64} (h : Space kend pm tab fl) (hk : Kept kend pm tab fl pm' tab' fl')
    (hp : Unowned pm tab fl (target v))
    (hleaf : ∀ va, va < maxva → leaf pm' tab' va = if vpn va = vpn a then v else leaf pm tab va) :
    Space kend pm' tab' fl' := by
  -- the new pages of the tree were free, so they are neither `target v` nor a mapped page
  have htab' : ∀ q, IsTable tab' q → IsTable tab q ∨ q ∈ fl := fun _ => hk.grows.isTable_cases
  have hnew : ∀ va, va < maxva → leaf pm' tab' va &&& pteV ≠ 0 →
      (vpn va = vpn a ∧ leaf pm' tab' va = v) ∨
        (vpn va ≠ vpn a ∧ leaf pm' tab' va = leaf pm tab va) := fun va hva _ => by
    rw [hleaf va hva]
    by_cases hvv : vpn va = vpn a
    · exact .inl ⟨hvv, by rw [if_pos hvv]⟩
    · exact .inr ⟨hvv, by rw [if_neg hvv]⟩
  refine ⟨hk.tree, hk.free, hk.grows.apart h.apart, fun va hva hv => ?_,
    fun va va' hva hva' hv hv' he => ?_⟩
  · rcases hnew va hva hv with ⟨-, he⟩ | ⟨-, he⟩
    · rw [he]
      exact ⟨fun hm => hp.1 (hk.grows.suffix.subset hm),
        fun ht => (htab' _ ht).elim hp.2.1 hp.1⟩
    · rw [he] at hv ⊢
      obtain ⟨hfl, ht⟩ := h.data va hva hv
      exact ⟨fun hm => hfl (hk.grows.suffix.subset hm),
        fun ht' => (htab' _ ht').elim ht hfl⟩
  · rcases hnew va hva hv with ⟨h₁, e₁⟩ | ⟨h₁, e₁⟩ <;>
      rcases hnew va' hva' hv' with ⟨h₂, e₂⟩ | ⟨h₂, e₂⟩
    · exact h₁.trans h₂.symm
    · rw [e₁, e₂] at he
      rw [e₂] at hv'
      exact absurd he.symm (hp.2.2 va' hva' hv')
    · rw [e₁, e₂] at he
      rw [e₁] at hv
      exact absurd he (hp.2.2 va hva hv)
    · rw [e₁, e₂] at he
      rw [e₁] at hv
      rw [e₂] at hv'
      exact h.inj va va' hva hva' hv hv' he

/-- A leaf PTE that maps a page of RAM: valid, no pointer to a lower level, and its page one
that `kfree` takes back. -/
def DataLeaf (kend pte : UInt64) : Prop :=
  pte &&& pteV ≠ 0 ∧ pteFlags pte ≠ pteV ∧ Page kend (target pte)

/-- The PTE that `mappages` writes for a page `p` of RAM points at `p`. -/
theorem target_pte {p : ℕ} {f : UInt64} (hp : Page kend p) (hf : (f ||| pteV).toNat < 1024) :
    target (pa2pte p.toUInt64 ||| f ||| pteV) = p := by
  have hal := hp.aligned'
  have hlt := hp.toNat_lt
  rw [target, UInt64.or_assoc, pte2pa_toNat _ _ hf, Nat.toUInt64_eq, UInt64.toNat_ofNat',
    Nat.mod_eq_of_lt hlt]
  omega

/-- `mappages` of a page of RAM with user flags writes a leaf that maps it. -/
theorem dataLeaf_pte {p : ℕ} {xperm : UInt64} (hp : Page kend p) (hx : xperm.toNat < 1024) :
    DataLeaf kend (pa2pte p.toUInt64 ||| (pteR ||| pteU ||| xperm) ||| pteV) := by
  have hf := userFlags_toNat_lt hx
  refine ⟨or_pteV_valid _, ?_, by rw [target_pte hp hf]; exact hp⟩
  rw [UInt64.or_assoc, pteFlags_pte _ _ hf]
  exact userFlags_ne_pteV xperm

/-- **`uvmunmap` with `do_free`** of a range of pages mapped by leaves to pages of RAM: it
never panics and keeps every page owned once, with the pages it frees on the free list. -/
theorem Space.unmap (h : Space kend pm tab fl) (va npages : UInt64) (hal : va.toNat % 4096 = 0)
    (hrange : va.toNat + 4096 * npages.toNat ≤ 2 ^ 38)
    (hmap : ∀ va', va' < maxva → vpn va ≤ vpn va' → vpn va' < vpn va + npages.toNat →
      DataLeaf kend (leaf pm tab va')) :
    ∃ pm' freed, uvmunmap kend pm (tab .root) va npages true = .ok pm' ∧
      Space kend pm' tab (freed ++ fl) ∧
      (∀ q, q ∈ freed ↔ ∃ va', va' < maxva ∧ vpn va ≤ vpn va' ∧
        vpn va' < vpn va + npages.toNat ∧ q = target (leaf pm tab va')) ∧
      Same (fun q => IsTable tab q ∨ q ∈ freed) pm pm' ∧
      ∀ va', va' < maxva → leaf pm' tab va' =
        if vpn va ≤ vpn va' ∧ vpn va' < vpn va + npages.toNat then 0 else leaf pm tab va' := by
  obtain ⟨pm', freed, heq, ht, hf, hmem, hs, hleaf⟩ :=
    uvmunmap_spec h.tree h.free h.apart va npages true hal hrange
      (fun va' hva h₁ h₂ => ⟨(hmap va' hva h₁ h₂).1, (hmap va' hva h₁ h₂).2.1⟩)
      (fun _ va' hva h₁ h₂ => ⟨(hmap va' hva h₁ h₂).2.2, h.data va' hva (hmap va' hva h₁ h₂).1⟩)
      (fun _ va' va'' hva hva' h₁ h₂ h₁' h₂' he =>
        h.inj va' va'' hva hva' (hmap va' hva h₁ h₂).1 (hmap va'' hva' h₁' h₂').1 he)
  have hmem' : ∀ q, q ∈ freed ↔ ∃ va', va' < maxva ∧ vpn va ≤ vpn va' ∧
      vpn va' < vpn va + npages.toNat ∧ q = target (leaf pm tab va') :=
    fun q => (hmem q).trans (and_iff_right rfl)
  -- a leaf still valid afterwards lies outside the range and is the leaf it was
  have hold : ∀ va', va' < maxva → leaf pm' tab va' &&& pteV ≠ 0 →
      ¬ (vpn va ≤ vpn va' ∧ vpn va' < vpn va + npages.toNat) ∧ leaf pm' tab va' = leaf pm tab va' :=
    fun va' hva hv => by
      rw [hleaf va' hva] at hv ⊢
      by_cases hin : vpn va ≤ vpn va' ∧ vpn va' < vpn va + npages.toNat
      · rw [if_pos hin] at hv
        exact absurd rfl hv
      · exact ⟨hin, if_neg hin⟩
  -- a freed page was mapped in the range, so it is no page of the tree and no other leaf's
  have hfreed : ∀ q ∈ freed, ¬ IsTable tab q ∧ ∀ va', va' < maxva → leaf pm tab va' &&& pteV ≠ 0 →
      target (leaf pm tab va') = q → vpn va ≤ vpn va' ∧ vpn va' < vpn va + npages.toNat :=
    fun q hq => by
      obtain ⟨va'', hva'', h₁, h₂, rfl⟩ := (hmem' q).mp hq
      have hv'' := (hmap va'' hva'' h₁ h₂).1
      refine ⟨(h.data va'' hva'' hv'').2, fun va' hva hv he => ?_⟩
      have := h.inj va' va'' hva hva'' hv hv'' he
      omega
  refine ⟨pm', freed, heq, ⟨ht, hf, fun s hs hm => ?_, fun va' hva hv => ?_,
    fun va' va'' hva hva' hv hv' he => ?_⟩, hmem', hs, hleaf⟩
  · rcases List.mem_append.mp hm with hm | hm
    · exact (hfreed _ hm).1 ⟨s, hs, rfl⟩
    · exact h.apart s hs hm
  · obtain ⟨hout, he⟩ := hold va' hva hv
    rw [he] at hv ⊢
    obtain ⟨hfl, htab⟩ := h.data va' hva hv
    refine ⟨fun hm => ?_, htab⟩
    rcases List.mem_append.mp hm with hm | hm
    · exact hout ((hfreed _ hm).2 va' hva hv rfl)
    · exact hfl hm
  · have e₁ := (hold va' hva hv).2
    have e₂ := (hold va'' hva' hv').2
    rw [e₁] at hv he
    rw [e₂] at hv' he
    exact h.inj va' va'' hva hva' hv hv' he

end Xv6Lab.Vm
