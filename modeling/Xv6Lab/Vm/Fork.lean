import Xv6Lab.Vm.Grow

/-!
# Copying an address space: `uvmcopy`

`fork` gives the child a copy of the parent's memory with `uvmcopy(old, new, sz)`: for each
page below `sz` it reads the parent's leaf, takes a page from `kalloc`, copies the parent's
page into it with `memmove`, and maps it in the child's table with the parent's flags. A
failure of `kalloc` or of `mappages` gives back the page of the pass and unmaps, freeing them,
the `i / PGSIZE` pages mapped so far.

The two tables live in one physical memory beside one free list. The child's table starts as
an empty address space (`AddrSpace … 0`) none of whose pages the parent uses (`Uses`). The loop
keeps `Copying`:
* every page of the child owned once;
* the pages below the current one mapped to pages from the free list that hold the bytes of
  the parent's page (`Copied`), with the parent's flags;
* the child's other leaves as they were;
* every page taken from the free list free again, a page of the child's tree or one of those
  pages;
* memory changed only in pages that were free or of the child's tree.

The last fact keeps the parent: its tree, its leaves and the bytes of its pages stay as they
were (`Copying.parent`, `AddrSpace.keep`).

* `Copying.pass` — one page: `kalloc`, `memmove`, `mappages`, and on a failure of `mappages`
  the `kfree` of the page;
* `Copying.rollback` — the `uvmunmap` of the error path frees exactly the copies made so far;
* `uvmcopy_all_or_nothing` — the call returns `0` with the child the address space of size
  `sz` that copies the parent page by page into pages that were free, or `-1` with the child's
  mapping as before and every page it took free again or a page of the child's tree; either
  way the parent is the address space of size `sz` it was, with the same leaves and bytes.
-/

namespace Xv6Lab.Vm

open Kalloc ByteMap

variable {kend : UInt64}

/-! ### Copied pages and the pages a tree uses -/

/-- The page `p` of `pm` holds the bytes the page `src` held in `pm₀`. -/
def Copied (pm₀ : PhysMem) (src : ℕ) (pm : PhysMem) (p : ℕ) : Prop :=
  ∀ x, pageOf x = p → pm.bytes x = pm₀.bytes (src + (x - p))

/-- The pages a tree uses in `pm`: its own pages and the pages its valid leaves map. -/
def Uses (pm : PhysMem) (tab : Slot → ℕ) (q : ℕ) : Prop :=
  IsTable tab q ∨ ∃ va, va < maxva ∧ leaf pm tab va &&& pteV ≠ 0 ∧ target (leaf pm tab va) = q

variable {pm₀ pm pm' : PhysMem} {tab tab' : Slot → ℕ} {fl fl' : List ℕ}

theorem Copied.frame {P : ℕ → Prop} {src p : ℕ} (hc : Copied pm₀ src pm p) (hs : Same P pm pm')
    (hp : ¬ P p) : Copied pm₀ src pm' p :=
  fun x hx => (hs x (by rw [hx]; exact hp)).trans (hc x hx)

/-- `memmove(d, s, PGSIZE)` from a page that still holds what it held in `pm₀`. -/
theorem copied_move {P : ℕ → Prop} {d s : ℕ} (hd : d % 4096 = 0) (hsrc : s % 4096 = 0)
    (hs : Same P pm₀ pm) (hP : ¬ P s) : Copied pm₀ s (pm.move d s 4096) d := fun x hx => by
  have hx' : d ≤ x ∧ x < d + 4096 := by unfold pageOf at hx; omega
  show copy pm.bytes d pm.bytes s 4096 x = _
  rw [copy_of_mem _ _ _ _ _ hx']
  exact hs _ (by rw [pageOf_of_mem hsrc (by omega)]; exact hP)

theorem pteFlags_toNat_lt (pte : UInt64) : (pteFlags pte).toNat < 1024 := by
  rw [pteFlags, UInt64.toNat_and]
  exact Nat.and_lt_two_pow _ (show (0x3FF : UInt64).toNat < 2 ^ 10 by decide)

theorem pteFlags_or_toNat_lt (pte : UInt64) : (pteFlags pte ||| pteV).toNat < 1024 := by
  have hf : (pteFlags pte).toNat < 2 ^ 10 := pteFlags_toNat_lt pte
  show _ < 2 ^ 10
  rw [UInt64.toNat_or]
  exact Nat.or_lt_two_pow hf (by decide)

/-- The flags of a valid PTE hold `PTE_V` already. -/
theorem pteFlags_or_pteV {pte : UInt64} (h : pte &&& pteV ≠ 0) :
    pteFlags pte ||| pteV = pteFlags pte := by
  apply UInt64.toBitVec_inj.mp
  apply BitVec.eq_of_getLsbD_eq
  intro i hi
  -- bit 0 of the PTE is `PTE_V`
  have h0 : pte.toBitVec[0] = true := by
    by_contra hb
    apply h
    apply UInt64.toBitVec_inj.mp
    apply BitVec.eq_of_getLsbD_eq
    intro j hj
    rcases Nat.eq_zero_or_pos j with rfl | hj0
    · simpa [pteV] using hb
    · simp [pteV, Nat.ne_of_gt hj0]
  rcases Nat.eq_zero_or_pos i with rfl | hi0
  · simp [pteFlags, pteV, h0]
  · simp [pteFlags, pteV, Nat.ne_of_gt hi0]

/-- The PTE `uvmcopy` writes for a page of RAM, with the flags of a leaf that maps a page of
RAM, maps a page of RAM. -/
theorem dataLeaf_copy {p : ℕ} {l : UInt64} (hp : Page kend p) (hl : DataLeaf kend l) :
    DataLeaf kend (pa2pte p.toUInt64 ||| pteFlags l ||| pteV) := by
  have hf := pteFlags_or_toNat_lt l
  refine ⟨or_pteV_valid _, ?_, by rw [target_pte hp hf]; exact hp⟩
  rw [UInt64.or_assoc, pteFlags_pte _ _ hf, pteFlags_or_pteV hl.1]
  exact hl.2.1

theorem Space.not_mem_of_uses (h : Space kend pm tab fl) {q : ℕ} (hq : Uses pm tab q) : q ∉ fl := by
  rcases hq with ⟨s, hs, rfl⟩ | ⟨va, hva, hv, rfl⟩
  · exact h.apart s hs
  · exact (h.data va hva hv).1

/-- The empty tree of `uvmcreate` uses its root page only. -/
theorem uses_bareTree {r q : ℕ} (hq : Uses pm (bareTree r) q) : q = r := by
  rcases hq with ⟨s, hs, rfl⟩ | ⟨va, -, hv, -⟩
  · by_cases hsr : s = .root
    · rw [hsr]
      exact if_pos rfl
    · exact absurd (if_neg hsr) hs
  · have h0 : leaf pm (bareTree r) va = 0 := if_pos (if_neg fun h => by cases h)
    rw [h0] at hv
    exact absurd UInt64.zero_and hv

/-- **Memory changed only in pages a tree does not use**, and a free list that is part of the
old one, keep the address space, its leaves as they were. -/
theorem AddrSpace.keep {P : ℕ → Prop} {sz : UInt64} (h : AddrSpace kend pm tab fl sz)
    (hs : Same P pm pm') (hP : ∀ q, Uses pm tab q → ¬ P q) (hf : FreeList kend pm' fl')
    (hsub : ∀ q ∈ fl', q ∈ fl) : AddrSpace kend pm' tab fl' sz := by
  have htab : ∀ s, tab s ≠ 0 → ¬ P (tab s) := fun s hs => hP _ (.inl ⟨s, hs, rfl⟩)
  have hleaf := leaf_frame h.tree hs htab
  refine ⟨⟨h.tree.frame hs (htab _ h.tree.root) fun i hi => htab _ hi, hf,
    fun s hs hm => h.apart s hs (hsub _ hm), fun va hva hv => ?_,
    fun va va' hva hva' hv hv' he => ?_⟩, h.sz_le, fun va hva hv => ?_, fun va hva hv => ?_⟩
  · rw [hleaf] at hv ⊢
    obtain ⟨hfl, ht⟩ := h.data va hva hv
    exact ⟨fun hm => hfl (hsub _ hm), ht⟩
  · rw [hleaf] at hv he
    rw [hleaf] at hv' he
    exact h.inj va va' hva hva' hv hv' he
  · rw [hleaf]
    exact h.user va hva hv
  · rw [hleaf]
    exact h.unmapped va hva hv

theorem vpn_pgroundup_zero : vpn (pgroundup 0) = 0 := by decide

/-- The last byte of a page below `MAXVA` lies in that page. -/
theorem vpn_last_of_page {a : UInt64} (hmax : a < maxva) (ha : a.toNat % 4096 = 0) :
    vpn (a + pgsize - 1) = vpn a := by
  have h1 : (a + pgsize).toNat = a.toNat + 4096 := toNat_add_pgsize hmax
  rw [vpn, vpn, UInt64.toNat_sub_of_le _ _
    (UInt64.le_iff_toNat_le.mpr (by rw [h1]; show 1 ≤ a.toNat + 4096; omega)), h1]
  show (a.toNat + 4096 - 1) / 4096 = a.toNat / 4096
  omega

/-! ### The loop of `uvmcopy` -/

section Copying

variable (kend)

/-- The loop of `uvmcopy` at page `a`, copying the parent `old` of `pm₀` into the child
started at `pm₀ tab₀ fl₀`: every page of the child owned once, the pages below `a` copies of
the parent's with its flags, in pages that were free, the others as they were, every page
taken from the free list free again, a page of the child's tree or a copy, and memory changed
only in pages that were free or of the child's tree. -/
structure Copying (pm₀ : PhysMem) (old tab₀ : Slot → ℕ) (fl₀ : List ℕ) (a : UInt64)
    (pm : PhysMem) (tab : Slot → ℕ) (fl : List ℕ) : Prop where
  space : Space kend pm tab fl
  root : tab .root = tab₀ .root
  copied : ∀ va, va < maxva → vpn va < vpn a → ∃ p ∈ fl₀,
    leaf pm tab va = pa2pte p.toUInt64 ||| pteFlags (leaf pm₀ old va) ||| pteV ∧
      Copied pm₀ (target (leaf pm₀ old va)) pm p
  rest : ∀ va, va < maxva → vpn a ≤ vpn va → leaf pm tab va = leaf pm₀ tab₀ va
  sub : ∀ p ∈ fl, p ∈ fl₀
  tables : ∀ q, IsTable tab q → IsTable tab₀ q ∨ q ∈ fl₀
  taken : ∀ p ∈ fl₀, p ∈ fl ∨ IsTable tab p ∨
    ∃ va, va < maxva ∧ vpn va < vpn a ∧ target (leaf pm tab va) = p
  same : Same (fun q => q ∈ fl₀ ∨ IsTable tab₀ q) pm₀ pm

end Copying

section Loop

variable {old tab₀ : Slot → ℕ} {fl₀ : List ℕ} {a : UInt64}

theorem copying_start (h₀ : Space kend pm₀ tab₀ fl₀) (old : Slot → ℕ) :
    Copying kend pm₀ old tab₀ fl₀ 0 pm₀ tab₀ fl₀ :=
  ⟨h₀, rfl, fun _ _ h => absurd h (Nat.not_lt_zero _), fun _ _ _ => rfl, fun _ hp => hp,
    fun _ hq => .inl hq, fun _ hp => .inl hp, Same.refl _ pm₀⟩

/-- The parent, none of whose pages was free or of the child's tree, is as it was. -/
theorem Copying.parent (hg : Copying kend pm₀ old tab₀ fl₀ a pm tab fl) (ht : Tree kend pm₀ old)
    (hP₀ : ∀ q, Uses pm₀ old q → ¬ (q ∈ fl₀ ∨ IsTable tab₀ q)) :
    Tree kend pm old ∧ ∀ va, leaf pm old va = leaf pm₀ old va := by
  have htab : ∀ s, old s ≠ 0 → ¬ (old s ∈ fl₀ ∨ IsTable tab₀ (old s)) :=
    fun s hs => hP₀ _ (.inl ⟨s, hs, rfl⟩)
  exact ⟨ht.frame hg.same (htab _ ht.root) fun i hi => htab _ hi, leaf_frame ht hg.same htab⟩

/-- A copy made so far: a page that was free, neither free now nor a page of the tree, and the
page its leaf maps. -/
theorem Copying.mapped (hg : Copying kend pm₀ old tab₀ fl₀ a pm tab fl)
    (hpage : ∀ p ∈ fl₀, Page kend p) {va : UInt64} (hva : va < maxva) (hlt : vpn va < vpn a) :
    ∃ p ∈ fl₀, leaf pm tab va = pa2pte p.toUInt64 ||| pteFlags (leaf pm₀ old va) ||| pteV ∧
      Copied pm₀ (target (leaf pm₀ old va)) pm p ∧ target (leaf pm tab va) = p ∧
      p ∉ fl ∧ ¬ IsTable tab p := by
  obtain ⟨p, hp, he, hc⟩ := hg.copied va hva hlt
  have hv : leaf pm tab va &&& pteV ≠ 0 := by
    rw [he]
    exact or_pteV_valid _
  have ht : target (leaf pm tab va) = p := by
    rw [he]
    exact target_pte (hpage p hp) (pteFlags_or_toNat_lt _)
  obtain ⟨hfl, htab⟩ := hg.space.data va hva hv
  rw [ht] at hfl htab
  exact ⟨p, hp, he, hc, ht, hfl, htab⟩

/-- A change of memory in pages that were free or of the child's tree keeps memory changed only
there. -/
theorem Copying.same_step {P : ℕ → Prop} (hg : Copying kend pm₀ old tab₀ fl₀ a pm tab fl)
    (hs : Same P pm pm') (hP : ∀ q, P q → q ∈ fl₀ ∨ IsTable tab q) :
    Same (fun q => q ∈ fl₀ ∨ IsTable tab₀ q) pm₀ pm' :=
  (hg.same.trans hs).mono fun q hq =>
    hq.elim id fun hPq => (hP q hPq).elim .inl fun ht => (hg.tables q ht).symm

/-- The loop's state survives a change that touches no copy: memory changed only in pages that
were free or of the tree, the pages of the tree kept, every leaf as it was. -/
theorem Copying.change {P : ℕ → Prop} (hg : Copying kend pm₀ old tab₀ fl₀ a pm tab fl)
    (hpage : ∀ p ∈ fl₀, Page kend p) (hS : Space kend pm' tab' fl') (hroot : tab' .root = tab .root)
    (hs : Same P pm pm') (hP : ∀ q, P q → q ∈ fl ∨ IsTable tab q)
    (hkeep : ∀ q, IsTable tab q → IsTable tab' q) (htab : ∀ q, IsTable tab' q → IsTable tab q ∨ q ∈ fl)
    (hleaf : ∀ va, va < maxva → leaf pm' tab' va = leaf pm tab va) (hsub : ∀ q ∈ fl', q ∈ fl₀)
    (hfl : ∀ q ∈ fl, q ∈ fl' ∨ IsTable tab' q) :
    Copying kend pm₀ old tab₀ fl₀ a pm' tab' fl' where
  space := hS
  root := hroot.trans hg.root
  copied va hva hlt := by
    obtain ⟨p, hp, he, hc, -, hpf, hpt⟩ := hg.mapped hpage hva hlt
    exact ⟨p, hp, by rw [hleaf va hva, he], hc.frame hs fun hPp => (hP p hPp).elim hpf hpt⟩
  rest va hva hle := by rw [hleaf va hva, hg.rest va hva hle]
  sub := hsub
  tables q hq := (htab q hq).elim (hg.tables q) fun hm => .inr (hg.sub q hm)
  taken q hq := by
    rcases hg.taken q hq with hq | hq | ⟨va, hva, hlt, he⟩
    · exact (hfl q hq).elim .inl fun ht => .inr (.inl ht)
    · exact .inr (.inl (hkeep q hq))
    · exact .inr (.inr ⟨va, hva, hlt, by rw [hleaf va hva, he]⟩)
  same := hg.same_step hs fun q hq => (hP q hq).imp_left (hg.sub q)

/-- The loop's state moved on to the next page: the page `p`, taken from the free list and
holding the parent's page at `a`, is mapped at `a` with the parent's flags, and no other copy
is touched. -/
theorem Copying.extend {P : ℕ → Prop} {p : ℕ} (hg : Copying kend pm₀ old tab₀ fl₀ a pm tab fl)
    (hpage : ∀ p ∈ fl₀, Page kend p) (hmax : a < maxva) (hS : Space kend pm' tab' fl')
    (hroot : tab' .root = tab .root) (hs : Same P pm pm') (hP : ∀ q, P q → q ∈ fl ∨ IsTable tab q)
    (hkeep : ∀ q, IsTable tab q → IsTable tab' q) (htab : ∀ q, IsTable tab' q → IsTable tab q ∨ q ∈ fl)
    (hp : p ∈ fl) (hc : Copied pm₀ (target (leaf pm₀ old a)) pm' p)
    (hleaf : ∀ va, va < maxva → leaf pm' tab' va =
      if vpn va = vpn a then pa2pte p.toUInt64 ||| pteFlags (leaf pm₀ old a) ||| pteV
      else leaf pm tab va)
    (hsub : ∀ q ∈ fl', q ∈ fl₀) (hfl : ∀ q ∈ fl, q = p ∨ q ∈ fl' ∨ IsTable tab' q) :
    Copying kend pm₀ old tab₀ fl₀ (a + pgsize) pm' tab' fl' where
  space := hS
  root := hroot.trans hg.root
  copied va hva hlt := by
    rw [vpn_add_pgsize hmax] at hlt
    rw [hleaf va hva]
    by_cases hvv : vpn va = vpn a
    · -- the page of this pass: the parent's leaf at `va` is its leaf at `a`
      rw [if_pos hvv, leaf_congr_vpn pm₀ old hmax hva hvv]
      exact ⟨p, hg.sub p hp, rfl, hc⟩
    · rw [if_neg hvv]
      obtain ⟨q, hq, he, hcq, -, hqf, hqt⟩ := hg.mapped hpage hva (by omega)
      exact ⟨q, hq, he, hcq.frame hs fun hPq => (hP q hPq).elim hqf hqt⟩
  rest va hva hle := by
    rw [vpn_add_pgsize hmax] at hle
    rw [hleaf va hva, if_neg (by omega), hg.rest va hva (by omega)]
  sub := hsub
  tables q hq := (htab q hq).elim (hg.tables q) fun hm => .inr (hg.sub q hm)
  taken q hq := by
    rw [vpn_add_pgsize hmax]
    rcases hg.taken q hq with hq | hq | ⟨va, hva, hlt, he⟩
    · rcases hfl q hq with rfl | hq | hq
      · refine .inr (.inr ⟨a, hmax, by omega, ?_⟩)
        rw [hleaf a hmax, if_pos rfl]
        exact target_pte (hpage _ (hg.sub _ hp)) (pteFlags_or_toNat_lt _)
      · exact .inl hq
      · exact .inr (.inl hq)
    · exact .inr (.inl (hkeep q hq))
    · exact .inr (.inr ⟨va, hva, by omega, by rw [hleaf va hva, if_neg (by omega), he]⟩)
  same := hg.same_step hs fun q hq => (hP q hq).imp_left (hg.sub q)

/-- **The error path of `uvmcopy`**: from the loop's state at page `a`,
`uvmunmap(new, 0, a / PGSIZE, 1)` unmaps and frees exactly the copies made so far, and the
child's mapping is as it was. -/
theorem Copying.rollback (h₀ : AddrSpace kend pm₀ tab₀ fl₀ 0)
    (hg : Copying kend pm₀ old tab₀ fl₀ a pm tab fl)
    (hdata : ∀ va, va < maxva → vpn va < vpn a → DataLeaf kend (leaf pm₀ old va))
    (ha : a.toNat % 4096 = 0) (hat : a ≤ trapframe) :
    ∃ pm' fl', uvmunmap kend pm (tab₀ .root) 0 (a / pgsize) true = .ok pm' ∧
      RolledBack kend pm₀ tab₀ fl₀ pm' tab fl' ∧
      Same (fun q => q ∈ fl₀ ∨ IsTable tab₀ q) pm₀ pm' ∧ ∀ q ∈ fl', q ∈ fl₀ := by
  have hpage := h₀.free.page
  have hat' := UInt64.le_iff_toNat_le.mp hat
  have htf := trapframe_toNat
  have hn : (a / pgsize).toNat = vpn a := by rw [UInt64.toNat_div]; rfl
  have h0 : vpn 0 = 0 := rfl
  rw [← hg.root]
  obtain ⟨pm', freed, hu, hS, hmem, hs, hleaf⟩ := hg.space.unmap 0 (a / pgsize) (by decide)
    (by rw [hn, show (0 : UInt64).toNat = 0 from rfl]; unfold vpn; omega) fun va hva _ h₂ => by
      rw [hn, h0, Nat.zero_add] at h₂
      obtain ⟨p, hp, he, -⟩ := hg.copied va hva h₂
      rw [he]
      exact dataLeaf_copy (hpage p hp) (hdata va hva h₂)
  simp only [hn, h0, Nat.zero_add, Nat.zero_le, true_and] at hmem hleaf
  -- a freed page is a copy, which was free
  have hfreed : ∀ q ∈ freed, q ∈ fl₀ := fun q hq => by
    obtain ⟨va, hva, hlt, rfl⟩ := (hmem q).mp hq
    obtain ⟨p, hp, -, -, ht, -⟩ := hg.mapped hpage hva hlt
    rw [ht]
    exact hp
  refine ⟨pm', freed ++ fl, hu, ⟨hS, hg.root, mapping_eq fun va hva => ?_, fun q hq => ?_⟩,
    hg.same_step hs fun q hq => hq.elim .inr fun hm => .inl (hfreed q hm),
    fun q hq => (List.mem_append.mp hq).elim (hfreed q) (hg.sub q)⟩
  · rw [hleaf va hva]
    by_cases hin : vpn va < vpn a
    · -- a copy, unmapped: the child had nothing there
      rw [if_pos hin]
      exact .inr ⟨UInt64.zero_and, h₀.unmapped va (lt_trapframe_of_vpn hat hin)
        (by rw [vpn_pgroundup_zero]; exact Nat.zero_le _)⟩
    · rw [if_neg hin]
      exact .inl (hg.rest va hva (by omega))
  · rcases hg.taken q hq with hq | hq | ⟨va, hva, hlt, he⟩
    · exact .inl (List.mem_append_right _ hq)
    · exact .inr hq
    · exact .inl (List.mem_append_left _ ((hmem q).mpr ⟨va, hva, hlt, he.symm⟩))

/-- **One pass of the loop of `uvmcopy`** at a page `a` below `TRAPFRAME` that the parent maps
to a page of RAM `src`, none of the child's, the page `p` at the front of the free list:
`kalloc` takes it and `memmove` copies `src` into it. Then `mappages` either maps it at `a`
with the parent's flags, and the loop's state moves on to the next page, or runs out of
page-table pages with nothing mapped, and `kfree` gives `p` back, the state the one at `a`
again. -/
theorem Copying.pass {p : ℕ} {t : List ℕ} (h₀ : AddrSpace kend pm₀ tab₀ fl₀ 0)
    (hg : Copying kend pm₀ old tab₀ fl₀ a pm tab (p :: t)) (hd : DataLeaf kend (leaf pm₀ old a))
    (hsrc : ¬ (target (leaf pm₀ old a) ∈ fl₀ ∨ IsTable tab₀ (target (leaf pm₀ old a))))
    (ha : a.toNat % 4096 = 0) (hat : a.toNat + 4096 ≤ trapframe.toNat)
    (hf₁ : FreeList kend pm.kalloc.1 t) (hs₁ : Same (· = p) pm pm.kalloc.1) :
    ∃ pm₃ tab₃ fl₃ r, mappages (pm.kalloc.1.move p (target (leaf pm₀ old a)) 4096) (tab₀ .root) a
        pgsize p.toUInt64 (pteFlags (leaf pm₀ old a)) = .ok (pm₃, r) ∧
      ((r = 0 ∧ Copying kend pm₀ old tab₀ fl₀ (a + pgsize) pm₃ tab₃ fl₃) ∨
        (r ≠ 0 ∧ ∃ pm₄, pm₃.kfree kend p = .ok pm₄ ∧
          Copying kend pm₀ old tab₀ fl₀ a pm₄ tab₃ [p])) := by
  have hpage : ∀ q ∈ fl₀, Page kend q := h₀.free.page
  have hS := hg.space
  have hp : Page kend p := hS.free.page p List.mem_cons_self
  have hpf₀ : p ∈ fl₀ := hg.sub p List.mem_cons_self
  have htf := trapframe_toNat
  have hmax : a < maxva := UInt64.lt_iff_toNat_lt.mpr (by rw [maxva_toNat]; omega)
  have hperm := pteFlags_or_toNat_lt (leaf pm₀ old a)
  -- `kalloc` and `memmove`: the page `p` belongs to nobody and holds the parent's page
  obtain ⟨hS₁, hu₁⟩ := hS.take hf₁ hs₁
  obtain ⟨hS₂, hu₂⟩ :=
    hS₁.write_unowned hu₁ (same_move pm.kalloc.1 hp.aligned' (target (leaf pm₀ old a))) rfl
  have hs₂ := hs₁.trans (same_move pm.kalloc.1 hp.aligned' (target (leaf pm₀ old a)))
  have hc₂ : Copied pm₀ (target (leaf pm₀ old a))
      (pm.kalloc.1.move p (target (leaf pm₀ old a)) 4096) p :=
    copied_move hp.aligned' hd.2.2.aligned' (hg.same.trans hs₁) fun h => h.elim hsrc fun he =>
      hsrc (.inl (by rw [he]; exact hpf₀))
  have hleaf₂ := leaf_frame hS.tree hs₂ fun s hs he =>
    hS.apart s hs (by rcases he with he | he <;> rw [he] <;> exact List.mem_cons_self)
  -- `a` is not mapped in the child: the loop has not been there yet
  have hlast := vpn_last_of_page hmax ha
  have hfree : ∀ va, va < maxva → vpn a ≤ vpn va → vpn va ≤ vpn (a + pgsize - 1) →
      leaf (pm.kalloc.1.move p (target (leaf pm₀ old a)) 4096) tab va &&& pteV = 0 :=
    fun va hva h₁ h₂ => by
      rw [hlast] at h₂
      rw [hleaf₂ va, hg.rest va hva h₁]
      refine h₀.unmapped va (UInt64.lt_iff_toNat_lt.mpr ?_)
        (by rw [vpn_pgroundup_zero]; exact Nat.zero_le _)
      unfold vpn at h₁ h₂
      omega
  obtain ⟨pm₃, tab₃, fl₃, r, b, hm, hk, hb₁, -, hr, hmap⟩ :=
    mappages_spec hS₂.tree hS₂.free hS₂.apart a pgsize p.toUInt64 (pteFlags (leaf pm₀ old a))
      (by decide) (by rw [show pgsize.toNat = 4096 from rfl]; omega) hfree
  have hdown : pgrounddown a = a := UInt64.toNat_inj.mp (by rw [pgrounddown_toNat]; omega)
  rw [hlast] at hr
  rw [hdown] at hmap
  rw [hg.root] at hm
  have hroot : tab₃ .root = tab .root := hk.grows.keep _ hS.tree.root
  -- memory changed only in `p` and in pages of the tree, which were pages of the tree or free
  have hP₃ : ∀ q, ((q = p ∨ q = p) ∨ IsTable tab₃ q) → q ∈ p :: t ∨ IsTable tab q := by
    rintro q ((rfl | rfl) | hq)
    · exact .inl List.mem_cons_self
    · exact .inl List.mem_cons_self
    · exact (hk.grows.isTable_cases hq).elim .inr fun hm => .inl (List.mem_cons_of_mem _ hm)
  have htab₃ : ∀ q, IsTable tab₃ q → IsTable tab q ∨ q ∈ p :: t := fun q hq =>
    (hk.grows.isTable_cases hq).imp_right (List.mem_cons_of_mem _)
  refine ⟨pm₃, tab₃, fl₃, r, hm, ?_⟩
  rcases hr with ⟨rfl, rfl⟩ | ⟨rfl, rfl, hb⟩
  · -- mapped: the state moves on to the next page
    have hleaf₃ := hmap.single
    refine .inl ⟨rfl, hg.extend hpage hmax
      (hS₂.map_page hk (by rw [target_pte hp hperm]; exact hu₂) hleaf₃) hroot (hs₂.trans hk.same)
      hP₃ (fun q => hk.grows.isTable) htab₃ List.mem_cons_self
      (hc₂.frame hk.same fun ht => (hk.grows.isTable_cases ht).elim hu₂.2.1 hu₂.1)
      (fun va hva => by rw [hleaf₃ va hva, hleaf₂ va])
      (fun q hq => hg.sub q (List.mem_cons_of_mem _ (hk.grows.suffix.subset hq))) fun q hq => ?_⟩
    rcases List.mem_cons.mp hq with rfl | hq
    · exact .inl rfl
    · by_cases hq' : q ∈ fl₃
      · exact .inr (.inl hq')
      · exact .inr (.inr (hk.grows.taken q hq hq'))
  · -- out of page-table pages: nothing mapped, and `p` goes back on the free list
    obtain rfl : b = vpn a := by omega
    have hleaf₃ := hmap.empty
    have hS₃ := hS₂.kept hk hleaf₃
    have hu₃ := hu₂.kept hk hleaf₃
    obtain ⟨pm₄, hkf, hS₄, hs₄⟩ := hS₃.give hu₃ hp
    refine .inr ⟨by decide, pm₄, hkf, hg.change hpage hS₄ hroot ((hs₂.trans hk.same).trans hs₄)
      (fun q hq => hq.elim (hP₃ q) fun he => .inl (he ▸ List.mem_cons_self))
      (fun q => hk.grows.isTable) htab₃
      (fun va hva => by
        rw [leaf_frame hS₃.tree hs₄ (fun s hs he => hu₃.2.1 ⟨s, hs, he⟩), hleaf₃ va hva, hleaf₂ va])
      (fun q hq => by rw [List.mem_singleton.mp hq]; exact hpf₀)
      fun q hq => ?_⟩
    rcases List.mem_cons.mp hq with rfl | hq
    · exact .inl List.mem_cons_self
    · exact .inr (hk.grows.taken q hq List.not_mem_nil)

/-! ### The loop and the call -/

/-- `walk(old, va, 0)` on the parent's tree at a page it maps: the address of its leaf. -/
theorem walk_leaf {old : Slot → ℕ} (ht : Tree kend pm old) (hmax : a < maxva)
    (hv : leaf pm old a &&& pteV ≠ 0) :
    ∃ w, walk pm (old .root) a false = .ok (pm, w) ∧ w ≠ 0 ∧ pm.load w = leaf pm old a := by
  have hs : old (leafSlot a) ≠ 0 := fun h0 => hv (by rw [leaf, if_pos h0]; rfl)
  refine ⟨old (leafSlot a) + 8 * px 0 a, ?_, by omega, (if_neg hs).symm⟩
  rw [walk_of_lt _ hmax, ht.walkFrom_false, if_neg hs]

theorem uvmcopyLoop_kalloc_zero {old : Slot → ℕ} {new n : ℕ} {sz : UInt64} (hlt : a < sz)
    (ht : Tree kend pm old) (hmax : a < maxva) (hv : leaf pm old a &&& pteV ≠ 0)
    (hk : pm.kalloc = (pm, 0)) :
    uvmcopyLoop kend (old .root) new sz (n + 1) pm a =
      (uvmunmap kend pm new 0 (a / pgsize) true).map (·, -1) := by
  obtain ⟨w, hw, hw0, hlw⟩ := walk_leaf ht hmax hv
  simp only [uvmcopyLoop, if_pos hlt, hw, if_neg hw0, hlw, if_neg hv, hk]

theorem uvmcopyLoop_mapped {old : Slot → ℕ} {new n mem : ℕ} {sz : UInt64} {pm₁ pm₃ : PhysMem}
    (hlt : a < sz) (ht : Tree kend pm old) (hmax : a < maxva) (hv : leaf pm old a &&& pteV ≠ 0)
    (hk : pm.kalloc = (pm₁, mem)) (hm0 : mem ≠ 0)
    (hm : mappages (pm₁.move mem (target (leaf pm old a)) 4096) new a pgsize mem.toUInt64
      (pteFlags (leaf pm old a)) = .ok (pm₃, 0)) :
    uvmcopyLoop kend (old .root) new sz (n + 1) pm a =
      uvmcopyLoop kend (old .root) new sz n pm₃ (a + pgsize) := by
  obtain ⟨w, hw, hw0, hlw⟩ := walk_leaf ht hmax hv
  obtain ⟨q, rfl⟩ := Nat.exists_eq_succ_of_ne_zero hm0
  simp only [uvmcopyLoop, if_pos hlt, hw, if_neg hw0, hlw, if_neg hv, hk,
    show pgsize.toNat = 4096 from rfl]
  rw [target] at hm
  simp only [hm]
  rfl

theorem uvmcopyLoop_unmapped {old : Slot → ℕ} {new n mem : ℕ} {sz : UInt64} {pm₁ pm₃ pm₄ : PhysMem}
    {r : ℤ} (hlt : a < sz) (ht : Tree kend pm old) (hmax : a < maxva)
    (hv : leaf pm old a &&& pteV ≠ 0) (hk : pm.kalloc = (pm₁, mem)) (hm0 : mem ≠ 0)
    (hm : mappages (pm₁.move mem (target (leaf pm old a)) 4096) new a pgsize mem.toUInt64
      (pteFlags (leaf pm old a)) = .ok (pm₃, r)) (hr : r ≠ 0) (hf : pm₃.kfree kend mem = .ok pm₄) :
    uvmcopyLoop kend (old .root) new sz (n + 1) pm a =
      (uvmunmap kend pm₄ new 0 (a / pgsize) true).map (·, -1) := by
  obtain ⟨w, hw, hw0, hlw⟩ := walk_leaf ht hmax hv
  obtain ⟨q, rfl⟩ := Nat.exists_eq_succ_of_ne_zero hm0
  simp only [uvmcopyLoop, if_pos hlt, hw, if_neg hw0, hlw, if_neg hv, hk,
    show pgsize.toNat = 4096 from rfl]
  rw [target] at hm
  simp only [hm, ne_eq, hr, not_false_eq_true, if_true, hf]

/-- **The loop of `uvmcopy`** from a state at page `a`, with fuel for the pages left below
`sz`: it reaches `PGROUNDUP(sz)` and returns `0`, or rolls back and returns `-1`. The
induction is on the fuel; `Copying.pass` and `Copying.rollback` carry each pass. -/
theorem uvmcopyLoop_spec {sz : UInt64} (hold : AddrSpace kend pm₀ old fl₀ sz)
    (h₀ : AddrSpace kend pm₀ tab₀ fl₀ 0) (hP₀ : ∀ q, Uses pm₀ old q → ¬ (q ∈ fl₀ ∨ IsTable tab₀ q)) :
    ∀ (n : ℕ) (pm : PhysMem) (tab : Slot → ℕ) (fl : List ℕ) (a : UInt64),
      Copying kend pm₀ old tab₀ fl₀ a pm tab fl →
      a.toNat % 4096 = 0 → a.toNat ≤ (pgroundup sz).toNat → sz.toNat ≤ a.toNat + 4096 * n →
      ∃ pm' tab' fl' r, uvmcopyLoop kend (old .root) (tab₀ .root) sz n pm a = .ok (pm', r) ∧
        ((r = 0 ∧ Copying kend pm₀ old tab₀ fl₀ (pgroundup sz) pm' tab' fl') ∨
          (r = -1 ∧ RolledBack kend pm₀ tab₀ fl₀ pm' tab' fl' ∧
            Same (fun q => q ∈ fl₀ ∨ IsTable tab₀ q) pm₀ pm' ∧ ∀ q ∈ fl', q ∈ fl₀))
  | 0, pm, tab, fl, a, hg, ha, h₂, hn => by
    -- out of fuel only with the loop done: `a` is `PGROUNDUP(sz)`
    have hP := toNat_pgroundup_of_le hold.sz_le
    obtain rfl : a = pgroundup sz := UInt64.toNat_inj.mp (by rw [hP] at h₂ ⊢; omega)
    exact ⟨pm, tab, fl, 0, rfl, .inl ⟨rfl, hg⟩⟩
  | n + 1, pm, tab, fl, a, hg, ha, h₂, hn => by
    have hP := toNat_pgroundup_of_le hold.sz_le
    have hsz := UInt64.le_iff_toNat_le.mp hold.sz_le
    have htf := trapframe_toNat
    by_cases hlt : a < sz
    · have hlt' := UInt64.lt_iff_toNat_lt.mp hlt
      have hat : a.toNat + 4096 ≤ trapframe.toNat := by rw [hP] at h₂; omega
      have hatf : a ≤ trapframe := UInt64.le_iff_toNat_le.mpr (by omega)
      have hmax : a < maxva := UInt64.lt_iff_toNat_lt.mpr (by rw [maxva_toNat]; omega)
      have hvsz : vpn a < vpn (pgroundup sz) := by
        rw [vpn_pgroundup_of_le hold.sz_le]
        unfold vpn
        omega
      -- the parent as it was: its leaf at `a` maps a page of RAM the child does not touch
      obtain ⟨ht, hleafo⟩ := hg.parent hold.tree hP₀
      have hd : DataLeaf kend (leaf pm₀ old a) := hold.user a hmax hvsz
      have hv : leaf pm old a &&& pteV ≠ 0 := by
        rw [hleafo]
        exact hd.1
      have hsrc := hP₀ _ (.inr ⟨a, hmax, hd.1, rfl⟩)
      have hdata : ∀ va, va < maxva → vpn va < vpn a → DataLeaf kend (leaf pm₀ old va) :=
        fun va hva h => hold.user va hva (by omega)
      rcases hg.space.free.kalloc with ⟨rfl, hk⟩ | ⟨p, t, rfl, hkp, hf₁, hs₁⟩
      · -- `kalloc` fails: roll back
        obtain ⟨pm', fl', hu, hrb, hs', hsub'⟩ := hg.rollback h₀ hdata ha hatf
        exact ⟨pm', tab, fl', -1, by rw [uvmcopyLoop_kalloc_zero hlt ht hmax hv hk, hu]; rfl,
          .inr ⟨rfl, hrb, hs', hsub'⟩⟩
      have hp0 : p ≠ 0 := (hg.space.free.page p List.mem_cons_self).ne_zero
      have hk : pm.kalloc = (pm.kalloc.1, p) := Prod.ext rfl hkp
      obtain ⟨pm₃, tab₃, fl₃, r, hm, ⟨rfl, hg'⟩ | ⟨hr, pm₄, hf, hg'⟩⟩ :=
        hg.pass h₀ hd hsrc ha hat hf₁ hs₁
      · -- mapped: the next page
        rw [← hleafo a] at hm
        have hnext := toNat_add_pgsize hmax
        obtain ⟨pm', tab', fl', r', heq, hres⟩ := uvmcopyLoop_spec hold h₀ hP₀ n pm₃ tab₃ fl₃
          (a + pgsize) hg' (by omega) (by rw [hP] at h₂ ⊢; omega) (by omega)
        exact ⟨pm', tab', fl', r', by rw [uvmcopyLoop_mapped hlt ht hmax hv hk hp0 hm, heq], hres⟩
      · -- `mappages` fails: `kfree` of the page, then roll back
        rw [← hleafo a] at hm
        obtain ⟨pm', fl', hu, hrb, hs', hsub'⟩ := hg'.rollback h₀ hdata ha hatf
        exact ⟨pm', tab₃, fl', -1, by rw [uvmcopyLoop_unmapped hlt ht hmax hv hk hp0 hm hr hf, hu]; rfl,
          .inr ⟨rfl, hrb, hs', hsub'⟩⟩
    · -- the loop is done: `a` is `PGROUNDUP(sz)`
      have hge := UInt64.le_iff_toNat_le.mp (UInt64.not_lt.mp hlt)
      obtain rfl : a = pgroundup sz := UInt64.toNat_inj.mp (by rw [hP] at h₂ ⊢; omega)
      exact ⟨pm, tab, fl, 0, by rw [uvmcopyLoop, if_neg hlt], .inl ⟨rfl, hg⟩⟩

/-- The loop done at `PGROUNDUP(sz)`: the child is the address space of size `sz`. -/
theorem Copying.addrSpace {sz : UInt64} (hold : AddrSpace kend pm₀ old fl₀ sz)
    (h₀ : AddrSpace kend pm₀ tab₀ fl₀ 0)
    (hg : Copying kend pm₀ old tab₀ fl₀ (pgroundup sz) pm tab fl) : AddrSpace kend pm tab fl sz where
  toSpace := hg.space
  sz_le := hold.sz_le
  user va hva hv := by
    obtain ⟨p, hp, he, -⟩ := hg.copied va hva hv
    rw [he]
    exact dataLeaf_copy (h₀.free.page p hp) (hold.user va hva hv)
  unmapped va hva hv := by
    rw [hg.rest va (lt_maxva_of_lt_trapframe hva) hv]
    exact h₀.unmapped va hva (by rw [vpn_pgroundup_zero]; exact Nat.zero_le _)

end Loop

/-! ### `uvmcopy` -/

/-- The parent's pages are neither free nor pages of the child's tree. -/
theorem uses_apart {old new : Slot → ℕ} {sz : UInt64} (hold : AddrSpace kend pm old fl sz)
    (hsep : ∀ q, IsTable new q → ¬ Uses pm old q) :
    ∀ q, Uses pm old q → ¬ (q ∈ fl ∨ IsTable new q) :=
  fun q hq h => h.elim (hold.not_mem_of_uses hq) fun ht => hsep q ht hq

/-- **`uvmcopy(old, new, sz)` copies or changes nothing.** With the parent `old` the address
space of size `sz` and the child `new` the empty address space, on one memory and free list,
none of the child's pages used by the parent: `uvmcopy` never panics, and either returns `0`
with the child the address space of size `sz` whose every page below `sz` maps, with the
parent's flags, a page that was free and is none of the parent's, holding the bytes of the
parent's page; or returns `-1` with the child's mapping as before and every page it took free
again or a page of the child's tree. Either way the parent is the address space of size `sz`
over the new free list, with the same leaves and the same bytes in every page it uses. -/
theorem uvmcopy_all_or_nothing {old new : Slot → ℕ} {sz : UInt64}
    (hold : AddrSpace kend pm old fl sz) (hnew : AddrSpace kend pm new fl 0)
    (hsep : ∀ q, IsTable new q → ¬ Uses pm old q) :
    ∃ pm' new' fl' r, uvmcopy kend pm (old .root) (new .root) sz = .ok (pm', r) ∧
      new' .root = new .root ∧ AddrSpace kend pm' old fl' sz ∧
      (∀ va, leaf pm' old va = leaf pm old va) ∧
      (∀ q, Uses pm old q → ∀ x, pageOf x = q → pm'.bytes x = pm.bytes x) ∧
      ((r = 0 ∧ AddrSpace kend pm' new' fl' sz ∧
          ∀ va, va < maxva → vpn va < vpn (pgroundup sz) → ∃ p ∈ fl, ¬ Uses pm old p ∧
            leaf pm' new' va = pa2pte p.toUInt64 ||| pteFlags (leaf pm old va) ||| pteV ∧
            Copied pm (target (leaf pm old va)) pm' p) ∨
        (r = -1 ∧ AddrSpace kend pm' new' fl' 0 ∧ mapping (leaf pm' new') = mapping (leaf pm new) ∧
          ∀ p ∈ fl, p ∈ fl' ∨ IsTable new' p)) := by
  have hP₀ := uses_apart hold hsep
  have hsz := UInt64.le_iff_toNat_le.mp hold.sz_le
  have hPs := toNat_pgroundup_of_le hold.sz_le
  obtain ⟨pm', new', fl', r, heq, hres⟩ := uvmcopyLoop_spec hold hnew hP₀
    (sz.toNat / pgsize.toNat + 1) pm new fl 0 (copying_start hnew.toSpace old) rfl
    (Nat.zero_le _) (by rw [show pgsize.toNat = 4096 from rfl, show (0 : UInt64).toNat = 0 from rfl]; omega)
  -- the parent: memory changed only in pages it does not use, the free list part of the old one
  have hkeep : ∀ {fl' : List ℕ}, FreeList kend pm' fl' → (∀ q ∈ fl', q ∈ fl) →
      Same (fun q => q ∈ fl ∨ IsTable new q) pm pm' →
      AddrSpace kend pm' old fl' sz ∧ (∀ va, leaf pm' old va = leaf pm old va) ∧
        ∀ q, Uses pm old q → ∀ x, pageOf x = q → pm'.bytes x = pm.bytes x :=
    fun hf hsub hs => ⟨hold.keep hs hP₀ hf hsub,
      leaf_frame hold.tree hs fun s hs => hP₀ _ (.inl ⟨s, hs, rfl⟩),
      fun q hq x hx => hs x (by rw [hx]; exact hP₀ q hq)⟩
  rcases hres with ⟨rfl, hg⟩ | ⟨rfl, hrb, hs, hsub⟩
  · obtain ⟨ho, hl, hb⟩ := hkeep hg.space.free hg.sub hg.same
    refine ⟨pm', new', fl', 0, heq, hg.root, ho, hl, hb,
      .inl ⟨rfl, hg.addrSpace hold hnew, fun va hva hv => ?_⟩⟩
    obtain ⟨p, hp, he, hc⟩ := hg.copied va hva hv
    exact ⟨p, hp, fun hu => hold.not_mem_of_uses hu hp, he, hc⟩
  · obtain ⟨ho, hl, hb⟩ := hkeep hrb.space.free hsub hs
    exact ⟨pm', new', fl', -1, heq, hrb.root, ho, hl, hb,
      .inr ⟨rfl, hnew.of_mapping hrb.space hrb.mapping_eq, hrb.mapping_eq, hrb.given⟩⟩

/-- The process of two pages as the parent, and a child made by `uvmcreate` from its free
list, with pages left for the copy; copied as `fork` copies them. -/
theorem uvmcopy_all_or_nothing_twoPage :
    ∃ pm old new fl, AddrSpace kernelEnd pm old fl 8192 ∧ AddrSpace kernelEnd pm new fl 0 ∧
      fl ≠ [] ∧ (∀ q, IsTable new q → ¬ Uses pm old q) ∧
      ∃ pm' new' fl' r, uvmcopy kernelEnd pm (old .root) (new .root) 8192 = .ok (pm', r) ∧
        new' .root = new .root ∧ AddrSpace kernelEnd pm' old fl' 8192 ∧
        (∀ va, leaf pm' old va = leaf pm old va) ∧
        (∀ q, Uses pm old q → ∀ x, pageOf x = q → pm'.bytes x = pm.bytes x) ∧
        ((r = 0 ∧ AddrSpace kernelEnd pm' new' fl' 8192 ∧
            ∀ va, va < maxva → vpn va < vpn (pgroundup 8192) → ∃ p ∈ fl, ¬ Uses pm old p ∧
              leaf pm' new' va = pa2pte p.toUInt64 ||| pteFlags (leaf pm old va) ||| pteV ∧
              Copied pm (target (leaf pm old va)) pm' p) ∨
          (r = -1 ∧ AddrSpace kernelEnd pm' new' fl' 0 ∧
            mapping (leaf pm' new') = mapping (leaf pm new) ∧ ∀ p ∈ fl, p ∈ fl' ∨ IsTable new' p)) := by
  obtain ⟨pm₀, old, q, t, hold₀, ht, -⟩ := twoPage_addrSpace
  -- the child's root is the first free page, which the parent does not use
  have hnew := uvmcreate_addrSpace hold₀.free
  rcases hold₀.free.kalloc with ⟨hnil, -⟩ | ⟨q', t', he, -, -, hs₁⟩
  · exact absurd hnil (List.cons_ne_nil _ _)
  obtain ⟨rfl, rfl⟩ := List.cons.inj he
  have hs := hs₁.trans (same_fill _ (hold₀.free.page q List.mem_cons_self).aligned' 0)
  have hq : ∀ p, Uses pm₀ old p → p ≠ q := fun p hp hpq =>
    hold₀.not_mem_of_uses hp (hpq ▸ List.mem_cons_self)
  have hold := hold₀.keep hs (fun p hp h => h.elim (hq p hp) (hq p hp)) hnew.free
    fun _ hp => List.mem_cons_of_mem _ hp
  have hleaf : ∀ va, leaf (pm₀.kalloc.1.fill q 0 4096) old va = leaf pm₀ old va :=
    leaf_frame hold₀.tree hs fun s hs' h => h.elim (hq _ (.inl ⟨s, hs', rfl⟩)) (hq _ (.inl ⟨s, hs', rfl⟩))
  have hsep : ∀ p, IsTable (bareTree q) p → ¬ Uses (pm₀.kalloc.1.fill q 0 4096) old p :=
    fun p hp hu => by
      have hpq : p = q := uses_bareTree (.inl hp : Uses (pm₀.kalloc.1.fill q 0 4096) _ p)
      apply hq p _ hpq
      rcases hu with ht' | ⟨va, hva, hv, he⟩
      · exact .inl ht'
      · exact .inr ⟨va, hva, hleaf va ▸ hv, hleaf va ▸ he⟩
  exact ⟨_, _, _, _, hold, hnew, ht, hsep, uvmcopy_all_or_nothing hold hnew hsep⟩

end Xv6Lab.Vm
