import Xv6Lab.Vm.Pte
import Xv6Lab.Kalloc.Partition

/-!
# The shape of a page table in physical memory

A user page table is a tree of page-table pages: the root, a level-1 page under each valid
root entry, a level-0 page under each valid level-1 entry. `tab : Slot → ℕ` names the page
at each place of the tree, `0` where there is none, and `Tree kend pm tab` says that memory
holds that tree: every entry of the root and of a level-1 page is `0` or `PA2PTE(c) | PTE_V`
for the page `c` below it, and the pages are distinct pages `kalloc` may hand out. The
level-0 pages hold the leaves, which the tree does not constrain.

`FreeList kend pm fl` reads the free list of `kalloc` out of memory: the first words of
the pages `fl` link them from `kmem.freelist`.

* `Same P pm pm'` — `pm'` differs from `pm` only in the pages `P`; the tree and the free list
  only read their own pages (`Tree.frame`, `FreeList.frame`);
* `Tree.walk_false` — without allocation, `walk` finds the leaf of the tree or `0`;
* `FreeList.kalloc` — what `kalloc` does to the free list in memory.
-/

namespace Xv6Lab.Kalloc

theorem Page.toNat_lt {kend : UInt64} {p : ℕ} (h : Page kend p) : p < 2 ^ 64 := by
  have := h.below_heap
  have := phystop_lt_two_pow
  omega

theorem Page.aligned' {kend : UInt64} {p : ℕ} (h : Page kend p) : p % 4096 = 0 := h.aligned

end Xv6Lab.Kalloc

namespace Xv6Lab.Vm

open Kalloc ByteMap ListSeg

/-! ### Pages of physical memory -/

/-- The page of a physical address. -/
def pageOf (x : ℕ) : ℕ := x / 4096 * 4096

/-- `pm'` differs from `pm` only in the pages `P`. -/
def Same (P : ℕ → Prop) (pm pm' : PhysMem) : Prop := ∀ x, ¬ P (pageOf x) → pm'.bytes x = pm.bytes x

theorem Same.refl (P : ℕ → Prop) (pm : PhysMem) : Same P pm pm := fun _ _ => rfl

theorem Same.trans {P Q : ℕ → Prop} {pm pm' pm'' : PhysMem} (h : Same P pm pm') (h' : Same Q pm' pm'') :
    Same (fun q => P q ∨ Q q) pm pm'' := fun x hx =>
  (h' x fun hq => hx (.inr hq)).trans (h x fun hp => hx (.inl hp))

theorem Same.mono {P Q : ℕ → Prop} {pm pm' : PhysMem} (h : Same P pm pm') (hPQ : ∀ q, P q → Q q) :
    Same Q pm pm' := fun x hx => h x fun hp => hx (hPQ _ hp)

theorem pageOf_of_mem {p x : ℕ} (hp : p % 4096 = 0) (h : p ≤ x ∧ x < p + 4096) : pageOf x = p := by
  unfold pageOf
  omega

theorem same_fill (pm : PhysMem) {p : ℕ} (hp : p % 4096 = 0) (c : UInt8) :
    Same (· = p) pm (pm.fill p c 4096) := fun x hx =>
  fill_of_not_mem _ (by
    by_contra hin
    exact hx (pageOf_of_mem hp (by omega)))

/-- A word at an address of a multiple of eight lies in one page. -/
theorem pageOf_word {a t : ℕ} (ha : a % 8 = 0) (ht : t < 8) : pageOf (a + t) = pageOf a := by
  unfold pageOf
  omega

theorem same_store (pm : PhysMem) {a : ℕ} (ha : a % 8 = 0) (v : UInt64) :
    Same (· = pageOf a) pm (pm.store a v) := fun x hx =>
  setLE_of_not_mem _ (by
    by_contra hin
    exact hx (by rw [show x = a + (x - a) by omega]; exact pageOf_word ha (by omega)))

theorem same_move (pm : PhysMem) {d : ℕ} (hd : d % 4096 = 0) (s : ℕ) :
    Same (· = d) pm (pm.move d s 4096) := fun x hx =>
  copy_of_not_mem _ _ _ _ _ (by
    by_contra hin
    exact hx (pageOf_of_mem hd (by omega)))

/-- A word outside the changed pages reads as before. -/
theorem Same.load {P : ℕ → Prop} {pm pm' : PhysMem} (h : Same P pm pm') {a : ℕ} (ha : a % 8 = 0)
    (hP : ¬ P (pageOf a)) : pm'.load a = pm.load a := by
  unfold PhysMem.load
  rw [getLE_congr _ fun t ht => h (a + t) (by rwa [pageOf_word ha ht])]

theorem Same.getLE {P : ℕ → Prop} {pm pm' : PhysMem} (h : Same P pm pm') {a : ℕ} (ha : a % 8 = 0)
    (hP : ¬ P (pageOf a)) : getLE pm'.bytes a 8 = getLE pm.bytes a 8 :=
  getLE_congr _ fun t ht => h (a + t) (by rwa [pageOf_word ha ht])

/-- The words of a page: `p + 8 * i` for `i < 512` lies in page `p`. -/
theorem pageOf_entry {p i : ℕ} (hp : p % 4096 = 0) (hi : i < 512) : pageOf (p + 8 * i) = p :=
  pageOf_of_mem hp (by omega)

theorem entry_mod_eight {p i : ℕ} (hp : p % 4096 = 0) : (p + 8 * i) % 8 = 0 := by
  omega

/-! ### The tree -/

/-- A place in the tree: the root, the level-1 page under root entry `i`, the level-0 page
under root entry `i` and level-1 entry `j`. -/
inductive Slot
  | root
  | mid (i : Fin 512)
  | low (i j : Fin 512)
  deriving DecidableEq

/-- The entry that points at the page-table page `c`, `0` for none. -/
def entry (c : ℕ) : UInt64 := if c = 0 then 0 else pa2pte c.toUInt64 ||| pteV

section Tree

variable (kend : UInt64)

/-- Memory `pm` holds the page-table tree `tab`. -/
structure Tree (pm : PhysMem) (tab : Slot → ℕ) : Prop where
  root : tab .root ≠ 0
  inj : ∀ s t, tab s ≠ 0 → tab s = tab t → s = t
  page : ∀ s, tab s ≠ 0 → Page kend (tab s)
  parent : ∀ i j, tab (.low i j) ≠ 0 → tab (.mid i) ≠ 0
  rootPte : ∀ i : Fin 512, pm.load (tab .root + 8 * i) = entry (tab (.mid i))
  midPte : ∀ i j : Fin 512, tab (.mid i) ≠ 0 →
    pm.load (tab (.mid i) + 8 * j) = entry (tab (.low i j))

/-- The free list of `kalloc`, read out of memory: the pages `fl`, linked through their first
words from `kmem.freelist`. -/
structure FreeList (pm : PhysMem) (fl : List ℕ) : Prop where
  seg : Seg id 0 (fun a => getLE pm.bytes a 8) pm.freelist fl
  page : ∀ p ∈ fl, Page kend p

end Tree

/-- `p` is one of the pages of the tree. -/
def IsTable (tab : Slot → ℕ) (p : ℕ) : Prop := ∃ s, tab s ≠ 0 ∧ tab s = p

/-- The level-0 slot on the way to `va`. -/
def leafSlot (va : UInt64) : Slot := .low ⟨px 2 va, px_lt 2 va⟩ ⟨px 1 va, px_lt 1 va⟩

/-- The leaf PTE of the tree for `va`, `0` where the tree has no level-0 page for it. -/
def leaf (pm : PhysMem) (tab : Slot → ℕ) (va : UInt64) : UInt64 :=
  if tab (leafSlot va) = 0 then 0 else pm.load (tab (leafSlot va) + 8 * px 0 va)

variable {kend : UInt64}

theorem entry_and_pteV {c : ℕ} (hc : c ≠ 0) : entry c &&& pteV ≠ 0 := by
  rw [entry, if_neg hc, pte_and _ _ _ (by decide) (by decide)]
  decide

theorem entry_zero : entry 0 = 0 := if_pos rfl

/-- The page an entry points at. -/
theorem pte2pa_entry {c : ℕ} (hc : c ≠ 0) (hal : c % 4096 = 0) (hlt : c < 2 ^ 64) :
    (pte2pa (entry c)).toNat = c := by
  rw [entry, if_neg hc, pte2pa_toNat _ _ (by decide), Nat.toUInt64_eq, UInt64.toNat_ofNat',
    Nat.mod_eq_of_lt hlt]
  omega

theorem isTable_of_ne {tab : Slot → ℕ} (s : Slot) (hs : tab s ≠ 0) : IsTable tab (tab s) :=
  ⟨s, hs, rfl⟩

/-- The tree only reads the words of its root and level-1 pages. -/
theorem Tree.frame {P : ℕ → Prop} {pm pm' : PhysMem} {tab : Slot → ℕ} (h : Tree kend pm tab)
    (hs : Same P pm pm') (hroot : ¬ P (tab .root)) (hmid : ∀ i, tab (.mid i) ≠ 0 → ¬ P (tab (.mid i))) :
    Tree kend pm' tab where
  root := h.root
  inj := h.inj
  page := h.page
  parent := h.parent
  rootPte i := by
    have hal := (h.page _ h.root).aligned'
    rw [hs.load (entry_mod_eight hal) (by rw [pageOf_entry hal i.isLt]; exact hroot)]
    exact h.rootPte i
  midPte i j hi := by
    have hal := (h.page _ hi).aligned'
    rw [hs.load (entry_mod_eight hal) (by rw [pageOf_entry hal j.isLt]; exact hmid i hi)]
    exact h.midPte i j hi

/-- A list linked through first words only reads the first words of its pages. -/
theorem seg_frame {P : ℕ → Prop} {pm pm' : PhysMem} {a : ℕ} {fl : List ℕ}
    (h : Seg id 0 (fun a => getLE pm.bytes a 8) a fl) (hal : ∀ p ∈ fl, p % 4096 = 0)
    (hs : Same P pm pm') (hP : ∀ p ∈ fl, ¬ P p) : Seg id 0 (fun a => getLE pm'.bytes a 8) a fl :=
  h.frame fun p hp => by
    have := hal p hp
    show getLE pm'.bytes p 8 = getLE pm.bytes p 8
    exact hs.getLE (by omega) (by rw [show pageOf p = p by unfold pageOf; omega]; exact hP p hp)

/-- The free list only reads the first words of its pages. -/
theorem FreeList.frame {P : ℕ → Prop} {pm pm' : PhysMem} {fl : List ℕ} (h : FreeList kend pm fl)
    (hs : Same P pm pm') (hfl : pm'.freelist = pm.freelist) (hP : ∀ p ∈ fl, ¬ P p) :
    FreeList kend pm' fl where
  seg := hfl ▸ seg_frame h.seg (fun p hp => (h.page p hp).aligned') hs hP
  page := h.page

/-! ### `walk` without allocation -/

/-- **`walk(pagetable, va, 0)` on a tree.** It returns the address of the leaf PTE for `va`
in its level-0 page, or `0` when the tree has none, and changes nothing. -/
theorem Tree.walkFrom_false {pm : PhysMem} {tab : Slot → ℕ} (h : Tree kend pm tab) (va : UInt64) :
    walkFrom false va 2 pm (tab .root) =
      (pm, if tab (leafSlot va) = 0 then 0 else tab (leafSlot va) + 8 * px 0 va) := by
  have h2 := h.rootPte ⟨px 2 va, px_lt 2 va⟩
  rw [walkFrom]
  dsimp only
  rw [h2]
  by_cases hm : tab (.mid ⟨px 2 va, px_lt 2 va⟩) = 0
  · -- no level-1 page, so no level-0 page below it either
    have hl : tab (leafSlot va) = 0 := by
      by_contra hl
      exact h.parent _ _ hl hm
    rw [hm, entry_zero, if_neg (by simp), if_pos hl]
    rfl
  have hp := h.page _ hm
  rw [if_pos (entry_and_pteV hm), pte2pa_entry hm hp.aligned' hp.toNat_lt, walkFrom]
  dsimp only
  rw [h.midPte _ ⟨px 1 va, px_lt 1 va⟩ hm]
  by_cases hl : tab (leafSlot va) = 0
  · have hl' : tab (.low ⟨px 2 va, px_lt 2 va⟩ ⟨px 1 va, px_lt 1 va⟩) = 0 := hl
    rw [hl', entry_zero, if_neg (by simp), if_pos hl]
    rfl
  · have hl' : tab (.low ⟨px 2 va, px_lt 2 va⟩ ⟨px 1 va, px_lt 1 va⟩) ≠ 0 := hl
    have hq := h.page _ hl'
    rw [if_pos (entry_and_pteV hl'), pte2pa_entry hl' hq.aligned' hq.toNat_lt, walkFrom,
      if_neg hl]
    rfl

/-! ### `kalloc` on the free list in memory -/

/-- `kalloc` on the free list `fl`: `0` when it is empty; otherwise its head, the rest of the
list left in memory, and only the head's page written. -/
theorem FreeList.kalloc {pm : PhysMem} {fl : List ℕ} (h : FreeList kend pm fl) :
    (fl = [] ∧ pm.kalloc = (pm, 0)) ∨
      ∃ p t, fl = p :: t ∧ pm.kalloc.2 = p ∧ FreeList kend pm.kalloc.1 t ∧
        Same (· = p) pm pm.kalloc.1 := by
  rcases h.seg.head_cases with ⟨h0, rfl⟩ | ⟨h0, t, rfl⟩
  · exact .inl ⟨rfl, if_neg (not_not.mpr h0)⟩
  right
  obtain ⟨-, -, hrest⟩ := path_cons_iff.mp h.seg
  have hp := h.page _ List.mem_cons_self
  have hnd := List.nodup_cons.mp h.seg.nodup
  have hk : pm.kalloc = (({ pm with freelist := (pm.load pm.freelist).toNat } : PhysMem).fill
      pm.freelist 5 Kalloc.pgsize, pm.freelist) := if_pos h0
  -- pointwise, so that the two records are never unified as a whole
  have hsame : Same (· = pm.freelist) pm pm.kalloc.1 := by
    intro x hx
    rw [hk]
    exact same_fill { pm with freelist := (pm.load pm.freelist).toNat } hp.aligned' 5 x hx
  have hnext : (pm.load pm.freelist).toNat = getLE pm.bytes pm.freelist 8 := by
    rw [PhysMem.load, Nat.toUInt64_eq, UInt64.toNat_ofNat',
      Nat.mod_eq_of_lt (by simpa using getLE_lt pm.bytes pm.freelist 8)]
  have hfl : pm.kalloc.1.freelist = getLE pm.bytes pm.freelist 8 := by
    rw [hk, ← hnext]
    rfl
  refine ⟨pm.freelist, t, rfl, by rw [hk], ⟨?_, fun q hq => h.page q (List.mem_cons_of_mem _ hq)⟩,
    hsame⟩
  rw [hfl]
  exact seg_frame hrest (fun q hq => (h.page q (List.mem_cons_of_mem _ hq)).aligned') hsame
    fun q hq hqp => hnd.1 (hqp ▸ hq)

/-! ### Hanging a new page into the tree -/

section Attach

variable {pm : PhysMem} {p w : ℕ} (v : UInt64)

/-- `memset(p, 0, PGSIZE)` and then a store of the word `w` change only those two pages. -/
theorem same_attach (hp : p % 4096 = 0) (hw : w % 8 = 0) :
    Same (fun q => q = p ∨ q = pageOf w) pm ((pm.fill p 0 4096).store w v) :=
  (same_fill pm hp 0).trans (same_store _ hw v)

theorem load_attach_self : ((pm.fill p 0 4096).store w v).load w = v :=
  PhysMem.load_store_self _ _ _

theorem load_attach_of_ne {a : ℕ} (hp : p % 4096 = 0) (hw : w % 8 = 0) (ha : a % 8 = 0)
    (haw : a ≠ w) (hap : pageOf a ≠ p) : ((pm.fill p 0 4096).store w v).load a = pm.load a := by
  rw [PhysMem.load_store_of_disjoint _ _ (by omega), PhysMem.load_fill_of_disjoint]
  unfold pageOf at hap
  omega

/-- The new page reads as zeros. -/
theorem load_attach_new {m : ℕ} (hp : p % 4096 = 0) (hw : w % 8 = 0) (hm : m < 512)
    (hwp : pageOf w ≠ p) : ((pm.fill p 0 4096).store w v).load (p + 8 * m) = 0 := by
  rw [PhysMem.load_store_of_disjoint _ _ (by unfold pageOf at hwp; omega), PhysMem.load,
    PhysMem.fill, getLE_fill_of_le _ ⟨by omega, by omega⟩]
  simp [getLE]

end Attach

/-- The leaves only read the level-0 pages. -/
theorem leaf_frame {P : ℕ → Prop} {pm pm' : PhysMem} {tab : Slot → ℕ} (h : Tree kend pm tab)
    (hs : Same P pm pm') (hP : ∀ s, tab s ≠ 0 → ¬ P (tab s)) (va : UInt64) :
    leaf pm' tab va = leaf pm tab va := by
  unfold leaf
  split_ifs with hl
  · rfl
  · have hal := (h.page _ hl).aligned'
    exact hs.load (entry_mod_eight hal) (by rw [pageOf_entry hal (px_lt 0 va)]; exact hP _ hl)

/-- A word of a page other than the new one, other than the stored word, reads as it did
before `kalloc`. -/
theorem load_attach_table {pm pm₁ : PhysMem} {p w u m : ℕ} (v : UInt64) (hs : Same (· = p) pm pm₁)
    (hp : p % 4096 = 0) (hw : w % 8 = 0) (hu : u % 4096 = 0) (hm : m < 512) (hup : u ≠ p)
    (hne : u + 8 * m ≠ w) : ((pm₁.fill p 0 4096).store w v).load (u + 8 * m) = pm.load (u + 8 * m) := by
  have hpage : pageOf (u + 8 * m) = u := pageOf_entry hu hm
  rw [load_attach_of_ne v hp hw (entry_mod_eight hu) hne (by rw [hpage]; exact hup),
    hs.load (entry_mod_eight hu) (by rw [hpage]; exact hup)]

/-- Distinct aligned pages have distinct words. -/
theorem entry_ne_of_page_ne {u c m j : ℕ} (hu : u % 4096 = 0) (hc : c % 4096 = 0) (huc : u ≠ c)
    (hm : m < 512) (hj : j < 512) : u + 8 * m ≠ c + 8 * j := by
  omega

/-- A new page in an empty slot keeps the pages of the tree distinct. -/
theorem inj_update {tab : Slot → ℕ} (hinj : ∀ s t, tab s ≠ 0 → tab s = tab t → s = t) {x : Slot}
    {p : ℕ} (hp0 : p ≠ 0) (hnew : ∀ s, tab s ≠ 0 → tab s ≠ p) :
    ∀ s t, Function.update tab x p s ≠ 0 →
      Function.update tab x p s = Function.update tab x p t → s = t := by
  intro s t hs hst
  by_cases hsx : s = x <;> by_cases htx : t = x
  · rw [hsx, htx]
  · subst hsx
    rw [Function.update_self, Function.update_of_ne htx] at hst
    exact absurd hst.symm (hnew t (by rw [← hst]; exact hp0))
  · subst htx
    rw [Function.update_self, Function.update_of_ne hsx] at hst
    exact absurd hst (hnew s (by rw [hst]; exact hp0))
  · rw [Function.update_of_ne hsx, Function.update_of_ne htx] at hst
    rw [Function.update_of_ne hsx] at hs
    exact hinj s t hs hst

theorem update_ne_zero {tab : Slot → ℕ} {x s : Slot} {p : ℕ} (hp0 : p ≠ 0) (hs : tab s ≠ 0) :
    Function.update tab x p s ≠ 0 := by
  by_cases hsx : s = x
  · rw [hsx, Function.update_self]
    exact hp0
  · rw [Function.update_of_ne hsx]
    exact hs

section Attach

variable {pm pm₁ : PhysMem} {tab : Slot → ℕ} {p : ℕ}

/-- **A new level-1 page.** Under an empty root entry `i`, `walk` hangs a zeroed page `p`
taken from the free list: memory then holds the tree with `p` in slot `mid i`. -/
theorem Tree.attachMid (h : Tree kend pm tab) {i : Fin 512} (hi : tab (.mid i) = 0)
    (hp : Page kend p) (hnew : ∀ s, tab s ≠ 0 → tab s ≠ p) (hs : Same (· = p) pm pm₁) :
    Tree kend ((pm₁.fill p 0 4096).store (tab .root + 8 * i) (entry p))
      (Function.update tab (.mid i) p) := by
  have hr := (h.page _ h.root).aligned'
  have hpa := hp.aligned'
  have hw : (tab .root + 8 * i) % 8 = 0 := entry_mod_eight hr
  have hrp : tab .root ≠ p := hnew _ h.root
  -- no level-0 page hangs below the empty entry
  have hlow : ∀ j, tab (.low i j) = 0 := fun j => by
    by_contra hl
    exact h.parent i j hl hi
  refine ⟨?_, inj_update h.inj hp.ne_zero hnew, fun s hs' => ?_, fun i' j hl => ?_, fun i' => ?_,
    fun i' j hm => ?_⟩
  · rw [Function.update_of_ne (by simp)]
    exact h.root
  · by_cases hsx : s = .mid i
    · rw [hsx, Function.update_self]
      exact hp
    · rw [Function.update_of_ne hsx] at hs' ⊢
      exact h.page s hs'
  · rw [Function.update_of_ne (by simp)] at hl
    exact update_ne_zero hp.ne_zero (h.parent i' j hl)
  · rw [Function.update_of_ne (by simp)]
    by_cases hii : i' = i
    · subst hii
      rw [Function.update_self, load_attach_self]
    · rw [Function.update_of_ne (by simpa using hii),
        load_attach_table _ hs hpa hw hr i'.isLt hrp (by omega)]
      exact h.rootPte i'
  · by_cases hii : i' = i
    · subst hii
      rw [Function.update_self, Function.update_of_ne (by simp), hlow j, entry_zero]
      exact load_attach_new _ hpa hw j.isLt (by rw [pageOf_entry hr i'.isLt]; exact hrp)
    · rw [Function.update_of_ne (by simpa using hii)] at hm ⊢
      rw [Function.update_of_ne (by simp)]
      have hu := (h.page _ hm).aligned'
      have hur : tab (.mid i') ≠ tab .root := fun he => by simpa using h.inj _ _ hm he
      rw [load_attach_table _ hs hpa hw hu j.isLt (hnew _ hm)
        (entry_ne_of_page_ne hu hr hur j.isLt i.isLt)]
      exact h.midPte i' j hm

/-- **A new level-0 page.** Under an empty entry `j` of the level-1 page of root entry `i`,
`walk` hangs a zeroed page `p`: memory then holds the tree with `p` in slot `low i j`. -/
theorem Tree.attachLow (h : Tree kend pm tab) {i j : Fin 512} (hm : tab (.mid i) ≠ 0)
    (hl : tab (.low i j) = 0) (hp : Page kend p) (hnew : ∀ s, tab s ≠ 0 → tab s ≠ p)
    (hs : Same (· = p) pm pm₁) :
    Tree kend ((pm₁.fill p 0 4096).store (tab (.mid i) + 8 * j) (entry p))
      (Function.update tab (.low i j) p) := by
  have hr := (h.page _ h.root).aligned'
  have hc := (h.page _ hm).aligned'
  have hpa := hp.aligned'
  have hw : (tab (.mid i) + 8 * j) % 8 = 0 := entry_mod_eight hc
  have hcr : tab (.mid i) ≠ tab .root := fun he => by simpa using h.inj _ _ hm he
  refine ⟨?_, inj_update h.inj hp.ne_zero hnew, fun s hs' => ?_, fun i' j' hl' => ?_, fun i' => ?_,
    fun i' j' hm' => ?_⟩
  · rw [Function.update_of_ne (by simp)]
    exact h.root
  · by_cases hsx : s = .low i j
    · rw [hsx, Function.update_self]
      exact hp
    · rw [Function.update_of_ne hsx] at hs' ⊢
      exact h.page s hs'
  · rw [Function.update_of_ne (by simp)]
    by_cases hx : Slot.low i' j' = .low i j
    · obtain ⟨rfl, rfl⟩ : i' = i ∧ j' = j := by simpa using hx
      exact hm
    · rw [Function.update_of_ne hx] at hl'
      exact h.parent i' j' hl'
  · rw [Function.update_of_ne (by simp), Function.update_of_ne (by simp),
      load_attach_table _ hs hpa hw hr i'.isLt (hnew _ h.root)
        (entry_ne_of_page_ne hr hc hcr.symm i'.isLt j.isLt)]
    exact h.rootPte i'
  · rw [Function.update_of_ne (by simp)] at hm' ⊢
    by_cases hx : Slot.low i' j' = .low i j
    · obtain ⟨rfl, rfl⟩ : i' = i ∧ j' = j := by simpa using hx
      rw [Function.update_self, load_attach_self]
    · rw [Function.update_of_ne hx]
      have hu := (h.page _ hm').aligned'
      have hne : tab (.mid i') + 8 * j' ≠ tab (.mid i) + 8 * j := by
        by_cases hii : i' = i
        · subst hii
          have : j' ≠ j := fun hjj => hx (by rw [hjj])
          omega
        · exact entry_ne_of_page_ne hu hc (fun he => hii (by simpa using h.inj _ _ hm' he))
            j'.isLt j.isLt
      rw [load_attach_table _ hs hpa hw hu j'.isLt (hnew _ hm') hne]
      exact h.midPte i' j' hm'

/-- Hanging a page into the tree leaves every leaf as it was: the new page reads as zeros,
and the stored word is an entry of the root or a level-1 page. -/
theorem leaf_attach (h : Tree kend pm tab) {x : Slot} (hx : tab x = 0) {w : ℕ} (hw : w % 8 = 0)
    (hwl : ∀ i j, tab (.low i j) ≠ 0 → pageOf w ≠ tab (.low i j)) (hp : Page kend p)
    (hnew : ∀ s, tab s ≠ 0 → tab s ≠ p) (hs : Same (· = p) pm pm₁)
    (hwp : pageOf w ≠ p) (va : UInt64) :
    leaf ((pm₁.fill p 0 4096).store w (entry p)) (Function.update tab x p) va = leaf pm tab va := by
  unfold leaf
  by_cases hxl : leafSlot va = x
  · -- the new page: zeros now, no page before
    rw [hxl, Function.update_self, if_neg hp.ne_zero, hx, if_pos rfl]
    exact load_attach_new _ hp.aligned' hw (px_lt 0 va) hwp
  rw [Function.update_of_ne hxl]
  split_ifs with hl
  · rfl
  have hu := (h.page _ hl).aligned'
  have hwl' : pageOf w ≠ tab (leafSlot va) := hwl _ _ hl
  exact load_attach_table _ hs hp.aligned' hw hu (px_lt 0 va) (hnew _ hl) fun he =>
    hwl' (by rw [← he, pageOf_entry hu (px_lt 0 va)])

end Attach

end Xv6Lab.Vm
