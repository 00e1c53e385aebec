import Xv6Lab.Kalloc.Code
import Xv6Lab.Dalloc.Frame
import Xv6Lab.Lib.ListSeg
import Xv6Lab.Lib.MaskAlign

/-!
# The pages of `kalloc` partition the memory below the heap

A run is `kinit` and then any calls of `kalloc`, of `kfree` on a page `kalloc` returned and
that is not free again, and of `dinit`, `dalloc` and `dfree` on any arguments, all on one
memory.

`Partition kend σ l` says that the free list is the list of pages `l`, and that `l` and the
live pages are distinct pages of `[PGROUNDUP(end), PHYSTOP - HEAP_SIZE)`; `Dalloc.Rooted` says
that the headers the heap can reach lie at or above `PHYSTOP - HEAP_SIZE`. `kinit` sets both
up (`kinit_sound`) and every call keeps them (`Sound.step`), because each call writes only on
its own side of the heap's base (`Sound.frame`): `kalloc` and `kfree` fill one page below
it, and a call of `dalloc.c` writes only headers it reaches. So in every state of a run the
page `kalloc` hands out next is a page no caller holds, and neither allocator writes a cell
the other reads (`kalloc_partition`).
-/

namespace Xv6Lab.Kalloc

open Dalloc ListSeg

/-! ### Rounding and the range test -/

theorem pgroundup_toNat (a : UInt64) :
    (pgroundup a).toNat = (a.toNat + (pgsize - 1)) % 2 ^ 64 / pgsize * pgsize :=
  UInt64.toNat_roundUp a 12 (by norm_num)

theorem pgroundup_aligned (a : UInt64) : (pgroundup a).toNat % pgsize = 0 := by
  rw [pgroundup_toNat]
  exact Nat.mul_mod_left _ _

theorem heapBase_add_pgsize_lt : phystop - heapSize + pgsize < phystop := by decide

theorem phystop_lt_two_pow : phystop + pgsize < 2 ^ 64 := by decide

/-- A page `kalloc` may hand out: not null, page-aligned, at or above `end` and
`PGROUNDUP(end)`, and wholly below the heap. -/
structure Page (kend : UInt64) (p : ℕ) : Prop where
  ne_zero : p ≠ 0
  aligned : p % pgsize = 0
  above_end : kend.toNat ≤ p
  above : (pgroundup kend).toNat ≤ p
  below_heap : p + pgsize ≤ phystop - heapSize

/-- Two distinct aligned pages do not overlap. -/
theorem apart_of_aligned {p q : ℕ} (hp : p % pgsize = 0) (hq : q % pgsize = 0) (hne : p ≠ q) :
    p + pgsize ≤ q ∨ q + pgsize ≤ p := by
  simp only [pgsize] at *
  omega

theorem Page.add_le_heapBase {kend : UInt64} {p : ℕ} (hp : Page kend p) : p + pgsize ≤ heapBase :=
  hp.below_heap

theorem Page.lt_heapBase {kend : UInt64} {p : ℕ} (hp : Page kend p) : p < heapBase :=
  Nat.lt_of_lt_of_le (Nat.lt_add_of_pos_right (by decide)) hp.add_le_heapBase

/-! ### Cells -/

@[simp] theorem Cell.header_ofHeader (h : DHeader) : (Cell.ofHeader h).header = h := by
  obtain ⟨d, u, n⟩ := h
  have hd := d.toNat_lt
  cases u <;> simp [Cell.header, Cell.ofHeader] <;> omega

section Memset

variable {ram : ℕ → Cell} {pa c a : ℕ}

theorem memsetPage_of_not_mem (h : a < pa ∨ pa + pgsize ≤ a) : memsetPage ram pa c a = ram a :=
  if_neg fun ⟨h₁, h₂⟩ => by omega

/-- Filling a page leaves the cell at the start of every other page. -/
theorem memsetPage_of_page (hpa : pa % pgsize = 0) (ha : a % pgsize = 0) (hne : a ≠ pa) :
    memsetPage ram pa c a = ram a := by
  have := apart_of_aligned ha hpa hne
  have : 0 < pgsize := by decide
  exact memsetPage_of_not_mem (by omega)

/-- Filling a page below the heap leaves every cell of the heap. -/
theorem memsetPage_of_heap (hpa : pa + pgsize ≤ heapBase) (ha : heapBase ≤ a) :
    memsetPage ram pa c a = ram a :=
  memsetPage_of_not_mem (.inr (hpa.trans ha))

end Memset

/-! ### The calls of `dalloc.c` on memory -/

namespace PhysState

variable {σ : PhysState} {d : DMem}

/-- What the heap reads after a call is the heap the call left. -/
@[simp] theorem dmem_setHeap (σ : PhysState) (d : DMem) : (σ.setHeap d).dmem = d := by
  obtain ⟨start, mem⟩ := d
  simp only [dmem, setHeap, DMem.mk.injEq, true_and]
  funext a
  split_ifs with h
  · exact h.symm
  · exact Cell.header_ofHeader _

/-- **The frame of a heap call.** A call that changes headers only at cells of `R`, all at
or above the heap, writes no cell below it. -/
theorem setHeap_below {R : Set ℕ} (hw : WritesIn R σ.dmem.mem d.mem) (hR : ∀ a ∈ R, heapBase ≤ a)
    {a : ℕ} (ha : a < heapBase) : (σ.setHeap d).ram a = σ.ram a := by
  show (if d.mem a = (σ.ram a).header then σ.ram a else Cell.ofHeader (d.mem a)) = σ.ram a
  exact if_pos (hw.below hR ha)

@[simp] theorem start_kalloc (σ : PhysState) : σ.kalloc.1.start = σ.start := by
  by_cases h0 : σ.freelist = 0 <;> simp [kalloc, h0]

end PhysState

/-- The calls of `dalloc.c`. -/
def Op.onHeap : Op → Bool
  | .kalloc | .kfree _ => false
  | .dinit | .dalloc _ | .dfree _ => true

/-- A call of `dalloc.c` that returns, from a heap rooted in `R`: it leaves a heap `d`,
written back to memory, rooted in some `R'` that holds every header it changed. -/
theorem step_onHeap {kend : UInt64} {σ σ' : PhysState} {op : Op} (hop : op.onHeap = true)
    (h : σ.step kend op = some (.ok σ')) {R : Set ℕ} (hR : Rooted σ.dmem R) :
    ∃ d R', σ' = σ.setHeap d ∧ Rooted d R' ∧ WritesIn R' σ.dmem.mem d.mem := by
  cases op with
  | kalloc | kfree _ => cases hop
  | dinit =>
    cases h
    exact ⟨_, _, rfl, rooted_dinit _, writesIn_dinit _⟩
  | dalloc size =>
    rw [PhysState.step] at h
    obtain ⟨⟨d, p⟩, hd, he⟩ := Option.map_eq_some_iff.mp h
    cases he
    obtain ⟨R', hR', hw⟩ := hR.dalloc hd
    exact ⟨d, R', rfl, hR', hw⟩
  | dfree addr =>
    rw [PhysState.step] at h
    obtain ⟨r, hd, he⟩ := Option.map_eq_some_iff.mp h
    cases r with
    | error e => cases he
    | ok d =>
      cases he
      obtain ⟨hR', hw⟩ := hR.dfree hd
      exact ⟨d, R, rfl, hR', hw⟩

/-- A heap whose cells a call did not write keeps its roots. -/
theorem rooted_of_heap_eq {σ σ' : PhysState} {R : Set ℕ} (h : Rooted σ.dmem R)
    (hs : σ'.start = σ.start) (hram : ∀ a, heapBase ≤ a → σ'.ram a = σ.ram a) :
    Rooted σ'.dmem R :=
  h.congr hs fun a ha => by
    show (σ'.ram a).header = (σ.ram a).header
    rw [hram a (h.above a ha)]

/-! ### `kfree` and `kalloc` on the free list -/

/-- What a `kfree` that returns has checked and done. -/
theorem kfree_eq_ok {kend : UInt64} {σ σ' : PhysState} {pa : ℕ} (h : σ.kfree kend pa = .ok σ') :
    pa % pgsize = 0 ∧ kend.toNat ≤ pa ∧ pa < phystop ∧ σ'.freelist = pa ∧ σ'.start = σ.start ∧
      σ'.live = σ.live ∧ (σ'.ram pa).lo = σ.freelist ∧
      ∀ a, a ≠ pa → σ'.ram a = memsetPage σ.ram pa 1 a := by
  unfold PhysState.kfree at h
  split_ifs at h with hchk
  cases h
  simp only [not_or, not_lt, not_le, ne_eq, not_not] at hchk
  exact ⟨hchk.1, hchk.2.1, hchk.2.2, rfl, rfl, rfl, by simp, fun a ha => Function.update_of_ne ha _ _⟩

theorem kfree_ok_of_page {kend : UInt64} {pa : ℕ} (hp : Page kend pa) (σ : PhysState) :
    ∃ σ', σ.kfree kend pa = .ok σ' := by
  have hlt : pa < phystop := by
    have := hp.below_heap
    have := heapBase_add_pgsize_lt
    omega
  rw [PhysState.kfree, if_neg]
  · exact ⟨_, rfl⟩
  · simp only [not_or, not_lt, not_le, ne_eq, not_not]
    exact ⟨hp.aligned, hp.above_end, hlt⟩

/-- `kfree(pa)` pushes `pa` on a free list of pages; a null `pa` empties the list, being the
null link. -/
theorem seg_kfree {kend : UInt64} {σ σ' : PhysState} {pa : ℕ} {l : List ℕ}
    (hseg : Seg Cell.lo 0 σ.ram σ.freelist l) (hal : ∀ q ∈ l, q % pgsize = 0) (hpa : pa ∉ l)
    (h : σ.kfree kend pa = .ok σ') :
    Seg Cell.lo 0 σ'.ram σ'.freelist (if pa = 0 then [] else pa :: l) := by
  obtain ⟨hpal, -, -, hfl, -, -, hlo, hother⟩ := kfree_eq_ok h
  rw [hfl]
  by_cases h0 : pa = 0
  · rw [if_pos h0]
    exact h0 ▸ Path.nil _
  · rw [if_neg h0]
    refine .cons h0 ?_
    rw [hlo]
    -- the `memset` reaches no other page of the list
    refine hseg.frame fun q hq => ?_
    have hne : q ≠ pa := fun e => hpa (e ▸ hq)
    rw [hother q hne, memsetPage_of_page hpal (hal q hq) hne]

/-- `kalloc()` on the free list `l`: nothing when it is empty; otherwise it pops the head,
and the rest of the list survives the `memset` of the page it returns. -/
theorem kalloc_cases {σ : PhysState} {l : List ℕ} (hseg : Seg Cell.lo 0 σ.ram σ.freelist l)
    (hal : ∀ q ∈ l, q % pgsize = 0) :
    (l = [] ∧ σ.kalloc = (σ, 0)) ∨
      ∃ t, l = σ.freelist :: t ∧ σ.freelist ≠ 0 ∧
        σ.kalloc = ({ σ with
          freelist := (σ.ram σ.freelist).lo
          ram := memsetPage σ.ram σ.freelist 5 }, σ.freelist) ∧
        Seg Cell.lo 0 (memsetPage σ.ram σ.freelist 5) (σ.ram σ.freelist).lo t := by
  rcases hseg.head_cases with ⟨h0, rfl⟩ | ⟨h0, t, rfl⟩
  · exact .inl ⟨rfl, if_neg (not_not.mpr h0)⟩
  · refine .inr ⟨t, rfl, h0, if_pos h0, ?_⟩
    obtain ⟨-, -, hrest⟩ := path_cons_iff.mp hseg
    have hnot : σ.freelist ∉ t := (List.nodup_cons.mp hseg.nodup).1
    refine Path.frame hrest fun q hq => ?_
    have hne : q ≠ σ.freelist := fun e => hnot (e ▸ hq)
    rw [memsetPage_of_page (hal _ List.mem_cons_self) (hal q (List.mem_cons_of_mem _ hq)) hne]

/-- `kalloc` of a page below the heap writes no cell of the heap. -/
theorem kalloc_ram_heap {σ : PhysState} (hfl : σ.freelist ≠ 0 → σ.freelist + pgsize ≤ heapBase)
    {a : ℕ} (ha : heapBase ≤ a) : σ.kalloc.1.ram a = σ.ram a := by
  by_cases h0 : σ.freelist = 0
  · rw [PhysState.kalloc, if_neg (not_not.mpr h0)]
  · rw [PhysState.kalloc, if_pos h0]
    exact memsetPage_of_heap (hfl h0) ha

/-- `kfree` of a page below the heap writes no cell of the heap. -/
theorem kfree_ram_heap {kend : UInt64} {σ σ' : PhysState} {pa : ℕ} (h : σ.kfree kend pa = .ok σ')
    (hpa : pa + pgsize ≤ heapBase) {a : ℕ} (ha : heapBase ≤ a) : σ'.ram a = σ.ram a := by
  obtain ⟨-, -, -, -, -, -, -, hother⟩ := kfree_eq_ok h
  have : 0 < pgsize := by decide
  rw [hother a (by omega), memsetPage_of_heap hpa ha]

/-- A `kfree` step is taken on a live page, and is `kfree` with the page no longer live. -/
theorem step_kfree {kend : UInt64} {σ σ' : PhysState} {pa : ℕ}
    (h : σ.step kend (.kfree pa) = some (.ok σ')) :
    pa ∈ σ.live ∧ ∃ σ₁, σ.kfree kend pa = .ok σ₁ ∧ σ' = { σ₁ with live := σ.live.erase pa } := by
  rw [PhysState.step] at h
  split_ifs at h with hpa
  cases hk : σ.kfree kend pa with
  | error e =>
    rw [hk] at h
    cases h
  | ok σ₁ =>
    rw [hk] at h
    cases h
    exact ⟨hpa, σ₁, rfl, rfl⟩

/-! ### The invariant -/

/-- The free list is `l`, and it and the live pages are distinct pages below the heap. -/
structure Partition (kend : UInt64) (σ : PhysState) (l : List ℕ) : Prop where
  seg : Seg Cell.lo 0 σ.ram σ.freelist l
  nodup : (l ++ σ.live).Nodup
  page : ∀ p ∈ l ++ σ.live, Page kend p

section Partition

variable {kend : UInt64} {σ : PhysState} {l : List ℕ}

theorem Partition.free_aligned (h : Partition kend σ l) : ∀ q ∈ l, q % pgsize = 0 :=
  fun q hq => (h.page q (List.mem_append_left _ hq)).aligned

theorem Partition.live_page (h : Partition kend σ l) : ∀ p ∈ σ.live, Page kend p :=
  fun p hp => h.page p (List.mem_append_right _ hp)

/-- The head of a nonempty free list is a page. -/
theorem Partition.head_page (h : Partition kend σ l) (h0 : σ.freelist ≠ 0) : Page kend σ.freelist := by
  rcases h.seg.head_cases with ⟨h0', -⟩ | ⟨-, t, rfl⟩
  · exact absurd h0' h0
  · exact h.page _ (by simp)

theorem Partition.kalloc (h : Partition kend σ l) :
    ∃ l', Partition kend
      { σ.kalloc.1 with live := if σ.kalloc.2 = 0 then σ.live else σ.kalloc.2 :: σ.live } l' := by
  rcases kalloc_cases h.seg h.free_aligned with ⟨rfl, hk⟩ | ⟨t, rfl, h0, hk, hseg⟩
  · rw [hk]
    exact ⟨[], h⟩
  · rw [hk, if_neg h0]
    -- the popped page moves from the free list to the live pages
    have hperm : (t ++ σ.freelist :: σ.live).Perm (σ.freelist :: t ++ σ.live) := List.perm_middle
    exact ⟨t, hseg, hperm.nodup_iff.mpr h.nodup, fun p hp => h.page p (hperm.subset hp)⟩

theorem Partition.kfree (h : Partition kend σ l) {pa : ℕ} (hpa : pa ∈ σ.live) {σ' : PhysState}
    (hk : σ.kfree kend pa = .ok σ') :
    Partition kend { σ' with live := σ.live.erase pa } (pa :: l) := by
  have hp : Page kend pa := h.live_page pa hpa
  have hnot : pa ∉ l := fun hl => List.disjoint_of_nodup_append h.nodup hl hpa
  -- the freed page moves from the live pages to the free list
  have hperm : (pa :: l ++ σ.live.erase pa).Perm (l ++ σ.live) :=
    (List.perm_middle.symm.trans (List.Perm.append_left l (List.perm_cons_erase hpa).symm))
  refine ⟨?_, hperm.nodup_iff.mpr h.nodup, fun p hq => h.page p (hperm.subset hq)⟩
  simpa [hp.ne_zero] using seg_kfree h.seg h.free_aligned hnot hk

/-- A heap call that writes only at or above the heap leaves the free list and the live
pages. -/
theorem Partition.setHeap (h : Partition kend σ l) {d : DMem} {R : Set ℕ}
    (hw : WritesIn R σ.dmem.mem d.mem) (hR : ∀ a ∈ R, heapBase ≤ a) :
    Partition kend (σ.setHeap d) l where
  seg := h.seg.frame fun q hq =>
    by rw [PhysState.setHeap_below hw hR (h.page q (List.mem_append_left _ hq)).lt_heapBase]
  nodup := h.nodup
  page := h.page

/-- `kfree` of a live page passes its check. -/
theorem Partition.kfree_ok (h : Partition kend σ l) {pa : ℕ} (hpa : pa ∈ σ.live) :
    ∃ σ', σ.step kend (.kfree pa) = some (.ok σ') := by
  obtain ⟨σ₁, hk⟩ := kfree_ok_of_page (h.live_page pa hpa) σ
  exact ⟨_, by rw [PhysState.step, if_pos hpa, hk]; rfl⟩

end Partition

/-- The invariant of a run: the pages partition the memory below the heap, and the heap
reaches only cells at or above it. -/
structure Sound (kend : UInt64) (σ : PhysState) : Prop where
  partition : ∃ l, Partition kend σ l
  rooted : ∃ R, Rooted σ.dmem R

section Sound

variable {kend : UInt64} {σ σ' : PhysState} {op : Op}

/-- **Each allocator writes only on its side of the heap's base.** -/
theorem Sound.frame (h : Sound kend σ) (hst : σ.step kend op = some (.ok σ')) :
    (op.onHeap = true → ∀ a < heapBase, σ'.ram a = σ.ram a) ∧
      (op.onHeap = false → ∀ a, heapBase ≤ a → σ'.ram a = σ.ram a) := by
  obtain ⟨⟨l, hp⟩, ⟨R, hR⟩⟩ := h
  constructor
  · intro hop a ha
    obtain ⟨d, R', rfl, hR', hw⟩ := step_onHeap hop hst hR
    exact PhysState.setHeap_below hw hR'.above ha
  · intro hop a ha
    cases op with
    | kalloc =>
      cases hst
      exact kalloc_ram_heap (fun h0 => (hp.head_page h0).add_le_heapBase) ha
    | kfree pa =>
      obtain ⟨hpa, σ₁, hk, rfl⟩ := step_kfree hst
      exact kfree_ram_heap hk (hp.live_page pa hpa).add_le_heapBase ha
    | dinit | dalloc _ | dfree _ => cases hop

/-- Every call keeps the invariant. -/
theorem Sound.step (h : Sound kend σ) (hst : σ.step kend op = some (.ok σ')) : Sound kend σ' := by
  have hframe := (h.frame hst).2
  obtain ⟨⟨l, hp⟩, ⟨R, hR⟩⟩ := h
  cases op with
  | kalloc =>
    cases hst
    exact ⟨hp.kalloc, R, rooted_of_heap_eq hR (PhysState.start_kalloc σ) (hframe rfl)⟩
  | kfree pa =>
    obtain ⟨hpa, σ₁, hk, rfl⟩ := step_kfree hst
    exact ⟨⟨_, hp.kfree hpa hk⟩, R, rooted_of_heap_eq hR (kfree_eq_ok hk).2.2.2.2.1 (hframe rfl)⟩
  | dinit | dalloc _ | dfree _ =>
    obtain ⟨d, R', rfl, hR', hw⟩ := step_onHeap rfl hst hR
    exact ⟨⟨l, hp.setHeap hw hR'.above⟩, R', by rwa [PhysState.dmem_setHeap]⟩

end Sound

/-! ### `kinit` -/

/-- Below the wrap, `PGROUNDUP` rounds up by less than a page. -/
theorem pgroundup_bounds {a : UInt64} (h : a.toNat + (pgsize - 1) < 2 ^ 64) :
    a.toNat ≤ (pgroundup a).toNat ∧ (pgroundup a).toNat ≤ a.toNat + (pgsize - 1) := by
  rw [pgroundup_toNat, Nat.mod_eq_of_lt h]
  simp only [pgsize]
  omega

/-- A page `p` of the loop that `kfree` accepts lies below `2^64 - PGSIZE`, so `p + PGSIZE`
does not wrap. -/
theorem toNat_add_pgsize {p : UInt64} (hp : p.toNat < phystop) :
    (p + pgsize.toUInt64).toNat = p.toNat + pgsize := by
  have := phystop_lt_two_pow
  have hpg : pgsize.toUInt64.toNat = pgsize := by decide
  rw [UInt64.toNat_add, hpg, Nat.mod_eq_of_lt]
  simp only [pgsize] at *
  omega

/-- The loop of `freerange` pushes the pages from `p` on, in rising order, each one a page
below `pa_end`; the pages pushed so far are below `p`. It writes neither `dmem.start` nor the
live pages. -/
theorem freerangeLoop_partition {kend paEnd : UInt64} (hend : paEnd.toNat ≤ phystop - heapSize) :
    ∀ {fuel : ℕ} {p : UInt64} {σ σ' : PhysState} {l : List ℕ},
      Seg Cell.lo 0 σ.ram σ.freelist l → l.Nodup → (∀ q ∈ l, Page kend q ∧ q < p.toNat) →
      p.toNat % pgsize = 0 → (pgroundup kend).toNat ≤ p.toNat →
      freerangeLoop kend paEnd fuel p σ = some (.ok σ') →
      σ'.start = σ.start ∧ σ'.live = σ.live ∧
        ∃ l', Seg Cell.lo 0 σ'.ram σ'.freelist l' ∧ l'.Nodup ∧ ∀ q ∈ l', Page kend q := by
  intro fuel
  induction fuel with
  | zero =>
    intro p σ σ' l _ _ _ _ _ h
    cases h
  | succ fuel ih =>
    intro p σ σ' l hseg hnd hl hal habove h
    rw [freerangeLoop] at h
    split_ifs at h with hle
    · cases hk : σ.kfree kend p.toNat with
      | error e =>
        rw [hk] at h
        cases h
      | ok σ₁ =>
        rw [hk] at h
        obtain ⟨-, hkend, hlt, -, hstart, hlive, -, -⟩ := kfree_eq_ok hk
        have hadd := toNat_add_pgsize hlt
        have hp_end : p.toNat + pgsize ≤ paEnd.toNat := by
          rw [← hadd]
          exact UInt64.le_iff_toNat_le.mp hle
        have hnot : p.toNat ∉ l := fun hq => Nat.lt_irrefl _ (hl _ hq).2
        have hseg₁ := seg_kfree hseg (fun q hq => (hl q hq).1.aligned) hnot hk
        have hnd₁ : (if p.toNat = 0 then [] else p.toNat :: l).Nodup := by
          split_ifs
          · exact List.nodup_nil
          · exact List.nodup_cons.mpr ⟨hnot, hnd⟩
        -- the page just freed is below the next one, and so are those before it
        have hl₁ : ∀ q ∈ (if p.toNat = 0 then [] else p.toNat :: l),
            Page kend q ∧ q < (p + pgsize.toUInt64).toNat := by
          intro q hq
          rw [hadd]
          split_ifs at hq with h0
          · simp at hq
          · rcases List.mem_cons.mp hq with rfl | hq
            · exact ⟨⟨h0, hal, hkend, habove, hp_end.trans hend⟩, Nat.lt_add_of_pos_right (by decide)⟩
            · exact ⟨(hl q hq).1, Nat.lt_add_right _ (hl q hq).2⟩
        obtain ⟨hs, hv, hrest⟩ :=
          ih hseg₁ hnd₁ hl₁ (by rw [hadd]; simp only [pgsize] at *; omega) (by rw [hadd]; omega) h
        exact ⟨hs.trans hstart, hv.trans hlive, hrest⟩
    · cases h
      exact ⟨rfl, rfl, l, hseg, hnd, fun q hq => (hl q hq).1⟩

theorem heapBase_toUInt64 : (phystop - heapSize).toUInt64.toNat = phystop - heapSize := by decide

/-- `kinit` sets up the invariant, with nothing live. -/
theorem kinit_sound {kend : UInt64} {ram : ℕ → Cell} {σ₀ : PhysState}
    (hinit : kinit kend ram = some (.ok σ₀)) : σ₀.live = [] ∧ Sound kend σ₀ := by
  obtain ⟨hstart, hlive, l, hseg, hnd, hpage⟩ :=
    freerangeLoop_partition (σ := ⟨0, 0, ram, []⟩) (by rw [heapBase_toUInt64]) (Path.nil 0)
      List.nodup_nil (fun q hq => absurd hq List.not_mem_nil) (pgroundup_aligned kend) le_rfl hinit
  -- the heap is not set up yet: its list is empty
  have hR : Rooted σ₀.dmem ∅ := ⟨.inl hstart, fun _ ha => absurd ha (Set.notMem_empty _),
    fun _ ha => absurd ha (Set.notMem_empty _)⟩
  exact ⟨hlive, ⟨l, hseg, by simpa [hlive] using hnd, by simpa [hlive] using hpage⟩, ∅, hR⟩

/-- The loop of `freerange` runs to its end without a panic when it starts at an aligned
page above `end` and has a unit of fuel for each page below `pa_end`, and one for the last
test. -/
theorem freerangeLoop_ok {kend paEnd : UInt64} (hend : paEnd.toNat ≤ phystop - heapSize) :
    ∀ {fuel : ℕ} {p : UInt64} {σ : PhysState}, p.toNat % pgsize = 0 → kend.toNat ≤ p.toNat →
      p.toNat < phystop → paEnd.toNat < p.toNat + (fuel + 1) * pgsize →
      ∃ σ', freerangeLoop kend paEnd (fuel + 1) p σ = some (.ok σ') := by
  intro fuel
  induction fuel with
  | zero =>
    intro p σ _ _ hlt hfuel
    have hadd := toNat_add_pgsize hlt
    rw [freerangeLoop, if_neg]
    · exact ⟨σ, rfl⟩
    · rw [UInt64.le_iff_toNat_le, hadd]
      omega
  | succ fuel ih =>
    intro p σ hal hkend hlt hfuel
    have hadd := toNat_add_pgsize hlt
    rw [freerangeLoop]
    split_ifs with hle
    · have hp_end : p.toNat + pgsize ≤ paEnd.toNat := by
        rw [← hadd]
        exact UInt64.le_iff_toNat_le.mp hle
      have hlt' : p.toNat + pgsize < phystop := by
        have := heapBase_add_pgsize_lt
        omega
      rw [PhysState.kfree, if_neg (by simp only [not_or, not_lt, not_le, ne_eq, not_not]; omega)]
      refine ih (by rw [hadd]; simp only [pgsize] at *; omega) (by rw [hadd]; omega)
        (by rw [hadd]; exact hlt') ?_
      rw [hadd]
      rw [Nat.succ_mul] at hfuel
      omega
    · exact ⟨σ, rfl⟩

/-- `kinit` returns, without a panic, whenever the kernel ends below the heap. -/
theorem kinit_ok {kend : UInt64} (h : kend.toNat ≤ phystop - heapSize) (ram : ℕ → Cell) :
    ∃ σ, kinit kend ram = some (.ok σ) := by
  have hwrap : kend.toNat + (pgsize - 1) < 2 ^ 64 := by
    have := phystop_lt_two_pow
    simp only [pgsize] at *
    omega
  obtain ⟨hlo, hhi⟩ := pgroundup_bounds hwrap
  have hbase := heapBase_add_pgsize_lt
  have hdiv : phystop - heapSize < (phystop - heapSize) / pgsize * pgsize + pgsize :=
    Nat.lt_div_mul_add (by decide)
  rw [kinit, freerange, heapBase_toUInt64]
  apply freerangeLoop_ok (by rw [heapBase_toUInt64]) (pgroundup_aligned kend) hlo
  · simp only [pgsize] at *
    omega
  · rw [heapBase_toUInt64, Nat.add_mul, one_mul]
    omega

/-! ### Runs -/

/-- Every state of a run keeps the invariant. -/
theorem sound_of_reachable {kend : UInt64} {ram : ℕ → Cell} {σ₀ σ : PhysState}
    (hinit : kinit kend ram = some (.ok σ₀)) (hσ : Interleave.Reachable (PhysState.step kend) σ₀ σ) :
    Sound kend σ :=
  hσ.induction (kinit_sound hinit).2 fun _ _ _ h hst => h.step hst

/-- **The pages of `kalloc` partition the memory below the heap.** Whenever the kernel ends
below the heap, `kinit` returns, with nothing live. In every state of a run from it, with
`kalloc`, `kfree` of live pages, `dinit`, `dalloc` and `dfree` in any order on one memory,
every page `kalloc` has handed out and not had back is a nonzero page-aligned page at or
above `end` and `PGROUNDUP(end)` that ends at or below `PHYSTOP - HEAP_SIZE`, so inside none
of the heap; no page is live twice and two live pages do not overlap; the page `kalloc`
returns next is such a page and is not live; `kfree` of a live page passes its check; and
the next call of `dalloc.c` writes no cell below the heap, while the next `kalloc` or `kfree`
writes none of the heap. -/
theorem kalloc_partition {kend : UInt64} (hend : kend.toNat ≤ phystop - heapSize) (ram : ℕ → Cell) :
    ∃ σ₀, kinit kend ram = some (.ok σ₀) ∧ σ₀.live = [] ∧
      ∀ σ, Interleave.Reachable (PhysState.step kend) σ₀ σ →
        (∀ p ∈ σ.live, Page kend p) ∧ σ.live.Nodup ∧
        (∀ p ∈ σ.live, ∀ q ∈ σ.live, p ≠ q → p + pgsize ≤ q ∨ q + pgsize ≤ p) ∧
        (σ.kalloc.2 ≠ 0 → Page kend σ.kalloc.2 ∧ σ.kalloc.2 ∉ σ.live) ∧
        (∀ pa ∈ σ.live, ∃ σ', σ.step kend (.kfree pa) = some (.ok σ')) ∧
        ∀ op σ', σ.step kend op = some (.ok σ') →
          (op.onHeap = true → ∀ a < heapBase, σ'.ram a = σ.ram a) ∧
          (op.onHeap = false → ∀ a, heapBase ≤ a → σ'.ram a = σ.ram a) := by
  obtain ⟨σ₀, hinit⟩ := kinit_ok hend ram
  refine ⟨σ₀, hinit, (kinit_sound hinit).1, fun σ hσ => ?_⟩
  have hs := sound_of_reachable hinit hσ
  obtain ⟨l, h⟩ := hs.partition
  have hlive := h.live_page
  refine ⟨hlive, (List.nodup_append.mp h.nodup).2.1,
    fun p hp q hq hne => apart_of_aligned (hlive p hp).aligned (hlive q hq).aligned hne, ?_,
    fun pa hpa => h.kfree_ok hpa, fun op σ' hst => hs.frame hst⟩
  intro h0
  rcases kalloc_cases h.seg h.free_aligned with ⟨-, hk⟩ | ⟨t, rfl, -, hk, -⟩
  · rw [hk] at h0
    exact absurd rfl h0
  · rw [hk]
    exact ⟨h.page _ (by simp), fun hal => List.disjoint_of_nodup_append h.nodup (by simp) hal⟩

/-- A kernel image that ends two pages below the heap. -/
def twoPageEnd : UInt64 := (phystop - heapSize - 2 * pgsize).toUInt64

/-- The state `kinit` leaves for it on zeroed memory. -/
def twoPageBoot : PhysState :=
  ((kinit twoPageEnd fun _ => ⟨0, 0⟩).bind Except.toOption).getD ⟨0, 0, fun _ => ⟨0, 0⟩, []⟩

/-- Two pages handed out, one of them freed and handed out again, around three calls of
`dalloc.c` on the heap. -/
def pageOps : List Op :=
  [.kalloc, .dinit, .dalloc 64, .kalloc, .kfree (heapBase - pgsize), .dalloc 32, .kalloc,
    .dfree (heapBase + 16)]

def pageRun : PhysState := Interleave.runState (PhysState.step twoPageEnd) twoPageBoot pageOps

theorem kalloc_partition_run :
    kinit twoPageEnd (fun _ => ⟨0, 0⟩) = some (.ok twoPageBoot) ∧
      Interleave.Reachable (PhysState.step twoPageEnd) twoPageBoot pageRun ∧
      pageRun.live = [heapBase - pgsize, heapBase - 2 * pgsize] ∧
      (∀ p ∈ pageRun.live, Page twoPageEnd p) ∧ pageRun.live.Nodup ∧
      (∀ p ∈ pageRun.live, ∀ q ∈ pageRun.live, p ≠ q → p + pgsize ≤ q ∨ q + pgsize ≤ p) ∧
      (pageRun.kalloc.2 ≠ 0 → Page twoPageEnd pageRun.kalloc.2 ∧ pageRun.kalloc.2 ∉ pageRun.live) ∧
      (∀ pa ∈ pageRun.live, ∃ σ', pageRun.step twoPageEnd (.kfree pa) = some (.ok σ')) ∧
      ∀ op σ', pageRun.step twoPageEnd op = some (.ok σ') →
        (op.onHeap = true → ∀ a < heapBase, σ'.ram a = pageRun.ram a) ∧
        (op.onHeap = false → ∀ a, heapBase ≤ a → σ'.ram a = pageRun.ram a) := by
  obtain ⟨σ₀, hinit, -, hall⟩ :=
    kalloc_partition (show twoPageEnd.toNat ≤ phystop - heapSize by decide) fun _ => ⟨0, 0⟩
  have hboot : twoPageBoot = σ₀ := by
    rw [twoPageBoot, hinit]
    rfl
  subst hboot
  have hσ : Interleave.Reachable (PhysState.step twoPageEnd) twoPageBoot pageRun :=
    Interleave.reachable_runState pageOps (by decide +kernel)
  exact ⟨hinit, hσ, by decide +kernel, hall _ hσ⟩

example : pageRun.kalloc.2 = 0 ∧ (pageRun.dmem.mem heapBase).used = false ∧
    (pageRun.dmem.mem (heapBase + 80)).used = true := by
  decide +kernel

end Xv6Lab.Kalloc
