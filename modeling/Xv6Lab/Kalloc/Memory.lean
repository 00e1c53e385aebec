import Xv6Lab.Kalloc.Code
import Xv6Lab.Lib.Words

/-!
# `kernel/kalloc.c` on the bytes of physical memory

`Kalloc.Code` keeps of each page only the word that `struct run` puts at its start. The page
tables of `kernel/vm.c` are physical memory too, and a page-table page is a page `kalloc`
handed out, so for them the allocator works on all of memory: a byte map with
`kmem.freelist`. `kfree` fills the page with `1`s and then stores the link in its first eight
bytes; `kalloc` reads the link and fills the page with `5`s.

* `PhysMem.Agrees.kalloc`, `PhysMem.Agrees.kfree` — read through the first word of every
  page, the two calls are those of `Kalloc.Code`: this model refines that one.
-/

namespace Xv6Lab.Kalloc

open ByteMap Dalloc

/-- Physical memory, and `kmem.freelist`. -/
structure PhysMem where
  bytes : ℕ → UInt8
  freelist : ℕ

namespace PhysMem

/-- The `uint64` at `a`. -/
def load (pm : PhysMem) (a : ℕ) : UInt64 := (getLE pm.bytes a 8).toUInt64

/-- `*(uint64 *)a = v`. -/
def store (pm : PhysMem) (a : ℕ) (v : UInt64) : PhysMem :=
  { pm with bytes := setLE pm.bytes a 8 v.toNat }

/-- `memset(a, c, n)`. -/
def fill (pm : PhysMem) (a : ℕ) (c : UInt8) (n : ℕ) : PhysMem :=
  { pm with bytes := ByteMap.fill pm.bytes a c n }

/-- `memmove(d, s, n)` within physical memory. -/
def move (pm : PhysMem) (d s n : ℕ) : PhysMem :=
  { pm with bytes := copy pm.bytes d pm.bytes s n }

/-- `*a = c`. -/
def write (pm : PhysMem) (a : ℕ) (c : UInt8) : PhysMem :=
  { pm with bytes := Function.update pm.bytes a c }

/-- `kfree(pa)`: refuse a page that is not aligned, below `end` or past `PHYSTOP`, fill it with
junk, then push it on the free list. -/
def kfree (kend : UInt64) (pm : PhysMem) (pa : ℕ) : Except String PhysMem :=
  if pa % pgsize ≠ 0 ∨ pa < kend.toNat ∨ pa ≥ phystop then .error "kfree"
  else
    let pm := pm.fill pa 1 pgsize
    .ok { pm.store pa pm.freelist.toUInt64 with freelist := pa }

/-- `kalloc()`: pop the head of the free list and fill it with junk, or return `0`. -/
def kalloc (pm : PhysMem) : PhysMem × ℕ :=
  let r := pm.freelist
  if r ≠ 0 then
    let pm := { pm with freelist := (pm.load r).toNat }
    (pm.fill r 5 pgsize, r)
  else (pm, 0)

@[simp] theorem store_freelist (pm : PhysMem) (a : ℕ) (v : UInt64) :
    (pm.store a v).freelist = pm.freelist := rfl

@[simp] theorem fill_freelist (pm : PhysMem) (a : ℕ) (c : UInt8) (n : ℕ) :
    (pm.fill a c n).freelist = pm.freelist := rfl

@[simp] theorem move_freelist (pm : PhysMem) (d s n : ℕ) : (pm.move d s n).freelist = pm.freelist :=
  rfl

@[simp] theorem write_freelist (pm : PhysMem) (a : ℕ) (c : UInt8) :
    (pm.write a c).freelist = pm.freelist := rfl

theorem load_store_self (pm : PhysMem) (a : ℕ) (v : UInt64) : (pm.store a v).load a = v := by
  rw [load, store, getLE_setLE_self, Nat.mod_eq_of_lt (by simpa using v.toNat_lt),
    Nat.toUInt64_eq, UInt64.ofNat_toNat]

theorem load_store_of_disjoint (pm : PhysMem) {a b : ℕ} (v : UInt64) (h : a + 8 ≤ b ∨ b + 8 ≤ a) :
    (pm.store a v).load b = pm.load b := by
  rw [load, load, store, getLE_setLE_of_disjoint _ h]

theorem load_fill_of_disjoint (pm : PhysMem) {a b n : ℕ} (c : UInt8) (h : a + n ≤ b ∨ b + 8 ≤ a) :
    (pm.fill a c n).load b = pm.load b := by
  rw [load, load, fill, getLE_fill_of_disjoint _ h]

/-- The first words of two different pages lie apart. -/
theorem page_words_disjoint {a b : ℕ} (ha : a % pgsize = 0) (hb : b % pgsize = 0) (hab : a ≠ b) :
    a + pgsize ≤ b ∨ b + 8 ≤ a := by
  simp only [pgsize] at *
  omega

/-! ### Refinement of `Kalloc.Code` -/

/-- Physical memory `pm` is the allocator state `k` of `Kalloc.Code`: the same free list, a
64-bit value, and in every page the same first word. -/
structure Agrees (pm : PhysMem) (k : KMem) : Prop where
  freelist : pm.freelist = k.freelist
  freelist_lt : pm.freelist < 2 ^ 64
  next : ∀ a, a % pgsize = 0 → getLE pm.bytes a 8 = k.next a

/-- **`kalloc` refines the word-level `kalloc`.** From states that agree, with the head of the
free list a page, the two return the same page and states that agree. -/
theorem Agrees.kalloc {pm : PhysMem} {k : KMem} (h : Agrees pm k) (hr : pm.freelist % pgsize = 0) :
    pm.kalloc.2 = (Kalloc.kalloc k).2 ∧ Agrees pm.kalloc.1 (Kalloc.kalloc k).1 := by
  by_cases h0 : pm.freelist = 0
  · have hk : k.freelist = 0 := h.freelist ▸ h0
    have hkal : pm.kalloc = (pm, 0) := if_neg (not_not.mpr h0)
    have hkal' : Kalloc.kalloc k = (k, 0) := if_neg (not_not.mpr hk)
    rw [hkal, hkal']
    exact ⟨rfl, h⟩
  have hk : k.freelist ≠ 0 := h.freelist ▸ h0
  have hkal : pm.kalloc = (({ pm with freelist := (pm.load pm.freelist).toNat } : PhysMem).fill
      pm.freelist 5 pgsize, pm.freelist) := if_pos h0
  have hkal' : Kalloc.kalloc k =
      (⟨k.next k.freelist, Function.update k.next k.freelist junk⟩, k.freelist) := if_pos hk
  have hlt : getLE pm.bytes pm.freelist 8 < 2 ^ 64 := by simpa using getLE_lt pm.bytes pm.freelist 8
  rw [hkal, hkal']
  refine ⟨h.freelist, ⟨?_, (pm.load pm.freelist).toNat_lt, fun a ha => ?_⟩⟩
  · show (getLE pm.bytes pm.freelist 8).toUInt64.toNat = k.next k.freelist
    rw [Nat.toUInt64_eq, UInt64.toNat_ofNat', Nat.mod_eq_of_lt hlt, ← h.freelist]
    exact h.next _ hr
  · show getLE (ByteMap.fill pm.bytes pm.freelist 5 pgsize) a 8 =
      Function.update k.next k.freelist junk a
    by_cases hax : a = pm.freelist
    · subst hax
      rw [← h.freelist, Function.update_self, getLE_fill_of_le _ ⟨le_rfl, by simp [pgsize]⟩]
      simp [getLE, junk]
    · rw [← h.freelist, Function.update_of_ne hax,
        getLE_fill_of_disjoint _ (page_words_disjoint hr ha (Ne.symm hax)), h.next a ha]

/-- **`kfree` refines the word-level `kfree`.** From states that agree, both refuse the same
pages with the same panic, and on the others leave states that agree. -/
theorem Agrees.kfree {pm : PhysMem} {k : KMem} (h : Agrees pm k) (kend : UInt64) (pa : ℕ) :
    (∃ e, pm.kfree kend pa = .error e ∧ Kalloc.kfree kend k pa = .error e) ∨
      ∃ pm' k', pm.kfree kend pa = .ok pm' ∧ Kalloc.kfree kend k pa = .ok k' ∧ Agrees pm' k' := by
  by_cases hbad : pa % pgsize ≠ 0 ∨ pa < kend.toNat ∨ pa ≥ phystop
  · exact .inl ⟨"kfree", by rw [PhysMem.kfree, if_pos hbad], by rw [Kalloc.kfree, if_pos hbad]⟩
  have hpa : pa % pgsize = 0 := by simpa using (not_or.mp hbad).1
  have hlt : pa < 2 ^ 64 := by
    have : phystop < 2 ^ 64 := by decide
    have := (not_or.mp (not_or.mp hbad).2).2
    omega
  refine .inr ⟨{ (pm.fill pa 1 pgsize).store pa pm.freelist.toUInt64 with freelist := pa },
    ⟨pa, Function.update k.next pa k.freelist⟩, by rw [PhysMem.kfree, if_neg hbad]; rfl,
    by rw [Kalloc.kfree, if_neg hbad], ⟨rfl, hlt, fun a ha => ?_⟩⟩
  show getLE (setLE (ByteMap.fill pm.bytes pa 1 pgsize) pa 8 pm.freelist.toUInt64.toNat) a 8 =
    Function.update k.next pa k.freelist a
  by_cases hax : a = pa
  · subst hax
    rw [Function.update_self, getLE_setLE_self, Nat.toUInt64_eq, UInt64.toNat_ofNat',
      Nat.mod_mod_of_dvd _ (by norm_num),
      Nat.mod_eq_of_lt (show pm.freelist < 256 ^ 8 by simpa using h.freelist_lt), h.freelist]
  · have hd := page_words_disjoint hpa ha (Ne.symm hax)
    rw [Function.update_of_ne hax, getLE_setLE_of_disjoint _ (by simp only [pgsize] at hd; omega),
      getLE_fill_of_disjoint _ hd, h.next a ha]

end PhysMem

end Xv6Lab.Kalloc
