import Xv6Lab.Vm.Code
import Xv6Lab.FS.Mkfs

/-!
# Copies between the kernel and a user address space

`copyout`, `copyin` and `copyinstr` go a page at a time: `walkaddr` of the page's first
address gives the physical page, and the part of the range that lies in the page is moved.
A range inside one page is therefore one pass, and its outcome is read off `walkaddr` alone.

`walkaddr` tests `PTE_V` and `PTE_U` and nothing else, so `copyout` writes a page whose PTE
does not grant `PTE_W`. `copyout_writes_text_page` runs the code on a text page as `exec`
maps one (`uvmalloc` with `PTE_X`): the store goes through.
-/

namespace Xv6Lab.Vm

open Kalloc

/-! ### One pass of a copy loop -/

theorem copyoutLoop_len_zero (pt : ℕ) (pm : PhysMem) (dstva : UInt64) (src : ℕ) :
    ∀ fuel, copyoutLoop pt fuel pm dstva src 0 = (pm, 0)
  | 0 => rfl
  | _ + 1 => by simp [copyoutLoop]

theorem copyinLoop_len_zero (pt : ℕ) (pm : PhysMem) (dst : ℕ) (srcva : UInt64) :
    ∀ fuel, copyinLoop pt fuel pm dst srcva 0 = (pm, 0)
  | 0 => rfl
  | _ + 1 => by simp [copyinLoop]

/-- A range of `len` bytes from `va` that ends in `va`'s page is what one pass copies: the
shorter of `len` and the rest of the page is `len`. -/
theorem chunk_eq_len {va len : UInt64} (hfit : va.toNat % 4096 + len.toNat ≤ 4096) :
    (if pgsize - (va - pgrounddown va) > len then len else pgsize - (va - pgrounddown va)) =
      len := by
  have hoff := sub_pgrounddown_toNat va
  have hle : va - pgrounddown va ≤ pgsize := by
    rw [UInt64.le_iff_toNat_le, hoff]
    exact le_trans (Nat.le_add_right _ _) hfit
  split_ifs with h
  · rfl
  · apply UInt64.toNat_inj.mp
    rw [gt_iff_lt, UInt64.lt_iff_toNat_lt, UInt64.toNat_sub_of_le _ _ hle, hoff] at h
    rw [UInt64.toNat_sub_of_le _ _ hle, hoff]
    simp only [pgsize, UInt64.reduceToNat] at h ⊢
    omega

/-- **`copyout` within one page.** It fails, changing nothing, when `walkaddr` finds no user
page; otherwise it moves the `len` bytes to the page and returns `0`. -/
theorem copyout_one_page (pm : PhysMem) (pt : ℕ) (dstva : UInt64) (src : ℕ) (len : UInt64)
    (hlen : 0 < len) (hfit : dstva.toNat % 4096 + len.toNat ≤ 4096) :
    copyout pm pt dstva src len =
      if walkaddr pm pt (pgrounddown dstva) = 0 then (pm, -1)
      else (pm.move (walkaddr pm pt (pgrounddown dstva) + (dstva - pgrounddown dstva)).toNat
        src len.toNat, 0) := by
  obtain ⟨k, hk⟩ : ∃ k, len.toNat = k + 1 :=
    Nat.exists_eq_add_one.mpr (UInt64.lt_iff_toNat_lt.mp hlen)
  rw [copyout, hk, copyoutLoop, if_pos hlen]
  dsimp only
  by_cases h0 : walkaddr pm pt (pgrounddown dstva) = 0
  · rw [if_pos h0, if_pos h0]
  · rw [if_neg h0, if_neg h0, chunk_eq_len hfit, UInt64.sub_self, copyoutLoop_len_zero, hk]

/-- **`copyin` within one page**, the same way round into the kernel buffer. -/
theorem copyin_one_page (pm : PhysMem) (pt : ℕ) (dst : ℕ) (srcva len : UInt64)
    (hlen : 0 < len) (hfit : srcva.toNat % 4096 + len.toNat ≤ 4096) :
    copyin pm pt dst srcva len =
      if walkaddr pm pt (pgrounddown srcva) = 0 then (pm, -1)
      else (pm.move dst (walkaddr pm pt (pgrounddown srcva) + (srcva - pgrounddown srcva)).toNat
        len.toNat, 0) := by
  obtain ⟨k, hk⟩ : ∃ k, len.toNat = k + 1 :=
    Nat.exists_eq_add_one.mpr (UInt64.lt_iff_toNat_lt.mp hlen)
  rw [copyin, hk, copyinLoop, if_pos hlen]
  dsimp only
  by_cases h0 : walkaddr pm pt (pgrounddown srcva) = 0
  · rw [if_pos h0, if_pos h0]
  · rw [if_neg h0, if_neg h0, chunk_eq_len hfit, UInt64.sub_self, copyinLoop_len_zero, hk]

/-! ### A text page, as `exec` maps it -/

/-- Where the kernel image ends, for the pages below. -/
def kernelEnd : UInt64 := 0x80020000

/-- Physical memory after `kinit` has freed five pages at the top of RAM. -/
def fivePages : Except String PhysMem := do
  let pm ← PhysMem.kfree kernelEnd ⟨fun _ => 0, 0⟩ 0x87ff0000
  let pm ← PhysMem.kfree kernelEnd pm 0x87ff1000
  let pm ← PhysMem.kfree kernelEnd pm 0x87ff2000
  let pm ← PhysMem.kfree kernelEnd pm 0x87ff3000
  PhysMem.kfree kernelEnd pm 0x87ff4000

/-- A fresh user page table with one page at virtual address `0`, allocated the way `exec`
allocates a segment of flags `ELF_PROG_FLAG_EXEC` (`flags2perm` gives `PTE_X`): physical
memory, the root page, and what `uvmalloc` returned. -/
def textImage : Except String (PhysMem × ℕ × UInt64) := do
  let pm ← fivePages
  let (pm, pt) := uvmcreate pm
  let (pm, sz) ← uvmalloc kernelEnd pm pt 0 4096 pteX
  return (pm, pt, sz)

/-- The free page `0x87ff0000` serves as the kernel buffer; past its link word it holds the
`1`s of `kfree`. -/
def textCheck (r : PhysMem × ℕ × UInt64) : Bool :=
  let (pm, pt, sz) := r
  let pte := pm.load (walkFrom false 0 2 pm pt).2
  let pa := (walkaddr pm pt 0).toNat
  sz == 4096 && pte &&& pteV != 0 && pte &&& pteU != 0 && pte &&& pteW == 0 &&
    walkaddr pm pt 0 != 0 && pm.bytes pa != pm.bytes 0x87ff0008

theorem copyout_writes_text_page :
    ∃ pm pt, textImage = .ok (pm, pt, 4096) ∧
      pm.load (walkFrom false 0 2 pm pt).2 &&& pteV ≠ 0 ∧
      pm.load (walkFrom false 0 2 pm pt).2 &&& pteU ≠ 0 ∧
      pm.load (walkFrom false 0 2 pm pt).2 &&& pteW = 0 ∧
      pm.bytes (walkaddr pm pt 0).toNat ≠ pm.bytes 0x87ff0008 ∧
      (copyout pm pt 0 0x87ff0008 1).2 = 0 ∧
      (copyout pm pt 0 0x87ff0008 1).1.bytes (walkaddr pm pt 0).toNat = pm.bytes 0x87ff0008 := by
  obtain ⟨⟨pm, pt, sz⟩, himg, hc⟩ := FS.exists_ok_of_any (p := textCheck) (x := textImage)
    (by decide)
  simp only [textCheck, Bool.and_eq_true, beq_iff_eq, bne_iff_ne, ne_eq] at hc
  obtain ⟨⟨⟨⟨⟨rfl, hv⟩, hu⟩, hw⟩, hpa⟩, hne⟩ := hc
  -- one byte at the start of page `0`: a single pass of the loop
  have hcopy := copyout_one_page pm pt 0 0x87ff0008 1 (by decide) (by decide)
  have h00 : pgrounddown 0 = 0 := by decide
  rw [h00, if_neg hpa, UInt64.sub_self, UInt64.add_zero] at hcopy
  refine ⟨pm, pt, himg, hv, hu, hw, hne, by rw [hcopy], ?_⟩
  rw [hcopy]
  show ByteMap.copy pm.bytes _ pm.bytes _ _ _ = _
  rw [ByteMap.copy_of_mem _ _ _ _ _ ⟨le_rfl, by simp⟩, Nat.sub_self, Nat.add_zero]

end Xv6Lab.Vm
