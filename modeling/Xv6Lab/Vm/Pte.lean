import Xv6Lab.Vm.Code

/-!
# Page-table entries and the indices of a virtual address

A PTE is `PA2PTE(pa) | flags`: the page number of `pa` from bit 10 up and the flags below.
When the flags fit in ten bits the two parts do not overlap (`pte_toNat`), so `PTE2PA` gives
back the page of `pa`, `PTE_FLAGS` the flags, and a flag test reads the flags alone.

A virtual address below `MAXVA` is a virtual page number of 27 bits above a 12-bit offset,
and `PX` cuts the page number into three 9-bit indices (`px_eq`); the three indices
determine the page (`vpn_eq_of_px`).
-/

namespace Xv6Lab.Vm

/-! ### Entries -/

/-- A PTE of a physical address and ten bits of flags, as a number. -/
theorem pte_toNat (pa f : UInt64) (hf : f.toNat < 1024) :
    (pa2pte pa ||| f).toNat = pa.toNat / 4096 * 1024 + f.toNat := by
  have hpa := pa.toNat_lt
  rw [UInt64.toNat_or, pa2pte, UInt64.toNat_shiftLeft, UInt64.toNat_shiftRight]
  simp only [UInt64.reduceToNat, Nat.reduceMod, Nat.shiftRight_eq_div_pow, Nat.shiftLeft_eq]
  rw [Nat.mod_eq_of_lt (by omega), Nat.mul_comm, ← Nat.two_pow_add_eq_or_of_lt (by simpa using hf)]

/-- `PTE2PA` of such a PTE is the page of the address. -/
theorem pte2pa_toNat (pa f : UInt64) (hf : f.toNat < 1024) :
    (pte2pa (pa2pte pa ||| f)).toNat = pa.toNat / 4096 * 4096 := by
  have hpa := pa.toNat_lt
  rw [pte2pa, UInt64.toNat_shiftLeft, UInt64.toNat_shiftRight, pte_toNat pa f hf]
  simp only [UInt64.reduceToNat, Nat.reduceMod, Nat.shiftRight_eq_div_pow, Nat.shiftLeft_eq]
  omega

/-- Below bit 10 a PTE is its flags, so every test of flag bits reads the flags alone. -/
theorem pte_and (pa f b : UInt64) (hf : f.toNat < 1024) (hb : b.toNat < 1024) :
    (pa2pte pa ||| f) &&& b = f &&& b := by
  apply UInt64.toNat_inj.mp
  rw [UInt64.toNat_and, UInt64.toNat_and, pte_toNat pa f hf]
  have hb' : b.toNat < 2 ^ 10 := hb
  calc (pa.toNat / 4096 * 1024 + f.toNat) &&& b.toNat
      = ((pa.toNat / 4096 * 1024 + f.toNat) &&& b.toNat) % 2 ^ 10 :=
        (Nat.mod_eq_of_lt (Nat.and_lt_two_pow _ hb')).symm
    _ = (pa.toNat / 4096 * 1024 + f.toNat) % 2 ^ 10 &&& b.toNat % 2 ^ 10 := Nat.and_mod_two_pow
    _ = f.toNat &&& b.toNat := by
        rw [Nat.mod_eq_of_lt hb']
        congr 1
        omega

theorem pteFlags_pte (pa f : UInt64) (hf : f.toNat < 1024) : pteFlags (pa2pte pa ||| f) = f := by
  rw [pteFlags, pte_and pa f _ hf (by decide)]
  apply UInt64.toNat_inj.mp
  rw [UInt64.toNat_and, show (0x3FF : UInt64).toNat = 2 ^ 10 - 1 from rfl,
    Nat.and_two_pow_sub_one_eq_mod, Nat.mod_eq_of_lt hf]

/-- A PTE with `PTE_V` set is valid, whatever else it holds. -/
theorem or_pteV_valid (pte : UInt64) : (pte ||| pteV) &&& pteV ≠ 0 := by
  intro h
  have h0 := congrArg (fun y : UInt64 => y.toBitVec.getLsbD 0) h
  simp [pteV] at h0

/-- The flags `PTE_R | PTE_U | xperm | PTE_V` of a user page are no pointer to a lower level. -/
theorem userFlags_ne_pteV (xperm : UInt64) : pteR ||| pteU ||| xperm ||| pteV ≠ pteV := by
  intro h
  have h1 := congrArg (fun y : UInt64 => y.toBitVec.getLsbD 1) h
  simp [pteR, pteV] at h1

theorem userFlags_toNat_lt {xperm : UInt64} (hx : xperm.toNat < 1024) :
    (pteR ||| pteU ||| xperm ||| pteV).toNat < 1024 := by
  have hx' : xperm.toNat < 2 ^ 10 := hx
  show _ < 2 ^ 10
  simp only [UInt64.toNat_or]
  exact Nat.or_lt_two_pow (Nat.or_lt_two_pow (Nat.or_lt_two_pow (by decide) (by decide)) hx')
    (by decide)

/-! ### Indices -/

theorem maxva_toNat : maxva.toNat = 2 ^ 38 := by decide

/-- The virtual page number of an address. -/
def vpn (va : UInt64) : ℕ := va.toNat / 4096

/-- `PX(level, va)` is the level's nine bits of the page number. -/
theorem px_eq (level : ℕ) (hl : level ≤ 2) (va : UInt64) :
    px level va = vpn va / 512 ^ level % 512 := by
  have hs : ((12 + 9 * level : ℕ).toUInt64).toNat % 64 = 12 + 9 * level := by
    rw [Nat.toUInt64_eq, UInt64.toNat_ofNat', Nat.mod_eq_of_lt (show 12 + 9 * level < 2 ^ 64 by omega),
      Nat.mod_eq_of_lt (show 12 + 9 * level < 64 by omega)]
  rw [px, UInt64.toNat_and, UInt64.toNat_shiftRight, hs,
    show (0x1FF : UInt64).toNat = 2 ^ 9 - 1 from rfl, Nat.and_two_pow_sub_one_eq_mod,
    Nat.shiftRight_eq_div_pow, vpn, Nat.div_div_eq_div_mul, pow_add, pow_mul]
  rfl

theorem px_lt (level : ℕ) (va : UInt64) : px level va < 512 := by
  rw [px, UInt64.toNat_and]
  exact Nat.and_lt_two_pow _ (show (0x1FF : UInt64).toNat < 2 ^ 9 by decide)

theorem vpn_lt {va : UInt64} (h : va < maxva) : vpn va < 2 ^ 26 := by
  have := UInt64.lt_iff_toNat_lt.mp h
  rw [maxva_toNat] at this
  unfold vpn
  omega

/-- Below `MAXVA`, the three indices determine the page. -/
theorem vpn_eq_of_px {va va' : UInt64} (h : va < maxva) (h' : va' < maxva)
    (h2 : px 2 va = px 2 va') (h1 : px 1 va = px 1 va') (h0 : px 0 va = px 0 va') :
    vpn va = vpn va' := by
  have hv := vpn_lt h
  have hv' := vpn_lt h'
  rw [px_eq 2 (by omega), px_eq 2 (by omega)] at h2
  rw [px_eq 1 (by omega), px_eq 1 (by omega)] at h1
  rw [px_eq 0 (by omega), px_eq 0 (by omega)] at h0
  simp only [pow_zero, pow_one, Nat.div_one] at h2 h1 h0
  omega

theorem vpn_pgrounddown (va : UInt64) : vpn (pgrounddown va) = vpn va := by
  rw [vpn, vpn, pgrounddown_toNat]
  omega

/-! ### Rounding up -/

theorem toNat_pgroundup (a : UInt64) :
    (pgroundup a).toNat = (a.toNat + 4095) % 2 ^ 64 / 4096 * 4096 := by
  have hadd : a + pgsize - 1 = a + (2 ^ 12 - 1 : ℕ).toUInt64 := by
    apply UInt64.toBitVec_inj.mp
    simp [pgsize]
    bv_omega
  rw [pgroundup, hadd, show pgsize - 1 = (2 ^ 12 - 1 : ℕ).toUInt64 from rfl,
    UInt64.toNat_roundUp a 12 (by norm_num)]
  rfl

/-- Up to `TRAPFRAME`, `PGROUNDUP` does not wrap: it is the first page boundary at or above. -/
theorem toNat_pgroundup_of_le {a : UInt64} (h : a ≤ trapframe) :
    (pgroundup a).toNat = (a.toNat + 4095) / 4096 * 4096 := by
  have ha := UInt64.le_iff_toNat_le.mp h
  have ht : trapframe.toNat = 2 ^ 38 - 8192 := by decide
  rw [toNat_pgroundup, Nat.mod_eq_of_lt (by omega)]

theorem vpn_pgroundup_of_le {a : UInt64} (h : a ≤ trapframe) :
    vpn (pgroundup a) = (a.toNat + 4095) / 4096 := by
  rw [vpn, toNat_pgroundup_of_le h]
  omega

end Xv6Lab.Vm
