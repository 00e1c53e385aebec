import Xv6Lab.Lib.Bytes

/-!
# `memmove`, in the kernel and in user space

The kernel's `memmove` (`kernel/string.c`, with `uint n`) copies backward when the source
starts below the destination and runs into it, and forward otherwise; the one of `ulib.c`
(with `int n`) copies forward when the source lies above the destination, and backward
otherwise, with a count `n ≤ 0` copying nothing. Memory is a map from addresses to bytes, and
pointers are addresses: neither function's pointer arithmetic wraps.

Each direction is taken only where it reads every source byte before it overwrites it, so
both functions are `copy` of the bytes as they were (`Str.memmove_eq_copy`,
`Ulib.memmove_eq_copy`), and on the same count they agree.
-/

namespace Xv6Lab

open ByteMap

namespace Str

/-- `memmove(dst, src, n)` of the kernel: memory after the copy, and the `dst` it returns. -/
def memmove (mem : ℕ → UInt8) (dst src : ℕ) (n : UInt32) : (ℕ → UInt8) × ℕ :=
  if n = 0 then (mem, dst)
  else if src < dst ∧ src + n.toNat > dst then (copyBackward mem dst src n.toNat, dst)
  else (copyForward mem dst src n.toNat, dst)

/-- The kernel's `memmove` copies `n` bytes from `src` to `dst` as they were before the
call, and writes nothing else. -/
theorem memmove_eq_copy (mem : ℕ → UInt8) (dst src : ℕ) (n : UInt32) :
    memmove mem dst src n = (copy mem dst mem src n.toNat, dst) := by
  rw [memmove]
  by_cases h0 : n = 0
  · rw [if_pos h0, h0, UInt32.toNat_zero, copy_zero]
  rw [if_neg h0]
  by_cases hb : src < dst ∧ src + n.toNat > dst
  · rw [if_pos hb, copyBackward_eq_copy mem (.inl hb.1.le)]
  · rw [if_neg hb, copyForward_eq_copy mem (by omega)]

end Str

namespace Ulib

/-- `memmove(vdst, vsrc, n)` of `ulib.c`: memory after the copy, and the `vdst` it returns.
`while(n-- > 0)` runs `max n 0` times. -/
def memmove (mem : ℕ → UInt8) (vdst vsrc : ℕ) (n : Int32) : (ℕ → UInt8) × ℕ :=
  if vsrc > vdst then (copyForward mem vdst vsrc n.toInt.toNat, vdst)
  else (copyBackward mem vdst vsrc n.toInt.toNat, vdst)

/-- The user `memmove` copies `n` bytes from `vsrc` to `vdst` as they were before the call,
none for `n ≤ 0`, and writes nothing else. -/
theorem memmove_eq_copy (mem : ℕ → UInt8) (vdst vsrc : ℕ) (n : Int32) :
    memmove mem vdst vsrc n = (copy mem vdst mem vsrc n.toInt.toNat, vdst) := by
  rw [memmove]
  by_cases hf : vsrc > vdst
  · rw [if_pos hf, copyForward_eq_copy mem (.inl hf.le)]
  · rw [if_neg hf, copyBackward_eq_copy mem (.inl (by omega))]

end Ulib

/-- **`memmove` is an overlap-safe copy in both implementations.** However `dst[0..n)` and
`src[0..n)` overlap, the kernel's `memmove` and the user one leave in `dst[0..n)` the bytes
`src[0..n)` held before the call and change no other byte; the user one copies nothing for
`n ≤ 0`; and on the same count the two agree. -/
theorem memmove_overlap_safe (mem : ℕ → UInt8) (dst src : ℕ) :
    (∀ n : UInt32, Str.memmove mem dst src n = (copy mem dst mem src n.toNat, dst)) ∧
    (∀ n : Int32, Ulib.memmove mem dst src n = (copy mem dst mem src n.toInt.toNat, dst)) ∧
    (∀ n : Int32, n ≤ 0 → Ulib.memmove mem dst src n = (mem, dst)) ∧
    ∀ (n : UInt32) (m : Int32), (n.toNat : ℤ) = m.toInt →
      Str.memmove mem dst src n = Ulib.memmove mem dst src m := by
  refine ⟨Str.memmove_eq_copy mem dst src, Ulib.memmove_eq_copy mem dst src, fun n hn => ?_,
    fun n m h => ?_⟩
  · have h0 : n.toInt.toNat = 0 := Int.toNat_eq_zero.mpr (Int32.le_iff_toInt_le.mp hn)
    rw [Ulib.memmove_eq_copy, h0, copy_zero]
  · have hc : n.toNat = m.toInt.toNat := by omega
    rw [Str.memmove_eq_copy, Ulib.memmove_eq_copy, hc]

end Xv6Lab
