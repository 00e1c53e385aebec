import Xv6Lab.Umalloc.Code

/-!
# `malloc` at the edge of `sbrk`'s `int`

`malloc(nbytes)` asks for `nunits = (nbytes + sizeof(Header) - 1) / sizeof(Header) + 1`
units, and `morecore` for `nunits * sizeof(Header)` bytes from `sbrk`. Both products are
`size_t`s and do not wrap, but `sbrk` takes an `int`: from `nbytes = 2^31` the request is
`2^31 + 16` bytes, which arrives as `-2^31 + 16`. `growproc` then calls
`uvmdealloc(pagetable, sz, sz + n)`, whose `sz + n` wraps past `sz` as a `uint64`, so the size
stays and `sbrk` reports success with the old break. `morecore` takes the memory above the
break as a new block, and `malloc` hands it out (`malloc_big_above_break`).

The break below is not page-aligned, as after an `sbrk` of a few bytes: the header `morecore`
writes at the break then lands in the last page of the process, which is mapped.
-/

namespace Xv6Lab.Umalloc

/-- A process that has not called `malloc` yet, with `base` at `0x1000` and its break at
`0x3010`. -/
def unalignedBreak : UMem := ⟨fun _ => ⟨0, 0⟩, 0, 0x3010⟩

-- `nunits` does not wrap: it is computed in `size_t`
example : nunitsFor 0xFFFFFFFF = 0x10000001 := by decide

/-- **`malloc(2^31)` succeeds above the break.** It returns the block at `0x3020`, past the
process size `0x3010`, which it leaves as it was: none of the `2^31` bytes it hands out lie
below the break. -/
theorem malloc_big_above_break :
    ∃ s', malloc 0x1000 unalignedBreak 0x80000000 true = some (s', 0x3020) ∧ s'.sz = 0x3010 := by
  have hc : (malloc 0x1000 unalignedBreak 0x80000000 true).map (fun v => (v.2, v.1.sz)) =
      some (0x3020, 0x3010) := by decide
  rcases hm : malloc 0x1000 unalignedBreak 0x80000000 true with _ | ⟨s', r⟩
  · rw [hm] at hc
    cases hc
  · rw [hm] at hc
    simp only [Option.map_some, Option.some.injEq, Prod.mk.injEq] at hc
    obtain ⟨rfl, h⟩ := hc
    exact ⟨s', rfl, h⟩

end Xv6Lab.Umalloc
