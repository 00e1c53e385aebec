import Xv6Lab.Dalloc.Code
import Xv6Lab.Lib.Interleave

/-!
# The page allocator of `kernel/kalloc.c`

`kinit` gives the pages between the end of the kernel and the start of the `dalloc` heap to
`kfree`, one by one (`freerange(end, PHYSTOP - HEAP_SIZE)`); `kfree` pushes a page on
`kmem.freelist` and `kalloc` pops one. The list is intrusive: a free page holds a
`struct run` whose `next` field links to the next free page, `0` ending the list.

`KMem.next a` is the first word of the page at `a`, which the code reads and writes as
`((struct run *)a)->next`; the rest of a page is never read by the allocator, so at this
level the `memset`s are modelled by what they leave in that word (`kfree` overwrites it with
the link right after its `memset`). `Kalloc.Memory` refines this on the bytes of memory.

`PhysState` is physical memory shared by this allocator and the `dalloc` heap of
`kernel/dalloc.c`: one store of cells, which `kalloc` and `kfree` read as `struct run` and fill
page by page, and which `dinit`, `dalloc` and `dfree` read and write as `struct dheader`. That
the two stay apart is a theorem (`Kalloc.Partition`), not a property of the model. The set
of pages `kalloc` has handed out and not had back (`live`) is ghost state of the proof.
Addresses are natural numbers; the loop of `freerange` computes in `uint64`, as the code
does, since its bound test can wrap. The spinlocks are not modelled: the locked part of each
call is one step.
-/

namespace Xv6Lab.Kalloc

open Dalloc

/-- `PGSIZE`. -/
def pgsize : ℕ := 4096

/-- `PGROUNDUP(sz)` on `uint64`. -/
def pgroundup (sz : UInt64) : UInt64 :=
  (sz + (pgsize - 1).toUInt64) &&& ~~~(pgsize - 1).toUInt64

/-- The word `memset(r, 5, PGSIZE)` leaves at the start of a page. -/
def junk : ℕ := 0x0505050505050505

/-- The global `kmem` (its lock apart) and the first word of every page. -/
structure KMem where
  freelist : ℕ
  next : ℕ → ℕ

/-- `kfree(pa)`: refuse a page that is not aligned, below `end` or past `PHYSTOP`, then
push it on the free list. -/
def kfree (kend : UInt64) (k : KMem) (pa : ℕ) : Except String KMem :=
  if pa % pgsize ≠ 0 ∨ pa < kend.toNat ∨ pa ≥ phystop then .error "kfree"
  else .ok ⟨pa, Function.update k.next pa k.freelist⟩

/-- `kalloc()`: pop the head of the free list, or return `0` when it is empty. -/
def kalloc (k : KMem) : KMem × ℕ :=
  let r := k.freelist
  if r ≠ 0 then (⟨k.next r, Function.update k.next r junk⟩, r) else (k, 0)

/-! ### Both allocators on one memory -/

/-- Sixteen bytes of physical memory, as two little-endian words. At a page the first is the
`next` of the `struct run` there; at a block of the heap it holds the `data_size` (low half)
and `used` (high half) of the `struct dheader`, and the second word is its `next`. -/
structure Cell where
  lo : ℕ
  hi : ℕ
  deriving DecidableEq

/-- The `struct dheader` a cell holds. -/
def Cell.header (c : Cell) : DHeader :=
  ⟨c.lo.toUInt32, c.lo / 2 ^ 32 % 2 ^ 32 != 0, c.hi⟩

/-- The cell a header is stored as, with `used` as `1`. -/
def Cell.ofHeader (h : DHeader) : Cell :=
  ⟨h.dataSize.toNat + 2 ^ 32 * h.used.toNat, h.next⟩

/-- The cell `memset(_, c, _)` leaves. -/
def Cell.fill (c : ℕ) : Cell := ⟨c * 0x0101010101010101, c * 0x0101010101010101⟩

/-- `memset(pa, c, PGSIZE)`. -/
def memsetPage (ram : ℕ → Cell) (pa c : ℕ) : ℕ → Cell := fun a =>
  if pa ≤ a ∧ a < pa + pgsize then Cell.fill c else ram a

/-- Physical memory at the address of each cell, `kmem.freelist`, `dmem.start`, and the pages
`kalloc` returned and that were not freed since, latest first (ghost state of the proof).
A cell is read as a `struct run` by `kalloc.c` and as a `struct dheader` by `dalloc.c`; the
cells of two addresses less than sixteen apart overlap in the machine, which the model does
not relate, since no address that one allocator uses lies within sixteen bytes of one the
other uses. -/
structure PhysState where
  freelist : ℕ
  start : ℕ
  ram : ℕ → Cell
  live : List ℕ

namespace PhysState

/-- The heap's view: `dmem`, and the `struct dheader` at every address. -/
def dmem (σ : PhysState) : DMem := ⟨σ.start, fun a => (σ.ram a).header⟩

/-- `kfree(pa)`: refuse a page that is not aligned, below `end` or past `PHYSTOP`, fill it
with `1`s, then push it on the free list. -/
def kfree (kend : UInt64) (σ : PhysState) (pa : ℕ) : Except String PhysState :=
  if pa % pgsize ≠ 0 ∨ pa < kend.toNat ∨ pa ≥ phystop then .error "kfree"
  else
    let ram := memsetPage σ.ram pa 1
    .ok { σ with freelist := pa, ram := Function.update ram pa { ram pa with lo := σ.freelist } }

/-- `kalloc()`: pop the head of the free list and fill it with `5`s, or return `0`. -/
def kalloc (σ : PhysState) : PhysState × ℕ :=
  let r := σ.freelist
  if r ≠ 0 then ({ σ with freelist := (σ.ram r).lo, ram := memsetPage σ.ram r 5 }, r)
  else (σ, 0)

/-- Memory after a call of `dalloc.c` that leaves the heap `d`: the call wrote the headers
that changed, and every other cell keeps its bytes. -/
def setHeap (σ : PhysState) (d : DMem) : PhysState :=
  { σ with
    start := d.start
    ram := fun a => if d.mem a = (σ.ram a).header then σ.ram a else Cell.ofHeader (d.mem a) }

end PhysState

/-- The loop of `freerange` from page `p`: `kfree(p)` while `p + PGSIZE <= pa_end`, for at
most `fuel` pages; `none` when the fuel runs out. -/
def freerangeLoop (kend paEnd : UInt64) : ℕ → UInt64 → PhysState → Option (Except String PhysState)
  | 0, _, _ => none
  | fuel + 1, p, σ =>
    if p + pgsize.toUInt64 ≤ paEnd then
      match σ.kfree kend p.toNat with
      | .error e => some (.error e)
      | .ok σ => freerangeLoop kend paEnd fuel (p + pgsize.toUInt64) σ
    else some (.ok σ)

/-- `freerange(pa_start, pa_end)`. No run of the loop takes more than one iteration per
page below `pa_end`, which is the fuel. -/
def freerange (kend paStart paEnd : UInt64) (σ : PhysState) : Option (Except String PhysState) :=
  freerangeLoop kend paEnd (paEnd.toNat / pgsize + 1) (pgroundup paStart) σ

/-- `kinit()` on memory holding `ram`, with `kmem.freelist` and `dmem.start` zero as the
loader leaves them. -/
def kinit (kend : UInt64) (ram : ℕ → Cell) : Option (Except String PhysState) :=
  freerange kend kend (phystop - heapSize).toUInt64 ⟨0, 0, ram, []⟩

/-- The calls of a run after `kinit`. -/
inductive Op
  | kalloc
  | kfree (pa : ℕ)
  | dinit
  | dalloc (size : UInt32)
  | dfree (addr : ℕ)

/-- One call. `kfree` is taken only on a live page, as its callers promise; the others on
any argument. The calls of `dalloc.c` run on the heap's view of memory. -/
def PhysState.step (kend : UInt64) (σ : PhysState) : Op → Option (Except String PhysState)
  | .kalloc =>
    let r := σ.kalloc
    some (.ok { r.1 with live := if r.2 = 0 then σ.live else r.2 :: σ.live })
  | .kfree pa =>
    if pa ∈ σ.live then
      some ((σ.kfree kend pa).map fun σ' => { σ' with live := σ.live.erase pa })
    else none
  | .dinit => some (.ok (σ.setHeap (dinit σ.dmem)))
  | .dalloc size => (dalloc σ.dmem size).map fun r => .ok (σ.setHeap r.1)
  | .dfree addr => (dfree σ.dmem addr).map fun r => r.map σ.setHeap

end Xv6Lab.Kalloc
