import Xv6Lab.Lib.ListSeg
import Xv6Lab.Lib.MaskAlign

/-!
# The dynamic allocator of `kernel/dalloc.c`

The heap is the last `HEAP_SIZE` bytes below `PHYSTOP`. It is cut into blocks, each a
16-byte `struct dheader` followed by its data area; the headers form a singly linked list
from `dmem.start`, and they live inside the memory the allocator manages.

The model keeps the headers where the code keeps them: `DMem.mem a` is the header the code
reads when it dereferences a `struct dheader *` equal to `a`. Every header the code touches
sits at a 16-aligned address (this is part of the invariant proved later), so two distinct
headers never share a byte and a store of headers indexed by address is exact.

Each function is written statement by statement after the source, with the field writes in
the source's order and each read taken from the memory as it stands at that point, so that
aliasing (a new header written over the current one) behaves as in C. Sizes are `unsigned`,
so they are `UInt32` and wrap; pointers stay far below `2^64` and are natural numbers, except
where `dfree` steps back from a caller's pointer, which wraps as a `uint64`. The `while`
loops follow `next` pointers through memory the code does not check, so they run on a fuel
budget (`walkFuel`) and answer `none` when it runs out; on a heap that tiles they never do.

The spinlock is not modelled: `dalloc` and `dfree` hold it for their whole body and are one
atomic step each, and `dinit` is one step too.
-/

namespace Xv6Lab.Dalloc

open ListSeg

/-! ### Layout (`memlayout.h`, `dalloc.c`) -/

def kernbase : ℕ := 0x80000000

/-- `HEAP_SIZE`: 16MB for the dynamic allocation heap. -/
def heapSize : ℕ := 16 * 1024 * 1024

def phystop : ℕ := kernbase + 128 * 1024 * 1024

def alignmentSize : ℕ := 16

/-- `HEADER_SIZE`, the size of `struct dheader`. -/
def headerSize : ℕ := 16

/-- The first header of the heap, `PHYSTOP - HEAP_SIZE`. -/
def heapBase : ℕ := phystop - heapSize

/-- `struct dheader`: the size of the data area after it, whether that area is handed out,
and the address of the next header (`0` for none). -/
structure DHeader where
  dataSize : UInt32
  used : Bool
  next : ℕ
  deriving DecidableEq, Repr

/-- The global `dmem` (its lock apart) and the memory the headers live in. -/
structure DMem where
  start : ℕ
  mem : ℕ → DHeader

/-! ### Field writes -/

/-- `h->data_size = v` for the header at `a`. -/
def setDataSize (mem : ℕ → DHeader) (a : ℕ) (v : UInt32) : ℕ → DHeader :=
  Function.update mem a { mem a with dataSize := v }

/-- `h->used = v` for the header at `a`. -/
def setUsed (mem : ℕ → DHeader) (a : ℕ) (v : Bool) : ℕ → DHeader :=
  Function.update mem a { mem a with used := v }

/-- `h->next = v` for the header at `a`. -/
def setNext (mem : ℕ → DHeader) (a : ℕ) (v : ℕ) : ℕ → DHeader :=
  Function.update mem a { mem a with next := v }

/-- An iteration budget no loop of the allocator exhausts on a heap that tiles: such a heap
has at most `HEAP_SIZE / HEADER_SIZE` blocks, and every loop takes at most one step per
block before it stops. -/
def walkFuel : ℕ := heapSize / headerSize + 1

/-! ### `dinit` -/

/-- `dinit`: one free block spanning the heap. -/
def dinit (s : DMem) : DMem :=
  let start := phystop - heapSize
  let mem := setDataSize s.mem start (heapSize - headerSize).toUInt32
  let mem := setUsed mem start false
  let mem := setNext mem start 0
  { start, mem }

/-! ### `dalloc` -/

/-- `(x + (ALIGNMENT_SIZE - 1)) & ~(ALIGNMENT_SIZE - 1)` in `unsigned`. -/
def align (x : UInt32) : UInt32 :=
  (x + (alignmentSize - 1).toUInt32) &&& ~~~(alignmentSize - 1).toUInt32

/-- The test of the search loop: `!curr->used && curr->data_size >= required_size`. -/
def fits (requiredSize : UInt32) (_ : ℕ) (h : DHeader) : Bool :=
  !h.used && decide (h.dataSize ≥ requiredSize)

/-- The body of `dalloc` once the loop has stopped at `curr`: split off the tail of the block
when it is larger than `required_size`, then mark it used. -/
def allocAt (mem : ℕ → DHeader) (curr : ℕ) (size requiredSize : UInt32) : ℕ → DHeader :=
  let mem :=
    if (mem curr).dataSize > requiredSize then
      let newBlock := curr + requiredSize.toNat
      let mem := setDataSize mem newBlock ((mem curr).dataSize - requiredSize)
      let mem := setNext mem newBlock (mem curr).next
      let mem := setUsed mem newBlock false
      let mem := setDataSize mem curr (align size)
      setNext mem curr newBlock
    else mem
  setUsed mem curr true

/-- `dalloc(size)`: first fit along the list. The pointer returned is `curr + 1`, the byte
after the header, or `0` when no block fits. -/
def dalloc (s : DMem) (size : UInt32) : Option (DMem × ℕ) :=
  let requiredSize := align (size + headerSize.toUInt32)
  match firstCell DHeader.next 0 (fits requiredSize) walkFuel s.mem s.start with
  | none => none
  | some none => some (s, 0)
  | some (some curr) =>
    some ({ s with mem := allocAt s.mem curr size requiredSize }, curr + headerSize)

/-! ### `coalesce_blocks` -/

/-- The loop of `coalesce_blocks` from `curr`: merge the next block into a free `curr` while
that block is free too, otherwise step on. -/
def coalesceLoop : ℕ → (ℕ → DHeader) → ℕ → Option (ℕ → DHeader)
  | 0, _, _ => none
  | fuel + 1, mem, curr =>
    if curr ≠ 0 ∧ (mem curr).next ≠ 0 then
      if !(mem curr).used && !(mem (mem curr).next).used then
        let mem := setDataSize mem curr
          ((mem curr).dataSize + ((mem (mem curr).next).dataSize + headerSize.toUInt32))
        let mem := setNext mem curr (mem (mem curr).next).next
        coalesceLoop fuel mem curr
      else coalesceLoop fuel mem (mem curr).next
    else some mem

def coalesceBlocks (s : DMem) : Option DMem :=
  (coalesceLoop walkFuel s.mem s.start).map fun mem => { s with mem }

/-! ### `dfree` -/

/-- `dfree(addr)`: the header is the 16 bytes before `addr`; it must be aligned and on the
list, and then it is marked free and the list coalesced. The two panics are the errors. -/
def dfree (s : DMem) (addr : ℕ) : Option (Except String DMem) :=
  let blockHeader := (addr + 2 ^ 64 - headerSize) % 2 ^ 64
  if blockHeader % alignmentSize ≠ 0 then
    some (.error "dfree: Address is not properly aligned.")
  else
    match firstCell DHeader.next 0 (fun curr _ => decide (curr = blockHeader)) walkFuel
        s.mem s.start with
    | none => none
    | some none => some (.error "dfree: Invalid address.")
    | some (some curr) => (coalesceBlocks { s with mem := setUsed s.mem curr false }).map .ok

end Xv6Lab.Dalloc
