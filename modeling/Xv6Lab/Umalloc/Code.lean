import Mathlib.Data.List.Basic
import Mathlib.Algebra.Group.Nat.Defs

/-!
# The user allocator of `user/umalloc.c`

`malloc` and `free` are the allocator of Kernighan and Ritchie. Free blocks form a circular
list through the static `base`, ordered by address, from `freep`; each block starts with a
`Header` holding the next free block and its own size in units of `sizeof(Header)`. `free`
inserts a block where it belongs and merges it with the neighbours it touches; `malloc`
takes the first block that is large enough, cutting what it needs from its end, and when a
whole round of the list finds none it asks `morecore` for memory from `sbrk`.

As for `dalloc`, `UMem.mem a` is the header the code reads when it dereferences a `Header *`
equal to `a`, and every field write is taken in the source's order, each read from the
memory as it stands. Sizes are `uint`, so they are `UInt32`; `nbytes + sizeof(Header) - 1`
and `nu * sizeof(Header)` are computed in `size_t`, 64 bits, where they do not wrap, and the
second is passed to `sbrk`'s `int` parameter, which keeps its low 32 bits. Whether `sbrk`
can grow the process (`uvmalloc` may run out of memory) is the argument `ok`. The loops
follow pointers the code does not check and run on a budget, `loopFuel`.
-/

namespace Xv6Lab.Umalloc

/-- `union header`: the next block of the free list and the size of this one, in units of
`sizeof(Header)`. -/
structure Header where
  ptr : ℕ
  size : UInt32
  deriving DecidableEq, Repr

/-- `sizeof(Header)`: a pointer and a `uint`, aligned as a `long`. -/
def hdrSize : ℕ := 16

/-- The process as the allocator sees it: the headers in its memory, `freep` (`0` for
`NULL`), and its size `p->sz`, the break that `sbrk` moves. -/
structure UMem where
  mem : ℕ → Header
  freep : ℕ
  sz : ℕ

/-- `h->s.ptr = v` for the header at `a`. -/
def setPtr (mem : ℕ → Header) (a v : ℕ) : ℕ → Header :=
  Function.update mem a { mem a with ptr := v }

/-- `h->s.size = v` for the header at `a`. -/
def setSize (mem : ℕ → Header) (a : ℕ) (v : UInt32) : ℕ → Header :=
  Function.update mem a { mem a with size := v }

@[simp] theorem setPtr_same (mem : ℕ → Header) (a v : ℕ) : setPtr mem a v a = { mem a with ptr := v } := by
  simp [setPtr]

@[simp] theorem setPtr_of_ne {mem : ℕ → Header} {a x : ℕ} (v : ℕ) (h : x ≠ a) :
    setPtr mem a v x = mem x := by
  simp [setPtr, h]

@[simp] theorem setSize_same (mem : ℕ → Header) (a : ℕ) (v : UInt32) :
    setSize mem a v a = { mem a with size := v } := by
  simp [setSize]

@[simp] theorem setSize_of_ne {mem : ℕ → Header} {a x : ℕ} (v : UInt32) (h : x ≠ a) :
    setSize mem a v x = mem x := by
  simp [setSize, h]

/-- Writing a size leaves every link as it was. -/
@[simp] theorem setSize_ptr (mem : ℕ → Header) (a : ℕ) (v : UInt32) (x : ℕ) :
    (setSize mem a v x).ptr = (mem x).ptr := by
  by_cases h : x = a
  · subst h
    simp
  · simp [h]

/-- Writing a link leaves every size as it was. -/
@[simp] theorem setPtr_size (mem : ℕ → Header) (a v x : ℕ) :
    (setPtr mem a v x).size = (mem x).size := by
  by_cases h : x = a
  · subst h
    simp
  · simp [h]

/-- A budget for the loops over the free list: no user address space holds more blocks. -/
def loopFuel : ℕ := 2 ^ 36

/-! ### `free` -/

/-- The search loop of `free` for the block `bp`, from `p`: stop where `bp` lies between `p`
and the block after it, or at the one place where the list wraps from its highest block to
its lowest, when `bp` lies beyond either of them. -/
def freeSearch (mem : ℕ → Header) (bp : ℕ) : ℕ → ℕ → Option ℕ
  | 0, _ => none
  | fuel + 1, p =>
    if bp > p ∧ bp < (mem p).ptr then some p
    else if p ≥ (mem p).ptr ∧ (bp > p ∨ bp < (mem p).ptr) then some p
    else freeSearch mem bp fuel (mem p).ptr

/-- The end of `free` once the search has stopped at `p`: `bp` is joined to the block after
`p` when it ends where that one starts, and `p` to `bp` when `p` ends where `bp` starts. -/
def freeJoin (s : UMem) (bp p : ℕ) : UMem :=
  let mem := s.mem
  let mem :=
    if bp + hdrSize * (mem bp).size.toNat = (mem p).ptr then
      let mem := setSize mem bp ((mem bp).size + (mem (mem p).ptr).size)
      setPtr mem bp (mem (mem p).ptr).ptr
    else setPtr mem bp (mem p).ptr
  let mem :=
    if p + hdrSize * (mem p).size.toNat = bp then
      let mem := setSize mem p ((mem p).size + (mem bp).size)
      setPtr mem p (mem bp).ptr
    else setPtr mem p bp
  { s with mem, freep := p }

/-- `free(ap)`. -/
def free (s : UMem) (ap : ℕ) : Option UMem :=
  let bp := ap - hdrSize
  (freeSearch s.mem bp loopFuel s.freep).map (freeJoin s bp)

/-! ### `sbrk` and `morecore` -/

/-- `sbrk(n)` as `sys_sbrk` and `growproc` answer it: the old size, or `-1` as a `uint64`.
Growing by `n > 0` bytes succeeds when `ok`; shrinking by `n < 0` goes to
`uvmdealloc(pagetable, sz, sz + n)` with `sz + n` in `uint64`, which keeps the size when that
sum wraps past it. -/
def sbrk (s : UMem) (n : Int32) (ok : Bool) : UMem × ℕ :=
  if 0 < n then
    if ok then ({ s with sz := s.sz + n.toInt.toNat }, s.sz) else (s, 2 ^ 64 - 1)
  else if n < 0 then
    let newsz := (s.sz + n.toInt64.toUInt64.toNat) % 2 ^ 64
    ({ s with sz := if newsz ≥ s.sz then s.sz else newsz }, s.sz)
  else (s, s.sz)

/-- `morecore(nu)`: at least 4096 units from `sbrk`, handed to `free`; `freep` after it, or
`0` when `sbrk` fails. -/
def morecore (s : UMem) (nu : UInt32) (ok : Bool) : Option (UMem × ℕ) :=
  let nu := if nu < 4096 then 4096 else nu
  -- `nu * sizeof(Header)` is a `size_t`; `sbrk` takes an `int`
  let r := sbrk s (Int32.ofNat (nu.toNat * hdrSize)) ok
  if r.2 = 2 ^ 64 - 1 then some (r.1, 0)
  else
    let hp := r.2
    let s := { r.1 with mem := setSize r.1.mem hp nu }
    (free s (hp + hdrSize)).map fun s => (s, s.freep)

/-! ### `malloc` -/

/-- The loop of `malloc` with `prevp` and `p`: take `p` when it is large enough, whole when
it fits exactly and otherwise cut from its end; ask `morecore` when the search is back at
`freep`. -/
def mallocLoop (nunits : UInt32) (ok : Bool) : ℕ → UMem → ℕ → ℕ → Option (UMem × ℕ)
  | 0, _, _, _ => none
  | fuel + 1, s, prevp, p =>
    if (s.mem p).size ≥ nunits then
      if (s.mem p).size = nunits then
        some ({ s with mem := setPtr s.mem prevp (s.mem p).ptr, freep := prevp }, p + hdrSize)
      else
        let mem := setSize s.mem p ((s.mem p).size - nunits)
        let p := p + hdrSize * (mem p).size.toNat
        let mem := setSize mem p nunits
        some ({ s with mem, freep := prevp }, p + hdrSize)
    else if p = s.freep then
      match morecore s nunits ok with
      | none => none
      | some (s, 0) => some (s, 0)
      | some (s, p) => mallocLoop nunits ok fuel s p (s.mem p).ptr
    else mallocLoop nunits ok fuel s p (s.mem p).ptr

/-- The number of units of a block for `nbytes`, its header included: computed in `size_t`,
kept in a `uint`. -/
def nunitsFor (nbytes : UInt32) : UInt32 :=
  UInt32.ofNat ((nbytes.toNat + hdrSize - 1) / hdrSize + 1)

/-- `malloc(nbytes)`, with the static `base` at address `base`: the first call makes `base`
a free list of one block of size `0`. -/
def malloc (base : ℕ) (s : UMem) (nbytes : UInt32) (ok : Bool) : Option (UMem × ℕ) :=
  let nunits := nunitsFor nbytes
  let s := if s.freep = 0 then { s with mem := setSize (setPtr s.mem base base) base 0, freep := base }
    else s
  mallocLoop nunits ok loopFuel s s.freep (s.mem s.freep).ptr

end Xv6Lab.Umalloc
