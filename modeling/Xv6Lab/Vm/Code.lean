import Xv6Lab.Kalloc.Memory

/-!
# User page tables (`kernel/vm.c`)

An Sv39 page table is three levels of page-table pages, each 512 `uint64` PTEs in a page of
physical memory. A virtual address below `MAXVA` picks one PTE on each level with 9 of its
bits (`PX`); a PTE holds a physical page number from bit 10 up and flags in its low bits
(`PTE_V`, `PTE_R`, `PTE_W`, `PTE_X`, `PTE_U`). `walk` descends from the root page to the
level-0 PTE, allocating missing page-table pages with `kalloc` when asked; the other
functions map, unmap, copy and read through it.

Everything works on `PhysMem`, physical memory as bytes together with the free list of
`kalloc`: page-table pages, the pages they map and the kernel buffers a copy reads or writes
are all in it. Physical addresses are natural numbers; virtual addresses, sizes and PTEs are
`uint64`, with the source's wrap-around. A panic is an error with the source's message.

Each loop runs on fuel that is at least the number of passes it makes: the bytes left to
copy, or the pages left to map or unmap.
-/

namespace Xv6Lab.Vm

open Kalloc

/-! ### Constants and macros (`riscv.h`, `memlayout.h`) -/

/-- `PGSIZE`. -/
def pgsize : UInt64 := 4096

/-- `PTE_V`: valid. -/
def pteV : UInt64 := (1 : UInt64) <<< 0

/-- `PTE_R`. -/
def pteR : UInt64 := (1 : UInt64) <<< 1

/-- `PTE_W`. -/
def pteW : UInt64 := (1 : UInt64) <<< 2

/-- `PTE_X`. -/
def pteX : UInt64 := (1 : UInt64) <<< 3

/-- `PTE_U`: user can access. -/
def pteU : UInt64 := (1 : UInt64) <<< 4

/-- `PA2PTE(pa)`. -/
def pa2pte (pa : UInt64) : UInt64 := (pa >>> 12) <<< 10

/-- `PTE2PA(pte)`. -/
def pte2pa (pte : UInt64) : UInt64 := (pte >>> 10) <<< 12

/-- `PTE_FLAGS(pte)`. -/
def pteFlags (pte : UInt64) : UInt64 := pte &&& 0x3FF

/-- `PX(level, va)`: the index of `va`'s PTE in a page-table page of that level. -/
def px (level : ℕ) (va : UInt64) : ℕ := ((va >>> (12 + 9 * level).toUInt64) &&& 0x1FF).toNat

/-- `MAXVA`: one bit less than the most Sv39 allows. -/
def maxva : UInt64 := (1 : UInt64) <<< (9 + 9 + 9 + 12 - 1)

/-- `PGROUNDUP(sz)`. -/
def pgroundup (sz : UInt64) : UInt64 := (sz + pgsize - 1) &&& ~~~(pgsize - 1)

/-- `PGROUNDDOWN(a)`. -/
def pgrounddown (a : UInt64) : UInt64 := a &&& ~~~(pgsize - 1)

theorem pgrounddown_toNat (a : UInt64) : (pgrounddown a).toNat = a.toNat / 4096 * 4096 :=
  UInt64.toNat_and_not a 12 (by norm_num)

/-- The offset of an address in its page. -/
theorem sub_pgrounddown_toNat (a : UInt64) : (a - pgrounddown a).toNat = a.toNat % 4096 := by
  have hle : (pgrounddown a).toNat ≤ a.toNat := by
    rw [pgrounddown_toNat]
    exact Nat.div_mul_le_self _ _
  rw [UInt64.toNat_sub_of_le _ _ (UInt64.le_iff_toNat_le.mpr hle), pgrounddown_toNat]
  omega

/-- `TRAMPOLINE`. -/
def trampoline : UInt64 := maxva - pgsize

/-- `TRAPFRAME`. -/
def trapframe : UInt64 := trampoline - pgsize

/-! ### `walk` and `walkaddr` -/

/-- The loop of `walk` at `level` and below, in the page-table page at `pt`: the address of
the level-0 PTE for `va`, or `0` when a page-table page is missing and `alloc` is clear or
`kalloc` fails. -/
def walkFrom (alloc : Bool) (va : UInt64) : ℕ → PhysMem → ℕ → PhysMem × ℕ
  | 0, pm, pt => (pm, pt + 8 * px 0 va)
  | level + 1, pm, pt =>
    let pte := pt + 8 * px (level + 1) va
    if pm.load pte &&& pteV ≠ 0 then walkFrom alloc va level pm (pte2pa (pm.load pte)).toNat
    else if !alloc then (pm, 0)
    else
      match pm.kalloc with
      | (pm, 0) => (pm, 0)
      | (pm, p) =>
        let pm := pm.fill p 0 pgsize.toNat
        walkFrom alloc va level (pm.store pte (pa2pte p.toUInt64 ||| pteV)) p

/-- `walk(pagetable, va, alloc)`: the address of the PTE for `va`, `0` for none. -/
def walk (pm : PhysMem) (pt : ℕ) (va : UInt64) (alloc : Bool) : Except String (PhysMem × ℕ) :=
  if va ≥ maxva then .error "walk" else .ok (walkFrom alloc va 2 pm pt)

/-- `walkaddr(pagetable, va)`: the physical page a user PTE maps `va` to, `0` if none. -/
def walkaddr (pm : PhysMem) (pt : ℕ) (va : UInt64) : UInt64 :=
  if va ≥ maxva then 0
  else
    match walk pm pt va false with
    | .error _ => 0
    | .ok (_, pte) =>
      if pte = 0 then 0
      else if pm.load pte &&& pteV = 0 then 0
      else if pm.load pte &&& pteU = 0 then 0
      else pte2pa (pm.load pte)

/-! ### Mapping and unmapping -/

/-- The loop of `mappages` from page `a`, mapped to `pa`, up to page `last`. -/
def mappagesLoop (pt : ℕ) (perm last : UInt64) :
    ℕ → PhysMem → UInt64 → UInt64 → Except String (PhysMem × ℤ)
  | 0, pm, _, _ => .ok (pm, 0)
  | fuel + 1, pm, a, pa =>
    match walk pm pt a true with
    | .error e => .error e
    | .ok (pm, pte) =>
      if pte = 0 then .ok (pm, -1)
      else if pm.load pte &&& pteV ≠ 0 then .error "mappages: remap"
      else
        let pm := pm.store pte (pa2pte pa ||| perm ||| pteV)
        if a = last then .ok (pm, 0)
        else mappagesLoop pt perm last fuel pm (a + pgsize) (pa + pgsize)

/-- `mappages(pagetable, va, size, pa, perm)`: map the pages of `[va, va + size)` to the
physical pages from `pa` on; `-1` when `walk` cannot allocate a page-table page. -/
def mappages (pm : PhysMem) (pt : ℕ) (va size pa perm : UInt64) :
    Except String (PhysMem × ℤ) :=
  if size = 0 then .error "mappages: size"
  else
    let a := pgrounddown va
    let last := pgrounddown (va + size - 1)
    mappagesLoop pt perm last ((last - a).toNat / pgsize.toNat + 1) pm a pa

/-- The loop of `uvmunmap` from page `a` up to `stop = va + npages*PGSIZE`. -/
def uvmunmapLoop (kend : UInt64) (pt : ℕ) (doFree : Bool) (stop : UInt64) :
    ℕ → PhysMem → UInt64 → Except String PhysMem
  | 0, pm, _ => .ok pm
  | fuel + 1, pm, a =>
    if a < stop then
      match walk pm pt a false with
      | .error e => .error e
      | .ok (pm, pte) =>
        if pte = 0 then .error "uvmunmap: walk"
        else if pm.load pte &&& pteV = 0 then .error "uvmunmap: not mapped"
        else if pteFlags (pm.load pte) = pteV then .error "uvmunmap: not a leaf"
        else
          let freed := if doFree then pm.kfree kend (pte2pa (pm.load pte)).toNat else .ok pm
          match freed with
          | .error e => .error e
          | .ok pm => uvmunmapLoop kend pt doFree stop fuel (pm.store pte 0) (a + pgsize)
    else .ok pm

/-- `uvmunmap(pagetable, va, npages, do_free)`: remove `npages` mappings from `va` on, and
`kfree` the pages when `do_free` is set. -/
def uvmunmap (kend : UInt64) (pm : PhysMem) (pt : ℕ) (va npages : UInt64) (doFree : Bool) :
    Except String PhysMem :=
  if va % pgsize ≠ 0 then .error "uvmunmap: not aligned"
  else uvmunmapLoop kend pt doFree (va + npages * pgsize) npages.toNat pm va

/-- `uvmcreate()`: an empty page table, `0` if out of memory. -/
def uvmcreate (pm : PhysMem) : PhysMem × ℕ :=
  match pm.kalloc with
  | (pm, 0) => (pm, 0)
  | (pm, pt) => (pm.fill pt 0 pgsize.toNat, pt)

/-- `uvmdealloc(pagetable, oldsz, newsz)`: unmap and free the pages from `PGROUNDUP(newsz)`
to `PGROUNDUP(oldsz)`, and return the new size. The page count is an `int`. -/
def uvmdealloc (kend : UInt64) (pm : PhysMem) (pt : ℕ) (oldsz newsz : UInt64) :
    Except String (PhysMem × UInt64) :=
  if newsz ≥ oldsz then .ok (pm, oldsz)
  else if pgroundup newsz < pgroundup oldsz then
    let npages : Int32 := ((pgroundup oldsz - pgroundup newsz) / pgsize).toUInt32.toInt32
    (uvmunmap kend pm pt (pgroundup newsz) npages.toInt64.toUInt64 true).map (·, newsz)
  else .ok (pm, newsz)

/-- The loop of `uvmalloc` from page `a` while `a < newsz`; `oldsz` is already rounded up. -/
def uvmallocLoop (kend : UInt64) (pt : ℕ) (oldsz newsz xperm : UInt64) :
    ℕ → PhysMem → UInt64 → Except String (PhysMem × UInt64)
  | 0, pm, _ => .ok (pm, newsz)
  | fuel + 1, pm, a =>
    if a < newsz then
      match pm.kalloc with
      | (pm, 0) => (uvmdealloc kend pm pt a oldsz).map fun r => (r.1, 0)
      | (pm, mem) =>
        let pm := pm.fill mem 0 pgsize.toNat
        match mappages pm pt a pgsize mem.toUInt64 (pteR ||| pteU ||| xperm) with
        | .error e => .error e
        | .ok (pm, r) =>
          if r ≠ 0 then
            match pm.kfree kend mem with
            | .error e => .error e
            | .ok pm => (uvmdealloc kend pm pt a oldsz).map fun r => (r.1, 0)
          else uvmallocLoop kend pt oldsz newsz xperm fuel pm (a + pgsize)
    else .ok (pm, newsz)

/-- `uvmalloc(pagetable, oldsz, newsz, xperm)`: map zeroed pages from `PGROUNDUP(oldsz)` up to
`newsz`; the new size, or `0` with the pages of this call given back. -/
def uvmalloc (kend : UInt64) (pm : PhysMem) (pt : ℕ) (oldsz newsz xperm : UInt64) :
    Except String (PhysMem × UInt64) :=
  if newsz < oldsz then .ok (pm, oldsz)
  else
    let oldsz := pgroundup oldsz
    uvmallocLoop kend pt oldsz newsz xperm (newsz.toNat / pgsize.toNat + 1) pm oldsz

/-- The loop of `freewalk` over the entries `i, i + 1, …` of the page-table page at `pt`, with
`child` the call of `freewalk` on a lower-level page table: a PTE with `PTE_V` and none of
`PTE_R`, `PTE_W`, `PTE_X` points at one, which is freed and the PTE cleared; any other valid
PTE is a leaf. -/
def freewalkLoop (child : PhysMem → ℕ → Except String PhysMem) (pt : ℕ) :
    ℕ → PhysMem → ℕ → Except String PhysMem
  | 0, pm, _ => .ok pm
  | n + 1, pm, i =>
    let pte := pm.load (pt + 8 * i)
    if pte &&& pteV ≠ 0 ∧ pte &&& (pteR ||| pteW ||| pteX) = 0 then
      match child pm (pte2pa pte).toNat with
      | .error e => .error e
      | .ok pm => freewalkLoop child pt n (pm.store (pt + 8 * i) 0) (i + 1)
    else if pte &&& pteV ≠ 0 then .error "freewalk: leaf"
    else freewalkLoop child pt n pm (i + 1)

/-- `freewalk(pagetable)`: free the page-table pages below `pagetable`, then `pagetable`
itself. The code recurses into every PTE that looks like a pointer to a page table; the model
follows at most `depth` levels, three for Sv39, and fails past them, where the code would take
a level-0 PTE with `PTE_V` alone for a fourth level. -/
def freewalk (kend : UInt64) : ℕ → PhysMem → ℕ → Except String PhysMem
  | 0, _, _ => .error "freewalk: depth"
  | depth + 1, pm, pt =>
    match freewalkLoop (freewalk kend depth) pt 512 pm 0 with
    | .error e => .error e
    | .ok pm => pm.kfree kend pt

/-- `uvmfree(pagetable, sz)`: unmap and free the user pages below `PGROUNDUP(sz)`, then the
page-table pages. -/
def uvmfree (kend : UInt64) (pm : PhysMem) (pt : ℕ) (sz : UInt64) : Except String PhysMem :=
  let unmapped := if sz > 0 then uvmunmap kend pm pt 0 (pgroundup sz / pgsize) true else .ok pm
  match unmapped with
  | .error e => .error e
  | .ok pm => freewalk kend 3 pm pt

/-- The loop of `uvmcopy` from offset `i` while `i < sz`; a failure goes to `err`, which
unmaps and frees the `i / PGSIZE` pages mapped so far. -/
def uvmcopyLoop (kend : UInt64) (old new : ℕ) (sz : UInt64) :
    ℕ → PhysMem → UInt64 → Except String (PhysMem × ℤ)
  | 0, pm, _ => .ok (pm, 0)
  | fuel + 1, pm, i =>
    let err (pm : PhysMem) := (uvmunmap kend pm new 0 (i / pgsize) true).map (·, -1)
    if i < sz then
      match walk pm old i false with
      | .error e => .error e
      | .ok (pm, pte) =>
        if pte = 0 then .error "uvmcopy: pte should exist"
        else if pm.load pte &&& pteV = 0 then .error "uvmcopy: page not present"
        else
          let pa := pte2pa (pm.load pte)
          let flags := pteFlags (pm.load pte)
          match pm.kalloc with
          | (pm, 0) => err pm
          | (pm, mem) =>
            let pm := pm.move mem pa.toNat pgsize.toNat
            match mappages pm new i pgsize mem.toUInt64 flags with
            | .error e => .error e
            | .ok (pm, r) =>
              if r ≠ 0 then
                match pm.kfree kend mem with
                | .error e => .error e
                | .ok pm => err pm
              else uvmcopyLoop kend old new sz fuel pm (i + pgsize)
    else .ok (pm, 0)

/-- `uvmcopy(old, new, sz)`: copy the memory of one address space into another, page by page;
`0`, or `-1` with the pages of this call given back. -/
def uvmcopy (kend : UInt64) (pm : PhysMem) (old new : ℕ) (sz : UInt64) :
    Except String (PhysMem × ℤ) :=
  uvmcopyLoop kend old new sz (sz.toNat / pgsize.toNat + 1) pm 0

/-- `uvmclear(pagetable, va)`: clear `PTE_U`, for the guard page below the user stack. -/
def uvmclear (pm : PhysMem) (pt : ℕ) (va : UInt64) : Except String PhysMem :=
  match walk pm pt va false with
  | .error e => .error e
  | .ok (pm, pte) => if pte = 0 then .error "uvmclear" else .ok (pm.store pte (pm.load pte &&& ~~~pteU))

/-! ### Copies between the kernel and a user address space -/

/-- The loop of `copyout(pagetable, dstva, src, len)`, from the kernel buffer at `src`:
`0`, or `-1` at the first page `walkaddr` does not find. -/
def copyoutLoop (pt : ℕ) : ℕ → PhysMem → UInt64 → ℕ → UInt64 → PhysMem × ℤ
  | 0, pm, _, _, _ => (pm, 0)
  | fuel + 1, pm, dstva, src, len =>
    if len > 0 then
      let va0 := pgrounddown dstva
      let pa0 := walkaddr pm pt va0
      if pa0 = 0 then (pm, -1)
      else
        let n := pgsize - (dstva - va0)
        let n := if n > len then len else n
        let pm := pm.move (pa0 + (dstva - va0)).toNat src n.toNat
        copyoutLoop pt fuel pm (va0 + pgsize) (src + n.toNat) (len - n)
    else (pm, 0)

/-- `copyout(pagetable, dstva, src, len)`. -/
def copyout (pm : PhysMem) (pt : ℕ) (dstva : UInt64) (src : ℕ) (len : UInt64) : PhysMem × ℤ :=
  copyoutLoop pt len.toNat pm dstva src len

/-- The loop of `copyin(pagetable, dst, srcva, len)`, into the kernel buffer at `dst`. -/
def copyinLoop (pt : ℕ) : ℕ → PhysMem → ℕ → UInt64 → UInt64 → PhysMem × ℤ
  | 0, pm, _, _, _ => (pm, 0)
  | fuel + 1, pm, dst, srcva, len =>
    if len > 0 then
      let va0 := pgrounddown srcva
      let pa0 := walkaddr pm pt va0
      if pa0 = 0 then (pm, -1)
      else
        let n := pgsize - (srcva - va0)
        let n := if n > len then len else n
        let pm := pm.move dst (pa0 + (srcva - va0)).toNat n.toNat
        copyinLoop pt fuel pm (dst + n.toNat) (va0 + pgsize) (len - n)
    else (pm, 0)

/-- `copyin(pagetable, dst, srcva, len)`. -/
def copyin (pm : PhysMem) (pt : ℕ) (dst : ℕ) (srcva len : UInt64) : PhysMem × ℤ :=
  copyinLoop pt len.toNat pm dst srcva len

/-- The inner loop of `copyinstr` over the `n` bytes of one page from `p`: the memory, whether
a NUL was found, and `dst` and `max` after it. -/
def copyinstrPage : ℕ → PhysMem → ℕ → ℕ → UInt64 → PhysMem × Bool × ℕ × UInt64
  | 0, pm, _, dst, max => (pm, false, dst, max)
  | n + 1, pm, p, dst, max =>
    if pm.bytes p = 0 then (pm.write dst 0, true, dst, max)
    else copyinstrPage n (pm.write dst (pm.bytes p)) (p + 1) (dst + 1) (max - 1)

/-- The outer loop of `copyinstr(pagetable, dst, srcva, max)`, a page at a time. -/
def copyinstrLoop (pt : ℕ) : ℕ → PhysMem → ℕ → UInt64 → UInt64 → PhysMem × ℤ
  | 0, pm, _, _, _ => (pm, -1)
  | fuel + 1, pm, dst, srcva, max =>
    if max > 0 then
      let va0 := pgrounddown srcva
      let pa0 := walkaddr pm pt va0
      if pa0 = 0 then (pm, -1)
      else
        let n := pgsize - (srcva - va0)
        let n := if n > max then max else n
        match copyinstrPage n.toNat pm (pa0 + (srcva - va0)).toNat dst max with
        | (pm, true, _, _) => (pm, 0)
        | (pm, false, dst, max) => copyinstrLoop pt fuel pm dst (va0 + pgsize) max
    else (pm, -1)

/-- `copyinstr(pagetable, dst, srcva, max)`: `0` once a NUL is copied, `-1` if `max` bytes
go by without one or a page is not mapped. -/
def copyinstr (pm : PhysMem) (pt : ℕ) (dst : ℕ) (srcva max : UInt64) : PhysMem × ℤ :=
  copyinstrLoop pt max.toNat pm dst srcva max

end Xv6Lab.Vm
