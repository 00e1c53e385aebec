import Xv6Lab.FS.Bmap

/-!
# Reading and writing inodes (`readi`, `writei` of `kernel/fs.c`)

Both loops split `[off, off + n)` at block boundaries, `m = min(n - tot, BSIZE - off % BSIZE)`
bytes at a time, map each block with `bmap`, and stop at a block `bmap` cannot give. The
bytes move with `either_copyout` and `either_copyin`: a plain `memmove` for a kernel address,
and for a user address `copyout` or `copyin`, which go page by page and fail at the first
page `walkaddr` does not find, after copying the pages before it.

The loops run on fuel, the number of bytes to move: each pass moves at least one.
-/

namespace Xv6Lab.FS

open ByteMap

/-! ### Copies between the kernel and a process -/

/-- The other side of a copy: a user address space (`user_src`/`user_dst` = 1), with the
pages `walkaddr` finds, or kernel memory. -/
structure Mem where
  user : Bool
  bytes : ℕ → UInt8
  mapped : ℕ → Bool

/-- The page-by-page loop of `copyin(pagetable, dst, srcva, len)`, copying into a buffer at
offset `d`; the flag is `false` for a return of `-1`. -/
def copyinLoop (mem : Mem) : ℕ → (ℕ → UInt8) → ℕ → ℕ → ℕ → (ℕ → UInt8) × Bool
  | 0, dst, _, _, _ => (dst, true)
  | fuel + 1, dst, d, srcva, len =>
    if len = 0 then (dst, true)
    else
      let va0 := srcva / pgsize * pgsize
      if mem.mapped (va0 / pgsize) then
        let n := min (pgsize - (srcva - va0)) len
        copyinLoop mem fuel (copy dst d mem.bytes srcva n) (d + n) (va0 + pgsize) (len - n)
      else (dst, false)

/-- The page-by-page loop of `copyout(pagetable, dstva, src, len)`, from a buffer at offset
`o`. -/
def copyoutLoop (src : ℕ → UInt8) : ℕ → Mem → ℕ → ℕ → ℕ → Mem × Bool
  | 0, mem, _, _, _ => (mem, true)
  | fuel + 1, mem, dstva, o, len =>
    if len = 0 then (mem, true)
    else
      let va0 := dstva / pgsize * pgsize
      if mem.mapped (va0 / pgsize) then
        let n := min (pgsize - (dstva - va0)) len
        copyoutLoop src fuel { mem with bytes := copy mem.bytes dstva src o n } (va0 + pgsize)
          (o + n) (len - n)
      else (mem, false)

/-- `either_copyin(dst + d, user_src, src, len)`. -/
def eitherCopyin (mem : Mem) (dst : ℕ → UInt8) (d src len : ℕ) : (ℕ → UInt8) × Bool :=
  if mem.user then copyinLoop mem len dst d src len
  else (copy dst d mem.bytes src len, true)

/-- `either_copyout(user_dst, dst, src + o, len)`. -/
def eitherCopyout (mem : Mem) (dst : ℕ) (src : ℕ → UInt8) (o len : ℕ) : Mem × Bool :=
  if mem.user then copyoutLoop src len mem dst o len
  else ({ mem with bytes := copy mem.bytes dst src o len }, true)

/-! ### `readi` -/

/-- The loop of `readi` over `[tot, n)`, with the file offset `off` and the destination
`dst` where `tot` bytes have gone. -/
def readLoop (sb : Superblock) (n : ℕ) :
    ℕ → ℕ → ℕ → ℕ → Inode → Fs → Mem → Except String (ℤ × Inode × Fs × Mem)
  | 0, tot, _, _, ip, s, mem => .ok (tot, ip, s, mem)
  | fuel + 1, tot, off, dst, ip, s, mem =>
    if tot < n then
      match bmap sb ip (off / bsize) s with
      | .error e => .error e
      | .ok (addr, ip, s) =>
        if addr = 0 then .ok (tot, ip, s, mem)
        else
          let m := min (n - tot) (bsize - off % bsize)
          match eitherCopyout mem dst (s.blocks addr) (off % bsize) m with
          | (mem, false) => .ok (-1, ip, s, mem)
          | (mem, true) => readLoop sb n fuel (tot + m) (off + m) (dst + m) ip s mem
    else .ok (tot, ip, s, mem)

/-- `readi(ip, user_dst, dst, off, n)`: the count read (`-1` for a failed copy), with the inode,
the disk and the destination after it. -/
def readi (sb : Superblock) (ip : Inode) (mem : Mem) (dst : ℕ) (off n : UInt32) (s : Fs) :
    Except String (ℤ × Inode × Fs × Mem) :=
  if off > ip.size ∨ off + n < off then .ok (0, ip, s, mem)
  else
    let n := if off + n > ip.size then ip.size - off else n
    readLoop sb n.toNat n.toNat 0 off.toNat dst ip s mem

/-! ### `writei` -/

/-- The loop of `writei` over `[tot, n)`: the count written, the file offset after it, the
inode and the disk. A copy that fails leaves the block's buffer as far as it got, without
`log_write`. -/
def writeLoop (sb : Superblock) (mem : Mem) (n : ℕ) :
    ℕ → ℕ → ℕ → ℕ → Inode → Fs → Except String (ℕ × ℕ × Inode × Fs)
  | 0, tot, off, _, ip, s => .ok (tot, off, ip, s)
  | fuel + 1, tot, off, src, ip, s =>
    if tot < n then
      match bmap sb ip (off / bsize) s with
      | .error e => .error e
      | .ok (addr, ip, s) =>
        if addr = 0 then .ok (tot, off, ip, s)
        else
          let m := min (n - tot) (bsize - off % bsize)
          match eitherCopyin mem (s.blocks addr) (off % bsize) src m with
          | (buf, false) => .ok (tot, off, ip, { s with blocks := Function.update s.blocks addr buf })
          | (buf, true) => writeLoop sb mem n fuel (tot + m) (off + m) (src + m) ip (s.put addr buf)
    else .ok (tot, off, ip, s)

/-- `writei(ip, user_src, src, off, n)`: the count written, or `-1`, with the inode and the
disk after it. -/
def writei (sb : Superblock) (ip : Inode) (mem : Mem) (src : ℕ) (off n : UInt32) (s : Fs) :
    Except String (ℤ × Inode × Fs) :=
  if off > ip.size ∨ off + n < off then .ok (-1, ip, s)
  else if (off + n).toNat > maxfile * bsize then .ok (-1, ip, s)
  else
    match writeLoop sb mem n.toNat n.toNat 0 off.toNat src ip s with
    | .error e => .error e
    | .ok (tot, off, ip, s) =>
      -- the size grows to the end of what was written; the inode is written back either way
      let ip := if off > ip.size.toNat then { ip with size := off.toUInt32 } else ip
      .ok (tot, ip, iupdate sb ip s)

/-! ### The content of an inode -/

/-- The inode's bytes `[0, size)`, each read from its block through the block map. -/
def content (s : Fs) (ip : Inode) : List UInt8 :=
  (List.range ip.size.toNat).map fun x => s.blocks (blockAddr s ip (x / bsize)) (x % bsize)

end Xv6Lab.FS
