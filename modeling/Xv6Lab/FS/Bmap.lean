import Xv6Lab.FS.Block

/-!
# Block maps of inodes (`bmap`, `itrunc`, `iupdate` of `kernel/fs.c`)

The first `NDIRECT` blocks of an inode are listed in `ip->addrs`; the next `NINDIRECT` in
the indirect block `ip->addrs[NDIRECT]`, as little-endian words. `bmap` allocates a missing
block, and the indirect block before it, with `balloc`; `itrunc` frees them all with
`bfree`. `blockAddr` reads the map without allocating.
-/

namespace Xv6Lab.FS

open ByteMap

/-- The direct slot `addrs[bn]`. -/
def directSlot (bn : ℕ) (h : bn < ndirect) : Fin (ndirect + 1) := ⟨bn, Nat.lt_succ_of_lt h⟩

/-- `ip` with `addrs[i] = a`. -/
def Inode.setAddr (ip : Inode) (i : Fin (ndirect + 1)) (a : UInt32) : Inode :=
  { ip with addrs := Function.update ip.addrs i a }

/-- The address of block `bn` of the inode, as the block map holds it (`0` for none). -/
def blockAddr (s : Fs) (ip : Inode) (bn : ℕ) : ℕ :=
  if h : bn < ndirect then (ip.addrs (directSlot bn h)).toNat
  else if bn - ndirect < nindirect ∧ ip.addrs indirectSlot ≠ 0 then
    (getWord (s.blocks (ip.addrs indirectSlot).toNat) (4 * (bn - ndirect))).toNat
  else 0

/-- The indirect part of `bmap`, for block `bn` of the indirect block. -/
def bmapIndirect (sb : Superblock) (ip : Inode) (bn : ℕ) (s : Fs) : ℕ × Inode × Fs :=
  -- load the indirect block, allocating if necessary
  let loaded : Option (Inode × Fs) :=
    if ip.addrs indirectSlot = 0 then
      match balloc sb s with
      | (0, _) => none
      | (a, s) => some (ip.setAddr indirectSlot a.toUInt32, s)
    else some (ip, s)
  match loaded with
  | none => (0, ip, s)
  | some (ip, s) =>
    let ind := (ip.addrs indirectSlot).toNat
    let addr := getWord (s.blocks ind) (4 * bn)
    if addr = 0 then
      match balloc sb s with
      | (0, s) => (0, ip, s)
      | (a, s) => (a, ip, s.put ind (setWord (s.blocks ind) (4 * bn) a.toUInt32))
    else (addr.toNat, ip, s)

/-- `bmap(ip, bn)`: the disk address of block `bn` of the inode, allocated if there is none;
`0` when the disk is full. -/
def bmap (sb : Superblock) (ip : Inode) (bn : ℕ) (s : Fs) : Except String (ℕ × Inode × Fs) :=
  if h : bn < ndirect then
    let addr := ip.addrs (directSlot bn h)
    if addr = 0 then
      match balloc sb s with
      | (0, s) => .ok (0, ip, s)
      | (a, s) => .ok (a, ip.setAddr (directSlot bn h) a.toUInt32, s)
    else .ok (addr.toNat, ip, s)
  else if bn - ndirect < nindirect then .ok (bmapIndirect sb ip (bn - ndirect) s)
  else .error "bmap: out of range"

/-- `iupdate(ip)`: the inode's block passed to `log_write`. The inode record stands for its
`dinode` copy. -/
def iupdate (sb : Superblock) (ip : Inode) (s : Fs) : Fs := s.logWrite (iblock ip.inum sb)

/-- The direct slots `addrs[0] … addrs[NDIRECT-1]`, in order. -/
def directSlots : List (Fin (ndirect + 1)) := List.ofFn fun i : Fin ndirect => i.castSucc

/-- The first loop of `itrunc`: each direct block freed, its slot cleared. -/
def itruncDirect (sb : Superblock) : List (Fin (ndirect + 1)) → Inode → Fs →
    Except String (Inode × Fs)
  | [], ip, s => .ok (ip, s)
  | i :: is, ip, s =>
    if ip.addrs i ≠ 0 then
      match bfree sb (ip.addrs i).toNat s with
      | .error e => .error e
      | .ok s => itruncDirect sb is (ip.setAddr i 0) s
    else itruncDirect sb is ip s

/-- The second loop of `itrunc`: each block the indirect block `ind` lists freed. -/
def itruncIndirect (sb : Superblock) (ind : ℕ) : List ℕ → Fs → Except String Fs
  | [], s => .ok s
  | j :: js, s =>
    let a := getWord (s.blocks ind) (4 * j)
    if a ≠ 0 then
      match bfree sb a.toNat s with
      | .error e => .error e
      | .ok s => itruncIndirect sb ind js s
    else itruncIndirect sb ind js s

/-- `itrunc(ip)`: every block of the inode freed, the size zero, the inode written back. -/
def itrunc (sb : Superblock) (ip : Inode) (s : Fs) : Except String (Inode × Fs) :=
  match itruncDirect sb directSlots ip s with
  | .error e => .error e
  | .ok (ip, s) =>
    let freed : Except String (Inode × Fs) :=
      if ip.addrs indirectSlot ≠ 0 then
        let ind := (ip.addrs indirectSlot).toNat
        match itruncIndirect sb ind (List.range nindirect) s with
        | .error e => .error e
        | .ok s =>
          match bfree sb ind s with
          | .error e => .error e
          | .ok s => .ok (ip.setAddr indirectSlot 0, s)
      else .ok (ip, s)
    match freed with
    | .error e => .error e
    | .ok (ip, s) =>
      let ip := { ip with size := 0 }
      .ok (ip, iupdate sb ip s)

end Xv6Lab.FS
