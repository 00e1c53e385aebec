import Xv6Lab.FS.Bmap
import Xv6Lab.Log.Code

/-!
# `mkfs`: the initial file-system image (`mkfs/mkfs.c`)

`mkfs` lays out boot block, superblock, log, inode blocks, bitmap and data blocks, makes the
root directory with `.` and `..`, and for each input file an inode whose directory entry goes
into the root. Its own `iappend` lays out the blocks of an inode, taking block numbers from
`freeblock` in turn; at the end it rounds the root directory's size up with
`((off / BSIZE) + 1) * BSIZE` and marks blocks `[0, freeblock)` in the bitmap.

The image is a file of sectors, written with `wsect` and read back with `rsect`: `mkfs`
first writes `FSSIZE` zero sectors, a write past the end of the file extends it, and a read
past its end returns no bytes, on which `rsect` dies. Inodes are `struct dinode`s in the
sectors `IBLOCK(inum)`, which `rinode` and `winode` read and write whole; `mkfs` never checks
`inum` against `NINODES`. File names and contents are byte strings; `read(fd, buf,
sizeof(buf))` returns the content `BSIZE` bytes at a time. The superblock's own bytes in
block 1 are not modelled: the kernel model takes the superblock as a value.
-/

namespace Xv6Lab.FS

open ByteMap

/-! ### The layout `mkfs` computes -/

/-- `NINODES`. -/
def ninodes : ℕ := 200

/-- `nbitmap = FSSIZE/(BSIZE*8) + 1`. -/
def nbitmap : ℕ := fssize / (bsize * 8) + 1

/-- `ninodeblocks = NINODES / IPB + 1`. -/
def ninodeblocks : ℕ := ninodes / ipb + 1

/-- `nlog = LOGSIZE`. -/
def nlog : ℕ := Log.logSize

/-- `nmeta = 2 + nlog + ninodeblocks + nbitmap`: boot, super, log, inode and bitmap blocks. -/
def nmeta : ℕ := 2 + nlog + ninodeblocks + nbitmap

/-- The superblock `mkfs` writes. -/
def mkfsSuperblock : Superblock where
  size := fssize
  nblocks := fssize - nmeta
  ninodes := ninodes
  nlog := nlog
  logstart := 2
  inodestart := 2 + nlog
  bmapstart := 2 + nlog + ninodeblocks

/-! ### The on-disk inode -/

/-- `struct dinode`, as `mkfs` reads and writes it whole. -/
structure DInode where
  type : UInt16
  major : UInt16
  minor : UInt16
  nlink : UInt16
  size : UInt32
  addrs : Fin (ndirect + 1) → UInt32

/-- Byte `i` of a `struct dinode`: the fields in order, each least significant byte first. -/
def DInode.byte (d : DInode) (i : ℕ) : UInt8 :=
  if i < 2 then halfByte d.type i
  else if i < 4 then halfByte d.major (i - 2)
  else if i < 6 then halfByte d.minor (i - 4)
  else if i < 8 then halfByte d.nlink (i - 6)
  else if i < 12 then byteOf d.size (i - 8)
  else if h : (i - 12) / 4 < ndirect + 1 then byteOf (d.addrs ⟨(i - 12) / 4, h⟩) ((i - 12) % 4)
  else 0

/-- The `struct dinode` at byte `o` of a block. -/
def getDinode (buf : ℕ → UInt8) (o : ℕ) : DInode :=
  ⟨getHalf buf o, getHalf buf (o + 2), getHalf buf (o + 4), getHalf buf (o + 6),
    getWord buf (o + 8), fun j => getWord buf (o + 12 + 4 * j)⟩

/-- `*dip = *ip` for the `struct dinode` at byte `o` of a block. -/
def setDinode (buf : ℕ → UInt8) (o : ℕ) (d : DInode) : ℕ → UInt8 := fun x =>
  if o ≤ x ∧ x < o + 64 then d.byte (x - o) else buf x

/-- The type the kernel gives an on-disk `type`: it tests for `0`, `T_DIR` and `T_DEVICE`, and
treats every other value as a file. -/
def typeOf (t : UInt16) : IType :=
  if t = 0 then .free else if t = 1 then .dir else if t = 3 then .device else .file

/-- `T_DIR`, `T_FILE`, `T_DEVICE`. -/
def IType.code : IType → UInt16
  | .free => 0
  | .dir => 1
  | .file => 2
  | .device => 3

/-- The inode the kernel reads for inode `i` from its `struct dinode`. -/
def DInode.toInode (i : ℕ) (d : DInode) : Inode := ⟨i, typeOf d.type, d.size, d.addrs⟩

/-! ### The image -/

/-- The inode blocks, `[sb.inodestart, sb.bmapstart)`. -/
def InodeSector (s : ℕ) : Prop := mkfsSuperblock.inodestart ≤ s ∧ s < mkfsSuperblock.bmapstart

instance : DecidablePred InodeSector := fun _ => inferInstanceAs (Decidable (_ ∧ _))

/-- Inode `k` of inode block `s`. -/
def slotOf (s k : ℕ) : ℕ := (s - mkfsSuperblock.inodestart) * ipb + k

/-- The image file as `mkfs` writes it: the `struct dinode`s the inode blocks hold, the
bytes of every other sector, how many sectors the file holds, and the next free inode and
block. Keeping the inode blocks as their `struct dinode`s lets a run be evaluated; their
bytes are `slotBytes`, and `rsect`, `wsect`, `rinode` and `winode` read and write them so
(`rinode_eq_rsect`, `winode_eq_wsect`). -/
structure Image where
  table : ℕ → DInode
  data : ℕ → ℕ → UInt8
  nsect : ℕ
  freeinode : ℕ
  freeblock : ℕ

/-- The bytes of inode block `s`: its `IPB` `struct dinode`s in turn. -/
def slotBytes (table : ℕ → DInode) (s : ℕ) : ℕ → UInt8 := fun x =>
  if x < bsize then (table (slotOf s (x / 64))).byte (x % 64) else 0

/-- The bytes of sector `s`. -/
def Image.sector (img : Image) (s : ℕ) : ℕ → UInt8 :=
  if InodeSector s then slotBytes img.table s else img.data s

/-- The sector `lseek(fsfd, sec * BSIZE, 0)` reaches: the offset is computed in `uint`. -/
def sectorOf (sec : ℕ) : ℕ := sec * bsize % 2 ^ 32 / bsize

/-- `wsect(sec, buf)`: the sector's bytes are `buf`, and the file grows to hold it. -/
def Image.wsect (img : Image) (sec : ℕ) (buf : ℕ → UInt8) : Image :=
  let s := sectorOf sec
  if InodeSector s then
    { img with
      table := fun i => if iblock i mkfsSuperblock = s then getDinode buf (64 * (i % ipb))
        else img.table i
      nsect := max img.nsect (s + 1) }
  else { img with data := Function.update img.data s buf, nsect := max img.nsect (s + 1) }

/-- `rsect(sec, buf)`: past the end of the file `read` returns no bytes, and `mkfs` dies. -/
def Image.rsect (img : Image) (sec : ℕ) : Except String (ℕ → UInt8) :=
  if sectorOf sec < img.nsect then .ok (img.sector (sectorOf sec)) else .error "read"

/-- `rinode(inum, &din)`: `rsect` of the inode's block, and the `struct dinode` in it. -/
def rinode (inum : ℕ) (img : Image) : Except String DInode :=
  let s := sectorOf (iblock inum mkfsSuperblock)
  if s < img.nsect then
    .ok (if InodeSector s then img.table (slotOf s (inum % ipb))
      else getDinode (img.data s) (64 * (inum % ipb)))
  else .error "read"

/-- `winode(inum, &din)`: `rsect` of the inode's block, the `struct dinode` in it replaced,
and `wsect` of the block. -/
def winode (inum : ℕ) (din : DInode) (img : Image) : Except String Image :=
  let s := sectorOf (iblock inum mkfsSuperblock)
  if s < img.nsect then
    .ok (if InodeSector s then { img with table := Function.update img.table (slotOf s (inum % ipb)) din }
      else { img with data := Function.update img.data s (setDinode (img.data s) (64 * (inum % ipb)) din) })
  else .error "read"

/-- `ialloc(type)`: the next inode, zeroed, of type `t` and with one link. -/
def ialloc (t : IType) (img : Image) : Except String (ℕ × Image) :=
  let inum := img.freeinode
  (winode inum ⟨t.code, 0, 0, 1, 0, fun _ => 0⟩ { img with freeinode := inum + 1 }).map
    fun img => (inum, img)

/-- The block of `din` that holds file block `fbn`, allocated from `freeblock` if it has
none, as `iappend` finds it. -/
def iappendBlock (din : DInode) (img : Image) (fbn : ℕ) : Except String (DInode × Image × ℕ) :=
  if h : fbn < ndirect then
    let slot := directSlot fbn h
    let (din, img) :=
      if din.addrs slot = 0 then
        ({ din with addrs := Function.update din.addrs slot img.freeblock.toUInt32 },
          { img with freeblock := img.freeblock + 1 })
      else (din, img)
    .ok (din, img, (din.addrs slot).toNat)
  else
    let (din, img) :=
      if din.addrs indirectSlot = 0 then
        ({ din with addrs := Function.update din.addrs indirectSlot img.freeblock.toUInt32 },
          { img with freeblock := img.freeblock + 1 })
      else (din, img)
    let ind := (din.addrs indirectSlot).toNat
    match img.rsect ind with
    | .error e => .error e
    | .ok indirect =>
      let (indirect, img) :=
        if getWord indirect (4 * (fbn - ndirect)) = 0 then
          let indirect := setWord indirect (4 * (fbn - ndirect)) img.freeblock.toUInt32
          let img := { img with freeblock := img.freeblock + 1 }
          (indirect, img.wsect ind indirect)
        else (indirect, img)
      .ok (din, img, (getWord indirect (4 * (fbn - ndirect))).toNat)

/-- The loop of `iappend`: `n` bytes of `data` from `p` appended at `off`, block by block. -/
def iappendLoop (data : ℕ → UInt8) :
    ℕ → ℕ → ℕ → ℕ → DInode → Image → Except String (ℕ × DInode × Image)
  | 0, _, off, _, din, img => .ok (off, din, img)
  | fuel + 1, n, off, p, din, img =>
    if n = 0 then .ok (off, din, img)
    else
      let fbn := off / bsize
      if fbn < maxfile then
        match iappendBlock din img fbn with
        | .error e => .error e
        | .ok (din, img, x) =>
          let n1 := min n ((fbn + 1) * bsize - off)
          match img.rsect x with
          | .error e => .error e
          | .ok buf =>
            let img := img.wsect x (copy buf (off - fbn * bsize) data p n1)
            iappendLoop data fuel (n - n1) (off + n1) (p + n1) din img
      else .error "assertion failed: fbn < MAXFILE"

/-- `iappend(inum, p, n)`: the bytes appended to inode `inum` and its size updated. -/
def iappend (inum : ℕ) (data : List UInt8) (img : Image) : Except String Image :=
  match rinode inum img with
  | .error e => .error e
  | .ok din =>
    match iappendLoop (fun i => data.getD i 0) data.length data.length din.size.toNat 0 din img with
    | .error e => .error e
    | .ok (off, din, img) => winode inum { din with size := off.toUInt32 } img

/-- A `struct dirent`: the inode number as two bytes, least significant first, and the name
cut or padded to `DIRSIZ` bytes. -/
def dirent (inum : ℕ) (name : List UInt8) : List UInt8 :=
  [UInt8.ofNat inum, UInt8.ofNat (inum / 256)] ++ (name.take dirsiz ++ List.replicate dirsiz 0).take dirsiz

/-- `"user/"`. -/
def userPrefix : List UInt8 := [117, 115, 101, 114, 47]

/-- The name `mkfs` gives an input file: without a leading `"user/"` and then without a
leading `'_'`; `none` where the rest holds a `'/'`, which `mkfs` asserts against. -/
def shortname (arg : List UInt8) : Option (List UInt8) :=
  let s := if arg.take 5 = userPrefix then arg.drop 5 else arg
  if (47 : UInt8) ∈ s then none
  else some (if s.head? = some 95 then s.tail else s)

/-- The contents `read(fd, buf, BSIZE)` returns, chunk by chunk. -/
def readChunks : ℕ → List UInt8 → List (List UInt8)
  | 0, _ => []
  | fuel + 1, data => if data = [] then [] else data.take bsize :: readChunks fuel (data.drop bsize)

/-- Every chunk appended in turn. -/
def iappendAll (inum : ℕ) : List (List UInt8) → Image → Except String Image
  | [], img => .ok img
  | c :: cs, img =>
    match iappend inum c img with
    | .error e => .error e
    | .ok img => iappendAll inum cs img

/-- One input file: its inode, its entry in the root directory, and its contents. -/
def addFile (rootino : ℕ) (img : Image) (file : List UInt8 × List UInt8) : Except String Image :=
  match shortname file.1 with
  | none => .error "assertion failed: index(shortname, '/') == 0"
  | some name =>
    match ialloc .file img with
    | .error e => .error e
    | .ok (inum, img) =>
      match iappend rootino (dirent inum name) img with
      | .error e => .error e
      | .ok img => iappendAll inum (readChunks file.2.length file.2) img

/-- Every input file in turn. -/
def addFiles (rootino : ℕ) : List (List UInt8 × List UInt8) → Image → Except String Image
  | [], img => .ok img
  | f :: fs, img =>
    match addFile rootino img f with
    | .error e => .error e
    | .ok img => addFiles rootino fs img

/-- `balloc(used)` of `mkfs`: the bitmap with blocks `[0, used)` marked. -/
def markUsedBlocks (used : ℕ) : ℕ → UInt8 :=
  (List.range used).foldl markUsed fun _ => 0

/-- The end of `mkfs`: the root directory's size rounded up, then `balloc(freeblock)` writes
the bitmap with blocks `[0, freeblock)` marked. -/
def fixRootAndBalloc (root : ℕ) (img : Image) : Except String Image :=
  match rinode root img with
  | .error e => .error e
  | .ok din =>
    let off := (din.size.toNat / bsize + 1) * bsize
    match winode root { din with size := off.toUInt32 } img with
    | .error e => .error e
    | .ok img =>
      if img.freeblock < bsize * 8 then
        .ok (img.wsect mkfsSuperblock.bmapstart (markUsedBlocks img.freeblock))
      else .error "assertion failed: used < BSIZE*8"

/-- `mkfs fs.img files...`: the image, from the input files' names and contents. The loop
that zeroes the first `FSSIZE` sectors leaves a file of `FSSIZE` zero sectors. -/
def mkfs (files : List (List UInt8 × List UInt8)) : Except String Image :=
  -- `FSSIZE` zero sectors: every `struct dinode` zero
  let img : Image := ⟨fun _ => ⟨0, 0, 0, 0, 0, fun _ => 0⟩, fun _ _ => 0, fssize, 1, nmeta⟩
  match ialloc .dir img with
  | .error e => .error e
  | .ok (root, img) =>
    match iappend root (dirent root [46]) img with
    | .error e => .error e
    | .ok img =>
      match iappend root (dirent root [46, 46]) img with
      | .error e => .error e
      | .ok img =>
        match addFiles root files img with
        | .error e => .error e
        | .ok img => fixRootAndBalloc root img

/-- The kernel's view of an image, before any `log_write`. -/
def Image.fs (img : Image) : Fs := ⟨img.sector, []⟩

/-- The inodes the kernel reads from an image. -/
def Image.inodes (img : Image) (i : ℕ) : Inode :=
  (getDinode (img.sector (iblock i mkfsSuperblock)) (64 * (i % ipb))).toInode i

/-! ### The inode blocks as bytes -/

section Dinode

variable (d : DInode) {k : ℕ}

theorem DInode.byte_type (hk : k < 2) : d.byte k = halfByte d.type k := if_pos hk

theorem DInode.byte_major (hk : k < 2) : d.byte (2 + k) = halfByte d.major k := by
  rw [DInode.byte, if_neg (by omega), if_pos (by omega), Nat.add_sub_cancel_left]

theorem DInode.byte_minor (hk : k < 2) : d.byte (4 + k) = halfByte d.minor k := by
  rw [DInode.byte, if_neg (by omega), if_neg (by omega), if_pos (by omega), Nat.add_sub_cancel_left]

theorem DInode.byte_nlink (hk : k < 2) : d.byte (6 + k) = halfByte d.nlink k := by
  rw [DInode.byte, if_neg (by omega), if_neg (by omega), if_neg (by omega), if_pos (by omega),
    Nat.add_sub_cancel_left]

theorem DInode.byte_size (hk : k < 4) : d.byte (8 + k) = byteOf d.size k := by
  rw [DInode.byte, if_neg (by omega), if_neg (by omega), if_neg (by omega), if_neg (by omega),
    if_pos (by omega), Nat.add_sub_cancel_left]

theorem DInode.byte_addr (j : Fin (ndirect + 1)) (hk : k < 4) :
    d.byte (12 + 4 * j + k) = byteOf (d.addrs j) k := by
  have hj : (12 + 4 * j + k - 12) / 4 = j := by omega
  have hm : (12 + 4 * j + k - 12) % 4 = k := by omega
  have hlt : (12 + 4 * j + k - 12) / 4 < ndirect + 1 := by
    rw [hj]
    exact j.isLt
  rw [DInode.byte, if_neg (by omega), if_neg (by omega), if_neg (by omega), if_neg (by omega),
    if_neg (by omega), dif_pos hlt, hm]
  rw [show (⟨(12 + 4 * j + k - 12) / 4, hlt⟩ : Fin (ndirect + 1)) = j from Fin.ext hj]

/-- Sixty-four bytes that are those of `d` read back as `d`. -/
theorem getDinode_of_bytes {buf : ℕ → UInt8} {o : ℕ} (h : ∀ i < 64, buf (o + i) = d.byte i) :
    getDinode buf o = d := by
  obtain ⟨t, ma, mi, nl, sz, ad⟩ := d
  simp only [getDinode, DInode.mk.injEq]
  refine ⟨getHalf_of_bytes _ _ _ fun k hk => ?_, getHalf_of_bytes _ _ _ fun k hk => ?_,
    getHalf_of_bytes _ _ _ fun k hk => ?_, getHalf_of_bytes _ _ _ fun k hk => ?_,
    getWord_of_bytes _ _ _ fun k hk => ?_, funext fun j => getWord_of_bytes _ _ _ fun k hk => ?_⟩
  · rw [h k (by omega), DInode.byte_type _ hk]
  · rw [Nat.add_assoc, h _ (by omega), DInode.byte_major _ hk]
  · rw [Nat.add_assoc, h _ (by omega), DInode.byte_minor _ hk]
  · rw [Nat.add_assoc, h _ (by omega), DInode.byte_nlink _ hk]
  · rw [Nat.add_assoc, h _ (by omega), DInode.byte_size _ hk]
  · have hj := j.isLt
    rw [Nat.add_assoc, Nat.add_assoc, h _ (by simp only [ndirect] at hj; omega), ← Nat.add_assoc,
      DInode.byte_addr _ j hk]

end Dinode

/-- A `struct dinode` is read from its sixty-four bytes alone. -/
theorem getDinode_congr {f g : ℕ → UInt8} {o : ℕ} (h : ∀ i < 64, f (o + i) = g (o + i)) :
    getDinode f o = getDinode g o := by
  have hh : ∀ a < 63, getHalf f (o + a) = getHalf g (o + a) := fun a ha =>
    getHalf_congr _ _ fun k hk => by rw [Nat.add_assoc, h _ (by omega), ← Nat.add_assoc]
  have hw : ∀ a < 61, getWord f (o + a) = getWord g (o + a) := fun a ha =>
    getWord_congr _ _ fun k hk => by rw [Nat.add_assoc, h _ (by omega), ← Nat.add_assoc]
  have h₀ := hh 0 (by decide)
  rw [Nat.add_zero] at h₀
  simp only [getDinode, h₀, hh 2 (by decide), hh 4 (by decide), hh 6 (by decide), hw 8 (by decide)]
  congr 1
  funext j
  have hj := j.isLt
  rw [Nat.add_assoc, hw _ (by simp only [ndirect] at hj; omega)]

theorem getDinode_setDinode_self (buf : ℕ → UInt8) (o : ℕ) (d : DInode) :
    getDinode (setDinode buf o d) o = d :=
  getDinode_of_bytes d fun i hi => by rw [setDinode, if_pos (by omega), Nat.add_sub_cancel_left]

/-- A `struct dinode` written elsewhere leaves this one as it was. -/
theorem getDinode_setDinode_of_far (buf : ℕ → UInt8) {o o' : ℕ} (d : DInode)
    (h : o + 64 ≤ o' ∨ o' + 64 ≤ o) : getDinode (setDinode buf o d) o' = getDinode buf o' :=
  getDinode_congr fun i hi => if_neg (by omega)

/-- Inode `k` of inode block `s` reads back from the block's bytes. -/
theorem getDinode_slotBytes (table : ℕ → DInode) (s : ℕ) {k : ℕ} (hk : k < ipb) :
    getDinode (slotBytes table s) (64 * k) = table (slotOf s k) := by
  refine getDinode_of_bytes _ fun i hi => ?_
  have hdiv : (64 * k + i) / 64 = k := by omega
  have hmod : (64 * k + i) % 64 = i := by omega
  rw [slotBytes, if_pos (by simp only [ipb, bsize] at *; omega), hdiv, hmod]

theorem iblock_slotOf {s k : ℕ} (hs : InodeSector s) (hk : k < ipb) :
    iblock (slotOf s k) mkfsSuperblock = s := by
  simp only [iblock, slotOf, InodeSector, ipb, bsize] at *
  omega

theorem slotOf_iblock (i : ℕ) : slotOf (iblock i mkfsSuperblock) (i % ipb) = i := by
  simp only [iblock, slotOf, ipb, bsize]
  omega

/-- The kernel reads an inode of the inode blocks from the table. -/
theorem Image.inodes_of_sector (img : Image) {i : ℕ} (h : InodeSector (iblock i mkfsSuperblock)) :
    img.inodes i = (img.table i).toInode i := by
  rw [Image.inodes, Image.sector, if_pos h, getDinode_slotBytes _ _ (Nat.mod_lt _ (by decide)),
    slotOf_iblock]

/-- `rinode` is `rsect` of the inode's block and the copy of its `struct dinode`. -/
theorem rinode_eq_rsect (inum : ℕ) (img : Image) :
    rinode inum img = (img.rsect (iblock inum mkfsSuperblock)).map
      fun buf => getDinode buf (64 * (inum % ipb)) := by
  unfold rinode Image.rsect
  dsimp only
  set s := sectorOf (iblock inum mkfsSuperblock)
  by_cases hs : s < img.nsect
  · rw [if_pos hs, if_pos hs]
    show Except.ok _ = Except.ok (getDinode (img.sector s) _)
    by_cases hI : InodeSector s
    · rw [Image.sector, if_pos hI, if_pos hI, getDinode_slotBytes _ _ (Nat.mod_lt _ (by decide))]
    · rw [Image.sector, if_neg hI, if_neg hI]
  · rw [if_neg hs, if_neg hs]
    rfl

/-- `winode` is `rsect` of the inode's block, its `struct dinode` replaced, and `wsect` of the
block. -/
theorem winode_eq_wsect (inum : ℕ) (din : DInode) (img : Image) :
    winode inum din img = (img.rsect (iblock inum mkfsSuperblock)).map
      fun buf => img.wsect (iblock inum mkfsSuperblock) (setDinode buf (64 * (inum % ipb)) din) := by
  unfold winode Image.rsect Image.wsect
  dsimp only
  set s := sectorOf (iblock inum mkfsSuperblock)
  by_cases hs : s < img.nsect
  · rw [if_pos hs, if_pos hs]
    show Except.ok _ = Except.ok _
    beta_reduce
    have hmax : max img.nsect (s + 1) = img.nsect := max_eq_left hs
    by_cases hI : InodeSector s
    · rw [if_pos hI, if_pos hI, Image.sector, if_pos hI, hmax]
      congr 1
      congr 1
      funext i
      by_cases hi : iblock i mkfsSuperblock = s
      · -- an inode of the same block: the one written, or another slot of it
        rw [if_pos hi]
        have hslot : i = slotOf s (i % ipb) := by rw [← hi, slotOf_iblock]
        by_cases hk : i % ipb = inum % ipb
        · have hi' : i = slotOf s (inum % ipb) := by
            rw [← hk]
            exact hslot
          rw [hk, getDinode_setDinode_self, hi', Function.update_self]
        · have hk₁ := Nat.mod_lt i (show 0 < ipb by decide)
          have hk₂ := Nat.mod_lt inum (show 0 < ipb by decide)
          have hfar : 64 * (inum % ipb) + 64 ≤ 64 * (i % ipb) ∨
              64 * (i % ipb) + 64 ≤ 64 * (inum % ipb) := by
            omega
          have hne : i ≠ slotOf s (inum % ipb) := fun e => hk (by
            rw [e, slotOf, Nat.mul_comm, Nat.mul_add_mod, Nat.mod_eq_of_lt hk₂])
          rw [Function.update_of_ne hne, getDinode_setDinode_of_far _ _ hfar,
            getDinode_slotBytes _ _ hk₁, ← hslot]
      · rw [if_neg hi, Function.update_of_ne fun e =>
          hi (by rw [e]; exact iblock_slotOf hI (Nat.mod_lt _ (by decide)))]
    · rw [if_neg hI, if_neg hI, Image.sector, if_neg hI, hmax]
  · rw [if_neg hs, if_neg hs]
    rfl

/-- The outcome of a computation that may fail, checked by a test on its value. -/
theorem exists_ok_of_any {ε α : Type} {x : Except ε α} {p : α → Bool}
    (h : x.toOption.any p = true) : ∃ a, x = .ok a ∧ p a = true := by
  cases x with
  | error e => simp [Except.toOption] at h
  | ok a => exact ⟨a, rfl, by simpa [Except.toOption] using h⟩

/-! ### A root directory that fills its first block -/

/-- Sixty-two one-byte files `a00` … `a61`: with `.` and `..`, sixty-four entries of sixteen
bytes fill the root directory's first block exactly. -/
def sixtyTwoFiles : List (List UInt8 × List UInt8) :=
  (List.range 62).map fun i => ([97, UInt8.ofNat (48 + i / 10), UInt8.ofNat (48 + i % 10)], [UInt8.ofNat i])

/-- With sixty-two input files of distinct names that fit in `FSSIZE`, `mkfs` rounds the
root directory's size from `1024` up to `2048`, but block `1` of the root has no address. -/
theorem mkfs_root_hole :
    (sixtyTwoFiles.map fun f => (shortname f.1).map (List.take dirsiz)).Nodup ∧
      ∃ img, mkfs sixtyTwoFiles = .ok img ∧ img.freeblock ≤ fssize ∧
        (img.inodes rootino).size.toNat = 2 * bsize ∧ blockAddr img.fs (img.inodes rootino) 1 = 0 := by
  refine ⟨by decide +kernel, ?_⟩
  obtain ⟨img, himg, hcheck⟩ := exists_ok_of_any (p := fun img =>
    decide (img.freeblock ≤ fssize) && (img.inodes rootino).size.toNat == 2 * bsize &&
      blockAddr img.fs (img.inodes rootino) 1 == 0) (x := mkfs sixtyTwoFiles) (by decide +kernel)
  simp only [Bool.and_eq_true, decide_eq_true_eq, beq_iff_eq] at hcheck
  exact ⟨img, himg, hcheck.1.1, hcheck.1.2, hcheck.2⟩

end Xv6Lab.FS
