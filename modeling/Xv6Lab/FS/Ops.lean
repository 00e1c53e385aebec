import Xv6Lab.FS.ReadWrite
import Xv6Lab.FS.Mkfs
import Xv6Lab.Lib.Interleave
import Xv6Lab.Lib.Ownership

/-!
# The inode layer as a system

The state is the disk as the buffer cache shows it, and the inodes. Every FS system call
reaches the block map of an inode only through the functions of `kernel/fs.c` modelled
here: `readi` and `writei` (directories grow through `writei` too), `itrunc` (for
`O_TRUNC`), `ialloc`, and the `iput` that frees an inode with no links left. A run is any
sequence of them, on any allocated inode, with any arguments, sources and destinations.

The block each position of each allocated inode holds is `FsState.ref`; `Owned` is the
invariant of `Ownership.Owns` for it, with the marks of the free bitmap.
-/

namespace Xv6Lab.FS

open ByteMap

/-! ### Positions of block addresses -/

/-- Where a block address sits in an inode: a direct slot, the indirect slot, or an entry
of the indirect block. -/
inductive Pos
  | direct (k : Fin ndirect)
  | indirect
  | entry (j : Fin nindirect)
  deriving DecidableEq

/-- The block at position `p` of the inode, `0` for none; an entry reads the indirect
block, and there is none while the indirect slot is empty. -/
def refAt (blocks : ℕ → ℕ → UInt8) (ip : Inode) : Pos → ℕ
  | .direct k => (ip.addrs k.castSucc).toNat
  | .indirect => (ip.addrs indirectSlot).toNat
  | .entry j =>
    if ip.addrs indirectSlot = 0 then 0
    else (getWord (blocks (ip.addrs indirectSlot).toNat) (4 * j)).toNat

/-! ### The state -/

/-- The disk and the inodes. -/
structure FsState where
  fs : Fs
  inodes : ℕ → Inode

/-- Inode `i` is one of the superblock's inodes, and in use. -/
def FsState.Allocated (sb : Superblock) (σ : FsState) (i : ℕ) : Prop :=
  i < sb.ninodes ∧ (σ.inodes i).type ≠ .free

instance (sb : Superblock) (σ : FsState) (i : ℕ) : Decidable (σ.Allocated sb i) :=
  inferInstanceAs (Decidable (_ ∧ _))

/-- The block each position of each inode holds: `0` for a free inode. -/
def FsState.ref (sb : Superblock) (σ : FsState) (x : ℕ × Pos) : ℕ :=
  if σ.Allocated sb x.1 then refAt σ.fs.blocks (σ.inodes x.1) x.2 else 0

/-- Block `b` is marked in use in the free bitmap. -/
def Used (sb : Superblock) (blocks : ℕ → ℕ → UInt8) (b : ℕ) : Prop :=
  isFree (blocks (bblock b sb)) (b % bpb) = false

instance (sb : Superblock) (blocks : ℕ → ℕ → UInt8) (b : ℕ) : Decidable (Used sb blocks b) :=
  inferInstanceAs (Decidable (_ = _))

/-- The first data block: the blocks before `sb.size - sb.nblocks` are the boot block, the
superblock, the log, the inodes and the bitmap. -/
def dataStart (sb : Superblock) : ℕ := sb.size - sb.nblocks

/-- **Block ownership**: the blocks the allocated inodes hold are distinct data blocks,
marked in the bitmap, and every metadata block is marked. -/
def Owned (sb : Superblock) (σ : FsState) : Prop :=
  Ownership.Owns (σ.ref sb) (Used sb σ.fs.blocks) (dataStart sb) sb.size

/-- A superblock whose bitmap blocks are metadata, with block `0` before the data, and whose
block numbers fit the 32-bit words of `addrs`. -/
structure SbOK (sb : Superblock) : Prop where
  data_pos : 0 < dataStart sb
  data_le : dataStart sb ≤ sb.size
  size_lt : sb.size < 2 ^ 32
  bitmap_meta : ∀ b < sb.size, bblock b sb < dataStart sb

theorem sbOK_mkfs : SbOK mkfsSuperblock where
  data_pos := by decide
  data_le := by decide
  size_lt := by decide
  bitmap_meta := fun b hb => by
    have hb' : b / bpb = 0 := Nat.div_eq_of_lt (lt_of_lt_of_le hb (by decide))
    simp only [bblock, hb', Nat.zero_add]
    decide

/-! ### The operations -/

/-- One call of the inode layer. -/
inductive Op
  | readi (i : ℕ) (mem : Mem) (dst : ℕ) (off n : UInt32)
  | writei (i : ℕ) (mem : Mem) (src : ℕ) (off n : UInt32)
  | itrunc (i : ℕ)
  | ialloc (t : IType)
  | ifree (i : ℕ)

/-- `ialloc`: the first free inode from `1` on. -/
def iallocScan (sb : Superblock) (σ : FsState) : Option ℕ :=
  (List.range' 1 (sb.ninodes - 1)).find? fun i => (σ.inodes i).type = .free

/-- One call: `none` for a call the kernel does not make (on an inode not in use, or
`ialloc` of no type). -/
def FsState.step (sb : Superblock) (σ : FsState) : Op → Option (Except String FsState)
  | .readi i mem dst off n =>
    if σ.Allocated sb i then
      some ((readi sb (σ.inodes i) mem dst off n σ.fs).map fun r =>
        ⟨r.2.2.1, Function.update σ.inodes i r.2.1⟩)
    else none
  | .writei i mem src off n =>
    if σ.Allocated sb i then
      some ((writei sb (σ.inodes i) mem src off n σ.fs).map fun r =>
        ⟨r.2.2, Function.update σ.inodes i r.2.1⟩)
    else none
  | .itrunc i =>
    if σ.Allocated sb i then
      some ((itrunc sb (σ.inodes i) σ.fs).map fun r => ⟨r.2, Function.update σ.inodes i r.1⟩)
    else none
  | .ialloc t =>
    if t = .free then none
    else
      match iallocScan sb σ with
      | none => some (.ok σ)
      | some i =>
        some (.ok ⟨σ.fs.logWrite (iblock i sb), Function.update σ.inodes i ⟨i, t, 0, fun _ => 0⟩⟩)
  | .ifree i =>
    -- `iput` of the last reference to an inode with no links: `itrunc`, type `0`, `iupdate`
    if σ.Allocated sb i then
      some ((itrunc sb (σ.inodes i) σ.fs).map fun r =>
        let ip := { r.1 with type := .free }
        ⟨iupdate sb ip r.2, Function.update σ.inodes i ip⟩)
    else none

end Xv6Lab.FS
