import Xv6Lab.Lib.Bytes

/-!
# The on-disk layout of the file system (`kernel/fs.h`, `kernel/param.h`)

Constants, the superblock, and the fields of an inode that the block layer reads and writes.
A block's contents are a map from offsets to bytes; only offsets below `BSIZE` are ever read.
-/

namespace Xv6Lab.FS

/-! ### Constants -/

/-- `BSIZE`: block size. -/
def bsize : ℕ := 1024

/-- `NDIRECT`. -/
def ndirect : ℕ := 12

/-- `NINDIRECT = BSIZE / sizeof(uint)`. -/
def nindirect : ℕ := bsize / 4

/-- `MAXFILE = NDIRECT + NINDIRECT`. -/
def maxfile : ℕ := ndirect + nindirect

/-- `IPB = BSIZE / sizeof(struct dinode)`, a `dinode` being 64 bytes. -/
def ipb : ℕ := bsize / 64

/-- `BPB = BSIZE * 8`: bitmap bits per block. -/
def bpb : ℕ := bsize * 8

/-- `DIRSIZ`. -/
def dirsiz : ℕ := 14

/-- `ROOTINO`. -/
def rootino : ℕ := 1

/-- `FSSIZE`: size of the file system in blocks. -/
def fssize : ℕ := 2000

/-- `PGSIZE`: bytes per page. -/
def pgsize : ℕ := 4096

/-! ### The superblock -/

/-- `struct superblock` without its magic number. -/
structure Superblock where
  size : ℕ
  nblocks : ℕ
  ninodes : ℕ
  nlog : ℕ
  logstart : ℕ
  inodestart : ℕ
  bmapstart : ℕ
  deriving DecidableEq, Repr

/-- `BBLOCK(b, sb)`: the bitmap block that holds the bit of block `b`. -/
def bblock (b : ℕ) (sb : Superblock) : ℕ := b / bpb + sb.bmapstart

/-- `IBLOCK(i, sb)`: the block that holds inode `i`. -/
def iblock (i : ℕ) (sb : Superblock) : ℕ := i / ipb + sb.inodestart

/-! ### Inodes -/

/-- `T_DIR`, `T_FILE`, `T_DEVICE`, and `0` for a free inode. -/
inductive IType
  | free
  | dir
  | file
  | device
  deriving DecidableEq, Repr

/-- The fields of `struct inode` (and `struct dinode`) the block layer reads and writes. -/
structure Inode where
  inum : ℕ
  type : IType
  size : UInt32
  addrs : Fin (ndirect + 1) → UInt32

/-- The slot of the indirect block, `addrs[NDIRECT]`. -/
def indirectSlot : Fin (ndirect + 1) := ⟨ndirect, Nat.lt_succ_self _⟩

/-- The block layer's view of the disk: every block as `bread` returns it, and the blocks
passed to `log_write`, in order. -/
structure Fs where
  blocks : ℕ → ℕ → UInt8
  writes : List ℕ

/-- `log_write` of the buffer of block `b`. -/
def Fs.logWrite (s : Fs) (b : ℕ) : Fs := { s with writes := s.writes ++ [b] }

/-- Block `b`'s buffer changed to `v` and passed to `log_write`. -/
def Fs.put (s : Fs) (b : ℕ) (v : ℕ → UInt8) : Fs :=
  { blocks := Function.update s.blocks b v, writes := s.writes ++ [b] }

@[simp] theorem Fs.put_writes (s : Fs) (b : ℕ) (v : ℕ → UInt8) :
    (s.put b v).writes = s.writes ++ [b] := rfl

@[simp] theorem Fs.logWrite_writes (s : Fs) (b : ℕ) : (s.logWrite b).writes = s.writes ++ [b] :=
  rfl

@[simp] theorem Fs.logWrite_blocks (s : Fs) (b : ℕ) : (s.logWrite b).blocks = s.blocks := rfl

theorem Fs.put_blocks (s : Fs) (b : ℕ) (v : ℕ → UInt8) :
    (s.put b v).blocks = Function.update s.blocks b v := rfl

theorem Fs.put_blocks_of_ne (s : Fs) {b c : ℕ} (v : ℕ → UInt8) (h : c ≠ b) :
    (s.put b v).blocks c = s.blocks c :=
  Function.update_of_ne h _ _

@[simp] theorem Fs.put_blocks_self (s : Fs) (b : ℕ) (v : ℕ → UInt8) :
    (s.put b v).blocks b = v :=
  Function.update_self _ _ _

end Xv6Lab.FS
