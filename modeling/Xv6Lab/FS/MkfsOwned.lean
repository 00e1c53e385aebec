import Xv6Lab.FS.Ownership

/-!
# The blocks of the images `mkfs` completes

`mkfs` takes every block from `freeblock` in turn, and reads each one back before it writes
it, so an image it completes holds no block past the `FSSIZE` sectors it zeroed first. On at
most `NINODES - 2` input files every inode it allocates lies in the inode blocks. Then the
blocks the image's inodes hold are distinct blocks of `[nmeta, FSSIZE)`, all below
`freeblock`, which `balloc(freeblock)` marks: block ownership holds of the image
(`mkfs_owned`).

`Laid img ino` is what a run of `mkfs` keeps, for the inodes `ino` it has in hand (the table
of the image, with the inode `iappend` is extending in place of its copy on disk). Each step
keeps it: a block taken from `freeblock` for a direct slot (`Laid.allocDirect`), for the
indirect slot (`Laid.allocIndirect`) or for an entry of the indirect block
(`Laid.allocEntry`), and a write to a block held other than as an indirect block
(`Laid.write_data`); the loop of `iappend` is made of these (`Laid.iappendLoop`).

`Built img` adds what holds between the calls of `mkfs`: the inodes from `freeinode` on are
free, so that `ialloc` gives out an inode that holds no block (`Built.ialloc`). `iappend`,
`addFile` and `addFiles` keep it, and `balloc(freeblock)` at the end turns it into block
ownership (`Laid.owned_balloc`).
-/

namespace Xv6Lab.FS

open ByteMap

/-! ### The layout -/

theorem inodestart_eq : mkfsSuperblock.inodestart = 32 := by decide

theorem bmapstart_eq : mkfsSuperblock.bmapstart = 45 := by decide

theorem nmeta_eq : nmeta = 46 := by decide

theorem fssize_eq : fssize = 2000 := by decide

/-- Blocks from `nmeta` on are data sectors, not inode blocks. -/
theorem not_inodeSector {b : ℕ} (hb : nmeta ≤ b) : ¬ InodeSector b := by
  rw [InodeSector, inodestart_eq, bmapstart_eq]
  rw [nmeta_eq] at hb
  omega

/-- The inodes of the kernel lie in the inode blocks. -/
theorem inodeSector_iblock {i : ℕ} (hi : i < ninodes) : InodeSector (iblock i mkfsSuperblock) := by
  rw [InodeSector, iblock, inodestart_eq, bmapstart_eq]
  simp only [ninodes, ipb, bsize] at *
  omega

/-- Below `2^22` sectors the offset `sec * BSIZE` does not wrap. -/
theorem sectorOf_of_lt {sec : ℕ} (h : sec < 2 ^ 22) : sectorOf sec = sec := by
  simp only [sectorOf, bsize]
  omega

theorem sectorOf_of_le_fssize {sec : ℕ} (h : sec ≤ fssize) : sectorOf sec = sec :=
  sectorOf_of_lt (by rw [fssize_eq] at h; omega)

namespace Image

variable (img : Image) {b : ℕ} (buf : ℕ → UInt8)

theorem sector_of_data (hb : nmeta ≤ b) : img.sector b = img.data b := if_neg (not_inodeSector hb)

/-- `wsect` of a sector outside the inode blocks. -/
theorem wsect_of_not_inodeSector (hb : ¬ InodeSector b) (hlt : b ≤ fssize) :
    img.wsect b buf = { img with
      data := Function.update img.data b buf
      nsect := max img.nsect (b + 1) } := by
  unfold wsect
  dsimp only
  rw [sectorOf_of_le_fssize hlt, if_neg hb]

/-- `wsect` of a data sector. -/
theorem wsect_of_data (hb : nmeta ≤ b) (hlt : b ≤ fssize) :
    img.wsect b buf = { img with
      data := Function.update img.data b buf
      nsect := max img.nsect (b + 1) } :=
  wsect_of_not_inodeSector img buf (not_inodeSector hb) hlt

theorem sector_wsect_of_data (hb : nmeta ≤ b) (hlt : b ≤ fssize) :
    (img.wsect b buf).sector = Function.update img.sector b buf := by
  rw [wsect_of_data img buf hb hlt]
  funext s
  by_cases hs : s = b
  · subst hs
    rw [Function.update_self, sector, if_neg (not_inodeSector hb)]
    exact Function.update_self _ _ _
  · rw [Function.update_of_ne hs]
    unfold sector
    split_ifs
    · rfl
    · exact Function.update_of_ne hs _ _

theorem table_wsect_of_data (hb : nmeta ≤ b) (hlt : b ≤ fssize) :
    (img.wsect b buf).table = img.table := by
  rw [wsect_of_data img buf hb hlt]

@[simp] theorem freeinode_wsect (s : ℕ) : (img.wsect s buf).freeinode = img.freeinode := by
  unfold wsect
  dsimp only
  split_ifs <;> rfl

/-- What an `rsect` of a sector below `FSSIZE` that returns has read. -/
theorem rsect_eq_ok {buf : ℕ → UInt8} (hlt : b ≤ fssize) (h : img.rsect b = .ok buf) :
    b < img.nsect ∧ buf = img.sector b := by
  unfold rsect at h
  rw [sectorOf_of_le_fssize hlt] at h
  split_ifs at h with hb
  cases h
  exact ⟨hb, rfl⟩

end Image

/-! ### The inodes `mkfs` has in hand -/

theorem iblock_lt_fssize {i : ℕ} (hi : i < ninodes) : iblock i mkfsSuperblock < fssize := by
  have := (inodeSector_iblock hi).2
  rw [bmapstart_eq] at this
  rw [fssize_eq]
  omega

/-- `rinode` of an inode of the kernel, in a file of `FSSIZE` sectors, reads the table. -/
theorem rinode_of_lt {inum : ℕ} {img : Image} (hi : inum < ninodes) (hn : img.nsect = fssize) :
    rinode inum img = .ok (img.table inum) := by
  have hlt := iblock_lt_fssize hi
  unfold rinode
  dsimp only
  rw [sectorOf_of_le_fssize hlt.le, hn, if_pos hlt, if_pos (inodeSector_iblock hi), slotOf_iblock]

/-- `winode` of an inode of the kernel, in a file of `FSSIZE` sectors, writes the table. -/
theorem winode_of_lt {inum : ℕ} {d : DInode} {img : Image} (hi : inum < ninodes)
    (hn : img.nsect = fssize) :
    winode inum d img = .ok { img with table := Function.update img.table inum d } := by
  have hlt := iblock_lt_fssize hi
  unfold winode
  dsimp only
  rw [sectorOf_of_le_fssize hlt.le, hn, if_pos hlt, if_pos (inodeSector_iblock hi), slotOf_iblock]

/-- The kernel's inodes, as the table of an image holds them. -/
def tableInodes (table : ℕ → DInode) (i : ℕ) : Inode := (table i).toInode i

theorem tableInodes_update (table : ℕ → DInode) (i : ℕ) (d : DInode) :
    tableInodes (Function.update table i d) = Function.update (tableInodes table) i (d.toInode i) := by
  funext j
  by_cases hj : j = i
  · subst hj
    simp [tableInodes]
  · simp [tableInodes, Function.update_of_ne hj]

/-- What `mkfs` keeps while it lays out an image, for the inodes `ino` it has in hand: the
blocks they hold are distinct blocks of `[nmeta, FSSIZE)` below `freeblock`; the file holds
`FSSIZE` sectors; and the sectors from `freeblock` on are still zero. -/
structure Laid (img : Image) (ino : ℕ → Inode) : Prop where
  owns : Ownership.Owns (FsState.ref mkfsSuperblock ⟨img.fs, ino⟩) (· < img.freeblock) nmeta fssize
  nsect : img.nsect = fssize
  le_size : img.freeblock ≤ fssize
  fresh : ∀ b, img.freeblock ≤ b → img.data b = fun _ => 0

section Laid

variable {img : Image} {ino : ℕ → Inode}

theorem Laid.meta_le (h : Laid img ino) : nmeta ≤ img.freeblock := by
  have := h.owns.reserved (nmeta - 1) (by rw [nmeta_eq]; decide)
  rw [nmeta_eq] at this ⊢
  omega

theorem Laid.freeblock_ne_zero (h : Laid img ino) : img.freeblock ≠ 0 := by
  have := h.meta_le
  rw [nmeta_eq] at this
  omega

/-- A block held is a data block below `freeblock`. -/
theorem Laid.held (h : Laid img ino) {x : ℕ × Pos}
    (hx : FsState.ref mkfsSuperblock ⟨img.fs, ino⟩ x ≠ 0) :
    nmeta ≤ FsState.ref mkfsSuperblock ⟨img.fs, ino⟩ x ∧
      FsState.ref mkfsSuperblock ⟨img.fs, ino⟩ x < img.freeblock :=
  ⟨(h.owns.range x hx).1, h.owns.marked x hx⟩

/-- The indirect block of an inode in use is a block held. -/
theorem Laid.indirect_held {inum : ℕ} {ip : Inode} (h : Laid img (Function.update ino inum ip))
    (hi : inum < ninodes) (ht : ip.type ≠ .free) (h0 : ip.addrs indirectSlot ≠ 0) :
    nmeta ≤ (ip.addrs indirectSlot).toNat ∧ (ip.addrs indirectSlot).toNat < img.freeblock := by
  have hind : FsState.ref mkfsSuperblock ⟨img.fs, Function.update ino inum ip⟩ (inum, .indirect) =
      (ip.addrs indirectSlot).toNat := ref_indirect hi ht
  rw [← hind]
  exact h.held (by rw [hind]; exact toNat_ne_zero h0)

/-- The blocks held read the image at the indirect blocks held alone. -/
theorem Laid.ref_congr (h : Laid img ino) {img' : Image}
    (hd : ∀ j, FsState.ref mkfsSuperblock ⟨img.fs, ino⟩ (j, .indirect) ≠ 0 →
      img'.data (FsState.ref mkfsSuperblock ⟨img.fs, ino⟩ (j, .indirect)) =
        img.data (FsState.ref mkfsSuperblock ⟨img.fs, ino⟩ (j, .indirect))) :
    FsState.ref mkfsSuperblock ⟨img'.fs, ino⟩ = FsState.ref mkfsSuperblock ⟨img.fs, ino⟩ :=
  ref_congr_blocks (s := img'.fs) fun j hj => by
    have hb := (h.held hj).1
    show img'.sector _ = img.sector _
    rw [Image.sector_of_data _ hb, Image.sector_of_data _ hb, hd j hj]

/-- A write to a data block below `freeblock` keeps the file's size and the zero blocks from
`freeblock` on: the image it leaves is laid out once the blocks held are. -/
theorem Laid.of_wsect {b : ℕ} {buf : ℕ → UInt8} (hlo : nmeta ≤ b) (hb : b < img.freeblock)
    (hn : img.nsect = fssize) (hfb : img.freeblock ≤ fssize)
    (hfresh : ∀ c, img.freeblock ≤ c → img.data c = fun _ => 0)
    (howns : Ownership.Owns (FsState.ref mkfsSuperblock ⟨(img.wsect b buf).fs, ino⟩)
      (· < img.freeblock) nmeta fssize) :
    Laid (img.wsect b buf) ino := by
  have hw := Image.wsect_of_data img buf hlo (hb.le.trans hfb)
  have hfree : (img.wsect b buf).freeblock = img.freeblock := by rw [hw]
  refine ⟨hfree ▸ howns, ?_, hfree ▸ hfb, fun c hc => ?_⟩
  · rw [hw]
    show max img.nsect (b + 1) = fssize
    rw [hn]
    exact max_eq_left (hb.trans_le hfb)
  · rw [hfree] at hc
    rw [hw]
    exact (Function.update_of_ne (by omega) _ _).trans (hfresh c hc)

/-- **A write to a block held other than as an indirect block** changes no block held. -/
theorem Laid.write_data (h : Laid img ino) {x : ℕ × Pos}
    (hx : FsState.ref mkfsSuperblock ⟨img.fs, ino⟩ x ≠ 0) (hxi : x.2 ≠ .indirect) (buf : ℕ → UInt8) :
    Laid (img.wsect (FsState.ref mkfsSuperblock ⟨img.fs, ino⟩ x) buf) ino := by
  set b := FsState.ref mkfsSuperblock ⟨img.fs, ino⟩ x
  obtain ⟨hlo, hfb⟩ := h.held hx
  have hw := Image.wsect_of_data img buf hlo (hfb.le.trans h.le_size)
  -- no inode holds `b` as its indirect block
  have href : FsState.ref mkfsSuperblock ⟨(img.wsect b buf).fs, ino⟩ =
      FsState.ref mkfsSuperblock ⟨img.fs, ino⟩ :=
    h.ref_congr fun j hj => by
      have hne : FsState.ref mkfsSuperblock ⟨img.fs, ino⟩ (j, .indirect) ≠ b := fun e =>
        hxi (by rw [← h.owns.inj _ _ hj e])
      rw [hw]
      exact Function.update_of_ne hne _ _
  exact Laid.of_wsect hlo hfb h.nsect h.le_size h.fresh (by rw [href]; exact h.owns)

/-! ### Blocks taken from `freeblock` -/

/-- Taking `freeblock` for a slot that held no block keeps the invariant. -/
theorem Laid.owns_assign (h : Laid img ino) (hfb : img.freeblock < fssize) {ref' : ℕ × Pos → ℕ}
    {p : ℕ × Pos} (hp : FsState.ref mkfsSuperblock ⟨img.fs, ino⟩ p = 0)
    (href : ref' = Function.update (FsState.ref mkfsSuperblock ⟨img.fs, ino⟩) p img.freeblock) :
    Ownership.Owns ref' (· < img.freeblock + 1) nmeta fssize := by
  rw [href]
  exact h.owns.assign hp h.freeblock_ne_zero h.meta_le hfb
    (Nat.lt_irrefl _) fun x _ => by omega

/-- The table is read at the inode blocks alone, and no block held is one of them: an image
with the same data sectors, size and `freeblock` keeps the layout. -/
theorem Laid.of_data_eq (h : Laid img ino) {img' : Image} (hd : img'.data = img.data)
    (hn : img'.nsect = img.nsect) (hf : img'.freeblock = img.freeblock) : Laid img' ino := by
  have href : FsState.ref mkfsSuperblock ⟨img'.fs, ino⟩ = FsState.ref mkfsSuperblock ⟨img.fs, ino⟩ :=
    h.ref_congr fun j _ => by rw [hd]
  refine ⟨?_, hn.trans h.nsect, hf ▸ h.le_size, fun b hb => ?_⟩
  · rw [href, hf]
    exact h.owns
  · rw [hd]
    exact h.fresh b (hf ▸ hb)

theorem Laid.update_self (h : Laid img ino) (i : ℕ) : Laid img (Function.update ino i (ino i)) := by
  rwa [Function.update_eq_self]

/-- An inode written into the table with the blocks and the type the layout has for it keeps
the layout. -/
theorem Laid.writeTable {i : ℕ} {ip : Inode} (h : Laid img (Function.update (tableInodes img.table) i ip))
    {d : DInode} (ha : d.addrs = ip.addrs) (ht : typeOf d.type = ip.type) :
    Laid { img with table := Function.update img.table i d } (tableInodes (Function.update img.table i d)) := by
  rw [tableInodes_update]
  have h' : Laid img (Function.update (tableInodes img.table) i (d.toInode i)) := by
    refine ⟨?_, h.nsect, h.le_size, h.fresh⟩
    rw [ref_congr_inode (show (d.toInode i).addrs = ip.addrs from ha) ht]
    exact h.owns
  exact h'.of_data_eq rfl rfl rfl

theorem Laid.fresh_succ (h : Laid img ino) (b : ℕ) (hb : img.freeblock + 1 ≤ b) :
    img.data b = fun _ => 0 :=
  h.fresh b (by omega)

variable {inum : ℕ} {ip : Inode}
  (hi : inum < ninodes) (ht : ip.type ≠ .free)
  (h : Laid img (Function.update ino inum ip)) (hfb : img.freeblock < fssize)
include hi ht h hfb

/-- `iappend` taking `freeblock` for the direct slot `k`. -/
theorem Laid.allocDirect {k : Fin ndirect} (hk : ip.addrs k.castSucc = 0) :
    Laid { img with freeblock := img.freeblock + 1 }
        (Function.update ino inum (ip.setAddr k.castSucc img.freeblock.toUInt32)) ∧
      FsState.ref mkfsSuperblock ⟨img.fs, Function.update ino inum (ip.setAddr k.castSucc
        img.freeblock.toUInt32)⟩ (inum, .direct k) = img.freeblock := by
  have href : FsState.ref mkfsSuperblock
      ⟨img.fs, Function.update ino inum (ip.setAddr k.castSucc img.freeblock.toUInt32)⟩ =
      Function.update (FsState.ref mkfsSuperblock ⟨img.fs, Function.update ino inum ip⟩)
        (inum, .direct k) img.freeblock := by
    conv_rhs => rw [← toNat_toUInt32 sbOK_mkfs hfb]
    exact ref_update_of_refAt hi ht rfl (refAt_setAddr_direct _ _ _ _) fun _ _ _ => rfl
  have hp : FsState.ref mkfsSuperblock ⟨img.fs, Function.update ino inum ip⟩ (inum, .direct k) = 0 := by
    rw [ref_self hi ht]
    simp [refAt, hk]
  refine ⟨⟨h.owns_assign hfb hp href, h.nsect, hfb, h.fresh_succ⟩, ?_⟩
  rw [href, Function.update_self]

/-- `iappend` taking `freeblock` for the indirect slot: a zero block, so no entry yet. -/
theorem Laid.allocIndirect (h0 : ip.addrs indirectSlot = 0) :
    Laid { img with freeblock := img.freeblock + 1 }
      (Function.update ino inum (ip.setAddr indirectSlot img.freeblock.toUInt32)) := by
  have hz : img.fs.blocks img.freeblock.toUInt32.toNat = fun _ => 0 := by
    rw [toNat_toUInt32 sbOK_mkfs hfb]
    show img.sector _ = _
    rw [Image.sector_of_data _ h.meta_le, h.fresh _ le_rfl]
  have href : FsState.ref mkfsSuperblock
      ⟨img.fs, Function.update ino inum (ip.setAddr indirectSlot img.freeblock.toUInt32)⟩ =
      Function.update (FsState.ref mkfsSuperblock ⟨img.fs, Function.update ino inum ip⟩)
        (inum, .indirect) img.freeblock := by
    conv_rhs => rw [← toNat_toUInt32 sbOK_mkfs hfb]
    exact ref_update_of_refAt hi ht rfl (refAt_setAddr_indirect h0 hz) fun _ _ _ => rfl
  have hp : FsState.ref mkfsSuperblock ⟨img.fs, Function.update ino inum ip⟩ (inum, .indirect) = 0 := by
    rw [ref_indirect hi ht, h0]
    rfl
  exact ⟨h.owns_assign hfb hp href, h.nsect, hfb, h.fresh_succ⟩

/-- `iappend` taking `freeblock` for entry `j` of the indirect block, and writing the block
back. -/
theorem Laid.allocEntry (h0 : ip.addrs indirectSlot ≠ 0) {j : Fin nindirect}
    (hj : getWord (img.data (ip.addrs indirectSlot).toNat) (4 * j) = 0) :
    Laid (({ img with freeblock := img.freeblock + 1 } : Image).wsect (ip.addrs indirectSlot).toNat
        (setWord (img.data (ip.addrs indirectSlot).toNat) (4 * j) img.freeblock.toUInt32))
        (Function.update ino inum ip) ∧
      FsState.ref mkfsSuperblock ⟨(({ img with freeblock := img.freeblock + 1 } : Image).wsect
        (ip.addrs indirectSlot).toNat (setWord (img.data (ip.addrs indirectSlot).toNat) (4 * j)
          img.freeblock.toUInt32)).fs, Function.update ino inum ip⟩ (inum, .entry j) =
        img.freeblock := by
  set ind := (ip.addrs indirectSlot).toNat
  set img₁ : Image := { img with freeblock := img.freeblock + 1 }
  set buf := setWord (img.data ind) (4 * j) img.freeblock.toUInt32
  have hind : FsState.ref mkfsSuperblock ⟨img.fs, Function.update ino inum ip⟩ (inum, .indirect) = ind :=
    ref_indirect hi ht
  obtain ⟨hlo, hlt⟩ := h.indirect_held hi ht h0
  have hle : ind ≤ fssize := (hlt.trans hfb).le
  have hblocks : (img₁.wsect ind buf).fs.blocks =
      Function.update img.fs.blocks ind (setWord (img.fs.blocks ind) (4 * j) img.freeblock.toUInt32) := by
    show (img₁.wsect ind buf).sector = _
    rw [Image.sector_wsect_of_data img₁ buf hlo hle]
    show Function.update img.sector ind buf =
      Function.update img.sector ind (setWord (img.sector ind) (4 * j) img.freeblock.toUInt32)
    rw [Image.sector_of_data img hlo]
  have href : FsState.ref mkfsSuperblock ⟨(img₁.wsect ind buf).fs, Function.update ino inum ip⟩ =
      Function.update (FsState.ref mkfsSuperblock ⟨img.fs, Function.update ino inum ip⟩)
        (inum, .entry j) img.freeblock := by
    conv_rhs => rw [← toNat_toUInt32 sbOK_mkfs hfb]
    refine ref_update_of_refAt hi ht rfl (by rw [hblocks]; exact refAt_setEntry h0 j _)
      fun i hne hi0 => ?_
    -- another inode's indirect block is not this one
    have hne' : FsState.ref mkfsSuperblock ⟨img.fs, Function.update ino inum ip⟩ (i, .indirect) ≠ ind :=
      fun e => hne (congrArg Prod.fst (h.owns.inj _ _ hi0 (e.trans hind.symm)))
    rw [hblocks]
    exact Function.update_of_ne hne' _ _
  have hp : FsState.ref mkfsSuperblock ⟨img.fs, Function.update ino inum ip⟩ (inum, .entry j) = 0 := by
    rw [ref_self hi ht]
    show (if ip.addrs indirectSlot = 0 then 0 else (getWord (img.sector ind) (4 * j)).toNat) = 0
    rw [if_neg h0, Image.sector_of_data img hlo, hj]
    rfl
  exact ⟨Laid.of_wsect hlo (Nat.lt_succ_of_lt hlt) h.nsect hfb h.fresh_succ (h.owns_assign hfb hp href),
    by rw [href, Function.update_self]⟩

end Laid

/-! ### `iappend` -/

theorem toNat_toUInt32_of_le {b : ℕ} (hb : b ≤ fssize) : b.toUInt32.toNat = b := by
  rw [Nat.toUInt32, UInt32.toNat_ofNat']
  exact Nat.mod_eq_of_lt (by rw [fssize_eq] at hb; omega)

section Append

variable {ino : ℕ → Inode} {inum fbn x : ℕ} {din din' : DInode} {img img' : Image}
  {buf : ℕ → UInt8}

/-- The block of a direct slot that `iappend` finds or takes, and then reads. -/
theorem Laid.iappendDirect (hi : inum < ninodes) (ht : typeOf din.type ≠ .free)
    (h : Laid img (Function.update ino inum (din.toInode inum))) (hd : fbn < ndirect)
    (hb : iappendBlock din img fbn = .ok (din', img', x)) (hx : img'.rsect x = .ok buf) :
    Laid img' (Function.update ino inum (din'.toInode inum)) ∧ din'.type = din.type ∧
      img'.table = img.table ∧ ∃ p : Pos, p ≠ .indirect ∧ x ≠ 0 ∧
        FsState.ref mkfsSuperblock ⟨img'.fs, Function.update ino inum (din'.toInode inum)⟩ (inum, p) = x := by
  set k : Fin ndirect := ⟨fbn, hd⟩
  have hslot : directSlot fbn hd = k.castSucc := rfl
  by_cases h0 : din.addrs k.castSucc = 0
  · -- the slot is empty: `freeblock` is taken, and read, so it lies below `FSSIZE`
    simp only [FS.iappendBlock, dif_pos hd, hslot, if_pos h0, Function.update_self,
      Except.ok.injEq, Prod.mk.injEq] at hb
    obtain ⟨rfl, rfl, rfl⟩ := hb
    rw [toNat_toUInt32_of_le h.le_size] at hx
    have hfb : img.freeblock < fssize := by
      have := (Image.rsect_eq_ok _ h.le_size hx).1
      rwa [h.nsect] at this
    obtain ⟨hl, hr⟩ := h.allocDirect hi ht hfb h0
    refine ⟨hl, rfl, rfl, .direct k, by simp, ?_, ?_⟩
    · rw [toNat_toUInt32_of_le h.le_size]
      exact h.freeblock_ne_zero
    · rw [toNat_toUInt32_of_le h.le_size]
      exact hr
  · -- the slot holds the block already
    simp only [FS.iappendBlock, dif_pos hd, hslot, if_neg h0, Except.ok.injEq, Prod.mk.injEq] at hb
    obtain ⟨rfl, rfl, rfl⟩ := hb
    refine ⟨h, rfl, rfl, .direct k, by simp, toNat_ne_zero h0, ?_⟩
    rw [ref_self hi ht]
    rfl

/-- The indirect slot as `iappend` finds or takes it, and reads it: the indirect block,
held. -/
theorem Laid.loadIndirect (hi : inum < ninodes) (ht : typeOf din.type ≠ .free)
    (h : Laid img (Function.update ino inum (din.toInode inum))) {din₁ : DInode} {img₁ : Image}
    (h₁ : (if din.addrs indirectSlot = 0 then
        (({ din with addrs := Function.update din.addrs indirectSlot img.freeblock.toUInt32 } : DInode),
          ({ img with freeblock := img.freeblock + 1 } : Image))
      else (din, img)) = (din₁, img₁))
    (hr : img₁.rsect (din₁.addrs indirectSlot).toNat = .ok buf) :
    Laid img₁ (Function.update ino inum (din₁.toInode inum)) ∧ din₁.type = din.type ∧
      img₁.table = img.table ∧ din₁.addrs indirectSlot ≠ 0 ∧ buf = img₁.data (din₁.addrs indirectSlot).toNat := by
  by_cases h0 : din.addrs indirectSlot = 0
  · -- the slot is empty: `freeblock` is taken, and read, so it lies below `FSSIZE`
    rw [if_pos h0, Prod.mk.injEq] at h₁
    obtain ⟨rfl, rfl⟩ := h₁
    dsimp only at hr
    rw [Function.update_self, toNat_toUInt32_of_le h.le_size] at hr
    obtain ⟨hlt, rfl⟩ := Image.rsect_eq_ok _ h.le_size hr
    have hfb : img.freeblock < fssize := by rwa [h.nsect] at hlt
    refine ⟨h.allocIndirect hi ht hfb h0, rfl, rfl, ?_, ?_⟩
    · dsimp only
      rw [Function.update_self]
      intro e
      have h₀ := congrArg UInt32.toNat e
      rw [toNat_toUInt32_of_le h.le_size, UInt32.toNat_zero] at h₀
      exact h.freeblock_ne_zero h₀
    · dsimp only
      rw [Function.update_self, toNat_toUInt32_of_le h.le_size]
      exact Image.sector_of_data _ h.meta_le
  · rw [if_neg h0, Prod.mk.injEq] at h₁
    obtain ⟨rfl, rfl⟩ := h₁
    obtain ⟨hlo, hlt⟩ : nmeta ≤ (din.addrs indirectSlot).toNat ∧
        (din.addrs indirectSlot).toNat < img.freeblock := h.indirect_held hi ht h0
    obtain ⟨-, rfl⟩ := Image.rsect_eq_ok _ (hlt.le.trans h.le_size) hr
    exact ⟨h, rfl, rfl, h0, Image.sector_of_data _ hlo⟩

/-- The block of an entry of the indirect block that `iappend` finds or takes, and then
reads. -/
theorem Laid.iappendIndirect (hi : inum < ninodes) (ht : typeOf din.type ≠ .free)
    (h : Laid img (Function.update ino inum (din.toInode inum))) (hd : ¬ fbn < ndirect)
    (hfbn : fbn < maxfile) (hb : iappendBlock din img fbn = .ok (din', img', x))
    (hx : img'.rsect x = .ok buf) :
    Laid img' (Function.update ino inum (din'.toInode inum)) ∧ din'.type = din.type ∧
      img'.table = img.table ∧ ∃ p : Pos, p ≠ .indirect ∧ x ≠ 0 ∧
        FsState.ref mkfsSuperblock ⟨img'.fs, Function.update ino inum (din'.toInode inum)⟩ (inum, p) = x := by
  rw [FS.iappendBlock, dif_neg hd] at hb
  generalize hp : (if din.addrs indirectSlot = 0 then
      (({ din with addrs := Function.update din.addrs indirectSlot img.freeblock.toUInt32 } : DInode),
        ({ img with freeblock := img.freeblock + 1 } : Image))
    else (din, img)) = pr at hb
  obtain ⟨din₁, img₁⟩ := pr
  dsimp only at hb
  set ind := (din₁.addrs indirectSlot).toNat
  cases hr : img₁.rsect ind with
  | error e =>
    rw [hr] at hb
    cases hb
  | ok indirect =>
    rw [hr] at hb
    obtain ⟨h₁, hty, htab, h0, rfl⟩ := h.loadIndirect hi ht hp hr
    dsimp only at hb
    have ht₁ : typeOf din₁.type ≠ .free := hty ▸ ht
    have ht₁' : (din₁.toInode inum).type ≠ .free := ht₁
    set j : Fin nindirect := ⟨fbn - ndirect, by simp only [maxfile, ndirect] at hfbn hd ⊢; omega⟩
    obtain ⟨hlo, hlt⟩ : nmeta ≤ ind ∧ ind < img₁.freeblock := h₁.indirect_held hi ht₁' h0
    by_cases he : getWord (img₁.data ind) (4 * (fbn - ndirect)) = 0
    · -- the entry is empty: `freeblock` is taken, and read, so it lies below `FSSIZE`
      rw [if_pos he] at hb
      simp only [Except.ok.injEq, Prod.mk.injEq] at hb
      obtain ⟨rfl, rfl, rfl⟩ := hb
      rw [getWord_setWord_self, toNat_toUInt32_of_le h₁.le_size] at hx
      have hw := Image.wsect_of_data ({ img₁ with freeblock := img₁.freeblock + 1 } : Image)
        (setWord (img₁.data ind) (4 * (fbn - ndirect)) img₁.freeblock.toUInt32) hlo
        (hlt.le.trans h₁.le_size)
      have hfb : img₁.freeblock < fssize := by
        have := (Image.rsect_eq_ok _ h₁.le_size hx).1
        rw [hw] at this
        simp only [h₁.nsect] at this
        omega
      obtain ⟨hl, hr'⟩ := h₁.allocEntry hi ht₁' hfb h0 (j := j) he
      refine ⟨hl, hty, by rw [hw, htab], .entry j, by simp, ?_, ?_⟩
      · rw [getWord_setWord_self, toNat_toUInt32_of_le h₁.le_size]
        exact h₁.freeblock_ne_zero
      · rw [getWord_setWord_self, toNat_toUInt32_of_le h₁.le_size]
        exact hr'
    · -- the entry holds the block already
      rw [if_neg he] at hb
      simp only [Except.ok.injEq, Prod.mk.injEq] at hb
      obtain ⟨rfl, rfl, rfl⟩ := hb
      refine ⟨h₁, hty, htab, .entry j, by simp, toNat_ne_zero he, ?_⟩
      rw [ref_self hi ht₁']
      show (if din₁.addrs indirectSlot = 0 then 0 else (getWord (img₁.sector ind) (4 * j)).toNat) = _
      rw [if_neg h0, Image.sector_of_data _ hlo]

theorem freeinode_iappendBlock (hb : iappendBlock din img fbn = .ok (din', img', x)) :
    img'.freeinode = img.freeinode := by
  unfold iappendBlock at hb
  split_ifs at hb with hd <;> dsimp only at hb
  · -- a direct slot
    split_ifs at hb <;> cases hb <;> rfl
  all_goals
    -- the indirect block read, and its entry written with `wsect`
    split at hb
    · cases hb
    · split_ifs at hb <;> cases hb <;> simp

/-- **One block of `iappend`**, direct or through the indirect block. -/
theorem Laid.iappendBlock (hi : inum < ninodes) (ht : typeOf din.type ≠ .free)
    (h : Laid img (Function.update ino inum (din.toInode inum))) (hfbn : fbn < maxfile)
    (hb : iappendBlock din img fbn = .ok (din', img', x)) (hx : img'.rsect x = .ok buf) :
    Laid img' (Function.update ino inum (din'.toInode inum)) ∧ din'.type = din.type ∧
      img'.table = img.table ∧ ∃ p : Pos, p ≠ .indirect ∧ x ≠ 0 ∧
        FsState.ref mkfsSuperblock ⟨img'.fs, Function.update ino inum (din'.toInode inum)⟩ (inum, p) = x := by
  by_cases hd : fbn < ndirect
  · exact h.iappendDirect hi ht hd hb hx
  · exact h.iappendIndirect hi ht hd hfbn hb hx

/-- **The loop of `iappend`.** Each turn finds or takes a block the inode holds
(`Laid.iappendBlock`) and writes it, which moves no block held (`Laid.write_data`). By
induction on the fuel, as the loop recurses. -/
theorem Laid.iappendLoop {data : ℕ → UInt8} (hi : inum < ninodes) :
    ∀ {fuel n off p off' : ℕ} {din din' : DInode} {img img' : Image},
      typeOf din.type ≠ .free → Laid img (Function.update ino inum (din.toInode inum)) →
      iappendLoop data fuel n off p din img = .ok (off', din', img') →
      Laid img' (Function.update ino inum (din'.toInode inum)) ∧ din'.type = din.type ∧
        img'.table = img.table ∧ img'.freeinode = img.freeinode
  | 0, _, _, _, _, _, _, _, _, _, h, hl => by
    cases hl
    exact ⟨h, rfl, rfl, rfl⟩
  | fuel + 1, n, off, p, off', din, din', img, img', ht, h, hl => by
    rw [FS.iappendLoop] at hl
    dsimp only at hl
    split_ifs at hl with hn hfbn
    · cases hl
      exact ⟨h, rfl, rfl, rfl⟩
    · cases hb : FS.iappendBlock din img (off / bsize) with
      | error e =>
        rw [hb] at hl
        cases hl
      | ok t =>
        obtain ⟨din₁, img₁, x⟩ := t
        rw [hb] at hl
        dsimp only at hl
        cases hx : img₁.rsect x with
        | error e =>
          rw [hx] at hl
          cases hl
        | ok buf =>
          rw [hx] at hl
          dsimp only at hl
          obtain ⟨h₁, hty, htab, q, hq, hx0, hqx⟩ := h.iappendBlock hi ht hfbn hb hx
          have hne : FsState.ref mkfsSuperblock ⟨img₁.fs, Function.update ino inum (din₁.toInode inum)⟩
              (inum, q) ≠ 0 := by
            rw [hqx]
            exact hx0
          obtain ⟨hlo, hlt⟩ := h₁.held hne
          rw [hqx] at hlo hlt
          -- the block written is held at `(inum, q)`, not as an indirect block
          have h₂ := fun buf' => h₁.write_data hne hq buf'
          rw [hqx] at h₂
          obtain ⟨h₃, hty₃, htab₃, hfi₃⟩ := Laid.iappendLoop hi (hty ▸ ht) (h₂ _) hl
          refine ⟨h₃, hty₃.trans hty, ?_, ?_⟩
          · rw [htab₃, Image.table_wsect_of_data _ _ hlo (hlt.le.trans h₁.le_size), htab]
          · rw [hfi₃, Image.freeinode_wsect, freeinode_iappendBlock hb]

end Append

/-! ### The calls of `mkfs` -/

/-- The kernel reads only the inodes below `NINODES`. -/
theorem ref_congr_inodes {sb : Superblock} {s : Fs} {ino ino' : ℕ → Inode}
    (h : ∀ i < sb.ninodes, ino' i = ino i) :
    FsState.ref sb ⟨s, ino'⟩ = FsState.ref sb ⟨s, ino⟩ := by
  funext x
  obtain ⟨j, p⟩ := x
  by_cases hj : j < sb.ninodes
  · have ha : FsState.Allocated sb ⟨s, ino'⟩ j ↔ FsState.Allocated sb ⟨s, ino⟩ j := by
      simp [FsState.Allocated, h j hj]
    unfold FsState.ref
    by_cases ha' : FsState.Allocated sb ⟨s, ino⟩ j
    · rw [if_pos (ha.mpr ha'), if_pos ha']
      exact congrArg (refAt s.blocks · p) (h j hj)
    · rw [if_neg (mt ha.mp ha'), if_neg ha']
  · simp [FsState.ref, FsState.Allocated, hj]

theorem typeOf_code (t : IType) : typeOf t.code = t := by
  cases t <;> rfl

/-- What `mkfs` keeps from one call to the next: the layout holds for the inodes of the table,
and the inodes from `freeinode` on are free. -/
structure Built (img : Image) : Prop where
  laid : Laid img (tableInodes img.table)
  free : ∀ i, img.freeinode ≤ i → typeOf (img.table i).type = .free

section Built

variable {img img' : Image} {inum : ℕ}

/-- **`iappend`** to an inode of the kernel in use keeps what `mkfs` keeps, every type of the
table and `freeinode`. -/
theorem Built.iappend {data : List UInt8} (h : Built img) (hi : inum < ninodes)
    (ht : typeOf (img.table inum).type ≠ .free) (ha : iappend inum data img = .ok img') :
    Built img' ∧ (∀ i, (img'.table i).type = (img.table i).type) ∧ img'.freeinode = img.freeinode := by
  rw [FS.iappend, rinode_of_lt hi h.laid.nsect] at ha
  dsimp only at ha
  cases hl : iappendLoop (fun i => data.getD i 0) data.length data.length
      (img.table inum).size.toNat 0 (img.table inum) img with
  | error e =>
    rw [hl] at ha
    cases ha
  | ok r =>
    obtain ⟨off, din, img₁⟩ := r
    rw [hl] at ha
    dsimp only at ha
    obtain ⟨h₁, hty, htab, hfi⟩ := (h.laid.update_self inum).iappendLoop hi ht hl
    rw [winode_of_lt hi h₁.nsect] at ha
    cases ha
    have hin : inum < img.freeinode := by
      by_contra hle
      exact ht (h.free inum (Nat.le_of_not_lt hle))
    refine ⟨⟨?_, fun i hle => ?_⟩, fun i => ?_, hfi⟩
    · -- the size `iappend` writes holds no block
      rw [← htab] at h₁
      exact h₁.writeTable rfl rfl
    · dsimp only at hle ⊢
      rw [Function.update_of_ne (by omega), htab]
      exact h.free i (hfi ▸ hle)
    · dsimp only
      by_cases hii : i = inum
      · subst hii
        rw [Function.update_self]
        exact hty
      · rw [Function.update_of_ne hii, htab]

/-- Every chunk appended in turn. By induction on the chunks. -/
theorem Built.iappendAll (hi : inum < ninodes) :
    ∀ {cs : List (List UInt8)} {img img' : Image}, Built img → typeOf (img.table inum).type ≠ .free →
      iappendAll inum cs img = .ok img' →
      Built img' ∧ (∀ i, (img'.table i).type = (img.table i).type) ∧ img'.freeinode = img.freeinode
  | [], _, _, h, _, ha => by
    cases ha
    exact ⟨h, fun _ => rfl, rfl⟩
  | c :: cs, img, img', h, ht, ha => by
    rw [FS.iappendAll] at ha
    cases h₁ : FS.iappend inum c img with
    | error e =>
      rw [h₁] at ha
      cases ha
    | ok img₁ =>
      rw [h₁] at ha
      dsimp only at ha
      obtain ⟨hb₁, hty₁, hfi₁⟩ := h.iappend hi ht h₁
      obtain ⟨hb₂, hty₂, hfi₂⟩ := Built.iappendAll hi hb₁ (by rw [hty₁]; exact ht) ha
      exact ⟨hb₂, fun i => (hty₂ i).trans (hty₁ i), hfi₂.trans hfi₁⟩

/-- **`ialloc`** of a type in use: the inode `freeinode`, free until now, takes the type, with
no blocks. -/
theorem Built.ialloc {t : IType} (ht : t ≠ .free) (h : Built img) (hi : img.freeinode < ninodes)
    (ha : FS.ialloc t img = .ok (inum, img')) :
    Built img' ∧ inum = img.freeinode ∧ img'.freeinode = img.freeinode + 1 ∧
      typeOf (img'.table inum).type ≠ .free ∧ ∀ i ≠ inum, img'.table i = img.table i := by
  have hn : ({ img with freeinode := img.freeinode + 1 } : Image).nsect = fssize := h.laid.nsect
  rw [FS.ialloc, winode_of_lt hi hn] at ha
  cases ha
  set d₀ : DInode := ⟨t.code, 0, 0, 1, 0, fun _ => 0⟩
  -- the inode was free and is given no block: the blocks held stay
  have href : FsState.ref mkfsSuperblock
      ⟨img.fs, Function.update (tableInodes img.table) img.freeinode (d₀.toInode img.freeinode)⟩ =
      FsState.ref mkfsSuperblock ⟨img.fs, tableInodes img.table⟩ :=
    ref_update_of_empty rfl (ref_of_free (h.free _ le_rfl))
      (ref_of_addrs_zero (by simp [d₀, DInode.toInode]))
  have h₁ : Laid img (Function.update (tableInodes img.table) img.freeinode (d₀.toInode img.freeinode)) :=
    ⟨by rw [href]; exact h.laid.owns, h.laid.nsect, h.laid.le_size, h.laid.fresh⟩
  refine ⟨⟨?_, fun i hle => ?_⟩, rfl, rfl, ?_, fun i hii => Function.update_of_ne hii _ _⟩
  · dsimp only
    rw [tableInodes_update]
    exact h₁.of_data_eq rfl rfl rfl
  · dsimp only at hle ⊢
    rw [Function.update_of_ne (by omega)]
    exact h.free i (by omega)
  · dsimp only
    rw [Function.update_self, typeOf_code]
    exact ht

/-- **One input file**: its inode is `freeinode`, its entry goes in the root, and its contents
in its blocks. -/
theorem Built.addFile {root : ℕ} {f : List UInt8 × List UInt8} (h : Built img)
    (hr : root < img.freeinode) (hrt : typeOf (img.table root).type ≠ .free)
    (hi : img.freeinode < ninodes) (ha : addFile root img f = .ok img') :
    Built img' ∧ img'.freeinode = img.freeinode + 1 ∧ typeOf (img'.table root).type ≠ .free := by
  rw [FS.addFile] at ha
  cases hs : shortname f.1 with
  | none =>
    rw [hs] at ha
    cases ha
  | some name =>
    rw [hs] at ha
    dsimp only at ha
    cases hal : FS.ialloc .file img with
    | error e =>
      rw [hal] at ha
      cases ha
    | ok r =>
      obtain ⟨inum, img₁⟩ := r
      rw [hal] at ha
      dsimp only at ha
      obtain ⟨h₁, rfl, hfi₁, ht₁, hsame⟩ := h.ialloc (by decide) hi hal
      have hroot₁ : img₁.table root = img.table root := hsame root (by omega)
      cases hap : FS.iappend root (dirent img.freeinode name) img₁ with
      | error e =>
        rw [hap] at ha
        cases ha
      | ok img₂ =>
        rw [hap] at ha
        dsimp only at ha
        obtain ⟨h₂, hty₂, hfi₂⟩ := h₁.iappend (by omega) (by rw [hroot₁]; exact hrt) hap
        obtain ⟨h₃, hty₃, hfi₃⟩ := h₂.iappendAll hi (by rw [hty₂]; exact ht₁) ha
        refine ⟨h₃, by rw [hfi₃, hfi₂, hfi₁], ?_⟩
        rw [hty₃, hty₂, hroot₁]
        exact hrt

/-- Every input file in turn, while inodes below `NINODES` remain. By induction on the files. -/
theorem Built.addFiles {root : ℕ} :
    ∀ {files : List (List UInt8 × List UInt8)} {img img' : Image}, Built img →
      root < img.freeinode → typeOf (img.table root).type ≠ .free →
      img.freeinode + files.length ≤ ninodes → addFiles root files img = .ok img' →
      Built img' ∧ typeOf (img'.table root).type ≠ .free
  | [], _, _, h, _, hrt, _, ha => by
    cases ha
    exact ⟨h, hrt⟩
  | f :: fs, img, img', h, hr, hrt, hlen, ha => by
    rw [FS.addFiles] at ha
    cases hf : FS.addFile root img f with
    | error e =>
      rw [hf] at ha
      cases ha
    | ok img₁ =>
      rw [hf] at ha
      dsimp only at ha
      rw [List.length_cons] at hlen
      obtain ⟨h₁, hfi₁, hrt₁⟩ := h.addFile hr hrt (by omega) hf
      exact Built.addFiles h₁ (by omega) hrt₁ (by omega) ha

/-! ### The bitmap, and the whole of `mkfs` -/

/-- `balloc(used)` marks the blocks below `used`. By induction on `used`, as the loop of
`balloc` runs. -/
theorem isFree_markUsedBlocks (n j : ℕ) : isFree (markUsedBlocks n) j = decide (n ≤ j) := by
  induction n with
  | zero => simp [markUsedBlocks, isFree, bitClear_eq]
  | succ n ih =>
    rw [markUsedBlocks, List.range_succ, List.foldl_append, List.foldl_cons, List.foldl_nil,
      ← markUsedBlocks, isFree_markUsed, ih]
    by_cases hj : n = j
    · simp [hj]
    · simp [hj]
      omega

theorem not_inodeSector_bmapstart : ¬ InodeSector mkfsSuperblock.bmapstart := by decide

/-- Every block of the file system has its bit in the one bitmap block. -/
theorem bblock_eq_bmapstart {b : ℕ} (hb : b < fssize) :
    bblock b mkfsSuperblock = mkfsSuperblock.bmapstart := by
  rw [fssize_eq] at hb
  simp only [bblock, bpb, bsize]
  omega

/-- Over the bitmap `mkfs` writes, the blocks marked are those below `used`. -/
theorem used_markUsedBlocks {blocks : ℕ → ℕ → UInt8} {n b : ℕ}
    (hbm : blocks mkfsSuperblock.bmapstart = markUsedBlocks n) (hb : b < fssize) :
    Used mkfsSuperblock blocks b ↔ b < n := by
  have hmod : b % bpb = b := Nat.mod_eq_of_lt (by rw [fssize_eq] at hb; simp only [bpb, bsize]; omega)
  rw [Used, bblock_eq_bmapstart hb, hbm, hmod, isFree_markUsedBlocks]
  simp

/-- **`balloc(freeblock)`** over a laid out image: the bitmap block is no block held, and it
marks the blocks below `freeblock`, so the kernel's view of the image has block ownership. -/
theorem Laid.owned_balloc {img : Image} (h : Laid img (tableInodes img.table)) :
    Owned mkfsSuperblock ⟨(img.wsect mkfsSuperblock.bmapstart (markUsedBlocks img.freeblock)).fs,
      (img.wsect mkfsSuperblock.bmapstart (markUsedBlocks img.freeblock)).inodes⟩ := by
  set img' := img.wsect mkfsSuperblock.bmapstart (markUsedBlocks img.freeblock)
  have hw : img' = { img with
      data := Function.update img.data mkfsSuperblock.bmapstart (markUsedBlocks img.freeblock)
      nsect := max img.nsect (mkfsSuperblock.bmapstart + 1) } :=
    Image.wsect_of_not_inodeSector img _ not_inodeSector_bmapstart (by decide)
  -- the kernel reads the inodes of the table
  have hino : FsState.ref mkfsSuperblock ⟨img'.fs, img'.inodes⟩ =
      FsState.ref mkfsSuperblock ⟨img'.fs, tableInodes img'.table⟩ :=
    ref_congr_inodes fun i hi => Image.inodes_of_sector img' (inodeSector_iblock hi)
  have htab : img'.table = img.table := by rw [hw]
  -- no inode holds the bitmap block as its indirect block
  have hblk : FsState.ref mkfsSuperblock ⟨img'.fs, tableInodes img.table⟩ =
      FsState.ref mkfsSuperblock ⟨img.fs, tableInodes img.table⟩ :=
    h.ref_congr fun j hj => by
      have hlo := (h.held hj).1
      rw [nmeta_eq] at hlo
      rw [hw]
      exact Function.update_of_ne (by rw [bmapstart_eq]; omega) _ _
  have hbm : img'.fs.blocks mkfsSuperblock.bmapstart = markUsedBlocks img.freeblock := by
    rw [hw]
    show (if InodeSector mkfsSuperblock.bmapstart then slotBytes img.table mkfsSuperblock.bmapstart else
      Function.update img.data mkfsSuperblock.bmapstart (markUsedBlocks img.freeblock)
        mkfsSuperblock.bmapstart) = _
    rw [if_neg not_inodeSector_bmapstart, Function.update_self]
  unfold Owned
  rw [hino, htab, hblk, show dataStart mkfsSuperblock = nmeta by decide]
  exact h.owns.congr (fun _ => rfl) (fun b hb => used_markUsedBlocks hbm hb) (by decide)

/-- **The end of `mkfs`**: the root's size is no block either. -/
theorem Built.fixRootAndBalloc {img img' : Image} {root : ℕ} (h : Built img) (hr : root < ninodes)
    (ha : FS.fixRootAndBalloc root img = .ok img') :
    Owned mkfsSuperblock ⟨img'.fs, img'.inodes⟩ := by
  rw [FS.fixRootAndBalloc, rinode_of_lt hr h.laid.nsect] at ha
  dsimp only at ha
  rw [winode_of_lt hr h.laid.nsect] at ha
  dsimp only at ha
  split_ifs at ha
  cases ha
  refine Laid.owned_balloc ((h.laid.update_self root).writeTable ?_ ?_) <;> rfl

/-- The image `mkfs` starts from: `FSSIZE` zero sectors, every inode free. -/
theorem built_init : Built ⟨fun _ => ⟨0, 0, 0, 0, 0, fun _ => 0⟩, fun _ _ => 0, fssize, 1, nmeta⟩ where
  laid := ⟨Ownership.Owns.empty (fun x => ref_of_free rfl x.2) fun _ hb => hb, rfl, by decide,
    fun _ _ => rfl⟩
  free _ _ := rfl

/-- **`mkfs` lays out the blocks it hands out.** On at most `NINODES - 2` input files, the
image `mkfs` completes has block ownership, as the kernel reads it. -/
theorem mkfs_owned {files : List (List UInt8 × List UInt8)} {img : Image}
    (hlen : files.length + 2 ≤ ninodes) (h : mkfs files = .ok img) :
    Owned mkfsSuperblock ⟨img.fs, img.inodes⟩ := by
  rw [mkfs] at h
  -- the root directory is inode 1, and `.` and `..` are its first entries
  split at h
  · cases h
  next root img₁ h₁ =>
    obtain ⟨b₁, hroot, hfi₁, ht₁, -⟩ := built_init.ialloc (by decide) (by decide) h₁
    have hroot : root = 1 := hroot
    subst hroot
    split at h
    · cases h
    next img₂ h₂ =>
      obtain ⟨b₂, hty₂, hfi₂⟩ := b₁.iappend (by decide) ht₁ h₂
      split at h
      · cases h
      next img₃ h₃ =>
        obtain ⟨b₃, hty₃, hfi₃⟩ := b₂.iappend (by decide) (by rw [hty₂]; exact ht₁) h₃
        have hfi : img₃.freeinode = 2 := by rw [hfi₃, hfi₂, hfi₁]
        split at h
        · cases h
        next img₄ h₄ =>
          obtain ⟨b₄, -⟩ := b₃.addFiles (by omega) (by rw [hty₃, hty₂]; exact ht₁) (by omega) h₄
          exact b₄.fixRootAndBalloc (by decide) h

end Built

end Xv6Lab.FS
