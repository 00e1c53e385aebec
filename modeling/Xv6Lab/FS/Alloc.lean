import Xv6Lab.FS.Ops

/-!
# The allocator against the bitmap and the block maps

What `balloc`, `bfree` and the changes to one inode's block map do to the marks of the free
bitmap (`Used`) and to the blocks the inodes hold (`FsState.ref`).

* `balloc_cases` — while the metadata blocks are marked, `balloc` finds nothing and changes
  nothing, or hands out a `Fresh` block: an unmarked data block, now marked and zeroed, with
  no other data block and no other mark changed.
* `bfree_of_used` — `bfree` of a marked block succeeds and clears that mark alone.
* `ref_update_of_refAt` — a change to the block map of one inode is a change of `ref` at its
  positions alone, when the disk keeps the indirect blocks of the others.
-/

namespace Xv6Lab.FS

open ByteMap

variable {sb : Superblock}

theorem toNat_ne_zero {a : UInt32} (h : a ≠ 0) : a.toNat ≠ 0 :=
  fun e => h (UInt32.toNat_inj.mp (by simpa using e))

theorem toNat_toUInt32 (hsb : SbOK sb) {b : ℕ} (hb : b < sb.size) : b.toUInt32.toNat = b := by
  rw [Nat.toUInt32, UInt32.toNat_ofNat']
  exact Nat.mod_eq_of_lt (lt_trans hb hsb.size_lt)

/-! ### Marks of the bitmap -/

/-- Two blocks with the same bitmap block and the same bit are one block. -/
theorem eq_of_bblock_eq {x b : ℕ} (h : bblock x sb = bblock b sb) (hm : x % bpb = b % bpb) :
    x = b := by
  unfold bblock at h
  have hd : x / bpb = b / bpb := by omega
  rw [← Nat.div_add_mod x bpb, ← Nat.div_add_mod b bpb, hd, hm]

theorem used_update_of_ne {blocks : ℕ → ℕ → UInt8} {x y : ℕ} (v : ℕ → UInt8)
    (h : bblock x sb ≠ y) : Used sb (Function.update blocks y v) x ↔ Used sb blocks x := by
  unfold Used
  rw [Function.update_of_ne h]

/-- A write to a data block leaves the marks of every block of the disk. -/
theorem used_update_of_data (hsb : SbOK sb) {blocks : ℕ → ℕ → UInt8} {x y : ℕ} (v : ℕ → UInt8)
    (hy : dataStart sb ≤ y) (hx : x < sb.size) :
    Used sb (Function.update blocks y v) x ↔ Used sb blocks x :=
  used_update_of_ne v (by have := hsb.bitmap_meta x hx; omega)

/-- The bitmap with the mark of `b` set. -/
theorem used_markUsed (blocks : ℕ → ℕ → UInt8) (b x : ℕ) :
    Used sb (Function.update blocks (bblock b sb) (markUsed (blocks (bblock b sb)) (b % bpb))) x ↔
      x = b ∨ Used sb blocks x := by
  by_cases hbb : bblock x sb = bblock b sb
  · unfold Used
    rw [hbb, Function.update_self, isFree_markUsed]
    by_cases hxb : x = b
    · subst hxb
      simp
    · -- another bit of the same bitmap block
      have hm : b % bpb ≠ x % bpb := fun hm => hxb (eq_of_bblock_eq hbb hm.symm)
      simp [hm, hxb]
  · have hxb : x ≠ b := fun e => hbb (e ▸ rfl)
    rw [used_update_of_ne _ hbb]
    simp [hxb]

/-- The bitmap with the mark of `b` cleared. -/
theorem used_markFree (blocks : ℕ → ℕ → UInt8) (b x : ℕ) :
    Used sb (Function.update blocks (bblock b sb) (markFree (blocks (bblock b sb)) (b % bpb))) x ↔
      x ≠ b ∧ Used sb blocks x := by
  by_cases hbb : bblock x sb = bblock b sb
  · unfold Used
    rw [hbb, Function.update_self, isFree_markFree]
    by_cases hxb : x = b
    · subst hxb
      simp
    · have hm : b % bpb ≠ x % bpb := fun hm => hxb (eq_of_bblock_eq hbb hm.symm)
      simp [hm, hxb]
  · have hxb : x ≠ b := fun e => hbb (e ▸ rfl)
    rw [used_update_of_ne _ hbb]
    simp [hxb]

/-! ### `balloc` and `bfree` -/

/-- `balloc` handed out block `b`, going from `s` to `s'`: an unmarked data block, now marked
and zeroed; no other data block changed, and no other mark. -/
structure Fresh (sb : Superblock) (s : Fs) (b : ℕ) (s' : Fs) : Prop where
  lo : dataStart sb ≤ b
  hi : b < sb.size
  free : ¬ Used sb s.blocks b
  used : ∀ x < sb.size, Used sb s'.blocks x ↔ x = b ∨ Used sb s.blocks x
  zero : s'.blocks b = fun _ => 0
  frame : ∀ y, dataStart sb ≤ y → y ≠ b → s'.blocks y = s.blocks y

theorem Fresh.ne_zero (hsb : SbOK sb) {s s' : Fs} {b : ℕ} (h : Fresh sb s b s') : b ≠ 0 := by
  have := h.lo
  have := hsb.data_pos
  omega

/-- What `balloc` does, while every metadata block is marked. -/
theorem balloc_cases (hsb : SbOK sb) {s : Fs} (hres : ∀ x < dataStart sb, Used sb s.blocks x) :
    balloc sb s = (0, s) ∨ ∃ b s', balloc sb s = (b, s') ∧ Fresh sb s b s' := by
  unfold balloc
  cases hscan : ballocScan sb s.blocks with
  | none => exact .inl rfl
  | some b =>
    right
    obtain ⟨hb, hfree⟩ := ballocScan_eq_some hscan
    have hnu : ¬ Used sb s.blocks b := by simp [Used, hfree]
    -- the scan passes over the marked metadata blocks
    have hlo : dataStart sb ≤ b := by
      by_contra hlt
      exact hnu (hres b (by omega))
    have hbb := hsb.bitmap_meta b hb
    refine ⟨b, _, rfl, hlo, hb, hnu, fun x hx => ?_, ?_, fun y hy hyb => ?_⟩
    · have hxb : bblock x sb ≠ b := by
        have := hsb.bitmap_meta x hx
        omega
      rw [bzero, Fs.put_blocks, used_update_of_ne _ hxb, Fs.put_blocks, used_markUsed]
    · rw [bzero, Fs.put_blocks_self]
    · have hybb : y ≠ bblock b sb := by omega
      rw [bzero, Fs.put_blocks_of_ne _ _ hyb, Fs.put_blocks_of_ne _ _ hybb]

/-- `bfree` of a marked block. -/
theorem bfree_of_used {b : ℕ} {s : Fs} (hb : Used sb s.blocks b) :
    bfree sb b s = .ok (s.put (bblock b sb) (markFree (s.blocks (bblock b sb)) (b % bpb))) := by
  unfold Used at hb
  simp [bfree, hb]

/-! ### Block maps -/

/-- The block map reads the disk at the indirect block alone. -/
theorem refAt_congr {blocks blocks' : ℕ → ℕ → UInt8} {ip : Inode}
    (h : ip.addrs indirectSlot ≠ 0 →
      blocks' (ip.addrs indirectSlot).toNat = blocks (ip.addrs indirectSlot).toNat) :
    refAt blocks' ip = refAt blocks ip := by
  funext p
  cases p with
  | direct k => rfl
  | indirect => rfl
  | entry j =>
    unfold refAt
    split_ifs with h0
    · rfl
    · rw [h h0]

theorem castSucc_ne_indirectSlot (k : Fin ndirect) : k.castSucc ≠ indirectSlot :=
  Fin.ne_of_val_ne (Nat.ne_of_lt k.isLt)

/-- A direct slot set. -/
theorem refAt_setAddr_direct (blocks : ℕ → ℕ → UInt8) (ip : Inode) (k : Fin ndirect)
    (a : UInt32) :
    refAt blocks (ip.setAddr k.castSucc a) = Function.update (refAt blocks ip) (.direct k) a.toNat := by
  have hind : indirectSlot ≠ k.castSucc := (castSucc_ne_indirectSlot k).symm
  funext p
  cases p with
  | direct k' =>
    by_cases hk : k' = k
    · subst hk
      simp [refAt, Inode.setAddr]
    · simp [refAt, Inode.setAddr, hk]
  | indirect => simp [refAt, Inode.setAddr, Function.update_of_ne hind]
  | entry j => simp [refAt, Inode.setAddr, Function.update_of_ne hind]

/-- The indirect slot set, to a zeroed block, where there was none. -/
theorem refAt_setAddr_indirect {blocks : ℕ → ℕ → UInt8} {ip : Inode} {a : UInt32}
    (h0 : ip.addrs indirectSlot = 0) (hz : blocks a.toNat = fun _ => 0) :
    refAt blocks (ip.setAddr indirectSlot a) = Function.update (refAt blocks ip) .indirect a.toNat := by
  funext p
  cases p with
  | direct k =>
    simp [refAt, Inode.setAddr, Function.update_of_ne (castSucc_ne_indirectSlot k)]
  | indirect => simp [refAt, Inode.setAddr]
  | entry j =>
    -- the entries of a zeroed block are all empty, as there were none before
    simp [refAt, Inode.setAddr, h0, hz, getWord_zero]

/-- An entry of the indirect block set. -/
theorem refAt_setEntry {blocks : ℕ → ℕ → UInt8} {ip : Inode} (h0 : ip.addrs indirectSlot ≠ 0)
    (j : Fin nindirect) (a : UInt32) :
    refAt (Function.update blocks (ip.addrs indirectSlot).toNat
        (setWord (blocks (ip.addrs indirectSlot).toNat) (4 * j) a)) ip =
      Function.update (refAt blocks ip) (.entry j) a.toNat := by
  funext p
  cases p with
  | direct k => simp [refAt]
  | indirect => simp [refAt]
  | entry j' =>
    by_cases hj : j' = j
    · subst hj
      simp [refAt, h0, getWord_setWord_self]
    · have hfar : 4 * j.val + 4 ≤ 4 * j'.val ∨ 4 * j'.val + 4 ≤ 4 * j.val := by
        have := Fin.val_ne_of_ne hj
        omega
      simp [refAt, h0, hj, getWord_setWord_of_far _ _ _ hfar]

/-- The position of block `bn` of an inode in its block map: a direct slot, or an entry of
the indirect block; `none` from `MAXFILE` on. -/
def blockPos (bn : ℕ) : Option Pos :=
  if h : bn < ndirect then some (.direct ⟨bn, h⟩)
  else if h' : bn - ndirect < nindirect then some (.entry ⟨bn - ndirect, h'⟩)
  else none

theorem blockPos_ne_indirect {bn : ℕ} {p : Pos} (h : blockPos bn = some p) : p ≠ .indirect := by
  unfold blockPos at h
  split_ifs at h <;> cases h <;> simp

/-- `blockAddr` reads the block map at the block's position. -/
theorem blockAddr_eq_refAt (s : Fs) (ip : Inode) (bn : ℕ) :
    blockAddr s ip bn = match blockPos bn with
      | some p => refAt s.blocks ip p
      | none => 0 := by
  unfold blockAddr blockPos
  by_cases hd : bn < ndirect
  · simp only [dif_pos hd]
    rfl
  · simp only [dif_neg hd]
    by_cases hn : bn - ndirect < nindirect
    · simp only [dif_pos hn, refAt]
      by_cases h0 : ip.addrs indirectSlot = 0 <;> simp [h0, hn]
    · simp [hn]

/-! ### The blocks held, in the state -/

/-- The blocks held depend on the disk through the indirect blocks held alone. -/
theorem ref_congr_blocks {τ : FsState} {s : Fs}
    (h : ∀ j, τ.ref sb (j, .indirect) ≠ 0 →
      s.blocks (τ.ref sb (j, .indirect)) = τ.fs.blocks (τ.ref sb (j, .indirect))) :
    FsState.ref sb ⟨s, τ.inodes⟩ = τ.ref sb := by
  funext x
  obtain ⟨j, p⟩ := x
  unfold FsState.ref
  by_cases ha : τ.Allocated sb j
  · have ha' : FsState.Allocated sb ⟨s, τ.inodes⟩ j := ha
    rw [if_pos ha', if_pos ha, refAt_congr]
    intro h0
    have hj := h j
    simp only [FsState.ref, if_pos ha, refAt] at hj
    exact hj (toNat_ne_zero h0)
  · have ha' : ¬ FsState.Allocated sb ⟨s, τ.inodes⟩ j := ha
    rw [if_neg ha', if_neg ha]

/-- A change to the block map of inode `i` alone, at position `p`, with the disk changed at no
indirect block another inode holds. -/
theorem ref_update_of_refAt {inodes : ℕ → Inode} {i : ℕ} {ip ip' : Inode} {s s' : Fs} {p : Pos}
    {v : ℕ} (hi : i < sb.ninodes) (ht : ip.type ≠ .free) (ht' : ip'.type = ip.type)
    (hrefAt : refAt s'.blocks ip' = Function.update (refAt s.blocks ip) p v)
    (hothers : ∀ j ≠ i, FsState.ref sb ⟨s, Function.update inodes i ip⟩ (j, .indirect) ≠ 0 →
      s'.blocks (FsState.ref sb ⟨s, Function.update inodes i ip⟩ (j, .indirect)) =
        s.blocks (FsState.ref sb ⟨s, Function.update inodes i ip⟩ (j, .indirect))) :
    FsState.ref sb ⟨s', Function.update inodes i ip'⟩ =
      Function.update (FsState.ref sb ⟨s, Function.update inodes i ip⟩) (i, p) v := by
  funext x
  obtain ⟨j, q⟩ := x
  by_cases hj : j = i
  · -- inode `i` itself: its new block map
    subst hj
    have ha : FsState.Allocated sb ⟨s, Function.update inodes j ip⟩ j := by
      simp [FsState.Allocated, hi, ht]
    have ha' : FsState.Allocated sb ⟨s', Function.update inodes j ip'⟩ j := by
      simp [FsState.Allocated, hi, ht, ht']
    by_cases hq : q = p
    · subst hq
      simp only [FsState.ref, if_pos ha', Function.update_self, hrefAt]
    · have hne : ((j, q) : ℕ × Pos) ≠ (j, p) := by simp [hq]
      rw [Function.update_of_ne hne]
      simp only [FsState.ref, if_pos ha', if_pos ha, Function.update_self, hrefAt,
        Function.update_of_ne hq]
  · -- another inode: the same inode, over a disk that keeps its indirect block
    have hne : ((j, q) : ℕ × Pos) ≠ (i, p) := by simp [hj]
    rw [Function.update_of_ne hne]
    have hkeep := hothers j hj
    simp only [FsState.ref, FsState.Allocated, Function.update_of_ne hj] at hkeep ⊢
    split_ifs with ha
    · rw [refAt_congr]
      intro h0
      simp only [if_pos ha, refAt] at hkeep
      exact hkeep (toNat_ne_zero h0)
    · rfl

end Xv6Lab.FS
