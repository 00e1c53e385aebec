import Xv6Lab.FS.Safety

/-!
# No holes below a file's size

`fileread` calls `readi` without `begin_op`, so `readi` must never reach `balloc` or
`log_write`: every block of an inode below its size must have an address (`NoHoles`).

* `readi_of_noHolesAt` — over an inode with no holes, `readi` changes neither the inode nor
  the disk.
* `step_noHoles` — while block ownership holds, every call keeps `NoHoles`; `writei` grows an
  inode's size no further than the blocks it has mapped.
* `no_holes_of_reachable` — from a state with block ownership and no holes, no state a run
  reaches has a hole, and `readi` there allocates nothing and writes nothing.
* `shared_block_hole` — without ownership, no holes is not kept: a write to a data block that
  is also another file's indirect block empties that file's entries.
-/

namespace Xv6Lab.FS

open ByteMap

variable {sb : Superblock}

/-- Every block of `ip` that starts below its size has an address. -/
def NoHolesAt (s : Fs) (ip : Inode) : Prop :=
  ∀ k, k * bsize < ip.size.toNat → blockAddr s ip k ≠ 0

/-- No allocated inode has a hole below its size. -/
def NoHoles (sb : Superblock) (σ : FsState) : Prop :=
  ∀ i, σ.Allocated sb i → NoHolesAt σ.fs (σ.inodes i)

/-! ### Holes and the blocks held -/

theorem blockAddr_ne_zero_iff {s : Fs} {ip : Inode} {k : ℕ} :
    blockAddr s ip k ≠ 0 ↔ ∃ p, blockPos k = some p ∧ refAt s.blocks ip p ≠ 0 := by
  rw [blockAddr_eq_refAt]
  cases blockPos k with
  | none => simp
  | some p => simp

theorem ref_of_allocated {τ : FsState} {j : ℕ} (ha : τ.Allocated sb j) (p : Pos) :
    τ.ref sb (j, p) = refAt τ.fs.blocks (τ.inodes j) p := if_pos ha

/-- An allocated inode has no holes when the blocks below its size are held. -/
theorem noHolesAt_iff {τ : FsState} {j : ℕ} (ha : τ.Allocated sb j) :
    NoHolesAt τ.fs (τ.inodes j) ↔ Filled (τ.ref sb) j (τ.inodes j).size.toNat := by
  unfold NoHolesAt Filled
  simp only [blockAddr_ne_zero_iff, ref_of_allocated ha]

theorem not_noHoles {σ : FsState} {i k : ℕ} (ha : σ.Allocated sb i)
    (hk : k * bsize < (σ.inodes i).size.toNat) (h0 : blockAddr σ.fs (σ.inodes i) k = 0) :
    ¬ NoHoles sb σ :=
  fun hn => hn i ha k hk h0

/-- A change to inode `i` alone that keeps the blocks every other inode holds. -/
theorem NoHoles.update {σ : FsState} (hn : NoHoles sb σ) {i : ℕ} {ip' : Inode} {s' : Fs}
    (hk : ∀ j ≠ i, ∀ p, σ.ref sb (j, p) ≠ 0 →
      FsState.ref sb ⟨s', Function.update σ.inodes i ip'⟩ (j, p) = σ.ref sb (j, p))
    (hi : i < sb.ninodes → ip'.type ≠ .free → NoHolesAt s' ip') :
    NoHoles sb ⟨s', Function.update σ.inodes i ip'⟩ := by
  intro j hj
  by_cases hji : j = i
  · subst hji
    have ha := hj
    simp only [FsState.Allocated, Function.update_self] at ha
    simpa using hi ha.1 ha.2
  · have hσj : σ.Allocated sb j := by
      simpa [FsState.Allocated, Function.update_of_ne hji] using hj
    rw [noHolesAt_iff hj]
    have hf := (noHolesAt_iff hσj).mp (hn j hσj)
    intro k hk'
    simp only [Function.update_of_ne hji] at hk'
    obtain ⟨p, hp, hr⟩ := hf k hk'
    exact ⟨p, hp, by rw [hk j hji p hr]; exact hr⟩

/-! ### `readi` -/

/-- `bmap` of a block that has an address: the address, with nothing allocated. -/
theorem bmap_of_blockAddr {ip : Inode} {bn : ℕ} {s : Fs} (h : blockAddr s ip bn ≠ 0) :
    bmap sb ip bn s = .ok (blockAddr s ip bn, ip, s) := by
  by_cases hd : bn < ndirect
  · have h0 : ip.addrs (directSlot bn hd) ≠ 0 := fun e => h (by rw [blockAddr, dif_pos hd, e]; rfl)
    simp [bmap, blockAddr, hd, h0]
  · have hn : bn - ndirect < nindirect ∧ ip.addrs indirectSlot ≠ 0 := by
      by_contra hn
      exact h (by rw [blockAddr, dif_neg hd, if_neg hn])
    have h0 : getWord (s.blocks (ip.addrs indirectSlot).toNat) (4 * (bn - ndirect)) ≠ 0 :=
      fun e => h (by rw [blockAddr, dif_neg hd, if_pos hn, e]; rfl)
    simp [bmap, bmapIndirect, blockAddr, hd, hn.1, hn.2, h0]

/-- The loop of `readi` over blocks below the size of an inode with no holes. -/
theorem readLoop_of_noHolesAt {ip : Inode} {s : Fs} (hn : NoHolesAt s ip) {n fuel tot off dst : ℕ}
    {mem : Mem} (hle : off + (n - tot) ≤ ip.size.toNat) {r : ℤ} {ip' : Inode} {s' : Fs}
    {mem' : Mem} (hr : readLoop sb n fuel tot off dst ip s mem = .ok (r, ip', s', mem')) :
    ip' = ip ∧ s' = s := by
  induction fuel generalizing tot off dst mem with
  | zero =>
    cases hr
    exact ⟨rfl, rfl⟩
  | succ fuel ih =>
    unfold readLoop at hr
    split_ifs at hr with htot
    · have hblock : blockAddr s ip (off / bsize) ≠ 0 :=
        hn _ (lt_of_le_of_lt (Nat.div_mul_le_self off bsize) (by omega))
      rw [bmap_of_blockAddr hblock] at hr
      dsimp only at hr
      rw [if_neg hblock] at hr
      split at hr
      · cases hr
        exact ⟨rfl, rfl⟩
      · refine ih ?_ hr
        have := min_le_left (n - tot) (bsize - off % bsize)
        omega
    · cases hr
      exact ⟨rfl, rfl⟩

/-- **`readi` over an inode with no holes allocates nothing and passes nothing to
`log_write`**: the inode and the disk are as they were. -/
theorem readi_of_noHolesAt {ip : Inode} {s : Fs} (hn : NoHolesAt s ip) {mem : Mem} {dst : ℕ}
    {off n : UInt32} {r : ℤ} {ip' : Inode} {s' : Fs} {mem' : Mem}
    (hr : readi sb ip mem dst off n s = .ok (r, ip', s', mem')) : ip' = ip ∧ s' = s := by
  unfold readi at hr
  split_ifs at hr with hoff hend
  · cases hr
    exact ⟨rfl, rfl⟩
  · -- the count is cut to the size
    have hle : off ≤ ip.size := by
      have hgt : ¬ off > ip.size := fun h' => hoff (.inl h')
      rw [gt_iff_lt, UInt32.lt_iff_toNat_lt] at hgt
      exact UInt32.le_iff_toNat_le.mpr (by omega)
    refine readLoop_of_noHolesAt hn ?_ hr
    rw [UInt32.toNat_sub_of_le _ _ hle]
    have := UInt32.le_iff_toNat_le.mp hle
    omega
  · have hadd := toNat_add_of_not_lt fun h' => hoff (.inr h')
    refine readLoop_of_noHolesAt hn ?_ hr
    rw [gt_iff_lt, UInt32.lt_iff_toNat_lt] at hend
    omega

/-! ### Every call -/

/-- **While block ownership holds, every call keeps `NoHoles`.** -/
theorem step_noHoles (hsb : SbOK sb) {σ σ' : FsState} (h : Owned sb σ) (hn : NoHoles sb σ)
    {op : Op} (hst : σ.step sb op = some (.ok σ')) : NoHoles sb σ' := by
  have hσ : ∀ i, Owned sb ⟨σ.fs, Function.update σ.inodes i (σ.inodes i)⟩ := fun i => by
    rw [Function.update_eq_self]
    exact h
  have hself : ∀ i, (⟨σ.fs, Function.update σ.inodes i (σ.inodes i)⟩ : FsState) = σ := fun i => by
    rw [Function.update_eq_self]
  cases op with
  | readi i mem dst off n =>
    simp only [FsState.step] at hst
    split_ifs at hst with ha
    cases hr : readi sb (σ.inodes i) mem dst off n σ.fs with
    | error e =>
      rw [hr] at hst
      cases hst
    | ok r =>
      obtain ⟨c, ip', s', mem'⟩ := r
      rw [hr] at hst
      cases hst
      obtain ⟨rfl, rfl⟩ := readi_of_noHolesAt (hn i ha) hr
      dsimp only
      rw [hself]
      exact hn
  | writei i mem src off n =>
    simp only [FsState.step] at hst
    split_ifs at hst with ha
    cases hw : writei sb (σ.inodes i) mem src off n σ.fs with
    | error e =>
      rw [hw] at hst
      cases hst
    | ok r =>
      obtain ⟨c, ip', s'⟩ := r
      rw [hw] at hst
      cases hst
      dsimp only
      obtain ⟨-, hty, hk, hfill⟩ := writei_owned hsb ha.1 ha.2 (hσ i) hw
      rw [hself] at hk hfill
      refine hn.update (fun j _ p hp => hk _ hp) fun hi ht => ?_
      have ha' : FsState.Allocated sb ⟨s', Function.update σ.inodes i ip'⟩ i := by
        simp [FsState.Allocated, hi, ht]
      have hf := hfill ((noHolesAt_iff ha).mp (hn i ha))
      simpa using (noHolesAt_iff ha').mpr (by simpa using hf)
  | itrunc i =>
    simp only [FsState.step] at hst
    split_ifs at hst with ha
    obtain ⟨ip', s', htr, -, -, -, hsz, -, hframe⟩ := itrunc_owned hsb ha.1 ha.2 (hσ i)
    rw [htr] at hst
    cases hst
    dsimp only
    refine hn.update (fun j hj p _ => ?_) fun _ _ k hk => ?_
    · have := ref_of_ne_of_frame (hσ i) hj hframe ip' p
      rwa [hself] at this
    · rw [hsz] at hk
      exact absurd hk (by simp)
  | ialloc t =>
    simp only [FsState.step] at hst
    split_ifs at hst with htf
    cases hscan : iallocScan sb σ with
    | none =>
      rw [hscan] at hst
      cases hst
      exact hn
    | some j =>
      rw [hscan] at hst
      cases hst
      refine hn.update (fun k _ p _ => by rw [ref_ialloc hscan]) fun _ _ x hx => absurd hx (by simp)
  | ifree i =>
    simp only [FsState.step] at hst
    split_ifs at hst with ha
    obtain ⟨ip', s', htr, -, -, -, -, -, hframe⟩ := itrunc_owned hsb ha.1 ha.2 (hσ i)
    rw [htr] at hst
    cases hst
    dsimp only
    refine hn.update (fun j hj p _ => ?_) fun _ ht => absurd rfl ht
    have := ref_of_ne_of_frame (hσ i) hj hframe { ip' with type := .free } p
    rwa [hself] at this

/-! ### Over every run -/

theorem rootOnly_noHoles : NoHoles mkfsSuperblock rootOnly := by
  intro i hi k hk
  by_cases hroot : i = rootino
  · subst hroot
    have hk0 : k = 0 := by
      have hsz : (rootOnly.inodes rootino).size.toNat = bsize := by decide
      rw [hsz] at hk
      have hb : bsize = 1024 := rfl
      rw [hb] at hk
      omega
    subst hk0
    decide
  · have hfree : (rootOnly.inodes i).type = .free := by
      simp [rootOnly, Function.update_of_ne hroot]
    exact absurd hfree hi.2

/-- **No holes over every run.** From a state where block ownership holds and no allocated
inode has a hole below its size, no state the calls of the inode layer reach has one; and in
every such state `readi` on an allocated inode changes neither the inode nor the disk, so it
reaches neither `balloc` nor `log_write`. -/
theorem no_holes_of_reachable (hsb : SbOK sb) {σ₀ σ : FsState} (h₀ : Owned sb σ₀)
    (hn₀ : NoHoles sb σ₀) (hσ : Interleave.Reachable (FsState.step sb) σ₀ σ) :
    NoHoles sb σ ∧ ∀ i, σ.Allocated sb i → ∀ (mem : Mem) (dst : ℕ) (off n : UInt32) (r : ℤ)
      (ip' : Inode) (s' : Fs) (mem' : Mem),
      readi sb (σ.inodes i) mem dst off n σ.fs = .ok (r, ip', s', mem') → ip' = σ.inodes i ∧ s' = σ.fs := by
  have hinv : Owned sb σ ∧ NoHoles sb σ :=
    hσ.induction ⟨h₀, hn₀⟩ fun _ _ _ ⟨h, hn⟩ hst => ⟨step_owned hsb h hst, step_noHoles hsb h hn hst⟩
  exact ⟨hinv.2, fun i ha _ _ _ _ _ _ _ _ hr => readi_of_noHolesAt (hinv.2 i ha) hr⟩

/-- Kernel memory holding the byte `a` everywhere. -/
def kernelText : Mem := ⟨false, fun _ => 97, fun _ => true⟩

/-- A file is made and written across two blocks, the root directory grows into its second
block, the file is truncated, and written again. -/
def holesOps : List Op :=
  [.ialloc .file, .writei 2 kernelText 0 0 1500, .writei rootino kernelText 0 1024 16,
    .itrunc 2, .writei 2 kernelText 0 0 100]

/-- The state `holesOps` reaches from the disk with only the root directory. -/
def holesRun : FsState := Interleave.runState (FsState.step mkfsSuperblock) rootOnly holesOps

theorem no_holes_holesRun :
    SbOK mkfsSuperblock ∧ Owned mkfsSuperblock rootOnly ∧ NoHoles mkfsSuperblock rootOnly ∧
      Interleave.Reachable (FsState.step mkfsSuperblock) rootOnly holesRun ∧
      (NoHoles mkfsSuperblock holesRun ∧ ∀ i, holesRun.Allocated mkfsSuperblock i →
        ∀ (mem : Mem) (dst : ℕ) (off n : UInt32) (r : ℤ) (ip' : Inode) (s' : Fs) (mem' : Mem),
        readi mkfsSuperblock (holesRun.inodes i) mem dst off n holesRun.fs = .ok (r, ip', s', mem') →
          ip' = holesRun.inodes i ∧ s' = holesRun.fs) :=
  have hσ : Interleave.Reachable (FsState.step mkfsSuperblock) rootOnly holesRun :=
    Interleave.reachable_runState holesOps (by decide +kernel)
  ⟨sbOK_mkfs, rootOnly_owned, rootOnly_noHoles, hσ,
    no_holes_of_reachable sbOK_mkfs rootOnly_owned rootOnly_noHoles hσ⟩

-- file 2 ends with its second write: one hundred bytes in a block of its own, and the root
-- directory holds two blocks
example : (holesRun.inodes 2).size = 100 ∧ blockAddr holesRun.fs (holesRun.inodes 2) 0 ≠ 0 ∧
    (holesRun.inodes rootino).size = 1040 := by
  decide +kernel

/-! ### A block held twice -/

/-- Two files that share block 100: file 2 holds it as its block 0, file 3 as its indirect
block, whose entry 0 is block 300. File 3 has thirteen blocks, twelve direct. -/
def sharedBlock : FsState where
  fs := ⟨fun b => if b = 100 then setWord (fun _ => 0) 0 300 else fun _ => 0, []⟩
  inodes := fun i =>
    if i = 2 then ⟨2, .file, 1024, fun x => if x.val = 0 then 100 else 0⟩
    else if i = 3 then
      ⟨3, .file, 13 * 1024, fun x => if x = indirectSlot then 100 else (200 + x.val).toUInt32⟩
    else ⟨i, .free, 0, fun _ => 0⟩

/-- Kernel memory holding zero bytes. -/
def kernelZeros : Mem := ⟨false, fun _ => 0, fun _ => true⟩

theorem exists_ok_of_some_any {ε α : Type} {x : Option (Except ε α)} {p : α → Bool}
    (h : x.any (fun r => r.toOption.any p) = true) : ∃ a, x = some (.ok a) ∧ p a = true := by
  cases x with
  | none => simp at h
  | some r =>
    obtain ⟨a, rfl, ha⟩ := exists_ok_of_any (by simpa using h)
    exact ⟨a, rfl, ha⟩

/-- **Without block ownership, a hole appears.** `sharedBlock` has no holes, but a `writei` of
four zero bytes at the start of file 2 writes them into file 3's indirect block: file 3's
block 12, below its size, loses its address. -/
theorem shared_block_hole :
    ¬ Owned mkfsSuperblock sharedBlock ∧ NoHoles mkfsSuperblock sharedBlock ∧
      ∃ σ', sharedBlock.step mkfsSuperblock (.writei 2 kernelZeros 0 0 4) = some (.ok σ') ∧
        ¬ NoHoles mkfsSuperblock σ' := by
  refine ⟨fun h => ?_, fun i hi k hk => ?_, ?_⟩
  · have := h.inj (2, .direct ⟨0, by decide⟩) (3, .indirect) (by decide) (by decide)
    cases this
  · have h2 : ∀ k < 1, blockAddr sharedBlock.fs (sharedBlock.inodes 2) k ≠ 0 := by decide
    have h3 : ∀ k < 13, blockAddr sharedBlock.fs (sharedBlock.inodes 3) k ≠ 0 := by decide
    have hb : bsize = 1024 := rfl
    by_cases hi2 : i = 2
    · subst hi2
      have hsz : (sharedBlock.inodes 2).size.toNat = 1024 := by decide
      rw [hsz, hb] at hk
      exact h2 k (by omega)
    · by_cases hi3 : i = 3
      · subst hi3
        have hsz : (sharedBlock.inodes 3).size.toNat = 13 * 1024 := by decide
        rw [hsz, hb] at hk
        exact h3 k (by omega)
      · have hfree : (sharedBlock.inodes i).type = .free := by
          simp [sharedBlock, hi2, hi3]
        exact absurd hfree hi.2
  · obtain ⟨σ', hst, hcheck⟩ := exists_ok_of_some_any (p := fun σ' =>
      decide (σ'.Allocated mkfsSuperblock 3) && decide (12 * bsize < (σ'.inodes 3).size.toNat) &&
        blockAddr σ'.fs (σ'.inodes 3) 12 == 0)
      (x := sharedBlock.step mkfsSuperblock (.writei 2 kernelZeros 0 0 4)) (by decide +kernel)
    simp only [Bool.and_eq_true, decide_eq_true_eq, beq_iff_eq] at hcheck
    exact ⟨σ', hst, not_noHoles hcheck.1.1 hcheck.1.2 hcheck.2⟩

end Xv6Lab.FS
