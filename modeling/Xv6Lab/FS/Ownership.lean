import Xv6Lab.FS.Alloc

/-!
# Block ownership over every run

`Owned` (the invariant of `Ownership.Owns` for the blocks the inodes hold) is kept by every
call of the inode layer, from any state where it holds, over a superblock that keeps its
bitmap among the metadata blocks.

* `bmap_owned` — `bmap` keeps the invariant, and the block it returns is a data block the
  inode holds at a position other than the indirect slot.
* `itrunc_owned` — `itrunc` never panics ("freeing free block") and keeps the invariant; the
  inode then holds no block.
* `step_owned`, `owned_of_reachable` — every call keeps it, hence every run.
-/

namespace Xv6Lab.FS

open ByteMap

variable {sb : Superblock}

/-! ### The inode being changed -/

section Inode

variable {inodes : ℕ → Inode} {i : ℕ} {ip : Inode} {s : Fs}

theorem ref_self (hi : i < sb.ninodes) (ht : ip.type ≠ .free) (p : Pos) :
    FsState.ref sb ⟨s, Function.update inodes i ip⟩ (i, p) = refAt s.blocks ip p := by
  simp [FsState.ref, FsState.Allocated, hi, ht]

theorem ref_indirect (hi : i < sb.ninodes) (ht : ip.type ≠ .free) :
    FsState.ref sb ⟨s, Function.update inodes i ip⟩ (i, .indirect) =
      (ip.addrs indirectSlot).toNat :=
  ref_self hi ht .indirect

/-- A block the allocator hands out is held by nothing, and every block held is a data
block: a write to the fresh block or to the bitmap leaves the blocks held where they are. -/
theorem Owned.keeps_fresh (hsb : SbOK sb) {τ : FsState} (h : Owned sb τ) {b : ℕ} {s' : Fs}
    (hf : Fresh sb τ.fs b s') (x : ℕ × Pos) (hx : τ.ref sb x ≠ 0) :
    s'.blocks (τ.ref sb x) = τ.fs.blocks (τ.ref sb x) :=
  hf.frame _ (h.range x hx).1 (h.ne_of_not_used hf.free (hf.ne_zero hsb) x)

variable (hsb : SbOK sb) (hi : i < sb.ninodes) (ht : ip.type ≠ .free)
  (h : Owned sb ⟨s, Function.update inodes i ip⟩)
include hsb hi ht h

/-- The indirect block of the inode, read over the disk after an allocation. -/
theorem refAt_fresh {b : ℕ} {s' : Fs} (hf : Fresh sb s b s') :
    refAt s'.blocks ip = refAt s.blocks ip := by
  refine refAt_congr fun h0 => ?_
  have hx : FsState.ref sb ⟨s, Function.update inodes i ip⟩ (i, .indirect) ≠ 0 := by
    rw [ref_indirect hi ht]
    exact toNat_ne_zero h0
  have hk := h.keeps_fresh hsb hf _ hx
  rwa [ref_indirect hi ht] at hk

/-- `bmap` allocating direct block `k`. -/
theorem Owned.allocDirect {k : Fin ndirect} (hk : ip.addrs k.castSucc = 0) {b : ℕ} {s' : Fs}
    (hf : Fresh sb s b s') :
    Owned sb ⟨s', Function.update inodes i (ip.setAddr k.castSucc b.toUInt32)⟩ ∧
      Ownership.Keeps (FsState.ref sb ⟨s, Function.update inodes i ip⟩)
        (FsState.ref sb ⟨s', Function.update inodes i (ip.setAddr k.castSucc b.toUInt32)⟩) ∧
      FsState.ref sb ⟨s', Function.update inodes i (ip.setAddr k.castSucc b.toUInt32)⟩
        (i, .direct k) = b := by
  have href : FsState.ref sb ⟨s', Function.update inodes i (ip.setAddr k.castSucc b.toUInt32)⟩ =
      Function.update (FsState.ref sb ⟨s, Function.update inodes i ip⟩) (i, .direct k) b := by
    conv_rhs => rw [← toNat_toUInt32 hsb hf.hi]
    refine ref_update_of_refAt hi ht rfl ?_ fun j _ hj => h.keeps_fresh hsb hf _ hj
    rw [refAt_setAddr_direct, refAt_fresh hsb hi ht h hf]
  have hp : FsState.ref sb ⟨s, Function.update inodes i ip⟩ (i, .direct k) = 0 := by
    rw [ref_self hi ht]
    simp [refAt, hk]
  refine ⟨?_, href ▸ Ownership.keeps_update hp b, by rw [href, Function.update_self]⟩
  unfold Owned
  rw [href]
  exact h.assign hp (hf.ne_zero hsb) hf.lo hf.hi hf.free hf.used

/-- `bmap` allocating the indirect block. -/
theorem Owned.allocIndirect (h0 : ip.addrs indirectSlot = 0) {b : ℕ} {s' : Fs}
    (hf : Fresh sb s b s') :
    Owned sb ⟨s', Function.update inodes i (ip.setAddr indirectSlot b.toUInt32)⟩ ∧
      Ownership.Keeps (FsState.ref sb ⟨s, Function.update inodes i ip⟩)
        (FsState.ref sb ⟨s', Function.update inodes i (ip.setAddr indirectSlot b.toUInt32)⟩) := by
  have href : FsState.ref sb ⟨s', Function.update inodes i (ip.setAddr indirectSlot b.toUInt32)⟩ =
      Function.update (FsState.ref sb ⟨s, Function.update inodes i ip⟩) (i, .indirect) b := by
    conv_rhs => rw [← toNat_toUInt32 hsb hf.hi]
    refine ref_update_of_refAt hi ht rfl ?_ fun j _ hj => h.keeps_fresh hsb hf _ hj
    rw [refAt_setAddr_indirect h0 (by rw [toNat_toUInt32 hsb hf.hi]; exact hf.zero),
      refAt_fresh hsb hi ht h hf]
  have hp : FsState.ref sb ⟨s, Function.update inodes i ip⟩ (i, .indirect) = 0 := by
    rw [ref_indirect hi ht, h0]
    rfl
  refine ⟨?_, href ▸ Ownership.keeps_update hp b⟩
  unfold Owned
  rw [href]
  exact h.assign hp (hf.ne_zero hsb) hf.lo hf.hi hf.free hf.used

/-- `bmap` allocating entry `j` of the indirect block `ind`. -/
theorem Owned.allocEntry (h0 : ip.addrs indirectSlot ≠ 0) {j : Fin nindirect}
    (hj : getWord (s.blocks (ip.addrs indirectSlot).toNat) (4 * j) = 0) {b : ℕ} {s' : Fs}
    (hf : Fresh sb s b s') :
    Owned sb ⟨s'.put (ip.addrs indirectSlot).toNat
        (setWord (s'.blocks (ip.addrs indirectSlot).toNat) (4 * j) b.toUInt32),
        Function.update inodes i ip⟩ ∧
      Ownership.Keeps (FsState.ref sb ⟨s, Function.update inodes i ip⟩)
        (FsState.ref sb ⟨s'.put (ip.addrs indirectSlot).toNat
          (setWord (s'.blocks (ip.addrs indirectSlot).toNat) (4 * j) b.toUInt32),
          Function.update inodes i ip⟩) ∧
      FsState.ref sb ⟨s'.put (ip.addrs indirectSlot).toNat
        (setWord (s'.blocks (ip.addrs indirectSlot).toNat) (4 * j) b.toUInt32),
        Function.update inodes i ip⟩ (i, .entry j) = b := by
  set τ : FsState := ⟨s, Function.update inodes i ip⟩
  set ind := (ip.addrs indirectSlot).toNat
  have hind : τ.ref sb (i, .indirect) = ind := ref_indirect hi ht
  have hind0 : τ.ref sb (i, .indirect) ≠ 0 := hind ▸ toNat_ne_zero h0
  have hlo : dataStart sb ≤ ind := hind ▸ (h.range _ hind0).1
  have href : FsState.ref sb ⟨s'.put ind (setWord (s'.blocks ind) (4 * j) b.toUInt32),
      Function.update inodes i ip⟩ = Function.update (τ.ref sb) (i, .entry j) b := by
    conv_rhs => rw [← toNat_toUInt32 hsb hf.hi]
    refine ref_update_of_refAt hi ht rfl ?_ fun j' hj' h0' => ?_
    · rw [Fs.put_blocks, refAt_setEntry h0, refAt_fresh hsb hi ht h hf]
    · -- another inode's indirect block is neither `ind` nor the fresh block
      have hne : τ.ref sb (j', .indirect) ≠ ind := fun e =>
        hj' (congrArg Prod.fst (h.inj _ _ h0' (e.trans hind.symm)))
      rw [Fs.put_blocks_of_ne _ _ hne]
      exact h.keeps_fresh hsb hf _ h0'
  have hp : τ.ref sb (i, .entry j) = 0 := by
    rw [ref_self hi ht]
    show (if ip.addrs indirectSlot = 0 then 0 else (getWord (s.blocks ind) (4 * j)).toNat) = 0
    rw [if_neg h0, hj]
    rfl
  refine ⟨?_, href ▸ Ownership.keeps_update hp b, by rw [href, Function.update_self]⟩
  unfold Owned
  rw [href]
  refine h.assign hp (hf.ne_zero hsb) hf.lo hf.hi hf.free fun x hx => ?_
  show Used sb (s'.put ind _).blocks x ↔ _
  rw [Fs.put_blocks, used_update_of_data hsb _ hlo hx]
  exact hf.used x hx

/-- `bmap` past the indirect slot, once the inode has an indirect block. -/
theorem bmapIndirect_owned_of_ne (h0 : ip.addrs indirectSlot ≠ 0) {bn addr : ℕ} {ip' : Inode}
    {s' : Fs} (hbn : bn < nindirect) (hb : bmapIndirect sb ip bn s = (addr, ip', s')) :
    Owned sb ⟨s', Function.update inodes i ip'⟩ ∧ ip' = ip ∧
      Ownership.Keeps (FsState.ref sb ⟨s, Function.update inodes i ip⟩)
        (FsState.ref sb ⟨s', Function.update inodes i ip'⟩) ∧
      (addr ≠ 0 → FsState.ref sb ⟨s', Function.update inodes i ip'⟩ (i, .entry ⟨bn, hbn⟩) = addr) := by
  unfold bmapIndirect at hb
  rw [if_neg h0] at hb
  dsimp only at hb
  split_ifs at hb with ha
  · rcases balloc_cases hsb h.reserved with hz | ⟨b, s₁, hba, hf⟩
    · rw [hz] at hb
      cases hb
      exact ⟨h, rfl, .refl _, fun h => absurd rfl h⟩
    · obtain ⟨c, rfl⟩ := Nat.exists_eq_succ_of_ne_zero (hf.ne_zero hsb)
      rw [hba] at hb
      cases hb
      obtain ⟨ho, hk, hr⟩ := h.allocEntry hsb hi ht h0 (j := ⟨bn, hbn⟩) ha hf
      exact ⟨ho, rfl, hk, fun _ => hr⟩
  · cases hb
    refine ⟨h, rfl, .refl _, fun _ => ?_⟩
    rw [ref_self hi ht]
    simp [refAt, h0]

/-- `bmap` past the direct blocks. -/
theorem bmapIndirect_owned {bn addr : ℕ} {ip' : Inode} {s' : Fs} (hbn : bn < nindirect)
    (hb : bmapIndirect sb ip bn s = (addr, ip', s')) :
    Owned sb ⟨s', Function.update inodes i ip'⟩ ∧ ip'.type = ip.type ∧ ip'.size = ip.size ∧
      Ownership.Keeps (FsState.ref sb ⟨s, Function.update inodes i ip⟩)
        (FsState.ref sb ⟨s', Function.update inodes i ip'⟩) ∧
      (addr ≠ 0 → FsState.ref sb ⟨s', Function.update inodes i ip'⟩ (i, .entry ⟨bn, hbn⟩) = addr) := by
  by_cases h0 : ip.addrs indirectSlot = 0
  · rcases balloc_cases hsb h.reserved with hz | ⟨b, s₁, hba, hf⟩
    · -- no block for the indirect block
      unfold bmapIndirect at hb
      rw [if_pos h0, hz] at hb
      cases hb
      exact ⟨h, rfl, rfl, .refl _, fun h => absurd rfl h⟩
    · obtain ⟨h₁, hk₁⟩ := h.allocIndirect hsb hi ht h0 hf
      have hne : (ip.setAddr indirectSlot b.toUInt32).addrs indirectSlot ≠ 0 := by
        have := hf.ne_zero hsb
        simp only [Inode.setAddr, Function.update_self]
        intro e
        rw [← toNat_toUInt32 hsb hf.hi, e] at this
        exact this rfl
      have hb₁ : bmapIndirect sb (ip.setAddr indirectSlot b.toUInt32) bn s₁ = (addr, ip', s') := by
        obtain ⟨c, rfl⟩ := Nat.exists_eq_succ_of_ne_zero (hf.ne_zero hsb)
        unfold bmapIndirect at hb ⊢
        rw [if_pos h0, hba] at hb
        rw [if_neg hne]
        exact hb
      have ht₁ : (ip.setAddr indirectSlot b.toUInt32).type ≠ .free := ht
      obtain ⟨ho, rfl, hk, hr⟩ := bmapIndirect_owned_of_ne hsb hi ht₁ h₁ hne hbn hb₁
      exact ⟨ho, rfl, rfl, hk₁.trans hk, hr⟩
  · obtain ⟨ho, rfl, hk, hr⟩ := bmapIndirect_owned_of_ne hsb hi ht h h0 hbn hb
    exact ⟨ho, rfl, rfl, hk, hr⟩

/-- **`bmap` keeps block ownership.** The block it returns, if any, is the one the inode now
holds at the position of block `bn`; every block held before is held still. -/
theorem bmap_owned {bn addr : ℕ} {ip' : Inode} {s' : Fs}
    (hb : bmap sb ip bn s = .ok (addr, ip', s')) :
    Owned sb ⟨s', Function.update inodes i ip'⟩ ∧ ip'.type = ip.type ∧ ip'.size = ip.size ∧
      Ownership.Keeps (FsState.ref sb ⟨s, Function.update inodes i ip⟩)
        (FsState.ref sb ⟨s', Function.update inodes i ip'⟩) ∧
      (addr ≠ 0 → ∃ p, blockPos bn = some p ∧
        FsState.ref sb ⟨s', Function.update inodes i ip'⟩ (i, p) = addr) := by
  unfold bmap at hb
  split_ifs at hb with hd hn
  · have hpos : blockPos bn = some (.direct ⟨bn, hd⟩) := by simp [blockPos, hd]
    have hslot : directSlot bn hd = (⟨bn, hd⟩ : Fin ndirect).castSucc := rfl
    dsimp only at hb
    rw [hslot] at hb
    by_cases h0 : ip.addrs (⟨bn, hd⟩ : Fin ndirect).castSucc = 0
    · rw [if_pos h0] at hb
      rcases balloc_cases hsb h.reserved with hz | ⟨b, s₁, hba, hf⟩
      · rw [hz] at hb
        cases hb
        exact ⟨h, rfl, rfl, .refl _, fun h => absurd rfl h⟩
      · obtain ⟨c, rfl⟩ := Nat.exists_eq_succ_of_ne_zero (hf.ne_zero hsb)
        rw [hba] at hb
        cases hb
        obtain ⟨ho, hk, hr⟩ := h.allocDirect hsb hi ht h0 hf
        exact ⟨ho, rfl, rfl, hk, fun _ => ⟨_, hpos, hr⟩⟩
    · rw [if_neg h0] at hb
      cases hb
      refine ⟨h, rfl, rfl, .refl _, fun _ => ⟨_, hpos, ?_⟩⟩
      rw [ref_self hi ht]
      rfl
  · have hpos : blockPos bn = some (.entry ⟨bn - ndirect, hn⟩) := by simp [blockPos, hd, hn]
    obtain ⟨ho, hty, hsz, hk, hr⟩ := bmapIndirect_owned hsb hi ht h hn (Except.ok.inj hb)
    exact ⟨ho, hty, hsz, hk, fun ha => ⟨_, hpos, hr ha⟩⟩

end Inode

/-! ### Writes that keep the blocks held -/

/-- A write to a data block that an inode holds other than as its indirect block leaves every
block held where it is. -/
theorem ref_write_data {τ : FsState} (h : Owned sb τ) {x : ℕ × Pos} (hxi : x.2 ≠ .indirect) {s' : Fs} (hs' : ∀ y, y ≠ τ.ref sb x → s'.blocks y = τ.fs.blocks y) :
    FsState.ref sb ⟨s', τ.inodes⟩ = τ.ref sb := by
  refine ref_congr_blocks fun j hj => hs' _ fun e => hxi ?_
  rw [← congrArg Prod.snd (h.inj _ _ hj e)]

theorem Owned.write_data (hsb : SbOK sb) {τ : FsState} (h : Owned sb τ) {x : ℕ × Pos}
    (hx : τ.ref sb x ≠ 0) (hxi : x.2 ≠ .indirect) {s' : Fs}
    (hs' : ∀ y, y ≠ τ.ref sb x → s'.blocks y = τ.fs.blocks y) : Owned sb ⟨s', τ.inodes⟩ := by
  have hlo := (h.range x hx).1
  refine Ownership.Owns.congr h (congrFun (ref_write_data h hxi hs')) (fun y hy => ?_)
    hsb.data_le
  have hne : bblock y sb ≠ τ.ref sb x := by
    have := hsb.bitmap_meta y hy
    omega
  unfold Used
  rw [hs' _ hne]

/-- `log_write` and `iupdate` change no block's contents. -/
theorem Owned.logWrite {s : Fs} {inodes : ℕ → Inode} (h : Owned sb ⟨s, inodes⟩) (b : ℕ) :
    Owned sb ⟨s.logWrite b, inodes⟩ := h

theorem Owned.iupdate {s : Fs} {inodes : ℕ → Inode} (h : Owned sb ⟨s, inodes⟩) (ip : Inode) :
    Owned sb ⟨iupdate sb ip s, inodes⟩ := h

/-- The block map of an inode depends on its type and its addresses alone. -/
theorem ref_congr_inode {s : Fs} {inodes : ℕ → Inode} {i : ℕ} {ip ip' : Inode}
    (ha : ip'.addrs = ip.addrs) (ht : ip'.type = ip.type) :
    FsState.ref sb ⟨s, Function.update inodes i ip'⟩ = FsState.ref sb ⟨s, Function.update inodes i ip⟩ := by
  have hr : refAt s.blocks ip' = refAt s.blocks ip := by
    funext p
    cases p <;> simp [refAt, ha]
  funext x
  obtain ⟨j, p⟩ := x
  by_cases hj : j = i
  · subst hj
    simp [FsState.ref, FsState.Allocated, ht, hr]
  · simp [FsState.ref, FsState.Allocated, Function.update_of_ne hj]

theorem Owned.congr_inode {s : Fs} {inodes : ℕ → Inode} {i : ℕ} {ip ip' : Inode}
    (h : Owned sb ⟨s, Function.update inodes i ip⟩) (ha : ip'.addrs = ip.addrs)
    (ht : ip'.type = ip.type) : Owned sb ⟨s, Function.update inodes i ip'⟩ := by
  unfold Owned
  rw [ref_congr_inode ha ht]
  exact h

theorem toNat_add_of_not_lt {a b : UInt32} (h : ¬ a + b < a) :
    (a + b).toNat = a.toNat + b.toNat := by
  rw [UInt32.lt_iff_toNat_lt, UInt32.toNat_add] at h
  rw [UInt32.toNat_add]
  have := a.toNat_lt
  have := b.toNat_lt
  omega

theorem ref_iupdate {s : Fs} {inodes : ℕ → Inode} (ip : Inode) :
    FsState.ref sb ⟨iupdate sb ip s, inodes⟩ = FsState.ref sb ⟨s, inodes⟩ := rfl

/-! ### Blocks held up to an offset -/

/-- Every block of inode `i` that starts below `off` is held, as `r` says. -/
def Filled (r : ℕ × Pos → ℕ) (i off : ℕ) : Prop :=
  ∀ k, k * bsize < off → ∃ p, blockPos k = some p ∧ r (i, p) ≠ 0

section Filled

variable {r r' : ℕ × Pos → ℕ} {i off : ℕ}

theorem Filled.keeps (h : Filled r i off) (hk : Ownership.Keeps r r') : Filled r' i off :=
  fun k hk' => by
    obtain ⟨p, hp, hr⟩ := h k hk'
    exact ⟨p, hp, by rw [hk _ hr]; exact hr⟩

theorem Filled.mono (h : Filled r i off) {off' : ℕ} (hle : off' ≤ off) : Filled r i off' :=
  fun k hk => h k (by omega)

theorem Filled.max (h : Filled r i off) {off' : ℕ} (h' : Filled r i off') :
    Filled r i (max off off') := fun k hk => by
  rcases le_total off off' with hle | hle
  · exact h' k (by omega)
  · exact h k (by omega)

/-- The block `off` falls in, once held, fills up to the end of that block. -/
theorem Filled.next (h : Filled r i off) {p : Pos} (hp : blockPos (off / bsize) = some p)
    (hr : r (i, p) ≠ 0) {m : ℕ} (hm : m ≤ bsize - off % bsize) : Filled r i (off + m) := by
  intro k hk
  by_cases hlt : k * bsize < off
  · exact h k hlt
  · have hkb : k = off / bsize := by
      have hb : bsize = 1024 := rfl
      rw [hb] at hk hlt hm ⊢
      omega
    subst hkb
    exact ⟨p, hp, hr⟩

end Filled

/-! ### `readi` and `writei` -/

section Loops

variable (hsb : SbOK sb) {inodes : ℕ → Inode} {i : ℕ} (hi : i < sb.ninodes)
include hsb hi

/-- **The loop of `writei` keeps block ownership.** Each pass maps a block with `bmap` and
writes into the block it returns, a data block the inode holds. The blocks held stay held, the
offset moves with the count, and the blocks below the offset stay held as it advances. -/
theorem writeLoop_owned {mem : Mem} {n fuel tot off src : ℕ} {ip : Inode} {s : Fs}
    (ht : ip.type ≠ .free) (h : Owned sb ⟨s, Function.update inodes i ip⟩)
    {tot' off' : ℕ} {ip' : Inode} {s' : Fs}
    (hw : writeLoop sb mem n fuel tot off src ip s = .ok (tot', off', ip', s')) :
    Owned sb ⟨s', Function.update inodes i ip'⟩ ∧ ip'.type = ip.type ∧ ip'.size = ip.size ∧
      Ownership.Keeps (FsState.ref sb ⟨s, Function.update inodes i ip⟩)
        (FsState.ref sb ⟨s', Function.update inodes i ip'⟩) ∧
      off' + tot = off + tot' ∧ (tot ≤ n → tot' ≤ n) ∧
      (Filled (FsState.ref sb ⟨s, Function.update inodes i ip⟩) i off →
        Filled (FsState.ref sb ⟨s', Function.update inodes i ip'⟩) i off') := by
  induction fuel generalizing tot off src ip s with
  | zero =>
    cases hw
    exact ⟨h, rfl, rfl, .refl _, rfl, id, id⟩
  | succ fuel ih =>
    unfold writeLoop at hw
    split_ifs at hw with htot
    · cases hbm : bmap sb ip (off / bsize) s with
      | error e =>
        rw [hbm] at hw
        cases hw
      | ok r =>
        obtain ⟨addr, ip₁, s₁⟩ := r
        rw [hbm] at hw
        obtain ⟨h₁, hty₁, hsz₁, hk₁, hheld⟩ := bmap_owned hsb hi ht h hbm
        dsimp only at hw
        split_ifs at hw with ha
        · cases hw
          exact ⟨h₁, hty₁, hsz₁, hk₁, rfl, id, fun hf => hf.keeps hk₁⟩
        · obtain ⟨p, hp, hr⟩ := hheld ha
          -- the data write moves no block held
          have hdata : ∀ s₂ : Fs, (∀ y, y ≠ addr → s₂.blocks y = s₁.blocks y) →
              Owned sb ⟨s₂, Function.update inodes i ip₁⟩ ∧
                FsState.ref sb ⟨s₂, Function.update inodes i ip₁⟩ =
                  FsState.ref sb ⟨s₁, Function.update inodes i ip₁⟩ := fun s₂ hs₂ =>
            ⟨h₁.write_data hsb (hr ▸ ha) (blockPos_ne_indirect hp) (hr ▸ hs₂),
              ref_write_data h₁ (blockPos_ne_indirect hp) (hr ▸ hs₂)⟩
          have hnext := fun hf : Filled (FsState.ref sb ⟨s, Function.update inodes i ip⟩) i off =>
            (hf.keeps hk₁).next hp (hr ▸ ha) (min_le_right (n - tot) (bsize - off % bsize))
          split at hw
          · rename_i buf _
            cases hw
            obtain ⟨h₂, href₂⟩ := hdata ⟨Function.update s₁.blocks addr buf, s₁.writes⟩
              fun y hy => Function.update_of_ne hy _ _
            exact ⟨h₂, hty₁, hsz₁, href₂ ▸ hk₁, rfl, id, fun hf => href₂ ▸ hf.keeps hk₁⟩
          · obtain ⟨h₂, href₂⟩ := hdata _ fun y hy => Fs.put_blocks_of_ne _ _ hy
            obtain ⟨h₃, hty₃, hsz₃, hk₃, hoff₃, htot₃, hfill₃⟩ := ih (hty₁ ▸ ht) h₂ hw
            refine ⟨h₃, hty₃.trans hty₁, hsz₃.trans hsz₁, hk₁.trans (href₂ ▸ hk₃), by omega,
              fun _ => htot₃ (by omega), fun hf => hfill₃ (href₂ ▸ hnext hf)⟩
    · cases hw
      exact ⟨h, rfl, rfl, .refl _, rfl, id, id⟩

/-- The loop of `readi` keeps block ownership: `bmap` is all it does to the disk. -/
theorem readLoop_owned {n fuel tot off dst : ℕ} {ip : Inode} {s : Fs} {mem : Mem}
    (ht : ip.type ≠ .free) (h : Owned sb ⟨s, Function.update inodes i ip⟩)
    {r : ℤ} {ip' : Inode} {s' : Fs} {mem' : Mem}
    (hr : readLoop sb n fuel tot off dst ip s mem = .ok (r, ip', s', mem')) :
    Owned sb ⟨s', Function.update inodes i ip'⟩ ∧ ip'.type = ip.type := by
  induction fuel generalizing tot off dst ip s mem with
  | zero =>
    cases hr
    exact ⟨h, rfl⟩
  | succ fuel ih =>
    unfold readLoop at hr
    split_ifs at hr with htot
    · cases hbm : bmap sb ip (off / bsize) s with
      | error e =>
        rw [hbm] at hr
        cases hr
      | ok q =>
        obtain ⟨addr, ip₁, s₁⟩ := q
        rw [hbm] at hr
        obtain ⟨h₁, hty₁, -⟩ := bmap_owned hsb hi ht h hbm
        dsimp only at hr
        split_ifs at hr with ha
        · cases hr
          exact ⟨h₁, hty₁⟩
        · split at hr
          · cases hr
            exact ⟨h₁, hty₁⟩
          · obtain ⟨h₂, hty₂⟩ := ih (hty₁ ▸ ht) h₁ hr
            exact ⟨h₂, hty₂.trans hty₁⟩
    · cases hr
      exact ⟨h, rfl⟩

/-- **`writei` keeps block ownership.** The blocks held stay held, and the blocks below the
inode's new size are held if those below its old size were. -/
theorem writei_owned {ip : Inode} {s : Fs} (ht : ip.type ≠ .free)
    (h : Owned sb ⟨s, Function.update inodes i ip⟩) {mem : Mem} {src : ℕ} {off n : UInt32}
    {r : ℤ} {ip' : Inode} {s' : Fs} (hw : writei sb ip mem src off n s = .ok (r, ip', s')) :
    Owned sb ⟨s', Function.update inodes i ip'⟩ ∧ ip'.type = ip.type ∧
      Ownership.Keeps (FsState.ref sb ⟨s, Function.update inodes i ip⟩)
        (FsState.ref sb ⟨s', Function.update inodes i ip'⟩) ∧
      (Filled (FsState.ref sb ⟨s, Function.update inodes i ip⟩) i ip.size.toNat →
        Filled (FsState.ref sb ⟨s', Function.update inodes i ip'⟩) i ip'.size.toNat) := by
  unfold writei at hw
  split_ifs at hw with hoff hmax
  · cases hw
    exact ⟨h, rfl, .refl _, id⟩
  · cases hw
    exact ⟨h, rfl, .refl _, id⟩
  · split at hw
    · cases hw
    · rename_i tot off₁ ip₁ s₁ hloop
      obtain ⟨h₁, hty₁, hsz₁, hk₁, hoff₁, htot₁, hfill₁⟩ := writeLoop_owned hsb hi ht h hloop
      cases hw
      -- the loop starts at `off ≤ size` and ends at `off₁ ≤ off + n ≤ MAXFILE * BSIZE`
      have hle : off.toNat ≤ ip.size.toNat := by
        have hgt : ¬ off > ip.size := fun h' => hoff (.inl h')
        rw [gt_iff_lt, UInt32.lt_iff_toNat_lt] at hgt
        omega
      have hadd := toNat_add_of_not_lt fun h' => hoff (.inr h')
      have hend : off₁ < 2 ^ 32 := by
        have := htot₁ (Nat.zero_le _)
        have hm : maxfile * bsize < 2 ^ 32 := by decide
        omega
      have hfill : Filled (FsState.ref sb ⟨s, Function.update inodes i ip⟩) i ip.size.toNat →
          Filled (FsState.ref sb ⟨s₁, Function.update inodes i ip₁⟩) i (max ip.size.toNat off₁) :=
        fun hf => (hf.keeps hk₁).max (hfill₁ (hf.mono hle))
      split_ifs with hsize
      · have hr : FsState.ref sb ⟨s₁, Function.update inodes i { ip₁ with size := off₁.toUInt32 }⟩ =
            FsState.ref sb ⟨s₁, Function.update inodes i ip₁⟩ := ref_congr_inode rfl rfl
        refine ⟨Owned.iupdate ?_ _, hty₁, ?_, fun hf => ?_⟩
        · exact h₁.congr_inode rfl rfl
        · rw [ref_iupdate, hr]
          exact hk₁
        · rw [ref_iupdate, hr]
          have hsz : (off₁.toUInt32).toNat = off₁ := by
            rw [Nat.toUInt32, UInt32.toNat_ofNat']
            exact Nat.mod_eq_of_lt hend
          have hmax : max ip.size.toNat off₁ = off₁ := by
            rw [← hsz₁]
            omega
          show Filled _ i (off₁.toUInt32).toNat
          rw [hsz, ← hmax]
          exact hfill hf
      · refine ⟨h₁.iupdate _, hty₁, hk₁, fun hf => ?_⟩
        have hmax : max ip.size.toNat off₁ = ip₁.size.toNat := by
          rw [hsz₁] at hsize ⊢
          omega
        rw [← hmax]
        exact hfill hf

/-- `readi` keeps block ownership. -/
theorem readi_owned {ip : Inode} {s : Fs} (ht : ip.type ≠ .free)
    (h : Owned sb ⟨s, Function.update inodes i ip⟩) {mem : Mem} {dst : ℕ} {off n : UInt32}
    {r : ℤ} {ip' : Inode} {s' : Fs} {mem' : Mem}
    (hr : readi sb ip mem dst off n s = .ok (r, ip', s', mem')) :
    Owned sb ⟨s', Function.update inodes i ip'⟩ ∧ ip'.type = ip.type := by
  unfold readi at hr
  split_ifs at hr with hoff hsize
  · cases hr
    exact ⟨h, rfl⟩
  · exact readLoop_owned hsb hi ht h hr
  · exact readLoop_owned hsb hi ht h hr

end Loops

/-! ### `itrunc` -/

/-- A bitmap write for a block of the disk leaves every data block. -/
theorem put_bblock_of_data {b y : ℕ} (hsb : SbOK sb) (hb : b < sb.size) (hy : dataStart sb ≤ y)
    (s : Fs) (v : ℕ → UInt8) : (s.put (bblock b sb) v).blocks y = s.blocks y :=
  Fs.put_blocks_of_ne _ _ (by have := hsb.bitmap_meta b hb; omega)

/-- An inode with no addresses holds no block. -/
theorem refAt_of_addrs_zero {ip : Inode} (h0 : ∀ x, ip.addrs x = 0) (blocks : ℕ → ℕ → UInt8)
    (p : Pos) : refAt blocks ip p = 0 := by
  cases p <;> simp [refAt, h0]

/-- Every slot of `addrs` is a direct slot or the indirect slot. -/
theorem slot_cases (x : Fin (ndirect + 1)) : (∃ k : Fin ndirect, x = k.castSucc) ∨ x = indirectSlot := by
  by_cases hx : x.val < ndirect
  · exact .inl ⟨⟨x.val, hx⟩, Fin.ext rfl⟩
  · exact .inr (Fin.ext (by simp [indirectSlot]; omega))

/-- Another inode over a disk whose data blocks are unchanged. -/
theorem ref_of_ne_of_frame {s s' : Fs} {inodes : ℕ → Inode} {i j : ℕ} {ip : Inode}
    (h : Owned sb ⟨s, Function.update inodes i ip⟩) (hj : j ≠ i)
    (hframe : ∀ y, dataStart sb ≤ y → s'.blocks y = s.blocks y) (ip' : Inode) (p : Pos) :
    FsState.ref sb ⟨s', Function.update inodes i ip'⟩ (j, p) =
      FsState.ref sb ⟨s, Function.update inodes i ip⟩ (j, p) := by
  have hind := h.range (j, .indirect)
  simp only [FsState.ref, FsState.Allocated, Function.update_of_ne hj] at hind ⊢
  split_ifs at hind ⊢ with ha
  · rw [refAt_congr]
    intro h0
    exact hframe _ (hind (by simpa [refAt] using toNat_ne_zero h0)).1
  · rfl

/-- The second loop of `itrunc`, over the entries `js` of the indirect block `ind` of inode
`i`. The blocks are held as `r` says, where the entries still to free are those of `ind`;
each is freed in turn, and the invariant holds of `r` with the entries freed emptied. -/
theorem itruncIndirect_owns (hsb : SbOK sb) {i ind : ℕ} (hind : dataStart sb ≤ ind) {js : List ℕ}
    (hnd : js.Nodup) {s : Fs} {r : ℕ × Pos → ℕ}
    (hr : Ownership.Owns r (Used sb s.blocks) (dataStart sb) sb.size)
    (hjs : ∀ j ∈ js, ∃ hj : j < nindirect,
      r (i, .entry ⟨j, hj⟩) = (getWord (s.blocks ind) (4 * j)).toNat) :
    ∃ s', itruncIndirect sb ind js s = .ok s' ∧
      (∀ y, dataStart sb ≤ y → s'.blocks y = s.blocks y) ∧
      ∃ r', Ownership.Owns r' (Used sb s'.blocks) (dataStart sb) sb.size ∧
        (∀ x, (∀ j ∈ js, ∀ hj : j < nindirect, x ≠ (i, .entry ⟨j, hj⟩)) → r' x = r x) ∧
        ∀ j ∈ js, ∀ hj : j < nindirect, r' (i, .entry ⟨j, hj⟩) = 0 := by
  induction js generalizing s r with
  | nil => exact ⟨s, rfl, fun _ _ => rfl, r, hr, fun _ _ => rfl, by simp⟩
  | cons j js ih =>
    obtain ⟨hj, hrj⟩ := hjs j List.mem_cons_self
    have hjs' : j ∉ js := (List.nodup_cons.mp hnd).1
    by_cases ha : getWord (s.blocks ind) (4 * j) = 0
    · -- an empty entry: nothing to free
      have hr0 : r (i, .entry ⟨j, hj⟩) = 0 := by rw [hrj, ha]; rfl
      obtain ⟨s', hrun, hframe, r', hr', hout, hin⟩ :=
        ih (List.nodup_cons.mp hnd).2 hr fun j' hj' => hjs j' (List.mem_cons_of_mem _ hj')
      refine ⟨s', ?_, hframe, r', hr', fun x hx => hout x fun j' hj' => hx j' (List.mem_cons_of_mem _ hj'),
        fun j' hj' hlt => ?_⟩
      · rw [itruncIndirect, if_neg (not_not.mpr ha)]
        exact hrun
      · rcases List.mem_cons.mp hj' with rfl | hj'
        · rw [hout _ fun j'' hj'' _ e => hjs' (by cases e; exact hj''), hr0]
        · exact hin j' hj' hlt
    · set a := getWord (s.blocks ind) (4 * j)
      have hp0 : r (i, .entry ⟨j, hj⟩) ≠ 0 := hrj ▸ toNat_ne_zero ha
      have hlt := (hr.range _ hp0).2
      set s₁ := s.put (bblock a.toNat sb) (markFree (s.blocks (bblock a.toNat sb)) (a.toNat % bpb))
      have hframe₁ : ∀ y, dataStart sb ≤ y → s₁.blocks y = s.blocks y :=
        fun y hy => put_bblock_of_data hsb (hrj ▸ hlt) hy _ _
      have hr₁ : Ownership.Owns (Function.update r (i, .entry ⟨j, hj⟩) 0) (Used sb s₁.blocks)
          (dataStart sb) sb.size :=
        hr.release hp0 fun x _ => by rw [Fs.put_blocks, used_markFree, hrj]
      obtain ⟨s', hrun, hframe, r', hr', hout, hin⟩ := ih (List.nodup_cons.mp hnd).2 hr₁
        fun j' hj' => by
          obtain ⟨hlt', hrj'⟩ := hjs j' (List.mem_cons_of_mem _ hj')
          have hne : ((i, .entry ⟨j', hlt'⟩) : ℕ × Pos) ≠ (i, .entry ⟨j, hj⟩) := fun e => by
            cases e
            exact hjs' hj'
          exact ⟨hlt', by rw [Function.update_of_ne hne, hrj', hframe₁ _ hind]⟩
      refine ⟨s', ?_, fun y hy => (hframe y hy).trans (hframe₁ y hy), r', hr', fun x hx => ?_,
        fun j' hj' hlt' => ?_⟩
      · rw [itruncIndirect, if_pos ha, bfree_of_used (hrj ▸ hr.marked _ hp0)]
        exact hrun
      · rw [hout x fun j' hj' => hx j' (List.mem_cons_of_mem _ hj'),
          Function.update_of_ne (hx j List.mem_cons_self hj)]
      · rcases List.mem_cons.mp hj' with rfl | hj'
        · rw [hout _ fun j'' hj'' _ e => hjs' (by cases e; exact hj''), Function.update_self]
        · exact hin j' hj' hlt'

section Inode

variable {inodes : ℕ → Inode} {i : ℕ} {ip : Inode} {s : Fs}
variable (hsb : SbOK sb) (hi : i < sb.ninodes) (ht : ip.type ≠ .free)
  (h : Owned sb ⟨s, Function.update inodes i ip⟩)
include hsb hi ht h

/-- The first loop of `itrunc` freeing direct block `k`. -/
theorem Owned.freeDirect {k : Fin ndirect} (hk : ip.addrs k.castSucc ≠ 0) :
    ∃ s', bfree sb (ip.addrs k.castSucc).toNat s = .ok s' ∧
      Owned sb ⟨s', Function.update inodes i (ip.setAddr k.castSucc 0)⟩ ∧
      ∀ y, dataStart sb ≤ y → s'.blocks y = s.blocks y := by
  set τ : FsState := ⟨s, Function.update inodes i ip⟩
  have hp : τ.ref sb (i, .direct k) = (ip.addrs k.castSucc).toNat := ref_self hi ht _
  have hp0 : τ.ref sb (i, .direct k) ≠ 0 := hp ▸ toNat_ne_zero hk
  have hlt := (h.range _ hp0).2
  refine ⟨_, bfree_of_used (hp ▸ h.marked _ hp0), ?_,
    fun y hy => put_bblock_of_data hsb (hp ▸ hlt) hy _ _⟩
  have href : FsState.ref sb ⟨s.put (bblock (ip.addrs k.castSucc).toNat sb)
      (markFree (s.blocks (bblock (ip.addrs k.castSucc).toNat sb)) ((ip.addrs k.castSucc).toNat % bpb)),
      Function.update inodes i (ip.setAddr k.castSucc 0)⟩ =
      Function.update (τ.ref sb) (i, .direct k) 0 := by
    refine ref_update_of_refAt hi ht rfl ?_ fun j _ hj => ?_
    · rw [refAt_setAddr_direct, refAt_congr]
      · rfl
      · intro h0
        have hind : τ.ref sb (i, .indirect) ≠ 0 := by
          rw [ref_indirect hi ht]
          exact toNat_ne_zero h0
        have := (h.range _ hind).1
        rw [ref_indirect hi ht] at this
        exact put_bblock_of_data hsb (hp ▸ hlt) this _ _
    · exact put_bblock_of_data hsb (hp ▸ hlt) (h.range _ hj).1 _ _
  unfold Owned
  rw [href]
  exact h.release hp0 fun x _ => by rw [Fs.put_blocks, used_markFree, hp]

/-- The first loop of `itrunc` over the direct slots `ks`: each block freed, its slot
emptied. -/
theorem itruncDirect_owned (ks : List (Fin ndirect)) :
    ∃ ip' s', itruncDirect sb (ks.map Fin.castSucc) ip s = .ok (ip', s') ∧
      Owned sb ⟨s', Function.update inodes i ip'⟩ ∧ ip'.inum = ip.inum ∧ ip'.type = ip.type ∧
      (∀ x, ip'.addrs x = if x ∈ ks.map Fin.castSucc then 0 else ip.addrs x) ∧
      ∀ y, dataStart sb ≤ y → s'.blocks y = s.blocks y := by
  induction ks generalizing ip s with
  | nil => exact ⟨ip, s, rfl, h, rfl, rfl, by simp, fun _ _ => rfl⟩
  | cons k ks ih =>
    by_cases hk : ip.addrs k.castSucc = 0
    · obtain ⟨ip', s', hrun, ho, hinum, hty, haddr, hframe⟩ := ih ht h
      refine ⟨ip', s', ?_, ho, hinum, hty, fun x => ?_, hframe⟩
      · rw [List.map_cons, itruncDirect, if_neg (not_not.mpr hk)]
        exact hrun
      · rw [haddr]
        by_cases hx : x = k.castSucc
        · subst hx
          simp [hk]
        · simp [hx]
    · obtain ⟨s₁, hbf, h₁, hframe₁⟩ := h.freeDirect hsb hi ht hk
      have ht₁ : (ip.setAddr k.castSucc 0).type ≠ .free := ht
      obtain ⟨ip', s', hrun, ho, hinum, hty, haddr, hframe⟩ := ih ht₁ h₁
      refine ⟨ip', s', ?_, ho, hinum, hty, fun x => ?_,
        fun y hy => (hframe y hy).trans (hframe₁ y hy)⟩
      · rw [List.map_cons, itruncDirect, if_pos hk, hbf]
        exact hrun
      · rw [haddr]
        by_cases hx : x = k.castSucc
        · subst hx
          simp [Inode.setAddr]
        · simp [Inode.setAddr, hx]

/-- **`itrunc` keeps block ownership, and never panics.** Every block it frees is marked, and
once its blocks are freed the inode holds none. -/
theorem itrunc_owned :
    ∃ ip' s', itrunc sb ip s = .ok (ip', s') ∧ Owned sb ⟨s', Function.update inodes i ip'⟩ ∧
      ip'.inum = ip.inum ∧ ip'.type = ip.type ∧ ip'.size = 0 ∧ (∀ x, ip'.addrs x = 0) ∧
      ∀ y, dataStart sb ≤ y → s'.blocks y = s.blocks y := by
  obtain ⟨ip₁, s₁, hd, h₁, hinum₁, hty₁, haddr₁, hframe₁⟩ :=
    itruncDirect_owned hsb hi ht h (List.finRange ndirect)
  have hdirect : ∀ k : Fin ndirect, ip₁.addrs k.castSucc = 0 := fun k => by
    rw [haddr₁, if_pos (List.mem_map_of_mem (List.mem_finRange k))]
  have ht₁ : ip₁.type ≠ .free := hty₁ ▸ ht
  unfold itrunc
  rw [directSlots, List.ofFn_eq_map, hd]
  dsimp only
  by_cases h0 : ip₁.addrs indirectSlot = 0
  · rw [if_neg (not_not.mpr h0)]
    refine ⟨_, _, rfl, Owned.iupdate ?_ _, hinum₁, hty₁, rfl, fun x => ?_, hframe₁⟩
    · exact h₁.congr_inode rfl rfl
    · rcases slot_cases x with ⟨k, rfl⟩ | rfl
      · exact hdirect k
      · exact h0
  · rw [if_pos h0]
    set τ₁ : FsState := ⟨s₁, Function.update inodes i ip₁⟩
    set ind := (ip₁.addrs indirectSlot).toNat
    have hind : τ₁.ref sb (i, .indirect) = ind := ref_indirect hi ht₁
    have hind0 : τ₁.ref sb (i, .indirect) ≠ 0 := hind ▸ toNat_ne_zero h0
    have hlo : dataStart sb ≤ ind := hind ▸ (h₁.range _ hind0).1
    obtain ⟨s₂, hloop, hframe₂, r', hr', hout, hin⟩ :=
      itruncIndirect_owns hsb (i := i) hlo List.nodup_range h₁ fun j hj =>
        ⟨List.mem_range.mp hj, by rw [ref_self hi ht₁]; exact if_neg h0⟩
    have hr'ind : r' (i, .indirect) = ind := by
      rw [hout _ fun _ _ _ e => by cases e]
      exact hind
    have hr'0 : r' (i, .indirect) ≠ 0 := hr'ind ▸ hind ▸ hind0
    rw [hloop]
    dsimp only
    rw [bfree_of_used (hr'ind ▸ hr'.marked _ hr'0)]
    dsimp only
    set s₃ := s₂.put (bblock ind sb) (markFree (s₂.blocks (bblock ind sb)) (ind % bpb))
    have hframe₃ : ∀ y, dataStart sb ≤ y → s₃.blocks y = s₁.blocks y := fun y hy =>
      (put_bblock_of_data hsb (hind ▸ (h₁.range _ hind0).2) hy _ _).trans (hframe₂ y hy)
    refine ⟨_, _, rfl, ?_, hinum₁, hty₁, rfl, fun x => ?_,
      fun y hy => (hframe₃ y hy).trans (hframe₁ y hy)⟩
    · set ip₂ : Inode := { ip₁.setAddr indirectSlot 0 with size := 0 }
      have hzero : ∀ x, ip₂.addrs x = 0 := fun x => by
        rcases slot_cases x with ⟨k, rfl⟩ | rfl
        · simp [ip₂, Inode.setAddr, castSucc_ne_indirectSlot, hdirect]
        · simp [ip₂, Inode.setAddr]
      have href : FsState.ref sb ⟨s₃, Function.update inodes i ip₂⟩ =
          Function.update r' (i, .indirect) 0 := by
        funext x
        obtain ⟨j, p⟩ := x
        by_cases hj : j = i
        · subst hj
          have ht₂ : ip₂.type ≠ .free := ht₁
          rw [ref_self hi ht₂, refAt_of_addrs_zero hzero]
          cases p with
          | direct k =>
            rw [Function.update_of_ne (by simp), hout (j, .direct k) (fun _ _ _ e => by cases e),
              ref_self hi ht₁]
            simp [refAt, hdirect]
          | indirect => rw [Function.update_self]
          | entry j' => rw [Function.update_of_ne (by simp), hin j' (List.mem_range.mpr j'.isLt)]
        · rw [ref_of_ne_of_frame h₁ hj hframe₃, Function.update_of_ne (by simp [hj]),
            hout _ fun _ _ _ e => hj (congrArg Prod.fst e)]
      show Ownership.Owns (FsState.ref sb ⟨s₃, Function.update inodes i ip₂⟩) (Used sb s₃.blocks) _ _
      rw [href]
      exact hr'.release hr'0 fun x _ => by rw [Fs.put_blocks, used_markFree, hr'ind]
    · rcases slot_cases x with ⟨k, rfl⟩ | rfl
      · simp [Inode.setAddr, castSucc_ne_indirectSlot, hdirect]
      · simp [Inode.setAddr]

end Inode

/-! ### Every call, and every run -/

theorem iallocScan_eq_some {σ : FsState} {j : ℕ} (h : iallocScan sb σ = some j) :
    j < sb.ninodes ∧ (σ.inodes j).type = .free := by
  have hmem := List.mem_range'_1.mp (List.mem_of_find?_eq_some h)
  have hfree := List.find?_some h
  refine ⟨by omega, by simpa using hfree⟩

/-- An inode that holds nothing before and after a change, over the same disk. -/
theorem ref_update_of_empty {s s' : Fs} {inodes : ℕ → Inode} {j : ℕ} {ip : Inode}
    (hs : s'.blocks = s.blocks) (hold : ∀ p, FsState.ref sb ⟨s, inodes⟩ (j, p) = 0)
    (hnew : ∀ p, FsState.ref sb ⟨s', Function.update inodes j ip⟩ (j, p) = 0) :
    FsState.ref sb ⟨s', Function.update inodes j ip⟩ = FsState.ref sb ⟨s, inodes⟩ := by
  funext x
  obtain ⟨k, p⟩ := x
  by_cases hk : k = j
  · subst hk
    rw [hnew, hold]
  · have ha : FsState.Allocated sb ⟨s', Function.update inodes j ip⟩ k ↔
        FsState.Allocated sb ⟨s, inodes⟩ k := by
      simp [FsState.Allocated, Function.update_of_ne hk]
    unfold FsState.ref
    by_cases hk' : FsState.Allocated sb ⟨s, inodes⟩ k
    · rw [if_pos (ha.mpr hk'), if_pos hk']
      simp [Function.update_of_ne hk, hs]
    · rw [if_neg (mt ha.mp hk'), if_neg hk']

theorem ref_of_free {τ : FsState} {j : ℕ} (h : (τ.inodes j).type = .free) (p : Pos) :
    τ.ref sb (j, p) = 0 := by
  simp [FsState.ref, FsState.Allocated, h]

theorem ref_of_addrs_zero {τ : FsState} {j : ℕ} (h : ∀ x, (τ.inodes j).addrs x = 0) (p : Pos) :
    τ.ref sb (j, p) = 0 := by
  unfold FsState.ref
  split_ifs
  · exact refAt_of_addrs_zero h _ p
  · rfl

/-- `ialloc` takes a free inode, and gives it no blocks. -/
theorem ref_ialloc {σ : FsState} {j : ℕ} (hscan : iallocScan sb σ = some j) (t : IType) :
    FsState.ref sb ⟨σ.fs.logWrite (iblock j sb), Function.update σ.inodes j ⟨j, t, 0, fun _ => 0⟩⟩ =
      σ.ref sb :=
  ref_update_of_empty (by rfl) (ref_of_free (iallocScan_eq_some hscan).2)
    (ref_of_addrs_zero (by simp))

/-- **Every call of the inode layer keeps block ownership.** -/
theorem step_owned (hsb : SbOK sb) {σ σ' : FsState} (h : Owned sb σ) {op : Op}
    (hst : σ.step sb op = some (.ok σ')) : Owned sb σ' := by
  have hσ : ∀ i, Owned sb ⟨σ.fs, Function.update σ.inodes i (σ.inodes i)⟩ := fun i => by
    rw [Function.update_eq_self]
    exact h
  cases op with
  | readi i mem dst off n =>
    simp only [FsState.step] at hst
    split_ifs at hst with ha
    cases hr : readi sb (σ.inodes i) mem dst off n σ.fs with
    | error e =>
      rw [hr] at hst
      cases hst
    | ok r =>
      obtain ⟨c, ip', s', mem'⟩ := r
      rw [hr] at hst
      cases hst
      exact (readi_owned hsb ha.1 ha.2 (hσ i) hr).1
  | writei i mem src off n =>
    simp only [FsState.step] at hst
    split_ifs at hst with ha
    cases hw : writei sb (σ.inodes i) mem src off n σ.fs with
    | error e =>
      rw [hw] at hst
      cases hst
    | ok r =>
      obtain ⟨c, ip', s'⟩ := r
      rw [hw] at hst
      cases hst
      exact (writei_owned hsb ha.1 ha.2 (hσ i) hw).1
  | itrunc i =>
    simp only [FsState.step] at hst
    split_ifs at hst with ha
    obtain ⟨ip', s', htr, ho, -⟩ := itrunc_owned hsb ha.1 ha.2 (hσ i)
    rw [htr] at hst
    cases hst
    simpa using ho
  | ialloc t =>
    simp only [FsState.step] at hst
    split_ifs at hst with htf
    cases hscan : iallocScan sb σ with
    | none =>
      rw [hscan] at hst
      cases hst
      exact h
    | some j =>
      rw [hscan] at hst
      cases hst
      unfold Owned
      rw [ref_ialloc hscan]
      exact h
  | ifree i =>
    simp only [FsState.step] at hst
    split_ifs at hst with ha
    obtain ⟨ip', s', htr, ho, -, -, -, haddr, -⟩ := itrunc_owned hsb ha.1 ha.2 (hσ i)
    rw [htr] at hst
    cases hst
    -- the inode holds nothing once truncated, and nothing once free
    have href : FsState.ref sb ⟨iupdate sb { ip' with type := .free } s',
        Function.update σ.inodes i { ip' with type := .free }⟩ =
        FsState.ref sb ⟨s', Function.update σ.inodes i ip'⟩ := by
      conv_lhs => rw [← Function.update_idem ip' { ip' with type := .free } σ.inodes]
      exact ref_update_of_empty (by rfl) (ref_of_addrs_zero (by simp [haddr]))
        (ref_of_free (by simp))
    unfold Owned
    dsimp only
    rw [href]
    exact ho

/-! ### The panics a call can reach -/

theorem bmap_eq_error {ip : Inode} {bn : ℕ} {s : Fs} {e : String} (h : bmap sb ip bn s = .error e) :
    e = "bmap: out of range" := by
  unfold bmap at h
  split_ifs at h with hd hn
  · dsimp only at h
    split_ifs at h
    split at h <;> cases h
  · cases h
    rfl

theorem writeLoop_eq_error {mem : Mem} {n fuel tot off src : ℕ} {ip : Inode} {s : Fs} {e : String}
    (h : writeLoop sb mem n fuel tot off src ip s = .error e) : e = "bmap: out of range" := by
  induction fuel generalizing tot off src ip s with
  | zero => cases h
  | succ fuel ih =>
    unfold writeLoop at h
    split_ifs at h with htot
    cases hbm : bmap sb ip (off / bsize) s with
    | error e' =>
      rw [hbm] at h
      cases h
      exact bmap_eq_error hbm
    | ok r =>
      obtain ⟨addr, ip₁, s₁⟩ := r
      rw [hbm] at h
      dsimp only at h
      split_ifs at h
      split at h
      · cases h
      · exact ih h

theorem readLoop_eq_error {n fuel tot off dst : ℕ} {ip : Inode} {s : Fs} {mem : Mem} {e : String}
    (h : readLoop sb n fuel tot off dst ip s mem = .error e) : e = "bmap: out of range" := by
  induction fuel generalizing tot off dst ip s mem with
  | zero => cases h
  | succ fuel ih =>
    unfold readLoop at h
    split_ifs at h with htot
    cases hbm : bmap sb ip (off / bsize) s with
    | error e' =>
      rw [hbm] at h
      cases h
      exact bmap_eq_error hbm
    | ok r =>
      obtain ⟨addr, ip₁, s₁⟩ := r
      rw [hbm] at h
      dsimp only at h
      split_ifs at h
      split at h
      · cases h
      · exact ih h

/-- While block ownership holds, the only panic a call can reach is `bmap`'s: `itrunc` never
reaches "freeing free block". -/
theorem step_eq_error (hsb : SbOK sb) {σ : FsState} (h : Owned sb σ) {op : Op} {e : String}
    (hst : σ.step sb op = some (.error e)) : e = "bmap: out of range" := by
  have hσ : ∀ i, Owned sb ⟨σ.fs, Function.update σ.inodes i (σ.inodes i)⟩ := fun i => by
    rw [Function.update_eq_self]
    exact h
  cases op with
  | readi i mem dst off n =>
    simp only [FsState.step] at hst
    split_ifs at hst with ha
    cases hr : readi sb (σ.inodes i) mem dst off n σ.fs with
    | error e' =>
      rw [hr] at hst
      cases hst
      unfold readi at hr
      split_ifs at hr
      all_goals exact readLoop_eq_error hr
    | ok r =>
      rw [hr] at hst
      cases hst
  | writei i mem src off n =>
    simp only [FsState.step] at hst
    split_ifs at hst with ha
    cases hw : writei sb (σ.inodes i) mem src off n σ.fs with
    | error e' =>
      rw [hw] at hst
      cases hst
      unfold writei at hw
      split_ifs at hw
      split at hw
      · cases hw
        exact writeLoop_eq_error (by assumption)
      · cases hw
    | ok r =>
      rw [hw] at hst
      cases hst
  | itrunc i =>
    simp only [FsState.step] at hst
    split_ifs at hst with ha
    obtain ⟨ip', s', htr, -⟩ := itrunc_owned hsb ha.1 ha.2 (hσ i)
    rw [htr] at hst
    cases hst
  | ialloc t =>
    simp only [FsState.step] at hst
    split_ifs at hst
    split at hst <;> cases hst
  | ifree i =>
    simp only [FsState.step] at hst
    split_ifs at hst with ha
    obtain ⟨ip', s', htr, -⟩ := itrunc_owned hsb ha.1 ha.2 (hσ i)
    rw [htr] at hst
    cases hst

/-- **Block ownership holds in every state a run reaches**, from any state where it holds. -/
theorem owned_of_reachable (hsb : SbOK sb) {σ₀ σ : FsState} (h₀ : Owned sb σ₀)
    (hσ : Interleave.Reachable (FsState.step sb) σ₀ σ) : Owned sb σ :=
  hσ.induction h₀ fun _ _ _ h hst => step_owned hsb h hst

end Xv6Lab.FS
