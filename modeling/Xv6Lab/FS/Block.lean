import Xv6Lab.FS.Layout
import Mathlib.Data.List.Find

/-!
# The block allocator (`balloc`, `bfree`, `bzero` of `kernel/fs.c`)

`balloc` scans the free bitmap one bitmap block at a time and, in each, bit by bit below
`sb.size`; it marks the first clear bit, zeroes that block, and returns its number, or `0`
when no bit is clear. `bfree` clears the bit of a block, and panics if it is clear already.

* `ballocScan_eq_some`, `ballocScan_eq_none` — what the scan finds: a block below `sb.size`
  whose bit is clear, or that every block below `sb.size` is in use.
-/

namespace Xv6Lab.FS

open ByteMap

/-- `bzero(dev, bno)`: block `bno` zeroed and passed to `log_write`. -/
def bzero (s : Fs) (bno : ℕ) : Fs := s.put bno fun _ => 0

/-- The scan of `balloc`: `for (b = 0; b < sb.size; b += BPB)` over the bitmap blocks, and in
each `for (bi = 0; bi < BPB && b + bi < sb.size; bi++)` over its bits, to the first clear bit. -/
def ballocScan (sb : Superblock) (blocks : ℕ → ℕ → UInt8) : Option ℕ :=
  (List.range ((sb.size + bpb - 1) / bpb)).findSome? fun k =>
    ((List.range bpb).find? fun bi =>
      decide (k * bpb + bi < sb.size) && isFree (blocks (bblock (k * bpb) sb)) bi).map
      (k * bpb + ·)

/-- `balloc(dev)`: the block found marked in use and zeroed, or `0` ("balloc: out of blocks"). -/
def balloc (sb : Superblock) (s : Fs) : ℕ × Fs :=
  match ballocScan sb s.blocks with
  | none => (0, s)
  | some b =>
    let bb := bblock b sb
    (b, bzero (s.put bb (markUsed (s.blocks bb) (b % bpb))) b)

/-- `bfree(dev, b)`: the bit of block `b` cleared. -/
def bfree (sb : Superblock) (b : ℕ) (s : Fs) : Except String Fs :=
  let bb := bblock b sb
  if isFree (s.blocks bb) (b % bpb) then .error "freeing free block"
  else .ok (s.put bb (markFree (s.blocks bb) (b % bpb)))

/-! ### What the scan finds -/

theorem bblock_of_lt {k bi : ℕ} (hbi : bi < bpb) (sb : Superblock) :
    bblock (k * bpb + bi) sb = bblock (k * bpb) sb := by
  have hpos : 0 < bpb := by decide
  have hdiv : (k * bpb + bi) / bpb = k := by
    rw [Nat.add_comm, Nat.add_mul_div_right _ _ hpos, Nat.div_eq_of_lt hbi, Nat.zero_add]
  unfold bblock
  rw [hdiv, Nat.mul_div_cancel _ hpos]

theorem ballocScan_eq_some {sb : Superblock} {blocks : ℕ → ℕ → UInt8} {b : ℕ}
    (h : ballocScan sb blocks = some b) :
    b < sb.size ∧ isFree (blocks (bblock b sb)) (b % bpb) = true := by
  obtain ⟨k, -, hk⟩ := List.exists_of_findSome?_eq_some h
  obtain ⟨bi, hfind, rfl⟩ := Option.map_eq_some_iff.mp hk
  have hbi : bi < bpb := List.mem_range.mp (List.mem_of_find?_eq_some hfind)
  have hp := List.find?_some hfind
  simp only [Bool.and_eq_true, decide_eq_true_eq] at hp
  have hmod : (k * bpb + bi) % bpb = bi := by
    rw [Nat.mul_comm, Nat.mul_add_mod, Nat.mod_eq_of_lt hbi]
  rw [hmod, bblock_of_lt hbi]
  exact hp

theorem ballocScan_eq_none {sb : Superblock} {blocks : ℕ → ℕ → UInt8}
    (h : ballocScan sb blocks = none) {b : ℕ} (hb : b < sb.size) :
    isFree (blocks (bblock b sb)) (b % bpb) = false := by
  have hpos : 0 < bpb := by decide
  -- block `b` is bit `b % BPB` of the scan's bitmap block `b / BPB`
  have hk : b / bpb ∈ List.range ((sb.size + bpb - 1) / bpb) := by
    rw [List.mem_range]
    exact (Nat.div_lt_iff_lt_mul hpos).mpr (by
      have := Nat.div_mul_le_self (sb.size + bpb - 1) bpb
      have := Nat.lt_div_mul_add (a := sb.size + bpb - 1) hpos
      omega)
  have hnone := List.findSome?_eq_none_iff.mp h (b / bpb) hk
  rw [Option.map_eq_none_iff, List.find?_eq_none] at hnone
  have hb' := hnone (b % bpb) (List.mem_range.mpr (Nat.mod_lt _ hpos))
  have hsplit : b / bpb * bpb + b % bpb = b := Nat.div_add_mod' b bpb
  rw [hsplit] at hb'
  have hbb : bblock (b / bpb * bpb) sb = bblock b sb := by
    conv_rhs => rw [← hsplit]
    exact (bblock_of_lt (Nat.mod_lt _ hpos) sb).symm
  simp only [hb, decide_true, Bool.true_and, hbb, Bool.not_eq_true] at hb'
  exact hb'

end Xv6Lab.FS
