import Xv6Lab.FS.ReadWrite
import Xv6Lab.FS.Mkfs

/-!
# Inode contents under `readi` and `writei`

The content of an inode is its bytes `[0, size)` read through the block map (`content`).

* `writei_partial_copy` — a `writei` whose user source crosses into an unmapped page
  returns `0` but leaves the content changed: `copyin` has copied the source's first page
  into the block's buffer before it failed, and the buffer stays in the cache.
-/

namespace Xv6Lab.FS

open ByteMap

/-! ### A copy that fails part way -/

/-- A file of one block, block `100`, with zero bytes. -/
def oneBlockFile : Inode := ⟨2, .file, 1024, Function.update (fun _ => 0) (directSlot 0 (by decide)) 100⟩

/-- A disk of zeros. -/
def zeroDisk : Fs := ⟨fun _ _ => 0, []⟩

/-- A user source of `0xff` bytes whose first page is mapped and whose second is not. -/
def firstPageOnly : Mem := ⟨true, fun _ => 255, fun pg => pg == 0⟩

/-- `writei(ip, 1, 3584, 0, 1024)`: the source's first 512 bytes lie on the mapped page. -/
theorem writei_partial_copy :
    ∃ ip s, writei mkfsSuperblock oneBlockFile firstPageOnly 3584 0 1024 zeroDisk = .ok (0, ip, s) ∧
      content s ip ≠ content zeroDisk oneBlockFile := by
  obtain ⟨r, hr, hcheck⟩ := exists_ok_of_any
    (p := fun r : ℤ × Inode × Fs => r.1 == 0 && content r.2.2 r.2.1 != content zeroDisk oneBlockFile)
    (x := writei mkfsSuperblock oneBlockFile firstPageOnly 3584 0 1024 zeroDisk) (by decide +kernel)
  obtain ⟨t, ip, s⟩ := r
  simp only [Bool.and_eq_true, beq_iff_eq, bne_iff_ne, ne_eq] at hcheck
  obtain ⟨rfl, hne⟩ := hcheck
  exact ⟨ip, s, hr, hne⟩

end Xv6Lab.FS
