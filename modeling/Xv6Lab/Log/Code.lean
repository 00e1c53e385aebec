import Mathlib.Logic.Function.Basic
import Mathlib.Data.List.Basic
import Mathlib.Data.Int.Notation

/-!
# The write-ahead log of `kernel/log.c`

The disk is a map from block numbers to contents (`Disk.data`), except for the log's first
block at `log.start`, which only ever holds a `struct logheader` (`Disk.head`). Block
contents are of any type `α`. Every `bwrite` is one `DiskWrite`, applied atomically.

The buffer cache is the view `Bufs.cache` that `bread` returns. A block that `log_write`
has recorded is pinned, so the cache holds its modified contents until `install_trans`
writes them home; every other block reads as the disk has it. A copy of `write_log` or
`install_trans` (`bread` both, `memmove`, `bwrite` the destination) writes the source's
cached contents to the destination, in the cache and on the disk. `bpin`/`bunpin` and
`brelse` only decide what the cache may evict, and are not modelled.

A header is the list of its block numbers; its length is `n`. The on-disk header keeps the
entries past `n` of older headers, but `read_head` never reads them.

The in-memory `struct log` and `begin_op`/`log_write`/`end_op` are modelled for the space
accounting: `log.outstanding` is an `int`, `log.committing` a flag, and the panics are
errors with the source's messages.
-/

namespace Xv6Lab.Log

/-! ### Constants (`param.h`) -/

/-- `MAXOPBLOCKS`: max # of blocks any FS op writes. -/
def maxOpBlocks : ℕ := 10

/-- `LOGSIZE`: max data blocks in on-disk log. -/
def logSize : ℕ := maxOpBlocks * 3

/-! ### Disk, cache and header -/

/-- `struct logheader`: the home block numbers of the logged blocks, in log order. -/
structure LogHeader where
  block : List ℕ
  deriving DecidableEq, Repr

/-- `lh.n`. -/
def LogHeader.n (lh : LogHeader) : ℕ := lh.block.length

/-- The disk: the contents of every block, and the header in block `log.start`. -/
structure Disk (α : Type) where
  data : ℕ → α
  head : LogHeader

/-- One `bwrite`: a data block, or the header block. -/
inductive DiskWrite (α : Type)
  | data (b : ℕ) (v : α)
  | head (lh : LogHeader)

/-- The disk after one write. -/
def Disk.apply {α : Type} (d : Disk α) : DiskWrite α → Disk α
  | .data b v => { d with data := Function.update d.data b v }
  | .head lh => { d with head := lh }

/-- The disk after a list of writes, in order. -/
def Disk.applyAll {α : Type} (d : Disk α) (ws : List (DiskWrite α)) : Disk α :=
  ws.foldl Disk.apply d

/-- The buffer cache as `bread` sees it, and the disk. -/
structure Bufs (α : Type) where
  cache : ℕ → α
  disk : Disk α

/-- A `bwrite` of a buffer whose contents are `v` (and the cache holding them). -/
def Bufs.apply {α : Type} (s : Bufs α) : DiskWrite α → Bufs α
  | .data b v => ⟨Function.update s.cache b v, s.disk.apply (.data b v)⟩
  | .head lh => { s with disk := s.disk.apply (.head lh) }

def Bufs.applyAll {α : Type} (s : Bufs α) (ws : List (DiskWrite α)) : Bufs α :=
  ws.foldl Bufs.apply s

/-- The cache of a machine that has just booted, or crashed: every block as on disk. -/
def Bufs.ofDisk {α : Type} (d : Disk α) : Bufs α := ⟨d.data, d⟩

/-! ### The block copies of `write_log` and `install_trans` -/

variable {α : Type}

/-- A loop of block copies through the cache, `(source, destination)` in turn, each
destination written to disk; each copy reads the cache as the earlier ones left it. -/
def copyAll (s : Bufs α) : List (ℕ × ℕ) → List (DiskWrite α)
  | [] => []
  | (src, dst) :: ps =>
    let w := DiskWrite.data dst (s.cache src)
    w :: copyAll (s.apply w) ps

/-- The log blocks `log.start + tail + 1` for `tail < n`. -/
def logSlots (start n : ℕ) : List ℕ := (List.range n).map fun tail => start + tail + 1

/-- `write_log`: copy each logged block from the cache to its log block. -/
def writeLog (start : ℕ) (lh : LogHeader) (s : Bufs α) : List (DiskWrite α) :=
  copyAll s (lh.block.zip (logSlots start lh.n))

/-- `install_trans`: copy each log block to its home. (Its flag only decides `bunpin`.) -/
def installTrans (start : ℕ) (lh : LogHeader) (s : Bufs α) : List (DiskWrite α) :=
  copyAll s ((logSlots start lh.n).zip lh.block)

/-- `write_head`: the header block now holds `lh`. -/
def writeHead (lh : LogHeader) : List (DiskWrite α) := [.head lh]

/-- `commit`: the disk writes it makes, from the cache and disk `s`. -/
def commit (start : ℕ) (lh : LogHeader) (s : Bufs α) : List (DiskWrite α) :=
  if lh.n > 0 then
    -- write modified blocks from cache to log
    let w₁ := writeLog start lh s
    -- write header to disk: the real commit
    let w₂ := writeHead lh
    -- install writes to home locations
    let w₃ := installTrans start lh ((s.applyAll w₁).applyAll w₂)
    -- erase the transaction from the log
    w₁ ++ w₂ ++ w₃ ++ writeHead ⟨[]⟩
  else []

/-- `recover_from_log` on the disk `d` of a machine that has just booted: `read_head`,
`install_trans`, then the header cleared. -/
def recoverFromLog (start : ℕ) (d : Disk α) : List (DiskWrite α) :=
  let lh := d.head
  installTrans start lh (Bufs.ofDisk d) ++ writeHead ⟨[]⟩

/-! ### The in-memory log (`struct log`) -/

/-- `struct log` without its lock and device. -/
structure LogState where
  start : ℕ
  size : ℕ
  outstanding : ℤ
  committing : Bool
  lh : LogHeader
  deriving DecidableEq, Repr

/-- `begin_op`: `none` while it sleeps, the log with one more operation once it may go. -/
def beginOp (log : LogState) : Option LogState :=
  if log.committing then none
  else if (log.lh.n : ℤ) + (log.outstanding + 1) * maxOpBlocks > logSize then none
  else some { log with outstanding := log.outstanding + 1 }

/-- `log_write` of the buffer of block `blockno`: record it, absorbing a block already in
the transaction. -/
def logWrite (log : LogState) (blockno : ℕ) : Except String LogState :=
  if log.lh.n ≥ logSize ∨ (log.lh.n : ℤ) ≥ (log.size : ℤ) - 1 then .error "too big a transaction"
  else if log.outstanding < 1 then .error "log_write outside of trans"
  else if blockno ∈ log.lh.block then .ok log
  else .ok { log with lh := ⟨log.lh.block ++ [blockno]⟩ }

/-- The locked part of `end_op`: the log, and whether this call must commit. -/
def endOp (log : LogState) : Except String (LogState × Bool) :=
  let log := { log with outstanding := log.outstanding - 1 }
  if log.committing then .error "log.committing"
  else if log.outstanding = 0 then .ok ({ log with committing := true }, true)
  else .ok (log, false)

/-- The rest of `end_op` for the call that commits: after `commit()` the header is empty
and `log.committing` is cleared. -/
def finishCommit (log : LogState) : LogState :=
  { log with lh := ⟨[]⟩, committing := false }

/-- `initlog` with the superblock's `logstart` and `nlog`, once `recover_from_log` has
emptied the header. -/
def initLog (logstart nlog : ℕ) : LogState := ⟨logstart, nlog, 0, false, ⟨[]⟩⟩

/-! ### What each call does -/

theorem beginOp_eq_some {log log' : LogState} (h : beginOp log = some log') :
    log.committing = false ∧ (log.lh.n : ℤ) + (log.outstanding + 1) * maxOpBlocks ≤ logSize ∧
      log' = { log with outstanding := log.outstanding + 1 } := by
  unfold beginOp at h
  split_ifs at h with hc hn
  cases h
  exact ⟨by simpa using hc, by omega, rfl⟩

theorem logWrite_eq_ok {log log' : LogState} {b : ℕ} (h : logWrite log b = .ok log') :
    log.lh.n < logSize ∧ (log.lh.n : ℤ) < (log.size : ℤ) - 1 ∧ 1 ≤ log.outstanding ∧
      log' = if b ∈ log.lh.block then log else { log with lh := ⟨log.lh.block ++ [b]⟩ } := by
  unfold logWrite at h
  split_ifs at h with hbig hout hmem
  · cases h
    simp only [not_or] at hbig
    exact ⟨by omega, by omega, by omega, by simp [hmem]⟩
  · cases h
    simp only [not_or] at hbig
    exact ⟨by omega, by omega, by omega, by simp [hmem]⟩

theorem endOp_eq_ok {log log' : LogState} {c : Bool} (h : endOp log = .ok (log', c)) :
    log.committing = false ∧ c = decide (log.outstanding - 1 = 0) ∧
      log' = { log with outstanding := log.outstanding - 1, committing := c } := by
  simp only [endOp] at h
  split_ifs at h with hc hz
  · cases h
    exact ⟨by simpa using hc, by simpa using hz, rfl⟩
  · cases h
    exact ⟨by simpa using hc, by simpa using hz, by simpa using hc⟩

/-- The panics of `log_write`: the transaction is full, or no operation is outstanding. -/
theorem logWrite_eq_error {log : LogState} {b : ℕ} {e : String} (h : logWrite log b = .error e) :
    (e = "too big a transaction" ∧ (log.lh.n ≥ logSize ∨ (log.lh.n : ℤ) ≥ (log.size : ℤ) - 1)) ∨
      (e = "log_write outside of trans" ∧ log.outstanding < 1) := by
  unfold logWrite at h
  split_ifs at h with hbig hout
  · cases h
    exact .inl ⟨rfl, hbig⟩
  · cases h
    exact .inr ⟨rfl, hout⟩

/-- The panic of `end_op`: a commit is running. -/
theorem endOp_eq_error {log : LogState} {e : String} (h : endOp log = .error e) :
    e = "log.committing" ∧ log.committing = true := by
  simp only [endOp] at h
  split_ifs at h with hc
  cases h
  exact ⟨rfl, hc⟩

end Xv6Lab.Log
