import Xv6Lab.Log.Crash

/-!
# Runs of the log, and crash atomicity

A machine is the in-memory log and the buffer cache with the disk under it. Its steps are
the calls of FS operations: `begin_op`, a change to a cached block followed by `log_write`
of it, and `end_op`, whose last caller commits. `begin_op` cannot go while a commit runs,
and a commit runs with no operation outstanding, so a commit's writes are one step. Each
step records the disk writes it makes and, for a commit, the group it makes durable.

* `RunInv.step` — one step keeps the run invariant: the header is one recovery can install,
  the disk's header is empty between commits, the disk outside the log area is the initial
  one with the committed groups applied, and every prefix of the run's writes recovers to
  the initial disk with some prefix of the groups applied.
* `crash_recovery_atomic` — a crash after any prefix of the writes of any run, followed by
  recoveries that crash any number of times before one completes, leaves outside the log
  area the initial disk with a prefix of the committed groups applied.
-/

namespace Xv6Lab.Log

open WriteList

variable {α : Type}

/-- The in-memory log, and the buffer cache with the disk. -/
structure Machine (α : Type) where
  log : LogState
  bufs : Bufs α

/-- The groups a commit makes durable: none for an empty header. -/
def commitGroups (lh : LogHeader) (s : Bufs α) : List (List (ℕ × α)) :=
  if lh.n > 0 then [commitGroup lh s] else []

/-- One call of an FS operation, with the disk writes it makes and the groups it commits. -/
inductive Step : Machine α → List (DiskWrite α) → List (List (ℕ × α)) → Machine α → Prop
  /-- `begin_op`, once it may go. -/
  | beginOp {m : Machine α} {log' : LogState} (h : beginOp m.log = some log') :
      Step m [] [] { m with log := log' }
  /-- The operation changes the cached block `b` to `v` and calls `log_write` on it. -/
  | write {m : Machine α} {log' : LogState} (b : ℕ) (v : α)
      (harea : ¬ InLogArea m.log.start m.log.size b) (h : logWrite m.log b = .ok log') :
      Step m [] [] ⟨log', { m.bufs with cache := Function.update m.bufs.cache b v }⟩
  /-- `end_op` of an operation that is not the last one outstanding. -/
  | endOp {m : Machine α} {log' : LogState} (h : endOp m.log = .ok (log', false)) :
      Step m [] [] { m with log := log' }
  /-- `end_op` of the last operation: it commits. -/
  | commit {m : Machine α} {log' : LogState} (h : endOp m.log = .ok (log', true)) :
      Step m (commit m.log.start m.log.lh m.bufs) (commitGroups m.log.lh m.bufs)
        ⟨finishCommit log', m.bufs.applyAll (commit m.log.start m.log.lh m.bufs)⟩

/-- A run: steps in turn, with their writes and groups in order. -/
inductive Run : Machine α → List (DiskWrite α) → List (List (ℕ × α)) → Machine α → Prop
  | nil (m : Machine α) : Run m [] [] m
  | step {m₀ m m' : Machine α} {ws ws' : List (DiskWrite α)} {gs gs' : List (List (ℕ × α))} :
      Run m₀ ws gs m → Step m ws' gs' m' → Run m₀ (ws ++ ws') (gs ++ gs') m'

/-- The map `f` with the groups `gs` applied in turn. -/
def applyGroups (f : ℕ → α) (gs : List (List (ℕ × α))) : ℕ → α := gs.foldl setAll f

theorem applyGroups_append (f : ℕ → α) (gs gs' : List (List (ℕ × α))) :
    applyGroups f (gs ++ gs') = applyGroups (applyGroups f gs) gs' :=
  List.foldl_append

/-- A commit applies its group, empty or not. -/
theorem applyGroups_commitGroups (f : ℕ → α) (gs : List (List (ℕ × α))) (lh : LogHeader)
    (s : Bufs α) :
    applyGroups f (gs ++ commitGroups lh s) = setAll (applyGroups f gs) (commitGroup lh s) := by
  rw [applyGroups_append, commitGroups]
  split_ifs with hn
  · rfl
  · -- an empty header has an empty group
    have hnil : lh.block = [] := List.eq_nil_of_length_eq_zero (by simpa [LogHeader.n] using hn)
    rw [commitGroup, hnil]
    rfl

/-! ### What each call does to the header -/

theorem beginOp_place {log log' : LogState} (h : beginOp log = some log') :
    log'.start = log.start ∧ log'.size = log.size ∧ log'.lh = log.lh := by
  obtain ⟨-, -, rfl⟩ := beginOp_eq_some h
  exact ⟨rfl, rfl, rfl⟩

theorem endOp_place {log log' : LogState} {c : Bool} (h : endOp log = .ok (log', c)) :
    log'.start = log.start ∧ log'.size = log.size ∧ log'.lh = log.lh := by
  obtain ⟨-, -, rfl⟩ := endOp_eq_ok h
  exact ⟨rfl, rfl, rfl⟩

theorem logWrite_place {log log' : LogState} {b : ℕ} (h : logWrite log b = .ok log') :
    log'.start = log.start ∧ log'.size = log.size := by
  obtain ⟨-, -, -, rfl⟩ := logWrite_eq_ok h
  split_ifs <;> exact ⟨rfl, rfl⟩

/-- `log_write` of a block outside the log area keeps a header recovery can install: it
absorbs a block already there, and it adds a new one only while a log block is left. -/
theorem HeaderOK.logWrite {start size b : ℕ} {log log' : LogState}
    (h : HeaderOK start size log.lh) (hsize : log.size = size) (hb : ¬ InLogArea start size b)
    (hw : logWrite log b = .ok log') : HeaderOK start size log'.lh := by
  obtain ⟨-, hroom, -, rfl⟩ := logWrite_eq_ok hw
  split_ifs with hmem
  · exact h
  · refine ⟨h.nodup.append (List.nodup_singleton b) ?_, fun x hx => ?_, fun _ => ?_⟩
    · exact List.disjoint_singleton.mpr hmem
    · rcases List.mem_append.mp hx with hx | hx
      · exact h.outside x hx
      · rw [List.mem_singleton.mp hx]
        exact hb
    · have hlen : (log.lh.block ++ [b]).length = log.lh.n + 1 := by
        simp [LogHeader.n]
      change (log.lh.block ++ [b]).length + 1 ≤ size
      omega

/-! ### The run invariant -/

/-- Recovery from `d` can install its header, and leaves `f` outside the log area. -/
def RecoversTo (start size : ℕ) (d : Disk α) (f : ℕ → α) : Prop :=
  HeaderOK start size d.head ∧ AgreeOff start size (recovered start d) f

/-- What a run from `m₀` keeps, with `ws` its disk writes and `gs` its groups so far. -/
structure RunInv (m₀ : Machine α) (ws : List (DiskWrite α)) (gs : List (List (ℕ × α)))
    (m : Machine α) : Prop where
  start : m.log.start = m₀.log.start
  size : m.log.size = m₀.log.size
  header : HeaderOK m₀.log.start m₀.log.size m.log.lh
  disk : m.bufs.disk = m₀.bufs.disk.applyAll ws
  head : m.bufs.disk.head = ⟨[]⟩
  data : AgreeOff m₀.log.start m₀.log.size m.bufs.disk.data (applyGroups m₀.bufs.disk.data gs)
  crash : ∀ k, ∃ j ≤ gs.length, RecoversTo m₀.log.start m₀.log.size
    (m₀.bufs.disk.applyAll (ws.take k)) (applyGroups m₀.bufs.disk.data (gs.take j))

section Invariant

variable {m₀ m m' : Machine α} {ws ws' : List (DiskWrite α)} {gs gs' : List (List (ℕ × α))}

theorem runInv_nil (hhead : m₀.bufs.disk.head = ⟨[]⟩) (hlh : m₀.log.lh = ⟨[]⟩) :
    RunInv m₀ [] [] m₀ := by
  refine ⟨rfl, rfl, hlh ▸ headerOK_nil _ _, rfl, hhead, AgreeOff.refl _, fun k => ⟨0, le_rfl, ?_⟩⟩
  rw [List.take_nil, Disk.applyAll_nil]
  exact ⟨hhead ▸ headerOK_nil _ _, by rw [recovered_of_head_nil _ hhead]; exact AgreeOff.refl _⟩

/-- A step that writes nothing keeps the invariant when it keeps the log's place and a
header recovery can install. -/
theorem RunInv.quiet (h : RunInv m₀ ws gs m) (hstart : m'.log.start = m.log.start)
    (hsize : m'.log.size = m.log.size) (hheader : HeaderOK m₀.log.start m₀.log.size m'.log.lh)
    (hdisk : m'.bufs.disk = m.bufs.disk) : RunInv m₀ (ws ++ []) (gs ++ []) m' := by
  rw [List.append_nil, List.append_nil]
  exact ⟨hstart.trans h.start, hsize.trans h.size, hheader, hdisk.trans h.disk,
    hdisk ▸ h.head, hdisk ▸ h.data, h.crash⟩

/-- The crash points of a run extended by some writes: those before them, where the run's
invariant answers, and those among them. -/
theorem RunInv.crash_append (h : RunInv m₀ ws gs m)
    (hnew : ∀ k, ∃ j ≤ (gs ++ gs').length, RecoversTo m₀.log.start m₀.log.size
      (m.bufs.disk.applyAll (ws'.take k)) (applyGroups m₀.bufs.disk.data ((gs ++ gs').take j)))
    (k : ℕ) : ∃ j ≤ (gs ++ gs').length, RecoversTo m₀.log.start m₀.log.size
      (m₀.bufs.disk.applyAll ((ws ++ ws').take k))
      (applyGroups m₀.bufs.disk.data ((gs ++ gs').take j)) := by
  refine forall_take_append (fun d => ∃ j ≤ (gs ++ gs').length, RecoversTo m₀.log.start
    m₀.log.size d (applyGroups m₀.bufs.disk.data ((gs ++ gs').take j))) _ ws ws'
    (fun k => ?_) (fun k => h.disk ▸ hnew k) k
  -- before the new writes, the same prefix of the old groups
  obtain ⟨j, hj, hrec⟩ := h.crash k
  refine ⟨j, by rw [List.length_append]; omega, ?_⟩
  rw [List.take_append_of_le_length hj]
  exact hrec

/-- **A commit keeps the invariant.** Each of its crash points recovers to the groups before
it or to those and its own. -/
theorem RunInv.commit (h : RunInv m₀ ws gs m) {log' : LogState}
    (hend : endOp m.log = .ok (log', true)) :
    RunInv m₀ (ws ++ commit m.log.start m.log.lh m.bufs) (gs ++ commitGroups m.log.lh m.bufs)
      ⟨finishCommit log', m.bufs.applyAll (commit m.log.start m.log.lh m.bufs)⟩ := by
  obtain ⟨hstart, hsize, -⟩ := endOp_place hend
  -- the commit works in the log's own place, which is the initial one
  have hheader : HeaderOK m.log.start m.log.size m.log.lh := h.start ▸ h.size ▸ h.header
  have hdata : AgreeOff m.log.start m.log.size m.bufs.disk.data
      (applyGroups m₀.bufs.disk.data gs) := h.start ▸ h.size ▸ h.data
  have hgroups := applyGroups_commitGroups m₀.bufs.disk.data gs m.log.lh m.bufs
  refine ⟨hstart.trans h.start, hsize.trans h.size, headerOK_nil _ _, ?_, ?_, ?_, ?_⟩
  · rw [Bufs.applyAll_disk, h.disk, Disk.applyAll_append]
  · rw [Bufs.applyAll_disk]
    exact commit_head h.head
  · -- the disk after the commit: its group applied over the groups before it
    rw [Bufs.applyAll_disk, hgroups, ← h.start, ← h.size]
    exact (commit_data hheader).trans (hdata.setAll _)
  · refine h.crash_append fun k => ?_
    rw [← h.start, ← h.size]
    obtain ⟨hok, hold | hnew⟩ := commit_take hheader h.head k
    · -- the commit point not reached: the groups before it
      refine ⟨gs.length, by simp, ?_⟩
      rw [List.take_left]
      exact ⟨hok, hold.trans hdata⟩
    · -- the commit point passed: its group too
      refine ⟨(gs ++ commitGroups m.log.lh m.bufs).length, le_rfl, ?_⟩
      rw [List.take_length, hgroups]
      exact ⟨hok, hnew.trans (hdata.setAll _)⟩

/-- **One step keeps the run invariant.** -/
theorem RunInv.step (h : RunInv m₀ ws gs m) (hstep : Step m ws' gs' m') :
    RunInv m₀ (ws ++ ws') (gs ++ gs') m' := by
  cases hstep with
  | beginOp hb =>
    obtain ⟨hstart, hsize, hlh⟩ := beginOp_place hb
    exact h.quiet hstart hsize (hlh ▸ h.header) rfl
  | write b v harea hw =>
    obtain ⟨hstart, hsize⟩ := logWrite_place hw
    refine h.quiet hstart hsize (h.header.logWrite h.size ?_ hw) rfl
    rw [← h.start, ← h.size]
    exact harea
  | endOp he =>
    obtain ⟨hstart, hsize, hlh⟩ := endOp_place he
    exact h.quiet hstart hsize (hlh ▸ h.header) rfl
  | commit he => exact h.commit he

/-- Every run from a machine with empty headers keeps the invariant. -/
theorem Run.runInv (hrun : Run m₀ ws gs m) (hhead : m₀.bufs.disk.head = ⟨[]⟩)
    (hlh : m₀.log.lh = ⟨[]⟩) : RunInv m₀ ws gs m := by
  induction hrun with
  | nil => exact runInv_nil hhead hlh
  | step _ hstep ih => exact ih.step hstep

end Invariant

/-! ### Crash atomicity -/

theorem crash_recovery_atomic {m₀ m : Machine α} {ws : List (DiskWrite α)}
    {gs : List (List (ℕ × α))} (hrun : Run m₀ ws gs m) (hhead : m₀.bufs.disk.head = ⟨[]⟩)
    (hlh : m₀.log.lh = ⟨[]⟩) (k : ℕ) :
    ∃ j ≤ gs.length, ∀ ks, AgreeOff m₀.log.start m₀.log.size
      (recoverAll m₀.log.start (m₀.bufs.disk.applyAll (ws.take k)) ks).data
      (applyGroups m₀.bufs.disk.data (gs.take j)) := by
  obtain ⟨j, hj, hok, hrec⟩ := (hrun.runInv hhead hlh).crash k
  refine ⟨j, hj, fun ks => ?_⟩
  rw [recoverAll_data hok]
  exact hrec

/-- A machine just booted on an empty disk, with the log at block 2 and 30 blocks long. -/
def bootMachine : Machine ℕ := ⟨initLog 2 30, Bufs.ofDisk ⟨fun _ => 0, ⟨[]⟩⟩⟩

/-- One operation writes block 40 and commits; a crash after the commit point. -/
theorem crash_recovery_atomic_oneBlock :
    ∃ ws gs m, Run bootMachine ws gs m ∧ gs.length = 1 ∧
      ∃ j ≤ gs.length, ∀ ks, AgreeOff 2 30
        (recoverAll 2 (bootMachine.bufs.disk.applyAll (ws.take 2)) ks).data
        (applyGroups bootMachine.bufs.disk.data (gs.take j)) := by
  have hrun : Run bootMachine _ _ _ :=
    .step (.step (.step (.nil _) (.beginOp rfl)) (.write 40 7 (by decide) rfl)) (.commit rfl)
  exact ⟨_, _, _, hrun, rfl, crash_recovery_atomic hrun rfl rfl 2⟩

end Xv6Lab.Log
