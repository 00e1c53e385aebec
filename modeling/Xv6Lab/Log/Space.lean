import Xv6Lab.Log.Code
import Xv6Lab.Lib.Interleave
import Mathlib.Data.List.Dedup

/-!
# Log space under concurrent FS system calls

Each process makes FS system calls one after another; a call is `begin_op`, one `log_write`
for each block in its list, and `end_op`. Each locked section of `log.c` is one step; the
`commit()` of the last `end_op` and its clearing of `log.committing` are one more, made
without the lock while every `begin_op` waits.

* `Counts.move` — every step keeps the bookkeeping of `struct log`: `log.outstanding` counts
  the processes inside a call, `log.committing` is set exactly while one process commits, and
  then no process is inside a call.
* `step_error_too_big` — with any calls, the only panic reachable from boot is
  "too big a transaction".
* `log_space_overflow` — with `nlog = LOGSIZE` as `mkfs` writes it, three processes whose
  calls each pass ten distinct blocks reach it: `begin_op` reserves `LOGSIZE` blocks for the
  three calls, but the header takes one block of the log.
* `log_space_safe` — with a log at least one block longer than `LOGSIZE`, and calls that
  make at most `MAXOPBLOCKS` `log_write`s each, no step panics.
-/

namespace Xv6Lab.Log

open Interleave

/-- Where one process is in its FS system calls; each call is the list of blocks it passes
to `log_write`, in order. -/
inductive Proc
  /-- Between calls: the calls still to make. -/
  | idle (calls : List (List ℕ))
  /-- Inside a call, past `begin_op`: the blocks still to write, and the later calls. -/
  | inTrans (bs : List ℕ) (calls : List (List ℕ))
  /-- In `end_op` after it set `log.committing`: `commit()` and the wakeup remain. -/
  | committing (calls : List (List ℕ))
  deriving DecidableEq, Repr

namespace Proc

/-- `1` for a process inside a call. -/
def active : Proc → ℕ
  | .inTrans _ _ => 1
  | _ => 0

/-- `1` for a process that commits. -/
def commits : Proc → ℕ
  | .committing _ => 1
  | _ => 0

/-- The `log_write`s left in the current call. -/
def budget : Proc → ℕ
  | .inTrans bs _ => bs.length
  | _ => 0

/-- The calls still to start. -/
def calls : Proc → List (List ℕ)
  | .idle calls => calls
  | .inTrans _ calls => calls
  | .committing calls => calls

variable (bs : List ℕ) (calls : List (List ℕ))

@[simp] theorem active_idle : (idle calls).active = 0 := rfl
@[simp] theorem active_inTrans : (inTrans bs calls).active = 1 := rfl
@[simp] theorem active_committing : (committing calls).active = 0 := rfl
@[simp] theorem commits_idle : (idle calls).commits = 0 := rfl
@[simp] theorem commits_inTrans : (inTrans bs calls).commits = 0 := rfl
@[simp] theorem commits_committing : (committing calls).commits = 1 := rfl
@[simp] theorem budget_idle : (idle calls).budget = 0 := rfl
@[simp] theorem budget_inTrans : (inTrans bs calls).budget = bs.length := rfl
@[simp] theorem budget_committing : (committing calls).budget = 0 := rfl

/-- A process keeps within `MAXOPBLOCKS`: the writes left in its call, and every later call. -/
def Within (p : Proc) : Prop :=
  p.budget ≤ maxOpBlocks * p.active ∧ ∀ bs ∈ p.calls, bs.length ≤ maxOpBlocks

theorem Within.begin {bs : List ℕ} {calls : List (List ℕ)} (h : (idle (bs :: calls)).Within) : (inTrans bs calls).Within :=
  ⟨by simpa using h.2 bs List.mem_cons_self, fun bs' hbs' => h.2 bs' (List.mem_cons_of_mem _ hbs')⟩

theorem Within.write {b : ℕ} {bs : List ℕ} {calls : List (List ℕ)} (h : (inTrans (b :: bs) calls).Within) :
    (inTrans bs calls).Within := by
  have hb := h.1
  simp only [budget_inTrans, active_inTrans, List.length_cons] at hb
  exact ⟨by simp only [budget_inTrans, active_inTrans]; omega, h.2⟩

/-- A process that leaves its call, or ends its commit, has no writes left. -/
theorem Within.leave {p q : Proc} (h : p.Within) (hq : q.budget = 0)
    (hcalls : q.calls = p.calls) : q.Within :=
  ⟨by rw [hq]; exact Nat.zero_le _, hcalls ▸ h.2⟩

end Proc

/-- The in-memory log and the processes. -/
structure Sys (ι : Type) where
  log : LogState
  procs : ι → Proc

namespace Sys

variable {ι : Type} [DecidableEq ι]

/-- One locked section of process `i`: `none` while it sleeps in `begin_op`, or once it has
no calls left. -/
def step (σ : Sys ι) (i : ι) : Option (Except String (Sys ι)) :=
  match σ.procs i with
  | .idle [] => none
  | .idle (bs :: calls) =>
    (beginOp σ.log).map fun log => .ok ⟨log, Function.update σ.procs i (.inTrans bs calls)⟩
  | .inTrans (b :: bs) calls =>
    some ((logWrite σ.log b).map fun log => ⟨log, Function.update σ.procs i (.inTrans bs calls)⟩)
  | .inTrans [] calls =>
    some ((endOp σ.log).map fun r =>
      ⟨r.1, Function.update σ.procs i (if r.2 then .committing calls else .idle calls)⟩)
  | .committing calls =>
    some (.ok ⟨finishCommit σ.log, Function.update σ.procs i (.idle calls)⟩)

/-- The kernel at boot with the superblock's `logstart = 2` and `nlog`, every process before
its first call. -/
def boot (nlog : ℕ) (calls : ι → List (List ℕ)) : Sys ι :=
  ⟨initLog 2 nlog, fun i => .idle (calls i)⟩

/-! ### What a step does -/

/-- The steps that do not panic. -/
inductive Move (σ : Sys ι) (i : ι) : Sys ι → Prop
  | begin {bs : List ℕ} {calls : List (List ℕ)} {log : LogState} :
      σ.procs i = .idle (bs :: calls) → beginOp σ.log = some log →
      Move σ i ⟨log, Function.update σ.procs i (.inTrans bs calls)⟩
  | write {b : ℕ} {bs : List ℕ} {calls : List (List ℕ)} {log : LogState} :
      σ.procs i = .inTrans (b :: bs) calls → logWrite σ.log b = .ok log →
      Move σ i ⟨log, Function.update σ.procs i (.inTrans bs calls)⟩
  | endOp {calls : List (List ℕ)} {log : LogState} {c : Bool} :
      σ.procs i = .inTrans [] calls → endOp σ.log = .ok (log, c) →
      Move σ i ⟨log, Function.update σ.procs i (if c then .committing calls else .idle calls)⟩
  | commit {calls : List (List ℕ)} : σ.procs i = .committing calls →
      Move σ i ⟨finishCommit σ.log, Function.update σ.procs i (.idle calls)⟩

theorem move_of_step {σ σ' : Sys ι} {i : ι} (h : σ.step i = some (.ok σ')) : Move σ i σ' := by
  cases hp : σ.procs i with
  | idle calls =>
    cases calls with
    | nil => simp [step, hp] at h
    | cons bs calls =>
      cases hb : beginOp σ.log with
      | none => simp [step, hp, hb] at h
      | some log =>
        simp only [step, hp, hb, Option.map_some, Option.some.injEq, Except.ok.injEq] at h
        exact h ▸ .begin hp hb
  | inTrans bs calls =>
    cases bs with
    | cons b bs =>
      cases hw : logWrite σ.log b with
      | error e => simp [step, hp, hw, Except.map] at h
      | ok log =>
        simp only [step, hp, hw, Except.map, Option.some.injEq, Except.ok.injEq] at h
        exact h ▸ .write hp hw
    | nil =>
      cases he : endOp σ.log with
      | error e => simp [step, hp, he, Except.map] at h
      | ok r =>
        simp only [step, hp, he, Except.map, Option.some.injEq, Except.ok.injEq] at h
        exact h ▸ .endOp hp he
  | committing calls =>
    simp only [step, hp, Option.some.injEq, Except.ok.injEq] at h
    exact h ▸ .commit hp

/-- The steps that panic: a `log_write`, or an `end_op`. -/
theorem step_error {σ : Sys ι} {i : ι} {e : String} (h : σ.step i = some (.error e)) :
    (∃ b bs calls, σ.procs i = .inTrans (b :: bs) calls ∧ logWrite σ.log b = .error e) ∨
      ∃ calls, σ.procs i = .inTrans [] calls ∧ endOp σ.log = .error e := by
  cases hp : σ.procs i with
  | idle calls =>
    cases calls with
    | nil => simp [step, hp] at h
    | cons bs calls => cases hb : beginOp σ.log <;> simp [step, hp, hb] at h
  | inTrans bs calls =>
    cases bs with
    | cons b bs =>
      cases hw : logWrite σ.log b with
      | error e' =>
        simp only [step, hp, hw, Except.map, Option.some.injEq, Except.error.injEq] at h
        subst h
        exact .inl ⟨b, bs, calls, rfl, hw⟩
      | ok log => simp [step, hp, hw, Except.map] at h
    | nil =>
      cases he : endOp σ.log with
      | error e' =>
        simp only [step, hp, he, Except.map, Option.some.injEq, Except.error.injEq] at h
        subst h
        exact .inr ⟨calls, rfl, rfl⟩
      | ok r => simp [step, hp, he, Except.map] at h
  | committing calls => simp [step, hp] at h

theorem logWrite_counts {log log' : LogState} {b : ℕ} (h : logWrite log b = .ok log') :
    log'.outstanding = log.outstanding ∧ log'.committing = log.committing ∧
      log'.size = log.size ∧ log'.lh.n ≤ log.lh.n + 1 := by
  obtain ⟨-, -, -, rfl⟩ := logWrite_eq_ok h
  split_ifs
  · exact ⟨rfl, rfl, rfl, Nat.le_succ _⟩
  · exact ⟨rfl, rfl, rfl, by simp [LogHeader.n]⟩

/-! ### The bookkeeping of `struct log` -/

section Counts

variable [Fintype ι]

/-- `log.outstanding` and `log.committing` against the processes. -/
structure Counts (σ : Sys ι) : Prop where
  outstanding : σ.log.outstanding = ((∑ i, (σ.procs i).active : ℕ) : ℤ)
  committing : ∑ i, (σ.procs i).commits = if σ.log.committing then 1 else 0
  quiet : σ.log.committing = true → ∑ i, (σ.procs i).active = 0

omit [DecidableEq ι] in
theorem counts_boot (nlog : ℕ) (calls : ι → List (List ℕ)) : Counts (boot nlog calls) :=
  ⟨by simp [boot, initLog, Proc.active], by simp [boot, initLog, Proc.commits],
    fun h => absurd h (by simp [boot, initLog])⟩

variable {σ : Sys ι}

omit [DecidableEq ι] in
/-- A process inside a call is counted, so `log_write` is inside a transaction. -/
theorem Counts.outstanding_pos (h : Counts σ) {i : ι} (hi : (σ.procs i).active = 1) :
    1 ≤ σ.log.outstanding := by
  have := le_sum Proc.active σ.procs i
  rw [h.outstanding]
  omega

omit [DecidableEq ι] in
/-- No commit runs while a process is inside a call. -/
theorem Counts.not_committing (h : Counts σ) {i : ι} (hi : (σ.procs i).active = 1) :
    σ.log.committing = false := by
  by_contra hc
  have := le_sum Proc.active σ.procs i
  have := h.quiet (by simpa using hc)
  omega

omit [DecidableEq ι] in
/-- A committing process means `log.committing` is set. -/
theorem Counts.committing_of_commits (h : Counts σ) {i : ι} (hi : (σ.procs i).commits = 1) :
    σ.log.committing = true := by
  by_contra hc
  have := le_sum Proc.commits σ.procs i
  rw [h.committing, if_neg hc] at this
  omega

theorem Counts.begin (h : Counts σ) {i : ι} {bs : List ℕ} {calls : List (List ℕ)}
    {log : LogState} (hp : σ.procs i = .idle (bs :: calls)) (hb : beginOp σ.log = some log) :
    Counts ⟨log, Function.update σ.procs i (.inTrans bs calls)⟩ := by
  obtain ⟨hc, -, rfl⟩ := beginOp_eq_some hb
  have hact := sum_update_add Proc.active σ.procs i (.inTrans bs calls)
  have hcom := sum_update_add Proc.commits σ.procs i (.inTrans bs calls)
  rw [hp] at hact hcom
  simp only [Proc.active_idle, Proc.active_inTrans, Proc.commits_idle, Proc.commits_inTrans]
    at hact hcom
  have h₁ := h.outstanding
  have h₂ := h.committing
  rw [hc, if_neg Bool.false_ne_true] at h₂
  refine ⟨?_, ?_, fun hc' => absurd (hc ▸ hc') Bool.false_ne_true⟩
  · simp only
    omega
  · simp only [hc, if_neg Bool.false_ne_true]
    omega

theorem Counts.write (h : Counts σ) {i : ι} {b : ℕ} {bs : List ℕ} {calls : List (List ℕ)}
    {log : LogState} (hp : σ.procs i = .inTrans (b :: bs) calls) (hw : logWrite σ.log b = .ok log) :
    Counts ⟨log, Function.update σ.procs i (.inTrans bs calls)⟩ := by
  obtain ⟨hout, hc, -, -⟩ := logWrite_counts hw
  have hact := sum_update_add Proc.active σ.procs i (.inTrans bs calls)
  have hcom := sum_update_add Proc.commits σ.procs i (.inTrans bs calls)
  rw [hp] at hact hcom
  simp only [Proc.active_inTrans, Proc.commits_inTrans, Nat.add_right_cancel_iff] at hact hcom
  refine ⟨?_, ?_, fun hc' => ?_⟩
  · simp only [hout, hact]
    exact h.outstanding
  · simp only [hc, hcom]
    exact h.committing
  · simp only [hact]
    exact h.quiet (hc ▸ hc')

theorem Counts.endOp (h : Counts σ) {i : ι} {calls : List (List ℕ)} {log : LogState} {c : Bool}
    (hp : σ.procs i = .inTrans [] calls) (he : endOp σ.log = .ok (log, c)) :
    Counts ⟨log, Function.update σ.procs i (if c then .committing calls else .idle calls)⟩ := by
  obtain ⟨hc, hcz, rfl⟩ := endOp_eq_ok he
  have h₁ := h.outstanding
  have h₂ := h.committing
  rw [hc, if_neg Bool.false_ne_true] at h₂
  -- the process leaves the call; it commits exactly when it was the last one inside
  cases c with
  | true =>
    have hz : σ.log.outstanding - 1 = 0 := of_decide_eq_true hcz.symm
    have hact := sum_update_add Proc.active σ.procs i (.committing calls)
    have hcom := sum_update_add Proc.commits σ.procs i (.committing calls)
    rw [hp, Proc.active_inTrans, Proc.active_committing] at hact
    rw [hp, Proc.commits_inTrans, Proc.commits_committing] at hcom
    rw [if_pos rfl]
    refine ⟨?_, ?_, fun _ => ?_⟩ <;> dsimp only
    · omega
    · rw [if_pos rfl]
      omega
    · omega
  | false =>
    have hz : ¬ σ.log.outstanding - 1 = 0 := of_decide_eq_false hcz.symm
    have hact := sum_update_add Proc.active σ.procs i (.idle calls)
    have hcom := sum_update_add Proc.commits σ.procs i (.idle calls)
    rw [hp, Proc.active_inTrans, Proc.active_idle] at hact
    rw [hp, Proc.commits_inTrans, Proc.commits_idle] at hcom
    rw [if_neg Bool.false_ne_true]
    refine ⟨?_, ?_, fun hf => absurd hf Bool.false_ne_true⟩ <;> dsimp only
    · omega
    · rw [if_neg Bool.false_ne_true]
      omega

theorem Counts.commit (h : Counts σ) {i : ι} {calls : List (List ℕ)}
    (hp : σ.procs i = .committing calls) :
    Counts ⟨finishCommit σ.log, Function.update σ.procs i (.idle calls)⟩ := by
  have hc := h.committing_of_commits (by rw [hp]; rfl)
  have hact := sum_update_add Proc.active σ.procs i (.idle calls)
  have hcom := sum_update_add Proc.commits σ.procs i (.idle calls)
  rw [hp] at hact hcom
  simp only [Proc.active_committing, Proc.active_idle, Proc.commits_committing,
    Proc.commits_idle] at hact hcom
  have h₁ := h.outstanding
  have h₂ := h.committing
  have h₃ := h.quiet hc
  rw [hc, if_pos rfl] at h₂
  refine ⟨?_, ?_, fun hf => absurd hf Bool.false_ne_true⟩
  · simp only [finishCommit]
    omega
  · simp only [finishCommit, Bool.false_eq_true, if_false]
    omega

/-- **Every step keeps the bookkeeping.** -/
theorem Counts.move (h : Counts σ) {i : ι} {σ' : Sys ι} (hm : Move σ i σ') : Counts σ' := by
  cases hm with
  | begin hp hb => exact h.begin hp hb
  | write hp hw => exact h.write hp hw
  | endOp hp he => exact h.endOp hp he
  | commit hp => exact h.commit hp

theorem counts_of_reachable {nlog : ℕ} {calls : ι → List (List ℕ)} {σ : Sys ι}
    (hσ : Reachable step (boot nlog calls) σ) : Counts σ :=
  hσ.induction (counts_boot nlog calls) fun _ _ _ h hs => h.move (move_of_step hs)

/-- With any calls, the only panic reachable from boot is the log running out of space:
`log_write` is always inside a transaction, and `end_op` never meets a running commit. -/
theorem step_error_too_big {nlog : ℕ} {calls : ι → List (List ℕ)} {σ : Sys ι} {i : ι}
    {e : String} (hσ : Reachable step (boot nlog calls) σ) (he : σ.step i = some (.error e)) :
    e = "too big a transaction" := by
  have h := counts_of_reachable hσ
  rcases step_error he with ⟨b, bs, calls, hp, hw⟩ | ⟨calls, hp, hend⟩
  · rcases logWrite_eq_error hw with ⟨rfl, -⟩ | ⟨-, hout⟩
    · rfl
    · have := h.outstanding_pos (by rw [hp]; rfl)
      omega
  · have := h.not_committing (by rw [hp]; rfl)
    rw [(endOp_eq_error hend).2] at this
    cases this

/-! ### Room in the log -/

/-- The log has room for what the processes inside a call have still to write: each keeps
within `MAXOPBLOCKS`, and the header with all their writes left fits in `LOGSIZE`. -/
structure Room (σ : Sys ι) : Prop where
  size : logSize + 1 ≤ σ.log.size
  fits : σ.log.lh.n + ∑ i, (σ.procs i).budget ≤ logSize
  within : ∀ i, (σ.procs i).Within

omit [DecidableEq ι] in
theorem room_boot {nlog : ℕ} (hnlog : logSize + 1 ≤ nlog) {calls : ι → List (List ℕ)}
    (hcalls : ∀ i, ∀ bs ∈ calls i, bs.length ≤ maxOpBlocks) : Room (boot nlog calls) :=
  ⟨hnlog, by simp [boot, initLog, LogHeader.n, logSize, maxOpBlocks],
    fun i => ⟨by simp [boot], hcalls i⟩⟩

variable {σ : Sys ι}

/-- `begin_op` goes only with room for `MAXOPBLOCKS` more blocks than the calls inside
have left. -/
theorem Room.begin (h : Room σ) (hc : Counts σ) {i : ι} {bs : List ℕ} {calls : List (List ℕ)}
    {log : LogState} (hp : σ.procs i = .idle (bs :: calls)) (hb : beginOp σ.log = some log) :
    Room ⟨log, Function.update σ.procs i (.inTrans bs calls)⟩ := by
  obtain ⟨-, hroom, rfl⟩ := beginOp_eq_some hb
  have hi : (Proc.inTrans bs calls).Within := (hp ▸ h.within i).begin
  have hsum := sum_update_add Proc.budget σ.procs i (.inTrans bs calls)
  rw [hp, Proc.budget_idle, Proc.budget_inTrans] at hsum
  have hbs := hi.1
  rw [Proc.budget_inTrans, Proc.active_inTrans] at hbs
  -- the calls inside have at most `MAXOPBLOCKS` writes left each
  have hres : ∑ j, (σ.procs j).budget ≤ maxOpBlocks * ∑ j, (σ.procs j).active :=
    sum_le_mul_sum fun j => (h.within j).1
  have hout := hc.outstanding
  refine ⟨h.size, ?_, forall_update (Q := Proc.Within) hi h.within⟩
  simp only [logSize, maxOpBlocks] at hroom hres hbs ⊢
  omega

/-- A `log_write` spends one of the writes its call has left. -/
theorem Room.write (h : Room σ) {i : ι} {b : ℕ} {bs : List ℕ} {calls : List (List ℕ)}
    {log : LogState} (hp : σ.procs i = .inTrans (b :: bs) calls) (hw : logWrite σ.log b = .ok log) :
    Room ⟨log, Function.update σ.procs i (.inTrans bs calls)⟩ := by
  obtain ⟨-, -, hsize, hn⟩ := logWrite_counts hw
  have hsum := sum_update_add Proc.budget σ.procs i (.inTrans bs calls)
  rw [hp, Proc.budget_inTrans, Proc.budget_inTrans, List.length_cons] at hsum
  have hfits := h.fits
  exact ⟨hsize ▸ h.size, by dsimp only; omega,
    forall_update (Q := Proc.Within) (hp ▸ h.within i).write h.within⟩

theorem Room.endOp (h : Room σ) {i : ι} {calls : List (List ℕ)} {log : LogState} {c : Bool}
    (hp : σ.procs i = .inTrans [] calls) (he : endOp σ.log = .ok (log, c)) :
    Room ⟨log, Function.update σ.procs i (if c then .committing calls else .idle calls)⟩ := by
  obtain ⟨-, -, rfl⟩ := endOp_eq_ok he
  -- the process leaves with nothing left to write, whether it commits or not
  have hnone : (if c then Proc.committing calls else .idle calls).budget = 0 := by
    cases c <;> rfl
  have hcalls : (if c then Proc.committing calls else .idle calls).calls = calls := by
    cases c <;> rfl
  have hsum := sum_update_add Proc.budget σ.procs i (if c then .committing calls else .idle calls)
  rw [hp, Proc.budget_inTrans, hnone] at hsum
  have hfits := h.fits
  exact ⟨h.size, by dsimp only; omega,
    forall_update (Q := Proc.Within) ((hp ▸ h.within i).leave hnone hcalls) h.within⟩

theorem Room.commit (h : Room σ) {i : ι} {calls : List (List ℕ)}
    (hp : σ.procs i = .committing calls) :
    Room ⟨finishCommit σ.log, Function.update σ.procs i (.idle calls)⟩ := by
  have hsum := sum_update_add Proc.budget σ.procs i (.idle calls)
  rw [hp, Proc.budget_committing, Proc.budget_idle] at hsum
  have hfits := h.fits
  refine ⟨h.size, ?_,
    forall_update (Q := Proc.Within) ((hp ▸ h.within i).leave rfl rfl) h.within⟩
  -- the commit empties the header
  simp only [finishCommit, LogHeader.n, List.length_nil]
  omega

theorem Room.move (h : Room σ) (hc : Counts σ) {i : ι} {σ' : Sys ι} (hm : Move σ i σ') :
    Room σ' := by
  cases hm with
  | begin hp hb => exact h.begin hc hp hb
  | write hp hw => exact h.write hp hw
  | endOp hp he => exact h.endOp hp he
  | commit hp => exact h.commit hp

/-- With room in the log, no step panics: a process with a write left has a log block left. -/
theorem Room.step_ne_error (h : Room σ) (hc : Counts σ) (i : ι) (e : String) :
    σ.step i ≠ some (.error e) := by
  intro he
  rcases step_error he with ⟨b, bs, calls, hp, hw⟩ | ⟨calls, hp, hend⟩
  · have hi := le_sum Proc.budget σ.procs i
    rw [hp, Proc.budget_inTrans, List.length_cons] at hi
    have hfits := h.fits
    have hsize := h.size
    rcases logWrite_eq_error hw with ⟨-, hbig⟩ | ⟨-, hout⟩
    · simp only [logSize, maxOpBlocks] at hfits hsize hbig
      omega
    · have := hc.outstanding_pos (by rw [hp]; rfl)
      omega
  · have := hc.not_committing (by rw [hp]; rfl)
    rw [(endOp_eq_error hend).2] at this
    cases this

/-- **A log with a block for its header never overflows.** With `nlog ≥ LOGSIZE + 1`, and
calls of at most `MAXOPBLOCKS` `log_write`s each, no step of any interleaving panics. -/
theorem log_space_safe {nlog : ℕ} (hnlog : logSize + 1 ≤ nlog) {calls : ι → List (List ℕ)}
    (hcalls : ∀ i, ∀ bs ∈ calls i, bs.length ≤ maxOpBlocks) {σ : Sys ι}
    (hσ : Reachable step (boot nlog calls) σ) (i : ι) (e : String) :
    σ.step i ≠ some (.error e) := by
  have hinv : Counts σ ∧ Room σ :=
    hσ.induction ⟨counts_boot nlog calls, room_boot hnlog hcalls⟩
      fun _ _ _ h hs => ⟨h.1.move (move_of_step hs), h.2.move h.1 (move_of_step hs)⟩
  exact hinv.2.step_ne_error hinv.1 i e

end Counts

/-! ### The log as `mkfs` sizes it -/

/-- Three processes, each with one call that writes ten distinct blocks of its own. -/
def tenBlocks (i : Fin 3) : List (List ℕ) := [(List.range 10).map fun k => 100 * (i.val + 1) + k]

/-- The three `begin_op`s, then the writes of the processes in turn. -/
def traceTooBig : List (Fin 3) :=
  [0, 1, 2] ++ List.replicate 10 0 ++ List.replicate 10 1 ++ List.replicate 10 2

/-- With `nlog = LOGSIZE`, the three calls pass `begin_op` together, and the last one's
tenth `log_write` finds `lh.n = 29 ≥ log.size - 1`. -/
theorem log_space_overflow :
    (∀ i, ∀ bs ∈ tenBlocks i, bs.dedup.length ≤ maxOpBlocks) ∧
      ∃ σ i, Reachable step (boot logSize tenBlocks) σ ∧
        σ.step i = some (.error "too big a transaction") :=
  ⟨by decide +kernel, exists_error_of_run traceTooBig (by decide +kernel)⟩

end Sys

end Xv6Lab.Log
