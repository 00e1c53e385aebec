import Xv6Lab.Proc.Table

/-!
# Process ids wrap

`allocpid` hands out `nextpid` and increments it, and `nextpid` is an `int`: nothing bounds the
number of pids a run allocates, and `allocproc` allocates one even when the `kalloc` after it
fails and `freeproc` gives the slot back. From `boot`, `initproc` forking again and again with
every allocation failing moves `nextpid` on by one each time (`reachable_failedForks`): after
`2^31 - 2` of them it has wrapped to `-2^31`, and after `2^32 - 2` it is back at `1`, the pid of
`initproc` itself.
-/

namespace Xv6Lab.Procs

open Interleave

/-- The slot `fork` takes below. -/
def slot1 : Slot := ⟨1, one_lt_nproc⟩

/-- `initproc`, running in user space, with `ret` as the result of its last system call. -/
def initRunning (ret : ℤ) : Proc := { Proc.zero with pid := 1, state := .running, ret := ret }

/-- `initproc` running, every other slot as static memory leaves it, and `nextpid = n`. -/
def forking (ret : ℤ) (n : Int32) : Sys := (⟨fun _ => Proc.zero, n⟩ : Sys).set initproc (initRunning ret)

theorem Sys.set_set_self (σ : Sys) (i : Slot) (p p' : Proc) : (σ.set i p).set i p' = σ.set i p' := by
  simp only [Sys.set, Function.update_idem]

theorem Sys.set_of_eq {σ : Sys} {i : Slot} {p : Proc} (h : σ.proc i = p) : σ.set i p = σ := by
  rw [Sys.set, ← h, Function.update_eq_self]

theorem forking_slot1 (ret : ℤ) (n : Int32) : (forking ret n).proc slot1 = Proc.zero :=
  Sys.set_apply_of_ne _ (by decide) _

theorem forking_init (ret : ℤ) (n : Int32) : (forking ret n).proc initproc = initRunning ret := by
  rw [forking, Sys.set_apply, if_pos rfl]

/-- The scheduler switches to `initproc`. -/
theorem step_boot_sched : boot.step (initproc, .sched) = some (.ok (forking 0 2)) := by
  have hb : boot = (⟨fun _ => Proc.zero, 2⟩ : Sys).set initproc
      { Proc.zero with pid := 1, state := .runnable } := rfl
  have hp : boot.proc initproc = { Proc.zero with pid := 1, state := .runnable } := by
    rw [hb, Sys.set_apply, if_pos rfl]
  simp only [Sys.step, hp, if_true]
  rw [hb, Sys.set_set_self]
  rfl

/-- A `fork` of `initproc` whose allocation fails takes a pid and gives the slot back. -/
theorem step_forking_fail (ret : ℤ) (n : Int32) :
    (forking ret n).step (initproc, .fork (some slot1) false) = some (.ok (forking (-1) (n + 1))) := by
  have hs : (forking ret n).proc slot1 = Proc.zero := forking_slot1 ret n
  have hi : (forking ret n).proc initproc = initRunning ret := forking_init ret n
  simp only [Sys.step, hi, Sys.fork, hs]
  rw [if_pos ⟨rfl, rfl⟩, if_pos ⟨rfl, by decide⟩, if_neg Bool.false_ne_true]
  -- `freeproc` leaves slot 1 as it was, and `initproc` only gets its `-1`
  have hσ : ({ proc := (forking ret n).proc, nextpid := (forking ret n).nextpid + 1 } : Sys) =
      (⟨fun _ => Proc.zero, n + 1⟩ : Sys).set initproc (initRunning ret) := rfl
  rw [hσ, Sys.set_comm _ (by decide : initproc ≠ slot1),
    Sys.set_of_eq (σ := ⟨fun _ => Proc.zero, n + 1⟩) (i := slot1) (p := Proc.zero.free) rfl, Sys.set_set_self]
  rfl

/-- A `fork` of `initproc` that succeeds gives slot 1 the pid `nextpid`. -/
theorem step_forking_ok (ret : ℤ) (n : Int32) :
    ∃ σ', (forking ret n).step (initproc, .fork (some slot1) true) = some (.ok σ') ∧
      (σ'.proc slot1).state = .used ∧ (σ'.proc slot1).pid = n.toInt ∧
      (σ'.proc initproc).state = .running ∧ (σ'.proc initproc).pid = 1 := by
  have hs : (forking ret n).proc slot1 = Proc.zero := forking_slot1 ret n
  have hi : (forking ret n).proc initproc = initRunning ret := forking_init ret n
  simp only [Sys.step, hi, Sys.fork, hs]
  rw [if_pos ⟨rfl, rfl⟩, if_pos ⟨rfl, by decide⟩, if_pos trivial]
  exact ⟨_, rfl, rfl, rfl, rfl, rfl⟩

theorem int32_ofNat_succ (k : ℕ) : Int32.ofNat (k + 1) = Int32.ofNat k + 1 := by
  apply Int32.toBitVec_inj.mp
  simp

/-- After `k + 1` failed forks from `boot`, `nextpid` is `3 + k`, as an `int`. -/
theorem reachable_failedForks : ∀ k : ℕ, Reachable Sys.step boot (forking (-1) (3 + Int32.ofNat k))
  | 0 => .step (.step .refl step_boot_sched) (step_forking_fail 0 2)
  | k + 1 => by
    rw [int32_ofNat_succ, ← Int32.add_assoc]
    exact .step (reachable_failedForks k) (step_forking_fail (-1) _)

/-- **Pids wrap.** A run from `boot` of `initproc` forking, every allocation but the last
failing, reaches a `USED` process with pid `-2^31`, and one that shares its pid `1` with
`initproc`, which is running. -/
theorem allocpid_wraps :
    (∃ σ, Reachable Sys.step boot σ ∧ (σ.proc slot1).state = .used ∧
      (σ.proc slot1).pid = -2147483648) ∧
    (∃ σ, Reachable Sys.step boot σ ∧ (σ.proc initproc).state = .running ∧
      (σ.proc slot1).state = .used ∧ (σ.proc slot1).pid = (σ.proc initproc).pid) := by
  constructor
  · -- `2^31 - 2` failed forks: `nextpid` has wrapped to `INT_MIN`
    obtain ⟨σ, hs, hu, hp, -, -⟩ := step_forking_ok (-1) (3 + Int32.ofNat (2 ^ 31 - 3))
    refine ⟨σ, .step (reachable_failedForks _) hs, hu, ?_⟩
    rw [hp]
    decide
  · -- `2^32 - 1` failed forks: `nextpid` is back at `1`
    obtain ⟨σ, hs, hu, hp, hr, hi⟩ := step_forking_ok (-1) (3 + Int32.ofNat (2 ^ 32 - 2))
    refine ⟨σ, .step (reachable_failedForks _) hs, hr, hu, ?_⟩
    rw [hp, hi]
    decide

end Xv6Lab.Procs
