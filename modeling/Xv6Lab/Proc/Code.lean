import Mathlib.Data.Fintype.Basic
import Mathlib.Data.List.FinRange
import Xv6Lab.Lib.Interleave

/-!
# The process table

`proc.c`'s life cycle of a process: `fork`, `exit`, `wait`, `kill`, `sleep` and `wakeup`,
and the scheduler. Each section of this code that runs under `wait_lock` or under a
`p->lock` is one step of the model:

* `fork` is three sections: `allocproc` through `release(&np->lock)`, which claims an
  `UNUSED` slot (or frees it again when an allocation or `uvmcopy` fails); the
  `np->parent = p` under `wait_lock`; and `np->state = RUNNABLE` under `np->lock`;
* `exit`'s section under `wait_lock`: `reparent`, `wakeup(p->parent)` and the move to
  `ZOMBIE`;
* `wait`'s scan under `wait_lock`, together with the entry into `sleep`, to which it hands
  the lock over: it reaps a `ZOMBIE` child, returns `-1`, or sleeps on its own address;
* `kill`, `yield`, a `sleep` on some other channel, one iteration of `wakeup`'s loop on
  such a channel, and the scheduler's switch to a `RUNNABLE` process, which ends in
  `sleep`'s `p->chan = 0`.

Where a process's kernel thread resumes is the ghost `Proc.pc`. Memory, files and the
trapframe beyond its `a0` are left out; so are `p->name` and the CPUs.
-/

namespace Xv6Lab.Procs

/-- `NPROC`. -/
def nproc : ℕ := 64

/-- A slot of `proc[NPROC]`. -/
abbrev Slot := Fin nproc

/-- `initproc`: `userinit` takes the first `UNUSED` slot. -/
def initproc : Slot := ⟨0, by decide⟩

theorem one_lt_nproc : 1 < nproc := by decide

/-- `enum procstate`. -/
inductive ProcState
  | unused | used | sleeping | runnable | running | zombie
  deriving DecidableEq, Repr

/-- A sleep channel: the address of a process (`sleep(p, &wait_lock)` in `wait`, and the
`wakeup(initproc)` and `wakeup(p->parent)` of `exit`), or any other address. -/
inductive Chan
  | proc (p : Slot)
  | other (c : ℕ)
  deriving DecidableEq, Repr

/-- Where a process's kernel thread goes on: back to user space, into the second or third
section of a `fork` of child `np` with pid `pid`, or into `wait`'s scan again after its
`sleep`. -/
inductive Pc
  | user
  | forkParent (np : Slot) (pid : ℤ)
  | forkRun (np : Slot) (pid : ℤ)
  | waitScan
  deriving DecidableEq, Repr

/-- The fields of `struct proc` this code reads, with `trapframe->a0` as `ret`. -/
structure Proc where
  state : ProcState
  chan : Option Chan
  killed : Bool
  xstate : ℤ
  pid : ℤ
  parent : Option Slot
  pc : Pc
  ret : ℤ
  deriving DecidableEq, Repr

/-- The process table and `nextpid`, an `int` that wraps. -/
structure Sys where
  proc : Slot → Proc
  nextpid : Int32

/-- One slot changed. -/
def Sys.set (σ : Sys) (i : Slot) (p : Proc) : Sys :=
  { σ with proc := Function.update σ.proc i p }

/-- `freeproc(p)`. -/
def Proc.free (p : Proc) : Proc :=
  { p with pid := 0, parent := none, chan := none, killed := false, xstate := 0,
           state := .unused }

/-- `wakeup(chan)` called by `self`: every other process asleep on `chan` becomes
`RUNNABLE`. -/
def wakeup (ps : Slot → Proc) (self : Slot) (ch : Chan) : Slot → Proc := fun q =>
  if q ≠ self ∧ (ps q).state = .sleeping ∧ (ps q).chan = some ch then
    { ps q with state := .runnable }
  else ps q

/-- The loop of `reparent(p)` without its wakeups: `pp->parent = initproc` for every child
`pp` of `p`. -/
def adopt (ps : Slot → Proc) (p : Slot) : Slot → Proc := fun q =>
  if (ps q).parent = some p then { ps q with parent := some initproc } else ps q

/-- `reparent(p)`: `p`'s children go to `initproc`, and `initproc` is woken if there were
any. -/
def reparent (ps : Slot → Proc) (p : Slot) : Slot → Proc :=
  if (List.finRange nproc).any (fun q => (ps q).parent = some p) then
    wakeup (adopt ps p) p (.proc initproc)
  else adopt ps p

/-- `fork`'s first section, from `allocproc` to `release(&np->lock)`. `np` is the slot
`allocproc` finds `UNUSED`, `none` if it finds none; `ok` says that `kalloc`,
`proc_pagetable` and `uvmcopy` succeed. -/
def Sys.fork (σ : Sys) (i : Slot) (np : Option Slot) (ok : Bool) : Option (Except String Sys) :=
  let p := σ.proc i
  match np with
  | none => some (.ok (σ.set i { p with ret := -1 }))
  | some np =>
    if (σ.proc np).state = .unused ∧ np ≠ i then
      -- `allocpid()`
      let pid := σ.nextpid
      let σ₁ : Sys := { σ with nextpid := pid + 1 }
      if ok then
        -- `allocproc` with `context.ra = forkret`, and the child's `a0 = 0`
        let σ₂ := σ₁.set np { σ.proc np with pid := pid.toInt, state := .used, pc := .user, ret := 0 }
        some (.ok (σ₂.set i { p with pc := .forkParent np pid.toInt }))
      else
        let σ₂ := σ₁.set np (σ.proc np).free
        some (.ok (σ₂.set i { p with ret := -1 }))
    else none

/-- `fork`'s `np->parent = p` under `wait_lock`. -/
def Sys.forkParent (σ : Sys) (i np : Slot) (pid : ℤ) : Sys :=
  let σ₁ := σ.set np { σ.proc np with parent := some i }
  σ₁.set i { σ₁.proc i with pc := .forkRun np pid }

/-- `fork`'s `np->state = RUNNABLE` under `np->lock`; `fork` returns the child's pid. -/
def Sys.forkRun (σ : Sys) (i np : Slot) (pid : ℤ) : Sys :=
  let σ₁ := σ.set np { σ.proc np with state := .runnable }
  σ₁.set i { σ₁.proc i with pc := .user, ret := pid }

/-- `exit(status)`'s section under `wait_lock`. -/
def Sys.exit (σ : Sys) (i : Slot) (status : ℤ) : Except String Sys :=
  if i = initproc then .error "init exiting"
  else
    let ps₁ := reparent σ.proc i
    -- `wakeup(p->parent)` reads the parent after `reparent`
    let ps₂ := match (ps₁ i).parent with
      | some r => wakeup ps₁ i (.proc r)
      | none => ps₁
    .ok { σ with proc := Function.update ps₂ i { ps₂ i with xstate := status, state := .zombie } }

/-- The first `ZOMBIE` child of `i` in table order. -/
def zombieChild (ps : Slot → Proc) (i : Slot) : Option Slot :=
  (List.finRange nproc).find? fun q => (ps q).parent = some i ∧ (ps q).state = .zombie

/-- `wait`'s scan under `wait_lock`, with the entry into `sleep(p, &wait_lock)`. `ok` says
that the copyout of the status succeeds or `addr` is `0`. -/
def Sys.wait (σ : Sys) (i : Slot) (ok : Bool) : Sys :=
  let p := σ.proc i
  match zombieChild σ.proc i with
  | some pp =>
    if ok then
      let σ₁ := σ.set pp (σ.proc pp).free
      σ₁.set i { σ₁.proc i with pc := .user, ret := (σ.proc pp).pid }
    else σ.set i { p with pc := .user, ret := -1 }
  | none =>
    let havekids := (List.finRange nproc).any fun q => (σ.proc q).parent = some i
    if !havekids || p.killed then σ.set i { p with pc := .user, ret := -1 }
    else σ.set i { p with chan := some (.proc i), state := .sleeping, pc := .waitScan }

/-- `kill(pid)`: the first process with that pid is marked killed and woken from a
`sleep`. -/
def Sys.kill (σ : Sys) (i : Slot) (pid : ℤ) : Sys :=
  match (List.finRange nproc).find? (fun q => (σ.proc q).pid = pid) with
  | some q =>
    let pq := σ.proc q
    let σ₁ := σ.set q { pq with killed := true,
                                state := if pq.state = .sleeping then .runnable else pq.state }
    σ₁.set i { σ₁.proc i with ret := 0 }
  | none => σ.set i { σ.proc i with ret := -1 }

/-- What a party does in one step: a section of a system call of its own, or, for
`sched`, being switched to by a scheduler. -/
inductive Act
  | fork (np : Option Slot) (ok : Bool)
  | forkParent
  | forkRun
  | exit (status : ℤ)
  | wait (ok : Bool)
  | kill (pid : ℤ)
  | yield
  | sleep (c : ℕ)
  | wakeup (c : ℕ) (q : Slot)
  | sched
  deriving DecidableEq, Repr

/-- One step of process `i`. Only a `RUNNING` process runs its own code, and a system call
starts only from user space. -/
def Sys.step (σ : Sys) : Slot × Act → Option (Except String Sys)
  | (i, a) =>
    let p := σ.proc i
    let running := p.state = .running
    let user := p.pc = .user
    match a with
    | .sched =>
      if p.state = .runnable then some (.ok (σ.set i { p with state := .running, chan := none }))
      else none
    | .yield => if running then some (.ok (σ.set i { p with state := .runnable })) else none
    | .fork np ok => if running ∧ user then σ.fork i np ok else none
    | .forkParent =>
      match p.pc with
      | .forkParent np pid => if running then some (.ok (σ.forkParent i np pid)) else none
      | _ => none
    | .forkRun =>
      match p.pc with
      | .forkRun np pid => if running then some (.ok (σ.forkRun i np pid)) else none
      | _ => none
    | .exit status => if running ∧ user then some (σ.exit i status) else none
    | .wait ok =>
      if running ∧ (user ∨ p.pc = .waitScan) then some (.ok (σ.wait i ok)) else none
    | .kill pid => if running ∧ user then some (.ok (σ.kill i pid)) else none
    | .sleep c =>
      if running ∧ user then
        some (.ok (σ.set i { p with chan := some (.other c), state := .sleeping }))
      else none
    | .wakeup c q =>
      if running ∧ user then some (.ok (σ.set q (wakeup σ.proc i (.other c) q))) else none

/-- A slot as static memory leaves it. -/
def Proc.zero : Proc := ⟨.unused, none, false, 0, 0, none, .user, 0⟩

/-- The table after `procinit` and `userinit`: `initproc` is `RUNNABLE` with pid `1`. -/
def boot : Sys :=
  { proc := Function.update (fun _ => Proc.zero) initproc
      { Proc.zero with pid := 1, state := .runnable }
    nextpid := 2 }

end Xv6Lab.Procs
