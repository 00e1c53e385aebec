import Xv6Lab.FS.ReadWrite
import Xv6Lab.Lib.Interleave

/-!
# Pipes (`kernel/pipe.c`)

A pipe is a ring of `PIPESIZE` bytes with two free-running `uint` counters: `nwrite` bytes
have been stored at `data[nwrite % PIPESIZE]` and `nread` taken from `data[nread % PIPESIZE]`.

`pipewrite` and `piperead` loop one byte at a time under the pipe's spinlock, and sleep
(releasing it) when the pipe is full or empty. A process in one of them is at a point of its
loop (`Call`): `pipewrite` at the test of `while (i < n)` with `i` bytes written, `piperead`
in the loop that waits for data, or in the copy loop with `i` bytes copied. One step runs one
pass of the loop. The lock makes a pass atomic; it also keeps other calls out between the
passes of one run of a loop, which the model does not: the model lets every other step in
there, so its runs include every schedule the kernel can take. A sleeping call can be
resumed at any time, as a wakeup may come at any time and the loops test again.

`kill` sets `p->killed` at any time. `pipeclose` clears `readopen` or `writeopen` (the
`kfree` when both are clear is not modelled). User memory is the model of `copyin` and
`copyout` of `FS.ReadWrite`, one byte at a time as here. The state also records, as ghost
state for the proofs, every byte stored into `data` and every byte a reader's `copyout`
delivered, in order.
-/

namespace Xv6Lab.Pipes

open FS (Mem copyinLoop copyoutLoop)

/-- `PIPESIZE`. -/
def pipesize : ℕ := 512

/-- `struct pipe` without its lock; `readopen` and `writeopen` only ever hold `0` or `1`. -/
structure Pipe where
  data : ℕ → UInt8
  nread : UInt32
  nwrite : UInt32
  readopen : Bool
  writeopen : Bool

/-- `copyin(pagetable, &ch, va, 1)`: the byte, or `none` for a return of `-1`. -/
def copyinByte (mem : Mem) (va : ℕ) : Option UInt8 :=
  let r := copyinLoop mem 1 (fun _ => 0) 0 va 1
  if r.2 then some (r.1 0) else none

/-- `copyout(pagetable, va, &ch, 1)`: the memory after it, or `none` for a return of `-1`. -/
def copyoutByte (mem : Mem) (va : ℕ) (ch : UInt8) : Option Mem :=
  let r := copyoutLoop (fun _ => ch) 1 mem va 0 1
  if r.2 then some r.1 else none

/-- Where a call of the process is. -/
inductive Call
  | idle
  /-- In `pipewrite(pi, addr, n)`, at the loop test with `i` bytes written. -/
  | writing (addr : ℕ) (n : ℤ) (i : ℕ)
  /-- In `piperead(pi, addr, n)`, at the test of the loop that waits for data. -/
  | waiting (addr : ℕ) (n : ℤ)
  /-- In the copy loop of `piperead(pi, addr, n)`, at its test with `i` bytes copied. -/
  | copying (addr : ℕ) (n : ℤ) (i : ℕ)
  deriving DecidableEq

/-- One pass of the loop of `pipewrite`: what the call returns, or where it is next. -/
def writePass (pi : Pipe) (mem : Mem) (killed : Bool) (addr : ℕ) (n : ℤ) (i : ℕ) :
    Pipe × Option UInt8 × Sum ℤ Call :=
  if (i : ℤ) < n then
    if pi.readopen = false ∨ killed = true then (pi, none, .inl (-1))
    else if pi.nwrite = pi.nread + pipesize.toUInt32 then
      -- `wakeup(&pi->nread); sleep(&pi->nwrite, &pi->lock)`
      (pi, none, .inr (.writing addr n i))
    else
      match copyinByte mem (addr + i) with
      | none => (pi, none, .inl i)
      | some ch =>
        ({ pi with
            data := Function.update pi.data (pi.nwrite % pipesize.toUInt32).toNat ch
            nwrite := pi.nwrite + 1 }, some ch, .inr (.writing addr n (i + 1)))
  else (pi, none, .inl i)

/-- One pass of the loop of `piperead` that waits for data. -/
def waitPass (pi : Pipe) (killed : Bool) (addr : ℕ) (n : ℤ) : Sum ℤ Call :=
  if pi.nread = pi.nwrite ∧ pi.writeopen = true then
    if killed then .inl (-1) else .inr (.waiting addr n)
  else .inr (.copying addr n 0)

/-- One pass of the copy loop of `piperead`: `nread` moves on before the `copyout`. The
byte it delivers, if the `copyout` succeeds, is returned beside the rest. -/
def copyPass (pi : Pipe) (mem : Mem) (addr : ℕ) (n : ℤ) (i : ℕ) :
    Pipe × Mem × Option UInt8 × Sum ℤ Call :=
  if (i : ℤ) < n then
    if pi.nread = pi.nwrite then (pi, mem, none, .inl i)
    else
      let ch := pi.data (pi.nread % pipesize.toUInt32).toNat
      let pi := { pi with nread := pi.nread + 1 }
      match copyoutByte mem (addr + i) ch with
      | none => (pi, mem, none, .inl i)
      | some mem => (pi, mem, some ch, .inr (.copying addr n (i + 1)))
  else (pi, mem, none, .inl i)

/-- `pipeclose(pi, writable)`, the free apart. -/
def pipeclose (pi : Pipe) (writable : Bool) : Pipe :=
  if writable then { pi with writeopen := false } else { pi with readopen := false }

/-! ### Processes sharing a pipe -/

/-- What a process does next. -/
inductive Act
  | write (addr : ℕ) (n : ℤ)
  | read (addr : ℕ) (n : ℤ)
  /-- Its call takes one pass of the loop it is in. -/
  | pass
  | kill
  | close (writable : Bool)

/-- A pipe, the processes' memories, `killed` flags and calls, the bytes stored into the
pipe and the bytes readers were delivered. -/
structure PipeSys (ι : Type) where
  pipe : Pipe
  mem : ι → Mem
  killed : ι → Bool
  call : ι → Call
  stored : List UInt8
  delivered : List UInt8

variable {ι : Type} [DecidableEq ι]

/-- Process `j`'s call is where `c` says. -/
def PipeSys.moveTo (σ : PipeSys ι) (j : ι) (c : Sum ℤ Call) : ι → Call :=
  Function.update σ.call j (c.elim (fun _ => .idle) id)

/-- Process `j` takes a step. -/
def PipeSys.step (σ : PipeSys ι) : ι × Act → Option (Except String (PipeSys ι))
  | (j, .write addr n) =>
    if σ.call j = .idle then
      some (.ok { σ with call := Function.update σ.call j (.writing addr n 0) })
    else none
  | (j, .read addr n) =>
    if σ.call j = .idle then
      some (.ok { σ with call := Function.update σ.call j (.waiting addr n) })
    else none
  | (j, .pass) =>
    match σ.call j with
    | .idle => none
    | .writing addr n i =>
      let r := writePass σ.pipe (σ.mem j) (σ.killed j) addr n i
      some (.ok { σ with
        pipe := r.1, call := σ.moveTo j r.2.2, stored := σ.stored ++ r.2.1.toList })
    | .waiting addr n =>
      some (.ok { σ with call := σ.moveTo j (waitPass σ.pipe (σ.killed j) addr n) })
    | .copying addr n i =>
      let r := copyPass σ.pipe (σ.mem j) addr n i
      some (.ok { σ with
        pipe := r.1, mem := Function.update σ.mem j r.2.1, call := σ.moveTo j r.2.2.2,
        delivered := σ.delivered ++ r.2.2.1.toList })
  | (j, .kill) => some (.ok { σ with killed := Function.update σ.killed j true })
  | (_, .close w) => some (.ok { σ with pipe := pipeclose σ.pipe w })

/-- `pipealloc`: both ends open, both counters zero, the page's old bytes in `data`; no
process in a call. -/
def PipeSys.alloc (data : ℕ → UInt8) (mem : ι → Mem) : PipeSys ι :=
  ⟨⟨data, 0, 0, true, true⟩, mem, fun _ => false, fun _ => .idle, [], []⟩

end Xv6Lab.Pipes
