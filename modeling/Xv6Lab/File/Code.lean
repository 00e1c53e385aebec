import Xv6Lab.Proc.Code
import Xv6Lab.FS.Layout

/-!
# Open files: `kernel/file.c`, and the descriptors of `sysfile.c`, `pipe.c` and `proc.c`

The file table `ftable.file[NFILE]`, the two flags of each pipe, the reference count
`ip->ref` of each in-memory inode, and, for each process, `p->ofile[NOFILE]` and `p->cwd`.
The calls are `fork`, `exit`, `sys_open`, `sys_close`, `sys_dup` and `sys_pipe`.

Each section under `ftable.lock`, `pi->lock`, the inode table's lock or the log is one step;
a process's own `ofile` is read and written by that process alone (and by its parent
before a child first runs), so those accesses are folded into the section next to them.
Where a process's kernel thread goes on is the ghost `PState.pc`:

* `fork`: `allocproc` (and `uvmcopy`), then one `filedup` of the loop per step, then
  `np->cwd = idup(p->cwd)` with the rest of `fork`, which lets the child run;
* `exit`: its loop, one `fileclose` per step, and its `iput(p->cwd)`; the rest of `exit` is
  in `Xv6Lab.Procs`;
* `sys_open`: `namei` or `create` with the checks of `sys_open` and `filealloc`, then
  `fdalloc` and the filling in of the file, or the undoing;
* `sys_pipe`: the two `filealloc`s of `pipealloc`, then its `kalloc` with the rest of
  `sys_pipe`, whose error paths close both files;
* `fileclose` drops a reference under `ftable.lock`; after the last, a second step runs
  `pipeclose` or `iput` on the copy `ff` of the file.

The inode layer is left out: `namei` and `create` return some inode with a reference, or
fail, and `iput` drops the reference (its `itrunc` is in `Xv6Lab.FS`). Return values, the
pipe's data, `p->pagetable` and the rest of `struct proc` are left out as well.
-/

namespace Xv6Lab.Files

open Procs (Slot nproc initproc)

/-- `NFILE`. -/
def nfile : ℕ := 100

/-- `NOFILE`. -/
def nofile : ℕ := 16

/-- `NDEV`. -/
def ndev : ℤ := 10

/-- A file of `ftable.file`. -/
abbrev FileId := Fin nfile

/-- A file descriptor, an index of `p->ofile`. -/
abbrev Fd := Fin nofile

/-- `O_WRONLY`; `O_RDONLY` is `0`. -/
def oWronly : UInt32 := 0x001

/-- `O_RDWR`. -/
def oRdwr : UInt32 := 0x002

/-- `O_CREATE`. -/
def oCreate : UInt32 := 0x200

/-- `FD_NONE`, `FD_PIPE`, `FD_INODE`, `FD_DEVICE`. -/
inductive FdType
  | none | pipe | inode | device
  deriving DecidableEq, Repr

/-- `struct file`: a pipe is named by its page, an inode by its number. -/
structure File where
  type : FdType
  ref : ℕ
  readable : Bool
  writable : Bool
  pipe : ℕ
  ip : ℕ
  off : ℕ
  major : ℤ
  deriving DecidableEq, Repr

/-- The open flags of `struct pipe`. -/
structure Pipe where
  readopen : Bool
  writeopen : Bool
  deriving DecidableEq, Repr

/-- What `namei` or `create` returns to `sys_open`: an inode, locked and with a reference,
and the `type` and `major` of its `struct inode`. -/
structure Found where
  ip : ℕ
  type : FS.IType
  major : ℤ
  deriving DecidableEq, Repr

/-- Where a process's kernel thread goes on. `unused`, `embryo` (a child that its parent's
`fork` is still filling in), `user` and `zombie` are between calls. -/
inductive Pc
  | unused
  | embryo
  | user
  | zombie
  /-- `fork`'s loop over `p->ofile`, at descriptor `k`, for child `np`. -/
  | forkDup (np : Slot) (k : ℕ)
  /-- `sys_open` after `filealloc` gave `f`, holding `f` and the inode. -/
  | openFd (f : FileId) (omode : UInt32) (r : Found)
  /-- `pipealloc` after its first `filealloc`. -/
  | pipeAlloc₂ (f0 : FileId)
  /-- `pipealloc` after both `filealloc`s. -/
  | pipeAlloc₃ (f0 f1 : FileId)
  /-- A `fileclose` of each file in turn, then back to user space. -/
  | closing (fs : List FileId)
  /-- `fileclose`'s `pipeclose` or `iput` of `ff`, then the rest of `fs`. -/
  | release (ff : File) (fs : List FileId)
  /-- `exit`'s loop at descriptor `k`. -/
  | exiting (k : ℕ)
  /-- `exit`'s `fileclose` of `ofile[fd]`, past its last reference: `ofile[fd]` is cleared
  after the `pipeclose` or `iput`. -/
  | exitRelease (ff : File) (fd : Fd)
  deriving DecidableEq, Repr

/-- The fields of `struct proc` these calls use. -/
structure PState where
  ofile : Fd → Option FileId
  cwd : Option ℕ
  pc : Pc

/-- The file table, the pipes (`none` once `kfree`d), the processes, and `ip->ref` of each
inode. -/
structure Sys where
  files : FileId → File
  pipes : ℕ → Option Pipe
  procs : Slot → PState
  irefs : ℕ → ℕ

/-! ### Updates -/

def Sys.setFile (σ : Sys) (f : FileId) (x : File) : Sys :=
  { σ with files := Function.update σ.files f x }

def Sys.setProc (σ : Sys) (p : Slot) (q : PState) : Sys :=
  { σ with procs := Function.update σ.procs p q }

/-- A process moves on to `pc`. -/
def Sys.goto (σ : Sys) (p : Slot) (pc : Pc) : Sys := σ.setProc p { σ.procs p with pc := pc }

/-! ### `file.c` -/

/-- `filealloc`: the first file with no references. -/
def filealloc (files : FileId → File) : Option FileId :=
  (List.finRange nfile).find? fun f => (files f).ref = 0

/-- The file `filealloc` found, with its one reference. -/
def Sys.take (σ : Sys) (f : FileId) : Sys := σ.setFile f { σ.files f with ref := 1 }

/-- `filedup(f)`. -/
def Sys.filedup (σ : Sys) (f : FileId) : Except String Sys :=
  let x := σ.files f
  if x.ref < 1 then .error "filedup" else .ok (σ.setFile f { x with ref := x.ref + 1 })

/-- The section of `fileclose(f)` under `ftable.lock`: the copy `ff` to release once the
last reference is gone. -/
def Sys.fileclose (σ : Sys) (f : FileId) : Except String (Sys × Option File) :=
  let x := σ.files f
  if x.ref < 1 then .error "fileclose"
  else if x.ref - 1 > 0 then .ok (σ.setFile f { x with ref := x.ref - 1 }, none)
  else .ok (σ.setFile f { x with ref := 0, type := .none }, some { x with ref := 0 })

/-- `pipeclose(pi, writable)`: one end closed, and the page freed with the other end closed
too. A freed pipe is not closed again. -/
def pipeclose (pipes : ℕ → Option Pipe) (pi : ℕ) (writable : Bool) : ℕ → Option Pipe :=
  match pipes pi with
  | none => pipes
  | some e =>
    let e' : Pipe := if writable then { e with writeopen := false } else { e with readopen := false }
    Function.update pipes pi (if !e'.readopen && !e'.writeopen then none else some e')

/-- `iput(ip)`, on the reference count alone. -/
def iput (irefs : ℕ → ℕ) (ip : ℕ) : ℕ → ℕ := Function.update irefs ip (irefs ip - 1)

/-- `idup(ip)`. -/
def idup (irefs : ℕ → ℕ) (ip : ℕ) : ℕ → ℕ := Function.update irefs ip (irefs ip + 1)

/-- The part of `fileclose` after `release(&ftable.lock)`. -/
def Sys.release (σ : Sys) (ff : File) : Sys :=
  match ff.type with
  | .pipe => { σ with pipes := pipeclose σ.pipes ff.pipe ff.writable }
  | .inode | .device => { σ with irefs := iput σ.irefs ff.ip }
  | .none => σ

/-- `fdalloc`: the lowest free descriptor. -/
def fdalloc (ofile : Fd → Option FileId) : Option Fd :=
  (List.finRange nofile).find? fun fd => ofile fd = none

/-- `argfd`: the file of descriptor `fd`, if it is one. -/
def argfd (ofile : Fd → Option FileId) (fd : ℤ) : Option (Fd × FileId) :=
  if h : 0 ≤ fd ∧ fd < nofile then
    let d : Fd := ⟨fd.toNat, by omega⟩
    (ofile d).map fun f => (d, f)
  else none

/-! ### The calls -/

/-- `fork` up to its loop: `allocproc` takes the first `UNUSED` slot; `ok` says that its
allocations and `uvmcopy` succeed, else `freeproc` gives the slot back. -/
def Sys.fork (σ : Sys) (p : Slot) (ok : Bool) : Sys :=
  match (List.finRange nproc).find? fun q => (σ.procs q).pc = .unused with
  | some np => if ok then (σ.goto np .embryo).goto p (.forkDup np 0) else σ
  | none => σ

/-- One pass of `fork`'s loop `np->ofile[k] = filedup(p->ofile[k])`, or, past its end,
`np->cwd = idup(p->cwd)` and the rest of `fork`, after which both run. -/
def Sys.forkDup (σ : Sys) (p np : Slot) (k : ℕ) : Except String Sys :=
  let ps := σ.procs p
  if h : k < nofile then
    match ps.ofile ⟨k, h⟩ with
    | none => .ok (σ.goto p (.forkDup np (k + 1)))
    | some f => do
      let σ₁ ← σ.filedup f
      let nq := σ₁.procs np
      .ok ((σ₁.setProc np { nq with ofile := Function.update nq.ofile ⟨k, h⟩ (some f) }).goto p
        (.forkDup np (k + 1)))
  else
    let σ₁ : Sys := { σ with irefs := ps.cwd.elim σ.irefs (idup σ.irefs) }
    .ok (((σ₁.setProc np { σ₁.procs np with cwd := ps.cwd, pc := .user })).goto p .user)

/-- `sys_open(path, omode)` up to `filealloc`: `r` is what `create` (with `O_CREATE`) or
`namei` returns. A directory opened for writing, or a device whose major number is out of
range, gives `-1`, as does `filealloc` finding no file; `iunlockput` then drops the inode's
reference again. -/
def Sys.openFile (σ : Sys) (p : Slot) (omode : UInt32) (r : Option Found) : Sys :=
  match r with
  | none => σ
  | some r =>
    if (omode &&& oCreate = 0 ∧ r.type = .dir ∧ omode ≠ 0) ∨
        (r.type = .device ∧ (r.major < 0 ∨ ndev ≤ r.major)) then σ
    else
      match filealloc σ.files with
      | none => σ
      | some f =>
        ({ σ.take f with irefs := idup σ.irefs r.ip }).goto p (.openFd f omode r)

/-- The file `sys_open` fills in. -/
def openedFile (x : File) (omode : UInt32) (r : Found) : File :=
  let x' := if r.type = .device then { x with type := .device, major := r.major }
    else { x with type := .inode, off := 0 }
  { x' with ip := r.ip, readable := omode &&& oWronly = 0,
            writable := omode &&& oWronly ≠ 0 ∨ omode &&& oRdwr ≠ 0 }

/-- `sys_open` after `filealloc`: `fdalloc` and the file filled in, or `fileclose(f)` and
`iunlockput(ip)`. -/
def Sys.openFd (σ : Sys) (p : Slot) (f : FileId) (omode : UInt32) (r : Found) :
    Except String Sys :=
  let ps := σ.procs p
  match fdalloc ps.ofile with
  | some fd =>
    .ok ((σ.setFile f (openedFile (σ.files f) omode r)).setProc p
      { ps with ofile := Function.update ps.ofile fd (some f), pc := .user })
  | none => do
    let (σ₁, ff) ← σ.fileclose f
    let σ₂ := ff.elim σ₁ σ₁.release
    .ok ({ σ₂ with irefs := iput σ₂.irefs r.ip }.goto p .user)

/-- `sys_close(fd)`: `ofile[fd] = 0`, then the `fileclose`. -/
def Sys.close (σ : Sys) (p : Slot) (fd : ℤ) : Sys :=
  let ps := σ.procs p
  match argfd ps.ofile fd with
  | some (d, f) => σ.setProc p { ps with ofile := Function.update ps.ofile d none, pc := .closing [f] }
  | none => σ

/-- `sys_dup(fd)`: `fdalloc(f)`, then `filedup(f)`. -/
def Sys.dup (σ : Sys) (p : Slot) (fd : ℤ) : Except String Sys :=
  let ps := σ.procs p
  match argfd ps.ofile fd with
  | some (_, f) =>
    match fdalloc ps.ofile with
    | some d => (σ.setProc p { ps with ofile := Function.update ps.ofile d (some f) }).filedup f
    | none => .ok σ
  | none => .ok σ

/-- `sys_pipe` up to `pipealloc`'s first `filealloc`. -/
def Sys.pipe (σ : Sys) (p : Slot) : Sys :=
  match filealloc σ.files with
  | some f0 => (σ.take f0).goto p (.pipeAlloc₂ f0)
  | none => σ

/-- `pipealloc`'s second `filealloc`; on failure it closes the first file. -/
def Sys.pipeAlloc₂ (σ : Sys) (p : Slot) (f0 : FileId) : Sys :=
  match filealloc σ.files with
  | some f1 => (σ.take f1).goto p (.pipeAlloc₃ f0 f1)
  | none => σ.goto p (.closing [f0])

/-- The two files of a pipe: `f0` reads, `f1` writes. -/
def pipeFile (x : File) (pi : ℕ) (writable : Bool) : File :=
  { x with type := .pipe, readable := !writable, writable := writable, pipe := pi }

/-- `pipealloc`'s `kalloc`, which gives `page` or fails, then the rest of `sys_pipe`: two
`fdalloc`s and the `copyout`s of the descriptors, which succeed if `ok`. Each error path
clears the descriptors it set and closes both files. `kalloc` never gives a page that holds
a pipe. -/
def Sys.pipeAlloc₃ (σ : Sys) (p : Slot) (f0 f1 : FileId) (page : Option ℕ) (ok : Bool) :
    Option Sys :=
  match page with
  | none => some (σ.goto p (.closing [f0, f1]))
  | some pi =>
    if (σ.pipes pi).isSome then none
    else
      let σ₁ : Sys := { σ with pipes := Function.update σ.pipes pi (some ⟨true, true⟩) }
      let σ₂ := (σ₁.setFile f0 (pipeFile (σ.files f0) pi false)).setFile f1
        (pipeFile (σ.files f1) pi true)
      let ps := σ.procs p
      match fdalloc ps.ofile with
      | none => some (σ₂.goto p (.closing [f0, f1]))
      | some fd0 =>
        let ofile₁ := Function.update ps.ofile fd0 (some f0)
        match fdalloc ofile₁ with
        | none => some (σ₂.goto p (.closing [f0, f1]))
        | some fd1 =>
          if ok then some (σ₂.setProc p { ps with ofile := Function.update ofile₁ fd1 (some f1),
                                                  pc := .user })
          else some (σ₂.goto p (.closing [f0, f1]))

/-- The next `fileclose` of a list, or back to user space. -/
def Sys.closeNext (σ : Sys) (p : Slot) : List FileId → Except String Sys
  | [] => .ok (σ.goto p .user)
  | f :: fs => do
    let (σ₁, ff) ← σ.fileclose f
    .ok (σ₁.goto p (ff.elim (.closing fs) (fun ff => .release ff fs)))

/-- `exit` up to its loop: `initproc` may not exit. -/
def Sys.exit (σ : Sys) (p : Slot) : Except String Sys :=
  if p = initproc then .error "init exiting" else .ok (σ.goto p (.exiting 0))

/-- One pass of `exit`'s loop over `p->ofile`, or, past its end, `iput(p->cwd)` and
`p->cwd = 0`; the process is then a zombie. -/
def Sys.exitNext (σ : Sys) (p : Slot) (k : ℕ) : Except String Sys :=
  let ps := σ.procs p
  if h : k < nofile then
    match ps.ofile ⟨k, h⟩ with
    | none => .ok (σ.goto p (.exiting (k + 1)))
    | some f => do
      let (σ₁, ff) ← σ.fileclose f
      match ff with
      | none =>
        let q := σ₁.procs p
        .ok (σ₁.setProc p { q with ofile := Function.update q.ofile ⟨k, h⟩ none,
                                   pc := .exiting (k + 1) })
      | some ff => .ok (σ₁.goto p (.exitRelease ff ⟨k, h⟩))
  else
    let σ₁ : Sys := { σ with irefs := ps.cwd.elim σ.irefs (iput σ.irefs) }
    .ok (σ₁.setProc p { ps with cwd := none, pc := .zombie })

/-- `exit`'s `pipeclose` or `iput` of `ff`, and `p->ofile[fd] = 0`. -/
def Sys.exitRelease (σ : Sys) (p : Slot) (ff : File) (fd : Fd) : Sys :=
  let σ₁ := σ.release ff
  let q := σ₁.procs p
  σ₁.setProc p { q with ofile := Function.update q.ofile fd none, pc := .exiting (fd.val + 1) }

/-- A system call, with what its environment decides. -/
inductive Call
  | fork (ok : Bool)
  | open (omode : UInt32) (r : Option Found)
  | close (fd : ℤ)
  | dup (fd : ℤ)
  | pipe
  | exit
  deriving DecidableEq, Repr

/-- What a process does in one step: start a call from user space, go on with the call in
progress, or, in `pipealloc`, take what `kalloc` gives. -/
inductive Act
  | call (c : Call)
  | next
  | kalloc (page : Option ℕ) (ok : Bool)
  deriving DecidableEq, Repr

/-- A call from user space. -/
def Sys.call (σ : Sys) (p : Slot) : Call → Except String Sys
  | .fork ok => .ok (σ.fork p ok)
  | .open omode r => .ok (σ.openFile p omode r)
  | .close fd => .ok (σ.close p fd)
  | .dup fd => σ.dup p fd
  | .pipe => .ok (σ.pipe p)
  | .exit => σ.exit p

/-- The next section of the call in progress. -/
def Sys.next (σ : Sys) (p : Slot) : Pc → Option (Except String Sys)
  | .forkDup np k => some (σ.forkDup p np k)
  | .openFd f omode r => some (σ.openFd p f omode r)
  | .pipeAlloc₂ f0 => some (.ok (σ.pipeAlloc₂ p f0))
  | .closing fs => some (σ.closeNext p fs)
  | .release ff fs => some (.ok ((σ.release ff).goto p (.closing fs)))
  | .exiting k => some (σ.exitNext p k)
  | .exitRelease ff fd => some (.ok (σ.exitRelease p ff fd))
  | _ => none

/-- One step of process `p`. -/
def Sys.step (σ : Sys) : Slot × Act → Option (Except String Sys)
  | (p, a) =>
    let pc := (σ.procs p).pc
    match a with
    | .call c => if pc = .user then some (σ.call p c) else none
    | .next => σ.next p pc
    | .kalloc page ok =>
      match pc with
      | .pipeAlloc₃ f0 f1 => (σ.pipeAlloc₃ p f0 f1 page ok).map .ok
      | _ => none

/-- The file table after `fileinit`, and `initproc` after `userinit`, whose `cwd` is
`namei("/")`. -/
def boot : Sys where
  files := fun _ => ⟨.none, 0, false, false, 0, 0, 0, 0⟩
  pipes := fun _ => none
  procs := Function.update (fun _ => ⟨fun _ => none, none, .unused⟩) initproc
    ⟨fun _ => none, some FS.rootino, .user⟩
  irefs := Function.update (fun _ => 0) FS.rootino 1

end Xv6Lab.Files
