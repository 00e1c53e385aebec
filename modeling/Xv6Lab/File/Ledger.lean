import Xv6Lab.File.Code
import Xv6Lab.Lib.RefCount

/-!
# Who holds what

Three kinds of counter count references (`Obj`, `Sys.count`): a file's `f->ref`, an inode's
`ip->ref`, and a pipe's `readopen` and `writeopen`, which count its read and its write end.
The references are held by the processes (`PState.holds`), through their descriptors and
their `cwd`, and through the files and the inode that a call in progress holds; and by the
files with references (`File.holds`), each of which holds its inode or its end of a pipe.
`fileclose` hands what a file refers to over to the process that closes it, and its
`pipeclose` or `iput` drops it (`Pc.releases`).

* `fdCount_update` — one descriptor changed: the descriptors of a file change by one.
* `count_release` — the `pipeclose` or `iput` of `ff` takes one off each counter of what
  `ff` refers to, when each of those is held.
-/

namespace Xv6Lab.Files

open Procs (Slot nproc initproc)

/-- What can be referred to: a file, an inode, an end of a pipe. -/
inductive Obj
  | file (f : FileId)
  | inode (ip : ℕ)
  | pipeEnd (pi : ℕ) (w : Bool)
  deriving DecidableEq

/-- The flag of one end: `writeopen` for the write end. -/
def Pipe.isOpen (e : Pipe) (w : Bool) : Bool := if w then e.writeopen else e.readopen

/-- The counter of each object; the flag of an end of a pipe counts as one. -/
def Sys.count (σ : Sys) : Obj → ℕ
  | .file f => (σ.files f).ref
  | .inode ip => σ.irefs ip
  | .pipeEnd pi w =>
    match σ.pipes pi with
    | some e => if e.isOpen w then 1 else 0
    | none => 0

/-- What a file refers to, whatever its count: its inode, or its end of a pipe. -/
def File.refers (x : File) : Obj → ℕ
  | .file _ => 0
  | .inode ip => if (x.type = .inode ∨ x.type = .device) ∧ x.ip = ip then 1 else 0
  | .pipeEnd pi w => if x.type = .pipe ∧ x.pipe = pi ∧ x.writable = w then 1 else 0

/-- A file with references holds what it refers to. -/
def File.holds (x : File) (o : Obj) : ℕ := if 0 < x.ref then x.refers o else 0

/-! ### What a call in progress holds -/

/-- The descriptor `exit` has closed and not yet cleared. -/
def Pc.cleared : Pc → Option Fd
  | .exitRelease _ fd => some fd
  | _ => none

/-- The files a call in progress holds a reference to through no descriptor. -/
def Pc.held : Pc → List FileId
  | .openFd f _ _ => [f]
  | .pipeAlloc₂ f0 => [f0]
  | .pipeAlloc₃ f0 f1 => [f0, f1]
  | .closing fs => fs
  | .release _ fs => fs
  | _ => []

/-- The files a call has from `filealloc` and has not filled in. -/
def Pc.fresh : Pc → List FileId
  | .openFd f _ _ => [f]
  | .pipeAlloc₂ f0 => [f0]
  | .pipeAlloc₃ f0 f1 => [f0, f1]
  | _ => []

/-- The inode whose reference `sys_open` holds between its sections. -/
def Pc.opening : Pc → Option ℕ
  | .openFd _ _ r => some r.ip
  | _ => none

/-- The copy of a file whose `pipeclose` or `iput` is still to run. -/
def Pc.releasing : Pc → Option File
  | .release ff _ => some ff
  | .exitRelease ff _ => some ff
  | _ => none

/-- What the `pipeclose` or `iput` still to run will drop. -/
def Pc.releases (pc : Pc) (o : Obj) : ℕ := pc.releasing.elim 0 fun ff => ff.refers o

/-- What a call in progress holds: its files, the inode of its `sys_open`, and what its
`pipeclose` or `iput` will drop. -/
def Pc.holds (pc : Pc) (o : Obj) : ℕ :=
  (match o with
    | .file f => pc.held.count f
    | .inode ip => if pc.opening = some ip then 1 else 0
    | .pipeEnd _ _ => 0) + pc.releases o

/-- A process's descriptors, without the one `exit` has closed. -/
def PState.fds (q : PState) (fd : Fd) : Option FileId :=
  if q.pc.cleared = some fd then none else q.ofile fd

/-- The descriptors of `f`. -/
def fdCount (v : Fd → Option FileId) (f : FileId) : ℕ := ∑ fd, if v fd = some f then 1 else 0

/-- What descriptors hold. -/
def fdsHold (v : Fd → Option FileId) : Obj → ℕ
  | .file f => fdCount v f
  | _ => 0

/-- What a `cwd` holds. -/
def cwdHolds (c : Option ℕ) : Obj → ℕ
  | .inode ip => if c = some ip then 1 else 0
  | _ => 0

/-- What a process holds. -/
def PState.holds (q : PState) (o : Obj) : ℕ := fdsHold q.fds o + cwdHolds q.cwd o + q.pc.holds o

/-- Every counter is what the processes and the files hold. -/
def Sys.Counted (σ : Sys) : Prop :=
  RefCount.Counted σ.count PState.holds σ.procs File.holds σ.files

/-! ### Descriptors -/

theorem fds_of_cleared {q : PState} (h : q.pc.cleared = none) : q.fds = q.ofile := by
  funext fd
  rw [PState.fds, h]
  exact if_neg (Option.some_ne_none fd).symm

theorem fdCount_update (v : Fd → Option FileId) (d : Fd) (x : Option FileId) (f : FileId) :
    fdCount (Function.update v d x) f + (if v d = some f then 1 else 0) =
      fdCount v f + (if x = some f then 1 else 0) :=
  Interleave.sum_update_add (fun y => if y = some f then 1 else 0) v d x

/-- What a descriptor holding `y` holds. -/
def fdRef (y : Option FileId) : Obj → ℕ
  | .file g => if y = some g then 1 else 0
  | _ => 0

theorem fdsHold_update (v : Fd → Option FileId) (d : Fd) (x : Option FileId) (o : Obj) :
    fdsHold (Function.update v d x) o + fdRef (v d) o = fdsHold v o + fdRef x o := by
  cases o with
  | file g => exact fdCount_update v d x g
  | inode ip => rfl
  | pipeEnd pi w => rfl

theorem le_fdCount (v : Fd → Option FileId) (d : Fd) (f : FileId) :
    (if v d = some f then 1 else 0) ≤ fdCount v f :=
  Interleave.le_sum (fun y => if y = some f then 1 else 0) v d

theorem fdCount_none (f : FileId) : fdCount (fun _ => none) f = 0 := by
  simp [fdCount]

/-! ### Counters -/

@[simp] theorem count_file (σ : Sys) (f : FileId) : σ.count (.file f) = (σ.files f).ref := rfl

@[simp] theorem count_inode (σ : Sys) (ip : ℕ) : σ.count (.inode ip) = σ.irefs ip := rfl

@[simp] theorem setProc_count (σ : Sys) (p : Slot) (q : PState) :
    (σ.setProc p q).count = σ.count := rfl

@[simp] theorem goto_count (σ : Sys) (p : Slot) (pc : Pc) : (σ.goto p pc).count = σ.count :=
  rfl

@[simp] theorem setProc_files (σ : Sys) (p : Slot) (q : PState) :
    (σ.setProc p q).files = σ.files := rfl

@[simp] theorem goto_files (σ : Sys) (p : Slot) (pc : Pc) : (σ.goto p pc).files = σ.files :=
  rfl

@[simp] theorem setProc_procs (σ : Sys) (p : Slot) (q : PState) :
    (σ.setProc p q).procs = Function.update σ.procs p q := rfl

@[simp] theorem goto_procs (σ : Sys) (p : Slot) (pc : Pc) :
    (σ.goto p pc).procs = Function.update σ.procs p { σ.procs p with pc := pc } := rfl

@[simp] theorem setProc_pipes (σ : Sys) (p : Slot) (q : PState) :
    (σ.setProc p q).pipes = σ.pipes := rfl

@[simp] theorem setProc_irefs (σ : Sys) (p : Slot) (q : PState) :
    (σ.setProc p q).irefs = σ.irefs := rfl

@[simp] theorem goto_pipes (σ : Sys) (p : Slot) (pc : Pc) : (σ.goto p pc).pipes = σ.pipes := rfl

@[simp] theorem goto_irefs (σ : Sys) (p : Slot) (pc : Pc) : (σ.goto p pc).irefs = σ.irefs := rfl

@[simp] theorem fdsHold_file (v : Fd → Option FileId) (f : FileId) :
    fdsHold v (.file f) = fdCount v f :=
  rfl

@[simp] theorem fdsHold_inode (v : Fd → Option FileId) (ip : ℕ) : fdsHold v (.inode ip) = 0 :=
  rfl

@[simp] theorem fdsHold_pipeEnd (v : Fd → Option FileId) (pi : ℕ) (w : Bool) :
    fdsHold v (.pipeEnd pi w) = 0 := rfl

@[simp] theorem cwdHolds_file (c : Option ℕ) (f : FileId) : cwdHolds c (.file f) = 0 := rfl

@[simp] theorem cwdHolds_pipeEnd (c : Option ℕ) (pi : ℕ) (w : Bool) :
    cwdHolds c (.pipeEnd pi w) = 0 := rfl

@[simp] theorem setFile_files (σ : Sys) (f : FileId) (x : File) :
    (σ.setFile f x).files = Function.update σ.files f x := rfl

@[simp] theorem setFile_procs (σ : Sys) (f : FileId) (x : File) :
    (σ.setFile f x).procs = σ.procs := rfl

@[simp] theorem setFile_pipes (σ : Sys) (f : FileId) (x : File) :
    (σ.setFile f x).pipes = σ.pipes := rfl

@[simp] theorem setFile_irefs (σ : Sys) (f : FileId) (x : File) :
    (σ.setFile f x).irefs = σ.irefs := rfl

@[simp] theorem File.refers_file (x : File) (f : FileId) : x.refers (.file f) = 0 := rfl

/-! ### What each call in progress holds -/

/-- What a list of files held holds. -/
def heldHolds (fs : List FileId) : Obj → ℕ
  | .file g => fs.count g
  | _ => 0

@[simp] theorem heldHolds_nil (o : Obj) : heldHolds [] o = 0 := by
  cases o <;> rfl

@[simp] theorem heldHolds_cons (f : FileId) (fs : List FileId) (o : Obj) :
    heldHolds (f :: fs) o = heldHolds fs o + if o = .file f then 1 else 0 := by
  cases o with
  | file g =>
    by_cases hg : g = f
    · subst hg
      simp [heldHolds]
    · simp [heldHolds, hg, Ne.symm hg]
  | inode ip => rfl
  | pipeEnd pi w => rfl

theorem Pc.holds_openFd (f : FileId) (omode : UInt32) (r : Found) (o : Obj) :
    (Pc.openFd f omode r).holds o = heldHolds [f] o + if o = .inode r.ip then 1 else 0 := by
  cases o with
  | file g => simp [Pc.holds, Pc.held, Pc.releases, Pc.releasing, heldHolds]
  | inode ip =>
    by_cases hi : ip = r.ip
    · subst hi
      simp [Pc.holds, Pc.opening, Pc.releases, Pc.releasing]
    · simp [Pc.holds, Pc.opening, Pc.releases, Pc.releasing, hi, Ne.symm hi]
  | pipeEnd pi w => simp [Pc.holds, Pc.releases, Pc.releasing]

theorem Pc.holds_pipeAlloc₂ (f0 : FileId) (o : Obj) :
    (Pc.pipeAlloc₂ f0).holds o = heldHolds [f0] o := by
  cases o <;> rfl

theorem Pc.holds_pipeAlloc₃ (f0 f1 : FileId) (o : Obj) :
    (Pc.pipeAlloc₃ f0 f1).holds o = heldHolds [f0, f1] o := by
  cases o <;> rfl

theorem Pc.holds_closing (fs : List FileId) (o : Obj) :
    (Pc.closing fs).holds o = heldHolds fs o := by
  cases o <;> rfl

theorem Pc.holds_release (ff : File) (fs : List FileId) (o : Obj) :
    (Pc.release ff fs).holds o = heldHolds fs o + ff.refers o := by
  cases o <;> rfl

theorem Pc.holds_exitRelease (ff : File) (fd : Fd) (o : Obj) :
    (Pc.exitRelease ff fd).holds o = ff.refers o := by
  cases o <;> simp [Pc.holds, Pc.held, Pc.opening, Pc.releases, Pc.releasing]

@[simp] theorem take_files (σ : Sys) (f : FileId) :
    (σ.take f).files = Function.update σ.files f { σ.files f with ref := 1 } := rfl

@[simp] theorem take_procs (σ : Sys) (f : FileId) : (σ.take f).procs = σ.procs := rfl

@[simp] theorem take_pipes (σ : Sys) (f : FileId) : (σ.take f).pipes = σ.pipes := rfl

@[simp] theorem take_irefs (σ : Sys) (f : FileId) : (σ.take f).irefs = σ.irefs := rfl

/-- A file changed changes its own counter alone. -/
theorem setFile_count (σ : Sys) (f : FileId) (x : File) (o : Obj) :
    (σ.setFile f x).count o = if o = .file f then x.ref else σ.count o := by
  cases o with
  | file g =>
    by_cases hg : g = f
    · subst hg
      simp [Sys.count]
    · simp [Sys.count, hg]
  | inode ip => simp [Sys.count]
  | pipeEnd pi w => simp [Sys.count]

/-- A change of a file that keeps its count. -/
theorem setFile_count_ref {σ : Sys} {f : FileId} {x : File} (hx : x.ref = (σ.files f).ref) :
    (σ.setFile f x).count = σ.count := by
  funext o
  rw [setFile_count]
  split_ifs with ho
  · rw [ho, count_file, hx]
  · rfl

/-- `pipealloc`'s new pipe, with both ends open. -/
theorem pipeOpen_count {σ : Sys} {pi : ℕ} (hpi : σ.pipes pi = none) (o : Obj) :
    ({ σ with pipes := Function.update σ.pipes pi (some ⟨true, true⟩) } : Sys).count o =
      σ.count o + (if o = .pipeEnd pi false then 1 else 0) +
        (if o = .pipeEnd pi true then 1 else 0) := by
  cases o with
  | file g => simp [Sys.count]
  | inode ip => simp [Sys.count]
  | pipeEnd pj w =>
    by_cases hj : pj = pi
    · subst hj
      cases w <;> simp [Sys.count, hpi, Pipe.isOpen]
    · simp [Sys.count, hj]

/-- `pipeclose` of an open end: that end's flag is cleared, and the page freed only when the
other end's flag was clear too. -/
theorem pipeclose_count {σ : Sys} {pi : ℕ} {w : Bool} {e : Pipe} (he : σ.pipes pi = some e)
    (hw : e.isOpen w = true) (o : Obj) :
    ({ σ with pipes := pipeclose σ.pipes pi w } : Sys).count o +
        (if o = .pipeEnd pi w then 1 else 0) = σ.count o := by
  cases o with
  | file g => simp [Sys.count]
  | inode ip => simp [Sys.count]
  | pipeEnd pj v =>
    by_cases hj : pj = pi
    · subst hj
      cases w <;> cases v <;> cases hr : e.readopen <;> cases hwo : e.writeopen <;>
        simp_all [Sys.count, pipeclose, Pipe.isOpen]
    · simp [Sys.count, pipeclose, he, hj]

/-- `iput` of an inode with a reference. -/
theorem iput_count {σ : Sys} {ip : ℕ} (h : 0 < σ.irefs ip) (o : Obj) :
    ({ σ with irefs := iput σ.irefs ip } : Sys).count o + (if o = .inode ip then 1 else 0) =
      σ.count o := by
  cases o with
  | file g => simp [Sys.count]
  | inode jp =>
    by_cases hj : jp = ip
    · subst hj
      simp only [count_inode, iput, Function.update_self, if_true]
      omega
    · simp [iput, hj]
  | pipeEnd pj v => simp [Sys.count]

/-! ### What a file refers to -/

theorem refers_of_pipe {x : File} (h : x.type = .pipe) (o : Obj) :
    x.refers o = if o = .pipeEnd x.pipe x.writable then 1 else 0 := by
  cases o with
  | file g => simp [File.refers]
  | inode ip => simp [File.refers, h]
  | pipeEnd pi w =>
    by_cases hw : pi = x.pipe ∧ w = x.writable
    · obtain ⟨rfl, rfl⟩ := hw
      simp [File.refers, h]
    · have hne : ¬ (x.pipe = pi ∧ x.writable = w) := fun h' => hw ⟨h'.1.symm, h'.2.symm⟩
      simp [File.refers, h, hne, hw]

theorem refers_of_inode {x : File} (h : x.type = .inode ∨ x.type = .device) (o : Obj) :
    x.refers o = if o = .inode x.ip then 1 else 0 := by
  have hp : x.type ≠ .pipe := by rcases h with h | h <;> rw [h] <;> decide
  cases o with
  | file g => simp [File.refers]
  | inode ip =>
    by_cases hi : ip = x.ip
    · subst hi
      simp [File.refers, h]
    · simp [File.refers, hi, Ne.symm hi]
  | pipeEnd pi w => simp [File.refers, hp]

theorem refers_of_none {x : File} (h : x.type = .none) (o : Obj) : x.refers o = 0 := by
  cases o <;> simp [File.refers, h]

@[simp] theorem release_files (σ : Sys) (ff : File) : (σ.release ff).files = σ.files := by
  unfold Sys.release
  split <;> rfl

@[simp] theorem release_procs (σ : Sys) (ff : File) : (σ.release ff).procs = σ.procs := by
  unfold Sys.release
  split <;> rfl

/-- A file of type `FD_NONE` refers to nothing, and its release does nothing. -/
theorem release_of_none (σ : Sys) {ff : File} (h : ff.type = .none) : σ.release ff = σ := by
  unfold Sys.release
  rw [h]

/-- The `pipeclose` or `iput` of `ff` drops one reference to each thing `ff` refers to. -/
theorem count_release {σ : Sys} {ff : File} (hheld : ∀ o, ff.refers o ≤ σ.count o) (o : Obj) :
    (σ.release ff).count o + ff.refers o = σ.count o := by
  unfold Sys.release
  split
  case h_1 hp =>
    have hend := hheld (.pipeEnd ff.pipe ff.writable)
    rw [refers_of_pipe hp, if_pos rfl] at hend
    -- the end `ff` closes is open
    obtain ⟨e, he, hw⟩ : ∃ e, σ.pipes ff.pipe = some e ∧ e.isOpen ff.writable = true := by
      cases h : σ.pipes ff.pipe with
      | none => simp [Sys.count, h] at hend
      | some e =>
        refine ⟨e, rfl, ?_⟩
        by_contra hno
        simp [Sys.count, h, hno] at hend
    rw [refers_of_pipe hp]
    exact pipeclose_count he hw o
  case h_2 hi =>
    have hpos := hheld (.inode ff.ip)
    rw [refers_of_inode (.inl hi), if_pos rfl, count_inode] at hpos
    rw [refers_of_inode (.inl hi)]
    exact iput_count hpos o
  case h_3 hd =>
    have hpos := hheld (.inode ff.ip)
    rw [refers_of_inode (.inr hd), if_pos rfl, count_inode] at hpos
    rw [refers_of_inode (.inr hd)]
    exact iput_count hpos o
  case h_4 hn => rw [refers_of_none hn, Nat.add_zero]

end Xv6Lab.Files
