import Xv6Lab.File.Ledger

/-!
# Open-file reference counts over every run

`FileInv` holds at boot and is kept by every step of every process, so it holds in every
state some interleaving of `fork`, `exit`, `open`, `close`, `dup` and `pipe` reaches:

* every counter is what its holders hold (`Sys.Counted`): `f->ref` counts the descriptors of
  `f` and the references that calls in progress hold; `ip->ref` counts the files, the `cwd`s
  and the calls that hold the inode; a pipe's flag is set while one holder has that end;
* a file with no references is `FD_NONE`, and a file a call has just allocated is held by
  that call alone, still `FD_NONE`;
* an `UNUSED` slot has no descriptors and no `cwd`, and a child that `fork` is filling in
  has one parent, and no descriptor beyond the parent's loop.

* `FileInv.step` — one step keeps the invariant, and a step fails only with "init exiting".
-/

namespace Xv6Lab.Files

open Procs (Slot nproc initproc)
open RefCount

/-- What `fork` needs of the slots: an `UNUSED` slot has no descriptors and no `cwd`, and a
child that `fork` is filling in has one parent, no `cwd` yet, and no descriptor at or beyond
the parent's loop. -/
structure Slots (ps : Slot → PState) : Prop where
  unused : ∀ p, (ps p).pc = .unused → (ps p).ofile = (fun _ => none) ∧ (ps p).cwd = none
  child : ∀ p np k, (ps p).pc = .forkDup np k → np ≠ p ∧ (ps np).pc = .embryo ∧
    (ps np).cwd = none ∧ ∀ fd : Fd, k ≤ fd.val → (ps np).ofile fd = none
  parent : ∀ p p' np k k', (ps p).pc = .forkDup np k → (ps p').pc = .forkDup np k' → p = p'

/-- The invariant of the file table. -/
structure FileInv (σ : Sys) : Prop where
  counted : σ.Counted
  free : ∀ f, (σ.files f).ref = 0 → (σ.files f).type = .none
  fresh : ∀ p f, f ∈ (σ.procs p).pc.fresh → (σ.files f).type = .none ∧ (σ.files f).ref = 1
  slots : Slots σ.procs

/-! ### The slots -/

/-- A call of a process that neither forks nor is a child being forked. -/
def Pc.Solo (pc : Pc) : Prop := pc ≠ .unused ∧ pc ≠ .embryo ∧ ∀ np k, pc ≠ .forkDup np k

section Slots

variable {ps : Slot → PState} {p np : Slot} {k : ℕ}

/-- A step of a process on its own keeps the slots. -/
theorem Slots.set (h : Slots ps) (hp : (ps p).pc.Solo) {q : PState} (hq : q.pc.Solo) :
    Slots (Function.update ps p q) where
  unused r hr := by
    by_cases hrp : r = p
    · subst hrp
      simp only [Function.update_self] at hr
      exact absurd hr hq.1
    · simp only [Function.update_of_ne hrp] at hr ⊢
      exact h.unused r hr
  child r np k hr := by
    have hrp : r ≠ p := by
      rintro rfl
      simp only [Function.update_self] at hr
      exact hq.2.2 np k hr
    rw [Function.update_of_ne hrp] at hr
    obtain ⟨hne, hemb, hcwd, hof⟩ := h.child r np k hr
    -- the child is an embryo, and `p` is not
    have hnp : np ≠ p := fun he => hp.2.1 (he ▸ hemb)
    simp only [Function.update_of_ne hnp]
    exact ⟨hne, hemb, hcwd, hof⟩
  parent r r' np k k' hr hr' := by
    have hne : ∀ {r k}, (Function.update ps p q r).pc = .forkDup np k → r ≠ p := by
      rintro r k hr rfl
      simp only [Function.update_self] at hr
      exact hq.2.2 np k hr
    have h₁ := hne hr
    have h₂ := hne hr'
    rw [Function.update_of_ne h₁] at hr
    rw [Function.update_of_ne h₂] at hr'
    exact h.parent r r' np k k' hr hr'

/-- `allocproc`: the parent forks an `UNUSED` slot. -/
theorem Slots.fork (h : Slots ps) (hp : (ps p).pc = .user) (hnp : (ps np).pc = .unused) :
    Slots (Function.update (Function.update ps np { ps np with pc := .embryo }) p
      { ps p with pc := .forkDup np 0 }) := by
  have hne : np ≠ p := by
    rintro rfl
    rw [hp] at hnp
    exact Pc.noConfusion hnp
  obtain ⟨hof, hcwd⟩ := h.unused np hnp
  -- nobody forks `np` yet: a forked child is an embryo
  have hfree : ∀ r k, (ps r).pc ≠ .forkDup np k := fun r k hr => by
    have := (h.child r np k hr).2.1
    rw [hnp] at this
    exact Pc.noConfusion this
  refine ⟨fun r hr => ?_, fun r np' k hr => ?_, fun r r' np' k k' hr hr' => ?_⟩
  · by_cases hrp : r = p
    · subst hrp
      simp at hr
    · by_cases hrn : r = np
      · subst hrn
        simp [Function.update_of_ne hrp] at hr
      · simp only [Function.update_of_ne hrp, Function.update_of_ne hrn] at hr ⊢
        exact h.unused r hr
  · by_cases hrp : r = p
    · subst hrp
      simp only [Function.update_self, Pc.forkDup.injEq] at hr
      obtain ⟨rfl, rfl⟩ := hr
      simp [Function.update_of_ne hne, hcwd, hof]
      exact hne
    · by_cases hrn : r = np
      · subst hrn
        simp [Function.update_of_ne hrp] at hr
      · simp only [Function.update_of_ne hrp, Function.update_of_ne hrn] at hr
        obtain ⟨hne', hemb, hcwd', hof'⟩ := h.child r np' k hr
        have h₁ : np' ≠ p := fun he => by rw [he, hp] at hemb; exact Pc.noConfusion hemb
        have h₂ : np' ≠ np := fun he => hfree r k (he ▸ hr)
        simp only [Function.update_of_ne h₁, Function.update_of_ne h₂]
        exact ⟨hne', hemb, hcwd', hof'⟩
  · -- the forks of others are those of before, and none of them is of `np`
    have hold : ∀ {r k}, r ≠ p → (Function.update (Function.update ps np
        { ps np with pc := .embryo }) p { ps p with pc := .forkDup np 0 } r).pc = .forkDup np' k →
        (ps r).pc = .forkDup np' k := fun {r k} hrp hr => by
      by_cases hrn : r = np
      · subst hrn
        simp [Function.update_of_ne hrp] at hr
      · simpa [Function.update_of_ne hrp, Function.update_of_ne hrn] using hr
    by_cases hrp : r = p <;> by_cases hrp' : r' = p
    · rw [hrp, hrp']
    · subst hrp
      simp only [Function.update_self, Pc.forkDup.injEq] at hr
      obtain ⟨rfl, rfl⟩ := hr
      exact absurd (hold hrp' hr') (hfree r' k')
    · subst hrp'
      simp only [Function.update_self, Pc.forkDup.injEq] at hr'
      obtain ⟨rfl, rfl⟩ := hr'
      exact absurd (hold hrp hr) (hfree r k)
    · exact h.parent r r' np' k k' (hold hrp hr) (hold hrp' hr')

/-- One pass of `fork`'s loop: the child gains descriptors at `k` at most. -/
theorem Slots.fill (h : Slots ps) (hp : (ps p).pc = .forkDup np k) {nq : PState}
    (hpc : nq.pc = .embryo) (hcwd : nq.cwd = none)
    (hof : ∀ fd : Fd, k + 1 ≤ fd.val → nq.ofile fd = none) :
    Slots (Function.update (Function.update ps np nq) p { ps p with pc := .forkDup np (k + 1) }) := by
  obtain ⟨hne, hemb, -, -⟩ := h.child p np k hp
  -- the slots that change are the parent's and the child's
  have hold : ∀ {r}, r ≠ p → r ≠ np →
      Function.update (Function.update ps np nq) p { ps p with pc := .forkDup np (k + 1) } r =
        ps r := fun {r} hrp hrn => by
    rw [Function.update_of_ne hrp, Function.update_of_ne hrn]
  have hchild : Function.update (Function.update ps np nq) p
      { ps p with pc := .forkDup np (k + 1) } np = nq := by
    rw [Function.update_of_ne hne, Function.update_self]
  have hself : (Function.update (Function.update ps np nq) p
      { ps p with pc := .forkDup np (k + 1) } p).pc = .forkDup np (k + 1) := by
    rw [Function.update_self]
  refine ⟨fun r hr => ?_, fun r np' k' hr => ?_, fun r r' np' k₁ k₂ hr hr' => ?_⟩
  · by_cases hrp : r = p
    · subst hrp
      rw [hself] at hr
      exact Pc.noConfusion hr
    · by_cases hrn : r = np
      · subst hrn
        rw [hchild, hpc] at hr
        exact Pc.noConfusion hr
      · rw [hold hrp hrn] at hr ⊢
        exact h.unused r hr
  · by_cases hrp : r = p
    · subst hrp
      rw [hself, Pc.forkDup.injEq] at hr
      obtain ⟨rfl, rfl⟩ := hr
      rw [hchild]
      exact ⟨hne, hpc, hcwd, hof⟩
    · by_cases hrn : r = np
      · subst hrn
        rw [hchild, hpc] at hr
        exact Pc.noConfusion hr
      · rw [hold hrp hrn] at hr
        obtain ⟨hne', hemb', hcwd', hof'⟩ := h.child r np' k' hr
        have h₁ : np' ≠ p := fun he => by rw [he, hp] at hemb'; exact Pc.noConfusion hemb'
        have h₂ : np' ≠ np := fun he => hrp (h.parent r p np' k' k hr (he ▸ hp))
        rw [hold h₁ h₂]
        exact ⟨hne', hemb', hcwd', hof'⟩
  · -- every fork after the step is one of before, the parent's moved on by one
    have hback : ∀ {r k₀}, (Function.update (Function.update ps np nq) p
        { ps p with pc := .forkDup np (k + 1) } r).pc = .forkDup np' k₀ →
        ∃ k₁, (ps r).pc = .forkDup np' k₁ := fun {r k₀} hr => by
      by_cases hrp : r = p
      · subst hrp
        rw [hself, Pc.forkDup.injEq] at hr
        obtain ⟨rfl, rfl⟩ := hr
        exact ⟨k, hp⟩
      · by_cases hrn : r = np
        · subst hrn
          rw [hchild, hpc] at hr
          exact Pc.noConfusion hr
        · rw [hold hrp hrn] at hr
          exact ⟨k₀, hr⟩
    obtain ⟨j, hj⟩ := hback hr
    obtain ⟨j', hj'⟩ := hback hr'
    exact h.parent r r' np' j j' hj hj'

/-- The end of `fork`: parent and child both run. -/
theorem Slots.forkEnd (h : Slots ps) (hp : (ps p).pc = .forkDup np k) {nq q : PState}
    (hnq : nq.pc = .user) (hq : q.pc = .user) :
    Slots (Function.update (Function.update ps np nq) p q) := by
  obtain ⟨hne, hemb, -, -⟩ := h.child p np k hp
  have hold : ∀ {r}, r ≠ p → r ≠ np → Function.update (Function.update ps np nq) p q r = ps r :=
    fun {r} hrp hrn => by rw [Function.update_of_ne hrp, Function.update_of_ne hrn]
  -- a slot whose call is not `fork`'s or that is unused is neither the parent nor the child
  have hother : ∀ {r} {P : Pc → Prop}, P (Function.update (Function.update ps np nq) p q r).pc →
      ¬ P .user → r ≠ p ∧ r ≠ np := fun {r P} hr hu => by
    refine ⟨fun hrp => ?_, fun hrn => ?_⟩
    · subst hrp
      rw [Function.update_self, hq] at hr
      exact hu hr
    · subst hrn
      rw [Function.update_of_ne hne, Function.update_self, hnq] at hr
      exact hu hr
  refine ⟨fun r hr => ?_, fun r np' k' hr => ?_, fun r r' np' k₁ k₂ hr hr' => ?_⟩
  · obtain ⟨hrp, hrn⟩ := hother (P := (· = .unused)) hr Pc.noConfusion
    rw [hold hrp hrn] at hr ⊢
    exact h.unused r hr
  · obtain ⟨hrp, hrn⟩ := hother (P := (· = .forkDup np' k')) hr Pc.noConfusion
    rw [hold hrp hrn] at hr
    obtain ⟨hne', hemb', hcwd', hof'⟩ := h.child r np' k' hr
    have h₁ : np' ≠ p := fun he => by rw [he, hp] at hemb'; exact Pc.noConfusion hemb'
    have h₂ : np' ≠ np := fun he => hrp (h.parent r p np' k' k hr (he ▸ hp))
    rw [hold h₁ h₂]
    exact ⟨hne', hemb', hcwd', hof'⟩
  · obtain ⟨hrp, hrn⟩ := hother (P := (· = .forkDup np' k₁)) hr Pc.noConfusion
    obtain ⟨hrp', hrn'⟩ := hother (P := (· = .forkDup np' k₂)) hr' Pc.noConfusion
    rw [hold hrp hrn] at hr
    rw [hold hrp' hrn'] at hr'
    exact h.parent r r' np' k₁ k₂ hr hr'

end Slots

/-! ### What the scans find -/

theorem argfd_some {v : Fd → Option FileId} {fd : ℤ} {d : Fd} {f : FileId}
    (h : argfd v fd = some (d, f)) : v d = some f := by
  unfold argfd at h
  split_ifs at h with hfd
  simp only [Option.map_eq_some_iff, Prod.mk.injEq] at h
  obtain ⟨a, ha, rfl, rfl⟩ := h
  exact ha

theorem fdalloc_some {v : Fd → Option FileId} {d : Fd} (h : fdalloc v = some d) : v d = none := by
  unfold fdalloc at h
  simpa using List.find?_some h

/-- The second `fdalloc` of `sys_pipe` finds another descriptor than the first. -/
theorem fdalloc_update_some {v : Fd → Option FileId} {d d' : Fd} {f : FileId}
    (h : fdalloc (Function.update v d (some f)) = some d') : d' ≠ d ∧ v d' = none := by
  have hd' := fdalloc_some h
  have hne : d' ≠ d := by
    rintro rfl
    simp at hd'
  exact ⟨hne, by rwa [Function.update_of_ne hne] at hd'⟩

theorem filealloc_some {files : FileId → File} {f : FileId} (h : filealloc files = some f) :
    (files f).ref = 0 := by
  unfold filealloc at h
  simpa using List.find?_some h

theorem unused_some {procs : Slot → PState} {np : Slot}
    (h : (List.finRange nproc).find? (fun q => (procs q).pc = .unused) = some np) :
    (procs np).pc = .unused := by
  simpa using List.find?_some h

/-! ### `filedup` and `fileclose` -/

theorem filedup_ok {σ : Sys} {f : FileId} (h : 0 < (σ.files f).ref) :
    σ.filedup f = .ok (σ.setFile f { σ.files f with ref := (σ.files f).ref + 1 }) := by
  simp only [Sys.filedup]
  rw [if_neg (by omega)]

/-- `fileclose` of a file with references: a reference less, and, for the last, the copy to
release. -/
theorem fileclose_ok {σ : Sys} {f : FileId} (h : 0 < (σ.files f).ref) :
    σ.fileclose f = .ok (if 1 < (σ.files f).ref then
      (σ.setFile f { σ.files f with ref := (σ.files f).ref - 1 }, none)
    else (σ.setFile f { σ.files f with ref := 0, type := .none },
      some { σ.files f with ref := 0 })) := by
  simp only [Sys.fileclose]
  rw [if_neg (by omega)]
  split_ifs with h1 h2 h2 <;> first | rfl | omega

/-! ### What each holder holds -/

theorem PState.holds_of_cleared {q : PState} (h : q.pc.cleared = none) (o : Obj) :
    q.holds o = fdsHold q.ofile o + cwdHolds q.cwd o + q.pc.holds o := by
  rw [PState.holds, fds_of_cleared h]

/-- What a process holds, for a process whose call has closed no descriptor. -/
theorem PState.holds_mk (v : Fd → Option FileId) (c : Option ℕ) {pc : Pc} (h : pc.cleared = none)
    (o : Obj) : ({ ofile := v, cwd := c, pc := pc } : PState).holds o =
      fdsHold v o + cwdHolds c o + pc.holds o :=
  PState.holds_of_cleared (q := { ofile := v, cwd := c, pc := pc }) h o

theorem fds_of_exitRelease {q : PState} {ff : File} {fd : Fd} (hq : q.pc = .exitRelease ff fd) :
    q.fds = Function.update q.ofile fd none := by
  funext d
  by_cases hd : d = fd
  · subst hd
    simp [PState.fds, hq, Pc.cleared]
  · simp [PState.fds, hq, Pc.cleared, Function.update_of_ne hd, Ne.symm hd]

/-- What a process holds whose `exit` has closed `fd` and has `ff` to release. -/
theorem PState.holds_of_exitRelease {q : PState} {ff : File} {fd : Fd}
    (hq : q.pc = .exitRelease ff fd) (o : Obj) :
    q.holds o = fdsHold (Function.update q.ofile fd none) o + cwdHolds q.cwd o + ff.refers o := by
  rw [PState.holds, fds_of_exitRelease hq, hq, Pc.holds_exitRelease]

theorem PState.holds_exitRelease (v : Fd → Option FileId) (c : Option ℕ) (ff : File) (fd : Fd)
    (o : Obj) : ({ ofile := v, cwd := c, pc := .exitRelease ff fd } : PState).holds o =
      fdsHold (Function.update v fd none) o + cwdHolds c o + ff.refers o :=
  PState.holds_of_exitRelease (q := { ofile := v, cwd := c, pc := .exitRelease ff fd }) rfl o

@[simp] theorem File.refers_ref (x : File) (n : ℕ) : ({ x with ref := n } : File).refers = x.refers :=
  rfl

theorem File.holds_of_pos {x : File} (h : 0 < x.ref) : x.holds = x.refers := by
  funext o
  simp [File.holds, h]

theorem File.holds_of_zero {x : File} (h : x.ref = 0) (o : Obj) : x.holds o = 0 := by
  simp [File.holds, h]

theorem File.holds_of_none {x : File} (h : x.type = .none) (o : Obj) : x.holds o = 0 := by
  simp [File.holds, refers_of_none h]

theorem PState.pc_holds_le (q : PState) (o : Obj) : q.pc.holds o ≤ q.holds o := by
  rw [PState.holds]
  omega

theorem Pc.holds_of_fresh {pc : Pc} {f : FileId} (hf : f ∈ pc.fresh) : 0 < pc.holds (.file f) := by
  cases pc <;> simp_all [Pc.fresh, Pc.holds, Pc.held]

/-- A process holding a file keeps its count positive. -/
theorem FileInv.ref_pos {σ : Sys} (h : FileInv σ) {p : Slot} {f : FileId}
    (hp : 0 < (σ.procs p).holds (.file f)) : 0 < (σ.files f).ref :=
  lt_of_lt_of_le hp (h.counted.le_left p (.file f))

/-- A file a call has just allocated is held by that call alone. -/
theorem FileInv.fresh_only {σ : Sys} (h : FileInv σ) {p q : Slot} {f : FileId}
    (hf : f ∈ (σ.procs q).pc.fresh) (hp : 0 < (σ.procs p).holds (.file f)) : p = q := by
  have hq := lt_of_lt_of_le (Pc.holds_of_fresh hf) ((σ.procs q).pc_holds_le (.file f))
  exact h.counted.left_eq (k := .file f) (h.fresh q f hf).2.le hp hq

/-! ### Steps of the counters -/

theorem Sys.Counted.step {σ σ' : Sys} (hc : σ.Counted) (s : Finset Slot) (t : Finset FileId)
    (hs : ∀ q ∉ s, σ'.procs q = σ.procs q) (ht : ∀ g ∉ t, σ'.files g = σ.files g)
    (hb : ∀ o, σ'.count o + ∑ q ∈ s, (σ.procs q).holds o + ∑ g ∈ t, (σ.files g).holds o =
      σ.count o + ∑ q ∈ s, (σ'.procs q).holds o + ∑ g ∈ t, (σ'.files g).holds o) :
    σ'.Counted :=
  Counted.of_eqOn hc s t hs ht hb

/-- A process moves on with what it holds. -/
theorem Sys.Counted.goto {σ : Sys} (hc : σ.Counted) {p : Slot} {pc : Pc}
    (hcl : (σ.procs p).pc.cleared = none) (hcl' : pc.cleared = none)
    (hh : ∀ o, pc.holds o = (σ.procs p).pc.holds o) : (σ.goto p pc).Counted := by
  refine hc.step {p} ∅ (fun q hq => ?_) (fun g _ => rfl) (fun o => ?_)
  · simp only [Finset.mem_singleton] at hq
    simp [hq]
  · simp only [Finset.sum_singleton, Finset.sum_empty, goto_count, goto_procs,
      Function.update_self]
    rw [PState.holds_of_cleared hcl, PState.holds_of_cleared (q := { σ.procs p with pc := pc }) hcl',
      hh o]

/-- A call that holds nothing of its own and has closed no descriptor. -/
def Pc.Idle (pc : Pc) : Prop :=
  pc.held = [] ∧ pc.opening = none ∧ pc.releasing = none ∧ pc.cleared = none

theorem Pc.Idle.holds {pc : Pc} (h : pc.Idle) (o : Obj) : pc.holds o = 0 := by
  obtain ⟨h1, h2, h3, -⟩ := h
  cases o <;> simp [Pc.holds, Pc.releases, h1, h2, h3]

@[simp] theorem Pc.holds_user (o : Obj) : Pc.user.holds o = 0 :=
  Pc.Idle.holds ⟨rfl, rfl, rfl, rfl⟩ o

@[simp] theorem Pc.holds_zombie (o : Obj) : Pc.zombie.holds o = 0 :=
  Pc.Idle.holds ⟨rfl, rfl, rfl, rfl⟩ o

@[simp] theorem Pc.holds_exiting (k : ℕ) (o : Obj) : (Pc.exiting k).holds o = 0 :=
  Pc.Idle.holds ⟨rfl, rfl, rfl, rfl⟩ o

theorem Sys.Counted.goto_idle {σ : Sys} (hc : σ.Counted) {p : Slot} {pc : Pc}
    (h₁ : (σ.procs p).pc.Idle) (h₂ : pc.Idle) : (σ.goto p pc).Counted :=
  hc.goto h₁.2.2.2 h₂.2.2.2 fun o => by rw [h₁.holds, h₂.holds]

theorem fdRef_none (o : Obj) : fdRef none o = 0 := by
  cases o <;> rfl

theorem fdRef_some (f : FileId) (o : Obj) : fdRef (some f) o = if o = .file f then 1 else 0 := by
  cases o with
  | file g => by_cases hg : f = g <;> simp [fdRef, hg, eq_comm]
  | inode ip => rfl
  | pipeEnd pi w => rfl

/-- A descriptor of `f` set where there was none. -/
theorem fdsHold_set {v : Fd → Option FileId} {d : Fd} (hd : v d = none) (f : FileId) (o : Obj) :
    fdsHold (Function.update v d (some f)) o = fdsHold v o + if o = .file f then 1 else 0 := by
  have := fdsHold_update v d (some f) o
  rw [hd, fdRef_none, fdRef_some] at this
  omega

/-- A descriptor of `f` cleared. -/
theorem fdsHold_clear {v : Fd → Option FileId} {d : Fd} {f : FileId} (hd : v d = some f)
    (o : Obj) : fdsHold (Function.update v d none) o + (if o = .file f then 1 else 0) =
      fdsHold v o := by
  have := fdsHold_update v d none o
  rw [hd, fdRef_none, fdRef_some] at this
  omega

/-- A descriptor of `f` holds `f`. -/
theorem fdsHold_pos {v : Fd → Option FileId} {d : Fd} {f : FileId} (hd : v d = some f) :
    0 < fdsHold v (.file f) := by
  have := le_fdCount v d f
  simp only [hd, if_true] at this
  exact this

/-- A change of a file's count that keeps it positive keeps what the file holds. -/
theorem File.holds_ref {x : File} (n : ℕ) (hx : 0 < x.ref) (hn : 0 < n) :
    ({ x with ref := n } : File).holds = x.holds := by
  rw [File.holds_of_pos (x := { x with ref := n }) hn, File.holds_of_pos hx, File.refers_ref]

/-- A step keeps the files calls have just allocated when it changes processes other than
those files' and files that its own process holds. -/
theorem FileInv.fresh_step {σ σ' : Sys} (h : FileInv σ) {p : Slot}
    (hproc : ∀ r, (σ'.procs r).pc.fresh ≠ [] → r ≠ p ∧ σ'.procs r = σ.procs r)
    (hfiles : ∀ g, σ'.files g ≠ σ.files g → 0 < (σ.procs p).holds (.file g)) :
    ∀ r f, f ∈ (σ'.procs r).pc.fresh → (σ'.files f).type = .none ∧ (σ'.files f).ref = 1 := by
  intro r f hf
  obtain ⟨hrp, hr⟩ := hproc r (List.ne_nil_of_mem hf)
  rw [hr] at hf
  by_cases hg : σ'.files f = σ.files f
  · rw [hg]
    exact h.fresh r f hf
  · exact absurd (h.fresh_only hf (hfiles f hg)).symm hrp

theorem fresh_of_update {ps : Slot → PState} {p r : Slot} {q : PState} (hq : q.pc.fresh = [])
    (hr : (Function.update ps p q r).pc.fresh ≠ []) : r ≠ p ∧ Function.update ps p q r = ps r := by
  have hrp : r ≠ p := by
    rintro rfl
    rw [Function.update_self, hq] at hr
    exact hr rfl
  exact ⟨hrp, Function.update_of_ne hrp _ _⟩

/-- A counted step of one process, to a call with no file just allocated, that changes only
files the process holds and leaves them of type `FD_NONE` when they have no references. -/
theorem FileInv.of_step {σ σ' : Sys} (h : FileInv σ) {p : Slot} {q : PState} (hc : σ'.Counted)
    (hprocs : σ'.procs = Function.update σ.procs p q) (hfresh : q.pc.fresh = [])
    (hsolo : (σ.procs p).pc.Solo) (hsolo' : q.pc.Solo)
    (hfiles : ∀ g, σ'.files g ≠ σ.files g → 0 < (σ.procs p).holds (.file g) ∧
      ((σ'.files g).ref = 0 → (σ'.files g).type = .none)) : FileInv σ' := by
  refine ⟨hc, fun g hg => ?_, h.fresh_step (fun r hr => ?_) fun g hg => (hfiles g hg).1, ?_⟩
  · by_cases hg' : σ'.files g = σ.files g
    · rw [hg'] at hg ⊢
      exact h.free g hg
    · exact (hfiles g hg').2 hg
  · rw [hprocs] at hr ⊢
    exact fresh_of_update hfresh hr
  · rw [hprocs]
    exact h.slots.set hsolo hsolo'

/-- The files after a change of one file `f` the process holds. -/
theorem changed_of_update {files : FileId → File} {f : FileId} {x : File} {P : FileId → Prop}
    (hf : P f) (hx : x.ref = 0 → x.type = .none) (g : FileId)
    (hg : Function.update files f x g ≠ files g) :
    P g ∧ ((Function.update files f x g).ref = 0 → (Function.update files f x g).type = .none) := by
  by_cases hgf : g = f
  · subst hgf
    rw [Function.update_self]
    exact ⟨hf, hx⟩
  · exact absurd (Function.update_of_ne hgf _ _) hg

/-- A call moves on with what it holds, and with no file just allocated. -/
theorem FileInv.goto {σ : Sys} (h : FileInv σ) {p : Slot} {pc : Pc}
    (hcl : (σ.procs p).pc.cleared = none) (hcl' : pc.cleared = none)
    (hh : ∀ o, pc.holds o = (σ.procs p).pc.holds o) (hfresh : pc.fresh = [])
    (hsolo : (σ.procs p).pc.Solo) (hsolo' : pc.Solo) : FileInv (σ.goto p pc) :=
  h.of_step (h.counted.goto hcl hcl' hh) rfl hfresh hsolo hsolo' fun _ hg => absurd rfl hg

/-! ### Moves of references -/

section Moves

variable {σ : Sys} {r : Slot}

/-- A descriptor set where there was none: a reference more. -/
theorem PState.holds_setFd {q : PState} (hcl : q.pc.cleared = none) {d : Fd} (hd : q.ofile d = none)
    (f : FileId) (o : Obj) :
    ({ q with ofile := Function.update q.ofile d (some f) } : PState).holds o =
      q.holds o + if o = .file f then 1 else 0 := by
  rw [PState.holds_of_cleared hcl,
    PState.holds_of_cleared (q := { q with ofile := Function.update q.ofile d (some f) }) hcl,
    fdsHold_set hd]
  dsimp only
  omega

/-- `filedup` for a new descriptor: the count and the descriptors of `f` go up together. -/
theorem Sys.Counted.addFd (hc : σ.Counted) {d : Fd} {f : FileId}
    (hcl : (σ.procs r).pc.cleared = none) (hd : (σ.procs r).ofile d = none)
    (hpos : 0 < (σ.files f).ref) :
    ((σ.setFile f { σ.files f with ref := (σ.files f).ref + 1 }).setProc r
      { σ.procs r with ofile := Function.update (σ.procs r).ofile d (some f) }).Counted := by
  refine hc.step {r} {f} (fun i hi => ?_) (fun g hg => ?_) (fun o => ?_)
  · rw [Finset.mem_singleton] at hi
    simp [hi]
  · rw [Finset.mem_singleton] at hg
    simp [hg]
  · have hx := File.holds_ref ((σ.files f).ref + 1) hpos (by omega)
    simp only [Finset.sum_singleton, setProc_count, setProc_procs, setProc_files, setFile_files,
      Function.update_self, PState.holds_setFd hcl hd, hx, setFile_count]
    split_ifs with ho
    · subst ho
      simp only [count_file]
      omega
    · omega

/-- A `cwd` given to a process that had none, with the reference `idup` takes. -/
theorem Sys.Counted.idupCwd (hc : σ.Counted) {c : Option ℕ} {pc : Pc}
    (hcwd : (σ.procs r).cwd = none) (h₁ : (σ.procs r).pc.Idle) (h₂ : pc.Idle) :
    (({ σ with irefs := c.elim σ.irefs (idup σ.irefs) } : Sys).setProc r
      { σ.procs r with cwd := c, pc := pc }).Counted := by
  refine hc.step {r} ∅ (fun i hi => ?_) (fun g _ => rfl) (fun o => ?_)
  · rw [Finset.mem_singleton] at hi
    simp [hi]
  · simp only [Finset.sum_singleton, Finset.sum_empty, setProc_procs, Function.update_self]
    rw [PState.holds_of_cleared h₁.2.2.2, PState.holds_of_cleared (q := { σ.procs r with cwd := c, pc := pc }) h₂.2.2.2,
      h₁.holds, h₂.holds, hcwd]
    cases c with
    | none => simp [Sys.count, cwdHolds]
    | some ip =>
      cases o with
      | inode jp =>
        by_cases hj : jp = ip
        · subst hj
          simp [Sys.count, cwdHolds, idup]
        · simp [Sys.count, cwdHolds, idup, hj, Ne.symm hj]
      | file g => simp [Sys.count, cwdHolds]
      | pipeEnd pi w => simp [Sys.count, cwdHolds]

/-- `filealloc`'s file, taken by a call: its first reference. -/
theorem Sys.Counted.takeGoto (hc : σ.Counted) {f : FileId} (hf0 : (σ.files f).ref = 0)
    (hnone : (σ.files f).type = .none) {pc : Pc} (hcl : (σ.procs r).pc.cleared = none)
    (hcl' : pc.cleared = none)
    (hh : ∀ o, pc.holds o = (σ.procs r).pc.holds o + if o = .file f then 1 else 0) :
    ((σ.take f).goto r pc).Counted := by
  refine hc.step {r} {f} (fun i hi => ?_) (fun g hg => ?_) (fun o => ?_)
  · rw [Finset.mem_singleton] at hi
    simp [Sys.take, hi]
  · rw [Finset.mem_singleton] at hg
    simp [Sys.take, hg]
  · have hx : ({ σ.files f with ref := 1 } : File).holds o = 0 := by
      simp [File.holds, refers_of_none (x := { σ.files f with ref := 1 }) hnone]
    simp only [Finset.sum_singleton, goto_count, goto_procs, goto_files, Sys.take, setFile_files,
      setFile_procs, Function.update_self, File.holds_of_zero hf0, hx]
    rw [PState.holds_of_cleared hcl, PState.holds_of_cleared (q := { σ.procs r with pc := pc }) hcl',
      hh o, setFile_count]
    dsimp only
    split_ifs with ho
    · subst ho
      simp only [count_file, hf0]
      omega
    · omega

/-- `fileclose` of a file with other references left: the closer's reference goes. -/
theorem Sys.Counted.dropRef (hc : σ.Counted) {f : FileId} (hgt : 1 < (σ.files f).ref)
    {q : PState} (hq : ∀ o, q.holds o + (if o = .file f then 1 else 0) = (σ.procs r).holds o) :
    ((σ.setFile f { σ.files f with ref := (σ.files f).ref - 1 }).setProc r q).Counted := by
  refine hc.step {r} {f} (fun i hi => ?_) (fun g hg => ?_) (fun o => ?_)
  · rw [Finset.mem_singleton] at hi
    simp [hi]
  · rw [Finset.mem_singleton] at hg
    simp [hg]
  · have hx := File.holds_ref ((σ.files f).ref - 1) (by omega : 0 < (σ.files f).ref) (by omega)
    have := hq o
    simp only [Finset.sum_singleton, setProc_count, setProc_procs, setProc_files, setFile_files,
      Function.update_self, hx, setFile_count]
    split_ifs with ho
    · subst ho
      simp only [count_file, if_true] at this ⊢
      omega
    · simp only [ho, if_false] at this
      omega

/-- `fileclose` of the last reference: what the file refers to goes to the closer, whose
`pipeclose` or `iput` is still to run. -/
theorem Sys.Counted.dropLast (hc : σ.Counted) {f : FileId} (h1 : (σ.files f).ref = 1)
    {q : PState} (hq : ∀ o, q.holds o + (if o = .file f then 1 else 0) =
      (σ.procs r).holds o + (σ.files f).refers o) :
    ((σ.setFile f { σ.files f with ref := 0, type := .none }).setProc r q).Counted := by
  refine hc.step {r} {f} (fun i hi => ?_) (fun g hg => ?_) (fun o => ?_)
  · rw [Finset.mem_singleton] at hi
    simp [hi]
  · rw [Finset.mem_singleton] at hg
    simp [hg]
  · have hx := File.holds_of_pos (x := σ.files f) (by omega)
    have hx' := File.holds_of_zero (x := { σ.files f with ref := 0, type := .none }) rfl o
    have := hq o
    simp only [Finset.sum_singleton, setProc_count, setProc_procs, setProc_files, setFile_files,
      Function.update_self, hx, hx', setFile_count]
    split_ifs with ho
    · subst ho
      simp only [count_file, if_true, h1, File.refers] at this ⊢
      omega
    · simp only [ho, if_false] at this
      omega

/-- The `pipeclose` or `iput` of what a process had to release. -/
theorem Sys.Counted.release (hc : σ.Counted) {ff : File} {q : PState}
    (hq : ∀ o, q.holds o + ff.refers o = (σ.procs r).holds o) :
    ((σ.release ff).setProc r q).Counted := by
  have hle : ∀ o, ff.refers o ≤ σ.count o := fun o =>
    le_trans (by have := hq o; omega) (hc.le_left r o)
  refine hc.step {r} ∅ (fun i hi => ?_) (fun g _ => by simp) (fun o => ?_)
  · rw [Finset.mem_singleton] at hi
    simp [hi]
  · have hrel := count_release hle o
    have := hq o
    simp only [Finset.sum_singleton, Finset.sum_empty, setProc_count, setProc_procs,
      Function.update_self]
    omega

/-- `exit`'s `iput(p->cwd)`. -/
theorem Sys.Counted.iputCwd (hc : σ.Counted) {pc : Pc} (h₁ : (σ.procs r).pc.Idle)
    (h₂ : pc.Idle) :
    (({ σ with irefs := (σ.procs r).cwd.elim σ.irefs (iput σ.irefs) } : Sys).setProc r
      { σ.procs r with cwd := none, pc := pc }).Counted := by
  refine hc.step {r} ∅ (fun i hi => ?_) (fun g _ => rfl) (fun o => ?_)
  · rw [Finset.mem_singleton] at hi
    simp [hi]
  · simp only [Finset.sum_singleton, Finset.sum_empty, setProc_procs, Function.update_self]
    rw [PState.holds_of_cleared h₁.2.2.2,
      PState.holds_of_cleared (q := { σ.procs r with cwd := none, pc := pc }) h₂.2.2.2,
      h₁.holds, h₂.holds]
    cases hcwd : (σ.procs r).cwd with
    | none => simp [Sys.count, cwdHolds]
    | some ip =>
      -- the `cwd` holds a reference, so `iput` finds one
      have hpos : 0 < σ.irefs ip := by
        have := hc.le_left r (.inode ip)
        rw [PState.holds_of_cleared h₁.2.2.2, hcwd] at this
        simp only [cwdHolds, if_true, count_inode] at this
        omega
      have := iput_count hpos o
      cases o with
      | inode jp =>
        by_cases hj : jp = ip
        · subst hj
          simp only [count_inode, if_true] at this ⊢
          simp [cwdHolds]
          omega
        · simp [cwdHolds, iput, Ne.symm hj, Function.update_of_ne hj]
      | file g => simp [Sys.count, cwdHolds]
      | pipeEnd pi w => simp [Sys.count, cwdHolds]

end Moves

/-! ### `fork` -/

theorem FileInv.fork {σ : Sys} (h : FileInv σ) {p : Slot} (hp : (σ.procs p).pc = .user)
    (ok : Bool) : FileInv (σ.fork p ok) := by
  unfold Sys.fork
  split
  case h_2 => exact h
  case h_1 np hfind =>
    have hnp := unused_some hfind
    have hne : np ≠ p := fun he => by rw [he, hp] at hnp; exact Pc.noConfusion hnp
    split_ifs with hok
    case neg => exact h
    case pos =>
      have hσ₁p : (σ.goto np .embryo).procs p = σ.procs p := by
        simp [Function.update_of_ne hne.symm]
      refine ⟨?_, h.free, ?_, ?_⟩
      · -- the parent and the child hold nothing of their own yet
        have h₁ : (σ.goto np .embryo).Counted := h.counted.goto_idle
          (by rw [hnp]; exact ⟨rfl, rfl, rfl, rfl⟩) ⟨rfl, rfl, rfl, rfl⟩
        exact h₁.goto_idle (by rw [hσ₁p, hp]; exact ⟨rfl, rfl, rfl, rfl⟩) ⟨rfl, rfl, rfl, rfl⟩
      · refine h.fresh_step (p := p) (fun r hr => ?_) (fun g hg => absurd rfl hg)
        rw [goto_procs, hσ₁p] at hr ⊢
        obtain ⟨hrp, hr₁⟩ := fresh_of_update (by rfl) hr
        rw [hr₁] at hr ⊢
        exact ⟨hrp, (fresh_of_update (by rfl) hr).2⟩
      · rw [goto_procs, hσ₁p]
        exact h.slots.fork hp hnp

/-- One pass of `fork`'s loop, or its end: `filedup` finds a reference, since the parent holds
one through the descriptor it copies. -/
theorem FileInv.forkDup {σ : Sys} (h : FileInv σ) {p np : Slot} {k : ℕ}
    (hp : (σ.procs p).pc = .forkDup np k) :
    ∃ σ', σ.forkDup p np k = .ok σ' ∧ FileInv σ' := by
  obtain ⟨hne, hemb, hcwd, hof⟩ := h.slots.child p np k hp
  have hidle : (σ.procs p).pc.Idle := by rw [hp]; exact ⟨rfl, rfl, rfl, rfl⟩
  have hnidle : (σ.procs np).pc.Idle := by rw [hemb]; exact ⟨rfl, rfl, rfl, rfl⟩
  unfold Sys.forkDup
  dsimp only
  split_ifs with hk
  · cases hf : (σ.procs p).ofile ⟨k, hk⟩ with
    | none =>
      refine ⟨_, rfl, h.counted.goto_idle hidle ⟨rfl, rfl, rfl, rfl⟩, h.free,
        h.fresh_step (p := p) (fun r hr => fresh_of_update (by rfl) hr)
          (fun g hg => absurd rfl hg), ?_⟩
      have hs := h.slots.fill hp hemb hcwd fun fd hfd => hof fd (by omega)
      rwa [Function.update_eq_self] at hs
    | some f =>
      have hpos : 0 < (σ.files f).ref := h.ref_pos (p := p) (f := f) (by
        rw [PState.holds_of_cleared hidle.2.2.2]
        have := fdsHold_pos hf
        omega)
      dsimp only
      rw [filedup_ok hpos]
      refine ⟨_, rfl, ?_⟩
      -- the child's new descriptor is the new reference
      have hc₂ := h.counted.addFd (r := np) hnidle.2.2.2 (hof ⟨k, hk⟩ le_rfl) hpos
      refine ⟨hc₂.goto_idle (by simpa [Function.update_of_ne hne.symm] using hidle)
          ⟨rfl, rfl, rfl, rfl⟩, fun g hg => ?_, ?_, ?_⟩
      · by_cases hgf : g = f
        · subst hgf
          simp at hg
        · simp only [goto_files, setProc_files, setFile_files, Function.update_of_ne hgf] at hg ⊢
          exact h.free g hg
      · refine h.fresh_step (p := p) (fun r hr => ?_) (fun g hg => ?_)
        · simp only [goto_procs, setProc_procs, setFile_procs, Function.update_of_ne hne.symm] at hr ⊢
          obtain ⟨hrp, hr₁⟩ := fresh_of_update (by rfl) hr
          rw [hr₁] at hr ⊢
          obtain ⟨-, hr₂⟩ := fresh_of_update (by rw [hemb]; rfl) hr
          exact ⟨hrp, hr₂⟩
        · by_cases hgf : g = f
          · subst hgf
            rw [PState.holds_of_cleared hidle.2.2.2]
            have := fdsHold_pos hf
            omega
          · simp [Function.update_of_ne hgf] at hg
      · simp only [goto_procs, setProc_procs, setFile_procs, Function.update_of_ne hne.symm]
        exact h.slots.fill hp hemb hcwd fun fd hfd => by
          simp only [Function.update_of_ne (show fd ≠ ⟨k, hk⟩ from fun he => by
            rw [he] at hfd; simp at hfd)]
          exact hof fd (by omega)
  · -- past the loop: the child gets the parent's `cwd`, with a reference of its own
    refine ⟨_, rfl, ?_⟩
    have hc₂ := h.counted.idupCwd (r := np) (c := (σ.procs p).cwd) hcwd hnidle
      (show Pc.user.Idle from ⟨rfl, rfl, rfl, rfl⟩)
    refine ⟨hc₂.goto_idle (by simpa [Function.update_of_ne hne.symm] using hidle)
      ⟨rfl, rfl, rfl, rfl⟩, h.free, ?_, ?_⟩
    · refine h.fresh_step (p := p) (fun r hr => ?_) (fun g hg => absurd rfl hg)
      simp only [goto_procs, setProc_procs, Function.update_of_ne hne.symm] at hr ⊢
      obtain ⟨hrp, hr₁⟩ := fresh_of_update (by rfl) hr
      rw [hr₁] at hr ⊢
      exact ⟨hrp, (fresh_of_update (by rfl) hr).2⟩
    · simp only [goto_procs, setProc_procs, Function.update_of_ne hne.symm]
      exact h.slots.forkEnd hp rfl rfl

/-! ### `sys_open` -/

theorem openedFile_ref (x : File) (omode : UInt32) (r : Found) :
    (openedFile x omode r).ref = x.ref := by
  unfold openedFile
  split_ifs <;> rfl

/-- The file `sys_open` fills in refers to the inode `namei` or `create` gave it. -/
theorem openedFile_refers (x : File) (omode : UInt32) (r : Found) (o : Obj) :
    (openedFile x omode r).refers o = if o = .inode r.ip then 1 else 0 := by
  apply refers_of_inode
  unfold openedFile
  split_ifs
  · exact .inr rfl
  · exact .inl rfl

theorem FileInv.openFile {σ : Sys} (h : FileInv σ) {p : Slot} (hp : (σ.procs p).pc = .user)
    (omode : UInt32) (r : Option Found) : FileInv (σ.openFile p omode r) := by
  unfold Sys.openFile
  split
  case h_1 => exact h
  case h_2 r =>
    split_ifs with hbad
    · exact h
    · split
      case h_1 => exact h
      case h_2 f hf =>
        have hf0 := filealloc_some hf
        have hnone := h.free f hf0
        have hidle : (σ.procs p).pc.Idle := by rw [hp]; exact ⟨rfl, rfl, rfl, rfl⟩
        have hsolo : (σ.procs p).pc.Solo := by rw [hp]; exact ⟨Pc.noConfusion, Pc.noConfusion, fun _ _ => Pc.noConfusion⟩
        refine ⟨?_, fun g hg => ?_, fun q g hg => ?_, ?_⟩
        · -- the call holds the new file and the inode's new reference
          refine h.counted.step {p} {f} (fun i hi => ?_) (fun g hg => ?_) (fun o => ?_)
          · rw [Finset.mem_singleton] at hi
            simp [hi]
          · rw [Finset.mem_singleton] at hg
            simp [hg]
          · have hx : ({ σ.files f with ref := 1 } : File).holds o = 0 := by
              simp [File.holds, refers_of_none (x := { σ.files f with ref := 1 }) hnone]
            simp only [Finset.sum_singleton, goto_procs, goto_files, take_files, take_procs,
              goto_count, Function.update_self, File.holds_of_zero hf0, hx]
            rw [PState.holds_of_cleared hidle.2.2.2, PState.holds_mk _ _ rfl, hidle.holds,
              Pc.holds_openFd]
            cases o with
            | file g =>
              by_cases hg : g = f
              · subst hg
                simp [Sys.count, hf0]
                omega
              · simp [Sys.count, hg]
            | inode ip =>
              by_cases hi : ip = r.ip
              · subst hi
                simp [Sys.count, idup]
                omega
              · simp [Sys.count, idup, hi]
            | pipeEnd pi w => simp [Sys.count]
        · by_cases hgf : g = f
          · subst hgf
            simp at hg
          · simp only [goto_files, take_files, Function.update_of_ne hgf] at hg ⊢
            exact h.free g hg
        · -- the new file is the call's, and no other call has it
          by_cases hqp : q = p
          · subst hqp
            simp only [goto_procs, Function.update_self, Pc.fresh, List.mem_singleton] at hg
            subst hg
            simp [hnone]
          · simp only [goto_procs, Function.update_of_ne hqp] at hg
            have hgf : g ≠ f := by
              rintro rfl
              rw [(h.fresh q g hg).2] at hf0
              exact absurd hf0 one_ne_zero
            simp only [goto_files, take_files, Function.update_of_ne hgf]
            exact h.fresh q g hg
        · exact h.slots.set hsolo ⟨Pc.noConfusion, Pc.noConfusion, fun _ _ => Pc.noConfusion⟩

/-- `sys_open` after `filealloc`: the descriptor takes over the call's reference to the file,
and the file the call's reference to the inode; or, with no free descriptor, `fileclose`
drops the file, still `FD_NONE`, so that nothing is released, and `iunlockput` the inode. -/
theorem FileInv.openFd {σ : Sys} (h : FileInv σ) {p : Slot} {f : FileId} {omode : UInt32}
    {r : Found} (hp : (σ.procs p).pc = .openFd f omode r) :
    ∃ σ', σ.openFd p f omode r = .ok σ' ∧ FileInv σ' := by
  obtain ⟨hnone, h1⟩ := h.fresh p f (by rw [hp]; exact List.mem_singleton_self f)
  have hcl : (σ.procs p).pc.cleared = none := by rw [hp]; rfl
  have hsolo : (σ.procs p).pc.Solo := by rw [hp]; exact ⟨Pc.noConfusion, Pc.noConfusion, fun _ _ => Pc.noConfusion⟩
  have hheld : 0 < (σ.procs p).holds (.file f) := by
    rw [PState.holds_of_cleared hcl, hp, Pc.holds_openFd]
    simp
  have hx : ∀ o, (σ.files f).holds o = 0 := fun o => by
    simp [File.holds, refers_of_none hnone]
  unfold Sys.openFd
  dsimp only
  cases hd : fdalloc (σ.procs p).ofile with
  | some fd =>
    refine ⟨_, rfl, ?_⟩
    have hfd := fdalloc_some hd
    refine ⟨?_, fun g hg => ?_, h.fresh_step (p := p) (fun q hq => fresh_of_update (by rfl) hq)
      (fun g hg => ?_), h.slots.set hsolo ⟨Pc.noConfusion, Pc.noConfusion, fun _ _ => Pc.noConfusion⟩⟩
    · -- the descriptor takes over the file, the file the inode
      refine h.counted.step {p} {f} (fun i hi => ?_) (fun g hg => ?_) (fun o => ?_)
      · rw [Finset.mem_singleton] at hi
        simp [hi]
      · rw [Finset.mem_singleton] at hg
        simp [hg]
      · have hx' : (openedFile (σ.files f) omode r).holds o = if o = .inode r.ip then 1 else 0 := by
          simp [File.holds, openedFile_ref, h1, openedFile_refers]
        simp only [Finset.sum_singleton, setProc_procs, setProc_count, setProc_files, setFile_files,
          Function.update_self, hx, hx', setFile_count, openedFile_ref]
        rw [PState.holds_of_cleared hcl, PState.holds_mk _ _ rfl, hp, Pc.holds_openFd,
          fdsHold_set hfd]
        cases o with
        | file g =>
          by_cases hg : g = f
          · subst hg
            simp [Sys.count]
          · simp [hg]
        | inode ip =>
          by_cases hi : ip = r.ip
          · subst hi
            simp
            omega
          · simp [hi]
        | pipeEnd pi w => simp
    · by_cases hgf : g = f
      · subst hgf
        simp [openedFile_ref, h1] at hg
      · simp only [setProc_files, setFile_files, Function.update_of_ne hgf] at hg ⊢
        exact h.free g hg
    · by_cases hgf : g = f
      · exact hgf ▸ hheld
      · simp [Function.update_of_ne hgf] at hg
  | none =>
    rw [fileclose_ok (by omega)]
    simp only [h1, lt_irrefl, if_false, Option.elim_some, bind, Except.bind]
    rw [release_of_none _ (by exact hnone)]
    refine ⟨_, rfl, ?_⟩
    -- the inode's reference, which `iunlockput` drops, is the call's
    have hpos : 0 < σ.irefs r.ip := by
      have := h.counted.le_left p (.inode r.ip)
      rw [PState.holds_of_cleared hcl, hp, Pc.holds_openFd] at this
      simp only [count_inode, if_true] at this
      omega
    refine ⟨?_, fun g hg => ?_, h.fresh_step (p := p) (fun q hq => fresh_of_update (by rfl) hq)
      (fun g hg => ?_), h.slots.set hsolo ⟨Pc.noConfusion, Pc.noConfusion, fun _ _ => Pc.noConfusion⟩⟩
    · refine h.counted.step {p} {f} (fun i hi => ?_) (fun g hg => ?_) (fun o => ?_)
      · rw [Finset.mem_singleton] at hi
        simp [hi]
      · rw [Finset.mem_singleton] at hg
        simp [hg]
      · simp only [Finset.sum_singleton, goto_procs, goto_count, goto_files, setFile_files,
          setFile_procs, Function.update_self, hx]
        rw [PState.holds_of_cleared hcl, PState.holds_mk _ _ rfl, hp, Pc.holds_openFd]
        have hz : ({ σ.files f with ref := 0, type := .none } : File).holds = fun _ => 0 :=
          funext (File.holds_of_zero rfl)
        rw [hz]
        cases o with
        | file g =>
          by_cases hg : g = f
          · subst hg
            simp [Sys.count, h1]
            omega
          · simp [Sys.count, hg]
        | inode ip =>
          by_cases hi : ip = r.ip
          · subst hi
            simp [Sys.count, iput]
            omega
          · simp [Sys.count, iput, hi]
        | pipeEnd pi w => simp [Sys.count]
    · by_cases hgf : g = f
      · subst hgf
        simp
      · simp only [goto_files, setFile_files, Function.update_of_ne hgf] at hg ⊢
        exact h.free g hg
    · by_cases hgf : g = f
      · exact hgf ▸ hheld
      · simp [Function.update_of_ne hgf] at hg

/-! ### `sys_close` and `sys_dup` -/

theorem Pc.solo_user : Pc.user.Solo := ⟨Pc.noConfusion, Pc.noConfusion, fun _ _ => Pc.noConfusion⟩

/-- `sys_close`: the descriptor's reference passes to the call's `fileclose`. -/
theorem FileInv.close {σ : Sys} (h : FileInv σ) {p : Slot} (hp : (σ.procs p).pc = .user)
    (fd : ℤ) : FileInv (σ.close p fd) := by
  unfold Sys.close
  dsimp only
  split
  case h_2 => exact h
  case h_1 d f ha =>
    have hd := argfd_some ha
    have hcl : (σ.procs p).pc.cleared = none := by rw [hp]; rfl
    refine ⟨?_, h.free, h.fresh_step (p := p) (fun q hq => fresh_of_update (by rfl) hq)
      (fun g hg => absurd rfl hg), h.slots.set (hp ▸ Pc.solo_user) ⟨Pc.noConfusion, Pc.noConfusion, fun _ _ => Pc.noConfusion⟩⟩
    refine h.counted.step {p} ∅ (fun i hi => ?_) (fun g _ => rfl) (fun o => ?_)
    · rw [Finset.mem_singleton] at hi
      simp [hi]
    · have hfd := fdsHold_clear hd o
      simp only [Finset.sum_singleton, Finset.sum_empty, setProc_count, setProc_procs,
        Function.update_self]
      rw [PState.holds_of_cleared hcl, PState.holds_mk _ _ rfl, hp, Pc.holds_closing,
        heldHolds_cons, heldHolds_nil, Pc.holds_user]
      omega

/-- `sys_dup`: the new descriptor and `filedup`'s reference go together; `filedup` finds one
since the old descriptor holds the file. -/
theorem FileInv.dup {σ : Sys} (h : FileInv σ) {p : Slot} (hp : (σ.procs p).pc = .user)
    (fd : ℤ) : ∃ σ', σ.dup p fd = .ok σ' ∧ FileInv σ' := by
  unfold Sys.dup
  dsimp only
  split
  case h_2 => exact ⟨σ, rfl, h⟩
  case h_1 d f ha =>
    have hd := argfd_some ha
    split
    case h_2 => exact ⟨σ, rfl, h⟩
    case h_1 d' hd' =>
      have hfd := fdalloc_some hd'
      have hcl : (σ.procs p).pc.cleared = none := by rw [hp]; rfl
      have hheld : 0 < (σ.procs p).holds (.file f) := by
        rw [PState.holds_of_cleared hcl]
        have := fdsHold_pos hd
        omega
      have hpos := h.ref_pos hheld
      rw [filedup_ok (σ := σ.setProc p _) hpos]
      refine ⟨_, rfl, h.counted.addFd hcl hfd hpos, fun g hg => ?_, h.fresh_step (p := p)
        (fun q hq => ?_) (fun g hg => ?_), h.slots.set (hp ▸ Pc.solo_user) (hp ▸ Pc.solo_user)⟩
      · by_cases hgf : g = f
        · subst hgf
          simp at hg
        · simp only [setFile_files, setProc_files, Function.update_of_ne hgf] at hg ⊢
          exact h.free g hg
      · simp only [setFile_procs, setProc_procs] at hq ⊢
        exact fresh_of_update (by rw [hp]; rfl) hq
      · by_cases hgf : g = f
        · exact hgf ▸ hheld
        · simp [Function.update_of_ne hgf] at hg

/-! ### `sys_pipe` -/

/-- A file `filealloc` takes is `FD_NONE` and, with its one reference, none of another
call's. -/
theorem FileInv.take_free {σ : Sys} (h : FileInv σ) {f : FileId} (g : FileId)
    (hg : ((σ.take f).files g).ref = 0) : ((σ.take f).files g).type = .none := by
  by_cases hgf : g = f
  · subst hgf
    simp at hg
  · simp only [take_files, Function.update_of_ne hgf] at hg ⊢
    exact h.free g hg

theorem FileInv.take_fresh {σ : Sys} (h : FileInv σ) {f : FileId} (hf0 : (σ.files f).ref = 0)
    {p : Slot} {pc : Pc} (hpc : ∀ g ∈ pc.fresh, g = f ∨ g ∈ (σ.procs p).pc.fresh) (q : Slot)
    (g : FileId) (hg : g ∈ (((σ.take f).goto p pc).procs q).pc.fresh) :
    (((σ.take f).goto p pc).files g).type = .none ∧ (((σ.take f).goto p pc).files g).ref = 1 := by
  -- a file some call has from before is not the one taken
  have hold : ∀ {q}, g ∈ (σ.procs q).pc.fresh →
      ((σ.take f).files g).type = .none ∧ ((σ.take f).files g).ref = 1 := fun {q} hq => by
    have hgf : g ≠ f := by
      rintro rfl
      rw [(h.fresh q g hq).2] at hf0
      exact absurd hf0 one_ne_zero
    simp only [take_files, Function.update_of_ne hgf]
    exact h.fresh q g hq
  simp only [goto_files]
  by_cases hqp : q = p
  · subst hqp
    simp only [goto_procs, take_procs, Function.update_self] at hg
    rcases hpc g hg with rfl | hg'
    · simp [h.free g hf0]
    · exact hold hg'
  · simp only [goto_procs, take_procs, Function.update_of_ne hqp] at hg
    exact hold hg

/-- `sys_pipe` up to the first `filealloc`. -/
theorem FileInv.pipe {σ : Sys} (h : FileInv σ) {p : Slot} (hp : (σ.procs p).pc = .user) :
    FileInv (σ.pipe p) := by
  unfold Sys.pipe
  split
  case h_2 => exact h
  case h_1 f0 hf =>
    have hf0 := filealloc_some hf
    refine ⟨h.counted.takeGoto hf0 (h.free f0 hf0) (by rw [hp]; rfl) rfl fun o => ?_,
      h.take_free, h.take_fresh hf0 (fun g hg => .inl (List.mem_singleton.mp hg)),
      h.slots.set (hp ▸ Pc.solo_user) ⟨Pc.noConfusion, Pc.noConfusion, fun _ _ => Pc.noConfusion⟩⟩
    rw [hp, Pc.holds_pipeAlloc₂, Pc.holds_user, heldHolds_cons, heldHolds_nil]

/-- `pipealloc`'s second `filealloc`, or the `fileclose` of the first file. -/
theorem FileInv.pipeAlloc₂ {σ : Sys} (h : FileInv σ) {p : Slot} {f0 : FileId}
    (hp : (σ.procs p).pc = .pipeAlloc₂ f0) : FileInv (σ.pipeAlloc₂ p f0) := by
  have hsolo : (σ.procs p).pc.Solo := by rw [hp]; exact ⟨Pc.noConfusion, Pc.noConfusion, fun _ _ => Pc.noConfusion⟩
  unfold Sys.pipeAlloc₂
  split
  case h_2 =>
    refine h.goto (by rw [hp]; rfl) rfl (fun o => ?_) rfl hsolo ⟨Pc.noConfusion, Pc.noConfusion, fun _ _ => Pc.noConfusion⟩
    rw [hp, Pc.holds_pipeAlloc₂, Pc.holds_closing]
  case h_1 f1 hf =>
    have hf0 := filealloc_some hf
    refine ⟨h.counted.takeGoto hf0 (h.free f1 hf0) (by rw [hp]; rfl) rfl fun o => ?_,
      h.take_free, h.take_fresh hf0 (fun g hg => ?_),
      h.slots.set hsolo ⟨Pc.noConfusion, Pc.noConfusion, fun _ _ => Pc.noConfusion⟩⟩
    · rw [hp, Pc.holds_pipeAlloc₂, Pc.holds_pipeAlloc₃, heldHolds_cons, heldHolds_cons,
        heldHolds_cons]
      omega
    · rw [hp]
      simp only [Pc.fresh, List.mem_cons, List.not_mem_nil, or_false] at hg ⊢
      exact hg.symm

/-- The two files of `pipealloc` are two: each has one reference, and the call holds both. -/
theorem FileInv.pipe_ne {σ : Sys} (h : FileInv σ) {p : Slot} {f0 f1 : FileId}
    (hp : (σ.procs p).pc = .pipeAlloc₃ f0 f1) : f0 ≠ f1 := by
  rintro rfl
  have h1 := (h.fresh p f0 (by rw [hp]; simp [Pc.fresh])).2
  have hle := le_trans ((σ.procs p).pc_holds_le (.file f0)) (h.counted.le_left p (.file f0))
  rw [hp, Pc.holds_pipeAlloc₃] at hle
  simp only [heldHolds_cons, heldHolds_nil, if_true, count_file, h1] at hle
  omega

/-- `pipealloc` on a fresh page: the two files become the pipe's ends, each with the end its
`writable` names. -/
theorem Sys.Counted.pipeFiles {σ : Sys} (hc : σ.Counted) {f0 f1 : FileId} (hne : f0 ≠ f1)
    (h0 : (σ.files f0).type = .none ∧ (σ.files f0).ref = 1)
    (h1 : (σ.files f1).type = .none ∧ (σ.files f1).ref = 1) {pi : ℕ} (hpi : σ.pipes pi = none) :
    ((({ σ with pipes := Function.update σ.pipes pi (some ⟨true, true⟩) } : Sys).setFile f0
      (pipeFile (σ.files f0) pi false)).setFile f1 (pipeFile (σ.files f1) pi true)).Counted := by
  have hx : ∀ (x : File) (w : Bool), x.ref = 1 → ∀ o,
      (pipeFile x pi w).holds o = if o = .pipeEnd pi w then 1 else 0 := fun x w hr o => by
    rw [File.holds_of_pos (by simp [pipeFile, hr]), refers_of_pipe rfl]
    rfl
  have hcount : ((({ σ with pipes := Function.update σ.pipes pi (some ⟨true, true⟩) } : Sys).setFile
      f0 (pipeFile (σ.files f0) pi false)).setFile f1 (pipeFile (σ.files f1) pi true)).count =
      fun o => σ.count o + (if o = .pipeEnd pi false then 1 else 0) +
        (if o = .pipeEnd pi true then 1 else 0) := by
    funext o
    rw [setFile_count_ref (by simp [pipeFile, Function.update_of_ne hne.symm]),
      setFile_count_ref (x := pipeFile (σ.files f0) pi false) (by rfl), pipeOpen_count hpi]
  refine hc.step ∅ {f0, f1} (fun _ _ => rfl) (fun g hg => ?_) (fun o => ?_)
  · simp only [Finset.mem_insert, Finset.mem_singleton, not_or] at hg
    simp [Function.update_of_ne hg.1, Function.update_of_ne hg.2]
  · rw [Finset.sum_pair hne, Finset.sum_pair hne, hcount]
    simp only [Finset.sum_empty, setFile_files, Function.update_self,
      Function.update_of_ne hne, File.holds_of_none h0.1, File.holds_of_none h1.1,
      hx _ _ h0.2, hx _ _ h1.2]
    omega

/-- `pipealloc`'s `kalloc` and the rest of `sys_pipe`: both files become the pipe's ends, then
go to two descriptors, or, on any failure, to `fileclose`. -/
theorem FileInv.pipeAlloc₃ {σ σ' : Sys} (h : FileInv σ) {p : Slot} {f0 f1 : FileId}
    (hp : (σ.procs p).pc = .pipeAlloc₃ f0 f1) {page : Option ℕ} {ok : Bool}
    (hs : σ.pipeAlloc₃ p f0 f1 page ok = some σ') : FileInv σ' := by
  have hsolo : (σ.procs p).pc.Solo := by rw [hp]; exact ⟨Pc.noConfusion, Pc.noConfusion, fun _ _ => Pc.noConfusion⟩
  have hcl : (σ.procs p).pc.cleared = none := by rw [hp]; rfl
  have hclosing : ∀ o, (Pc.closing [f0, f1]).holds o = (σ.procs p).pc.holds o := fun o => by
    rw [hp, Pc.holds_closing, Pc.holds_pipeAlloc₃]
  unfold Sys.pipeAlloc₃ at hs
  cases page with
  | none =>
    cases hs
    exact h.goto hcl rfl hclosing rfl hsolo ⟨Pc.noConfusion, Pc.noConfusion, fun _ _ => Pc.noConfusion⟩
  | some pi =>
    dsimp only at hs
    -- a page that holds a pipe is not one `kalloc` gives
    by_cases hpi : (σ.pipes pi).isSome
    · rw [if_pos hpi] at hs
      cases hs
    rw [if_neg hpi] at hs
    have hpi' : σ.pipes pi = none := Option.not_isSome_iff_eq_none.mp hpi
    have h0 := h.fresh p f0 (by rw [hp]; simp [Pc.fresh])
    have h1 := h.fresh p f1 (by rw [hp]; simp [Pc.fresh])
    have hne := h.pipe_ne hp
    have hc₂ := h.counted.pipeFiles hne h0 h1 hpi'
    generalize hσ₂ : (({ σ with pipes := Function.update σ.pipes pi (some ⟨true, true⟩) } :
      Sys).setFile f0 (pipeFile (σ.files f0) pi false)).setFile f1
        (pipeFile (σ.files f1) pi true) = σ₂ at hs hc₂
    -- what the two files' change leaves of the rest of the invariant
    have hprocs : σ₂.procs = σ.procs := by rw [← hσ₂]; rfl
    have hfree : ∀ g, (σ₂.files g).ref = 0 → (σ₂.files g).type = .none := fun g hg => by
      subst hσ₂
      by_cases hg1 : g = f1
      · subst hg1
        simp [pipeFile, h1.2] at hg
      · by_cases hg0 : g = f0
        · subst hg0
          simp [pipeFile, h0.2, Function.update_of_ne hne] at hg
        · simp only [setFile_files, Function.update_of_ne hg1, Function.update_of_ne hg0] at hg ⊢
          exact h.free g hg
    have hheld : ∀ g, σ₂.files g ≠ σ.files g → 0 < (σ.procs p).holds (.file g) := fun g hg => by
      have hpc := lt_of_lt_of_le (Pc.holds_of_fresh (?_ : g ∈ (σ.procs p).pc.fresh))
        ((σ.procs p).pc_holds_le (.file g))
      · exact hpc
      · rw [hp]
        subst hσ₂
        by_contra hg'
        simp only [Pc.fresh, List.mem_cons, List.not_mem_nil, or_false, not_or] at hg'
        simp [Function.update_of_ne hg'.1, Function.update_of_ne hg'.2] at hg
    -- every failure: `fileclose` of both files
    have hfail : FileInv (σ₂.goto p (.closing [f0, f1])) := by
      refine ⟨hc₂.goto (by rw [hprocs]; exact hcl) rfl fun o => by rw [hprocs, hclosing o],
        hfree, h.fresh_step (p := p) (fun _ hq => ?_) hheld, ?_⟩
      · rw [goto_procs, hprocs] at hq ⊢
        exact fresh_of_update rfl hq
      · rw [goto_procs, hprocs]
        exact h.slots.set hsolo ⟨Pc.noConfusion, Pc.noConfusion, fun _ _ => Pc.noConfusion⟩
    split at hs
    case h_1 => cases hs; exact hfail
    case h_2 fd0 hfd0 =>
      split at hs
      case h_1 => cases hs; exact hfail
      case h_2 fd1 hfd1 =>
        split_ifs at hs with hok
        · cases hs
          have hd0 := fdalloc_some hfd0
          obtain ⟨-, hd1⟩ := fdalloc_update_some hfd1
          refine ⟨hc₂.step {p} ∅ (fun i hi => ?_) (fun _ _ => rfl) (fun o => ?_), hfree,
            h.fresh_step (p := p) (fun _ hq => ?_) hheld, ?_⟩
          · rw [Finset.mem_singleton] at hi
            simp [hi]
          · -- the call's two references pass to the two descriptors
            have hset₀ := fdsHold_set hd0 f0 o
            have hset₁ := fdsHold_set (v := Function.update (σ.procs p).ofile fd0 (some f0))
              (by rw [Function.update_of_ne (fdalloc_update_some hfd1).1]; exact hd1) f1 o
            simp only [Finset.sum_singleton, Finset.sum_empty, setProc_count, setProc_procs,
              Function.update_self, hprocs]
            rw [PState.holds_of_cleared hcl, PState.holds_mk _ _ rfl, hset₁, hset₀, hp,
              Pc.holds_pipeAlloc₃, heldHolds_cons, heldHolds_cons, heldHolds_nil, Pc.holds_user]
            omega
          · rw [setProc_procs, hprocs] at hq ⊢
            exact fresh_of_update rfl hq
          · rw [setProc_procs, hprocs]
            exact h.slots.set hsolo Pc.solo_user
        · cases hs
          exact hfail

/-! ### `fileclose` and `exit` -/

/-- One `fileclose` of the list a call closes: the call's reference goes, and with the last
one what the file refers to passes to the call's `pipeclose` or `iput`. -/
theorem FileInv.closeNext {σ : Sys} (h : FileInv σ) {p : Slot} {fs : List FileId}
    (hp : (σ.procs p).pc = .closing fs) : ∃ σ', σ.closeNext p fs = .ok σ' ∧ FileInv σ' := by
  have hsolo : (σ.procs p).pc.Solo := by rw [hp]; exact ⟨Pc.noConfusion, Pc.noConfusion, fun _ _ => Pc.noConfusion⟩
  have hcl : (σ.procs p).pc.cleared = none := by rw [hp]; rfl
  cases fs with
  | nil =>
    refine ⟨_, rfl, h.goto hcl rfl (fun o => ?_) rfl hsolo Pc.solo_user⟩
    rw [hp, Pc.holds_closing, heldHolds_nil, Pc.holds_user]
  | cons f fs =>
    have hheld : 0 < (σ.procs p).holds (.file f) := by
      have := (σ.procs p).pc_holds_le (.file f)
      rw [hp, Pc.holds_closing, heldHolds_cons, if_pos rfl] at this
      omega
    have hpos := h.ref_pos hheld
    simp only [Sys.closeNext]
    rw [fileclose_ok hpos]
    split_ifs with h1 <;> dsimp only [bind, Except.bind, Option.elim, setFile_procs]
    · refine ⟨_, rfl, h.of_step (h.counted.dropRef h1 fun o => ?_) rfl rfl hsolo
        ⟨Pc.noConfusion, Pc.noConfusion, fun _ _ => Pc.noConfusion⟩ (changed_of_update hheld fun h0 => by simp at h0; omega)⟩
      rw [PState.holds_mk _ _ rfl, PState.holds_of_cleared hcl, hp, Pc.holds_closing,
        Pc.holds_closing, heldHolds_cons]
      simp only [setFile_procs]
      omega
    · refine ⟨_, rfl, h.of_step (h.counted.dropLast (by omega) fun o => ?_) rfl rfl hsolo
        ⟨Pc.noConfusion, Pc.noConfusion, fun _ _ => Pc.noConfusion⟩ (changed_of_update hheld fun _ => rfl)⟩
      rw [PState.holds_mk _ _ rfl, PState.holds_of_cleared hcl, hp, Pc.holds_release,
        Pc.holds_closing, heldHolds_cons, File.refers_ref]
      simp only [setFile_procs]
      omega

/-- The `pipeclose` or `iput` after the last `fileclose` of a file. -/
theorem FileInv.releaseNext {σ : Sys} (h : FileInv σ) {p : Slot} {ff : File} {fs : List FileId}
    (hp : (σ.procs p).pc = .release ff fs) : FileInv ((σ.release ff).goto p (.closing fs)) := by
  have hcl : (σ.procs p).pc.cleared = none := by rw [hp]; rfl
  refine h.of_step (p := p) (q := { σ.procs p with pc := .closing fs })
    (h.counted.release fun o => ?_) (by simp [Sys.goto]) rfl
    (by rw [hp]; exact ⟨Pc.noConfusion, Pc.noConfusion, fun _ _ => Pc.noConfusion⟩) ⟨Pc.noConfusion, Pc.noConfusion, fun _ _ => Pc.noConfusion⟩
    fun g hg => absurd (by simp) hg
  simp only [release_procs]
  rw [PState.holds_mk _ _ rfl, PState.holds_of_cleared hcl, hp, Pc.holds_release,
    Pc.holds_closing]
  omega

/-- `exit` from user space: a process other than `initproc` starts closing its files. -/
theorem FileInv.exit {σ σ' : Sys} (h : FileInv σ) {p : Slot} (hp : (σ.procs p).pc = .user)
    (hs : σ.exit p = .ok σ') : FileInv σ' := by
  unfold Sys.exit at hs
  by_cases hinit : p = initproc
  · rw [if_pos hinit] at hs
    cases hs
  rw [if_neg hinit] at hs
  cases hs
  refine h.goto (by rw [hp]; rfl) rfl (fun o => ?_) rfl (hp ▸ Pc.solo_user)
    ⟨Pc.noConfusion, Pc.noConfusion, fun _ _ => Pc.noConfusion⟩
  rw [hp, Pc.holds_user, Pc.holds_exiting]

/-- One pass of `exit`'s loop: the `fileclose` of descriptor `k`, or, past the last one, the
`iput` of the `cwd`. -/
theorem FileInv.exitNext {σ : Sys} (h : FileInv σ) {p : Slot} {k : ℕ}
    (hp : (σ.procs p).pc = .exiting k) : ∃ σ', σ.exitNext p k = .ok σ' ∧ FileInv σ' := by
  have hsolo : (σ.procs p).pc.Solo := by rw [hp]; exact ⟨Pc.noConfusion, Pc.noConfusion, fun _ _ => Pc.noConfusion⟩
  have hidle : (σ.procs p).pc.Idle := by rw [hp]; exact ⟨rfl, rfl, rfl, rfl⟩
  unfold Sys.exitNext
  dsimp only
  split_ifs with hk
  · cases hd : (σ.procs p).ofile ⟨k, hk⟩ with
    | none =>
      exact ⟨_, rfl, h.goto hidle.2.2.2 rfl (fun o => by rw [hidle.holds, Pc.holds_exiting]) rfl
        hsolo ⟨Pc.noConfusion, Pc.noConfusion, fun _ _ => Pc.noConfusion⟩⟩
    | some f =>
      have hheld : 0 < (σ.procs p).holds (.file f) := by
        rw [PState.holds_of_cleared hidle.2.2.2]
        have := fdsHold_pos hd
        omega
      have hpos := h.ref_pos hheld
      dsimp only
      rw [fileclose_ok hpos]
      split_ifs with h1 <;> dsimp only [bind, Except.bind, setFile_procs]
      · -- other references are left: the descriptor is cleared here
        refine ⟨_, rfl, h.of_step (h.counted.dropRef h1 fun o => ?_) rfl rfl hsolo
          ⟨Pc.noConfusion, Pc.noConfusion, fun _ _ => Pc.noConfusion⟩ (changed_of_update hheld fun h0 => by simp at h0; omega)⟩
        have hclear := fdsHold_clear hd o
        rw [PState.holds_mk _ _ rfl, PState.holds_of_cleared hidle.2.2.2, hidle.holds,
          Pc.holds_exiting]
        omega
      · -- the last reference: the descriptor is cleared after the release
        refine ⟨_, rfl, h.of_step (h.counted.dropLast (by omega) fun o => ?_) rfl rfl hsolo
          ⟨Pc.noConfusion, Pc.noConfusion, fun _ _ => Pc.noConfusion⟩ (changed_of_update hheld fun _ => rfl)⟩
        have hclear := fdsHold_clear hd o
        simp only [setFile_procs]
        rw [PState.holds_exitRelease, PState.holds_of_cleared hidle.2.2.2, hidle.holds,
          File.refers_ref]
        omega
  · exact ⟨_, rfl, h.of_step (h.counted.iputCwd hidle ⟨rfl, rfl, rfl, rfl⟩) rfl rfl hsolo
      ⟨Pc.noConfusion, Pc.noConfusion, fun _ _ => Pc.noConfusion⟩ fun _ hg => absurd rfl hg⟩

/-- `exit`'s `pipeclose` or `iput` of the last reference of a descriptor, which it then
clears. -/
theorem FileInv.exitRelease {σ : Sys} (h : FileInv σ) {p : Slot} {ff : File} {fd : Fd}
    (hp : (σ.procs p).pc = .exitRelease ff fd) : FileInv (σ.exitRelease p ff fd) := by
  refine h.of_step (p := p) (q := { σ.procs p with
      ofile := Function.update (σ.procs p).ofile fd none, pc := .exiting (fd.val + 1) })
    (h.counted.release fun o => ?_) (by simp [Sys.exitRelease]) rfl
    (by rw [hp]; exact ⟨Pc.noConfusion, Pc.noConfusion, fun _ _ => Pc.noConfusion⟩) ⟨Pc.noConfusion, Pc.noConfusion, fun _ _ => Pc.noConfusion⟩
    fun g hg => absurd (by simp [Sys.exitRelease]) hg
  rw [PState.holds_mk _ _ rfl, PState.holds_of_exitRelease hp, Pc.holds_exiting]
  simp only [release_procs]
  omega

end Xv6Lab.Files
