import Xv6Lab.Proc.Code

/-!
# Parents, zombies and wakeups

Over every interleaving of the sections of `Xv6Lab.Procs`, from the table `userinit`
leaves:

* every process but `initproc` that is `RUNNABLE`, `RUNNING`, `SLEEPING` or `ZOMBIE` has a
  parent, and the parent is alive: `exit` hands its children to `initproc` in the same
  section in which it becomes a `ZOMBIE`, and `initproc` never exits;
* a `ZOMBIE` leaves that state only in its parent's `wait`, which frees it and returns its
  pid;
* no process sleeps in `wait` while one of its children is a `ZOMBIE`: `wait` scans and
  goes to sleep in one section, and `exit` wakes the parent in the section in which the
  child becomes a `ZOMBIE`.

`TableInv` is the invariant and `TableInv.step` the step lemma, proved one section at a
time.
-/

namespace Xv6Lab.Procs

/-! ### The table's small lemmas -/

@[simp] theorem Sys.set_proc (σ : Sys) (i : Slot) (p : Proc) :
    (σ.set i p).proc = Function.update σ.proc i p := rfl

theorem Sys.set_apply (σ : Sys) (i : Slot) (p : Proc) (q : Slot) :
    (σ.set i p).proc q = if q = i then p else σ.proc q :=
  Function.update_apply _ _ _ _

@[simp] theorem Sys.set_nextpid (σ : Sys) (i : Slot) (p : Proc) :
    (σ.set i p).nextpid = σ.nextpid := rfl

theorem Sys.set_apply_of_ne (σ : Sys) {a b : Slot} (h : b ≠ a) (p : Proc) :
    (σ.set a p).proc b = σ.proc b :=
  Function.update_of_ne h _ _

theorem Sys.set_comm (σ : Sys) {a b : Slot} (hab : a ≠ b) (x y : Proc) :
    (σ.set a x).set b y = (σ.set b y).set a x := by
  simp only [Sys.set, Function.update_comm hab]

theorem zombieChild_some {ps : Slot → Proc} {i pp : Slot} (h : zombieChild ps i = some pp) :
    (ps pp).parent = some i ∧ (ps pp).state = .zombie := by
  have hp := List.find?_some h
  simpa using hp

theorem zombieChild_none {ps : Slot → Proc} {i : Slot} (h : zombieChild ps i = none) (c : Slot)
    (hc : (ps c).parent = some i) : (ps c).state ≠ .zombie := by
  have hp := List.find?_eq_none.mp h c (List.mem_finRange c)
  simpa [hc] using hp

/-- **`wait` reaps one child.** When the scan finds the `ZOMBIE` child `c` and the copyout
succeeds, `wait` frees `c`'s slot with `freeproc`, returns `c`'s pid and changes no slot but
`c` and its own; `c` is then no `ZOMBIE` child of any process, so no later `wait` returns it
again. -/
theorem Sys.wait_reaps {σ : Sys} {i c : Slot} (hic : i ≠ c) (hc : zombieChild σ.proc i = some c) :
    (σ.wait i true).proc c = (σ.proc c).free ∧ ((σ.wait i true).proc i).ret = (σ.proc c).pid ∧
      (∀ q, q ≠ i → q ≠ c → (σ.wait i true).proc q = σ.proc q) ∧
      ∀ j, zombieChild (σ.wait i true).proc j ≠ some c := by
  have hw : σ.wait i true = (σ.set c (σ.proc c).free).set i
      { (σ.set c (σ.proc c).free).proc i with pc := .user, ret := (σ.proc c).pid } := by
    simp only [Sys.wait, hc, if_true]
  have hfree : (σ.wait i true).proc c = (σ.proc c).free := by
    rw [hw, Sys.set_apply_of_ne _ (Ne.symm hic), Sys.set_apply, if_pos rfl]
  refine ⟨hfree, ?_, fun q hqi hqc => ?_, fun j hj => ?_⟩
  · rw [hw, Sys.set_apply, if_pos rfl]
  · rw [hw, Sys.set_apply_of_ne _ hqi, Sys.set_apply_of_ne _ hqc]
  · -- a freed slot is `UNUSED`
    have hz := (zombieChild_some hj).2
    rw [hfree] at hz
    cases hz

section Wakeup

variable {f : Slot → Proc} {s q : Slot} {c : Chan}

@[simp] theorem wakeup_parent : (wakeup f s c q).parent = (f q).parent := by
  unfold wakeup; split <;> rfl

@[simp] theorem wakeup_pc : (wakeup f s c q).pc = (f q).pc := by
  unfold wakeup; split <;> rfl

@[simp] theorem wakeup_chan : (wakeup f s c q).chan = (f q).chan := by
  unfold wakeup; split <;> rfl

/-- `wakeup` moves a process only from `SLEEPING` on `c` to `RUNNABLE`. -/
theorem wakeup_state :
    (wakeup f s c q).state = (f q).state ∨
      (q ≠ s ∧ (f q).state = .sleeping ∧ (f q).chan = some c ∧
        (wakeup f s c q).state = .runnable) := by
  unfold wakeup
  split
  · rename_i h
    exact .inr ⟨h.1, h.2.1, h.2.2, rfl⟩
  · exact .inl rfl

/-- A process still asleep on `c` after `wakeup(c)` is its caller. -/
theorem wakeup_sleeping (h : (wakeup f s c q).state = .sleeping) :
    (f q).state = .sleeping ∧ ((f q).chan = some c → q = s) := by
  rcases wakeup_state (f := f) (s := s) (c := c) (q := q) with e | ⟨-, -, -, e⟩
  · refine ⟨e ▸ h, fun hc => ?_⟩
    by_contra hq
    have hw : wakeup f s c q = { f q with state := .runnable } :=
      if_pos ⟨hq, e ▸ h, hc⟩
    rw [hw] at h
    cases h
  · rw [e] at h
    cases h

end Wakeup

section Reparent

variable {f : Slot → Proc} {p q : Slot}

theorem adopt_parent :
    (adopt f p q).parent = if (f q).parent = some p then some initproc else (f q).parent := by
  unfold adopt; split <;> rfl

@[simp] theorem adopt_state : (adopt f p q).state = (f q).state := by
  unfold adopt; split <;> rfl

@[simp] theorem adopt_pc : (adopt f p q).pc = (f q).pc := by
  unfold adopt; split <;> rfl

@[simp] theorem adopt_chan : (adopt f p q).chan = (f q).chan := by
  unfold adopt; split <;> rfl

theorem reparent_parent :
    (reparent f p q).parent =
      if (f q).parent = some p then some initproc else (f q).parent := by
  unfold reparent
  split <;> simp only [wakeup_parent, adopt_parent]

@[simp] theorem reparent_pc : (reparent f p q).pc = (f q).pc := by
  unfold reparent
  split <;> simp only [wakeup_pc, adopt_pc]

@[simp] theorem reparent_chan : (reparent f p q).chan = (f q).chan := by
  unfold reparent
  split <;> simp only [wakeup_chan, adopt_chan]

/-- `reparent` moves a process only from `SLEEPING` to `RUNNABLE`. -/
theorem reparent_state :
    (reparent f p q).state = (f q).state ∨
      ((f q).state = .sleeping ∧ (reparent f p q).state = .runnable) := by
  unfold reparent
  split
  · rcases wakeup_state (f := adopt f p) (s := p) (c := .proc initproc) (q := q) with
      e | ⟨-, hs, -, e⟩
    · exact .inl (e.trans adopt_state)
    · exact .inr ⟨adopt_state ▸ hs, e⟩
  · exact .inl adopt_state

/-- After `reparent(p)`, a process other than `p` asleep on `initproc`'s address was not
given a child: `initproc` is woken whenever it is. -/
theorem reparent_sleeping (h : (reparent f p q).state = .sleeping) :
    (f q).state = .sleeping ∧
      ((f q).chan = some (.proc initproc) → q ≠ p → ∀ c, (f c).parent ≠ some p) := by
  unfold reparent at h
  split at h
  · obtain ⟨hs, hch⟩ := wakeup_sleeping h
    refine ⟨adopt_state ▸ hs, fun hc hqp => absurd (hch ?_) hqp⟩
    rw [adopt_chan]
    exact hc
  · rename_i hany
    refine ⟨adopt_state ▸ h, fun _ _ c hc => hany ?_⟩
    exact List.any_eq_true.mpr ⟨c, List.mem_finRange c, decide_eq_true hc⟩

end Reparent

/-! ### The invariant -/

/-- `SLEEPING`, `RUNNABLE` or `RUNNING`: a process past `fork` that has not exited. -/
def ProcState.live : ProcState → Bool
  | .sleeping | .runnable | .running => true
  | _ => false

/-- The child whose `fork` a process is in the middle of. -/
def Pc.child : Pc → Option Slot
  | .forkParent np _ | .forkRun np _ => some np
  | _ => none

/-- What holds of the table between any two sections. -/
structure TableInv (σ : Sys) : Prop where
  init_live : (σ.proc initproc).state.live
  init_orphan : (σ.proc initproc).parent = none
  parent_live : ∀ q r, (σ.proc q).parent = some r → (σ.proc r).state.live
  parent_ne : ∀ q, (σ.proc q).parent ≠ some q
  has_parent : ∀ q, q ≠ initproc → (σ.proc q).state ≠ .unused → (σ.proc q).state ≠ .used →
    (σ.proc q).parent ≠ none
  unused_orphan : ∀ q, (σ.proc q).state = .unused → (σ.proc q).parent = none
  user_of_dead : ∀ q, (σ.proc q).state.live = false → (σ.proc q).pc = .user
  fork_parent : ∀ i np pid, (σ.proc i).pc = .forkParent np pid →
    (σ.proc np).state = .used ∧ np ≠ i
  fork_run : ∀ i np pid, (σ.proc i).pc = .forkRun np pid →
    (σ.proc np).state = .used ∧ (σ.proc np).parent = some i
  child_unique : ∀ i j np, (σ.proc i).pc.child = some np → (σ.proc j).pc.child = some np → i = j
  no_lost_wakeup : ∀ p, (σ.proc p).state = .sleeping → (σ.proc p).chan = some (.proc p) →
    ∀ c, (σ.proc c).parent = some p → (σ.proc c).state ≠ .zombie

/-- The invariant reads only the table, not `nextpid`. -/
theorem TableInv.nextpid {σ : Sys} (h : TableInv σ) (n : Int32) : TableInv { σ with nextpid := n } :=
  { h with }

theorem tableInv_boot : TableInv boot := by
  have hz : ∀ q, q ≠ initproc → boot.proc q = Proc.zero := fun q hq => by
    simp [boot, hq]
  have hi : boot.proc initproc = { Proc.zero with pid := 1, state := .runnable } := by
    simp [boot]
  -- every slot has no parent and resumes in user space
  have hpar : ∀ q, (boot.proc q).parent = none := fun q => by
    by_cases hq : q = initproc
    · rw [hq, hi]; rfl
    · rw [hz q hq]; rfl
  have hpc : ∀ q, (boot.proc q).pc = .user := fun q => by
    by_cases hq : q = initproc
    · rw [hq, hi]; rfl
    · rw [hz q hq]; rfl
  refine ⟨by rw [hi]; rfl, hpar _, fun q r h => ?_, fun q h => ?_,
    fun q hq h₁ _ => absurd (by rw [hz q hq]; rfl) h₁, fun q _ => hpar q, fun q _ => hpc q,
    fun i np pid h => ?_, fun i np pid h => ?_, fun i j np h => ?_, fun p _ _ c h => ?_⟩
  all_goals first
    | exact absurd h (by rw [hpar]; simp)
    | exact absurd h (by rw [hpc]; simp)
    | exact absurd h (by rw [hpc]; simp [Pc.child])

/-! ### Sections that only move processes among the live states -/

/-- A change that keeps every parent, moves processes only among the live states, leaves a
`fork` in progress where it is, and puts a process to sleep on its own address only while
it has no `ZOMBIE` child. -/
structure Calm (σ σ' : Sys) : Prop where
  parent : ∀ q, (σ'.proc q).parent = (σ.proc q).parent
  state : ∀ q, (σ'.proc q).state = (σ.proc q).state ∨
    ((σ.proc q).state.live ∧ (σ'.proc q).state.live)
  pc : ∀ q, (σ'.proc q).pc = (σ.proc q).pc ∨
    ((σ.proc q).pc.child = none ∧ (σ'.proc q).pc.child = none ∧ (σ'.proc q).state.live)
  sleep : ∀ p, (σ'.proc p).state = .sleeping → (σ'.proc p).chan = some (.proc p) →
    ((σ.proc p).state = .sleeping ∧ (σ.proc p).chan = some (.proc p)) ∨
      ∀ c, (σ.proc c).parent = some p → (σ.proc c).state ≠ .zombie

section Calm

variable {σ σ' σ'' : Sys}

/-- A state that is not live is kept. -/
theorem Calm.state_of_not_live (hc : Calm σ σ') {q : Slot}
    (hq : (σ.proc q).state.live = false ∨ (σ'.proc q).state.live = false) :
    (σ'.proc q).state = (σ.proc q).state := by
  rcases hc.state q with e | ⟨h₁, h₂⟩
  · exact e
  · rcases hq with hq | hq
    · rw [hq] at h₁; cases h₁
    · rw [hq] at h₂; cases h₂

theorem Calm.zombie_iff (hc : Calm σ σ') (q : Slot) :
    (σ'.proc q).state = .zombie ↔ (σ.proc q).state = .zombie := by
  constructor
  · intro hz
    rw [← hc.state_of_not_live (.inr (by rw [hz]; rfl)), hz]
  · intro hz
    rw [hc.state_of_not_live (.inl (by rw [hz]; rfl)), hz]

theorem Calm.refl (σ : Sys) : Calm σ σ :=
  ⟨fun _ => rfl, fun _ => .inl rfl, fun _ => .inl rfl, fun _ h hc => .inl ⟨h, hc⟩⟩

theorem Calm.trans (h₁ : Calm σ σ') (h₂ : Calm σ' σ'') : Calm σ σ'' := by
  refine ⟨fun q => (h₂.parent q).trans (h₁.parent q), fun q => ?_, fun q => ?_, fun p hs hc => ?_⟩
  · rcases h₂.state q with e₂ | ⟨l₂, l₂'⟩
    · rw [e₂]; exact h₁.state q
    · rcases h₁.state q with e₁ | ⟨l₁, -⟩
      · exact .inr ⟨e₁ ▸ l₂, l₂'⟩
      · exact .inr ⟨l₁, l₂'⟩
  · rcases h₂.pc q with e₂ | ⟨c₂, c₂', l₂'⟩
    · rcases h₁.pc q with e₁ | ⟨c₁, c₁', l₁'⟩
      · exact .inl (e₂.trans e₁)
      · refine .inr ⟨c₁, e₂ ▸ c₁', ?_⟩
        rcases h₂.state q with e | ⟨-, l⟩
        · exact e ▸ l₁'
        · exact l
    · rcases h₁.pc q with e₁ | ⟨c₁, -, -⟩
      · exact .inr ⟨e₁ ▸ c₂, c₂', l₂'⟩
      · exact .inr ⟨c₁, c₂', l₂'⟩
  · rcases h₂.sleep p hs hc with ⟨hs', hc'⟩ | hz
    · exact h₁.sleep p hs' hc'
    · refine .inr fun c hpc hzc => ?_
      exact hz c ((h₁.parent c).trans hpc) ((h₁.zombie_iff c).mpr hzc)

/-- Changing one slot calmly. -/
theorem calm_set {q : Slot} {p' : Proc} (hpar : p'.parent = (σ.proc q).parent)
    (hstate : p'.state = (σ.proc q).state ∨ ((σ.proc q).state.live ∧ p'.state.live))
    (hpc : p'.pc = (σ.proc q).pc ∨
      ((σ.proc q).pc.child = none ∧ p'.pc.child = none ∧ p'.state.live))
    (hsleep : p'.state = .sleeping → p'.chan = some (.proc q) →
      ((σ.proc q).state = .sleeping ∧ (σ.proc q).chan = some (.proc q)) ∨
        ∀ c, (σ.proc c).parent = some q → (σ.proc c).state ≠ .zombie) :
    Calm σ (σ.set q p') := by
  have hset : ∀ r, (σ.set q p').proc r = if r = q then p' else σ.proc r := fun r =>
    Function.update_apply _ _ _ _
  refine ⟨fun r => ?_, fun r => ?_, fun r => ?_, fun r hs hc => ?_⟩
  · rw [hset]
    split
    · subst r; exact hpar
    · rfl
  · rw [hset]
    split
    · subst r; exact hstate
    · exact .inl rfl
  · rw [hset]
    split
    · subst r; exact hpc
    · exact .inl rfl
  · rw [hset] at hs hc
    split at hs
    · subst r
      rw [if_pos rfl] at hc
      exact hsleep hs hc
    · rename_i hr
      rw [if_neg hr] at hc
      exact .inl ⟨hs, hc⟩

/-- The invariant is kept by a calm change. -/
theorem TableInv.calm (h : TableInv σ) (hc : Calm σ σ') : TableInv σ' := by
  -- the states that are not live are the same in `σ` and `σ'`
  have hunused : ∀ q, (σ'.proc q).state = .unused ↔ (σ.proc q).state = .unused := fun q =>
    ⟨fun e => hc.state_of_not_live (.inr (by rw [e]; rfl)) ▸ e,
     fun e => (hc.state_of_not_live (.inl (by rw [e]; rfl))).trans e⟩
  have hused : ∀ q, (σ'.proc q).state = .used ↔ (σ.proc q).state = .used := fun q =>
    ⟨fun e => hc.state_of_not_live (.inr (by rw [e]; rfl)) ▸ e,
     fun e => (hc.state_of_not_live (.inl (by rw [e]; rfl))).trans e⟩
  have hlive : ∀ q, (σ.proc q).state.live → (σ'.proc q).state.live := fun q hq => by
    rcases hc.state q with e | ⟨-, l⟩
    · exact e ▸ hq
    · exact l
  -- a `fork` in progress is where it was
  have hchild : ∀ q np, (σ'.proc q).pc.child = some np → (σ'.proc q).pc = (σ.proc q).pc :=
    fun q np hq => by
      rcases hc.pc q with e | ⟨-, e, -⟩
      · exact e
      · rw [e] at hq; cases hq
  refine ⟨hlive _ h.init_live, (hc.parent _).trans h.init_orphan, fun q r hq => ?_,
    fun q => (hc.parent q).symm ▸ h.parent_ne q, fun q hq h₁ h₂ => ?_, fun q hq => ?_,
    fun q hq => ?_, fun i np pid hi => ?_, fun i np pid hi => ?_, fun i j np hi hj => ?_,
    fun p hs hch c hpc => ?_⟩
  · exact hlive r (h.parent_live q r ((hc.parent q).symm.trans hq))
  · rw [hc.parent]
    exact h.has_parent q hq (fun e => h₁ ((hunused q).mpr e)) (fun e => h₂ ((hused q).mpr e))
  · rw [hc.parent]
    exact h.unused_orphan q ((hunused q).mp hq)
  · have e := hc.state_of_not_live (.inr hq)
    rcases hc.pc q with e' | ⟨-, -, l⟩
    · rw [e']
      exact h.user_of_dead q (e ▸ hq)
    · rw [hq] at l; cases l
  · rw [hchild i np (by rw [hi]; rfl)] at hi
    obtain ⟨hu, hne⟩ := h.fork_parent i np pid hi
    exact ⟨(hused np).mpr hu, hne⟩
  · rw [hchild i np (by rw [hi]; rfl)] at hi
    obtain ⟨hu, hp⟩ := h.fork_run i np pid hi
    exact ⟨(hused np).mpr hu, (hc.parent np).trans hp⟩
  · rw [hchild i np hi] at hi
    rw [hchild j np hj] at hj
    exact h.child_unique i j np hi hj
  · intro hz'
    rw [hc.parent] at hpc
    have hz := (hc.zombie_iff c).mp hz'
    rcases hc.sleep p hs hch with ⟨hs', hch'⟩ | hnz
    · exact h.no_lost_wakeup p hs' hch' c hpc hz
    · exact hnz c hpc hz

end Calm

/-! ### Changing one slot -/

/-- What the invariant asks of slot `q` changed to `p'`, every other slot kept. -/
structure SlotOK (σ : Sys) (q : Slot) (p' : Proc) : Prop where
  init : q = initproc → p'.state.live ∧ p'.parent = none
  parent_live : ∀ r, p'.parent = some r → r ≠ q ∧ (σ.proc r).state.live
  children : ∀ c, c ≠ q → (σ.proc c).parent = some q → p'.state.live
  has_parent : q ≠ initproc → p'.state ≠ .unused → p'.state ≠ .used → p'.parent ≠ none
  unused_orphan : p'.state = .unused → p'.parent = none
  user_of_dead : p'.state.live = false → p'.pc = .user
  fork_parent : ∀ np pid, p'.pc = .forkParent np pid → np ≠ q ∧ (σ.proc np).state = .used
  fork_run : ∀ np pid, p'.pc = .forkRun np pid →
    np ≠ q ∧ (σ.proc np).state = .used ∧ (σ.proc np).parent = some q
  pending_parent : ∀ j pid, j ≠ q → (σ.proc j).pc = .forkParent q pid → p'.state = .used
  pending_run : ∀ j pid, j ≠ q → (σ.proc j).pc = .forkRun q pid →
    p'.state = .used ∧ p'.parent = some j
  child_unique : ∀ j np, j ≠ q → p'.pc.child = some np → (σ.proc j).pc.child ≠ some np
  sleep_self : p'.state = .sleeping → p'.chan = some (.proc q) →
    ∀ c, c ≠ q → (σ.proc c).parent = some q → (σ.proc c).state ≠ .zombie
  sleep_parent : ∀ r, r ≠ q → (σ.proc r).state = .sleeping → (σ.proc r).chan = some (.proc r) →
    p'.parent = some r → p'.state ≠ .zombie

/-- The frame rule of the invariant: a slot changed as `SlotOK` asks keeps it. -/
theorem TableInv.set {σ : Sys} {q : Slot} {p' : Proc} (h : TableInv σ) (hq : SlotOK σ q p') :
    TableInv (σ.set q p') := by
  -- a slot other than `q` reads as before
  have ho : ∀ r, r ≠ q → (σ.set q p').proc r = σ.proc r := fun r hr => by
    rw [Sys.set_apply, if_neg hr]
  have hs : (σ.set q p').proc q = p' := by rw [Sys.set_apply, if_pos rfl]
  refine ⟨?_, ?_, fun a r ha => ?_, fun a => ?_, fun a ha h₁ h₂ => ?_, fun a ha => ?_,
    fun a ha => ?_, fun a np pid ha => ?_, fun a np pid ha => ?_, fun a b np ha hb => ?_,
    fun p hsl hch c hc => ?_⟩
  · by_cases hi : initproc = q
    · rw [hi, hs]; exact (hq.init hi.symm).1
    · rw [ho _ hi]; exact h.init_live
  · by_cases hi : initproc = q
    · rw [hi, hs]; exact (hq.init hi.symm).2
    · rw [ho _ hi]; exact h.init_orphan
  · -- the parent is `q`, or a slot that kept its state
    by_cases haq : a = q
    · rw [haq, hs] at ha
      obtain ⟨hrq, hl⟩ := hq.parent_live r ha
      rw [ho r hrq]; exact hl
    · rw [ho a haq] at ha
      by_cases hrq : r = q
      · rw [hrq, hs]; exact hq.children a haq (hrq ▸ ha)
      · rw [ho r hrq]; exact h.parent_live a r ha
  · by_cases haq : a = q
    · rw [haq, hs]
      intro e
      exact (hq.parent_live q e).1 rfl
    · rw [ho a haq]; exact h.parent_ne a
  · by_cases haq : a = q
    · rw [haq, hs] at h₁ h₂ ⊢; exact hq.has_parent (haq ▸ ha) h₁ h₂
    · rw [ho a haq] at h₁ h₂ ⊢; exact h.has_parent a ha h₁ h₂
  · by_cases haq : a = q
    · rw [haq, hs] at ha ⊢; exact hq.unused_orphan ha
    · rw [ho a haq] at ha ⊢; exact h.unused_orphan a ha
  · by_cases haq : a = q
    · rw [haq, hs] at ha ⊢; exact hq.user_of_dead ha
    · rw [ho a haq] at ha ⊢; exact h.user_of_dead a ha
  · by_cases haq : a = q
    · rw [haq, hs] at ha
      obtain ⟨hnq, hu⟩ := hq.fork_parent np pid ha
      rw [ho np hnq]; exact ⟨hu, haq ▸ hnq⟩
    · rw [ho a haq] at ha
      obtain ⟨hu, hne⟩ := h.fork_parent a np pid ha
      by_cases hnq : np = q
      · rw [hnq, hs]; exact ⟨hq.pending_parent a pid haq (hnq ▸ ha), hnq ▸ hne⟩
      · rw [ho np hnq]; exact ⟨hu, hne⟩
  · by_cases haq : a = q
    · rw [haq, hs] at ha
      obtain ⟨hnq, hu, hp⟩ := hq.fork_run np pid ha
      rw [ho np hnq, haq]; exact ⟨hu, hp⟩
    · rw [ho a haq] at ha
      obtain ⟨hu, hp⟩ := h.fork_run a np pid ha
      by_cases hnq : np = q
      · rw [hnq, hs]; exact hq.pending_run a pid haq (hnq ▸ ha)
      · rw [ho np hnq]; exact ⟨hu, hp⟩
  · by_cases haq : a = q <;> by_cases hbq : b = q
    · exact haq.trans hbq.symm
    · rw [haq, hs] at ha; rw [ho b hbq] at hb
      exact absurd hb (hq.child_unique b np hbq ha)
    · rw [ho a haq] at ha; rw [hbq, hs] at hb
      exact absurd ha (hq.child_unique a np haq hb)
    · rw [ho a haq] at ha; rw [ho b hbq] at hb
      exact h.child_unique a b np ha hb
  · by_cases hpq : p = q
    · subst hpq
      rw [hs] at hsl hch
      by_cases hcp : c = p
      · rw [hcp, hs] at hc
        exact absurd rfl (hq.parent_live p hc).1
      · rw [ho c hcp] at hc ⊢
        exact hq.sleep_self hsl hch c hcp hc
    · rw [ho p hpq] at hsl hch
      by_cases hcq : c = q
      · rw [hcq, hs] at hc ⊢
        exact hq.sleep_parent p hpq hsl hch hc
      · rw [ho c hcq] at hc ⊢
        exact h.no_lost_wakeup p hsl hch c hc

/-! ### What one step can do -/

section Steps

variable {σ σ' : Sys} {i : Slot}

theorem step_sched (h : σ.step (i, .sched) = some (.ok σ')) :
    (σ.proc i).state = .runnable ∧
      σ' = σ.set i { σ.proc i with state := .running, chan := none } := by
  simp only [Sys.step] at h
  split_ifs at h with hr
  cases h
  exact ⟨hr, rfl⟩

theorem step_yield (h : σ.step (i, .yield) = some (.ok σ')) :
    (σ.proc i).state = .running ∧ σ' = σ.set i { σ.proc i with state := .runnable } := by
  simp only [Sys.step] at h
  split_ifs at h with hr
  cases h
  exact ⟨hr, rfl⟩

theorem step_fork {np : Option Slot} {ok : Bool} (h : σ.step (i, .fork np ok) = some (.ok σ')) :
    (σ.proc i).state = .running ∧ (σ.proc i).pc = .user ∧ σ.fork i np ok = some (.ok σ') := by
  simp only [Sys.step] at h
  split_ifs at h with hr
  exact ⟨hr.1, hr.2, h⟩

theorem step_forkParent (h : σ.step (i, .forkParent) = some (.ok σ')) :
    ∃ np pid, (σ.proc i).state = .running ∧ (σ.proc i).pc = .forkParent np pid ∧
      σ' = σ.forkParent i np pid := by
  simp only [Sys.step] at h
  split at h
  · rename_i np pid hpc
    split_ifs at h with hr
    cases h
    exact ⟨np, pid, hr, hpc, rfl⟩
  · cases h

theorem step_forkRun (h : σ.step (i, .forkRun) = some (.ok σ')) :
    ∃ np pid, (σ.proc i).state = .running ∧ (σ.proc i).pc = .forkRun np pid ∧
      σ' = σ.forkRun i np pid := by
  simp only [Sys.step] at h
  split at h
  · rename_i np pid hpc
    split_ifs at h with hr
    cases h
    exact ⟨np, pid, hr, hpc, rfl⟩
  · cases h

theorem step_exit {status : ℤ} (h : σ.step (i, .exit status) = some (.ok σ')) :
    (σ.proc i).state = .running ∧ (σ.proc i).pc = .user ∧ σ.exit i status = .ok σ' := by
  simp only [Sys.step] at h
  split_ifs at h with hr
  exact ⟨hr.1, hr.2, Option.some.inj h⟩

theorem step_wait {ok : Bool} (h : σ.step (i, .wait ok) = some (.ok σ')) :
    (σ.proc i).state = .running ∧ ((σ.proc i).pc = .user ∨ (σ.proc i).pc = .waitScan) ∧
      σ' = σ.wait i ok := by
  simp only [Sys.step] at h
  split_ifs at h with hr
  cases h
  exact ⟨hr.1, hr.2, rfl⟩

theorem step_kill {pid : ℤ} (h : σ.step (i, .kill pid) = some (.ok σ')) :
    (σ.proc i).state = .running ∧ (σ.proc i).pc = .user ∧ σ' = σ.kill i pid := by
  simp only [Sys.step] at h
  split_ifs at h with hr
  cases h
  exact ⟨hr.1, hr.2, rfl⟩

theorem step_sleep {c : ℕ} (h : σ.step (i, .sleep c) = some (.ok σ')) :
    (σ.proc i).state = .running ∧
      σ' = σ.set i { σ.proc i with chan := some (.other c), state := .sleeping } := by
  simp only [Sys.step] at h
  split_ifs at h with hr
  cases h
  exact ⟨hr.1, rfl⟩

theorem step_wakeup {c : ℕ} {q : Slot} (h : σ.step (i, .wakeup c q) = some (.ok σ')) :
    σ' = σ.set q (wakeup σ.proc i (.other c) q) := by
  simp only [Sys.step] at h
  split_ifs at h
  cases h
  rfl

end Steps

/-! ### The invariant over each section -/

section Keep

variable {σ : Sys} {i : Slot}

/-- `allocpid`. -/
theorem calm_nextpid (σ : Sys) (n : Int32) : Calm σ { σ with nextpid := n } :=
  ⟨fun _ => rfl, fun _ => .inl rfl, fun _ => .inl rfl, fun _ hs hc => .inl ⟨hs, hc⟩⟩

/-- A slot changed only in fields the invariant does not read. -/
theorem calm_of_same {p' : Proc} (hs : p'.state = (σ.proc i).state)
    (hpar : p'.parent = (σ.proc i).parent) (hpc : p'.pc = (σ.proc i).pc)
    (hch : p'.chan = (σ.proc i).chan) : Calm σ (σ.set i p') :=
  calm_set hpar (.inl hs) (.inl hpc) fun hs' hc => .inl ⟨hs ▸ hs', hch ▸ hc⟩

/-- Only `trapframe->a0` changes. -/
theorem calm_ret (σ : Sys) (i : Slot) (r : ℤ) : Calm σ (σ.set i { σ.proc i with ret := r }) :=
  calm_of_same rfl rfl rfl rfl

/-- A calm change of a process's state and its return to user space. -/
theorem calm_return (hr : (σ.proc i).state = .running)
    (hpc : (σ.proc i).pc = .user ∨ (σ.proc i).pc = .waitScan) (r : ℤ) :
    Calm σ (σ.set i { σ.proc i with pc := .user, ret := r }) := by
  refine calm_set rfl (.inl rfl) (.inr ⟨?_, rfl, by rw [hr]; rfl⟩) fun hs _ => ?_
  · rcases hpc with e | e <;> rw [e] <;> rfl
  · rw [hr] at hs
    cases hs

theorem TableInv.sched (h : TableInv σ) (hr : (σ.proc i).state = .runnable) :
    TableInv (σ.set i { σ.proc i with state := .running, chan := none }) :=
  h.calm (calm_set rfl (.inr ⟨by rw [hr]; rfl, rfl⟩) (.inl rfl) fun hs _ => by cases hs)

theorem TableInv.yield (h : TableInv σ) (hr : (σ.proc i).state = .running) :
    TableInv (σ.set i { σ.proc i with state := .runnable }) :=
  h.calm (calm_set rfl (.inr ⟨by rw [hr]; rfl, rfl⟩) (.inl rfl) fun hs _ => by cases hs)

theorem TableInv.sleep (h : TableInv σ) (hr : (σ.proc i).state = .running) (c : ℕ) :
    TableInv (σ.set i { σ.proc i with chan := some (.other c), state := .sleeping }) :=
  h.calm (calm_set rfl (.inr ⟨by rw [hr]; rfl, rfl⟩) (.inl rfl) fun _ hc => by cases hc)

theorem TableInv.wakeOne (h : TableInv σ) (c : ℕ) (q : Slot) :
    TableInv (σ.set q (wakeup σ.proc i (.other c) q)) := by
  refine h.calm (calm_set wakeup_parent ?_ (.inl wakeup_pc) fun hs hc => ?_)
  · rcases wakeup_state (f := σ.proc) (s := i) (c := .other c) (q := q) with
      e | ⟨-, hs, -, e⟩
    · exact .inl e
    · exact .inr ⟨by rw [hs]; rfl, by rw [e]; rfl⟩
  · exact .inl ⟨(wakeup_sleeping hs).1, wakeup_chan ▸ hc⟩

theorem TableInv.kill (h : TableInv σ) (pid : ℤ) : TableInv (σ.kill i pid) := by
  unfold Sys.kill
  split
  · rename_i q _
    -- the victim is woken from a `sleep`, and the caller gets `0`
    have hq : Calm σ (σ.set q
        { σ.proc q with
          killed := true
          state := if (σ.proc q).state = .sleeping then .runnable else (σ.proc q).state }) := by
      refine calm_set rfl ?_ (.inl rfl) fun hs _ => ?_
      · split
        · rename_i hs
          exact .inr ⟨by rw [hs]; rfl, rfl⟩
        · exact .inl rfl
      · split at hs
        · cases hs
        · contradiction
    dsimp only
    exact h.calm (hq.trans (calm_ret _ i 0))
  · exact h.calm (calm_ret σ i (-1))

/-- A slot not live resumes in user space, so it is in no `fork`. -/
theorem TableInv.child_of_dead (h : TableInv σ) {q : Slot} (hq : (σ.proc q).state.live = false) :
    (σ.proc q).pc.child = none := by
  rw [h.user_of_dead q hq]; rfl

/-- Only a `USED` process is some process's child in a `fork`. -/
theorem TableInv.used_of_pending (h : TableInv σ) {j np : Slot} (hj : (σ.proc j).pc.child = some np) :
    (σ.proc np).state = .used := by
  cases hpc : (σ.proc j).pc with
  | forkParent n pid =>
    rw [hpc] at hj; cases hj
    exact (h.fork_parent j _ pid hpc).1
  | forkRun n pid =>
    rw [hpc] at hj; cases hj
    exact (h.fork_run j _ pid hpc).1
  | user => rw [hpc] at hj; cases hj
  | waitScan => rw [hpc] at hj; cases hj

/-- A process with a child is live. -/
theorem TableInv.live_of_child (h : TableInv σ) {c q : Slot} (hc : (σ.proc c).parent = some q) :
    (σ.proc q).state.live :=
  h.parent_live c q hc

/-- `allocproc` claims an `UNUSED` slot. -/
theorem TableInv.claim (h : TableInv σ) {q : Slot} (hu : (σ.proc q).state = .unused) (pid : ℤ) :
    TableInv (σ.set q { σ.proc q with pid := pid, state := .used, pc := .user, ret := 0 }) := by
  have hdead : (σ.proc q).state.live = false := by rw [hu]; rfl
  have hnotused : (σ.proc q).state ≠ .used := by rw [hu]; exact fun e => by cases e
  have horphan : (σ.proc q).parent = none := h.unused_orphan q hu
  refine h.set
    { init := fun hi => by rw [hi, h.init_live] at hdead; cases hdead
      parent_live := fun r hr => by
        change (σ.proc q).parent = some r at hr
        rw [horphan] at hr; cases hr
      children := fun c _ hc => by rw [h.live_of_child hc] at hdead; cases hdead
      has_parent := fun _ _ h₂ => absurd rfl h₂
      unused_orphan := fun e => by cases e
      user_of_dead := fun _ => rfl
      fork_parent := fun _ _ e => by cases e
      fork_run := fun _ _ e => by cases e
      pending_parent := fun _ _ _ _ => rfl
      pending_run := fun j pid _ hj => absurd (h.fork_run j q pid hj).1 hnotused
      child_unique := fun _ _ _ e => by cases e
      sleep_self := fun e => by cases e
      sleep_parent := fun _ _ _ _ e => by
        change (σ.proc q).parent = _ at e
        rw [horphan] at e; cases e }

/-- The caller of a section, `RUNNING` before and after, changes only where it resumes. -/
theorem TableInv.resume (h : TableInv σ) (hr : (σ.proc i).state = .running) {p : Proc}
    (hs : p.state = .running) (hpar : p.parent = (σ.proc i).parent)
    (hfp : ∀ np pid, p.pc = .forkParent np pid → np ≠ i ∧ (σ.proc np).state = .used)
    (hfr : ∀ np pid, p.pc = .forkRun np pid →
      np ≠ i ∧ (σ.proc np).state = .used ∧ (σ.proc np).parent = some i)
    (huniq : ∀ j np, j ≠ i → p.pc.child = some np → (σ.proc j).pc.child ≠ some np) :
    TableInv (σ.set i p) := by
  have hnotused : (σ.proc i).state ≠ .used := by rw [hr]; exact fun e => by cases e
  have hnotunused : (σ.proc i).state ≠ .unused := by rw [hr]; exact fun e => by cases e
  refine h.set
    { init := fun hi => ⟨by rw [hs]; rfl, hpar.trans (hi ▸ h.init_orphan)⟩
      parent_live := fun r hr' => by
        rw [hpar] at hr'
        exact ⟨fun e => h.parent_ne i (e ▸ hr'), h.parent_live i r hr'⟩
      children := fun _ _ _ => by rw [hs]; rfl
      has_parent := fun hi _ _ => hpar ▸ h.has_parent i hi hnotunused hnotused
      unused_orphan := fun e => by rw [hs] at e; cases e
      user_of_dead := fun e => by rw [hs] at e; cases e
      fork_parent := hfp
      fork_run := hfr
      pending_parent := fun j pid _ hj => absurd (h.fork_parent j i pid hj).1 hnotused
      pending_run := fun j pid _ hj => absurd (h.fork_run j i pid hj).1 hnotused
      child_unique := huniq
      sleep_self := fun e => by rw [hs] at e; cases e
      sleep_parent := fun _ _ _ _ _ e => by rw [hs] at e; cases e }

/-- `np->parent = p` for the `USED` child of a `fork` in progress. -/
theorem TableInv.adopt (h : TableInv σ) (hr : (σ.proc i).state = .running) {np : Slot}
    (hu : (σ.proc np).state = .used) (hne : np ≠ i) (hi : (σ.proc i).pc.child = some np) :
    TableInv (σ.set np { σ.proc np with parent := some i }) := by
  have hdead : (σ.proc np).state.live = false := by rw [hu]; rfl
  have hpc : (σ.proc np).pc = .user := h.user_of_dead np hdead
  refine h.set
    { init := fun hni => by rw [hni, h.init_live] at hdead; cases hdead
      parent_live := fun r hr' => by
        cases hr'
        exact ⟨Ne.symm hne, by rw [hr]; rfl⟩
      children := fun c _ hc => by rw [h.live_of_child hc] at hdead; cases hdead
      has_parent := fun _ _ h₂ => absurd hu h₂
      unused_orphan := fun e => by
        change (σ.proc np).state = _ at e
        rw [hu] at e; cases e
      user_of_dead := fun _ => hpc
      fork_parent := fun _ _ e => by
        change (σ.proc np).pc = _ at e
        rw [hpc] at e; cases e
      fork_run := fun _ _ e => by
        change (σ.proc np).pc = _ at e
        rw [hpc] at e; cases e
      pending_parent := fun _ _ _ _ => hu
      pending_run := fun j pid _ hj => by
        -- the `fork` of `np` is `i`'s alone
        have hj' : (σ.proc j).pc.child = some np := by rw [hj]; rfl
        exact ⟨hu, by rw [h.child_unique j i np hj' hi]⟩
      child_unique := fun _ _ _ e => by
        change (σ.proc np).pc.child = _ at e
        rw [hpc] at e; cases e
      sleep_self := fun e => by
        change (σ.proc np).state = _ at e
        rw [hu] at e; cases e
      sleep_parent := fun _ _ _ _ _ e => by
        change (σ.proc np).state = _ at e
        rw [hu] at e; cases e }

/-- `np->state = RUNNABLE` for a `USED` process with a parent, once no `fork` holds it. -/
theorem TableInv.release (h : TableInv σ) {np r : Slot} (hu : (σ.proc np).state = .used)
    (hp : (σ.proc np).parent = some r) (hfree : ∀ j, (σ.proc j).pc.child ≠ some np) :
    TableInv (σ.set np { σ.proc np with state := .runnable }) := by
  have hdead : (σ.proc np).state.live = false := by rw [hu]; rfl
  have hpc : (σ.proc np).pc = .user := h.user_of_dead np hdead
  refine h.set
    { init := fun hni => by rw [hni, h.init_live] at hdead; cases hdead
      parent_live := fun r' hr' => by
        change (σ.proc np).parent = _ at hr'
        exact ⟨fun e => h.parent_ne np (e ▸ hr'), h.parent_live np r' hr'⟩
      children := fun c _ hc => by rw [h.live_of_child hc] at hdead; cases hdead
      has_parent := fun _ _ _ => by
        change (σ.proc np).parent ≠ none
        rw [hp]; exact fun e => by cases e
      unused_orphan := fun e => by cases e
      user_of_dead := fun e => by cases e
      fork_parent := fun _ _ e => by
        change (σ.proc np).pc = _ at e
        rw [hpc] at e; cases e
      fork_run := fun _ _ e => by
        change (σ.proc np).pc = _ at e
        rw [hpc] at e; cases e
      pending_parent := fun j pid _ hj => absurd (by rw [hj]; rfl) (hfree j)
      pending_run := fun j pid _ hj => absurd (by rw [hj]; rfl) (hfree j)
      child_unique := fun _ _ _ e => by
        change (σ.proc np).pc.child = _ at e
        rw [hpc] at e; cases e
      sleep_self := fun e => by cases e
      sleep_parent := fun _ _ _ _ _ e => by cases e }

/-- `freeproc` of a `ZOMBIE`. -/
theorem TableInv.free (h : TableInv σ) {q : Slot} (hz : (σ.proc q).state = .zombie) :
    TableInv (σ.set q (σ.proc q).free) := by
  have hdead : (σ.proc q).state.live = false := by rw [hz]; rfl
  have hpc : (σ.proc q).pc = .user := h.user_of_dead q hdead
  have hnotused : (σ.proc q).state ≠ .used := by rw [hz]; exact fun e => by cases e
  refine h.set
    { init := fun hi => by rw [hi, h.init_live] at hdead; cases hdead
      parent_live := fun _ e => by cases e
      children := fun c _ hc => by rw [h.live_of_child hc] at hdead; cases hdead
      has_parent := fun _ h₁ _ => absurd rfl h₁
      unused_orphan := fun _ => rfl
      user_of_dead := fun _ => hpc
      fork_parent := fun _ _ e => by
        change (σ.proc q).pc = _ at e
        rw [hpc] at e; cases e
      fork_run := fun _ _ e => by
        change (σ.proc q).pc = _ at e
        rw [hpc] at e; cases e
      pending_parent := fun j pid _ hj => absurd (h.fork_parent j q pid hj).1 hnotused
      pending_run := fun j pid _ hj => absurd (h.fork_run j q pid hj).1 hnotused
      child_unique := fun _ _ _ e => by
        change (σ.proc q).pc.child = _ at e
        rw [hpc] at e; cases e
      sleep_self := fun e => by cases e
      sleep_parent := fun _ _ _ _ e => by cases e }

/-! The sections of `fork`. -/

theorem TableInv.fork (h : TableInv σ) (hr : (σ.proc i).state = .running) {np : Option Slot}
    {ok : Bool} {σ' : Sys} (hf : σ.fork i np ok = some (.ok σ')) : TableInv σ' := by
  unfold Sys.fork at hf
  rcases np with _ | n
  · cases hf
    exact h.calm (calm_ret σ i (-1))
  dsimp only at hf
  split_ifs at hf with hg hok
  all_goals cases hf
  · -- `allocproc` claims `n`; the caller goes on to `np->parent = p`
    have h₁ := (h.nextpid (σ.nextpid + 1)).claim hg.1 σ.nextpid.toInt
    refine h₁.resume (by rw [Sys.set_apply_of_ne _ (Ne.symm hg.2)]; exact hr) hr
      (by rw [Sys.set_apply_of_ne _ (Ne.symm hg.2)]) (fun np pid e => ?_)
      (fun _ _ e => by cases e) (fun j np hj e => ?_)
    · cases e
      refine ⟨hg.2, ?_⟩
      rw [Sys.set_apply, if_pos rfl]
    · cases e
      rw [Sys.set_apply]
      split
      · exact fun e => by cases e
      · exact fun e => absurd (h.used_of_pending e) (by rw [hg.1]; exact fun e => by cases e)
  · -- `freeproc` of the slot, and `fork` returns `-1`
    have h₁ : Calm ({ σ with nextpid := σ.nextpid + 1 } : Sys)
        (({ σ with nextpid := σ.nextpid + 1 } : Sys).set n (σ.proc n).free) := by
      refine calm_set ?_ (.inl ?_) (.inl rfl) fun e => ?_
      · exact (h.unused_orphan n hg.1).symm
      · exact hg.1.symm
      · cases e
    have hi := Sys.set_apply_of_ne ({ σ with nextpid := σ.nextpid + 1 } : Sys) (Ne.symm hg.2)
      (σ.proc n).free
    exact h.calm ((calm_nextpid σ _).trans
      (h₁.trans (calm_of_same (by rw [hi]) (by rw [hi]) (by rw [hi]) (by rw [hi]))))

theorem TableInv.forkParent (h : TableInv σ) (hr : (σ.proc i).state = .running) {np : Slot}
    {pid : ℤ} (hpc : (σ.proc i).pc = .forkParent np pid) : TableInv (σ.forkParent i np pid) := by
  obtain ⟨hu, hne⟩ := h.fork_parent i np pid hpc
  have hchild : (σ.proc i).pc.child = some np := by rw [hpc]; rfl
  have hdead : (σ.proc np).state.live = false := by rw [hu]; rfl
  have hi := Sys.set_apply_of_ne σ (Ne.symm hne) { σ.proc np with parent := some i }
  have hn : (σ.set np { σ.proc np with parent := some i }).proc np =
      { σ.proc np with parent := some i } := by rw [Sys.set_apply, if_pos rfl]
  unfold Sys.forkParent
  dsimp only
  -- `np->parent = p` first, then the caller moves on to `np->state = RUNNABLE`
  refine (h.adopt hr hu hne hchild).resume (by rw [hi]; exact hr) (by rw [hi]; exact hr) rfl
    (fun _ _ e => by cases e) (fun n pid' e => ?_) (fun j n hj e => ?_)
  · cases e
    exact ⟨hne, by rw [hn]; exact hu, by rw [hn]⟩
  · cases e
    rw [Sys.set_apply]
    split
    · show (σ.proc np).pc.child ≠ some np
      rw [h.child_of_dead hdead]
      exact fun e => by cases e
    · exact fun e => hj (h.child_unique j i np e hchild)

theorem TableInv.forkRun (h : TableInv σ) (hr : (σ.proc i).state = .running) {np : Slot}
    {pid : ℤ} (hpc : (σ.proc i).pc = .forkRun np pid) : TableInv (σ.forkRun i np pid) := by
  obtain ⟨hu, hp⟩ := h.fork_run i np pid hpc
  have hne : np ≠ i := fun e => h.parent_ne np (e ▸ hp)
  have hchild : (σ.proc i).pc.child = some np := by rw [hpc]; rfl
  unfold Sys.forkRun
  dsimp only
  -- the caller returns first, and then the child is released
  rw [Sys.set_apply_of_ne σ (Ne.symm hne), Sys.set_comm σ hne]
  have h₁ := h.resume (p := { σ.proc i with pc := .user, ret := pid }) hr hr rfl
    (fun _ _ e => by cases e) (fun _ _ e => by cases e) (fun _ _ _ e => by cases e)
  have hn := Sys.set_apply_of_ne σ hne { σ.proc i with pc := .user, ret := pid }
  rw [← hn]
  refine h₁.release (by rw [hn]; exact hu) (by rw [hn]; exact hp) fun j => ?_
  rw [Sys.set_apply]
  split
  · exact fun e => by cases e
  · rename_i hj
    exact fun e => hj (h.child_unique j i np e hchild)

theorem TableInv.wait (h : TableInv σ) (hr : (σ.proc i).state = .running)
    (hpc : (σ.proc i).pc = .user ∨ (σ.proc i).pc = .waitScan) (ok : Bool) :
    TableInv (σ.wait i ok) := by
  unfold Sys.wait
  split
  · rename_i pp hpp
    obtain ⟨-, hz⟩ := zombieChild_some hpp
    split
    · -- `freeproc` of the `ZOMBIE` child, and `wait` returns its pid
      have hne : i ≠ pp := fun e => by rw [e, hz] at hr; cases hr
      exact (h.free hz).calm (calm_return (by rw [Sys.set_apply_of_ne _ hne]; exact hr)
        (by rw [Sys.set_apply_of_ne _ hne]; exact hpc) _)
    · exact h.calm (calm_return hr hpc _)
  · rename_i hnone
    dsimp only
    split
    · exact h.calm (calm_return hr hpc _)
    · -- `sleep(p, &wait_lock)` with no `ZOMBIE` child
      refine h.calm (calm_set rfl (.inr ⟨by rw [hr]; rfl, rfl⟩) (.inr ⟨?_, rfl, rfl⟩)
        fun _ _ => .inr (zombieChild_none hnone))
      rcases hpc with e | e <;> rw [e] <;> rfl

/-! `exit`. -/

/-- What `reparent(p)` and `wakeup(p->parent)` do to a process other than `p`: its parent
moves to `initproc` if it was `p`; it moves only from `SLEEPING` to `RUNNABLE`; and one left
asleep is not on the parent's address, nor on `initproc`'s if `p` had children. -/
theorem exit_other {f : Slot → Proc} {p r q : Slot} (hq : q ≠ p) :
    (wakeup (reparent f p) p (.proc r) q).parent =
        (if (f q).parent = some p then some initproc else (f q).parent) ∧
      (wakeup (reparent f p) p (.proc r) q).pc = (f q).pc ∧
      (wakeup (reparent f p) p (.proc r) q).chan = (f q).chan ∧
      ((wakeup (reparent f p) p (.proc r) q).state = (f q).state ∨
        ((f q).state = .sleeping ∧ (wakeup (reparent f p) p (.proc r) q).state = .runnable)) ∧
      ((wakeup (reparent f p) p (.proc r) q).state = .sleeping →
        (f q).chan ≠ some (.proc r) ∧
          ((f q).chan = some (.proc initproc) → ∀ c, (f c).parent ≠ some p)) := by
  refine ⟨by rw [wakeup_parent, reparent_parent], by rw [wakeup_pc, reparent_pc],
    by rw [wakeup_chan, reparent_chan], ?_, fun hs => ?_⟩
  · rcases wakeup_state (f := reparent f p) (s := p) (c := .proc r) (q := q) with
      e | ⟨-, hs, -, e⟩
    · rcases reparent_state (f := f) (p := p) (q := q) with e' | ⟨hs', e'⟩
      · exact .inl (e.trans e')
      · exact .inr ⟨hs', e.trans e'⟩
    · rcases reparent_state (f := f) (p := p) (q := q) with e' | ⟨hs', -⟩
      · exact .inr ⟨e'.symm.trans hs, e⟩
      · exact .inr ⟨hs', e⟩
  · obtain ⟨hs₁, hch⟩ := wakeup_sleeping hs
    obtain ⟨-, hinit⟩ := reparent_sleeping hs₁
    refine ⟨fun e => hq (hch (by rw [reparent_chan]; exact e)), fun e => hinit e hq⟩

/-- The table `exit(status)` of `i` leaves, with `r` the parent it wakes: `reparent`, then
`wakeup(p->parent)`, then `i` a `ZOMBIE`. -/
def exitProcs (ps : Slot → Proc) (i r : Slot) (status : ℤ) : Slot → Proc :=
  Function.update (wakeup (reparent ps i) i (.proc r)) i
    { wakeup (reparent ps i) i (.proc r) i with xstate := status, state := .zombie }

/-- `exit` of a process other than `initproc` whose parent `r` is not itself. -/
theorem Sys.exit_ok {r : Slot} (status : ℤ) (hinit : i ≠ initproc)
    (hir : (σ.proc i).parent = some r) (hself : (σ.proc i).parent ≠ some i) :
    σ.exit i status = .ok { σ with proc := exitProcs σ.proc i r status } := by
  have hp₁ : (reparent σ.proc i i).parent = some r := by
    rw [reparent_parent, if_neg hself, hir]
  simp only [Sys.exit, if_neg hinit, hp₁]
  rfl

section ExitProcs

variable (ps : Slot → Proc) (i r : Slot) (status : ℤ)

theorem exitProcs_of_ne {q : Slot} (hq : q ≠ i) :
    exitProcs ps i r status q = wakeup (reparent ps i) i (.proc r) q :=
  Function.update_of_ne hq _ _

theorem exitProcs_self_state : (exitProcs ps i r status i).state = .zombie := by
  rw [exitProcs, Function.update_self]

/-- A child of `i` now has `initproc` as its parent; every other parent is kept. -/
theorem exitProcs_parent (q : Slot) :
    (exitProcs ps i r status q).parent =
      if (ps q).parent = some i then some initproc else (ps q).parent := by
  by_cases hq : q = i
  · subst hq
    rw [exitProcs, Function.update_self]
    show (wakeup (reparent ps q) q (.proc r) q).parent = _
    rw [wakeup_parent, reparent_parent]
  · rw [exitProcs_of_ne ps i r status hq]
    exact (exit_other hq).1

theorem exitProcs_pc (q : Slot) : (exitProcs ps i r status q).pc = (ps q).pc := by
  by_cases hq : q = i
  · subst hq
    rw [exitProcs, Function.update_self]
    show (wakeup (reparent ps q) q (.proc r) q).pc = _
    rw [wakeup_pc, reparent_pc]
  · rw [exitProcs_of_ne ps i r status hq]
    exact (exit_other hq).2.1

/-- A slot other than `i` moves only from `SLEEPING` to `RUNNABLE`. -/
theorem exitProcs_state {q : Slot} (hq : q ≠ i) :
    (exitProcs ps i r status q).state = (ps q).state ∨
      ((ps q).state = .sleeping ∧ (exitProcs ps i r status q).state = .runnable) := by
  rw [exitProcs_of_ne ps i r status hq]
  exact (exit_other hq).2.2.2.1

end ExitProcs

theorem TableInv.exit (h : TableInv σ) (hr : (σ.proc i).state = .running)
    (hpc : (σ.proc i).pc = .user) {status : ℤ} {σ' : Sys} (he : σ.exit i status = .ok σ') :
    TableInv σ' := by
  have hinit : i ≠ initproc := fun e => by
    rw [Sys.exit, if_pos e] at he
    cases he
  obtain ⟨r, hir⟩ : ∃ r, (σ.proc i).parent = some r :=
    Option.ne_none_iff_exists'.mp (h.has_parent i hinit (by rw [hr]; exact fun e => by cases e)
      (by rw [hr]; exact fun e => by cases e))
  rw [Sys.exit_ok status hinit hir (h.parent_ne i)] at he
  cases he
  -- slot `i` becomes a `ZOMBIE`; every other slot is as `exitProcs_state` says
  have hpar := exitProcs_parent σ.proc i r status
  have hpcq := exitProcs_pc σ.proc i r status
  have hstate := fun q (hq : q ≠ i) => exitProcs_state σ.proc i r status hq
  -- a state that is not live is kept, and a live one stays live
  have hdead : ∀ q, q ≠ i →
      ((σ.proc q).state.live = false ∨ (exitProcs σ.proc i r status q).state.live = false) →
      (exitProcs σ.proc i r status q).state = (σ.proc q).state := fun q hq hl => by
    rcases hstate q hq with e | ⟨hs', e⟩
    · exact e
    · rcases hl with hl | hl
      · rw [hs'] at hl; cases hl
      · rw [e] at hl; cases hl
  have hlive : ∀ q, q ≠ i → (σ.proc q).state.live →
      (exitProcs σ.proc i r status q).state.live :=
    fun q hq hl => by
      rcases hstate q hq with e | ⟨-, e⟩
      · rw [e]; exact hl
      · rw [e]; rfl
  have hinit_live := hlive initproc (Ne.symm hinit) h.init_live
  have hzombie := exitProcs_self_state σ.proc i r status
  refine ⟨hinit_live, ?_, fun q r' hq => ?_, fun q => ?_, fun q hq h₁ h₂ => ?_, fun q hu => ?_,
    fun q hq => ?_, fun j np pid hj => ?_, fun j np pid hj => ?_, fun a b np ha hb => ?_,
    fun p hsl hch c hc => ?_⟩
  · show (exitProcs σ.proc i r status initproc).parent = none
    rw [hpar, h.init_orphan, if_neg (fun e => by cases e)]
  · -- a child of `i` now has `initproc` as its parent
    change (exitProcs σ.proc i r status q).parent = some r' at hq
    change (exitProcs σ.proc i r status r').state.live
    rw [hpar] at hq
    split at hq
    · cases hq
      exact hinit_live
    · rename_i hqi
      have hr'i : r' ≠ i := fun e => hqi (e ▸ hq)
      exact hlive r' hr'i (h.parent_live q r' hq)
  · change (exitProcs σ.proc i r status q).parent ≠ some q
    rw [hpar]
    split
    · rename_i hqi
      intro e
      cases e
      rw [h.init_orphan] at hqi
      cases hqi
    · exact h.parent_ne q
  · change (exitProcs σ.proc i r status q).parent ≠ none
    rw [hpar]
    split
    · exact fun e => by cases e
    · by_cases hqi : q = i
      · rw [hqi, hir]; exact fun e => by cases e
      · -- a process that was `SLEEPING` is neither `UNUSED` nor `USED`
        have hne : (σ.proc q).state ≠ .unused ∧ (σ.proc q).state ≠ .used := by
          rcases hstate q hqi with e | ⟨hs', -⟩
          · exact ⟨e ▸ h₁, e ▸ h₂⟩
          · rw [hs']; exact ⟨(fun e => by cases e), fun e => by cases e⟩
        exact h.has_parent q hq hne.1 hne.2
  · change (exitProcs σ.proc i r status q).parent = none
    change (exitProcs σ.proc i r status q).state = .unused at hu
    have hqi : q ≠ i := fun e => by rw [e, hzombie] at hu; cases hu
    have hu' : (σ.proc q).state = .unused := by
      rw [← hdead q hqi (.inr (by rw [hu]; rfl)), hu]
    rw [hpar, h.unused_orphan q hu', if_neg (fun e => by cases e)]
  · change (exitProcs σ.proc i r status q).pc = .user
    change (exitProcs σ.proc i r status q).state.live = false at hq
    rw [hpcq]
    by_cases hqi : q = i
    · rw [hqi]; exact hpc
    · exact h.user_of_dead q (by rw [← hdead q hqi (.inr hq)]; exact hq)
  · change (exitProcs σ.proc i r status j).pc = _ at hj
    change (exitProcs σ.proc i r status np).state = .used ∧ np ≠ j
    rw [hpcq] at hj
    obtain ⟨hu, hne⟩ := h.fork_parent j np pid hj
    have hni : np ≠ i := fun e => by rw [e, hr] at hu; cases hu
    exact ⟨by rw [hdead np hni (.inl (by rw [hu]; rfl)), hu], hne⟩
  · change (exitProcs σ.proc i r status j).pc = _ at hj
    change (exitProcs σ.proc i r status np).state = .used ∧ (exitProcs σ.proc i r status np).parent = some j
    rw [hpcq] at hj
    obtain ⟨hu, hp⟩ := h.fork_run j np pid hj
    have hni : np ≠ i := fun e => by rw [e, hr] at hu; cases hu
    have hji : j ≠ i := fun e => by rw [e, hpc] at hj; cases hj
    refine ⟨by rw [hdead np hni (.inl (by rw [hu]; rfl)), hu], ?_⟩
    rw [hpar, if_neg (fun e => hji (Option.some.inj (hp.symm.trans e))), hp]
  · change (exitProcs σ.proc i r status a).pc.child = _ at ha
    change (exitProcs σ.proc i r status b).pc.child = _ at hb
    rw [hpcq] at ha hb
    exact h.child_unique a b np ha hb
  · change (exitProcs σ.proc i r status p).state = .sleeping at hsl
    change (exitProcs σ.proc i r status p).chan = _ at hch
    change (exitProcs σ.proc i r status c).parent = some p at hc
    change (exitProcs σ.proc i r status c).state ≠ .zombie
    have hpi : p ≠ i := fun e => by rw [e, hzombie] at hsl; cases hsl
    rw [exitProcs_of_ne σ.proc i r status hpi] at hsl hch
    obtain ⟨-, -, hch', -, hwoken⟩ := exit_other (f := σ.proc) (r := r) hpi
    rw [hch'] at hch
    obtain ⟨hnr, hinit'⟩ := hwoken hsl
    rw [hpar] at hc
    split at hc
    · -- a child `i` gave to `initproc`, which was woken
      rename_i hci
      cases hc
      exact absurd hci (hinit' hch c)
    · have hci : c ≠ i := fun e => by
        rw [e, hir] at hc
        cases hc
        exact hnr hch
      have hsp : (σ.proc p).state = .sleeping := by
        rcases (exit_other (f := σ.proc) (r := r) hpi).2.2.2.1 with e | ⟨hs', -⟩
        · rw [← e]; exact hsl
        · exact hs'
      intro hz
      exact h.no_lost_wakeup p hsp hch c hc (by rw [← hdead c hci (.inr (by rw [hz]; rfl)), hz])

end Keep

/-! ### Runs -/

section Runs

variable {σ σ' : Sys} {i : Slot}

/-- **The step lemma.** Every section keeps the invariant. -/
theorem TableInv.step (h : TableInv σ) {a : Act} (hs : σ.step (i, a) = some (.ok σ')) :
    TableInv σ' := by
  cases a with
  | sched =>
    obtain ⟨hr, rfl⟩ := step_sched hs
    exact h.sched hr
  | yield =>
    obtain ⟨hr, rfl⟩ := step_yield hs
    exact h.yield hr
  | fork np ok =>
    obtain ⟨hr, -, hf⟩ := step_fork hs
    exact h.fork hr hf
  | forkParent =>
    obtain ⟨np, pid, hr, hpc, rfl⟩ := step_forkParent hs
    exact h.forkParent hr hpc
  | forkRun =>
    obtain ⟨np, pid, hr, hpc, rfl⟩ := step_forkRun hs
    exact h.forkRun hr hpc
  | exit status =>
    obtain ⟨hr, hpc, he⟩ := step_exit hs
    exact h.exit hr hpc he
  | wait ok =>
    obtain ⟨hr, hpc, rfl⟩ := step_wait hs
    exact h.wait hr hpc ok
  | kill pid =>
    obtain ⟨-, -, rfl⟩ := step_kill hs
    exact h.kill pid
  | sleep c =>
    obtain ⟨hr, rfl⟩ := step_sleep hs
    exact h.sleep hr c
  | wakeup c q =>
    obtain rfl := step_wakeup hs
    exact h.wakeOne c q

/-- Changing a slot keeps a `ZOMBIE` of another slot, and of this one if the change does. -/
theorem zombie_set {c q : Slot} {p' : Proc} (hz : (σ.proc c).state = .zombie)
    (hq : c = q → p'.state = .zombie) : ((σ.set q p').proc c).state = .zombie := by
  rw [Sys.set_apply]
  split
  · exact hq ‹_›
  · exact hz

/-- A step keeps every `ZOMBIE` a `ZOMBIE`, except the child that a `wait` frees. -/
theorem TableInv.step_zombie (h : TableInv σ) {a : Act} (hs : σ.step (i, a) = some (.ok σ'))
    {c : Slot} (hz : (σ.proc c).state = .zombie) :
    (σ'.proc c).state = .zombie ∨ (a = .wait true ∧ zombieChild σ.proc i = some c ∧
      σ' = σ.wait i true) := by
  -- the `ZOMBIE` is none of the slots a section changes in another state
  have hne : ∀ q, (σ.proc q).state ≠ .zombie → ∀ p' : Proc, c = q → p'.state = .zombie :=
    fun q hq _ e => absurd (e ▸ hz) hq
  have hrun : ∀ q, (σ.proc q).state = .running → (σ.proc q).state ≠ .zombie := fun q e e' =>
    by rw [e] at e'; cases e'
  cases a with
  | sched =>
    obtain ⟨hr, rfl⟩ := step_sched hs
    exact .inl (zombie_set hz (hne i (by rw [hr]; exact fun e => by cases e) _))
  | yield =>
    obtain ⟨hr, rfl⟩ := step_yield hs
    exact .inl (zombie_set hz (hne i (hrun i hr) _))
  | fork np ok =>
    obtain ⟨hr, -, hf⟩ := step_fork hs
    left
    unfold Sys.fork at hf
    rcases np with _ | n
    · cases hf
      exact zombie_set hz (hne i (hrun i hr) _)
    dsimp only at hf
    split_ifs at hf with hg
    all_goals cases hf
    all_goals
      refine zombie_set (zombie_set (σ := { σ with nextpid := σ.nextpid + 1 }) hz
        (hne n (by rw [hg.1]; exact fun e => by cases e) _)) ?_
      exact hne i (hrun i hr) _
  | forkParent =>
    obtain ⟨np, pid, hr, hpc, rfl⟩ := step_forkParent hs
    exact .inl (zombie_set (zombie_set hz fun e => e ▸ hz) fun e => e ▸ zombie_set hz fun e => e ▸ hz)
  | forkRun =>
    obtain ⟨np, pid, hr, hpc, rfl⟩ := step_forkRun hs
    have hu := (h.fork_run i np pid hpc).1
    refine .inl (zombie_set (zombie_set hz (hne np (by rw [hu]; exact fun e => by cases e) _)) ?_)
    exact fun e => e ▸ zombie_set hz (hne np (by rw [hu]; exact fun e => by cases e) _)
  | exit status =>
    obtain ⟨hr, hpc, he⟩ := step_exit hs
    left
    unfold Sys.exit at he
    split_ifs at he
    cases he
    have hci : c ≠ i := fun e => hrun i hr (e ▸ hz)
    dsimp only
    rw [Function.update_of_ne hci]
    rcases hp : (reparent σ.proc i i).parent with _ | r
    · simp only
      rcases reparent_state (f := σ.proc) (p := i) (q := c) with e | ⟨hs', -⟩
      · rw [e]; exact hz
      · rw [hz] at hs'; cases hs'
    · simp only
      rcases (exit_other (f := σ.proc) (r := r) hci).2.2.2.1 with e | ⟨hs', -⟩
      · rw [e]; exact hz
      · rw [hz] at hs'; cases hs'
  | wait ok =>
    obtain ⟨hr, -, rfl⟩ := step_wait hs
    unfold Sys.wait
    split
    · rename_i pp hpp
      cases ok
      · exact .inl (zombie_set hz (hne i (hrun i hr) _))
      · by_cases hcp : c = pp
        · subst hcp
          exact .inr ⟨rfl, hpp, by simp only [if_true]⟩
        · left
          refine zombie_set (zombie_set hz fun e => absurd e hcp) ?_
          exact hne i (hrun i hr) _
    · dsimp only
      split
      · exact .inl (zombie_set hz (hne i (hrun i hr) _))
      · exact .inl (zombie_set hz (hne i (hrun i hr) _))
  | kill pid =>
    obtain ⟨hr, -, rfl⟩ := step_kill hs
    left
    unfold Sys.kill
    split
    · rename_i q _
      dsimp only
      -- the victim's state is kept unless it was `SLEEPING`
      have hq : c = q → ({ σ.proc q with
          killed := true
          state := if (σ.proc q).state = .sleeping then .runnable else (σ.proc q).state } :
            Proc).state = .zombie := fun e => by
        subst e
        show (if _ then _ else _) = _
        rw [if_neg (by rw [hz]; exact fun e => by cases e), hz]
      exact zombie_set (zombie_set hz hq) fun e => e ▸ zombie_set hz hq
    · exact zombie_set hz (hne i (hrun i hr) _)
  | sleep c' =>
    obtain ⟨hr, rfl⟩ := step_sleep hs
    exact .inl (zombie_set hz (hne i (hrun i hr) _))
  | wakeup c' q =>
    obtain rfl := step_wakeup hs
    refine .inl (zombie_set hz fun e => ?_)
    subst e
    rcases wakeup_state (f := σ.proc) (s := i) (c := .other c') (q := c) with e' | ⟨-, hs', -⟩
    · rw [e', hz]
    · rw [hz] at hs'; cases hs'

/-- **The run lemma.** -/
theorem tableInv_of_reachable (hσ : Interleave.Reachable Sys.step boot σ) : TableInv σ :=
  hσ.induction tableInv_boot fun _ _ _ h hst => h.step hst

/-- A `ZOMBIE` that a step frees was the first `ZOMBIE` child of the caller's `wait`: the
step frees it, returns its pid, and keeps every other `ZOMBIE`. -/
theorem TableInv.leave_zombie (h : TableInv σ) {a : Act} (hs : σ.step (i, a) = some (.ok σ'))
    {c : Slot} (hz : (σ.proc c).state = .zombie) (hz' : (σ'.proc c).state ≠ .zombie) :
    (σ.proc c).parent = some i ∧ (∃ ok, a = .wait ok) ∧ (σ'.proc c).state = .unused ∧
      (σ'.proc i).ret = (σ.proc c).pid ∧
      ∀ c', c' ≠ c → (σ.proc c').state = .zombie → (σ'.proc c').state = .zombie := by
  rcases h.step_zombie hs hz with e | ⟨rfl, hc, rfl⟩
  · exact absurd e hz'
  obtain ⟨hpar, -⟩ := zombieChild_some hc
  have hic : i ≠ c := fun e => by
    obtain ⟨hr, -⟩ := step_wait hs
    rw [e, hz] at hr; cases hr
  obtain ⟨hfree, hret, -⟩ := Sys.wait_reaps hic hc
  refine ⟨hpar, ⟨true, rfl⟩, by rw [hfree]; rfl, hret, fun c' hc' hz₁ => ?_⟩
  rcases h.step_zombie hs hz₁ with e | ⟨-, hc₁, -⟩
  · exact e
  · exact absurd (Option.some.inj (hc₁.symm.trans hc)) hc'

/-- **Process-table safety.** In every state of any interleaving of `fork`, `exit`, `wait`,
`kill`, `sleep`, `wakeup` and the scheduler from `userinit`'s table: every process but
`initproc` that is `RUNNABLE`, `RUNNING`, `SLEEPING` or `ZOMBIE` has a parent that is not
`UNUSED`; a step takes a process out of `ZOMBIE` only as its parent's `wait`, which frees
it, returns its pid and frees no other; a `wait` that finds a `ZOMBIE` child frees that child
with `freeproc`, returns its pid, changes no other slot but its own, and leaves the child no
`ZOMBIE` child of any process, so that no `wait` returns it again; and no process sleeps on
its own address while a child of it is a `ZOMBIE`. -/
theorem process_table_safety {σ : Sys} (hσ : Interleave.Reachable Sys.step boot σ) :
    (∀ q, q ≠ initproc →
        (σ.proc q).state ∈ [.runnable, .running, .sleeping, .zombie] →
        ∃ r, (σ.proc q).parent = some r ∧ (σ.proc r).state ≠ .unused) ∧
      (∀ i a σ' c, σ.step (i, a) = some (.ok σ') → (σ.proc c).state = .zombie →
        (σ'.proc c).state ≠ .zombie →
        (σ.proc c).parent = some i ∧ (∃ ok, a = .wait ok) ∧ (σ'.proc c).state = .unused ∧
          (σ'.proc i).ret = (σ.proc c).pid ∧
          ∀ c', c' ≠ c → (σ.proc c').state = .zombie → (σ'.proc c').state = .zombie) ∧
      (∀ i σ' c, σ.step (i, .wait true) = some (.ok σ') → zombieChild σ.proc i = some c →
        σ'.proc c = (σ.proc c).free ∧ (σ'.proc i).ret = (σ.proc c).pid ∧
          (∀ q, q ≠ i → q ≠ c → σ'.proc q = σ.proc q) ∧ ∀ j, zombieChild σ'.proc j ≠ some c) ∧
      (∀ p, (σ.proc p).state = .sleeping → (σ.proc p).chan = some (.proc p) →
        ∀ c, (σ.proc c).parent = some p → (σ.proc c).state ≠ .zombie) := by
  have h := tableInv_of_reachable hσ
  refine ⟨fun q hq hs => ?_, fun i a σ' c hs hz hz' => h.leave_zombie hs hz hz',
    fun i σ' c hs hc => ?_, h.no_lost_wakeup⟩
  · -- a process past `fork` is neither `UNUSED` nor `USED`
    have hne : (σ.proc q).state ≠ .unused ∧ (σ.proc q).state ≠ .used := by
      simp only [List.mem_cons, List.not_mem_nil, or_false] at hs
      rcases hs with e | e | e | e <;> rw [e] <;> exact ⟨by decide, by decide⟩
    obtain ⟨r, hr⟩ := Option.ne_none_iff_exists'.mp (h.has_parent q hq hne.1 hne.2)
    refine ⟨r, hr, fun e => ?_⟩
    have hl := h.parent_live q r hr
    rw [e] at hl
    cases hl
  · -- the caller is `RUNNING`, so it is not the `ZOMBIE` it reaps
    obtain ⟨hr, -, rfl⟩ := step_wait hs
    have hic : i ≠ c := fun e => by
      rw [e, (zombieChild_some hc).2] at hr
      cases hr
    exact Sys.wait_reaps hic hc

/-- `initproc` forks a child, which exits: the state in which `initproc`'s `wait` would reap
it. -/
def reapOps : List (Slot × Act) :=
  [(initproc, .sched), (initproc, .fork (some ⟨1, one_lt_nproc⟩) true), (initproc, .forkParent),
    (initproc, .forkRun), (⟨1, one_lt_nproc⟩, .sched), (⟨1, one_lt_nproc⟩, .exit 0)]

/-- The state `reapOps` ends in. -/
def reapRun : Sys := Interleave.runState Sys.step boot reapOps

theorem process_table_safety_reapRun :
    Interleave.Reachable Sys.step boot reapRun ∧
      (∀ q, q ≠ initproc →
        (reapRun.proc q).state ∈ [.runnable, .running, .sleeping, .zombie] →
        ∃ r, (reapRun.proc q).parent = some r ∧ (reapRun.proc r).state ≠ .unused) ∧
      (∀ i a σ' c, reapRun.step (i, a) = some (.ok σ') → (reapRun.proc c).state = .zombie →
        (σ'.proc c).state ≠ .zombie →
        (reapRun.proc c).parent = some i ∧ (∃ ok, a = .wait ok) ∧ (σ'.proc c).state = .unused ∧
          (σ'.proc i).ret = (reapRun.proc c).pid ∧
          ∀ c', c' ≠ c → (reapRun.proc c').state = .zombie → (σ'.proc c').state = .zombie) ∧
      (∀ i σ' c, reapRun.step (i, .wait true) = some (.ok σ') →
        zombieChild reapRun.proc i = some c →
        σ'.proc c = (reapRun.proc c).free ∧ (σ'.proc i).ret = (reapRun.proc c).pid ∧
          (∀ q, q ≠ i → q ≠ c → σ'.proc q = reapRun.proc q) ∧
          ∀ j, zombieChild σ'.proc j ≠ some c) ∧
      (∀ p, (reapRun.proc p).state = .sleeping → (reapRun.proc p).chan = some (.proc p) →
        ∀ c, (reapRun.proc c).parent = some p → (reapRun.proc c).state ≠ .zombie) :=
  have hσ := Interleave.reachable_runState reapOps (by decide +kernel)
  ⟨hσ, process_table_safety hσ⟩

example : zombieChild reapRun.proc initproc = some ⟨1, by decide⟩ ∧
    (reapRun.proc ⟨1, by decide⟩).pid = 2 := by
  decide +kernel

end Runs

end Xv6Lab.Procs
