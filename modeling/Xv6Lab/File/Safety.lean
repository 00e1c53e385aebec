import Mathlib.Data.Fintype.Prod
import Mathlib.Data.Fintype.BigOperators
import Xv6Lab.File.Refs

/-!
# Open-file reference counts over every run

`FileInv` holds at boot and every step keeps it, so it holds in every reachable state, and
from it:

* `FileInv.error` — a step fails only in `exit` of `initproc`: the `filedup` and
  `fileclose` panics are unreachable;
* at a state where no call is in progress (`Sys.Quiet`), a file's `ref` is the number of
  descriptors naming it, and an end of a pipe is open exactly when a file with references is
  that end, and then one file alone.
-/

namespace Xv6Lab.Files

open Procs RefCount

/-! ### What a step is -/

theorem step_call {σ : Sys} {p : Slot} {c : Call} {r : Except String Sys}
    (hs : σ.step (p, .call c) = some r) : (σ.procs p).pc = .user ∧ σ.call p c = r := by
  simp only [Sys.step] at hs
  split_ifs at hs with hp
  exact ⟨hp, Option.some.inj hs⟩

theorem step_next (σ : Sys) (p : Slot) : σ.step (p, .next) = σ.next p (σ.procs p).pc := rfl

theorem step_kalloc {σ : Sys} {p : Slot} {page : Option ℕ} {ok : Bool} {r : Except String Sys}
    (hs : σ.step (p, .kalloc page ok) = some r) :
    ∃ f0 f1 σ', (σ.procs p).pc = .pipeAlloc₃ f0 f1 ∧ σ.pipeAlloc₃ p f0 f1 page ok = some σ' ∧
      r = .ok σ' := by
  simp only [Sys.step] at hs
  split at hs
  case h_1 f0 f1 hp =>
    obtain ⟨σ', hσ', rfl⟩ := Option.map_eq_some_iff.mp hs
    exact ⟨f0, f1, σ', hp, hσ', rfl⟩
  case h_2 => cases hs

/-! ### Every step keeps the invariant -/

theorem FileInv.call {σ σ' : Sys} (h : FileInv σ) {p : Slot} (hp : (σ.procs p).pc = .user)
    {c : Call} (hs : σ.call p c = .ok σ') : FileInv σ' := by
  cases c with
  | fork ok =>
    cases hs
    exact h.fork hp ok
  | «open» omode r =>
    cases hs
    exact h.openFile hp omode r
  | close fd =>
    cases hs
    exact h.close hp fd
  | dup fd =>
    obtain ⟨σ₁, hd, h₁⟩ := h.dup hp fd
    simp only [Sys.call, hd, Except.ok.injEq] at hs
    exact hs ▸ h₁
  | pipe =>
    cases hs
    exact h.pipe hp
  | exit => exact h.exit hp hs

theorem FileInv.next {σ σ' : Sys} (h : FileInv σ) {p : Slot}
    (hs : σ.next p (σ.procs p).pc = some (.ok σ')) : FileInv σ' := by
  generalize hpc : (σ.procs p).pc = pc at hs
  cases pc with
  | forkDup np k =>
    obtain ⟨σ₁, hd, h₁⟩ := h.forkDup hpc
    simp only [Sys.next, hd, Option.some.injEq, Except.ok.injEq] at hs
    exact hs ▸ h₁
  | openFd f omode r =>
    obtain ⟨σ₁, hd, h₁⟩ := h.openFd hpc
    simp only [Sys.next, hd, Option.some.injEq, Except.ok.injEq] at hs
    exact hs ▸ h₁
  | pipeAlloc₂ f0 =>
    simp only [Sys.next, Option.some.injEq, Except.ok.injEq] at hs
    exact hs ▸ h.pipeAlloc₂ hpc
  | closing fs =>
    obtain ⟨σ₁, hd, h₁⟩ := h.closeNext hpc
    simp only [Sys.next, hd, Option.some.injEq, Except.ok.injEq] at hs
    exact hs ▸ h₁
  | release ff fs =>
    simp only [Sys.next, Option.some.injEq, Except.ok.injEq] at hs
    exact hs ▸ h.releaseNext hpc
  | exiting k =>
    obtain ⟨σ₁, hd, h₁⟩ := h.exitNext hpc
    simp only [Sys.next, hd, Option.some.injEq, Except.ok.injEq] at hs
    exact hs ▸ h₁
  | exitRelease ff fd =>
    simp only [Sys.next, Option.some.injEq, Except.ok.injEq] at hs
    exact hs ▸ h.exitRelease hpc
  | unused | embryo | user | zombie | pipeAlloc₃ _ _ => simp [Sys.next] at hs

theorem FileInv.step {σ σ' : Sys} (h : FileInv σ) {p : Slot} {a : Act}
    (hs : σ.step (p, a) = some (.ok σ')) : FileInv σ' := by
  cases a with
  | call c =>
    obtain ⟨hp, hc⟩ := step_call hs
    exact h.call hp hc
  | next => exact h.next hs
  | kalloc page ok =>
    obtain ⟨f0, f1, σ₁, hp, hσ₁, e⟩ := step_kalloc hs
    cases e
    exact h.pipeAlloc₃ hp hσ₁

/-- A step fails only in `exit` of `initproc`: a section that can panic finds the
references it needs. -/
theorem FileInv.error {σ : Sys} (h : FileInv σ) {p : Slot} {a : Act} {e : String}
    (hs : σ.step (p, a) = some (.error e)) :
    p = initproc ∧ a = .call .exit ∧ e = "init exiting" := by
  cases a with
  | call c =>
    obtain ⟨hp, hc⟩ := step_call hs
    cases c with
    | dup fd =>
      obtain ⟨σ₁, hd, -⟩ := h.dup hp fd
      simp [Sys.call, hd] at hc
    | exit =>
      simp only [Sys.call, Sys.exit] at hc
      split_ifs at hc with hinit
      cases hc
      exact ⟨hinit, rfl, rfl⟩
    | fork | «open» | close | pipe => simp [Sys.call] at hc
  | next =>
    rw [step_next] at hs
    generalize hpc : (σ.procs p).pc = pc at hs
    cases pc with
    | forkDup np k =>
      obtain ⟨σ₁, hd, -⟩ := h.forkDup hpc
      simp [Sys.next, hd] at hs
    | openFd f omode r =>
      obtain ⟨σ₁, hd, -⟩ := h.openFd hpc
      simp [Sys.next, hd] at hs
    | closing fs =>
      obtain ⟨σ₁, hd, -⟩ := h.closeNext hpc
      simp [Sys.next, hd] at hs
    | exiting k =>
      obtain ⟨σ₁, hd, -⟩ := h.exitNext hpc
      simp [Sys.next, hd] at hs
    | unused | embryo | user | zombie | pipeAlloc₂ _ | pipeAlloc₃ _ _ | release _ _
      | exitRelease _ _ => simp [Sys.next] at hs
  | kalloc page ok =>
    obtain ⟨f0, f1, σ₁, -, -, hr⟩ := step_kalloc hs
    cases hr

/-! ### Boot -/

theorem fdsHold_empty (o : Obj) : fdsHold (fun _ => none) o = 0 := by
  cases o with
  | file f => exact fdCount_none f
  | inode ip => rfl
  | pipeEnd pi w => rfl

theorem boot_holds (p : Slot) (o : Obj) :
    (boot.procs p).holds o = if p = initproc then cwdHolds (some FS.rootino) o else 0 := by
  by_cases hp : p = initproc
  · subst hp
    simp only [boot, Function.update_self, if_true]
    rw [PState.holds_mk _ _ rfl, fdsHold_empty, Pc.holds_user]
    omega
  · simp only [boot, Function.update_of_ne hp, if_neg hp]
    rw [PState.holds_mk _ _ rfl, fdsHold_empty, Pc.Idle.holds ⟨rfl, rfl, rfl, rfl⟩]
    cases o <;> rfl

theorem boot_pc (p : Slot) : (boot.procs p).pc = if p = initproc then .user else .unused := by
  by_cases hp : p = initproc
  · subst hp
    simp [boot]
  · simp [boot, hp]

theorem fileInv_boot : FileInv boot := by
  refine ⟨fun o => ?_, fun _ _ => rfl, fun p f hf => ?_, ⟨fun p hp => ?_, fun p np k hp => ?_,
    fun p _ np k _ hp _ => ?_⟩⟩
  · -- `initproc`'s `cwd` holds the root's one reference, and nothing else is held
    have hfiles : total File.holds boot.files o = 0 :=
      Finset.sum_eq_zero fun f _ => File.holds_of_zero rfl o
    have hprocs : total PState.holds boot.procs o = cwdHolds (some FS.rootino) o := by
      unfold total
      rw [Finset.sum_eq_single initproc (fun q _ hq => by rw [boot_holds, if_neg hq])
        (fun h => absurd (Finset.mem_univ _) h), boot_holds, if_pos rfl]
    rw [hfiles, hprocs]
    cases o with
    | file f => rfl
    | inode ip =>
      by_cases hi : ip = FS.rootino
      · subst hi
        simp [Sys.count, boot, cwdHolds]
      · simp [Sys.count, boot, cwdHolds, hi, Ne.symm hi]
    | pipeEnd pi w => rfl
  · rw [boot_pc] at hf
    split_ifs at hf <;> simp [Pc.fresh] at hf
  · rw [boot_pc] at hp
    split_ifs at hp with hpi
    simp [boot, Function.update_of_ne hpi]
  · rw [boot_pc] at hp
    split_ifs at hp
  · rw [boot_pc] at hp
    split_ifs at hp

theorem fileInv_of_reachable {σ : Sys} (hσ : Interleave.Reachable Sys.step boot σ) :
    FileInv σ :=
  hσ.induction fileInv_boot fun _ _ _ h hst => h.step hst

/-! ### At a quiet state -/

/-- No call is in progress: every process is in user space, a zombie, or unused. -/
def Sys.Quiet (σ : Sys) : Prop :=
  ∀ p, (σ.procs p).pc = .unused ∨ (σ.procs p).pc = .user ∨ (σ.procs p).pc = .zombie

instance : DecidablePred Sys.Quiet := fun σ => inferInstanceAs (Decidable (∀ p,
  (σ.procs p).pc = .unused ∨ (σ.procs p).pc = .user ∨ (σ.procs p).pc = .zombie))

theorem Sys.Quiet.idle {σ : Sys} (hq : σ.Quiet) (p : Slot) : (σ.procs p).pc.Idle := by
  rcases hq p with e | e | e <;> rw [e] <;> exact ⟨rfl, rfl, rfl, rfl⟩

/-- File `x` holds a reference to end `w` of pipe `pi`: `pipealloc`'s read end has
`writable` clear, its write end has it set. -/
def File.IsEnd (x : File) (pi : ℕ) (w : Bool) : Prop :=
  0 < x.ref ∧ x.type = .pipe ∧ x.pipe = pi ∧ x.writable = w

instance (x : File) (pi : ℕ) (w : Bool) : Decidable (x.IsEnd pi w) :=
  inferInstanceAs (Decidable (_ ∧ _ ∧ _ ∧ _))

theorem File.holds_pipeEnd (x : File) (pi : ℕ) (w : Bool) :
    x.holds (.pipeEnd pi w) = if x.IsEnd pi w then 1 else 0 := by
  by_cases hx : 0 < x.ref
  · simp [File.holds, File.refers, File.IsEnd, hx]
  · simp [File.holds, File.IsEnd, hx]

/-- The descriptors of `f` over all processes. -/
theorem sum_fdCount (σ : Sys) (f : FileId) :
    ∑ p, fdCount (σ.procs p).ofile f =
      (Finset.univ.filter fun x : Slot × Fd => (σ.procs x.1).ofile x.2 = some f).card := by
  rw [Finset.card_filter, Fintype.sum_prod_type]
  rfl

theorem FileInv.ref_eq {σ : Sys} (h : FileInv σ) (hq : σ.Quiet) (f : FileId) :
    (σ.files f).ref =
      (Finset.univ.filter fun x : Slot × Fd => (σ.procs x.1).ofile x.2 = some f).card := by
  have hc := h.counted (.file f)
  have hp : ∀ p, (σ.procs p).holds (.file f) = fdCount (σ.procs p).ofile f := fun p => by
    rw [PState.holds_of_cleared (hq.idle p).2.2.2, (hq.idle p).holds, cwdHolds_file,
      fdsHold_file, add_zero, add_zero]
  have hf : total File.holds σ.files (.file f) = 0 :=
    Finset.sum_eq_zero fun g _ => by simp [File.holds]
  rw [count_file, hf, add_zero, total, Finset.sum_congr rfl fun p _ => hp p, sum_fdCount] at hc
  exact hc

/-- At a quiet state an end of a pipe is counted by the files alone. -/
theorem FileInv.count_pipeEnd {σ : Sys} (h : FileInv σ) (hq : σ.Quiet) (pi : ℕ) (w : Bool) :
    σ.count (.pipeEnd pi w) = ∑ f, if (σ.files f).IsEnd pi w then 1 else 0 := by
  have hc := h.counted (.pipeEnd pi w)
  have hp : total PState.holds σ.procs (.pipeEnd pi w) = 0 := Finset.sum_eq_zero fun p _ => by
    rw [PState.holds_of_cleared (hq.idle p).2.2.2, (hq.idle p).holds, fdsHold_pipeEnd,
      cwdHolds_pipeEnd, add_zero, add_zero]
  rw [hc, hp, total]
  simp only [File.holds_pipeEnd, zero_add]

theorem count_pipeEnd_le (σ : Sys) (pi : ℕ) (w : Bool) : σ.count (.pipeEnd pi w) ≤ 1 := by
  simp only [Sys.count]
  split
  · split_ifs <;> omega
  · omega

/-- At a quiet state, end `w` of pipe `pi` is open exactly when a file with references is
that end, and then one file alone is. -/
theorem FileInv.pipe_open_iff {σ : Sys} (h : FileInv σ) (hq : σ.Quiet) (pi : ℕ) (w : Bool) :
    ((∃ e, σ.pipes pi = some e ∧ e.isOpen w = true) ↔ ∃ f, (σ.files f).IsEnd pi w) ∧
      ∀ f g, (σ.files f).IsEnd pi w → (σ.files g).IsEnd pi w → f = g := by
  have hsum := h.count_pipeEnd hq pi w
  have hle := count_pipeEnd_le σ pi w
  -- the count is one exactly when the end is open
  have hopen : (∃ e, σ.pipes pi = some e ∧ e.isOpen w = true) ↔ σ.count (.pipeEnd pi w) = 1 := by
    simp only [Sys.count]
    split
    case h_1 e he => split_ifs with hw <;> simp [he, hw]
    case h_2 he => simp [he]
  refine ⟨hopen.trans ⟨fun h1 => ?_, fun hend => ?_⟩, fun f g hf hg => ?_⟩
  · obtain ⟨f, -, hf⟩ := Finset.exists_ne_zero_of_sum_ne_zero (hsum ▸ h1 ▸ one_ne_zero)
    exact ⟨f, by simpa using hf⟩
  · obtain ⟨f, hf⟩ := hend
    have := Finset.single_le_sum (f := fun g => if (σ.files g).IsEnd pi w then 1 else 0)
      (fun _ _ => Nat.zero_le _) (Finset.mem_univ f)
    simp only [hf, if_true] at this
    omega
  · refine h.counted.right_eq (k := .pipeEnd pi w) hle ?_ ?_
    · simp [File.holds_pipeEnd, hf]
    · simp [File.holds_pipeEnd, hg]

/-! ### The reference counts -/

/-- Open-file reference counts over every run of `fork`, `exit`, `open`, `close`, `dup` and
`pipe`, failure paths included: no step panics but `exit` of `initproc`; and at every state
with no call in progress each file's `ref` is the number of descriptors that name it, and each
end of a pipe is open exactly when a file with references is that end, one file alone. -/
theorem open_file_refcounts {σ : Sys} (hσ : Interleave.Reachable Sys.step boot σ) :
    (∀ p a e, σ.step (p, a) = some (.error e) →
      p = initproc ∧ a = .call .exit ∧ e = "init exiting") ∧
    (σ.Quiet →
      (∀ f, (σ.files f).ref =
        (Finset.univ.filter fun x : Slot × Fd => (σ.procs x.1).ofile x.2 = some f).card) ∧
      ∀ pi w, ((∃ e, σ.pipes pi = some e ∧ e.isOpen w = true) ↔ ∃ f, (σ.files f).IsEnd pi w) ∧
        ∀ f g, (σ.files f).IsEnd pi w → (σ.files g).IsEnd pi w → f = g) := by
  have h := fileInv_of_reachable hσ
  exact ⟨fun _ _ _ hs => h.error hs, fun hq => ⟨h.ref_eq hq, h.pipe_open_iff hq⟩⟩

/-- A run of two processes: `initproc` opens a file, makes a pipe, dups the file's descriptor
and forks; the child closes the pipe's read end and exits, then the parent closes the pipe's
write end. -/
def filesOps : List (Slot × Act) :=
  [(initproc, .call (.open 0 (some ⟨5, .file, 0⟩))), (initproc, .next),
   (initproc, .call .pipe), (initproc, .next), (initproc, .kalloc (some 7) true),
   (initproc, .call (.dup 0)), (initproc, .call (.fork true))] ++
  List.replicate 17 (initproc, .next) ++
  [(⟨1, by decide⟩, .call (.close 1)), (⟨1, by decide⟩, .next), (⟨1, by decide⟩, .next),
   (⟨1, by decide⟩, .call .exit)] ++ List.replicate 17 (⟨1, by decide⟩, .next) ++
  [(initproc, .call (.close 2)), (initproc, .next), (initproc, .next), (initproc, .next)]

/-- The state `filesOps` ends in. -/
def filesRun : Sys := Interleave.runState Sys.step boot filesOps

theorem open_file_refcounts_run :
    Interleave.Reachable Sys.step boot filesRun ∧ filesRun.Quiet ∧
    (∀ p a e, filesRun.step (p, a) = some (.error e) →
      p = initproc ∧ a = .call .exit ∧ e = "init exiting") ∧
    (filesRun.Quiet →
      (∀ f, (filesRun.files f).ref =
        (Finset.univ.filter fun x : Slot × Fd => (filesRun.procs x.1).ofile x.2 = some f).card) ∧
      ∀ pi w, ((∃ e, filesRun.pipes pi = some e ∧ e.isOpen w = true) ↔
          ∃ f, (filesRun.files f).IsEnd pi w) ∧
        ∀ f g, (filesRun.files f).IsEnd pi w → (filesRun.files g).IsEnd pi w → f = g) :=
  have hσ := Interleave.reachable_runState filesOps (by decide +kernel)
  ⟨hσ, by decide +kernel, open_file_refcounts hσ⟩

end Xv6Lab.Files
