import Mathlib.Algebra.BigOperators.Group.Finset.Piecewise
import Mathlib.Algebra.Order.BigOperators.Group.Finset
import Mathlib.Algebra.BigOperators.Ring.Finset

/-!
# Interleavings of parties over a shared state

A system is a step function: party `i` in state `s` is blocked (`none`), fails with an
error, or moves to a new state. A schedule is the list of parties that step in turn.

* `Reachable.induction` — an invariant of the initial state that every step keeps holds in
  every reachable state.
* `exists_error_of_run` — a schedule that ends in an error reaches a state from which one
  step fails with it: the form of a counterexample;
* `exists_reachable_of_run` — a schedule whose run ends in a state passing a test reaches
  such a state; `reachable_runState` — one whose run ends in a state reaches it.
* `sum_update_add` — a count over the parties after one of them changes: how invariants that
  sum over the parties are kept.
-/

namespace Interleave

variable {S ι ε : Type}

/-- The outcome of the parties of a schedule stepping in turn: `none` if one of them is
blocked, the first error, or the final state. -/
def run (step : S → ι → Option (Except ε S)) (s : S) : List ι → Option (Except ε S)
  | [] => some (.ok s)
  | i :: is => (step s i).bind fun
    | .ok s' => run step s' is
    | .error e => some (.error e)

/-- The error an outcome ends in, if any. -/
def errorOf : Option (Except ε S) → Option ε
  | some (.error e) => some e
  | _ => none

/-- The states some interleaving of steps reaches from `s₀`. -/
inductive Reachable (step : S → ι → Option (Except ε S)) (s₀ : S) : S → Prop
  | refl : Reachable step s₀ s₀
  | step {s s' : S} {i : ι} : Reachable step s₀ s → step s i = some (.ok s') →
      Reachable step s₀ s'

section Runs

variable {step : S → ι → Option (Except ε S)} {s₀ : S}

/-- The invariant rule. -/
@[elab_as_elim]
theorem Reachable.induction {I : S → Prop} {s : S} (hs : Reachable step s₀ s) (h₀ : I s₀)
    (hstep : ∀ s i s', I s → step s i = some (.ok s') → I s') : I s := by
  induction hs with
  | refl => exact h₀
  | step _ hst ih => exact hstep _ _ _ ih hst

theorem Reachable.trans {s s' : S} (hs : Reachable step s₀ s) (hs' : Reachable step s s') :
    Reachable step s₀ s' := by
  induction hs' with
  | refl => exact hs
  | step _ hst ih => exact ih.step hst

theorem Reachable.of_run {s s' : S} {l : List ι} (hs : Reachable step s₀ s)
    (h : run step s l = some (.ok s')) : Reachable step s₀ s' := by
  induction l generalizing s with
  | nil =>
    simp only [run, Option.some.injEq, Except.ok.injEq] at h
    exact h ▸ hs
  | cons i is ih =>
    cases hst : step s i with
    | none => simp [run, hst] at h
    | some r =>
      cases r with
      | error e => simp [run, hst] at h
      | ok s₁ =>
        simp only [run, hst, Option.bind_some] at h
        exact ih (hs.step hst) h

/-- A schedule whose run ends in state `s` reaches it. -/
theorem reachable_of_run {s : S} (l : List ι) (h : run step s₀ l = some (.ok s)) :
    Reachable step s₀ s :=
  Reachable.refl.of_run h

/-- A schedule from a reachable state that ends in an error reaches a state from which one
step fails with it. -/
theorem Reachable.exists_error_of_run {s : S} {e : ε} (hs : Reachable step s₀ s) (l : List ι)
    (h : errorOf (run step s l) = some e) :
    ∃ s' i, Reachable step s₀ s' ∧ step s' i = some (.error e) := by
  induction l generalizing s with
  | nil => simp [run, errorOf] at h
  | cons i is ih =>
    cases hst : step s i with
    | none => simp [run, hst, errorOf] at h
    | some r =>
      cases r with
      | error e' =>
        -- the failing step: its error is the run's
        simp only [run, hst, Option.bind_some, errorOf, Option.some.injEq] at h
        exact ⟨s, i, hs, h ▸ hst⟩
      | ok s₁ =>
        simp only [run, hst, Option.bind_some] at h
        exact ih (hs.step hst) h

theorem exists_error_of_run {e : ε} (l : List ι) (h : errorOf (run step s₀ l) = some e) :
    ∃ s i, Reachable step s₀ s ∧ step s i = some (.error e) :=
  Reachable.refl.exists_error_of_run l h

/-- A schedule whose run ends in a state that passes a test reaches such a state: the form
of a witness computed by running the schedule. -/
theorem exists_reachable_of_run {p : S → Bool} (l : List ι)
    (h : (run step s₀ l).any (fun r => r.toOption.any p) = true) :
    ∃ s, Reachable step s₀ s ∧ p s = true := by
  cases hr : run step s₀ l with
  | none => simp [hr] at h
  | some r =>
    cases r with
    | error e => simp [hr, Except.toOption] at h
    | ok s =>
      simp only [hr, Option.any_some, Except.toOption] at h
      exact ⟨s, reachable_of_run l hr, by simpa using h⟩

/-- The state a schedule's run ends in; `s₀` when the run is blocked or fails. -/
def runState (step : S → ι → Option (Except ε S)) (s₀ : S) (l : List ι) : S :=
  ((run step s₀ l).bind Except.toOption).getD s₀

/-- A schedule whose run ends in a state reaches it: the form of a witness at the state a
concrete run reaches, where the kernel runs the schedule to see that it ends in a state. -/
theorem reachable_runState (l : List ι)
    (h : ((run step s₀ l).bind Except.toOption).isSome = true) :
    Reachable step s₀ (runState step s₀ l) := by
  obtain ⟨s, hs⟩ := Option.isSome_iff_exists.mp h
  obtain ⟨r, hr, hok⟩ := Option.bind_eq_some_iff.mp hs
  cases r with
  | error e => exact absurd hok (by simp [Except.toOption])
  | ok s' =>
    obtain rfl : s' = s := Option.some.inj hok
    rw [runState, hs, Option.getD_some]
    exact reachable_of_run l hr

end Runs

/-! ### Counting over the parties -/

/-- A property of every party after one changes to a state that has it. -/
theorem forall_update [DecidableEq ι] {P : Type} {Q : P → Prop} {ps : ι → P} {i : ι} {p : P}
    (hp : Q p) (h : ∀ j, Q (ps j)) (j : ι) : Q (Function.update ps i p j) := by
  rw [Function.update_apply]
  split_ifs
  · exact hp
  · exact h j

section Count

variable [Fintype ι] {P : Type}

/-- A sum over the parties after party `i` changes from `ps i` to `p`. -/
theorem sum_update_add [DecidableEq ι] (g : P → ℕ) (ps : ι → P) (i : ι) (p : P) :
    ∑ j, g (Function.update ps i p j) + g (ps i) = ∑ j, g (ps j) + g p := by
  have hcomp :
      (fun j => g (Function.update ps i p j)) = Function.update (fun j => g (ps j)) i (g p) :=
    funext fun j => Function.apply_update (fun _ => g) ps i p j
  rw [hcomp, Finset.sum_update_of_mem (Finset.mem_univ i),
    Finset.sum_eq_add_sum_sdiff_singleton_of_mem (Finset.mem_univ i) (fun j => g (ps j))]
  omega

/-- One party's share is at most the sum. -/
theorem le_sum (g : P → ℕ) (ps : ι → P) (i : ι) : g (ps i) ≤ ∑ j, g (ps j) :=
  Finset.single_le_sum (fun j _ => Nat.zero_le (g (ps j))) (Finset.mem_univ i)

/-- Shares bounded by `c` times other shares bound the sums alike. -/
theorem sum_le_mul_sum {g h : P → ℕ} {c : ℕ} {ps : ι → P} (hgh : ∀ j, g (ps j) ≤ c * h (ps j)) :
    ∑ j, g (ps j) ≤ c * ∑ j, h (ps j) := by
  rw [Finset.mul_sum]
  exact Finset.sum_le_sum fun j _ => hgh j

end Count

end Interleave
