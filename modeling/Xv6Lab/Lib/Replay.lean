import Mathlib.Data.Option.Basic

/-!
# Replaying a trace

A model's calls taken one at a time, as a partial function `step : σ → α → Option σ`: `none`
where the call is not one a run makes, or where it fails. A trace is a list of calls,
replayed in turn until one returns no state.

* `replay_preserves` — what every call keeps holds of the state a replay ends in;
* `getD_replay` — the same for a replay that returns a state, named by the replay itself,
  so that the kernel, which runs the replay to see that it returns, also checks that a
  concrete run reaches the state.
-/

namespace Replay

variable {σ α : Type} (step : σ → α → Option σ)

/-- The calls of `as` in turn from `s`, with `none` from the first that returns no state. -/
def replay (s : σ) : List α → Option σ
  | [] => some s
  | a :: as => (step s a).bind fun s' => replay s' as

@[simp] theorem replay_nil (s : σ) : replay step s [] = some s := rfl

@[simp] theorem replay_cons (s : σ) (a : α) (as : List α) :
    replay step s (a :: as) = (step s a).bind fun s' => replay step s' as := rfl

variable {step} (P : σ → Prop)

/-- What every call keeps holds after a replay. By induction on the trace, the start state
generalised. -/
theorem replay_preserves (hstep : ∀ s a s', P s → step s a = some s' → P s') :
    ∀ {s s' : σ} {as : List α}, P s → replay step s as = some s' → P s'
  | s, s', [], hs, h => by
    rw [replay_nil, Option.some.injEq] at h
    exact h ▸ hs
  | s, s', a :: as, hs, h => by
    rw [replay_cons] at h
    obtain ⟨s₁, h₁, hrest⟩ := Option.bind_eq_some_iff.mp h
    exact replay_preserves hstep (hstep s a s₁ hs h₁) hrest

/-- A replay that returns a state: what every call keeps holds of it. -/
theorem getD_replay (hstep : ∀ s a s', P s → step s a = some s' → P s') {s : σ}
    {as : List α} (hs : P s) (h : (replay step s as).isSome = true) :
    P ((replay step s as).getD s) := by
  obtain ⟨s', hs'⟩ := Option.isSome_iff_exists.mp h
  rw [hs', Option.getD_some]
  exact replay_preserves P hstep hs hs'

end Replay
