import Xv6Lab.Lib.Interleave

/-!
# Reference counts

Objects `k : κ`, each with a counter, and holders `i : ι` in states `ps i : P`; a holder in
state `p` holds `g p k` references to `k`, and `total g ps k` is what all of them hold.
`Counted` says that every counter is what the holders of two kinds hold together.

* `total_add_of_eqOn` — a change of the holders of a finite set: the total changes by what
  they gain and lose.
* `Counted.of_eqOn` — the frame rule: a step that changes the holders of two finite sets,
  one of each kind, keeps the counters right when each changes by what those holders gain
  and lose.
* `Counted.left_eq`, `Counted.right_eq`, `Counted.right_zero` — a counter of at most one
  has at most one holder.
-/

namespace RefCount

variable {ι κ P : Type} [Fintype ι]

/-- The references to `k` that the holders hold. -/
def total (g : P → κ → ℕ) (ps : ι → P) (k : κ) : ℕ := ∑ i, g (ps i) k

variable {g : P → κ → ℕ} {ps : ι → P} {k : κ}

theorem le_total (g : P → κ → ℕ) (ps : ι → P) (i : ι) (k : κ) : g (ps i) k ≤ total g ps k :=
  Interleave.le_sum (fun p => g p k) ps i

section Counted

variable {ι' Q : Type} [Fintype ι'] {h : Q → κ → ℕ} {qs : ι' → Q} {c : κ → ℕ}

/-- Every counter is what the holders of both kinds hold. -/
def Counted (c : κ → ℕ) (g : P → κ → ℕ) (ps : ι → P) (h : Q → κ → ℕ) (qs : ι' → Q) :
    Prop :=
  ∀ k, c k = total g ps k + total h qs k

theorem Counted.le_left (hc : Counted c g ps h qs) (i : ι) (k : κ) : g (ps i) k ≤ c k := by
  rw [hc k]
  exact Nat.le_add_right_of_le (le_total g ps i k)

/-- Under a counter of at most one, holders of the two kinds exclude each other. -/
theorem Counted.right_zero (hc : Counted c g ps h qs) {k : κ} (h1 : c k ≤ 1) {i : ι}
    (hi : 0 < g (ps i) k) (j : ι') : h (qs j) k = 0 := by
  have hl := le_total g ps i k
  have hr := le_total h qs j k
  have := hc k
  omega

variable [DecidableEq ι]

/-- Two holders that both hold `k` add up to two references. -/
theorem eq_of_total_le_one (h1 : total g ps k ≤ 1) {i j : ι} (hi : 0 < g (ps i) k)
    (hj : 0 < g (ps j) k) : i = j := by
  by_contra hij
  have hpair : g (ps i) k + g (ps j) k ≤ total g ps k := by
    rw [← Finset.sum_pair (f := fun x => g (ps x) k) hij]
    exact Finset.sum_le_sum_of_subset (Finset.subset_univ _)
  omega

/-- A change of the holders of `s` alone: the total changes by what they gain and lose. -/
theorem total_add_of_eqOn (s : Finset ι) {ps' : ι → P} (hs : ∀ i ∉ s, ps' i = ps i) :
    total g ps' k + ∑ i ∈ s, g (ps i) k = total g ps k + ∑ i ∈ s, g (ps' i) k := by
  have hc : ∑ i ∈ sᶜ, g (ps' i) k = ∑ i ∈ sᶜ, g (ps i) k :=
    Finset.sum_congr rfl fun i hi => by rw [hs i (Finset.mem_compl.mp hi)]
  have h' := Finset.sum_add_sum_compl s fun i => g (ps' i) k
  have h := Finset.sum_add_sum_compl s fun i => g (ps i) k
  unfold total
  omega

/-- Under a counter of at most one, two holders of the first kind are one. -/
theorem Counted.left_eq (hc : Counted c g ps h qs) {k : κ} (h1 : c k ≤ 1) {i i' : ι}
    (hi : 0 < g (ps i) k) (hi' : 0 < g (ps i') k) : i = i' :=
  eq_of_total_le_one (by have := hc k; omega) hi hi'

variable [DecidableEq ι']

omit [DecidableEq ι] in
/-- Under a counter of at most one, two holders of the second kind are one. -/
theorem Counted.right_eq (hc : Counted c g ps h qs) {k : κ} (h1 : c k ≤ 1) {j j' : ι'}
    (hj : 0 < h (qs j) k) (hj' : 0 < h (qs j') k) : j = j' :=
  eq_of_total_le_one (by have := hc k; omega) hj hj'

theorem Counted.of_eqOn (hc : Counted c g ps h qs) {c' : κ → ℕ} {ps' : ι → P} {qs' : ι' → Q}
    (s : Finset ι) (t : Finset ι') (hs : ∀ i ∉ s, ps' i = ps i) (ht : ∀ j ∉ t, qs' j = qs j)
    (hb : ∀ k, c' k + ∑ i ∈ s, g (ps i) k + ∑ j ∈ t, h (qs j) k =
      c k + ∑ i ∈ s, g (ps' i) k + ∑ j ∈ t, h (qs' j) k) :
    Counted c' g ps' h qs' := by
  intro k
  have hp := total_add_of_eqOn s hs (g := g) (k := k)
  have hq := total_add_of_eqOn t ht (g := h) (k := k)
  have := hc k
  have := hb k
  omega

end Counted

end RefCount
