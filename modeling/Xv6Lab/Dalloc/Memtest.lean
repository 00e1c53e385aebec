import Xv6Lab.Dalloc.Code

/-!
# `memtest`, the caller of the allocator

`sys_memtest` runs `memtest()` of `kernel/memtest.c`: `dinit()`, then five tests that call
`dalloc` and `dfree`. A caller of the allocator is written here as a program that does one
heap operation at a time and goes on with what the operation answers (`Prog`), so that the
steps of several callers can be interleaved later.

The tests' `printf`s, the copies of the test strings into the blocks of `overwrite_test`
and the comparisons that read them back decide no later heap operation and are left out.
`rand()` reads and writes the global `next`, shared by all callers, so it is a step of its
own, as is `srand`.

`Disciplined prog held` says that a program asks for at most `HEAP_SIZE` bytes at a time
and frees only a null pointer or a pointer it holds, where `held p` counts the allocations
at `p` it holds. The result of this module is `memtest_disciplined`: `memtest` is such a
program, whatever the allocator answers.
-/

namespace Xv6Lab.Dalloc

/-- A caller of the allocator: the heap operation it does next and what it does with the
answer. -/
inductive Prog
  | done
  | init (k : Prog)
  | alloc (size : UInt32) (k : ℕ → Prog)
  | free (p : ℕ) (k : Prog)
  | srand (seed : UInt64) (k : Prog)
  | rand (k : ℕ → Prog)

/-! ### `rand` -/

/-- The update of `next` in `rand()`, in `unsigned long`. -/
def randNext (next : UInt64) : UInt64 := next * 1103515245 + 12345

/-- What `rand()` returns once `next` is updated: `(unsigned int)(next / 65536) % 32768`. -/
def randValue (next : UInt64) : ℕ := ((next / 65536).toUInt32 % 32768).toNat

/-! ### The tests -/

/-- `basic_test`, followed by `k`. -/
def basicTest (k : Prog) : Prog :=
  .alloc 100 fun ptr => if ptr ≠ 0 then .free ptr k else k

/-- `boundary_test`, followed by `k`; each `return` goes on with `k`. -/
def boundaryTest (k : Prog) : Prog :=
  .alloc (heapSize - 128).toUInt32 fun largePtr =>
    if largePtr ≠ 0 then
      .free largePtr <| .alloc heapSize.toUInt32 fun exceedPtr =>
        if exceedPtr = 0 then
          .alloc 1 fun smallPtr => if smallPtr ≠ 0 then .free smallPtr k else k
        else .free exceedPtr k
    else k

/-- A loop that calls `dfree` on every non-null pointer of an array, in order. -/
def freeNonNull : List ℕ → Prog → Prog
  | [], k => k
  | p :: ps, k => if p ≠ 0 then .free p (freeNonNull ps k) else freeNonNull ps k

/-- A loop that calls `dfree` on every pointer of an array, null or not. -/
def freeEach : List ℕ → Prog → Prog
  | [], k => k
  | p :: ps, k => .free p (freeEach ps k)

/-- A loop that calls `dalloc` for each size in turn and stores the pointers after `ptrs`;
`k` goes on with the array. -/
def allocEach : List UInt32 → List ℕ → (List ℕ → Prog) → Prog
  | [], ptrs, k => k ptrs
  | size :: sizes, ptrs, k => .alloc size fun ptr => allocEach sizes (ptrs ++ [ptr]) k

/-- The allocation loop of `random_test`, `n` rounds to go: `rand() % 100000 + 1` bytes
each. A failed allocation leaves its slot of `ptr_array` at `0`, which is what `dalloc`
returned. -/
def randomAllocs : ℕ → List ℕ → (List ℕ → Prog) → Prog
  | 0, ptrs, k => k ptrs
  | n + 1, ptrs, k =>
    .rand fun r => .alloc (r % 100000 + 1).toUInt32 fun ptr => randomAllocs n (ptrs ++ [ptr]) k

/-- `random_test`, followed by `k`. -/
def randomTest (k : Prog) : Prog :=
  .srand 1000 <| randomAllocs 10 [] fun ptrs => freeNonNull ptrs k

/-- `stress_test`, followed by `k`: 255 blocks of `65537` bytes, then the non-null ones
freed. -/
def stressTest (k : Prog) : Prog :=
  allocEach (List.replicate 255 65537) [] fun ptrs => freeNonNull ptrs k

/-- The sizes of the three strings of `overwrite_test`. -/
def overwriteSizes : List UInt32 := [13, 20, 51]

/-- `overwrite_test`, followed by `k`: a block for each string and its terminator, then
all three freed, whether `dalloc` failed or not. -/
def overwriteTest (k : Prog) : Prog :=
  allocEach (overwriteSizes.map (· + 1)) [] fun ptrs => freeEach ptrs k

/-- `memtest()`. -/
def memtest : Prog :=
  .init <| basicTest <| boundaryTest <| randomTest <| stressTest <| overwriteTest .done

/-! ### The discipline of a caller -/

/-- The allocations held once `dalloc` has answered `p`: one more at `p`, unless it is null. -/
def hold (held : ℕ → ℕ) (p : ℕ) : ℕ → ℕ :=
  if p = 0 then held else Function.update held p (held p + 1)

/-- The allocations held once `p` is freed. -/
def release (held : ℕ → ℕ) (p : ℕ) : ℕ → ℕ :=
  if p = 0 then held else Function.update held p (held p - 1)

/-- A program asks for at most `HEAP_SIZE` bytes at a time, and frees only a null pointer
or one it holds; `held p` counts the allocations at `p` it holds. -/
def Disciplined : Prog → (ℕ → ℕ) → Prop
  | .done, _ => True
  | .init k, held => Disciplined k held
  | .alloc size k, held => size.toNat ≤ heapSize ∧ ∀ p, Disciplined (k p) (hold held p)
  | .free p k, held => (p = 0 ∨ 0 < held p) ∧ Disciplined k (release held p)
  | .srand _ k, held => Disciplined k held
  | .rand k, held => ∀ r, Disciplined (k r) held

/-- What the allocations of an array add to `held`. -/
def holdAll (held : ℕ → ℕ) (ptrs : List ℕ) : ℕ → ℕ :=
  fun x => if x = 0 then held x else held x + ptrs.count x

@[simp] theorem holdAll_nil (held : ℕ → ℕ) : holdAll held [] = held := by
  funext x
  simp [holdAll]

theorem hold_apply (held : ℕ → ℕ) (p x : ℕ) :
    hold held p x = if p ≠ 0 ∧ x = p then held x + 1 else held x := by
  unfold hold
  by_cases hx : x = p
  · subst hx
    by_cases hp : x = 0 <;> simp [hp]
  · by_cases hp : p = 0 <;> simp [hp, hx]

theorem release_apply (held : ℕ → ℕ) (p x : ℕ) :
    release held p x = if p ≠ 0 ∧ x = p then held x - 1 else held x := by
  unfold release
  by_cases hx : x = p
  · subst hx
    by_cases hp : x = 0 <;> simp [hp]
  · by_cases hp : p = 0 <;> simp [hp, hx]

theorem hold_pos {held : ℕ → ℕ} {p : ℕ} (hp : p ≠ 0) : 0 < hold held p p := by
  simp [hold_apply, hp]

theorem release_hold (held : ℕ → ℕ) (p : ℕ) : release (hold held p) p = held := by
  funext x
  rw [release_apply, hold_apply]
  split_ifs <;> omega

theorem hold_holdAll (held : ℕ → ℕ) (ptrs : List ℕ) (p : ℕ) :
    hold (holdAll held ptrs) p = holdAll held (ptrs ++ [p]) := by
  funext x
  rw [hold_apply]
  simp only [holdAll, List.count_append, List.count_singleton, beq_iff_eq]
  split_ifs <;> omega

theorem release_holdAll_cons (held : ℕ → ℕ) (ptrs : List ℕ) (p : ℕ) :
    release (holdAll held (p :: ptrs)) p = holdAll held ptrs := by
  funext x
  rw [release_apply]
  simp only [holdAll, List.count_cons, beq_iff_eq]
  split_ifs <;> omega

theorem holdAll_cons_zero (held : ℕ → ℕ) (ptrs : List ℕ) :
    holdAll held (0 :: ptrs) = holdAll held ptrs := by
  funext x
  simp only [holdAll, List.count_cons, beq_iff_eq]
  split_ifs <;> omega

theorem holdAll_pos_of_ne {held : ℕ → ℕ} {ptrs : List ℕ} {p : ℕ} (hp : p ≠ 0) :
    0 < holdAll held (p :: ptrs) p := by
  simp [holdAll, hp]

/-! ### The loops keep the discipline -/

section Loops

variable {k : Prog} {held : ℕ → ℕ}

/-- Freeing the non-null pointers of an array gives back what allocating them took. -/
theorem disciplined_freeNonNull (hk : Disciplined k held) (ptrs : List ℕ) :
    Disciplined (freeNonNull ptrs k) (holdAll held ptrs) := by
  induction ptrs with
  | nil => simpa [freeNonNull] using hk
  | cons p ps ih =>
    by_cases hp : p = 0
    · subst hp
      simpa [freeNonNull, holdAll_cons_zero] using ih
    · simp only [freeNonNull, hp, if_true, ne_eq, not_false_eq_true]
      exact ⟨.inr (holdAll_pos_of_ne hp), by rw [release_holdAll_cons]; exact ih⟩

/-- Freeing every pointer of an array, null ones too, gives back what allocating them took. -/
theorem disciplined_freeEach (hk : Disciplined k held) (ptrs : List ℕ) :
    Disciplined (freeEach ptrs k) (holdAll held ptrs) := by
  induction ptrs with
  | nil => simpa [freeEach] using hk
  | cons p ps ih =>
    by_cases hp : p = 0
    · -- `dfree(0)` is allowed: it holds nothing and releases nothing
      subst hp
      refine ⟨.inl rfl, ?_⟩
      simpa [release, holdAll_cons_zero] using ih
    · exact ⟨.inr (holdAll_pos_of_ne hp), by rw [release_holdAll_cons]; exact ih⟩

/-- An allocation loop over sizes up to `HEAP_SIZE` keeps the discipline of what follows it. -/
theorem disciplined_allocEach (kk : List ℕ → Prog) (sizes : List UInt32)
    (hsizes : ∀ s ∈ sizes, s.toNat ≤ heapSize)
    (hk : ∀ ptrs, Disciplined (kk ptrs) (holdAll held ptrs)) (ptrs : List ℕ) :
    Disciplined (allocEach sizes ptrs kk) (holdAll held ptrs) := by
  induction sizes generalizing ptrs with
  | nil => exact hk ptrs
  | cons s ss ih =>
    refine ⟨hsizes s List.mem_cons_self, fun p => ?_⟩
    rw [hold_holdAll]
    exact ih (fun s hs => hsizes s (List.mem_cons_of_mem _ hs)) _

theorem randomSize_le (r : ℕ) : (r % 100000 + 1).toUInt32.toNat ≤ heapSize := by
  have hr : r % 100000 < 100000 := Nat.mod_lt _ (by decide)
  rw [Nat.toUInt32_eq, UInt32.toNat_ofNat_of_lt' (lt_of_le_of_lt (Nat.succ_le_of_lt hr) (by decide))]
  simp only [heapSize]
  omega

theorem disciplined_randomAllocs (kk : List ℕ → Prog)
    (hk : ∀ ptrs, Disciplined (kk ptrs) (holdAll held ptrs)) (n : ℕ) (ptrs : List ℕ) :
    Disciplined (randomAllocs n ptrs kk) (holdAll held ptrs) := by
  induction n generalizing ptrs with
  | zero => exact hk ptrs
  | succ n ih =>
    intro r
    refine ⟨randomSize_le r, fun p => ?_⟩
    rw [hold_holdAll]
    exact ih _

end Loops

/-! ### The tests keep the discipline -/

section Tests

variable {k : Prog} {held : ℕ → ℕ}

theorem disciplined_basicTest (hk : Disciplined k held) : Disciplined (basicTest k) held := by
  refine ⟨by decide, fun ptr => ?_⟩
  by_cases hp : ptr = 0
  · simpa [hp, hold] using hk
  · simp only [hp, ne_eq, not_false_eq_true, if_true]
    exact ⟨.inr (hold_pos hp), by rw [release_hold]; exact hk⟩

theorem disciplined_boundaryTest (hk : Disciplined k held) :
    Disciplined (boundaryTest k) held := by
  refine ⟨by decide, fun largePtr => ?_⟩
  by_cases hl : largePtr = 0
  · simpa [hl, hold] using hk
  simp only [hl, ne_eq, not_false_eq_true, if_true]
  refine ⟨.inr (hold_pos hl), ?_⟩
  rw [release_hold]
  refine ⟨by decide, fun exceedPtr => ?_⟩
  by_cases he : exceedPtr = 0
  · -- the expected failure: go on with the small allocation
    simp only [he, if_true, hold]
    refine ⟨by decide, fun smallPtr => ?_⟩
    by_cases hs : smallPtr = 0
    · simpa [hs, hold] using hk
    · simp only [hs, not_false_eq_true, if_true]
      exact ⟨.inr (hold_pos hs), by rw [release_hold]; exact hk⟩
  · simp only [he, if_false]
    exact ⟨.inr (hold_pos he), by rw [release_hold]; exact hk⟩

theorem disciplined_randomTest (hk : Disciplined k held) :
    Disciplined (randomTest k) held := by
  have h := disciplined_randomAllocs (fun ptrs => freeNonNull ptrs k)
    (fun ptrs => disciplined_freeNonNull hk ptrs) 10 []
  rw [holdAll_nil] at h
  exact h

theorem disciplined_stressTest (hk : Disciplined k held) :
    Disciplined (stressTest k) held := by
  have h := disciplined_allocEach (fun ptrs => freeNonNull ptrs k)
    (List.replicate 255 65537) (fun s hs => by rw [List.eq_of_mem_replicate hs]; decide)
    (fun ptrs => disciplined_freeNonNull hk ptrs) []
  rw [holdAll_nil] at h
  exact h

theorem disciplined_overwriteTest (hk : Disciplined k held) :
    Disciplined (overwriteTest k) held := by
  have h := disciplined_allocEach (fun ptrs => freeEach ptrs k)
    (overwriteSizes.map (· + 1)) (fun s hs => ?_) (fun ptrs => disciplined_freeEach hk ptrs) []
  · rw [holdAll_nil] at h
    exact h
  -- the three string sizes, each checked on its own
  simp only [overwriteSizes, List.map_cons, List.map_nil, List.mem_cons, List.not_mem_nil,
    or_false] at hs
  rcases hs with rfl | rfl | rfl <;> decide

end Tests

/-- `memtest` is disciplined from any holdings: each test frees exactly the non-null
pointers it got, and asks for at most `HEAP_SIZE` bytes. -/
theorem memtest_disciplined (held : ℕ → ℕ) : Disciplined memtest held :=
  disciplined_basicTest <| disciplined_boundaryTest <| disciplined_randomTest <|
    disciplined_stressTest <| disciplined_overwriteTest trivial

end Xv6Lab.Dalloc
