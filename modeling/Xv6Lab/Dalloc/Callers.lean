import Xv6Lab.Dalloc.Runs
import Xv6Lab.Dalloc.Memtest

/-!
# Callers of the allocator sharing one heap

Several processes may be inside `sys_memtest` at once. They share `dmem` and the global
`next` of `rand()`. `Callers` is the state of such a kernel: the heap, `next`, what each
caller does next, and, as ghost state, the allocations that have been handed out and not
freed since, each with its caller and the size asked for. A step of a caller is one of its
calls, taken atomically, as `dalloc` and `dfree` take it under `dmem.lock`. (`dinit` takes
no lock and even reinitialises it; taking it as one step leaves out the interleavings where
it falls inside another caller's call.)

* `callers_interfere` — two callers of `memtest` interfere. If the second caller's `dinit`
  falls after the first caller's `dalloc(100)`, both callers hold the same block. If it
  falls after the ten allocations of the first caller's `random_test`, that caller's
  second `dfree` panics with `dfree: Invalid address.`, for a pointer it holds.
* `quiet_callers_isolated` — if no caller takes `dinit` while an allocation is held, then
  for any number of callers of `memtest` and any interleaving, every `dalloc` returns, with
  a block that meets no allocation held by any caller, and `dfree` of a pointer a caller
  holds never panics.

The second result rests on `Inv`: before the first `dinit` the heap is the empty list of
boot; after it, the heap holds a block list of the run invariant whose live allocations are
those of all callers together. Each caller keeps to its discipline (`memtest_disciplined`),
so it frees only what it holds.
-/

namespace Xv6Lab.Dalloc

/-- Callers of the allocator on one kernel: the shared heap, the global `next` of `rand()`,
what each caller does next, and (ghost state) the live allocations with their callers. -/
structure Callers (ι : Type) where
  heap : DMem
  next : UInt64
  progs : ι → Prog
  live : List (ι × ℕ × UInt32)

/-- Whether a caller's next operation is `dinit`. -/
def Prog.isInit : Prog → Bool
  | .init _ => true
  | _ => false

/-- The pointer a caller frees next, if its next operation is `dfree`. -/
def Prog.freeArg : Prog → Option ℕ
  | .free p _ => some p
  | _ => none

namespace Callers

variable {ι : Type} [DecidableEq ι]

/-- The test for a live allocation of caller `i` at `p`. -/
def heldAt (i : ι) (p : ℕ) (e : ι × ℕ × UInt32) : Bool := decide (e.1 = i ∧ e.2.1 = p)

/-- How many allocations at `p` caller `i` holds. -/
def heldBy (live : List (ι × ℕ × UInt32)) (i : ι) (p : ℕ) : ℕ := live.countP (heldAt i p)

/-- One step of caller `i`: `none` when a loop of the allocator runs out of fuel, an error
for a panic. A caller that has returned does nothing. -/
def step (σ : Callers ι) (i : ι) : Option (Except String (Callers ι)) :=
  match σ.progs i with
  | .done => some (.ok σ)
  | .init k => some (.ok { σ with heap := dinit σ.heap, progs := Function.update σ.progs i k })
  | .alloc size k =>
    (dalloc σ.heap size).map fun r =>
      .ok { σ with
        heap := r.1
        progs := Function.update σ.progs i (k r.2)
        live := if r.2 = 0 then σ.live else (i, r.2, size) :: σ.live }
  | .free p k =>
    (dfree σ.heap p).map fun r => r.map fun heap =>
      { σ with heap, progs := Function.update σ.progs i k, live := σ.live.eraseP (heldAt i p) }
  | .srand seed k => some (.ok { σ with next := seed, progs := Function.update σ.progs i k })
  | .rand k =>
    some (.ok { σ with
      next := randNext σ.next
      progs := Function.update σ.progs i (k (randValue (randNext σ.next))) })

/-- The steps of a schedule in turn, up to the first that returns no state. -/
def run (σ : Callers ι) : List ι → Option (Except String (Callers ι))
  | [] => some (.ok σ)
  | i :: is => (σ.step i).bind fun
    | .ok σ' => σ'.run is
    | .error e => some (.error e)

/-- The kernel at boot, each caller about to start its program: `dmem` is zero, so
`dmem.start` is null; `next` is `1`; nothing is held. -/
def boot (progs : ι → Prog) (mem : ℕ → DHeader) : Callers ι := ⟨⟨0, mem⟩, 1, progs, []⟩

/-- The states some interleaving of the callers' steps reaches. -/
inductive Reachable (σ₀ : Callers ι) : Callers ι → Prop
  | refl : Reachable σ₀ σ₀
  | step {σ σ' : Callers ι} {i : ι} : Reachable σ₀ σ → σ.step i = some (.ok σ') →
      Reachable σ₀ σ'

/-- The states reached by interleavings in which no caller takes `dinit` while an
allocation is held. -/
inductive QuietReachable (σ₀ : Callers ι) : Callers ι → Prop
  | refl : QuietReachable σ₀ σ₀
  | step {σ σ' : Callers ι} {i : ι} : QuietReachable σ₀ σ →
      ((σ.progs i).isInit = true → σ.live = []) → σ.step i = some (.ok σ') →
      QuietReachable σ₀ σ'

/-! ### Runs of a schedule -/

theorem Reachable.of_run {σ₀ σ σ' : Callers ι} {l : List ι} (hσ : Reachable σ₀ σ)
    (h : σ.run l = some (.ok σ')) : Reachable σ₀ σ' := by
  induction l generalizing σ with
  | nil =>
    simp only [run, Option.some.injEq, Except.ok.injEq] at h
    exact h ▸ hσ
  | cons i is ih =>
    cases hs : σ.step i with
    | none => simp [run, hs] at h
    | some r =>
      cases r with
      | error e => simp [run, hs] at h
      | ok σ₁ =>
        simp only [run, hs, Option.bind_some] at h
        exact ih (hσ.step hs) h

/-- A schedule whose run ends in a state passing the test `P` reaches such a state. -/
theorem exists_reachable_of_run (σ₀ : Callers ι) (l : List ι) {P : Callers ι → Bool}
    (h : ((σ₀.run l).bind Except.toOption).any P = true) :
    ∃ σ, Reachable σ₀ σ ∧ P σ = true := by
  cases hr : σ₀.run l with
  | none => simp [hr] at h
  | some r =>
    cases r with
    | error e => simp [hr, Except.toOption] at h
    | ok σ =>
      simp only [hr, Option.bind_some, Except.toOption, Option.any_some] at h
      exact ⟨σ, Reachable.refl.of_run hr, h⟩

/-! ### Two callers of `memtest` interfere -/

/-- Whether a step ended in the panic of `dfree` for an address not on the list. -/
def invalidAddress : Option (Except String (Callers ι)) → Bool
  | some (.error msg) => msg == "dfree: Invalid address."
  | _ => false

omit [DecidableEq ι] in
theorem eq_of_invalidAddress {r : Option (Except String (Callers ι))}
    (h : invalidAddress r = true) : r = some (.error "dfree: Invalid address.") := by
  match r, h with
  | some (.error msg), h => simpa [invalidAddress] using h

/-- Two callers of `memtest`, from boot on zeroed memory. -/
def twoMemtests : Callers (Fin 2) := boot (fun _ => memtest) zeroMem.mem

/-- Caller `0` runs `memtest` up to its `dalloc(100)`, and then caller `1` does the same. -/
def traceSharedBlock : List (Fin 2) := [0, 0, 1, 1]

/-- Caller `0` runs `memtest` through the ten allocations of `random_test`; caller `1` then
takes its `dinit`, and caller `0` frees its first pointer. -/
def traceLostHeader : List (Fin 2) := List.replicate 29 0 ++ [1, 0]

/-- **Concurrent callers of `memtest` interfere.** A `dinit` of one caller while another
holds an allocation makes that allocation's block free again: the next `dalloc` hands the
same bytes to a second caller, and a `dfree` of a pointer the first caller holds may find
its header gone from the list and panic. -/
theorem callers_interfere :
    (∃ σ, Reachable twoMemtests σ ∧ ∃ e ∈ σ.live, ∃ e' ∈ σ.live, e.1 ≠ e'.1 ∧
        ¬ RangesDisjoint e.2.1 e.2.2.toNat e'.2.1 e'.2.2.toNat) ∧
    (∃ σ, Reachable twoMemtests σ ∧ ∃ p sz, (σ.progs 0).freeArg = some p ∧
        (0, p, sz) ∈ σ.live ∧ σ.step 0 = some (.error "dfree: Invalid address.")) := by
  constructor
  · obtain ⟨σ, hσ, hP⟩ := exists_reachable_of_run twoMemtests traceSharedBlock
      (P := fun σ => σ.live.any fun e => σ.live.any fun e' =>
        decide (e.1 ≠ e'.1 ∧ ¬ RangesDisjoint e.2.1 e.2.2.toNat e'.2.1 e'.2.2.toNat))
      (by decide +kernel)
    simp only [List.any_eq_true, decide_eq_true_eq] at hP
    obtain ⟨e, he, e', he', hne, hov⟩ := hP
    exact ⟨σ, hσ, e, he, e', he', hne, hov⟩
  · obtain ⟨σ, hσ, hP⟩ := exists_reachable_of_run twoMemtests traceLostHeader
      (P := fun σ => match (σ.progs 0).freeArg with
        | some p => σ.live.any (heldAt 0 p) && invalidAddress (σ.step 0)
        | none => false)
      (by decide +kernel)
    refine ⟨σ, hσ, ?_⟩
    -- the state reached is about to free a pointer it holds
    split at hP
    · rename_i p hp
      simp only [Bool.and_eq_true, List.any_eq_true] at hP
      obtain ⟨⟨⟨j, q, sz⟩, he, hheld⟩, hpanic⟩ := hP
      simp only [heldAt, decide_eq_true_eq] at hheld
      obtain ⟨rfl, rfl⟩ := hheld
      exact ⟨q, sz, hp, he, eq_of_invalidAddress hpanic⟩
    · exact absurd hP Bool.false_ne_true

/-! ### What a caller holds -/

@[simp] theorem heldBy_nil (i : ι) : heldBy [] i = fun _ => 0 := rfl

theorem heldBy_cons (e : ι × ℕ × UInt32) (live : List (ι × ℕ × UInt32)) (i : ι) (p : ℕ) :
    heldBy (e :: live) i p = heldBy live i p + if e.1 = i ∧ e.2.1 = p then 1 else 0 := by
  simp only [heldBy, List.countP_cons, heldAt, decide_eq_true_eq]

/-- A `dalloc` that answers `p` adds one allocation at `p` to its caller. -/
theorem heldBy_alloc_self (live : List (ι × ℕ × UInt32)) (i : ι) (p : ℕ) (size : UInt32) :
    heldBy (if p = 0 then live else (i, p, size) :: live) i = hold (heldBy live i) p := by
  funext x
  rw [hold_apply]
  by_cases hp : p = 0
  · simp [hp]
  · rw [if_neg hp, heldBy_cons]
    by_cases hx : x = p
    · subst hx
      simp [hp]
    · simp [hx, Ne.symm hx]

theorem heldBy_alloc_of_ne (live : List (ι × ℕ × UInt32)) {i j : ι} (hji : j ≠ i) (p : ℕ)
    (size : UInt32) : heldBy (if p = 0 then live else (i, p, size) :: live) j = heldBy live j := by
  funext x
  split_ifs
  · rfl
  · simp [heldBy_cons, Ne.symm hji]

/-- Erasing the first allocation of caller `i` at `p` takes one from `i`'s count there, and
nothing from another caller's. -/
theorem heldBy_eraseP (live : List (ι × ℕ × UInt32)) {i : ι} {p : ℕ} {sz : UInt32}
    (hmem : (i, p, sz) ∈ live) (j : ι) (x : ℕ) :
    heldBy (live.eraseP (heldAt i p)) j x =
      heldBy live j x - if i = j ∧ p = x then 1 else 0 := by
  obtain ⟨a, l₁, l₂, -, ha, rfl, he⟩ := List.exists_of_eraseP (p := heldAt i p) hmem
    (by simp [heldAt])
  simp only [heldAt, decide_eq_true_eq] at ha
  -- the erased entry is one of `i` at `p`
  have hax : heldAt j x a = decide (i = j ∧ p = x) := by simp only [heldAt, ha.1, ha.2]
  simp only [he, heldBy, List.countP_append, List.countP_cons, hax]
  by_cases hc : i = j ∧ p = x <;> simp [hc]

theorem heldBy_eraseP_self (live : List (ι × ℕ × UInt32)) {i : ι} {p : ℕ} {sz : UInt32}
    (hmem : (i, p, sz) ∈ live) (hp : p ≠ 0) :
    heldBy (live.eraseP (heldAt i p)) i = release (heldBy live i) p := by
  funext x
  rw [heldBy_eraseP live hmem, release_apply]
  by_cases hx : x = p
  · subst hx
    simp [hp]
  · simp [hx, Ne.symm hx]

theorem heldBy_eraseP_of_ne (live : List (ι × ℕ × UInt32)) {i j : ι} {p : ℕ} {sz : UInt32}
    (hmem : (i, p, sz) ∈ live) (hji : j ≠ i) :
    heldBy (live.eraseP (heldAt i p)) j = heldBy live j := by
  funext x
  rw [heldBy_eraseP live hmem]
  simp [Ne.symm hji]

/-- With distinct pointers, erasing the allocation of `i` at `p` from the ghost list erases
`(p, sz)` from the list of allocations the heap sees. -/
theorem map_snd_eraseP {live : List (ι × ℕ × UInt32)}
    (hnd : ((live.map Prod.snd).map Prod.fst).Nodup) {i : ι} {p : ℕ} {sz : UInt32}
    (hmem : (i, p, sz) ∈ live) :
    (live.eraseP (heldAt i p)).map Prod.snd = (live.map Prod.snd).erase (p, sz) := by
  induction live with
  | nil => simp at hmem
  | cons e rest ih =>
    obtain ⟨j, q, sq⟩ := e
    simp only [List.map_cons, List.nodup_cons, List.mem_map, Prod.exists] at hnd
    obtain ⟨hq, hnd⟩ := hnd
    -- the pointer `q` of the head occurs nowhere after it
    have hq' : ∀ j' s', (j', q, s') ∉ rest := fun j' s' h => hq ⟨q, s', ⟨j', by simpa using h⟩, rfl⟩
    rcases List.mem_cons.mp hmem with he | hrest
    · simp only [Prod.mk.injEq] at he
      obtain ⟨rfl, rfl, rfl⟩ := he
      simp [heldAt]
    · have hqp : q ≠ p := fun e => hq' i sz (e ▸ hrest)
      rw [List.eraseP_cons_of_neg (by simp [heldAt, hqp]), List.map_cons, List.map_cons,
        List.erase_cons_tail (by simp [hqp]), ih (by simpa using hnd) hrest]

/-! ### The invariant of quiet interleavings -/

/-- The invariant of a quiet interleaving from boot: the heap is still the empty list of
boot with nothing held, or it holds a block list of the run invariant whose live
allocations are those of all callers together; and each caller keeps to its discipline
over what it holds. -/
structure Inv (σ : Callers ι) : Prop where
  heap : (Holds σ.heap [] ∧ σ.live = []) ∨ ∃ bs, RunInv σ.heap (σ.live.map Prod.snd) bs
  disciplined : ∀ i, Disciplined (σ.progs i) (heldBy σ.live i)

theorem inv_boot (progs : ι → Prog) (mem : ℕ → DHeader)
    (hprogs : ∀ i, Disciplined (progs i) fun _ => 0) : Inv (boot progs mem) :=
  ⟨.inl ⟨⟨.nil 0, rfl⟩, rfl⟩, hprogs⟩

/-- A step of caller `i` keeps the discipline of every caller when the new program of `i`
keeps it and the holdings of the others do not change. -/
theorem disciplined_update {progs : ι → Prog} {live live' : List (ι × ℕ × UInt32)}
    (hd : ∀ j, Disciplined (progs j) (heldBy live j)) (i : ι) {k : Prog}
    (hk : Disciplined k (heldBy live' i)) (hother : ∀ j, j ≠ i → heldBy live' j = heldBy live j) :
    ∀ j, Disciplined (Function.update progs i k j) (heldBy live' j) := by
  intro j
  by_cases hji : j = i
  · subst hji
    simpa using hk
  · rw [Function.update_of_ne hji, hother j hji]
    exact hd j

/-- The header `dfree(0)` looks for lies above every heap. -/
theorem null_header_not_mem {bs : List Block} (h : HeapInv bs) :
    (0 + 2 ^ 64 - headerSize) % 2 ^ 64 ∉ bs.map Block.addr := by
  intro hmem
  obtain ⟨b, hb, he⟩ := List.mem_map.mp hmem
  have hlt := lt_of_lt_of_le b.addr_lt_endAddr (h.tiles.bounds.2 b hb).2
  have : phystop < (0 + 2 ^ 64 - headerSize) % 2 ^ 64 := by decide
  omega

section Steps

variable {σ : Callers ι} {i : ι}

theorem Inv.init_step (h : Inv σ) {k : Prog} (hk : σ.progs i = .init k) (hlive : σ.live = []) :
    Inv { σ with heap := dinit σ.heap, progs := Function.update σ.progs i k } := by
  refine ⟨.inr ⟨[initBlock], ?_⟩, ?_⟩
  · rw [hlive]
    exact runInv_init σ.heap
  · have hi := h.disciplined i
    rw [hk] at hi
    exact disciplined_update h.disciplined i hi fun _ _ => rfl

theorem Inv.alloc_step (h : Inv σ) {size : UInt32} {k : ℕ → Prog}
    (hk : σ.progs i = .alloc size k) {heap : DMem} {p : ℕ}
    (hrun : dalloc σ.heap size = some (heap, p)) :
    Inv { σ with
      heap := heap
      progs := Function.update σ.progs i (k p)
      live := if p = 0 then σ.live else (i, p, size) :: σ.live } := by
  have hi := h.disciplined i
  rw [hk] at hi
  obtain ⟨hsize, hk'⟩ := hi
  have hdisc := disciplined_update h.disciplined i
    (by rw [heldBy_alloc_self]; exact hk' p) fun j hji => heldBy_alloc_of_ne σ.live hji p size
  rcases h.heap with ⟨hnil, hlive⟩ | ⟨bs, hinv⟩
  · -- before the first `dinit` the list is empty and `dalloc` finds nothing
    obtain ⟨s', hrun', hs', -⟩ := dalloc_holds hnil (by decide) size (fun _ hb => absurd hb (by simp))
    rw [hrun] at hrun'
    obtain ⟨rfl, rfl⟩ := Prod.mk.inj (Option.some.inj hrun')
    exact ⟨.inl ⟨hs', by simp [allocList, hlive]⟩, hdisc⟩
  · obtain ⟨s', hrun', hinv', -⟩ := hinv.dalloc hsize
    rw [hrun] at hrun'
    obtain ⟨rfl, hp⟩ := Prod.mk.inj (Option.some.inj hrun')
    rw [← hp] at hinv'
    -- the heap sees the new allocation as `afterAlloc` adds it
    have hlive : (if p = 0 then σ.live else (i, p, size) :: σ.live).map Prod.snd =
        afterAlloc (σ.live.map Prod.snd) p size := by
      by_cases hp0 : p = 0 <;> simp [afterAlloc, hp0]
    exact ⟨.inr ⟨_, by rw [hlive]; exact hinv'⟩, hdisc⟩

theorem Inv.free_step (h : Inv σ) {p : ℕ} {k : Prog} (hk : σ.progs i = .free p k) {heap : DMem}
    (hrun : dfree σ.heap p = some (.ok heap)) :
    Inv { σ with
      heap := heap
      progs := Function.update σ.progs i k
      live := σ.live.eraseP (heldAt i p) } := by
  have hi := h.disciplined i
  rw [hk] at hi
  obtain ⟨hheld, hk'⟩ := hi
  rcases h.heap with ⟨hnil, -⟩ | ⟨bs, hinv⟩
  · -- before the first `dinit` every `dfree` panics
    exact absurd (hnil.mem_of_dfree_ok (by decide) hrun) (by simp)
  · have hp0 : p ≠ 0 := by
      rintro rfl
      exact null_header_not_mem hinv.heapInv (hinv.holds.mem_of_dfree_ok hinv.heapInv.length_lt hrun)
    -- so the caller holds an allocation at `p`
    obtain ⟨⟨j, q, sz⟩, hmem, hjq⟩ := List.countP_pos_iff.mp (hheld.resolve_left hp0)
    simp only [heldAt, decide_eq_true_eq] at hjq
    obtain ⟨rfl, rfl⟩ := hjq
    obtain ⟨s', bs', hrun', hinv', -⟩ :=
      hinv.dfree (List.mem_map.mpr ⟨(j, q, sz), hmem, rfl⟩ : (q, sz) ∈ σ.live.map Prod.snd)
    rw [hrun] at hrun'
    cases hrun'
    refine ⟨.inr ⟨bs', ?_⟩, ?_⟩
    · rw [map_snd_eraseP hinv.liveMatch.nodup hmem]
      exact hinv'
    · exact disciplined_update h.disciplined j
        (by rw [heldBy_eraseP_self σ.live hmem hp0]; exact hk')
        fun j' hj' => heldBy_eraseP_of_ne σ.live hmem hj'

/-- `srand` and `rand` change neither the heap nor the holdings. -/
theorem Inv.local_step (h : Inv σ) {k : Prog} (hk : Disciplined k (heldBy σ.live i))
    (next : UInt64) : Inv { σ with next, progs := Function.update σ.progs i k } :=
  ⟨h.heap, disciplined_update h.disciplined i hk fun _ _ => rfl⟩

/-- **A quiet step keeps the invariant.** -/
theorem Inv.step (h : Inv σ) (hquiet : (σ.progs i).isInit = true → σ.live = [])
    {σ' : Callers ι} (hstep : σ.step i = some (.ok σ')) : Inv σ' := by
  have hi := h.disciplined i
  unfold Callers.step at hstep
  cases hk : σ.progs i with
  | done =>
    simp only [hk, Option.some.injEq, Except.ok.injEq] at hstep
    exact hstep ▸ h
  | init k =>
    simp only [hk, Option.some.injEq, Except.ok.injEq] at hstep
    exact hstep ▸ h.init_step hk (hquiet (by simp [hk, Prog.isInit]))
  | alloc size k =>
    simp only [hk, Option.map_eq_some_iff, Except.ok.injEq] at hstep
    obtain ⟨⟨heap, p⟩, hrun, rfl⟩ := hstep
    exact h.alloc_step hk hrun
  | free p k =>
    simp only [hk, Option.map_eq_some_iff] at hstep
    obtain ⟨r, hrun, hr⟩ := hstep
    cases r with
    | error e => cases hr
    | ok heap =>
      cases hr
      exact h.free_step hk hrun
  | srand seed k =>
    simp only [hk, Option.some.injEq, Except.ok.injEq] at hstep
    rw [hk] at hi
    exact hstep ▸ h.local_step (k := k) hi seed
  | rand k =>
    simp only [hk, Option.some.injEq, Except.ok.injEq] at hstep
    rw [hk] at hi
    exact hstep ▸ h.local_step (k := k _) (hi _) _

end Steps

theorem Inv.quietReachable {σ₀ σ : Callers ι} (h₀ : Inv σ₀) (hσ : QuietReachable σ₀ σ) :
    Inv σ := by
  induction hσ with
  | refl => exact h₀
  | step _ hquiet hstep ih => exact ih.step hquiet hstep

/-! ### Isolation under quiet interleavings -/

/-- In a state of the invariant a caller's `dalloc` returns, with a block that meets no
live allocation of any caller. -/
theorem Inv.alloc_apart {σ : Callers ι} (h : Inv σ) {i : ι} {size : UInt32} {k : ℕ → Prog}
    (hk : σ.progs i = .alloc size k) :
    ∃ heap p, dalloc σ.heap size = some (heap, p) ∧
      (p ≠ 0 → ∀ j q sq, (j, q, sq) ∈ σ.live → RangesDisjoint p size.toNat q sq.toNat) := by
  have hi := h.disciplined i
  rw [hk] at hi
  rcases h.heap with ⟨hnil, -⟩ | ⟨bs, hinv⟩
  · obtain ⟨s', hrun, -, -⟩ := dalloc_holds hnil (by decide) size (fun _ hb => absurd hb (by simp))
    exact ⟨s', 0, hrun, fun h0 => absurd rfl h0⟩
  · obtain ⟨s', hrun, -, -⟩ := hinv.dalloc hi.1
    refine ⟨s', _, hrun, fun hp j q sq hq => ?_⟩
    exact hinv.dalloc_apart hi.1 hrun hp q sq (List.mem_map.mpr ⟨(j, q, sq), hq, rfl⟩)

/-- In a state of the invariant a caller's `dfree` of a pointer it holds does not panic. -/
theorem Inv.free_ok {σ : Callers ι} (h : Inv σ) {i : ι} {p : ℕ} {sz : UInt32}
    (hmem : (i, p, sz) ∈ σ.live) : ∃ heap, dfree σ.heap p = some (.ok heap) := by
  rcases h.heap with ⟨-, hlive⟩ | ⟨bs, hinv⟩
  · simp [hlive] at hmem
  · obtain ⟨s', -, hrun, -, -⟩ := hinv.dfree (List.mem_map.mpr ⟨(i, p, sz), hmem, rfl⟩)
    exact ⟨s', hrun⟩

/-- **Callers of `memtest` are isolated when no `dinit` falls while an allocation is
held.** For any number of callers, from boot on any memory, and any interleaving in which
`dinit` is only taken while nothing is held: every caller's `dalloc` returns, with a block
that meets no allocation held by any caller, and every `dfree` of a pointer its caller
holds returns without a panic. -/
theorem quiet_callers_isolated {mem : ℕ → DHeader} {σ : Callers ι}
    (hσ : QuietReachable (boot (fun _ => memtest) mem) σ) (i : ι) :
    (∀ size k, σ.progs i = .alloc size k → ∃ heap p, dalloc σ.heap size = some (heap, p) ∧
        (p ≠ 0 → ∀ j q sq, (j, q, sq) ∈ σ.live → RangesDisjoint p size.toNat q sq.toNat)) ∧
    (∀ p k sz, σ.progs i = .free p k → (i, p, sz) ∈ σ.live →
        ∃ heap, dfree σ.heap p = some (.ok heap)) := by
  have h := (inv_boot _ mem fun _ => memtest_disciplined _).quietReachable hσ
  exact ⟨fun _ _ hk => h.alloc_apart hk, fun _ _ _ _ hmem => h.free_ok hmem⟩

/-! ### A quiet interleaving -/

/-- One step of caller `i` in a quiet interleaving: `none` for a `dinit` while an allocation
is held, and for a step that runs out of fuel or panics. -/
def quietStep (σ : Callers ι) (i : ι) : Option (Callers ι) :=
  if (σ.progs i).isInit && !σ.live.isEmpty then none else (σ.step i).bind Except.toOption

theorem QuietReachable.quietStep {σ₀ σ σ' : Callers ι} {i : ι} (hσ : QuietReachable σ₀ σ)
    (h : σ.quietStep i = some σ') : QuietReachable σ₀ σ' := by
  rw [Callers.quietStep] at h
  split_ifs at h with hinit
  obtain ⟨r, hr, hok⟩ := Option.bind_eq_some_iff.mp h
  -- the step returned a state, so it was no panic
  cases r with
  | error msg => exact absurd hok (by simp [Except.toOption])
  | ok σ₁ =>
    obtain rfl : σ₁ = σ' := Option.some.inj hok
    refine hσ.step (fun hi => ?_) hr
    simpa [hi] using hinit

/-- Caller `1` takes its `dinit`, then caller `0` its `dinit` and its `dalloc(100)`. -/
def quietTrace : List (Fin 2) := [1, 0, 0]

/-- The state `quietTrace` reaches: caller `0` holds a block, and caller `1` is about to call
`dalloc(100)`. -/
def quietHeld : Callers (Fin 2) := (Replay.replay quietStep twoMemtests quietTrace).getD twoMemtests

theorem quiet_callers_isolated_held :
    QuietReachable twoMemtests quietHeld ∧
      (∀ size k, quietHeld.progs 1 = .alloc size k →
        ∃ heap p, dalloc quietHeld.heap size = some (heap, p) ∧
          (p ≠ 0 → ∀ j q sq, (j, q, sq) ∈ quietHeld.live →
            RangesDisjoint p size.toNat q sq.toNat)) ∧
      (∀ p k sz, quietHeld.progs 1 = .free p k → (1, p, sz) ∈ quietHeld.live →
        ∃ heap, dfree quietHeld.heap p = some (.ok heap)) :=
  have h : QuietReachable twoMemtests quietHeld :=
    Replay.getD_replay (QuietReachable twoMemtests) (fun _ _ _ => QuietReachable.quietStep)
      QuietReachable.refl (by decide +kernel)
  ⟨h, quiet_callers_isolated h 1⟩

-- caller `0` holds its `dalloc(100)`, and caller `1` is at an allocation of its own
example : quietHeld.live.map (·.1) = [0] ∧
    (match quietHeld.progs 1 with | .alloc size _ => size == 100 | _ => false) = true := by
  decide +kernel

end Callers

end Xv6Lab.Dalloc
