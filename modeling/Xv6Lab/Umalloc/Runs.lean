import Xv6Lab.Umalloc.Heap
import Xv6Lab.Lib.Replay

/-!
# Runs of the user allocator

A run is any sequence of `malloc(n)` with `n < maxRequest` and `free(p)` of a pointer that
`malloc` returned and that is not yet freed, each `sbrk` succeeding or failing as the kernel
decides. The kernel backs every page it grows a process by with physical memory, so a run stays
within `sizeLimit`. Along every such run the free-list invariant `UInv` holds after the first
`malloc` (`reachable_runInv`), and neither call gets stuck: `free` of a live pointer returns, and
so does `malloc` when `sbrk` fails or has room for the largest request.
-/

namespace Xv6Lab.Umalloc

open ListSeg

/-- The states of a run, with the allocations live in them. The process starts with `freep = 0`
and with `base`, a static header, in its data below the break. -/
inductive Reachable (base : ℕ) : UMem → List (ℕ × UInt32) → Prop
  | init {s : UMem} : s.freep = 0 → base ≠ 0 → base + hdrSize ≤ s.sz → s.sz ≤ sizeLimit →
      Reachable base s []
  | malloc {s s' : UMem} {live : List (ℕ × UInt32)} {n : UInt32} {ok : Bool} {r : ℕ} :
      Reachable base s live → n.toNat < maxRequest → Umalloc.malloc base s n ok = some (s', r) →
      s'.sz ≤ sizeLimit → Reachable base s' (afterMalloc live r n)
  | free {s s' : UMem} {live : List (ℕ × UInt32)} {a : ℕ × UInt32} :
      Reachable base s live → a ∈ live → Umalloc.free s a.1 = some s' →
      Reachable base s' (live.erase a)

/-- What every state of a run satisfies: no `malloc` has run yet, or the invariant holds. -/
def RunInv (base : ℕ) (s : UMem) (live : List (ℕ × UInt32)) : Prop :=
  (s.freep = 0 ∧ live = [] ∧ base ≠ 0 ∧ base + hdrSize ≤ s.sz ∧ s.sz ≤ sizeLimit) ∨
    ∃ fs, UInv base s live fs

namespace RunInv

variable {base : ℕ} {s s' : UMem} {live : List (ℕ × UInt32)}

/-- `malloc` runs its loop on a state of the invariant: the one its first call builds, or the
state itself. -/
theorem ready (h : RunInv base s live) :
    ∃ s₀ fs, UInv base s₀ live fs ∧ s₀.sz = s.sz ∧ ∀ n ok,
      malloc base s n ok = mallocLoop (nunitsFor n) ok loopFuel s₀ s₀.freep (s₀.mem s₀.freep).ptr := by
  rcases h with ⟨hfp, rfl, hb0, hbrk, hlim⟩ | ⟨fs, h⟩
  · obtain ⟨s₀, h₀, hsz, heq⟩ := uinv_first hfp hb0 hbrk hlim
    exact ⟨s₀, [], h₀, hsz, heq⟩
  · exact ⟨s, fs, h, rfl, fun _ _ => h.malloc_eq⟩

theorem malloc {n : UInt32} {ok : Bool} {r : ℕ} (h : RunInv base s live) (hn : n.toNat < maxRequest)
    (hrun : Umalloc.malloc base s n ok = some (s', r)) (hlim : s'.sz ≤ sizeLimit) :
    RunInv base s' (afterMalloc live r n) := by
  obtain ⟨s₀, fs, h₀, -, heq⟩ := h.ready
  rw [heq] at hrun
  exact .inr (h₀.mallocLoop_inv hn hrun hlim)

theorem free {a : ℕ × UInt32} (h : RunInv base s live) (ha : a ∈ live)
    (hrun : Umalloc.free s a.1 = some s') : RunInv base s' (live.erase a) := by
  rcases h with ⟨-, rfl, -⟩ | ⟨fs, h⟩
  · exact absurd ha List.not_mem_nil
  · obtain ⟨s'', fs', hfree, h'⟩ := h.free ha
    rw [hrun] at hfree
    exact .inr ⟨fs', Option.some.inj hfree ▸ h'⟩

/-- `malloc` returns, within `sizeLimit`, when `sbrk` fails or has room for the largest
request. -/
theorem malloc_returns {n : UInt32} {ok : Bool} (h : RunInv base s live) (hn : n.toNat < maxRequest)
    (hroom : ok = false ∨ s.sz + 2 ^ 31 ≤ sizeLimit) :
    ∃ s' r, Umalloc.malloc base s n ok = some (s', r) ∧ s'.sz ≤ sizeLimit := by
  obtain ⟨s₀, fs, h₀, hsz, heq⟩ := h.ready
  rw [heq n ok]
  exact h₀.mallocLoop_returns hn (hsz ▸ hroom)

theorem free_returns {a : ℕ × UInt32} (h : RunInv base s live) (ha : a ∈ live) :
    ∃ s', Umalloc.free s a.1 = some s' := by
  rcases h with ⟨-, rfl, -⟩ | ⟨fs, h⟩
  · exact absurd ha List.not_mem_nil
  · obtain ⟨s', -, hfree, -⟩ := h.free ha
    exact ⟨s', hfree⟩

end RunInv

/-- The run lemma: every state of a run satisfies `RunInv`. -/
theorem reachable_runInv {base : ℕ} {s : UMem} {live : List (ℕ × UInt32)}
    (h : Reachable base s live) : RunInv base s live := by
  induction h with
  | init hfp hb0 hbrk hlim => exact .inl ⟨hfp, rfl, hb0, hbrk, hlim⟩
  | malloc _ hn hrun hlim ih => exact ih.malloc hn hrun hlim
  | free _ ha hrun ih => exact ih.free ha hrun

/-- The free list and the live allocations as the state holds them: a ring from `base` through
the free blocks and back, in increasing address order so that its one wrap is the step back to
`base`; each block's header holding its size; the blocks disjoint and coalesced, each ending
strictly before the next begins; and each live allocation's header just below its pointer, with
room for the bytes asked for, apart from every free block and every other live allocation. -/
def FreeListSpec (base : ℕ) (s : UMem) (live : List (ℕ × UInt32)) (fs : List Block) : Prop :=
  Path Header.ptr 0 s.mem base (base :: fs.map Block.addr) base ∧
  s.freep ∈ base :: fs.map Block.addr ∧
  (base :: fs.map Block.addr).Pairwise (· < ·) ∧
  (∀ c ∈ fs, (s.mem c.addr).size.toNat = c.units ∧ 0 < c.units) ∧
  fs.Pairwise Block.Before ∧
  (∀ a ∈ live, a.1 = (liveBlock a).addr + hdrSize ∧
    (s.mem (liveBlock a).addr).size = nunitsFor a.2 ∧
    a.2.toNat ≤ hdrSize * ((liveBlock a).units - 1) ∧
    ∀ c ∈ fs, (liveBlock a).Apart c) ∧
  (∀ a ∈ live, ∀ a' ∈ live, a ≠ a' → (liveBlock a).Apart (liveBlock a'))

theorem UInv.spec {base : ℕ} {s : UMem} {live : List (ℕ × UInt32)} {fs : List Block}
    (h : UInv base s live fs) : FreeListSpec base s live fs :=
  ⟨h.ring.path, h.freep, h.shape.cells_sorted,
    fun c hc => ⟨h.ring.links.size c hc, h.shape.pos c hc⟩, h.shape.sorted,
    fun a ha => ⟨h.ptr_eq ha, h.header a ha, h.room ha, h.apart_free a ha⟩,
    fun _ ha _ ha' hne => h.live_apart ha ha' hne⟩

/-- Along every run of `malloc` and `free`, the free list is a sorted, disjoint, coalesced ring
through `base` once the first `malloc` has built it, every live allocation is apart from the
free blocks and from the others and has room for its request, and neither call gets stuck. -/
theorem umalloc_runs_keep_free_list {base : ℕ} {s : UMem} {live : List (ℕ × UInt32)}
    (h : Reachable base s live) :
    ((s.freep = 0 ∧ live = []) ∨ ∃ fs, FreeListSpec base s live fs) ∧
    (∀ a ∈ live, ∃ s', free s a.1 = some s') ∧
    (∀ n ok, n.toNat < maxRequest → (ok = false ∨ s.sz + 2 ^ 31 ≤ sizeLimit) →
      ∃ s' r, malloc base s n ok = some (s', r) ∧ s'.sz ≤ sizeLimit) := by
  have hinv := reachable_runInv h
  refine ⟨?_, fun a ha => hinv.free_returns ha, fun n ok hn hroom => hinv.malloc_returns hn hroom⟩
  rcases hinv with ⟨hfp, hlive, -⟩ | ⟨fs, hfs⟩
  · exact .inl ⟨hfp, hlive⟩
  · exact .inr ⟨fs, hfs.spec⟩

/-! ### Replaying calls -/

/-- A call of a run: `malloc(nbytes)` with `sbrk` succeeding or not, or `free(ap)`. -/
inductive UCall
  | malloc (nbytes : UInt32) (ok : Bool)
  | free (ap : ℕ)

/-- One call on the state and its live allocations; `none` for a call a run does not make (a
request of `maxRequest` or more, a pointer that is not live, a break past `sizeLimit`) or one
that does not return. -/
def callStep (base : ℕ) (σ : UMem × List (ℕ × UInt32)) : UCall → Option (UMem × List (ℕ × UInt32))
  | .malloc n ok =>
    if n.toNat < maxRequest then
      (malloc base σ.1 n ok).bind fun r =>
        if r.1.sz ≤ sizeLimit then some (r.1, afterMalloc σ.2 r.2 n) else none
    else none
  | .free ap =>
    (σ.2.find? fun a => a.1 = ap).bind fun a => (free σ.1 a.1).map fun s' => (s', σ.2.erase a)

/-- A call a run makes is a step of `Reachable`. -/
theorem Reachable.callStep {base : ℕ} {σ σ' : UMem × List (ℕ × UInt32)} {c : UCall}
    (hσ : Reachable base σ.1 σ.2) (h : callStep base σ c = some σ') : Reachable base σ'.1 σ'.2 := by
  cases c with
  | malloc n ok =>
    rw [Umalloc.callStep] at h
    split_ifs at h with hn
    obtain ⟨r, hr, h⟩ := Option.bind_eq_some_iff.mp h
    split_ifs at h with hlim
    cases h
    exact hσ.malloc hn hr hlim
  | free ap =>
    rw [Umalloc.callStep] at h
    obtain ⟨a, ha, h⟩ := Option.bind_eq_some_iff.mp h
    obtain ⟨s', hs', rfl⟩ := Option.map_eq_some_iff.mp h
    exact hσ.free (List.mem_of_find?_eq_some ha) hs'

/-- `malloc(100)` and `malloc(20)`, each growing the heap by `sbrk`; `free` of the first;
`malloc(10)` with `sbrk` failing, served from the freed block; `free` of the second; and
`malloc(70000)`, larger than any free block, which grows the heap again. -/
def umallocCalls : List UCall :=
  [.malloc 100 true, .malloc 20 true, .free 65456, .malloc 10 false, .free 65408,
    .malloc 70000 true]

/-- The state these calls reach, with `base` at 16 and the break at 32. -/
def umallocState : UMem × List (ℕ × UInt32) :=
  (Replay.replay (callStep 16) (⟨fun _ => ⟨0, 0⟩, 0, 32⟩, []) umallocCalls).getD
    (⟨fun _ => ⟨0, 0⟩, 0, 32⟩, [])

theorem umalloc_runs_keep_free_list_calls :
    Reachable 16 umallocState.1 umallocState.2 ∧
      ((umallocState.1.freep = 0 ∧ umallocState.2 = []) ∨
        ∃ fs, FreeListSpec 16 umallocState.1 umallocState.2 fs) ∧
      (∀ a ∈ umallocState.2, ∃ s', free umallocState.1 a.1 = some s') ∧
      (∀ n ok, n.toNat < maxRequest → (ok = false ∨ umallocState.1.sz + 2 ^ 31 ≤ sizeLimit) →
        ∃ s' r, malloc 16 umallocState.1 n ok = some (s', r) ∧ s'.sz ≤ sizeLimit) :=
  have h : Reachable 16 umallocState.1 umallocState.2 :=
    Replay.getD_replay (fun σ : UMem × List (ℕ × UInt32) => Reachable 16 σ.1 σ.2)
      (fun _ _ _ => Reachable.callStep)
      (.init rfl (by decide) (by decide) (by decide)) (by decide +kernel)
  ⟨h, umalloc_runs_keep_free_list h⟩

example : umallocState.2 = [(65584, 70000), (65552, 10)] ∧ umallocState.1.sz = 135584 := by
  decide +kernel

end Xv6Lab.Umalloc
