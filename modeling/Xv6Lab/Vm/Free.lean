import Xv6Lab.Vm.Grow

/-!
# Freeing a page table: `freewalk` and `uvmfree`

`freewalk(pagetable)` runs over the 512 PTEs of a page-table page, frees the page table below
each PTE that points to one and clears that PTE, panics on a valid leaf, and last frees the
page itself. `uvmfree(pagetable, sz)` first unmaps and frees the user pages below
`PGROUNDUP(sz)`.

`Frees child pm₀ q S` says what a call on the page table at `q` does: from any memory that
holds the pages `S` as `pm₀` does, it pushes exactly those pages on the free list and writes
nothing else. The loop of `freewalk` takes that of the call on each of its entries to that of
the call on the page itself (`Frees.freewalk`), so the three levels of a tree follow one after
the other.

* `freewalk_tree` — on a tree with no valid leaf, `freewalk` of the root returns and frees
  exactly the pages of the tree, `tablePages`;
* `uvmfree_frees_all` — `uvmfree` of an address space returns every page it owned to the free
  list, once: the pages of the tree and the pages below `PGROUNDUP(sz)`.
-/

namespace Xv6Lab.Vm

open Kalloc

variable {kend : UInt64}

/-! ### What one call frees -/

/-- The pages the loop of `freewalk` frees at the entries `i, …, i + n - 1` when the subtree
below entry `j` has the pages `S j`, the last freed first, as `kfree` pushes them. -/
def freedFrom (S : ℕ → List ℕ) (i : ℕ) : ℕ → List ℕ
  | 0 => []
  | n + 1 => freedFrom S (i + 1) n ++ S i

theorem mem_freedFrom {S : ℕ → List ℕ} {q : ℕ} :
    ∀ {i n : ℕ}, q ∈ freedFrom S i n ↔ ∃ j, i ≤ j ∧ j < i + n ∧ q ∈ S j
  | i, 0 => ⟨fun h => absurd h List.not_mem_nil, fun ⟨_, h₁, h₂, _⟩ => absurd h₂ (by omega)⟩
  | i, n + 1 => by
    rw [freedFrom, List.mem_append, mem_freedFrom]
    constructor
    · rintro (⟨j, h₁, h₂, hq⟩ | hq)
      · exact ⟨j, by omega, by omega, hq⟩
      · exact ⟨i, le_rfl, by omega, hq⟩
    · rintro ⟨j, h₁, h₂, hq⟩
      by_cases hj : j = i
      · exact .inr (hj ▸ hq)
      · exact .inl ⟨j, by omega, by omega, hq⟩

theorem freedFrom_nil (i n : ℕ) : freedFrom (fun _ => []) i n = [] := by
  induction n generalizing i with
  | zero => rfl
  | succ n ih => rw [freedFrom, ih, List.append_nil]

section Frees

variable (kend)

/-- The call `child` on the page table at `q` frees its pages `S`, as memory `pm₀` holds
them: from any memory that agrees with `pm₀` on those pages and any free list without them,
it pushes exactly them on the free list, the last freed first, and writes only them. -/
def Frees (child : PhysMem → ℕ → Except String PhysMem) (pm₀ : PhysMem) (q : ℕ) (S : List ℕ) :
    Prop :=
  ∀ pm fl, Same (· ∉ S) pm₀ pm → FreeList kend pm fl → (∀ p ∈ S, p ∉ fl) →
    ∃ pm', child pm q = .ok pm' ∧ FreeList kend pm' (S ++ fl) ∧ Same (· ∈ S) pm pm'

/-- Entry `j` of the page-table page at `c`, as `pm₀` holds it: invalid, with nothing below
it, or pointing, as `entry q` does, at a page table `q` whose pages `S j` `child` frees. -/
def EntryFrees (child : PhysMem → ℕ → Except String PhysMem) (pm₀ : PhysMem) (c : ℕ)
    (S : ℕ → List ℕ) (j : ℕ) : Prop :=
  (pm₀.load (c + 8 * j) &&& pteV = 0 ∧ S j = []) ∨
    ∃ q, q ≠ 0 ∧ q % 4096 = 0 ∧ q < 2 ^ 64 ∧ pm₀.load (c + 8 * j) = entry q ∧
      Frees kend child pm₀ q (S j)

end Frees

/-- A pointer to a page table has no permission bits, so `freewalk` follows it. -/
theorem entry_and_rwx {q : ℕ} (hq : q ≠ 0) : entry q &&& (pteR ||| pteW ||| pteX) = 0 := by
  rw [entry, if_neg hq, pte_and _ _ _ (by decide) (by decide)]
  decide

/-! ### The loop over the entries -/

section Loop

variable {child : PhysMem → ℕ → Except String PhysMem} {pt : ℕ} {n i : ℕ} {pm : PhysMem}

theorem freewalkLoop_invalid (hv : pm.load (pt + 8 * i) &&& pteV = 0) :
    freewalkLoop child pt (n + 1) pm i = freewalkLoop child pt n pm (i + 1) := by
  rw [freewalkLoop, if_neg (fun h => h.1 hv), if_neg (not_not.mpr hv)]

theorem freewalkLoop_entry {q : ℕ} {pm₁ : PhysMem} (hq : q ≠ 0) (hal : q % 4096 = 0)
    (hlt : q < 2 ^ 64) (he : pm.load (pt + 8 * i) = entry q) (hc : child pm q = .ok pm₁) :
    freewalkLoop child pt (n + 1) pm i = freewalkLoop child pt n (pm₁.store (pt + 8 * i) 0) (i + 1) := by
  have hv : pm.load (pt + 8 * i) &&& pteV ≠ 0 := by
    rw [he]
    exact entry_and_pteV hq
  have hp : pm.load (pt + 8 * i) &&& (pteR ||| pteW ||| pteX) = 0 := by
    rw [he]
    exact entry_and_rwx hq
  rw [freewalkLoop, if_pos ⟨hv, hp⟩, he, pte2pa_entry hq hal hlt, hc]

end Loop

/-- **The loop of `freewalk`** over the entries `i, …` of the page at `c`, each of which frees
the pages below it: it returns with those pages on the free list and writes only them and `c`.
The memory it starts from agrees with `pm₀` on the pages still to be freed and on the entries
still to be read. -/
theorem freewalkLoop_spec {child : PhysMem → ℕ → Except String PhysMem} {pm₀ : PhysMem} {c : ℕ}
    {S : ℕ → List ℕ} (hc : c % 4096 = 0) (hS : ∀ j, j < 512 → EntryFrees kend child pm₀ c S j)
    (hcS : ∀ j, c ∉ S j) (hdisj : ∀ j k, j ≠ k → ∀ p ∈ S j, p ∉ S k) :
    ∀ n i, i + n = 512 → ∀ pm fl, Same (· ∉ freedFrom S i n) pm₀ pm →
      (∀ j, i ≤ j → j < 512 → pm.load (c + 8 * j) = pm₀.load (c + 8 * j)) →
      FreeList kend pm fl → (∀ p ∈ freedFrom S i n, p ∉ fl) → c ∉ fl →
      ∃ pm', freewalkLoop child c n pm i = .ok pm' ∧ FreeList kend pm' (freedFrom S i n ++ fl) ∧
        Same (fun q => q = c ∨ q ∈ freedFrom S i n) pm pm' := by
  intro n
  induction n with
  | zero =>
    intro i _ pm fl _ _ hf _ _
    exact ⟨pm, rfl, hf, (Same.refl _ pm).mono fun _ hq => hq⟩
  | succ n ih =>
    intro i hi pm fl hagree hwords hf hfl hcfl
    -- the pages below entry `i` are apart from those of the entries after it
    have hsub : ∀ p ∈ freedFrom S (i + 1) n, p ∈ freedFrom S i (n + 1) := fun p hp => by
      rw [freedFrom]
      exact List.mem_append_left _ hp
    have hout : ∀ p ∈ S i, p ∉ freedFrom S (i + 1) n := fun p hp hm => by
      obtain ⟨j, h₁, -, hj⟩ := mem_freedFrom.mp hm
      exact hdisj i j (by omega) p hp hj
    have hcF : c ∉ freedFrom S (i + 1) n := fun hm => by
      obtain ⟨j, -, -, hj⟩ := mem_freedFrom.mp hm
      exact hcS j hj
    have hload := hwords i le_rfl (by omega)
    rcases hS i (by omega) with ⟨hv, hnil⟩ | ⟨q, hq, hal, hlt, he, hfrees⟩
    · -- an invalid entry: nothing below it
      have hv' : pm.load (c + 8 * i) &&& pteV = 0 := by
        rw [hload]
        exact hv
      rw [freewalkLoop_invalid hv']
      have hF : freedFrom S i (n + 1) = freedFrom S (i + 1) n := by rw [freedFrom, hnil, List.append_nil]
      rw [hF] at hagree hfl ⊢
      exact ih (i + 1) (by omega) pm fl hagree (fun j h₁ h₂ => hwords j (by omega) h₂) hf hfl hcfl
    · -- a pointer: free the page table below it, then clear the entry
      obtain ⟨pm₁, hcall, hf₁, hs₁⟩ := hfrees pm fl
        (hagree.mono fun p hp hm => hp (by rw [freedFrom]; exact List.mem_append_right _ hm))
        hf (fun p hp => hfl p (by rw [freedFrom]; exact List.mem_append_right _ hp))
      have hw : (c + 8 * i) % 8 = 0 := entry_mod_eight hc
      have hpage : pageOf (c + 8 * i) = c := pageOf_entry hc (by omega)
      have hs₂ : Same (· = c) pm₁ (pm₁.store (c + 8 * i) 0) := by
        have := same_store pm₁ hw 0
        rwa [hpage] at this
      have hf₂ : FreeList kend (pm₁.store (c + 8 * i) 0) (S i ++ fl) :=
        hf₁.frame hs₂ (PhysMem.store_freelist _ _ _) fun p hp hpc => by
          rcases List.mem_append.mp hp with hp | hp
          · exact hcS i (hpc ▸ hp)
          · exact hcfl (hpc ▸ hp)
      obtain ⟨pm', hloop, hf', hs'⟩ := ih (i + 1) (by omega) (pm₁.store (c + 8 * i) 0) (S i ++ fl)
        (((hagree.trans hs₁).trans hs₂).mono fun p hp hm => by
          rcases hp with (hp | hp) | rfl
          · exact hp (hsub p hm)
          · exact hout p hp hm
          · exact hcF hm)
        (fun j h₁ h₂ => by
          have hst : (pm₁.store (c + 8 * i) 0).load (c + 8 * j) = pm₁.load (c + 8 * j) :=
            PhysMem.load_store_of_disjoint pm₁ 0 (.inl (by omega))
          rw [hst, hs₁.load (entry_mod_eight hc) (by rw [pageOf_entry hc h₂]; exact hcS i)]
          exact hwords j (by omega) h₂)
        hf₂
        (fun p hp hm => by
          rcases List.mem_append.mp hm with hm | hm
          · exact hout p hm hp
          · exact hfl p (hsub p hp) hm)
        (fun hm => by
          rcases List.mem_append.mp hm with hm | hm
          · exact hcS i hm
          · exact hcfl hm)
      refine ⟨pm', by rw [freewalkLoop_entry hq hal hlt (hload.trans he) hcall]; exact hloop, ?_, ?_⟩
      · rw [freedFrom, List.append_assoc]
        exact hf'
      · refine ((hs₁.trans hs₂).trans hs').mono fun p hp => ?_
        rw [freedFrom, List.mem_append]
        rcases hp with (hp | hp) | hp | hp
        · exact .inr (.inr hp)
        · exact .inl hp
        · exact .inl hp
        · exact .inr (.inl hp)

/-- **One level of `freewalk`.** When each entry of the page at `c` frees its page table,
`freewalk` frees them all and then `c`. -/
theorem Frees.freewalk {depth : ℕ} {pm₀ : PhysMem} {c : ℕ} {S : ℕ → List ℕ} (hc : Page kend c)
    (hS : ∀ j, j < 512 → EntryFrees kend (freewalk kend depth) pm₀ c S j)
    (hcS : ∀ j, c ∉ S j) (hdisj : ∀ j k, j ≠ k → ∀ p ∈ S j, p ∉ S k) :
    Frees kend (freewalk kend (depth + 1)) pm₀ c (c :: freedFrom S 0 512) := by
  intro pm fl hagree hf hfl
  have hcF : c ∉ freedFrom S 0 512 := fun hm => by
    obtain ⟨j, -, -, hj⟩ := mem_freedFrom.mp hm
    exact hcS j hj
  obtain ⟨pm₁, hloop, hf₁, hs₁⟩ := freewalkLoop_spec hc.aligned' hS hcS hdisj 512 0 rfl pm fl
    (hagree.mono fun p hp hm => hp (List.mem_cons_of_mem _ hm))
    (fun j _ hj => hagree.load (entry_mod_eight hc.aligned')
      (by rw [pageOf_entry hc.aligned' hj]; exact not_not.mpr List.mem_cons_self))
    hf (fun p hp => hfl p (List.mem_cons_of_mem _ hp)) (hfl c List.mem_cons_self)
  -- last the page itself
  obtain ⟨pm₂, hk, hf₂, hs₂⟩ := hf₁.kfree hc fun hm => by
    rcases List.mem_append.mp hm with hm | hm
    · exact hcF hm
    · exact hfl c List.mem_cons_self hm
  refine ⟨pm₂, by rw [Vm.freewalk, hloop]; exact hk, hf₂, (hs₁.trans hs₂).mono fun q hq => ?_⟩
  rcases hq with (rfl | hq) | rfl
  · exact List.mem_cons_self
  · exact List.mem_cons_of_mem _ hq
  · exact List.mem_cons_self

/-! ### The three levels of a tree -/

/-- The page below entry `j` of the level-1 page at root entry `i`, if any. -/
def lowPages (tab : Slot → ℕ) (i : Fin 512) (j : ℕ) : List ℕ :=
  if h : j < 512 then (if tab (.low i ⟨j, h⟩) = 0 then [] else [tab (.low i ⟨j, h⟩)]) else []

/-- The pages below root entry `i`, the last freed first. -/
def midPages (tab : Slot → ℕ) (i : ℕ) : List ℕ :=
  if h : i < 512 then
    (if tab (.mid ⟨i, h⟩) = 0 then [] else tab (.mid ⟨i, h⟩) :: freedFrom (lowPages tab ⟨i, h⟩) 0 512)
  else []

/-- The pages of the tree, in the order `freewalk` pushes them on the free list, the last
first. -/
def tablePages (tab : Slot → ℕ) : List ℕ := tab .root :: freedFrom (midPages tab) 0 512

/-- The slots under root entry `i`. -/
def Slot.Under (i : ℕ) : Slot → Prop
  | .root => False
  | .mid i' => i'.val = i
  | .low i' _ => i'.val = i

theorem mem_lowPages {tab : Slot → ℕ} {i : Fin 512} {j q : ℕ} (hq : q ∈ lowPages tab i j) :
    ∃ j' : Fin 512, tab (.low i j') ≠ 0 ∧ tab (.low i j') = q ∧ j'.val = j := by
  unfold lowPages at hq
  split_ifs at hq with hj hz
  · exact absurd hq List.not_mem_nil
  · exact ⟨⟨j, hj⟩, hz, (List.mem_singleton.mp hq).symm, rfl⟩
  · exact absurd hq List.not_mem_nil

theorem mem_midPages {tab : Slot → ℕ} {i q : ℕ} (hq : q ∈ midPages tab i) :
    ∃ s, s.Under i ∧ tab s ≠ 0 ∧ tab s = q := by
  unfold midPages at hq
  split_ifs at hq with hi hz
  · exact absurd hq List.not_mem_nil
  · rcases List.mem_cons.mp hq with rfl | hq
    · exact ⟨.mid ⟨i, hi⟩, rfl, hz, rfl⟩
    · obtain ⟨j, -, -, hj⟩ := mem_freedFrom.mp hq
      obtain ⟨j', hne, he, -⟩ := mem_lowPages hj
      exact ⟨.low ⟨i, hi⟩ j', rfl, hne, he⟩
  · exact absurd hq List.not_mem_nil

/-- Every page of the tree is among `tablePages`, and nothing else is. -/
theorem mem_tablePages {pm : PhysMem} {tab : Slot → ℕ} (h : Tree kend pm tab) {q : ℕ} :
    q ∈ tablePages tab ↔ IsTable tab q := by
  constructor
  · intro hq
    rcases List.mem_cons.mp hq with rfl | hq
    · exact isTable_of_ne _ h.root
    · obtain ⟨i, -, -, hi⟩ := mem_freedFrom.mp hq
      obtain ⟨s, -, hs, he⟩ := mem_midPages hi
      exact ⟨s, hs, he⟩
  · rintro ⟨s, hs, rfl⟩
    -- a page below the root is under one of its entries, whose level-1 page is there
    have hmid : ∀ i : Fin 512, tab (.mid i) ≠ 0 → tab (.mid i) :: freedFrom (lowPages tab i) 0 512 ⊆
        freedFrom (midPages tab) 0 512 := fun i hm p hp =>
      mem_freedFrom.mpr ⟨i.val, Nat.zero_le _, by omega, by
        rw [midPages, dif_pos i.isLt, if_neg hm]
        exact hp⟩
    cases s with
    | root => exact List.mem_cons_self
    | mid i => exact List.mem_cons_of_mem _ (hmid i hs List.mem_cons_self)
    | low i j =>
      refine List.mem_cons_of_mem _ (hmid i (h.parent i j hs) (List.mem_cons_of_mem _ ?_))
      exact mem_freedFrom.mpr ⟨j.val, Nat.zero_le _, by omega, by
        rw [lowPages, dif_pos j.isLt, if_neg hs]
        exact List.mem_singleton_self _⟩

section Levels

variable {pm₀ : PhysMem} {tab : Slot → ℕ}

/-- No level-0 page of the tree holds a valid PTE. -/
def NoLeaf (pm₀ : PhysMem) (tab : Slot → ℕ) : Prop :=
  ∀ i j, tab (.low i j) ≠ 0 → ∀ k, k < 512 → pm₀.load (tab (.low i j) + 8 * k) &&& pteV = 0

/-- A page with no valid PTE: `freewalk` frees it alone. -/
theorem frees_leafless {depth c : ℕ} (hc : Page kend c)
    (hinv : ∀ k, k < 512 → pm₀.load (c + 8 * k) &&& pteV = 0) :
    Frees kend (freewalk kend (depth + 1)) pm₀ c [c] := by
  have h : Frees kend (freewalk kend (depth + 1)) pm₀ c (c :: freedFrom (fun _ => []) 0 512) :=
    Frees.freewalk hc (fun k hk => .inl ⟨hinv k hk, rfl⟩) (fun _ => List.not_mem_nil)
      (fun _ _ _ _ hp => absurd hp List.not_mem_nil)
  rwa [freedFrom_nil] at h

theorem frees_mid {depth : ℕ} (h : Tree kend pm₀ tab) (hno : NoLeaf pm₀ tab) {i : Fin 512}
    (hm : tab (.mid i) ≠ 0) :
    Frees kend (freewalk kend (depth + 2)) pm₀ (tab (.mid i)) (midPages tab i) := by
  rw [midPages, dif_pos i.isLt, if_neg hm]
  refine Frees.freewalk (h.page _ hm) (fun j hj => ?_) (fun j hj => ?_) (fun j k hjk p hp hp' => ?_)
  · have hpte := h.midPte i ⟨j, hj⟩ hm
    by_cases hz : tab (.low i ⟨j, hj⟩) = 0
    · refine .inl ⟨by rw [hpte, hz, entry_zero]; rfl, ?_⟩
      rw [lowPages, dif_pos hj, if_pos hz]
    · have hp := h.page _ hz
      refine .inr ⟨_, hz, hp.aligned', hp.toNat_lt, hpte, ?_⟩
      rw [lowPages, dif_pos hj, if_neg hz]
      exact frees_leafless hp (hno i ⟨j, hj⟩ hz)
  · obtain ⟨j', hne, he, -⟩ := mem_lowPages hj
    exact absurd (h.inj _ _ hne he) (by simp)
  · obtain ⟨j₁, hne, rfl, rfl⟩ := mem_lowPages hp
    obtain ⟨j₂, -, he, rfl⟩ := mem_lowPages hp'
    have := h.inj _ _ hne he.symm
    simp only [Slot.low.injEq, true_and] at this
    exact hjk (congrArg Fin.val this)

/-- **`freewalk` of the root** frees the whole tree. -/
theorem frees_root (h : Tree kend pm₀ tab) (hno : NoLeaf pm₀ tab) :
    Frees kend (freewalk kend 3) pm₀ (tab .root) (tablePages tab) := by
  refine Frees.freewalk (h.page _ h.root) (fun i hi => ?_) (fun i hi => ?_) (fun i k hik p hp hp' => ?_)
  · have hpte := h.rootPte ⟨i, hi⟩
    by_cases hz : tab (.mid ⟨i, hi⟩) = 0
    · refine .inl ⟨by rw [hpte, hz, entry_zero]; rfl, ?_⟩
      rw [midPages, dif_pos hi, if_pos hz]
    · have hp := h.page _ hz
      exact .inr ⟨_, hz, hp.aligned', hp.toNat_lt, hpte, frees_mid h hno hz⟩
  · obtain ⟨s, hu, hne, he⟩ := mem_midPages hi
    cases h.inj _ _ hne he
    exact hu
  · obtain ⟨s, hu, hne, rfl⟩ := mem_midPages hp
    obtain ⟨s', hu', -, he⟩ := mem_midPages hp'
    cases h.inj _ _ hne he.symm
    cases s with
    | root => exact hu
    | mid i' => exact hik (hu.symm.trans hu')
    | low i' j' => exact hik (hu.symm.trans hu')

end Levels

/-- **`freewalk(pagetable)` on a tree with no valid leaf**: it returns, with exactly the pages
of the tree pushed on the free list. -/
theorem freewalk_tree {pm : PhysMem} {tab : Slot → ℕ} {fl : List ℕ} (h : Tree kend pm tab)
    (hf : FreeList kend pm fl) (ha : Apart tab fl) (hno : NoLeaf pm tab) :
    ∃ pm', freewalk kend 3 pm (tab .root) = .ok pm' ∧ FreeList kend pm' (tablePages tab ++ fl) := by
  obtain ⟨pm', hw, hf', -⟩ := frees_root h hno pm fl ((Same.refl _ pm).mono fun _ hq => hq) hf
    fun p hp hm => by
      obtain ⟨s, hs, rfl⟩ := (mem_tablePages h).mp hp
      exact ha s hs hm
  exact ⟨pm', hw, hf'⟩

/-! ### `uvmfree` -/

/-- Below `MAXVA` every entry of a level-0 page under the lower half of the root is the leaf
of some address. -/
theorem exists_va_of_slot (i j : Fin 512) {k : ℕ} (hi : i.val < 256) (hk : k < 512) :
    ∃ va, va < maxva ∧ leafSlot va = .low i j ∧ px 0 va = k := by
  obtain ⟨v, hv_def⟩ : ∃ v, v = (i.val * 512 + j.val) * 512 + k := ⟨_, rfl⟩
  have hv : v < 2 ^ 26 := by omega
  have hnat : (v * 4096).toUInt64.toNat = v * 4096 := by
    rw [Nat.toUInt64_eq, UInt64.toNat_ofNat', Nat.mod_eq_of_lt (show v * 4096 < 2 ^ 64 by omega)]
  have hvpn : vpn (v * 4096).toUInt64 = v := by
    rw [vpn, hnat]
    omega
  have hpx : ∀ l, l ≤ 2 → px l (v * 4096).toUInt64 = v / 512 ^ l % 512 := fun l hl => by
    rw [px_eq l hl, hvpn]
  refine ⟨(v * 4096).toUInt64, ?_, ?_, ?_⟩
  · rw [UInt64.lt_iff_toNat_lt, hnat, maxva_toNat]
    omega
  · simp only [leafSlot, Slot.low.injEq, Fin.ext_iff]
    rw [hpx 2 (by omega), hpx 1 (by omega)]
    omega
  · rw [hpx 0 (by omega)]
    omega

/-- A tree with no level-1 page above `MAXVA` and no valid leaf below it has no valid leaf. -/
theorem noLeaf_of_leaf {pm : PhysMem} {tab : Slot → ℕ} (h : Tree kend pm tab)
    (hhigh : ∀ i : Fin 512, 256 ≤ i.val → tab (.mid i) = 0)
    (hall : ∀ va, va < maxva → leaf pm tab va &&& pteV = 0) : NoLeaf pm tab := by
  intro i j hl k hk
  have hi : i.val < 256 := by
    by_contra hi
    exact h.parent i j hl (hhigh i (by omega))
  obtain ⟨va, hva, hslot, hpx⟩ := exists_va_of_slot i j hi hk
  have := hall va hva
  rwa [leaf, hslot, if_neg hl, hpx] at this

theorem vpn_zero : vpn 0 = 0 := rfl

/-- **`uvmfree(pagetable, sz)` of an address space** whose table has no level-1 page above
`MAXVA` and maps nothing from `TRAPFRAME` up, as after `proc_freepagetable` unmapped the
trampoline and the trapframe: it never panics, and the free list afterwards holds each page
once, exactly the pages that were free, the pages of the tree and the pages the leaves below
`PGROUNDUP(sz)` mapped. -/
theorem uvmfree_frees_all {pm : PhysMem} {tab : Slot → ℕ} {fl : List ℕ} {sz : UInt64}
    (h : AddrSpace kend pm tab fl sz) (hhigh : ∀ i : Fin 512, 256 ≤ i.val → tab (.mid i) = 0)
    (htop : ∀ va, trapframe ≤ va → va < maxva → leaf pm tab va &&& pteV = 0) :
    ∃ pm' l, uvmfree kend pm (tab .root) sz = .ok pm' ∧ FreeList kend pm' l ∧ l.Nodup ∧
      ∀ q, q ∈ l ↔ q ∈ fl ∨ IsTable tab q ∨
        ∃ va, va < maxva ∧ vpn va < vpn (pgroundup sz) ∧ q = target (leaf pm tab va) := by
  -- the leaves above the user pages are invalid
  have habove : ∀ va, va < maxva → vpn (pgroundup sz) ≤ vpn va → leaf pm tab va &&& pteV = 0 :=
    fun va hva hv => by
      by_cases ht : va < trapframe
      · exact h.unmapped va ht hv
      · exact htop va (UInt64.not_lt.mp ht) hva
  by_cases hsz : sz > 0
  · have hvsz := vpn_pgroundup_of_le h.sz_le
    have hsz_le := UInt64.le_iff_toNat_le.mp h.sz_le
    rw [trapframe_toNat] at hsz_le
    have hN : (pgroundup sz / pgsize).toNat = vpn (pgroundup sz) := by
      rw [UInt64.toNat_div, vpn]
      rfl
    obtain ⟨pm', freed, heq, hS, hmem, -, hleaf⟩ := h.unmap 0 (pgroundup sz / pgsize) rfl
      (by rw [hN, hvsz]; show 0 + 4096 * ((sz.toNat + 4095) / 4096) ≤ 2 ^ 38; omega)
      (fun va hva _ h₂ => h.user va hva (by rw [vpn_zero, hN] at h₂; omega))
    rw [vpn_zero, hN] at hmem hleaf
    -- every leaf is invalid now
    have hno := noLeaf_of_leaf hS.tree hhigh fun va hva => by
      rw [hleaf va hva]
      by_cases hin : 0 ≤ vpn va ∧ vpn va < 0 + vpn (pgroundup sz)
      · rw [if_pos hin]
        exact UInt64.zero_and
      · rw [if_neg hin]
        exact habove va hva (by omega)
    obtain ⟨pm'', hw, hf⟩ := freewalk_tree hS.tree hS.free hS.apart hno
    refine ⟨pm'', tablePages tab ++ (freed ++ fl), ?_, hf, hf.seg.nodup, fun q => ?_⟩
    · rw [uvmfree, if_pos hsz, heq]
      exact hw
    · rw [List.mem_append, List.mem_append, mem_tablePages hS.tree, hmem q]
      constructor
      · rintro (hq | ⟨va, hva, -, h₂, rfl⟩ | hq)
        · exact .inr (.inl hq)
        · exact .inr (.inr ⟨va, hva, by omega, rfl⟩)
        · exact .inl hq
      · rintro (hq | hq | ⟨va, hva, h₂, rfl⟩)
        · exact .inr (.inr hq)
        · exact .inl hq
        · exact .inr (.inl ⟨va, hva, Nat.zero_le _, by omega, rfl⟩)
  · -- a size of `0`: no user page, only the tree
    have hz : sz = 0 := by
      simp only [gt_iff_lt, UInt64.not_lt, UInt64.le_zero_iff] at hsz
      exact hsz
    subst hz
    have hno := noLeaf_of_leaf h.tree hhigh fun va hva => habove va hva (by
      rw [show vpn (pgroundup 0) = 0 from rfl]
      exact Nat.zero_le _)
    obtain ⟨pm', hw, hf⟩ := freewalk_tree h.tree h.free h.apart hno
    refine ⟨pm', tablePages tab ++ fl, ?_, hf, hf.seg.nodup, fun q => ?_⟩
    · rw [uvmfree, if_neg hsz]
      exact hw
    · rw [List.mem_append, mem_tablePages h.tree]
      constructor
      · rintro (hq | hq)
        · exact .inr (.inl hq)
        · exact .inl hq
      · rintro (hq | hq | ⟨va, -, h₂, -⟩)
        · exact .inr hq
        · exact .inl hq
        · exact absurd h₂ (Nat.not_lt_zero _)

/-- Above `TRAPFRAME` a tree with no level-1 page under root entry `255` has no valid leaf:
every such address has `PX(2, va) = 255`. -/
theorem leaf_above_trapframe {pm : PhysMem} {tab : Slot → ℕ} (h : Tree kend pm tab)
    (h255 : tab (.mid 255) = 0) {va : UInt64} (hlo : trapframe ≤ va) (hhi : va < maxva) :
    leaf pm tab va &&& pteV = 0 := by
  have hpx : px 2 va = 255 := by
    have h₁ := UInt64.le_iff_toNat_le.mp hlo
    have h₂ := UInt64.lt_iff_toNat_lt.mp hhi
    rw [trapframe_toNat] at h₁
    rw [maxva_toNat] at h₂
    rw [px_eq 2 (by omega), vpn, show (512 : ℕ) ^ 2 = 262144 from rfl]
    omega
  have hl : tab (leafSlot va) = 0 := by
    by_contra hl
    have hm : (⟨px 2 va, px_lt 2 va⟩ : Fin 512) = 255 := Fin.ext hpx
    exact h.parent _ _ hl (hm ▸ h255)
  rw [leaf, if_pos hl]
  exact UInt64.zero_and

/-- The process of two pages, freed. -/
theorem uvmfree_frees_all_twoPage :
    ∃ pm tab fl, AddrSpace kernelEnd pm tab fl 8192 ∧ fl ≠ [] ∧
      (∀ i : Fin 512, 256 ≤ i.val → tab (.mid i) = 0) ∧
      (∀ va, trapframe ≤ va → va < maxva → leaf pm tab va &&& pteV = 0) ∧
      ∃ pm' l, uvmfree kernelEnd pm (tab .root) 8192 = .ok pm' ∧ FreeList kernelEnd pm' l ∧
        l.Nodup ∧ ∀ q, q ∈ l ↔ q ∈ fl ∨ IsTable tab q ∨
          ∃ va, va < maxva ∧ vpn va < vpn (pgroundup 8192) ∧ q = target (leaf pm tab va) := by
  obtain ⟨pm, tab, q, t, h, -, hmid⟩ := twoPage_addrSpace
  have hhigh : ∀ i : Fin 512, 256 ≤ i.val → tab (.mid i) = 0 := fun i hi => hmid i (by omega)
  have htop : ∀ va, trapframe ≤ va → va < maxva → leaf pm tab va &&& pteV = 0 :=
    fun _ hlo hhi => leaf_above_trapframe h.tree (hmid 255 (by decide)) hlo hhi
  exact ⟨pm, tab, q :: t, h, List.cons_ne_nil q t, hhigh, htop, uvmfree_frees_all h hhigh htop⟩

end Xv6Lab.Vm
