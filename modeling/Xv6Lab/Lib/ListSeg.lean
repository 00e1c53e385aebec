import Mathlib.Logic.Function.Basic
import Mathlib.Data.List.Nodup
import Mathlib.Order.Defs.LinearOrder
import Mathlib.Order.Lattice
import Mathlib.Data.Set.Insert

/-!
# Linked lists in a store

A store `mem : α → β` holds cells, `next : β → α` reads the link out of a cell, and the
address `null` ends a list. `Path next null mem a as c` says that following the links from
`a` visits exactly the cells `as`, none of them `null`, and arrives at `c`; a list segment
`Seg` is a path that arrives at `null`.

This is the shape of every intrusive list whose headers live in the memory they manage:
the operations rewrite cells of the store, and what they do to the list is read back
through `Path`.

* `Seg.unique`, `Seg.nodup` — a null-terminated list is determined by its head and never
  visits a cell twice (it is finite, so it cannot be cyclic);
* `Path.frame` and friends — writing a cell off the path, or rewriting a cell on it
  without touching its link, leaves the path as it was;
* `Seg.insertAfter`, `Seg.removeAfter` — the two splices a block allocator makes: a new
  cell linked in after `x`, and the successor of `x` unlinked;
* `Path.rotate`, `Path.lt_next` — a cycle read from any of its cells, and the links of a
  path through increasing cells, each pointing forward;
* `firstCell` — the `while (curr != null)` search loop, run on a fuel budget, and
  `Seg.firstCell_eq`: on a list shorter than the fuel it is `List.find?`.
-/

namespace ListSeg

variable {α β : Type*} (next : β → α) (null : α)

/-- Following the links from `a` through `mem` visits the cells `as` and arrives at `c`. -/
inductive Path (mem : α → β) : α → List α → α → Prop
  | nil (a : α) : Path mem a [] a
  | cons {a c : α} {as : List α} : a ≠ null → Path mem (next (mem a)) as c →
      Path mem a (a :: as) c

/-- A null-terminated list: the path from `a` through `as` ends at `null`. -/
def Seg (mem : α → β) (a : α) (as : List α) : Prop := Path next null mem a as null

/-- `while (curr != null) { if (p curr) return curr; curr = curr->next; }`, for at most
`fuel` iterations: `none` when the fuel runs out, `some none` when the loop reaches `null`. -/
def firstCell [DecidableEq α] (p : α → β → Bool) : ℕ → (α → β) → α → Option (Option α)
  | 0, _, _ => none
  | fuel + 1, mem, a =>
    if a = null then some none
    else if p a (mem a) then some (some a)
    else firstCell p fuel mem (next (mem a))

variable {next null} {mem mem' : α → β}

@[simp] theorem path_nil_iff {a c : α} : Path next null mem a [] c ↔ a = c := by
  constructor
  · rintro ⟨⟩
    rfl
  · rintro rfl
    exact .nil a

theorem path_cons_iff {a b c : α} {as : List α} :
    Path next null mem a (b :: as) c ↔ a = b ∧ a ≠ null ∧ Path next null mem (next (mem a)) as c := by
  constructor
  · rintro (_ | ⟨hne, hrest⟩)
    exact ⟨rfl, hne, hrest⟩
  · rintro ⟨rfl, hne, hrest⟩
    exact .cons hne hrest

/-- Paths compose along an appended list of cells. -/
theorem path_append_iff {a c : α} {as bs : List α} :
    Path next null mem a (as ++ bs) c ↔ ∃ m, Path next null mem a as m ∧ Path next null mem m bs c := by
  induction as generalizing a with
  | nil => simp
  | cons x xs ih =>
    simp only [List.cons_append, path_cons_iff, ih]
    constructor
    · rintro ⟨rfl, hne, m, h1, h2⟩
      exact ⟨m, ⟨rfl, hne, h1⟩, h2⟩
    · rintro ⟨m, ⟨rfl, hne, h1⟩, h2⟩
      exact ⟨rfl, hne, m, h1, h2⟩

theorem Path.not_mem_null {a c : α} {as : List α} (h : Path next null mem a as c) : null ∉ as := by
  induction h with
  | nil => simp
  | cons hne _ ih =>
    simp only [List.mem_cons, not_or]
    exact ⟨fun h => hne h.symm, ih⟩

/-- Two paths from the same head that both stop at `null` visit the same cells. -/
theorem Path.unique_of_null {a c : α} {as bs : List α} (ha : Path next null mem a as c)
    (hc : c = null) (hb : Path next null mem a bs null) : as = bs := by
  induction ha generalizing bs with
  | nil =>
    subst hc
    cases hb with
    | nil => rfl
    | cons hne _ => exact absurd rfl hne
  | cons hne _ ih =>
    cases hb with
    | nil => exact absurd rfl hne
    | cons _ hrest => rw [ih hc hrest]

/-- Two null-terminated lists from the same head are the same list. -/
theorem Seg.unique {a : α} {as bs : List α} (ha : Seg next null mem a as)
    (hb : Seg next null mem a bs) : as = bs :=
  Path.unique_of_null ha rfl hb

/-- A path to `null` visits no cell twice: from a repeated cell the list would go on both
as the part after its first visit and as the (shorter) part after its second. -/
theorem Path.nodup_of_null {a c : α} {as : List α} (h : Path next null mem a as c)
    (hc : c = null) : as.Nodup := by
  induction h with
  | nil => exact List.nodup_nil
  | @cons a c as hne hrest ih =>
    subst hc
    refine List.nodup_cons.mpr ⟨fun hmem => ?_, ih rfl⟩
    obtain ⟨pre, post, rfl⟩ := List.append_of_mem hmem
    obtain ⟨m, _, hpost⟩ := path_append_iff.mp hrest
    obtain ⟨rfl, -, hpost'⟩ := path_cons_iff.mp hpost
    -- the list after `a` is both `pre ++ a :: post` and `post`
    have hsame : pre ++ m :: post = post := Seg.unique hrest hpost'
    have hlen := congrArg List.length hsame
    simp only [List.length_append, List.length_cons] at hlen
    omega

theorem Seg.nodup {a : α} {as : List α} (h : Seg next null mem a as) : as.Nodup :=
  Path.nodup_of_null h rfl

/-- The frame rule: a path only reads the cells it visits. -/
theorem Path.frame {a c : α} {as : List α} (h : Path next null mem a as c)
    (hagree : ∀ x ∈ as, next (mem' x) = next (mem x)) : Path next null mem' a as c := by
  induction h with
  | nil => exact .nil _
  | @cons a c as hne _ ih =>
    refine .cons hne ?_
    rw [hagree a List.mem_cons_self]
    exact ih fun x hx => hagree x (List.mem_cons_of_mem _ hx)

theorem Seg.frame {a : α} {as : List α} (h : Seg next null mem a as)
    (hagree : ∀ x ∈ as, next (mem' x) = next (mem x)) : Seg next null mem' a as :=
  Path.frame h hagree

/-- A list is empty exactly when its head is `null`; otherwise the head is its first cell. -/
theorem Seg.head_cases {a : α} {as : List α} (h : Seg next null mem a as) :
    (a = null ∧ as = []) ∨ (a ≠ null ∧ ∃ t, as = a :: t) := by
  cases h with
  | nil => exact .inl ⟨rfl, rfl⟩
  | cons hne _ => exact .inr ⟨hne, _, rfl⟩

/-! ### Cycles -/

/-- A path starts at the first cell it visits, or where it arrives if it visits none. -/
theorem Path.start_eq {a c : α} {as : List α} (h : Path next null mem a as c) :
    a = as.head?.getD c := by
  cases h with
  | nil => rfl
  | cons => rfl

/-- A cycle through `a` is a cycle through each of its cells. -/
theorem Path.rotate {a b : α} {xs ys : List α} (h : Path next null mem a (xs ++ b :: ys) a) :
    Path next null mem b (b :: ys ++ xs) b := by
  obtain ⟨m, hxs, hys⟩ := path_append_iff.mp h
  obtain ⟨rfl, -, -⟩ := path_cons_iff.mp hys
  exact path_append_iff.mpr ⟨a, hys, hxs⟩

/-- Along a path through increasing cells each link points forward, and no further than where
the path arrives. -/
theorem Path.lt_next {γ : Type*} [LinearOrder γ] {next : β → γ} {null : γ} {mem : γ → β}
    {a c : γ} {as : List γ} (h : Path next null mem a as c) (hs : (as ++ [c]).Pairwise (· < ·)) :
    ∀ x ∈ as, x < next (mem x) ∧ next (mem x) ≤ c := by
  induction h with
  | nil => exact fun x hx => absurd hx List.not_mem_nil
  | @cons a c as hne hrest ih =>
    rw [List.cons_append, List.pairwise_cons] at hs
    intro x hx
    rcases List.mem_cons.mp hx with rfl | hx
    · -- the link of `x` is the first cell of the rest of the path, or its end
      have hmem : next (mem x) ∈ as ++ [c] := by
        rw [hrest.start_eq]
        cases as with
        | nil => exact List.mem_singleton_self c
        | cons y ys => exact List.mem_cons_self
      refine ⟨hs.1 _ hmem, ?_⟩
      rcases List.mem_append.mp hmem with h' | h'
      · exact le_of_lt ((List.pairwise_append.mp hs.2).2.2 _ h' c (List.mem_singleton_self c))
      · exact le_of_eq (List.mem_singleton.mp h')
    · exact ih hs.2 x hx

variable [DecidableEq α]

/-- Writing a cell the path does not visit leaves the path as it was. -/
theorem Path.update_of_not_mem {a c x : α} {as : List α} (h : Path next null mem a as c)
    (hx : x ∉ as) (v : β) : Path next null (Function.update mem x v) a as c :=
  h.frame fun y hy => by
    rw [Function.update_of_ne (fun hyx => hx (by subst hyx; exact hy))]

/-- Rewriting a cell without changing its link leaves every path as it was. -/
theorem Path.update_same_next {a c x : α} {as : List α} (h : Path next null mem a as c)
    {v : β} (hv : next v = next (mem x)) : Path next null (Function.update mem x v) a as c :=
  h.frame fun y _ => by
    by_cases hyx : y = x
    · subst hyx
      rw [Function.update_self, hv]
    · rw [Function.update_of_ne hyx]

theorem Seg.update_of_not_mem {a x : α} {as : List α} (h : Seg next null mem a as)
    (hx : x ∉ as) (v : β) : Seg next null (Function.update mem x v) a as :=
  Path.update_of_not_mem h hx v

theorem Seg.update_same_next {a x : α} {as : List α} (h : Seg next null mem a as)
    {v : β} (hv : next v = next (mem x)) : Seg next null (Function.update mem x v) a as :=
  Path.update_same_next h hv

/-- Linking a new cell `y` in after `x`: `y` takes over the old link of `x`, and `x` now
points at `y`. -/
theorem Seg.insertAfter {a x y : α} {pre post : List α}
    (h : Seg next null mem a (pre ++ x :: post)) (hy : y ∉ pre ++ x :: post) (hynull : y ≠ null)
    (vy vx : β) (hvy : next vy = next (mem x)) (hvx : next vx = y) :
    Seg next null (Function.update (Function.update mem y vy) x vx) a (pre ++ x :: y :: post) := by
  have hnd := (Seg.nodup h)
  obtain ⟨m, hpre, hpost⟩ := path_append_iff.mp h
  obtain ⟨rfl, hxnull, hrest⟩ := path_cons_iff.mp hpost
  have hxpre : m ∉ pre := fun hm => (List.nodup_append.mp hnd).2.2 m hm m List.mem_cons_self rfl
  have hxpost : m ∉ post := (List.nodup_cons.mp (List.nodup_append.mp hnd).2.1).1
  have hyx : y ≠ m := fun hyx => hy (by simp [hyx])
  have hypre : y ∉ pre := fun hyp => hy (List.mem_append_left _ hyp)
  have hypost : y ∉ post := fun hyp => hy (by simp [hyp])
  refine path_append_iff.mpr ⟨m, ?_, ?_⟩
  · exact (hpre.update_of_not_mem hypre vy).update_of_not_mem hxpre vx
  · refine .cons hxnull ?_
    rw [Function.update_self, hvx]
    refine .cons hynull ?_
    rw [Function.update_of_ne hyx, Function.update_self, hvy]
    exact (hrest.update_of_not_mem hypost vy).update_of_not_mem hxpost vx

/-- Unlinking the successor `y` of `x`: `x` now points where `y` pointed. -/
theorem Seg.removeAfter {a x y : α} {pre post : List α}
    (h : Seg next null mem a (pre ++ x :: y :: post))
    (vx : β) (hvx : next vx = next (mem y)) :
    Seg next null (Function.update mem x vx) a (pre ++ x :: post) := by
  have hnd := (Seg.nodup h)
  obtain ⟨m, hpre, hpost⟩ := path_append_iff.mp h
  obtain ⟨rfl, hxnull, hrest⟩ := path_cons_iff.mp hpost
  obtain ⟨hy, -, hrest'⟩ := path_cons_iff.mp hrest
  have hxpre : m ∉ pre := fun hm => (List.nodup_append.mp hnd).2.2 m hm m List.mem_cons_self rfl
  have hxpost : m ∉ post := fun hm =>
    (List.nodup_cons.mp (List.nodup_append.mp hnd).2.1).1 (List.mem_cons_of_mem _ hm)
  refine path_append_iff.mpr ⟨m, hpre.update_of_not_mem hxpre vx, .cons hxnull ?_⟩
  rw [Function.update_self, hvx, ← hy]
  exact hrest'.update_of_not_mem hxpost vx

/-- Pushing a cell `x` on the front of a list: `x` now links to the old head. -/
theorem Seg.push {a x : α} {as : List α} (h : Seg next null mem a as) (hx : x ∉ as)
    (hxnull : x ≠ null) (v : β) (hv : next v = a) :
    Seg next null (Function.update mem x v) x (x :: as) := by
  refine .cons hxnull ?_
  rw [Function.update_self, hv]
  exact h.update_of_not_mem hx v

/-- Popping the head `a`: the rest of the list starts at its link, whatever is written into
`a` afterwards. -/
theorem Seg.pop {a : α} {as : List α} (h : Seg next null mem a (a :: as)) (v : β) :
    Seg next null (Function.update mem a v) (next (mem a)) as := by
  obtain ⟨-, -, hrest⟩ := path_cons_iff.mp h
  exact hrest.update_of_not_mem (List.nodup_cons.mp (Seg.nodup h)).1 v

/-! ### The search loop -/

/-- On a null-terminated list shorter than the fuel, the search loop finds the first cell
of the list that passes the test. -/
theorem Path.firstCell_eq (p : α → β → Bool) {fuel : ℕ} {a c : α} {as : List α}
    (h : Path next null mem a as c) (hc : c = null) (hfuel : as.length < fuel) :
    firstCell next null p fuel mem a = some (as.find? fun x => p x (mem x)) := by
  -- each iteration spends one unit of fuel on one cell of the list
  induction h generalizing fuel with
  | nil =>
    subst hc
    cases fuel with
    | zero => exact absurd hfuel (Nat.lt_irrefl 0)
    | succ fuel => simp [firstCell]
  | @cons a c as hne _ ih =>
    cases fuel with
    | zero => exact absurd hfuel (Nat.not_lt_zero _)
    | succ fuel =>
      by_cases hp : p a (mem a) = true
      · simp [firstCell, hne, hp]
      · simp only [firstCell, hne, if_false, hp, Bool.false_eq_true, List.find?_cons]
        exact ih hc (by simp only [List.length_cons] at hfuel; omega)

theorem Seg.firstCell_eq (p : α → β → Bool) {fuel : ℕ} {a : α} {as : List α}
    (h : Seg next null mem a as) (hfuel : as.length < fuel) :
    firstCell next null p fuel mem a = some (as.find? fun x => p x (mem x)) :=
  Path.firstCell_eq p h rfl hfuel

/-! ### Cells closed under the links -/

/-- The cells `R` are closed under the links of `mem`: from a cell of `R` the link leads to
`null` or into `R`. Whatever the cells outside `R` hold, a walk from `null` or from a cell of
`R` stays in `R`. -/
def Closed (next : β → α) (null : α) (mem : α → β) (R : Set α) : Prop :=
  ∀ a ∈ R, next (mem a) = null ∨ next (mem a) ∈ R

section Closed

variable {R : Set α}

omit [DecidableEq α] in
/-- Two steps along the links from a cell of a closed set. -/
theorem Closed.next_next (h : Closed next null mem R) {a : α} (ha : a ∈ R)
    (hn : next (mem a) ≠ null) : next (mem (next (mem a))) = null ∨ next (mem (next (mem a))) ∈ R :=
  h _ ((h a ha).resolve_left hn)

/-- Rewriting a cell without changing its link keeps the set closed. -/
theorem Closed.update_same_next (h : Closed next null mem R) {x : α} {v : β}
    (hv : next v = next (mem x)) : Closed next null (Function.update mem x v) R := fun a ha => by
  by_cases hax : a = x
  · subst hax
    rw [Function.update_self, hv]
    exact h a ha
  · rw [Function.update_of_ne hax]
    exact h a ha

/-- Linking a cell to `null` or into the set keeps the set, with that cell, closed. -/
theorem Closed.update_insert (h : Closed next null mem R) {x : α} {v : β}
    (hv : next v = null ∨ next v ∈ R) :
    Closed next null (Function.update mem x v) (insert x R) := fun a ha => by
  by_cases hax : a = x
  · subst hax
    rw [Function.update_self]
    exact hv.imp_right (Set.mem_insert_of_mem a)
  · rw [Function.update_of_ne hax]
    exact (h a ((Set.mem_insert_iff.mp ha).resolve_left hax)).imp_right (Set.mem_insert_of_mem x)

/-- Linking a cell of the set to `null` or into the set keeps it closed. -/
theorem Closed.update_mem (h : Closed next null mem R) {x : α} {v : β} (hx : x ∈ R)
    (hv : next v = null ∨ next v ∈ R) : Closed next null (Function.update mem x v) R := by
  simpa only [Set.insert_eq_of_mem hx] using h.update_insert (x := x) hv

/-- The search loop, started from `null` or from a cell of a closed set, stops at a cell of the
set. By induction on the fuel. -/
theorem Closed.firstCell_mem (h : Closed next null mem R) (p : α → β → Bool) :
    ∀ {fuel : ℕ} {a c : α}, (a = null ∨ a ∈ R) →
      firstCell next null p fuel mem a = some (some c) → c ∈ R
  | 0, _, _, _, hf => by cases hf
  | fuel + 1, a, c, ha, hf => by
    rw [firstCell] at hf
    split_ifs at hf with h0 hp
    · cases hf
    · cases hf
      exact ha.resolve_left h0
    · exact h.firstCell_mem p (h a (ha.resolve_left h0)) hf

end Closed

end ListSeg
