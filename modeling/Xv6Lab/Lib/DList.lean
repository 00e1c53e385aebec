import Mathlib.Data.List.Nodup
import Mathlib.Logic.Function.Basic

/-!
# Circular doubly linked lists with a sentinel

Cells link to each other through two stores, `next` and `prev`. `Chain next prev a l z` says
that following `next` from `a` visits the cells `l` in order and arrives at `z`, and that
every cell after `a` has its `prev` link back to the cell before it; a `Ring` through a
sentinel `head` is a chain from `head` back to `head` that visits each cell once.

This is the list of a cache kept in recency order, threaded through the cells themselves:

* `chain_append`, `chain_reverse`, `Chain.frame` — chains split at a cell, read backwards
  through `prev`, and read only the links of their own cells;
* `Ring.unlink` and `Ring.insertFront` — the two stores that take a cell out, and the four
  that link it in again after the sentinel;
* `scan` and `Ring.scan_next`, `Ring.scan_prev` — the loops that walk the ring forwards or
  backwards from the sentinel and stop at the first cell that passes a test.
-/

namespace DList

variable {α : Type*}

/-- From `a`, the `next` links visit the cells `l` in order and then arrive at `z`; the `prev`
link of every cell after `a` goes back to the cell before it. -/
def Chain (next prev : α → α) : α → List α → α → Prop
  | a, [], z => next a = z ∧ prev z = a
  | a, b :: l, z => next a = b ∧ prev b = a ∧ Chain next prev b l z

/-- A ring through the sentinel `head` and the cells `l`, each of them once. -/
structure Ring (next prev : α → α) (head : α) (l : List α) : Prop where
  chain : Chain next prev head l head
  nodup : (head :: l).Nodup

variable {next prev next' prev' : α → α}

@[simp] theorem chain_nil {a z : α} : Chain next prev a [] z ↔ next a = z ∧ prev z = a :=
  Iff.rfl

@[simp] theorem chain_cons {a b z : α} {l : List α} :
    Chain next prev a (b :: l) z ↔ next a = b ∧ prev b = a ∧ Chain next prev b l z :=
  Iff.rfl

/-- A chain splits at any of its cells. -/
theorem chain_append {a b z : α} {l₁ l₂ : List α} :
    Chain next prev a (l₁ ++ b :: l₂) z ↔ Chain next prev a l₁ b ∧ Chain next prev b l₂ z := by
  induction l₁ generalizing a with
  | nil => simp only [List.nil_append, chain_cons, chain_nil, and_assoc]
  | cons c l₁ ih => simp only [List.cons_append, chain_cons, ih, and_assoc]

/-- Read through `prev`, a chain runs backwards. -/
theorem chain_reverse {a z : α} {l : List α} :
    Chain next prev a l z ↔ Chain prev next z l.reverse a := by
  induction l generalizing a with
  | nil => simp only [chain_nil, List.reverse_nil, and_comm]
  | cons b l ih =>
    rw [chain_cons, ih, List.reverse_cons, chain_append, chain_nil]
    constructor
    · rintro ⟨h1, h2, h3⟩
      exact ⟨h3, h2, h1⟩
    · rintro ⟨h3, h2, h1⟩
      exact ⟨h1, h2, h3⟩

/-- The frame rule: a chain reads `next` only at its start and its cells, and `prev` only at
its cells and its end. -/
theorem Chain.frame {a z : α} {l : List α} (h : Chain next prev a l z)
    (hn : ∀ x ∈ a :: l, next' x = next x) (hp : ∀ x ∈ l ++ [z], prev' x = prev x) :
    Chain next' prev' a l z := by
  induction l generalizing a with
  | nil =>
    obtain ⟨h1, h2⟩ := h
    exact ⟨(hn a List.mem_cons_self).trans h1, (hp z List.mem_cons_self).trans h2⟩
  | cons b l ih =>
    obtain ⟨h1, h2, h3⟩ := h
    refine ⟨(hn a List.mem_cons_self).trans h1, (hp b List.mem_cons_self).trans h2, ?_⟩
    exact ih h3 (fun x hx => hn x (List.mem_cons_of_mem _ hx))
      (fun x hx => hp x (List.mem_cons_of_mem _ hx))

/-- The first link of a chain goes to its first cell, or to its end. -/
theorem Chain.next_mem {a z : α} {l : List α} (h : Chain next prev a l z) : next a ∈ l ++ [z] := by
  cases l with
  | nil => simp [h.1]
  | cons b l => simp [h.1]

/-- The last `prev` link of a chain goes to its last cell, or to its start. -/
theorem Chain.prev_mem {a z : α} {l : List α} (h : Chain next prev a l z) : prev z ∈ a :: l := by
  induction l generalizing a with
  | nil => simp [h.2]
  | cons b l ih => exact List.mem_cons_of_mem _ (ih h.2.2)

/-- Along a chain, the `prev` link of the successor of each cell, the start included, goes
back to the cell. -/
theorem Chain.prev_next {a z : α} {l : List α} (h : Chain next prev a l z) :
    ∀ x ∈ a :: l, prev (next x) = x := by
  induction l generalizing a with
  | nil =>
    intro x hx
    rw [List.mem_singleton.mp hx, h.1, h.2]
  | cons b l ih =>
    intro x hx
    rcases List.mem_cons.mp hx with rfl | hx
    · rw [h.1, h.2.1]
    · exact ih h.2.2 x hx

/-- In a ring, no cell links to itself. -/
theorem Ring.next_ne {head b : α} {l : List α} (h : Ring next prev head l) (hb : b ∈ l) :
    next b ≠ b := by
  obtain ⟨p, q, rfl⟩ := List.append_of_mem hb
  have hnd := List.nodup_cons.mp h.nodup
  have hq := (chain_append.mp h.chain).2
  intro e
  have hmem := hq.next_mem
  rw [e] at hmem
  rcases List.mem_append.mp hmem with hbq | hbh
  · exact (List.nodup_cons.mp (List.nodup_append.mp hnd.2).2.1).1 hbq
  · exact hnd.1 (List.mem_singleton.mp hbh ▸ hb)

variable [DecidableEq α]

/-- Taking the cell `b` out from between two chains: its predecessor links on to its
successor, and its successor back to its predecessor. -/
theorem Chain.bypass {a b z : α} {p q : List α} (hp : Chain next prev a p b)
    (hq : Chain next prev b q z) (hnd : (a :: p ++ b :: q).Nodup) (hz : z ∉ p ++ b :: q) :
    Chain (Function.update next (prev b) (next b)) (Function.update prev (next b) (prev b))
      a (p ++ q) z := by
  induction p generalizing a with
  | nil =>
    obtain ⟨hab, hba⟩ := hp
    rw [hba]
    cases q with
    | nil =>
      obtain ⟨hbz, hzb⟩ := hq
      refine ⟨by rw [Function.update_self, hbz], ?_⟩
      rw [← hbz, Function.update_self]
    | cons c q =>
      obtain ⟨hbc, hcb, hq⟩ := hq
      have hnd' : (a :: c :: q).Nodup :=
        List.Nodup.sublist ((List.sublist_cons_self b _).cons_cons a) (by simpa using hnd)
      refine ⟨by rw [Function.update_self, hbc], by rw [← hbc, Function.update_self], ?_⟩
      refine hq.frame (fun x hx => Function.update_of_ne ?_ _ _)
        (fun x hx => Function.update_of_ne ?_ _ _)
      · rintro rfl
        exact (List.nodup_cons.mp hnd').1 hx
      · rw [hbc]
        rintro rfl
        rcases List.mem_append.mp hx with hx | hx
        · exact (List.nodup_cons.mp (List.nodup_cons.mp hnd').2).1 hx
        · exact hz (by simp_all)
  | cons d p ih =>
    obtain ⟨had, hda, hp⟩ := hp
    have hnd' : (d :: p ++ b :: q).Nodup := (List.nodup_cons.mp hnd).2
    have hprev : prev b ∈ d :: p := hp.prev_mem
    have hnext : next b ∈ q ++ [z] := hq.next_mem
    refine ⟨?_, ?_, ih hp hnd' (fun hzm => hz (List.mem_cons_of_mem _ hzm))⟩
    · rw [Function.update_of_ne, had]
      rintro hb
      exact (List.nodup_cons.mp hnd).1 (hb ▸ List.mem_append_left _ hprev)
    · rw [Function.update_of_ne, hda]
      rintro hd
      rw [← hd] at hnext
      rcases List.mem_append.mp hnext with hdq | hdz
      · exact (List.nodup_cons.mp hnd').1 (List.mem_append_right _ (List.mem_cons_of_mem _ hdq))
      · exact hz (by simp_all)

/-- Taking a cell out of a ring leaves a ring of the other cells. -/
theorem Ring.unlink {head b : α} {l : List α} (h : Ring next prev head l) (hb : b ∈ l) :
    Ring (Function.update next (prev b) (next b)) (Function.update prev (next b) (prev b))
      head (l.erase b) := by
  obtain ⟨p, q, rfl⟩ := List.append_of_mem hb
  have hnd := h.nodup
  have hbp : b ∉ p := fun hbp =>
    (List.nodup_append.mp (List.nodup_cons.mp hnd).2).2.2 b hbp b List.mem_cons_self rfl
  have herase : (p ++ b :: q).erase b = p ++ q := by
    rw [List.erase_append_right _ hbp, List.erase_cons_head]
  obtain ⟨hp, hq⟩ := chain_append.mp h.chain
  rw [herase]
  refine ⟨hp.bypass hq hnd (List.nodup_cons.mp hnd).1, ?_⟩
  exact List.Nodup.sublist
    (List.Sublist.cons_cons _ ((List.Sublist.refl p).append (List.sublist_cons_self b q))) hnd

/-- Linking a new cell `b` in right after the sentinel, with the four stores `b->next =
head->next; b->prev = head; head->next->prev = b; head->next = b`. -/
theorem Ring.insertFront {head b : α} {l : List α} (h : Ring next prev head l)
    (hb : b ∉ head :: l) :
    Ring (Function.update (Function.update next b (next head)) head b)
      (Function.update (Function.update prev b head) (next head) b) head (b :: l) := by
  have hbh : b ≠ head := fun e => hb (e ▸ List.mem_cons_self)
  have hbl : b ∉ l := fun e => hb (List.mem_cons_of_mem _ e)
  have hhl : head ∉ l := (List.nodup_cons.mp h.nodup).1
  have hfirst : next head ∈ l ++ [head] := h.chain.next_mem
  have hfb : next head ≠ b := by
    rintro e
    rw [e] at hfirst
    rcases List.mem_append.mp hfirst with e | e
    · exact hbl e
    · exact hbh (List.mem_singleton.mp e)
  refine ⟨chain_cons.mpr ⟨Function.update_self _ _ _, ?_, ?_⟩,
    List.nodup_cons.mpr ⟨?_, List.nodup_cons.mpr ⟨hbl, (List.nodup_cons.mp h.nodup).2⟩⟩⟩
  · rw [Function.update_of_ne hfb.symm, Function.update_self]
  · cases l with
    | nil =>
      have hhh : next head = head := (chain_nil.mp h.chain).1
      refine chain_nil.mpr ⟨by rw [Function.update_of_ne hbh, Function.update_self, hhh], ?_⟩
      rw [Function.update_apply, if_pos hhh.symm]
    | cons c l' =>
      obtain ⟨hc, -, hrest⟩ := chain_cons.mp h.chain
      have hnd := h.nodup
      refine chain_cons.mpr ⟨?_, ?_, ?_⟩
      · rw [Function.update_of_ne hbh, Function.update_self, hc]
      · rw [hc, Function.update_self]
      · refine hrest.frame (fun x hx => ?_) (fun x hx => ?_)
        · have hxh : x ≠ head := fun e => hhl (e ▸ hx)
          have hxb : x ≠ b := fun e => hbl (e ▸ hx)
          rw [Function.update_of_ne hxh, Function.update_of_ne hxb]
        · have hxc : x ≠ c := by
            rintro rfl
            rcases List.mem_append.mp hx with hx | hx
            · exact (List.nodup_cons.mp (List.nodup_cons.mp hnd).2).1 hx
            · exact hhl (List.mem_singleton.mp hx ▸ List.mem_cons_self)
          have hxb : x ≠ b := by
            rintro rfl
            rcases List.mem_append.mp hx with hx | hx
            · exact hbl (List.mem_cons_of_mem _ hx)
            · exact hbh (List.mem_singleton.mp hx)
          rw [hc, Function.update_of_ne hxc, Function.update_of_ne hxb]
  · rintro (_ | ⟨_, hhl'⟩)
    · exact hbh rfl
    · exact hhl hhl'

/-! ### Walking the ring -/

/-- `for (x = start; x != head; x = step(x)) if (p(x)) return x;`, for at most `fuel` cells:
`none` when the fuel runs out, `some none` when the walk is back at the sentinel. -/
def scan (step : α → α) (head : α) (p : α → Bool) : ℕ → α → Option (Option α)
  | 0, _ => none
  | fuel + 1, x =>
    if x = head then some none
    else if p x then some (some x)
    else scan step head p fuel (step x)

/-- Along a chain that ends at the sentinel, the walk from the first link finds the first
cell that passes the test. -/
theorem Chain.scan_eq {a z : α} {l : List α} (h : Chain next prev a l z) (hz : z ∉ l)
    (p : α → Bool) {fuel : ℕ} (hf : l.length < fuel) :
    scan next z p fuel (next a) = some (l.find? p) := by
  induction l generalizing a fuel with
  | nil =>
    obtain ⟨fuel, rfl⟩ : ∃ f, fuel = f + 1 := ⟨fuel - 1, by simp at hf; omega⟩
    simp [scan, h.1]
  | cons b l ih =>
    obtain ⟨fuel, rfl⟩ : ∃ f, fuel = f + 1 := ⟨fuel - 1, by simp at hf; omega⟩
    obtain ⟨hab, -, hrest⟩ := h
    have hbz : b ≠ z := fun e => hz (e ▸ List.mem_cons_self)
    rw [scan, hab, if_neg hbz, List.find?_cons]
    cases hp : p b with
    | true => rfl
    | false =>
      exact ih hrest (fun hzl => hz (List.mem_cons_of_mem _ hzl))
        (by simp only [List.length_cons] at hf; omega)

/-- The walk forwards from the sentinel meets the cells in order. -/
theorem Ring.scan_next {head : α} {l : List α} (h : Ring next prev head l) (p : α → Bool)
    {fuel : ℕ} (hf : l.length < fuel) : scan next head p fuel (next head) = some (l.find? p) :=
  h.chain.scan_eq (List.nodup_cons.mp h.nodup).1 p hf

/-- The walk backwards from the sentinel meets the cells in reverse order. -/
theorem Ring.scan_prev {head : α} {l : List α} (h : Ring next prev head l) (p : α → Bool)
    {fuel : ℕ} (hf : l.length < fuel) :
    scan prev head p fuel (prev head) = some (l.reverse.find? p) :=
  (chain_reverse.mp h.chain).scan_eq (by simpa using (List.nodup_cons.mp h.nodup).1) p
    (by simpa using hf)

end DList
