import Mathlib.Logic.Function.Basic
import Mathlib.Data.List.Basic

/-!
# A list of writes to a map

`setAll f ws` is the map `f` after the writes `ws`, each `(key, value)` in turn: the last
write to a key wins, and a key no write names keeps its value. These are the facts a
redo log rests on: a prefix of the writes followed by all of them is all of them, and a
write already among them changes nothing.
-/

namespace WriteList

variable {β α : Type*} [DecidableEq β]

/-- The map `f` after the writes `ws`, in order. -/
def setAll (f : β → α) : List (β × α) → β → α
  | [] => f
  | (b, v) :: ws => setAll (Function.update f b v) ws

@[simp] theorem setAll_nil (f : β → α) : setAll f [] = f := rfl

@[simp] theorem setAll_cons (f : β → α) (b : β) (v : α) (ws : List (β × α)) :
    setAll f ((b, v) :: ws) = setAll (Function.update f b v) ws := rfl

/-- A key that no write names keeps its value. -/
theorem setAll_of_not_mem (f : β → α) {ws : List (β × α)} {x : β} (hx : x ∉ ws.map Prod.fst) :
    setAll f ws x = f x := by
  induction ws generalizing f with
  | nil => rfl
  | cons w ws ih =>
    obtain ⟨b, v⟩ := w
    simp only [List.map_cons, List.mem_cons, not_or] at hx
    rw [setAll_cons, ih _ hx.2, Function.update_of_ne hx.1]

/-- The value of a key written once is the value written. -/
theorem setAll_of_mem (f : β → α) {ws : List (β × α)} (hnd : (ws.map Prod.fst).Nodup)
    {x : β} {v : α} (hmem : (x, v) ∈ ws) : setAll f ws x = v := by
  induction ws generalizing f with
  | nil => simp at hmem
  | cons w ws ih =>
    obtain ⟨b, u⟩ := w
    simp only [List.map_cons, List.nodup_cons] at hnd
    rcases List.mem_cons.mp hmem with he | hmem
    · -- the first write: no later one names the key
      obtain ⟨rfl, rfl⟩ := Prod.mk.inj he
      rw [setAll_cons, setAll_of_not_mem _ hnd.1, Function.update_self]
    · exact ih _ hnd.2 hmem

/-- At a key the writes name, the map written over does not matter. -/
theorem setAll_apply_of_mem (f g : β → α) {ws : List (β × α)} {x : β}
    (hx : x ∈ ws.map Prod.fst) : setAll f ws x = setAll g ws x := by
  induction ws generalizing f g with
  | nil => simp at hx
  | cons w ws ih =>
    obtain ⟨b, v⟩ := w
    by_cases hxs : x ∈ ws.map Prod.fst
    · exact ih _ _ hxs
    · -- the only write to `x` is the first
      have hxb : x = b := by simpa [hxs] using hx
      subst hxb
      rw [setAll_cons, setAll_cons, setAll_of_not_mem _ hxs, setAll_of_not_mem _ hxs,
        Function.update_self, Function.update_self]

/-- The writes only look at the keys they do not name. -/
theorem setAll_congr {f g : β → α} {ws : List (β × α)}
    (h : ∀ x, x ∉ ws.map Prod.fst → f x = g x) : setAll f ws = setAll g ws := by
  funext x
  by_cases hx : x ∈ ws.map Prod.fst
  · exact setAll_apply_of_mem f g hx
  · rw [setAll_of_not_mem _ hx, setAll_of_not_mem _ hx]
    exact h x hx

/-- Writes to keys named again later are overwritten. -/
theorem setAll_setAll_of_subset (f : β → α) {ws vs : List (β × α)}
    (hsub : ∀ x ∈ vs.map Prod.fst, x ∈ ws.map Prod.fst) : setAll (setAll f vs) ws = setAll f ws :=
  setAll_congr fun x hx => setAll_of_not_mem f fun hv => hx (hsub x hv)

/-- A prefix of the writes, then all of them, is all of them. -/
theorem setAll_take_setAll (f : β → α) (ws : List (β × α)) (k : ℕ) :
    setAll (setAll f (ws.take k)) ws = setAll f ws :=
  setAll_setAll_of_subset f fun _ hx => List.map_subset _ (List.take_subset k ws) hx

end WriteList
