import Xv6Lab.Console.Code

/-!
# What the console is for, on lists

`cook` is line editing as a user sees it: the typed characters with a carriage return read as
a newline, `^H` and delete erasing the last byte of the line, `^U` erasing the line, a newline
or a `^D` ending it; `NUL` and `^P` are no input. It returns the finished lines, one stream,
and the line still being typed.

`edit` is what one character does to the line being edited in `consoleintr`, where the
buffer has room for `room` more bytes: with no room the character is dropped, and the byte
that fills the buffer ends the line whatever it is. With room for two bytes or more it is the
step of `cook` (`edit_of_two_le`).

`readLine first t s` is what one `read` of `t` bytes returns from a stream `s` of finished
lines: the bytes of the current line up to and including its newline, at most `t` of them,
stopping before a `^D`, which the read uses up only when it returns nothing (`first`, no byte
read yet). It is `none` when `s` ends before the read is done. `readLines` chains reads.
-/

namespace Xv6Lab.Console

/-- The newline byte. -/
def nl : UInt8 := '\n'.toUInt8

/-- `c` with a carriage return read as a newline. -/
def crToNl (c : UInt8) : UInt8 := if c = '\r'.toUInt8 then nl else c

/-- A byte that ends a line: a newline or a `^D`. -/
def Ends (c : UInt8) : Prop := c = nl ∨ c = ctrl 'D'

instance : DecidablePred Ends := fun c => inferInstanceAs (Decidable (c = nl ∨ c = ctrl 'D'))

/-! The special characters as numbers, for `simp` to compare. -/

@[simp] theorem ctrl_D : ctrl 'D' = 4 := by decide
@[simp] theorem ctrl_H : ctrl 'H' = 8 := by decide
@[simp] theorem ctrl_P : ctrl 'P' = 16 := by decide
@[simp] theorem ctrl_U : ctrl 'U' = 21 := by decide
@[simp] theorem del_toUInt8 : '\x7f'.toUInt8 = 127 := by decide
@[simp] theorem cr_toUInt8 : '\r'.toUInt8 = 13 := by decide
@[simp] theorem newline_toUInt8 : '\n'.toUInt8 = 10 := by decide
@[simp] theorem nl_eq : nl = 10 := rfl

/-! ### Editing -/

/-- What `c` does to the line `l` with room for `room` more bytes: the bytes it hands to the
reader and the line after it. -/
def edit (l : List UInt8) (c : UInt8) (room : ℕ) : List UInt8 × List UInt8 :=
  if c = ctrl 'P' then ([], l)
  else if c = ctrl 'U' then ([], [])
  else if c = ctrl 'H' ∨ c = '\x7f'.toUInt8 then ([], l.dropLast)
  else if c ≠ 0 ∧ 0 < room then
    if Ends (crToNl c) ∨ room = 1 then (l ++ [crToNl c], []) else ([], l ++ [crToNl c])
  else ([], l)

/-- One character of line editing: the finished lines and the line being typed. -/
def cookStep (p : List UInt8 × List UInt8) (c : UInt8) : List UInt8 × List UInt8 :=
  if c = ctrl 'P' ∨ c = 0 then p
  else if c = ctrl 'U' then (p.1, [])
  else if c = ctrl 'H' ∨ c = '\x7f'.toUInt8 then (p.1, p.2.dropLast)
  else if Ends (crToNl c) then (p.1 ++ p.2 ++ [crToNl c], [])
  else (p.1, p.2 ++ [crToNl c])

/-- The typed characters, edited: the stream of finished lines and the line being typed. -/
def cook (typed : List UInt8) : List UInt8 × List UInt8 := typed.foldl cookStep ([], [])

@[simp] theorem cook_nil : cook [] = ([], []) := rfl

theorem cook_concat (typed : List UInt8) (c : UInt8) :
    cook (typed ++ [c]) = cookStep (cook typed) c := by
  simp [cook, List.foldl_append]

/-- With room for two bytes no character fills the buffer: `edit` is line editing. -/
theorem edit_of_two_le (d l : List UInt8) (c : UInt8) {room : ℕ} (h : 2 ≤ room) :
    cookStep (d, l) c = (d ++ (edit l c room).1, (edit l c room).2) := by
  unfold cookStep edit
  simp only [ctrl_P, ctrl_U, ctrl_H, del_toUInt8]
  by_cases hP : c = 16
  · simp [hP]
  by_cases h0 : c = 0
  · simp [h0]
  by_cases hU : c = 21
  · simp [hU]
  by_cases hH : c = 8 ∨ c = 127
  · simp [hP, h0, hU, hH]
  have hroom : 0 < room := by omega
  have hne : room ≠ 1 := by omega
  by_cases hE : Ends (crToNl c) <;> simp [hP, h0, hU, hH, hE, hroom, hne]

/-- A character that stores nothing edits the line the same way with any room. -/
theorem edit_of_not_stores (d l : List UInt8) (c : UInt8) (room : ℕ)
    (h : c = ctrl 'P' ∨ c = 0 ∨ c = ctrl 'U' ∨ c = ctrl 'H' ∨ c = '\x7f'.toUInt8) :
    cookStep (d, l) c = (d ++ (edit l c room).1, (edit l c room).2) := by
  unfold cookStep edit
  rcases h with h | h | h | h | h <;> subst h <;> simp

/-- A character that stores, with room for it, adds one byte to the queue and the line. -/
theorem edit_length (l : List UInt8) {c : UInt8} {room : ℕ}
    (hs : ¬ (c = ctrl 'P' ∨ c = 0 ∨ c = ctrl 'U' ∨ c = ctrl 'H' ∨ c = '\x7f'.toUInt8))
    (hroom : 0 < room) :
    (edit l c room).1.length + (edit l c room).2.length = l.length + 1 := by
  simp only [not_or] at hs
  obtain ⟨hP, h0, hU, hH, hD⟩ := hs
  unfold edit
  rw [if_neg hP, if_neg hU, if_neg (not_or.mpr ⟨hH, hD⟩), if_pos ⟨h0, hroom⟩]
  split_ifs <;> simp

/-- The finished lines end with a byte that ends a line. -/
theorem cook_fst_ends (typed : List UInt8) :
    (cook typed).1 = [] ∨ ∃ d c, (cook typed).1 = d ++ [c] ∧ Ends c := by
  induction typed using List.reverseRecOn with
  | nil => exact .inl rfl
  | append_singleton typed c ih =>
    rw [cook_concat]
    unfold cookStep
    split_ifs with h₁ h₂ h₃ h₄
    · exact ih
    · exact ih
    · exact ih
    · exact .inr ⟨_, _, rfl, h₄⟩
    · exact ih

/-! ### Reading lines -/

/-- One `read` of `t` bytes from the stream `s`: the bytes it returns and the bytes of `s` it
uses up, or `none` if `s` ends first. -/
def readLine : Bool → ℕ → List UInt8 → Option (List UInt8 × List UInt8)
  | _, 0, _ => some ([], [])
  | _, _ + 1, [] => none
  | first, t + 1, c :: s =>
    if c = ctrl 'D' then some ([], if first then [c] else [])
    else if c = nl then some ([c], [c])
    else (readLine false t s).map fun r => (c :: r.1, c :: r.2)

/-- Reads of `ts` bytes one after the other from `s`: what each returns, and the bytes of `s`
they use up. -/
def readLines : List ℕ → List UInt8 → Option (List (List UInt8) × List UInt8)
  | [], _ => some ([], [])
  | t :: ts, s => (readLine true t s).bind fun r =>
    (readLines ts (s.drop r.2.length)).map fun R => (r.1 :: R.1, r.2 ++ R.2)

/-- A read uses up a prefix of the stream. -/
theorem readLine_used {first : Bool} {t : ℕ} {s : List UInt8} {r : List UInt8 × List UInt8}
    (h : readLine first t s = some r) : ∃ rest, s = r.2 ++ rest := by
  induction s generalizing first t r with
  | nil =>
    cases t with
    | zero =>
      simp only [readLine, Option.some.injEq] at h
      subst h
      exact ⟨[], rfl⟩
    | succ t => simp [readLine] at h
  | cons c s ih =>
    cases t with
    | zero =>
      simp only [readLine, Option.some.injEq] at h
      subst h
      exact ⟨c :: s, rfl⟩
    | succ t =>
      by_cases hD : c = ctrl 'D'
      · -- a `^D` is used up by a read that has taken nothing
        cases first <;> simp only [readLine, if_pos hD, Option.some.injEq, Bool.false_eq_true,
          if_false, if_true] at h <;> subst h
        exacts [⟨c :: s, rfl⟩, ⟨s, rfl⟩]
      by_cases hn : c = nl
      · simp only [readLine, if_neg hD, if_pos hn, Option.some.injEq] at h
        subst h
        exact ⟨s, rfl⟩
      · simp only [readLine, if_neg hD, if_neg hn] at h
        obtain ⟨r', hr', rfl⟩ := Option.map_eq_some_iff.mp h
        obtain ⟨rest, hrest⟩ := ih hr'
        exact ⟨rest, by rw [hrest]; rfl⟩

/-- A read that is done stays done however the stream goes on. -/
theorem readLine_append {first : Bool} {t : ℕ} {s : List UInt8} {r : List UInt8 × List UInt8}
    (h : readLine first t s = some r) (x : List UInt8) : readLine first t (s ++ x) = some r := by
  induction s generalizing first t r with
  | nil => cases t <;> simp_all [readLine]
  | cons c s ih =>
    cases t with
    | zero => simpa [readLine] using h
    | succ t =>
      by_cases hD : c = ctrl 'D'
      · simpa only [List.cons_append, readLine, if_pos hD] using h
      by_cases hn : c = nl
      · simpa only [List.cons_append, readLine, if_neg hD, if_pos hn] using h
      simp only [List.cons_append, readLine, if_neg hD, if_neg hn] at h ⊢
      obtain ⟨r', hr', rfl⟩ := Option.map_eq_some_iff.mp h
      rw [ih hr']
      rfl

/-- A read that has taken `p`, bytes that end nothing, goes on with the rest of its count. -/
theorem readLine_plain_append {p s : List UInt8} (hp : ∀ x ∈ p, ¬ Ends x) {first : Bool} {t : ℕ}
    (ht : p.length ≤ t) :
    readLine first t (p ++ s) =
      (readLine (first && p.isEmpty) (t - p.length) s).map fun r => (p ++ r.1, p ++ r.2) := by
  induction p generalizing first t with
  | nil => simp
  | cons c p ih =>
    obtain ⟨t, rfl⟩ : ∃ t', t = t' + 1 := ⟨t - 1, by simp only [List.length_cons] at ht; omega⟩
    have hc : ¬ Ends c := hp c List.mem_cons_self
    have hD : c ≠ ctrl 'D' := fun h => hc (.inr h)
    have hn : c ≠ nl := fun h => hc (.inl h)
    have ih' : readLine false t (p ++ s) = _ :=
      ih (fun x hx => hp x (List.mem_cons_of_mem _ hx)) (by simp only [List.length_cons] at ht; omega)
    simp only [List.cons_append, readLine, if_neg hD, if_neg hn, ih', Option.map_map,
      List.length_cons, Bool.false_and, List.isEmpty_cons, Bool.and_false]
    rw [Nat.add_sub_add_right]
    rfl

/-- Reads that are done stay done however the stream goes on. -/
theorem readLines_append {ts : List ℕ} {s : List UInt8} {R : List (List UInt8) × List UInt8}
    (h : readLines ts s = some R) (x : List UInt8) : readLines ts (s ++ x) = some R := by
  induction ts generalizing s R with
  | nil => simpa [readLines] using h
  | cons t ts ih =>
    simp only [readLines, Option.bind_eq_some_iff, Option.map_eq_some_iff] at h ⊢
    obtain ⟨r, hr, R', hR', rfl⟩ := h
    obtain ⟨rest, hrest⟩ := readLine_used hr
    refine ⟨r, readLine_append hr x, R', ?_, rfl⟩
    rw [hrest] at hR' ⊢
    simp only [List.drop_left', List.append_assoc] at hR' ⊢
    exact ih hR'

/-- One more read, from where the others stopped. -/
theorem readLines_concat {ts : List ℕ} {s rest : List UInt8} {R : List (List UInt8)}
    {U : List UInt8} (h : readLines ts s = some (R, U)) (hs : s = U ++ rest) {t : ℕ}
    {r : List UInt8 × List UInt8} (hr : readLine true t rest = some r) :
    readLines (ts ++ [t]) s = some (R ++ [r.1], U ++ r.2) := by
  induction ts generalizing s R U with
  | nil =>
    simp only [readLines, Option.some.injEq, Prod.mk.injEq] at h
    obtain ⟨rfl, rfl⟩ := h
    simp only [List.nil_append] at hs
    subst hs
    simp [readLines, hr]
  | cons t' ts ih =>
    simp only [readLines, Option.bind_eq_some_iff, Option.map_eq_some_iff] at h
    obtain ⟨r', hr', R', hR', hRU⟩ := h
    simp only [Prod.mk.injEq] at hRU
    obtain ⟨rfl, rfl⟩ := hRU
    have hs' : s.drop r'.2.length = R'.2 ++ rest := by
      rw [hs, List.append_assoc, List.drop_left]
    have := ih hR' hs'
    simp only [List.cons_append, readLines, hr', Option.bind_some, this, Option.map_some,
      List.append_assoc]

end Xv6Lab.Console
