import Mathlib.Data.List.Basic

/-!
# The matcher of `grep`

`grep` matches with the regular-expression matcher of Kernighan and Pike: `match(re, text)`
tries `matchhere` at every position of `text`, or only at the start after a leading `^`;
`matchhere` reads `re` one atom at a time, a character followed by `*` going to `matchstar`,
which tries the rest of `re` after zero, one, two, ... characters that the starred one
matches. Strings are the characters before their `NUL`.

`matchhere` recurses on a shorter pattern and the loop of `matchstar` on a shorter text
(`matchstarWith`, the loop over any test of the rest), so all three functions are total.

The language they decide is the one of the pattern read as atoms (`tokens`): `c*` (zero or
more characters that `c` matches, `.` matching any) or a single `c`, and a `$` as the last
character requiring the end of the text.

* `matchstarWith_iff` — the loop of `matchstar` finds a split of the text into matched
  characters and a rest that passes the test;
* `matchhere_iff` — `matchhere` decides a prefix of the text in the language of the atoms;
* `match_decides` — `match` decides that language at some start position.
-/

namespace Xv6Lab.Grep

/-! ### The matcher -/

/-- The `do`-`while` loop of `matchstar(c, re, text)`, with `matchhere(re, ·)` as `f`: try
`f` here, then step over one character that `c` matches, until the text ends. -/
def matchstarWith (f : List Char → Bool) (c : Char) : List Char → Bool
  | [] => f []
  | t :: text => f (t :: text) || ((t == c || c == '.') && matchstarWith f c text)

/-- `matchhere(re, text)`: `re` matches at the beginning of `text`. -/
def matchhere : List Char → List Char → Bool
  | [], _ => true
  | c :: '*' :: re, text => matchstarWith (matchhere re) c text
  | c :: re, text =>
    if c = '$' ∧ re = [] then text.isEmpty
    else
      match text with
      | t :: text' => (c == '.' || c == t) && matchhere re text'
      | [] => false

/-- `matchstar(c, re, text)`: `c*re` matches at the beginning of `text`. -/
def matchstar (c : Char) (re text : List Char) : Bool := matchstarWith (matchhere re) c text

/-- The `do`-`while` loop of `match`: try `matchhere` at `text`, then one character on,
until the end of the text has been tried too. -/
def matchFrom (re : List Char) : List Char → Bool
  | [] => matchhere re []
  | t :: text => matchhere re (t :: text) || matchFrom re text

/-- `match(re, text)` (`match` is a keyword of Lean): a leading `^` anchors `re` at the start
of `text`; otherwise every position is tried. -/
def matchRe : List Char → List Char → Bool
  | '^' :: re, text => matchhere re text
  | re, text => matchFrom re text

/-! ### The language of a pattern -/

/-- An atom of a pattern: one character, or a starred one. -/
inductive Atom where
  | one (c : Char)
  | star (c : Char)
  deriving DecidableEq, Repr

/-- The pattern character `c` matches the text character `x`. -/
def CharOk (c x : Char) : Prop := c = '.' ∨ c = x

/-- The words an atom matches. -/
def Atom.Matches : Atom → List Char → Prop
  | .one c, w => ∃ x, w = [x] ∧ CharOk c x
  | .star c, w => ∀ x ∈ w, CharOk c x

/-- `w` is a word of each atom in turn. -/
def Seq : List Atom → List Char → Prop
  | [], w => w = []
  | a :: as, w => ∃ u v, w = u ++ v ∧ a.Matches u ∧ Seq as v

/-- A pattern read as atoms, and whether it ends in the `$` that requires the end of the text:
a character followed by `*` is a starred atom, a `$` that is the last character is the end,
and any other character is one atom. -/
def tokens : List Char → List Atom × Bool
  | [] => ([], false)
  | c :: '*' :: re => (.star c :: (tokens re).1, (tokens re).2)
  | c :: re => if c = '$' ∧ re = [] then ([], true) else (.one c :: (tokens re).1, (tokens re).2)

/-- A prefix of `text` is in the language of the atoms of `re`, and it is all of `text` when
`re` ends in `$`. -/
def PrefixMatch (re text : List Char) : Prop :=
  ∃ u v, text = u ++ v ∧ Seq (tokens re).1 u ∧ ((tokens re).2 = true → v = [])

/-- The language `match` decides: a prefix match at the start after a leading `^`, and
otherwise at some position from `0` to the length of the text. -/
def Accepts : List Char → List Char → Prop
  | '^' :: re, text => PrefixMatch re text
  | re, text => ∃ i ≤ text.length, PrefixMatch re (text.drop i)

/-! ### The clauses of `matchhere` -/

section Clauses

variable {c : Char} {re text : List Char}

theorem matchhere_star (c : Char) (re text : List Char) :
    matchhere (c :: '*' :: re) text = matchstar c re text := rfl

theorem matchhere_dollar (text : List Char) : matchhere ['$'] text = text.isEmpty := rfl

theorem matchhere_one_cons (hre : ∀ r, re ≠ '*' :: r) (hd : ¬ (c = '$' ∧ re = [])) (t : Char)
    (text : List Char) : matchhere (c :: re) (t :: text) = ((c == '.' || c == t) && matchhere re text) := by
  rw [matchhere.eq_3 c re t text (fun r h => hre r h), if_neg hd]

theorem matchhere_one_nil (hre : ∀ r, re ≠ '*' :: r) (hd : ¬ (c = '$' ∧ re = [])) :
    matchhere (c :: re) [] = false := by
  rw [matchhere.eq_4 c re (fun r h => hre r h), if_neg hd]

theorem tokens_star (c : Char) (re : List Char) :
    tokens (c :: '*' :: re) = (.star c :: (tokens re).1, (tokens re).2) := rfl

theorem tokens_dollar : tokens ['$'] = ([], true) := rfl

theorem tokens_one (hre : ∀ r, re ≠ '*' :: r) (hd : ¬ (c = '$' ∧ re = [])) :
    tokens (c :: re) = (.one c :: (tokens re).1, (tokens re).2) := by
  rw [tokens.eq_3 c re (fun r h => hre r h), if_neg hd]

end Clauses

/-! ### The language, clause by clause -/

theorem charOk_iff_beq (c t : Char) : ((t == c || c == '.') = true) ↔ CharOk c t := by
  simp only [Bool.or_eq_true, beq_iff_eq, CharOk]
  constructor
  · rintro (h | h)
    · exact .inr h.symm
    · exact .inl h
  · rintro (h | h)
    · exact .inr h
    · exact .inl h.symm

theorem seq_one_iff {c : Char} {as : List Atom} {w : List Char} :
    Seq (.one c :: as) w ↔ ∃ x w', w = x :: w' ∧ CharOk c x ∧ Seq as w' := by
  constructor
  · rintro ⟨u, v, rfl, ⟨x, rfl, hx⟩, hs⟩
    exact ⟨x, v, rfl, hx, hs⟩
  · rintro ⟨x, w', rfl, hx, hs⟩
    exact ⟨[x], w', rfl, ⟨x, rfl, hx⟩, hs⟩

theorem prefixMatch_nil (text : List Char) : PrefixMatch [] text :=
  ⟨[], text, rfl, rfl, fun h => absurd h Bool.false_ne_true⟩

theorem prefixMatch_dollar {text : List Char} : PrefixMatch ['$'] text ↔ text = [] := by
  rw [PrefixMatch, tokens_dollar]
  constructor
  · rintro ⟨u, v, rfl, hu, hv⟩
    rw [show u = [] from hu, hv rfl]
    rfl
  · rintro rfl
    exact ⟨[], [], rfl, rfl, fun _ => rfl⟩

/-- After a starred atom, the rest of the pattern matches after some characters the star
takes. -/
theorem prefixMatch_star {c : Char} {re text : List Char} :
    PrefixMatch (c :: '*' :: re) text ↔
      ∃ u v, text = u ++ v ∧ (∀ x ∈ u, CharOk c x) ∧ PrefixMatch re v := by
  rw [PrefixMatch, tokens_star]
  constructor
  · rintro ⟨w, v', rfl, ⟨u, w', rfl, hu, hs⟩, he⟩
    exact ⟨u, w' ++ v', List.append_assoc u w' v', hu, w', v', rfl, hs, he⟩
  · rintro ⟨u, v, rfl, hu, w', v', rfl, hs, he⟩
    exact ⟨u ++ w', v', (List.append_assoc u w' v').symm, ⟨u, w', rfl, hu, hs⟩, he⟩

/-- After a single atom, the rest of the pattern matches after one character it matches. -/
theorem prefixMatch_one {c : Char} {re text : List Char} (hre : ∀ r, re ≠ '*' :: r)
    (hd : ¬ (c = '$' ∧ re = [])) :
    PrefixMatch (c :: re) text ↔ ∃ x text', text = x :: text' ∧ CharOk c x ∧ PrefixMatch re text' := by
  rw [PrefixMatch, tokens_one hre hd]
  constructor
  · rintro ⟨w, v, rfl, hw, he⟩
    obtain ⟨x, w', rfl, hx, hs⟩ := seq_one_iff.mp hw
    exact ⟨x, w' ++ v, rfl, hx, w', v, rfl, hs, he⟩
  · rintro ⟨x, text', rfl, hx, w', v, rfl, hs, he⟩
    exact ⟨x :: w', v, rfl, seq_one_iff.mpr ⟨x, w', rfl, hx, hs⟩, he⟩

/-! ### The matcher decides the language -/

/-- The loop of `matchstar` passes iff the text splits into characters `c` matches and a rest
on which the test passes. -/
theorem matchstarWith_iff (f : List Char → Bool) (c : Char) :
    ∀ text, matchstarWith f c text = true ↔
      ∃ u v, text = u ++ v ∧ (∀ x ∈ u, CharOk c x) ∧ f v = true
  | [] => by
    rw [matchstarWith]
    constructor
    · intro h
      exact ⟨[], [], rfl, fun _ h => absurd h List.not_mem_nil, h⟩
    · rintro ⟨u, v, huv, -, hf⟩
      obtain ⟨rfl, rfl⟩ := List.append_eq_nil_iff.mp huv.symm
      exact hf
  | t :: text => by
    rw [matchstarWith, Bool.or_eq_true, Bool.and_eq_true, charOk_iff_beq, matchstarWith_iff f c text]
    constructor
    · rintro (hf | ⟨ht, u, v, rfl, hu, hf⟩)
      · exact ⟨[], t :: text, rfl, fun _ h => absurd h List.not_mem_nil, hf⟩
      · refine ⟨t :: u, v, rfl, fun x hx => ?_, hf⟩
        rcases List.mem_cons.mp hx with rfl | hx
        · exact ht
        · exact hu x hx
    · rintro ⟨u, v, huv, hu, hf⟩
      cases u with
      | nil => exact .inl (by rw [huv]; exact hf)
      | cons x u =>
        obtain ⟨rfl, rfl⟩ := List.cons.inj huv
        exact .inr ⟨hu t List.mem_cons_self, u, v, rfl, fun y hy => hu y (List.mem_cons_of_mem t hy), hf⟩

theorem matchhere_star_iff {c : Char} {re : List Char}
    (ih : ∀ text, matchhere re text = true ↔ PrefixMatch re text) (text : List Char) :
    matchhere (c :: '*' :: re) text = true ↔ PrefixMatch (c :: '*' :: re) text := by
  rw [matchhere_star, matchstar, matchstarWith_iff, prefixMatch_star]
  simp only [ih]

theorem matchhere_one_iff {c : Char} {re : List Char} (hre : ∀ r, re ≠ '*' :: r)
    (hd : ¬ (c = '$' ∧ re = [])) (ih : ∀ text, matchhere re text = true ↔ PrefixMatch re text) :
    ∀ text, matchhere (c :: re) text = true ↔ PrefixMatch (c :: re) text
  | [] => by
    rw [matchhere_one_nil hre hd, prefixMatch_one hre hd]
    simp
  | t :: text => by
    rw [matchhere_one_cons hre hd, prefixMatch_one hre hd, Bool.and_eq_true, ih]
    have hok : ((c == '.' || c == t) = true) ↔ CharOk c t := by
      simp only [Bool.or_eq_true, beq_iff_eq, CharOk]
    rw [hok]
    constructor
    · rintro ⟨hx, hp⟩
      exact ⟨t, text, rfl, hx, hp⟩
    · rintro ⟨x, text', he, hx, hp⟩
      obtain ⟨rfl, rfl⟩ := List.cons.inj he
      exact ⟨hx, hp⟩

/-- **`matchhere` decides the prefixes in the language of the pattern.** By recursion on the
pattern, as `matchhere` itself: a starred atom, the final `$`, or one character. -/
theorem matchhere_iff : ∀ re text, matchhere re text = true ↔ PrefixMatch re text
  | [], text => by
    rw [matchhere]
    exact ⟨fun _ => prefixMatch_nil text, fun _ => rfl⟩
  | [c], text => by
    by_cases hc : c = '$'
    · subst hc
      rw [matchhere_dollar, prefixMatch_dollar]
      cases text <;> simp
    · exact matchhere_one_iff (fun r h => List.cons_ne_nil _ _ h.symm) (fun h => hc h.1)
        (matchhere_iff []) text
  | c :: d :: re, text => by
    by_cases hd : d = '*'
    · subst hd
      exact matchhere_star_iff (matchhere_iff re) text
    · exact matchhere_one_iff (fun r h => hd (List.cons.inj h).1) (fun h => List.cons_ne_nil d re h.2)
        (matchhere_iff (d :: re)) text

/-- The loop of `match` passes iff `matchhere` passes at some position, the end included. -/
theorem matchFrom_iff (re : List Char) :
    ∀ text, matchFrom re text = true ↔ ∃ i ≤ text.length, matchhere re (text.drop i) = true
  | [] => by
    rw [matchFrom]
    constructor
    · intro h
      exact ⟨0, Nat.le_refl 0, h⟩
    · rintro ⟨i, -, h⟩
      simpa using h
  | t :: text => by
    rw [matchFrom, Bool.or_eq_true, matchFrom_iff re text]
    constructor
    · rintro (h | ⟨i, hi, h⟩)
      · exact ⟨0, Nat.zero_le _, h⟩
      · exact ⟨i + 1, by simpa using hi, h⟩
    · rintro ⟨i, hi, h⟩
      cases i with
      | zero => exact .inl h
      | succ i => exact .inr ⟨i, by simpa using hi, h⟩

/-- **The matcher of `grep` decides its language.** `match(re, text)` returns 1 iff, at the
start after a leading `^` and otherwise at some position from `0` to the end of `text`, a
prefix of the text is in the language of the atoms of the rest of `re`, all of the text when
it ends in `$`. -/
theorem match_decides (re text : List Char) : matchRe re text = true ↔ Accepts re text := by
  by_cases ha : ∃ r, re = '^' :: r
  · obtain ⟨r, rfl⟩ := ha
    rw [matchRe, Accepts, matchhere_iff]
  · have hne : ∀ r, re = '^' :: r → False := fun r h => ha ⟨r, h⟩
    rw [matchRe.eq_2 re text hne, Accepts.eq_2 re text hne, matchFrom_iff]
    simp only [matchhere_iff]

-- `a**` is `a*` followed by the character `*`
example : matchRe ['a', '*', '*'] ['x', '*'] = true := by decide

-- a `$` that is not last is a character
example : matchRe ['^', '$', 'x', '$'] ['$', 'x'] = true := by decide

end Xv6Lab.Grep
