import Xv6Lab.User.Regex

/-!
# The read loop of `grep`

`grep(pattern, fd)` reads into `char buf[1024]` after the `m` bytes of a partial line it
keeps at the front, asking for `sizeof(buf) - m - 1` bytes so that a `NUL` fits after them.
It then writes every line up to a newline in the buffer that `match`es, and moves the rest,
the start of the next line, to the front. The stream is the list of characters `read`
returns, and `cs` the sizes the kernel hands out, read by read: a read returns at most what
is asked, at most its size in `cs` (once `cs` runs out, all it can), and at most what is left.

Processing a stream read by read is processing it at once (`grepLoop_eq_scan`) as long as
every line fits in the buffer with its newline and the `NUL`: 1022 characters. A line of 1023
characters or more fills the buffer without a newline; the next `read` asks for 0 bytes,
returns 0, and the loop ends, so that nothing after it is written (`grep_drops_after_long_line`).
-/

namespace Xv6Lab.Grep

/-- `sizeof(buf)`. -/
def bufSize : ℕ := 1024

/-- The inner loop of `grep` over the bytes in `buf`, `line` being the part of the current line
scanned so far: at each newline `strchr` finds, the line before it is written with its newline
when it matches. Returns what was written and the start of the next line. -/
def scan (pattern line : List Char) : List Char → List Char × List Char
  | [] => ([], line)
  | c :: rest =>
    if c = '\n' then
      ((if matchRe pattern line then line ++ ['\n'] else []) ++ (scan pattern [] rest).1,
        (scan pattern [] rest).2)
    else scan pattern (line ++ [c]) rest

/-- The outer loop of `grep`, with the partial line `buf` in the buffer and the stream `s` still
to read: `read(fd, buf+m, sizeof(buf)-m-1)`, and while it returns bytes, the lines up to the
last newline written and the rest moved to the front (`memmove(buf, p, m)`). What it writes. -/
def grepLoop (pattern : List Char) : ℕ → List ℕ → List Char → List Char → List Char
  | 0, _, _, _ => []
  | fuel + 1, cs, buf, s =>
    let chunk := s.take (min (bufSize - buf.length - 1) (cs.headD s.length))
    if 0 < chunk.length then
      (scan pattern [] (buf ++ chunk)).1 ++
        grepLoop pattern fuel cs.tail (scan pattern [] (buf ++ chunk)).2 (s.drop chunk.length)
    else []

/-- `grep(pattern, fd)` on the stream `s`, read in the sizes `cs`: every pass reads a byte or
ends the loop, so `s.length + 1` passes are enough. -/
def grep (pattern : List Char) (cs : List ℕ) (s : List Char) : List Char :=
  grepLoop pattern (s.length + 1) cs [] s

/-! ### Scanning -/

section Scan

variable (pattern : List Char)

theorem scan_newline (line rest : List Char) :
    scan pattern line ('\n' :: rest) =
      ((if matchRe pattern line then line ++ ['\n'] else []) ++ (scan pattern [] rest).1,
        (scan pattern [] rest).2) :=
  if_pos rfl

theorem scan_char {c : Char} (hc : c ≠ '\n') (line rest : List Char) :
    scan pattern line (c :: rest) = scan pattern (line ++ [c]) rest :=
  if_neg hc

/-- Bytes with no newline only lengthen the current line. -/
theorem scan_of_no_newline : ∀ {line w : List Char}, '\n' ∉ w →
    scan pattern line w = ([], line ++ w)
  | line, [], _ => by rw [List.append_nil]; rfl
  | line, c :: w, hw => by
    have hc : c ≠ '\n' := fun h => hw (h ▸ List.mem_cons_self)
    rw [scan_char pattern hc, scan_of_no_newline (fun h => hw (List.mem_cons_of_mem c h)),
      List.append_assoc, List.singleton_append]

/-- Scanning two pieces one after the other is scanning them together: the second piece goes
on from the line the first one left. -/
theorem scan_append : ∀ (line a b : List Char), scan pattern line (a ++ b) =
    ((scan pattern line a).1 ++ (scan pattern (scan pattern line a).2 b).1,
      (scan pattern (scan pattern line a).2 b).2)
  | line, [], b => rfl
  | line, c :: a, b => by
    by_cases hc : c = '\n'
    · subst hc
      rw [List.cons_append, scan_newline, scan_newline, scan_append [] a b, List.append_assoc]
    · rw [List.cons_append, scan_char pattern hc, scan_char pattern hc, scan_append (line ++ [c]) a b]

theorem scan_append_fst (line a b : List Char) : (scan pattern line (a ++ b)).1 =
    (scan pattern line a).1 ++ (scan pattern (scan pattern line a).2 b).1 := by
  rw [scan_append]

/-- A line ended by a newline is written when it matches, and scanning goes on after it. -/
theorem scan_line {l : List Char} (hl : '\n' ∉ l) (rest : List Char) :
    scan pattern [] (l ++ '\n' :: rest) =
      ((if matchRe pattern l then l ++ ['\n'] else []) ++ (scan pattern [] rest).1,
        (scan pattern [] rest).2) := by
  rw [scan_append, scan_of_no_newline pattern hl, List.nil_append, scan_newline, List.nil_append]

/-- What is left after a scan is the end of what was scanned, with no newline in it. -/
theorem scan_rest : ∀ {line : List Char} (w : List Char), '\n' ∉ line →
    '\n' ∉ (scan pattern line w).2 ∧ ∃ u, line ++ w = u ++ (scan pattern line w).2
  | line, [], hl => ⟨hl, [], by rw [List.append_nil, List.nil_append]; rfl⟩
  | line, c :: w, hl => by
    by_cases hc : c = '\n'
    · -- the line ends here; what is left comes after
      obtain ⟨hr, u, hu⟩ := scan_rest w List.not_mem_nil
      subst hc
      rw [scan_newline]
      refine ⟨hr, line ++ ['\n'] ++ u, ?_⟩
      rw [List.append_assoc, List.append_assoc, ← hu, List.nil_append, List.singleton_append]
    · have hl' : '\n' ∉ line ++ [c] := by
        simp only [List.mem_append, List.mem_singleton, not_or]
        exact ⟨hl, fun h => hc h.symm⟩
      obtain ⟨hr, u, hu⟩ := scan_rest w hl'
      rw [scan_char pattern hc]
      exact ⟨hr, u, by rw [← hu, List.append_assoc, List.singleton_append]⟩

end Scan

/-! ### Lines that fit -/

/-- Every line of `s` that a newline ends has at most `1022` characters, so that with its
newline and a `NUL` it fits in `buf`. -/
def LinesFit (s : List Char) : Prop :=
  ∀ u w v, s = u ++ w ++ '\n' :: v → '\n' ∉ w → w.length ≤ bufSize - 2

theorem LinesFit.of_append {u s : List Char} (h : LinesFit (u ++ s)) : LinesFit s :=
  fun u' w v he hw => h (u ++ u') w v (by rw [he, List.append_assoc, List.append_assoc,
    List.append_assoc]) hw

/-- A stream shorter than the buffer has every line fit. -/
theorem linesFit_of_length_lt {s : List Char} (h : s.length < bufSize - 1) : LinesFit s := by
  intro u w v he _
  have hlen := congrArg List.length he
  simp only [List.length_append, List.length_cons] at hlen
  omega

theorem exists_first_newline : ∀ {s : List Char}, '\n' ∈ s → ∃ w v, s = w ++ '\n' :: v ∧ '\n' ∉ w
  | [], h => absurd h List.not_mem_nil
  | c :: s, h => by
    by_cases hc : c = '\n'
    · exact ⟨[], s, by rw [hc, List.nil_append], List.not_mem_nil⟩
    · obtain ⟨w, v, rfl, hw⟩ := exists_first_newline ((List.mem_cons.mp h).resolve_left (Ne.symm hc))
      refine ⟨c :: w, v, rfl, ?_⟩
      simp only [List.mem_cons, not_or]
      exact ⟨Ne.symm hc, hw⟩

/-- The current line, kept in `buf`, has room for another byte while a newline is ahead. -/
theorem LinesFit.room {r s : List Char} (h : LinesFit (r ++ s)) (hr : '\n' ∉ r) (hs : '\n' ∈ s) :
    r.length ≤ bufSize - 2 := by
  obtain ⟨w, v, rfl, hw⟩ := exists_first_newline hs
  have hrw : '\n' ∉ r ++ w := by
    simp only [List.mem_append, not_or]
    exact ⟨hr, hw⟩
  have hle := h [] (r ++ w) v (by rw [List.nil_append, List.append_assoc]) hrw
  rw [List.length_append] at hle
  omega

/-! ### The read loop -/

section Loop

variable (pattern : List Char)

/-- With no newline in the buffer or ahead, nothing is written. -/
theorem grepLoop_of_no_newline : ∀ (fuel : ℕ) (cs : List ℕ) {buf s : List Char},
    '\n' ∉ buf → '\n' ∉ s → grepLoop pattern fuel cs buf s = []
  | 0, _, _, _, _, _ => rfl
  | fuel + 1, cs, buf, s, hb, hs => by
    simp only [grepLoop]
    split_ifs with hpos
    · -- the bytes read come from `s`, so the buffer still holds no newline
      have hc : '\n' ∉ buf ++ s.take (min (bufSize - buf.length - 1) (cs.headD s.length)) := by
        simp only [List.mem_append, not_or]
        exact ⟨hb, fun h => hs (List.mem_of_mem_take h)⟩
      rw [scan_of_no_newline pattern hc, List.nil_append, List.nil_append,
        grepLoop_of_no_newline fuel cs.tail hc (fun h => hs (List.mem_of_mem_drop h))]
    · rfl

/-- **Read by read is all at once.** From a partial line with no newline, on a stream whose
lines fit, with reads that return bytes while bytes are left, the loop writes what scanning
the rest of the stream at once writes. By induction on the passes: each one reads at least a
byte, since a newline ahead leaves room in the buffer. -/
theorem grepLoop_eq_scan : ∀ (fuel : ℕ) (cs : List ℕ) {r s : List Char}, (∀ c ∈ cs, 0 < c) →
    '\n' ∉ r → LinesFit (r ++ s) → s.length < fuel →
    grepLoop pattern fuel cs r s = (scan pattern r s).1
  | 0, _, _, _, _, _, _, hf => absurd hf (Nat.not_lt_zero _)
  | fuel + 1, cs, r, s, hcs, hr, hfit, hf => by
    by_cases hs : '\n' ∈ s
    · have hroom := hfit.room hr hs
      have hne : s ≠ [] := fun h => by rw [h] at hs; exact List.not_mem_nil hs
      simp only [grepLoop]
      generalize hn : min (bufSize - r.length - 1) (cs.headD s.length) = n
      -- the read returns at least one byte, since there is room and a byte is left
      have hn0 : 0 < n := by
        have hhead : 0 < cs.headD s.length := by
          cases cs with
          | nil => exact List.length_pos_iff.mpr hne
          | cons c cs => exact hcs c List.mem_cons_self
        have hbuf : 0 < bufSize - r.length - 1 := by
          simp only [bufSize] at hroom ⊢
          omega
        omega
      have hpos : 0 < (s.take n).length := by
        rw [List.length_take]
        exact Nat.lt_min.mpr ⟨hn0, List.length_pos_iff.mpr hne⟩
      have hdrop : s.drop (s.take n).length = s.drop n := by
        rw [List.length_take]
        by_cases hle : n ≤ s.length
        · rw [Nat.min_eq_left hle]
        · rw [Nat.min_eq_right (by omega), List.drop_length, List.drop_eq_nil_of_le (by omega)]
      have hscan : scan pattern [] (r ++ s.take n) = scan pattern r (s.take n) := by
        rw [scan_append, scan_of_no_newline pattern hr, List.nil_append, List.nil_append]
      -- what is left of the line, and the rest of the stream, still fit
      obtain ⟨hr', u, hu⟩ := scan_rest pattern (s.take n) hr
      have hsplit : r ++ s = u ++ ((scan pattern r (s.take n)).2 ++ s.drop n) := by
        rw [← List.append_assoc, ← hu, List.append_assoc, List.take_append_drop]
      rw [hsplit] at hfit
      have hlen : (s.drop n).length < fuel := by
        rw [List.length_drop]
        have := List.length_pos_iff.mpr hne
        omega
      rw [if_pos hpos, hscan, hdrop,
        grepLoop_eq_scan fuel cs.tail (fun c hc => hcs c (List.mem_of_mem_tail hc)) hr' hfit.of_append hlen,
        ← scan_append_fst, List.take_append_drop]
    · rw [grepLoop_of_no_newline pattern _ cs hr hs, scan_of_no_newline pattern hs]

/-- A line of `1023` characters or more, with no newline, is read into the buffer until it is
full, and nothing is written. By induction on the passes, with `k` bytes of the line read. -/
theorem grepLoop_long_line {L : List Char} (hL : '\n' ∉ L) (hlen : bufSize - 1 ≤ L.length)
    (rest : List Char) : ∀ (fuel : ℕ) (cs : List ℕ) (k : ℕ), k ≤ bufSize - 1 →
    grepLoop pattern fuel cs (L.take k) (L.drop k ++ rest) = []
  | 0, _, _, _ => rfl
  | fuel + 1, cs, k, hk => by
    simp only [grepLoop]
    have hbuf : (L.take k).length = k := by
      rw [List.length_take]
      omega
    rw [hbuf]
    generalize hn : min (bufSize - k - 1) (cs.headD (L.drop k ++ rest).length) = n
    have hnk : n ≤ bufSize - 1 - k := by omega
    -- the bytes read all come from the line
    have htake : (L.drop k ++ rest).take n = (L.drop k).take n :=
      List.take_append_of_le_length (by rw [List.length_drop]; omega)
    have hread : L.take k ++ (L.drop k).take n = L.take (k + n) := List.take_add.symm
    have hchunk : ((L.drop k).take n).length = n := by
      rw [List.length_take, List.length_drop]
      omega
    split_ifs with hpos
    · have hnl : '\n' ∉ L.take (k + n) := fun h => hL (List.mem_of_mem_take h)
      have hrest : (L.drop k ++ rest).drop n = L.drop (k + n) ++ rest := by
        rw [List.drop_append_of_le_length (by rw [List.length_drop]; omega), List.drop_drop]
      rw [htake, hread, hchunk, scan_of_no_newline pattern hnl, List.nil_append, List.nil_append,
        hrest, grepLoop_long_line hL hlen rest fuel cs.tail (k + n) (by omega)]
    · rfl

end Loop

/-- **`grep` stops at a long line.** Once a line of `1023` characters or more has started, for
every pattern and every way `read` splits the stream, `grep` writes nothing: not that line, and
no line after it. -/
theorem grep_drops_after_long_line (pattern : List Char) (cs : List ℕ) {L : List Char}
    (hL : '\n' ∉ L) (hlen : 1023 ≤ L.length) (rest : List Char) :
    grep pattern cs (L ++ rest) = [] := by
  have h := grepLoop_long_line pattern hL hlen rest ((L ++ rest).length + 1) cs 0 (Nat.zero_le _)
  rwa [List.take_zero, List.drop_zero] at h

/-- A line of `1023` characters `a`, then the line `b`: `grep ^b` writes nothing, where the
line `b` and its newline match. -/
theorem grep_drops_after_long_line_b :
    '\n' ∉ List.replicate 1023 'a' ∧ 1023 ≤ (List.replicate 1023 'a').length ∧
      grep ['^', 'b'] [] (List.replicate 1023 'a' ++ ['\n', 'b', '\n']) = [] ∧
      (scan ['^', 'b'] [] (List.replicate 1023 'a' ++ ['\n', 'b', '\n'])).1 = ['b', '\n'] := by
  have hnl : '\n' ∉ List.replicate 1023 'a' := fun h => absurd (List.eq_of_mem_replicate h) (by decide)
  have hlen : 1023 ≤ (List.replicate 1023 'a').length := Nat.le_of_eq List.length_replicate.symm
  refine ⟨hnl, hlen, grep_drops_after_long_line ['^', 'b'] [] hnl hlen _, ?_⟩
  -- the long line starts with `a`, so `^b` fails at its first character
  have hno : matchRe ['^', 'b'] (List.replicate 1023 'a') = false := by
    rw [show List.replicate 1023 'a' = 'a' :: List.replicate 1022 'a' from rfl]
    rfl
  rw [scan_line ['^', 'b'] hnl, hno]
  rfl

end Xv6Lab.Grep
