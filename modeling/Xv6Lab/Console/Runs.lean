import Xv6Lab.Console.Ring

/-!
# Runs of the console

`BufInv` is what every run keeps of the buffer: the ring is well formed, the queue holds the
committed bytes no read has taken, and while the buffer has never filled the committed bytes
and the line are the typed characters cooked. `ReadInv` is what it keeps of the reading
process: the bytes of its calls are taken bytes, in order, and while the buffer has never
filled and no `either_copyout` has failed, the reads returned what reading the cooked stream
a line at a time gives. `reachable_inv` is the run lemma.

`console_full_buffer_commits` is a run that fills the buffer: the full buffer hands the line
to the reader before it ends, a later `^H` cannot take its last byte back, and a read returns
bytes that line editing has erased.
-/

namespace Xv6Lab.Console

open RingIndex

/-- The byte at `r`. -/
def Cons.head (cs : Cons) : UInt8 := cs.buf (cs.r % inputBufSize.toUInt32).toNat

/-- What every run keeps of the buffer. -/
structure BufInv (σ : ConsSys) : Prop where
  wf : σ.cons.Wf
  taken : σ.taken ++ σ.cons.queue = σ.committed
  cooked : σ.full = false → (σ.cons.e - σ.cons.r).toNat < inputBufSize ∧
    σ.committed = (cook σ.typed).1 ∧ σ.cons.line = (cook σ.typed).2

/-- What every run keeps of the reading process. -/
structure ReadInv (σ : ConsSys) : Prop where
  idle : σ.call = .idle → σ.copied = []
  reading : ∀ t n, σ.call = .reading t n →
    0 < t ∧ n ≤ t ∧ σ.copied.length = t - n ∧ ∀ x ∈ σ.copied, ¬ Ends x
  returned : (σ.returned.flatten ++ σ.copied).Sublist σ.taken
  lines : σ.full = false → σ.failed = false →
    ∃ U, readLines σ.targets σ.committed = some (σ.returned, U) ∧ σ.taken = U ++ σ.copied

/-! ### The buffer -/

theorem bufInv_boot (buf : ℕ → UInt8) (x : UInt32) : BufInv (ConsSys.boot buf x) := by
  refine ⟨⟨by simp [ConsSys.boot], by simp [ConsSys.boot, inputBufSize],
    by simp [ConsSys.boot, Cons.line, Cons.seg]⟩, ?_, fun _ => ?_⟩
  · simp [ConsSys.boot, Cons.queue, Cons.seg]
  · refine ⟨by simp [ConsSys.boot, inputBufSize], rfl, ?_⟩
    simp [ConsSys.boot, Cons.line, Cons.seg]

/-- A step that leaves the console and the bytes in and out of it. -/
theorem BufInv.congr {σ σ' : ConsSys} (h : BufInv σ) (hc : σ'.cons = σ.cons)
    (ht : σ'.taken = σ.taken) (hcom : σ'.committed = σ.committed) (hty : σ'.typed = σ.typed)
    (hf : σ'.full = σ.full) : BufInv σ' := by
  refine ⟨hc ▸ h.wf, by rw [hc, ht, hcom]; exact h.taken, fun hfull => ?_⟩
  rw [hc, hcom, hty]
  exact h.cooked (hf ▸ hfull)

/-- The pass that takes the byte at `r` out of the queue. -/
theorem BufInv.take {σ σ' : ConsSys} (h : BufInv σ) (hne : σ.cons.r ≠ σ.cons.w)
    (hc : σ'.cons = { σ.cons with r := σ.cons.r + 1 }) (ht : σ'.taken = σ.taken ++ [σ.cons.head])
    (hcom : σ'.committed = σ.committed) (hty : σ'.typed = σ.typed) (hf : σ'.full = σ.full) :
    BufInv σ' := by
  obtain ⟨hq, hw'⟩ := h.wf.take hne
  have hre : σ.cons.r ≠ σ.cons.e := ne_of_dist_le h.wf.w_le hne
  refine ⟨hc ▸ hw', ?_, fun hfull => ?_⟩
  · rw [hc, ht, hcom, ← h.taken, hq, List.append_assoc]
    rfl
  · obtain ⟨hlt, hcom', hline⟩ := h.cooked (hf ▸ hfull)
    rw [hc, hcom, hty]
    refine ⟨?_, hcom', hline⟩
    show (σ.cons.e - (σ.cons.r + 1)).toNat < inputBufSize
    rw [dist_cons hre]
    omega

/-- With room for two more bytes, or a character that stores nothing, `consoleintr` is a step
of line editing. -/
theorem cookStep_edit {cs : Cons} (hw : cs.Wf) {d : List UInt8} {c : UInt8}
    (hroom : 0 < cs.room)
    (hfill : ((consoleintr cs c).e - (consoleintr cs c).r).toNat ≠ inputBufSize) :
    cookStep (d, cs.line) c = (d ++ (edit cs.line c cs.room).1, (edit cs.line c cs.room).2) := by
  by_cases hs : c = ctrl 'P' ∨ c = 0 ∨ c = ctrl 'U' ∨ c = ctrl 'H' ∨ c = '\x7f'.toUInt8
  · exact edit_of_not_stores _ _ _ _ hs
  · -- a byte stored with room for one fills the buffer
    apply edit_of_two_le
    by_contra hlt
    apply hfill
    obtain ⟨-, hq, -, hl, hw'⟩ := consoleintr_spec hw c
    have hcount := hw.count
    have hlen := edit_length cs.line hs hroom
    rw [hw'.count, hq, hl, List.length_append, Nat.add_assoc, hlen]
    simp only [Cons.room] at hroom hlt
    omega

theorem BufInv.intr {σ : ConsSys} (h : BufInv σ) (c : UInt8) : BufInv (σ.intr c) := by
  obtain ⟨-, hq, hchunk, hl, hw'⟩ := consoleintr_spec h.wf c
  refine ⟨hw', ?_, fun hfull => ?_⟩
  · show σ.taken ++ (consoleintr σ.cons c).queue =
      σ.committed ++ (consoleintr σ.cons c).seg σ.cons.w (consoleintr σ.cons c).w
    rw [hq, hchunk, ← List.append_assoc, h.taken]
  · -- the buffer has not filled, before this character or with it
    have hf : σ.full = false ∧
        ¬ ((consoleintr σ.cons c).e - (consoleintr σ.cons c).r).toNat = inputBufSize := by
      simpa [ConsSys.intr] using hfull
    obtain ⟨hlt, hcom, hline⟩ := h.cooked hf.1
    have hcook : cook σ.typed = (σ.committed, σ.cons.line) := Prod.ext hcom.symm hline.symm
    have hstep := cookStep_edit h.wf (d := σ.committed) ((room_pos_iff _ h.wf).mpr hlt) hf.2
    refine ⟨Nat.lt_of_le_of_ne hw'.e_le hf.2, ?_, ?_⟩
    · show σ.committed ++ (consoleintr σ.cons c).seg σ.cons.w (consoleintr σ.cons c).w =
        (cook (σ.typed ++ [c])).1
      rw [cook_concat, hcook, hstep, hchunk]
    · show (consoleintr σ.cons c).line = (cook (σ.typed ++ [c])).2
      rw [cook_concat, hcook, hstep, hl]

/-! ### The passes of `consoleread` -/

section Passes

variable {cs : Cons} {killed ok : Bool} {t n : ℕ}

theorem readPass_done : readPass cs killed ok t 0 = (cs, none, none, .inl ((t - 0 : ℕ) : ℤ)) := by
  simp [readPass]

theorem readPass_killed (hn : 0 < n) (he : cs.r = cs.w) :
    readPass cs true ok t n = (cs, none, none, .inl (-1)) := by
  simp [readPass, hn, he]

theorem readPass_sleep (hn : 0 < n) (he : cs.r = cs.w) :
    readPass cs false ok t n = (cs, none, none, .inr (.reading t n)) := by
  simp [readPass, hn, he]

/-- A `^D` after bytes copied is put back. -/
theorem readPass_eof_back (hn : 0 < n) (he : cs.r ≠ cs.w) (hD : cs.head = ctrl 'D')
    (hlt : n < t) : readPass cs killed ok t n = (cs, none, none, .inl ((t - n : ℕ) : ℤ)) := by
  unfold Cons.head at hD
  simp only [readPass, if_pos hn, if_neg he, if_pos hD, if_pos hlt, UInt32.add_sub_cancel]

theorem readPass_eof (hn : 0 < n) (he : cs.r ≠ cs.w) (hD : cs.head = ctrl 'D')
    (hge : ¬ n < t) :
    readPass cs killed ok t n =
      ({ cs with r := cs.r + 1 }, some cs.head, none, .inl ((t - n : ℕ) : ℤ)) := by
  unfold Cons.head at hD ⊢
  simp only [readPass, if_pos hn, if_neg he, if_pos hD, if_neg hge]

theorem readPass_newline (hn : 0 < n) (he : cs.r ≠ cs.w) (hnl : cs.head = nl) :
    readPass cs killed true t n =
      ({ cs with r := cs.r + 1 }, some cs.head, some cs.head, .inl ((t - (n - 1) : ℕ) : ℤ)) := by
  unfold Cons.head at hnl ⊢
  simp only [readPass, if_pos hn, if_neg he, if_true, hnl]
  rfl

theorem readPass_byte (hn : 0 < n) (he : cs.r ≠ cs.w) (hD : cs.head ≠ ctrl 'D')
    (hnl : cs.head ≠ nl) :
    readPass cs killed true t n =
      ({ cs with r := cs.r + 1 }, some cs.head, some cs.head, .inr (.reading t (n - 1))) := by
  unfold Cons.head at hD hnl ⊢
  simp only [readPass, if_pos hn, if_neg he, if_neg hD, if_true]
  exact if_neg hnl

theorem readPass_fail (hn : 0 < n) (he : cs.r ≠ cs.w) (hD : cs.head ≠ ctrl 'D') :
    readPass cs killed false t n =
      ({ cs with r := cs.r + 1 }, some cs.head, none, .inl ((t - n : ℕ) : ℤ)) := by
  unfold Cons.head at hD ⊢
  simp only [readPass, if_pos hn, if_neg he, if_neg hD, Bool.false_eq_true, if_false]

end Passes

theorem ret_count (σ : ConsSys) (t k : ℕ) :
    σ.ret t (k : ℤ) =
      { σ with
        call := .idle
        copied := []
        targets := σ.targets ++ [t]
        returned := σ.returned ++ [σ.copied] } :=
  if_pos (Int.natCast_nonneg k)

theorem ret_neg (σ : ConsSys) (t : ℕ) : σ.ret t (-1) = { σ with call := .idle, copied := [] } :=
  if_neg (by decide)

/-! ### What a read returns -/

/-- A read that has copied `p`, `t - n` bytes that end nothing, goes on as a read of `n`. -/
theorem readLine_after {p s : List UInt8} (hp : ∀ x ∈ p, ¬ Ends x) {t n : ℕ}
    (hlen : p.length = t - n) (hnt : n ≤ t) :
    readLine true t (p ++ s) = (readLine p.isEmpty n s).map fun r => (p ++ r.1, p ++ r.2) := by
  rw [readLine_plain_append hp (by omega), Bool.true_and]
  congr 2
  omega

theorem readLine_eof {n : ℕ} (hn : 0 < n) (first : Bool) (s : List UInt8) :
    readLine first n (ctrl 'D' :: s) = some ([], if first then [ctrl 'D'] else []) := by
  obtain ⟨n, rfl⟩ : ∃ m, n = m + 1 := ⟨n - 1, by omega⟩
  simp only [readLine, if_true]

theorem readLine_nl {n : ℕ} (hn : 0 < n) (first : Bool) (s : List UInt8) :
    readLine first n (nl :: s) = some ([nl], [nl]) := by
  obtain ⟨n, rfl⟩ : ∃ m, n = m + 1 := ⟨n - 1, by omega⟩
  simp [readLine]

/-- In a run where the buffer never filled, the committed bytes end with whole lines: a read
that has copied bytes never finds the queue empty. -/
theorem copied_nil {σ : ConsSys} (hb : BufInv σ) {U : List UInt8}
    (hU : σ.taken = U ++ σ.copied) (hends : ∀ x ∈ σ.copied, ¬ Ends x) (hfull : σ.full = false)
    (hq : σ.cons.queue = []) : σ.copied = [] := by
  obtain ⟨-, hcom, -⟩ := hb.cooked hfull
  have htaken : σ.taken = (cook σ.typed).1 := by rw [← hcom, ← hb.taken, hq, List.append_nil]
  rcases List.eq_nil_or_concat σ.copied with hc | ⟨p, x, hc⟩
  · exact hc
  · rcases cook_fst_ends σ.typed with he | ⟨d, y, he, hy⟩
    · rw [← htaken, hU, hc] at he
      simp at he
    · rw [← htaken, hU, hc, List.concat_eq_append, ← List.append_assoc] at he
      have hxy : x = y := (List.append_inj' he rfl).2 |> List.singleton_inj.mp
      exact absurd (hxy ▸ hy) (hends x (by rw [hc]; simp))

/-! ### The reading process -/

theorem readInv_boot (buf : ℕ → UInt8) (x : UInt32) : ReadInv (ConsSys.boot buf x) :=
  ⟨fun _ => rfl, fun _ _ h => by simp [ConsSys.boot] at h, List.Sublist.slnil,
    fun _ _ => ⟨[], rfl, rfl⟩⟩

theorem ReadInv.intr {σ : ConsSys} (h : ReadInv σ) (c : UInt8) : ReadInv (σ.intr c) := by
  refine ⟨h.idle, h.reading, h.returned, fun hfull hfail => ?_⟩
  have hf : σ.full = false := by simp_all [ConsSys.intr]
  obtain ⟨U, hR, hU⟩ := h.lines hf hfail
  exact ⟨U, readLines_append hR _, hU⟩

theorem ReadInv.read {σ : ConsSys} (hb : BufInv σ) (h : ReadInv σ) (hidle : σ.call = .idle)
    (n : ℤ) :
    ReadInv (if 0 < n then { σ with call := .reading n.toNat n.toNat } else σ.ret 0 0) := by
  have hc := h.idle hidle
  split_ifs with hn
  · refine ⟨fun h' => by simp at h', fun t m h' => ?_, h.returned, h.lines⟩
    simp only [Call.reading.injEq] at h'
    obtain ⟨rfl, rfl⟩ := h'
    refine ⟨by omega, Nat.le_refl _, by simp [hc], by simp [hc]⟩
  · -- a read of `n ≤ 0` returns `0` and uses nothing up
    rw [show σ.ret 0 0 = σ.ret 0 ((0 : ℕ) : ℤ) from rfl, ret_count]
    refine ⟨fun _ => rfl, fun _ _ h' => by simp at h', by simpa [hc] using h.returned,
      fun hfull hfail => ?_⟩
    obtain ⟨U, hR, hU⟩ := h.lines hfull hfail
    have hs : σ.committed = U ++ σ.cons.queue := by rw [← hb.taken, hU, hc, List.append_nil]
    refine ⟨U ++ [], ?_, by simp [hU, hc]⟩
    rw [hc]
    exact readLines_concat hR hs (show readLine true 0 σ.cons.queue = some ([], []) from rfl)

/-- One pass of `consoleread` keeps what holds of the reading process. -/
theorem ReadInv.pass {σ : ConsSys} (hb : BufInv σ) (h : ReadInv σ) {t n : ℕ}
    (hc : σ.call = .reading t n) (ok : Bool) : ReadInv (σ.pass ok t n) := by
  obtain ⟨ht0, hnt, hlen, hends⟩ := h.reading t n hc
  -- the stream from where the earlier reads stopped
  have hstream : ∀ U, σ.taken = U ++ σ.copied → σ.committed = U ++ (σ.copied ++ σ.cons.queue) :=
    fun U hU => by rw [← hb.taken, hU, List.append_assoc]
  have hafter := readLine_after (s := σ.cons.queue) hends hlen hnt
  rcases Nat.eq_zero_or_pos n with rfl | hn
  · -- the count is reached: the call returns it
    simp only [ConsSys.pass, readPass_done, ret_count, Option.toList_none, List.append_nil]
    refine ⟨fun _ => rfl, fun _ _ h' => by simp at h', by simpa using h.returned,
      fun hfull hfail => ?_⟩
    obtain ⟨U, hR, hU⟩ := h.lines hfull (Bool.or_eq_false_iff.mp hfail).1
    have hr : readLine true t (σ.copied ++ σ.cons.queue) = some (σ.copied, σ.copied) := by
      rw [hafter]
      simp [readLine]
    exact ⟨U ++ σ.copied, readLines_concat hR (hstream U hU) hr, by simp [hU]⟩
  by_cases he : σ.cons.r = σ.cons.w
  · cases hk : σ.killed with
    | true =>
      -- a killed process returns `-1`: in a run that never filled it had copied nothing
      simp only [ConsSys.pass, hk, readPass_killed hn he, ret_neg, Option.toList_none,
        List.append_nil]
      refine ⟨fun _ => rfl, fun _ _ h' => by simp at h',
        by simpa using (List.sublist_append_left _ _).trans h.returned, fun hfull hfail => ?_⟩
      obtain ⟨U, hR, hU⟩ := h.lines hfull (Bool.or_eq_false_iff.mp hfail).1
      have hq : σ.cons.queue = [] := by simp [Cons.queue, Cons.seg, he]
      have hnil := copied_nil hb hU hends hfull hq
      exact ⟨U, hR, by simp [hU, hnil]⟩
    | false =>
      -- it sleeps
      simp only [ConsSys.pass, hk, readPass_sleep hn he, Option.toList_none, List.append_nil]
      refine ⟨fun h' => by simp at h', fun t' n' h' => ?_, h.returned,
        fun hfull hfail => h.lines hfull (Bool.or_eq_false_iff.mp hfail).1⟩
      simp only [Call.reading.injEq] at h'
      obtain ⟨rfl, rfl⟩ := h'
      exact ⟨ht0, hnt, hlen, hends⟩
  obtain ⟨hq, -⟩ := hb.wf.take he
  by_cases hD : σ.cons.head = ctrl 'D'
  · by_cases hlt : n < t
    · -- a `^D` after bytes copied: it is put back and the call returns them
      simp only [ConsSys.pass, readPass_eof_back hn he hD hlt, ret_count, Option.toList_none,
        List.append_nil]
      refine ⟨fun _ => rfl, fun _ _ h' => by simp at h', by simpa using h.returned,
        fun hfull hfail => ?_⟩
      obtain ⟨U, hR, hU⟩ := h.lines hfull (Bool.or_eq_false_iff.mp hfail).1
      have hne : σ.copied.isEmpty = false := by
        rw [List.isEmpty_eq_false_iff_exists_mem]
        exact List.exists_mem_of_length_pos (by omega)
      have hr : readLine true t (σ.copied ++ σ.cons.queue) = some (σ.copied, σ.copied) := by
        rw [hafter, hne, hq]
        unfold Cons.head at hD
        rw [hD, readLine_eof hn]
        simp
      exact ⟨U ++ σ.copied, readLines_concat hR (hstream U hU) hr, by simp [hU]⟩
    · -- a `^D` first: it is used up and the call returns `0`
      have hnil : σ.copied = [] := List.eq_nil_of_length_eq_zero (by omega)
      simp only [ConsSys.pass, readPass_eof hn he hD hlt, ret_count, Option.toList_none,
        Option.toList_some, List.append_nil]
      refine ⟨fun _ => rfl, fun _ _ h' => by simp at h',
        by simpa using h.returned.trans (List.sublist_append_left _ _), fun hfull hfail => ?_⟩
      obtain ⟨U, hR, hU⟩ := h.lines hfull (Bool.or_eq_false_iff.mp hfail).1
      have hr : readLine true t (σ.copied ++ σ.cons.queue) = some ([], [ctrl 'D']) := by
        rw [hnil, List.nil_append, hq]
        unfold Cons.head at hD
        rw [hD, readLine_eof ht0]
        rfl
      refine ⟨U ++ [ctrl 'D'], ?_, by simp [hU, hnil, hD]⟩
      rw [hnil]
      exact readLines_concat hR (hstream U hU) hr
  cases ok with
  | false =>
    -- `either_copyout` fails: the byte is taken and the call returns what it had copied
    simp only [ConsSys.pass, readPass_fail hn he hD, ret_count, Option.toList_none,
      Option.toList_some, List.append_nil]
    refine ⟨fun _ => rfl, fun _ _ h' => by simp at h',
      by simpa using h.returned.trans (List.sublist_append_left _ _), fun _ hfail => ?_⟩
    simp at hfail
  | true =>
    by_cases hnl : σ.cons.head = nl
    · -- the newline is copied and ends the call
      simp only [ConsSys.pass, readPass_newline hn he hnl, ret_count, Option.toList_some]
      refine ⟨fun _ => rfl, fun _ _ h' => by simp at h',
        by simpa using h.returned.append (List.Sublist.refl [σ.cons.head]),
        fun hfull hfail => ?_⟩
      obtain ⟨U, hR, hU⟩ := h.lines hfull (Bool.or_eq_false_iff.mp hfail).1
      have hr : readLine true t (σ.copied ++ σ.cons.queue) =
          some (σ.copied ++ [nl], σ.copied ++ [nl]) := by
        rw [hafter, hq]
        unfold Cons.head at hnl
        rw [hnl, readLine_nl hn]
        rfl
      refine ⟨U ++ (σ.copied ++ [σ.cons.head]), ?_, by simp [hU]⟩
      rw [hnl]
      exact readLines_concat hR (hstream U hU) hr
    · -- any other byte is copied and the call goes on
      simp only [ConsSys.pass, readPass_byte hn he hD hnl, Option.toList_some]
      refine ⟨fun h' => by simp at h', fun t' n' h' => ?_,
        by simpa using h.returned.append (List.Sublist.refl [σ.cons.head]),
        fun hfull hfail => ?_⟩
      · simp only [Call.reading.injEq] at h'
        obtain ⟨rfl, rfl⟩ := h'
        refine ⟨ht0, by omega, by simp only [List.length_append, List.length_singleton]; omega,
          fun x hx => ?_⟩
        rcases List.mem_append.mp hx with hx | hx
        · exact hends x hx
        · rw [List.mem_singleton.mp hx]
          rintro (h' | h')
          exacts [hnl h', hD h']
      · obtain ⟨U, hR, hU⟩ := h.lines hfull (Bool.or_eq_false_iff.mp hfail).1
        exact ⟨U, hR, by simp [hU]⟩

/-! ### Every step -/

/-- A pass leaves the console, or takes the byte at `r`. -/
theorem readPass_take_cases (cs : Cons) (killed ok : Bool) (t n : ℕ) :
    ((readPass cs killed ok t n).1 = cs ∧ (readPass cs killed ok t n).2.1 = none) ∨
      (cs.r ≠ cs.w ∧ (readPass cs killed ok t n).1 = { cs with r := cs.r + 1 } ∧
        (readPass cs killed ok t n).2.1 = some cs.head) := by
  rcases Nat.eq_zero_or_pos n with rfl | hn
  · rw [readPass_done]
    exact .inl ⟨rfl, rfl⟩
  by_cases he : cs.r = cs.w
  · cases killed
    · rw [readPass_sleep hn he]
      exact .inl ⟨rfl, rfl⟩
    · rw [readPass_killed hn he]
      exact .inl ⟨rfl, rfl⟩
  by_cases hD : cs.head = ctrl 'D'
  · by_cases hlt : n < t
    · rw [readPass_eof_back hn he hD hlt]
      exact .inl ⟨rfl, rfl⟩
    · rw [readPass_eof hn he hD hlt]
      exact .inr ⟨he, rfl, rfl⟩
  cases ok
  · rw [readPass_fail hn he hD]
    exact .inr ⟨he, rfl, rfl⟩
  by_cases hnl : cs.head = nl
  · rw [readPass_newline hn he hnl]
    exact .inr ⟨he, rfl, rfl⟩
  · rw [readPass_byte hn he hD hnl]
    exact .inr ⟨he, rfl, rfl⟩

/-- The fields a pass of the call changes apart from the reader's. -/
theorem pass_fields (σ : ConsSys) (ok : Bool) (t n : ℕ) :
    (σ.pass ok t n).cons = (readPass σ.cons σ.killed ok t n).1 ∧
      (σ.pass ok t n).taken = σ.taken ++ (readPass σ.cons σ.killed ok t n).2.1.toList ∧
      (σ.pass ok t n).committed = σ.committed ∧ (σ.pass ok t n).typed = σ.typed ∧
      (σ.pass ok t n).full = σ.full := by
  dsimp only [ConsSys.pass]
  split
  · unfold ConsSys.ret
    split_ifs <;> exact ⟨rfl, rfl, rfl, rfl, rfl⟩
  · exact ⟨rfl, rfl, rfl, rfl, rfl⟩

theorem BufInv.pass {σ : ConsSys} (h : BufInv σ) (ok : Bool) (t n : ℕ) :
    BufInv (σ.pass ok t n) := by
  obtain ⟨hc, ht, hcom, hty, hf⟩ := pass_fields σ ok t n
  rcases readPass_take_cases σ.cons σ.killed ok t n with ⟨h1, h2⟩ | ⟨hne, h1, h2⟩
  · exact h.congr (hc.trans h1) (by rw [ht, h2, Option.toList_none, List.append_nil]) hcom hty hf
  · exact h.take hne (hc.trans h1) (by rw [ht, h2, Option.toList_some]) hcom hty hf

/-- Both invariants. -/
structure Inv (σ : ConsSys) : Prop where
  buf : BufInv σ
  read : ReadInv σ

theorem inv_boot (buf : ℕ → UInt8) (x : UInt32) : Inv (ConsSys.boot buf x) :=
  ⟨bufInv_boot buf x, readInv_boot buf x⟩

theorem Inv.step {σ σ' : ConsSys} (h : Inv σ) {a : Act} (hst : σ.step a = some (.ok σ')) :
    Inv σ' := by
  cases a with
  | intr c =>
    cases hst
    exact ⟨h.buf.intr c, h.read.intr c⟩
  | read n =>
    simp only [ConsSys.step] at hst
    split_ifs at hst with hidle hn <;> cases hst
    · have hr := h.read.read h.buf hidle n
      rw [if_pos hn] at hr
      exact ⟨h.buf.congr rfl rfl rfl rfl rfl, hr⟩
    · -- a count of at most `0` returns at once
      have hr := h.read.read h.buf hidle n
      rw [if_neg hn] at hr
      refine ⟨?_, hr⟩
      rw [show σ.ret 0 0 = σ.ret 0 ((0 : ℕ) : ℤ) from rfl, ret_count]
      exact h.buf.congr rfl rfl rfl rfl rfl
  | pass ok =>
    simp only [ConsSys.step] at hst
    split at hst
    · cases hst
    · rename_i t n hc
      cases hst
      exact ⟨h.buf.pass ok t n, h.read.pass h.buf hc ok⟩
  | kill =>
    cases hst
    exact ⟨h.buf.congr rfl rfl rfl rfl rfl, ⟨h.read.idle, h.read.reading, h.read.returned,
      h.read.lines⟩⟩

/-- The run lemma. -/
theorem reachable_inv {buf : ℕ → UInt8} {x : UInt32} {σ : ConsSys}
    (hσ : Interleave.Reachable ConsSys.step (ConsSys.boot buf x) σ) : Inv σ :=
  hσ.induction (inv_boot buf x) fun _ _ _ h hst => h.step hst

/-! ### The line discipline -/

/-- **The console's line discipline.** In every state of every interleaving of characters
arriving and passes of `consoleread`, from indices at any value: `r ≤ w ≤ e ≤ r +
INPUT_BUF_SIZE` in `uint` differences; the queue holds exactly the committed bytes no read has
taken, so no unread byte is overwritten; `^H`, delete and `^U` move only `e`, and not past
`w`; what the reads returned, and what the current one has copied, are taken bytes in order.
While the buffer has never filled, the committed bytes and the line are the typed characters
cooked, and if no `either_copyout` has failed, the reads returned what reading the cooked
stream a line at a time gives. -/
theorem console_line_discipline {buf : ℕ → UInt8} {x : UInt32} {σ : ConsSys}
    (hσ : Interleave.Reachable ConsSys.step (ConsSys.boot buf x) σ) :
    ((σ.cons.w - σ.cons.r).toNat ≤ (σ.cons.e - σ.cons.r).toNat ∧
      (σ.cons.e - σ.cons.r).toNat ≤ inputBufSize) ∧
    σ.taken ++ σ.cons.queue = σ.committed ∧
    (∀ c, c = ctrl 'H' ∨ c = '\x7f'.toUInt8 ∨ c = ctrl 'U' →
      (consoleintr σ.cons c).r = σ.cons.r ∧ (consoleintr σ.cons c).w = σ.cons.w ∧
        (consoleintr σ.cons c).buf = σ.cons.buf ∧
        ((consoleintr σ.cons c).e - σ.cons.w).toNat ≤ (σ.cons.e - σ.cons.w).toNat) ∧
    (σ.returned.flatten ++ σ.copied).Sublist σ.taken ∧
    (σ.full = false → σ.committed = (cook σ.typed).1 ∧ σ.cons.line = (cook σ.typed).2) ∧
    (σ.full = false → σ.failed = false →
      ∃ U, readLines σ.targets (cook σ.typed).1 = some (σ.returned, U) ∧
        σ.taken = U ++ σ.copied) := by
  have h := reachable_inv hσ
  refine ⟨⟨h.buf.wf.w_le, h.buf.wf.e_le⟩, h.buf.taken, fun c hc => consoleintr_erase σ.cons hc,
    h.read.returned, fun hfull => (h.buf.cooked hfull).2, fun hfull hfail => ?_⟩
  rw [← (h.buf.cooked hfull).2.1]
  exact h.read.lines hfull hfail

/-- From indices at `2^32 - 1`, across the wrap: `hx`, `^H`, `i` and a return are typed and a read
of 10 takes the line `hi\n`; `a` and `^D` are typed, a read of 5 takes `a` and puts the `^D`
back, the next read of 5 takes the `^D` and returns 0; a read of 3 waits, the process is
killed, and the read returns `-1`. -/
def consOps : List Act :=
  [.intr 104, .intr 120, .intr (ctrl 'H'), .intr 105, .intr 13, .read 10, .pass true, .pass true,
    .pass true, .intr 97, .intr (ctrl 'D'), .read 5, .pass true, .pass true, .read 5, .pass true,
    .read 3, .kill, .pass true]

/-- The state `consOps` ends in. -/
def consRun : ConsSys := Interleave.runState ConsSys.step (ConsSys.boot (fun _ => 0) 4294967295) consOps

theorem console_line_discipline_run :
    Interleave.Reachable ConsSys.step (ConsSys.boot (fun _ => 0) 4294967295) consRun ∧
    ((consRun.cons.w - consRun.cons.r).toNat ≤ (consRun.cons.e - consRun.cons.r).toNat ∧
      (consRun.cons.e - consRun.cons.r).toNat ≤ inputBufSize) ∧
    consRun.taken ++ consRun.cons.queue = consRun.committed ∧
    (∀ c, c = ctrl 'H' ∨ c = '\x7f'.toUInt8 ∨ c = ctrl 'U' →
      (consoleintr consRun.cons c).r = consRun.cons.r ∧
        (consoleintr consRun.cons c).w = consRun.cons.w ∧
        (consoleintr consRun.cons c).buf = consRun.cons.buf ∧
        ((consoleintr consRun.cons c).e - consRun.cons.w).toNat ≤
          (consRun.cons.e - consRun.cons.w).toNat) ∧
    (consRun.returned.flatten ++ consRun.copied).Sublist consRun.taken ∧
    (consRun.full = false →
      consRun.committed = (cook consRun.typed).1 ∧ consRun.cons.line = (cook consRun.typed).2) ∧
    (consRun.full = false → consRun.failed = false →
      ∃ U, readLines consRun.targets (cook consRun.typed).1 = some (consRun.returned, U) ∧
        consRun.taken = U ++ consRun.copied) :=
  have hσ := Interleave.reachable_runState consOps (by decide +kernel)
  ⟨hσ, console_line_discipline hσ⟩

example : consRun.returned = [[104, 105, 10], [97], []] ∧ consRun.cons.r = 4 ∧
    consRun.call = .idle := by
  decide +kernel

/-! ### A full buffer -/

/-- 128 `a`s, then a `^H`, then a read of 128 bytes and its passes. -/
def fillSchedule : List Act :=
  List.replicate 128 (.intr 97) ++ [.intr (ctrl 'H'), .read 128] ++ List.replicate 129 (.pass true)

/-- **A full buffer hands over a line before it ends.** The 128th `a` fills the buffer and
commits the line; the `^H` after it erases nothing; the read returns all 128 bytes. Line
editing has finished no line of this input, and its line has 127 bytes. -/
theorem console_full_buffer_commits :
    ∃ σ, Interleave.Reachable ConsSys.step (ConsSys.boot (fun _ => 0) 0) σ ∧
      σ.failed = false ∧ σ.typed = List.replicate 128 97 ++ [ctrl 'H'] ∧
      σ.returned = [List.replicate 128 97] ∧ cook σ.typed = ([], List.replicate 127 97) := by
  obtain ⟨σ, hσ, h⟩ := @Interleave.exists_reachable_of_run _ _ _ ConsSys.step
    (ConsSys.boot (fun _ => 0) 0)
    (fun σ => decide (σ.failed = false ∧ σ.typed = List.replicate 128 97 ++ [ctrl 'H'] ∧
      σ.returned = [List.replicate 128 97] ∧ cook σ.typed = ([], List.replicate 127 97)))
    fillSchedule (by decide +kernel)
  exact ⟨σ, hσ, of_decide_eq_true h⟩

end Xv6Lab.Console
