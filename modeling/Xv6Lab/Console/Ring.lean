import Xv6Lab.Console.Spec

/-!
# The ring holds the queue and the line

`cs.queue` is what waits for `consoleread`, the bytes from `r` up to `w`, and `cs.line` the
line being edited, from `w` up to `e`. `Cons.Wf` is what keeps them apart: the three indices
in ring order and at most `INPUT_BUF_SIZE` apart, in `uint` arithmetic, and no newline or
`^D` in the line, as each of them hands the line over at once.

`consoleintr_spec` says what one character does: it leaves `r`, appends to the queue the bytes
`edit` hands over, and leaves the line `edit` leaves. `Wf.take` is the pass of `consoleread`
that takes the byte at `r`.
-/

namespace Xv6Lab.Console

open RingIndex

/-- The committed bytes waiting for `consoleread`. -/
def Cons.queue (cs : Cons) : List UInt8 := cs.seg cs.r cs.w

/-- The line being edited. -/
def Cons.line (cs : Cons) : List UInt8 := cs.seg cs.w cs.e

/-- The bytes the buffer has room for. -/
def Cons.room (cs : Cons) : ℕ := inputBufSize - (cs.e - cs.r).toNat

/-- The indices are in ring order at most a buffer apart, and the line ends nowhere. -/
structure Cons.Wf (cs : Cons) : Prop where
  w_le : (cs.w - cs.r).toNat ≤ (cs.e - cs.r).toNat
  e_le : (cs.e - cs.r).toNat ≤ inputBufSize
  line : ∀ x ∈ cs.line, ¬ Ends x

theorem inputBufSize_dvd : inputBufSize ∣ 2 ^ 32 := ⟨2 ^ 25, rfl⟩

@[simp] theorem inputBufSize_toUInt32 : inputBufSize.toUInt32.toNat = inputBufSize := by decide

theorem slot_toNat (x : UInt32) : (x % inputBufSize.toUInt32).toNat = x.toNat % inputBufSize := by
  rw [UInt32.toNat_mod, inputBufSize_toUInt32]

theorem lt_bufSize_iff (a b : UInt32) :
    a - b < inputBufSize.toUInt32 ↔ (a - b).toNat < inputBufSize := by
  rw [UInt32.lt_iff_toNat_lt, inputBufSize_toUInt32]

theorem eq_bufSize_iff (a b : UInt32) :
    a - b = inputBufSize.toUInt32 ↔ (a - b).toNat = inputBufSize := by
  rw [← UInt32.toNat_inj, inputBufSize_toUInt32]

namespace Cons.Wf

variable {cs : Cons}

theorem count (hw : cs.Wf) : (cs.e - cs.r).toNat = cs.queue.length + cs.line.length := by
  simp only [Cons.queue, Cons.line, Cons.seg, length_segment]
  exact dist_add hw.w_le

theorem seg_eq (hw : cs.Wf) : cs.seg cs.r cs.e = cs.queue ++ cs.line :=
  segment_append inputBufSize_dvd _ hw.w_le

theorem line_lt (hw : cs.Wf) : (cs.e - cs.w).toNat < 2 ^ 32 - 1 := by
  have := hw.count
  have := hw.e_le
  simp only [Cons.line, Cons.seg, length_segment, inputBufSize] at *
  omega

/-- The pass of `consoleread` that takes the byte at `r`. -/
theorem take (hw : cs.Wf) (hne : cs.r ≠ cs.w) :
    cs.queue = cs.buf (cs.r % inputBufSize.toUInt32).toNat :: { cs with r := cs.r + 1 }.queue ∧
      { cs with r := cs.r + 1 }.Wf := by
  -- `r` moves one closer to `w`, and so to `e`
  have hre : cs.r ≠ cs.e := ne_of_dist_le hw.w_le hne
  refine ⟨?_, ⟨?_, ?_, hw.line⟩⟩
  · rw [slot_toNat]
    exact segment_cons inputBufSize_dvd _ hne
  · simp only [dist_cons hne, dist_cons hre]
    exact Nat.sub_le_sub_right hw.w_le 1
  · rw [dist_cons hre]
    exact Nat.le_trans (Nat.sub_le _ _) hw.e_le

end Cons.Wf

/-! ### `^U` -/

/-- The kill loop never goes back past `w`. -/
theorem killLoop_dist (buf : ℕ → UInt8) (w : UInt32) :
    ∀ d e, (e - w).toNat = d → (killLoop buf w d e - w).toNat ≤ d := by
  intro d
  induction d with
  | zero => intro e hd; simp [killLoop, hd]
  | succ d ih =>
    intro e hd
    simp only [killLoop]
    split_ifs with h
    · have hpred : (e - 1 - w).toNat = d := by rw [dist_pred (Ne.symm h.1), hd]; rfl
      exact Nat.le_succ_of_le (ih _ hpred)
    · exact Nat.le_of_eq hd

/-- On a line with no newline, the kill loop goes back to `w`. -/
theorem killLoop_eq (buf : ℕ → UInt8) (w : UInt32) :
    ∀ d e, (e - w).toNat = d → (∀ x ∈ segment inputBufSize buf w e, x ≠ '\n'.toUInt8) →
      killLoop buf w d e = w := by
  intro d
  induction d with
  | zero =>
    intro e hd _
    exact (eq_of_dist_eq_zero hd).symm
  | succ d ih =>
    intro e hd hl
    have hne : e ≠ w := fun h => by rw [h, UInt32.sub_self] at hd; simp at hd
    -- the byte before `e` is the last of the line
    have hseg := segment_pred_append inputBufSize_dvd buf (Ne.symm hne)
    have hlast : buf ((e - 1) % inputBufSize.toUInt32).toNat ≠ '\n'.toUInt8 := by
      rw [slot_toNat]
      exact hl _ (hseg ▸ List.mem_append_right _ (List.mem_singleton_self _))
    have hpred : (e - 1 - w).toNat = d := by rw [dist_pred (Ne.symm hne), hd]; rfl
    simp only [killLoop, if_pos (And.intro hne hlast)]
    exact ih _ hpred fun x hx => hl x (hseg ▸ List.mem_append_left _ hx)

/-! ### One character -/

section Store

variable {cs : Cons} (hw : cs.Wf) (hlt : (cs.e - cs.r).toNat < inputBufSize) (x : UInt8)
include hw hlt

/-- A store into the slot of `e` while the buffer has room: the queue and the line stay, and
the line grows by the byte. -/
theorem Cons.Wf.store :
    segment inputBufSize (Function.update cs.buf (cs.e.toNat % inputBufSize) x) cs.r cs.w =
        cs.queue ∧
      segment inputBufSize (Function.update cs.buf (cs.e.toNat % inputBufSize) x) cs.w (cs.e + 1) =
        cs.line ++ [x] := by
  set buf' := Function.update cs.buf (cs.e.toNat % inputBufSize) x
  have hkeep : segment inputBufSize buf' cs.r cs.e = cs.seg cs.r cs.e :=
    segment_update inputBufSize_dvd _ _ hlt
  have hsplit := segment_append inputBufSize_dvd buf' hw.w_le
  rw [hkeep, hw.seg_eq] at hsplit
  have hq : segment inputBufSize buf' cs.r cs.w = cs.queue :=
    (List.append_inj hsplit.symm (by simp [Cons.queue, Cons.seg])).1
  have hl : segment inputBufSize buf' cs.w cs.e = cs.line :=
    (List.append_inj hsplit.symm (by simp [Cons.queue, Cons.seg])).2
  refine ⟨hq, ?_⟩
  rw [segment_succ inputBufSize_dvd _ hw.line_lt, hl]
  simp [buf']

end Store

theorem room_pos_iff (cs : Cons) (hw : cs.Wf) :
    0 < cs.room ↔ (cs.e - cs.r).toNat < inputBufSize := by
  have := hw.e_le
  simp only [Cons.room]
  omega

/-! The branches of `consoleintr`. -/

section Branches

variable {cs : Cons} {c : UInt8}

theorem consoleintr_ctrlP (hP : c = ctrl 'P') : consoleintr cs c = cs := by
  unfold consoleintr
  rw [if_pos hP]

theorem consoleintr_ctrlU (hP : c ≠ ctrl 'P') (hU : c = ctrl 'U') :
    consoleintr cs c = { cs with e := killLoop cs.buf cs.w (cs.e - cs.w).toNat cs.e } := by
  unfold consoleintr
  rw [if_neg hP, if_pos hU]

theorem consoleintr_erase_eq (hP : c ≠ ctrl 'P') (hU : c ≠ ctrl 'U')
    (hH : c = ctrl 'H' ∨ c = '\x7f'.toUInt8) :
    consoleintr cs c = if cs.e ≠ cs.w then { cs with e := cs.e - 1 } else cs := by
  unfold consoleintr
  rw [if_neg hP, if_neg hU, if_pos hH]

/-- The buffer after storing `x` at `e`. -/
def Cons.store (cs : Cons) (x : UInt8) : Cons :=
  { cs with buf := Function.update cs.buf (cs.e % inputBufSize.toUInt32).toNat x, e := cs.e + 1 }

theorem consoleintr_store (hP : c ≠ ctrl 'P') (hU : c ≠ ctrl 'U')
    (hH : ¬ (c = ctrl 'H' ∨ c = '\x7f'.toUInt8)) (hc : c ≠ 0 ∧ cs.e - cs.r < inputBufSize.toUInt32) :
    consoleintr cs c =
      if crToNl c = nl ∨ crToNl c = ctrl 'D' ∨ (cs.store (crToNl c)).e - cs.r = inputBufSize.toUInt32
      then { cs.store (crToNl c) with w := cs.e + 1 }
      else cs.store (crToNl c) := by
  unfold consoleintr
  rw [if_neg hP, if_neg hU, if_neg hH, if_pos hc]
  rfl

theorem consoleintr_drop (hP : c ≠ ctrl 'P') (hU : c ≠ ctrl 'U')
    (hH : ¬ (c = ctrl 'H' ∨ c = '\x7f'.toUInt8)) (hc : ¬ (c ≠ 0 ∧ cs.e - cs.r < inputBufSize.toUInt32)) :
    consoleintr cs c = cs := by
  unfold consoleintr
  rw [if_neg hP, if_neg hU, if_neg hH, if_neg hc]

end Branches

/-- What one character does to the queue and the line. -/
theorem consoleintr_spec {cs : Cons} (hw : cs.Wf) (c : UInt8) :
    (consoleintr cs c).r = cs.r ∧
    (consoleintr cs c).queue = cs.queue ++ (edit cs.line c cs.room).1 ∧
    (consoleintr cs c).seg cs.w (consoleintr cs c).w = (edit cs.line c cs.room).1 ∧
    (consoleintr cs c).line = (edit cs.line c cs.room).2 ∧
    (consoleintr cs c).Wf := by
  by_cases hP : c = ctrl 'P'
  · have hed : edit cs.line c cs.room = ([], cs.line) := by
      unfold edit
      rw [if_pos hP]
    rw [consoleintr_ctrlP hP, hed]
    exact ⟨rfl, (List.append_nil _).symm, segment_self _ _, rfl, hw⟩
  by_cases hU : c = ctrl 'U'
  · -- the line has no newline, so the kill loop goes back to `w`
    have he := killLoop_eq cs.buf cs.w _ cs.e rfl fun x hx hn => hw.line x hx (.inl hn)
    have hed : edit cs.line c cs.room = ([], []) := by
      unfold edit
      rw [if_neg hP, if_pos hU]
    rw [consoleintr_ctrlU hP hU, he, hed]
    exact ⟨rfl, (List.append_nil _).symm, segment_self _ _, segment_self _ _,
      ⟨Nat.le_refl _, Nat.le_trans hw.w_le hw.e_le, by simp [Cons.line, Cons.seg]⟩⟩
  by_cases hH : c = ctrl 'H' ∨ c = '\x7f'.toUInt8
  · have hed : edit cs.line c cs.room = ([], cs.line.dropLast) := by
      unfold edit
      rw [if_neg hP, if_neg hU, if_pos hH]
    rw [consoleintr_erase_eq hP hU hH, hed]
    by_cases he : cs.e ≠ cs.w
    · -- the erase takes the last byte of the line
      have hseg := segment_pred_append inputBufSize_dvd cs.buf (Ne.symm he)
      have hline : ({ cs with e := cs.e - 1 } : Cons).line = cs.line.dropLast := by
        simp only [Cons.line, Cons.seg]
        rw [hseg, List.dropLast_concat]
      have hre : cs.r ≠ cs.e := by
        intro h
        have h0 : (cs.w - cs.r).toNat = 0 := by
          have := hw.w_le
          rw [← h, UInt32.sub_self, UInt32.toNat_zero] at this
          omega
        exact he (h.symm.trans (eq_of_dist_eq_zero h0))
      have hdist := dist_add hw.w_le
      have hwe := dist_pos (Ne.symm he)
      rw [if_pos he]
      refine ⟨rfl, (List.append_nil _).symm, segment_self _ _, hline, ⟨?_, ?_, ?_⟩⟩
      · simp only [dist_pred hre]
        omega
      · simp only [dist_pred hre]
        exact Nat.le_trans (Nat.sub_le _ _) hw.e_le
      · rw [hline]
        exact fun x hx => hw.line x (List.dropLast_subset _ hx)
    · have hew : cs.e = cs.w := not_not.mp he
      have hnil : cs.line = [] := by simp [Cons.line, Cons.seg, hew]
      rw [if_neg he, hnil, List.dropLast_nil]
      exact ⟨rfl, (List.append_nil _).symm, segment_self _ _, rfl, hw⟩
  by_cases hc : c ≠ 0 ∧ cs.e - cs.r < inputBufSize.toUInt32
  · have hlt : (cs.e - cs.r).toNat < inputBufSize := (lt_bufSize_iff _ _).mp hc.2
    have hroom : 0 < cs.room := (room_pos_iff cs hw).mpr hlt
    obtain ⟨hq, hl⟩ := hw.store hlt (crToNl c)
    rw [← slot_toNat] at hq hl
    -- the count after the store, and when it fills the buffer
    have hcount : (cs.e + 1 - cs.r).toNat = (cs.e - cs.r).toNat + 1 := dist_succ (by
      simp only [inputBufSize] at hlt
      omega)
    have hfull : (cs.store (crToNl c)).e - cs.r = inputBufSize.toUInt32 ↔ cs.room = 1 := by
      rw [Cons.store, eq_bufSize_iff, hcount]
      simp only [Cons.room]
      omega
    have hed : edit cs.line c cs.room =
        if Ends (crToNl c) ∨ cs.room = 1 then (cs.line ++ [crToNl c], [])
        else ([], cs.line ++ [crToNl c]) := by
      unfold edit
      rw [if_neg hP, if_neg hU, if_neg hH, if_pos (And.intro hc.1 hroom)]
    have hcond : (crToNl c = nl ∨ crToNl c = ctrl 'D' ∨
        (cs.store (crToNl c)).e - cs.r = inputBufSize.toUInt32) ↔ Ends (crToNl c) ∨ cs.room = 1 := by
      rw [hfull, ← or_assoc]
      rfl
    rw [consoleintr_store hP hU hH hc, hed]
    by_cases hend : Ends (crToNl c) ∨ cs.room = 1
    · -- the line goes to the reader
      rw [if_pos hend, if_pos (hcond.mpr hend)]
      have hall := segment_append inputBufSize_dvd
        (Function.update cs.buf (cs.e % inputBufSize.toUInt32).toNat (crToNl c))
        (show (cs.w - cs.r).toNat ≤ (cs.e + 1 - cs.r).toNat by
          rw [hcount]
          exact Nat.le_succ_of_le hw.w_le)
      rw [hq, hl] at hall
      refine ⟨rfl, hall, hl, segment_self _ _,
        ⟨Nat.le_refl _, ?_, by simp [Cons.line, Cons.seg, Cons.store]⟩⟩
      show (cs.e + 1 - cs.r).toNat ≤ inputBufSize
      omega
    · -- the line grows
      rw [if_neg hend, if_neg (mt hcond.mp hend)]
      refine ⟨rfl, (List.append_nil _).symm ▸ hq, segment_self _ _, hl, ⟨?_, ?_, ?_⟩⟩
      · show (cs.w - cs.r).toNat ≤ (cs.e + 1 - cs.r).toNat
        rw [hcount]
        exact Nat.le_succ_of_le hw.w_le
      · show (cs.e + 1 - cs.r).toNat ≤ inputBufSize
        omega
      · intro x hx
        have hx : x ∈ cs.line ++ [crToNl c] := hl ▸ hx
        rcases List.mem_append.mp hx with hx | hx
        · exact hw.line x hx
        · rw [List.mem_singleton.mp hx]
          exact fun h => hend (.inl h)
  · -- a `NUL`, or no room: the character is dropped
    have hno : ¬ (c ≠ 0 ∧ 0 < cs.room) := fun h =>
      hc ⟨h.1, (lt_bufSize_iff _ _).mpr ((room_pos_iff cs hw).mp h.2)⟩
    have hed : edit cs.line c cs.room = ([], cs.line) := by
      unfold edit
      rw [if_neg hP, if_neg hU, if_neg hH, if_neg hno]
    rw [consoleintr_drop hP hU hH hc, hed]
    exact ⟨rfl, (List.append_nil _).symm, segment_self _ _, rfl, hw⟩

/-- `^H`, delete and `^U` move only `e`, and never back past `w`. -/
theorem consoleintr_erase (cs : Cons) {c : UInt8}
    (hc : c = ctrl 'H' ∨ c = '\x7f'.toUInt8 ∨ c = ctrl 'U') :
    (consoleintr cs c).r = cs.r ∧ (consoleintr cs c).w = cs.w ∧ (consoleintr cs c).buf = cs.buf ∧
      ((consoleintr cs c).e - cs.w).toNat ≤ (cs.e - cs.w).toNat := by
  have hP : c ≠ ctrl 'P' := by rcases hc with h | h | h <;> simp [h]
  rcases hc with hc | hc | hc
  all_goals first
    | (rw [consoleintr_ctrlU hP hc]
       exact ⟨rfl, rfl, rfl, killLoop_dist cs.buf cs.w _ cs.e rfl⟩)
    | (have hU : c ≠ ctrl 'U' := by simp [hc]
       rw [consoleintr_erase_eq hP hU (by simp [hc])]
       split_ifs with he
       · exact ⟨rfl, rfl, rfl, by simp only [dist_pred (Ne.symm he)]; exact Nat.sub_le _ _⟩
       · exact ⟨rfl, rfl, rfl, Nat.le_refl _⟩)

end Xv6Lab.Console
