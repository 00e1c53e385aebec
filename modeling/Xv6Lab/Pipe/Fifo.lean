import Xv6Lab.Pipe.Code

/-!
# What a pipe delivers

`Pipe.buffered` is the FIFO a pipe holds: the `nwrite - nread` bytes from `data[nread %
PIPESIZE]` on. `Fifo` is the invariant of every run: the counters never drift more than
`PIPESIZE` apart, the buffered bytes are the last bytes stored, and what readers were
delivered is a subsequence of the bytes taken out before them (`fifo_of_reachable`). The
counters wrap freely: `PIPESIZE` divides `2^32`, so their difference and the ring index stay
right across the wrap.

What readers were delivered is not all that was taken: `piperead` moves `nread` on before its
`copyout`, so a reader whose `copyout` fails takes a byte out of the pipe that nobody gets and
its return value does not count (`pipe_read_loses_byte`).
-/

namespace Xv6Lab.Pipes

open FS (Mem)

/-- The bytes in the pipe, oldest first. -/
def Pipe.buffered (pi : Pipe) : List UInt8 :=
  (List.range (pi.nwrite - pi.nread).toNat).map fun k => pi.data ((pi.nread.toNat + k) % pipesize)

/-- The store of one byte by `pipewrite`. -/
def Pipe.store (pi : Pipe) (ch : UInt8) : Pipe :=
  { pi with
    data := Function.update pi.data (pi.nwrite % pipesize.toUInt32).toNat ch
    nwrite := pi.nwrite + 1 }

/-! ### The counters -/

theorem toNat_mod_pipesize (x : UInt32) : (x % pipesize.toUInt32).toNat = x.toNat % pipesize := by
  rw [UInt32.toNat_mod]
  rfl

theorem pipesize_toUInt32 : pipesize.toUInt32.toNat = pipesize := by decide

/-- `nwrite` is `nread` moved on by the count, also modulo `PIPESIZE`. -/
theorem nwrite_mod (pi : Pipe) :
    pi.nwrite.toNat % pipesize = (pi.nread.toNat + (pi.nwrite - pi.nread).toNat) % pipesize := by
  have ha := pi.nwrite.toNat_lt
  have hb := pi.nread.toNat_lt
  rw [UInt32.toNat_sub]
  simp only [pipesize] at *
  omega

theorem full_iff (pi : Pipe) :
    pi.nwrite = pi.nread + pipesize.toUInt32 ↔ (pi.nwrite - pi.nread).toNat = pipesize := by
  have ha := pi.nwrite.toNat_lt
  have hb := pi.nread.toNat_lt
  rw [UInt32.ext_iff, UInt32.toNat_add, UInt32.toNat_sub, pipesize_toUInt32]
  simp only [pipesize] at *
  omega

theorem empty_iff (pi : Pipe) : pi.nread = pi.nwrite ↔ (pi.nwrite - pi.nread).toNat = 0 := by
  have ha := pi.nwrite.toNat_lt
  have hb := pi.nread.toNat_lt
  rw [UInt32.ext_iff, UInt32.toNat_sub]
  omega

theorem count_store (pi : Pipe) (ch : UInt8) (hc : (pi.nwrite - pi.nread).toNat < pipesize) :
    ((pi.store ch).nwrite - (pi.store ch).nread).toNat = (pi.nwrite - pi.nread).toNat + 1 := by
  have ha := pi.nwrite.toNat_lt
  have hb := pi.nread.toNat_lt
  simp only [Pipe.store, UInt32.toNat_sub, UInt32.toNat_add, UInt32.reduceToNat] at *
  simp only [pipesize] at *
  omega

theorem count_take (pi : Pipe) (hne : pi.nread ≠ pi.nwrite) :
    (pi.nwrite - (pi.nread + 1)).toNat = (pi.nwrite - pi.nread).toNat - 1 := by
  have ha := pi.nwrite.toNat_lt
  have hb := pi.nread.toNat_lt
  have h0 := mt (empty_iff pi).mpr hne
  simp only [UInt32.toNat_sub, UInt32.toNat_add, UInt32.reduceToNat] at *
  omega

/-! ### The buffered bytes -/

/-- A store appends to the buffered bytes when the pipe is not full: the slot it writes is
none of theirs. -/
theorem buffered_store (pi : Pipe) (ch : UInt8) (hc : (pi.nwrite - pi.nread).toNat < pipesize) :
    (pi.store ch).buffered = pi.buffered ++ [ch] := by
  have hslot := nwrite_mod pi
  rw [Pipe.buffered, count_store pi ch hc, List.range_succ, List.map_append, List.map_singleton]
  congr 1
  · refine List.map_congr_left fun k hk => ?_
    have hk := List.mem_range.mp hk
    simp only [Pipe.store, toNat_mod_pipesize]
    rw [Function.update_of_ne]
    simp only [pipesize] at *
    omega
  · simp only [Pipe.store, toNat_mod_pipesize, ← hslot, Function.update_self]

/-- Taking the byte at `nread` leaves the rest of the buffered bytes. -/
theorem buffered_take (pi : Pipe) (hne : pi.nread ≠ pi.nwrite) :
    pi.buffered = pi.data (pi.nread % pipesize.toUInt32).toNat ::
      ({ pi with nread := pi.nread + 1 } : Pipe).buffered := by
  have h0 := mt (empty_iff pi).mpr hne
  obtain ⟨c, hc⟩ : ∃ c, (pi.nwrite - pi.nread).toNat = c + 1 := ⟨_, (Nat.succ_pred_eq_of_ne_zero h0).symm⟩
  have hc' : (pi.nwrite - (pi.nread + 1)).toNat = c := by rw [count_take pi hne, hc]; rfl
  rw [Pipe.buffered, Pipe.buffered, hc, hc', List.range_succ_eq_map, List.map_cons, List.map_map,
    toNat_mod_pipesize, Nat.add_zero]
  congr 1
  refine List.map_congr_left fun k _ => ?_
  have hb := pi.nread.toNat_lt
  simp only [Function.comp_apply, UInt32.toNat_add, UInt32.reduceToNat, pipesize]
  congr 1
  omega

theorem buffered_pipeclose (pi : Pipe) (w : Bool) : (pipeclose pi w).buffered = pi.buffered := by
  cases w <;> rfl

/-! ### One pass of each loop -/

/-- A pass of `pipewrite` stores its byte into a pipe that is not full, or changes nothing. -/
theorem writePass_cases (pi : Pipe) (mem : Mem) (killed : Bool) (addr : ℕ) (n : ℤ) (i : ℕ)
    (hc : (pi.nwrite - pi.nread).toNat ≤ pipesize) :
    ((writePass pi mem killed addr n i).1 = pi ∧ (writePass pi mem killed addr n i).2.1 = none) ∨
      ∃ ch, (pi.nwrite - pi.nread).toNat < pipesize ∧
        (writePass pi mem killed addr n i).1 = pi.store ch ∧
        (writePass pi mem killed addr n i).2.1 = some ch := by
  unfold writePass
  split_ifs with hi hopen hfull
  · exact .inl ⟨rfl, rfl⟩
  · exact .inl ⟨rfl, rfl⟩
  · cases hb : copyinByte mem (addr + i) with
    | none => exact .inl ⟨rfl, rfl⟩
    | some ch =>
      have hlt : (pi.nwrite - pi.nread).toNat < pipesize :=
        lt_of_le_of_ne hc (mt (full_iff pi).mpr hfull)
      exact .inr ⟨ch, hlt, rfl, rfl⟩
  · exact .inl ⟨rfl, rfl⟩

/-- A pass of the copy loop takes the byte at `nread` out of a pipe that is not empty, and
delivers it or nothing; or it changes nothing. -/
theorem copyPass_cases (pi : Pipe) (mem : Mem) (addr : ℕ) (n : ℤ) (i : ℕ) :
    ((copyPass pi mem addr n i).1 = pi ∧ (copyPass pi mem addr n i).2.2.1 = none) ∨
      (pi.nread ≠ pi.nwrite ∧ (copyPass pi mem addr n i).1 = { pi with nread := pi.nread + 1 } ∧
        ((copyPass pi mem addr n i).2.2.1 = none ∨
          (copyPass pi mem addr n i).2.2.1 = some (pi.data (pi.nread % pipesize.toUInt32).toNat))) := by
  unfold copyPass
  split_ifs with hi he
  · exact .inl ⟨rfl, rfl⟩
  · simp only
    split
    · exact .inr ⟨he, rfl, .inl rfl⟩
    · exact .inr ⟨he, rfl, .inr rfl⟩
  · exact .inl ⟨rfl, rfl⟩

/-! ### The invariant -/

variable {ι : Type}

/-- The counters are at most `PIPESIZE` apart; the buffered bytes are the last bytes stored,
after the bytes taken out, and the bytes delivered are some of those taken. -/
structure Fifo (σ : PipeSys ι) : Prop where
  count_le : (σ.pipe.nwrite - σ.pipe.nread).toNat ≤ pipesize
  taken : ∃ taken, taken ++ σ.pipe.buffered = σ.stored ∧ σ.delivered.Sublist taken

theorem fifo_alloc (data : ℕ → UInt8) (mem : ι → Mem) : Fifo (PipeSys.alloc data mem) :=
  ⟨by simp [PipeSys.alloc, pipesize], ⟨[], by simp [PipeSys.alloc, Pipe.buffered], List.Sublist.refl _⟩⟩

/-- A step that changes none of the pipe's data, counters, stored or delivered bytes. -/
theorem Fifo.congr {σ σ' : PipeSys ι} (h : Fifo σ) (hp : σ'.pipe.buffered = σ.pipe.buffered)
    (hc : σ'.pipe.nwrite - σ'.pipe.nread = σ.pipe.nwrite - σ.pipe.nread)
    (hs : σ'.stored = σ.stored) (hd : σ'.delivered = σ.delivered) : Fifo σ' := by
  obtain ⟨taken, htaken, hsub⟩ := h.taken
  exact ⟨hc ▸ h.count_le, taken, by rw [hp, hs, htaken], hd ▸ hsub⟩

variable [DecidableEq ι]

theorem Fifo.write_pass {σ : PipeSys ι} (h : Fifo σ) (j : ι) (addr : ℕ) (n : ℤ) (i : ℕ) :
    Fifo { σ with
      pipe := (writePass σ.pipe (σ.mem j) (σ.killed j) addr n i).1
      call := σ.moveTo j (writePass σ.pipe (σ.mem j) (σ.killed j) addr n i).2.2
      stored := σ.stored ++ (writePass σ.pipe (σ.mem j) (σ.killed j) addr n i).2.1.toList } := by
  rcases writePass_cases σ.pipe (σ.mem j) (σ.killed j) addr n i h.count_le with
    ⟨hp, hb⟩ | ⟨ch, hlt, hp, hb⟩
  · refine h.congr ?_ ?_ ?_ rfl <;> simp only [hp, hb, Option.toList_none, List.append_nil]
  · obtain ⟨taken, htaken, hsub⟩ := h.taken
    refine ⟨?_, taken, ?_, hsub⟩
    · simp only [hp, count_store _ _ hlt]
      exact hlt
    · simp only [hp, hb, buffered_store _ _ hlt, Option.toList_some, ← htaken, List.append_assoc]

theorem Fifo.copy_pass {σ : PipeSys ι} (h : Fifo σ) (j : ι) (addr : ℕ) (n : ℤ) (i : ℕ) :
    Fifo { σ with
      pipe := (copyPass σ.pipe (σ.mem j) addr n i).1
      mem := Function.update σ.mem j (copyPass σ.pipe (σ.mem j) addr n i).2.1
      call := σ.moveTo j (copyPass σ.pipe (σ.mem j) addr n i).2.2.2
      delivered := σ.delivered ++ (copyPass σ.pipe (σ.mem j) addr n i).2.2.1.toList } := by
  rcases copyPass_cases σ.pipe (σ.mem j) addr n i with ⟨hp, hd⟩ | ⟨hne, hp, hd⟩
  · refine h.congr ?_ ?_ rfl ?_ <;> simp only [hp, hd, Option.toList_none, List.append_nil]
  · obtain ⟨taken, htaken, hsub⟩ := h.taken
    have hbuf := buffered_take σ.pipe hne
    refine ⟨?_, taken ++ [σ.pipe.data (σ.pipe.nread % pipesize.toUInt32).toNat], ?_, ?_⟩
    · simp only [hp, count_take _ hne]
      exact le_trans (Nat.sub_le _ _) h.count_le
    · simp only [hp, List.append_assoc, List.singleton_append, ← hbuf, htaken]
    · rcases hd with hd | hd
      · simpa only [hd, Option.toList_none, List.append_nil] using hsub.trans (List.sublist_append_left _ _)
      · simpa only [hd, Option.toList_some] using hsub.append_right _

/-- Every step keeps the invariant. -/
theorem Fifo.step {σ σ' : PipeSys ι} (h : Fifo σ) {a : ι × Act}
    (hst : σ.step a = some (.ok σ')) : Fifo σ' := by
  obtain ⟨j, act⟩ := a
  cases act with
  | write addr n =>
    simp only [PipeSys.step] at hst
    split_ifs at hst
    cases hst
    exact h.congr rfl rfl rfl rfl
  | read addr n =>
    simp only [PipeSys.step] at hst
    split_ifs at hst
    cases hst
    exact h.congr rfl rfl rfl rfl
  | pass =>
    simp only [PipeSys.step] at hst
    split at hst
    · cases hst
    · cases hst
      exact h.write_pass j _ _ _
    · cases hst
      exact h.congr rfl rfl rfl rfl
    · cases hst
      exact h.copy_pass j _ _ _
  | kill =>
    cases hst
    exact h.congr rfl rfl rfl rfl
  | close w =>
    cases hst
    refine h.congr (buffered_pipeclose _ w) ?_ rfl rfl
    cases w <;> rfl

/-- **Pipes keep order and lose nothing from the buffer.** In every state of any interleaving
of `pipewrite`, `piperead`, kills and closes by any processes, from a state of the invariant
(`pipealloc`'s is one, `fifo_alloc`), `nwrite - nread` is at most `PIPESIZE` in `uint`
arithmetic, the buffered bytes are the last bytes stored, after the bytes taken out, and the
bytes readers were delivered are a subsequence of those taken. -/
theorem fifo_of_reachable {σ₀ σ : PipeSys ι} (h₀ : Fifo σ₀)
    (hσ : Interleave.Reachable PipeSys.step σ₀ σ) : Fifo σ :=
  hσ.induction h₀ fun _ _ _ h hst => h.step hst

/-! ### A byte taken and not delivered -/

/-- Two processes and a new pipe: process 0 can read its whole address space, which holds
`'A'` everywhere; process 1 has nothing mapped. -/
def lostByteStart : PipeSys (Fin 2) :=
  PipeSys.alloc (fun _ => 0) fun j =>
    if j.val = 0 then ⟨true, fun _ => 65, fun _ => true⟩ else ⟨true, fun _ => 0, fun _ => false⟩

/-- Process 0 writes one byte from address 0 and returns; process 1 reads one byte to
address 0 and returns. -/
def lostByteSchedule : List (Fin 2 × Act) :=
  let writer : Fin 2 := ⟨0, Nat.zero_lt_two⟩
  let reader : Fin 2 := ⟨1, Nat.one_lt_two⟩
  [(writer, .write 0 1), (writer, .pass), (writer, .pass), (reader, .read 0 1), (reader, .pass),
    (reader, .pass)]

/-- **A failed `copyout` loses a byte.** After process 0 writes `'A'` and process 1's
`piperead` fails to copy it out, `'A'` was stored, nothing was delivered, and nothing is
left in the pipe. -/
theorem pipe_read_loses_byte :
    ∃ σ, Interleave.Reachable PipeSys.step lostByteStart σ ∧ σ.call 1 = .idle ∧
      σ.stored = [65] ∧ σ.delivered = [] ∧ σ.pipe.buffered = [] := by
  obtain ⟨σ, hσ, h⟩ := @Interleave.exists_reachable_of_run _ _ _ PipeSys.step lostByteStart
    (fun σ => decide (σ.call 1 = .idle ∧ σ.stored = [65] ∧ σ.delivered = [] ∧
      σ.pipe.buffered = [])) lostByteSchedule (by decide)
  exact ⟨σ, hσ, of_decide_eq_true h⟩

end Xv6Lab.Pipes
