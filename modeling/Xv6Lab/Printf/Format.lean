import Xv6Lab.Printf.Code
import Mathlib.Data.Nat.Digits.Lemmas

/-!
# What `printf` prints

* `digitLoop_eq` — the `do … while` of `printint` writes the digits of `x` (`digitsOf`: those of
  `Nat.digits`, and one `0` for zero), least significant first, and runs past `buf` exactly
  when they do not fit in it;
* `printintWith_signed`, `printintWith_unsigned` — in base 10 and 16 they always fit: a signed
  `printint` prints a `-` for a negative value and the digits of `|xx|` (`2^31` for `INT_MIN`),
  an unsigned one the digits of `xx` read as a `uint`; `printint_sign_digits` is the kernel's;
* `atoi_printint` — `atoi` reads back what `printint` prints in base 10 for every `xx ≥ 0`,
  whatever follows it that is no digit;
* `printf_isSome_iff` — the kernel's `printf` never reads a missing or mistyped argument
  exactly when the kinds of the arguments start with the kinds its conversions read, in order
  (`argKinds`);
* `vprintf_l_eq_iff` — the user's `%l` prints two `uint64`s alike exactly when they agree in
  their low 32 bits.
-/

namespace Xv6Lab.Printf

/-! ### Digits -/

/-- The digits `printint` writes for `x` in base `b`, least significant first: those of
`Nat.digits`, and a single `0` for zero. -/
def digitsOf (b x : ℕ) : List ℕ := if x = 0 then [0] else Nat.digits b x

theorem digitsOf_of_lt {b x : ℕ} (hx : x < b) : digitsOf b x = [x] := by
  unfold digitsOf
  split_ifs with h0
  · rw [h0]
  · exact Nat.digits_of_lt b x h0 hx

theorem digitsOf_of_le {b x : ℕ} (hb : 2 ≤ b) (hx : b ≤ x) :
    digitsOf b x = x % b :: digitsOf b (x / b) := by
  have hq : x / b ≠ 0 := (Nat.div_pos hx (by omega)).ne'
  rw [digitsOf, if_neg (by omega), digitsOf, if_neg hq, Nat.digits_def' (by omega) (by omega)]

theorem digitsOf_ne_nil (b x : ℕ) : digitsOf b x ≠ [] := by
  unfold digitsOf
  split_ifs with h0
  · exact List.cons_ne_nil _ _
  · exact Nat.digits_ne_nil_iff_ne_zero.mpr h0

theorem length_digitsOf_le {b x k : ℕ} (hb : 2 ≤ b) (hk : 0 < k) (hx : x < b ^ k) :
    (digitsOf b x).length ≤ k := by
  unfold digitsOf
  split_ifs
  · exact hk
  · exact (Nat.digits_length_le_iff (by omega) x).mpr hx

theorem ofDigits_digitsOf (b x : ℕ) : Nat.ofDigits b (digitsOf b x) = x := by
  unfold digitsOf
  split_ifs with h0
  · rw [h0, Nat.ofDigits_singleton]
  · exact Nat.ofDigits_digits b x

theorem digitsOf_lt {b x d : ℕ} (hb : 2 ≤ b) (hd : d ∈ digitsOf b x) : d < b := by
  unfold digitsOf at hd
  split_ifs at hd
  · rw [List.mem_singleton.mp hd]
    omega
  · exact Nat.digits_lt_base (by omega) hd

/-- Writing digits loses nothing: one list of digits for one value. -/
theorem digitsOf_injective (b : ℕ) : Function.Injective (digitsOf b) := fun x y h => by
  rw [← ofDigits_digitsOf b x, h, ofDigits_digitsOf]

/-- **The loop of `printint`** from a buffer of at most sixteen bytes, with the seventeen
passes it can make: the digits of `x` after the bytes in `buf`, or `none` where they do not
fit. The induction is on the fuel; each pass writes the lowest digit and goes on with
`x / base`. -/
theorem digitLoop_eq (digits : List UInt8) {base : UInt32} (hb : 2 ≤ base.toNat) :
    ∀ (fuel : ℕ) (x : UInt32) (buf : List UInt8), bufSize + 1 ≤ fuel + buf.length →
      buf.length ≤ bufSize →
      digitLoop digits base fuel x buf =
        if buf.length + (digitsOf base.toNat x.toNat).length ≤ bufSize then
          some (buf ++ (digitsOf base.toNat x.toNat).map (digits.getD · 0))
        else none
  | 0, x, buf, h, hbuf => by
    -- no pass left only past a full buffer, which `buf` is not
    have hbs : bufSize = 16 := rfl
    omega
  | fuel + 1, x, buf, h, hbuf => by
    have hbs : bufSize = 16 := rfl
    have hne := digitsOf_ne_nil base.toNat x.toNat
    have hlen : 0 < (digitsOf base.toNat x.toNat).length := List.length_pos_iff.mpr hne
    rw [digitLoop]
    by_cases hlt : buf.length < bufSize
    · rw [if_pos hlt]
      dsimp only
      by_cases hq : x / base ≠ 0
      · -- more digits: the lowest one written, the rest by the loop on `x / base`
        have hq' : base.toNat ≤ x.toNat := by
          by_contra hc
          apply hq
          apply UInt32.toNat_inj.mp
          rw [UInt32.toNat_div, Nat.div_eq_of_lt (by omega)]
          rfl
        rw [if_pos hq, digitLoop_eq digits hb fuel (x / base) _ (by simp; omega) (by simp; omega),
          digitsOf_of_le hb hq', UInt32.toNat_div, UInt32.toNat_mod]
        by_cases hfit : buf.length + (digitsOf base.toNat (x.toNat / base.toNat)).length + 1 ≤ bufSize
        · rw [if_pos (by simp; omega), if_pos (by simp; omega)]
          simp
        · rw [if_neg (by simp; omega), if_neg (by simp; omega)]
      · -- the last digit
        have hq' : x.toNat < base.toNat := by
          by_contra hc
          apply hq
          intro h0
          have h1 := congrArg UInt32.toNat h0
          rw [UInt32.toNat_div] at h1
          have := Nat.div_pos (Nat.le_of_not_lt hc) (by omega)
          simp only [UInt32.toNat_zero] at h1
          omega
        rw [if_neg hq, digitsOf_of_lt hq', if_pos (by simp; omega), UInt32.toNat_mod,
          Nat.mod_eq_of_lt hq']
        rfl
    · -- a full buffer: the next write would go past its end
      rw [if_neg hlt, if_neg (by omega)]

/-! ### `printint` -/

/-- The magnitude the signed `printint` prints: `|xx|`, and `2^31` for `INT_MIN`, whose
negation wraps around. -/
theorem toNat_magnitude (xx : Int32) :
    (if decide (xx < 0) then (-xx).toUInt32 else xx.toUInt32).toNat = xx.toInt.natAbs := by
  -- the value of an `int` from its bits
  have hc : xx.toInt = if 2 * xx.toUInt32.toNat < 2 ^ 32 then (xx.toUInt32.toNat : ℤ)
      else xx.toUInt32.toNat - 2 ^ 32 := by
    show xx.toBitVec.toInt = _
    rw [BitVec.toInt_eq_toNat_cond]
    rfl
  have hn := xx.toUInt32.toNat_lt
  have hlt : xx < 0 ↔ xx.toInt < 0 := by rw [Int32.lt_iff_toInt_lt, Int32.toInt_zero]
  by_cases h : xx < 0
  · rw [if_pos (decide_eq_true h), Int32.toUInt32_neg, UInt32.toNat_neg]
    have := hlt.mp h
    simp only [UInt32.size]
    split_ifs at hc <;> omega
  · rw [if_neg (by simpa using h)]
    have := hlt.not.mp h
    split_ifs at hc <;> omega

theorem magnitude_le (xx : Int32) : xx.toInt.natAbs ≤ 2 ^ 31 := by
  have h₁ := xx.le_toInt
  have h₂ := xx.toInt_lt
  omega

/-- The bases of `printf`. -/
def Base (base : UInt32) : Prop := base = 10 ∨ base = 16

theorem Base.two_le {base : UInt32} (hb : Base base) : 2 ≤ base.toNat := by
  rcases hb with rfl | rfl <;> decide

/-- In base 10 and 16 a `uint` has at most ten digits. -/
theorem Base.length_le {base : UInt32} (hb : Base base) {x : ℕ} (hx : x < 2 ^ 32) :
    (digitsOf base.toNat x).length ≤ 10 := by
  rcases hb with rfl | rfl
  · exact length_digitsOf_le (by decide) (by decide) (lt_of_lt_of_le hx (by decide))
  · exact le_trans (length_digitsOf_le (by decide) (by decide)
      (lt_of_lt_of_le hx (by decide) : x < (16 : UInt32).toNat ^ 8)) (by decide)

/-- **A signed `printint` in base 10 or 16** never runs past `buf`: it prints a `-` for a
negative `xx`, then the digits of `|xx|`, most significant first. -/
theorem printintWith_signed (digits : List UInt8) (xx : Int32) {base : UInt32} (hb : Base base) :
    printintWith digits xx base true = some ((if xx < 0 then ['-'.toUInt8] else []) ++
      ((digitsOf base.toNat xx.toInt.natAbs).map (digits.getD · 0)).reverse) := by
  have hmag := toNat_magnitude xx
  have hlen := hb.length_le (show xx.toInt.natAbs < 2 ^ 32 by have := magnitude_le xx; omega)
  have hbs : bufSize = 16 := rfl
  unfold printintWith
  simp only [Bool.true_and]
  rw [digitLoop_eq digits hb.two_le 17 _ [] (by simp [hbs]) (by simp), hmag,
    if_pos (by simp; omega)]
  dsimp only
  by_cases h : xx < 0
  · rw [if_pos (decide_eq_true h), if_pos (by simp; omega), if_pos h]
    simp
  · rw [if_neg (by simpa using h), if_neg h]
    simp

/-- **An unsigned `printint` in base 10 or 16** prints the digits of `xx` read as a `uint`. -/
theorem printintWith_unsigned (digits : List UInt8) (xx : Int32) {base : UInt32} (hb : Base base) :
    printintWith digits xx base false =
      some ((digitsOf base.toNat xx.toUInt32.toNat).map (digits.getD · 0)).reverse := by
  have hlen := hb.length_le xx.toUInt32.toNat_lt
  have hbs : bufSize = 16 := rfl
  unfold printintWith
  simp only [Bool.false_and, Bool.false_eq_true, if_false]
  rw [digitLoop_eq digits hb.two_le 17 _ [] (by simp [hbs]) (by simp), if_pos (by simp; omega)]
  simp

/-- **The kernel's `printint`** for `%d` and `%x` never writes past `buf` and prints a `-` for a
negative `v`, then the digits of `|v|` in lower case, most significant first. -/
theorem printint_sign_digits (v : Int32) {base : UInt32} (hb : Base base) :
    printint v base true = some ((if v < 0 then ['-'.toUInt8] else []) ++
      ((digitsOf base.toNat v.toInt.natAbs).map (kdigits.getD · 0)).reverse) :=
  printintWith_signed kdigits v hb

theorem printint_sign_digits_intMin : Base 10 ∧
    printint (-2147483648) 10 true = some ((if (-2147483648 : Int32) < 0 then ['-'.toUInt8] else []) ++
      ((digitsOf (10 : UInt32).toNat (-2147483648 : Int32).toInt.natAbs).map (kdigits.getD · 0)).reverse) :=
  ⟨.inl rfl, printint_sign_digits _ (.inl rfl)⟩

/-! ### `atoi` reads `%d` back -/

/-- Below ten both digit tables hold the digit's ASCII code. -/
theorem kdigits_getD {d : ℕ} (hd : d < 10) : kdigits.getD d 0 = (48 + d).toUInt8 := by
  interval_cases d <;> rfl

theorem udigits_getD {d : ℕ} (hd : d < 10) : udigits.getD d 0 = kdigits.getD d 0 := by
  interval_cases d <;> rfl

theorem ofNat_eq_ofInt (n : ℕ) : Int32.ofNat n = Int32.ofInt n := by
  apply Int32.toBitVec_inj.mp
  simp [Int32.toBitVec_ofInt]

/-- One pass of `atoi`'s loop in `int` arithmetic is one step of the value in `ℤ`, modulo
`2^32`. -/
theorem atoi_step (m : ℤ) (d : ℕ) :
    Int32.ofInt m * 10 + Int32.ofNat (48 + d) - 48 = Int32.ofInt (10 * m + d) := by
  have h10 : (10 : Int32) = Int32.ofInt 10 := rfl
  have h48 : (48 : Int32) = Int32.ofInt 48 := rfl
  rw [ofNat_eq_ofInt, h10, h48, ← Int32.ofInt_mul, ← Int32.ofInt_add, ← Int32.ofInt_sub]
  congr 1
  push_cast
  ring

/-- A byte that is no decimal digit ends `atoi`. -/
def NoDigit (rest : List UInt8) : Prop := ∀ c ∈ rest.head?, ¬ ('0'.toUInt8 ≤ c ∧ c ≤ '9'.toUInt8)

theorem atoiLoop_stop {n : Int32} {rest : List UInt8} (h : NoDigit rest) : Ulib.atoiLoop n rest = n := by
  cases rest with
  | nil => rfl
  | cons c rest => exact if_neg (h c rfl)

/-- `atoi`'s loop over the ASCII codes of decimal digits, most significant first, accumulates
their value. The induction is on the digits, the value so far generalised. -/
theorem atoiLoop_digits (l : List ℕ) (hl : ∀ d ∈ l, d < 10) (m : ℤ) {rest : List UInt8}
    (hrest : NoDigit rest) :
    Ulib.atoiLoop (Int32.ofInt m) (l.map (kdigits.getD · 0) ++ rest) =
      Int32.ofInt (l.foldl (fun (n : ℤ) (d : ℕ) => 10 * n + d) m) := by
  induction l generalizing m with
  | nil => exact atoiLoop_stop hrest
  | cons d l ih =>
    have hd := hl d List.mem_cons_self
    have hc : (kdigits.getD d 0).toNat = 48 + d := by
      rw [kdigits_getD hd, Nat.toUInt8, UInt8.toNat_ofNat', Nat.mod_eq_of_lt (by omega)]
    have hdig : '0'.toUInt8 ≤ kdigits.getD d 0 ∧ kdigits.getD d 0 ≤ '9'.toUInt8 := by
      rw [UInt8.le_iff_toNat_le, UInt8.le_iff_toNat_le, hc]
      exact ⟨by change 48 ≤ 48 + d; omega, by change 48 + d ≤ 57; omega⟩
    rw [List.map_cons, List.cons_append, Ulib.atoiLoop, if_pos hdig, hc, atoi_step,
      List.foldl_cons]
    exact ih (fun d hd => hl d (List.mem_cons_of_mem _ hd)) _

/-- Digits read most significant first give the value `Nat.ofDigits` gives them least
significant first. -/
theorem foldl_reverse_digits (b : ℕ) (l : List ℕ) :
    l.reverse.foldl (fun (n : ℤ) (d : ℕ) => (b : ℤ) * n + d) 0 = ((Nat.ofDigits b l : ℕ) : ℤ) := by
  induction l with
  | nil => rfl
  | cons d l ih =>
    rw [List.reverse_cons, List.foldl_append, ih, Nat.ofDigits]
    simp only [List.foldl_cons, List.foldl_nil]
    push_cast
    ring

/-- **`atoi` reads back what `printint` prints in base 10** for every `xx ≥ 0`, followed by
anything that is no digit (the `NUL` at the end of a string, a blank). -/
theorem atoi_printint {xx : Int32} (h : 0 ≤ xx) :
    ∃ out, Uprintf.printint xx 10 true = some out ∧
      ∀ rest, NoDigit rest → Ulib.atoi (out ++ rest) = xx := by
  have hnn : ¬ xx < 0 := fun hlt => by
    have h₁ := Int32.lt_iff_toInt_lt.mp hlt
    have h₂ := Int32.le_iff_toInt_le.mp h
    rw [Int32.toInt_zero] at h₁ h₂
    omega
  have hb : Base 10 := .inl rfl
  refine ⟨_, printintWith_signed udigits xx hb, fun rest hrest => ?_⟩
  rw [if_neg hnn, List.nil_append, ← List.map_reverse]
  -- the user's digits below ten are the kernel's
  have hmap : (digitsOf (10 : UInt32).toNat xx.toInt.natAbs).reverse.map (udigits.getD · 0) =
      (digitsOf 10 xx.toInt.natAbs).reverse.map (kdigits.getD · 0) :=
    List.map_congr_left fun d hd => udigits_getD (digitsOf_lt (by decide) (List.mem_reverse.mp hd))
  have hl : ∀ d ∈ (digitsOf 10 xx.toInt.natAbs).reverse, d < 10 :=
    fun d hd => digitsOf_lt (by decide) (List.mem_reverse.mp hd)
  have hval : xx.toInt = (xx.toInt.natAbs : ℤ) := by
    have := Int32.le_iff_toInt_le.mp h
    rw [Int32.toInt_zero] at this
    omega
  rw [hmap, Ulib.atoi, show (0 : Int32) = Int32.ofInt 0 from rfl,
    atoiLoop_digits _ hl 0 hrest]
  have hf := foldl_reverse_digits 10 (digitsOf 10 xx.toInt.natAbs)
  simp only [Nat.cast_ofNat] at hf
  rw [hf, ofDigits_digitsOf, ← hval, Int32.ofInt_toInt]

theorem atoi_printint_42 : (0 : Int32) ≤ 42 ∧ ∃ out, Uprintf.printint 42 10 true = some out ∧
    ∀ rest, NoDigit rest → Ulib.atoi (out ++ rest) = 42 :=
  ⟨by decide, atoi_printint (by decide)⟩

/-! ### `printf` reads the arguments its format asks for -/

/-- What `va_arg` is asked for. -/
inductive Kind
  | int
  | u64
  | str
  deriving DecidableEq, Repr

def Arg.kind : Arg → Kind
  | .int _ => .int
  | .u64 _ => .u64
  | .str _ => .str
  | .null => .str

/-- The argument the kernel's `printf` reads after `%c`: none for `%%` and an unknown `%c`. -/
def needs (c : UInt8) : List Kind :=
  if c = 'd'.toUInt8 ∨ c = 'x'.toUInt8 then [.int]
  else if c = 'p'.toUInt8 then [.u64]
  else if c = 's'.toUInt8 then [.str]
  else []

/-- The kinds of the arguments the kernel's `printf` reads for `fmt`, in order. -/
def argKinds : List UInt8 → List Kind
  | [] => []
  | c :: fmt =>
    if c = 0 then []
    else if c ≠ '%'.toUInt8 then argKinds fmt
    else
      match fmt with
      | [] => []
      | c :: fmt => if c = 0 then [] else needs c ++ argKinds fmt

theorem append_prefix_iff {α : Type} {l₁ l₂ l : List α} :
    l₁ ++ l₂ <+: l ↔ l₁ <+: l ∧ l₂ <+: l.drop l₁.length := by
  induction l₁ generalizing l with
  | nil => simp
  | cons a l₁ ih =>
    cases l with
    | nil => simp
    | cons b l => simp [List.cons_prefix_cons, ih, and_assoc]

theorem printint_isSome (v : Int32) {base : UInt32} (hb : Base base) :
    (printint v base true).isSome := by
  rw [printint, printintWith_signed kdigits v hb]
  rfl

/-- The conversion after a `%` is defined exactly when the next arguments are of the kinds it
reads, and leaves the arguments after them. -/
theorem conv_spec (c : UInt8) (args : List Arg) :
    ((conv c args).isSome ↔ needs c <+: args.map Arg.kind) ∧
      ∀ out args', conv c args = some (out, args') → args' = args.drop (needs c).length := by
  have hd : ∀ v, (printint v 10 true).isSome := fun v => printint_isSome v (.inl rfl)
  have hx : ∀ v, (printint v 16 true).isSome := fun v => printint_isSome v (.inr rfl)
  by_cases hc : c = 'd'.toUInt8 ∨ c = 'x'.toUInt8 ∨ c = 'p'.toUInt8 ∨ c = 's'.toUInt8
  · -- the four conversions that read an argument, split on the argument passed
    rcases hc with rfl | rfl | rfl | rfl <;>
      rcases args with _ | ⟨_ | _ | _ | _, args⟩ <;>
      simp +decide [conv, needs, Arg.kind, Option.isSome_map, Option.map_eq_some_iff, hd, hx]
  · -- `%%` and an unknown conversion read nothing
    simp only [not_or] at hc
    obtain ⟨h₁, h₂, h₃, h₄⟩ := hc
    have hn : needs c = [] := by simp [needs, h₁, h₂, h₃, h₄]
    have hconv : ∃ out, conv c args = some (out, args) := by
      unfold conv
      rw [if_neg h₁, if_neg h₂, if_neg h₃, if_neg h₄]
      split_ifs <;> exact ⟨_, rfl⟩
    obtain ⟨out, ho⟩ := hconv
    rw [hn, ho]
    refine ⟨by simp, fun o a h => ?_⟩
    rw [List.length_nil, List.drop_zero]
    exact (Prod.mk.inj (Option.some.inj h)).2.symm

/-- **The kernel's `printf` is defined** — reads no argument it was not passed, and each of
the kind its conversion asks for — exactly when the kinds of the arguments start with the
kinds the format's conversions read, in order. -/
theorem printf_isSome_iff (fmt : List UInt8) (args : List Arg) :
    (printf fmt args).isSome ↔ argKinds fmt <+: args.map Arg.kind := by
  induction fmt, args using printf.induct with
  | case1 args => simp [printf, argKinds]
  | case2 fmt args =>
    rw [printf.eq_def, argKinds.eq_def]
    simp
  | case3 c fmt args h0 hpc ih =>
    rw [printf.eq_def, argKinds.eq_def]
    simp only [if_neg h0, if_pos hpc, Option.map_eq_map, Option.isSome_map]
    exact ih
  | case4 c args h0 hpc => simp [printf, argKinds, h0, hpc]
  | case5 c args h0 hpc fmt => simp [printf, argKinds, h0, hpc]
  | case6 c args h0 hpc c' fmt h0' hnone =>
    -- the conversion reads what it was not passed
    have hno := ((conv_spec c' args).1).not.mp (by rw [hnone]; simp)
    rw [printf.eq_def, argKinds.eq_def]
    simp only [if_neg h0, if_neg hpc, if_neg h0', hnone, append_prefix_iff]
    simp [hno]
  | case7 c args h0 hpc c' fmt h0' out args' hsome ih =>
    -- the conversion reads its arguments, and the rest of the format the ones after them
    have hyes := ((conv_spec c' args).1).mp (by rw [hsome]; rfl)
    obtain rfl := (conv_spec c' args).2 out args' hsome
    rw [List.map_drop] at ih
    rw [printf.eq_def, argKinds.eq_def]
    simp only [if_neg h0, if_neg hpc, if_neg h0', hsome, append_prefix_iff, Option.map_eq_map,
      Option.isSome_map, ih]
    simp [hyes]

end Xv6Lab.Printf

namespace Xv6Lab.Uprintf

open Printf

/-- The low 32 bits of a `uint64`, through an `int` and back to a `uint`. -/
theorem toUInt32_toInt32 (v : UInt64) : v.toUInt32.toInt32.toUInt32.toNat = v.toNat % 2 ^ 32 := by
  simp

/-- **The user's `%l` keeps only the low 32 bits**: it prints two `uint64`s alike exactly when
they agree modulo `2^32`. -/
theorem vprintf_l_eq_iff (v w : UInt64) :
    vprintf false ['%'.toUInt8, 'l'.toUInt8] [.u64 v] =
        vprintf false ['%'.toUInt8, 'l'.toUInt8] [.u64 w] ↔ v.toNat % 2 ^ 32 = w.toNat % 2 ^ 32 := by
  have hb : Base 10 := .inl rfl
  -- what `%l` prints for `v`: the digits of its low 32 bits
  have hl : ∀ v : UInt64, vprintf false ['%'.toUInt8, 'l'.toUInt8] [.u64 v] =
      some ((digitsOf 10 (v.toNat % 2 ^ 32)).map (udigits.getD · 0)).reverse := fun v => by
    have hc : conv 'l'.toUInt8 [.u64 v] = (printint v.toUInt32.toInt32 10 false).map (·, []) := rfl
    simp only [vprintf, hc, printint, printintWith_unsigned udigits _ hb, toUInt32_toInt32]
    simp +decide
  rw [hl v, hl w, Option.some.injEq, List.reverse_inj]
  -- a decimal digit is read back from its byte
  have hdec : ∀ x : ℕ, ((digitsOf 10 x).map (udigits.getD · 0)).map (fun c => c.toNat - 48) =
      digitsOf 10 x := fun x => by
    rw [List.map_map]
    conv => rhs; rw [← List.map_id (digitsOf 10 x)]
    refine List.map_congr_left fun d hd => ?_
    have := digitsOf_lt (by decide) hd
    interval_cases d <;> rfl
  constructor
  · intro h
    apply digitsOf_injective 10
    rw [← hdec, h, hdec]
  · intro h
    rw [h]

end Xv6Lab.Uprintf
