import Mathlib.Data.List.Basic

/-!
# Formatted output: `kernel/printf.c`, `user/printf.c`, `atoi`

The kernel's `printf(fmt, ...)` walks the format up to its `NUL`, printing each byte but `%`
with `consputc`; after a `%` it prints the next argument as the byte after it says: `%d` and
`%x` an `int` in base 10 and 16, both signed, `%p` a `uint64` as `0x` and sixteen hex digits,
`%s` a string (`(null)` for a null pointer), `%%` a `%`, and any other `%c` as it stands. A
`%` at the end stops it. The user library's `vprintf` does the same with a two-state loop and
knows `%l` (a `uint64` in base 10, passed to `printint` through its `int` parameter), `%c`, and
an unsigned `%x`; its digits are upper case.

Both `printint`s fill `char buf[16]` with the digits of the magnitude, least significant
first, then a `-`, and print the buffer backwards: one definition, `printintWith`, with the
digit table as a parameter. `digitLoop` returns `none` where the `do … while` would write past
the sixteen bytes of `buf`, so that the model is defined exactly where the C is. The
magnitude of `INT_MIN` is computed, as the RISC-V `negw` does, modulo `2^32`.

A variadic call is modelled by the list of its arguments as `va_arg` reads them (`Arg`): an
`int`, a `uint64`, a string as the bytes before its `NUL`, or a null `char *`. Reading an
argument of another kind than the call passed, or one past the last, is undefined in C; the
model returns `none` there. What a call prints is the list of bytes handed to `consputc`
(`putc` for `vprintf`).

`atoi(s)` of `user/ulib.c` reads the decimal digits at the front of `s` into an `int`, with the
`int` arithmetic of the C wrapping modulo `2^32`.
-/

namespace Xv6Lab.Printf

/-- `digits` of `kernel/printf.c`: `"0123456789abcdef"`. -/
def kdigits : List UInt8 := [48, 49, 50, 51, 52, 53, 54, 55, 56, 57, 97, 98, 99, 100, 101, 102]

/-- `digits` of `user/printf.c`: `"0123456789ABCDEF"`. -/
def udigits : List UInt8 := [48, 49, 50, 51, 52, 53, 54, 55, 56, 57, 65, 66, 67, 68, 69, 70]

/-- `sizeof(buf)` in `printint`. -/
def bufSize : ℕ := 16

/-- The `do … while` loop of `printint`: `buf[i++] = digits[x % base]` while `(x /= base) != 0`,
on the bytes `buf` holds so far; `none` at a write past the end of `buf`. Seventeen passes
reach that write for any base. -/
def digitLoop (digits : List UInt8) (base : UInt32) : ℕ → UInt32 → List UInt8 → Option (List UInt8)
  | 0, _, buf => some buf
  | fuel + 1, x, buf =>
    if buf.length < bufSize then
      let buf := buf ++ [digits.getD (x % base).toNat 0]
      if x / base ≠ 0 then digitLoop digits base fuel (x / base) buf else some buf
    else none

/-- `printint(xx, base, sign)` with the digit table `digits`: the digits of the magnitude, a `-`
for a negative `xx` when `sign` is set, printed from the last byte of `buf` to the first. -/
def printintWith (digits : List UInt8) (xx : Int32) (base : UInt32) (sign : Bool) :
    Option (List UInt8) :=
  let neg := sign && decide (xx < 0)
  let x : UInt32 := if neg then (-xx).toUInt32 else xx.toUInt32
  match digitLoop digits base 17 x [] with
  | none => none
  | some buf =>
    if neg then
      if buf.length < bufSize then some (buf ++ ['-'.toUInt8]).reverse else none
    else some buf.reverse

/-- `printptr(x)` with the digit table `digits`: `0x`, then `digits[x >> 60]` sixteen times,
shifting `x` left by four. -/
def ptrLoop (digits : List UInt8) : ℕ → UInt64 → List UInt8
  | 0, _ => []
  | n + 1, x => digits.getD (x >>> 60).toNat 0 :: ptrLoop digits n (x <<< 4)

def printptrWith (digits : List UInt8) (x : UInt64) : List UInt8 :=
  '0'.toUInt8 :: 'x'.toUInt8 :: ptrLoop digits 16 x

/-- `printint` of `kernel/printf.c`. -/
def printint (xx : Int32) (base : UInt32) (sign : Bool) : Option (List UInt8) :=
  printintWith kdigits xx base sign

/-- `printptr` of `kernel/printf.c`. -/
def printptr (x : UInt64) : List UInt8 := printptrWith kdigits x

/-- An argument of a variadic call as `va_arg` reads it. -/
inductive Arg
  | int (v : Int32)
  | u64 (v : UInt64)
  | str (s : List UInt8)
  | null
  deriving DecidableEq, Repr

/-- `"(null)"`. -/
def nullStr : List UInt8 := "(null)".toList.map Char.toUInt8

/-- The `switch` of the kernel's `printf` on the byte `c` after a `%`: what it prints, and the
arguments left. -/
def conv (c : UInt8) (args : List Arg) : Option (List UInt8 × List Arg) :=
  if c = 'd'.toUInt8 then
    match args with
    | .int v :: args => (printint v 10 true).map (·, args)
    | _ => none
  else if c = 'x'.toUInt8 then
    match args with
    | .int v :: args => (printint v 16 true).map (·, args)
    | _ => none
  else if c = 'p'.toUInt8 then
    match args with
    | .u64 v :: args => some (printptr v, args)
    | _ => none
  else if c = 's'.toUInt8 then
    match args with
    | .str s :: args => some (s.takeWhile (· ≠ 0), args)
    | .null :: args => some (nullStr, args)
    | _ => none
  else if c = '%'.toUInt8 then some (['%'.toUInt8], args)
  -- an unknown `%` sequence is printed to draw attention
  else some (['%'.toUInt8, c], args)

/-- `printf(fmt, ...)` of the kernel, on the bytes of `fmt` from `fmt[i]` on: the loop
`for(i = 0; (c = fmt[i] & 0xff) != 0; i++)`, reading `fmt[++i]` after a `%`. -/
def printf : List UInt8 → List Arg → Option (List UInt8)
  | [], _ => some []
  | c :: fmt, args =>
    if c = 0 then some []
    else if c ≠ '%'.toUInt8 then (c :: ·) <$> printf fmt args
    else
      match fmt with
      | [] => some []
      | c :: fmt =>
        if c = 0 then some []
        else
          match conv c args with
          | none => none
          | some (out, args) => (out ++ ·) <$> printf fmt args

end Xv6Lab.Printf

namespace Xv6Lab.Uprintf

open Printf

/-- `printint(fd, xx, base, sgn)` of `user/printf.c`, what it writes to `fd`. -/
def printint (xx : Int32) (base : UInt32) (sgn : Bool) : Option (List UInt8) :=
  printintWith udigits xx base sgn

/-- `printptr(fd, x)` of `user/printf.c`. -/
def printptr (x : UInt64) : List UInt8 := printptrWith udigits x

/-- The branches of `vprintf` in state `'%'` on the byte `c`: what it writes, and the arguments
left. `%l` hands a `uint64` to `printint`, whose `int` parameter keeps its low 32 bits; `%c`
writes the low byte of a `uint`. -/
def conv (c : UInt8) (args : List Arg) : Option (List UInt8 × List Arg) :=
  if c = 'd'.toUInt8 then
    match args with
    | .int v :: args => (printint v 10 true).map (·, args)
    | _ => none
  else if c = 'l'.toUInt8 then
    match args with
    | .u64 v :: args => (printint v.toUInt32.toInt32 10 false).map (·, args)
    | _ => none
  else if c = 'x'.toUInt8 then
    match args with
    | .int v :: args => (printint v 16 false).map (·, args)
    | _ => none
  else if c = 'p'.toUInt8 then
    match args with
    | .u64 v :: args => some (printptr v, args)
    | _ => none
  else if c = 's'.toUInt8 then
    match args with
    | .str s :: args => some (s.takeWhile (· ≠ 0), args)
    | .null :: args => some (nullStr, args)
    | _ => none
  else if c = 'c'.toUInt8 then
    match args with
    | .int v :: args => some ([v.toUInt32.toUInt8], args)
    | _ => none
  else if c = '%'.toUInt8 then some ([c], args)
  -- unknown `%` sequence: printed to draw attention
  else some (['%'.toUInt8, c], args)

/-- `vprintf(fd, fmt, ap)`, in state `pct` (`state == '%'`) at the bytes of `fmt` from `fmt[i]`
on: the loop `for(i = 0; fmt[i]; i++)`. -/
def vprintf : Bool → List UInt8 → List Arg → Option (List UInt8)
  | _, [], _ => some []
  | pct, c :: fmt, args =>
    if c = 0 then some []
    else if !pct then
      if c = '%'.toUInt8 then vprintf true fmt args
      else (c :: ·) <$> vprintf false fmt args
    else
      match conv c args with
      | none => none
      | some (out, args) => (out ++ ·) <$> vprintf false fmt args

end Xv6Lab.Uprintf

namespace Xv6Lab.Ulib

/-- The loop of `atoi(s)`: `n = n*10 + *s++ - '0'` while `'0' <= *s <= '9'`. -/
def atoiLoop (n : Int32) : List UInt8 → Int32
  | [] => n
  | c :: s =>
    if '0'.toUInt8 ≤ c ∧ c ≤ '9'.toUInt8 then atoiLoop (n * 10 + Int32.ofNat c.toNat - 48) s else n

/-- `atoi(s)` of `user/ulib.c`. -/
def atoi (s : List UInt8) : Int32 := atoiLoop 0 s

end Xv6Lab.Ulib
