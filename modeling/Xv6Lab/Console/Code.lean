import Xv6Lab.Lib.Interleave
import Xv6Lab.Lib.RingIndex

/-!
# Console input (`kernel/console.c`)

`cons.buf` is a ring of `INPUT_BUF_SIZE` bytes with three free-running `uint` indices: the
bytes before `r` have been read, those from `r` up to `w` are committed and wait for
`consoleread`, and those from `w` up to `e` are the line being edited. The UART interrupt
calls `consoleintr(c)` for every character that arrives, a byte `0 .. 255`.

`consoleread` loops one byte at a time under `cons.lock` and sleeps, releasing the lock,
while `r = w`. The reading process is at the test of that loop (`Call.reading`) and one step
runs one pass of it. The lock keeps interrupts out between the passes of one run of the
loop, which the model does not: it lets every step in between, so its runs include every
schedule the kernel can take. `either_copyout` is modelled by its outcome, a flag of the pass;
the echo of `consputc` and the listing of `procdump` only print and are left out.

The state also holds ghost state for the proofs: the characters typed, the bytes committed
to the reader, the bytes reads took out of `buf`, the bytes the current read has copied out,
and, for each read that has returned a count, the count it asked for and the bytes it
returned. Two flags record whether the buffer ever filled and whether a pass was run with a
failing `either_copyout`.
-/

namespace Xv6Lab.Console

open RingIndex

/-- `INPUT_BUF_SIZE`. -/
def inputBufSize : ℕ := 128

/-- `C(x)`, control-`x`. -/
def ctrl (x : Char) : UInt8 := (x.toNat - '@'.toNat).toUInt8

/-- `cons` without its lock. -/
structure Cons where
  buf : ℕ → UInt8
  r : UInt32
  w : UInt32
  e : UInt32

/-- The loop of `^U`: step `e` back while it is not `w` and the byte before it is not a
newline. Each pass moves `e` one closer to `w`, so `(e - w).toNat` passes are all it can
take. -/
def killLoop (buf : ℕ → UInt8) (w : UInt32) : ℕ → UInt32 → UInt32
  | 0, e => e
  | fuel + 1, e =>
    if e ≠ w ∧ buf ((e - 1) % inputBufSize.toUInt32).toNat ≠ '\n'.toUInt8 then
      killLoop buf w fuel (e - 1)
    else e

/-- `consoleintr(c)`. -/
def consoleintr (cs : Cons) (c : UInt8) : Cons :=
  if c = ctrl 'P' then cs
  else if c = ctrl 'U' then { cs with e := killLoop cs.buf cs.w (cs.e - cs.w).toNat cs.e }
  else if c = ctrl 'H' ∨ c = '\x7f'.toUInt8 then
    if cs.e ≠ cs.w then { cs with e := cs.e - 1 } else cs
  else if c ≠ 0 ∧ cs.e - cs.r < inputBufSize.toUInt32 then
    let c := if c = '\r'.toUInt8 then '\n'.toUInt8 else c
    let cs := { cs with
      buf := Function.update cs.buf (cs.e % inputBufSize.toUInt32).toNat c
      e := cs.e + 1 }
    -- a whole line, an end of file, or a full buffer goes to the reader
    if c = '\n'.toUInt8 ∨ c = ctrl 'D' ∨ cs.e - cs.r = inputBufSize.toUInt32 then
      { cs with w := cs.e }
    else cs
  else cs

/-- Where the reading process is. -/
inductive Call
  | idle
  /-- In `consoleread(user_dst, dst, n)` at the test of `while (n > 0)`: `target` is the
  count asked for and `n` the bytes still wanted. -/
  | reading (target n : ℕ)
  deriving DecidableEq

/-- One pass of the loop of `consoleread`, with `ok` the outcome of `either_copyout`: the
console after it, the byte taken out of `buf` for good, the byte copied out, and what the call
returns or where it is next. A `^D` that ends a read which has copied bytes is put back. -/
def readPass (cs : Cons) (killed ok : Bool) (target n : ℕ) :
    Cons × Option UInt8 × Option UInt8 × Sum ℤ Call :=
  if 0 < n then
    if cs.r = cs.w then
      -- the wait: a killed process returns `-1`, any other sleeps and tests again
      if killed then (cs, none, none, .inl (-1)) else (cs, none, none, .inr (.reading target n))
    else
      let c := cs.buf (cs.r % inputBufSize.toUInt32).toNat
      let cs := { cs with r := cs.r + 1 }
      if c = ctrl 'D' then
        if n < target then ({ cs with r := cs.r - 1 }, none, none, .inl ((target - n : ℕ) : ℤ))
        else (cs, some c, none, .inl ((target - n : ℕ) : ℤ))
      else if ok then
        if c = '\n'.toUInt8 then (cs, some c, some c, .inl ((target - (n - 1) : ℕ) : ℤ))
        else (cs, some c, some c, .inr (.reading target (n - 1)))
      else (cs, some c, none, .inl ((target - n : ℕ) : ℤ))
  else (cs, none, none, .inl ((target - n : ℕ) : ℤ))

/-! ### The console and its reader -/

/-- What happens next: a character arrives, the process calls `read` on the console, its
call runs one pass with `either_copyout` succeeding or not, or it is killed. -/
inductive Act
  | intr (c : UInt8)
  | read (n : ℤ)
  | pass (ok : Bool)
  | kill

/-- The console, the one process that reads it, and the ghost state. The model has a single
reader: `consoleread` takes `cons.lock` for each pass but sleeps between them, so two readers
could share one line between their reads; which read the bytes go to is not modelled, and what
is proved of `returned` is about the reads of this one process. -/
structure ConsSys where
  cons : Cons
  killed : Bool
  call : Call
  typed : List UInt8
  committed : List UInt8
  taken : List UInt8
  copied : List UInt8
  targets : List ℕ
  returned : List (List UInt8)
  full : Bool
  failed : Bool

/-- The bytes of the ring from counter `a` up to `b`. -/
def Cons.seg (cs : Cons) (a b : UInt32) : List UInt8 := segment inputBufSize cs.buf a b

/-- The call returns `k`: a count hands over the bytes the call copied out, `-1` drops them. -/
def ConsSys.ret (σ : ConsSys) (target : ℕ) (k : ℤ) : ConsSys :=
  if 0 ≤ k then
    { σ with
      call := .idle
      copied := []
      targets := σ.targets ++ [target]
      returned := σ.returned ++ [σ.copied] }
  else { σ with call := .idle, copied := [] }

/-- A character arrives: `consoleintr`, with the bytes it commits and whether the buffer is
now full. -/
def ConsSys.intr (σ : ConsSys) (c : UInt8) : ConsSys :=
  let cs := consoleintr σ.cons c
  { σ with
    cons := cs
    typed := σ.typed ++ [c]
    committed := σ.committed ++ cs.seg σ.cons.w cs.w
    full := σ.full || decide ((cs.e - cs.r).toNat = inputBufSize) }

/-- One pass of the call `consoleread` with `target` and `n`. -/
def ConsSys.pass (σ : ConsSys) (ok : Bool) (target n : ℕ) : ConsSys :=
  let p := readPass σ.cons σ.killed ok target n
  let σ' := { σ with
    cons := p.1
    taken := σ.taken ++ p.2.1.toList
    copied := σ.copied ++ p.2.2.1.toList
    failed := σ.failed || !ok }
  match p.2.2.2 with
  | .inl k => σ'.ret target k
  | .inr c => { σ' with call := c }

/-- One step. A `read` of `n ≤ 0` returns `0` at once: `target - n` is `0` in `uint`. -/
def ConsSys.step (σ : ConsSys) : Act → Option (Except Empty ConsSys)
  | .intr c => some (.ok (σ.intr c))
  | .read n =>
    if σ.call = .idle then
      some (.ok (if 0 < n then { σ with call := .reading n.toNat n.toNat } else σ.ret 0 0))
    else none
  | .pass ok =>
    match σ.call with
    | .idle => none
    | .reading target n => some (.ok (σ.pass ok target n))
  | .kill => some (.ok { σ with killed := true })

/-- The console at boot, its indices at any value `x`, the process not in a call. -/
def ConsSys.boot (buf : ℕ → UInt8) (x : UInt32) : ConsSys :=
  ⟨⟨buf, x, x, x⟩, false, .idle, [], [], [], [], [], [], false, false⟩

end Xv6Lab.Console
