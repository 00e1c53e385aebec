import Xv6Lab.Lib.DList
import Xv6Lab.Lib.Interleave

/-!
# The buffer cache (`kernel/bio.c`)

`bcache` holds `NBUF` buffers and a sentinel `bcache.head`, all `struct buf`, linked through
`next` and `prev` into a ring in recency order: `head.next` is the most recently released.
A node is an index: `bcache.buf[i]` is `i` and `bcache.head` is `NBUF`. Each buffer's
fields, `next` and `prev` are stores indexed by node, written one statement at a time in the
source's order, each read taken from the stores as they stand at that point.

The cache lock is not modelled: `bget`, `brelse`, `bpin` and `bunpin` hold it for all they do
to `bcache` and are one step each. Neither is a buffer's sleep lock: `bread` is the part of
the call under the cache lock with `valid` set after the read, and the disk and the data are
left out. The state records which buffers `bread` handed out and which were pinned and are
not released or unpinned since, and which buffers `bget` has given a block of its own
(ghost state for the proofs).
-/

namespace Xv6Lab.Bio

/-- `NBUF = MAXOPBLOCKS * 3`. -/
def nbuf : ℕ := 30

/-- A `struct buf` of `bcache`: `bcache.buf[i]` is `i`, and `bcache.head` is `NBUF`. -/
abbrev Node := Fin (nbuf + 1)

/-- `&bcache.head`. -/
def head : Node := Fin.last nbuf

/-- The fields of `struct buf` that `bio.c` reads and writes, the links apart. -/
structure Buf where
  dev : UInt32
  blockno : UInt32
  valid : Bool
  refcnt : UInt32
  deriving DecidableEq

/-- `bcache`, its lock and the buffers' data apart. -/
structure BCache where
  buf : Node → Buf
  next : Node → Node
  prev : Node → Node

/-- The fields of buffer `b` replaced by `f`. -/
def BCache.setBuf (c : BCache) (b : Node) (f : Buf) : BCache :=
  { c with buf := Function.update c.buf b f }

/-- `b->next = bcache.head.next; b->prev = &bcache.head; bcache.head.next->prev = b;
bcache.head.next = b`, the four stores of `binit` and `brelse`. -/
def linkFront (c : BCache) (b : Node) : BCache :=
  let next := Function.update c.next b (c.next head)
  let prev := Function.update c.prev b head
  let prev := Function.update prev (next head) b
  let next := Function.update next head b
  { c with next, prev }

/-- `b->next->prev = b->prev; b->prev->next = b->next`. -/
def unlink (c : BCache) (b : Node) : BCache :=
  let prev := Function.update c.prev (c.next b) (c.prev b)
  let next := Function.update c.next (prev b) (c.next b)
  { c with next, prev }

/-- `binit`: the sentinel links to itself, then each buffer in turn is linked in after it. -/
def binit (c : BCache) : BCache :=
  let c := { c with prev := Function.update c.prev head head }
  let c := { c with next := Function.update c.next head head }
  (List.finRange nbuf).foldl (fun c i => linkFront c i.castSucc) c

/-- `bget(dev, blockno)`: the buffer that holds the block, with one more reference; or else
the least recently used buffer with no references, given the block; or the panic. The two
walks run on a fuel of one pass per node, and are `none` if it runs out. -/
def bget (c : BCache) (dev blockno : UInt32) : Option (Except String (BCache × Node)) :=
  match DList.scan c.next head (fun b => (c.buf b).dev == dev && (c.buf b).blockno == blockno)
      (nbuf + 1) (c.next head) with
  | none => none
  | some (some b) => some (.ok (c.setBuf b { c.buf b with refcnt := (c.buf b).refcnt + 1 }, b))
  | some none =>
    match DList.scan c.prev head (fun b => (c.buf b).refcnt == 0) (nbuf + 1) (c.prev head) with
    | none => none
    | some (some b) =>
      some (.ok (c.setBuf b { c.buf b with dev, blockno, valid := false, refcnt := 1 }, b))
    | some none => some (.error "bget: no buffers")

/-- `bread(dev, blockno)`: `bget`, and `valid` once the block is read in. -/
def bread (c : BCache) (dev blockno : UInt32) : Option (Except String (BCache × Node)) :=
  (bget c dev blockno).map fun r =>
    r.map fun (c, b) => (c.setBuf b { c.buf b with valid := true }, b)

/-- `brelse(b)`: one reference less; a buffer nobody holds moves to the front of the list. -/
def brelse (c : BCache) (b : Node) : BCache :=
  let c := c.setBuf b { c.buf b with refcnt := (c.buf b).refcnt - 1 }
  if (c.buf b).refcnt = 0 then linkFront (unlink c b) b else c

/-- `bpin(b)`. -/
def bpin (c : BCache) (b : Node) : BCache :=
  c.setBuf b { c.buf b with refcnt := (c.buf b).refcnt + 1 }

/-- `bunpin(b)`. -/
def bunpin (c : BCache) (b : Node) : BCache :=
  c.setBuf b { c.buf b with refcnt := (c.buf b).refcnt - 1 }

/-! ### Runs -/

/-- The calls of a run. -/
inductive Op
  | bread (dev blockno : UInt32)
  | brelse (b : Node)
  | bpin (b : Fin nbuf)
  | bunpin (b : Node)

/-- The cache; the buffers `bread` returned and not released since and those pinned and not
unpinned since, each as often as it is outstanding; and the buffers `bget` has given a
block of its own. -/
structure BioSys where
  cache : BCache
  held : List Node
  pins : List Node
  assigned : Node → Bool

/-- The block a buffer holds. -/
def BCache.key (c : BCache) (b : Node) : UInt32 × UInt32 := ((c.buf b).dev, (c.buf b).blockno)

/-- One call. `brelse` and `bunpin` are taken only on a buffer outstanding from an earlier
`bread` or `bpin`. A `bread` whose buffer held another block was a recycling by `bget`. -/
def BioSys.step (σ : BioSys) : Op → Option (Except String BioSys)
  | .bread dev blockno =>
    (bread σ.cache dev blockno).map fun r => r.map fun (c, b) =>
      { cache := c, held := b :: σ.held, pins := σ.pins,
        assigned := if σ.cache.key b = (dev, blockno) then σ.assigned
          else Function.update σ.assigned b true }
  | .brelse b =>
    if b ∈ σ.held then some (.ok { σ with cache := brelse σ.cache b, held := σ.held.erase b })
    else none
  | .bpin b => some (.ok { σ with cache := bpin σ.cache b.castSucc, pins := b.castSucc :: σ.pins })
  | .bunpin b =>
    if b ∈ σ.pins then some (.ok { σ with cache := bunpin σ.cache b, pins := σ.pins.erase b })
    else none

/-- Boot: the buffers' fields zero, as static memory is, the links whatever they are, and
then `binit`. -/
def BioSys.boot (next prev : Node → Node) : BioSys :=
  ⟨binit ⟨fun _ => ⟨0, 0, false, 0⟩, next, prev⟩, [], [], fun _ => false⟩

end Xv6Lab.Bio
