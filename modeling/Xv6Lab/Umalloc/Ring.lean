import Xv6Lab.Umalloc.Code
import Xv6Lab.Lib.ListSeg
import Mathlib.Data.Nat.Basic

/-!
# The free list of `umalloc` as a sorted ring of blocks

The free list is read against an abstract list `fs : List Block` of the free blocks after
`base`, in address order:

* `Links mem L z` — the headers link the blocks of `L` in order and end at `z`, each header
  holding its block's size;
* `Ring base mem fs` — from `base` the links run through `fs` and back to `base`, whose own
  size is `0`: the list is circular through `base`, and since `fs` is sorted, increasing
  except where it wraps from its last block back to `base`;
* `Shape base sz fs` — each block ends strictly before the next one begins (so the blocks
  are disjoint, in order, and no block ends where its successor begins), and all of them
  lie above `base`'s header and below the break `sz`.

`free` makes one step twice: a header takes over a successor and is merged with it when it
ends where that one starts (`mergeInto`). What this does to the list is `join`:

* `Links.mergeInto` — the step puts a block in front of a chain as `join` says;
* `Ring.freeJoin_base`, `Ring.freeJoin_cell` — `free`'s join below the lowest block, and
  after a block `p`, is `insertAt`;
* `Ring.freeSearch` — on a ring, the search loop of `free` stops exactly at the last cell
  below the block being freed, whatever cell it starts from.
-/

namespace Xv6Lab.Umalloc

open ListSeg

@[simp] theorem hdrSize_eq : hdrSize = 16 := rfl

/-- A block of the allocator: the address of its header and its size in units of
`sizeof(Header)`, the header's own unit included. -/
structure Block where
  addr : ℕ
  units : ℕ
  deriving DecidableEq, Repr

namespace Block

/-- The first address past the block. -/
def endAddr (b : Block) : ℕ := b.addr + hdrSize * b.units

/-- `b` ends strictly before `c` begins. -/
def Before (b c : Block) : Prop := b.endAddr < c.addr

/-- The two blocks do not overlap. -/
def Apart (b c : Block) : Prop := b.endAddr ≤ c.addr ∨ c.endAddr ≤ b.addr

theorem apart_comm {b c : Block} : Apart b c ↔ Apart c b := Or.comm

theorem Before.apart {b c : Block} (h : Before b c) : Apart b c := .inl (Nat.le_of_lt h)

/-- A block apart from `y` is apart from every block inside `y`. -/
theorem Apart.mono {d x y : Block} (h : Apart d y) (h₁ : y.addr ≤ x.addr)
    (h₂ : x.endAddr ≤ y.endAddr) : Apart d x := by
  simp only [Apart, endAddr] at *
  omega

/-- Blocks that do not overlap and are not empty start at different addresses. -/
theorem Apart.addr_ne {b c : Block} (h : Apart b c) (hb : 0 < b.units) (hc : 0 < c.units) :
    b.addr ≠ c.addr := by
  simp only [Apart, endAddr, hdrSize_eq] at h
  omega

end Block

/-- The address of the first block of `L`, or `z` when there is none. -/
def headAddr : List Block → ℕ → ℕ
  | [], z => z
  | b :: _, _ => b.addr

@[simp] theorem headAddr_nil (z : ℕ) : headAddr [] z = z := rfl

@[simp] theorem headAddr_cons (b : Block) (L : List Block) (z : ℕ) : headAddr (b :: L) z = b.addr :=
  rfl

/-- The cell after which a block goes when the blocks `P` lie below it: the last of `P`, or
`base`. -/
def lastCell (base : ℕ) (P : List Block) : ℕ := ((P.map Block.addr).getLast?).getD base

@[simp] theorem lastCell_nil (base : ℕ) : lastCell base [] = base := rfl

@[simp] theorem lastCell_concat (base : ℕ) (P : List Block) (b : Block) :
    lastCell base (P ++ [b]) = b.addr := by
  simp [lastCell]

theorem lastCell_append (base : ℕ) (P W : List Block) :
    lastCell base (P ++ W) = lastCell (lastCell base P) W := by
  rcases List.eq_nil_or_concat W with rfl | ⟨W, b, rfl⟩
  · simp
  · rw [List.concat_eq_append, ← List.append_assoc, lastCell_concat, lastCell_concat]

/-- `a` put in front of `L`, merged with the first block of `L` when it ends where that one
starts. -/
def join (a : Block) : List Block → List Block
  | [] => [a]
  | c :: L => if a.endAddr = c.addr then ⟨a.addr, a.units + c.units⟩ :: L else a :: c :: L

/-- The free list once the block `b` goes in between the blocks `P` below it and `Q` above
it, joined to the neighbours it touches. -/
def insertAt : List Block → Block → List Block → List Block
  | [], b, Q => join b Q
  | [p], b, Q => join p (join b Q)
  | p :: p' :: P, b, Q => p :: insertAt (p' :: P) b Q

theorem insertAt_concat (P : List Block) (p b : Block) (Q : List Block) :
    insertAt (P ++ [p]) b Q = P ++ join p (join b Q) := by
  induction P with
  | nil => rfl
  | cons x P ih =>
    cases P with
    | nil => rfl
    | cons y P => simpa [insertAt] using ih

@[simp] theorem headAddr_join (a : Block) (L : List Block) (z : ℕ) :
    headAddr (join a L) z = a.addr := by
  cases L with
  | nil => rfl
  | cons c L => by_cases h : a.endAddr = c.addr <;> simp [join, h, headAddr]

/-- A block of `join a L` is one of `L`, or starts where `a` does and ends where `a` ends or
where the block of `L` that `a` touches ends. -/
theorem mem_join {a x : Block} {L : List Block} (hx : x ∈ join a L) :
    x ∈ L ∨ (x.addr = a.addr ∧
      (x.endAddr = a.endAddr ∨ ∃ c ∈ L, c.addr = a.endAddr ∧ x.endAddr = c.endAddr)) := by
  cases L with
  | nil =>
    simp only [join, List.mem_singleton] at hx
    exact .inr ⟨by rw [hx], .inl (by rw [hx])⟩
  | cons c L =>
    by_cases h : a.endAddr = c.addr
    · simp only [join, h, if_true, List.mem_cons] at hx
      rcases hx with rfl | hx
      · refine .inr ⟨rfl, .inr ⟨c, List.mem_cons_self, h.symm, ?_⟩⟩
        simp only [Block.endAddr, hdrSize_eq] at h ⊢
        omega
      · exact .inl (List.mem_cons_of_mem _ hx)
    · simp only [join, h, if_false, List.mem_cons] at hx
      rcases hx with rfl | rfl | hx
      · exact .inr ⟨rfl, .inl rfl⟩
      · exact .inl List.mem_cons_self
      · exact .inl (List.mem_cons_of_mem _ hx)

/-- The headers of `mem` link the blocks of `L` in order, starting from the first and ending
at `z`, and each holds its block's size. -/
structure Links (mem : ℕ → Header) (L : List Block) (z : ℕ) : Prop where
  path : Path Header.ptr 0 mem (headAddr L z) (L.map Block.addr) z
  size : ∀ b ∈ L, (mem b.addr).size.toNat = b.units

theorem headAddr_append (L₁ L₂ : List Block) (z : ℕ) :
    headAddr (L₁ ++ L₂) z = headAddr L₁ (headAddr L₂ z) := by
  cases L₁ <;> rfl

namespace Links

variable {mem mem' : ℕ → Header} {L L₁ L₂ : List Block} {z : ℕ}

/-- A path through the cells of `L` can only start at the first of them. -/
theorem path_start {x : ℕ} (h : Path Header.ptr 0 mem x (L.map Block.addr) z) :
    x = headAddr L z := by
  cases L with
  | nil => exact path_nil_iff.mp h
  | cons b L => exact (path_cons_iff.mp h).1

theorem nil (mem : ℕ → Header) (z : ℕ) : Links mem [] z :=
  ⟨.nil z, fun _ h => absurd h List.not_mem_nil⟩

theorem cons_iff {b : Block} :
    Links mem (b :: L) z ↔ b.addr ≠ 0 ∧ (mem b.addr).ptr = headAddr L z ∧
      (mem b.addr).size.toNat = b.units ∧ Links mem L z := by
  constructor
  · rintro ⟨hp, hs⟩
    obtain ⟨-, hne, hrest⟩ := path_cons_iff.mp hp
    have hstart := path_start hrest
    exact ⟨hne, hstart, hs b List.mem_cons_self,
      ⟨hstart ▸ hrest, fun c hc => hs c (List.mem_cons_of_mem _ hc)⟩⟩
  · rintro ⟨hne, hptr, hsz, hL⟩
    refine ⟨.cons hne (hptr ▸ hL.path), fun c hc => ?_⟩
    rcases List.mem_cons.mp hc with rfl | hc
    · exact hsz
    · exact hL.size c hc

theorem append_iff : Links mem (L₁ ++ L₂) z ↔ Links mem L₁ (headAddr L₂ z) ∧ Links mem L₂ z := by
  induction L₁ with
  | nil => exact ⟨fun h => ⟨nil _ _, h⟩, fun h => h.2⟩
  | cons b L₁ ih =>
    rw [List.cons_append, cons_iff, cons_iff, ih, headAddr_append]
    tauto

/-- The frame rule: links only read the headers of their own blocks. -/
theorem frame (h : Links mem L z) (hagree : ∀ b ∈ L, mem' b.addr = mem b.addr) :
    Links mem' L z := by
  refine ⟨h.path.frame fun x hx => ?_, fun b hb => ?_⟩
  · obtain ⟨b, hb, rfl⟩ := List.mem_map.mp hx
    rw [hagree b hb]
  · rw [hagree b hb]
    exact h.size b hb

end Links

/-- `a->s.size += h->s.size; a->s.ptr = h->s.ptr` when the block at `a` ends at `h`, and
`a->s.ptr = h` otherwise: the step each half of `free`'s join makes. -/
def mergeInto (mem : ℕ → Header) (a h : ℕ) : ℕ → Header :=
  if a + hdrSize * (mem a).size.toNat = h then
    setPtr (setSize mem a ((mem a).size + (mem h).size)) a (mem h).ptr
  else setPtr mem a h

theorem mergeInto_of_ne {mem : ℕ → Header} {a h x : ℕ} (hx : x ≠ a) :
    mergeInto mem a h x = mem x := by
  unfold mergeInto
  split_ifs <;> simp [hx]

/-- `free`'s join is `mergeInto` twice: the freed block `bp` into the successor of `p`, then
`p` into `bp`. -/
theorem freeJoin_eq (s : UMem) (bp p : ℕ) :
    freeJoin s bp p =
      { s with mem := mergeInto (mergeInto s.mem bp (s.mem p).ptr) p bp, freep := p } := by
  simp only [freeJoin, mergeInto, setSize_ptr]
  rfl

/-- One `mergeInto` step puts the block `a` in front of the chain `L`, as `join` does. -/
theorem Links.mergeInto {mem : ℕ → Header} {L : List Block} {z : ℕ} (hL : Links mem L z)
    {a : Block} (ha0 : a.addr ≠ 0) (haL : a.addr ∉ L.map Block.addr)
    (hsize : (mem a.addr).size.toNat = a.units) (hz : L = [] → a.endAddr ≠ z)
    (hfit : ∀ c ∈ L, a.endAddr = c.addr → a.units + c.units < 2 ^ 32) :
    Links (Umalloc.mergeInto mem a.addr (headAddr L z)) (join a L) z := by
  have hend : a.addr + hdrSize * (mem a.addr).size.toNat = a.endAddr := by
    rw [hsize]
    rfl
  cases L with
  | nil =>
    have hne : ¬ (a.addr + hdrSize * (mem a.addr).size.toNat = z) := by
      rw [hend]
      exact hz rfl
    simp only [headAddr, join, Umalloc.mergeInto, hne, if_false]
    exact Links.cons_iff.mpr ⟨ha0, by simp [headAddr], by simpa using hsize, Links.nil _ _⟩
  | cons c L =>
    obtain ⟨hc0, hcptr, hcsize, hrest⟩ := Links.cons_iff.mp hL
    have hoff : ∀ b ∈ c :: L, b.addr ≠ a.addr := fun b hb h =>
      haL (List.mem_map.mpr ⟨b, hb, h⟩)
    by_cases hm : a.endAddr = c.addr
    · -- merged: `a` takes over the size and the successor of `c`
      have hcond : a.addr + hdrSize * (mem a.addr).size.toNat = c.addr := hend.trans hm
      simp only [headAddr, join, hm, if_true, Umalloc.mergeInto, hcond]
      refine Links.cons_iff.mpr ⟨ha0, by simp [hcptr], ?_,
        hrest.frame fun b hb => ?_⟩
      · have hlt := hfit c List.mem_cons_self hm
        simp only [setPtr_size, setSize_same, UInt32.toNat_add, hsize, hcsize]
        exact Nat.mod_eq_of_lt hlt
      · have hb := hoff b (List.mem_cons_of_mem _ hb)
        simp [hb]
    · have hcond : ¬ (a.addr + hdrSize * (mem a.addr).size.toNat = c.addr) := by
        rw [hend]
        exact hm
      simp only [headAddr, join, hm, if_false, Umalloc.mergeInto, hcond]
      refine Links.cons_iff.mpr ⟨ha0, by simp [headAddr], by simpa using hsize, ?_⟩
      exact hL.frame fun b hb => by simp [hoff b hb]

theorem join_ne_nil (a : Block) (L : List Block) : join a L ≠ [] := by
  cases L with
  | nil => exact List.cons_ne_nil _ _
  | cons c L => by_cases h : a.endAddr = c.addr <;> simp [join, h]

/-- The cells of `join a L` are `a` and cells of `L`. -/
theorem addr_mem_join {a : Block} {L : List Block} {y : ℕ} (hy : y ∈ (join a L).map Block.addr) :
    y = a.addr ∨ y ∈ L.map Block.addr := by
  obtain ⟨x, hx, rfl⟩ := List.mem_map.mp hy
  rcases mem_join hx with hx | ⟨hxa, -⟩
  · exact .inr (List.mem_map.mpr ⟨x, hx, rfl⟩)
  · exact .inl hxa

theorem pairwise_join {a : Block} {L : List Block} (hL : L.Pairwise Block.Before)
    (ha : ∀ c ∈ L, a.endAddr ≤ c.addr) : (join a L).Pairwise Block.Before := by
  cases L with
  | nil => exact List.pairwise_singleton _ _
  | cons c L =>
    rw [List.pairwise_cons] at hL
    by_cases hm : a.endAddr = c.addr
    · -- the merged block ends where `c` did
      simp only [join, hm, if_true]
      refine List.pairwise_cons.mpr ⟨fun y hy => ?_, hL.2⟩
      have hcy := hL.1 y hy
      simp only [Block.Before, Block.endAddr, hdrSize_eq] at hcy hm ⊢
      omega
    · simp only [join, hm, if_false]
      refine List.pairwise_cons.mpr ⟨fun y hy => ?_, List.pairwise_cons.mpr hL⟩
      have hc := ha c List.mem_cons_self
      rcases List.mem_cons.mp hy with rfl | hy
      · exact Nat.lt_of_le_of_ne hc hm
      · have hcy := hL.1 y hy
        simp only [Block.Before, Block.endAddr, hdrSize_eq] at hcy hc ⊢
        omega

/-- A block apart from `a` and from every block of `L` is apart from every block of
`join a L`: a merged block covers exactly the two it is made of. -/
theorem apart_join {a d : Block} {L : List Block} (hd : 0 < d.units) (hda : d.Apart a)
    (hdL : ∀ c ∈ L, d.Apart c) : ∀ x ∈ join a L, d.Apart x := by
  intro x hx
  rcases mem_join hx with hx | ⟨haddr, hend | ⟨c, hc, hca, hend⟩⟩
  · exact hdL x hx
  · simp only [Block.Apart, Block.endAddr, hdrSize_eq] at hda hend ⊢
    omega
  · have hdc := hdL c hc
    simp only [Block.Apart, Block.endAddr, hdrSize_eq] at hda hdc hca hend ⊢
    omega

/-! ### The ring and its shape -/

/-- The size of a process beyond which a block's size in units could overflow a `uint`:
`2^32` units of 16 bytes. No xv6 process comes near it, its memory being backed by physical
pages, of which there are `PHYSTOP - KERNBASE`, 128 MiB. -/
def sizeLimit : ℕ := 2 ^ 36

/-- Two adjacent blocks below `sizeLimit` have fewer than `2^32` units together: their merged
size is still a `uint`. -/
theorem units_add_lt {a c : Block} (h : a.endAddr = c.addr) (ha : 0 < a.addr)
    (hc : c.endAddr ≤ sizeLimit) : a.units + c.units < 2 ^ 32 := by
  simp only [Block.endAddr, hdrSize_eq, sizeLimit] at h hc
  omega

/-- `mem` holds the free list `fs`: the links from `base` run through the blocks of `fs` in
order and back to `base`, no header sits at `NULL`, and `base` has size `0`. -/
structure Ring (base : ℕ) (mem : ℕ → Header) (fs : List Block) : Prop where
  base_ne : base ≠ 0
  baseSize : (mem base).size = 0
  basePtr : (mem base).ptr = headAddr fs base
  links : Links mem fs base

/-- The shape of the free list of a process of size `sz`: the blocks in increasing order,
each ending strictly before the next begins, none empty, all above `base`'s header and below
the break. -/
structure Shape (base sz : ℕ) (fs : List Block) : Prop where
  sorted : fs.Pairwise Block.Before
  pos : ∀ b ∈ fs, 0 < b.units
  lower : ∀ b ∈ fs, base + hdrSize ≤ b.addr
  upper : ∀ b ∈ fs, b.endAddr ≤ sz

variable {base sz : ℕ} {mem : ℕ → Header} {fs : List Block}

/-- The ring as one cycle of cells from `base`. -/
theorem Ring.path (h : Ring base mem fs) :
    Path Header.ptr 0 mem base (base :: fs.map Block.addr) base :=
  .cons h.base_ne (h.basePtr ▸ h.links.path)

/-- The frame rule: the ring only reads the headers of its cells. -/
theorem Ring.frame {mem' : ℕ → Header} (h : Ring base mem fs)
    (hagree : ∀ x ∈ base :: fs.map Block.addr, mem' x = mem x) : Ring base mem' fs := by
  have hbase := hagree base List.mem_cons_self
  refine ⟨h.base_ne, hbase ▸ h.baseSize, hbase ▸ h.basePtr, h.links.frame fun b hb => ?_⟩
  exact hagree _ (List.mem_cons_of_mem _ (List.mem_map.mpr ⟨b, hb, rfl⟩))

/-- The free list has every link of a ring: the cell `free` or `malloc` stops after leads to
the rest of the list. -/
theorem Ring.ptr_lastCell {P R : List Block} (h : Ring base mem (P ++ R)) :
    (mem (lastCell base P)).ptr = headAddr R base := by
  rcases List.eq_nil_or_concat P with rfl | ⟨P, l, rfl⟩
  · exact h.basePtr
  · rw [List.concat_eq_append] at h ⊢
    rw [lastCell_concat]
    have hl := (Links.append_iff.mp (Links.append_iff.mp h.links).1).2
    exact (Links.cons_iff.mp hl).2.1

namespace Shape

/-- A larger break keeps the shape. -/
theorem mono {sz' : ℕ} (h : Shape base sz fs) (hle : sz ≤ sz') : Shape base sz' fs :=
  ⟨h.sorted, h.pos, h.lower, fun b hb => Nat.le_trans (h.upper b hb) hle⟩

theorem append_iff {L₁ L₂ : List Block} :
    Shape base sz (L₁ ++ L₂) ↔
      Shape base sz L₁ ∧ Shape base sz L₂ ∧ ∀ x ∈ L₁, ∀ y ∈ L₂, x.Before y := by
  constructor
  · rintro ⟨hs, hp, hl, hu⟩
    obtain ⟨hs₁, hs₂, hcross⟩ := List.pairwise_append.mp hs
    exact ⟨⟨hs₁, fun b hb => hp b (List.mem_append_left _ hb),
        fun b hb => hl b (List.mem_append_left _ hb), fun b hb => hu b (List.mem_append_left _ hb)⟩,
      ⟨hs₂, fun b hb => hp b (List.mem_append_right _ hb),
        fun b hb => hl b (List.mem_append_right _ hb), fun b hb => hu b (List.mem_append_right _ hb)⟩,
      hcross⟩
  · rintro ⟨h₁, h₂, hcross⟩
    refine ⟨List.pairwise_append.mpr ⟨h₁.sorted, h₂.sorted, hcross⟩, ?_, ?_, ?_⟩ <;>
      intro b hb <;> rcases List.mem_append.mp hb with hb | hb
    exacts [h₁.pos b hb, h₂.pos b hb, h₁.lower b hb, h₂.lower b hb, h₁.upper b hb,
      h₂.upper b hb]

theorem cons_iff {b : Block} {L : List Block} :
    Shape base sz (b :: L) ↔ (0 < b.units ∧ base + hdrSize ≤ b.addr ∧ b.endAddr ≤ sz ∧
      ∀ c ∈ L, b.Before c) ∧ Shape base sz L := by
  rw [← List.singleton_append, append_iff]
  constructor
  · rintro ⟨⟨-, hp, hl, hu⟩, hL, hcross⟩
    exact ⟨⟨hp b List.mem_cons_self, hl b List.mem_cons_self, hu b List.mem_cons_self,
      hcross b List.mem_cons_self⟩, hL⟩
  · rintro ⟨⟨hp, hl, hu, hb⟩, hL⟩
    refine ⟨⟨List.pairwise_singleton _ _, ?_, ?_, ?_⟩, hL, ?_⟩ <;> intro x hx <;>
      rw [List.mem_singleton.mp hx]
    exacts [hp, hl, hu, hb]

/-- The cell a search stops after lies below every block after it. -/
theorem lastCell_lt {P R : List Block} (h : Shape base sz (P ++ R)) {c : Block} (hc : c ∈ R) :
    lastCell base P < c.addr := by
  obtain ⟨hP, hR, hcross⟩ := append_iff.mp h
  rcases List.eq_nil_or_concat P with rfl | ⟨P, l, rfl⟩
  · have := hR.lower c hc
    simp only [lastCell_nil, hdrSize_eq] at this ⊢
    omega
  · rw [List.concat_eq_append] at hcross ⊢
    rw [lastCell_concat]
    have := hcross l (List.mem_append_right _ List.mem_cons_self) c hc
    simp only [Block.Before, Block.endAddr] at this
    omega

/-- The last cell of a list through `y` is `y` or above it. -/
theorem le_lastCell {P R : List Block} {y : Block} (h : Shape base sz (P ++ y :: R)) :
    y.addr ≤ lastCell base (P ++ y :: R) := by
  rcases List.eq_nil_or_concat R with rfl | ⟨R, l, rfl⟩
  · rw [← List.concat_eq_append, List.concat_eq_append, lastCell_concat]
  · rw [List.concat_eq_append, ← List.cons_append, ← List.append_assoc, lastCell_concat]
    have hs := (List.pairwise_append.mp h.sorted).2.1
    have := (List.pairwise_cons.mp hs).1 l (by simp)
    simp only [Block.Before, Block.endAddr] at this
    omega

/-- `join` keeps the shape, for a block that fits below the list. -/
theorem join {L : List Block} (hL : Shape base sz L) {a : Block} (ha : 0 < a.units)
    (hlo : base + hdrSize ≤ a.addr) (hhi : a.endAddr ≤ sz) (hbefore : ∀ c ∈ L, a.endAddr ≤ c.addr) :
    Shape base sz (Umalloc.join a L) := by
  refine ⟨pairwise_join hL.sorted hbefore, ?_, ?_, ?_⟩ <;> intro x hx <;>
    rcases mem_join hx with hx | ⟨haddr, hend | ⟨c, hc, hca, hend⟩⟩
  · exact hL.pos x hx
  · simp only [Block.endAddr, hdrSize_eq] at hend
    omega
  · simp only [Block.endAddr, hdrSize_eq] at hca hend
    omega
  · exact hL.lower x hx
  · exact haddr ▸ hlo
  · exact haddr ▸ hlo
  · exact hL.upper x hx
  · exact hend ▸ hhi
  · exact hend ▸ hL.upper c hc

/-- The cells of the ring, `base` first, are increasing. -/
theorem cells_sorted (h : Shape base sz fs) : (base :: fs.map Block.addr).Pairwise (· < ·) := by
  refine List.pairwise_cons.mpr ⟨fun x hx => ?_, List.pairwise_map.mpr (h.sorted.imp ?_)⟩
  · obtain ⟨b, hb, rfl⟩ := List.mem_map.mp hx
    have hlo := h.lower b hb
    simp only [hdrSize_eq] at hlo
    omega
  · intro b c hbc
    simp only [Block.Before, Block.endAddr] at hbc
    omega

end Shape

/-- Unlinking the block `y` from after the cell before it. -/
theorem Ring.unlink {P Q : List Block} {y : Block} (h : Ring base mem (P ++ y :: Q))
    (hs : Shape base sz (P ++ y :: Q)) :
    Ring base (setPtr mem (lastCell base P) (mem y.addr).ptr) (P ++ Q) := by
  have hyptr : (mem y.addr).ptr = headAddr Q base :=
    (Links.cons_iff.mp (Links.append_iff.mp h.links).2).2.1
  have hQ := (Links.cons_iff.mp (Links.append_iff.mp h.links).2).2.2.2
  rcases List.eq_nil_or_concat P with rfl | ⟨P, p, rfl⟩
  · -- `y` was the lowest block: `base` now links past it
    have hbaseQ : ∀ c ∈ Q, c.addr ≠ base := fun c hc => Nat.ne_of_gt
      (by simpa using hs.lastCell_lt (P := []) (List.mem_cons_of_mem _ hc))
    refine ⟨h.base_ne, by simpa using h.baseSize, by simpa using hyptr, hQ.frame fun c hc => ?_⟩
    simp [hbaseQ c hc]
  · rw [List.concat_eq_append] at h hs ⊢
    rw [lastCell_concat]
    rw [List.append_assoc, List.singleton_append] at h hs ⊢
    obtain ⟨hP, hpyQ⟩ := Links.append_iff.mp h.links
    obtain ⟨hp0, -, hpsize, -⟩ := Links.cons_iff.mp hpyQ
    -- `p` lies above `base` and the blocks below it, and below the blocks after `y`
    have hpP : ∀ c ∈ P, c.addr ≠ p.addr := fun c hc => by
      have := (Shape.append_iff.mp hs).2.2 c hc p List.mem_cons_self
      simp only [Block.Before, Block.endAddr] at this
      omega
    have hpQ : ∀ c ∈ Q, c.addr ≠ p.addr := fun c hc => by
      have hs' : Shape base sz ((P ++ [p]) ++ y :: Q) := by simpa using hs
      have := hs'.lastCell_lt (List.mem_cons_of_mem y hc)
      rw [lastCell_concat] at this
      omega
    have hpbase : base ≠ p.addr := Nat.ne_of_lt (by
      simpa using hs.lastCell_lt (P := []) (c := p) (by simp))
    refine ⟨h.base_ne, by simp [hpbase, h.baseSize], ?_, Links.append_iff.mpr ⟨?_, ?_⟩⟩
    · rw [setPtr_of_ne _ hpbase, h.basePtr, headAddr_append, headAddr_append]
      rfl
    · exact hP.frame fun c hc => by simp [hpP c hc]
    · refine Links.cons_iff.mpr ⟨hp0, by simpa using hyptr, by simpa using hpsize, ?_⟩
      exact hQ.frame fun c hc => by simp [hpQ c hc]

/-- Writing a new size into the block `y` of the list. -/
theorem Links.setSize {P Q : List Block} {y : Block} {z : ℕ} (h : Links mem (P ++ y :: Q) z)
    (hP : ∀ c ∈ P, c.addr ≠ y.addr) (hQ : ∀ c ∈ Q, c.addr ≠ y.addr) (v : UInt32) :
    Links (Umalloc.setSize mem y.addr v) (P ++ ⟨y.addr, v.toNat⟩ :: Q) z := by
  obtain ⟨hPl, hyQ⟩ := Links.append_iff.mp h
  obtain ⟨hy0, hyptr, -, hQl⟩ := Links.cons_iff.mp hyQ
  refine Links.append_iff.mpr ⟨hPl.frame fun c hc => by simp [hP c hc], ?_⟩
  exact Links.cons_iff.mpr ⟨hy0, by simpa using hyptr, by simp,
    hQl.frame fun c hc => by simp [hQ c hc]⟩

/-- A sorted free list splits at any address that starts none of its blocks. -/
theorem exists_split {L : List Block} (hs : L.Pairwise Block.Before) {bp : ℕ}
    (hbp : bp ∉ L.map Block.addr) :
    ∃ P Q, L = P ++ Q ∧ (∀ b ∈ P, b.addr < bp) ∧ ∀ b ∈ Q, bp < b.addr := by
  induction L with
  | nil => exact ⟨[], [], rfl, by simp, by simp⟩
  | cons b L ih =>
    rw [List.pairwise_cons] at hs
    have hne : b.addr ≠ bp := fun h => hbp (List.mem_map.mpr ⟨b, List.mem_cons_self, h⟩)
    by_cases hlt : b.addr < bp
    · obtain ⟨P, Q, rfl, hP, hQ⟩ := ih hs.2 fun h => hbp (List.mem_cons_of_mem _ h)
      refine ⟨b :: P, Q, rfl, fun c hc => ?_, hQ⟩
      rcases List.mem_cons.mp hc with rfl | hc
      exacts [hlt, hP c hc]
    · refine ⟨[], b :: L, rfl, by simp, fun c hc => ?_⟩
      rcases List.mem_cons.mp hc with rfl | hc
      · omega
      · have hbc := hs.1 c hc
        simp only [Block.Before, Block.endAddr] at hbc
        omega

/-! ### The join of `free` -/

/-- Freeing `b` below every free block: `b` is joined to the list, and `base`, of size `0`,
links to it. -/
theorem Ring.freeJoin_base {s : UMem} {Q : List Block} {b : Block} (h : Ring base s.mem Q)
    (hb0 : b.addr ≠ 0) (hbQ : b.addr ∉ Q.map Block.addr) (hbase : base < b.addr)
    (hbaseQ : base ∉ Q.map Block.addr) (hsize : (s.mem b.addr).size.toNat = b.units)
    (hfit : ∀ c ∈ Q, b.endAddr = c.addr → b.units + c.units < 2 ^ 32) :
    Ring base (freeJoin s b.addr base).mem (join b Q) := by
  have hJ := h.links.mergeInto hb0 hbQ hsize (fun _ => by
    simp only [Block.endAddr, hdrSize_eq]
    omega) hfit
  rw [← h.basePtr] at hJ
  rw [freeJoin_eq]
  set mem₁ := mergeInto s.mem b.addr (s.mem base).ptr
  have hb₁ : mem₁ base = s.mem base := mergeInto_of_ne (Nat.ne_of_lt hbase)
  -- `base` has size `0`, so it is never merged with `b`: it only links to it
  have hlow : mergeInto mem₁ base b.addr = setPtr mem₁ base b.addr := by
    have hne : ¬ (base + hdrSize * (mem₁ base).size.toNat = b.addr) := by
      rw [hb₁, h.baseSize]
      simp only [UInt32.toNat_zero, Nat.mul_zero, Nat.add_zero]
      exact Nat.ne_of_lt hbase
    simp only [mergeInto, hne, if_false]
  refine ⟨h.base_ne, ?_, ?_, hJ.frame fun c hc => ?_⟩
  · simp [hlow, hb₁, h.baseSize]
  · simp [hlow]
  · have hcb : c.addr ≠ base := by
      rcases addr_mem_join (List.mem_map.mpr ⟨c, hc, rfl⟩) with h' | h'
      · rw [h']
        exact Nat.ne_of_gt hbase
      · exact fun h'' => hbaseQ (h'' ▸ h')
    simp [hlow, hcb]

/-- Freeing `b` after the free block `p`: `b` is joined to what follows `p`, and `p` to `b`. -/
theorem Ring.freeJoin_cell {s : UMem} {P Q : List Block} {p b : Block}
    (h : Ring base s.mem (P ++ p :: Q)) (hb0 : b.addr ≠ 0) (hbP : b.addr ∉ P.map Block.addr)
    (hbQ : b.addr ∉ Q.map Block.addr) (hbp : b.addr ≠ p.addr) (hbase : base < b.addr)
    (hpP : p.addr ∉ P.map Block.addr) (hpQ : p.addr ∉ Q.map Block.addr) (hpbase : p.addr ≠ base)
    (hsize : (s.mem b.addr).size.toNat = b.units)
    (hfitQ : ∀ c ∈ Q, b.endAddr = c.addr → b.units + c.units < 2 ^ 32)
    (hfitJ : ∀ c ∈ join b Q, p.endAddr = c.addr → p.units + c.units < 2 ^ 32) :
    Ring base (freeJoin s b.addr p.addr).mem (P ++ join p (join b Q)) := by
  obtain ⟨hP, hpQ'⟩ := Links.append_iff.mp h.links
  obtain ⟨hp0, hpptr, hpsize, hQ⟩ := Links.cons_iff.mp hpQ'
  have hJ := hQ.mergeInto hb0 hbQ hsize (fun _ => by
    simp only [Block.endAddr, hdrSize_eq]
    omega) hfitQ
  rw [← hpptr] at hJ
  have hpsize₁ : (mergeInto s.mem b.addr (s.mem p.addr).ptr p.addr).size.toNat = p.units := by
    rw [mergeInto_of_ne (Ne.symm hbp)]
    exact hpsize
  have hpJ : p.addr ∉ (join b Q).map Block.addr := fun hm => by
    rcases addr_mem_join hm with h' | h'
    exacts [hbp h'.symm, hpQ h']
  have hK := hJ.mergeInto hp0 hpJ hpsize₁ (fun hnil => absurd hnil (join_ne_nil _ _)) hfitJ
  rw [headAddr_join] at hK
  rw [freeJoin_eq]
  refine ⟨h.base_ne, ?_, ?_, Links.append_iff.mpr ⟨?_, hK⟩⟩ <;> dsimp only
  · rw [mergeInto_of_ne (Ne.symm hpbase), mergeInto_of_ne (Nat.ne_of_lt hbase)]
    exact h.baseSize
  · rw [mergeInto_of_ne (Ne.symm hpbase), mergeInto_of_ne (Nat.ne_of_lt hbase), h.basePtr,
      headAddr_append, headAddr_append, headAddr_join]
    rfl
  · rw [headAddr_join]
    refine hP.frame fun c hc => ?_
    have hcm : c.addr ∈ P.map Block.addr := List.mem_map.mpr ⟨c, hc, rfl⟩
    have hcp : c.addr ≠ p.addr := fun h' => hpP (h' ▸ hcm)
    have hcb : c.addr ≠ b.addr := fun h' => hbP (h' ▸ hcm)
    rw [mergeInto_of_ne hcp, mergeInto_of_ne hcb]

/-! ### The search loop of `free` -/

/-- The exit test of `free`'s search loop at the cell `p` whose successor is `q`: `bp` lies
between the two, or `p` is where the list wraps and `bp` lies beyond one of its ends. -/
def Stops (bp p q : ℕ) : Prop := (bp > p ∧ bp < q) ∨ (p ≥ q ∧ (bp > p ∨ bp < q))

instance (bp p q : ℕ) : Decidable (Stops bp p q) := inferInstanceAs (Decidable (_ ∨ _))

theorem freeSearch_succ (mem : ℕ → Header) (bp fuel p : ℕ) :
    freeSearch mem bp (fuel + 1) p =
      if Stops bp p (mem p).ptr then some p else freeSearch mem bp fuel (mem p).ptr := by
  rw [freeSearch.eq_2]
  by_cases h₁ : bp > p ∧ bp < (mem p).ptr
  · rw [if_pos h₁, if_pos (show Stops bp p (mem p).ptr from Or.inl h₁)]
  · by_cases h₂ : p ≥ (mem p).ptr ∧ (bp > p ∨ bp < (mem p).ptr)
    · rw [if_neg h₁, if_pos h₂, if_pos (show Stops bp p (mem p).ptr from Or.inr h₂)]
    · rw [if_neg h₁, if_neg h₂, if_neg (show ¬ Stops bp p (mem p).ptr from not_or.mpr ⟨h₁, h₂⟩)]

/-- The search walks past the cells of a path where it does not stop. -/
theorem freeSearch_walk {bp a c : ℕ} {cs : List ℕ} (h : Path Header.ptr 0 mem a cs c)
    (hskip : ∀ x ∈ cs, ¬ Stops bp x (mem x).ptr) (fuel : ℕ) :
    freeSearch mem bp (fuel + cs.length) a = freeSearch mem bp fuel c := by
  induction h with
  | nil => rfl
  | @cons a c as _ _ ih =>
    rw [List.length_cons, ← Nat.add_assoc, freeSearch_succ, if_neg (hskip a List.mem_cons_self)]
    exact ih fun x hx => hskip x (List.mem_cons_of_mem _ hx)

theorem not_stops_below {bp x q : ℕ} (hx : x < q) (hq : q < bp) : ¬ Stops bp x q := by
  unfold Stops
  omega

theorem not_stops_above {bp x q : ℕ} (hbp : bp < x) (hx : x < q) : ¬ Stops bp x q := by
  unfold Stops
  omega

theorem not_stops_wrap {bp x q : ℕ} (hbp : bp < x) (hq : q < bp) : ¬ Stops bp x q := by
  unfold Stops
  omega

theorem stops_between {bp x q : ℕ} (hx : x < bp) (hq : bp < q) : Stops bp x q := by
  unfold Stops
  omega

theorem stops_wrap {bp x q : ℕ} (hx : x < bp) (hq : q ≤ x) : Stops bp x q := by
  unfold Stops
  omega

/-- The cells from `base` through `P` end with `lastCell base P`. -/
theorem exists_cells_concat (base : ℕ) (P : List Block) :
    ∃ U, base :: P.map Block.addr = U ++ [lastCell base P] := by
  rcases List.eq_nil_or_concat P with rfl | ⟨P, b, rfl⟩
  · exact ⟨[], rfl⟩
  · exact ⟨base :: P.map Block.addr, by simp⟩

theorem lastCell_mem (base : ℕ) (P : List Block) : lastCell base P ∈ base :: P.map Block.addr := by
  obtain ⟨U, hU⟩ := exists_cells_concat base P
  rw [hU]
  exact List.mem_append_right _ (List.mem_singleton_self _)

/-- On the ring, split at `bp` into the blocks `P` below it and `Q` above it, `free`'s exit
test holds at the last cell below `bp` and at no other cell. -/
theorem Ring.stops_iff {P Q : List Block} (h : Ring base mem (P ++ Q))
    (hs : Shape base sz (P ++ Q)) {bp : ℕ} (hbase : base < bp) (hP : ∀ b ∈ P, b.addr < bp)
    (hQ : ∀ b ∈ Q, bp < b.addr) {x : ℕ} (hx : x ∈ base :: (P ++ Q).map Block.addr) :
    Stops bp x (mem x).ptr ↔ x = lastCell base P := by
  obtain ⟨U, hU⟩ := exists_cells_concat base P
  set pr := lastCell base P
  have hcyc : base :: (P ++ Q).map Block.addr = U ++ pr :: Q.map Block.addr := by
    rw [List.map_append, ← List.cons_append, hU, List.append_assoc, List.singleton_append]
  have hsorted := hs.cells_sorted
  rw [hcyc] at hsorted hx
  have hpath := h.path
  rw [hcyc] at hpath
  obtain ⟨hsU, hsV, hcross⟩ := List.pairwise_append.mp hsorted
  have hnd := hsorted.nodup
  -- the cells of `U` and `pr` lie below `bp`, `base` lowest of all
  have hlow : ∀ y ∈ U ++ [pr], base ≤ y ∧ y < bp := by
    intro y hy
    rw [← hU] at hy
    rcases List.mem_cons.mp hy with rfl | hy
    · exact ⟨Nat.le_refl _, hbase⟩
    · obtain ⟨b, hb, rfl⟩ := List.mem_map.mp hy
      have hb' := hs.lower b (List.mem_append_left _ hb)
      simp only [hdrSize_eq] at hb'
      exact ⟨by omega, hP b hb⟩
  have hpr := hlow pr (List.mem_append_right _ (List.mem_singleton_self _))
  obtain ⟨m, hpU, hrest⟩ := path_append_iff.mp hpath
  obtain ⟨rfl, -, hV⟩ := path_cons_iff.mp hrest
  rcases List.mem_append.mp hx with hxU | hxV
  · -- below `pr`: each link points forward to a cell no higher than `pr`
    have hne : x ≠ pr := fun hx' =>
      (List.nodup_append.mp hnd).2.2 x hxU pr List.mem_cons_self (hx' ▸ rfl)
    have hsU' : (U ++ [pr]).Pairwise (· < ·) :=
      List.pairwise_append.mpr ⟨hsU, List.pairwise_singleton _ _, fun a ha b hb =>
        hcross a ha b (List.mem_singleton.mp hb ▸ List.mem_cons_self)⟩
    obtain ⟨hlt, hle⟩ := hpU.lt_next hsU' x hxU
    exact iff_of_false (not_stops_below hlt (by omega)) hne
  rcases List.mem_cons.mp hxV with rfl | hxV
  · -- at `pr` the link leaves the cells below `bp`: to the first cell above, or back to `base`
    refine iff_of_true ?_ rfl
    rw [hV.start_eq]
    cases hQ' : Q with
    | nil => exact stops_wrap hpr.2 hpr.1
    | cons c Q =>
      have hc := hQ c (by rw [hQ']; exact List.mem_cons_self)
      exact stops_between hpr.2 hc
  · -- above `bp`: links point forward, except the last, which wraps to `base`
    have hne : x ≠ pr := fun hx' => (List.nodup_cons.mp (List.nodup_append.mp hnd).2.1).1
      (hx' ▸ hxV)
    refine iff_of_false ?_ hne
    have hxbp : bp < x := by
      obtain ⟨b, hb, rfl⟩ := List.mem_map.mp hxV
      exact hQ b hb
    obtain ⟨V, l, hVl⟩ := (List.eq_nil_or_concat (Q.map Block.addr)).resolve_left
      (List.ne_nil_of_mem hxV)
    rw [hVl, List.concat_eq_append] at hV hxV hsV
    obtain ⟨m, hV', hl⟩ := path_append_iff.mp hV
    obtain ⟨rfl, -, hlbase⟩ := path_cons_iff.mp hl
    rcases List.mem_append.mp hxV with hxV | hxl
    · have hsV' := (List.pairwise_cons.mp hsV).2
      obtain ⟨hlt, -⟩ := hV'.lt_next hsV' x hxV
      exact not_stops_above hxbp hlt
    · rw [List.mem_singleton.mp hxl, path_nil_iff.mp hlbase]
      rw [List.mem_singleton.mp hxl] at hxbp
      exact not_stops_wrap hxbp hbase

/-- On a ring whose cells increase from `base`, the search of `free` for a block `bp` above
`base` that starts no free block, from any cell `f` of the ring and with fuel for one round,
stops at the last cell below `bp`. -/
theorem Ring.freeSearch (h : Ring base mem fs) (hs : Shape base sz fs) {bp f fuel : ℕ}
    (hbase : base < bp) (hbp : bp ∉ fs.map Block.addr) (hf : f ∈ base :: fs.map Block.addr)
    (hfuel : fs.length + 1 ≤ fuel) :
    ∃ P Q, fs = P ++ Q ∧ (∀ b ∈ P, b.addr < bp) ∧ (∀ b ∈ Q, bp < b.addr) ∧
      Umalloc.freeSearch mem bp fuel f = some (lastCell base P) := by
  obtain ⟨P, Q, rfl, hP, hQ⟩ := exists_split hs.sorted hbp
  refine ⟨P, Q, rfl, hP, hQ, ?_⟩
  set cyc := base :: (P ++ Q).map Block.addr
  have hpr : lastCell base P ∈ cyc := by
    have := lastCell_mem base P
    simp only [cyc, List.map_append, List.mem_cons, List.mem_append] at this ⊢
    tauto
  -- go round the cycle from `f` until `lastCell base P`
  obtain ⟨A, B, hAB⟩ := List.append_of_mem hf
  have hrot : Path Header.ptr 0 mem base cyc base := h.path
  rw [hAB] at hrot
  have hrot := hrot.rotate
  have hperm : (f :: B ++ A).Perm cyc := by
    rw [hAB]
    exact List.perm_append_comm
  obtain ⟨W, W', hW⟩ := List.append_of_mem (hperm.mem_iff.mpr hpr)
  rw [hW] at hrot
  obtain ⟨m, hWpath, hrest⟩ := path_append_iff.mp hrot
  obtain ⟨rfl, -, -⟩ := path_cons_iff.mp hrest
  have hnd : (W ++ lastCell base P :: W').Nodup := hW ▸ hperm.nodup_iff.mpr hs.cells_sorted.nodup
  have hskip : ∀ x ∈ W, ¬ Stops bp x (mem x).ptr := fun x hx hstop => by
    have hxc : x ∈ cyc := hperm.mem_iff.mp (hW ▸ List.mem_append_left _ hx)
    have hxpr := (h.stops_iff hs hbase hP hQ hxc).mp hstop
    exact (List.nodup_append.mp hnd).2.2 x hx _ List.mem_cons_self hxpr
  have hlen : W.length + 1 ≤ fuel := by
    have hc : (W ++ lastCell base P :: W').length = (P ++ Q).length + 1 := by
      rw [← hW, hperm.length_eq]
      simp [cyc]
    simp only [List.length_append, List.length_cons] at hc hfuel
    omega
  obtain ⟨d, rfl⟩ := Nat.exists_eq_add_of_le hlen
  rw [Nat.add_comm, Nat.add_comm W.length 1, ← Nat.add_assoc, freeSearch_walk hWpath hskip,
    freeSearch_succ, if_pos ((h.stops_iff hs hbase hP hQ hpr).mpr rfl)]

/-! ### `free` on the ring -/

theorem addr_le_of_mem_join {a x : Block} {L : List Block} (hx : x ∈ join a L)
    (hL : ∀ c ∈ L, a.addr ≤ c.addr) : a.addr ≤ x.addr := by
  rcases mem_join hx with hx | ⟨haddr, -⟩
  exacts [hL x hx, haddr ▸ Nat.le_refl _]

/-- The blocks of a free list of a process of size `sz` number at most `sz / 16`. -/
theorem Shape.length_le (h : Shape base sz fs) : hdrSize * fs.length ≤ sz := by
  -- each block takes at least 16 bytes above the end of the one before it
  suffices ∀ (L : List Block) (lo : ℕ), Shape base sz L → (∀ b ∈ L, lo ≤ b.addr) → L ≠ [] →
      lo + hdrSize * L.length ≤ sz by
    rcases fs with _ | ⟨b, L⟩
    · simp
    · have := this _ 0 h (fun _ _ => Nat.zero_le _) (List.cons_ne_nil _ _)
      omega
  intro L
  induction L with
  | nil => exact fun _ _ _ h => absurd rfl h
  | cons b L ih =>
    intro lo hs hlo _
    obtain ⟨⟨hpos, -, hhi, hbefore⟩, hL⟩ := cons_iff.mp hs
    have hb := hlo b List.mem_cons_self
    rcases L with _ | ⟨c, L⟩
    · simp only [Block.endAddr, hdrSize_eq, List.length_singleton] at hhi ⊢
      omega
    · have := ih b.endAddr hL (fun c hc => Nat.le_of_lt (hbefore c hc)) (List.cons_ne_nil _ _)
      simp only [Block.endAddr, hdrSize_eq, List.length_cons] at this ⊢
      omega

/-- `free(bp + 16)` of a block `b` that overlaps no free block and lies above `base`'s header
and below the break: the search stops at the last cell below `b`, and the free list becomes
`insertAt P b Q`, of the same shape. -/
theorem Ring.free {s : UMem} (h : Ring base s.mem fs) (hs : Shape base s.sz fs)
    (hsz : s.sz ≤ sizeLimit) (hf : s.freep ∈ base :: fs.map Block.addr) {b : Block}
    (hb : (s.mem b.addr).size.toNat = b.units) (hpos : 0 < b.units)
    (hlo : base + hdrSize ≤ b.addr) (hhi : b.endAddr ≤ s.sz) (hapart : ∀ c ∈ fs, b.Apart c) :
    ∃ P Q, fs = P ++ Q ∧ (∀ c ∈ P, c.addr < b.addr) ∧ (∀ c ∈ Q, b.addr < c.addr) ∧
      Umalloc.free s (b.addr + hdrSize) = some (freeJoin s b.addr (lastCell base P)) ∧
      Ring base (freeJoin s b.addr (lastCell base P)).mem (insertAt P b Q) ∧
      Shape base s.sz (insertAt P b Q) := by
  have hbase : base < b.addr := by
    simp only [hdrSize_eq] at hlo
    omega
  have hbcell : b.addr ∉ fs.map Block.addr := fun hm => by
    obtain ⟨c, hc, hcb⟩ := List.mem_map.mp hm
    exact (hapart c hc).addr_ne hpos (hs.pos c hc) hcb.symm
  have hfuel : fs.length + 1 ≤ loopFuel := by
    have := hs.length_le
    simp only [hdrSize_eq, sizeLimit, loopFuel] at this hsz ⊢
    omega
  obtain ⟨P, Q, rfl, hP, hQ, hsearch⟩ := h.freeSearch hs hbase hbcell hf hfuel
  refine ⟨P, Q, rfl, hP, hQ, ?_⟩
  have hfree : Umalloc.free s (b.addr + hdrSize) = some (freeJoin s b.addr (lastCell base P)) := by
    simp only [Umalloc.free, Nat.add_sub_cancel, hsearch, Option.map_some]
  obtain ⟨hsP, hsQ, hcross⟩ := Shape.append_iff.mp hs
  -- `b` ends before every block above it begins
  have hbQ : ∀ c ∈ Q, b.endAddr ≤ c.addr := fun c hc => by
    have := hapart c (List.mem_append_right _ hc)
    have := hQ c hc
    simp only [Block.Apart, Block.endAddr] at *
    omega
  have hJ := hsQ.join hpos hlo hhi hbQ
  have hbQ' : b.addr ∉ Q.map Block.addr := fun hm => hbcell (by simp only [List.map_append]; exact List.mem_append_right _ hm)
  have hfitQ : ∀ c ∈ Q, b.endAddr = c.addr → b.units + c.units < 2 ^ 32 := fun c hc he =>
    units_add_lt he (by omega) (Nat.le_trans (hsQ.upper c hc) hsz)
  rcases List.eq_nil_or_concat P with rfl | ⟨P, p, rfl⟩
  · -- `b` goes below every free block, after `base`
    have hbaseQ : base ∉ Q.map Block.addr := fun hm => by
      obtain ⟨c, hc, hcb⟩ := List.mem_map.mp hm
      have := hsQ.lower c hc
      simp only [hdrSize_eq] at this
      omega
    refine ⟨hfree, ?_, hJ⟩
    exact h.freeJoin_base (by omega) hbQ' hbase hbaseQ hb hfitQ
  · -- `b` goes after the free block `p`
    simp only [List.concat_eq_append] at *
    rw [lastCell_concat] at hfree ⊢
    rw [insertAt_concat]
    have hfs : P ++ [p] ++ Q = P ++ p :: Q := by simp
    rw [hfs] at h hs hapart hbcell
    obtain ⟨hsP', hspQ, hcross'⟩ := Shape.append_iff.mp hs
    obtain ⟨⟨hppos, hplo, hphi, -⟩, -⟩ := Shape.cons_iff.mp hspQ
    have hpb : p.addr < b.addr := hP p (by simp)
    have hpend : p.endAddr ≤ b.addr := by
      have := hapart p (by simp)
      simp only [Block.Apart, Block.endAddr] at this ⊢
      omega
    have hpP : p.addr ∉ P.map Block.addr := fun hm => by
      obtain ⟨x, hx, hxp⟩ := List.mem_map.mp hm
      have := hcross' x hx p List.mem_cons_self
      simp only [Block.Before, Block.endAddr] at this
      omega
    have hpQ : p.addr ∉ Q.map Block.addr := fun hm => by
      obtain ⟨c, hc, hcp⟩ := List.mem_map.mp hm
      have := hQ c hc
      omega
    have hbP : b.addr ∉ P.map Block.addr := fun hm => by
      obtain ⟨x, hx, hxb⟩ := List.mem_map.mp hm
      have := hP x (by simp [hx])
      omega
    have hplo' : 0 < p.addr := by
      simp only [hdrSize_eq] at hplo
      omega
    have hfitJ : ∀ c ∈ join b Q, p.endAddr = c.addr → p.units + c.units < 2 ^ 32 :=
      fun c hc he => units_add_lt he hplo' (Nat.le_trans (hJ.upper c hc) hsz)
    have hJaddr : ∀ c ∈ join b Q, b.addr ≤ c.addr := fun c hc =>
      addr_le_of_mem_join hc fun c hc => Nat.le_of_lt (hQ c hc)
    refine ⟨hfree, h.freeJoin_cell (by omega) hbP hbQ' (Nat.ne_of_gt hpb) hbase hpP hpQ
      (by simp only [hdrSize_eq] at hplo; omega) hb hfitQ hfitJ, ?_⟩
    refine Shape.append_iff.mpr ⟨hsP', hJ.join hppos hplo hphi fun c hc =>
      Nat.le_trans hpend (hJaddr c hc), fun x hx y hy => ?_⟩
    -- everything below `p` ends before `p`, and so before whatever now starts at or after it
    have hxp := hcross' x hx p List.mem_cons_self
    have hpy : p.addr ≤ y.addr := addr_le_of_mem_join hy fun c hc =>
      Nat.le_trans (Nat.le_of_lt hpb) (hJaddr c hc)
    simp only [Block.Before] at hxp ⊢
    omega
@[simp] theorem freeJoin_sz (s : UMem) (bp p : ℕ) : (freeJoin s bp p).sz = s.sz := rfl

@[simp] theorem freeJoin_freep (s : UMem) (bp p : ℕ) : (freeJoin s bp p).freep = p := rfl

/-- `free`'s join writes the headers of the freed block and of the cell before it only. -/
theorem freeJoin_mem_of_ne {s : UMem} {bp p x : ℕ} (hb : x ≠ bp) (hp : x ≠ p) :
    (freeJoin s bp p).mem x = s.mem x := by
  rw [freeJoin_eq]
  exact (mergeInto_of_ne hp).trans (mergeInto_of_ne hb)

/-- The cell `free` stops at stays on the ring. -/
theorem lastCell_mem_insertAt (base : ℕ) (P : List Block) (b : Block) (Q : List Block) :
    lastCell base P ∈ base :: (insertAt P b Q).map Block.addr := by
  rcases List.eq_nil_or_concat P with rfl | ⟨P, p, rfl⟩
  · exact List.mem_cons_self
  · rw [List.concat_eq_append, insertAt_concat, lastCell_concat]
    refine List.mem_cons_of_mem _ (List.mem_map.mpr ?_)
    -- `p` heads `join p _`
    cases hj : join p (join b Q) with
    | nil => exact absurd hj (join_ne_nil _ _)
    | cons x L =>
      have hx := headAddr_join p (join b Q) 0
      rw [hj] at hx
      exact ⟨x, List.mem_append_right _ List.mem_cons_self, hx⟩

/-- A block apart from `b` and from the free list is apart from the free list once `b` is
inserted. -/
theorem apart_insertAt {d b : Block} {P Q : List Block} (hd : 0 < d.units) (hdb : d.Apart b)
    (hdPQ : ∀ c ∈ P ++ Q, d.Apart c) : ∀ c ∈ insertAt P b Q, d.Apart c := by
  have hQ : ∀ c ∈ Q, d.Apart c := fun c hc => hdPQ c (List.mem_append_right _ hc)
  rcases List.eq_nil_or_concat P with rfl | ⟨P, p, rfl⟩
  · exact apart_join hd hdb hQ
  · rw [List.concat_eq_append, insertAt_concat]
    intro c hc
    rcases List.mem_append.mp hc with hc | hc
    · exact hdPQ c (by simp [hc])
    · exact apart_join hd (hdPQ p (by simp)) (apart_join hd hdb hQ) c hc

end Xv6Lab.Umalloc
