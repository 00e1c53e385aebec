import Xv6Lab.Dalloc.Code

/-!
# The block list, and what the allocator's code does to it

The abstract view of the heap is its list of blocks, in list order: where each header is,
the size of its data area and whether it is used. `Holds s bs` says that the memory of `s`
represents `bs`: the list from `dmem.start` is null-terminated and visits exactly the
headers of `bs`, and they read as `bs`.

Over that view the three operations are list functions: `allocList` (first fit, then the
split of `splitBlock`), `coalesceList` (the merge loop) and `freeList` (mark, then
coalesce). The refinement lemmas say that the pointer-chasing code of `Code.lean` computes
exactly these on any heap that holds a list shorter than the fuel:

* `dalloc_holds` — `dalloc` returns the pointer of `allocList` and leaves a heap holding
  its list, provided the header a split writes lands on no header of the list;
* `coalesceBlocks_holds` — `coalesce_blocks` leaves a heap holding `coalesceList`;
* `dfree_holds` — `dfree` panics exactly as the address test and the list say, and
  otherwise leaves a heap holding `freeList`.
-/

namespace Xv6Lab.Dalloc

open ListSeg

/-- A block of the heap: where its header is, the size of its data area, and whether the
area is handed out. -/
structure Block where
  addr : ℕ
  dataSize : UInt32
  used : Bool
  deriving DecidableEq, Repr

/-- The block whose header, at `a`, reads `h`. -/
def Block.ofHeader (a : ℕ) (h : DHeader) : Block := ⟨a, h.dataSize, h.used⟩

/-- The blocks whose headers are at `as`, read from `mem`. -/
def view (mem : ℕ → DHeader) (as : List ℕ) : List Block :=
  as.map fun a => Block.ofHeader a (mem a)

/-- The heap `s` holds the block list `bs`. -/
structure Holds (s : DMem) (bs : List Block) : Prop where
  seg : Seg DHeader.next 0 s.mem s.start (bs.map Block.addr)
  view_eq : view s.mem (bs.map Block.addr) = bs

/-! ### The operations on the block list -/

/-- The search test of `dalloc` on a block. -/
def Block.fits (requiredSize : UInt32) (b : Block) : Bool :=
  !b.used && decide (b.dataSize ≥ requiredSize)

/-- What `dalloc` makes of the block it stops at: the block marked used, or, when it is
larger than `required_size`, its head marked used and the rest split off as a free block. -/
def splitBlock (size requiredSize : UInt32) (b : Block) : List Block :=
  if b.dataSize > requiredSize then
    [⟨b.addr, align size, true⟩, ⟨b.addr + requiredSize.toNat, b.dataSize - requiredSize, false⟩]
  else [{ b with used := true }]

/-- First fit on the block list: the new list, and the pointer handed out (`0` for none). -/
def allocList (size requiredSize : UInt32) : List Block → List Block × ℕ
  | [] => ([], 0)
  | b :: bs =>
    if b.fits requiredSize then (splitBlock size requiredSize b ++ bs, b.addr + headerSize)
    else
      let r := allocList size requiredSize bs
      (b :: r.1, r.2)

/-- A free block with its free successor merged in. -/
def merge (b c : Block) : Block :=
  { b with dataSize := b.dataSize + (c.dataSize + headerSize.toUInt32) }

/-- The loop of `coalesce_blocks` standing at the block `b`, with `bs` after it. -/
def coalesceFrom : Block → List Block → List Block
  | b, [] => [b]
  | b, c :: bs =>
    if !b.used && !c.used then coalesceFrom (merge b c) bs else b :: coalesceFrom c bs

def coalesceList : List Block → List Block
  | [] => []
  | b :: bs => coalesceFrom b bs

/-- The first block with its header at `hdr`, marked free. -/
def markFree (hdr : ℕ) : List Block → List Block
  | [] => []
  | b :: bs => if b.addr = hdr then { b with used := false } :: bs else b :: markFree hdr bs

/-- `dfree` on the block list, for a header it finds. -/
def freeList (hdr : ℕ) (bs : List Block) : List Block := coalesceList (markFree hdr bs)

/-! ### Small lemmas -/

@[simp] theorem setDataSize_self (mem : ℕ → DHeader) (a : ℕ) (v : UInt32) :
    setDataSize mem a v a = { mem a with dataSize := v } := Function.update_self ..

@[simp] theorem setUsed_self (mem : ℕ → DHeader) (a : ℕ) (v : Bool) :
    setUsed mem a v a = { mem a with used := v } := Function.update_self ..

@[simp] theorem setNext_self (mem : ℕ → DHeader) (a : ℕ) (v : ℕ) :
    setNext mem a v a = { mem a with next := v } := Function.update_self ..

theorem setDataSize_of_ne {mem : ℕ → DHeader} {a x : ℕ} (h : x ≠ a) (v : UInt32) :
    setDataSize mem a v x = mem x := Function.update_of_ne h ..

theorem setUsed_of_ne {mem : ℕ → DHeader} {a x : ℕ} (h : x ≠ a) (v : Bool) :
    setUsed mem a v x = mem x := Function.update_of_ne h ..

theorem setNext_of_ne {mem : ℕ → DHeader} {a x : ℕ} (h : x ≠ a) (v : ℕ) :
    setNext mem a v x = mem x := Function.update_of_ne h ..

@[simp] theorem ofHeader_addr (a : ℕ) (h : DHeader) : (Block.ofHeader a h).addr = a := rfl

@[simp] theorem merge_addr (b c : Block) : (merge b c).addr = b.addr := rfl

@[simp] theorem view_addr (mem : ℕ → DHeader) (as : List ℕ) :
    (view mem as).map Block.addr = as := by
  simp [view, Function.comp_def]

/-- Reading the headers back only looks at the headers listed. -/
theorem view_congr {mem mem' : ℕ → DHeader} {as : List ℕ} (h : ∀ x ∈ as, mem' x = mem x) :
    view mem' as = view mem as :=
  List.map_congr_left fun x hx => by rw [h x hx]

theorem view_update_of_not_mem {mem : ℕ → DHeader} {as : List ℕ} {a : ℕ} (ha : a ∉ as)
    (v : DHeader) : view (Function.update mem a v) as = view mem as :=
  view_congr fun x hx => Function.update_of_ne (fun (e : x = a) => ha (e ▸ hx)) ..

theorem Holds.nodup {s : DMem} {bs : List Block} (h : Holds s bs) : (bs.map Block.addr).Nodup :=
  h.seg.nodup

/-- The block list depends on the headers of its blocks only: a memory that agrees there
holds it too. -/
theorem Holds.frame {s : DMem} {bs : List Block} (h : Holds s bs) {mem' : ℕ → DHeader}
    (hagree : ∀ x ∈ bs.map Block.addr, mem' x = s.mem x) : Holds ⟨s.start, mem'⟩ bs :=
  ⟨h.seg.frame fun x hx => congrArg DHeader.next (hagree x hx),
    (view_congr hagree).trans h.view_eq⟩

theorem ofHeader_eq_of_view_eq {mem : ℕ → DHeader} {bs : List Block}
    (h : view mem (bs.map Block.addr) = bs) {b : Block} (hb : b ∈ bs) :
    Block.ofHeader b.addr (mem b.addr) = b := by
  induction bs with
  | nil => simp at hb
  | cons c cs ih =>
    simp only [view, List.map_cons, List.cons.injEq] at h
    rcases List.mem_cons.mp hb with rfl | hb
    · exact h.1
    · exact ih h.2 hb

/-- The header at a block's address reads as the block. -/
theorem Holds.ofHeader_eq {s : DMem} {bs : List Block} (h : Holds s bs) {b : Block}
    (hb : b ∈ bs) : Block.ofHeader b.addr (s.mem b.addr) = b :=
  ofHeader_eq_of_view_eq h.view_eq hb

theorem Holds.dataSize_eq {s : DMem} {bs : List Block} (h : Holds s bs) {b : Block}
    (hb : b ∈ bs) : (s.mem b.addr).dataSize = b.dataSize :=
  congrArg Block.dataSize (h.ofHeader_eq hb)

/-- On a held list shorter than the fuel, a search loop of the code finds the first block
that passes the test. -/
theorem Holds.firstCell_eq {s : DMem} {bs : List Block} (h : Holds s bs)
    (hfuel : bs.length < walkFuel) (p : ℕ → DHeader → Bool) :
    firstCell DHeader.next 0 p walkFuel s.mem s.start =
      some ((bs.find? fun b => p b.addr (s.mem b.addr)).map Block.addr) := by
  rw [h.seg.firstCell_eq p (by simpa using hfuel), List.find?_map]
  rfl

/-! ### `dalloc` refines `allocList` -/

theorem view_append (mem : ℕ → DHeader) (as bs : List ℕ) :
    view mem (as ++ bs) = view mem as ++ view mem bs := List.map_append

theorem view_cons (mem : ℕ → DHeader) (a : ℕ) (as : List ℕ) :
    view mem (a :: as) = Block.ofHeader a (mem a) :: view mem as := rfl

/-- A held list read back in three parts around one of its blocks. -/
theorem view_eq_split {mem : ℕ → DHeader} {pre post : List Block} {b : Block}
    (h : view mem ((pre ++ b :: post).map Block.addr) = pre ++ b :: post) :
    view mem (pre.map Block.addr) = pre ∧ view mem (post.map Block.addr) = post := by
  rw [List.map_append, view_append, List.map_cons, view_cons] at h
  have hlen : (view mem (pre.map Block.addr)).length = pre.length := by simp [view]
  obtain ⟨hpre, hrest⟩ := List.append_inj h hlen
  exact ⟨hpre, (List.cons.inj hrest).2⟩

/-- With a split, `allocAt` writes two whole headers: the free tail at
`curr + required_size`, which takes over the old link, and the head, now used, linked
to it. -/
theorem allocAt_of_lt {mem : ℕ → DHeader} {curr : ℕ} {size req : UInt32}
    (hlt : req < (mem curr).dataSize) (hne : curr + req.toNat ≠ curr) :
    allocAt mem curr size req =
      Function.update
        (Function.update mem (curr + req.toNat) ⟨(mem curr).dataSize - req, false, (mem curr).next⟩)
        curr ⟨align size, true, curr + req.toNat⟩ := by
  have hz : req.toNat ≠ 0 := fun hz => hne (by rw [hz, Nat.add_zero])
  funext x
  simp only [allocAt, gt_iff_lt, hlt, if_true, setUsed, setNext, setDataSize,
    Function.update_apply]
  by_cases hx : x = curr
  · subst hx
    simp
  · by_cases hx' : x = curr + req.toNat
    · subst hx'
      simp [hz]
    · simp [hx, hx']

theorem allocAt_of_le {mem : ℕ → DHeader} {curr : ℕ} {size req : UInt32}
    (hle : ¬ req < (mem curr).dataSize) : allocAt mem curr size req = setUsed mem curr true := by
  simp only [allocAt, gt_iff_lt, hle, if_false]

/-- The header a split would write, for each block that fits, is not a header of the list
(nor null): the condition under which `dalloc` computes `allocList`. -/
def SplitFresh (requiredSize : UInt32) (bs : List Block) : Prop :=
  ∀ b ∈ bs, b.fits requiredSize → requiredSize < b.dataSize →
    b.addr + requiredSize.toNat ∉ bs.map Block.addr ∧ b.addr + requiredSize.toNat ≠ 0

/-- The body of `dalloc` at the block it stops at computes `splitBlock` there. -/
theorem Holds.split {s : DMem} {pre post : List Block} {b : Block}
    (h : Holds s (pre ++ b :: post)) (size req : UInt32)
    (hfresh : req < b.dataSize →
      b.addr + req.toNat ∉ (pre ++ b :: post).map Block.addr ∧ b.addr + req.toNat ≠ 0) :
    Holds { s with mem := allocAt s.mem b.addr size req } (pre ++ splitBlock size req b ++ post) := by
  have hb : b ∈ pre ++ b :: post := by simp
  have hnd := h.nodup
  obtain ⟨hpre, hpost⟩ := view_eq_split h.view_eq
  simp only [List.map_append, List.map_cons] at hnd
  have hbpre : b.addr ∉ pre.map Block.addr := fun hm =>
    (List.nodup_append.mp hnd).2.2 _ hm _ List.mem_cons_self rfl
  have hbpost : b.addr ∉ post.map Block.addr := (List.nodup_cons.mp (List.nodup_append.mp hnd).2.1).1
  have hseg := h.seg
  simp only [List.map_append, List.map_cons] at hseg
  by_cases hlt : req < b.dataSize
  · -- the split: a new free header after `b`
    obtain ⟨hnb, hnb0⟩ := hfresh hlt
    have hds : (s.mem b.addr).dataSize = b.dataSize := h.dataSize_eq hb
    have hne : b.addr + req.toNat ≠ b.addr := fun he => hnb (by simp [he])
    have hz : req.toNat ≠ 0 := fun hz => hne (by rw [hz, Nat.add_zero])
    simp only [List.map_append, List.map_cons, List.mem_append, List.mem_cons, not_or] at hnb
    have hspl : splitBlock size req b =
        [⟨b.addr, align size, true⟩, ⟨b.addr + req.toNat, b.dataSize - req, false⟩] := by
      simp [splitBlock, hlt]
    rw [hspl]
    constructor
    · show Seg DHeader.next 0 (allocAt s.mem b.addr size req) s.start _
      rw [allocAt_of_lt (by rw [hds]; exact hlt) hne]
      simpa using hseg.insertAfter (y := b.addr + req.toNat) (by simp [hnb.1, hz, hnb.2.2]) hnb0
        ⟨(s.mem b.addr).dataSize - req, false, (s.mem b.addr).next⟩
        ⟨align size, true, b.addr + req.toNat⟩ rfl rfl
    · show view (allocAt s.mem b.addr size req) _ = _
      rw [allocAt_of_lt (by rw [hds]; exact hlt) hne]
      simp only [List.map_append, List.map_cons, List.append_assoc,
        List.cons_append, List.nil_append, view_append, view_cons]
      rw [view_update_of_not_mem hbpre, view_update_of_not_mem hnb.1,
        view_update_of_not_mem hbpost, view_update_of_not_mem hnb.2.2, hpre, hpost]
      simp [Block.ofHeader, hds, hz]
  · -- no split: the block is only marked used
    have hspl : splitBlock size req b = [{ b with used := true }] := by simp [splitBlock, hlt]
    have hds : ¬ req < (s.mem b.addr).dataSize := by rw [h.dataSize_eq hb]; exact hlt
    rw [hspl]
    constructor
    · show Seg DHeader.next 0 (allocAt s.mem b.addr size req) s.start _
      rw [allocAt_of_le hds]
      have hseg' := hseg.update_same_next (x := b.addr) (v := { s.mem b.addr with used := true }) rfl
      simpa [setUsed] using hseg'
    · show view (allocAt s.mem b.addr size req) _ = _
      rw [allocAt_of_le hds]
      simp only [List.map_append, List.map_cons, List.append_assoc,
        List.singleton_append, view_append, view_cons, setUsed]
      rw [view_update_of_not_mem hbpre, view_update_of_not_mem hbpost, hpre, hpost]
      simp [Block.ofHeader, h.dataSize_eq hb]

/-- `allocList` at the first block that fits. -/
theorem allocList_of_find (size : UInt32) {req : UInt32} {bs : List Block} {b : Block}
    (h : bs.find? (Block.fits req) = some b) :
    ∃ pre post, bs = pre ++ b :: post ∧
      allocList size req bs = (pre ++ splitBlock size req b ++ post, b.addr + headerSize) := by
  induction bs with
  | nil => simp at h
  | cons c cs ih =>
    by_cases hc : c.fits req = true
    · simp only [List.find?_cons, hc, Option.some.injEq] at h
      subst h
      exact ⟨[], c :: cs |>.tail, rfl, by simp [allocList, hc]⟩
    · simp only [List.find?_cons, hc] at h
      obtain ⟨pre, post, rfl, he⟩ := ih h
      exact ⟨c :: pre, post, rfl, by simp [allocList, hc, he]⟩

theorem allocList_of_find_none {size req : UInt32} {bs : List Block}
    (h : bs.find? (Block.fits req) = none) : allocList size req bs = (bs, 0) := by
  induction bs with
  | nil => rfl
  | cons c cs ih =>
    have hc : c.fits req = false := by simpa using List.find?_eq_none.mp h c List.mem_cons_self
    simp only [List.find?_cons, hc] at h
    simp [allocList, hc, ih h]

/-- A search over the headers of a held list tests the blocks themselves. -/
theorem Holds.find?_eq {s : DMem} {bs : List Block} (h : Holds s bs) (p : ℕ → DHeader → Bool)
    (q : Block → Bool) (hpq : ∀ a hd, p a hd = q (Block.ofHeader a hd)) :
    (bs.find? fun b => p b.addr (s.mem b.addr)) = bs.find? q := by
  have hagree : ∀ b ∈ bs, p b.addr (s.mem b.addr) = q b := fun b hb => by
    rw [hpq, h.ofHeader_eq hb]
  clear h
  induction bs with
  | nil => rfl
  | cons c cs ih =>
    simp only [List.find?_cons, hagree c List.mem_cons_self,
      ih fun b hb => hagree b (List.mem_cons_of_mem _ hb)]

/-- **`dalloc` refines `allocList`.** On a heap holding a list shorter than the fuel, where
no split would write over a header, `dalloc` returns the pointer `allocList` hands out and
leaves a heap holding its list. -/
theorem dalloc_holds {s : DMem} {bs : List Block} (h : Holds s bs)
    (hfuel : bs.length < walkFuel) (size : UInt32)
    (hfresh : SplitFresh (align (size + headerSize.toUInt32)) bs) :
    ∃ s', dalloc s size = some (s', (allocList size (align (size + headerSize.toUInt32)) bs).2) ∧
      Holds s' (allocList size (align (size + headerSize.toUInt32)) bs).1 ∧ s'.start = s.start := by
  set req := align (size + headerSize.toUInt32) with hreq
  dsimp only [dalloc]
  rw [← hreq, h.firstCell_eq hfuel, h.find?_eq (fits req) (Block.fits req) fun _ _ => rfl]
  cases hb : bs.find? (Block.fits req) with
  | none =>
    rw [allocList_of_find_none hb]
    exact ⟨s, rfl, h, rfl⟩
  | some b =>
    obtain ⟨pre, post, rfl, he⟩ := allocList_of_find size hb
    have hbmem : b ∈ pre ++ b :: post := by simp
    have hfit : b.fits req = true := (List.find?_eq_some_iff_append.mp hb).1
    rw [he]
    refine ⟨_, rfl, ?_, rfl⟩
    exact h.split size req fun hlt => hfresh b hbmem hfit hlt

/-! ### `coalesce_blocks` refines `coalesceList` -/

/-- The loop never moves the block it starts from: the result begins at `b.addr`, with
the flag of `b`. -/
theorem coalesceFrom_head (b : Block) (bs : List Block) :
    ∃ b' rest, coalesceFrom b bs = b' :: rest ∧ b'.addr = b.addr ∧ b'.used = b.used := by
  induction bs generalizing b with
  | nil => exact ⟨b, [], rfl, rfl, rfl⟩
  | cons c cs ih =>
    by_cases hfree : !b.used && !c.used
    · obtain ⟨b', rest, he, ha, hu⟩ := ih (merge b c)
      exact ⟨b', rest, by simp [coalesceFrom, hfree, he], ha, hu⟩
    · exact ⟨b, coalesceFrom c cs, by simp [coalesceFrom, hfree], rfl, rfl⟩

/-- The loop of `coalesce_blocks`, standing at a block `b` of a held list, computes
`coalesceFrom` there, and writes no header outside the blocks it walks. -/
theorem coalesceLoop_holds {fuel : ℕ} {mem : ℕ → DHeader} {b : Block} {bs : List Block}
    (hseg : Seg DHeader.next 0 mem b.addr ((b :: bs).map Block.addr))
    (hview : view mem ((b :: bs).map Block.addr) = b :: bs) (hfuel : bs.length < fuel) :
    ∃ mem', coalesceLoop fuel mem b.addr = some mem' ∧
      Seg DHeader.next 0 mem' b.addr ((coalesceFrom b bs).map Block.addr) ∧
      view mem' ((coalesceFrom b bs).map Block.addr) = coalesceFrom b bs ∧
      ∀ x ∉ (b :: bs).map Block.addr, mem' x = mem x := by
  -- one iteration per block after `b`: a merge shortens the list, a step moves along it
  induction bs generalizing b mem fuel with
  | nil =>
    obtain ⟨-, -, hnext⟩ := path_cons_iff.mp hseg
    have hnext0 : (mem b.addr).next = 0 := by simpa using hnext
    obtain ⟨fuel, rfl⟩ : ∃ f, fuel = f + 1 := ⟨fuel - 1, by simp at hfuel; omega⟩
    refine ⟨mem, ?_, hseg, hview, fun _ _ => rfl⟩
    simp [coalesceLoop, hnext0]
  | cons c cs ih =>
    obtain ⟨-, hb0, hrest⟩ := path_cons_iff.mp hseg
    obtain ⟨hc, hc0, -⟩ := path_cons_iff.mp hrest
    have hnd := Seg.nodup hseg
    simp only [List.map_cons, List.nodup_cons, List.mem_cons, not_or] at hnd
    have hbc : c.addr ≠ b.addr := fun he => hnd.1.1 he.symm
    simp only [List.map_cons, view_cons, List.cons.injEq] at hview
    obtain ⟨hvb, hvc, hvcs⟩ := hview
    have hbused : (mem b.addr).used = b.used := congrArg Block.used hvb
    have hbds : (mem b.addr).dataSize = b.dataSize := congrArg Block.dataSize hvb
    have hcused : (mem c.addr).used = c.used := congrArg Block.used hvc
    have hcds : (mem c.addr).dataSize = c.dataSize := congrArg Block.dataSize hvc
    obtain ⟨fuel, rfl⟩ : ∃ f, fuel = f + 1 := ⟨fuel - 1, by simp at hfuel; omega⟩
    have hfuel' : cs.length < fuel := by simp at hfuel; omega
    have hcond : b.addr ≠ 0 ∧ (mem b.addr).next ≠ 0 := ⟨hb0, hc0⟩
    by_cases hfree : !b.used && !c.used
    · -- both free: `b` swallows `c`, and the loop stays at `b`
      let vb : DHeader :=
        { mem b.addr with dataSize := b.dataSize + (c.dataSize + headerSize.toUInt32),
                          next := (mem c.addr).next }
      have hstep : coalesceLoop (fuel + 1) mem b.addr =
          coalesceLoop fuel (Function.update mem b.addr vb) b.addr := by
        simp only [coalesceLoop, hcond, ne_eq, not_false_eq_true, and_self, if_true]
        rw [hc, hbused, hcused, if_pos hfree]
        congr 1
        funext x
        by_cases hx : x = b.addr
        · subst hx
          simp [vb, setNext, setDataSize, hc, Function.update_of_ne hbc, hbds, hcds]
        · simp [setNext, setDataSize, Function.update_of_ne hx]
      have hseg2 : Seg DHeader.next 0 (Function.update mem b.addr vb) b.addr
          (((merge b c) :: cs).map Block.addr) := by
        have hseg' : Seg DHeader.next 0 mem b.addr ([] ++ b.addr :: c.addr :: cs.map Block.addr) := by
          simpa using hseg
        simpa [merge] using Seg.removeAfter hseg' vb rfl
      have hview2 : view (Function.update mem b.addr vb) (((merge b c) :: cs).map Block.addr) =
          merge b c :: cs := by
        simp only [List.map_cons, view_cons]
        rw [show (merge b c).addr = b.addr from rfl, view_update_of_not_mem hnd.1.2, hvcs]
        simp [Block.ofHeader, merge, vb, hbused]
      obtain ⟨mem', hrun, hseg', hview', hframe⟩ := ih (b := merge b c) hseg2 hview2 hfuel'
      refine ⟨mem', by rw [hstep]; exact hrun, ?_, ?_, ?_⟩
      · simpa [coalesceFrom, hfree] using hseg'
      · simpa [coalesceFrom, hfree] using hview'
      · intro x hx
        simp only [List.map_cons, List.mem_cons, not_or] at hx
        have hx' : x ∉ (merge b c :: cs).map Block.addr := by
          simp only [List.map_cons, List.mem_cons, not_or]
          exact ⟨hx.1, hx.2.2⟩
        rw [hframe x hx', Function.update_of_ne hx.1]
    · -- otherwise the loop steps on to `c`
      have hstep : coalesceLoop (fuel + 1) mem b.addr = coalesceLoop fuel mem c.addr := by
        simp only [coalesceLoop, hcond, ne_eq, not_false_eq_true, and_self, if_true]
        rw [hc, hbused, hcused, if_neg hfree]
      have hsegc : Seg DHeader.next 0 mem c.addr ((c :: cs).map Block.addr) := by
        unfold Seg
        simpa [hc] using hrest
      have hviewc : view mem ((c :: cs).map Block.addr) = c :: cs := by
        simp only [List.map_cons, view_cons, hvc, hvcs]
      obtain ⟨mem', hrun, hseg', hview', hframe⟩ := ih hsegc hviewc hfuel'
      have hbkeep : mem' b.addr = mem b.addr :=
        hframe b.addr (by
          simp only [List.map_cons, List.mem_cons, not_or]
          exact ⟨fun h => hnd.1.1 h, hnd.1.2⟩)
      have hres : coalesceFrom b (c :: cs) = b :: coalesceFrom c cs := by
        simp [coalesceFrom, hfree]
      refine ⟨mem', by rw [hstep]; exact hrun, ?_, ?_, ?_⟩
      · -- `b` is untouched and still links to `c`, where the rest of the result starts
        rw [hres, List.map_cons]
        exact .cons hb0 (by rw [hbkeep, hc]; exact hseg')
      · rw [hres, List.map_cons, view_cons, hbkeep, hvb, hview']
      · intro x hx
        simp only [List.map_cons, List.mem_cons, not_or] at hx
        exact hframe x (by simpa using hx.2)

/-- The loop of `coalesce_blocks` from the start of a held list computes `coalesceList`
within as many iterations as there are blocks, and at least one. -/
theorem coalesceLoop_start {s : DMem} {bs : List Block} (h : Holds s bs) {fuel : ℕ}
    (hpos : 0 < fuel) (hfuel : bs.length ≤ fuel) :
    ∃ mem', coalesceLoop fuel s.mem s.start = some mem' ∧
      Holds { s with mem := mem' } (coalesceList bs) := by
  cases bs with
  | nil =>
    have hstart : s.start = 0 := by simpa [Seg] using h.seg
    obtain ⟨fuel, rfl⟩ : ∃ f, fuel = f + 1 := ⟨fuel - 1, by omega⟩
    refine ⟨s.mem, ?_, h⟩
    rw [hstart]
    simp [coalesceLoop]
  | cons b bs =>
    have hstart : s.start = b.addr := (path_cons_iff.mp h.seg).1
    have hlt : bs.length < fuel := by
      simp only [List.length_cons] at hfuel
      omega
    obtain ⟨mem', hrun, hseg', hview', -⟩ := coalesceLoop_holds (hstart ▸ h.seg) h.view_eq hlt
    exact ⟨mem', by rw [hstart]; exact hrun, ⟨hstart ▸ hseg', hview'⟩⟩

/-- **`coalesce_blocks` refines `coalesceList`.** -/
theorem coalesceBlocks_holds {s : DMem} {bs : List Block} (h : Holds s bs)
    (hfuel : bs.length ≤ walkFuel) :
    ∃ s', coalesceBlocks s = some s' ∧ Holds s' (coalesceList bs) ∧ s'.start = s.start := by
  obtain ⟨mem', hrun, hholds⟩ := coalesceLoop_start h (by simp [walkFuel]) hfuel
  exact ⟨{ s with mem := mem' }, by simp [coalesceBlocks, hrun], hholds, rfl⟩

/-! ### `dfree` refines `freeList` -/

/-- `markFree` on a list of distinct headers frees the one block at `hdr`. -/
theorem markFree_eq_map {hdr : ℕ} {bs : List Block} (hnd : (bs.map Block.addr).Nodup) :
    markFree hdr bs = bs.map fun b => if b.addr = hdr then { b with used := false } else b := by
  induction bs with
  | nil => rfl
  | cons b bs ih =>
    rw [List.map_cons, List.nodup_cons] at hnd
    by_cases hb : b.addr = hdr
    · -- the only block at `hdr`: the rest is left as it is
      have hrest : ∀ c ∈ bs, c.addr ≠ hdr := fun c hc he =>
        hnd.1 (by rw [hb, ← he]; exact List.mem_map_of_mem hc)
      simp only [markFree, hb, if_true, List.map_cons]
      congr 1
      exact ((List.map_congr_left fun c hc => if_neg (hrest c hc)).trans (List.map_id bs)).symm
    · simp [markFree, hb, ih hnd.2]

@[simp] theorem markFree_addr (hdr : ℕ) (bs : List Block) :
    (markFree hdr bs).map Block.addr = bs.map Block.addr := by
  induction bs with
  | nil => rfl
  | cons b bs ih => by_cases hb : b.addr = hdr <;> simp [markFree, hb, ih]

/-- `curr->used = 0` on a held list frees the block there. -/
theorem Holds.setUsed_false {s : DMem} {bs : List Block} (h : Holds s bs) (hdr : ℕ) :
    Holds { s with mem := setUsed s.mem hdr false } (markFree hdr bs) := by
  constructor
  · rw [markFree_addr]
    exact h.seg.update_same_next rfl
  · rw [markFree_addr, markFree_eq_map h.nodup]
    conv_rhs => rw [← h.view_eq]
    simp only [view, List.map_map]
    refine List.map_congr_left fun b _ => ?_
    by_cases hb : b.addr = hdr
    · simp [Block.ofHeader, setUsed, hb]
    · simp [Block.ofHeader, setUsed, hb]

/-- `dfree` of a pointer whose header is not 16-aligned panics, whatever the heap. -/
theorem dfree_misaligned (s : DMem) {addr : ℕ}
    (hal : (addr + 2 ^ 64 - headerSize) % 2 ^ 64 % alignmentSize ≠ 0) :
    dfree s addr = some (.error "dfree: Address is not properly aligned.") := by
  dsimp only [dfree]
  rw [if_pos hal]

/-- The search of `dfree` for the header `hdr`. -/
theorem Holds.firstCell_hdr {s : DMem} {bs : List Block} (h : Holds s bs)
    (hfuel : bs.length < walkFuel) (hdr : ℕ) :
    firstCell DHeader.next 0 (fun curr _ => decide (curr = hdr)) walkFuel s.mem s.start =
      some (if hdr ∈ bs.map Block.addr then some hdr else none) := by
  rw [h.firstCell_eq hfuel]
  congr 1
  split
  · rename_i hmem
    obtain ⟨b, hb, rfl⟩ := List.mem_map.mp hmem
    obtain ⟨c, hc⟩ := Option.isSome_iff_exists.mp
      (List.find?_isSome.mpr ⟨b, hb, by simp⟩ : (bs.find? fun c => decide (c.addr = b.addr)).isSome)
    rw [hc]
    simpa using (List.find?_some hc)
  · rename_i hmem
    rw [List.find?_eq_none.mpr fun c hc he => hmem (by simpa using ⟨c, hc, by simpa using he⟩)]
    rfl

/-- `dfree` of a pointer whose aligned header is not on the list panics. -/
theorem dfree_invalid {s : DMem} {bs : List Block} (h : Holds s bs)
    (hfuel : bs.length < walkFuel) {addr : ℕ}
    (hal : (addr + 2 ^ 64 - headerSize) % 2 ^ 64 % alignmentSize = 0)
    (hnot : (addr + 2 ^ 64 - headerSize) % 2 ^ 64 ∉ bs.map Block.addr) :
    dfree s addr = some (.error "dfree: Invalid address.") := by
  dsimp only [dfree]
  rw [if_neg (not_not.mpr hal), h.firstCell_hdr hfuel, if_neg hnot]

/-- `dfree` returns a heap only for a pointer whose header is on the list. -/
theorem Holds.mem_of_dfree_ok {s : DMem} {bs : List Block} (h : Holds s bs)
    (hfuel : bs.length < walkFuel) {addr : ℕ} {s' : DMem} (hrun : dfree s addr = some (.ok s')) :
    (addr + 2 ^ 64 - headerSize) % 2 ^ 64 ∈ bs.map Block.addr := by
  by_contra hnot
  by_cases hal : (addr + 2 ^ 64 - headerSize) % 2 ^ 64 % alignmentSize = 0
  · rw [dfree_invalid h hfuel hal hnot] at hrun
    cases hrun
  · rw [dfree_misaligned s hal] at hrun
    cases hrun

/-- **`dfree` refines `freeList`.** A pointer whose header is on the list is freed: the
heap afterwards holds the list with that block marked free and coalesced. -/
theorem dfree_holds {s : DMem} {bs : List Block} (h : Holds s bs)
    (hfuel : bs.length < walkFuel) {addr : ℕ}
    (hal : (addr + 2 ^ 64 - headerSize) % 2 ^ 64 % alignmentSize = 0)
    (hmem : (addr + 2 ^ 64 - headerSize) % 2 ^ 64 ∈ bs.map Block.addr) :
    ∃ s', dfree s addr = some (.ok s') ∧
      Holds s' (freeList ((addr + 2 ^ 64 - headerSize) % 2 ^ 64) bs) ∧ s'.start = s.start := by
  set hdr := (addr + 2 ^ 64 - headerSize) % 2 ^ 64 with hhdr
  have hfree := h.setUsed_false hdr
  have hlen : (markFree hdr bs).length = bs.length := by
    have := congrArg List.length (markFree_addr hdr bs)
    rwa [List.length_map, List.length_map] at this
  obtain ⟨s', hrun, hs', hstart⟩ := coalesceBlocks_holds hfree (by omega)
  refine ⟨s', ?_, hs', hstart⟩
  dsimp only [dfree]
  rw [← hhdr, if_neg (not_not.mpr hal), h.firstCell_hdr hfuel, if_pos hmem]
  simp [hrun]

end Xv6Lab.Dalloc
