import Xv6Lab.Umalloc.Ring
import Mathlib.Data.List.Pairwise

/-!
# The invariant of `malloc` and `free`

`UInv base s live fs` is what holds between the calls of a run: the free list is the sorted
ring `fs` (`Ring`, `Shape`), `freep` is one of its cells, and each allocation `(r, n)` still
live (`r` returned by `malloc(n)` and not freed since) keeps the header `malloc` gave it, of
`nunitsFor n` units, apart from every free block and from every other live allocation.

* `UInv.free` — `free(r)` of a live allocation returns and keeps the invariant;
* `UInv.morecore` — `morecore` with `sbrk` succeeding frees a new block at the old break;
* `UInv.takeAt` — `malloc`'s loop taking a large enough free block keeps the invariant;
* `UInv.loop_upper`, `UInv.loop_lower`, `UInv.loop_more` — where the loop goes: to the
  first large enough block after `freep`, or round the whole ring to `morecore`.
-/

namespace Xv6Lab.Umalloc

open ListSeg

/-- The block of a live allocation `(r, n)`: the header below the pointer `r` that `malloc`
returned, of the `nunitsFor n` units it was cut to. -/
def liveBlock (a : ℕ × UInt32) : Block := ⟨a.1 - hdrSize, (nunitsFor a.2).toNat⟩

/-- The requests the invariant is about: below this `nbytes + sizeof(Header) - 1` does not
wrap, and `nunits * sizeof(Header)` fits `sbrk`'s `int`. -/
def maxRequest : ℕ := 2 ^ 31 - 32

theorem nunitsFor_toNat {n : UInt32} (hn : n.toNat < maxRequest) :
    (nunitsFor n).toNat = (n.toNat + 15) / 16 + 1 := by
  simp only [nunitsFor, hdrSize_eq, UInt32.toNat_ofNat']
  exact Nat.mod_eq_of_lt (by simp only [maxRequest] at hn; omega)

/-- The live allocations once `malloc(n)` has returned `r`. -/
def afterMalloc (live : List (ℕ × UInt32)) (r : ℕ) (n : UInt32) : List (ℕ × UInt32) :=
  if r = 0 then live else (r, n) :: live

/-- The invariant between the calls of a run, over the free list `fs` and the allocations
`live` handed out and not freed. -/
structure UInv (base : ℕ) (s : UMem) (live : List (ℕ × UInt32)) (fs : List Block) : Prop where
  ring : Ring base s.mem fs
  shape : Shape base s.sz fs
  freep : s.freep ∈ base :: fs.map Block.addr
  brk : base + hdrSize ≤ s.sz
  limit : s.sz ≤ sizeLimit
  request : ∀ a ∈ live, a.2.toNat < maxRequest
  header : ∀ a ∈ live, (s.mem (liveBlock a).addr).size = nunitsFor a.2
  lower : ∀ a ∈ live, base + hdrSize ≤ (liveBlock a).addr
  upper : ∀ a ∈ live, (liveBlock a).endAddr ≤ s.sz
  apart_free : ∀ a ∈ live, ∀ c ∈ fs, (liveBlock a).Apart c
  apart_live : (live.map liveBlock).Pairwise Block.Apart

namespace UInv

variable {base : ℕ} {s : UMem} {live : List (ℕ × UInt32)} {fs : List Block}

theorem live_pos (h : UInv base s live fs) {a : ℕ × UInt32} (ha : a ∈ live) :
    0 < (liveBlock a).units := by
  simp only [liveBlock, nunitsFor_toNat (h.request a ha)]
  omega

/-- A live allocation has room for the bytes it was asked for, after its header. -/
theorem room (h : UInv base s live fs) {a : ℕ × UInt32} (ha : a ∈ live) :
    a.2.toNat ≤ hdrSize * ((liveBlock a).units - 1) := by
  simp only [liveBlock, nunitsFor_toNat (h.request a ha), hdrSize_eq]
  omega

/-- The pointer `malloc` returned sits right after the header. -/
theorem ptr_eq (h : UInv base s live fs) {a : ℕ × UInt32} (ha : a ∈ live) :
    a.1 = (liveBlock a).addr + hdrSize := by
  have := h.lower a ha
  simp only [liveBlock, hdrSize_eq] at this ⊢
  omega

/-- Two entries of `live` are two allocations, apart from each other. -/
theorem live_apart (h : UInv base s live fs) {a a' : ℕ × UInt32} (ha : a ∈ live)
    (ha' : a' ∈ live) (hne : a ≠ a') : (liveBlock a).Apart (liveBlock a') :=
  haveI : Std.Symm fun a b : ℕ × UInt32 => (liveBlock a).Apart (liveBlock b) :=
    ⟨fun _ _ => Block.apart_comm.mp⟩
  (List.pairwise_map.mp h.apart_live).forall ha ha' hne

theorem live_nodup (h : UInv base s live fs) : live.Nodup :=
  (List.pairwise_map.mp h.apart_live).imp_of_mem fun {a _} ha _ hapart heq => by
    subst heq
    have := h.live_pos ha
    simp only [Block.Apart, Block.endAddr, hdrSize_eq] at hapart
    omega

/-- No live header is a cell of the ring. -/
theorem live_not_cell (h : UInv base s live fs) {a : ℕ × UInt32} (ha : a ∈ live) :
    (liveBlock a).addr ∉ base :: fs.map Block.addr := by
  intro hm
  rcases List.mem_cons.mp hm with hb | hm
  · have := h.lower a ha
    simp only [hdrSize_eq] at this
    omega
  · obtain ⟨c, hc, hca⟩ := List.mem_map.mp hm
    exact (h.apart_free a ha c hc).addr_ne (h.live_pos ha) (h.shape.pos c hc) hca.symm

theorem cell_ne_zero (h : UInv base s live fs) {x : ℕ} (hx : x ∈ base :: fs.map Block.addr) :
    x ≠ 0 :=
  fun hx0 => (h.ring.path.not_mem_null) (hx0 ▸ hx)

/-- `free(r)` of a live allocation: it returns, and the invariant holds of what is left
live, with the block put back into the free list. -/
theorem free (h : UInv base s live fs) {a : ℕ × UInt32} (ha : a ∈ live) :
    ∃ s' fs', Umalloc.free s a.1 = some s' ∧ UInv base s' (live.erase a) fs' := by
  set b := liveBlock a
  have hpos := h.live_pos ha
  have hb : (s.mem b.addr).size.toNat = b.units := by
    rw [h.header a ha]
    rfl
  obtain ⟨P, Q, rfl, -, -, hfree, hring, hshape⟩ := h.ring.free h.shape h.limit h.freep hb hpos
    (h.lower a ha) (h.upper a ha) (h.apart_free a ha)
  rw [← h.ptr_eq ha] at hfree
  refine ⟨_, insertAt P b Q, hfree, ?_⟩
  have hnd := h.live_nodup
  have hrest : ∀ a' ∈ live.erase a, a' ∈ live ∧ a' ≠ a := fun a' ha' =>
    ⟨List.mem_of_mem_erase ha', fun heq => (hnd.mem_erase_iff.mp ha').1 heq⟩
  -- the join writes the freed header and one cell, neither of them another live header
  have hframe : ∀ a' ∈ live.erase a,
      (freeJoin s b.addr (lastCell base P)).mem (liveBlock a').addr = s.mem (liveBlock a').addr := by
    intro a' ha'
    obtain ⟨ha'l, hne⟩ := hrest a' ha'
    refine freeJoin_mem_of_ne ((h.live_apart ha'l ha hne).addr_ne (h.live_pos ha'l) hpos) ?_
    intro hcell
    refine h.live_not_cell ha'l ?_
    have := lastCell_mem base P
    rw [hcell]
    simp only [List.map_append, List.mem_cons, List.mem_append] at this ⊢
    tauto
  refine ⟨hring, hshape, lastCell_mem_insertAt base P b Q, h.brk, h.limit,
    fun a' ha' => h.request a' (hrest a' ha').1, fun a' ha' => ?_,
    fun a' ha' => h.lower a' (hrest a' ha').1, fun a' ha' => h.upper a' (hrest a' ha').1,
    fun a' ha' => ?_, ?_⟩
  · rw [hframe a' ha']
    exact h.header a' (hrest a' ha').1
  · obtain ⟨ha'l, hne⟩ := hrest a' ha'
    exact apart_insertAt (h.live_pos ha'l) (h.live_apart ha'l ha hne) (h.apart_free a' ha'l)
  · exact h.apart_live.sublist (List.erase_sublist.map _)

end UInv

/-! ### Taking a block -/

/-- What `malloc`'s loop returns when it takes the block at `p`, with `prevp` before it: `p`
whole when its size is `nunits`, otherwise the last `nunits` units of it. -/
def takeAt (nunits : UInt32) (s : UMem) (prevp p : ℕ) : UMem × ℕ :=
  if (s.mem p).size = nunits then
    ({ s with mem := setPtr s.mem prevp (s.mem p).ptr, freep := prevp }, p + hdrSize)
  else
    let mem := setSize s.mem p ((s.mem p).size - nunits)
    let p := p + hdrSize * (mem p).size.toNat
    let mem := setSize mem p nunits
    ({ s with mem, freep := prevp }, p + hdrSize)

@[simp] theorem takeAt_sz (nunits : UInt32) (s : UMem) (prevp p : ℕ) :
    (takeAt nunits s prevp p).1.sz = s.sz := by
  unfold takeAt
  split_ifs <;> rfl

namespace UInv

variable {base : ℕ} {s : UMem} {live : List (ℕ × UInt32)} {P Q : List Block} {y : Block}
  {n : UInt32}

/-- A block that fits exactly is unlinked and handed out whole. -/
theorem take_exact (h : UInv base s live (P ++ y :: Q)) (hn : n.toNat < maxRequest)
    (hy : y.units = (nunitsFor n).toNat) :
    UInv base (takeAt (nunitsFor n) s (lastCell base P) y.addr).1
      (((takeAt (nunitsFor n) s (lastCell base P) y.addr).2, n) :: live) (P ++ Q) := by
  have hyfs : y ∈ P ++ y :: Q := List.mem_append_right _ List.mem_cons_self
  have hsize : (s.mem y.addr).size = nunitsFor n := by
    apply UInt32.toNat_inj.mp
    rw [h.ring.links.size y hyfs, hy]
  simp only [takeAt, if_pos hsize]
  obtain ⟨hsP, hsyQ, hcross⟩ := Shape.append_iff.mp h.shape
  obtain ⟨⟨-, hylo, hyhi, hyQ⟩, hsQ⟩ := Shape.cons_iff.mp hsyQ
  have hsub : ∀ c ∈ P ++ Q, c ∈ P ++ y :: Q := fun c hc => by
    rcases List.mem_append.mp hc with hc | hc
    exacts [List.mem_append_left _ hc, List.mem_append_right _ (List.mem_cons_of_mem _ hc)]
  -- the new allocation's block is `y` itself
  have hyblock : liveBlock (y.addr + hdrSize, n) = y := by
    cases y
    simp only [liveBlock, Nat.add_sub_cancel, Block.mk.injEq, true_and]
    exact hy.symm
  refine ⟨h.ring.unlink h.shape, Shape.append_iff.mpr ⟨hsP, hsQ, fun x hx c hc =>
    hcross x hx c (List.mem_cons_of_mem _ hc)⟩, ?_, h.brk, h.limit, ?_, ?_, ?_, ?_, ?_, ?_⟩
  · have := lastCell_mem base P
    simp only [List.map_append, List.mem_cons, List.mem_append] at this ⊢
    tauto
  · intro a ha
    rcases List.mem_cons.mp ha with rfl | ha
    exacts [hn, h.request a ha]
  · intro a ha
    rcases List.mem_cons.mp ha with rfl | ha
    · rw [hyblock]
      simpa using hsize
    · simpa using h.header a ha
  · intro a ha
    rcases List.mem_cons.mp ha with rfl | ha
    exacts [hyblock ▸ hylo, h.lower a ha]
  · intro a ha
    rcases List.mem_cons.mp ha with rfl | ha
    exacts [hyblock ▸ hyhi, h.upper a ha]
  · intro a ha c hc
    rcases List.mem_cons.mp ha with rfl | ha
    · rw [hyblock]
      rcases List.mem_append.mp hc with hc | hc
      · exact Block.apart_comm.mp (hcross c hc y List.mem_cons_self).apart
      · exact (hyQ c hc).apart
    · exact h.apart_free a ha c (hsub c hc)
  · refine List.pairwise_cons.mpr ⟨fun d hd => ?_, h.apart_live⟩
    obtain ⟨a, ha, rfl⟩ := List.mem_map.mp hd
    rw [hyblock]
    exact Block.apart_comm.mp (h.apart_free a ha y hyfs)

/-- A larger block gives up its last `nunits` units, and keeps the rest on the list. -/
theorem take_split (h : UInv base s live (P ++ y :: Q)) (hn : n.toNat < maxRequest)
    (hy : (nunitsFor n).toNat < y.units) :
    UInv base (takeAt (nunitsFor n) s (lastCell base P) y.addr).1
      (((takeAt (nunitsFor n) s (lastCell base P) y.addr).2, n) :: live)
      (P ++ ⟨y.addr, y.units - (nunitsFor n).toNat⟩ :: Q) := by
  set k := (nunitsFor n).toNat with hk
  have hk0 : 0 < k := by
    rw [hk, nunitsFor_toNat hn]
    omega
  have hyfs : y ∈ P ++ y :: Q := List.mem_append_right _ List.mem_cons_self
  have hysz := h.ring.links.size y hyfs
  have hsize : (s.mem y.addr).size ≠ nunitsFor n := fun he => by
    rw [he] at hysz
    omega
  have hsub : ((s.mem y.addr).size - nunitsFor n).toNat = y.units - k := by
    rw [UInt32.toNat_sub_of_le _ _ (UInt32.le_iff_toNat_le.mpr (by omega)), hysz]
  simp only [takeAt, if_neg hsize, setSize_same, hsub]
  obtain ⟨hsP, hsyQ, hcross⟩ := Shape.append_iff.mp h.shape
  obtain ⟨⟨hypos, hylo, hyhi, hyQ⟩, hsQ⟩ := Shape.cons_iff.mp hsyQ
  -- the block handed out is the top `k` units of `y`, strictly inside it
  set y' := y.addr + hdrSize * (y.units - k)
  have hy'lo : y.addr + hdrSize ≤ y' := by
    simp only [y', hdrSize_eq]
    omega
  have hy'hi : y' + hdrSize * k = y.endAddr := by
    simp only [y', Block.endAddr, hdrSize_eq]
    have : y.units - k + k = y.units := Nat.sub_add_cancel (Nat.le_of_lt hy)
    omega
  have hnb : liveBlock (y' + hdrSize, n) = ⟨y', k⟩ := by
    simp only [liveBlock, Nat.add_sub_cancel]
    rfl
  have hPy : ∀ c ∈ P, c.addr ≠ y.addr ∧ c.addr ≠ y' := fun c hc => by
    have := hcross c hc y List.mem_cons_self
    simp only [Block.Before, Block.endAddr, hdrSize_eq] at this hy'lo
    omega
  have hQy : ∀ c ∈ Q, c.addr ≠ y.addr ∧ c.addr ≠ y' := fun c hc => by
    have := hyQ c hc
    simp only [Block.Before, Block.endAddr, hdrSize_eq] at this hy'hi hy'lo
    omega
  have hbase : base ≠ y.addr ∧ base ≠ y' := by
    simp only [hdrSize_eq] at hylo hy'lo
    omega
  have hsub' : ∀ c ∈ P ++ Q, c ∈ P ++ y :: Q := fun c hc => by
    rcases List.mem_append.mp hc with hc | hc
    exacts [List.mem_append_left _ hc, List.mem_append_right _ (List.mem_cons_of_mem _ hc)]
  refine ⟨?_, ?_, ?_, h.brk, h.limit, ?_, ?_, ?_, ?_, ?_, ?_⟩
  · -- the links are those of the old list, with a smaller size at `y`
    have hlinks := h.ring.links.setSize (fun c hc => (hPy c hc).1) (fun c hc => (hQy c hc).1)
      ((s.mem y.addr).size - nunitsFor n)
    rw [hsub] at hlinks
    refine Ring.frame ⟨h.ring.base_ne, by simp [hbase.1, h.ring.baseSize], ?_, hlinks⟩ ?_
    · rw [setSize_ptr, h.ring.basePtr, headAddr_append, headAddr_append]
      rfl
    · intro x hx
      refine setSize_of_ne _ ?_
      rintro rfl
      simp only [List.map_append, List.map_cons, List.mem_cons, List.mem_append,
        List.mem_map] at hx
      rcases hx with hx | ⟨c, hc, hcx⟩ | hx | ⟨c, hc, hcx⟩
      · exact hbase.2 hx.symm
      · exact (hPy c hc).2 hcx
      · simp only [hdrSize_eq] at hy'lo
        omega
      · exact (hQy c hc).2 hcx
  · refine Shape.append_iff.mpr ⟨hsP, Shape.cons_iff.mpr ⟨⟨Nat.sub_pos_of_lt hy, hylo, ?_, fun c hc => ?_⟩,
      hsQ⟩, fun x hx c hc => ?_⟩
    · simp only [Block.endAddr, hdrSize_eq] at hy'hi hyhi ⊢
      omega
    · have := hyQ c hc
      simp only [Block.Before, Block.endAddr, hdrSize_eq] at this ⊢
      omega
    · have hxy := hcross x hx y List.mem_cons_self
      rcases List.mem_cons.mp hc with rfl | hc
      · exact hxy
      · exact hcross x hx c (List.mem_cons_of_mem _ hc)
  · have := lastCell_mem base P
    simp only [List.map_append, List.mem_cons, List.mem_append] at this ⊢
    tauto
  · intro a ha
    rcases List.mem_cons.mp ha with rfl | ha
    exacts [hn, h.request a ha]
  · intro a ha
    rcases List.mem_cons.mp ha with rfl | ha
    · rw [hnb]
      simp
    · have hpos := h.live_pos ha
      have hay := h.apart_free a ha y hyfs
      have hne : (liveBlock a).addr ≠ y.addr := hay.addr_ne hpos hypos
      have hne' : (liveBlock a).addr ≠ y' := by
        simp only [Block.Apart, Block.endAddr, hdrSize_eq] at hay hy'hi hy'lo
        omega
      simpa [hne, hne'] using h.header a ha
  · intro a ha
    rcases List.mem_cons.mp ha with rfl | ha
    · rw [hnb]
      simp only [hdrSize_eq] at hylo hy'lo ⊢
      omega
    · exact h.lower a ha
  · intro a ha
    rcases List.mem_cons.mp ha with rfl | ha
    · rw [hnb]
      simp only [Block.endAddr] at hy'hi hyhi ⊢
      omega
    · exact h.upper a ha
  · intro a ha c hc
    rcases List.mem_cons.mp ha with rfl | ha
    · rw [hnb]
      simp only [List.mem_append, List.mem_cons] at hc
      rcases hc with hc | rfl | hc
      · have := hcross c hc y List.mem_cons_self
        simp only [Block.Apart, Block.Before, Block.endAddr, hdrSize_eq] at this hy'lo ⊢
        omega
      · simp only [Block.Apart, Block.endAddr, hdrSize_eq] at hy'hi ⊢
        omega
      · have := hyQ c hc
        simp only [Block.Apart, Block.Before, Block.endAddr, hdrSize_eq] at this hy'hi ⊢
        omega
    · simp only [List.mem_append, List.mem_cons] at hc
      rcases hc with hc | rfl | hc
      · exact h.apart_free a ha c (List.mem_append_left _ hc)
      · refine (h.apart_free a ha y hyfs).mono (Nat.le_refl _) ?_
        simp only [Block.endAddr, hdrSize_eq]
        omega
      · exact h.apart_free a ha c (List.mem_append_right _ (List.mem_cons_of_mem _ hc))
  · refine List.pairwise_cons.mpr ⟨fun d hd => ?_, h.apart_live⟩
    obtain ⟨a, ha, rfl⟩ := List.mem_map.mp hd
    rw [hnb]
    refine Block.apart_comm.mp ((h.apart_free a ha y hyfs).mono ?_ ?_)
    · simp only [hdrSize_eq] at hy'lo
      dsimp only
      omega
    · simp only [Block.endAddr] at hy'hi ⊢
      omega

end UInv

/-! ### `malloc`'s loop, one step at a time -/

section Loop

variable {nunits : UInt32} {ok : Bool} {s : UMem} {fuel prevp p : ℕ}

theorem mallocLoop_take (h : (s.mem p).size ≥ nunits) :
    mallocLoop nunits ok (fuel + 1) s prevp p = some (takeAt nunits s prevp p) := by
  rw [mallocLoop.eq_2, if_pos h]
  unfold takeAt
  split_ifs <;> rfl

/-- A cell too small: `morecore` at `freep`, the next cell otherwise. -/
theorem mallocLoop_small (h : ¬ (s.mem p).size ≥ nunits) :
    mallocLoop nunits ok (fuel + 1) s prevp p =
      if p = s.freep then
        match morecore s nunits ok with
        | none => none
        | some (s, 0) => some (s, 0)
        | some (s, p) => mallocLoop nunits ok fuel s p (s.mem p).ptr
      else mallocLoop nunits ok fuel s p (s.mem p).ptr := by
  rw [mallocLoop.eq_2]
  exact if_neg h

theorem mallocLoop_skip (h : ¬ (s.mem p).size ≥ nunits) (hp : p ≠ s.freep) :
    mallocLoop nunits ok (fuel + 1) s prevp p = mallocLoop nunits ok fuel s p (s.mem p).ptr := by
  rw [mallocLoop_small h, if_neg hp]

theorem mallocLoop_more (h : ¬ (s.mem p).size ≥ nunits) (hp : p = s.freep) {s' : UMem} {q : ℕ}
    (hm : morecore s nunits ok = some (s', q)) :
    mallocLoop nunits ok (fuel + 1) s prevp p =
      if q = 0 then some (s', 0) else mallocLoop nunits ok fuel s' q (s'.mem q).ptr := by
  rw [mallocLoop_small h, if_pos hp, hm]
  cases q <;> rfl

theorem mallocLoop_more_none (h : ¬ (s.mem p).size ≥ nunits) (hp : p = s.freep)
    (hm : morecore s nunits ok = none) : mallocLoop nunits ok (fuel + 1) s prevp p = none := by
  rw [mallocLoop_small h, if_pos hp, hm]

/-- The loop walks past the cells of a path that are too small and are not `freep`, keeping
the last of them as `prevp`. -/
theorem mallocLoop_walk {a c : ℕ} {cs : List ℕ} (h : Path Header.ptr 0 s.mem a cs c)
    (hskip : ∀ x ∈ cs, ¬ (s.mem x).size ≥ nunits ∧ x ≠ s.freep) (fuel prevp : ℕ) :
    mallocLoop nunits ok (fuel + cs.length) s prevp a =
      mallocLoop nunits ok fuel s (cs.getLast?.getD prevp) c := by
  induction h generalizing prevp with
  | nil => rfl
  | @cons a c as _ _ ih =>
    obtain ⟨hs, hf⟩ := hskip a List.mem_cons_self
    rw [List.length_cons, ← Nat.add_assoc, mallocLoop_skip hs hf,
      ih (fun x hx => hskip x (List.mem_cons_of_mem _ hx)) a]
    simp [List.getLast?_cons]

end Loop

namespace UInv

variable {base : ℕ} {s : UMem} {live : List (ℕ × UInt32)} {nunits : UInt32} {ok : Bool}

theorem fits_iff {fs : List Block} (h : UInv base s live fs) {c : Block} (hc : c ∈ fs) :
    (s.mem c.addr).size ≥ nunits ↔ nunits.toNat ≤ c.units := by
  rw [ge_iff_le, UInt32.le_iff_toNat_le, h.ring.links.size c hc]

/-- When the first large enough block after `freep` lies above it, the loop takes it. -/
theorem loop_upper {F1 W W' : List Block} {y : Block} (h : UInv base s live (F1 ++ W ++ y :: W'))
    (hf : s.freep = lastCell base F1) (hW : ∀ c ∈ W, c.units < nunits.toNat)
    (hy : nunits.toNat ≤ y.units) {fuel : ℕ} (hfuel : W.length + 1 ≤ fuel) :
    mallocLoop nunits ok fuel s s.freep (s.mem s.freep).ptr =
      some (takeAt nunits s (lastCell base (F1 ++ W)) y.addr) := by
  have hring := h.ring
  have hshape := h.shape
  rw [List.append_assoc] at hring hshape
  have hptr := hring.ptr_lastCell
  rw [headAddr_append, headAddr_cons] at hptr
  have hpath := (Links.append_iff.mp (Links.append_iff.mp hring.links).2).1.path
  rw [headAddr_cons] at hpath
  have hskip : ∀ x ∈ W.map Block.addr, ¬ (s.mem x).size ≥ nunits ∧ x ≠ s.freep := by
    intro x hx
    obtain ⟨c, hc, rfl⟩ := List.mem_map.mp hx
    have hcf : c ∈ F1 ++ W ++ y :: W' := by simp [hc]
    refine ⟨fun hge => absurd ((h.fits_iff hcf).mp hge) (Nat.not_le.mpr (hW c hc)), ?_⟩
    rw [hf]
    exact Nat.ne_of_gt (hshape.lastCell_lt (List.mem_append_left _ hc))
  have hyfs : y ∈ F1 ++ W ++ y :: W' := by simp
  obtain ⟨d, rfl⟩ := Nat.exists_eq_add_of_le hfuel
  have hlen : W.length + 1 + d = d + 1 + (W.map Block.addr).length := by
    simp only [List.length_map]
    omega
  rw [hlen, hf, hptr]
  rw [mallocLoop_walk hpath hskip, mallocLoop_take ((h.fits_iff hyfs).mpr hy), lastCell_append]
  rfl

/-- When no block after `freep` is large enough but one before it is, the loop goes round
through `base` and takes the first of those. -/
theorem loop_lower {W W' F2 : List Block} {y : Block} (h : UInv base s live (W ++ y :: W' ++ F2))
    (hf : s.freep = lastCell base (W ++ y :: W')) (hF2 : ∀ c ∈ F2, c.units < nunits.toNat)
    (hW : ∀ c ∈ W, c.units < nunits.toNat) (hy : nunits.toNat ≤ y.units)
    (hn0 : 0 < nunits.toNat) {fuel : ℕ} (hfuel : F2.length + W.length + 2 ≤ fuel) :
    mallocLoop nunits ok fuel s s.freep (s.mem s.freep).ptr =
      some (takeAt nunits s (lastCell base W) y.addr) := by
  have hyfs : y ∈ W ++ y :: W' ++ F2 := by simp
  have hfy : y.addr ≤ s.freep := hf ▸ (Shape.append_iff.mp h.shape).1.le_lastCell
  -- from `freep` up through `F2` to `base`, then from `base` through `W` to `y`
  have hptr := h.ring.ptr_lastCell
  have hF2path := (Links.append_iff.mp h.ring.links).2.path
  have hWlinks : Links s.mem W y.addr :=
    (Links.append_iff.mp (Links.append_iff.mp h.ring.links).1).1
  have hbasePtr : (s.mem base).ptr = headAddr W y.addr := by
    rw [h.ring.basePtr, List.append_assoc, headAddr_append]
    rfl
  have hpath := path_append_iff.mpr ⟨base, hF2path,
    Path.cons h.ring.base_ne (hbasePtr ▸ hWlinks.path)⟩
  have hskip : ∀ x ∈ F2.map Block.addr ++ base :: W.map Block.addr,
      ¬ (s.mem x).size ≥ nunits ∧ x ≠ s.freep := by
    intro x hx
    simp only [List.mem_append, List.mem_cons, List.mem_map] at hx
    rcases hx with ⟨c, hc, rfl⟩ | rfl | ⟨c, hc, rfl⟩
    · have hcf : c ∈ W ++ y :: W' ++ F2 := List.mem_append_right _ hc
      refine ⟨fun hge => absurd ((h.fits_iff hcf).mp hge) (Nat.not_le.mpr (hF2 c hc)), ?_⟩
      rw [hf]
      exact Nat.ne_of_gt (h.shape.lastCell_lt hc)
    · refine ⟨by simp [h.ring.baseSize, UInt32.le_iff_toNat_le]; omega, fun hb => ?_⟩
      have := h.shape.lower y hyfs
      simp only [hdrSize_eq] at this
      omega
    · have hcf : c ∈ W ++ y :: W' ++ F2 := by simp [hc]
      refine ⟨fun hge => absurd ((h.fits_iff hcf).mp hge) (Nat.not_le.mpr (hW c hc)), ?_⟩
      have := (Shape.append_iff.mp (Shape.append_iff.mp h.shape).1).2.2 c hc y
        List.mem_cons_self
      simp only [Block.Before, Block.endAddr] at this
      omega
  obtain ⟨d, rfl⟩ := Nat.exists_eq_add_of_le hfuel
  have hlen : F2.length + W.length + 2 + d =
      d + 1 + (F2.map Block.addr ++ base :: W.map Block.addr).length := by
    simp only [List.length_append, List.length_map, List.length_cons]
    omega
  rw [hlen, hf, hptr, mallocLoop_walk hpath hskip, mallocLoop_take ((h.fits_iff hyfs).mpr hy)]
  simp [lastCell, List.getLast?_append, List.getLast?_cons]

/-- When no block is large enough, the loop goes round the whole ring back to `freep`. -/
theorem loop_more {F1 F2 : List Block} (h : UInv base s live (F1 ++ F2))
    (hf : s.freep = lastCell base F1) (hsmall : ∀ c ∈ F1 ++ F2, c.units < nunits.toNat)
    (hn0 : 0 < nunits.toNat) (fuel : ℕ) :
    ∃ prevp, mallocLoop nunits ok (fuel + (F1 ++ F2).length) s s.freep (s.mem s.freep).ptr =
      mallocLoop nunits ok fuel s prevp s.freep := by
  have hptr := h.ring.ptr_lastCell
  have hF2path := (Links.append_iff.mp h.ring.links).2.path
  have hsmall' : ∀ c ∈ F1 ++ F2, ¬ (s.mem c.addr).size ≥ nunits := fun c hc hge =>
    absurd ((h.fits_iff hc).mp hge) (Nat.not_le.mpr (hsmall c hc))
  have hskipF2 : ∀ x ∈ F2.map Block.addr, ¬ (s.mem x).size ≥ nunits ∧ x ≠ s.freep := by
    intro x hx
    obtain ⟨c, hc, rfl⟩ := List.mem_map.mp hx
    refine ⟨hsmall' c (List.mem_append_right _ hc), ?_⟩
    rw [hf]
    exact Nat.ne_of_gt (h.shape.lastCell_lt hc)
  rcases List.eq_nil_or_concat F1 with rfl | ⟨F1, l, rfl⟩
  · -- `freep` is `base`: the walk through `F2` comes back to it
    rw [lastCell_nil] at hf hptr
    refine ⟨((F2.map Block.addr).getLast?).getD base, ?_⟩
    rw [List.nil_append, ← List.length_map Block.addr, hf, hptr]
    exact mallocLoop_walk hF2path hskipF2 fuel base
  · -- through `F2` to `base`, then through the blocks below `freep`
    rw [List.concat_eq_append] at h hsmall hsmall' hf hptr ⊢
    rw [lastCell_concat] at hf hptr
    have hFlinks : Links s.mem F1 l.addr :=
      (Links.append_iff.mp (Links.append_iff.mp h.ring.links).1).1
    have hbasePtr : (s.mem base).ptr = headAddr F1 l.addr := by
      rw [h.ring.basePtr, List.append_assoc, headAddr_append]
      rfl
    have hpath := path_append_iff.mpr ⟨base, hF2path,
      Path.cons h.ring.base_ne (hbasePtr ▸ hFlinks.path)⟩
    have hlfs : l ∈ F1 ++ [l] ++ F2 := by simp
    have hskip : ∀ x ∈ F2.map Block.addr ++ base :: F1.map Block.addr,
        ¬ (s.mem x).size ≥ nunits ∧ x ≠ s.freep := by
      intro x hx
      simp only [List.mem_append, List.mem_cons, List.mem_map] at hx
      rcases hx with hx | rfl | ⟨c, hc, rfl⟩
      · exact hskipF2 x (List.mem_map.mpr hx)
      · refine ⟨by simp [h.ring.baseSize, UInt32.le_iff_toNat_le]; omega, fun hb => ?_⟩
        have := h.shape.lower l hlfs
        simp only [hdrSize_eq] at this
        omega
      · refine ⟨hsmall' c (by simp [hc]), ?_⟩
        have := (Shape.append_iff.mp (Shape.append_iff.mp h.shape).1).2.2 c hc l
          (List.mem_singleton_self l)
        simp only [Block.Before, Block.endAddr] at this
        omega
    refine ⟨((F2.map Block.addr ++ base :: F1.map Block.addr).getLast?).getD l.addr, ?_⟩
    have hlen : (F1 ++ [l] ++ F2).length =
        (F2.map Block.addr ++ base :: F1.map Block.addr).length := by
      simp only [List.length_append, List.length_map, List.length_cons, List.length_nil]
      omega
    rw [hlen, hf, hptr]
    exact mallocLoop_walk hpath hskip fuel l.addr

end UInv

/-! ### `sbrk` and `morecore` -/

/-- The units `morecore` asks `sbrk` for: at least 4096. -/
def moreUnits (nunits : UInt32) : UInt32 := if nunits < 4096 then 4096 else nunits

theorem moreUnits_toNat (nunits : UInt32) : (moreUnits nunits).toNat = max 4096 nunits.toNat := by
  unfold moreUnits
  split_ifs with h <;> rw [UInt32.lt_iff_toNat_lt] at h <;> simp at h ⊢ <;> omega

/-- `morecore` with its request in `moreUnits`. -/
theorem morecore_eq (s : UMem) (nunits : UInt32) (ok : Bool) :
    morecore s nunits ok =
      let r := sbrk s (Int32.ofNat ((moreUnits nunits).toNat * hdrSize)) ok
      if r.2 = 2 ^ 64 - 1 then some (r.1, 0)
      else (free { r.1 with mem := setSize r.1.mem r.2 (moreUnits nunits) } (r.2 + hdrSize)).map
        fun s => (s, s.freep) := rfl

/-- For fewer than `2^27` units the request fits an `int`: it is positive and asks for
`16 * nu` bytes. -/
theorem more_request {nunits : UInt32} (hn : nunits.toNat < 2 ^ 27) :
    0 < Int32.ofNat ((moreUnits nunits).toNat * hdrSize) ∧
      (Int32.ofNat ((moreUnits nunits).toNat * hdrSize)).toInt.toNat =
        hdrSize * (moreUnits nunits).toNat := by
  have hm := moreUnits_toNat nunits
  have hlt : (moreUnits nunits).toNat * hdrSize < 2 ^ 31 := by
    simp only [hm, hdrSize_eq]
    omega
  have hval := Int32.toInt_ofNat_of_lt hlt
  refine ⟨?_, ?_⟩
  · rw [Int32.lt_iff_toInt_lt, hval, Int32.toInt_zero]
    simp only [hm, hdrSize_eq]
    omega
  · rw [hval, Int.toNat_natCast, Nat.mul_comm]

theorem sbrk_pos {s : UMem} {n : Int32} (hn : 0 < n) (ok : Bool) :
    sbrk s n ok = if ok then ({ s with sz := s.sz + n.toInt.toNat }, s.sz) else (s, 2 ^ 64 - 1) := by
  simp only [sbrk, if_pos hn]

theorem free_sz {s s' : UMem} {ap : ℕ} (h : free s ap = some s') : s'.sz = s.sz := by
  simp only [free, Option.map_eq_some_iff] at h
  obtain ⟨p, -, rfl⟩ := h
  rfl

theorem morecore_false {s : UMem} {nunits : UInt32} (hn : nunits.toNat < 2 ^ 27) :
    morecore s nunits false = some (s, 0) := by
  rw [morecore_eq, sbrk_pos (more_request hn).1]
  simp

/-- When `sbrk` succeeds the process grows by the `16 * nu` bytes asked for. -/
theorem morecore_true_sz {s s' : UMem} {nunits : UInt32} {q : ℕ} (hn : nunits.toNat < 2 ^ 27)
    (h : morecore s nunits true = some (s', q)) :
    s'.sz = s.sz + hdrSize * (moreUnits nunits).toNat := by
  obtain ⟨hpos, hval⟩ := more_request hn
  rw [morecore_eq, sbrk_pos hpos] at h
  simp only [if_true] at h
  split_ifs at h
  · simp only [Option.some.injEq, Prod.mk.injEq] at h
    rw [← h.1, hval]
  · obtain ⟨s'', hfree, heq⟩ := Option.map_eq_some_iff.mp h
    simp only [Prod.mk.injEq] at heq
    rw [← heq.1, free_sz hfree, hval]

theorem morecore_sz_le {s s' : UMem} {nunits : UInt32} {ok : Bool} {q : ℕ}
    (hn : nunits.toNat < 2 ^ 27) (h : morecore s nunits ok = some (s', q)) : s.sz ≤ s'.sz := by
  cases ok with
  | false =>
    rw [morecore_false hn] at h
    simp only [Option.some.injEq, Prod.mk.injEq] at h
    rw [← h.1]
  | true =>
    rw [morecore_true_sz hn h]
    exact Nat.le_add_right _ _

/-- `malloc`'s loop never shrinks the process. -/
theorem mallocLoop_sz_le {nunits : UInt32} {ok : Bool} (hn : nunits.toNat < 2 ^ 27) :
    ∀ {fuel : ℕ} {s s' : UMem} {prevp p r : ℕ},
      mallocLoop nunits ok fuel s prevp p = some (s', r) → s.sz ≤ s'.sz := by
  intro fuel
  induction fuel with
  | zero => intro s s' prevp p r h; simp [mallocLoop] at h
  | succ fuel ih =>
    intro s s' prevp p r h
    by_cases hfit : (s.mem p).size ≥ nunits
    · rw [mallocLoop_take hfit] at h
      have hsz : s'.sz = s.sz := by rw [← takeAt_sz nunits s prevp p, Option.some.inj h]
      exact Nat.le_of_eq hsz.symm
    by_cases hp : p = s.freep
    · cases hm : morecore s nunits ok with
      | none =>
        rw [mallocLoop_more_none hfit hp hm] at h
        exact absurd h (fun h' => Option.some_ne_none _ h'.symm)
      | some res =>
        obtain ⟨s₁, q⟩ := res
        rw [mallocLoop_more hfit hp hm] at h
        have h₁ := morecore_sz_le hn hm
        split_ifs at h
        · simp only [Option.some.injEq, Prod.mk.injEq] at h
          rw [← h.1]
          exact h₁
        · exact Nat.le_trans h₁ (ih h)
    · rw [mallocLoop_skip hfit hp] at h
      exact ih h

/-! ### `malloc` keeps the invariant -/

/-- A list has a first element passing a test, or none passes it. -/
theorem exists_first {α : Type*} (p : α → Prop) [DecidablePred p] (l : List α) :
    (∀ x ∈ l, ¬ p x) ∨ ∃ W y W', l = W ++ y :: W' ∧ (∀ x ∈ W, ¬ p x) ∧ p y := by
  induction l with
  | nil => exact .inl fun _ h => absurd h List.not_mem_nil
  | cons x l ih =>
    by_cases hx : p x
    · exact .inr ⟨[], x, l, rfl, fun _ h => absurd h List.not_mem_nil, hx⟩
    · rcases ih with hall | ⟨W, y, W', rfl, hW, hy⟩
      · exact .inl fun z hz => by
          rcases List.mem_cons.mp hz with rfl | hz
          exacts [hx, hall z hz]
      · refine .inr ⟨x :: W, y, W', rfl, fun z hz => ?_, hy⟩
        rcases List.mem_cons.mp hz with rfl | hz
        exacts [hx, hW z hz]

/-- `freep` splits the free list into the blocks up to it and those after it. -/
theorem exists_split_freep {base f : ℕ} {fs : List Block} (hf : f ∈ base :: fs.map Block.addr) :
    ∃ F1 F2, fs = F1 ++ F2 ∧ f = lastCell base F1 := by
  rcases List.mem_cons.mp hf with rfl | hf
  · exact ⟨[], fs, rfl, rfl⟩
  · obtain ⟨c, hc, rfl⟩ := List.mem_map.mp hf
    obtain ⟨A, B, rfl⟩ := List.append_of_mem hc
    exact ⟨A ++ [c], B, by simp, by simp⟩

namespace UInv

variable {base : ℕ} {s : UMem} {live : List (ℕ × UInt32)} {fs : List Block} {n : UInt32}
  {nunits : UInt32} {ok : Bool}

/-- Taking a large enough block keeps the invariant, with one more allocation live. -/
theorem take {P Q : List Block} {y : Block} (h : UInv base s live (P ++ y :: Q))
    (hn : n.toNat < maxRequest) (hy : (nunitsFor n).toNat ≤ y.units) :
    ∃ fs', UInv base (takeAt (nunitsFor n) s (lastCell base P) y.addr).1
      (afterMalloc live (takeAt (nunitsFor n) s (lastCell base P) y.addr).2 n) fs' := by
  have hr : (takeAt (nunitsFor n) s (lastCell base P) y.addr).2 ≠ 0 := by
    unfold takeAt
    split_ifs <;> simp
  rw [afterMalloc, if_neg hr]
  rcases Nat.lt_or_eq_of_le hy with hlt | heq
  · exact ⟨_, h.take_split hn hlt⟩
  · exact ⟨_, h.take_exact hn heq.symm⟩

/-- `freep`, `base` or a free block, is too small when every free block is. -/
theorem freep_small (h : UInv base s live fs) (hn0 : 0 < nunits.toNat)
    (hsmall : ∀ c ∈ fs, c.units < nunits.toNat) : ¬ (s.mem s.freep).size ≥ nunits := by
  rcases List.mem_cons.mp h.freep with hf | hf
  · rw [hf, h.ring.baseSize, ge_iff_le, UInt32.le_iff_toNat_le]
    simp only [UInt32.toNat_zero]
    omega
  · obtain ⟨c, hc, hcf⟩ := List.mem_map.mp hf
    rw [← hcf, h.fits_iff hc]
    exact Nat.not_le.mpr (hsmall c hc)

/-- Where the loop goes from `freep`: it takes the first large enough block after `freep`, or,
when every block is too small, comes back round to `freep` to ask `morecore`. -/
theorem loop_cases (ok : Bool) (h : UInv base s live fs) (hn0 : 0 < nunits.toNat) {fuel : ℕ}
    (hfuel : fs.length + 1 ≤ fuel) :
    (∃ P y Q, fs = P ++ y :: Q ∧ nunits.toNat ≤ y.units ∧
      mallocLoop nunits ok fuel s s.freep (s.mem s.freep).ptr =
        some (takeAt nunits s (lastCell base P) y.addr)) ∨
    ((∀ c ∈ fs, c.units < nunits.toNat) ∧ ∃ prevp,
      mallocLoop nunits ok fuel s s.freep (s.mem s.freep).ptr =
        mallocLoop nunits ok (fuel - fs.length) s prevp s.freep) := by
  obtain ⟨F1, F2, rfl, hf⟩ := exists_split_freep h.freep
  rcases exists_first (fun c : Block => nunits.toNat ≤ c.units) F2 with hF2 | ⟨W, y, W', rfl, hW, hy⟩
  · rcases exists_first (fun c : Block => nunits.toNat ≤ c.units) F1 with hF1 | ⟨W, y, W', rfl, hW, hy⟩
    · -- nothing fits: round the ring
      refine .inr ⟨fun c hc => ?_, ?_⟩
      · rcases List.mem_append.mp hc with hc | hc
        exacts [Nat.not_le.mp (hF1 c hc), Nat.not_le.mp (hF2 c hc)]
      · nth_rewrite 1 [show fuel = fuel - (F1 ++ F2).length + (F1 ++ F2).length by omega]
        exact h.loop_more hf (fun c hc => by
          rcases List.mem_append.mp hc with hc | hc
          exacts [Nat.not_le.mp (hF1 c hc), Nat.not_le.mp (hF2 c hc)]) hn0 _
    · -- the first fit lies before `freep`
      refine .inl ⟨W, y, W' ++ F2, by simp, hy, h.loop_lower hf (fun c hc => Nat.not_le.mp (hF2 c hc))
        (fun c hc => Nat.not_le.mp (hW c hc)) hy hn0 ?_⟩
      simp only [List.length_append, List.length_cons] at hfuel
      omega
  · -- the first fit lies after `freep`
    refine .inl ⟨F1 ++ W, y, W', by simp, hy, ?_⟩
    rw [← List.append_assoc] at h
    exact h.loop_upper hf (fun c hc => Nat.not_le.mp (hW c hc)) hy (by
      simp only [List.length_append, List.length_cons] at hfuel
      omega)


/-- `morecore` when `sbrk` has room: the new block of `moreUnits nunits` units at the old break
goes into the free list after its last block, and `freep` is that last block. -/
theorem morecore (h : UInv base s live fs) (hn : nunits.toNat < 2 ^ 27)
    (hroom : s.sz + hdrSize * (moreUnits nunits).toNat ≤ sizeLimit) :
    ∃ s', Umalloc.morecore s nunits true = some (s', lastCell base fs) ∧
      s'.freep = lastCell base fs ∧
      UInv base s' live (insertAt fs ⟨s.sz, (moreUnits nunits).toNat⟩ []) := by
  obtain ⟨hpos, hval⟩ := more_request hn
  set b : Block := ⟨s.sz, (moreUnits nunits).toNat⟩
  set s₁ : UMem :=
    { s with
      mem := setSize s.mem s.sz (moreUnits nunits)
      sz := s.sz + hdrSize * (moreUnits nunits).toNat }
  have hnu : 4096 ≤ b.units := by
    simp only [b, moreUnits_toNat]
    omega
  -- every free block lies below the old break, where the new header goes
  have hbelow : ∀ x ∈ base :: fs.map Block.addr, x < s.sz := by
    intro x hx
    have hbrk := h.brk
    rcases List.mem_cons.mp hx with rfl | hx
    · simp only [hdrSize_eq] at hbrk
      omega
    · obtain ⟨c, hc, rfl⟩ := List.mem_map.mp hx
      have := h.shape.upper c hc
      have := h.shape.pos c hc
      simp only [Block.endAddr, hdrSize_eq] at *
      omega
  have hring : Ring base s₁.mem fs :=
    h.ring.frame fun x hx => setSize_of_ne _ (Nat.ne_of_lt (hbelow x hx))
  obtain ⟨P, Q, hPQ, -, hQ, hfree, hring', hshape'⟩ := hring.free (s := s₁) (b := b)
    (h.shape.mono (Nat.le_add_right _ _)) hroom h.freep (by simp [s₁, b]) (by omega) h.brk
    (Nat.le_refl _) (fun c hc => Or.inr (h.shape.upper c hc))
  have hQnil : Q = [] := List.eq_nil_iff_forall_not_mem.mpr fun c hc =>
    Nat.lt_asymm (hQ c hc)
      (hbelow _ (List.mem_cons_of_mem _ (List.mem_map_of_mem (hPQ ▸ List.mem_append_right _ hc))))
  subst hQnil
  rw [List.append_nil] at hPQ
  subst hPQ
  have hmore : Umalloc.morecore s nunits true =
      (Umalloc.free s₁ (b.addr + hdrSize)).map fun s => (s, s.freep) := by
    rw [morecore_eq, sbrk_pos hpos]
    simp only [if_true]
    rw [if_neg (by simp only [sizeLimit] at hroom; omega), hval]
  refine ⟨_, by rw [hmore, hfree]; rfl, rfl, ?_⟩
  -- the live headers lie below the old break and are not the cell the block joins
  have hframe : ∀ a ∈ live,
      (freeJoin s₁ b.addr (lastCell base fs)).mem (liveBlock a).addr = s.mem (liveBlock a).addr := by
    intro a ha
    have hlt : (liveBlock a).addr < s.sz := by
      have := h.upper a ha
      have := h.live_pos ha
      simp only [Block.endAddr, hdrSize_eq] at *
      omega
    rw [freeJoin_mem_of_ne (Nat.ne_of_lt hlt) (fun hc => h.live_not_cell ha (hc ▸ lastCell_mem base fs))]
    exact setSize_of_ne _ (Nat.ne_of_lt hlt)
  refine ⟨hring', hshape', lastCell_mem_insertAt base fs b [],
    Nat.le_trans h.brk (Nat.le_add_right _ _), hroom, h.request,
    fun a ha => (congrArg Header.size (hframe a ha)).trans (h.header a ha), h.lower,
    fun a ha => Nat.le_trans (h.upper a ha) (Nat.le_add_right _ _), fun a ha => ?_, h.apart_live⟩
  exact apart_insertAt (h.live_pos ha) (Or.inl (h.upper a ha)) (by
    rw [List.append_nil]
    exact h.apart_free a ha)


/-- After `morecore` has added the new block, the loop from `freep` takes the first block that
fits: the new block itself, or the last free block when the new one has joined it. -/
theorem after_more (ok : Bool) (h : UInv base s live fs) (hn : nunits.toNat < 2 ^ 27) (hn0 : 0 < nunits.toNat)
    (hsmall : ∀ c ∈ fs, c.units < nunits.toNat)
    (hroom : s.sz + hdrSize * (moreUnits nunits).toNat ≤ sizeLimit) {fuel : ℕ}
    (hfuel : fs.length + 2 ≤ fuel) :
    ∃ s₂ P y Q, Umalloc.morecore s nunits true = some (s₂, s₂.freep) ∧ s₂.freep ≠ 0 ∧
      UInv base s₂ live (P ++ y :: Q) ∧ nunits.toNat ≤ y.units ∧
      mallocLoop nunits ok fuel s₂ s₂.freep (s₂.mem s₂.freep).ptr =
        some (takeAt nunits s₂ (lastCell base P) y.addr) := by
  obtain ⟨s₂, hmore, hfp, h₂⟩ := h.morecore hn hroom
  set b : Block := ⟨s.sz, (moreUnits nunits).toNat⟩
  have hnu : nunits.toNat ≤ b.units := by
    simp only [b, moreUnits_toNat]
    omega
  have hfp0 : s₂.freep ≠ 0 := h₂.cell_ne_zero (hfp ▸ lastCell_mem_insertAt base fs b [])
  rw [← hfp] at hmore
  rcases List.eq_nil_or_concat fs with rfl | ⟨init, l, rfl⟩
  · -- an empty free list: the new block alone
    have h₂' : UInv base s₂ live ([] ++ [] ++ [b]) := h₂
    exact ⟨s₂, [], b, [], hmore, hfp0, h₂, hnu, h₂'.loop_upper hfp (fun _ h => absurd h
      List.not_mem_nil) hnu (by simp only [List.length_nil] at hfuel ⊢; omega)⟩
  rw [List.concat_eq_append] at hfp hsmall hfuel h₂
  rw [insertAt_concat] at h₂
  by_cases hm : l.endAddr = b.addr
  · -- the new block joins the last free block
    set m : Block := ⟨l.addr, l.units + b.units⟩
    have h₂' : UInv base s₂ live (init ++ [m] ++ []) := by
      simpa [join, hm] using h₂
    have hfm : s₂.freep = lastCell base (init ++ [m]) := by
      rw [hfp, lastCell_concat, lastCell_concat]
    have hy : nunits.toNat ≤ m.units := by
      show nunits.toNat ≤ l.units + b.units
      omega
    refine ⟨s₂, init, m, [], hmore, hfp0, by simpa using h₂', hy, ?_⟩
    exact h₂'.loop_lower hfm (fun _ h => absurd h List.not_mem_nil)
      (fun c hc => hsmall c (List.mem_append_left _ hc)) hy hn0
      (by simp only [List.length_append, List.length_nil, List.length_cons] at hfuel ⊢; omega)
  · -- the new block follows the last free block
    have h₂' : UInv base s₂ live (init ++ [l] ++ [] ++ [b]) := by
      simpa [join, hm] using h₂
    have hloop : mallocLoop nunits ok fuel s₂ s₂.freep (s₂.mem s₂.freep).ptr =
        some (takeAt nunits s₂ (lastCell base (init ++ [l] ++ [])) b.addr) :=
      h₂'.loop_upper hfp (fun _ h => absurd h List.not_mem_nil) hnu (by
        simp only [List.length_append, List.length_nil, List.length_cons] at hfuel ⊢
        omega)
    rw [List.append_nil] at hloop
    exact ⟨s₂, init ++ [l], b, [], hmore, hfp0, by simpa using h₂', hnu, hloop⟩

/-- The three ways `malloc`'s loop can end from a state of the invariant, when it asks for
`nunitsFor n` units: it takes a block, possibly after `morecore`; `sbrk` fails and it returns
`0`; or `sbrk` succeeds past `sizeLimit`. -/
theorem mallocLoop_cases (ok : Bool) (h : UInv base s live fs) (hn : n.toNat < maxRequest) :
    (∃ s₁ P y Q, UInv base s₁ live (P ++ y :: Q) ∧ (nunitsFor n).toNat ≤ y.units ∧
      mallocLoop (nunitsFor n) ok loopFuel s s.freep (s.mem s.freep).ptr =
        some (takeAt (nunitsFor n) s₁ (lastCell base P) y.addr)) ∨
    (ok = false ∧ mallocLoop (nunitsFor n) ok loopFuel s s.freep (s.mem s.freep).ptr = some (s, 0)) ∨
    (ok = true ∧ sizeLimit < s.sz + hdrSize * (moreUnits (nunitsFor n)).toNat ∧
      ∀ s' r, mallocLoop (nunitsFor n) ok loopFuel s s.freep (s.mem s.freep).ptr = some (s', r) →
        sizeLimit < s'.sz) := by
  have hk := nunitsFor_toNat hn
  have hk27 : (nunitsFor n).toNat < 2 ^ 27 := by
    simp only [maxRequest] at hn
    omega
  have hk0 : 0 < (nunitsFor n).toNat := by omega
  have hlen : fs.length ≤ 2 ^ 32 := by
    have := h.shape.length_le
    have := h.limit
    simp only [hdrSize_eq, sizeLimit] at *
    omega
  rcases h.loop_cases ok hk0 (show fs.length + 1 ≤ loopFuel by simp only [loopFuel]; omega) with
    ⟨P, y, Q, rfl, hy, hloop⟩ | ⟨hsmall, prevp, hloop⟩
  · exact .inl ⟨s, P, y, Q, h, hy, hloop⟩
  -- every block is too small: the loop comes back to `freep` and calls `morecore`
  have hfsmall := h.freep_small hk0 hsmall
  have hfuel : loopFuel - fs.length = (loopFuel - fs.length - 1) + 1 := by
    simp only [loopFuel]
    omega
  rw [hfuel] at hloop
  cases ok with
  | false =>
    refine .inr (.inl ⟨rfl, ?_⟩)
    rw [hloop, mallocLoop_more hfsmall rfl (morecore_false hk27), if_pos rfl]
  | true =>
    by_cases hroom : s.sz + hdrSize * (moreUnits (nunitsFor n)).toNat ≤ sizeLimit
    · obtain ⟨s₂, P, y, Q, hm, hfp0, h₂, hy, hloop₂⟩ := h.after_more true hk27 hk0 hsmall hroom
        (show fs.length + 2 ≤ loopFuel - fs.length - 1 by simp only [loopFuel]; omega)
      refine .inl ⟨s₂, P, y, Q, h₂, hy, ?_⟩
      rw [hloop, mallocLoop_more hfsmall rfl hm, if_neg hfp0, hloop₂]
    · refine .inr (.inr ⟨rfl, Nat.lt_of_not_le hroom, fun s' r hrun => ?_⟩)
      rw [hloop] at hrun
      cases hm : Umalloc.morecore s (nunitsFor n) true with
      | none =>
        rw [mallocLoop_more_none hfsmall rfl hm] at hrun
        exact absurd hrun (fun h' => Option.some_ne_none _ h'.symm)
      | some sq =>
        obtain ⟨s₂, q⟩ := sq
        have hsz := morecore_true_sz hk27 hm
        rw [mallocLoop_more hfsmall rfl hm] at hrun
        split_ifs at hrun
        · obtain ⟨rfl, -⟩ := Prod.mk.inj (Option.some.inj hrun)
          omega
        · have := mallocLoop_sz_le hk27 hrun
          omega


/-- Whatever `malloc`'s loop returns keeps the invariant, the pointer it returns made live, unless
the process has grown past `sizeLimit`. -/
theorem mallocLoop_inv (h : UInv base s live fs) (hn : n.toNat < maxRequest) {s' : UMem} {r : ℕ}
    (hrun : mallocLoop (nunitsFor n) ok loopFuel s s.freep (s.mem s.freep).ptr = some (s', r))
    (hlim : s'.sz ≤ sizeLimit) : ∃ fs', UInv base s' (afterMalloc live r n) fs' := by
  rcases h.mallocLoop_cases ok hn with ⟨s₁, P, y, Q, h₁, hy, hloop⟩ | ⟨-, hloop⟩ | ⟨-, -, hbig⟩
  · rw [hloop] at hrun
    obtain ⟨rfl, rfl⟩ := Prod.mk.inj (Option.some.inj hrun)
    exact h₁.take hn hy
  · rw [hloop] at hrun
    obtain ⟨rfl, rfl⟩ := Prod.mk.inj (Option.some.inj hrun)
    exact ⟨fs, h⟩
  · exact absurd hlim (Nat.not_le.mpr (hbig s' r hrun))

/-- `malloc`'s loop returns when `sbrk` fails, or when it has room for the largest request. -/
theorem mallocLoop_returns (h : UInv base s live fs) (hn : n.toNat < maxRequest)
    (hroom : ok = false ∨ s.sz + 2 ^ 31 ≤ sizeLimit) :
    ∃ s' r, mallocLoop (nunitsFor n) ok loopFuel s s.freep (s.mem s.freep).ptr = some (s', r) ∧
      s'.sz ≤ sizeLimit := by
  rcases h.mallocLoop_cases ok hn with ⟨s₁, P, y, Q, h₁, -, hloop⟩ | ⟨-, hloop⟩ | ⟨rfl, hbig, -⟩
  · set t := takeAt (nunitsFor n) s₁ (lastCell base P) y.addr with ht
    have hsz : t.1.sz = s₁.sz := takeAt_sz _ _ _ _
    exact ⟨t.1, t.2, hloop, hsz ▸ h₁.limit⟩
  · exact ⟨_, _, hloop, h.limit⟩
  · -- the request is below `2^31` bytes, so `sbrk` had room after all
    have hk := nunitsFor_toNat hn
    have hm := moreUnits_toNat (nunitsFor n)
    simp only [maxRequest, hdrSize_eq, Bool.true_eq_false, false_or] at hn hroom hbig hk hm
    omega

/-- Once the free list exists `malloc` goes straight to its loop. -/
theorem malloc_eq (h : UInv base s live fs) :
    malloc base s n ok = mallocLoop (nunitsFor n) ok loopFuel s s.freep (s.mem s.freep).ptr := by
  have hfp : s.freep ≠ 0 := h.cell_ne_zero h.freep
  simp only [malloc, if_neg hfp]

end UInv

/-- `malloc`'s first call makes `base` the free list, a ring of one block of size 0, and then
runs its loop from there. -/
theorem uinv_first {base : ℕ} {s : UMem} (hfp : s.freep = 0) (hb0 : base ≠ 0)
    (hbrk : base + hdrSize ≤ s.sz) (hlim : s.sz ≤ sizeLimit) :
    ∃ s₀, UInv base s₀ [] [] ∧ s₀.sz = s.sz ∧ ∀ n ok,
      malloc base s n ok = mallocLoop (nunitsFor n) ok loopFuel s₀ s₀.freep (s₀.mem s₀.freep).ptr := by
  refine ⟨{ s with mem := setSize (setPtr s.mem base base) base 0, freep := base }, ?_, rfl,
    fun n ok => by simp only [malloc, if_pos hfp]⟩
  have hring : Ring base (setSize (setPtr s.mem base base) base 0) [] :=
    ⟨hb0, by simp, by simp, Links.nil _ _⟩
  refine ⟨hring, ⟨List.Pairwise.nil, ?_, ?_, ?_⟩, List.mem_cons_self, hbrk, hlim, ?_, ?_, ?_, ?_, ?_,
    List.Pairwise.nil⟩ <;> simp

end Xv6Lab.Umalloc
