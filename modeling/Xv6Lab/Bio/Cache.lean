import Xv6Lab.Bio.Code
import Mathlib.Data.Fintype.Card
import Mathlib.Data.List.Count

/-!
# The structure of the buffer cache

`CacheInv σ l` is the invariant of every run from boot: the links form a ring through the
sentinel and the list `l` of all `NBUF` buffers, each buffer's `refcnt` counts its outstanding
`bread`s and pins modulo `2^32`, and a block `bget` gave a buffer is held by no other buffer.
`binit` sets it up and every call keeps it (`CacheInv.step`); `bget` only ever recycles a
buffer with no references (`bget_recycles_unreferenced`).

`refcnt` is a `uint`: with `2^32` outstanding references it wraps to zero, and a matching
`bunpin` then takes it below zero (`bunpin_wraps_refcnt`).
-/

namespace Xv6Lab.Bio

open DList

/-! ### The stores -/

@[simp] theorem setBuf_next (c : BCache) (b : Node) (f : Buf) : (c.setBuf b f).next = c.next :=
  rfl

@[simp] theorem setBuf_prev (c : BCache) (b : Node) (f : Buf) : (c.setBuf b f).prev = c.prev :=
  rfl

@[simp] theorem setBuf_buf (c : BCache) (b : Node) (f : Buf) :
    (c.setBuf b f).buf = Function.update c.buf b f :=
  rfl

@[simp] theorem linkFront_buf (c : BCache) (b : Node) : (linkFront c b).buf = c.buf := rfl

@[simp] theorem unlink_buf (c : BCache) (b : Node) : (unlink c b).buf = c.buf := rfl

/-- `linkFront` is the insertion of `Ring.insertFront`. -/
theorem ring_linkFront {c : BCache} {b : Node} {l : List Node} (h : Ring c.next c.prev head l)
    (hb : b ∉ head :: l) : Ring (linkFront c b).next (linkFront c b).prev head (b :: l) := by
  have hbh : head ≠ b := fun e => hb (e ▸ List.mem_cons_self)
  have hprev : (linkFront c b).prev =
      Function.update (Function.update c.prev b head) (c.next head) b := by
    simp only [linkFront, Function.update_of_ne hbh]
  rw [hprev]
  exact h.insertFront hb

/-- `unlink` is the removal of `Ring.unlink`. -/
theorem ring_unlink {c : BCache} {b : Node} {l : List Node} (h : Ring c.next c.prev head l)
    (hb : b ∈ l) : Ring (unlink c b).next (unlink c b).prev head (l.erase b) := by
  have hnext : (unlink c b).next = Function.update c.next (c.prev b) (c.next b) := by
    simp only [unlink, Function.update_of_ne (h.next_ne hb).symm]
  rw [hnext]
  exact h.unlink hb

/-- A buffer is a node other than the sentinel. -/
theorem mem_buffers (b : Node) : b ∈ (List.finRange nbuf).reverse.map Fin.castSucc ↔ b ≠ head := by
  simp only [List.mem_map, List.mem_reverse, List.mem_finRange, true_and]
  constructor
  · rintro ⟨i, rfl⟩
    exact Fin.castSucc_ne_last i
  · intro hb
    exact ⟨b.castPred hb, Fin.castSucc_castPred b hb⟩

/-- The loop of `binit` links each buffer in at the front in turn. -/
theorem ring_foldl_linkFront :
    ∀ (is : List (Fin nbuf)) {c : BCache} {l : List Node}, Ring c.next c.prev head l →
      (is.map Fin.castSucc ++ l).Nodup → head ∉ is.map Fin.castSucc →
      Ring (is.foldl (fun c i => linkFront c i.castSucc) c).next
        (is.foldl (fun c i => linkFront c i.castSucc) c).prev head
        ((is.map Fin.castSucc).reverse ++ l)
  | [], _, _, h, _, _ => h
  | i :: is, c, l, h, hnd, hh => by
    have hi : i.castSucc ∉ head :: l := by
      intro hmem
      rcases List.mem_cons.mp hmem with e | hil
      · exact hh (by rw [← e]; exact List.mem_cons_self)
      · exact (List.nodup_cons.mp hnd).1 (List.mem_append_right _ hil)
    have h' := ring_linkFront h hi
    have hnd' : (is.map Fin.castSucc ++ i.castSucc :: l).Nodup :=
      (List.perm_middle.nodup_iff).mpr hnd
    simpa using ring_foldl_linkFront is h' hnd' (fun e => hh (List.mem_cons_of_mem _ e))

theorem foldl_linkFront_buf :
    ∀ (is : List (Fin nbuf)) (c : BCache), (is.foldl (fun c i => linkFront c i.castSucc) c).buf = c.buf
  | [], _ => rfl
  | i :: is, c => foldl_linkFront_buf is (linkFront c i.castSucc)

theorem binit_buf (c : BCache) : (binit c).buf = c.buf :=
  foldl_linkFront_buf _ _

/-- After `binit` the ring holds every buffer, the last one first. -/
theorem ring_binit (c : BCache) :
    Ring (binit c).next (binit c).prev head ((List.finRange nbuf).reverse.map Fin.castSucc) := by
  have h₀ : Ring (Function.update c.next head head) (Function.update c.prev head head) head [] :=
    ⟨chain_nil.mpr ⟨Function.update_self _ _ _, Function.update_self _ _ _⟩, List.nodup_singleton _⟩
  have hnd : ((List.finRange nbuf).map Fin.castSucc ++ []).Nodup := by
    rw [List.append_nil]
    exact (List.nodup_finRange nbuf).map (Fin.castSucc_injective nbuf)
  have hh : head ∉ (List.finRange nbuf).map Fin.castSucc := by
    rw [List.mem_map]
    rintro ⟨i, -, hi⟩
    exact Fin.castSucc_ne_last i hi
  have h := ring_foldl_linkFront (List.finRange nbuf)
    (c := { c with next := Function.update c.next head head, prev := Function.update c.prev head head })
    h₀ hnd hh
  rw [List.append_nil, ← List.map_reverse] at h
  exact h

/-! ### `bget` and `bread` on the ring -/

theorem hit_iff (c : BCache) (dev blockno : UInt32) (b : Node) :
    ((c.buf b).dev == dev && (c.buf b).blockno == blockno) = true ↔ c.key b = (dev, blockno) := by
  simp [BCache.key]

/-- What `bget` does on a ring of at most `NBUF` buffers: a hit, a recycled buffer that no
reference holds, or the panic when every buffer is referenced. -/
theorem bget_cases {c : BCache} {l : List Node} (h : Ring c.next c.prev head l)
    (hlen : l.length ≤ nbuf) (dev blockno : UInt32) :
    (∃ b ∈ l, c.key b = (dev, blockno) ∧
      bget c dev blockno = some (.ok (c.setBuf b { c.buf b with refcnt := (c.buf b).refcnt + 1 }, b))) ∨
    ((∀ b ∈ l, c.key b ≠ (dev, blockno)) ∧ ∃ b ∈ l, (c.buf b).refcnt = 0 ∧
      bget c dev blockno =
        some (.ok (c.setBuf b { c.buf b with dev, blockno, valid := false, refcnt := 1 }, b))) ∨
    ((∀ b ∈ l, c.key b ≠ (dev, blockno)) ∧ (∀ b ∈ l, (c.buf b).refcnt ≠ 0) ∧
      bget c dev blockno = some (.error "bget: no buffers")) := by
  have hf : l.length < nbuf + 1 := Nat.lt_succ_of_le hlen
  unfold bget
  rw [h.scan_next _ hf, h.scan_prev _ hf]
  cases hhit : l.find? (fun b => (c.buf b).dev == dev && (c.buf b).blockno == blockno) with
  | some b =>
    left
    have hp := List.find?_some hhit
    exact ⟨b, List.mem_of_find?_eq_some hhit, (hit_iff c dev blockno b).mp hp, rfl⟩
  | none =>
    have hmiss : ∀ b ∈ l, c.key b ≠ (dev, blockno) := fun b hb hk =>
      List.find?_eq_none.mp hhit b hb ((hit_iff c dev blockno b).mpr hk)
    right
    cases hfree : l.reverse.find? (fun b => (c.buf b).refcnt == 0) with
    | some b =>
      left
      have hb := List.mem_reverse.mp (List.mem_of_find?_eq_some hfree)
      have hp := List.find?_some hfree
      exact ⟨hmiss, b, hb, by simpa using hp, rfl⟩
    | none =>
      right
      refine ⟨hmiss, fun b hb h0 => ?_, rfl⟩
      exact List.find?_eq_none.mp hfree b (List.mem_reverse.mpr hb) (by simpa using h0)

theorem setBuf_setBuf (c : BCache) (b : Node) (f g : Buf) :
    (c.setBuf b f).setBuf b g = c.setBuf b g := by
  simp only [BCache.setBuf, Function.update_idem]

/-- What `bread` does on a ring of at most `NBUF` buffers. -/
theorem bread_cases {c : BCache} {l : List Node} (h : Ring c.next c.prev head l)
    (hlen : l.length ≤ nbuf) (dev blockno : UInt32) :
    (∃ b ∈ l, c.key b = (dev, blockno) ∧ bread c dev blockno =
      some (.ok (c.setBuf b { c.buf b with refcnt := (c.buf b).refcnt + 1, valid := true }, b))) ∨
    ((∀ b ∈ l, c.key b ≠ (dev, blockno)) ∧ ∃ b ∈ l, (c.buf b).refcnt = 0 ∧
      bread c dev blockno = some (.ok (c.setBuf b ⟨dev, blockno, true, 1⟩, b))) ∨
    bread c dev blockno = some (.error "bget: no buffers") := by
  rcases bget_cases h hlen dev blockno with ⟨b, hb, hk, hg⟩ | ⟨hmiss, b, hb, h0, hg⟩ | ⟨-, -, hg⟩
  · left
    refine ⟨b, hb, hk, ?_⟩
    simp only [bread, hg, Option.map_some, Except.map, setBuf_setBuf, setBuf_buf,
      Function.update_self]
  · right; left
    refine ⟨hmiss, b, hb, h0, ?_⟩
    simp only [bread, hg, Option.map_some, Except.map, setBuf_setBuf, setBuf_buf,
      Function.update_self]
  · right; right
    simp only [bread, hg, Option.map_some, Except.map]

/-! ### The invariant -/

/-- The outstanding references of a buffer: its `bread`s not released since and its pins not
undone since. -/
def BioSys.refs (σ : BioSys) (b : Node) : ℕ := σ.held.count b + σ.pins.count b

/-- The ring holds every buffer once; `refcnt` counts the outstanding references modulo
`2^32`; a block `bget` gave a buffer is held by no other buffer; and only buffers are
assigned, held or pinned. -/
structure CacheInv (σ : BioSys) (l : List Node) : Prop where
  ring : Ring σ.cache.next σ.cache.prev head l
  mem : ∀ b, b ∈ l ↔ b ≠ head
  refcnt : ∀ b, b ≠ head → (σ.cache.buf b).refcnt.toNat = σ.refs b % 2 ^ 32
  unique : ∀ b b', σ.assigned b = true → b' ≠ b → b' ≠ head → σ.cache.key b' ≠ σ.cache.key b
  assigned_head : σ.assigned head = false
  held_head : head ∉ σ.held
  pins_head : head ∉ σ.pins

variable {σ : BioSys} {l : List Node}

theorem CacheInv.length_le (h : CacheInv σ l) : l.length ≤ nbuf := by
  have hcard := h.ring.nodup.length_le_card
  simp only [List.length_cons, Fintype.card_fin] at hcard
  omega

theorem cacheInv_boot (next prev : Node → Node) :
    CacheInv (BioSys.boot next prev) ((List.finRange nbuf).reverse.map Fin.castSucc) where
  ring := ring_binit _
  mem := mem_buffers
  refcnt b _ := by simp [BioSys.boot, binit_buf, BioSys.refs]
  unique b _ hb := by simp [BioSys.boot] at hb
  assigned_head := rfl
  held_head := List.not_mem_nil
  pins_head := List.not_mem_nil

theorem toNat_succ_mod {r : UInt32} {n : ℕ} (h : r.toNat = n % 2 ^ 32) :
    (r + 1).toNat = (n + 1) % 2 ^ 32 := by
  have h1 : (1 : UInt32).toNat = 1 := rfl
  rw [UInt32.toNat_add, h, h1, Nat.mod_add_mod]

theorem toNat_pred_mod {r : UInt32} {n : ℕ} (h : r.toNat = n % 2 ^ 32) (hn : 0 < n) :
    (r - 1).toNat = (n - 1) % 2 ^ 32 := by
  have h1 : (1 : UInt32).toNat = 1 := rfl
  rw [UInt32.toNat_sub, h, h1]
  omega

/-- A call that rewrites one buffer's fields, keeping its block, with `refcnt` right for the
references after it, and leaves the others alone. -/
theorem CacheInv.setBuf {σ' : BioSys} {l' : List Node} (h : CacheInv σ l) {b : Node}
    (hb : b ≠ head) {f : Buf} (hbuf : σ'.cache.buf = Function.update σ.cache.buf b f)
    (hkey : (f.dev, f.blockno) = σ.cache.key b) (hr : f.refcnt.toNat = σ'.refs b % 2 ^ 32)
    (hrefs : ∀ x, x ≠ b → σ'.refs x = σ.refs x)
    (hring : Ring σ'.cache.next σ'.cache.prev head l') (hmem : ∀ x, x ∈ l' ↔ x ∈ l)
    (hassigned : σ'.assigned = σ.assigned) (hheld : head ∉ σ'.held) (hpins : head ∉ σ'.pins) :
    CacheInv σ' l' := by
  have hk : σ'.cache.key = σ.cache.key := by
    funext x
    by_cases hx : x = b
    · subst hx
      simp only [BCache.key, hbuf, Function.update_self] at hkey ⊢
      exact hkey
    · simp only [BCache.key, hbuf, Function.update_of_ne hx]
  refine ⟨hring, fun x => (hmem x).trans (h.mem x), fun x hx => ?_, ?_, hassigned ▸ h.assigned_head,
    hheld, hpins⟩
  · by_cases hxb : x = b
    · subst hxb
      rw [hbuf, Function.update_self, hr]
    · rw [hbuf, Function.update_of_ne hxb, hrefs x hxb]
      exact h.refcnt x hx
  · rw [hk, hassigned]
    exact h.unique

/-! ### Each call keeps the invariant -/

theorem CacheInv.bread_hit (h : CacheInv σ l) {b : Node} (hb : b ∈ l) :
    CacheInv
      ⟨σ.cache.setBuf b
        { σ.cache.buf b with refcnt := (σ.cache.buf b).refcnt + 1, valid := true },
        b :: σ.held, σ.pins, σ.assigned⟩ l := by
  have hbh := (h.mem b).mp hb
  refine h.setBuf hbh rfl rfl ?_ (fun x hx => ?_) h.ring (fun _ => Iff.rfl) rfl ?_ h.pins_head
  · rw [toNat_succ_mod (h.refcnt b hbh)]
    simp only [BioSys.refs, List.count_cons_self]
    omega
  · simp only [BioSys.refs, List.count_cons_of_ne (Ne.symm hx)]
  · rintro (_ | ⟨_, hh⟩)
    · exact hbh rfl
    · exact h.held_head hh

theorem CacheInv.bread_recycle (h : CacheInv σ l) {b : Node} (hb : b ∈ l) {dev blockno : UInt32}
    (hmiss : ∀ x ∈ l, σ.cache.key x ≠ (dev, blockno)) (h0 : (σ.cache.buf b).refcnt = 0) :
    CacheInv ⟨σ.cache.setBuf b ⟨dev, blockno, true, 1⟩, b :: σ.held, σ.pins,
      Function.update σ.assigned b true⟩ l := by
  have hbh := (h.mem b).mp hb
  have hkey : ∀ x, (σ.cache.setBuf b ⟨dev, blockno, true, 1⟩).key x =
      if x = b then (dev, blockno) else σ.cache.key x := by
    intro x
    by_cases hx : x = b
    · subst hx
      simp [BCache.key]
    · simp [BCache.key, hx]
  refine ⟨h.ring, h.mem, fun x hx => ?_, fun x y hx hyx hy => ?_, ?_, ?_, h.pins_head⟩
  · by_cases hxb : x = b
    · subst hxb
      have hr := h.refcnt x hx
      rw [h0] at hr
      simp only [setBuf_buf, Function.update_self, BioSys.refs, List.count_cons_self]
      simp only [BioSys.refs, UInt32.toNat_zero] at hr
      show 1 = _
      omega
    · simp only [setBuf_buf, Function.update_of_ne hxb, BioSys.refs,
        List.count_cons_of_ne (Ne.symm hxb)]
      exact h.refcnt x hx
  · have hy' : y ∈ l := (h.mem y).mpr hy
    rw [hkey, hkey]
    by_cases hxb : x = b
    · subst hxb
      rw [if_neg hyx, if_pos rfl]
      exact hmiss y hy'
    · have hx' : σ.assigned x = true := by simpa [Function.update_of_ne hxb] using hx
      have hxh : x ≠ head := fun e => by rw [e, h.assigned_head] at hx'; cases hx'
      rw [if_neg hxb]
      by_cases hyb : y = b
      · rw [if_pos hyb]
        exact fun e => hmiss x ((h.mem x).mpr hxh) e.symm
      · rw [if_neg hyb]
        exact h.unique x y hx' hyx hy
  · show Function.update σ.assigned b true head = false
    rw [Function.update_of_ne (Ne.symm hbh)]
    exact h.assigned_head
  · rintro (_ | ⟨_, hh⟩)
    · exact hbh rfl
    · exact h.held_head hh

theorem mem_cons_erase {b : Node} {l : List Node} (hb : b ∈ l) (x : Node) :
    x ∈ b :: l.erase b ↔ x ∈ l :=
  (List.perm_cons_erase hb).mem_iff.symm

theorem CacheInv.brelse (h : CacheInv σ l) {b : Node} (hb : b ∈ σ.held) :
    ∃ l', CacheInv ⟨Bio.brelse σ.cache b, σ.held.erase b, σ.pins, σ.assigned⟩ l' := by
  have hbh : b ≠ head := fun e => h.held_head (e ▸ hb)
  have hbl : b ∈ l := (h.mem b).mpr hbh
  have hpos : 0 < σ.held.count b := List.count_pos_iff.mpr hb
  have hr : ((σ.cache.buf b).refcnt - 1).toNat =
      (⟨Bio.brelse σ.cache b, σ.held.erase b, σ.pins, σ.assigned⟩ : BioSys).refs b % 2 ^ 32 := by
    rw [toNat_pred_mod (h.refcnt b hbh) (by simp only [BioSys.refs]; omega)]
    simp only [BioSys.refs, List.count_erase_self]
    congr 1
    omega
  have hrefs : ∀ x, x ≠ b →
      (⟨Bio.brelse σ.cache b, σ.held.erase b, σ.pins, σ.assigned⟩ : BioSys).refs x = σ.refs x := by
    intro x hx
    simp only [BioSys.refs, List.count_erase_of_ne hx]
  have hheld : head ∉ σ.held.erase b := fun hh => h.held_head (List.mem_of_mem_erase hh)
  by_cases h0 : (σ.cache.buf b).refcnt - 1 = 0
  · -- the last reference goes: the buffer moves to the front
    have hnot : b ∉ head :: l.erase b := by
      rintro (_ | ⟨_, hbe⟩)
      · exact hbh rfl
      · exact (List.nodup_cons.mp h.ring.nodup).2.not_mem_erase hbe
    refine ⟨b :: l.erase b, h.setBuf hbh (f := { σ.cache.buf b with refcnt := (σ.cache.buf b).refcnt - 1 })
      ?_ rfl hr hrefs ?_ (mem_cons_erase hbl) rfl hheld h.pins_head⟩
    · simp [Bio.brelse, h0]
    · have hring : Ring (σ.cache.setBuf b { σ.cache.buf b with refcnt := (σ.cache.buf b).refcnt - 1 }).next
          (σ.cache.setBuf b { σ.cache.buf b with refcnt := (σ.cache.buf b).refcnt - 1 }).prev head l :=
        h.ring
      have hring' := ring_linkFront (ring_unlink hring hbl) hnot
      simpa [Bio.brelse, h0] using hring'
  · refine ⟨l, h.setBuf hbh (f := { σ.cache.buf b with refcnt := (σ.cache.buf b).refcnt - 1 })
      ?_ rfl hr hrefs ?_ (fun _ => Iff.rfl) rfl hheld h.pins_head⟩
    · simp [Bio.brelse, h0]
    · simpa [Bio.brelse, h0] using h.ring

theorem CacheInv.bpin (h : CacheInv σ l) (b : Fin nbuf) :
    CacheInv ⟨Bio.bpin σ.cache b.castSucc, σ.held, b.castSucc :: σ.pins, σ.assigned⟩ l := by
  have hbh : b.castSucc ≠ head := Fin.castSucc_ne_last b
  refine h.setBuf hbh rfl rfl ?_ (fun x hx => ?_) h.ring (fun _ => Iff.rfl) rfl h.held_head ?_
  · rw [toNat_succ_mod (h.refcnt _ hbh)]
    simp only [BioSys.refs, List.count_cons_self]
    omega
  · simp only [BioSys.refs, List.count_cons_of_ne (Ne.symm hx)]
  · intro hmem
    rcases List.mem_cons.mp hmem with e | hh
    · exact hbh e.symm
    · exact h.pins_head hh

theorem CacheInv.bunpin (h : CacheInv σ l) {b : Node} (hb : b ∈ σ.pins) :
    CacheInv ⟨Bio.bunpin σ.cache b, σ.held, σ.pins.erase b, σ.assigned⟩ l := by
  have hbh : b ≠ head := fun e => h.pins_head (e ▸ hb)
  have hpos : 0 < σ.pins.count b := List.count_pos_iff.mpr hb
  refine h.setBuf hbh rfl rfl ?_ (fun x hx => ?_) h.ring (fun _ => Iff.rfl) rfl h.held_head
    (fun hh => h.pins_head (List.mem_of_mem_erase hh))
  · rw [toNat_pred_mod (h.refcnt b hbh) (by simp only [BioSys.refs]; omega)]
    simp only [BioSys.refs, List.count_erase_self]
    congr 1
    omega
  · simp only [BioSys.refs, List.count_erase_of_ne hx]

/-- Every call keeps the invariant, for some order of the ring. -/
theorem CacheInv.step (h : CacheInv σ l) {op : Op} {σ' : BioSys}
    (hst : σ.step op = some (.ok σ')) : ∃ l', CacheInv σ' l' := by
  cases op with
  | bread dev blockno =>
    rcases bread_cases h.ring h.length_le dev blockno with
      ⟨b, hb, hk, hr⟩ | ⟨hmiss, b, hb, h0, hr⟩ | hr
    · simp only [BioSys.step, hr, Option.map_some, Except.map, hk, if_true, Option.some.injEq,
        Except.ok.injEq] at hst
      subst hst
      exact ⟨l, h.bread_hit hb⟩
    · simp only [BioSys.step, hr, Option.map_some, Except.map, if_neg (hmiss b hb),
        Option.some.injEq, Except.ok.injEq] at hst
      subst hst
      exact ⟨l, h.bread_recycle hb hmiss h0⟩
    · simp [BioSys.step, hr, Except.map] at hst
  | brelse b =>
    by_cases hb : b ∈ σ.held
    · simp only [BioSys.step, if_pos hb, Option.some.injEq, Except.ok.injEq] at hst
      subst hst
      exact h.brelse hb
    · simp [BioSys.step, hb] at hst
  | bpin b =>
    simp only [BioSys.step, Option.some.injEq, Except.ok.injEq] at hst
    subst hst
    exact ⟨l, h.bpin b⟩
  | bunpin b =>
    by_cases hb : b ∈ σ.pins
    · simp only [BioSys.step, if_pos hb, Option.some.injEq, Except.ok.injEq] at hst
      subst hst
      exact ⟨l, h.bunpin hb⟩
    · simp [BioSys.step, hb] at hst

/-! ### Runs -/

theorem cacheInv_of_reachable {next prev : Node → Node} {σ : BioSys}
    (hσ : Interleave.Reachable BioSys.step (BioSys.boot next prev) σ) : ∃ l, CacheInv σ l :=
  hσ.induction ⟨_, cacheInv_boot next prev⟩ fun _ _ _ ⟨_, h⟩ hst => h.step hst

/-- `bget` gives a buffer a new block only when nothing references the buffer. -/
theorem CacheInv.bread_recycles_unreferenced (h : CacheInv σ l) {dev blockno : UInt32}
    {c' : BCache} {b : Node} (hr : bread σ.cache dev blockno = some (.ok (c', b)))
    (hk : σ.cache.key b ≠ (dev, blockno)) : (σ.cache.buf b).refcnt = 0 := by
  rcases bread_cases h.ring h.length_le dev blockno with
    ⟨b', -, hk', hr'⟩ | ⟨-, b', -, h0, hr'⟩ | hr'
  · rw [hr] at hr'
    cases hr'
    exact absurd hk' hk
  · rw [hr] at hr'
    cases hr'
    exact h0
  · rw [hr] at hr'
    cases hr'

/-- A ring of all the buffers has all `NBUF` of them. -/
theorem CacheInv.length_eq (h : CacheInv σ l) : l.length = nbuf := by
  have hperm : l.Perm ((List.finRange nbuf).reverse.map Fin.castSucc) := by
    refine (List.perm_ext_iff_of_nodup (List.nodup_cons.mp h.ring.nodup).2 ?_).mpr fun b => ?_
    · exact (List.nodup_reverse.mpr (List.nodup_finRange nbuf)).map (Fin.castSucc_injective nbuf)
    · rw [h.mem b, mem_buffers]
  simpa using hperm.length_eq

/-- **The buffer cache keeps its structure.** In every state of any run of `bread`, `brelse`,
`bpin` and `bunpin` from boot, in which each `brelse` and `bunpin` undoes an outstanding
`bread` or `bpin`: the `next` links from `bcache.head` go round a ring of all `NBUF` buffers,
each once, and back to the sentinel, with `b->next->prev == b` at every node; no other buffer
holds a block that `bget` gave a buffer; each buffer's `refcnt` is the number of its
outstanding `bread`s and pins, modulo `2^32`; and `bget` gives a buffer a new block only if
its `refcnt` is `0`. -/
theorem buffer_cache_structure {next prev : Node → Node} {σ : BioSys}
    (hσ : Interleave.Reachable BioSys.step (BioSys.boot next prev) σ) :
    (∃ l, Ring σ.cache.next σ.cache.prev head l ∧ l.length = nbuf ∧ ∀ b, b ∈ l ↔ b ≠ head) ∧
      (∀ x, σ.cache.prev (σ.cache.next x) = x) ∧
      (∀ b b', σ.assigned b = true → b' ≠ b → b' ≠ head → σ.cache.key b' ≠ σ.cache.key b) ∧
      (∀ b, b ≠ head →
        (σ.cache.buf b).refcnt.toNat = (σ.held.count b + σ.pins.count b) % 2 ^ 32) ∧
      (∀ dev blockno c' b, bread σ.cache dev blockno = some (.ok (c', b)) →
        σ.cache.key b ≠ (dev, blockno) → (σ.cache.buf b).refcnt = 0) := by
  obtain ⟨l, h⟩ := cacheInv_of_reachable hσ
  refine ⟨⟨l, h.ring, h.length_eq, h.mem⟩, fun x => ?_, h.unique, h.refcnt,
    fun _ _ _ _ hr hk => h.bread_recycles_unreferenced hr hk⟩
  apply h.ring.chain.prev_next
  by_cases hx : x = head
  · exact hx ▸ List.mem_cons_self
  · exact List.mem_cons_of_mem _ ((h.mem x).mpr hx)

/-- Blocks 5 and 7 read, block 7's buffer pinned as `log_write` pins it, both released; block 5
read again from the cache, block 9 read into a recycled buffer, block 7 unpinned and read
again from the cache, and block 5 released. -/
def bioOps : List Op :=
  [.bread 1 5, .bread 1 7, .bpin ⟨1, by decide⟩, .brelse 1, .brelse 0, .bread 1 5, .bread 1 9,
    .bunpin 1, .bread 1 7, .brelse 0]

/-- The state `bioOps` ends in, from boot with the links all at the sentinel. -/
def bioRun : BioSys := Interleave.runState BioSys.step (BioSys.boot (fun _ => head) (fun _ => head)) bioOps

theorem buffer_cache_structure_run :
    Interleave.Reachable BioSys.step (BioSys.boot (fun _ => head) (fun _ => head)) bioRun ∧
      (∃ l, Ring bioRun.cache.next bioRun.cache.prev head l ∧ l.length = nbuf ∧
          ∀ b, b ∈ l ↔ b ≠ head) ∧
      (∀ x, bioRun.cache.prev (bioRun.cache.next x) = x) ∧
      (∀ b b', bioRun.assigned b = true → b' ≠ b → b' ≠ head →
        bioRun.cache.key b' ≠ bioRun.cache.key b) ∧
      (∀ b, b ≠ head →
        (bioRun.cache.buf b).refcnt.toNat = (bioRun.held.count b + bioRun.pins.count b) % 2 ^ 32) ∧
      (∀ dev blockno c' b, bread bioRun.cache dev blockno = some (.ok (c', b)) →
        bioRun.cache.key b ≠ (dev, blockno) → (bioRun.cache.buf b).refcnt = 0) :=
  have hσ := Interleave.reachable_runState bioOps (by decide +kernel)
  ⟨hσ, buffer_cache_structure hσ⟩

example : bioRun.held = [1, 2] ∧ (bioRun.cache.buf 1).refcnt = 1 ∧ bioRun.cache.key 2 = (1, 9) := by
  decide +kernel

/-! ### `refcnt` wraps -/

/-- Boot with the links all at the sentinel, and then `k` pins of buffer `0`. -/
def pinnedState (k : ℕ) : BioSys :=
  let σ := BioSys.boot (fun _ => head) (fun _ => head)
  { σ with
    cache := σ.cache.setBuf 0 ⟨0, 0, false, k.toUInt32⟩
    pins := List.replicate k 0 }

theorem pinnedState_zero : pinnedState 0 = BioSys.boot (fun _ => head) (fun _ => head) := by
  have hbuf : (BioSys.boot (fun _ => head) (fun _ => head)).cache.buf 0 = ⟨0, 0, false, 0⟩ := by
    simp [BioSys.boot, binit_buf]
  have hpins : (BioSys.boot (fun _ => head) (fun _ => head)).pins = [] := rfl
  have h0 : (0 : ℕ).toUInt32 = 0 := rfl
  -- keep the boot state abstract: unfolding `binit` is not needed and is slow
  simp only [pinnedState, h0, List.replicate_zero]
  generalize BioSys.boot (fun _ => head) (fun _ => head) = σ at hbuf hpins ⊢
  obtain ⟨⟨buf, next, prev⟩, held, pins, assigned⟩ := σ
  subst hpins
  simp only [BCache.setBuf] at hbuf ⊢
  rw [← hbuf, Function.update_eq_self]

theorem step_pinnedState (k : ℕ) :
    (pinnedState k).step (.bpin ⟨0, by decide⟩) = some (.ok (pinnedState (k + 1))) := by
  have hk : (k + 1).toUInt32 = k.toUInt32 + 1 := by
    simp only [Nat.toUInt32_eq, UInt32.ofNat_add]
    rfl
  have h0 : (⟨0, by decide⟩ : Fin nbuf).castSucc = 0 := rfl
  simp only [BioSys.step, pinnedState, Bio.bpin, h0, setBuf_setBuf, setBuf_buf,
    Function.update_self, hk, List.replicate_succ]

theorem reachable_pinnedState (k : ℕ) :
    Interleave.Reachable BioSys.step (BioSys.boot (fun _ => head) (fun _ => head)) (pinnedState k) := by
  induction k with
  | zero => exact pinnedState_zero ▸ .refl
  | succ k ih => exact ih.step (step_pinnedState k)

/-- **A matched `bunpin` takes `refcnt` below zero.** After `2^32` pins of buffer `0` its
`uint` `refcnt` has wrapped to `0` with `2^32` pins outstanding, and the `bunpin` of one of
them sets it to `2^32 - 1`, which as an `int` is `-1`. -/
theorem bunpin_wraps_refcnt :
    ∃ σ, Interleave.Reachable BioSys.step (BioSys.boot (fun _ => head) (fun _ => head)) σ ∧
      σ.pins.count 0 = 2 ^ 32 ∧ (σ.cache.buf 0).refcnt = 0 ∧
      ∃ σ', σ.step (.bunpin 0) = some (.ok σ') ∧ (σ'.cache.buf 0).refcnt = 4294967295 := by
  have hmem : (0 : Node) ∈ (pinnedState (2 ^ 32)).pins := by
    simp only [pinnedState, List.mem_replicate]
    exact ⟨by decide, trivial⟩
  refine ⟨pinnedState (2 ^ 32), reachable_pinnedState _, ?_, ?_,
    { pinnedState (2 ^ 32) with
      cache := bunpin (pinnedState (2 ^ 32)).cache 0
      pins := (pinnedState (2 ^ 32)).pins.erase 0 }, ?_, ?_⟩
  · simp only [pinnedState, List.count_replicate_self]
  · simp only [pinnedState, setBuf_buf, Function.update_self]
    rfl
  · rw [BioSys.step, if_pos hmem]
  · simp only [Bio.bunpin, pinnedState, setBuf_buf, Function.update_self]
    rfl

end Xv6Lab.Bio
