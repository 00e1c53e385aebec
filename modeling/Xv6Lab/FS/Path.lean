import Xv6Lab.FS.Safety
import Mathlib.Data.List.TakeWhile

/-!
# Path names (`skipelem`, `namex`, `dirlookup` and `namecmp` of `kernel/fs.c`)

A path is a C string: the bytes before its NUL (`CStr`). A `char *` into it is the suffix it
points to, so that reading past the last byte reads the NUL. `skipelem` copies the next
element of the path into `char name[DIRSIZ]`, in full when it has `DIRSIZ` bytes or more and
followed by a NUL otherwise, and returns the rest of the path without its leading slashes.
`namex` walks from the root or from the current directory, an element at a time: `ilock`
for the type, then `dirlookup`, which reads the entries of the directory with `readi` and
compares names with `namecmp`, a `strncmp` over `DIRSIZ` bytes.

The in-memory inode cache is left out (`iget`, `idup`, `iput` and their reference counts):
`namex` returns an inode number, and `none` for a return of `0`. The loops run on fuel: one
pass per byte of the path, and one per entry of a directory.

* `skipelem_eq_none_iff`, `skipelem_eq_some` — `skipelem` takes the first of the maximal
  runs of bytes other than `'/'` (`components`, from `List.splitOn`), truncated to `DIRSIZ`;
* `namecmp_eq_zero_iff` — `namecmp` compares two names as C strings of at most `DIRSIZ`
  bytes, so `dirlookup` sees only that much of a name (`dirlookup_congr`);
* `namexLoop_eq_resolve` — `namex` is the walk `resolve` along the truncated components;
* `resolve_parent` — for `nameiparent` the walk stops one component early;
* `path_resolution_by_components` — all of it together: paths with the same truncated
  components resolve alike, and `nameiparent` leaves the last one in `name`.
-/

namespace Xv6Lab.FS

/-! ### C strings -/

/-- `'/'`. -/
def slash : UInt8 := 47

/-- A C string: the bytes before its NUL. -/
structure CStr where
  bytes : List UInt8
  nul_free : 0 ∉ bytes

/-- `*p`: the next byte, or the NUL after the last one. -/
def CStr.deref (p : CStr) : UInt8 := p.bytes.headD 0

/-- `while(q(*p)) p++;` for a test `q` that the NUL fails. -/
def CStr.dropWhile (p : CStr) (q : UInt8 → Bool) : CStr :=
  ⟨p.bytes.dropWhile q, fun h => p.nul_free ((List.dropWhile_suffix q).subset h)⟩

/-- `char name[DIRSIZ]`. -/
abbrev Name := Fin dirsiz → UInt8

/-- The C string a name holds: its bytes up to the first NUL, all `DIRSIZ` if it has none. -/
def Name.str (name : Name) : List UInt8 := (List.ofFn name).takeWhile (· != 0)

/-- A name holding the bytes of `t`, NUL after them. -/
def Name.ofStr (t : List UInt8) : Name := fun i => t.getD i 0

/-! ### `skipelem` -/

/-- `skipelem(path, name)`, `none` for a return of `0`: the rest of the path and the name
with the element copied in. -/
def skipelem (path : CStr) (name : Name) : Option (CStr × Name) :=
  let path := path.dropWhile (· == slash)
  if path.deref = 0 then none
  else
    let s := path
    let path := path.dropWhile fun c => c != slash && c != 0
    let len := s.bytes.length - path.bytes.length
    let name : Name :=
      if len ≥ dirsiz then fun i => s.bytes.getD i 0
      else fun i => if i.val < len then s.bytes.getD i 0 else if i.val = len then 0 else name i
    some (path.dropWhile (· == slash), name)

/-! ### `namecmp` -/

/-- `strncmp(p, q, n)` on the bytes from `p` and from `q`. -/
def strncmp : List UInt8 → List UInt8 → ℕ → ℤ
  | _, _, 0 => 0
  | p, q, n + 1 =>
    if p.headD 0 ≠ 0 ∧ p.headD 0 = q.headD 0 then strncmp p.tail q.tail n
    else ((p.headD 0).toNat : ℤ) - (q.headD 0).toNat

/-- `namecmp(s, t)`. -/
def namecmp (s t : Name) : ℤ := strncmp (List.ofFn s) (List.ofFn t) dirsiz

/-! ### `dirlookup` -/

/-- `sizeof(struct dirent)`. -/
def direntSize : ℕ := 16

/-- `struct dirent`: a little-endian `ushort inum`, then `char name[DIRSIZ]`. -/
structure Dirent where
  inum : ℕ
  name : Name

/-- The `struct dirent` in the bytes at `p`. -/
def Dirent.read (bytes : ℕ → UInt8) (p : ℕ) : Dirent :=
  ⟨(bytes p).toNat + 256 * (bytes (p + 1)).toNat, fun i => bytes (p + 2 + i)⟩

/-- `struct dirent de` on the kernel stack: `readi(dp, 0, (uint64)&de, off, sizeof(de))`
copies into kernel memory at `&de`, here address `0`. -/
def deBuf : Mem := ⟨false, fun _ => 0, fun _ => false⟩

/-- The loop of `dirlookup` from entry offset `off`: the inode number of the first entry in
use whose name `namecmp` finds equal, with the directory's inode and the disk after the
reads. -/
def dirlookupLoop (sb : Superblock) (name : Name) :
    ℕ → UInt32 → Inode → Fs → Option (Except String (Option ℕ × Inode × Fs))
  | 0, _, _, _ => none
  | fuel + 1, off, dp, s =>
    if off < dp.size then
      match readi sb dp deBuf 0 off direntSize.toUInt32 s with
      | .error e => some (.error e)
      | .ok (n, dp, s, mem) =>
        if n ≠ (direntSize : ℤ) then some (.error "dirlookup read")
        else
          let de := Dirent.read mem.bytes 0
          if de.inum = 0 then dirlookupLoop sb name fuel (off + direntSize.toUInt32) dp s
          else if namecmp name de.name = 0 then some (.ok (some de.inum, dp, s))
          else dirlookupLoop sb name fuel (off + direntSize.toUInt32) dp s
    else some (.ok (none, dp, s))

/-- `dirlookup(dp, name, 0)`: the inode number the entry `name` of directory `dp` names,
`none` if there is none. -/
def dirlookup (sb : Superblock) (σ : FsState) (dp : ℕ) (name : Name) :
    Option (Except String (Option ℕ × FsState)) :=
  let ip := σ.inodes dp
  if ip.type ≠ .dir then some (.error "dirlookup not DIR")
  else
    (dirlookupLoop sb name (ip.size.toNat / direntSize + 2) 0 ip σ.fs).map
      (·.map fun r => (r.1, ⟨r.2.2, Function.update σ.inodes dp r.2.1⟩))

/-! ### `namex` -/

/-- The type `ilock(ip)` finds, or its panic for an inode that has none. -/
def ilock (σ : FsState) (ip : ℕ) : Except String IType :=
  if (σ.inodes ip).type = .free then .error "ilock: no type" else .ok (σ.inodes ip).type

/-- The loop of `namex` at inode `ip`: the inode it returns (`none` for `0`), the name
buffer and the state. -/
def namexLoop (sb : Superblock) (nameiparent : Bool) :
    ℕ → CStr → Name → ℕ → FsState → Option (Except String (Option ℕ × Name × FsState))
  | 0, _, _, _, _ => none
  | fuel + 1, path, name, ip, σ =>
    match skipelem path name with
    | none => some (.ok (if nameiparent then none else some ip, name, σ))
    | some (path, name) =>
      match ilock σ ip with
      | .error e => some (.error e)
      | .ok type =>
        if type ≠ .dir then some (.ok (none, name, σ))
        -- stop one level early
        else if nameiparent ∧ path.deref = 0 then some (.ok (some ip, name, σ))
        else
          match dirlookup sb σ ip name with
          | none => none
          | some (.error e) => some (.error e)
          | some (.ok (none, σ)) => some (.ok (none, name, σ))
          | some (.ok (some next, σ)) => namexLoop sb nameiparent fuel path name next σ

/-- The inode `namex` starts from: the root for a path that starts with `'/'`, the current
directory otherwise. -/
def startIno (cwd : ℕ) (path : CStr) : ℕ := if path.deref = slash then rootino else cwd

/-- `namex(path, nameiparent, name)` for a process whose current directory is `cwd`. -/
def namex (sb : Superblock) (σ : FsState) (cwd : ℕ) (path : CStr) (nameiparent : Bool)
    (name : Name) : Option (Except String (Option ℕ × Name × FsState)) :=
  namexLoop sb nameiparent (path.bytes.length + 1) path name (startIno cwd path) σ

/-- `namei(path)`, with whatever its local `name` holds. -/
def namei (sb : Superblock) (σ : FsState) (cwd : ℕ) (path : CStr) (name : Name) :
    Option (Except String (Option ℕ × FsState)) :=
  (namex sb σ cwd path false name).map (·.map fun r => (r.1, r.2.2))

/-- `nameiparent(path, name)`. -/
def nameiparent (sb : Superblock) (σ : FsState) (cwd : ℕ) (path : CStr) (name : Name) :
    Option (Except String (Option ℕ × Name × FsState)) :=
  namex sb σ cwd path true name

/-! ### Components and the walk along them -/

/-- The maximal non-empty runs of bytes other than `'/'`, in order. -/
def components (path : List UInt8) : List (List UInt8) :=
  (path.splitOn slash).filter fun w => !w.isEmpty

/-- The components of a path, each truncated to `DIRSIZ` bytes. -/
def truncComps (path : CStr) : List (List UInt8) :=
  (components path.bytes).map (·.take dirsiz)

/-- The walk of `namex` along a list of names: at each, `ilock`, the type test and, for
`nameiparent`, the stop before the last, then `dirlookup`. -/
def resolve (sb : Superblock) (nameiparent : Bool) :
    List (List UInt8) → ℕ → FsState → Option (Except String (Option ℕ × FsState))
  | [], ip, σ => some (.ok (if nameiparent then none else some ip, σ))
  | t :: ts, ip, σ =>
    match ilock σ ip with
    | .error e => some (.error e)
    | .ok type =>
      if type ≠ .dir then some (.ok (none, σ))
      else if nameiparent ∧ ts = [] then some (.ok (some ip, σ))
      else
        match dirlookup sb σ ip (Name.ofStr t) with
        | none => none
        | some (.error e) => some (.error e)
        | some (.ok (none, σ)) => some (.ok (none, σ))
        | some (.ok (some next, σ)) => resolve sb nameiparent ts next σ

/-- The last step of `nameiparent`: the inode the walk reached, if `ilock` finds a
directory there. -/
def parentStep (r : Option (Except String (Option ℕ × FsState))) :
    Option (Except String (Option ℕ × FsState)) :=
  r.map fun e => e.bind fun
    | (none, σ) => .ok (none, σ)
    | (some ip, σ) => (ilock σ ip).map fun type => (if type = .dir then some ip else none, σ)

/-! ### Components -/

section Components

theorem components_nil : components [] = [] := rfl

theorem components_slash_cons (l : List UInt8) : components (slash :: l) = components l := by
  have h := List.splitOn_append_cons_self_of_not_mem (a := slash) (List.not_mem_nil) l
  rw [List.nil_append] at h
  simp [components, h]

theorem components_dropWhile (l : List UInt8) :
    components (l.dropWhile (· == slash)) = components l := by
  induction l with
  | nil => rfl
  | cons c l ih =>
    by_cases hc : c = slash
    · subst hc
      rw [List.dropWhile_cons_of_pos (by simp), ih, components_slash_cons]
    · rw [List.dropWhile_cons_of_neg (by simpa using hc)]

/-- A run followed by the end or by a slash is the first component. -/
theorem components_append {w r : List UInt8} (hw : w ≠ []) (hs : slash ∉ w)
    (hr : ∀ c ∈ r.head?, c = slash) : components (w ++ r) = w :: components r := by
  have hne : (!w.isEmpty) = true := by simpa using hw
  cases r with
  | nil => simp [components, List.splitOn_eq_singleton hs, hne]
  | cons c r =>
    obtain rfl : c = slash := hr c rfl
    rw [components_slash_cons, components, List.splitOn_append_cons_self_of_not_mem hs]
    simp only [List.filter_cons, hne, ↓reduceIte]
    rfl

/-- The first component of a path that starts with a byte other than `'/'`. -/
theorem components_cons_of_ne {c : UInt8} (hc : c ≠ slash) (l : List UInt8) :
    components (c :: l) =
      (c :: l).takeWhile (· != slash) :: components ((c :: l).dropWhile (· != slash)) := by
  conv_lhs => rw [← List.takeWhile_append_dropWhile (p := (· != slash)) (l := c :: l)]
  refine components_append ?_ ?_ ?_
  · simp [hc]
  · exact fun h => by simpa using List.mem_takeWhile_imp h
  · intro x hx
    have h := List.head?_dropWhile_not (· != slash) (c :: l)
    rw [Option.mem_def.mp hx] at h
    simpa using h

/-- A path of slashes has no components. -/
theorem components_eq_nil_iff {l : List UInt8} : components l = [] ↔ ∀ c ∈ l, c = slash := by
  induction l with
  | nil => simp [components_nil]
  | cons c l ih =>
    by_cases hc : c = slash
    · subst hc
      simp [components_slash_cons, ih]
    · rw [components_cons_of_ne hc]
      simp [hc]

end Components

/-! ### What `skipelem` returns -/

section Skipelem

theorem takeWhile_congr_of_mem {p q : UInt8 → Bool} :
    ∀ {l : List UInt8}, (∀ x ∈ l, p x = q x) → l.takeWhile p = l.takeWhile q
  | [], _ => rfl
  | a :: l, h => by
    simp only [List.takeWhile_cons, h a List.mem_cons_self,
      takeWhile_congr_of_mem fun x hx => h x (List.mem_cons_of_mem a hx)]

theorem dropWhile_congr_of_mem {p q : UInt8 → Bool} :
    ∀ {l : List UInt8}, (∀ x ∈ l, p x = q x) → l.dropWhile p = l.dropWhile q
  | [], _ => rfl
  | a :: l, h => by
    simp only [List.dropWhile_cons, h a List.mem_cons_self,
      dropWhile_congr_of_mem fun x hx => h x (List.mem_cons_of_mem a hx)]

theorem CStr.ne_zero (p : CStr) {c : UInt8} (h : c ∈ p.bytes) : c ≠ 0 :=
  fun h0 => p.nul_free (h0 ▸ h)

theorem CStr.deref_eq_zero_iff (p : CStr) : p.deref = 0 ↔ p.bytes = [] := by
  rcases p with ⟨_ | ⟨c, l⟩, hp⟩
  · simp [CStr.deref]
  · simpa [CStr.deref] using fun h : c = 0 => hp (h ▸ List.mem_cons_self)

/-- After the slashes are skipped the string starts with a byte other than `'/'`. -/
theorem CStr.deref_dropWhile_slash (p : CStr) : (p.dropWhile (· == slash)).deref ≠ slash := by
  have h := List.head?_dropWhile_not (· == slash) p.bytes
  simp only [CStr.deref, CStr.dropWhile]
  cases hd : p.bytes.dropWhile (· == slash) with
  | nil => decide
  | cons c l => simpa [hd] using h

/-- On a C string the test of the loop over an element's bytes is the test for `'/'`. -/
theorem name_test_eq (p : CStr) :
    ∀ x ∈ p.bytes, (x != slash && x != 0) = (x != slash) := by
  intro x hx
  simp [p.ne_zero hx]

/-- `skipelem` returns `0` exactly when nothing but slashes is left. -/
theorem skipelem_eq_none_iff {path : CStr} {name : Name} :
    skipelem path name = none ↔ ∀ c ∈ path.bytes, c = slash := by
  have h : skipelem path name = none ↔ (path.dropWhile (· == slash)).deref = 0 := by
    unfold skipelem
    dsimp only
    split_ifs with h <;> simp [h]
  rw [h, CStr.deref_eq_zero_iff]
  simp [CStr.dropWhile, List.dropWhile_eq_nil_iff]

/-- A string that starts with a byte other than `'/'` and NUL splits into its first
element, the bytes up to a slash or the end, and the rest; the element is the first
component and the rest holds the others. -/
theorem CStr.split_elem (p : CStr) (hz : p.deref ≠ 0) (hs : p.deref ≠ slash) :
    p.bytes = p.bytes.takeWhile (· != slash) ++ (p.dropWhile fun c => c != slash && c != 0).bytes ∧
      p.bytes.takeWhile (· != slash) ≠ [] ∧ 0 ∉ p.bytes.takeWhile (· != slash) ∧
      components p.bytes = p.bytes.takeWhile (· != slash) ::
        components (p.dropWhile fun c => c != slash && c != 0).bytes := by
  obtain ⟨c, l, hcl⟩ : ∃ c l, p.bytes = c :: l := by
    cases h : p.bytes with
    | nil => exact absurd ((p.deref_eq_zero_iff).mpr h) hz
    | cons c l => exact ⟨c, l, rfl⟩
  have hc : c ≠ slash := by simpa [CStr.deref, hcl] using hs
  have hr : (p.dropWhile fun c => c != slash && c != 0).bytes = p.bytes.dropWhile (· != slash) :=
    dropWhile_congr_of_mem (name_test_eq p)
  refine ⟨hr ▸ List.takeWhile_append_dropWhile.symm, ?_, ?_, ?_⟩
  · simp [hcl, hc]
  · exact fun h => p.nul_free ((List.takeWhile_prefix _).subset h)
  · rw [hr, hcl]
    exact components_cons_of_ne hc l

/-- What `skipelem` copies and returns: for the first component `w` of the path, the rest of
the path, which holds the other components and starts with no slash, and `name` holding `w`
truncated to `DIRSIZ` bytes, with a NUL after it when it is shorter. -/
theorem skipelem_eq_some {path path' : CStr} {name name' : Name}
    (h : skipelem path name = some (path', name')) :
    ∃ w, components path.bytes = w :: components path'.bytes ∧ 0 ∉ w ∧
      path'.deref ≠ slash ∧ path'.bytes.length < path.bytes.length ∧
      (List.ofFn name').take w.length = w.take dirsiz ∧
      ∀ hw : w.length < dirsiz, name' ⟨w.length, hw⟩ = 0 := by
  unfold skipelem at h
  dsimp only at h
  by_cases hz : (path.dropWhile (· == slash)).deref = 0
  · simp [hz] at h
  simp only [if_neg hz, Option.some.injEq, Prod.mk.injEq] at h
  obtain ⟨rfl, rfl⟩ := h
  -- the path after its leading slashes, its first element and what follows it
  generalize hp : path.dropWhile (· == slash) = p at hz ⊢
  obtain ⟨hsplit, hw, h0, hcomp⟩ := p.split_elem hz (hp ▸ path.deref_dropWhile_slash)
  generalize p.bytes.takeWhile (· != slash) = w at hsplit hw h0 hcomp
  generalize (p.dropWhile fun c => c != slash && c != 0) = r at hsplit hcomp ⊢
  have hlen : p.bytes.length - r.bytes.length = w.length := by
    rw [hsplit, List.length_append]
    omega
  have hget : ∀ i (hi : i < w.length), p.bytes.getD i 0 = w[i] := fun i hi => by
    rw [hsplit, List.getD_append _ _ _ _ hi, List.getD_eq_getElem _ _ hi]
  rw [hlen]
  refine ⟨w, ?_, h0, r.deref_dropWhile_slash, ?_, ?_, ?_⟩
  · have hpb : path.bytes.dropWhile (· == slash) = p.bytes := by rw [← hp]; rfl
    rw [← components_dropWhile, hpb, hcomp]
    exact congrArg (w :: ·) (components_dropWhile r.bytes).symm
  · have : (r.dropWhile (· == slash)).bytes.length ≤ r.bytes.length :=
      List.length_dropWhile_le _ _
    have : p.bytes.length ≤ path.bytes.length := hp ▸ List.length_dropWhile_le _ _
    have : w.length ≠ 0 := by simpa using hw
    rw [hsplit, List.length_append] at *
    omega
  · apply List.ext_getElem
    · simp [Nat.min_comm]
    · intro i hi _
      simp only [List.length_take, List.length_ofFn] at hi
      have hiw : i < w.length := by omega
      split_ifs <;> simp only [List.getElem_take, List.getElem_ofFn, hiw, ↓reduceIte] <;>
        exact hget i hiw
  · intro hw'
    simp [not_le.mpr hw']

end Skipelem

/-! ### What `namecmp` compares -/

section Namecmp

theorem sub_toNat_eq_zero_iff {a b : UInt8} : ((a.toNat : ℤ) - b.toNat = 0) ↔ a = b := by
  rw [sub_eq_zero, Nat.cast_inj, UInt8.toNat_inj]

theorem toNat_eq_zero_iff {a : UInt8} : a.toNat = 0 ↔ a = 0 := UInt8.toNat_inj (b := 0)

/-- `strncmp(p, q, n)` is `0` exactly when the strings agree up to their NULs, within the
first `n` bytes. -/
theorem strncmp_eq_zero_iff :
    ∀ (n : ℕ) (p q : List UInt8), strncmp p q n = 0 ↔
      (p.take n).takeWhile (· != 0) = (q.take n).takeWhile (· != 0)
  | 0, p, q => by simp [strncmp]
  | n + 1, [], [] => by simp [strncmp]
  | n + 1, [], b :: q => by
    by_cases hb : b = 0 <;> simp [strncmp, hb, toNat_eq_zero_iff]
  | n + 1, a :: p, [] => by
    by_cases ha : a = 0 <;> simp [strncmp, ha, toNat_eq_zero_iff]
  | n + 1, a :: p, b :: q => by
    have ih := strncmp_eq_zero_iff n p q
    by_cases ha : a = 0
    · by_cases hb : b = 0 <;> simp [strncmp, ha, hb, toNat_eq_zero_iff]
    · by_cases hab : a = b
      · subst hab
        simp [strncmp, ha, ih]
      · by_cases hb : b = 0 <;> simp [strncmp, ha, hab, hb, sub_toNat_eq_zero_iff, toNat_eq_zero_iff]

/-- `namecmp` compares the C strings two names hold. -/
theorem namecmp_eq_zero_iff (s t : Name) : namecmp s t = 0 ↔ s.str = t.str := by
  rw [namecmp, strncmp_eq_zero_iff, List.take_of_length_le (by simp),
    List.take_of_length_le (by simp), Name.str, Name.str]

/-- A list whose first `w.length` bytes are `w`, NUL-free, followed by a NUL or by nothing,
holds the C string `w`. -/
theorem takeWhile_ne_zero_of_take {l w : List UInt8} (h0 : 0 ∉ w) (ht : l.take w.length = w)
    (hn : ∀ h : w.length < l.length, l[w.length] = 0) : l.takeWhile (· != 0) = w := by
  have hall : ∀ x ∈ w, (x != 0) = true := fun x hx => by
    simpa using fun h : x = 0 => h0 (h ▸ hx)
  rw [← List.take_append_drop w.length l, ht, List.takeWhile_append_of_pos hall]
  cases hd : l.drop w.length with
  | nil => simp
  | cons c d =>
    have hlt : w.length < l.length := by
      have := congrArg List.length hd
      simp only [List.length_drop, List.length_cons] at this
      omega
    have hc : c = 0 := by
      have h1 : (l.drop w.length)[0]? = some c := by simp [hd]
      rw [List.getElem?_drop, Nat.add_zero, List.getElem?_eq_getElem hlt, Option.some.injEq] at h1
      rw [← h1]
      exact hn hlt
    simp [hc]

/-- The name `skipelem` leaves holds the element truncated to `DIRSIZ` bytes. -/
theorem Name.str_of_take {name : Name} {w : List UInt8} (h0 : 0 ∉ w)
    (ht : (List.ofFn name).take w.length = w.take dirsiz)
    (hn : ∀ hw : w.length < dirsiz, name ⟨w.length, hw⟩ = 0) : name.str = w.take dirsiz := by
  apply takeWhile_ne_zero_of_take (fun h => h0 (List.mem_of_mem_take h))
  · by_cases hw : w.length < dirsiz
    · have hwt : w.take dirsiz = w := List.take_of_length_le hw.le
      rw [hwt]
      rwa [hwt] at ht
    · have hl : (List.ofFn name).length ≤ w.length := by
        simp only [List.length_ofFn]
        omega
      rw [List.take_of_length_le hl] at ht
      rw [List.length_take, Nat.min_eq_left (by omega : dirsiz ≤ w.length),
        List.take_of_length_le (by simp), ht]
  · intro hl
    have hw : w.length < dirsiz := by
      simp only [List.length_take, List.length_ofFn] at hl
      omega
    simpa [List.take_of_length_le hw.le] using hn hw

theorem Name.str_ofStr {t : List UInt8} (h0 : 0 ∉ t) (ht : t.length ≤ dirsiz) :
    (Name.ofStr t).str = t := by
  apply takeWhile_ne_zero_of_take h0
  · apply List.ext_getElem
    · simp [ht]
    · intro i hi _
      simp only [List.length_take, List.length_ofFn] at hi
      simp [Name.ofStr, List.getElem?_eq_getElem (show i < t.length by omega)]
  · intro h
    simp [Name.ofStr]

end Namecmp

/-! ### `dirlookup` sees a name as a C string -/

section Dirlookup

variable (sb : Superblock)

theorem dirlookupLoop_congr {n₁ n₂ : Name} (h : n₁.str = n₂.str) :
    ∀ fuel off dp s, dirlookupLoop sb n₁ fuel off dp s = dirlookupLoop sb n₂ fuel off dp s
  | 0, _, _, _ => rfl
  | fuel + 1, off, dp, s => by
    simp only [dirlookupLoop, namecmp_eq_zero_iff, h, dirlookupLoop_congr h fuel]

theorem dirlookup_congr (σ : FsState) (dp : ℕ) {n₁ n₂ : Name} (h : n₁.str = n₂.str) :
    dirlookup sb σ dp n₁ = dirlookup sb σ dp n₂ := by
  simp only [dirlookup, dirlookupLoop_congr sb h]

end Dirlookup

/-! ### `namex` walks the truncated components -/

section Walk

variable (sb : Superblock)

/-- A string that does not start with a slash has no components only when it is empty. -/
theorem CStr.components_nil_iff {p : CStr} (h : p.deref ≠ slash) :
    components p.bytes = [] ↔ p.deref = 0 := by
  rw [components_eq_nil_iff, p.deref_eq_zero_iff]
  rcases p with ⟨_ | ⟨c, l⟩, hp⟩
  · simp
  · simp only [CStr.deref, List.headD_cons] at h
    simp [h]

theorem truncComps_of_skipelem_none {path : CStr} {name : Name}
    (h : skipelem path name = none) : truncComps path = [] := by
  rw [truncComps, components_eq_nil_iff.mpr (skipelem_eq_none_iff.mp h), List.map_nil]

/-- One pass of `skipelem`: the first truncated component `t` is what the name holds, as a C
string, and the rest of the path has the other components, none exactly when it is empty. -/
theorem truncComps_of_skipelem {path path' : CStr} {name name' : Name}
    (h : skipelem path name = some (path', name')) :
    ∃ t, truncComps path = t :: truncComps path' ∧ name'.str = t ∧
      (Name.ofStr t).str = t ∧ (truncComps path' = [] ↔ path'.deref = 0) ∧
      path'.bytes.length < path.bytes.length := by
  obtain ⟨w, hcomp, h0, hslash, hlen, htake, hnul⟩ := skipelem_eq_some h
  refine ⟨w.take dirsiz, by simp [truncComps, hcomp], Name.str_of_take h0 htake hnul,
    Name.str_ofStr (fun h => h0 (List.mem_of_mem_take h)) (by simp), ?_, hlen⟩
  rw [truncComps, List.map_eq_nil_iff, CStr.components_nil_iff hslash]

/-- **`namex` is the walk along the truncated components.** With fuel for every byte of the
path, the inode `namex`'s loop returns, and the state after it, are those of `resolve` on
the components of the path truncated to `DIRSIZ`. -/
theorem namexLoop_eq_resolve (nameiparent : Bool) :
    ∀ fuel (path : CStr) name ip σ, path.bytes.length < fuel →
      (namexLoop sb nameiparent fuel path name ip σ).map (·.map fun r => (r.1, r.2.2)) =
        resolve sb nameiparent (truncComps path) ip σ
  | 0, _, _, _, _, h => absurd h (Nat.not_lt_zero _)
  | fuel + 1, path, name, ip, σ, hfuel => by
    rw [namexLoop]
    cases hs : skipelem path name with
    | none =>
      rw [truncComps_of_skipelem_none hs, resolve]
      rfl
    | some r =>
      obtain ⟨path', name'⟩ := r
      obtain ⟨t, htc, hname, hstr, hend, hlen⟩ := truncComps_of_skipelem hs
      rw [htc, resolve]
      dsimp only
      cases hl : ilock σ ip with
      | error e => rfl
      | ok type =>
        dsimp only
        by_cases hd : type ≠ .dir
        · rw [if_pos hd, if_pos hd]
          rfl
        rw [if_neg hd, if_neg hd]
        by_cases hp : nameiparent = true ∧ path'.deref = 0
        · rw [if_pos hp, if_pos ⟨hp.1, hend.mpr hp.2⟩]
          rfl
        rw [if_neg hp, if_neg (fun h => hp ⟨h.1, hend.mp h.2⟩),
          dirlookup_congr sb σ ip (hname.trans hstr.symm)]
        rcases dirlookup sb σ ip (Name.ofStr t) with _ | _ | ⟨_ | next, σ'⟩
        · rfl
        · rfl
        · rfl
        · exact namexLoop_eq_resolve nameiparent fuel path' name' next σ' (by omega)

/-- **`nameiparent` stops one component early.** On a non-empty list of names the walk for
`nameiparent` is the plain walk along all but the last, then `ilock` of the inode it
reached, which must be a directory. -/
theorem resolve_parent :
    ∀ (ts : List (List UInt8)) ip σ, ts ≠ [] →
      resolve sb true ts ip σ = parentStep (resolve sb false ts.dropLast ip σ)
  | [], _, _, h => absurd rfl h
  | [t], ip, σ, _ => by
    cases hl : ilock σ ip with
    | error e => simp [resolve, parentStep, hl, Except.bind, Except.map]
    | ok type =>
      by_cases hd : type = .dir <;> simp [resolve, parentStep, hl, hd, Except.bind, Except.map]
  | t :: t' :: ts, ip, σ, _ => by
    rw [List.dropLast_cons_cons, resolve, resolve]
    cases ilock σ ip with
    | error e => rfl
    | ok type =>
      dsimp only
      by_cases hd : type ≠ .dir
      · simp [hd, parentStep, Except.bind]
      simp only [hd, if_false, List.cons_ne_nil, and_false, Bool.false_eq_true, false_and]
      rcases dirlookup sb σ ip (Name.ofStr t) with _ | _ | ⟨_ | next, σ'⟩
      · rfl
      · rfl
      · rfl
      · exact resolve_parent (t' :: ts) next σ' (List.cons_ne_nil _ _)

/-- The name `nameiparent` leaves when it returns a directory is the last component of the
path, truncated to `DIRSIZ` bytes. -/
theorem namexLoop_parent_name :
    ∀ fuel (path : CStr) name ip σ ip' name' σ',
      namexLoop sb true fuel path name ip σ = some (.ok (some ip', name', σ')) →
        some name'.str = (truncComps path).getLast?
  | 0, _, _, _, _, _, _, _, h => by simp [namexLoop] at h
  | fuel + 1, path, name, ip, σ, ip', name', σ', h => by
    rw [namexLoop] at h
    cases hs : skipelem path name with
    | none => simp [hs] at h
    | some r =>
      obtain ⟨path₁, name₁⟩ := r
      obtain ⟨t, htc, hname, -, hend, -⟩ := truncComps_of_skipelem hs
      rw [hs] at h
      dsimp only at h
      cases hl : ilock σ ip with
      | error e => simp [hl] at h
      | ok type =>
        simp only [hl] at h
        by_cases hd : type ≠ .dir
        · simp [hd] at h
        rw [if_neg hd] at h
        by_cases hp : path₁.deref = 0
        · simp only [hp, and_self, ↓reduceIte, Option.some.injEq, Except.ok.injEq,
            Prod.mk.injEq] at h
          obtain ⟨-, rfl, -⟩ := h
          rw [htc, hend.mpr hp, List.getLast?_singleton, hname]
        simp only [hp, and_false, ↓reduceIte] at h
        have hne : truncComps path₁ ≠ [] := fun h' => hp (hend.mp h')
        rcases hdl : dirlookup sb σ ip name₁ with _ | _ | ⟨_ | next, σ₁⟩ <;> rw [hdl] at h
        · cases h
        · cases h
        · cases h
        · rw [htc, List.getLast?_cons_of_ne_nil hne]
          exact namexLoop_parent_name fuel path₁ name₁ next σ₁ ip' name' σ' h

end Walk

/-! ### Path resolution -/

/-- **Paths resolve by their components truncated to `DIRSIZ`.** `skipelem` returns `0`
exactly when only slashes are left; otherwise it copies the first maximal run of bytes other
than `'/'` into `name`, truncated to `DIRSIZ` bytes and NUL-terminated when shorter, and
returns the rest of the path, whose runs are the others. So `namei` of two paths that agree
on a leading `'/'` and whose components agree once truncated gives the same inode (or the
same failure) and the same state, whatever `name` holds; and `nameiparent` returns what the
walk through all but the last component reaches, if `ilock` finds a directory there, with
`name` holding the last component truncated. -/
theorem path_resolution_by_components (sb : Superblock) :
    (∀ path name, skipelem path name = none ↔ ∀ c ∈ path.bytes, c = slash) ∧
    (∀ path name path' name', skipelem path name = some (path', name') →
      ∃ w, components path.bytes = w :: components path'.bytes ∧
        (List.ofFn name').take w.length = w.take dirsiz ∧
        ∀ hw : w.length < dirsiz, name' ⟨w.length, hw⟩ = 0) ∧
    (∀ σ cwd p q n₁ n₂, (p.deref = slash ↔ q.deref = slash) → truncComps p = truncComps q →
      namei sb σ cwd p n₁ = namei sb σ cwd q n₂) ∧
    (∀ σ cwd path name, truncComps path ≠ [] →
      (nameiparent sb σ cwd path name).map (·.map fun r => (r.1, r.2.2)) =
        parentStep (resolve sb false (truncComps path).dropLast (startIno cwd path) σ)) ∧
    (∀ σ cwd path name ip name' σ',
      nameiparent sb σ cwd path name = some (.ok (some ip, name', σ')) →
        some name'.str = (truncComps path).getLast?) := by
  refine ⟨fun _ _ => skipelem_eq_none_iff, fun _ _ _ _ h => ?_,
    fun σ cwd p q n₁ n₂ hs hc => ?_, fun σ cwd path name hne => ?_,
    fun σ cwd path name ip name' σ' h => namexLoop_parent_name sb _ _ _ _ _ _ _ _ h⟩
  · obtain ⟨w, hcomp, -, -, -, htake, hnul⟩ := skipelem_eq_some h
    exact ⟨w, hcomp, htake, hnul⟩
  · have hstart : startIno cwd p = startIno cwd q := by
      by_cases hp : p.deref = slash
      · simp [startIno, hp, hs.mp hp]
      · simp [startIno, hp, mt hs.mpr hp]
    rw [namei, namei, namex, namex, namexLoop_eq_resolve sb false _ _ _ _ _ (Nat.lt_succ_self _),
      namexLoop_eq_resolve sb false _ _ _ _ _ (Nat.lt_succ_self _), hc, hstart]
  · rw [nameiparent, namex, namexLoop_eq_resolve sb true _ _ _ _ _ (Nat.lt_succ_self _),
      resolve_parent sb _ _ _ hne]

/-- The paths of the `fourteen` test: on the disk with only the root directory, `namei` of
`123456789012345/123456789012345/123456789012345` and of
`12345678901234/12345678901234/12345678901234` give the same result. -/
theorem path_resolution_fourteen :
    namei mkfsSuperblock rootOnly rootino
        ⟨[49, 50, 51, 52, 53, 54, 55, 56, 57, 48, 49, 50, 51, 52, 53, 47,
          49, 50, 51, 52, 53, 54, 55, 56, 57, 48, 49, 50, 51, 52, 53, 47,
          49, 50, 51, 52, 53, 54, 55, 56, 57, 48, 49, 50, 51, 52, 53], by decide⟩ (fun _ => 0) =
      namei mkfsSuperblock rootOnly rootino
        ⟨[49, 50, 51, 52, 53, 54, 55, 56, 57, 48, 49, 50, 51, 52, 47,
          49, 50, 51, 52, 53, 54, 55, 56, 57, 48, 49, 50, 51, 52, 47,
          49, 50, 51, 52, 53, 54, 55, 56, 57, 48, 49, 50, 51, 52], by decide⟩ (fun _ => 0) :=
  (path_resolution_by_components mkfsSuperblock).2.2.1 _ _ _ _ _ _ (by decide) (by decide)

end Xv6Lab.FS
