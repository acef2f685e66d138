import NovaOS.Drivers.Handles

/-!
# The file table of a process

Reference: `kernel/syscall/sysfile.c`, `kernel/sched/sched.h` (`FileHandle`, `FileTable`).

`sysOpen`, `sysClose` and `fileTableCleanup`. Heap blocks are numbered in the order in which they are
allocated, and `frees` lists the calls of `kfree`. A pointer to a `FileHandle` is written as the handle
itself, with the number of its block; the array of the table has a block too. What `copy_from_user` can
read, what `fs_stat` knows and whether `kmalloc` succeeds are arguments of a call.

`file_table_correct` is about every sequence of calls in which the descriptor to be used still fits an `int`:
descriptors are the lowest free ones, bindings are kept, and every block is freed exactly once.
-/

namespace NovaOS.Syscall

open NovaOS.Lib NovaOS.Drivers List Option

/-- The fields of a `Fat32DirEntry` that `sysOpen` uses. -/
structure FileStat where
  fileSize : ℕ
  isDirectory : Bool
deriving DecidableEq

/-- A `FileHandle` in the block `block`; `path` is the block of the string `name`. -/
structure FileHandle where
  block : ℕ
  path : ℕ
  name : CString
  offset : ℕ
  size : ℕ
  flags : ℕ
  isDir : Bool
deriving DecidableEq

/-- The `FileTable` of a process: the block of its array, if it has one, and the slots. -/
structure Files where
  handles : Option ℕ
  slots : List (Option FileHandle)
  next : ℕ
  frees : List ℕ
deriving DecidableEq

namespace Files

/-- A process that has opened nothing. -/
def empty : Files := ⟨none, [], 0, []⟩

/-- The handle that a descriptor is bound to. -/
def lookup (s : Files) (fd : ℕ) : Option FileHandle := (s.slots[fd]?).join

/-- `kfree`. -/
def kfree (b : ℕ) (s : Files) : Files := { s with frees := s.frees ++ [b] }

/-- A successful `kmalloc` returns the block `s.next`. -/
def kmalloc (s : Files) : Files := { s with next := s.next + 1 }

/-- The loop of `copyStringFromUser`: `bytes` are what can still be read, and `mem` says which calls of
`krealloc` succeed. The buffer `buf` holds `text`. -/
def copyLoop : List UInt8 → List Bool → ℕ → ℕ → CString → Files → Option (ℕ × CString) × Files
  | [], _, buf, _, _, s => (none, s.kfree buf)
  | c :: bytes, mem, buf, capacity, text, s =>
    if text.length + 1 ≥ capacity then
      match mem with
      | true :: mem =>
        if c = 0 then (some (s.next, text), s.kmalloc.kfree buf)
        else copyLoop bytes mem s.next (capacity * 2) (text ++ [c]) (s.kmalloc.kfree buf)
      | _ => (none, s.kfree buf)
    else if c = 0 then (some (buf, text), s)
    else copyLoop bytes mem buf capacity (text ++ [c]) s

/-- `copyStringFromUser`; `userStr` is what can be read from there on, or a null pointer. -/
def copyStringFromUser (userStr : Option (List UInt8)) (mem : List Bool) (s : Files) :
    Option (ℕ × CString) × Files :=
  match userStr, mem with
  | some bytes, true :: mem => copyLoop bytes mem s.next 64 [] s.kmalloc
  | _, _ => (none, s)

/-- The two calls of `fs_stat` in `sysOpen`, and the name without the slash if that is the one found. -/
def statPath (stat : CString → Option FileStat) (kpath : CString) : Option (CString × FileStat) :=
  match stat kpath with
  | some entry => some (kpath, entry)
  | none =>
    match kpath with
    | 0x2F :: rest => (stat rest).map fun entry => (rest, entry)
    | _ => none

/-- The first slot from the third on that is null; the capacity, but at least 3, if there is none. -/
def lowestFree (s : Files) : ℕ := 3 + (s.slots.drop 3).findIdx (·.isNone)

/-- The table with twice the slots, or with 16; the old array is freed. -/
def grow (s : Files) : Files :=
  let oldCap := s.slots.length
  let newCap := if oldCap = 0 then 16 else wrap64 (oldCap * 2)
  { handles := some s.next
    slots := s.slots.take newCap ++ replicate (newCap - oldCap) none
    next := s.next + 1
    frees := s.frees ++ s.handles.toList }

/-- The end of `sysOpen`; a descriptor outside the table is a fault. -/
def storeHandle (kpath : ℕ) (name : CString) (entry : FileStat) (flags : ℕ) (handleMem : Bool) (fd : ℤ)
    (s : Files) : Option (ℤ × Files) :=
  if !handleMem then some (-12, s.kfree kpath)
  else if 0 ≤ fd ∧ fd.toNat < s.slots.length then
    let fh : FileHandle := ⟨s.next, kpath, name, 0, entry.fileSize, flags, entry.isDirectory⟩
    some (fd, { s.kmalloc with slots := s.slots.set fd.toNat (some fh) })
  else none

/-- The part of `sysOpen` under the lock of the table. -/
def bindHandle (kpath : ℕ) (name : CString) (entry : FileStat) (flags : ℕ) (tableMem handleMem : Bool)
    (s : Files) : Option (ℤ × Files) :=
  let fd := if s.lowestFree < s.slots.length then toInt32 s.lowestFree else -1
  if fd < 0 then
    if !tableMem then some (-12, s.kfree kpath)
    else s.grow.storeHandle kpath name entry flags handleMem
      (if s.slots.length < 3 then 3 else toInt32 s.slots.length)
  else s.storeHandle kpath name entry flags handleMem fd

/-- `sysOpen`. The calls of `kmalloc` for the name, for the array and for the handle succeed as `mem`,
`tableMem` and `handleMem` say. -/
def sysOpen (userStr : Option (List UInt8)) (flags : ℕ) (stat : CString → Option FileStat)
    (mem : List Bool) (tableMem handleMem : Bool) (s : Files) : Option (ℤ × Files) :=
  match s.copyStringFromUser userStr mem with
  | (none, s) => some (-14, s)
  | (some (kpath, text), s) =>
    match statPath stat text with
    | none => some (-2, s.kfree kpath)
    | some (name, entry) => s.bindHandle kpath name entry flags tableMem handleMem

/-- `sysClose`. -/
def sysClose (fd : ℤ) (s : Files) : ℤ × Files :=
  if fd < 3 then (0, s)
  else
    match s.lookup fd.toNat with
    | none => (-9, s)
    | some fh => (0, ({ s with slots := s.slots.set fd.toNat none }.kfree fh.path).kfree fh.block)

/-- The blocks behind a slot, in the order in which they are freed. -/
def slotBlocks : Option FileHandle → List ℕ
  | none => []
  | some fh => [fh.path, fh.block]

/-- `fileTableCleanup`. -/
def fileTableCleanup (s : Files) : Files :=
  match s.handles with
  | none => s
  | some b => { s with
      handles := none
      slots := []
      frees := s.frees ++ s.slots.flatMap slotBlocks ++ [b] }

/-! ## What the calls should do -/

/-- The calls on the table of a process. -/
inductive Call where
  | open (userStr : Option (List UInt8)) (flags : ℕ) (stat : CString → Option FileStat)
      (mem : List Bool) (tableMem handleMem : Bool)
  | close (fd : ℤ)
  | cleanup

/-- A call returns a value and a state, unless it writes outside the table. -/
def step (s : Files) : Call → Option (ℤ × Files)
  | .open userStr flags stat mem tableMem handleMem =>
    s.sysOpen userStr flags stat mem tableMem handleMem
  | .close fd => some (s.sysClose fd)
  | .cleanup => some (0, s.fileTableCleanup)

/-- The blocks that the table owns. -/
def owned (s : Files) : List ℕ := s.handles.toList ++ s.slots.flatMap slotBlocks

/-- Every block that was allocated has been freed once or is owned by the table once, and not both. -/
def Balanced (s : Files) : Prop :=
  ∀ b, s.frees.count b + s.owned.count b = if b < s.next then 1 else 0

/-- `sysOpen` fails and leaves every binding, or it returns the lowest descriptor that is not open, binds it
to a handle in new blocks at offset zero, and leaves the other bindings. -/
def OpenSpec (s : Files) (r : ℤ) (s' : Files) : Prop :=
  (r < 0 ∧ ∀ fd, s'.lookup fd = s.lookup fd) ∨
    ∃ fd : ℕ, r = fd ∧ 3 ≤ fd ∧ s.lookup fd = none ∧ (∀ k, 3 ≤ k → k < fd → s.lookup k ≠ none) ∧
      (∃ fh, s'.lookup fd = some fh ∧ fh.offset = 0 ∧ s.next ≤ fh.block ∧ s.next ≤ fh.path) ∧
      ∀ k, k ≠ fd → s'.lookup k = s.lookup k

/-- `sysClose` of an open descriptor frees its name and its handle and unbinds it; otherwise it does
nothing. -/
def CloseSpec (s : Files) (fd : ℤ) (r : ℤ) (s' : Files) : Prop :=
  match (if fd < 3 then none else s.lookup fd.toNat) with
  | none => r = (if fd < 3 then 0 else -9) ∧ s' = s
  | some fh => r = 0 ∧ s'.frees = s.frees ++ [fh.path, fh.block] ∧ s'.lookup fd.toNat = none ∧
      ∀ k, k ≠ fd.toNat → s'.lookup k = s.lookup k

/-- `fileTableCleanup` unbinds everything and frees all that the table owns. -/
def CleanupSpec (s s' : Files) : Prop :=
  (∀ fd, s'.lookup fd = none) ∧ s'.owned = [] ∧ ∀ b, s'.frees.count b = s.frees.count b + s.owned.count b

/-- What a call should return and do. -/
def Follows (s : Files) (r : ℤ) (s' : Files) : Call → Prop
  | .open _ _ _ _ _ _ => OpenSpec s r s'
  | .close fd => CloseSpec s fd r s'
  | .cleanup => CleanupSpec s s'

/-- Every call of the sequence returns, does what it should and leaves a balanced state. -/
def Correct : List Call → Files → Prop
  | [], s => s.Balanced
  | c :: cs, s => s.Balanced ∧ ∃ r s', s.step c = some (r, s') ∧ Follows s r s' c ∧ Correct cs s'

/-- The lowest free descriptor fits an `int` whenever a file is opened. -/
def Fits : List Call → Files → Prop
  | [], _ => True
  | c :: cs, s =>
    (match c with
      | .open _ _ _ _ _ _ => s.lowestFree < 2 ^ 31
      | _ => True) ∧ ∀ r s', s.step c = some (r, s') → Fits cs s'

/-! ## Slots -/

variable {s s' : Files}

variable {i fd kpath n : ℕ}

/-- One slot is replaced: what the slots own changes by what the two own. -/
theorem count_flatMap_set {α : Type} (f : α → List ℕ) {l : List α} {old : α} (new : α)
    (h : l[i]? = some old) (b : ℕ) :
    ((l.set i new).flatMap f).count b + (f old).count b = (l.flatMap f).count b + (f new).count b := by
  obtain ⟨hi, rfl⟩ := List.getElem?_eq_some_iff.mp h
  have hl : l.flatMap f = (l.take i).flatMap f ++ (f l[i] ++ (l.drop (i + 1)).flatMap f) := by
    conv_lhs => rw [← take_append_drop i l, drop_eq_getElem_cons hi]
    rw [flatMap_append, flatMap_cons]
  rw [set_eq_take_append_cons_drop, if_pos hi, hl, flatMap_append, flatMap_cons]
  simp only [count_append]
  omega

/-- The lookup after a slot has been set. -/
theorem lookup_set {slots : List (Option FileHandle)} (hi : i < slots.length)
    (x : Option FileHandle) (k : ℕ) :
    ((slots.set i x)[k]?).join = if i = k then x else (slots[k]?).join := by
  rw [getElem?_set]
  by_cases hk : i = k
  · rw [if_pos hk, if_pos hk, if_pos hi, join_some]
  · rw [if_neg hk, if_neg hk]

/-- The lowest free descriptor is not open. -/
theorem lookup_lowestFree (s : Files) : s.lookup s.lowestFree = none := by
  rw [lookup, lowestFree, ← getElem?_drop]
  by_cases h : (s.slots.drop 3).findIdx (·.isNone) < (s.slots.drop 3).length
  · have hf := findIdx_getElem (w := h)
    rw [getElem?_eq_getElem h]
    exact isNone_iff_eq_none.mp hf
  · rw [List.getElem?_eq_none (Nat.not_lt.mp h)]
    rfl

/-- The descriptors below are open. -/
theorem lookup_of_lt_lowestFree {k : ℕ} (hk : 3 ≤ k) (h : k < s.lowestFree) : s.lookup k ≠ none := by
  obtain ⟨j, rfl⟩ := Nat.exists_eq_add_of_le hk
  have hj : j < (s.slots.drop 3).findIdx (·.isNone) := by
    rw [lowestFree] at h
    omega
  have hlen : j < (s.slots.drop 3).length := Nat.lt_of_lt_of_le hj findIdx_le_length
  have hn := not_of_lt_findIdx hj
  rw [lookup, ← getElem?_drop, getElem?_eq_getElem hlen, join_some]
  intro he
  rw [he] at hn
  cases hn

/-- The lowest free descriptor is in the table or right behind it. -/
theorem lowestFree_le (s : Files) : s.lowestFree ≤ max 3 s.slots.length := by
  have h : (s.slots.drop 3).findIdx (·.isNone) ≤ (s.slots.drop 3).length := findIdx_le_length
  rw [length_drop] at h
  rw [lowestFree]
  omega

/-! ## The invariant -/

/-- What holds between and within calls; `held` are the blocks that the current call owns. -/
structure Inv (s : Files) (held : List ℕ) : Prop where
  balance : ∀ b, s.frees.count b + (held.count b + s.owned.count b) = if b < s.next then 1 else 0
  table : s.handles = none → s.slots = []
  size : s.slots = [] ∨ 16 ≤ s.slots.length

/-- The bindings are the same, and new blocks are new in both. -/
structure SameTable (s s' : Files) : Prop where
  slots : s'.slots = s.slots
  handles : s'.handles = s.handles
  next : s.next ≤ s'.next

theorem SameTable.refl (s : Files) : SameTable s s := ⟨rfl, rfl, Nat.le_refl _⟩

theorem SameTable.trans {t : Files} (h : SameTable s s') (h' : SameTable s' t) : SameTable s t :=
  ⟨h'.slots.trans h.slots, h'.handles.trans h.handles, Nat.le_trans h.next h'.next⟩

theorem SameTable.lookup (h : SameTable s s') (fd : ℕ) : s'.lookup fd = s.lookup fd := by
  rw [Files.lookup, Files.lookup, h.slots]

theorem sameTable_kfree (b : ℕ) (s : Files) : SameTable s (s.kfree b) := ⟨rfl, rfl, Nat.le_refl _⟩

theorem sameTable_kmalloc (s : Files) : SameTable s s.kmalloc := ⟨rfl, rfl, Nat.le_succ _⟩

variable {held : List ℕ}

/-- A block that the call owns is freed. -/
theorem Inv.kfree {b : ℕ} (h : s.Inv (b :: held)) : (s.kfree b).Inv held where
  balance c := by
    refine .trans ?_ (h.balance c)
    change (s.frees ++ [b]).count c + (held.count c + s.owned.count c) = _
    simp only [count_append, count_cons, count_nil]
    omega
  table := h.table
  size := h.size

/-- A new block is owned by the call. -/
theorem Inv.kmalloc (h : s.Inv held) : s.kmalloc.Inv (s.next :: held) where
  balance c := by
    have hc := h.balance c
    change s.frees.count c + ((s.next :: held).count c + s.owned.count c) =
      if c < s.next + 1 then 1 else 0
    simp only [count_cons, beq_iff_eq]
    split_ifs at hc ⊢ <;> omega
  table := h.table
  size := h.size

/-- One slot is replaced, and the call owns what the slot does not. -/
theorem Inv.setSlot {held' : List ℕ} {old : Option FileHandle} (h : s.Inv held)
    (hslot : s.slots[i]? = some old) (new : Option FileHandle)
    (hheld : ∀ b, held'.count b + (slotBlocks new).count b = held.count b + (slotBlocks old).count b) :
    ({ s with slots := s.slots.set i new } : Files).Inv held' where
  balance b := by
    have hset := count_flatMap_set slotBlocks new hslot b
    have hb := h.balance b
    have heq := hheld b
    simp only [owned, count_append] at hb ⊢
    omega
  table hn := by
    rw [h.table hn]
    rfl
  size := by
    rw [length_set]
    exact h.size.imp_left fun h0 => by rw [h0]; rfl

/-- Between calls the state is balanced. -/
theorem Inv.balanced (h : s.Inv []) : s.Balanced := by
  intro b
  have hb := h.balance b
  rwa [count_nil, Nat.zero_add] at hb

/-! ## Copying the name -/

/-- What copying the name leaves: a new block with the name, or nothing. -/
def Copied (s : Files) : Option (ℕ × CString) × Files → Prop
  | (none, t) => t.Inv [] ∧ SameTable s t
  | (some (k, _), t) => t.Inv [k] ∧ SameTable s t ∧ s.next ≤ k

/-- The loop of `copyStringFromUser` owns its buffer, which is newer than `base`. -/
theorem copyLoop_copied (bytes : List UInt8) (mem : List Bool) (buf capacity : ℕ) (text : CString)
    {base : Files} (hs : SameTable base s) (hbuf : base.next ≤ buf) (h : s.Inv [buf]) :
    base.Copied (s.copyLoop bytes mem buf capacity text) := by
  induction bytes generalizing mem buf capacity text s with
  | nil => exact ⟨h.kfree, hs.trans (sameTable_kfree buf s)⟩
  | cons c bytes ih =>
    have hmoved : SameTable base (s.kmalloc.kfree buf) :=
      hs.trans ((sameTable_kmalloc s).trans (sameTable_kfree buf _))
    have hinv : (s.kmalloc.kfree buf).Inv [s.next] := by
      have hk := h.kmalloc
      refine Inv.kfree ⟨fun b => ?_, hk.table, hk.size⟩
      have hb := hk.balance b
      rwa [(Perm.swap buf s.next []).count_eq b] at hb
    rw [copyLoop.eq_def]
    simp only
    split
    · split
      · split
        · exact ⟨hinv, hmoved, hs.next⟩
        · exact ih _ _ _ _ hmoved hs.next hinv
      · exact ⟨h.kfree, hs.trans (sameTable_kfree buf s)⟩
    · split
      · exact ⟨h, hs, hbuf⟩
      · exact ih _ _ _ _ hs hbuf h

/-- `copyStringFromUser`. -/
theorem copyStringFromUser_copied (h : s.Inv []) (userStr : Option (List UInt8)) (mem : List Bool) :
    s.Copied (s.copyStringFromUser userStr mem) := by
  rw [copyStringFromUser.eq_def]
  split
  · exact copyLoop_copied _ _ _ _ _ (sameTable_kmalloc s) (Nat.le_refl _) h.kmalloc
  · exact ⟨h, SameTable.refl s⟩

/-! ## Opening -/

/-- The grown table keeps its slots and has free ones behind them. -/
theorem grow_slots (hcap : s.slots.length < 2 ^ 63) :
    s.grow.slots = s.slots ++
      replicate (if s.slots.length = 0 then 16 else s.slots.length) none := by
  simp only [grow]
  split
  · next h => rw [length_eq_zero_iff.mp h]; rfl
  · rw [wrap64_of_lt (by omega), take_of_length_le (by omega)]
    congr 2
    omega

/-- Growing the table keeps every binding. -/
theorem lookup_grow (hcap : s.slots.length < 2 ^ 63) (fd : ℕ) : s.grow.lookup fd = s.lookup fd := by
  rw [lookup, lookup, grow_slots hcap, getElem?_append]
  split
  · rfl
  · next h =>
      rw [List.getElem?_eq_none (Nat.not_lt.mp h), getElem?_replicate]
      split_ifs <;> rfl

/-- The grown table owns its new array instead of the old one. -/
theorem Inv.grow (h : s.Inv held) (hcap : s.slots.length < 2 ^ 63) : s.grow.Inv held where
  balance b := by
    have hb := h.kmalloc.balance b
    have hslots : s.grow.slots.flatMap slotBlocks = s.slots.flatMap slotBlocks := by
      rw [grow_slots hcap]
      simp [slotBlocks]
    refine .trans ?_ hb
    change (s.frees ++ s.handles.toList).count b +
      (held.count b + ([s.next] ++ s.grow.slots.flatMap slotBlocks).count b) =
      s.frees.count b + ((s.next :: held).count b +
        (s.handles.toList ++ s.slots.flatMap slotBlocks).count b)
    rw [hslots]
    simp only [count_append, count_cons, count_nil]
    omega
  table hn := absurd hn (by simp [Files.grow])
  size := by
    right
    rw [grow_slots hcap, length_append]
    rcases h.size with h0 | h16
    · rw [h0]
      decide
    · split <;> omega

/-- The end of `sysOpen` in a slot of the table. -/
theorem storeHandle_eq (hfd : fd < s.slots.length) (kpath : ℕ) (name : CString) (entry : FileStat)
    (flags : ℕ) :
    s.storeHandle kpath name entry flags true fd = some ((fd : ℤ), { s.kmalloc with
      slots := s.slots.set fd
        (some ⟨s.next, kpath, name, 0, entry.fileSize, flags, entry.isDirectory⟩) }) := by
  simp only [storeHandle, Int.toNat_natCast, hfd]
  rfl

/-- The call fails, or it binds `fd` to a new handle with the name in `kpath`; it gives up its blocks. -/
def Stored (s : Files) (fd kpath : ℕ) (x : Option (ℤ × Files)) : Prop :=
  ∃ r s', x = some (r, s') ∧ s'.Inv [] ∧
    ((r < 0 ∧ ∀ k, s'.lookup k = s.lookup k) ∨ (r = fd ∧
      (∃ fh, s'.lookup fd = some fh ∧ fh.offset = 0 ∧ s.next ≤ fh.block ∧ fh.path = kpath) ∧
      ∀ k, k ≠ fd → s'.lookup k = s.lookup k))

theorem Inv.refused (h : s.Inv [kpath]) (fd : ℕ) : s.Stored fd kpath (some (-12, s.kfree kpath)) :=
  ⟨-12, s.kfree kpath, rfl, h.kfree, .inl ⟨by decide, fun _ => rfl⟩⟩

theorem Stored.of_lookup {t : Files} {x : Option (ℤ × Files)} (h : t.Stored fd kpath x)
    (hsame : ∀ k, t.lookup k = s.lookup k) (hnext : s.next ≤ t.next) : s.Stored fd kpath x := by
  obtain ⟨r, s', hx, hinv, hspec⟩ := h
  simp only [hsame] at hspec
  refine ⟨r, s', hx, hinv, hspec.imp_right ?_⟩
  rintro ⟨hr, ⟨fh, hfh, h0, hb, hp⟩, hk⟩
  exact ⟨hr, ⟨fh, hfh, h0, Nat.le_trans hnext hb, hp⟩, hk⟩

/-- The end of `sysOpen`, on a slot of the table that is free. -/
theorem storeHandle_spec (h : s.Inv [kpath]) (hfd : fd < s.slots.length)
    (hfree : s.lookup fd = none) (name : CString) (entry : FileStat) (flags : ℕ)
    (handleMem : Bool) : s.Stored fd kpath (s.storeHandle kpath name entry flags handleMem fd) := by
  cases handleMem with
  | false => exact h.refused fd
  | true =>
    have hslot : s.kmalloc.slots[fd]? = some none := by
      rw [lookup, getElem?_eq_getElem hfd, join_some] at hfree
      exact (getElem?_eq_getElem hfd).trans (congrArg some hfree)
    refine ⟨fd, _, storeHandle_eq hfd kpath name entry flags, h.kmalloc.setSlot hslot _ fun b => ?_,
      Or.inr ⟨rfl, ⟨_, (lookup_set hfd _ fd).trans (if_pos rfl), rfl, Nat.le_refl _, rfl⟩, fun k hk => ?_⟩⟩
    · exact (Nat.zero_add _).trans ((Perm.swap s.next kpath []).count_eq b)
    · exact (lookup_set hfd _ k).trans (if_neg (Ne.symm hk))

/-- The table in which the next handle is stored. -/
def room (s : Files) : Files := if s.lowestFree < s.slots.length then s else s.grow

/-- If the table has no room then the descriptor right behind it is the next one. -/
theorem lowestFree_eq_of_full (hsize : s.slots = [] ∨ 16 ≤ s.slots.length)
    (hfull : ¬s.lowestFree < s.slots.length) :
    s.slots.length = 0 ∧ s.lowestFree = 3 ∨ 16 ≤ s.slots.length ∧ s.lowestFree = s.slots.length := by
  have hle := lowestFree_le s
  have h3 : 3 ≤ s.lowestFree := Nat.le_add_right _ _
  rcases hsize with h0 | h16
  · have hl : s.slots.length = 0 := by rw [h0]; rfl
    exact .inl ⟨hl, by omega⟩
  · exact .inr ⟨h16, by omega⟩

/-- There is room for the next descriptor. -/
theorem lowestFree_lt_room (hsize : s.slots = [] ∨ 16 ≤ s.slots.length) (hfit : s.lowestFree < 2 ^ 31) :
    s.lowestFree < s.room.slots.length := by
  rw [room]
  split
  · assumption
  · next hfull =>
      have hcases := lowestFree_eq_of_full hsize hfull
      rw [grow_slots (by omega), length_append, length_replicate]
      split <;> omega

/-- Making room keeps every binding. -/
theorem lookup_room (hfit : s.lowestFree < 2 ^ 31) (fd : ℕ) : s.room.lookup fd = s.lookup fd := by
  rw [room]
  split
  · rfl
  · next hfull =>
      exact lookup_grow (by omega) fd

/-- Making room keeps the invariant. -/
theorem Inv.room (h : s.Inv held) (hfit : s.lowestFree < 2 ^ 31) :
    s.room.Inv held ∧ s.next ≤ s.room.next := by
  rw [Files.room]
  split
  · exact ⟨h, Nat.le_refl _⟩
  · next hfull =>
      exact ⟨h.grow (by omega), Nat.le_succ _⟩

/-- The critical section stores the handle under the lowest free descriptor, unless the table is full and
cannot grow. -/
theorem bindHandle_eq (hsize : s.slots = [] ∨ 16 ≤ s.slots.length) (hfit : s.lowestFree < 2 ^ 31)
    (kpath : ℕ) (name : CString) (entry : FileStat) (flags : ℕ) (tableMem handleMem : Bool) :
    s.bindHandle kpath name entry flags tableMem handleMem =
      if s.lowestFree < s.slots.length ∨ tableMem = true then
        s.room.storeHandle kpath name entry flags handleMem s.lowestFree
      else some (-12, s.kfree kpath) := by
  by_cases hlt : s.lowestFree < s.slots.length
  · simp only [bindHandle, room, if_pos hlt, DriverState.toInt32_of_lt hfit]
    rw [if_neg (by omega), if_pos (.inl hlt)]
  · have hfd : (if s.slots.length < 3 then (3 : ℤ) else toInt32 s.slots.length) = s.lowestFree := by
      rcases lowestFree_eq_of_full hsize hlt with h | h
      · omega
      · rw [DriverState.toInt32_of_lt (by omega)]
        omega
    simp only [bindHandle, room, if_neg hlt, hfd]
    rw [if_pos (by decide)]
    cases tableMem with
    | false =>
      rw [if_pos (by decide), if_neg fun h => h.elim hlt Bool.false_ne_true]
    | true =>
      rw [if_neg (by decide), if_pos (.inr rfl)]

/-- The critical section of `sysOpen`. -/
theorem bindHandle_spec (h : s.Inv [kpath]) (hfit : s.lowestFree < 2 ^ 31) (name : CString)
    (entry : FileStat) (flags : ℕ) (tableMem handleMem : Bool) :
    s.Stored s.lowestFree kpath (s.bindHandle kpath name entry flags tableMem handleMem) := by
  rw [bindHandle_eq h.size hfit]
  split
  · obtain ⟨hinv, hnext⟩ := h.room hfit
    have hsame := lookup_room hfit
    exact (storeHandle_spec hinv (lowestFree_lt_room h.size hfit)
      ((hsame _).trans (lookup_lowestFree s)) name entry flags handleMem).of_lookup hsame hnext
  · exact h.refused _

/-- `sysOpen`. -/
theorem sysOpen_spec (h : s.Inv []) (hfit : s.lowestFree < 2 ^ 31) (userStr : Option (List UInt8))
    (flags : ℕ) (stat : CString → Option FileStat) (mem : List Bool) (tableMem handleMem : Bool) :
    ∃ r s', s.sysOpen userStr flags stat mem tableMem handleMem = some (r, s') ∧ s'.Inv [] ∧
      OpenSpec s r s' := by
  have hcopy := copyStringFromUser_copied h userStr mem
  rw [sysOpen]
  split
  · next t ht =>
      rw [ht] at hcopy
      exact ⟨-14, t, rfl, hcopy.1, .inl ⟨by decide, hcopy.2.lookup⟩⟩
  · next kpath text t ht =>
      rw [ht] at hcopy
      obtain ⟨hinv, hsame, hnew⟩ := hcopy
      split
      · exact ⟨-2, t.kfree kpath, rfl, hinv.kfree, .inl ⟨by decide, hsame.lookup⟩⟩
      · next name entry _ =>
          have hlow : t.lowestFree = s.lowestFree := by rw [lowestFree, lowestFree, hsame.slots]
          obtain ⟨r, s', hr, hinv', hspec⟩ := (bindHandle_spec hinv (hlow ▸ hfit) name entry flags
            tableMem handleMem).of_lookup hsame.lookup hsame.next
          rw [hlow] at hspec
          refine ⟨r, s', hr, hinv', hspec.imp_right ?_⟩
          rintro ⟨hfd, ⟨fh, hfh, h0, hb, rfl⟩, hk⟩
          exact ⟨s.lowestFree, hfd, Nat.le_add_right _ _, lookup_lowestFree s,
            fun k => lookup_of_lt_lowestFree, ⟨fh, hfh, h0, hb, hnew⟩, hk⟩

/-! ## Closing and cleaning up -/

/-- `sysClose`. -/
theorem sysClose_spec (h : s.Inv []) (fd : ℤ) :
    (s.sysClose fd).2.Inv [] ∧ CloseSpec s fd (s.sysClose fd).1 (s.sysClose fd).2 := by
  by_cases h3 : fd < 3
  · have hc : s.sysClose fd = (0, s) := by rw [sysClose, if_pos h3]
    rw [hc, CloseSpec, if_pos h3, if_pos h3]
    exact ⟨h, rfl, rfl⟩
  · cases hl : s.lookup fd.toNat with
    | none =>
      have hc : s.sysClose fd = (-9, s) := by rw [sysClose, if_neg h3, hl]
      rw [hc, CloseSpec, if_neg h3, if_neg h3, hl]
      exact ⟨h, rfl, rfl⟩
    | some fh =>
      obtain ⟨t, ht⟩ : ∃ t : Files, t = { s with slots := s.slots.set fd.toNat none } := ⟨_, rfl⟩
      have hc : s.sysClose fd = (0, (t.kfree fh.path).kfree fh.block) := by
        rw [sysClose, if_neg h3, hl, ht]
      have hslot : s.slots[fd.toNat]? = some (some fh) := join_eq_some_iff.mp hl
      have hlt : fd.toNat < s.slots.length := (List.getElem?_eq_some_iff.mp hslot).1
      have hlook : ∀ k, t.lookup k = if fd.toNat = k then none else s.lookup k := by
        rw [ht]
        exact lookup_set hlt none
      have hinv : t.Inv [fh.path, fh.block] := ht ▸ h.setSlot hslot none fun _ => Nat.add_comm _ _
      rw [hc, CloseSpec, if_neg h3, hl]
      refine ⟨hinv.kfree.kfree, rfl, ?_, ?_, fun k hk => ?_⟩
      · rw [ht]
        exact append_assoc ..
      · exact (hlook _).trans (if_pos rfl)
      · exact (hlook k).trans (if_neg (Ne.symm hk))

/-- `fileTableCleanup`. -/
theorem fileTableCleanup_spec (h : s.Inv []) :
    s.fileTableCleanup.Inv [] ∧ CleanupSpec s s.fileTableCleanup := by
  cases hb : s.handles with
  | none =>
    have hs : s.slots = [] := h.table hb
    have ho : s.owned = [] := by rw [owned, hb, hs]; rfl
    have hc : s.fileTableCleanup = s := by rw [fileTableCleanup, hb]
    rw [hc]
    refine ⟨h, fun fd => ?_, ho, fun b => ?_⟩
    · rw [lookup, hs]
      rfl
    · rw [ho, count_nil, Nat.add_zero]
  | some a =>
    obtain ⟨t, ht⟩ : ∃ t : Files, t = s.fileTableCleanup := ⟨_, rfl⟩
    have hcount : ∀ b, t.frees.count b = s.frees.count b + s.owned.count b := by
      intro b
      simp only [ht, fileTableCleanup, owned, hb, count_append, toList_some]
      omega
    have htab : t.handles = none ∧ t.slots = [] ∧ t.next = s.next := by
      rw [ht, fileTableCleanup, hb]
      exact ⟨rfl, rfl, rfl⟩
    have ho : t.owned = [] := by
      rw [owned, htab.1, htab.2.1]
      rfl
    rw [← ht]
    refine ⟨⟨fun b => ?_, fun _ => htab.2.1, .inl htab.2.1⟩, fun fd => ?_, ho, hcount⟩
    · have hbal := h.balance b
      rw [ho, hcount, htab.2.2]
      simp only [count_nil] at hbal ⊢
      omega
    · rw [lookup, htab.2.1]
      rfl

/-! ## Sequences of calls -/

/-- One call. -/
theorem step_spec (h : s.Inv []) (c : Call)
    (hfit : match c with | .open _ _ _ _ _ _ => s.lowestFree < 2 ^ 31 | _ => True) :
    ∃ r s', s.step c = some (r, s') ∧ s'.Inv [] ∧ Follows s r s' c := by
  cases c with
  | «open» userStr flags stat mem tableMem handleMem =>
    exact sysOpen_spec h hfit userStr flags stat mem tableMem handleMem
  | close fd => exact ⟨_, _, rfl, sysClose_spec h fd⟩
  | cleanup => exact ⟨0, _, rfl, fileTableCleanup_spec h⟩

/-- A sequence of calls from a state between calls. -/
theorem correct_of_fits (cs : List Call) (h : s.Inv []) (hfits : Fits cs s) : Correct cs s := by
  induction cs generalizing s with
  | nil => exact h.balanced
  | cons c cs ih =>
    obtain ⟨r, s', hr, hinv, hspec⟩ := step_spec h c hfits.1
    exact ⟨h.balanced, r, s', hr, hspec, ih hinv (hfits.2 r s' hr)⟩

/-- Through every sequence of calls in which the lowest free descriptor fits an `int` when a file is opened,
the calls do what they should, and every block is freed exactly once when the table gives it up. -/
theorem file_table_correct (cs : List Call) (hfits : Fits cs empty) : Correct cs empty :=
  correct_of_fits cs ⟨fun _ => rfl, fun _ => rfl, .inl rfl⟩ hfits

/-- Opening `a`, where everything succeeds. -/
def sampleOpen : Call := .open (some [0x61, 0]) 0 (fun _ => some ⟨0, false⟩) [true] true true

/-- Open, open, close the first descriptor, and open again, which gives the first one again. -/
theorem file_table_correct_reuse :
    Fits [sampleOpen, sampleOpen, .close 3, sampleOpen] empty ∧
      Correct [sampleOpen, sampleOpen, .close 3, sampleOpen] empty := by
  refine (and_iff_left_of_imp (file_table_correct _)).mpr ?_
  refine ⟨show lowestFree _ < 2 ^ 31 by decide +kernel, fun r s hs => ?_⟩
  obtain rfl := (Prod.mk.inj (some.inj hs)).2
  refine ⟨show lowestFree _ < 2 ^ 31 by decide +kernel, fun r s hs => ?_⟩
  obtain rfl := (Prod.mk.inj (some.inj hs)).2
  refine ⟨trivial, fun r s hs => ?_⟩
  obtain rfl := (Prod.mk.inj (some.inj hs)).2
  exact ⟨show lowestFree _ < 2 ^ 31 by decide +kernel, fun _ _ _ => trivial⟩

/-! ## A descriptor that is no `int` -/

/-- The state after some files have been opened, if no call faults. -/
def openMany (n : ℕ) : Option Files :=
  (replicate n sampleOpen).foldlM (fun s c => (s.step c).map Prod.snd) empty

/-- One more file. -/
theorem openMany_succ (n : ℕ) :
    openMany (n + 1) = (openMany n).bind fun s => (s.step sampleOpen).map Prod.snd := by
  rw [openMany, replicate_succ', foldlM_append]
  simp only [foldlM_cons, foldlM_nil, bind_pure]
  rfl

/-- The first `n` descriptors are open, and the table is as small as growing allows. -/
structure Filled (n : ℕ) (s : Files) : Prop where
  isOpen : ∀ k, 3 ≤ k → k < n + 3 → s.lookup k ≠ none
  isFree : ∀ k, n + 3 ≤ k → s.lookup k = none
  cap : (n = 0 ∧ s.slots.length = 0) ∨ ∃ k, s.slots.length = 2 ^ (k + 4) ∧ n + 3 ≤ s.slots.length ∧
    (k = 0 ∨ s.slots.length < 2 * (n + 3))

theorem Filled.lowestFree (h : s.Filled n) : s.lowestFree = n + 3 := by
  rcases Nat.lt_trichotomy s.lowestFree (n + 3) with hlt | heq | hgt
  · exact absurd (lookup_lowestFree s) (h.isOpen _ (Nat.le_add_right _ _) hlt)
  · exact heq
  · exact absurd (h.isFree _ (Nat.le_refl _)) (lookup_of_lt_lowestFree (Nat.le_add_left _ _) hgt)

/-- The copy of the name and `fs_stat` always succeed here. -/
theorem step_sampleOpen (s : Files) :
    s.step sampleOpen = s.kmalloc.bindHandle s.next [0x61] ⟨0, false⟩ 0 true true := rfl

/-- The table has no slots or at least 16. -/
theorem Filled.size (h : s.Filled n) : s.slots = [] ∨ 16 ≤ s.slots.length := by
  rcases h.cap with ⟨_, h0⟩ | ⟨k, hk, _⟩
  · exact .inl (length_eq_zero_iff.mp h0)
  · have := Nat.pow_le_pow_right (by decide : 0 < 2) (Nat.le_add_left 4 k)
    exact .inr (by omega)

/-- Each further file that is opened gets the next descriptor. -/
theorem Filled.bindHandle (h : s.Filled n) (hn : n + 3 < 2 ^ 31) (kpath : ℕ) (name : CString)
    (entry : FileStat) (flags : ℕ) :
    ∃ r s', s.bindHandle kpath name entry flags true true = some (r, s') ∧ s'.Filled (n + 1) := by
  have hlow : s.lowestFree = n + 3 := h.lowestFree
  have hfit : s.lowestFree < 2 ^ 31 := by omega
  have hlt : n + 3 < s.room.slots.length := hlow ▸ lowestFree_lt_room h.size hfit
  have hsame := lookup_room hfit
  obtain ⟨s', fh, hs', hslots⟩ : ∃ (s' : Files) (fh : FileHandle),
      s.bindHandle kpath name entry flags true true = some (((n + 3 : ℕ) : ℤ), s') ∧
        s'.slots = s.room.slots.set (n + 3) (some fh) := by
    rw [bindHandle_eq h.size hfit, if_pos (.inr rfl), hlow, storeHandle_eq hlt]
    exact ⟨_, _, rfl, rfl⟩
  have hlook : ∀ k, s'.lookup k = if n + 3 = k then some fh else s.lookup k := by
    intro k
    rw [← hsame k, lookup, hslots, lookup_set hlt]
    rfl
  refine ⟨_, s', hs', fun k h3 hk => ?_, fun k hk => ?_, .inr ?_⟩
  · rw [hlook]
    split
    · simp
    · exact h.isOpen k h3 (by omega)
  · rw [hlook, if_neg (by omega)]
    exact h.isFree k (by omega)
  · rw [hslots, length_set, room]
    split
    · next hin =>
        rcases h.cap with ⟨_, h0⟩ | ⟨k, hk, hge, hlt⟩
        · omega
        · exact ⟨k, hk, by omega, by omega⟩
    · next hfull =>
        rw [grow_slots (by omega), length_append, length_replicate]
        rcases h.cap with ⟨hn0, h0⟩ | ⟨k, hk, hge, hlt⟩
        · rw [if_pos h0]
          exact ⟨0, by omega, by omega, .inl rfl⟩
        · rw [if_neg (by omega)]
          refine ⟨k + 1, ?_, by omega, .inr (by omega)⟩
          have hpow : 2 ^ (k + 1 + 4) = 2 ^ (k + 4) * 2 := by rw [← Nat.pow_succ]
          omega

/-- All descriptors that are an `int` can be opened. -/
theorem openMany_filled (n : ℕ) (hn : n + 3 ≤ 2 ^ 31) : ∃ s, openMany n = some s ∧ s.Filled n := by
  induction n with
  | zero =>
    refine ⟨empty, rfl, fun k h3 hk => absurd hk (by omega), fun k _ => ?_, .inl ⟨rfl, rfl⟩⟩
    simp [lookup, empty]
  | succ n ih =>
    obtain ⟨s, hs, hfilled⟩ := ih (by omega)
    have hnamed : s.kmalloc.Filled n := ⟨hfilled.isOpen, hfilled.isFree, hfilled.cap⟩
    obtain ⟨r, s', hs', hfilled'⟩ := hnamed.bindHandle (by omega) s.next [0x61] ⟨0, false⟩ 0
    refine ⟨s', ?_, hfilled'⟩
    rw [openMany_succ, hs, bind_some, step_sampleOpen, hs', map_some]

/-- A full table with the largest descriptor that is an `int`. -/
theorem Filled.length_eq (h : s.Filled (2 ^ 31 - 3)) : s.slots.length = 2 ^ 31 := by
  rcases h.cap with ⟨h0, _⟩ | ⟨k, hk, hge, hlt⟩
  · cases h0
  · rw [hk]
    have h31 : 31 ≤ k + 4 := (Nat.pow_le_pow_iff_right (by decide : 1 < 2)).mp (by omega)
    have h32 : k + 4 < 32 := by
      rcases hlt with h0 | hlt
      · omega
      · exact (Nat.pow_lt_pow_iff_right (by decide : 1 < 2)).mp (by omega)
    rw [show k + 4 = 31 by omega]

/-- After `2 ^ 31 - 3` files the table has `2 ^ 31` slots and all descriptors from 3 on are open; opening
another one doubles the table and stores the handle at `handles[(int)2147483648]`, before the array. -/
theorem open_beyond_int : (openMany (2 ^ 31 - 3)).isSome = true ∧ openMany (2 ^ 31 - 3 + 1) = none := by
  obtain ⟨s, hs, h⟩ := openMany_filled (2 ^ 31 - 3) (by decide)
  have hlow : s.kmalloc.lowestFree = 2 ^ 31 := h.lowestFree
  have hlen : s.kmalloc.slots.length = 2 ^ 31 := h.length_eq
  refine ⟨by rw [hs]; rfl, ?_⟩
  rw [openMany_succ, hs, bind_some, step_sampleOpen]
  have hb : s.kmalloc.bindHandle s.next [0x61] ⟨0, false⟩ 0 true true = none := by
    simp only [bindHandle, hlow, hlen]
    rw [if_pos (by decide), if_neg (by decide), storeHandle, if_neg (by decide), if_neg]
    exact fun hf => nomatch hf.1
  rw [hb, map_none]

end Files

end NovaOS.Syscall
