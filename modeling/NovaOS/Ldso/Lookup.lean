import Mathlib.Data.List.Perm.Subperm
import Mathlib.Tactic.IntervalCases
import NovaOS.Lib.Links
import NovaOS.Lib.Word

/-!
# Symbol lookup

Reference: `lib/ldso/rtld.c`, `lib/ldso/elf.h`.

`rtldLookupInObject` with the tables of a shared object as they lie in memory: a read outside a table is
`none`, as is a division by zero and a search that runs out of steps. `GnuHash` and `SysvHash` say what
the formats `DT_GNU_HASH` and `DT_HASH` prescribe. `rtldLookupInObject_iff` is for every symbol table:
the search returns, and it finds a symbol where a scan of the symbol table does.
-/

namespace NovaOS.Ldso

open NovaOS.Lib List Nat Option

/-- `SHN_UNDEF`. -/
def shnUndef : BitVec 16 := 0

structure Elf64Sym where
  stName : BitVec 32
  stInfo : BitVec 8
  stShndx : BitVec 16
  stValue : BitVec 64
  stSize : BitVec 64
deriving DecidableEq, Repr

/-- The fields of `SharedObject` that a lookup reads; `none` is a null pointer. -/
structure SymbolTables where
  symtab : Option (List Elf64Sym)
  strtab : Option (List UInt8)
  gnuHash : Option (List (BitVec 32))
  hash : Option (List (BitVec 32))

/-! ## The hash functions -/

/-- A byte as a word. -/
def byteWord (c : UInt8) : BitVec 32 := c.toBitVec.setWidth 32

/-- One round of `rtldElfHash`. -/
def elfHashStep (h : BitVec 32) (c : UInt8) : BitVec 32 :=
  let h := (h <<< 4) + byteWord c
  let g := h &&& 0xf0000000#32
  let h := if g ≠ 0#32 then h ^^^ (g >>> 24) else h
  h &&& ~~~g

def rtldElfHash (name : List UInt8) : BitVec 32 := name.foldl elfHashStep 0#32

def rtldGnuHash (name : List UInt8) : BitVec 32 :=
  name.foldl (fun h c => (h <<< 5) + h + byteWord c) 5381#32

/-- One round of the hash of the `DT_GNU_HASH` format: `h * 33 + c` in 32 bits. -/
def gnuRound (h : ℕ) (c : UInt8) : ℕ := (h * 33 + c.toNat) % 2 ^ 32

def gnuHashOf (name : List UInt8) : ℕ := name.foldl gnuRound 5381

/-- One round of the hash of the `DT_HASH` format: of `h * 16 + c` in 32 bits, the four bits beyond 28
are taken off and added modulo two at bit 4. -/
def elfRound (h : ℕ) (c : UInt8) : ℕ :=
  ((h * 16 + c.toNat) % 2 ^ 28) ^^^ ((h * 16 + c.toNat) % 2 ^ 32 / 2 ^ 28 * 16)

def elfHashOf (name : List UInt8) : ℕ := name.foldl elfRound 0

theorem elfHashStep_eq (h : BitVec 32) (c : UInt8) :
    elfHashStep h c = (((h <<< 4) + byteWord c) <<< 4) >>> 4 ^^^
      (((h <<< 4) + byteWord c) >>> 28) <<< 4 := by
  unfold elfHashStep
  dsimp only
  generalize (h <<< 4) + byteWord c = t
  -- without a bit beyond 28 the exclusive or changes nothing
  have hxor : (if t &&& 0xf0000000#32 ≠ 0#32 then t ^^^ ((t &&& 0xf0000000#32) >>> 24) else t) =
      t ^^^ ((t &&& 0xf0000000#32) >>> 24) := by
    split
    · rfl
    · rename_i hzero
      rw [not_not.mp hzero, BitVec.zero_ushiftRight, BitVec.xor_zero]
  rw [hxor]
  ext i hi
  interval_cases i <;> simp

theorem toNat_byteWord (c : UInt8) : (byteWord c).toNat = c.toNat := by
  have hlt := c.toNat_lt
  rw [byteWord, BitVec.toNat_setWidth, UInt8.toNat_toBitVec]
  omega

theorem toNat_elfHashStep (h : BitVec 32) (c : UInt8) :
    (elfHashStep h c).toNat = elfRound h.toNat c := by
  have hsum : ((h <<< 4) + byteWord c).toNat = (h.toNat * 16 + c.toNat) % 2 ^ 32 := by
    rw [BitVec.toNat_add, BitVec.toNat_shiftLeft, toNat_byteWord]
    omega
  rw [elfHashStep_eq, BitVec.toNat_xor, BitVec.toNat_ushiftRight, BitVec.toNat_shiftLeft,
    BitVec.toNat_shiftLeft, BitVec.toNat_ushiftRight, shiftLeft_eq, shiftRight_eq_div_pow,
    shiftLeft_eq, shiftRight_eq_div_pow, elfRound]
  congr 1
  · omega
  · omega

theorem toNat_gnuHashStep (h : BitVec 32) (c : UInt8) :
    ((h <<< 5) + h + byteWord c).toNat = gnuRound h.toNat c := by
  rw [BitVec.toNat_add, BitVec.toNat_add, BitVec.toNat_shiftLeft, toNat_byteWord, gnuRound]
  omega

/-- `rtldElfHash` is the hash of the format. -/
theorem toNat_rtldElfHash (name : List UInt8) : (rtldElfHash name).toNat = elfHashOf name :=
  (foldl_hom BitVec.toNat fun h c => (toNat_elfHashStep h c).symm).symm

/-- `rtldGnuHash` is the hash of the format. -/
theorem toNat_rtldGnuHash (name : List UInt8) : (rtldGnuHash name).toNat = gnuHashOf name :=
  (foldl_hom BitVec.toNat fun h c => (toNat_gnuHashStep h c).symm).symm

/-! ## The lookup -/

/-- `rtldStrcmp(strtab + offset, name)`. -/
def rtldStrcmp (strtab : List UInt8) : (offset : ℕ) → (name : List UInt8) → Option ℤ
  | offset, [] => strtab[offset]?.map fun a => (a.toNat : ℤ)
  | offset, b :: name =>
    match strtab[offset]? with
    | none => none
    | some a =>
      if a ≠ 0 ∧ a = b then rtldStrcmp strtab (offset + 1) name
      else some ((a.toNat : ℤ) - b.toNat)

/-- The symbol has the name and is defined. -/
def isMatch (symtab : List Elf64Sym) (strtab name : List UInt8) (symIdx : ℕ) : Option Bool :=
  match symtab[symIdx]? with
  | none => none
  | some sym =>
    (rtldStrcmp strtab sym.stName.toNat name).map fun c => c == 0 && sym.stShndx != shnUndef

/-- The loop over a chain of a `DT_GNU_HASH` table. -/
def gnuChain (symtab : List Elf64Sym) (strtab name : List UInt8) (chains : ℕ → Option (BitVec 32))
    (symOffset : ℕ) (hash : BitVec 32) : (fuel symIdx : ℕ) → Option (Option ℕ)
  | 0, _ => none
  | fuel + 1, symIdx =>
    match chains (sub32 symIdx symOffset) with
    | none => none
    | some chainVal =>
      match if chainVal >>> 1 = hash >>> 1 then isMatch symtab strtab name symIdx
        else some false with
      | none => none
      | some true => some (some symIdx)
      | some false =>
        if chainVal &&& 1#32 ≠ 0#32 then some none
        else gnuChain symtab strtab name chains symOffset hash fuel (wrap32 (symIdx + 1))

/-- `bloom[k]`, the words of the filter being of 64 bits. -/
def bloomWord (h : List (BitVec 32)) (k : ℕ) : Option (BitVec 64) :=
  match h[4 + 2 * k]?, h[4 + 2 * k + 1]? with
  | some low, some high => some (high ++ low)
  | _, _ => none

/-- The two bits of a hash in its word of the filter. -/
def bloomMask (hash : BitVec 32) (bloomShift : ℕ) : BitVec 64 :=
  (1#64 <<< (hash.toNat % 64)) ||| (1#64 <<< ((hash >>> bloomShift).toNat % 64))

/-- The search in a `DT_GNU_HASH` table. -/
def gnuLookup (symtab : List Elf64Sym) (strtab : List UInt8) (h : List (BitVec 32)) (fuel : ℕ)
    (name : List UInt8) : Option (Option ℕ) := do
  let nbuckets ← h[0]?
  let symOffset ← h[1]?
  let bloomSize ← h[2]?
  let bloomShift ← h[3]?
  let buckets := 4 + 2 * bloomSize.toNat
  let chains := buckets + nbuckets.toNat
  let hash := rtldGnuHash name
  if bloomSize = 0#32 then none
  else
    let word ← bloomWord h (hash.toNat / 64 % bloomSize.toNat)
    let mask := bloomMask hash bloomShift.toNat
    if word &&& mask ≠ mask then some none
    else if nbuckets = 0#32 then none
    else
      let symIdx ← h[buckets + hash.toNat % nbuckets.toNat]?
      if symIdx.toNat < symOffset.toNat then some none
      else gnuChain symtab strtab name (fun i => h[chains + i]?) symOffset.toNat hash fuel symIdx.toNat

/-- The loop over a chain of a `DT_HASH` table. -/
def sysvChain (symtab : List Elf64Sym) (strtab name : List UInt8) (chains : ℕ → Option (BitVec 32)) :
    (fuel symIdx : ℕ) → Option (Option ℕ)
  | 0, _ => none
  | fuel + 1, symIdx =>
    if symIdx = 0 then some none
    else
      match isMatch symtab strtab name symIdx with
      | none => none
      | some true => some (some symIdx)
      | some false =>
        match chains symIdx with
        | none => none
        | some next => sysvChain symtab strtab name chains fuel next.toNat

/-- The search in a `DT_HASH` table. -/
def sysvLookup (symtab : List Elf64Sym) (strtab : List UInt8) (h : List (BitVec 32)) (fuel : ℕ)
    (name : List UInt8) : Option (Option ℕ) := do
  let nbucket ← h[0]?
  if nbucket = 0#32 then none
  else
    let symIdx ← h[2 + (rtldElfHash name).toNat % nbucket.toNat]?
    sysvChain symtab strtab name (fun i => h[2 + nbucket.toNat + i]?) fuel symIdx.toNat

/-- `rtldLookupInObject`, with the index of the symbol it returns. -/
def SymbolTables.rtldLookupInObject (obj : SymbolTables) (fuel : ℕ) (name : List UInt8) :
    Option (Option ℕ) :=
  match obj.symtab, obj.strtab with
  | some symtab, some strtab =>
    match obj.gnuHash.elim (some none) fun h => gnuLookup symtab strtab h fuel name with
    | none => none
    | some (some symIdx) => some (some symIdx)
    | some none => obj.hash.elim (some none) fun h => sysvLookup symtab strtab h fuel name
  | _, _ => some none

/-! ## Names -/

/-- The string at an offset of a string table. -/
def stringAt (strtab : List UInt8) (offset : ℕ) : List UInt8 :=
  (strtab.drop offset).takeWhile (· ≠ 0)

section Strings

variable {strtab : List UInt8} {offset : ℕ}

/-- A string that ends inside the table, and its first byte. -/
theorem stringAt_eq (hend : 0 ∈ strtab.drop offset) :
    ∃ a, strtab[offset]? = some a ∧
      ((a = 0 ∧ stringAt strtab offset = []) ∨ (a ≠ 0 ∧ 0 ∈ strtab.drop (offset + 1) ∧
        stringAt strtab offset = a :: stringAt strtab (offset + 1))) := by
  unfold stringAt
  rw [← head?_drop, ← tail_drop]
  generalize strtab.drop offset = l at hend
  cases l with
  | nil => cases hend
  | cons a rest =>
    refine ⟨a, rfl, ?_⟩
    by_cases ha : a = 0
    · exact .inl ⟨ha, by simp [ha]⟩
    · refine .inr ⟨ha, (mem_cons.mp hend).resolve_left (Ne.symm ha), ?_⟩
      rw [takeWhile_cons, if_pos (by simpa using ha), tail_cons]

/-- Comparing with a string that ends inside the table. -/
theorem rtldStrcmp_spec (hend : 0 ∈ strtab.drop offset) {name : List UInt8} (hname : 0 ∉ name) :
    ∃ c, rtldStrcmp strtab offset name = some c ∧ (c = 0 ↔ stringAt strtab offset = name) := by
  induction name generalizing offset with
  | nil =>
    obtain ⟨a, ha, hstring⟩ := stringAt_eq hend
    refine ⟨a.toNat, by rw [rtldStrcmp, ha, map_some], ?_⟩
    rw [Int.natCast_eq_zero, ← UInt8.toNat_zero, UInt8.toNat_inj]
    rcases hstring with ⟨hzero, heq⟩ | ⟨hne, -, heq⟩
    · rw [heq]
      exact iff_of_true hzero rfl
    · rw [heq]
      exact iff_of_false hne (cons_ne_nil _ _)
  | cons b name ih =>
    obtain ⟨a, ha, hstring⟩ := stringAt_eq hend
    rw [mem_cons, not_or] at hname
    rw [rtldStrcmp, ha]
    dsimp only
    by_cases hgoes : a ≠ 0 ∧ a = b
    · obtain ⟨hne, rfl⟩ := hgoes
      rw [if_pos ⟨hne, rfl⟩]
      obtain ⟨-, hrest, heq⟩ := hstring.resolve_left fun h => hne h.1
      obtain ⟨c, hc, hiff⟩ := ih hrest hname.2
      exact ⟨c, hc, by rw [hiff, heq, cons.injEq, and_iff_right rfl]⟩
    · rw [if_neg hgoes]
      -- the bytes differ, as the name has no zero
      have hdiffer : a ≠ b := by
        rintro rfl
        exact hgoes ⟨Ne.symm hname.1, rfl⟩
      refine ⟨_, rfl, iff_of_false ?_ ?_⟩
      · intro hzero
        apply hdiffer
        rw [← UInt8.toNat_inj]
        omega
      · intro heq
        rcases hstring with ⟨-, h⟩ | ⟨-, -, h⟩
        · rw [h] at heq
          cases heq
        · rw [h] at heq
          exact hdiffer (cons.inj heq).1

end Strings

/-- The symbol `i` is defined and has the name. -/
def Matches (symtab : List Elf64Sym) (strtab name : List UInt8) (i : ℕ) : Prop :=
  ∃ sym, symtab[i]? = some sym ∧ stringAt strtab sym.stName.toNat = name ∧ sym.stShndx ≠ shnUndef

/-- A scan of the symbol table for a defined symbol with the name. -/
def linearScan (symtab : List Elf64Sym) (strtab name : List UInt8) : Option ℕ :=
  symtab.findIdx? fun sym =>
    stringAt strtab sym.stName.toNat == name && sym.stShndx != shnUndef

/-- The symbol `i` is defined. -/
def Defined (symtab : List Elf64Sym) (i : ℕ) : Prop :=
  ∃ sym, symtab[i]? = some sym ∧ sym.stShndx ≠ shnUndef

/-- The name of the symbol `i`. -/
def symName (symtab : List Elf64Sym) (strtab : List UInt8) (i : ℕ) : List UInt8 :=
  (symtab[i]?).elim [] fun sym => stringAt strtab sym.stName.toNat

/-- Every symbol has a name, which ends inside the string table. -/
def NamesEnd (symtab : List Elf64Sym) (strtab : List UInt8) : Prop :=
  ∀ sym ∈ symtab, 0 ∈ strtab.drop sym.stName.toNat

section Names

variable {symtab : List Elf64Sym} {strtab name : List UInt8}

variable {i : ℕ}

theorem isMatch_spec (hnames : NamesEnd symtab strtab) (hname : 0 ∉ name) (hi : i < symtab.length) :
    ∃ b, isMatch symtab strtab name i = some b ∧ (b = true ↔ Matches symtab strtab name i) := by
  have hget : symtab[i]? = some symtab[i] := getElem?_eq_getElem hi
  obtain ⟨c, hc, hiff⟩ := rtldStrcmp_spec (hnames _ (getElem_mem hi)) hname
  refine ⟨_, by rw [isMatch, hget]; dsimp only; rw [hc, map_some], ?_⟩
  rw [Bool.and_eq_true, beq_iff_eq, hiff, bne_iff_ne]
  constructor
  · exact fun h => ⟨_, hget, h⟩
  · rintro ⟨sym, hsym, h⟩
    obtain rfl := mem_unique hget hsym
    exact h

section

variable (h : Matches symtab strtab name i)
include h

theorem Matches.defined : Defined symtab i :=
  let ⟨sym, hsym, _, hdef⟩ := h
  ⟨sym, hsym, hdef⟩

theorem Matches.name_eq : symName symtab strtab i = name := by
  obtain ⟨sym, hsym, hname, -⟩ := h
  rw [symName, hsym]
  exact hname

theorem Matches.lt : i < symtab.length := by
  obtain ⟨sym, hsym, -⟩ := h
  exact (List.getElem?_eq_some_iff.mp hsym).1

end

theorem linearScan_isSome :
    (linearScan symtab strtab name).isSome ↔ ∃ i, Matches symtab strtab name i := by
  rw [linearScan, findIdx?_isSome, List.any_eq_true]
  constructor
  · rintro ⟨sym, hmem, hsym⟩
    obtain ⟨i, hi⟩ := getElem?_of_mem hmem
    rw [Bool.and_eq_true, beq_iff_eq, bne_iff_ne] at hsym
    exact ⟨i, sym, hi, hsym⟩
  · rintro ⟨i, sym, hi, hsym⟩
    refine ⟨sym, mem_of_getElem? hi, ?_⟩
    rwa [Bool.and_eq_true, beq_iff_eq, bne_iff_ne]

/-- A search returns, with a symbol that matches, or without one where none with `P` matches. -/
def Answers (symtab : List Elf64Sym) (strtab name : List UInt8) (P : ℕ → Prop) (x : Option (Option ℕ)) :
    Prop :=
  ∃ r, x = some r ∧ (∀ k, r = some k → Matches symtab strtab name k) ∧
    (r = none → ∀ k, P k → ¬Matches symtab strtab name k)

variable {P Q : ℕ → Prop} {x : Option (Option ℕ)}

theorem Matches.answers (h : Matches symtab strtab name i) :
    Answers symtab strtab name P (some (some i)) :=
  ⟨some i, rfl, fun _ hk => some.inj hk ▸ h, fun hnone => nomatch hnone⟩

theorem Answers.absent (h : ∀ k, P k → ¬Matches symtab strtab name k) :
    Answers symtab strtab name P (some none) :=
  ⟨none, rfl, fun _ hk => absurd hk (by simp), fun _ => h⟩

theorem Answers.mono (h : Answers symtab strtab name P x)
    (hsub : ∀ k, Q k → Matches symtab strtab name k → P k) : Answers symtab strtab name Q x := by
  obtain ⟨r, hr, hfound, hnone⟩ := h
  exact ⟨r, hr, hfound, fun hr k hk hmatch => hnone hr k (hsub k hk hmatch) hmatch⟩

end Names

/-- A length that fits a word. -/
theorem toNat_ofNat_of_lt {n : ℕ} (hn : n < 2 ^ 32) : (BitVec.ofNat 32 n).toNat = n := by
  rw [BitVec.toNat_ofNat, mod_eq_of_lt hn]

theorem ofNat_ne_zero {n : ℕ} (hpos : 0 < n) (hn : n < 2 ^ 32) : BitVec.ofNat 32 n ≠ 0#32 := fun heq =>
  hpos.ne' ((toNat_ofNat_of_lt hn).symm.trans (congrArg BitVec.toNat heq))

theorem getElem?_append_add {α : Type*} {l1 l2 : List α} {n : ℕ} (hn : l1.length = n) (i : ℕ) :
    (l1 ++ l2)[n + i]? = l2[i]? := by
  subst hn
  rw [getElem?_append_right (Nat.le_add_right _ _), Nat.add_sub_cancel_left]

/-! ## The formats -/

/-- The parts of a `DT_GNU_HASH` table. -/
structure GnuHash where
  symOffset : ℕ
  bloomShift : ℕ
  bloom : List (BitVec 64)
  buckets : List (BitVec 32)
  chains : List (BitVec 32)

/-- The filter in memory, the lower half of a word first. -/
def GnuHash.bloomWords (t : GnuHash) : List (BitVec 32) :=
  t.bloom.flatMap fun w : BitVec 64 => [w.setWidth 32, (w >>> 32).setWidth 32]

/-- The table in memory. -/
def GnuHash.words (t : GnuHash) : List (BitVec 32) :=
  [BitVec.ofNat 32 t.buckets.length, BitVec.ofNat 32 t.symOffset, BitVec.ofNat 32 t.bloom.length,
    BitVec.ofNat 32 t.bloomShift] ++ t.bloomWords ++ t.buckets ++ t.chains

/-- A table as the format prescribes, for `n` symbols of which `hash i` is the hash of the name: the
symbols from `symOffset` on are hashed. They are sorted by bucket; a bucket holds the index of its first
symbol, or zero. The chain holds the hash of each hashed symbol, with the lowest bit set for the last
one of a bucket. The filter has the two bits of each hash. -/
structure GnuHash.WellFormed (t : GnuHash) (n : ℕ) (hash : ℕ → ℕ) : Prop where
  symOffset_pos : 0 < t.symOffset
  symOffset_le : t.symOffset ≤ n
  n_lt : n < 2 ^ 32
  bloomShift_lt : t.bloomShift < 32
  bloom_pos : t.bloom ≠ []
  bloom_lt : t.bloom.length < 2 ^ 32
  buckets_pos : t.buckets ≠ []
  buckets_lt : t.buckets.length < 2 ^ 32
  sorted : ∀ i j, t.symOffset ≤ i → i ≤ j → j < n →
    hash i % t.buckets.length ≤ hash j % t.buckets.length
  bucket_empty : ∀ b v, t.buckets[b]? = some v →
    (∀ i, t.symOffset ≤ i → i < n → hash i % t.buckets.length ≠ b) → v = 0#32
  bucket_first : ∀ b v, t.buckets[b]? = some v → ∀ i, t.symOffset ≤ i → i < n →
    hash i % t.buckets.length = b →
      v.toNat ≤ i ∧ t.symOffset ≤ v.toNat ∧ hash v.toNat % t.buckets.length = b
  chains_length : t.chains.length = n - t.symOffset
  chain : ∀ k v, t.chains[k]? = some v →
    v.toNat / 2 = hash (t.symOffset + k) / 2 ∧ (v.toNat % 2 = 1 ↔ t.symOffset + k + 1 = n ∨
      hash (t.symOffset + k + 1) % t.buckets.length ≠ hash (t.symOffset + k) % t.buckets.length)
  filter : ∀ i, t.symOffset ≤ i → i < n → ∀ w, t.bloom[hash i / 64 % t.bloom.length]? = some w →
    w.getLsbD (hash i % 64) = true ∧ w.getLsbD (hash i / 2 ^ t.bloomShift % 64) = true

section Gnu

variable {t : GnuHash}

theorem getElem?_flatMap_pair {α β : Type*} (f g : α → β) (l : List α) (k : ℕ) :
    (l.flatMap fun a => [f a, g a])[2 * k]? = l[k]?.map f ∧
      (l.flatMap fun a => [f a, g a])[2 * k + 1]? = l[k]?.map g := by
  induction l generalizing k with
  | nil => simp
  | cons a l ih =>
    cases k with
    | zero => simp
    | succ k =>
      obtain ⟨hf, hg⟩ := ih k
      exact ⟨hf, hg⟩

theorem length_flatMap_pair {α β : Type*} (f g : α → β) (l : List α) :
    (l.flatMap fun a => [f a, g a]).length = 2 * l.length := by
  induction l with
  | nil => rfl
  | cons a l ih =>
    rw [flatMap_cons, length_append]
    simp only [length_cons, length_nil]
    omega

theorem GnuHash.length_bloomWords (t : GnuHash) : t.bloomWords.length = 2 * t.bloom.length :=
  length_flatMap_pair _ _ t.bloom

theorem GnuHash.words_bloomWords {j : ℕ} (hj : j < 2 * t.bloom.length) :
    t.words[4 + j]? = t.bloomWords[j]? := by
  rw [GnuHash.words, append_assoc, append_assoc, getElem?_append_add (n := 4) rfl]
  exact getElem?_append_left (t.length_bloomWords ▸ hj)

theorem GnuHash.words_bloom {k : ℕ} (hk : k < t.bloom.length) :
    bloomWord t.words k = t.bloom[k]? := by
  obtain ⟨hlow, hhigh⟩ := getElem?_flatMap_pair (fun w : BitVec 64 => w.setWidth 32)
    (fun w : BitVec 64 => (w >>> 32).setWidth 32) t.bloom k
  have hword : ∀ w : BitVec 64, (w >>> 32).setWidth 32 ++ w.setWidth 32 = w := by
    intro w
    ext i hi
    simp only [BitVec.getElem_append, BitVec.getElem_setWidth, BitVec.getLsbD_ushiftRight]
    split
    · rfl
    · rw [show 32 + (i - 32) = i by omega]
      rfl
  have hget : t.bloom[k]? = some t.bloom[k] := getElem?_eq_getElem hk
  rw [hget, map_some] at hlow hhigh
  unfold bloomWord
  rw [add_assoc, GnuHash.words_bloomWords (by omega), GnuHash.words_bloomWords (by omega),
    GnuHash.bloomWords, hlow, hhigh, hget]
  dsimp only
  rw [hword]

theorem GnuHash.words_buckets {b : ℕ} (hb : b < t.buckets.length) :
    t.words[4 + 2 * t.bloom.length + b]? = t.buckets[b]? := by
  rw [GnuHash.words, append_assoc, getElem?_append_add]
  · exact getElem?_append_left hb
  · rw [length_append, t.length_bloomWords]
    rfl

theorem GnuHash.words_chains (i : ℕ) :
    t.words[4 + 2 * t.bloom.length + t.buckets.length + i]? = t.chains[i]? := by
  apply getElem?_append_add
  rw [length_append, length_append, t.length_bloomWords]
  rfl

theorem and_one_ne_zero_iff (v : BitVec 32) : v &&& 1#32 ≠ 0#32 ↔ v.toNat % 2 = 1 := by
  rw [ne_eq, ← BitVec.toNat_inj, BitVec.toNat_and]
  simp only [BitVec.toNat_ofNat, Nat.reducePow, Nat.reduceMod, and_one_is_mod]
  omega

theorem ushiftRight_one_inj (v w : BitVec 32) : v >>> 1 = w >>> 1 ↔ v.toNat / 2 = w.toNat / 2 := by
  rw [← BitVec.toNat_inj, BitVec.toNat_ushiftRight, BitVec.toNat_ushiftRight,
    shiftRight_eq_div_pow, shiftRight_eq_div_pow]

section Search

variable {symtab : List Elf64Sym} {strtab name : List UInt8}

variable {fuel : ℕ}

/-- The walk along a chain from a symbol of the bucket: it returns, and if it finds nothing there is
nothing from this symbol on. -/
theorem gnuChain_spec (hnames : NamesEnd symtab strtab) (hname : 0 ∉ name)
    (hwf : t.WellFormed symtab.length fun i => gnuHashOf (symName symtab strtab i)) {i : ℕ}
    (hfuel : symtab.length - i ≤ fuel) (hoffset : t.symOffset ≤ i) (hi : i < symtab.length)
    (hbucket : gnuHashOf (symName symtab strtab i) % t.buckets.length =
      gnuHashOf name % t.buckets.length) :
    Answers symtab strtab name (i ≤ ·)
      (gnuChain symtab strtab name (fun j => t.chains[j]?) t.symOffset (rtldGnuHash name) fuel i) := by
  induction fuel generalizing i with
  | zero => omega
  | succ fuel ih =>
    have hn := hwf.n_lt
    have hlen := hwf.chains_length
    have hlt : i - t.symOffset < t.chains.length := by omega
    obtain ⟨hchain, hlast⟩ := hwf.chain _ _ (getElem?_eq_getElem hlt)
    rw [Nat.add_sub_cancel' hoffset] at hchain hlast
    rw [gnuChain, sub32_of_le hoffset (by omega), getElem?_eq_getElem hlt]
    generalize t.chains[i - t.symOffset] = v at hchain hlast
    dsimp only
    -- the symbol is compared only if the hashes agree, but with the name they do
    have hcompare : ∃ b, (if v >>> 1 = rtldGnuHash name >>> 1 then isMatch symtab strtab name i
        else some false) = some b ∧ (b = true ↔ Matches symtab strtab name i) := by
      split
      · exact isMatch_spec hnames hname hi
      · rename_i hhash
        refine ⟨false, rfl, iff_of_false (by decide) fun hmatch => hhash ?_⟩
        rw [ushiftRight_one_inj, hchain, hmatch.name_eq, toNat_rtldGnuHash]
    obtain ⟨b, hb, hmatch⟩ := hcompare
    rw [hb]
    cases b with
    | true => exact (hmatch.mp rfl).answers
    | false =>
      have hnot : ¬Matches symtab strtab name i := fun h => nomatch hmatch.mpr h
      dsimp only
      split
      · rename_i hbit
        refine .absent fun k hk hmatch => ?_
        -- a later symbol is in a later bucket
        rcases eq_or_lt_of_le hk with rfl | hk
        · exact hnot hmatch
        rcases hlast.mp ((and_one_ne_zero_iff v).mp hbit) with hend | hnext
        · have := hmatch.lt
          omega
        · have hsorted := hwf.sorted i (i + 1) hoffset (by omega) (by have := hmatch.lt; omega)
          have hsorted' := hwf.sorted (i + 1) k (by omega) hk hmatch.lt
          rw [hmatch.name_eq] at hsorted'
          omega
      · rename_i hbit
        have hmore : ¬(i + 1 = symtab.length ∨ _) := fun h =>
          hbit ((and_one_ne_zero_iff v).mpr (hlast.mpr h))
        rw [not_or, not_not] at hmore
        rw [wrap32_of_lt (by omega)]
        refine (ih (i := i + 1) (by omega) (by omega) (by omega) (hmore.2.trans hbucket)).mono
          fun k hk hmatch => lt_of_le_of_ne hk ?_
        rintro rfl
        exact hnot hmatch

/-- A word of the filter with the two bits of a hash has them under the mask. -/
theorem and_bloomMask {w : BitVec 64} {hash : BitVec 32} {shift : ℕ}
    (h1 : w.getLsbD (hash.toNat % 64) = true)
    (h2 : w.getLsbD (hash.toNat / 2 ^ shift % 64) = true) :
    w &&& bloomMask hash shift = bloomMask hash shift := by
  have hbit : ∀ k, w.getLsbD k = true → w &&& 1#64 <<< k = 1#64 <<< k := by
    intro k hk
    rw [← BitVec.twoPow_eq, BitVec.and_twoPow, if_pos hk]
  rw [bloomMask, BitVec.and_or_distrib_left, hbit _ h1, hbit]
  rwa [BitVec.toNat_ushiftRight, shiftRight_eq_div_pow]

theorem gnuLookup_spec (hnames : NamesEnd symtab strtab) (hname : 0 ∉ name)
    (hwf : t.WellFormed symtab.length fun i => gnuHashOf (symName symtab strtab i))
    (hindexed : ∀ i, Defined symtab i → t.symOffset ≤ i) (hfuel : symtab.length ≤ fuel) :
    Answers symtab strtab name (fun _ => True) (gnuLookup symtab strtab t.words fuel name) := by
  have h0 : t.words[0]? = some (BitVec.ofNat 32 t.buckets.length) := rfl
  have h1 : t.words[1]? = some (BitVec.ofNat 32 t.symOffset) := rfl
  have h2 : t.words[2]? = some (BitVec.ofNat 32 t.bloom.length) := rfl
  have h3 : t.words[3]? = some (BitVec.ofNat 32 t.bloomShift) := rfl
  have hbloom := length_pos_iff.mpr hwf.bloom_pos
  have hbuckets := length_pos_iff.mpr hwf.buckets_pos
  have hbloom' := hwf.bloom_lt
  have hbuckets' := hwf.buckets_lt
  have hshift := hwf.bloomShift_lt
  have hoffset : t.symOffset < 2 ^ 32 := lt_of_le_of_lt hwf.symOffset_le hwf.n_lt
  -- a symbol with the name has its hash
  have hhash : ∀ {k}, Matches symtab strtab name k →
      gnuHashOf (symName symtab strtab k) = (rtldGnuHash name).toNat := fun hmatch => by
    rw [hmatch.name_eq, toNat_rtldGnuHash]
  have hslot := mod_lt ((rtldGnuHash name).toNat / 64) hbloom
  have hbucket := mod_lt (rtldGnuHash name).toNat hbuckets
  unfold gnuLookup
  rw [h0, h1, h2, h3]
  simp only [bind_eq_bind, bind_some]
  rw [if_neg (ofNat_ne_zero hbloom hbloom'), if_neg (ofNat_ne_zero hbuckets hbuckets'),
    toNat_ofNat_of_lt hbloom', toNat_ofNat_of_lt hbuckets', toNat_ofNat_of_lt hoffset,
    toNat_ofNat_of_lt (lt_trans hshift (by decide)), GnuHash.words_bloom hslot, GnuHash.words_buckets hbucket, getElem?_eq_getElem hslot,
    getElem?_eq_getElem hbucket]
  simp only [bind_some, GnuHash.words_chains]
  split
  · rename_i hfilter
    refine .absent fun k _ hmatch => hfilter ?_
    have hbits := hwf.filter k (hindexed k hmatch.defined) hmatch.lt
    rw [hhash hmatch] at hbits
    obtain ⟨hb1, hb2⟩ := hbits _ (getElem?_eq_getElem hslot)
    exact and_bloomMask hb1 hb2
  · have hfirst := hwf.bucket_first _ _ (getElem?_eq_getElem hbucket)
    have hempty := hwf.bucket_empty _ _ (getElem?_eq_getElem hbucket)
    generalize t.buckets[(rtldGnuHash name).toNat % t.buckets.length] = v at hfirst hempty
    split
    · refine .absent fun k _ hmatch => ?_
      have := (hfirst k (hindexed k hmatch.defined) hmatch.lt (by rw [hhash hmatch])).2.1
      omega
    · rename_i hlow
      -- the bucket is not empty, and the chain is followed from its first symbol
      have hpos := hwf.symOffset_pos
      obtain ⟨i, hi, hin, hib⟩ : ∃ i, t.symOffset ≤ i ∧ i < symtab.length ∧
          gnuHashOf (symName symtab strtab i) % t.buckets.length =
            (rtldGnuHash name).toNat % t.buckets.length := by
        by_contra hnone
        have hzero := hempty fun i hi hin hib => hnone ⟨i, hi, hin, hib⟩
        rw [hzero] at hlow
        exact hlow hpos
      obtain ⟨hle, hoff, hvb⟩ := hfirst i hi hin hib
      rw [toNat_rtldGnuHash] at hvb
      have hsteps : symtab.length - v.toNat ≤ fuel := by omega
      refine (gnuChain_spec hnames hname hwf hsteps hoff (by omega) hvb).mono fun k _ hmatch => ?_
      exact (hfirst k (hindexed k hmatch.defined) hmatch.lt (by rw [hhash hmatch])).1

end Search

end Gnu

/-- The parts of a `DT_HASH` table. -/
structure SysvHash where
  buckets : List (BitVec 32)
  chains : List (BitVec 32)

/-- The table in memory. -/
def SysvHash.words (t : SysvHash) : List (BitVec 32) :=
  [BitVec.ofNat 32 t.buckets.length, BitVec.ofNat 32 t.chains.length] ++ t.buckets ++ t.chains

/-- A table as the format prescribes, for `n` symbols of which those with `indexed` are in it: each
bucket is the head of a list of symbols that ends with zero, and an indexed symbol is in the list of the
bucket of its hash. -/
structure SysvHash.WellFormed (t : SysvHash) (n : ℕ) (hash : ℕ → ℕ) (indexed : ℕ → Prop) : Prop where
  buckets_pos : t.buckets ≠ []
  buckets_lt : t.buckets.length < 2 ^ 32
  chains_length : t.chains.length = n
  chain : ∀ b v, t.buckets[b]? = some v → ∃ l, Links (fun i => (t.chains.getD i 0#32).toNat) v.toNat l 0 ∧
    (∀ i ∈ l, 0 < i ∧ i < n) ∧ ∀ i, i < n → indexed i → hash i % t.buckets.length = b → i ∈ l

section Sysv

variable {t : SysvHash} {symtab : List Elf64Sym} {strtab name : List UInt8}

theorem SysvHash.words_buckets {b : ℕ} (hb : b < t.buckets.length) :
    t.words[2 + b]? = t.buckets[b]? := by
  rw [SysvHash.words, append_assoc, getElem?_append_add (n := 2) rfl]
  exact getElem?_append_left hb

theorem SysvHash.words_chains (i : ℕ) : t.words[2 + t.buckets.length + i]? = t.chains[i]? :=
  getElem?_append_add length_append i

variable {fuel : ℕ}

/-- The walk along a list of symbols: it returns, and if it finds nothing there is nothing in the
list. -/
theorem sysvChain_spec (hnames : NamesEnd symtab strtab) (hname : 0 ∉ name)
    (hlength : t.chains.length = symtab.length) {l : List ℕ} {i : ℕ}
    (hlinks : Links (fun i => (t.chains.getD i 0#32).toNat) i l 0)
    (hl : ∀ i ∈ l, 0 < i ∧ i < symtab.length) (hfuel : l.length < fuel) :
    Answers symtab strtab name (· ∈ l) (sysvChain symtab strtab name (fun j => t.chains[j]?) fuel i) := by
  induction l generalizing i fuel with
  | nil =>
    obtain rfl : i = 0 := hlinks
    obtain ⟨fuel, rfl⟩ := exists_eq_succ_of_ne_zero (ne_of_gt hfuel)
    exact .absent fun k hk => nomatch hk
  | cons a l ih =>
    obtain ⟨rfl, hlinks⟩ := hlinks
    obtain ⟨fuel, rfl⟩ := exists_eq_succ_of_ne_zero (ne_of_gt (zero_lt_of_lt hfuel))
    obtain ⟨hpos, hlt⟩ := hl i (.head _)
    obtain ⟨b, hb, hmatch⟩ := isMatch_spec hnames hname hlt
    have hget : t.chains[i]? = some (t.chains.getD i 0#32) := by
      rw [getD_eq_getElem?_getD, getElem?_eq_getElem (hlength ▸ hlt), getD_some]
    rw [sysvChain, if_neg hpos.ne', hb]
    cases b with
    | true => exact (hmatch.mp rfl).answers
    | false =>
      rw [hget]
      refine (ih hlinks (fun k hk => hl k (.tail _ hk)) (lt_of_succ_lt_succ hfuel)).mono
        fun k hk hk' => (mem_cons.mp hk).resolve_left ?_
      rintro rfl
      exact nomatch hmatch.mpr hk'

theorem sysvLookup_spec (hnames : NamesEnd symtab strtab) (hname : 0 ∉ name)
    (hwf : t.WellFormed symtab.length (fun i => elfHashOf (symName symtab strtab i))
      (Defined symtab)) (hfuel : symtab.length < fuel) :
    Answers symtab strtab name (fun _ => True) (sysvLookup symtab strtab t.words fuel name) := by
  have hbuckets := length_pos_iff.mpr hwf.buckets_pos
  have hbuckets' := hwf.buckets_lt
  have hbucket := mod_lt (rtldElfHash name).toNat hbuckets
  obtain ⟨l, hlinks, hl, hindexed⟩ := hwf.chain _ _ (getElem?_eq_getElem hbucket)
  -- no symbol is visited twice
  have hlength : l.length ≤ symtab.length := by
    have hnodup := hlinks.nodup fun hzero => (hl 0 hzero).1.ne' rfl
    have hsub : l ⊆ range symtab.length := fun i hi => mem_range.mpr (hl i hi).2
    have hle := (subperm_of_subset hnodup hsub).length_le
    rwa [length_range] at hle
  have hwords : t.words[0]? = some (BitVec.ofNat 32 t.buckets.length) := rfl
  unfold sysvLookup
  rw [hwords]
  simp only [bind_eq_bind, bind_some]
  rw [if_neg (ofNat_ne_zero hbuckets hbuckets'), toNat_ofNat_of_lt hbuckets',
    SysvHash.words_buckets hbucket, getElem?_eq_getElem hbucket]
  simp only [SysvHash.words_chains]
  refine (sysvChain_spec hnames hname hwf.chains_length hlinks hl
    (lt_of_le_of_lt hlength hfuel)).mono fun k _ hmatch => ?_
  apply hindexed k hmatch.lt hmatch.defined
  rw [hmatch.name_eq, toNat_rtldElfHash]

end Sysv

/-! ## The whole lookup -/

/-- Tables as the formats prescribe, one of them at least, that index every defined symbol. -/
structure SymbolTables.WellFormed (obj : SymbolTables) (symtab : List Elf64Sym)
    (strtab : List UInt8) : Prop where
  symtab_eq : obj.symtab = some symtab
  strtab_eq : obj.strtab = some strtab
  names : NamesEnd symtab strtab
  gnu : ∀ h, obj.gnuHash = some h → ∃ t : GnuHash, h = t.words ∧
    t.WellFormed symtab.length (fun i => gnuHashOf (symName symtab strtab i)) ∧
    ∀ i, Defined symtab i → t.symOffset ≤ i
  sysv : ∀ h, obj.hash = some h → ∃ t : SysvHash, h = t.words ∧
    t.WellFormed symtab.length (fun i => elfHashOf (symName symtab strtab i)) (Defined symtab)
  present : obj.gnuHash ≠ none ∨ obj.hash ≠ none

/-- The lookup returns, with a defined symbol of the name if and only if a scan of the symbol table finds
one. -/
theorem SymbolTables.rtldLookupInObject_iff {obj : SymbolTables} {symtab : List Elf64Sym}
    {strtab : List UInt8} (hwf : obj.WellFormed symtab strtab) {name : List UInt8} (hname : 0 ∉ name)
    {fuel : ℕ} (hfuel : symtab.length < fuel) :
    ∃ r, obj.rtldLookupInObject fuel name = some r ∧
      (∀ i, r = some i → ∃ sym, symtab[i]? = some sym ∧
        stringAt strtab sym.stName.toNat = name ∧ sym.stShndx ≠ shnUndef) ∧
      (r.isSome ↔ (linearScan symtab strtab name).isSome) := by
  -- a result that is right about the symbols is what is asked for
  suffices hsuffices : Answers symtab strtab name (fun _ => True) (obj.rtldLookupInObject fuel name) by
    obtain ⟨r, hr, hfound, hnone⟩ := hsuffices
    refine ⟨r, hr, hfound, ?_⟩
    rw [linearScan_isSome]
    cases r with
    | none => exact iff_of_false (by simp) fun ⟨k, hk⟩ => hnone rfl k trivial hk
    | some i => exact iff_of_true rfl ⟨i, hfound i rfl⟩
  have hsysv : ∀ h, obj.hash = some h →
      Answers symtab strtab name (fun _ => True) (sysvLookup symtab strtab h fuel name) := by
    intro h hh
    obtain ⟨t, rfl, ht⟩ := hwf.sysv h hh
    exact sysvLookup_spec hwf.names hname ht hfuel
  unfold rtldLookupInObject
  rw [hwf.symtab_eq, hwf.strtab_eq]
  dsimp only
  cases hgnu : obj.gnuHash with
  | none =>
    obtain ⟨h, hh⟩ := ne_none_iff_exists'.mp (hwf.present.resolve_left (not_not_intro hgnu))
    rw [hh]
    exact hsysv h hh
  | some h =>
    obtain ⟨t, rfl, ht, hindexed⟩ := hwf.gnu h hgnu
    obtain ⟨r, hr, hfound, hnone⟩ := gnuLookup_spec hwf.names hname ht hindexed hfuel.le
    rw [elim_some, hr]
    cases r with
    | some i => exact (hfound i rfl).answers
    | none =>
      cases hhash : obj.hash with
      | none => exact .absent (hnone rfl)
      | some h => exact hsysv h hhash

/-! ## A small object -/

/-- The names `a` and `b`. -/
def sampleStrtab : List UInt8 := [0, 97, 0, 98, 0]

/-- The null symbol, and two defined ones. -/
def sampleSymtab : List Elf64Sym := [⟨0, 0, 0, 0, 0⟩, ⟨1, 0x12, 7, 0x1000, 8⟩, ⟨3, 0x12, 7, 0x1008, 8⟩]

def sampleGnu : GnuHash := ⟨1, 5, [0x10000000000c0], [1], [177670, 177671]⟩

def sampleSysv : SysvHash := ⟨[1], [0, 2, 0]⟩

def sampleObject : SymbolTables where
  symtab := some sampleSymtab
  strtab := some sampleStrtab
  gnuHash := some sampleGnu.words
  hash := some sampleSysv.words

theorem sampleGnu_wellFormed :
    sampleGnu.WellFormed 3 fun i => gnuHashOf (symName sampleSymtab sampleStrtab i) where
  symOffset_pos := by decide
  symOffset_le := by decide
  n_lt := by decide
  bloomShift_lt := by decide
  bloom_pos := by decide
  bloom_lt := by decide
  buckets_pos := by decide
  buckets_lt := by decide
  sorted i j _ _ _ := by
    rw [show sampleGnu.buckets.length = 1 from rfl]
    omega
  bucket_empty b v hv hnone := by
    obtain ⟨hlt, rfl⟩ := List.getElem?_eq_some_iff.mp hv
    obtain rfl := lt_one_iff.mp hlt
    exact absurd (mod_one _) (hnone 1 le_rfl (by decide))
  bucket_first b v hv i hi _ _ := by
    obtain ⟨hlt, rfl⟩ := List.getElem?_eq_some_iff.mp hv
    obtain rfl := lt_one_iff.mp hlt
    exact ⟨hi, le_rfl, mod_one _⟩
  chains_length := rfl
  chain k v hv := by
    have hk : k < 2 := (List.getElem?_eq_some_iff.mp hv).1
    interval_cases k
    · obtain rfl := some.inj hv
      decide
    · obtain rfl := some.inj hv
      decide
  filter i hi hin w hw := by
    rw [show sampleGnu.bloom.length = 1 from rfl, mod_one] at hw
    obtain rfl := some.inj hw
    have hi : 1 ≤ i := hi
    interval_cases i
    · decide
    · decide

theorem sampleSysv_wellFormed :
    sampleSysv.WellFormed 3 (fun i => elfHashOf (symName sampleSymtab sampleStrtab i))
      (Defined sampleSymtab) where
  buckets_pos := by decide
  buckets_lt := by decide
  chains_length := rfl
  chain b v hv := by
    obtain ⟨hlt, rfl⟩ := List.getElem?_eq_some_iff.mp hv
    obtain rfl := lt_one_iff.mp hlt
    refine ⟨[1, 2], ⟨rfl, rfl, rfl⟩, by decide, fun i hi hdef _ => ?_⟩
    obtain ⟨sym, hsym, hne⟩ := hdef
    interval_cases i
    · obtain rfl := some.inj hsym
      exact absurd rfl hne
    · exact (.head _)
    · exact mem_cons_of_mem _ (.head _)

theorem sampleObject_wellFormed : sampleObject.WellFormed sampleSymtab sampleStrtab where
  symtab_eq := rfl
  strtab_eq := rfl
  names := by
    unfold NamesEnd
    decide
  gnu h hh := by
    refine ⟨sampleGnu, (some.inj hh).symm, sampleGnu_wellFormed, fun i hdef => ?_⟩
    obtain ⟨sym, hsym, hne⟩ := hdef
    cases i with
    | zero =>
      obtain rfl := some.inj hsym
      exact absurd rfl hne
    | succ i => exact le_add_left 1 i
  sysv h hh := ⟨sampleSysv, (some.inj hh).symm, sampleSysv_wellFormed⟩
  present := .inl (by simp [sampleObject])

theorem SymbolTables.rtldLookupInObject_iff_sample :
    sampleObject.rtldLookupInObject 4 [98] = some (some 2) ∧
      linearScan sampleSymtab sampleStrtab [98] = some 2 ∧
      ∃ r, sampleObject.rtldLookupInObject 4 [99] = some r ∧
        (∀ i, r = some i → ∃ sym, sampleSymtab[i]? = some sym ∧
          stringAt sampleStrtab sym.stName.toNat = [99] ∧ sym.stShndx ≠ shnUndef) ∧
        (r.isSome ↔ (linearScan sampleSymtab sampleStrtab [99]).isSome) :=
  ⟨by decide, by decide, rtldLookupInObject_iff sampleObject_wellFormed (by decide) (by decide)⟩

end NovaOS.Ldso
