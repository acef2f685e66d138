import NovaOS.Ldso.Resolve
import Mathlib.Order.CompletePartialOrder

/-!
# Relocation

Reference: `lib/ldso/rtld.c` (`rtldRelocateObject`, `rtldRelocateAll`, `rtldMemcpy`).

The memory of the process is a function from addresses of 64 bits to bytes. The tables of symbols and
relocations are not changed by the relocations themselves. `rtldRelocateAll` goes through the objects of the
list and then the main program. A copy relocation of the main program takes its bytes from the object in
which `rtldResolveSymbol` finds the symbol, and that is the main program itself where its own symbol is
global: then the target keeps the bytes it has (`rtldRelocateAll_copy_iff`).
-/

namespace NovaOS.Ldso

open NovaOS.Lib Function List Option

/-- The memory of the process. -/
abbrev Memory := ℕ → UInt8

/-- The addresses of `n` bytes at `a`. -/
def region (a n : ℕ) : Set ℕ := {x | ∃ k < n, x = wrap64 (a + k)}

/-- A loop that writes `n` bytes at `dst`; a byte may depend on those written before it. -/
def writeLoop (dst : ℕ) (byte : Memory → ℕ → UInt8) (mem : Memory) : ℕ → Memory
  | 0 => mem
  | n + 1 =>
    update (writeLoop dst byte mem n) (wrap64 (dst + n)) (byte (writeLoop dst byte mem n) n)

/-- `rtldMemcpy`. -/
def rtldMemcpy (mem : Memory) (dst src n : ℕ) : Memory :=
  writeLoop dst (fun mem i => mem (wrap64 (src + i))) mem n

/-- A store of 64 bits. -/
def storeWord (mem : Memory) (dst v : ℕ) : Memory :=
  writeLoop dst (fun _ i => UInt8.ofNat (v / 256 ^ i)) mem 8

section WriteLoop

variable {mem : Memory} {dst src n x : ℕ} {byte : Memory → ℕ → UInt8}

theorem writeLoop_of_notMem (hx : x ∉ region dst n) : writeLoop dst byte mem n x = mem x := by
  induction n with
  | zero => rfl
  | succ n ih =>
    have hne : x ≠ wrap64 (dst + n) := fun h => hx ⟨n, Nat.lt_succ_self n, h⟩
    rw [writeLoop, update_of_ne hne]
    exact ih fun ⟨k, hk, h⟩ => hx ⟨k, Nat.lt_succ_of_lt hk, h⟩

/-- A copy of bytes onto themselves. -/
theorem rtldMemcpy_self (mem : Memory) (dst n : ℕ) : rtldMemcpy mem dst dst n = mem := by
  induction n with
  | zero => rfl
  | succ n ih =>
    rw [rtldMemcpy, writeLoop]
    rw [Function.update_eq_self]
    exact ih

/-- A copy of bytes from elsewhere. -/
theorem rtldMemcpy_apply {k : ℕ} (hdisj : Disjoint (region dst n) (region src n)) (hn : n ≤ 2 ^ 64)
    (hk : k < n) : rtldMemcpy mem dst src n (wrap64 (dst + k)) = mem (wrap64 (src + k)) := by
  induction n with
  | zero => exact absurd hk (Nat.not_lt_zero k)
  | succ n ih =>
    have hmono : ∀ a, region a n ⊆ region a (n + 1) := fun a x ⟨j, hj, h⟩ => ⟨j, Nat.lt_succ_of_lt hj, h⟩
    rw [rtldMemcpy, writeLoop]
    rcases Nat.lt_succ_iff_lt_or_eq.mp hk with hlt | rfl
    · have hne : wrap64 (dst + k) ≠ wrap64 (dst + n) := by
        simp only [wrap64]
        omega
      rw [update_of_ne hne]
      exact ih (hdisj.mono (hmono dst) (hmono src)) (Nat.le_of_succ_le hn) hlt
    · rw [update_self]
      apply writeLoop_of_notMem
      intro hmem
      exact Set.disjoint_left.mp hdisj (hmono dst hmem) ⟨k, hk, rfl⟩

end WriteLoop

/-! ## Relocations -/

/-- The kinds of relocations that `rtldRelocateObject` knows; `other` is any other number. -/
inductive RelocType
  | none
  | word64
  | copy
  | globDat
  | jumpSlot
  | relative
  | other
deriving DecidableEq, Repr

structure Elf64Rela where
  rOffset : BitVec 64
  rInfo : BitVec 64
  rAddend : BitVec 64
deriving DecidableEq, Repr

namespace Elf64Rela

/-- `ELF64_R_TYPE`. -/
def type (rel : Elf64Rela) : RelocType :=
  match rel.rInfo.toNat % 2 ^ 32 with
  | 0 => .none
  | 1 => .word64
  | 5 => .copy
  | 6 => .globDat
  | 7 => .jumpSlot
  | 8 => .relative
  | _ => .other

/-- `ELF64_R_SYM`. -/
def sym (rel : Elf64Rela) : ℕ := rel.rInfo.toNat / 2 ^ 32

end Elf64Rela

/-- The relocations of an object; a table that is not there is empty. -/
structure RelaTables where
  rela : List Elf64Rela
  jmprel : List Elf64Rela

/-- The relocations in the order in which they are made. -/
def RelaTables.all (t : RelaTables) : List Elf64Rela := t.rela ++ t.jmprel

/-- Why a relocation does not return: a read outside the tables, or the end of the process with the name
that is not resolved. -/
inductive RelocStop
  | fault
  | unresolved (name : Name)
deriving DecidableEq, Repr

/-- The memory, and which objects are relocated. -/
structure RelocState where
  mem : Memory
  relocated : ℕ → Bool

namespace Loader

/-- The symbol of a relocation and its name. -/
def relocSymbol (s : Loader) (obj : ℕ) (rel : Elf64Rela) : Option (Elf64Sym × Name) :=
  (s.objs obj).symbols.symtab.bind fun symtab => symtab[rel.sym]?.bind fun sym =>
    (s.objs obj).symbols.strtab.bind fun strtab =>
      if 0 ∈ strtab.drop sym.stName.toNat then some (sym, stringAt strtab sym.stName.toNat) else none

/-- The address that a relocation is for. -/
def relocTarget (s : Loader) (obj : ℕ) (rel : Elf64Rela) : ℕ :=
  wrap64 ((s.objs obj).base + rel.rOffset.toNat)

/-- The relocations that store the address of a symbol. -/
def relocWord (s : Loader) (fuel obj : ℕ) (mem : Memory) (rel : Elf64Rela) (addend : ℕ) :
    Except RelocStop Memory :=
  match s.relocSymbol obj rel with
  | none => .error .fault
  | some (sym, name) =>
    match s.rtldResolveSymbol fuel name with
    | none => .error .fault
    | some found =>
      let val := found.elim 0 fun r => s.symbolAddr r.1 r.2
      if val = 0 ∧ sym.stBind ≠ stbWeak then .error (.unresolved name)
      else .ok (storeWord mem (s.relocTarget obj rel) (wrap64 (val + addend)))

/-- The copy relocation. -/
def relocCopy (s : Loader) (fuel obj : ℕ) (mem : Memory) (rel : Elf64Rela) : Except RelocStop Memory :=
  match s.relocSymbol obj rel with
  | none => .error .fault
  | some (sym, name) =>
    match s.rtldResolveSymbol fuel name with
    | none => .error .fault
    | some none => .ok mem
    | some (some (srcObj, srcSym)) =>
      if s.symbolAddr srcObj srcSym = 0 then .ok mem
      else
        .ok (rtldMemcpy mem (s.relocTarget obj rel) (s.symbolAddr srcObj srcSym)
          (if sym.stSize < srcSym.stSize then sym.stSize.toNat else srcSym.stSize.toNat))

/-- One relocation. -/
def relocate (s : Loader) (fuel obj : ℕ) (mem : Memory) (rel : Elf64Rela) : Except RelocStop Memory :=
  match rel.type with
  | .none => .ok mem
  | .relative =>
    .ok (storeWord mem (s.relocTarget obj rel) (wrap64 ((s.objs obj).base + rel.rAddend.toNat)))
  | .word64 => s.relocWord fuel obj mem rel rel.rAddend.toNat
  | .globDat => s.relocWord fuel obj mem rel 0
  | .jumpSlot => s.relocWord fuel obj mem rel 0
  | .copy => s.relocCopy fuel obj mem rel
  | .other => .ok mem

/-- `rtldRelocateObject`; `tables` are the relocations of each object. -/
def rtldRelocateObject (s : Loader) (fuel : ℕ) (tables : ℕ → RelaTables) (st : RelocState) (obj : ℕ) :
    Except RelocStop RelocState :=
  if st.relocated obj then .ok st
  else
    ((tables obj).all.foldlM (s.relocate fuel obj) st.mem).map fun mem =>
      ⟨mem, update st.relocated obj true⟩

/-- The first loop of `rtldRelocateAll`. -/
def relocateObjects (s : Loader) (fuel : ℕ) (tables : ℕ → RelaTables) (st : RelocState) :
    Except RelocStop RelocState :=
  s.gObjects.foldlM (s.rtldRelocateObject fuel tables) st

/-- `rtldRelocateAll`. -/
def rtldRelocateAll (s : Loader) (fuel : ℕ) (tables : ℕ → RelaTables) (st : RelocState) :
    Except RelocStop RelocState :=
  (s.relocateObjects fuel tables st).bind fun st =>
    match s.gMainObj with
    | none => .ok st
    | some main => s.rtldRelocateObject fuel tables st main

/-! ## What a relocation writes -/

/-- The number of bytes that a relocation may write. -/
def relocWidth (s : Loader) (obj : ℕ) (rel : Elf64Rela) : ℕ :=
  match rel.type with
  | .none => 0
  | .relative => 8
  | .word64 => 8
  | .globDat => 8
  | .jumpSlot => 8
  | .copy => (s.relocSymbol obj rel).elim 0 fun r => r.1.stSize.toNat
  | .other => 0

/-- Where a relocation may write. -/
def relocWrites (s : Loader) (obj : ℕ) (rel : Elf64Rela) : Set ℕ :=
  region (s.relocTarget obj rel) (s.relocWidth obj rel)

section Writes

variable {s : Loader} {fuel obj x : ℕ} {mem mem' : Memory} {rel : Elf64Rela} {rels : List Elf64Rela}

theorem relocWord_frame {addend : ℕ} (hrun : s.relocWord fuel obj mem rel addend = .ok mem')
    (hx : x ∉ region (s.relocTarget obj rel) 8) : mem' x = mem x := by
  rw [relocWord] at hrun
  split at hrun
  · cases hrun
  split at hrun
  · cases hrun
  dsimp only at hrun
  split at hrun
  · cases hrun
  · obtain rfl := Except.ok.inj hrun
    exact writeLoop_of_notMem hx

/-- The smaller of two sizes, as it is computed. -/
theorem copyLen_eq (a b : BitVec 64) : (if a < b then a.toNat else b.toNat) = min a.toNat b.toNat := by
  split
  · rename_i h
    exact (min_eq_left (le_of_lt (BitVec.lt_def.mp h))).symm
  · rename_i h
    exact (min_eq_right (Nat.le_of_not_lt (mt BitVec.lt_def.mpr h))).symm

/-- What a copy relocation does when it returns. -/
theorem relocCopy_cases (hrun : s.relocCopy fuel obj mem rel = .ok mem') :
    ∃ sym name found, s.relocSymbol obj rel = some (sym, name) ∧
      s.rtldResolveSymbol fuel name = some found ∧
      ((mem' = mem ∧ ∀ r, found = some r → s.symbolAddr r.1 r.2 = 0) ∨
      ∃ r, found = some r ∧ s.symbolAddr r.1 r.2 ≠ 0 ∧ mem' = rtldMemcpy mem (s.relocTarget obj rel)
        (s.symbolAddr r.1 r.2) (min sym.stSize.toNat r.2.stSize.toNat)) := by
  rw [relocCopy] at hrun
  split at hrun
  · cases hrun
  rename_i sym name hsym
  refine ⟨sym, name, ?_⟩
  split at hrun
  · cases hrun
  · rename_i hfound
    refine ⟨none, hsym, hfound, .inl ⟨(Except.ok.inj hrun).symm, fun r h => nomatch h⟩⟩
  · rename_i srcObj srcSym hfound
    refine ⟨some (srcObj, srcSym), hsym, hfound, ?_⟩
    split at hrun
    · rename_i hzero
      refine .inl ⟨(Except.ok.inj hrun).symm, fun r h => ?_⟩
      obtain rfl := some.inj h
      exact hzero
    · rename_i hzero
      rw [copyLen_eq] at hrun
      exact .inr ⟨_, rfl, hzero, (Except.ok.inj hrun).symm⟩

theorem region_mono {a m n : ℕ} (h : m ≤ n) : region a m ⊆ region a n :=
  fun _ ⟨k, hk, heq⟩ => ⟨k, lt_of_lt_of_le hk h, heq⟩

theorem relocCopy_frame (hrun : s.relocCopy fuel obj mem rel = .ok mem') (htype : rel.type = .copy)
    (hx : x ∉ s.relocWrites obj rel) : mem' x = mem x := by
  obtain ⟨sym, name, found, hsym, -, ⟨rfl, -⟩ | ⟨r, -, -, rfl⟩⟩ := relocCopy_cases hrun
  · rfl
  · apply writeLoop_of_notMem
    intro hmem
    apply hx
    rw [relocWrites, relocWidth, htype, hsym]
    exact region_mono (min_le_left _ _) hmem

/-- A relocation changes nothing outside. -/
theorem relocate_frame (hrun : s.relocate fuel obj mem rel = .ok mem') (hx : x ∉ s.relocWrites obj rel) :
    mem' x = mem x := by
  rw [relocate] at hrun
  cases htype : rel.type with
  | none => exact (congrFun (Except.ok.inj (htype ▸ hrun)) x).symm
  | other => exact (congrFun (Except.ok.inj (htype ▸ hrun)) x).symm
  | copy =>
    rw [htype] at hrun
    exact relocCopy_frame hrun htype hx
  | relative =>
    rw [htype] at hrun
    rw [relocWrites, relocWidth, htype] at hx
    exact (congrFun (Except.ok.inj hrun) x).symm.trans (writeLoop_of_notMem hx)
  | word64 =>
    rw [htype] at hrun
    rw [relocWrites, relocWidth, htype] at hx
    exact relocWord_frame hrun hx
  | globDat =>
    rw [htype] at hrun
    rw [relocWrites, relocWidth, htype] at hx
    exact relocWord_frame hrun hx
  | jumpSlot =>
    rw [htype] at hrun
    rw [relocWrites, relocWidth, htype] at hx
    exact relocWord_frame hrun hx

/-- What comes before and after a step that returns. -/
theorem exists_of_bind_ok {α β : Type} {a : Except RelocStop α} {f : α → Except RelocStop β} {b : β}
    (h : a.bind f = .ok b) : ∃ c, a = .ok c ∧ f c = .ok b := by
  cases a with
  | error e => exact absurd h (by simp [Except.bind])
  | ok c => exact ⟨c, rfl, h⟩

/-- Relocations one after another change nothing outside. -/
theorem foldlM_relocate_frame (hrun : rels.foldlM (s.relocate fuel obj) mem = .ok mem')
    (hx : ∀ rel ∈ rels, x ∉ s.relocWrites obj rel) : mem' x = mem x := by
  induction rels generalizing mem with
  | nil => exact (congrFun (Except.ok.inj hrun) x).symm
  | cons rel rels ih =>
    obtain ⟨mem1, hrel, hrun⟩ := exists_of_bind_ok hrun
    rw [ih hrun fun r hr => hx r (.tail _ hr)]
    exact relocate_frame hrel (hx rel (.head _))

end Writes

/-! ## Copy relocations of the main program -/

/-- The definitions of the main program's copy relocations as linkers emit them, and a layout in which the
relocations of the main program do not meet each other and the definitions of the objects. -/
structure CopyLayout (s : Loader) (fuel main : ℕ) (rels : List Elf64Rela) : Prop where
  notListed : main ∉ s.gObjects
  own : ∀ rel ∈ rels, rel.type = .copy → ∃ sym name own, s.relocSymbol main rel = some (sym, name) ∧
    s.lookup fuel name main = some (some own) ∧ own.stValue = rel.rOffset
  apart : rels.Pairwise fun rel rel' => Disjoint (s.relocWrites main rel) (s.relocWrites main rel')
  outside : ∀ rel ∈ rels, ∀ obj ∈ s.gObjects, ∀ name sym, s.lookup fuel name obj = some (some sym) →
    Disjoint (s.relocWrites main rel) (region (s.symbolAddr obj sym) sym.stSize.toNat)

/-- In `mem'` the target of a copy relocation has the bytes that a definition in a shared object has in
`mem`, up to the smaller size. -/
def HoldsDefinition (s : Loader) (fuel main : ℕ) (rel : Elf64Rela) (mem mem' : Memory) : Prop :=
  ∃ sym name, s.relocSymbol main rel = some (sym, name) ∧ ∃ obj ∈ s.gObjects, ∃ src,
    s.lookup fuel name obj = some (some src) ∧ ∀ k < min sym.stSize.toNat src.stSize.toNat,
      mem' (wrap64 (s.relocTarget main rel + k)) = mem (wrap64 (s.symbolAddr obj src + k))

/-- The symbol of a relocation is resolved to a definition in a shared object. -/
def FromObject (s : Loader) (fuel main : ℕ) (rel : Elf64Rela) : Prop :=
  ∃ sym name, s.relocSymbol main rel = some (sym, name) ∧ ∃ obj ∈ s.gObjects, ∃ src,
    s.rtldResolveSymbol fuel name = some (some (obj, src)) ∧ s.symbolAddr obj src ≠ 0

section Copy

variable {s : Loader} {fuel main i : ℕ} {mem mem' : Memory} {rel : Elf64Rela} {rels : List Elf64Rela}

variable {sym : Elf64Sym}

/-- What is found is the definition of an object that is searched. -/
theorem resolveIn_mem {lookup : ℕ → Option (Option Elf64Sym)} {objs : List ℕ}
    {weak : Option (ℕ × Elf64Sym)} (h : resolveIn lookup objs weak = some (some (i, sym))) :
    (i ∈ objs ∧ lookup i = some (some sym)) ∨ weak = some (i, sym) := by
  induction objs generalizing weak with
  | nil => exact .inr (some.inj h)
  | cons j objs ih =>
    rw [resolveIn] at h
    split at h
    · cases h
    · exact (ih h).imp_left fun h => ⟨mem_cons_of_mem _ h.1, h.2⟩
    rename_i found hj
    split at h
    · obtain ⟨rfl, rfl⟩ := Prod.mk.inj (some.inj (some.inj h))
      exact .inl ⟨.head _, hj⟩
    rcases ih h with hmem | hweak
    · exact .inl ⟨mem_cons_of_mem _ hmem.1, hmem.2⟩
    split at hweak
    · obtain ⟨rfl, rfl⟩ := Prod.mk.inj (some.inj hweak)
      exact .inl ⟨.head _, hj⟩
    · exact .inr hweak

variable {name : Name}

theorem resolve_mem (hmain : s.gMainObj = some main)
    (h : s.rtldResolveSymbol fuel name = some (some (i, sym))) :
    (i = main ∨ i ∈ s.gObjects) ∧ s.lookup fuel name i = some (some sym) := by
  obtain ⟨hmem, hlookup⟩ := (resolveIn_mem h).resolve_right (by simp)
  rw [hmain] at hmem
  exact ⟨mem_cons.mp hmem, hlookup⟩

/-- A copy relocation that is not resolved to an object leaves the memory as it is. -/
theorem relocCopy_of_not_fromObject (hlayout : CopyLayout s fuel main rels) (hmain : s.gMainObj = some main)
    (hrel : rel ∈ rels) (htype : rel.type = .copy) (hrun : s.relocCopy fuel main mem rel = .ok mem')
    (hnot : ¬s.FromObject fuel main rel) : mem' = mem := by
  obtain ⟨sym, name, found, hsym, hfound, ⟨rfl, -⟩ | ⟨⟨i, src⟩, rfl, haddr, rfl⟩⟩ := relocCopy_cases hrun
  · rfl
  obtain ⟨rfl | hmem, hlookup⟩ := resolve_mem hmain hfound
  · -- the main program's own symbol, at the target
    obtain ⟨sym', name', own, hsym', hown, hvalue⟩ := hlayout.own rel hrel htype
    obtain ⟨rfl, rfl⟩ := Prod.mk.inj (mem_unique hsym' hsym)
    obtain rfl := some.inj (mem_unique hown hlookup)
    have htarget : s.symbolAddr i own = s.relocTarget i rel := by rw [symbolAddr, hvalue, relocTarget]
    rw [htarget]
    exact rtldMemcpy_self _ _ _
  · exact absurd ⟨sym, name, hsym, i, hmem, src, hfound, haddr⟩ hnot

/-- A copy relocation that is resolved to an object copies its definition. -/
theorem relocCopy_of_fromObject (hlayout : CopyLayout s fuel main rels) (hmain : s.gMainObj = some main)
    (hrel : rel ∈ rels) (htype : rel.type = .copy) (hrun : s.relocCopy fuel main mem rel = .ok mem')
    (hfrom : s.FromObject fuel main rel) : s.HoldsDefinition fuel main rel mem mem' := by
  obtain ⟨sym, name, hsym, obj, hobj, src, hfound, haddr⟩ := hfrom
  obtain ⟨-, hlookup⟩ := resolve_mem hmain hfound
  obtain ⟨sym', name', found, hsym', hfound', hcases⟩ := relocCopy_cases hrun
  obtain ⟨rfl, rfl⟩ := Prod.mk.inj (mem_unique hsym' hsym)
  obtain rfl := mem_unique hfound' hfound
  refine ⟨sym', name', hsym, obj, hobj, src, hlookup, fun k hk => ?_⟩
  rcases hcases with ⟨-, hzero⟩ | ⟨r, hr, -, rfl⟩
  · exact absurd (hzero _ rfl) haddr
  obtain rfl := some.inj hr
  have hdisj := hlayout.outside rel hrel obj hobj name' src hlookup
  rw [relocWrites, relocWidth, htype, hsym] at hdisj
  apply rtldMemcpy_apply
  · exact hdisj.mono (region_mono (min_le_left _ _)) (region_mono (min_le_right _ _))
  · exact (min_le_left _ _).trans (le_of_lt sym'.stSize.isLt)
  · exact hk

/-- The bytes of the target and of the definitions are all that matters. -/
theorem HoldsDefinition.congr {mem1 mem1' : Memory} (h : s.HoldsDefinition fuel main rel mem mem')
    (htype : rel.type = .copy) (htarget : ∀ x ∈ s.relocWrites main rel, mem1' x = mem' x)
    (hdefs : ∀ obj ∈ s.gObjects, ∀ name sym, s.lookup fuel name obj = some (some sym) →
      ∀ x ∈ region (s.symbolAddr obj sym) sym.stSize.toNat, mem1 x = mem x) :
    s.HoldsDefinition fuel main rel mem1 mem1' := by
  obtain ⟨sym, name, hsym, obj, hobj, src, hlookup, hbytes⟩ := h
  refine ⟨sym, name, hsym, obj, hobj, src, hlookup, fun k hk => ?_⟩
  rw [htarget, hdefs obj hobj name src hlookup, hbytes k hk]
  · exact ⟨k, lt_of_lt_of_le hk (min_le_right _ _), rfl⟩
  · rw [relocWrites, relocWidth, htype, hsym]
    exact ⟨k, lt_of_lt_of_le hk (min_le_left _ _), rfl⟩

/-- One copy relocation among the relocations of the main program. -/
theorem foldlM_relocate_copy_iff (hlayout : CopyLayout s fuel main rels) (hmain : s.gMainObj = some main)
    (hrun : rels.foldlM (s.relocate fuel main) mem = .ok mem') (hrel : rel ∈ rels)
    (htype : rel.type = .copy) :
    s.HoldsDefinition fuel main rel mem mem' ↔
      s.FromObject fuel main rel ∨ s.HoldsDefinition fuel main rel mem mem := by
  obtain ⟨before, after, rfl⟩ := append_of_mem hrel
  obtain ⟨-, hafter, hcross⟩ := pairwise_append.mp hlayout.apart
  rw [foldlM_append] at hrun
  obtain ⟨mem1, hbefore, hrun⟩ := exists_of_bind_ok hrun
  obtain ⟨mem2, hcopy, hrun⟩ := exists_of_bind_ok hrun
  rw [relocate, htype] at hcopy
  have hfirst : ∀ x ∈ s.relocWrites main rel, mem1 x = mem x := fun x hx =>
    foldlM_relocate_frame hbefore fun r hr hmem =>
      Set.disjoint_left.mp (hcross r hr rel (.head _)) hmem hx
  have hlast : ∀ x ∈ s.relocWrites main rel, mem' x = mem2 x := fun x hx =>
    foldlM_relocate_frame hrun fun r hr hmem =>
      Set.disjoint_left.mp ((pairwise_cons.mp hafter).1 r hr) hx hmem
  have hdefs : ∀ obj ∈ s.gObjects, ∀ name sym, s.lookup fuel name obj = some (some sym) →
      ∀ x ∈ region (s.symbolAddr obj sym) sym.stSize.toNat, mem1 x = mem x := by
    intro obj hobj name sym hlookup x hx
    apply foldlM_relocate_frame hbefore
    intro r hr hmem
    exact Set.disjoint_left.mp (hlayout.outside r (mem_append_left _ hr) obj hobj name sym hlookup) hmem hx
  by_cases hfrom : s.FromObject fuel main rel
  · refine iff_of_true ?_ (.inl hfrom)
    have hholds := relocCopy_of_fromObject hlayout hmain hrel htype hcopy hfrom
    exact hholds.congr htype hlast fun obj hobj name sym hl x hx => (hdefs obj hobj name sym hl x hx).symm
  · obtain rfl := relocCopy_of_not_fromObject hlayout hmain hrel htype hcopy hfrom
    have htarget : ∀ x ∈ s.relocWrites main rel, mem' x = mem x := fun x hx =>
      (hlast x hx).trans (hfirst x hx)
    rw [or_iff_right hfrom]
    exact ⟨fun h => h.congr htype (fun x hx => (htarget x hx).symm) fun _ _ _ _ _ _ _ => rfl,
      fun h => h.congr htype htarget fun _ _ _ _ _ _ _ => rfl⟩

variable {tables : ℕ → RelaTables} {st st' : RelocState}

theorem rtldRelocateObject_relocated {obj : ℕ}
    (hrun : s.rtldRelocateObject fuel tables st obj = .ok st') (hi : i ≠ obj) :
    st'.relocated i = st.relocated i := by
  rw [rtldRelocateObject] at hrun
  split at hrun
  · rw [Except.ok.inj hrun]
  · cases hmem : (tables obj).all.foldlM (s.relocate fuel obj) st.mem with
    | error e => exact absurd hrun (by simp [hmem, Except.map])
    | ok mem =>
      rw [hmem] at hrun
      obtain rfl := Except.ok.inj hrun
      exact update_of_ne hi _ _

theorem relocateObjects_relocated (hi : i ∉ s.gObjects)
    (hrun : s.relocateObjects fuel tables st = .ok st') : st'.relocated i = st.relocated i := by
  rw [relocateObjects] at hrun
  generalize s.gObjects = objs at hi hrun
  induction objs generalizing st with
  | nil => rw [Except.ok.inj hrun]
  | cons obj objs ih =>
    obtain ⟨st1, hobj, hrun⟩ := exists_of_bind_ok hrun
    rw [ih (fun h => hi (.tail _ h)) hrun]
    exact rtldRelocateObject_relocated hobj fun h => hi (h ▸ (.head _))

/-- After `rtldRelocateAll` the targets of the main program's copy relocations have the bytes of the
definitions in the shared objects if and only if each of the symbols is resolved to a shared object or its
target has had these bytes before. -/
theorem rtldRelocateAll_copy_iff {tables : ℕ → RelaTables} {st st' : RelocState}
    (hlayout : CopyLayout s fuel main (tables main).all) (hmain : s.gMainObj = some main)
    (hnew : st.relocated main = false) (hrun : s.rtldRelocateAll fuel tables st = .ok st') :
    ∃ mid, s.relocateObjects fuel tables st = .ok mid ∧
      ((∀ rel ∈ (tables main).all, rel.type = .copy → s.HoldsDefinition fuel main rel mid.mem st'.mem) ↔
        ∀ rel ∈ (tables main).all, rel.type = .copy →
          s.FromObject fuel main rel ∨ s.HoldsDefinition fuel main rel mid.mem mid.mem) := by
  obtain ⟨mid, hmid, hrun⟩ := exists_of_bind_ok hrun
  refine ⟨mid, hmid, ?_⟩
  have hnew' : mid.relocated main = false := (relocateObjects_relocated hlayout.notListed hmid).trans hnew
  rw [hmain] at hrun
  dsimp only at hrun
  rw [rtldRelocateObject, if_neg (by simp [hnew'])] at hrun
  cases hmem : (tables main).all.foldlM (s.relocate fuel main) mid.mem with
  | error e => exact absurd hrun (by simp [hmem, Except.map])
  | ok mem =>
    rw [hmem] at hrun
    obtain rfl := Except.ok.inj hrun
    exact forall₃_congr fun rel hrel htype => foldlM_relocate_copy_iff hlayout hmain hmem hrel htype

/-- A program that needs a library and has a copy relocation for one of its definitions; `info` is
`st_info` of its own symbols. -/
def sampleProgram (info : BitVec 8) : Image :=
  { sampleImage ["a.so"] with
    symbols := { sampleObject with
      symtab := some [⟨0, 0, 0, 0, 0⟩, ⟨1, info, 7, 0x1000, 8⟩, ⟨3, info, 7, 0x1008, 8⟩] } }

/-- The loader when the library is loaded. -/
def sampleCopy (info : BitVec 8) : Option Loader :=
  (boot (sampleImage []) (sampleProgram info) 0x700000000000 0x400000).start sampleLibraries 8
    (sampleProgram info)

/-- The copy relocation. -/
def sampleRela : Elf64Rela := ⟨0x1008, 0x200000005, 0⟩

/-- The main program has it. -/
def sampleRelas (obj : ℕ) : RelaTables := if obj = 1 then ⟨[sampleRela], []⟩ else ⟨[], []⟩

/-- The library's variable is seven. -/
def sampleMemory : RelocState where
  mem a := if a = 0x780000001008 then 7 else 0
  relocated obj := obj == gLdsoObj

/-- The first bytes of the variable in the library and of the copy, after `rtldRelocateAll`. -/
def sampleBytes (info : BitVec 8) : Option (UInt8 × UInt8) :=
  (sampleCopy info).bind fun s => (s.rtldRelocateAll 4 sampleRelas sampleMemory).toOption.map fun st =>
    (st.mem 0x780000001008, st.mem 0x401008)

/-- With a global symbol in the main program the copy is not made. -/
theorem global_copy_missing : sampleBytes 0x11 = some (7, 0) := by
  decide +kernel

/-- What is found is in the symbol table. -/
theorem lookup_mem {t : SymbolTables} (h : t.lookup fuel name = some (some sym)) :
    ∃ symtab, t.symtab = some symtab ∧ sym ∈ symtab := by
  rw [SymbolTables.lookup] at h
  split at h
  · cases h
  · cases h
  · obtain ⟨sym', hsym', heq⟩ := map_eq_some_iff.mp h
    obtain rfl := some.inj heq
    obtain ⟨symtab, hsymtab, hget⟩ := bind_eq_some_iff.mp hsym'
    exact ⟨symtab, hsymtab, mem_of_getElem? hget⟩

/-- The loader of the program with weak symbols. -/
theorem sampleCopy_facts (hs : sampleCopy 0x21 = some s) :
    (s.gObjects = [2, 0] ∧ s.gMainObj = some 1 ∧ (s.objs 2).base = 0x780000000000) ∧
    ((s.objs 0).symbols.symtab = none ∧ (s.objs 2).symbols.symtab = some sampleSymtab) ∧
    (s.relocSymbol 1 sampleRela = some (⟨3, 0x21, 7, 0x1008, 8⟩, [98]) ∧
      s.relocTarget 1 sampleRela = 0x401008) ∧
    s.lookup 4 [98] 1 = some (some ⟨3, 0x21, 7, 0x1008, 8⟩) ∧
      s.rtldResolveSymbol 4 [98] = some (some (2, ⟨3, 0x12, 7, 0x1008, 8⟩)) := by
  have hlist : (sampleCopy 0x21).map (fun s => (s.gObjects, s.gMainObj, (s.objs 2).base)) =
      some ([2, 0], some 1, 0x780000000000) := by
    decide +kernel
  have htables : (sampleCopy 0x21).map (fun s => ((s.objs 0).symbols.symtab, (s.objs 2).symbols.symtab)) =
      some (none, some sampleSymtab) := by
    decide +kernel
  have hsymbol : (sampleCopy 0x21).map (fun s => (s.relocSymbol 1 sampleRela, s.relocTarget 1 sampleRela)) =
      some (some (⟨3, 0x21, 7, 0x1008, 8⟩, [98]), 0x401008) := by
    decide +kernel
  have hfound : (sampleCopy 0x21).map (fun s => (s.lookup 4 [98] 1, s.rtldResolveSymbol 4 [98])) =
      some (some (some ⟨3, 0x21, 7, 0x1008, 8⟩), some (some (2, ⟨3, 0x12, 7, 0x1008, 8⟩))) := by
    decide +kernel
  rw [hs] at hlist htables hsymbol hfound
  simp only [map_some, some.injEq, Prod.mk.injEq] at hlist htables hsymbol hfound
  exact ⟨hlist, htables, hsymbol, hfound⟩

theorem sampleCopy_layout (hs : sampleCopy 0x21 = some s) : CopyLayout s 4 1 (sampleRelas 1).all := by
  obtain ⟨⟨hlist, -, hbase⟩, ⟨hldso, hlib⟩, ⟨hsym, htarget⟩, hown, -⟩ := sampleCopy_facts hs
  have hwrites : s.relocWrites 1 sampleRela = region 0x401008 8 := by
    rw [relocWrites, htarget, relocWidth, hsym]
    rfl
  refine ⟨by rw [hlist]; decide, fun rel hrel _ => ?_, pairwise_singleton _ _, ?_⟩
  · obtain rfl := mem_singleton.mp hrel
    exact ⟨_, _, _, hsym, hown, rfl⟩
  intro rel hrel obj hobj name sym hlookup
  obtain rfl := mem_singleton.mp hrel
  obtain ⟨symtab, hsymtab, hmem⟩ := lookup_mem hlookup
  rw [hlist] at hobj
  rw [hwrites]
  rcases mem_cons.mp hobj with rfl | hobj
  · obtain rfl := mem_unique hlib hsymtab
    have hvalue : ∀ sym ∈ sampleSymtab, sym.stValue.toNat ≤ 0x1008 ∧ sym.stSize.toNat ≤ 8 := by
      decide
    obtain ⟨hvalue, hsize⟩ := hvalue sym hmem
    rw [symbolAddr]
    apply Set.disjoint_left.mpr
    rintro x ⟨k, hk, rfl⟩ ⟨k', hk', heq⟩
    simp only [wrap64] at heq
    omega
  · obtain rfl := mem_singleton.mp hobj
    cases hldso.symm.trans hsymtab

/-- With a weak symbol in the main program the copy is made. -/
theorem rtldRelocateAll_copy_iff_sample :
    sampleBytes 0x21 = some (7, 7) ∧ ∃ s mid st', sampleCopy 0x21 = some s ∧
      s.relocateObjects 4 sampleRelas sampleMemory = .ok mid ∧
      s.rtldRelocateAll 4 sampleRelas sampleMemory = .ok st' ∧
      ∀ rel ∈ (sampleRelas 1).all, rel.type = .copy → s.HoldsDefinition 4 1 rel mid.mem st'.mem := by
  have hbytes : sampleBytes 0x21 = some (7, 7) := by
    decide +kernel
  obtain ⟨s, hs, hrest⟩ := bind_eq_some_iff.mp hbytes
  obtain ⟨st', hst', -⟩ := map_eq_some_iff.mp hrest
  have hrun : s.rtldRelocateAll 4 sampleRelas sampleMemory = .ok st' := by
    cases hcase : s.rtldRelocateAll 4 sampleRelas sampleMemory with
    | error e => exact absurd hst' (by simp [hcase, Except.toOption])
    | ok st =>
      rw [hcase] at hst'
      exact congrArg Except.ok (some.inj hst')
  obtain ⟨⟨hlist, hmain, hbase⟩, -, ⟨hsym, -⟩, -, hresolve⟩ := sampleCopy_facts hs
  obtain ⟨mid, hmid, hiff⟩ := rtldRelocateAll_copy_iff (sampleCopy_layout hs) hmain rfl hrun
  refine ⟨hbytes, s, mid, st', hs, hmid, hrun, hiff.mpr fun rel hrel _ => .inl ?_⟩
  obtain rfl := mem_singleton.mp hrel
  refine ⟨_, _, hsym, 2, by rw [hlist]; decide, _, hresolve, ?_⟩
  rw [symbolAddr, hbase]
  decide

end Copy

end Loader

end NovaOS.Ldso
