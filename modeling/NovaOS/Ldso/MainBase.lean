import NovaOS.Lib.Bytes
import NovaOS.Sched.Contents

/-!
# The base address of the main program

Reference: `kernel/sched/sched.c` (`schedSpawn`), `lib/ldso/rtld.c` (`ldMain`).

The kernel passes the address of the program headers of an executable as `AT_PHDR`; the dynamic loader finds
out from that address, and from the headers it reads there, where the executable was loaded.
-/

namespace NovaOS.Ldso

open NovaOS.Lib NovaOS.Mem NovaOS.Sched List Option

def ptDynamic : BitVec 32 := 2#32
def ptPhdr : BitVec 32 := 6#32

/-- `sizeof(Elf64_Phdr)`. -/
def sizeofPhdr : ℕ := 56

/-- The program header at `addr`. -/
def phdrAt (bytes : ℕ → UInt8) (addr : ℕ) : Elf64Phdr where
  pType := BitVec.ofNat 32 (le32 bytes addr)
  pFlags := BitVec.ofNat 32 (le32 bytes (addr + 4))
  pOffset := BitVec.ofNat 64 (le64 bytes (addr + 8))
  pVaddr := BitVec.ofNat 64 (le64 bytes (addr + 16))
  pFilesz := BitVec.ofNat 64 (le64 bytes (addr + 32))
  pMemsz := BitVec.ofNat 64 (le64 bytes (addr + 40))

/-- The first of `n` headers with a property. -/
def firstPhdr (phdrs : ℕ → Elf64Phdr) (n : ℕ) (p : Elf64Phdr → Bool) : Option Elf64Phdr :=
  ((range n).map phdrs).find? p

/-! ## The kernel -/

/-- The segment holds the program headers of the file. -/
def coversPhdrs (f : ElfFile) (phdr : Elf64Phdr) : Bool :=
  phdr.pType == ptLoad && decide (phdr.pOffset.toNat ≤ f.ePhoff.toNat) &&
    decide (wrap64 (phdr.pOffset.toNat + phdr.pFilesz.toNat) ≥
      wrap64 (f.ePhoff.toNat + f.ePhnum.toNat * f.ePhentsize.toNat))

/-- The loop of `schedSpawn` that looks for `PT_PHDR`, over a list of headers. -/
def lastPtPhdr (loadBias : ℕ) (phdrs : List Elf64Phdr) (appPhdrUserAddr : ℕ) : ℕ :=
  phdrs.foldl (fun addr phdr => if phdr.pType = ptPhdr then wrap64 (phdr.pVaddr.toNat + loadBias) else addr)
    appPhdrUserAddr

/-- The value of `AT_PHDR`. -/
def appPhdrUserAddr (f : ElfFile) (loadBias : ℕ) : ℕ :=
  let addr := lastPtPhdr loadBias ((range f.ePhnum.toNat).map f.phdrs) 0
  if addr = 0 then
    match firstPhdr f.phdrs f.ePhnum.toNat (coversPhdrs f) with
    | some phdr =>
      wrap64 (wrap64 (phdr.pVaddr.toNat + loadBias) + (f.ePhoff.toNat - phdr.pOffset.toNat))
    | none => 0
  else addr

/-! ## The dynamic loader -/

/-- The `PT_LOAD` header that `ldMain` takes for the one in front of the program headers. -/
def isFirstLoad (phdr : Elf64Phdr) : Bool := phdr.pType == ptLoad && phdr.pOffset == 0#64

/-- `mainBase` of `ldMain`, from the address of the headers and the headers it reads there. -/
def mainBase (appPhdr appPhnum : ℕ) (phdrs : ℕ → Elf64Phdr) : ℕ :=
  let base :=
    match firstPhdr phdrs appPhnum (·.pType == ptPhdr) with
    | some phdr => sub64 appPhdr phdr.pVaddr.toNat
    | none => 0
  if base = 0 then
    match firstPhdr phdrs appPhnum isFirstLoad with
    | some phdr => sub64 appPhdr (wrap64 (phdr.pVaddr.toNat + sizeofEhdr))
    | none => 0
  else base

/-- `gMainObj->base`, where `ldMain` makes a record for the main program. -/
def mainObjBase (appPhdr appPhnum : ℕ) (phdrs : ℕ → Elf64Phdr) : Option ℕ :=
  if appPhdr ≠ 0 ∧ appPhnum > 0 then
    let base := mainBase appPhdr appPhnum phdrs
    match firstPhdr phdrs appPhnum (·.pType == ptDynamic) with
    | some phdr => if wrap64 (base + phdr.pVaddr.toNat) ≠ 0 then some base else none
    | none => none
  else none

/-- The headers at `AT_PHDR` in the memory of the process. -/
def loadedPhdrs (f : ElfFile) (loadBias : ℕ) (memory : ℕ → UInt8) : ℕ → Elf64Phdr := fun i =>
  phdrAt memory (appPhdrUserAddr f loadBias + sizeofPhdr * i)

/-! ## When they agree -/

/-- The address of the program headers in the file's own addresses, as the kernel finds it: that of the last
`PT_PHDR`, if it does not come to zero when it is loaded, and else the one that the first segment around
them gives. -/
def TableAt (f : ElfFile) (loadBias vaddr : ℕ) : Prop :=
  (∃ i < f.ePhnum.toNat, (f.phdrs i).pType = ptPhdr ∧ vaddr = (f.phdrs i).pVaddr.toNat ∧
    (∀ j < f.ePhnum.toNat, i < j → (f.phdrs j).pType ≠ ptPhdr) ∧ wrap64 (vaddr + loadBias) ≠ 0) ∨
  ((∀ i < f.ePhnum.toNat, (f.phdrs i).pType = ptPhdr →
      (∀ j < f.ePhnum.toNat, i < j → (f.phdrs j).pType ≠ ptPhdr) →
      wrap64 ((f.phdrs i).pVaddr.toNat + loadBias) = 0) ∧
    ∃ phdr, firstPhdr f.phdrs f.ePhnum.toNat (coversPhdrs f) = some phdr ∧
      vaddr = wrap64 (phdr.pVaddr.toNat + (f.ePhoff.toNat - phdr.pOffset.toNat)))

/-- What the headers in memory have to say of the address `vaddr` of the table: a program that was moved
needs a `PT_PHDR` with that address, or a segment with offset zero 64 bytes before it; one that was not
moved must not have either of them with another address. -/
def BaseFound (loadBias vaddr n : ℕ) (phdrs : ℕ → Elf64Phdr) : Prop :=
  if loadBias ≠ 0 then
    (∃ phdr, firstPhdr phdrs n (·.pType == ptPhdr) = some phdr ∧ phdr.pVaddr.toNat = vaddr) ∨
    (∀ phdr, firstPhdr phdrs n (·.pType == ptPhdr) = some phdr →
        phdr.pVaddr.toNat = wrap64 (vaddr + loadBias)) ∧
      ∃ phdr, firstPhdr phdrs n isFirstLoad = some phdr ∧ wrap64 (phdr.pVaddr.toNat + sizeofEhdr) = vaddr
  else
    (∀ phdr, firstPhdr phdrs n (·.pType == ptPhdr) = some phdr → phdr.pVaddr.toNat = vaddr) ∧
      ∀ phdr, firstPhdr phdrs n isFirstLoad = some phdr → wrap64 (phdr.pVaddr.toNat + sizeofEhdr) = vaddr

section agree

variable {f : ElfFile} {loadBias vaddr : ℕ}

theorem sub64_eq_zero_iff {a b : ℕ} (ha : a < 2 ^ 64) (hb : b < 2 ^ 64) : sub64 a b = 0 ↔ a = b := by
  unfold sub64
  omega

theorem sub64_wrap64_add {vaddr b bias : ℕ} (hv : vaddr < 2 ^ 64) (hb : b < 2 ^ 64) (hbias : bias < 2 ^ 64) :
    sub64 (wrap64 (vaddr + bias)) b = bias ↔ b = vaddr := by
  unfold sub64 wrap64
  omega

/-- The segment with offset zero gives the bias. -/
theorem loadBase_eq_iff (first : Option Elf64Phdr) (hv : vaddr < 2 ^ 64) (hbias : loadBias < 2 ^ 64) :
    (match first with
      | some phdr => sub64 (wrap64 (vaddr + loadBias)) (wrap64 (phdr.pVaddr.toNat + sizeofEhdr))
      | none => 0) = loadBias ↔
      if loadBias ≠ 0 then ∃ phdr, first = some phdr ∧ wrap64 (phdr.pVaddr.toNat + sizeofEhdr) = vaddr
      else ∀ phdr, first = some phdr → wrap64 (phdr.pVaddr.toNat + sizeofEhdr) = vaddr := by
  cases first with
  | none =>
    by_cases hzero : loadBias = 0
    · simp [hzero]
    · simp [hzero, Ne.symm hzero]
  | some phdr =>
    rw [sub64_wrap64_add hv (wrap64_lt _) hbias]
    simp

/-- The dynamic loader finds the bias from a table at `vaddr`. -/
theorem mainBase_eq_iff {n : ℕ} {phdrs : ℕ → Elf64Phdr} (hv : vaddr < 2 ^ 64) (hbias : loadBias < 2 ^ 64) :
    mainBase (wrap64 (vaddr + loadBias)) n phdrs = loadBias ↔ BaseFound loadBias vaddr n phdrs := by
  have hload := loadBase_eq_iff (firstPhdr phdrs n isFirstLoad) hv hbias
  rw [mainBase, BaseFound]
  cases firstPhdr phdrs n (·.pType == ptPhdr) with
  | none =>
    simp only [if_true]
    rw [hload]
    simp
  | some phdr =>
    have hsub := sub64_wrap64_add hv phdr.pVaddr.isLt hbias
    have hzero := sub64_eq_zero_iff (wrap64_lt (vaddr + loadBias)) phdr.pVaddr.isLt
    by_cases hbase : sub64 (wrap64 (vaddr + loadBias)) phdr.pVaddr.toNat = 0
    · -- the difference is zero, which stands for a header that was not found
      rw [if_pos hbase, hload]
      have heq := hzero.mp hbase
      by_cases hb : loadBias = 0
      · have hvaddr : phdr.pVaddr.toNat = vaddr := hsub.mp (hbase.trans hb.symm)
        simp [hb, hvaddr]
      · have hne : phdr.pVaddr.toNat ≠ vaddr := fun h => hb ((hsub.mpr h).symm.trans hbase)
        simp [hb, hne, heq]
    · rw [if_neg hbase, hsub]
      have hne : phdr.pVaddr.toNat ≠ wrap64 (vaddr + loadBias) := fun h => hbase (hzero.mpr h.symm)
      by_cases hb : loadBias = 0
      · have hvaddr : phdr.pVaddr.toNat ≠ vaddr := fun h => hbase ((hsub.mpr h).trans hb)
        simp [hb, hvaddr]
      · simp [hb, hne]

/-- The loop leaves the address of the last `PT_PHDR`. -/
theorem lastPtPhdr_eq (loadBias : ℕ) (phdrs : ℕ → Elf64Phdr) (n : ℕ) :
    (∃ i < n, (phdrs i).pType = ptPhdr ∧ (∀ j < n, i < j → (phdrs j).pType ≠ ptPhdr) ∧
        lastPtPhdr loadBias ((range n).map phdrs) 0 = wrap64 ((phdrs i).pVaddr.toNat + loadBias)) ∨
      (∀ i < n, (phdrs i).pType ≠ ptPhdr) ∧ lastPtPhdr loadBias ((range n).map phdrs) 0 = 0 := by
  induction n with
  | zero => exact .inr ⟨fun i hi => absurd hi (Nat.not_lt_zero i), rfl⟩
  | succ n ih =>
    have hstep : lastPtPhdr loadBias ((range (n + 1)).map phdrs) 0 =
        if (phdrs n).pType = ptPhdr then wrap64 ((phdrs n).pVaddr.toNat + loadBias)
        else lastPtPhdr loadBias ((range n).map phdrs) 0 := by
      rw [lastPtPhdr, range_succ, map_append, foldl_append]
      rfl
    rw [hstep]
    split
    · rename_i hlast
      exact .inl ⟨n, by omega, hlast, fun j hj hlt => by omega, rfl⟩
    · rename_i hlast
      have hkeep : ∀ j < n + 1, j < n ∨ j = n := fun j hj => by omega
      rcases ih with ⟨i, hi, htype, hafter, heq⟩ | ⟨hnone, heq⟩
      · refine .inl ⟨i, by omega, htype, fun j hj hlt => ?_, heq⟩
        rcases hkeep j hj with hj | rfl
        · exact hafter j hj hlt
        · exact hlast
      · refine .inr ⟨fun i hi => ?_, heq⟩
        rcases hkeep i hi with hi | rfl
        · exact hnone i hi
        · exact hlast

/-- `AT_PHDR` is the address of the table, moved by the bias. -/
theorem appPhdrUserAddr_eq (loadBias : ℕ)
    (hcover : (firstPhdr f.phdrs f.ePhnum.toNat (coversPhdrs f)).isSome = true) :
    ∃ vaddr, TableAt f loadBias vaddr ∧ vaddr < 2 ^ 64 ∧
      appPhdrUserAddr f loadBias = wrap64 (vaddr + loadBias) := by
  obtain ⟨cover, hcover⟩ := isSome_iff_exists.mp hcover
  have hsegment : wrap64 (wrap64 (cover.pVaddr.toNat + loadBias) + (f.ePhoff.toNat - cover.pOffset.toNat)) =
      wrap64 (wrap64 (cover.pVaddr.toNat + (f.ePhoff.toNat - cover.pOffset.toNat)) + loadBias) := by
    simp only [wrap64]
    omega
  rw [appPhdrUserAddr]
  rcases lastPtPhdr_eq loadBias f.phdrs f.ePhnum.toNat with ⟨i, hi, htype, hafter, heq⟩ | ⟨hnone, heq⟩
  · rw [heq]
    split
    · rename_i hzero
      rw [hcover]
      refine ⟨_, .inr ⟨fun j hj hj' hlast => ?_, cover, hcover, rfl⟩, wrap64_lt _, hsegment⟩
      -- only one `PT_PHDR` is the last one
      rcases lt_trichotomy i j with hlt | rfl | hlt
      · exact absurd hj' (hafter j hj hlt)
      · exact hzero
      · exact absurd htype (hlast i hi hlt)
    · rename_i hzero
      exact ⟨_, .inl ⟨i, hi, htype, rfl, hafter, hzero⟩, (f.phdrs i).pVaddr.isLt, rfl⟩
  · rw [heq, hcover]
    exact ⟨_, .inr ⟨fun j hj hj' => absurd hj' (hnone j hj), cover, hcover, rfl⟩, wrap64_lt _, hsegment⟩

/-- The table has one address. -/
theorem TableAt.unique {v v' : ℕ} (h : TableAt f loadBias v) (h' : TableAt f loadBias v') : v = v' := by
  rcases h with ⟨i, hi, htype, rfl, hlast, hne⟩ | ⟨hnone, phdr, hphdr, rfl⟩ <;>
    rcases h' with ⟨j, hj, htype', rfl, hlast', hne'⟩ | ⟨hnone', phdr', hphdr', rfl⟩
  · have heq : i = j := by
      rcases lt_trichotomy i j with hlt | heq | hlt
      · exact absurd htype' (hlast j hj hlt)
      · exact heq
      · exact absurd htype (hlast' i hi hlt)
    rw [heq]
  · exact absurd (hnone' i hi htype hlast) hne
  · exact absurd (hnone j hj htype' hlast') hne'
  · rw [hphdr] at hphdr'
    rw [some.inj hphdr']

end agree

/-- The dynamic loader has the bias of the executable as the base of the main program if and only if the
program headers are not at the address zero, the headers there have a `PT_DYNAMIC` that does not come to
zero, and they give the bias for the address of the table. -/
theorem mainObjBase_eq_iff (f : ElfFile) (memory : ℕ → UInt8)
    (hcover : (firstPhdr f.phdrs f.ePhnum.toNat (coversPhdrs f)).isSome = true) :
    mainObjBase (appPhdrUserAddr f (exeBias f)) f.ePhnum.toNat (loadedPhdrs f (exeBias f) memory) =
        some (exeBias f) ↔
      ∃ vaddr, TableAt f (exeBias f) vaddr ∧ wrap64 (vaddr + exeBias f) ≠ 0 ∧
        (∃ phdr, firstPhdr (loadedPhdrs f (exeBias f) memory) f.ePhnum.toNat (·.pType == ptDynamic) =
          some phdr ∧ wrap64 (exeBias f + phdr.pVaddr.toNat) ≠ 0) ∧
        BaseFound (exeBias f) vaddr f.ePhnum.toNat (loadedPhdrs f (exeBias f) memory) := by
  have hbias : exeBias f < 2 ^ 64 := by
    rw [exeBias]
    split <;> decide
  have hpos : f.ePhnum.toNat > 0 := by
    rcases Nat.eq_zero_or_pos f.ePhnum.toNat with hzero | hpos
    · rw [hzero] at hcover
      exact absurd hcover (by simp [firstPhdr])
    · exact hpos
  obtain ⟨vaddr, htable, hv, haddr⟩ := appPhdrUserAddr_eq (exeBias f) hcover
  have hbase : mainBase _ f.ePhnum.toNat (loadedPhdrs f (exeBias f) memory) = _ ↔ _ :=
    mainBase_eq_iff hv hbias
  rw [mainObjBase, haddr]
  constructor
  · intro h
    split_ifs at h with hne
    cases hphdr : firstPhdr (loadedPhdrs f (exeBias f) memory) f.ePhnum.toNat (·.pType == ptDynamic) with
    | none =>
      rw [hphdr] at h
      cases h
    | some phdr =>
      rw [hphdr] at h
      dsimp only at h
      split_ifs at h with hdyn
      have hb := some.inj h
      rw [hb] at hdyn
      exact ⟨vaddr, htable, hne.1, ⟨phdr, rfl, hdyn⟩, hbase.mp hb⟩
  · rintro ⟨vaddr', htable', hne, ⟨phdr, hphdr, hdyn⟩, hfound⟩
    obtain rfl := htable.unique htable'
    have hb := hbase.mpr hfound
    rw [if_pos ⟨hne, hpos⟩]
    rw [hphdr]
    dsimp only
    rw [hb, if_pos hdyn]

/-! ## Two executables -/

deriving instance DecidableEq for Elf64Phdr

/-- The program headers of a shared executable of 384 bytes without a `PT_PHDR`. -/
def samplePhdrs : List Elf64Phdr :=
  [⟨ptLoad, pfR, 0, 0, 384, 384⟩, ⟨ptInterp, pfR, 368, 368, 16, 16⟩, ⟨ptDynamic, pfR, 320, 320, 16, 16⟩]

/-- It, with the headers at `ePhoff`. -/
def sampleExe (ePhoff : BitVec 64) : ElfFile where
  fileSize := 384
  eIdent := fun i => [0x7F#8, 0x45#8, 0x4C#8, 0x46#8, 2#8, 1#8].getD i 0#8
  eType := etDyn
  eMachine := emX8664
  eEntry := 0x100
  ePhoff := ePhoff
  ePhentsize := 56
  ePhnum := 3
  phdrs := fun i => samplePhdrs.getD i ⟨0, 0, 0, 0, 0, 0⟩

/-- A header as it stands in the file. -/
def phdrBytes (phdr : Elf64Phdr) : List UInt8 :=
  toLe 4 phdr.pType.toNat ++ toLe 4 phdr.pFlags.toNat ++ toLe 8 phdr.pOffset.toNat ++
    toLe 8 phdr.pVaddr.toNat ++ toLe 8 phdr.pVaddr.toNat ++ toLe 8 phdr.pFilesz.toNat ++
    toLe 8 phdr.pMemsz.toNat ++ toLe 8 pageSize

/-- The path `/lib/ld-crow.so`. -/
def interpPath : List UInt8 :=
  [0x2F, 0x6C, 0x69, 0x62, 0x2F, 0x6C, 0x64, 0x2D, 0x63, 0x72, 0x6F, 0x77, 0x2E, 0x73, 0x6F, 0]

/-- The bytes of the file: the headers and the path of the interpreter. -/
def sampleRaw (ePhoff : BitVec 64) : ℕ → UInt8 := fun pos =>
  if pos < ePhoff.toNat then 0
  else if pos < 368 then (samplePhdrs.flatMap phdrBytes).getD (pos - ePhoff.toNat) 0
  else interpPath.getD (pos - 368) 0

/-- The memory of the process after the executable has been loaded. -/
def sampleMemory (ePhoff : BitVec 64) : UserMem := fun a =>
  (fillElfSegments (sampleExe ePhoff) (sampleRaw ePhoff) userDynBase fun _ => none).bind (· a)

/-- With the headers at offset 128 the dynamic loader is 64 bytes off. -/
theorem headers_moved :
    (sampleExe 128).valid = true ∧ (sampleExe 128).phdrsInside = true ∧ (sampleExe 128).wantsInterp = true ∧
      (∀ i < 3, (sampleExe 128).phdrs i = phdrAt (sampleRaw 128) (128 + sizeofPhdr * i)) ∧
      (firstPhdr (sampleExe 128).phdrs 3 (coversPhdrs (sampleExe 128))).isSome = true ∧
      (∀ k < 3 * sizeofPhdr, (sampleMemory 128 (userDynBase + 128 + k)).isSome = true) ∧
      exeBias (sampleExe 128) = 0x400000 ∧ appPhdrUserAddr (sampleExe 128) 0x400000 = 0x400080 ∧
      mainObjBase 0x400080 3 (loadedPhdrs (sampleExe 128) 0x400000 fun a => (sampleMemory 128 a).getD 0) =
        some 0x400040 := by
  refine ⟨by decide, by decide, by decide, by decide +kernel, by decide +kernel, by decide +kernel, by decide,
    by decide +kernel, by decide +kernel⟩

theorem mainObjBase_eq_iff_usual :
    mainObjBase (appPhdrUserAddr (sampleExe 64) 0x400000) 3
        (loadedPhdrs (sampleExe 64) 0x400000 fun a => (sampleMemory 64 a).getD 0) = some 0x400000 ∧
      ∃ vaddr, TableAt (sampleExe 64) 0x400000 vaddr ∧
        BaseFound 0x400000 vaddr 3 (loadedPhdrs (sampleExe 64) 0x400000 fun a => (sampleMemory 64 a).getD 0) := by
  refine (and_iff_left_of_imp fun hbase => ?_).mpr (by decide +kernel)
  obtain ⟨vaddr, htable, -, -, hfound⟩ :=
    (mainObjBase_eq_iff (sampleExe 64) (fun a => (sampleMemory 64 a).getD 0) (by decide +kernel)).mp hbase
  exact ⟨vaddr, htable, hfound⟩

end NovaOS.Ldso
