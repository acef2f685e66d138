import NovaOS.Mem.Vma

/-!
# Creating processes

Reference: `kernel/sched/sched.c` (`loadElfSegments`, `schedCreateProcess`, `schedSpawn`),
`boot/uefi/elf.h`.

An ELF file is what the loader reads of it: the fields of its header and its program headers. The
contents of pages and of the initial stack are not modelled.
-/

namespace NovaOS.Sched

open NovaOS.Lib NovaOS.Mem

def ptLoad : BitVec 32 := 1#32
def ptInterp : BitVec 32 := 3#32

def pfX : BitVec 32 := 0x1#32
def pfW : BitVec 32 := 0x2#32
def pfR : BitVec 32 := 0x4#32

def etExec : BitVec 16 := 2#16
def etDyn : BitVec 16 := 3#16
def emX8664 : BitVec 16 := 62#16

/-- `sizeof(Elf64_Ehdr)`. -/
def sizeofEhdr : ℕ := 64

/-- `USER_INTERP_BASE`. -/
def userInterpBase : ℕ := 0x0000700000000000

/-- The bias of an `ET_DYN` executable. -/
def userDynBase : ℕ := 0x0000000000400000

/-- `USER_STACK_TOP_DEFAULT`. -/
def userStackTop : ℕ := 0x00007FFFFFFFE000

/-- `USER_STACK_INITIAL_SIZE`. -/
def userStackInitialSize : ℕ := 8 * 1024 * 1024

/-- A program header. -/
structure Elf64Phdr where
  pType : BitVec 32
  pFlags : BitVec 32
  pOffset : BitVec 64
  pVaddr : BitVec 64
  pFilesz : BitVec 64
  pMemsz : BitVec 64

/-- An ELF file: its size, its header and its program headers. -/
structure ElfFile where
  fileSize : BitVec 64
  eIdent : ℕ → BitVec 8
  eType : BitVec 16
  eMachine : BitVec 16
  eEntry : BitVec 64
  ePhoff : BitVec 64
  ePhentsize : BitVec 16
  ePhnum : BitVec 16
  phdrs : ℕ → Elf64Phdr

/-- `flags & flag` as a condition. -/
def hasFlag (flags flag : BitVec 32) : Bool := (flags &&& flag) != 0#32

namespace ElfFile

/-- The checks of the identification, the machine and the type. -/
def valid (f : ElfFile) : Bool :=
  f.eIdent 0 == 0x7F#8 && f.eIdent 1 == 0x45#8 && f.eIdent 2 == 0x4C#8 && f.eIdent 3 == 0x46#8 &&
    f.eIdent 4 == 2#8 && f.eIdent 5 == 1#8 && f.eMachine == emX8664 &&
    (f.eType == etExec || f.eType == etDyn)

/-- The program headers end inside the file. -/
def phdrsInside (f : ElfFile) : Bool :=
  decide (wrap64 (f.ePhoff.toNat + f.ePhnum.toNat * f.ePhentsize.toNat) ≤ f.fileSize.toNat)

/-- The executable names an interpreter. -/
def wantsInterp (f : ElfFile) : Bool :=
  (List.range f.ePhnum.toNat).any fun i =>
    (f.phdrs i).pType == ptInterp &&
      decide (wrap64 ((f.phdrs i).pOffset.toNat + (f.phdrs i).pFilesz.toNat) ≤ f.fileSize.toNat) &&
      decide ((f.phdrs i).pFilesz.toNat > 0)

end ElfFile

/-- The flags of the area of a segment. -/
def segmentVmaFlags (pFlags : BitVec 32) : VmaFlags :=
  let f := vmaUser
  let f := if hasFlag pFlags pfR then f ||| vmaRead else f
  let f := if hasFlag pFlags pfW then f ||| vmaWrite else f
  if hasFlag pFlags pfX then f ||| vmaExec else f

/-- The flags the pages of a segment are mapped with. -/
def segmentPteFlags (pFlags : BitVec 32) : Pte :=
  Vmm.userFlags (hasFlag pFlags pfW) (hasFlag pFlags pfX)

/-- The end of a turn of the loop of `loadElfSegments`: the area of `size` bytes for the segment,
and its pages. -/
def loadSegmentAt (pFlags : BitVec 32) (segStart segEnd size : ℕ) (p : Process) : Bool × Process :=
  match p.vmaCreate segStart size (segmentVmaFlags pFlags) with
  | (none, p) => (false, p)
  | (some _, p) =>
    let (backed, m) := Vmm.backPages p.pml4 (segmentPteFlags pFlags)
      ((segEnd - segStart) / pageSize) segStart p.vmm
    (backed, { p with vmm := m })

/-- One turn of the loop of `loadElfSegments`; `false` is a failure. -/
def loadSegment (f : ElfFile) (loadBias : ℕ) (phdr : Elf64Phdr) (p : Process) : Bool × Process :=
  if phdr.pType ≠ ptLoad then (true, p)
  else if wrap64 (phdr.pOffset.toNat + phdr.pFilesz.toNat) > f.fileSize.toNat ∨
      phdr.pFilesz.toNat > phdr.pMemsz.toNat then (false, p)
  else
    let vaddr := wrap64 (phdr.pVaddr.toNat + loadBias)
    if wrap64 (vaddr + phdr.pMemsz.toNat) > userSpaceMax then (false, p)
    else
      let segStart := pageFloor vaddr
      let segEnd := pageFloor (wrap64 (vaddr + phdr.pMemsz.toNat + (pageSize - 1)))
      loadSegmentAt phdr.pFlags segStart segEnd (sub64 segEnd segStart) p

/-- The loop of `loadElfSegments` over `n` headers from `i`. -/
def loadSegments (f : ElfFile) (loadBias : ℕ) : (n i : ℕ) → Process → Bool × Process
  | 0, _, p => (true, p)
  | n + 1, i, p =>
    match loadSegment f loadBias (f.phdrs i) p with
    | (true, p) => loadSegments f loadBias n (i + 1) p
    | (false, p) => (false, p)

/-- `loadElfSegments`; `false` is `-1`. -/
def loadElfSegments (f : ElfFile) (loadBias : ℕ) (p : Process) : Bool × Process :=
  if f.phdrsInside then loadSegments f loadBias f.ePhnum.toNat 0 p else (false, p)

/-- The flags of the first stack page. -/
def stackPteFlags : Pte := vmmFlagPresent ||| vmmFlagWritable ||| vmmFlagUser

/-- The part of `schedSpawn` that makes the stack area and maps its top page. -/
def mapStack (p : Process) : Bool × Process :=
  match p.vmaCreate (userStackTop - userStackInitialSize) userStackInitialSize
      (vmaRead ||| vmaWrite ||| vmaUser ||| vmaStack ||| vmaAnon) with
  | (none, p) => (false, p)
  | (some _, p) =>
    let (backed, m) := p.vmm.backPage p.pml4 (userStackTop - pageSize) stackPteFlags
    (backed, { p with vmm := m })

/-- The bias of an executable. -/
def exeBias (exe : ElfFile) : ℕ := if exe.eType = etDyn then userDynBase else 0

/-- The bias of an interpreter. -/
def interpBias (interp : ElfFile) : ℕ := if interp.eType = etDyn then userInterpBase else 0

/-- The process that `schedCreateProcess` makes, without areas or files. -/
def newProcess (m : Vmm) (pml4 : ℕ) (kmallocDenials : List Bool) : Process where
  vmm := m
  pml4 := pml4
  vmaHead := none
  vma := fun _ => ⟨0, 0, 0#32, none, none⟩
  vmaCount := 0
  kmallocDenials := kmallocDenials
  handles := fun _ => none

end NovaOS.Sched
