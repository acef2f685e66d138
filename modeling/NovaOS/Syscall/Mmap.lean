import NovaOS.Mem.Vma

/-!
# Mapping system calls

Reference: `kernel/syscall/sysmmap.c`, `kernel/syscall/sysmunmap.c`, `kernel/syscall/syscall.h`.

The contents of files and frames are not modelled, so the reads of a file-backed mapping are left
out; its allocations, mappings and failure paths are not.
-/

namespace NovaOS.Syscall

open NovaOS.Lib NovaOS.Mem

def eBadf : ℤ := 9
def eNomem : ℤ := 12
def eAcces : ℤ := 13
def eInval : ℤ := 22

def protRead : BitVec 32 := 0x1#32
def protWrite : BitVec 32 := 0x2#32
def protExec : BitVec 32 := 0x4#32

def mapFixed : BitVec 32 := 0x10#32
def mapAnonymous : BitVec 32 := 0x20#32

/-- `USER_MMAP_BASE`. -/
def userMmapBase : ℕ := 0x0000600000000000

/-- `USER_STACK_TOP_DEFAULT`. -/
def userStackTopDefault : ℕ := 0x00007FFFFFFFE000

/-- The end of the region `sysMmap` searches. -/
def mmapLimit : ℕ := userStackTopDefault - userStackMaxSize

/-- `value & flag` as a condition. -/
def hasBit (value flag : BitVec 32) : Bool := (value &&& flag) != 0#32

/-- `sysMunmap` in the current process. -/
def sysMunmap (p : Process) (addr length : ℕ) : ℤ × Process :=
  if addr % pageSize ≠ 0 then (-eInval, p)
  else if length = 0 then (-eInval, p)
  else
    let alignedLen := pageCeil length
    if wrap64 (addr + alignedLen) > userSpaceMax then (-eInval, p)
    else
      match p.vmaDestroy addr alignedLen with
      | (0, p) => (0, p)
      | (_, p) => (-eInval, p)

/-- The flags of the area that `sysMmap` creates. -/
def mmapVmaFlags (prot flags : BitVec 32) : VmaFlags :=
  let f := vmaUser
  let f := if hasBit prot protRead then f ||| vmaRead else f
  let f := if hasBit prot protWrite then f ||| vmaWrite else f
  let f := if hasBit prot protExec then f ||| vmaExec else f
  if hasBit flags mapAnonymous then f ||| vmaAnon else f

/-- The flags a file-backed page is mapped with. -/
def mmapPteFlags (prot : BitVec 32) : Pte :=
  Vmm.userFlags (hasBit prot protWrite) (hasBit prot protExec)

/-- The search for a gap from `target`; each collision moves past the area hit. -/
def mmapSearch (p : Process) (alignedLen : ℕ) : (fuel target : ℕ) → ℕ
  | 0, target => target
  | fuel + 1, target =>
    if wrap64 (target + alignedLen) < mmapLimit then
      match scan p.next (p.overlaps target (wrap64 (target + alignedLen))) p.fuel p.vmaHead with
      | some v => mmapSearch p alignedLen fuel (pageCeil (p.vma v).stop)
      | none => target
    else target

/-- The check of the descriptor of a file-backed mapping: `0`, or the error. -/
def checkFile (p : Process) (flags : BitVec 32) (fd : ℤ) : ℤ :=
  if hasBit flags mapAnonymous then 0
  else if fd < 3 then -eBadf
  else
    match p.handles fd.toNat with
    | none => -eBadf
    | some fh => if fh.isDir then -eAcces else 0

/-- The end of `sysMmap`: create the area at `target` and back it if it is file-backed. -/
def mmapAt (p : Process) (target alignedLen : ℕ) (prot flags : BitVec 32) : ℤ × Process :=
  match p.vmaCreate target alignedLen (mmapVmaFlags prot flags) with
  | (none, p) => (-eNomem, p)
  | (some _, p) =>
    if hasBit flags mapAnonymous then (target, p)
    else
      match Vmm.backPages p.pml4 (mmapPteFlags prot) (alignedLen / pageSize) target p.vmm with
      | (true, m) => (target, { p with vmm := m })
      | (false, m) => (-eNomem, ({ p with vmm := m }.vmaDestroy target alignedLen).2)

/-- `sysMmap` in the current process. -/
def sysMmap (p : Process) (addr length : ℕ) (prot flags : BitVec 32) (fd offset : ℤ) :
    ℤ × Process :=
  if length = 0 then (-eInval, p)
  else if offset < 0 ∨ offset % pageSize ≠ 0 then (-eInval, p)
  else
    let alignedLen := pageCeil length
    if alignedLen = 0 ∨ alignedLen > userSpaceMax / 2 then (-eNomem, p)
    else if checkFile p flags fd ≠ 0 then (checkFile p flags fd, p)
    else
      let target := pageFloor addr
      if hasBit flags mapFixed = true ∧ target ≠ 0 then
        if wrap64 (target + alignedLen) > userSpaceMax then (-eInval, p)
        else mmapAt (p.vmaDestroy target alignedLen).2 target alignedLen prot flags
      else
        let target := mmapSearch p alignedLen p.fuel userMmapBase
        if wrap64 (target + alignedLen) ≥ mmapLimit then (-eNomem, p)
        else mmapAt p target alignedLen prot flags

end NovaOS.Syscall
