import NovaOS.Lib.DList
import NovaOS.Mem.Vmm

/-!
# Virtual memory areas

Reference: `kernel/mem/vmm.c`, `kernel/mem/vmm.h`.

A process has a doubly linked list of areas and a page-table root. An area record is named by its heap
address; `kmalloc` hands the records out in order, unless `kmallocDenials` makes it fail. The list is
walked with as many steps as there are records. Locks are left out: each routine holds `vmaLock` over
its work on the list.
-/

namespace NovaOS.Mem

open NovaOS.Lib

/-- `USER_STACK_MAX_SIZE`. -/
def userStackMaxSize : ℕ := 8 * 1024 * 1024

/-- The flags of an area. -/
abbrev VmaFlags := BitVec 32

def vmaRead : VmaFlags := 1#32 <<< 0
def vmaWrite : VmaFlags := 1#32 <<< 1
def vmaExec : VmaFlags := 1#32 <<< 2
def vmaUser : VmaFlags := 1#32 <<< 3
def vmaAnon : VmaFlags := 1#32 <<< 4
def vmaStack : VmaFlags := 1#32 <<< 5

/-- `flags & flag` as a condition. -/
def VmaFlags.has (flags flag : VmaFlags) : Bool := (flags &&& flag) != 0#32

/-- An area record; `stop` is the source's `end`. -/
structure Vma where
  start : ℕ
  stop : ℕ
  flags : VmaFlags
  next : Option ℕ
  prev : Option ℕ

/-- An open file as far as `sysMmap` looks at it. -/
structure FileHandle where
  isDir : Bool

/-- A process and the memory it runs in. -/
structure Process where
  vmm : Vmm
  pml4 : ℕ
  vmaHead : Option ℕ
  vma : ℕ → Vma
  vmaCount : ℕ
  kmallocDenials : List Bool
  handles : ℕ → Option FileHandle

namespace Vmm

/-- Take a frame, clear it and map it at a page, giving it back if it cannot be mapped; `false` is a
failure. The page-fault handler, `sysMmap` and `schedSpawn` all do this. -/
def backPage (m : Vmm) (pml4 virt : ℕ) (flags : Pte) : Bool × Vmm :=
  let (frame, m) := m.pmmAllocFrame
  if frame = 0 then (false, m)
  else
    match m.vmmMapPage pml4 virt frame flags with
    | (0, m) => (true, m)
    | (_, m) => (false, m.pmmFreeFrame frame)

/-- The same for `n` pages from `virt`, up to the first failure. -/
def backPages (pml4 : ℕ) (flags : Pte) : (n virt : ℕ) → Vmm → Bool × Vmm
  | 0, _, m => (true, m)
  | n + 1, virt, m =>
    match m.backPage pml4 virt flags with
    | (true, m) => backPages pml4 flags n (virt + pageSize) m
    | (false, m) => (false, m)

/-- The flags of a user page, as the page-fault handler, `sysMmap` and `schedSpawn` compose them. -/
def userFlags (write exec : Bool) : Pte :=
  let flags := vmmFlagPresent ||| vmmFlagUser
  let flags := if write then flags ||| vmmFlagWritable else flags
  if exec then flags else flags ||| vmmFlagNoExecute

end Vmm

namespace Process

/-- The `next` links of the area records. -/
def next (p : Process) (a : ℕ) : Option ℕ := (p.vma a).next

/-- The `prev` links of the area records. -/
def prev (p : Process) (a : ℕ) : Option ℕ := (p.vma a).prev

/-- The walks along the list end within this many steps. -/
def fuel (p : Process) : ℕ := p.vmaCount + 1

/-- Write the record at `a`. -/
def setVma (p : Process) (a : ℕ) (f : Vma → Vma) : Process :=
  { p with vma := Function.update p.vma a (f (p.vma a)) }

/-- `if (ptr) ptr->prev = v`. -/
def setPrev (p : Process) (ptr v : Option ℕ) : Process :=
  match ptr with
  | none => p
  | some a => p.setVma a fun x => { x with prev := v }

/-- `if (ptr) ptr->next = v; else head = v`. -/
def setNextOrHead (p : Process) (ptr v : Option ℕ) : Process :=
  match ptr with
  | none => { p with vmaHead := v }
  | some a => p.setVma a fun x => { x with next := v }

/-- `kmalloc(sizeof(Vma))`. -/
def kmallocVma (p : Process) : Option ℕ × Process :=
  if p.kmallocDenials.head? = some true then
    (none, { p with kmallocDenials := p.kmallocDenials.tail })
  else
    (some p.vmaCount,
      { p with kmallocDenials := p.kmallocDenials.tail, vmaCount := p.vmaCount + 1 })

/-- The overlap test of `vmaCreate` and `sysMmap`. -/
def overlaps (p : Process) (pageStart pageEnd a : ℕ) : Bool :=
  decide (pageStart < (p.vma a).stop) && decide (pageEnd > (p.vma a).start)

/-- Link the record `vma` before the first one. -/
def linkHead (p : Process) (vma : ℕ) : Process :=
  { (p.setVma vma fun x => { x with next := p.vmaHead }).setPrev p.vmaHead (some vma) with
    vmaHead := some vma }

/-- Link the record `vma` after `it`. -/
def linkAfter (p : Process) (vma it : ℕ) : Process :=
  let p' := p.setVma vma fun x => { x with next := p.next it, prev := some it }
  (p'.setPrev (p.next it) (some vma)).setVma it fun x => { x with next := some vma }

/-- The part of `vmaCreate` that links a filled record in. -/
def linkVma (p : Process) (vma pageStart : ℕ) : Process :=
  match p.vmaHead with
  | none => p.linkHead vma
  | some h =>
    if pageStart < (p.vma h).start then p.linkHead vma
    else p.linkAfter vma (advance p.next (fun a => decide ((p.vma a).start < pageStart)) p.fuel h)

/-- `vmaCreate`; `none` is `NULL`. -/
def vmaCreate (p : Process) (start size : ℕ) (flags : VmaFlags) : Option ℕ × Process :=
  if size = 0 then (none, p)
  else
    let pageStart := pageFloor start
    let pageEnd := pageFloor (wrap64 (start + size + (pageSize - 1)))
    if pageStart ≥ pageEnd ∨ pageEnd > userSpaceMax then (none, p)
    else if (scan p.next (p.overlaps pageStart pageEnd) p.fuel p.vmaHead).isSome then (none, p)
    else
      match p.kmallocVma with
      | (none, p) => (none, p)
      | (some vma, p) =>
        (some vma, (p.setVma vma fun _ => ⟨pageStart, pageEnd, flags, none, none⟩).linkVma vma
          pageStart)

/-- The loop of `vmaDestroy` that unmaps and frees `n` pages from `addr`. -/
def unmapAndFree (pml4 : ℕ) : (n addr : ℕ) → Vmm → Vmm
  | 0, _, m => m
  | n + 1, addr, m =>
    let phys := m.vmmVirtToPhys pml4 addr
    unmapAndFree pml4 n (addr + pageSize)
      (if phys ≠ 0 then (m.vmmUnmapPage pml4 addr).2.pmmFreeFrame phys else m)

/-- The body of the loop of `vmaDestroy` for an area that meets the range. -/
def destroyVma (p : Process) (pageStart pageEnd curr : ℕ) : Process :=
  let c := p.vma curr
  let unmapStart := if c.start > pageStart then c.start else pageStart
  let unmapEnd := if c.stop < pageEnd then c.stop else pageEnd
  let p := { p with
    vmm := unmapAndFree p.pml4 ((unmapEnd - unmapStart + (pageSize - 1)) / pageSize) unmapStart
      p.vmm }
  if c.start ≥ pageStart ∧ c.stop ≤ pageEnd then
    (p.setNextOrHead c.prev c.next).setPrev c.next c.prev
  else if c.start < pageStart ∧ c.stop > pageEnd then
    match p.kmallocVma with
    | (none, p) => p.setVma curr fun x => { x with stop := pageStart }
    | (some right, p) =>
      let p := p.setVma right fun _ => ⟨pageEnd, c.stop, c.flags, none, none⟩
      (p.linkAfter right curr).setVma curr fun x => { x with stop := pageStart }
  else if c.start < pageStart then p.setVma curr fun x => { x with stop := pageStart }
  else p.setVma curr fun x => { x with start := pageEnd }

/-- The loop of `vmaDestroy`. -/
def destroyLoop (pageStart pageEnd : ℕ) : (fuel : ℕ) → Option ℕ → Process → Process
  | 0, _, p => p
  | _ + 1, none, p => p
  | fuel + 1, some curr, p =>
    let next := p.next curr
    destroyLoop pageStart pageEnd fuel next
      (if (p.vma curr).stop > pageStart ∧ (p.vma curr).start < pageEnd then
        p.destroyVma pageStart pageEnd curr
      else p)

/-- `vmaDestroy`. -/
def vmaDestroy (p : Process) (start size : ℕ) : ℤ × Process :=
  if size = 0 then (-1, p)
  else
    let pageStart := pageFloor start
    let pageEnd := pageFloor (wrap64 (start + size + (pageSize - 1)))
    (0, destroyLoop pageStart pageEnd p.fuel p.vmaHead p)

/-- `vmaDestroyAll`, with the records it frees in order. -/
def vmaDestroyAll (p : Process) : List ℕ × Process :=
  (walk p.next p.fuel p.vmaHead, { p with vmaHead := none })

/-- `vmaFind`. -/
def vmaFind (p : Process) (addr : ℕ) : Option ℕ :=
  scan p.next (fun a => decide (addr ≥ (p.vma a).start) && decide (addr < (p.vma a).stop)) p.fuel
    p.vmaHead

/-! ## Page faults -/

/-- The registers a page fault is taken with. -/
structure Fault where
  cr2 : BitVec 64
  cs : BitVec 64
  errorCode : BitVec 64
  rsp : BitVec 64

/-- How `vmmPageFaultHandler` ends: it resumes the thread, ends it, or gives the fault to
`default_exception_handler`. -/
inductive FaultResult where
  | resume
  | threadExit
  | exception
deriving DecidableEq, Repr

/-- The test of the stack-growth loop. -/
def growable (p : Process) (cr2 rsp a : ℕ) : Bool :=
  (p.vma a).flags.has vmaStack &&
    decide (cr2 < (p.vma a).start) &&
    decide (sub64 (p.vma a).stop (pageFloor cr2) ≤ userStackMaxSize) &&
    decide (wrap64 (cr2 + 256) ≥ rsp)

/-- The area of a fault, a stack area being lowered to reach it. -/
def faultVma (p : Process) (cr2 rsp : ℕ) : Option ℕ × Process :=
  match p.vmaFind cr2 with
  | some vma => (some vma, p)
  | none =>
    match scan p.next (p.growable cr2 rsp) p.fuel p.vmaHead with
    | some it => (some it, p.setVma it fun x => { x with start := pageFloor cr2 })
    | none => (none, p)

/-- The flags a page of an area is mapped with. -/
def faultFlags (flags : VmaFlags) : Pte := Vmm.userFlags (flags.has vmaWrite) (flags.has vmaExec)

/-- `vmmPageFaultHandler` in the current process. -/
def vmmPageFaultHandler (p : Process) (f : Fault) : FaultResult × Process :=
  let cr2 := f.cr2.toNat
  let isUserMode := f.cs &&& 3#64 = 3#64
  let isPresent := f.errorCode &&& 1#64 ≠ 0#64
  let isWrite := f.errorCode &&& 2#64 ≠ 0#64
  let isInstructionFetch := f.errorCode &&& 16#64 ≠ 0#64
  let kill := if isUserMode then FaultResult.threadExit else .exception
  if cr2 ≥ userSpaceMax then (.exception, p)
  else
    match p.faultVma cr2 f.rsp.toNat with
    | (none, p) => (kill, p)
    | (some vma, p) =>
      let flags := (p.vma vma).flags
      if isPresent ∨ (isWrite ∧ flags.has vmaWrite = false) ∨
          (isInstructionFetch ∧ flags.has vmaExec = false) ∨
          (isUserMode ∧ flags.has vmaUser = false) then (kill, p)
      else
        let (backed, m) := p.vmm.backPage p.pml4 (pageFloor cr2) (faultFlags flags)
        (if backed then .resume else kill, { p with vmm := m })

end Process

end NovaOS.Mem
