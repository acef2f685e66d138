import NovaOS.Lib.Radix
import NovaOS.Mem.Pte

/-!
# The virtual memory manager

Reference: `kernel/mem/vmm.c`.

A page table is named by the physical address of its frame; `mem t i` is entry `i` of the table at
`t`, which the code reaches through the direct map. `denials` lets `pmm_alloc_frame` fail at any
call: a `true` at the head makes the next call return `NULL` whatever the allocator holds. The lists
`allocated` and `freed` record the calls of `pmm_alloc_frame` that returned a frame and of
`pmm_free_frame`, newest first. The TLB is not modelled.
-/

namespace NovaOS.Mem

open NovaOS.Lib

/-- `USER_SPACE_MAX`. -/
def userSpaceMax : ℕ := 0x0000800000000000

/-- `x & ~(PAGE_SIZE - 1)`. -/
def pageFloor (x : ℕ) : ℕ := x / pageSize * pageSize

/-- `(x + PAGE_SIZE - 1) & ~(PAGE_SIZE - 1)`. -/
def pageCeil (x : ℕ) : ℕ := pageFloor (wrap64 (x + (pageSize - 1)))

/-- `(virt >> shift) & 0x1FF`. -/
def tableIndex (virt shift : ℕ) : Fin 512 :=
  ⟨(virt >>> shift) &&& 0x1FF, lt_of_le_of_lt Nat.and_le_right (by decide)⟩

def pml4Idx (virt : ℕ) : Fin 512 := tableIndex virt 39
def pdptIdx (virt : ℕ) : Fin 512 := tableIndex virt 30
def pdIdx (virt : ℕ) : Fin 512 := tableIndex virt 21
def ptIdx (virt : ℕ) : Fin 512 := tableIndex virt 12

/-- Physical memory as page tables, with the frame allocator. -/
structure Vmm where
  pmm : Pmm
  denials : List Bool
  mem : ℕ → Fin 512 → Pte
  gKernelPml4 : ℕ
  allocated : List ℕ
  freed : List ℕ

namespace Vmm

/-- `table[i] = e`. -/
def write (m : Vmm) (table : ℕ) (i : Fin 512) (e : Pte) : Vmm :=
  { m with mem := Radix.setEntry m.mem table i e }

/-- `for (i = 0; i < 512; i++) table[i] = 0`. -/
def clearTable (m : Vmm) (table : ℕ) : Vmm := { m with mem := Radix.fill m.mem table 0#64 }

/-- `pmm_alloc_frame`, subject to the denials. -/
def pmmAllocFrame (m : Vmm) : ℕ × Vmm :=
  if m.denials.head? = some true then (0, { m with denials := m.denials.tail })
  else
    let r := m.pmm.pmmAllocFrame
    (r.1, { m with
      pmm := r.2
      denials := m.denials.tail
      allocated := if r.1 = 0 then m.allocated else r.1 :: m.allocated })

/-- `pmm_free_frame`. -/
def pmmFreeFrame (m : Vmm) (physAddr : ℕ) : Vmm :=
  { m with pmm := m.pmm.pmmFreeFrame physAddr, freed := physAddr :: m.freed }

/-- `getOrAllocTable` on entry `i` of `table`; `none` is `NULL`. -/
def getOrAllocTable (m : Vmm) (table : ℕ) (i : Fin 512) (flags : Pte) : Option ℕ × Vmm :=
  let entry := m.mem table i
  if entry.has vmmFlagPresent then
    let entry := entry.widen flags
    (some entry.addr, m.write table i entry)
  else
    let (frame, m) := m.pmmAllocFrame
    if frame = 0 then (none, m)
    else (some frame, (m.clearTable frame).write table i (Pte.dir frame flags))

/-- `vmmMapPage`. -/
def vmmMapPage (m : Vmm) (pml4 virt phys : ℕ) (flags : Pte) : ℤ × Vmm :=
  let virt := pageFloor virt
  let phys := pageFloor phys
  match m.getOrAllocTable pml4 (pml4Idx virt) flags with
  | (none, m) => (-1, m)
  | (some pdpt, m) =>
    match m.getOrAllocTable pdpt (pdptIdx virt) flags with
    | (none, m) => (-1, m)
    | (some pd, m) =>
      match m.getOrAllocTable pd (pdIdx virt) flags with
      | (none, m) => (-1, m)
      | (some pt, m) => (0, m.write pt (ptIdx virt) (Pte.leaf phys flags))

/-- `isTableEmpty`. -/
def isTableEmpty (m : Vmm) (table : ℕ) : Bool :=
  decide (∀ i : Fin 512, (m.mem table i).has vmmFlagPresent = false)

/-- The pruning at the end of `vmmUnmapPage`, from the page table upwards. -/
def pruneTables (m : Vmm) (pml4 pdpt pd pt virt : ℕ) : Vmm :=
  if m.isTableEmpty pt then
    let m := (m.write pd (pdIdx virt) 0#64).pmmFreeFrame pt
    if m.isTableEmpty pd then
      let m := (m.write pdpt (pdptIdx virt) 0#64).pmmFreeFrame pd
      if (pml4Idx virt).val < 256 && m.isTableEmpty pdpt then
        (m.write pml4 (pml4Idx virt) 0#64).pmmFreeFrame pdpt
      else m
    else m
  else m

/-- `vmmUnmapPage`. -/
def vmmUnmapPage (m : Vmm) (pml4 virt : ℕ) : ℤ × Vmm :=
  let virt := pageFloor virt
  let pml4Entry := m.mem pml4 (pml4Idx virt)
  if !pml4Entry.has vmmFlagPresent then (0, m)
  else
    let pdpt := pml4Entry.addr
    let pdptEntry := m.mem pdpt (pdptIdx virt)
    if !pdptEntry.has vmmFlagPresent then (0, m)
    else if pdptEntry.has vmmFlagHuge then (0, m)
    else
      let pd := pdptEntry.addr
      let pdEntry := m.mem pd (pdIdx virt)
      if !pdEntry.has vmmFlagPresent then (0, m)
      else if pdEntry.has vmmFlagHuge then (0, m.write pd (pdIdx virt) 0#64)
      else
        let pt := pdEntry.addr
        (0, (m.write pt (ptIdx virt) 0#64).pruneTables pml4 pdpt pd pt virt)

/-- The loop of `vmmMapRange` over `n` pages from `offset`. -/
def mapPages (pml4 virtStart physStart : ℕ) (flags : Pte) : (n offset : ℕ) → Vmm → ℤ × Vmm
  | 0, _, m => (0, m)
  | n + 1, offset, m =>
    let (r, m) :=
      m.vmmMapPage pml4 (wrap64 (virtStart + offset)) (wrap64 (physStart + offset)) flags
    if r ≠ 0 then (-1, m) else mapPages pml4 virtStart physStart flags n (offset + pageSize) m

/-- `vmmMapRange`. -/
def vmmMapRange (m : Vmm) (pml4 virtStart physStart size : ℕ) (flags : Pte) : ℤ × Vmm :=
  mapPages pml4 virtStart physStart flags (pageCeil size / pageSize) 0 m

/-- The loop of `vmmUnmapRange` over `n` pages from `offset`. -/
def unmapPages (pml4 virtStart : ℕ) : (n offset : ℕ) → Vmm → Vmm
  | 0, _, m => m
  | n + 1, offset, m =>
    unmapPages pml4 virtStart n (offset + pageSize)
      (m.vmmUnmapPage pml4 (wrap64 (virtStart + offset))).2

/-- `vmmUnmapRange`. -/
def vmmUnmapRange (m : Vmm) (pml4 virtStart size : ℕ) : ℤ × Vmm :=
  (0, unmapPages pml4 virtStart (pageCeil size / pageSize) 0 m)

/-- `vmmVirtToPhys`. -/
def vmmVirtToPhys (m : Vmm) (pml4 virt : ℕ) : ℕ :=
  let offset := virt &&& (pageSize - 1)
  let pml4Entry := m.mem pml4 (pml4Idx virt)
  if !pml4Entry.has vmmFlagPresent then 0
  else
    let pdptEntry := m.mem pml4Entry.addr (pdptIdx virt)
    if !pdptEntry.has vmmFlagPresent then 0
    else if pdptEntry.has vmmFlagHuge then
      (pdptEntry &&& 0x000FFFFFC0000000#64).toNat ||| (virt &&& 0x3FFFFFFF)
    else
      let pdEntry := m.mem pdptEntry.addr (pdIdx virt)
      if !pdEntry.has vmmFlagPresent then 0
      else if pdEntry.has vmmFlagHuge then
        (pdEntry &&& 0x000FFFFFFFE00000#64).toNat ||| (virt &&& 0x1FFFFF)
      else
        let ptEntry := m.mem pdEntry.addr (ptIdx virt)
        if !ptEntry.has vmmFlagPresent then 0
        else ptEntry.addr ||| offset

/-- `vmmCreateAddressSpace`; `0` is `NULL`. The lower half of the new root is cleared and the upper
half copied from the kernel's. -/
def vmmCreateAddressSpace (m : Vmm) : ℕ × Vmm :=
  let (frame, m) := m.pmmAllocFrame
  if frame = 0 then (0, m)
  else
    (frame, { m with
      mem := fun t i =>
        if t = frame then (if i.val < 256 then 0#64 else m.mem m.gKernelPml4 i) else m.mem t i })

/-- Entry `i` of a 512-entry table. -/
def entryIdx (i : ℕ) : Fin 512 := Fin.ofNat 512 i

/-- The innermost loop of `vmmDestroyAddressSpace` and the release of its page table. -/
def destroyPt (pt : ℕ) (m : Vmm) : Vmm :=
  (forUp 0 512 (fun i m =>
    let e := m.mem pt (entryIdx i)
    if e.has vmmFlagPresent then m.pmmFreeFrame e.addr else m) m).pmmFreeFrame pt

/-- The loop over a page directory and its release. -/
def destroyPd (pd : ℕ) (m : Vmm) : Vmm :=
  (forUp 0 512 (fun i m =>
    let e := m.mem pd (entryIdx i)
    if !e.has vmmFlagPresent || e.has vmmFlagHuge then m else destroyPt e.addr m) m).pmmFreeFrame pd

/-- The loop over a page-directory-pointer table and its release. -/
def destroyPdpt (pdpt : ℕ) (m : Vmm) : Vmm :=
  (forUp 0 512 (fun i m =>
    let e := m.mem pdpt (entryIdx i)
    if !e.has vmmFlagPresent || e.has vmmFlagHuge then m
    else destroyPd e.addr m) m).pmmFreeFrame pdpt

/-- `vmmDestroyAddressSpace`. -/
def vmmDestroyAddressSpace (m : Vmm) (pml4 : ℕ) : Vmm :=
  if pml4 = 0 ∨ pml4 = m.gKernelPml4 then m
  else
    (forUp 0 256 (fun i m =>
      let e := m.mem pml4 (entryIdx i)
      if !e.has vmmFlagPresent then m else destroyPdpt e.addr m) m).pmmFreeFrame pml4

end Vmm

end NovaOS.Mem
