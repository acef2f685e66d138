import NovaOS.Lib.Fallible
import NovaOS.Lib.PageList
import NovaOS.Mem.Vmm

/-!
# Reading from an NVMe namespace

Reference: `kernel/krdrivers/nvme/nvme.c`, `kernel/krdrivers/nvme/nvme.h`.

A submitted command is recorded with the memory the device finds at the doorbell and with the frames
of the PRP list that the driver holds for it, newest first. `answers` decides the commands: a `true` at
the head makes the next one fail, by its status, by a timeout or by a fatal controller.
`released` records the array `prp_frames` each time its frames are freed, and `refused` counts the
calls of `pmm_alloc_frame` that returned `NULL`.
-/

namespace NovaOS.Drivers

open NovaOS.Lib NovaOS.Mem Fallible

/-- `NvmeNamespace` with the contents of its blocks: `blocks lba i` is byte `i` of block `lba`. -/
structure NvmeNamespace where
  nsid : ℕ
  blockCount : ℕ
  blockSize : ℕ
  blocks : ℕ → ℕ → UInt8
  blockCount_lt : blockCount < 2 ^ 64

/-- The contents of `count` blocks from `lba`. -/
def NvmeNamespace.contents (ns : NvmeNamespace) (lba count : ℕ) : List UInt8 :=
  (List.range (count * ns.blockSize)).map fun i =>
    ns.blocks (lba + i / ns.blockSize) (i % ns.blockSize)

theorem NvmeNamespace.length_contents (ns : NvmeNamespace) (lba count : ℕ) :
    (ns.contents lba count).length = count * ns.blockSize := by
  rw [contents, List.length_map, List.length_range]

/-- The fields of `NvmeSqe` that a read sets; the others are zero. -/
structure NvmeSqe where
  cdw0 : ℕ
  nsid : ℕ
  dptr0 : ℕ
  dptr1 : ℕ
  cdw10 : ℕ
  cdw11 : ℕ
  cdw12 : ℕ

/-- A command at the doorbell. -/
structure Submission where
  sqe : NvmeSqe
  mem : ℕ → Fin 512 → Pte
  prpFrames : List ℕ

/-- The controller, its I/O queue and the memory. -/
structure Nvme where
  vmm : Vmm
  maxTransferBytes : ℕ
  namespaces : List NvmeNamespace
  queueSize : ℕ
  sqTail : ℕ
  answers : List Bool
  commands : List Submission
  released : List (List ℕ)
  refused : ℕ

/-- `NVME_NVM_OP_READ`. -/
def nvmeNvmOpRead : ℕ := 0x02

namespace Nvme

/-- The kernel's translation of an address. -/
def kernelPhys (s : Nvme) (virt : ℕ) : ℕ := s.vmm.vmmVirtToPhys s.vmm.gKernelPml4 virt

/-- `vmm_virt_to_phys(vmm_get_kernel_pml4(), virt)`. -/
def virtToPhys (virt : ℕ) : Fallible Nvme ℕ := reads fun s => s.kernelPhys virt

/-- `pmm_alloc_frame`. -/
def pmmAllocFrame : Fallible Nvme ℕ := fun s =>
  let (frame, vmm) := s.vmm.pmmAllocFrame
  (some frame, { s with vmm, refused := if frame = 0 then s.refused + 1 else s.refused })

/-- `pmm_free_frame` on each frame of `prp_frames`. -/
def freePrpFrames (prpFrames : List ℕ) : Fallible Nvme Unit :=
  update fun s => { s with
    vmm := prpFrames.foldl Vmm.pmmFreeFrame s.vmm
    released := prpFrames :: s.released }

/-- `memset(prp_list, 0, PAGE_SIZE)`. -/
def clearPrpList (prpList : ℕ) : Fallible Nvme Unit :=
  update fun s => { s with vmm := s.vmm.clearTable prpList }

/-- `prp_list[i] = value`. -/
def writePrpList (prpList i value : ℕ) : Fallible Nvme Unit :=
  update fun s => { s with vmm := s.vmm.write prpList (Vmm.entryIdx i) (BitVec.ofNat 64 value) }

/-- `nvme_submit_io_cmd`: whether it returned `0`. -/
def nvmeSubmitIoCmd (cmd : NvmeSqe) (prpFrames : List ℕ) : Fallible Nvme Bool := fun s =>
  let cmd := { cmd with cdw0 := (cmd.cdw0 &&& 0xFFFF) ||| (s.sqTail <<< 16) }
  (some (s.answers.head? != some true), { s with
    sqTail := (s.sqTail + 1) % s.queueSize
    answers := s.answers.tail
    commands := ⟨cmd, s.vmm.mem, prpFrames⟩ :: s.commands })

/-- The loop that allocates `n` more list frames; on a failure it frees those it has. -/
def allocPrpFrames : (n : ℕ) → (prpFrames : List ℕ) → Fallible Nvme (List ℕ)
  | 0, prpFrames => pure prpFrames
  | n + 1, prpFrames => do
    let frame ← pmmAllocFrame
    if frame = 0 then do
      freePrpFrames prpFrames
      fail
    else allocPrpFrames n (prpFrames ++ [frame])

/-- The start of an iteration of the list loop: a full page that is not the last gets its link and
the next page is cleared. Returns `cur_page` and `cur_entry`. -/
def nextPrpPage (prpFrames : List ℕ) (curPage curEntry : ℕ) : Fallible Nvme (ℕ × ℕ) :=
  if curEntry = 511 ∧ curPage + 1 < prpFrames.length then do
    writePrpList (prpFrames.getD curPage 0) 511 (prpFrames.getD (curPage + 1) 0)
    clearPrpList (prpFrames.getD (curPage + 1) 0)
    pure (curPage + 1, 0)
  else pure (curPage, curEntry)

/-- The loop that writes the PRP list. Every iteration takes at least one byte, so `bytesLeft` is
enough fuel. -/
def fillPrpList (prpFrames : List ℕ) :
    (fuel curPage curEntry nextPageVirt bytesLeft : ℕ) → Fallible Nvme Unit
  | 0, _, _, _, _ => pure ()
  | fuel + 1, curPage, curEntry, nextPageVirt, bytesLeft =>
    if bytesLeft = 0 then pure ()
    else do
      let cur ← nextPrpPage prpFrames curPage curEntry
      let phys ← virtToPhys nextPageVirt
      if phys = 0 then do
        freePrpFrames prpFrames
        fail
      else do
        writePrpList (prpFrames.getD cur.1 0) cur.2 phys
        let step := if bytesLeft > pageSize then pageSize else bytesLeft
        fillPrpList prpFrames fuel cur.1 (cur.2 + 1) (wrap64 (nextPageVirt + step))
          (bytesLeft - step)

/-- `pages_needed`. -/
def pagesNeeded (bytesLeft : ℕ) : ℕ := (bytesLeft + pageSize - 1) / pageSize

/-- `num_prp_pages`. -/
def numPrpPages (pagesNeeded : ℕ) : ℕ :=
  if pagesNeeded > 512 then 1 + (pagesNeeded - 512 + 510) / 511 else 1

/-- The PRP list of the pages from `nextPageVirt` on: `dptr[1]` and `prp_frames`. -/
def buildPrpList (nextPageVirt bytesLeft : ℕ) : Fallible Nvme (ℕ × List ℕ) := do
  let prpFrames ← allocPrpFrames (numPrpPages (pagesNeeded bytesLeft)) []
  clearPrpList (prpFrames.getD 0 0)
  fillPrpList prpFrames bytesLeft 0 0 nextPageVirt bytesLeft
  pure (prpFrames.getD 0 0, prpFrames)

/-- The choice of `dptr[1]`, with the list frames it takes. -/
def secondPrp (currVirt chunkBytes : ℕ) : Fallible Nvme (ℕ × List ℕ) :=
  let firstPageBytes := pageSize - (currVirt &&& (pageSize - 1))
  if chunkBytes ≤ firstPageBytes then pure (0, [])
  else
    let nextPageVirt := wrap64 (currVirt + firstPageBytes)
    let bytesLeft := chunkBytes - firstPageBytes
    if bytesLeft ≤ pageSize then do
      let prp2 ← virtToPhys nextPageVirt
      if prp2 = 0 then fail else pure (prp2, [])
    else buildPrpList nextPageVirt bytesLeft

/-- The command for a chunk. -/
def readCommand (nsid currLba chunkBlocks prp1 prp2 : ℕ) : NvmeSqe where
  cdw0 := nvmeNvmOpRead
  nsid := nsid
  dptr0 := prp1
  dptr1 := prp2
  cdw10 := currLba &&& 0xFFFFFFFF
  cdw11 := currLba >>> 32
  cdw12 := chunkBlocks - 1

/-- One iteration of the loop of `nvme_read`. -/
def readChunk (nsid currLba chunkBlocks currVirt chunkBytes : ℕ) : Fallible Nvme Unit := do
  let prp1 ← virtToPhys currVirt
  if prp1 = 0 then fail
  else do
    let prp2 ← secondPrp currVirt chunkBytes
    let ok ← nvmeSubmitIoCmd (readCommand nsid currLba chunkBlocks prp1 prp2.1) prp2.2
    freePrpFrames prp2.2
    if ok then pure () else fail

/-- The loop of `nvme_read`. Every iteration takes at least one block when `maxChunkBlocks` is
positive, so `remainingBlocks` is enough fuel. -/
def readChunks (nsid blockSize maxChunkBlocks : ℕ) :
    (fuel currLba remainingBlocks currVirt : ℕ) → Fallible Nvme Unit
  | 0, _, _, _ => pure ()
  | fuel + 1, currLba, remainingBlocks, currVirt =>
    if remainingBlocks = 0 then pure ()
    else
      let chunkBlocks :=
        if remainingBlocks > maxChunkBlocks then maxChunkBlocks else remainingBlocks
      let chunkBytes := wrap32 (chunkBlocks * blockSize)
      do
        readChunk nsid currLba chunkBlocks currVirt chunkBytes
        readChunks nsid blockSize maxChunkBlocks fuel (wrap64 (currLba + chunkBlocks))
          (remainingBlocks - chunkBlocks) (wrap64 (currVirt + chunkBytes))

/-- `max_chunk_blocks`. -/
def maxChunkBlocks (maxTransferBytes blockSize : ℕ) : ℕ :=
  let mdtsBlocks := maxTransferBytes / blockSize
  if maxTransferBytes > 0 ∧ mdtsBlocks > 0 ∧ mdtsBlocks < 0x10000 then mdtsBlocks else 0x10000

/-- `nvme_read`. -/
def nvmeRead (nsid lba count buf : ℕ) : Fallible Nvme Unit := fun s =>
  if buf = 0 ∨ count = 0 then (none, s)
  else
    match s.namespaces.find? fun ns => ns.nsid = nsid with
    | none => (none, s)
    | some ns =>
      if ns.blockSize = 0 then (none, s)
      else
        readChunks nsid ns.blockSize (maxChunkBlocks s.maxTransferBytes ns.blockSize) count lba
          count buf s

end Nvme

end NovaOS.Drivers
