import NovaOS.Lib.Bitmap
import NovaOS.Lib.Loop
import NovaOS.Lib.Word

/-!
# The physical frame allocator

Reference: `kernel/mem/pmm.c`.

One bit per 4 KiB frame, set when the frame is used, in 64-bit words; a counter of used frames; and
the word index at which the next single-frame search starts. A pointer is a natural number with `0`
for `NULL`. The memory map is read-only data: `pmm_init` places the bitmap in conventional memory,
which does not hold the map.
-/

namespace NovaOS.Mem

open NovaOS.Lib

/-- `PAGE_SIZE`. -/
def pageSize : ℕ := 4096

/-- `HHDM_BASE`, the virtual base of the direct map. -/
def hhdmBase : ℕ := 0xFFFF800000000000

/-- `EFI_MEMORY_TYPE`; `unknown` stands for a code outside the enumeration. -/
inductive EfiMemoryType where
  | reservedMemoryType
  | loaderCode
  | loaderData
  | bootServicesCode
  | bootServicesData
  | runtimeServicesCode
  | runtimeServicesData
  | conventionalMemory
  | unusableMemory
  | acpiReclaimMemory
  | acpiMemoryNvs
  | memoryMappedIo
  | memoryMappedIoPortSpace
  | palCode
  | persistentMemory
  | unknown (code : ℕ)
deriving DecidableEq, Repr

/-- The fields of `EFI_MEMORY_DESCRIPTOR` that `pmm_init` reads. -/
structure EfiMemoryDescriptor where
  type : EfiMemoryType
  physicalStart : ℕ
  numberOfPages : ℕ
deriving DecidableEq, Repr

/-- `BootMemoryMap`: `descriptor i` is what `pmm_init` reads at `map + i * descriptor_size`. -/
structure BootMemoryMap where
  map : ℕ
  size : ℕ
  descriptorSize : ℕ
  descriptor : ℕ → EfiMemoryDescriptor

/-- `BootRegion`, without the virtual base. -/
structure BootRegion where
  physBase : ℕ
  size : ℕ

/-- The fields of `BootInfo` that `pmm_init` reads, with the address of the structure itself. -/
structure BootInfo where
  address : ℕ
  memoryMap : BootMemoryMap
  fontHeader : ℕ
  pml4 : ℕ
  kernel : BootRegion
  stack : BootRegion

/-- The globals of the frame allocator. -/
structure Pmm where
  gBitmap : Bitmap 64
  gTotalFrames : ℕ
  gUsedFrames : ℕ
  gBitmapWords : ℕ
  gLastScannedIndex : ℕ

namespace Pmm

/-- `bitmap_set_bit`. -/
def bitmapSetBit (s : Pmm) (frameIdx : ℕ) : Pmm := { s with gBitmap := s.gBitmap.setBit frameIdx }

/-- `bitmap_clear_bit`. -/
def bitmapClearBit (s : Pmm) (frameIdx : ℕ) : Pmm :=
  { s with gBitmap := s.gBitmap.clearBit frameIdx }

/-- `bitmap_test_bit`. -/
def bitmapTestBit (s : Pmm) (frameIdx : ℕ) : Bool := s.gBitmap.testBit frameIdx

/-- `if (!bitmap_test_bit(f)) { bitmap_set_bit(f); g_used_frames++; }`. -/
def reserveFrame (f : ℕ) (s : Pmm) : Pmm :=
  if s.bitmapTestBit f then s
  else { s.bitmapSetBit f with gUsedFrames := wrap64 (s.gUsedFrames + 1) }

/-- `if (bitmap_test_bit(f)) { bitmap_clear_bit(f); g_used_frames--; }`. -/
def releaseFrame (f : ℕ) (s : Pmm) : Pmm :=
  if s.bitmapTestBit f then
    { s.bitmapClearBit f with gUsedFrames := sub64 s.gUsedFrames 1 }
  else s

/-- `pmm_reserve_range`. -/
def pmmReserveRange (s : Pmm) (physBase size : ℕ) : Pmm :=
  let startFrame := physBase / pageSize
  let endFrame := wrap64 (physBase + size + (pageSize - 1)) / pageSize
  forUp startFrame (min endFrame s.gTotalFrames) reserveFrame s

/-- `is_ram_type`. -/
def isRamType : EfiMemoryType → Bool
  | .conventionalMemory | .bootServicesCode | .bootServicesData | .loaderCode | .loaderData
  | .acpiReclaimMemory | .acpiMemoryNvs | .runtimeServicesCode | .runtimeServicesData => true
  | _ => false

/-- The number of descriptors in the map. -/
def numEntries (m : BootMemoryMap) : ℕ := m.size / m.descriptorSize

/-- The first loop of `pmm_init`: the highest end of a RAM descriptor. -/
def highestPhys (m : BootMemoryMap) : ℕ :=
  forUp 0 (numEntries m) (fun i highest =>
    let desc := m.descriptor i
    if isRamType desc.type then
      let stop := wrap64 (desc.physicalStart + desc.numberOfPages * pageSize)
      if stop > highest then stop else highest
    else highest) 0

/-- The two searches of `pmm_init` for the memory that holds the bitmap: the first conventional
descriptor of `bitmapPages` pages at or above 1 MiB, else the first one anywhere, else 0. -/
def findBitmapPhys (m : BootMemoryMap) (bitmapPages : ℕ) : ℕ :=
  let fits i := (m.descriptor i).type == .conventionalMemory &&
    decide (bitmapPages ≤ (m.descriptor i).numberOfPages)
  let high := match findUp 0 (numEntries m)
      (fun i => fits i && decide (0x100000 ≤ (m.descriptor i).physicalStart)) with
    | some i => (m.descriptor i).physicalStart
    | none => 0
  if high = 0 then
    match findUp 0 (numEntries m) fits with
    | some i => (m.descriptor i).physicalStart
    | none => 0
  else high

/-- `g_bitmap[i] = ~0ULL` for every word of the bitmap. -/
def fillBitmap (words : ℕ) (b : Bitmap 64) : Bitmap 64 :=
  forUp 0 words (fun i b => Function.update b i (BitVec.allOnes 64)) b

/-- One descriptor of the loop of `pmm_init` that frees conventional memory. -/
def releaseDescriptor (desc : EfiMemoryDescriptor) (s : Pmm) : Pmm :=
  if desc.type = .conventionalMemory then
    let startFrame := desc.physicalStart / pageSize
    let endFrame := wrap64 (startFrame + desc.numberOfPages)
    forUp startFrame (min endFrame s.gTotalFrames) releaseFrame s
  else s

/-- The reservations at the end of `pmm_init`, in order. -/
def pmmReserveBoot (bootInfo : BootInfo) (bitmapPhys bitmapPages : ℕ) (s : Pmm) : Pmm :=
  let s := s.pmmReserveRange 0x0 0x100000
  let s := s.pmmReserveRange bitmapPhys (wrap64 (bitmapPages * pageSize))
  let s := s.pmmReserveRange bootInfo.kernel.physBase bootInfo.kernel.size
  let s := s.pmmReserveRange bootInfo.stack.physBase bootInfo.stack.size
  let s := s.pmmReserveRange (sub64 bootInfo.address hhdmBase) pageSize
  let s := s.pmmReserveRange (sub64 bootInfo.memoryMap.map hhdmBase) bootInfo.memoryMap.size
  let s := s.pmmReserveRange (sub64 bootInfo.pml4 hhdmBase) pageSize
  if bootInfo.fontHeader ≠ 0 then
    s.pmmReserveRange (sub64 bootInfo.fontHeader hhdmBase) (pageSize * 4)
  else s

/-- `pmm_init`; `ram` is what the memory chosen for the bitmap holds before. -/
def pmmInit (ram : Bitmap 64) (bootInfo : BootInfo) : Pmm :=
  let m := bootInfo.memoryMap
  let totalFrames := highestPhys m / pageSize
  let bitmapSizeBytes := (totalFrames + 7) / 8
  let bitmapPages := (bitmapSizeBytes + (pageSize - 1)) / pageSize
  let bitmapWords := (bitmapSizeBytes + (8 - 1)) / 8
  let bitmapPhys := findBitmapPhys m bitmapPages
  let s : Pmm :=
    { gBitmap := fillBitmap bitmapWords ram
      gTotalFrames := totalFrames
      gUsedFrames := totalFrames
      gBitmapWords := bitmapWords
      gLastScannedIndex := 0 }
  let s := forUp 0 (numEntries m) (fun i s => releaseDescriptor (m.descriptor i) s) s
  let s := pmmReserveBoot bootInfo bitmapPhys bitmapPages s
  { s with gLastScannedIndex := 0 }

/-- The body shared by the two scans of `pmm_alloc_frame`, at the word where the scan stops. -/
def takeLowestClear (s : Pmm) (i : ℕ) : ℕ × Pmm :=
  let bit := (~~~(s.gBitmap i)).ctz.toNat
  let frameIdx := i * 64 + bit
  if frameIdx ≥ s.gTotalFrames then (0, s)
  else
    (frameIdx * pageSize,
      { s.bitmapSetBit frameIdx with
        gUsedFrames := wrap64 (s.gUsedFrames + 1), gLastScannedIndex := i })

/-- `pmm_alloc_frame`. -/
def pmmAllocFrame (s : Pmm) : ℕ × Pmm :=
  let hasClear i := s.gBitmap i != BitVec.allOnes 64
  match findUp s.gLastScannedIndex s.gBitmapWords hasClear with
  | some i => s.takeLowestClear i
  | none =>
    match findUp 0 s.gLastScannedIndex hasClear with
    | some i => s.takeLowestClear i
    | none => (0, s)

/-- `bitmap_set_bit` for every frame of a range found free, and `g_used_frames += count`. -/
def markRun (s : Pmm) (startFrame count : ℕ) : Pmm :=
  let s' := forUp startFrame (startFrame + count) (fun f s => s.bitmapSetBit f) s
  { s' with gUsedFrames := wrap64 (s'.gUsedFrames + count) }

/-- The scan of `pmm_alloc_frames` with `n` frames left, from frame `i`. -/
def findRun (s : Pmm) (count : ℕ) : (n i contiguousFound startFrame : ℕ) → Option ℕ
  | 0, _, _, _ => none
  | n + 1, i, contiguousFound, startFrame =>
    if s.bitmapTestBit i then findRun s count n (i + 1) 0 (i + 1)
    else if contiguousFound + 1 = count then some startFrame
    else findRun s count n (i + 1) (contiguousFound + 1) startFrame

/-- `pmm_alloc_frames`. -/
def pmmAllocFrames (s : Pmm) (count : ℕ) : ℕ × Pmm :=
  if count = 0 then (0, s)
  else if count = 1 then s.pmmAllocFrame
  else
    match s.findRun count s.gTotalFrames 0 0 0 with
    | some startFrame => (startFrame * pageSize, s.markRun startFrame count)
    | none => (0, s)

/-- `(start_frame + align_frames - 1) & ~(align_frames - 1)`. -/
def alignedStart (startFrame alignFrames : ℕ) : ℕ :=
  ((BitVec.ofNat 64 startFrame + BitVec.ofNat 64 alignFrames - 1#64) &&&
    ~~~(BitVec.ofNat 64 alignFrames - 1#64)).toNat

/-- The `while` loop of `pmm_alloc_aligned_frames`, for at most `fuel` iterations. -/
def findAlignedRun (s : Pmm) (count alignFrames : ℕ) : (fuel startFrame : ℕ) → Option ℕ
  | 0, _ => none
  | fuel + 1, startFrame =>
    if wrap64 (startFrame + count) ≤ s.gTotalFrames then
      let a := alignedStart startFrame alignFrames
      if wrap64 (a + count) > s.gTotalFrames then none
      else
        match findUp a (wrap64 (a + count)) s.bitmapTestBit with
        | some f => findAlignedRun s count alignFrames fuel (f + 1)
        | none => some a
    else none

/-- `pmm_alloc_aligned_frames`. Each iteration of the loop moves the start frame up, so it ends
within `g_total_frames + 1` iterations. -/
def pmmAllocAlignedFrames (s : Pmm) (count alignFrames : ℕ) : ℕ × Pmm :=
  if count = 0 then (0, s)
  else if alignFrames ≤ 1 then s.pmmAllocFrames count
  else
    match s.findAlignedRun count alignFrames (s.gTotalFrames + 1) 0 with
    | some a => (a * pageSize, s.markRun a count)
    | none => (0, s)

/-- `if (word_idx < g_last_scanned_index) g_last_scanned_index = word_idx`. -/
def lowerCursor (s : Pmm) (wordIdx : ℕ) : Pmm :=
  if wordIdx < s.gLastScannedIndex then { s with gLastScannedIndex := wordIdx } else s

/-- `pmm_free_frame`. -/
def pmmFreeFrame (s : Pmm) (physAddr : ℕ) : Pmm :=
  if physAddr = 0 ∨ physAddr % pageSize ≠ 0 then s
  else
    let frameIdx := physAddr / pageSize
    if frameIdx ≥ s.gTotalFrames then s
    else if s.bitmapTestBit frameIdx then (s.releaseFrame frameIdx).lowerCursor (frameIdx / 64)
    else s

/-- `pmm_free_frames`. -/
def pmmFreeFrames (s : Pmm) (physAddr count : ℕ) : Pmm :=
  if physAddr = 0 ∨ physAddr % pageSize ≠ 0 ∨ count = 0 then s
  else
    let startFrame := physAddr / pageSize
    let endFrame := wrap64 (startFrame + count)
    let endFrame := if endFrame > s.gTotalFrames then s.gTotalFrames else endFrame
    (forUp startFrame endFrame releaseFrame s).lowerCursor (startFrame / 64)

/-- `pmm_get_free_frames`. -/
def pmmGetFreeFrames (s : Pmm) : ℕ := sub64 s.gTotalFrames s.gUsedFrames

end Pmm

end NovaOS.Mem
