import NovaOS.Sched.Contents
import NovaOS.Ldso.Objects
import NovaOS.Syscall.Mmap

/-!
# The segments of shared objects

Reference: `lib/ldso/rtld.c` (`rtldLoadObject`), `kernel/syscall/sysmmap.c` (`sysMmap`).

How the dynamic loader fills the segments of an object, next to `loadElfSegments` of the kernel. Every
allocation and every read succeeds; an address space is the bytes that can be read in it. `gPageSize` is the
page size that the kernel passes. `vma_destroy` in `sysMmap` takes pages away that are all mapped anew.
-/

namespace NovaOS.Ldso

open NovaOS.Lib NovaOS.Mem NovaOS.Sched Option

/-- The frame that `sysMmap` fills from the position `pos` of a file. -/
def fileFrame (fileSize : ℕ) (raw : ℕ → UInt8) (pos : ℕ) : ℕ → UInt8 :=
  if pos < fileSize then
    copyInto (fun _ => 0) 0 raw pos (if wrap64 (pos + pageSize) > fileSize then fileSize - pos else pageSize)
  else fun _ => 0

/-- `sysMmap` of a file with `MAP_FIXED`; `none` is an error. For page zero it looks for a free range, and
`found` is where the search ends. -/
def mmapFixed (fileSize : ℕ) (raw : ℕ → UInt8) (found addr length offset : ℕ) (mem : UserMem) :
    Option UserMem :=
  if length = 0 then none
  else if 2 ^ 63 ≤ offset ∨ offset % pageSize ≠ 0 then none
  else
    let alignedLen := pageCeil length
    if alignedLen = 0 ∨ alignedLen > userSpaceMax / 2 then none
    else
      let targetAddr := if pageFloor addr ≠ 0 then pageFloor addr else found
      if pageFloor addr ≠ 0 ∧ wrap64 (targetAddr + alignedLen) > userSpaceMax then none
      else if pageFloor addr = 0 ∧ wrap64 (targetAddr + alignedLen) ≥ Syscall.mmapLimit then none
      else if areaFits targetAddr alignedLen then
        some (UserMem.mapPages (fun page => fileFrame fileSize raw (wrap64 (offset + (page - targetAddr))))
          (alignedLen / pageSize) targetAddr mem)
      else none

/-- `rtldMemset` with zeros. -/
def clear (mem : UserMem) (start n : ℕ) : UserMem := fun a =>
  if start ≤ a ∧ a < start + n then some 0 else mem a

/-- One turn of the loop of `rtldLoadObject` for a `PT_LOAD` header. -/
def mapSegment (fileSize : ℕ) (raw : ℕ → UInt8) (found : UserMem → ℕ) (loadBias : ℕ) (phdr : Elf64Phdr)
    (mem : UserMem) : Option UserMem :=
  let segStart := pageFloor (wrap64 (phdr.pVaddr.toNat + loadBias))
  let segEnd := pageFloor (wrap64 (phdr.pVaddr.toNat + loadBias + phdr.pMemsz.toNat + (pageSize - 1)))
  let fileOffset := pageFloor phdr.pOffset.toNat
  (mmapFixed fileSize raw (found mem) segStart (sub64 segEnd segStart) fileOffset mem).map fun mem =>
    if phdr.pMemsz.toNat > phdr.pFilesz.toNat ∧ hasFlag phdr.pFlags pfW then
      let bssStart := wrap64 (phdr.pVaddr.toNat + loadBias + phdr.pFilesz.toNat)
      let bssEnd := wrap64 (phdr.pVaddr.toNat + loadBias + phdr.pMemsz.toNat)
      clear mem bssStart (sub64 bssEnd bssStart)
    else mem

/-- The lowest `p_vaddr`, rounded down to a page. -/
def minVaddr (f : ElfFile) : ℕ :=
  pageFloor ((List.range f.ePhnum.toNat).foldl
    (fun least i =>
      if (f.phdrs i).pType = ptLoad ∧ (f.phdrs i).pVaddr.toNat < least then (f.phdrs i).pVaddr.toNat else least)
    (2 ^ 64 - 1))

/-- The bias of an object that is mapped at `mapBase`. -/
def objectBias (f : ElfFile) (mapBase : ℕ) : ℕ := sub64 mapBase (minVaddr f)

/-- What `rtldLoadObject` does to the contents of the address space. -/
def rtldLoadSegments (f : ElfFile) (raw : ℕ → UInt8) (found : UserMem → ℕ) (mapBase : ℕ) (mem : UserMem) :
    Option UserMem :=
  forLoads (mapSegment f.fileSize.toNat raw found (objectBias f mapBase)) f.phdrs f.ePhnum.toNat 0 mem

/-- The file as `rtldLoadObject` sees it: it reads `e_phnum * e_phentsize` bytes of headers, and one that is
not all among them is what lies `behind` the buffer. -/
def asRead (f : ElfFile) (behind : ℕ → Elf64Phdr) : ElfFile :=
  { f with phdrs := fun i =>
      if i < f.ePhnum.toNat ∧ f.ePhnum.toNat * f.ePhentsize.toNat < (i + 1) * 56 then behind i else f.phdrs i }

/-- With entries of at least the size of a header all headers are read. -/
theorem asRead_eq {f : ElfFile} (hentsize : 56 ≤ f.ePhentsize.toNat) (behind : ℕ → Elf64Phdr) :
    asRead f behind = f := by
  have hread : ∀ i, ¬(i < f.ePhnum.toNat ∧ f.ePhnum.toNat * f.ePhentsize.toNat < (i + 1) * 56) := fun i hi =>
    absurd (Nat.mul_le_mul hi.1 hentsize) (Nat.not_le_of_lt hi.2)
  simp only [asRead, hread, if_false]

section mapSegment

variable {raw : ℕ → UInt8} {phdr : Elf64Phdr} {fileSize loadBias : ℕ} {found : UserMem → ℕ}
  {mem mem' : UserMem}

theorem fileFrame_apply {pos o : ℕ} (hpos : pos + pageSize < 2 ^ 64) (ho : o < pageSize) :
    fileFrame fileSize raw pos o = if pos + o < fileSize then raw (pos + o) else 0 := by
  rw [fileFrame, wrap64_of_lt hpos]
  simp only [copyInto, apply_ite (fun g : ℕ → UInt8 => g o)]
  split_ifs <;> first | rfl | omega

/-- A mapped range holds the bytes of the file, with zeros after its end. -/
theorem mmapFixed_fills {found addr length offset : ℕ} (haddr : addr % pageSize = 0) (hne : addr ≠ 0)
    (hlength : length % pageSize = 0) (hlt : length < 2 ^ 64)
    (h : mmapFixed fileSize raw found addr length offset mem = some mem') :
    areaFits addr length ∧ mem.Fills mem' addr (addr + length) fun a =>
      if offset + (a - addr) < fileSize then raw (offset + (a - addr)) else 0 := by
  have hceil : pageCeil length = length := by
    simp only [pageCeil, pageFloor, pageSize, wrap64] at *
    omega
  have hfloor : pageFloor addr = addr := by
    simp only [pageFloor, pageSize] at *
    omega
  rw [mmapFixed] at h
  dsimp only at h
  rw [hceil, hfloor, if_pos hne] at h
  split_ifs at h with hzero hoff hlen htarget hpage hfits
  refine ⟨hfits, fun a => ?_⟩
  have hfill := UserMem.mapPages_fills (fun page => fileFrame fileSize raw (wrap64 (offset + (page - addr))))
    (length / pageSize) haddr mem a
  have hpages : length / pageSize * pageSize = length := Nat.div_mul_cancel (Nat.dvd_of_mod_eq_zero hlength)
  rw [hpages] at hfill
  rw [← some.inj h, hfill]
  by_cases ha : addr ≤ a ∧ a < addr + length
  · have hpage : pageFloor a - addr + a % pageSize = a - addr := by
      simp only [pageFloor, pageSize] at *
      omega
    have hlow : offset + (pageFloor a - addr) + pageSize < 2 ^ 64 := by
      simp only [pageSize, userSpaceMax] at *
      omega
    have hframe : fileFrame fileSize raw _ _ = _ :=
      fileFrame_apply hlow (Nat.mod_lt a (by decide : 0 < pageSize))
    rw [add_assoc, hpage] at hframe
    simp only
    rw [wrap64_of_lt (by omega), hframe]
  · rw [if_neg ha, if_neg ha]

/-- What the dynamic loader puts at the address `a` of a segment. -/
def mappedByte (fileSize : ℕ) (raw : ℕ → UInt8) (phdr : Elf64Phdr) (vaddr a : ℕ) : UInt8 :=
  if hasFlag phdr.pFlags pfW ∧ vaddr + phdr.pFilesz.toNat ≤ a ∧ a < vaddr + phdr.pMemsz.toNat then 0
  else if pageFloor phdr.pOffset.toNat + (a - pageFloor vaddr) < fileSize then
    raw (pageFloor phdr.pOffset.toNat + (a - pageFloor vaddr))
  else 0

/-- A turn of the loop fills the pages of the segment, unless it starts on page zero. -/
theorem mapSegment_fills {vaddr : ℕ} (hpage : pageFloor vaddr ≠ 0) (hle : phdr.pFilesz.toNat ≤ phdr.pMemsz.toNat)
    (hmemsz : phdr.pMemsz.toNat < 2 ^ 63) (hvaddr : vaddr = wrap64 (phdr.pVaddr.toNat + loadBias))
    (h : mapSegment fileSize raw found loadBias phdr mem = some mem') :
    vaddr + phdr.pMemsz.toNat ≤ userSpaceMax ∧
      mem.Fills mem' (pageFloor vaddr) (pageFloor (vaddr + phdr.pMemsz.toNat + (pageSize - 1)))
        (mappedByte fileSize raw phdr vaddr) := by
  have hlt : vaddr < 2 ^ 64 := hvaddr ▸ wrap64_lt _
  -- sums of 64 bits can be taken from the loaded address
  have hsum : ∀ n, wrap64 (phdr.pVaddr.toNat + loadBias + n) = wrap64 (vaddr + n) := by
    intro n
    rw [hvaddr]
    simp only [wrap64]
    omega
  rw [mapSegment] at h
  rw [add_assoc _ phdr.pMemsz.toNat, hsum, hsum, hsum, ← add_assoc, ← hvaddr] at h
  obtain ⟨mem1, hmap, h⟩ := map_eq_some_iff.mp h
  have hstart : pageFloor vaddr % pageSize = 0 := Nat.mul_mod_left _ _
  obtain ⟨hfits, hfill⟩ := mmapFixed_fills hstart hpage
    (by simp only [sub64, pageFloor, pageSize]; omega) (by simp only [sub64]; omega) hmap
  obtain ⟨hwrap, hend⟩ := segment_end hlt hmemsz hfits
  have hlen : pageFloor vaddr + sub64 (pageFloor (wrap64 (vaddr + phdr.pMemsz.toNat + (pageSize - 1))))
      (pageFloor vaddr) = pageFloor (vaddr + phdr.pMemsz.toNat + (pageSize - 1)) := by
    simp only [sub64, pageFloor, pageSize] at *
    omega
  have hbss : wrap64 (vaddr + phdr.pFilesz.toNat) = vaddr + phdr.pFilesz.toNat ∧
      sub64 (wrap64 (vaddr + phdr.pMemsz.toNat)) (vaddr + phdr.pFilesz.toNat) =
        phdr.pMemsz.toNat - phdr.pFilesz.toNat := by
    simp only [sub64, wrap64] at *
    omega
  rw [hbss.1] at h
  rw [hlen] at hfill
  refine ⟨hend, fun a => ?_⟩
  rw [← h]
  have hbyte : ¬_ → mappedByte fileSize raw phdr vaddr a = _ := fun hb => if_neg hb
  split
  · rename_i hclear
    rw [clear, hfill a]
    by_cases ha : vaddr + phdr.pFilesz.toNat ≤ a ∧ a < vaddr + phdr.pMemsz.toNat
    · have hwindow : pageFloor vaddr ≤ a ∧ a < pageFloor (vaddr + phdr.pMemsz.toNat + (pageSize - 1)) := by
        simp only [pageFloor, pageSize]
        omega
      rw [if_pos (by omega), if_pos hwindow, mappedByte, if_pos ⟨hclear.2, ha⟩]
    · rw [if_neg (by omega), hbyte fun hb => ha hb.2]
  · rename_i hclear
    rw [hfill a, hbyte]
    rintro ⟨hflag, hlow, hhigh⟩
    exact hclear ⟨by omega, hflag⟩

end mapSegment

/-! ## The two loaders -/

/-- A segment that lies within the file, with the offset and the address alike on their pages. Its size is
one that can be allocated. -/
structure SegmentOk (fileSize : ℕ) (phdr : Elf64Phdr) : Prop where
  inside : phdr.pOffset.toNat + phdr.pFilesz.toNat ≤ fileSize
  filesz_le : phdr.pFilesz.toNat ≤ phdr.pMemsz.toNat
  memsz_lt : phdr.pMemsz.toNat < 2 ^ 63
  congruent : phdr.pOffset.toNat % pageSize = phdr.pVaddr.toNat % pageSize

/-- The segment has bytes on the page `q`, or starts on it. Pages are counted around the address space. -/
def OnPage (phdr : Elf64Phdr) (q : ℕ) : Prop :=
  ∃ n < (phdr.pVaddr.toNat % pageSize + phdr.pMemsz.toNat + (pageSize - 1)) / pageSize,
    q = (phdr.pVaddr.toNat / pageSize + n) % 2 ^ 52

/-- The `PT_LOAD` segments of a file, on pages of their own. -/
structure SegmentsOk (f : ElfFile) : Prop where
  ok : ∀ i < f.ePhnum.toNat, (f.phdrs i).pType = ptLoad → SegmentOk f.fileSize.toNat (f.phdrs i)
  apart : ∀ i < f.ePhnum.toNat, ∀ j < f.ePhnum.toNat, i ≠ j → (f.phdrs i).pType = ptLoad →
    (f.phdrs j).pType = ptLoad → ∀ q, OnPage (f.phdrs i) q → ¬OnPage (f.phdrs j) q

/-- No `PT_LOAD` segment of an object at `mapBase` starts on page zero. -/
def OffPageZero (f : ElfFile) (mapBase : ℕ) : Prop :=
  ∀ i < f.ePhnum.toNat, (f.phdrs i).pType = ptLoad →
    pageFloor (wrap64 ((f.phdrs i).pVaddr.toNat + objectBias f mapBase)) ≠ 0

variable {bias i k : ℕ}

/-- An address on a page of the loaded segment. -/
theorem onPage_of_loaded {phdr : Elf64Phdr} {vaddr a : ℕ} (hbias : bias % pageSize = 0)
    (hvaddr : vaddr = wrap64 (phdr.pVaddr.toNat + bias))
    (ha : pageFloor vaddr ≤ a ∧ a < pageFloor (vaddr + phdr.pMemsz.toNat + (pageSize - 1))) :
    OnPage phdr ((a / pageSize + (2 ^ 52 - bias / pageSize % 2 ^ 52)) % 2 ^ 52) := by
  refine ⟨a / pageSize - vaddr / pageSize, ?_, ?_⟩ <;>
    simp only [pageFloor, pageSize, wrap64] at * <;> omega

variable {f : ElfFile} {mem mem' : UserMem}

/-- What a loader leaves in memory, if its body fills the pages of one segment. -/
theorem SegmentsOk.loaded_byte (hok : SegmentsOk f) (hbias : bias % pageSize = 0)
    {body : Elf64Phdr → UserMem → Option UserMem} {content : ℕ → ℕ → ℕ → UInt8}
    (hbody : ∀ j < f.ePhnum.toNat, (f.phdrs j).pType = ptLoad → ∀ vaddr,
      vaddr = wrap64 ((f.phdrs j).pVaddr.toNat + bias) → ∀ mem mem', body (f.phdrs j) mem = some mem' →
        vaddr + (f.phdrs j).pMemsz.toNat ≤ userSpaceMax ∧ mem.Fills mem' (pageFloor vaddr)
          (pageFloor (vaddr + (f.phdrs j).pMemsz.toNat + (pageSize - 1))) (content j vaddr))
    (h : forLoads body f.phdrs f.ePhnum.toNat 0 mem = some mem')
    (hi : i < f.ePhnum.toNat) (hload : (f.phdrs i).pType = ptLoad)
    (hk : k < (f.phdrs i).pMemsz.toNat) : let vaddr := wrap64 ((f.phdrs i).pVaddr.toNat + bias)
    mem' (wrap64 ((f.phdrs i).pVaddr.toNat + k + bias)) = some (content i vaddr (vaddr + k)) := by
  intro vaddr
  have hend : ∀ j < f.ePhnum.toNat, (f.phdrs j).pType = ptLoad →
      wrap64 ((f.phdrs j).pVaddr.toNat + bias) + (f.phdrs j).pMemsz.toNat ≤ userSpaceMax := by
    intro j hj htype
    obtain ⟨mem1, mem2, hmem, -⟩ := forLoads_body h (Nat.zero_le j) (by omega) htype
    exact (hbody j hj htype _ rfl mem1 mem2 hmem).1
  have haddr : wrap64 ((f.phdrs i).pVaddr.toNat + k + bias) = vaddr + k := by
    have := hend i hi hload
    simp only [vaddr, wrap64, userSpaceMax] at *
    omega
  rw [haddr]
  refine forLoads_content (fun j => pageFloor (wrap64 ((f.phdrs j).pVaddr.toNat + bias)))
    (fun j => pageFloor (wrap64 ((f.phdrs j).pVaddr.toNat + bias) + (f.phdrs j).pMemsz.toNat + (pageSize - 1)))
    (fun j => content j (wrap64 ((f.phdrs j).pVaddr.toNat + bias)))
    (fun j _ hj htype mem mem' hmem => ?_) (fun j l a hne htj htl _ hj _ hl ha ha' => ?_) h (Nat.zero_le i)
    (by omega) hload ?_
  · exact (hbody j (by omega) htype _ rfl mem mem' hmem).2
  · exact hok.apart j (by omega) l (by omega) hne htj htl _ (onPage_of_loaded hbias rfl ha)
      (onPage_of_loaded hbias rfl ha')
  · simp only [pageFloor, pageSize]
    omega

variable {raw : ℕ → UInt8}

/-- What the kernel puts at the byte `k` of a segment. -/
theorem SegmentsOk.fillElfSegments_byte (hok : SegmentsOk f) (hbias : bias % pageSize = 0)
    (h : fillElfSegments f raw bias mem = some mem') (hi : i < f.ePhnum.toNat)
    (hload : (f.phdrs i).pType = ptLoad) (hk : k < (f.phdrs i).pMemsz.toNat) :
    mem' (wrap64 ((f.phdrs i).pVaddr.toNat + k + bias)) =
      some (if k < (f.phdrs i).pFilesz.toNat then raw ((f.phdrs i).pOffset.toNat + k) else 0) := by
  rw [fillElfSegments] at h
  split_ifs at h with hinside
  have hbyte := hok.loaded_byte hbias (fun j hj htype vaddr hv mem mem' hmem =>
    fillSegment_fills (hok.ok j hj htype).inside f.fileSize.isLt (hok.ok j hj htype).memsz_lt hv hmem) h hi
    hload hk
  rw [hbyte]
  simp

/-- What the dynamic loader puts there. -/
theorem SegmentsOk.rtldLoadSegments_byte (hok : SegmentsOk f) {found : UserMem → ℕ} {mapBase : ℕ}
    (hmap : mapBase % pageSize = 0) (hpage : OffPageZero f mapBase)
    (h : rtldLoadSegments f raw found mapBase mem = some mem') (hi : i < f.ePhnum.toNat) (hload : (f.phdrs i).pType = ptLoad)
    (hk : k < (f.phdrs i).pMemsz.toNat) :
    mem' (wrap64 ((f.phdrs i).pVaddr.toNat + k + objectBias f mapBase)) =
      some (if hasFlag (f.phdrs i).pFlags pfW ∧ (f.phdrs i).pFilesz.toNat ≤ k then 0
        else if (f.phdrs i).pOffset.toNat + k < f.fileSize.toNat then raw ((f.phdrs i).pOffset.toNat + k)
        else 0) := by
  have hbias : objectBias f mapBase % pageSize = 0 := by
    simp only [objectBias, minVaddr, sub64, pageFloor, pageSize] at *
    omega
  have hbyte := hok.loaded_byte hbias (fun j hj htype vaddr hv mem mem' hmem =>
    mapSegment_fills (hv ▸ hpage j hj htype) (hok.ok j hj htype).filesz_le (hok.ok j hj htype).memsz_lt hv hmem)
    h hi hload hk
  have hpos : ∀ vaddr, vaddr % pageSize = (f.phdrs i).pVaddr.toNat % pageSize →
      pageFloor (f.phdrs i).pOffset.toNat + (vaddr + k - pageFloor vaddr) = (f.phdrs i).pOffset.toNat + k := by
    intro vaddr hv
    have hcongr := (hok.ok i hi hload).congruent
    simp only [pageFloor, pageSize] at *
    omega
  rw [hbyte, mappedByte, hpos]
  · simp [hk]
  · simp only [wrap64, pageSize] at *
    omega

/-- The two loaders build the same contents if and only if no segment that is not writable has bytes after
its part of the file that the file goes on with, other than zeros. -/
theorem contents_agree_iff {f : ElfFile} (hok : SegmentsOk f) (hentsize : 56 ≤ f.ePhentsize.toNat)
    {raw : ℕ → UInt8} {behind : ℕ → Elf64Phdr} {found : UserMem → ℕ} {loadBias mapBase : ℕ}
    (hbias : loadBias % pageSize = 0) (hmap : mapBase % pageSize = 0) (hpage : OffPageZero f mapBase)
    {mem memK mem' memL : UserMem} (hK : fillElfSegments f raw loadBias mem = some memK)
    (hL : rtldLoadSegments (asRead f behind) raw found mapBase mem' = some memL) :
    (∀ i < f.ePhnum.toNat, (f.phdrs i).pType = ptLoad → ∀ k < (f.phdrs i).pMemsz.toNat,
      memK (wrap64 ((f.phdrs i).pVaddr.toNat + k + loadBias)) =
        memL (wrap64 ((f.phdrs i).pVaddr.toNat + k + objectBias f mapBase))) ↔
    ∀ i < f.ePhnum.toNat, (f.phdrs i).pType = ptLoad → hasFlag (f.phdrs i).pFlags pfW = false →
      ∀ k, (f.phdrs i).pFilesz.toNat ≤ k → k < (f.phdrs i).pMemsz.toNat →
        (f.phdrs i).pOffset.toNat + k < f.fileSize.toNat → raw ((f.phdrs i).pOffset.toNat + k) = 0 := by
  rw [asRead_eq hentsize] at hL
  refine forall₃_congr fun i hi hload => ?_
  have hinside := (hok.ok i hi hload).inside
  constructor
  · intro h hflag k hfilesz hk hsize
    have heq := h k hk
    rw [hok.fillElfSegments_byte hbias hK hi hload hk, hok.rtldLoadSegments_byte hmap hpage hL hi hload hk,
      if_neg (by omega), if_neg (by simp [hflag]), if_pos hsize] at heq
    exact (some.inj heq).symm
  · intro h k hk
    rw [hok.fillElfSegments_byte hbias hK hi hload hk, hok.rtldLoadSegments_byte hmap hpage hL hi hload hk]
    split
    · rw [if_neg (by omega), if_pos (by omega)]
    · cases hflag : hasFlag (f.phdrs i).pFlags pfW with
      | true => rw [if_pos ⟨rfl, by omega⟩]
      | false =>
        rw [if_neg (by simp)]
        split_ifs with hsize
        · rw [h hflag k (by omega) hk hsize]
        · rfl

/-- A file of 256 bytes with one segment, of which 64 bytes are in the file. -/
def tailFile (flags : BitVec 32) : ElfFile where
  fileSize := 256
  eIdent := fun _ => 0
  eType := etDyn
  eMachine := emX8664
  eEntry := 0
  ePhoff := 64
  ePhentsize := 56
  ePhnum := 1
  phdrs := fun _ => ⟨ptLoad, flags, 0, 0, 64, 128⟩

theorem tailFile_segmentsOk (flags : BitVec 32) : SegmentsOk (tailFile flags) where
  ok _ _ _ := by constructor <;> simp [tailFile, pageSize]
  apart i hi j hj hne := by
    change i < 1 at hi
    change j < 1 at hj
    omega

/-- A segment that is only read shows the next bytes of the file where the kernel has zeros. -/
theorem readOnly_tail :
    SegmentsOk (tailFile pfR) ∧
      (fillElfSegments (tailFile pfR) (fun _ => 1) userDynBase fun _ => none).bind (· (userDynBase + 64)) =
        some 0 ∧
      (rtldLoadSegments (tailFile pfR) (fun _ => 1) (fun _ => 0) rtldLibBase fun _ => none).bind (· (rtldLibBase + 64)) =
        some 1 :=
  ⟨tailFile_segmentsOk pfR, by decide +kernel, by decide +kernel⟩

theorem tailFile_filled :
    (fillElfSegments (tailFile pfW) (fun _ => 1) userDynBase fun _ => none).isSome = true := by
  decide +kernel

theorem tailFile_mapped :
    (rtldLoadSegments (asRead (tailFile pfW) fun _ => ⟨0, 0, 0, 0, 0, 0⟩) (fun _ => 1) (fun _ => 0) rtldLibBase
      fun _ => none).isSome = true := by
  decide +kernel

theorem contents_agree_iff_writable :
    hasFlag ((tailFile pfW).phdrs 0).pFlags pfW = true ∧ ∀ k < 128,
      (get _ tailFile_filled) (wrap64 (0 + k + userDynBase)) =
        (get _ tailFile_mapped) (wrap64 (0 + k + objectBias (tailFile pfW) rtldLibBase)) := by
  refine ⟨by decide, fun k hk => ?_⟩
  have hpage : OffPageZero (tailFile pfW) rtldLibBase := by
    intro i hi _
    obtain rfl : i = 0 := Nat.lt_one_iff.mp hi
    decide
  have hagree := contents_agree_iff (tailFile_segmentsOk pfW) (by decide : 56 ≤ 56)
    (by decide : userDynBase % pageSize = 0) (by decide : rtldLibBase % pageSize = 0) hpage
    (some_get tailFile_filled).symm (some_get tailFile_mapped).symm
  refine hagree.mpr (fun i _ _ hflag => ?_) 0 (by decide) rfl k hk
  change hasFlag pfW pfW = false at hflag
  cases hflag

end NovaOS.Ldso
