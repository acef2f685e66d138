import NovaOS.Sched.Spawn

/-!
# The contents of loaded segments

Reference: `kernel/sched/sched.c` (`loadElfSegments`).

What the pages of a program hold after loading, where every allocation succeeds: each page of a segment is a
zeroed frame into which the part of the file that falls on it is copied. Areas and page tables are in
`NovaOS.Sched.Spawn`; here an address space is the bytes that can be read in it.
-/

namespace NovaOS.Sched

open NovaOS.Lib NovaOS.Mem Option

/-- The contents of an address space; `none` where no page is mapped. -/
abbrev UserMem := ℕ → Option UInt8

namespace UserMem

/-- A frame is mapped at `page`. -/
def mapPage (mem : UserMem) (page : ℕ) (frame : ℕ → UInt8) : UserMem := fun a =>
  if page ≤ a ∧ a < page + pageSize then some (frame (a - page)) else mem a

/-- `n` pages are mapped from `page` on; `frame` gives the frame for each address. -/
def mapPages (frame : ℕ → ℕ → UInt8) : (n page : ℕ) → UserMem → UserMem
  | 0, _, mem => mem
  | n + 1, page, mem => mapPages frame n (page + pageSize) (mem.mapPage page (frame page))

/-- `mem'` holds `content` from `lo` to `hi` and is `mem` elsewhere. -/
def Fills (mem mem' : UserMem) (lo hi : ℕ) (content : ℕ → UInt8) : Prop :=
  ∀ a, mem' a = if lo ≤ a ∧ a < hi then some (content a) else mem a

theorem mapPages_fills (frame : ℕ → ℕ → UInt8) (n : ℕ) {page : ℕ} (hpage : page % pageSize = 0)
    (mem : UserMem) :
    mem.Fills (mapPages frame n page mem) page (page + n * pageSize)
      fun a => frame (pageFloor a) (a % pageSize) := by
  induction n generalizing page mem with
  | zero =>
    intro a
    rw [if_neg (by omega)]
    rfl
  | succ n ih =>
    intro a
    have hnext : (page + pageSize) % pageSize = 0 := by rw [Nat.add_mod_right, hpage]
    rw [mapPages, ih hnext]
    by_cases hfirst : page ≤ a ∧ a < page + pageSize
    · have hfloor : pageFloor a = page := by
        simp only [pageFloor, pageSize] at hfirst hpage ⊢
        omega
      have hmod : a % pageSize = a - page := by
        simp only [pageSize] at hfirst hpage ⊢
        omega
      rw [if_neg (by omega), mapPage, if_pos hfirst, if_pos (by simp only [pageSize] at *; omega)]
      simp only [hfloor, hmod]
    · rw [mapPage, if_neg hfirst]
      apply if_congr _ rfl rfl
      simp only [pageSize] at hfirst ⊢
      omega

end UserMem

/-- The loop over the `PT_LOAD` headers, `n` headers from `i`; `none` is a failure. -/
def forLoads (body : Elf64Phdr → UserMem → Option UserMem) (phdrs : ℕ → Elf64Phdr) :
    (n i : ℕ) → UserMem → Option UserMem
  | 0, _, mem => some mem
  | n + 1, i, mem =>
    if (phdrs i).pType ≠ ptLoad then forLoads body phdrs n (i + 1) mem
    else (body (phdrs i) mem).bind (forLoads body phdrs n (i + 1))

section forLoads

variable {body : Elf64Phdr → UserMem → Option UserMem} {phdrs : ℕ → Elf64Phdr} {lo hi : ℕ → ℕ}
  {content : ℕ → ℕ → UInt8}

variable {n i a j : ℕ} {mem mem' : UserMem}

/-- A loop whose body fills a window for each header leaves the rest alone. -/
theorem forLoads_outside (hbody : ∀ j, i ≤ j → j < i + n → (phdrs j).pType = ptLoad → ∀ mem mem',
      body (phdrs j) mem = some mem' → mem.Fills mem' (lo j) (hi j) (content j))
    (h : forLoads body phdrs n i mem = some mem')
    (ha : ∀ j, i ≤ j → j < i + n → (phdrs j).pType = ptLoad → ¬(lo j ≤ a ∧ a < hi j)) :
    mem' a = mem a := by
  induction n generalizing i mem with
  | zero =>
    rw [some.inj h]
  | succ n ih =>
    have hrest : ∀ mem, forLoads body phdrs n (i + 1) mem = some mem' → mem' a = mem a := fun mem hm =>
      ih (fun j hj hjn => hbody j (by omega) (by omega)) hm fun j hj hjn => ha j (by omega) (by omega)
    rw [forLoads] at h
    by_cases htype : (phdrs i).pType = ptLoad
    · rw [if_neg (not_not.mpr htype)] at h
      obtain ⟨mem1, hmem1, h⟩ := bind_eq_some_iff.mp h
      rw [hrest mem1 h, hbody i (by omega) (by omega) htype mem mem1 hmem1 a,
        if_neg (ha i (by omega) (by omega) htype)]
    · rw [if_pos htype] at h
      exact hrest mem h

/-- A loop that succeeds has done its body for each header, and then the rest of the loop. -/
theorem forLoads_body (h : forLoads body phdrs n i mem = some mem') (hij : i ≤ j)
    (hjn : j < i + n) (htype : (phdrs j).pType = ptLoad) :
    ∃ mem1 mem2, body (phdrs j) mem1 = some mem2 ∧
      forLoads body phdrs (i + n - (j + 1)) (j + 1) mem2 = some mem' := by
  induction n generalizing i mem with
  | zero => omega
  | succ n ih =>
    have hlen : i + (n + 1) - (j + 1) = i + 1 + n - (j + 1) := by omega
    rw [forLoads] at h
    rw [hlen]
    by_cases hi : (phdrs i).pType = ptLoad
    · rw [if_neg (not_not.mpr hi)] at h
      obtain ⟨mem1, hmem1, h⟩ := bind_eq_some_iff.mp h
      rcases Nat.eq_or_lt_of_le hij with rfl | hlt
      · exact ⟨mem, mem1, hmem1, by rwa [Nat.add_sub_cancel_left]⟩
      · exact ih h hlt (by omega)
    · rw [if_pos hi] at h
      rcases Nat.eq_or_lt_of_le hij with rfl | hlt
      · exact absurd htype hi
      · exact ih h hlt (by omega)

variable (lo hi content) in
/-- If the windows do not meet, each of them holds what its header put there. -/
theorem forLoads_content (hbody : ∀ j, i ≤ j → j < i + n → (phdrs j).pType = ptLoad → ∀ mem mem',
      body (phdrs j) mem = some mem' → mem.Fills mem' (lo j) (hi j) (content j))
    (hapart : ∀ j k a, j ≠ k → (phdrs j).pType = ptLoad → (phdrs k).pType = ptLoad →
      i ≤ j → j < i + n → i ≤ k → k < i + n → lo j ≤ a ∧ a < hi j → ¬(lo k ≤ a ∧ a < hi k))
    (h : forLoads body phdrs n i mem = some mem') (hij : i ≤ j) (hjn : j < i + n)
    (htype : (phdrs j).pType = ptLoad) (ha : lo j ≤ a ∧ a < hi j) :
    mem' a = some (content j a) := by
  obtain ⟨mem1, mem2, hmem, hrest⟩ := forLoads_body h hij hjn htype
  have hkept : mem' a = mem2 a := by
    refine forLoads_outside (fun k hk hkn => hbody k (by omega) (by omega)) hrest ?_
    intro k hk hkn htk
    exact hapart j k a (by omega) htype htk hij hjn (by omega) (by omega) ha
  rw [hkept, hbody j hij hjn htype mem1 mem2 hmem a, if_pos ha]

end forLoads

/-! ## The kernel's loader -/

/-- `memcpy` of `n` bytes to `dst` in a frame. -/
def copyInto (frame : ℕ → UInt8) (dst : ℕ) (src : ℕ → UInt8) (pos n : ℕ) : ℕ → UInt8 := fun o =>
  if dst ≤ o ∧ o < dst + n then src (pos + (o - dst)) else frame o

/-- The frame that `loadElfSegments` fills for the page at `pageV`. -/
def segmentFrame (raw : ℕ → UInt8) (phdr : Elf64Phdr) (vaddr pageV : ℕ) : ℕ → UInt8 :=
  let fileStart := vaddr
  let fileEnd := wrap64 (vaddr + phdr.pFilesz.toNat)
  let pageEnd := wrap64 (pageV + pageSize)
  let overlapStart := if pageV > fileStart then pageV else fileStart
  let overlapEnd := if pageEnd < fileEnd then pageEnd else fileEnd
  if overlapStart < overlapEnd then
    copyInto (fun _ => 0) (overlapStart - pageV) raw
      (wrap64 (phdr.pOffset.toNat + (overlapStart - fileStart))) (overlapEnd - overlapStart)
  else fun _ => 0

/-- The tests of `vmaCreate` on a range that meets no other area. -/
def areaFits (start size : ℕ) : Prop :=
  size ≠ 0 ∧ pageFloor start < pageFloor (wrap64 (start + size + (pageSize - 1))) ∧
    pageFloor (wrap64 (start + size + (pageSize - 1))) ≤ userSpaceMax

instance (start size : ℕ) : Decidable (areaFits start size) :=
  inferInstanceAs (Decidable (_ ∧ _ ∧ _))

/-- One turn of the loop of `loadElfSegments` for a `PT_LOAD` header. -/
def fillSegment (fileSize : ℕ) (raw : ℕ → UInt8) (loadBias : ℕ) (phdr : Elf64Phdr) (mem : UserMem) :
    Option UserMem :=
  if wrap64 (phdr.pOffset.toNat + phdr.pFilesz.toNat) > fileSize ∨
      phdr.pFilesz.toNat > phdr.pMemsz.toNat then none
  else
    let vaddr := wrap64 (phdr.pVaddr.toNat + loadBias)
    if wrap64 (vaddr + phdr.pMemsz.toNat) > userSpaceMax then none
    else
      let segStart := pageFloor vaddr
      let segEnd := pageFloor (wrap64 (vaddr + phdr.pMemsz.toNat + (pageSize - 1)))
      if areaFits segStart (sub64 segEnd segStart) then
        some (UserMem.mapPages (segmentFrame raw phdr vaddr) ((segEnd - segStart) / pageSize) segStart mem)
      else none

/-- What `loadElfSegments` does to the contents of the address space. -/
def fillElfSegments (f : ElfFile) (raw : ℕ → UInt8) (loadBias : ℕ) (mem : UserMem) : Option UserMem :=
  if f.phdrsInside then
    forLoads (fillSegment f.fileSize.toNat raw loadBias) f.phdrs f.ePhnum.toNat 0 mem
  else none

section fillSegment

variable {raw : ℕ → UInt8} {phdr : Elf64Phdr} {vaddr : ℕ}

/-- An area that is created for a segment has no end that wraps around. -/
theorem segment_end {memsz : ℕ} (hvaddr : vaddr < 2 ^ 64) (hmemsz : memsz < 2 ^ 63)
    (hfits : areaFits (pageFloor vaddr)
      (sub64 (pageFloor (wrap64 (vaddr + memsz + (pageSize - 1)))) (pageFloor vaddr))) :
    wrap64 (vaddr + memsz + (pageSize - 1)) = vaddr + memsz + (pageSize - 1) ∧
      vaddr + memsz ≤ userSpaceMax := by
  obtain ⟨-, hlt, hle⟩ := hfits
  simp only [pageFloor, pageSize, wrap64, sub64] at *
  omega

/-- A page of a segment holds the bytes of the file that belong there and zeros. -/
theorem segmentFrame_apply {a : ℕ} (hend : vaddr + phdr.pFilesz.toNat < 2 ^ 64)
    (hoff : phdr.pOffset.toNat + phdr.pFilesz.toNat < 2 ^ 64) (ha : a + pageSize < 2 ^ 64) :
    segmentFrame raw phdr vaddr (pageFloor a) (a % pageSize) =
      if vaddr ≤ a ∧ a < vaddr + phdr.pFilesz.toNat then raw (phdr.pOffset.toNat + (a - vaddr)) else 0 := by
  have hpage : pageFloor a + a % pageSize = a := by
    rw [pageFloor, mul_comm]
    exact Nat.div_add_mod a pageSize
  have hmod : a % pageSize < pageSize := Nat.mod_lt _ (by decide)
  rw [segmentFrame, wrap64_of_lt hend, wrap64_of_lt (x := pageFloor a + pageSize) (by omega)]
  simp only [copyInto, apply_ite (fun g : ℕ → UInt8 => g (a % pageSize))]
  generalize phdr.pFilesz.toNat = filesz at *
  by_cases hin : vaddr ≤ a ∧ a < vaddr + filesz
  · split_ifs <;> first | omega | skip
    all_goals
      congr 1
      rw [wrap64_of_lt (by omega)]
      omega
  · split_ifs <;> first | rfl | omega

/-- A turn of the loop fills the pages of the segment. -/
theorem fillSegment_fills {fileSize loadBias : ℕ} {mem mem' : UserMem}
    (hinside : phdr.pOffset.toNat + phdr.pFilesz.toNat ≤ fileSize) (hsize : fileSize < 2 ^ 64)
    (hmemsz : phdr.pMemsz.toNat < 2 ^ 63) (hvaddr : vaddr = wrap64 (phdr.pVaddr.toNat + loadBias))
    (h : fillSegment fileSize raw loadBias phdr mem = some mem') :
    vaddr + phdr.pMemsz.toNat ≤ userSpaceMax ∧
      mem.Fills mem' (pageFloor vaddr) (pageFloor (vaddr + phdr.pMemsz.toNat + (pageSize - 1))) fun a =>
        if vaddr ≤ a ∧ a < vaddr + phdr.pFilesz.toNat then raw (phdr.pOffset.toNat + (a - vaddr)) else 0 := by
  have hlt : vaddr < 2 ^ 64 := hvaddr ▸ wrap64_lt _
  rw [fillSegment] at h
  dsimp only at h
  rw [← hvaddr] at h
  split_ifs at h with hcheck hspace hfits
  obtain ⟨hwrap, hend⟩ := segment_end hlt hmemsz hfits
  have hstart : pageFloor vaddr % pageSize = 0 := Nat.mul_mod_left _ _
  refine ⟨hend, fun a => ?_⟩
  have hfill := UserMem.mapPages_fills (segmentFrame raw phdr vaddr)
    ((pageFloor (wrap64 (vaddr + phdr.pMemsz.toNat + (pageSize - 1))) - pageFloor vaddr) / pageSize) hstart mem a
  rw [← some.inj h, hfill, hwrap]
  have hstop : pageFloor vaddr +
      (pageFloor (vaddr + phdr.pMemsz.toNat + (pageSize - 1)) - pageFloor vaddr) / pageSize * pageSize =
        pageFloor (vaddr + phdr.pMemsz.toNat + (pageSize - 1)) := by
    simp only [pageFloor, pageSize]
    omega
  rw [hstop]
  by_cases ha : pageFloor vaddr ≤ a ∧ a < pageFloor (vaddr + phdr.pMemsz.toNat + (pageSize - 1))
  · rw [if_pos ha, if_pos ha]
    have hlow : a + pageSize < 2 ^ 64 := by
      simp only [pageFloor, pageSize, userSpaceMax] at *
      omega
    have hfile : vaddr + phdr.pFilesz.toNat < 2 ^ 64 := by
      simp only [userSpaceMax] at hend
      omega
    exact congrArg some (segmentFrame_apply hfile (by omega) hlow)
  · rw [if_neg ha, if_neg ha]

end fillSegment

end NovaOS.Sched
