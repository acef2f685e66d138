import NovaOS.Sched.SpawnRun

/-!
# Failed calls of `schedSpawn`

Reference: `kernel/sched/sched.c` (`schedSpawn`, `schedCreateProcess`, `loadElfSegments`),
`kernel/mem/vmm.c` (`vmmDestroyAddressSpace`).

A process that gets number zero is filled in the page tables of the kernel, and these are not destroyed. So a
page or a table that was made for it stays, whatever fails later. Frames are first asked for when the first
page is backed; `SpawnInput.firstPage` is this page. `schedSpawn_released_iff` says that a call that returns
`NULL` gives everything back unless the number is zero and this page or a table for it was made.

Nothing is assumed of the kernel's tables in user space, so the routines are described by what they do to the
frame allocator alone.
-/

namespace NovaOS.Mem.Vmm

open NovaOS.Lib

/-- The frame allocator is in order, and frame zero is not handed out. -/
structure Ready (m : Vmm) : Prop where
  pmm : m.pmm.Inv
  total_le : m.pmm.gTotalFrames ≤ 2 ^ 40
  zero_used : 0 ∈ m.pmm.usedSet

/-- A step after which the frames that were in use still are. -/
structure Retains (m m' : Vmm) : Prop where
  ready : m'.Ready
  kernel_eq : m'.gKernelPml4 = m.gKernelPml4
  balanced : m.Balanced m'
  used_mono : m.pmm.usedSet ⊆ m'.pmm.usedSet

/-- Backing the page makes neither a page nor a table: there is no frame for the page, or none for the first
table that is missing. -/
def BacksNothing (m : Vmm) (root virt : ℕ) : Prop :=
  m.pmmAllocFrame.1 = 0 ∨
    m.table root (pagePath (virt / pageSize)) = none ∧ m.pmmAllocFrame.2.pmmAllocFrame.1 = 0

instance (m : Vmm) (root virt : ℕ) : Decidable (m.BacksNothing root virt) :=
  inferInstanceAs (Decidable (_ ∨ _))

section Retains

variable {m m' m'' : Vmm}

theorem Retains.refl (h : m.Ready) : m.Retains m := ⟨h, rfl, .refl m, Finset.Subset.rfl⟩

theorem Retains.trans (h : m.Retains m') (h' : m'.Retains m'') : m.Retains m'' :=
  ⟨h'.ready, h'.kernel_eq.trans h.kernel_eq, h.balanced.trans h'.balanced,
    h.used_mono.trans h'.used_mono⟩

/-- Frames that were taken stay taken. -/
theorem Retains.same_of (h : m.Retains m') (h' : m'.Retains m'')
    (heq : m''.pmm.usedSet = m.pmm.usedSet) : m'.pmm.usedSet = m.pmm.usedSet :=
  (heq ▸ h'.used_mono).antisymm h.used_mono

/-- A write to a table. -/
theorem Retains.of_mem (h : m.Retains m') (mem : ℕ → Fin 512 → Pte) :
    m.Retains { m' with mem := mem } :=
  ⟨⟨h.ready.pmm, h.ready.total_le, h.ready.zero_used⟩, h.kernel_eq,
    ⟨h.balanced.zero_mono, h.balanced.ledger_eq⟩, h.used_mono⟩

theorem pmmAllocFrame_of_mem (m : Vmm) (mem : ℕ → Fin 512 → Pte) :
    ({ m with mem := mem } : Vmm).pmmAllocFrame.1 = m.pmmAllocFrame.1 := by
  unfold Vmm.pmmAllocFrame
  dsimp only
  split <;> rfl

/-- A frame that was taken in the meantime is given back. -/
theorem Retains.pmmFreeFrame (h : m.Retains m') {a : ℕ} (ha : FrameAddr a)
    (hfree : a / pageSize ∉ m.pmm.usedSet) (hused : a / pageSize ∈ m'.pmm.usedSet) :
    m.Retains (m'.pmmFreeFrame a) := by
  have hpost := ha.pmmFreeFrame h.ready.pmm
  refine ⟨⟨hpost.inv, hpost.total_eq.trans_le h.ready.total_le,
    ha.zero_mem_pmmFreeFrame h.ready.pmm h.ready.zero_used⟩, h.kernel_eq,
    h.balanced.trans (balanced_pmmFreeFrame ha h.ready.pmm hused), fun f hf => ?_⟩
  refine hpost.used_eq.symm ▸ Finset.mem_erase_of_ne_of_mem ?_ (h.used_mono hf)
  rintro rfl
  exact hfree hf

variable (h : m.Ready)
include h

theorem Ready.pmmAllocFrame : m.Retains m.pmmAllocFrame.2 := by
  have hr := pmmAllocFrame_spec h.pmm
  exact ⟨⟨hr.inv, hr.total_eq ▸ h.total_le, hr.used_mono h.zero_used⟩, hr.kernel_eq,
    hr.balanced h.total_le, hr.used_mono⟩

/-- The tables along a path: they are all there, or the first one that is missing takes a frame. -/
theorem Ready.descend (flags : Pte) (l : List (Fin 512)) (t : ℕ) :
    m.Retains (descend flags l t m).2 ∧
      (m.table t l ≠ none → (descend flags l t m).1 ≠ none) ∧
      (m.table t l = none → m.pmmAllocFrame.1 = 0 →
        (descend flags l t m).1 = none ∧ (descend flags l t m).2.pmm.usedSet = m.pmm.usedSet) ∧
      (m.table t l = none → m.pmmAllocFrame.1 ≠ 0 →
        m.pmmAllocFrame.1 / pageSize ∈ (descend flags l t m).2.pmm.usedSet) := by
  -- on the path; past the first table that is missing only `Retains` is used
  induction l generalizing m t with
  | nil =>
    have hsome : m.table t [] ≠ none := Option.some_ne_none t
    exact ⟨.refl h, fun _ => Option.some_ne_none t, fun hnone => absurd hnone hsome,
      fun hnone => absurd hnone hsome⟩
  | cons i l ih =>
    have hstep : m.table t (i :: l) = (Pte.child (m.mem t i)).bind fun c => m.table c l := rfl
    rw [Vmm.descend]
    cases hpres : (m.mem t i).getLsbD 0 with
    | true =>
      rw [getOrAllocTable_of_present hpres, hstep, Pte.child_of_present hpres]
      have hwrite : m.Retains (m.write t i ((m.mem t i).widen flags)) := (Retains.refl h).of_mem _
      obtain ⟨hretains, hsome, hnull, hnew⟩ := ih hwrite.ready (m.mem t i).addr
      have htable : (m.write t i ((m.mem t i).widen flags)).table (m.mem t i).addr l =
          m.table (m.mem t i).addr l := Radix.walk_setEntry_same (Pte.child_widen _ _) l
      have halloc : (m.write t i ((m.mem t i).widen flags)).pmmAllocFrame.1 = m.pmmAllocFrame.1 :=
        pmmAllocFrame_of_mem m _
      rw [htable] at hsome hnull hnew
      rw [halloc] at hnull hnew
      exact ⟨hwrite.trans hretains, hsome, hnull, hnew⟩
    | false =>
      rw [getOrAllocTable_of_absent hpres, hstep, Pte.child_eq_none.mpr hpres]
      have hr := pmmAllocFrame_spec h.pmm
      have halloc := h.pmmAllocFrame
      by_cases hnull : m.pmmAllocFrame.1 = 0
      · rw [if_pos hnull]
        exact ⟨halloc, fun hne => absurd rfl hne, fun _ _ => ⟨rfl, hr.used_of_null h.zero_used hnull⟩,
          fun _ hne => absurd hnull hne⟩
      · rw [if_neg hnull]
        have hlink : m.Retains (m.linkTable t i flags m.pmmAllocFrame) := halloc.of_mem _
        obtain ⟨-, -, -, hused, -⟩ := hr.frameAddr h.total_le hnull
        obtain ⟨hretains, -⟩ := ih hlink.ready m.pmmAllocFrame.1
        refine ⟨hlink.trans hretains, fun hne => absurd rfl hne, fun _ hzero => absurd hzero hnull,
          fun _ _ => hretains.used_mono ?_⟩
        exact hused.symm ▸ Finset.mem_insert_self _ _

/-- A page is backed, or at least a table is made for it, or nothing is. -/
theorem Ready.backPage (flags : Pte) (root virt : ℕ) :
    m.Retains (m.backPage root virt flags).2 ∧
      ((m.backPage root virt flags).2.pmm.usedSet = m.pmm.usedSet ↔ m.BacksNothing root virt) ∧
      ((m.backPage root virt flags).1 = true → ¬m.BacksNothing root virt) := by
  have hr := pmmAllocFrame_spec h.pmm
  have halloc := h.pmmAllocFrame
  unfold Vmm.backPage BacksNothing
  dsimp only
  by_cases hnull : m.pmmAllocFrame.1 = 0
  · rw [if_pos hnull]
    exact ⟨halloc, iff_of_true (hr.used_of_null h.zero_used hnull) (.inl hnull),
      fun hf => absurd hf Bool.false_ne_true⟩
  rw [if_neg hnull]
  simp only [hnull, false_or]
  obtain ⟨haddr, hfree, -, hinsert, -⟩ := hr.frameAddr h.total_le hnull
  have hused : m.pmmAllocFrame.1 / pageSize ∈ m.pmmAllocFrame.2.pmm.usedSet :=
    hinsert.symm ▸ Finset.mem_insert_self _ _
  have hmem : ∀ p, m.pmmAllocFrame.2.table root p = m.table root p := fun p => by
    rw [table, table, hr.mem_eq]
  have hr' := pmmAllocFrame_spec halloc.ready.pmm
  obtain ⟨hretains, hsome, hnone, hnew⟩ := halloc.ready.descend flags (pagePath (virt / pageSize)) root
  rw [hmem] at hsome hnone hnew
  rw [vmmMapPage_eq]
  generalize Vmm.descend flags (pagePath (virt / pageSize)) root m.pmmAllocFrame.2 = r
    at hretains hsome hnone hnew
  obtain ⟨_ | pt, m2⟩ := r
  · -- no page, but perhaps tables
    have htable : m.table root (pagePath (virt / pageSize)) = none := by
      by_contra hne
      exact hsome hne rfl
    have hpost := haddr.pmmFreeFrame hretains.ready.pmm
    refine ⟨(halloc.trans hretains).pmmFreeFrame haddr hfree (hretains.used_mono hused), ?_,
      fun hf => absurd hf Bool.false_ne_true⟩
    simp only [htable, true_and]
    constructor
    · intro heq
      by_contra hne
      obtain ⟨-, hfree', -⟩ := hr'.frameAddr halloc.ready.total_le hne
      have hmem2 : m.pmmAllocFrame.2.pmmAllocFrame.1 / pageSize ∈ m.pmm.usedSet := by
        rw [← heq]
        refine hpost.used_eq.symm ▸ Finset.mem_erase_of_ne_of_mem (fun h => ?_) (hnew htable hne)
        exact hfree' (h ▸ hused)
      exact hfree' (halloc.used_mono hmem2)
    · intro hnull2
      refine hpost.used_eq.trans ?_
      rw [(hnone htable hnull2).2, hinsert, Finset.erase_insert hfree]
  · have hnot : ¬(m.table root (pagePath (virt / pageSize)) = none ∧
        m.pmmAllocFrame.2.pmmAllocFrame.1 = 0) := fun hboth =>
      absurd (hnone hboth.1 hboth.2).1 (Option.some_ne_none pt)
    refine ⟨halloc.trans (hretains.of_mem _), iff_of_false (fun heq => hfree ?_) hnot, fun _ => hnot⟩
    rw [← heq]
    exact hretains.used_mono hused

theorem Ready.backPages (flags : Pte) (root n virt : ℕ) :
    m.Retains (Vmm.backPages root flags n virt m).2 := by
  induction n generalizing m virt with
  | zero => exact .refl h
  | succ n ih =>
    have hfirst := (h.backPage flags root virt).1
    rw [Vmm.backPages]
    generalize m.backPage root virt flags = r at hfirst
    obtain ⟨backed, m1⟩ := r
    cases backed with
    | false => exact hfirst
    | true => exact hfirst.trans (ih hfirst.ready _)

/-- Of several pages the first one decides. -/
theorem Ready.backPages_succ (flags : Pte) (root n virt : ℕ) :
    ((Vmm.backPages root flags (n + 1) virt m).2.pmm.usedSet = m.pmm.usedSet ↔ m.BacksNothing root virt) ∧
      ((Vmm.backPages root flags (n + 1) virt m).1 = true → ¬m.BacksNothing root virt) := by
  obtain ⟨hretains, hsame, hmade⟩ := h.backPage flags root virt
  rw [Vmm.backPages]
  generalize m.backPage root virt flags = r at hretains hsame hmade
  obtain ⟨backed, m1⟩ := r
  cases backed with
  | false => exact ⟨hsame, fun hf => absurd hf Bool.false_ne_true⟩
  | true =>
    have hnot := hmade rfl
    refine ⟨iff_of_false (fun heq => hnot (hsame.mp ?_)) hnot, fun _ => hnot⟩
    exact hretains.same_of (hretains.ready.backPages flags root n _) heq

end Retains

end NovaOS.Mem.Vmm

namespace NovaOS.Sched

open NovaOS.Lib NovaOS.Mem Process

/-- A process that is filled in the page tables of the kernel. -/
structure Lent (m₀ : Vmm) (p : Process) : Prop where
  pml4_eq : p.pml4 = m₀.gKernelPml4
  retains : m₀.Retains p.vmm
  complete : p.Complete

section Lent

variable {m₀ : Vmm} {p : Process}

theorem Lent.newProcess (h : m₀.Ready) (kmallocDenials : List Bool) :
    Lent m₀ (newProcess m₀ m₀.gKernelPml4 kmallocDenials) :=
  ⟨rfl, .refl h, [], ⟨.nil, by simp⟩, rfl⟩

variable (h : Lent m₀ p)
include h

/-- The memory as it is now can be taken as that of before. -/
theorem Lent.rebase : Lent p.vmm p :=
  ⟨h.pml4_eq.trans h.retains.kernel_eq.symm, .refl h.retains.ready, h.complete⟩

theorem Lent.trans {p' : Process} (h' : Lent p.vmm p') : Lent m₀ p' :=
  ⟨h'.pml4_eq.trans h.retains.kernel_eq, h.retains.trans h'.retains, h'.complete⟩

theorem Lent.withVmm {m : Vmm} (hm : p.vmm.Retains m) : Lent m₀ { p with vmm := m } :=
  ⟨h.pml4_eq, h.retains.trans hm, h.complete.withVmm m⟩

theorem Lent.vmaCreate (start size : ℕ) (flags : VmaFlags) :
    Lent m₀ (p.vmaCreate start size flags).2 ∧ (p.vmaCreate start size flags).2.vmm = p.vmm ∧
      ((p.vmaCreate start size flags).1 ≠ none →
        (newArea start size flags).start < (newArea start size flags).stop) := by
  obtain ⟨l, hrep, -⟩ := h.complete
  obtain ⟨hpost, hsame⟩ := View.vmaCreate ⟨l, hrep, rfl⟩ start size flags
  refine ⟨⟨hsame.pml4_eq.trans h.pml4_eq, hsame.vmm_eq.symm ▸ h.retains,
    h.complete.vmaCreate start size flags⟩, hsame.vmm_eq, fun hne => ?_⟩
  cases hpost with
  | failed hr _ => exact absurd hr hne
  | created _ _ _ _ _ hlt => exact hlt

theorem Lent.loadSegmentAt (pFlags : BitVec 32) (segStart segEnd size : ℕ) :
    Lent m₀ (loadSegmentAt pFlags segStart segEnd size p).2 := by
  have hcreate := (h.vmaCreate segStart size (segmentVmaFlags pFlags)).1
  unfold Sched.loadSegmentAt
  generalize p.vmaCreate segStart size (segmentVmaFlags pFlags) = r at hcreate
  obtain ⟨_ | vma, p'⟩ := r
  · exact hcreate
  · exact hcreate.withVmm (hcreate.retains.ready.backPages _ _ _ _)

theorem Lent.loadSegment (f : ElfFile) (loadBias : ℕ) (phdr : Elf64Phdr) :
    Lent m₀ (loadSegment f loadBias phdr p).2 := by
  obtain ⟨b, heq⟩ | ⟨a, b, heq⟩ := loadSegment_cases f loadBias phdr p
  · rw [heq]
    exact h
  · rw [heq]
    exact h.loadSegmentAt _ _ _ _

theorem Lent.loadSegments (f : ElfFile) (loadBias n i : ℕ) :
    Lent m₀ (loadSegments f loadBias n i p).2 :=
  loadSegments_keeps (fun phdr _ hp => hp.loadSegment f loadBias phdr) n i h

theorem Lent.loadElfSegments (f : ElfFile) (loadBias : ℕ) :
    Lent m₀ (loadElfSegments f loadBias p).2 :=
  loadElfSegments_keeps (fun phdr _ hp => hp.loadSegment f loadBias phdr) h

theorem Lent.mapStack : Lent m₀ (mapStack p).2 := by
  have hcreate := (h.vmaCreate (userStackTop - userStackInitialSize) userStackInitialSize
    (vmaRead ||| vmaWrite ||| vmaUser ||| vmaStack ||| vmaAnon)).1
  unfold Sched.mapStack
  generalize p.vmaCreate _ _ _ = r at hcreate
  obtain ⟨_ | vma, p'⟩ := r
  · exact hcreate
  · exact hcreate.withVmm (hcreate.retains.ready.backPage _ _ _).1

end Lent

/-! ## The first page -/

/-- The first segment to load among `n` headers from `i`. -/
def ElfFile.firstLoad (f : ElfFile) : (n i : ℕ) → Option Elf64Phdr
  | 0, _ => none
  | n + 1, i => if (f.phdrs i).pType = ptLoad then some (f.phdrs i) else f.firstLoad n (i + 1)

/-- The first page that `loadSegment` backs; none where it fails before. -/
def segmentPage (f : ElfFile) (loadBias : ℕ) (phdr : Elf64Phdr) (p : Process) : Option ℕ :=
  if wrap64 (phdr.pOffset.toNat + phdr.pFilesz.toNat) > f.fileSize.toNat ∨
      phdr.pFilesz.toNat > phdr.pMemsz.toNat then none
  else
    let vaddr := wrap64 (phdr.pVaddr.toNat + loadBias)
    if wrap64 (vaddr + phdr.pMemsz.toNat) > userSpaceMax then none
    else
      let segStart := pageFloor vaddr
      let segEnd := pageFloor (wrap64 (vaddr + phdr.pMemsz.toNat + (pageSize - 1)))
      (p.vmaCreate segStart (sub64 segEnd segStart) (segmentVmaFlags phdr.pFlags)).1.map fun _ => segStart

/-- The first page that `loadElfSegments` backs; `some none` where it fails before, and `none` where there is
nothing to load. -/
def filePage (f : ElfFile) (loadBias : ℕ) (p : Process) : Option (Option ℕ) :=
  if f.phdrsInside then
    (f.firstLoad f.ePhnum.toNat 0).map fun phdr => segmentPage f loadBias phdr p
  else some none

/-- The page that `mapStack` backs. -/
def topPage (p : Process) : Option ℕ :=
  (p.vmaCreate (userStackTop - userStackInitialSize) userStackInitialSize
    (vmaRead ||| vmaWrite ||| vmaUser ||| vmaStack ||| vmaAnon)).1.map fun _ => userStackTop - pageSize

/-- The same as `filePage` for the interpreter. -/
def interpPage (exe : ElfFile) (r : InterpReads) (p : Process) : Option (Option ℕ) :=
  if exe.wantsInterp then
    match r.found with
    | none => some none
    | some f =>
      if sizeofEhdr ≤ f.fileSize.toNat ∧ f.valid = true then filePage f (interpBias f) p else some none
  else none

/-- The first page that `schedSpawn` backs in the new process `p`; none where it fails before. -/
def SpawnInput.firstPage (i : SpawnInput) (p : Process) : Option ℕ :=
  match i.exe.executable with
  | none => none
  | some exe =>
    if i.process then
      ((filePage exe (exeBias exe) p).or (interpPage exe i.interp p)).getD (topPage p)
    else none

/-- The page is none, or nothing can be made for it in the tables of the kernel. -/
def Unbacked (m₀ : Vmm) (page : Option ℕ) : Prop :=
  ∀ v ∈ page, m₀.BacksNothing m₀.gKernelPml4 v

/-- A step whose first page is `page`: frames are taken exactly where something can be made for it, and a
step that succeeds takes some. -/
structure Backs (m₀ : Vmm) (page : Option ℕ) (r : Bool × Process) : Prop where
  lent : Lent m₀ r.2
  same_iff : r.2.vmm.pmm.usedSet = m₀.pmm.usedSet ↔ Unbacked m₀ page
  made : r.1 = true → ¬Unbacked m₀ page

section Backs

variable {m₀ : Vmm} {p : Process}

theorem unbacked_none (m₀ : Vmm) : Unbacked m₀ none := nofun

theorem unbacked_some {v : ℕ} : Unbacked m₀ (some v) ↔ m₀.BacksNothing m₀.gKernelPml4 v :=
  ⟨fun h => h v rfl, fun h _ hv => Option.some.inj hv ▸ h⟩

/-- A step that fails before it asks for a frame. -/
theorem Backs.failed (h : Lent m₀ p) (hvmm : p.vmm = m₀) : Backs m₀ none (false, p) :=
  ⟨h, iff_of_true (by rw [hvmm]) (unbacked_none m₀), nofun⟩

variable (h : Lent m₀ p) (hvmm : p.vmm = m₀)
include h hvmm

/-- A step that ends with backing pages. -/
theorem Lent.backs {r : Bool × Vmm} {v : ℕ} (hretains : p.vmm.Retains r.2)
    (hiff : r.2.pmm.usedSet = p.vmm.pmm.usedSet ↔ p.vmm.BacksNothing p.pml4 v)
    (hmade : r.1 = true → ¬p.vmm.BacksNothing p.pml4 v) :
    Backs m₀ (some v) (r.1, { p with vmm := r.2 }) := by
  rw [h.pml4_eq, hvmm] at hiff hmade
  exact ⟨h.withVmm hretains, by rw [unbacked_some, ← hiff], by rwa [unbacked_some]⟩

theorem Lent.loadSegmentAt_backs (pFlags : BitVec 32) {segStart segEnd size : ℕ}
    (hs : segStart % pageSize = 0) (he : segEnd % pageSize = 0)
    (hstop : (newArea segStart size (segmentVmaFlags pFlags)).stop = segEnd) :
    Backs m₀ ((p.vmaCreate segStart size (segmentVmaFlags pFlags)).1.map fun _ => segStart)
      (Sched.loadSegmentAt pFlags segStart segEnd size p) := by
  obtain ⟨hcreate, hsame, hlt⟩ := h.vmaCreate segStart size (segmentVmaFlags pFlags)
  unfold Sched.loadSegmentAt
  generalize p.vmaCreate segStart size (segmentVmaFlags pFlags) = r at hcreate hsame hlt
  obtain ⟨_ | vma, p'⟩ := r
  · exact .failed hcreate (hsame.trans hvmm)
  -- an area that is made has at least one page
  have hstart : (newArea segStart size (segmentVmaFlags pFlags)).start = segStart :=
    Syscall.pageFloor_of_aligned hs
  obtain ⟨n, hn⟩ : ∃ n, (segEnd - segStart) / pageSize = n + 1 := by
    have hlt := hlt (by simp)
    rw [hstart, hstop] at hlt
    refine Nat.exists_eq_succ_of_ne_zero (Nat.div_pos ?_ (by decide)).ne'
    rw [pageSize] at *
    omega
  have hready := hcreate.retains.ready
  obtain ⟨hiff, hmade⟩ := hready.backPages_succ (segmentPteFlags pFlags) p'.pml4 n segStart
  dsimp only
  rw [hn]
  exact hcreate.backs (hsame.trans hvmm) (hready.backPages _ _ _ _) hiff hmade

theorem Lent.loadSegment_backs (f : ElfFile) (loadBias : ℕ) {phdr : Elf64Phdr}
    (hload : phdr.pType = ptLoad) :
    Backs m₀ (segmentPage f loadBias phdr p) (Sched.loadSegment f loadBias phdr p) := by
  have hlt : ∀ x, pageFloor (wrap64 x) < 2 ^ 64 := fun x =>
    lt_of_le_of_lt (Nat.div_mul_le_self _ _) (wrap64_lt _)
  unfold segmentPage Sched.loadSegment
  rw [if_neg (not_not.mpr hload)]
  split
  · exact .failed h hvmm
  dsimp only
  split
  · exact .failed h hvmm
  · exact h.loadSegmentAt_backs hvmm phdr.pFlags (Area.pageFloor_mod _) (Area.pageFloor_mod _)
      (segment_stop (Area.pageFloor_mod _) (Area.pageFloor_mod _) (hlt _) (hlt _))

/-- Headers before the first segment to load are passed over, and those behind it only take frames. -/
theorem Lent.loadSegments_backs (f : ElfFile) (loadBias n i : ℕ) :
    (f.firstLoad n i = none → Sched.loadSegments f loadBias n i p = (true, p)) ∧
      ∀ phdr, f.firstLoad n i = some phdr →
        Backs m₀ (segmentPage f loadBias phdr p) (Sched.loadSegments f loadBias n i p) := by
  induction n generalizing i with
  | zero => exact ⟨fun _ => rfl, fun phdr heq => absurd heq.symm (Option.some_ne_none phdr)⟩
  | succ n ih =>
    rw [ElfFile.firstLoad, Sched.loadSegments]
    by_cases hload : (f.phdrs i).pType = ptLoad
    · rw [if_pos hload]
      refine ⟨fun heq => absurd heq (Option.some_ne_none _), fun phdr heq => ?_⟩
      obtain rfl := Option.some.inj heq
      have hbacks := h.loadSegment_backs hvmm f loadBias hload
      generalize Sched.loadSegment f loadBias (f.phdrs i) p = r at hbacks
      obtain ⟨loaded, p'⟩ := r
      cases loaded with
      | false => exact hbacks
      | true =>
        have hrest := hbacks.lent.rebase.loadSegments f loadBias n (i + 1)
        have hmade := hbacks.made rfl
        refine ⟨hbacks.lent.trans hrest, iff_of_false (fun heq => hmade ?_) hmade, fun _ => hmade⟩
        exact hbacks.same_iff.mp (hbacks.lent.retains.same_of hrest.retains heq)
    · have hskip : Sched.loadSegment f loadBias (f.phdrs i) p = (true, p) := if_pos hload
      rw [if_neg hload, hskip]
      exact ih (i + 1)

theorem Lent.loadElfSegments_backs (f : ElfFile) (loadBias : ℕ) :
    (filePage f loadBias p = none → Sched.loadElfSegments f loadBias p = (true, p)) ∧
      ∀ page, filePage f loadBias p = some page →
        Backs m₀ page (Sched.loadElfSegments f loadBias p) := by
  obtain ⟨hnone, hsome⟩ := h.loadSegments_backs hvmm f loadBias f.ePhnum.toNat 0
  unfold filePage Sched.loadElfSegments
  split
  · refine ⟨fun heq => hnone (Option.map_eq_none_iff.mp heq), fun page heq => ?_⟩
    obtain ⟨phdr, hphdr, rfl⟩ := Option.map_eq_some_iff.mp heq
    exact hsome phdr hphdr
  · refine ⟨nofun, fun page heq => ?_⟩
    obtain rfl := Option.some.inj heq
    exact .failed h hvmm

theorem Lent.mapStack_backs : Backs m₀ (topPage p) (Sched.mapStack p) := by
  obtain ⟨hcreate, hsame, -⟩ := h.vmaCreate (userStackTop - userStackInitialSize) userStackInitialSize
    (vmaRead ||| vmaWrite ||| vmaUser ||| vmaStack ||| vmaAnon)
  unfold Sched.mapStack topPage
  generalize p.vmaCreate _ _ _ = r at hcreate hsame
  obtain ⟨_ | vma, p'⟩ := r
  · exact .failed hcreate (hsame.trans hvmm)
  · obtain ⟨hretains, hiff, hmade⟩ :=
      hcreate.retains.ready.backPage stackPteFlags p'.pml4 (userStackTop - pageSize)
    exact hcreate.backs (hsame.trans hvmm) hretains hiff hmade

end Backs

/-! ## The exits -/

namespace Spawner

open Fallible

/-- Process number zero was just made. -/
structure Fresh (m₀ : Vmm) (denials : List Bool) (ready : List (BitVec 32)) (live : List SpawnBlock)
    (s : Spawner) : Prop where
  heap : Heap ready live s
  proc_eq : s.proc = newProcess m₀ m₀.gKernelPml4 denials
  vmaFreed_eq : s.vmaFreed = []

/-- Process number zero is being filled; `U` says which frames are in use. -/
structure Lending (m₀ : Vmm) (U : Finset ℕ → Prop) (ready : List (BitVec 32)) (live : List SpawnBlock)
    (s : Spawner) : Prop where
  heap : Heap ready live s
  lent : Lent m₀ s.proc
  used : U s.proc.vmm.pmm.usedSet
  vmaFreed_eq : s.vmaFreed = []

/-- The frames in use are those of before exactly where nothing could be made for the first page. -/
def SameIff (m₀ : Vmm) (page : Option ℕ) (used : Finset ℕ) : Prop := Same m₀ used ↔ Unbacked m₀ page

/-- Frames were taken that stay taken. -/
def Taken (m₀ : Vmm) (used : Finset ℕ) : Prop := ¬Same m₀ used

section Exits

variable {m₀ : Vmm} {U : Finset ℕ → Prop} {denials : List Bool} {ready : List (BitVec 32)}
  {live : List SpawnBlock} {s : Spawner} {page : Option ℕ}

theorem tracks_fresh : Tracks (Fresh m₀ denials ready) := tracks_of_heap Fresh.heap fun l h =>
  ⟨h.heap.setLive l, h.proc_eq, h.vmaFreed_eq⟩

theorem tracks_lending : Tracks (Lending m₀ U ready) := tracks_of_heap Lending.heap fun l h =>
  ⟨h.heap.setLive l, h.lent, h.used, h.vmaFreed_eq⟩

theorem Fresh.lending (h : Fresh m₀ denials ready live s) (hready : m₀.Ready)
    (hU : U m₀.pmm.usedSet) : Lending m₀ U ready live s := by
  refine ⟨h.heap, ?_, ?_, h.vmaFreed_eq⟩
  · rw [h.proc_eq]
    exact .newProcess hready denials
  · rw [h.proc_eq]
    exact hU

/-- The tables of the kernel are not destroyed. -/
theorem Lending.destroyProcess (h : Lending m₀ U ready (.process :: live) s) :
    After m₀ U ready live s.destroyProcess := by
  have hkernel : s.proc.vmm.vmmDestroyAddressSpace s.proc.pml4 = s.proc.vmm := by
    rw [Vmm.vmmDestroyAddressSpace, if_pos (.inr (h.lent.pml4_eq.trans h.lent.retains.kernel_eq.symm))]
  exact h.heap.destroyProcess h.lent.complete h.vmaFreed_eq (hkernel.symm ▸ h.used)
    (hkernel.symm ▸ h.lent.retains.balanced)

theorem Lending.dropProcess (h : Lending m₀ U ready [.process, .rawData] s) :
    After m₀ U ready [] s.dropProcess :=
  tracks_after.free_head h.destroyProcess

/-- A step on the process once frames were taken. -/
theorem Lending.onProcess {step : Process → Bool × Process}
    (hstep : ∀ m p, Lent m p → Lent m (step p).2) :
    Keeps (Lending m₀ (Taken m₀) ready live) (onProcess step) := by
  intro s hs
  have hafter := hstep _ _ hs.lent.rebase
  unfold Spawner.onProcess
  generalize step s.proc = r at hafter
  obtain ⟨ok, p⟩ := r
  have hlending : Lending m₀ (Taken m₀) ready live { s with proc := p } :=
    ⟨⟨hs.heap.live_eq, hs.heap.badFrees_eq, hs.heap.ready_eq⟩, hs.lent.trans hafter,
      fun heq => hs.used (hs.lent.retains.same_of hafter.retains heq), hs.vmaFreed_eq⟩
  cases ok with
  | false => exact hlending
  | true => exact hlending

theorem stage_lending : Stage (Lending m₀ (Taken m₀) ready) (After m₀ (Taken m₀) ready) where
  during := tracks_lending
  after := tracks_after
  load _ f loadBias := Lending.onProcess fun _ _ h => h.loadElfSegments f loadBias
  stack _ := Lending.onProcess fun _ _ h => h.mapStack
  destroy _ _ h := h.destroyProcess

/-- The first step that backs pages. -/
theorem Fresh.onProcess {step : Process → Bool × Process}
    (hstep : Backs m₀ page (step (newProcess m₀ m₀.gKernelPml4 denials))) :
    Triple (Fresh m₀ denials ready live) (onProcess step)
      (fun _ s => Lending m₀ (Taken m₀) ready live s ∧ ¬Unbacked m₀ page)
      (Lending m₀ (SameIff m₀ page) ready live) := by
  intro s hs
  unfold Spawner.onProcess
  rw [hs.proc_eq]
  generalize step (newProcess m₀ m₀.gKernelPml4 denials) = r at hstep
  obtain ⟨ok, p⟩ := r
  have hheap : Heap ready live { s with proc := p } :=
    ⟨hs.heap.live_eq, hs.heap.badFrees_eq, hs.heap.ready_eq⟩
  cases ok with
  | false => exact ⟨hheap, hstep.lent, hstep.same_iff, hs.vmaFreed_eq⟩
  | true =>
    have hmade := hstep.made rfl
    exact ⟨⟨hheap, hstep.lent, fun heq => hmade (hstep.same_iff.mp heq), hs.vmaFreed_eq⟩, hmade⟩

/-- A part of `schedSpawn` that succeeds with the first page `page`: it has taken frames, or it had nothing
to load. -/
def Passed (m₀ : Vmm) (denials : List Bool) (ready : List (BitVec 32)) (live : List SpawnBlock)
    (page : Option (Option ℕ)) (s : Spawner) : Prop :=
  match page with
  | none => Fresh m₀ denials ready live s
  | some page => Lending m₀ (Taken m₀) ready live s ∧ ¬Unbacked m₀ page

theorem Taken.sameIff {used : Finset ℕ} (h : Taken m₀ used) (hpage : ¬Unbacked m₀ page) :
    SameIff m₀ page used := iff_of_false h hpage

theorem sameIff_none (m₀ : Vmm) : SameIff m₀ none m₀.pmm.usedSet := iff_of_true rfl (unbacked_none m₀)

/-- Process number zero gets the tables of the kernel. -/
theorem Fresh.schedCreateProcess (served : Bool) :
    Triple (Before m₀ 0 denials ready live) (schedCreateProcess served)
      (fun _ s => Fresh m₀ denials ready (.process :: live) s ∧ served = true)
      (fun s => Before m₀ 0 denials ready live s ∧ served = false) := by
  have hkmalloc : Triple (Before m₀ 0 denials ready live) (kmalloc .process served)
      (fun _ s => Before m₀ 0 denials ready (.process :: live) s ∧ served = true)
      (fun s => Before m₀ 0 denials ready live s ∧ served = false) := by
    intro s hs
    cases served with
    | false => exact ⟨hs, rfl⟩
    | true => exact ⟨tracks_before.alloc _ _ _ hs, rfl⟩
  have hcreate : Triple (Before m₀ 0 denials ready (.process :: live)) createSpace
      (fun _ => Fresh m₀ denials ready (.process :: live)) fun _ => False := by
    intro s hs
    unfold createSpace
    dsimp only
    rw [if_pos hs.pid_eq, hs.proc_eq]
    exact ⟨⟨hs.heap.live_eq, hs.heap.badFrees_eq, hs.heap.ready_eq⟩, rfl, hs.vmaFreed_eq⟩
  exact Triple.bind_fact hkmalloc fun _ hserved =>
    (hcreate.orClean nofun).mono (fun _ h => h) (fun _ _ h => ⟨h, hserved⟩) fun _ h => h

section

variable (hready : m₀.Ready)
include hready

theorem Fresh.load (f : ElfFile) (loadBias : ℕ) :
    Triple (Fresh m₀ denials ready live) (Spawner.onProcess (loadElfSegments f loadBias))
      (fun _ => Passed m₀ denials ready live
        (filePage f loadBias (newProcess m₀ m₀.gKernelPml4 denials)))
      (fun s => ∃ page, filePage f loadBias (newProcess m₀ m₀.gKernelPml4 denials) = some page ∧
        Lending m₀ (SameIff m₀ page) ready live s) := by
  obtain ⟨hnone, hsome⟩ := (Lent.newProcess hready denials).loadElfSegments_backs rfl f loadBias
  cases hpage : filePage f loadBias (newProcess m₀ m₀.gKernelPml4 denials) with
  | none =>
    intro s hs
    unfold Spawner.onProcess
    rw [hs.proc_eq, hnone hpage]
    exact ⟨⟨hs.heap.live_eq, hs.heap.badFrees_eq, hs.heap.ready_eq⟩, rfl, hs.vmaFreed_eq⟩
  | some page =>
    exact (Fresh.onProcess (hsome page hpage)).mono (fun _ h => h) (fun _ _ h => h)
      fun _ h => ⟨page, rfl, h⟩

/-- Nothing was taken where the search or the checks fail. -/
theorem Fresh.dropProcess (h : Fresh m₀ denials ready [.process, .rawData] s) :
    After m₀ (SameIff m₀ none) ready [] s.dropProcess :=
  (h.lending hready (sameIff_none m₀)).dropProcess

theorem Fresh.loadInterpreter (exe : ElfFile) (r : InterpReads) :
    Triple (Fresh m₀ denials ready [.process, .rawData]) (loadInterpreter exe r)
      (fun _ => Passed m₀ denials ready [.process, .rawData]
        (interpPage exe r (newProcess m₀ m₀.gKernelPml4 denials)))
      (fun s => ∃ page, interpPage exe r (newProcess m₀ m₀.gKernelPml4 denials) = some page ∧
        After m₀ (SameIff m₀ page) ready [] s) := by
  unfold interpPage Spawner.loadInterpreter
  refine Triple.ite (fun hwants => ?_) fun hwants => ?_
  · rw [if_pos hwants]
    refine Triple.bind ((tracks_fresh.findInterp r).orClean fun s hs => ⟨none, ?_, hs.1.dropProcess hready⟩)
      fun found => Triple.intro_pre (fun _ hs => hs.2) fun hfound => ?_
    · rw [hs.2]
    rw [hfound]
    dsimp only
    have hcheck : ∀ c : Bool, (c = false → ¬(sizeofEhdr ≤ found.2.fileSize.toNat ∧ found.2.valid = true)) →
        Triple (Fresh m₀ denials ready [.interpRawData found.1, .process, .rawData])
          ((Fallible.check c).orClean fun s => (kfree (.interpRawData found.1) s).dropProcess)
          (fun _ s => Fresh m₀ denials ready [.interpRawData found.1, .process, .rawData] s ∧ c = true)
          (fun s => ∃ page, (if sizeofEhdr ≤ found.2.fileSize.toNat ∧ found.2.valid = true then
            filePage found.2 (interpBias found.2) (newProcess m₀ m₀.gKernelPml4 denials)
            else some none) = some page ∧ After m₀ (SameIff m₀ page) ready [] s) := fun c hc =>
      (Triple.check _ c).orClean fun s hs =>
        ⟨none, if_neg (hc hs.2), Fresh.dropProcess hready (tracks_fresh.free_head hs.1)⟩
    refine Triple.bind_fact ((hcheck _ fun hc h => ?_).mono (fun _ hs => hs.1) (fun _ _ h => h)
      fun _ h => h) fun _ hsize => ?_
    · exact absurd h.1 (of_decide_eq_false hc)
    refine Triple.bind_fact (hcheck _ fun hc h => ?_) fun _ hvalid => ?_
    · exact absurd h.2 (Bool.eq_false_iff.mp hc)
    rw [if_pos ⟨of_decide_eq_true hsize, hvalid⟩]
    refine Triple.bind ((Fresh.load hready found.2 (interpBias found.2)).orClean ?_) fun _ => ?_
    · rintro s ⟨page, hpage, h⟩
      exact ⟨page, hpage, Lending.dropProcess (tracks_lending.free_head h)⟩
    refine Triple.bind (Triple.update fun s hs => ?_) fun _ => .pure fun _ hs => hs
    generalize filePage found.2 (interpBias found.2) (newProcess m₀ m₀.gKernelPml4 denials) = page at hs
    cases page with
    | none => exact tracks_fresh.free_head hs
    | some page => exact ⟨tracks_lending.free_head hs.1, hs.2⟩
  · rw [if_neg hwants]
    exact .pure fun _ hs => hs

/-- Every run with number zero returns a process or gives everything back, unless something was made for the
first page. -/
theorem Fresh.schedSpawn (i : SpawnInput) :
    Triple (Before m₀ 0 denials ready []) (schedSpawn i) (fun _ _ => True)
      (After m₀ (SameIff m₀ (i.firstPage (newProcess m₀ m₀.gKernelPml4 denials))) ready []) := by
  have htaken : ∀ {page s}, ¬Unbacked m₀ page → After m₀ (Taken m₀) ready [] s →
      After m₀ (SameIff m₀ page) ready [] s := fun hpage h => h.mono fun _ hu => hu.sameIff hpage
  refine Triple.bind_fact ((tracks_before.readExecutable i.exe).fail_mono fun s hs => ?_) fun exe hexe => ?_
  · rw [SpawnInput.firstPage, hs.2]
    exact hs.1.after (sameIff_none m₀)
  have hpage : i.firstPage (newProcess m₀ m₀.gKernelPml4 denials) = if i.process then
      ((filePage exe (exeBias exe) (newProcess m₀ m₀.gKernelPml4 denials)).or
        (interpPage exe i.interp (newProcess m₀ m₀.gKernelPml4 denials))).getD
          (topPage (newProcess m₀ m₀.gKernelPml4 denials)) else none := by
    rw [SpawnInput.firstPage, hexe]
  refine Triple.bind_fact ((Fresh.schedCreateProcess i.process).orClean fun s hs => ?_)
    fun _ hserved => ?_
  · rw [hpage, hs.2]
    exact (tracks_before.free_head hs.1).after (sameIff_none m₀)
  rw [hpage, if_pos hserved]
  refine Triple.bind ((Fresh.load hready exe (exeBias exe)).orClean ?_) fun _ => ?_
  · rintro s ⟨page, hpage, h⟩
    rw [hpage]
    exact h.dropProcess
  generalize filePage exe (exeBias exe) (newProcess m₀ m₀.gKernelPml4 denials) = page
  obtain _ | page := page
  · rw [Option.none_or]
    refine Triple.bind ((Fresh.loadInterpreter hready exe i.interp).fail_mono ?_) fun entryPoint => ?_
    · rintro s ⟨page, hpage, h⟩
      rw [hpage]
      exact h
    generalize interpPage exe i.interp (newProcess m₀ m₀.gKernelPml4 denials) = page
    obtain _ | page := page
    · have hbacks := (Lent.newProcess hready denials).mapStack_backs rfl
      refine Triple.bind ((Fresh.onProcess hbacks).orClean fun s h => h.dropProcess) fun _ => ?_
      refine Triple.intro_pre (fun _ h => h.2) fun hnot => ?_
      exact (stage_lending.startProcess i entryPoint).mono (fun _ h => h.1) (fun _ _ _ => trivial)
        fun _ h => htaken hnot h
    · refine Triple.intro_pre (fun _ h => h.2) fun hnot => ?_
      exact (stage_lending.finish i entryPoint).mono (fun _ h => h.1) (fun _ _ _ => trivial)
        fun _ h => htaken hnot h
  · refine Triple.intro_pre (fun _ h => h.2) fun hnot => ?_
    refine Triple.mono (Triple.bind (stage_lending.loadInterpreter exe i.interp) fun entryPoint =>
      stage_lending.finish i entryPoint) (fun _ h => h.1) (fun _ _ _ => trivial) fun _ h => htaken hnot h

end

end Exits

end Spawner

end NovaOS.Sched
