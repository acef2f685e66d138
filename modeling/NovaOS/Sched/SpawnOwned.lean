import NovaOS.Sched.SystemPages

/-!
# What a process being made owns

While `schedSpawn` fills a new process, every frame that was taken from the allocator is a table of the new
address space or mapped in it once (`Owned`), and every area record is on the list of the process
(`Complete`). So `vmmDestroyAddressSpace` and `vmaDestroyAll` give everything back, wherever the filling
stops.
-/

namespace NovaOS.Mem

open NovaOS.Lib List

namespace Vmm

/-- The frames in use are those of `used₀` and those of the space at `root`, each of which is a table or
mapped once. -/
def Owned (used₀ : Finset ℕ) (root : ℕ) (m : Vmm) : Prop :=
  ∃ held, SpaceClient.Inv used₀ root ⟨m, held⟩ ∧ ∀ a ∈ held, m.MapsTo root a

section Owned

variable {used₀ : Finset ℕ} {root virt : ℕ} {m : Vmm} {flags : Pte}

/-- Backing a page that is not mapped. -/
theorem Owned.backPage (h : m.Owned used₀ root) (hv : virt < userSpaceMax) (hflags : flags.FlagsOnly)
    (hnone : m.mapped root (virt / pageSize) = none) :
    (m.backPage root virt flags).2.Owned used₀ root ∧
      ∀ n, n < userPages → n ≠ virt / pageSize →
        (m.backPage root virt flags).2.mapped root n = m.mapped root n := by
  obtain ⟨held, hinv, hmaps⟩ := h
  have hr := pmmAllocFrame_spec hinv.space.pmm
  have hobtain := hinv.obtain
  have hmapped : ∀ n, m.pmmAllocFrame.2.mapped root n = m.mapped root n :=
    SpaceClient.mapped_congr hr.mem_eq
  unfold Vmm.backPage
  rw [SpaceClient.step] at hobtain
  dsimp only
  by_cases hnull : m.pmmAllocFrame.1 = 0
  · rw [if_pos hnull] at hobtain ⊢
    refine ⟨⟨held, hobtain, fun a ha => ?_⟩, fun n _ _ => hmapped n⟩
    obtain ⟨n, e, hn, he, heq⟩ := hmaps a ha
    exact ⟨n, e, hn, (hmapped n).trans he, heq⟩
  rw [if_neg hnull] at hobtain ⊢
  generalize m.pmmAllocFrame = r at hobtain hmapped
  obtain ⟨frame, m1⟩ := r
  -- the new frame was free, so no page maps it
  have hfresh : frame ∉ held := (nodup_cons.mp hobtain.nodup).1
  have hunmapped : ∀ n e, n < userPages → m1.mapped root n = some e → e.addr ≠ frame := by
    intro n e hn he heq
    exact hfresh (heq ▸ hinv.mapped_held hn ((hmapped n).symm.trans he))
  have hallowed : SpaceClient.Allowed ⟨m1, frame :: held⟩ root (.mapPage virt frame flags) :=
    ⟨hv, hflags, .head _, fun n e hn _ he => hunmapped n e hn he⟩
  have hstep := hobtain.step hallowed
  have haddr := (hobtain.fresh frame (.head _)).1
  have hpost := hobtain.space.vmmMapPage hv haddr flags
  rw [SpaceClient.step] at hstep
  generalize m1.vmmMapPage root virt frame flags = r at hstep hpost
  obtain ⟨res, m2⟩ := r
  rcases hpost with ⟨rfl, hset⟩ | ⟨rfl, hgrows⟩
  · have hsame : ∀ n, n < userPages → n ≠ virt / pageSize → m2.mapped root n = m.mapped root n := by
      intro n hn hne
      rw [hset.mapped_eq hn, if_neg hne, hmapped]
    refine ⟨⟨frame :: held, hstep, fun a ha => ?_⟩, hsame⟩
    rcases mem_cons.mp ha with rfl | ha
    · have hn := page_lt_userPages hv
      exact ⟨_, _, hn, (hset.mapped_eq hn).trans (if_pos rfl), Pte.addr_leaf haddr hflags⟩
    · obtain ⟨n, e, hn, he, heq⟩ := hmaps a ha
      refine ⟨n, e, hn, (hsame n hn ?_).trans he, heq⟩
      rintro rfl
      rw [hnone] at he
      cases he
  · have hsame : ∀ n, n < userPages → m2.mapped root n = m.mapped root n := fun n hn =>
      (hgrows.mapped_eq hn).trans (hmapped n)
    have hnot : ¬m2.MapsTo root frame := by
      rintro ⟨n, e, hn, he, heq⟩
      exact hunmapped n e hn ((hgrows.mapped_eq hn).symm.trans he) heq
    have hrelease := hstep.release (.head _) hnot
    rw [SpaceClient.step] at hrelease
    rw [erase_cons_head] at hrelease
    refine ⟨⟨held, hrelease, fun a ha => ?_⟩, fun n hn _ => hsame n hn⟩
    obtain ⟨n, e, hn, he, heq⟩ := hmaps a ha
    exact ⟨n, e, hn, (hsame n hn).trans he, heq⟩

/-- When the space is destroyed, the frames in use are those of before. -/
theorem Owned.vmmDestroyAddressSpace (h : m.Owned used₀ root) (hzero : 0 ∈ used₀)
    (hlt : ∀ f ∈ used₀, f < m.pmm.gTotalFrames) :
    (m.vmmDestroyAddressSpace root).pmm.usedSet = used₀ := by
  obtain ⟨held, hinv, hmaps⟩ := h
  have hroot : root ≠ 0 := (hinv.space.used userPath_nil rfl).1.ne_zero
  ext f
  rw [vmmDestroyAddressSpace_eq hroot hinv.root_ne_kernel,
    (freeAll_used hinv.space.pmm fun a ha => (hinv.frameAddr_userFrames ha).valid).2,
    hinv.used_destroy hzero hlt f]
  exact or_iff_left fun ⟨a, ha, hnot, _⟩ => hnot (hmaps a ha)

end Owned

/-- The memory `m` is `m₀` with the space at `root`, which owns all that was taken since. -/
structure Filled (m₀ : Vmm) (root : ℕ) (m : Vmm) : Prop where
  shared : m.Shared [root]
  owned : m.Owned m₀.pmm.usedSet root
  balanced : m₀.Balanced m
  total_eq : m.pmm.gTotalFrames = m₀.pmm.gTotalFrames

section Filled

variable {m₀ m : Vmm} {root virt : ℕ} {flags : Pte}

theorem Filled.backPage (h : m₀.Filled root m) (hv : virt < userSpaceMax) (hflags : flags.FlagsOnly)
    (hnone : m.mapped root (virt / pageSize) = none) :
    m₀.Filled root (m.backPage root virt flags).2 ∧
      ∀ n, n < userPages → n ≠ virt / pageSize →
        (m.backPage root virt flags).2.mapped root n = m.mapped root n := by
  obtain ⟨howned, hsame⟩ := h.owned.backPage hv hflags hnone
  refine ⟨?_, hsame⟩
  rcases (h.shared.backPage (.head _) hv hflags).1 with ⟨-, phys, -, -, hmoves⟩ | ⟨-, hmoves⟩
  · exact ⟨hmoves.shared, howned, h.balanced.trans hmoves.balanced, hmoves.total_eq.trans h.total_eq⟩
  · exact ⟨hmoves.shared, howned, h.balanced.trans hmoves.balanced, hmoves.total_eq.trans h.total_eq⟩

/-- Backing a run of pages that are not mapped. -/
theorem Filled.backPages (h : m₀.Filled root m) (hflags : flags.FlagsOnly) {n : ℕ}
    (hmax : virt + n * pageSize ≤ userSpaceMax)
    (hnone : ∀ k, k < n → m.mapped root (virt / pageSize + k) = none) :
    m₀.Filled root (Vmm.backPages root flags n virt m).2 := by
  induction n generalizing virt m with
  | zero => exact h
  | succ n ih =>
    have hv : virt < userSpaceMax := by
      rw [pageSize] at hmax
      omega
    obtain ⟨hfirst, hsame⟩ := h.backPage hv hflags (hnone 0 (Nat.succ_pos n))
    rw [Vmm.backPages]
    generalize m.backPage root virt flags = r at hfirst hsame
    obtain ⟨backed, m1⟩ := r
    cases backed with
    | false => exact hfirst
    | true =>
      have hnext : (virt + pageSize) / pageSize = virt / pageSize + 1 :=
        Nat.add_div_right _ (by decide)
      refine ih hfirst (by rw [Nat.succ_mul] at hmax; omega) fun k hk => ?_
      rw [hnext, hsame]
      · rw [add_assoc, add_comm 1 k]
        exact hnone (k + 1) (Nat.succ_lt_succ hk)
      · rw [pageSize] at *
        rw [userSpaceMax] at hmax
        have : userPages = 0x800000000 := rfl
        omega
      · omega

/-- A new address space. -/
theorem Filled.vmmCreateAddressSpace (hpmm : m₀.pmm.Inv) (htotal : m₀.pmm.gTotalFrames ≤ 2 ^ 40)
    (hzero : 0 ∈ m₀.pmm.usedSet) (hkernel : FrameAddr m₀.gKernelPml4)
    (hused : m₀.gKernelPml4 / pageSize ∈ m₀.pmm.usedSet) (hne : m₀.vmmCreateAddressSpace.1 ≠ 0) :
    m₀.Filled m₀.vmmCreateAddressSpace.1 m₀.vmmCreateAddressSpace.2 ∧
      ∀ n, n < userPages → m₀.vmmCreateAddressSpace.2.mapped m₀.vmmCreateAddressSpace.1 n = none := by
  have hcreated := vmmCreateAddressSpace_spec hpmm htotal hne
  obtain ⟨hshared, hnone⟩ := (Shared.nil hpmm htotal hkernel hused).vmmCreateAddressSpace hne
  have hbalanced : m₀.Balanced m₀.vmmCreateAddressSpace.2 := by
    have halloc := (pmmAllocFrame_spec hpmm).balanced htotal
    unfold Vmm.vmmCreateAddressSpace
    dsimp only
    split
    · exact halloc
    · exact ⟨halloc.zero_mono, halloc.ledger_eq⟩
  exact ⟨⟨hshared, ⟨[], SpaceClient.create_inv hcreated hzero hused, by simp⟩, hbalanced,
    hcreated.total_eq⟩, hnone⟩

/-- After the space is destroyed the frames in use are those of before, and each frame that was taken was
given back. -/
theorem Filled.vmmDestroyAddressSpace (h : m₀.Filled root m) (hzero : 0 ∈ m₀.pmm.usedSet) :
    (m.vmmDestroyAddressSpace root).pmm.usedSet = m₀.pmm.usedSet ∧
      m₀.Balanced (m.vmmDestroyAddressSpace root) := by
  constructor
  · apply h.owned.vmmDestroyAddressSpace hzero
    intro f hf
    rw [h.total_eq]
    exact (Pmm.mem_usedSet.mp hf).1
  · exact h.balanced.trans (h.shared.vmmDestroyAddressSpace not_mem_nil).1.balanced

end Filled

end Vmm

/-! ## Areas -/

namespace Process

/-- Every area record is on the list. -/
def Complete (p : Process) : Prop := ∃ l, p.Rep l ∧ l.length = p.vmaCount

section Complete

variable {p : Process}

theorem Complete.withVmm (h : p.Complete) (m : Vmm) : ({ p with vmm := m } : Process).Complete := by
  obtain ⟨l, hrep, hlen⟩ := h
  exact ⟨l, hrep.withVmm m, hlen⟩

theorem Complete.vmaCreate (h : p.Complete) (start size : ℕ) (flags : VmaFlags) :
    (p.vmaCreate start size flags).2.Complete := by
  unfold Process.vmaCreate
  split
  · exact h
  dsimp only
  split
  · exact h
  split
  · exact h
  obtain ⟨l, hl, hlen⟩ := h
  rcases p.kmallocVma_cases with ⟨-, hk⟩ | ⟨-, hk⟩ <;> rw [hk] <;> dsimp only
  · exact ⟨l, ⟨hl.list, hl.lt⟩, hlen⟩
  rw [← fillVma]
  generalize pageFloor start = pageStart
  generalize pageFloor (wrap64 (start + size + (pageSize - 1))) = pageEnd
  obtain ⟨hrep, hnot, -, hnew⟩ := hl.fillVma ⟨pageStart, pageEnd, flags, none, none⟩
  obtain ⟨hsame, l1, l2, rfl, hlinked, -⟩ := hrep.linkVma pageStart hnot (Nat.lt_succ_self _)
    (congrArg Vma.prev hnew)
  refine ⟨_, hlinked, ?_⟩
  rw [hsame.count_eq]
  change (l1 ++ p.vmaCount :: l2).length = p.vmaCount + 1
  rw [← hlen]
  simp only [length_append, length_cons]
  omega

/-- `vmaDestroyAll` frees every record once. -/
theorem Complete.vmaDestroyAll (h : p.Complete) : p.vmaDestroyAll.1.Perm (range p.vmaCount) := by
  obtain ⟨l, hrep, hlen⟩ := h
  have hwalk : p.vmaDestroyAll.1 = l := hrep.vmas_eq
  rw [hwalk]
  have hsub : l ⊆ range p.vmaCount := fun a ha => mem_range.mpr (hrep.lt a ha)
  apply (hrep.list.nodup.subperm hsub).perm_of_length_le
  rw [length_range, hlen]

end Complete

end Process

end NovaOS.Mem

/-! ## Loading -/

namespace NovaOS.Sched

open NovaOS.Lib NovaOS.Mem Process

/-- A process that is being filled, with all that it owns. -/
structure Filling (m₀ : Vmm) (root : ℕ) (p : Process) : Prop where
  pml4_eq : p.pml4 = root
  agrees : ∃ L, Agrees [root] {stackPage} p L
  filled : m₀.Filled root p.vmm
  complete : p.Complete

section Filling

variable {m₀ : Vmm} {root : ℕ} {p : Process}

/-- The pages of a new area are not mapped. -/
theorem unmapped_newArea {L : List Area} (h : Agrees [root] {stackPage} p L) {A : Area}
    (hapart : ∀ B ∈ L, ¬(A.start < B.stop ∧ A.stop > B.start)) {n : ℕ} (hn : n < userPages)
    (hholds : A.Holds n) : p.vmm.mapped p.pml4 n = none := by
  cases hmapped : p.vmm.mapped p.pml4 n with
  | none => rfl
  | some e =>
    obtain ⟨B, hB, hBholds, -⟩ := h.cover n e hn hmapped
    refine absurd ⟨?_, ?_⟩ (hapart B hB)
    · exact lt_of_le_of_lt hholds.1 hBholds.2
    · exact lt_of_le_of_lt hBholds.1 hholds.2

section

variable (h : Filling m₀ root p)
include h

/-- `vmaCreate` leaves the pages alone, and those of an area that it makes are not mapped. -/
theorem Filling.vmaCreate (start size : ℕ) (flags : VmaFlags) :
    m₀.Filled root (p.vmaCreate start size flags).2.vmm ∧
      (p.vmaCreate start size flags).2.pml4 = root ∧
      (p.vmaCreate start size flags).2.Complete ∧
      ((p.vmaCreate start size flags).1 ≠ none →
        (newArea start size flags).start < (newArea start size flags).stop ∧
        (newArea start size flags).stop ≤ userSpaceMax ∧ ∀ n, (newArea start size flags).Holds n →
          (p.vmaCreate start size flags).2.vmm.mapped root n = none) := by
  obtain ⟨L, hagrees⟩ := h.agrees
  obtain ⟨hpost, hsame⟩ := hagrees.view.vmaCreate start size flags
  refine ⟨hsame.vmm_eq.symm ▸ h.filled, hsame.pml4_eq.trans h.pml4_eq, h.complete.vmaCreate start size flags,
    fun hne => ?_⟩
  cases hpost with
  | failed hr _ => exact absurd hr hne
  | created _ L1 L2 _ _ hlt hle hapart _ _ =>
    refine ⟨hlt, hle, fun n hholds => ?_⟩
    rw [hsame.vmm_eq, ← h.pml4_eq]
    apply unmapped_newArea hagrees hapart _ hholds
    have hstop := lt_of_lt_of_le hholds.2 hle
    rw [pageSize, userSpaceMax] at hstop
    have : userPages = 0x800000000 := rfl
    omega

theorem Filling.loadSegmentAt (pFlags : BitVec 32) {segStart segEnd size : ℕ}
    (hs : segStart % pageSize = 0) (he : segEnd % pageSize = 0)
    (hstop : (newArea segStart size (segmentVmaFlags pFlags)).stop = segEnd) :
    Filling m₀ root (loadSegmentAt pFlags segStart segEnd size p).2 := by
  obtain ⟨L, hagrees⟩ := h.agrees
  obtain ⟨L', hagrees', hbeside⟩ := loadSegmentAt_agrees hagrees pFlags hs he hstop
  obtain ⟨hfilled, hpml4, hcomplete, hnew⟩ := h.vmaCreate segStart size (segmentVmaFlags pFlags)
  have hparts : m₀.Filled root (Sched.loadSegmentAt pFlags segStart segEnd size p).2.vmm ∧
      (Sched.loadSegmentAt pFlags segStart segEnd size p).2.Complete := by
    unfold Sched.loadSegmentAt
    generalize p.vmaCreate segStart size (segmentVmaFlags pFlags) = r at hfilled hpml4 hcomplete hnew
    obtain ⟨vma, p'⟩ := r
    cases vma with
    | none => exact ⟨hfilled, hcomplete⟩
    | some vma =>
      obtain ⟨hlt, hle, hnone⟩ := hnew (by simp)
      have hstart : (newArea segStart size (segmentVmaFlags pFlags)).start = segStart :=
        Syscall.pageFloor_of_aligned hs
      rw [hstop] at hle
      have hlen : (segEnd - segStart) / pageSize * pageSize = segEnd - segStart := Nat.div_mul_cancel
        (Nat.dvd_sub (Nat.dvd_of_mod_eq_zero he) (Nat.dvd_of_mod_eq_zero hs))
      have hend : segStart + (segEnd - segStart) / pageSize * pageSize = segEnd := by
        omega
      dsimp only
      refine ⟨?_, hcomplete.withVmm _⟩
      rw [hpml4]
      apply hfilled.backPages (userFlags_spec _ _).1 (hend.trans_le hle)
      intro k hk
      exact hnone _ (Area.holds_of_range hs hstart.le (by rw [hstop, hend]) hk)
  exact ⟨hbeside.pml4_eq.trans h.pml4_eq, ⟨L', hagrees'⟩, hparts.1, hparts.2⟩

theorem Filling.loadSegment (f : ElfFile) (loadBias : ℕ) (phdr : Elf64Phdr) :
    Filling m₀ root (loadSegment f loadBias phdr p).2 := by
  have hlt : ∀ x, pageFloor (wrap64 x) < 2 ^ 64 := fun x =>
    lt_of_le_of_lt (Nat.div_mul_le_self _ _) (wrap64_lt _)
  obtain ⟨b, heq⟩ | ⟨a, b, heq⟩ := loadSegment_cases f loadBias phdr p
  · rw [heq]
    exact h
  · rw [heq]
    exact h.loadSegmentAt phdr.pFlags (Area.pageFloor_mod _) (Area.pageFloor_mod _)
      (segment_stop (Area.pageFloor_mod _) (Area.pageFloor_mod _) (hlt a) (hlt b))

theorem Filling.loadElfSegments (f : ElfFile) (loadBias : ℕ) :
    Filling m₀ root (loadElfSegments f loadBias p).2 :=
  loadElfSegments_keeps (fun phdr _ hp => hp.loadSegment f loadBias phdr) h

theorem Filling.mapStack : Filling m₀ root (mapStack p).2 := by
  obtain ⟨L, hagrees⟩ := h.agrees
  obtain ⟨L', hagrees', hbeside⟩ := mapStack_agrees hagrees (Set.mem_singleton _)
  obtain ⟨hfilled, hpml4, hcomplete, hnew⟩ := h.vmaCreate (userStackTop - userStackInitialSize)
    userStackInitialSize (vmaRead ||| vmaWrite ||| vmaUser ||| vmaStack ||| vmaAnon)
  have hparts : m₀.Filled root (Sched.mapStack p).2.vmm ∧ (Sched.mapStack p).2.Complete := by
    unfold Sched.mapStack
    generalize p.vmaCreate _ _ _ = r at hfilled hpml4 hcomplete hnew
    obtain ⟨vma, p'⟩ := r
    cases vma with
    | none => exact ⟨hfilled, hcomplete⟩
    | some vma =>
      obtain ⟨-, -, hnone⟩ := hnew (by simp)
      dsimp only
      refine ⟨?_, hcomplete.withVmm _⟩
      rw [hpml4]
      exact (hfilled.backPage (by decide +kernel) (by decide) (hnone _ (by decide +kernel))).1
  exact ⟨hbeside.pml4_eq.trans h.pml4_eq, ⟨L', hagrees'⟩, hparts.1, hparts.2⟩

end

end Filling

end NovaOS.Sched
