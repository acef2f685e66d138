import NovaOS.Drivers.GpuMap
import NovaOS.Sched.Spawn

/-!
# The pages of a new program

The program loader and the initial stack install user pages besides the page-fault handler. They keep the
agreement between areas and pages, where the stack page is among those that may be executable.
-/

namespace NovaOS.Sched

open NovaOS.Lib NovaOS.Mem Process

variable {R : List ℕ} {X : Set ℕ} {p : Process} {L : List Area}

theorem segmentVmaFlags_spec (pFlags : BitVec 32) :
    (segmentVmaFlags pFlags).has vmaUser = true ∧
      (hasFlag pFlags pfW = true → (segmentVmaFlags pFlags).has vmaWrite = true) ∧
      (hasFlag pFlags pfX = true → (segmentVmaFlags pFlags).has vmaExec = true) := by
  unfold segmentVmaFlags
  generalize hasFlag pFlags pfR = r
  generalize hasFlag pFlags pfW = w
  generalize hasFlag pFlags pfX = x
  revert r w x
  decide

variable {segStart segEnd : ℕ}

/-- The size of a segment wraps when the segment does, but the area ends at `segEnd` all the same. -/
theorem segment_stop (hs : segStart % pageSize = 0) (he : segEnd % pageSize = 0)
    (hlt : segStart < 2 ^ 64) (hlt' : segEnd < 2 ^ 64) :
    pageFloor (wrap64 (segStart + sub64 segEnd segStart + (pageSize - 1))) = segEnd := by
  simp only [pageFloor, wrap64, sub64, pageSize] at *
  omega

theorem loadSegmentAt_agrees (h : Agrees R X p L) (pFlags : BitVec 32) {size : ℕ}
    (hs : segStart % pageSize = 0) (he : segEnd % pageSize = 0)
    (hstop : (newArea segStart size (segmentVmaFlags pFlags)).stop = segEnd) :
    ∃ L', Agrees R X (loadSegmentAt pFlags segStart segEnd size p).2 L' ∧
      Beside R p (loadSegmentAt pFlags segStart segEnd size p).2 := by
  obtain ⟨huser, hwrite, hexec⟩ := segmentVmaFlags_spec pFlags
  obtain ⟨L', hcreate, hbeside, hnew⟩ := h.vmaCreate segStart size huser
  unfold loadSegmentAt
  generalize p.vmaCreate segStart size (segmentVmaFlags pFlags) = r at hcreate hbeside hnew
  obtain ⟨vma, p'⟩ := r
  cases vma with
  | none => exact ⟨L', hcreate, hbeside⟩
  | some vma =>
    obtain ⟨hmem, hvalid⟩ := hnew (by simp)
    have hstart : (newArea segStart size (segmentVmaFlags pFlags)).start = segStart :=
      Syscall.pageFloor_of_aligned hs
    have hlen := Nat.div_mul_cancel
      (Nat.dvd_sub (Nat.dvd_of_mod_eq_zero he) (Nat.dvd_of_mod_eq_zero hs))
    have hle : segStart ≤ segEnd := hstart ▸ hstop ▸ hvalid.lt.le
    have hback := hcreate.backPages hmem (userFlags_spec _ _).1
      (Area.grants_userFlags False huser hwrite hexec)
      ((segEnd - segStart) / pageSize) segStart fun k hk =>
        Area.holds_of_range hs hstart.le (by rw [hstop, hlen]; omega) hk
    exact ⟨L', hback.1, hbeside.trans hback.2⟩

theorem loadSegment_cases (f : ElfFile) (loadBias : ℕ) (phdr : Elf64Phdr) (p : Process) :
    (∃ b, loadSegment f loadBias phdr p = (b, p)) ∨
      ∃ a b, loadSegment f loadBias phdr p =
        loadSegmentAt phdr.pFlags (pageFloor (wrap64 a)) (pageFloor (wrap64 b))
          (sub64 (pageFloor (wrap64 b)) (pageFloor (wrap64 a))) p := by
  unfold loadSegment
  split
  · exact .inl ⟨true, rfl⟩
  split
  · exact .inl ⟨false, rfl⟩
  dsimp only
  split
  · exact .inl ⟨false, rfl⟩
  · exact .inr ⟨_, _, rfl⟩

/-- What each segment keeps, the loop over the headers keeps. -/
theorem loadSegments_keeps {P : Process → Prop} {f : ElfFile} {loadBias : ℕ}
    (hstep : ∀ phdr p, P p → P (loadSegment f loadBias phdr p).2) (n i : ℕ) (h : P p) :
    P (loadSegments f loadBias n i p).2 := by
  induction n generalizing p i with
  | zero => exact h
  | succ n ih =>
    have hfirst := hstep (f.phdrs i) p h
    rw [loadSegments]
    generalize loadSegment f loadBias (f.phdrs i) p = r at hfirst
    obtain ⟨loaded, p'⟩ := r
    cases loaded with
    | false => exact hfirst
    | true => exact ih (i + 1) hfirst

theorem loadElfSegments_keeps {P : Process → Prop} {f : ElfFile} {loadBias : ℕ}
    (hstep : ∀ phdr p, P p → P (loadSegment f loadBias phdr p).2) (h : P p) :
    P (loadElfSegments f loadBias p).2 := by
  unfold loadElfSegments
  split
  · exact loadSegments_keeps hstep _ 0 h
  · exact h

/-- The page that `mapStack` maps. -/
def stackPage : ℕ := (userStackTop - pageSize) / pageSize

/-- The stack page may be written and, against its area, executed. -/
theorem mapStack_agrees (h : Agrees R X p L) (hX : stackPage ∈ X) :
    ∃ L', Agrees R X (mapStack p).2 L' ∧ Beside R p (mapStack p).2 := by
  unfold mapStack
  have huser : VmaFlags.has (vmaRead ||| vmaWrite ||| vmaUser ||| vmaStack ||| vmaAnon)
      vmaUser = true := by decide
  obtain ⟨L', hcreate, hbeside, hnew⟩ := h.vmaCreate (userStackTop - userStackInitialSize)
    userStackInitialSize huser
  generalize p.vmaCreate _ _ _ = r at hcreate hbeside hnew
  obtain ⟨vma, p'⟩ := r
  cases vma with
  | none => exact ⟨L', hcreate, hbeside⟩
  | some vma =>
    obtain ⟨hmem, -⟩ := hnew (by simp)
    have hflags : stackPteFlags.FlagsOnly := by decide
    obtain ⟨hback, hbeside'⟩ := hcreate.backPage hmem (userStackTop - pageSize)
      (by decide +kernel) hflags ⟨huser, fun _ => by decide, fun _ => .inr hX⟩
    exact ⟨L', hback, hbeside.trans hbeside'⟩

end NovaOS.Sched
