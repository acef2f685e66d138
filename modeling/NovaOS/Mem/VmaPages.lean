import NovaOS.Mem.VmaInv
import NovaOS.Mem.VmmShare

/-!
# Areas and page tables

`Agrees R X p L` says that the process `p`, one of those with roots `R` in the same memory, has the areas
`L` and maps only pages inside them, with no more permissions than the area has; the pages `X` may be
executable although their area is not. The routines of `vmm.c` that change areas and pages together
keep it: `vmaCreate`, `vmaDestroy` and the page-fault handler.
-/

namespace NovaOS.Mem

open NovaOS.Lib List Function

/-! ## Backing and releasing pages -/

namespace Vmm

section Pages

variable {m : Vmm} {R : List ℕ} {root : ℕ}

variable {flags : Pte}

theorem Shared.backPage (h : m.Shared R) (hroot : root ∈ R) {virt : ℕ} (hv : virt < userSpaceMax)
    (hflags : flags.FlagsOnly) :
    (((m.backPage root virt flags).1 = true ∧ ∃ phys, FrameAddr phys ∧ ¬m.Data R phys ∧
        m.Moves (m.backPage root virt flags).2 R root
          (update (m.mapped root) (virt / pageSize) (some (Pte.leaf phys flags)))) ∨
      ((m.backPage root virt flags).1 = false ∧
        m.Moves (m.backPage root virt flags).2 R root (m.mapped root))) ∧
      ∀ a, m.Data R a → (m.backPage root virt flags).2.Data R a := by
  obtain ⟨halloc, hspare, -⟩ := h.pmmAllocFrame root
  have hspec := pmmAllocFrame_spec h.pmm
  have hdata : ∀ a, m.Data R a → m.pmmAllocFrame.2.Data R a := fun a ha =>
    ha.of_pmm hspec.mem_eq (hspec.used_mono ha.used)
  have hfresh : m.pmmAllocFrame.1 ≠ 0 → ¬m.Data R m.pmmAllocFrame.1 := fun hne ha =>
    (hspec.frameAddr h.total_le hne).2.1 ha.used
  unfold Vmm.backPage
  generalize m.pmmAllocFrame = r at halloc hspare hdata hfresh
  obtain ⟨frame, m1⟩ := r
  dsimp only
  split
  · exact ⟨.inr ⟨rfl, halloc⟩, hdata⟩
  rename_i hnull
  obtain ⟨hs, hk⟩ := hspare hnull
  have hmap := (halloc.shared.vmmMapPage hroot hv hflags hs hk).1
  have hdata' := fun a ha => halloc.shared.data_vmmMapPage hroot flags hv hs.data.addr (hdata a ha)
  generalize m1.vmmMapPage root virt frame flags = r at hmap hdata'
  obtain ⟨res, m2⟩ := r
  rcases hmap with ⟨rfl, hmoves⟩ | ⟨rfl, hmoves, hs'⟩
  · refine ⟨.inl ⟨rfl, frame, hs.data.addr, hfresh hnull, (halloc.trans hmoves).congr fun n hn => ?_⟩,
      hdata'⟩
    rw [update_apply, update_apply, halloc.mapped_eq hn]
  · have hfree := hmoves.shared.pmmFreeFrame root hs' (fun heq => hk (heq.trans hmoves.kernel_eq))
    refine ⟨.inr ⟨rfl, ((halloc.trans hmoves).trans hfree).congr fun n hn => ?_⟩, fun a ha => ?_⟩
    · rw [hmoves.mapped_eq hn, halloc.mapped_eq hn]
    · exact (hdata' a ha).pmmFreeFrame hmoves.shared.pmm hs.data.addr fun heq =>
        hfresh hnull (heq ▸ ha)

/-- A run of frames that are spare. -/
def SpareRun (m : Vmm) (R : List ℕ) (a count : ℕ) : Prop :=
  ∀ k, k < count → m.Spare R (a + k * pageSize) ∧ a + k * pageSize ≠ m.gKernelPml4

theorem SpareRun.tail {a count : ℕ} (h : m.SpareRun R a (count + 1)) :
    m.SpareRun R (a + pageSize) count := by
  intro k hk
  have hnext := h (k + 1) (by omega)
  rwa [Nat.succ_mul, add_comm _ pageSize, ← add_assoc] at hnext

variable {virtStart n j addr : ℕ}

/-- The loop of `vmmMapRange` maps a run of spare frames up to the page that fails. -/
theorem Shared.mapPages (h : m.Shared R) (hroot : root ∈ R) (hflags : flags.FlagsOnly)
    {physStart : ℕ} (hmax : virtStart + (j + n) * pageSize ≤ userSpaceMax)
    (hspare : m.SpareRun R (physStart + j * pageSize) n) :
    let r := Vmm.mapPages root virtStart physStart flags n (j * pageSize) m
    ∃ k, k ≤ n ∧ (r.1 = 0 ↔ k = n) ∧
      m.Moves r.2 R root (withRun (m.mapped root) (virtStart / pageSize + j)
        (physStart + j * pageSize) flags k) ∧
      ∀ a, m.Data R a → r.2.Data R a := by
  induction n generalizing m j with
  | zero => exact ⟨0, le_rfl, by simp [Vmm.mapPages], h.moves_self.congr fun _ _ =>
    (withRun_zero _ _ _ _ _).symm, fun _ ha => ha⟩
  | succ n ih =>
    have hv : virtStart + j * pageSize < userSpaceMax := by
      rw [pageSize] at *
      omega
    obtain ⟨hspare0, hk0⟩ := hspare 0 (Nat.succ_pos n)
    rw [zero_mul, add_zero] at hspare0 hk0
    have hwrap : wrap64 (virtStart + j * pageSize) = virtStart + j * pageSize :=
      wrap64_of_lt (lt_trans hv (by decide))
    have hwrap' : wrap64 (physStart + j * pageSize) = physStart + j * pageSize :=
      wrap64_of_lt (lt_trans hspare0.data.addr.lt (by decide))
    obtain ⟨hmap, hothers⟩ := h.vmmMapPage hroot hv hflags hspare0 hk0
    have hdata : ∀ a, m.Data R a → _ := fun a ha =>
      h.data_vmmMapPage hroot flags hv hspare0.data.addr ha
    rw [page_add] at hmap
    unfold Vmm.mapPages
    rw [hwrap, hwrap']
    generalize m.vmmMapPage root _ _ flags = r at hmap hothers hdata
    obtain ⟨res, m1⟩ := r
    rcases hmap with ⟨rfl, hmoves⟩ | ⟨rfl, hmoves, -⟩
    · have hphys : physStart + (j + 1) * pageSize = physStart + j * pageSize + pageSize := by
        rw [add_mul, one_mul, add_assoc]
      have hoffset : j * pageSize + pageSize = (j + 1) * pageSize := (Nat.succ_mul j pageSize).symm
      rw [hoffset]
      obtain ⟨k, hk, hiff, hrest, hkept⟩ := ih hmoves.shared (j := j + 1)
        ((show j + 1 + n = j + (n + 1) by omega).symm ▸ hmax)
        (fun i hi => by
          rw [hphys]
          obtain ⟨hs, hk'⟩ := hspare.tail i hi
          refine ⟨hothers _ ?_ hs, fun heq => hk' (heq.trans hmoves.kernel_eq)⟩
          rw [pageSize]
          omega)
      refine ⟨k + 1, by omega, hiff.trans (by omega), (hmoves.trans hrest).congr fun i hi => ?_,
        fun a ha => hkept a (hdata a ha)⟩
      rw [hphys, ← add_assoc, ← withRun_succ]
      unfold withRun
      rw [hmoves.mapped_eq hi]
    · refine ⟨0, by omega, by simp, hmoves.congr fun i _ => (withRun_zero _ _ _ _ _).symm, hdata⟩

/-- The pages from `n₀` on, `k` of them, cleared. -/
def cleared (f : ℕ → Option Pte) (n₀ k n : ℕ) : Option Pte :=
  if n₀ ≤ n ∧ n < n₀ + k then none else f n

/-- The pages from `n₀` on, `k` of them, as a set. -/
def InRun (n₀ k n : ℕ) : Prop := n₀ ≤ n ∧ n < n₀ + k

section

variable (h : m.Shared R) (hroot : root ∈ R)
include h hroot

/-- The body of the loop of `vmaDestroy` clears a page and gives its frame back. -/
theorem Shared.unmapAndFreePage (halign : addr % pageSize = 0) (hv : addr < userSpaceMax) :
    let m' := if m.vmmVirtToPhys root addr ≠ 0 then
      (m.vmmUnmapPage root addr).2.pmmFreeFrame (m.vmmVirtToPhys root addr) else m
    m.Moves m' R root (update (m.mapped root) (addr / pageSize) none) ∧
      m.Keeps m' R root (· = addr / pageSize) := by
  have hphys := (h.space root hroot).vmmVirtToPhys hv
  have hoff : addr &&& (pageSize - 1) = 0 := by
    have hand := Nat.and_two_pow_sub_one_eq_mod addr 12
    rw [show 2 ^ 12 = pageSize from rfl] at hand
    rw [hand, halign]
  cases hm : m.mapped root (addr / pageSize) with
  | none =>
    rw [hm] at hphys
    rw [hphys]
    refine ⟨h.moves_self.congr fun k _ => ?_, .refl _⟩
    rw [update_apply]
    split
    · rename_i heq
      rw [heq, hm]
    · rfl
  | some e =>
    rw [hm] at hphys
    dsimp only at hphys
    rw [hoff, Nat.or_zero] at hphys
    have hd := h.data root hroot (page_lt_userPages hv) hm
    rw [hphys, if_pos hd.addr.ne_zero]
    obtain ⟨hmoves, hspare⟩ := h.vmmUnmapPage hroot hv
    have hk : e.addr ≠ (m.vmmUnmapPage root addr).2.gKernelPml4 := by
      rw [hmoves.kernel_eq]
      exact fun heq => h.kernel.unmapped root hroot ⟨_, e, page_lt_userPages hv, hm, heq⟩
    refine ⟨(hmoves.trans (hmoves.shared.pmmFreeFrame _ (hspare e hm) hk)).congr
      fun k hk => hmoves.mapped_eq hk, fun a ha hout => ?_⟩
    exact (h.data_vmmUnmapPage hroot hv ha).pmmFreeFrame hmoves.shared.pmm hd.addr
      (hout _ e (page_lt_userPages hv) rfl hm)

/-- The loop of `vmaDestroy` clears the pages of its range and gives their frames back. -/
theorem Shared.unmapAndFree (halign : addr % pageSize = 0)
    (hmax : addr + n * pageSize ≤ userSpaceMax) :
    m.Moves (Process.unmapAndFree root n addr m) R root
        (cleared (m.mapped root) (addr / pageSize) n) ∧
      m.Keeps (Process.unmapAndFree root n addr m) R root (InRun (addr / pageSize) n) := by
  induction n generalizing m addr with
  | zero =>
    refine ⟨h.moves_self.congr fun k _ => ?_, .refl _⟩
    rw [cleared, if_neg (by omega)]
  | succ n ih =>
    have hv : addr < userSpaceMax := by
      rw [pageSize] at *
      omega
    have hpage : (addr + pageSize) / pageSize = addr / pageSize + 1 :=
      Nat.add_div_right _ (by decide)
    obtain ⟨hbody, hkeeps⟩ := h.unmapAndFreePage hroot halign hv
    have halign' : (addr + pageSize) % pageSize = 0 := by rw [Nat.add_mod_right, halign]
    have hmax' : addr + pageSize + n * pageSize ≤ userSpaceMax := by
      rw [Nat.succ_mul] at hmax
      omega
    obtain ⟨hrest, hkeeps'⟩ := ih hbody.shared halign' hmax'
    refine ⟨(hbody.trans hrest).congr fun k hk => ?_,
      (hkeeps.mono fun k hk => ?_).trans (hkeeps'.mono fun k hk => ?_) fun k e hk he => ?_⟩
    · rw [cleared, cleared, hbody.mapped_eq hk, update_apply]
      split_ifs <;> first | rfl | omega
    · exact ⟨hk.ge, by omega⟩
    · exact ⟨by have := hk.1; omega, by have := hk.2; omega⟩
    · rw [hbody.mapped_eq hk, update_apply] at he
      split at he
      · cases he
      · exact he

/-- The loop of `vmmUnmapRange` clears the pages of its range and keeps their frames. -/
theorem Shared.unmapPages (hmax : virtStart + (j + n) * pageSize ≤ userSpaceMax) :
    m.Moves (Vmm.unmapPages root virtStart n (j * pageSize) m) R root
        (cleared (m.mapped root) (virtStart / pageSize + j) n) ∧
      ∀ a, m.Data R a → (Vmm.unmapPages root virtStart n (j * pageSize) m).Data R a := by
  induction n generalizing m j with
  | zero =>
    refine ⟨h.moves_self.congr fun k _ => ?_, fun _ ha => ha⟩
    rw [cleared, if_neg (by omega)]
  | succ n ih =>
    have hv : virtStart + j * pageSize < userSpaceMax := by
      rw [pageSize] at *
      omega
    have hoffset : j * pageSize + pageSize = (j + 1) * pageSize := (Nat.succ_mul j pageSize).symm
    rw [Vmm.unmapPages, wrap64_of_lt (lt_trans hv (by decide)), hoffset]
    obtain ⟨hpage, -⟩ := h.vmmUnmapPage hroot hv
    obtain ⟨hrest, hdata⟩ := ih hpage.shared (j := j + 1)
      ((show j + 1 + n = j + (n + 1) by omega).symm ▸ hmax)
    refine ⟨(hpage.trans hrest).congr fun k hk => ?_, fun a ha =>
      hdata a (h.data_vmmUnmapPage hroot hv ha)⟩
    rw [cleared, cleared, hpage.mapped_eq hk, page_add, update_apply]
    split_ifs <;> first | rfl | omega

end

end Pages

end Vmm

theorem userFlags_spec : ∀ write exec, (Vmm.userFlags write exec).FlagsOnly ∧
    (Vmm.userFlags write exec).has vmmFlagWritable = write ∧
    (Vmm.userFlags write exec).has vmmFlagNoExecute = !exec := by
  decide

/-! ## Pages inside areas -/

namespace Area

/-- Page `n` lies in the area. -/
def Holds (A : Area) (n : ℕ) : Prop := A.start ≤ n * pageSize ∧ n * pageSize < A.stop

instance (A : Area) (n : ℕ) : Decidable (A.Holds n) := inferInstanceAs (Decidable (_ ∧ _))

/-- The area is a user area with the permissions of the entry, except that a `loose` page may be
executable. -/
structure Grants (A : Area) (e : Pte) (loose : Prop) : Prop where
  user : A.flags.has vmaUser = true
  write : e.has vmmFlagWritable = true → A.flags.has vmaWrite = true
  exec : e.has vmmFlagNoExecute = false → A.flags.has vmaExec = true ∨ loose

/-- Every mapped page lies in an area that grants its entry. -/
def Cover (X : Set ℕ) (L : List Area) (f : ℕ → Option Pte) : Prop :=
  ∀ n e, n < userPages → f n = some e → ∃ A ∈ L, A.Holds n ∧ A.Grants e (n ∈ X)

variable {A : Area}

/-- The pages of an aligned range inside the area. -/
theorem holds_of_range {virt n k : ℕ} (halign : virt % pageSize = 0) (hs : A.start ≤ virt)
    (he : virt + n * pageSize ≤ A.stop) (hk : k < n) : A.Holds (virt / pageSize + k) := by
  have hpage : (virt / pageSize + k) * pageSize = virt + k * pageSize := by
    rw [add_mul, Nat.div_mul_cancel (Nat.dvd_of_mod_eq_zero halign)]
  have hlt : k * pageSize < n * pageSize := Nat.mul_lt_mul_of_pos_right hk (by decide)
  rw [Holds]
  omega

/-- The permissions of a leaf entry are those of its flags. -/
theorem Grants.leaf {flags : Pte} {loose : Prop} (h : A.Grants flags loose) (phys : ℕ) :
    A.Grants (Pte.leaf phys flags) loose := by
  have hbit : ∀ k, 52 ≤ k ∨ k < 12 → k ≠ 0 → (Pte.leaf phys flags).getLsbD k = flags.getLsbD k := by
    intro k hk hk0
    rw [Pte.getLsbD_leaf]
    have hnot : ¬(12 ≤ k ∧ k < 52) := by omega
    simp [hnot, hk0]
  refine ⟨h.user, fun hw => h.write ?_, fun hx => h.exec ?_⟩
  · rw [Pte.has_writable] at hw ⊢
    rw [← hw, hbit 1 (by omega) (by omega)]
  · rw [Pte.has_noExecute] at hx ⊢
    rw [← hx, hbit 63 (by omega) (by omega)]

theorem grants_userFlags {write exec : Bool} (loose : Prop) (huser : A.flags.has vmaUser = true)
    (hwrite : write = true → A.flags.has vmaWrite = true)
    (hexec : exec = true → A.flags.has vmaExec = true) :
    A.Grants (Vmm.userFlags write exec) loose := by
  obtain ⟨-, hw, hx⟩ := userFlags_spec write exec
  refine ⟨huser, fun h => hwrite (hw.symm.trans h), fun h => .inl (hexec ?_)⟩
  rw [hx] at h
  simpa using h

variable {X : Set ℕ} {L : List Area} {f : ℕ → Option Pte}

theorem Cover.congr {g : ℕ → Option Pte} (h : Cover X L f) (hfg : ∀ n, n < userPages → g n = f n) :
    Cover X L g :=
  fun n e hn he => h n e hn ((hfg n hn).symm.trans he)

/-- More areas. -/
theorem Cover.mono {L' : List Area} (h : Cover X L f) (hsub : ∀ A ∈ L, A ∈ L') : Cover X L' f := by
  intro n e hn he
  obtain ⟨A, hA, hA'⟩ := h n e hn he
  exact ⟨A, hsub A hA, hA'⟩

/-- One page more, inside an area that grants it. -/
theorem Cover.update (h : Cover X L f) {n0 : ℕ} {e0 : Pte} (hA : A ∈ L) (hholds : A.Holds n0)
    (hgrants : A.Grants e0 (n0 ∈ X)) : Cover X L (update f n0 (some e0)) := by
  intro n e hn he
  rw [update_apply] at he
  split at he
  · rename_i heq
    subst heq
    obtain rfl := Option.some.inj he
    exact ⟨A, hA, hholds, hgrants⟩
  · exact h n e hn he

section Carve

variable {A : Area} {L : List Area} {pageStart pageEnd n : ℕ} {denials : List Bool}

end Carve

end Area

namespace Vmm

variable {m : Vmm} {R : List ℕ} {root : ℕ}

variable {pageStart pageEnd : ℕ}

/-- Releasing an area clears its pages in the range. -/
theorem Shared.release (h : m.Shared R) (hroot : root ∈ R) {A : Area} (hA : A.Valid)
    (hs : pageStart % pageSize = 0) (he : pageEnd % pageSize = 0) :
    (m.Moves (Area.release root pageStart pageEnd m A) R root fun n =>
      if A.Holds n ∧ pageStart ≤ n * pageSize ∧ n * pageSize < pageEnd then none
      else m.mapped root n) ∧
    m.Keeps (Area.release root pageStart pageEnd m A) R root fun n =>
      A.Holds n ∧ pageStart ≤ n * pageSize ∧ n * pageSize < pageEnd := by
  have hstart := hA.start_aligned
  have hstop := hA.stop_aligned
  have hmax := hA.le_max
  by_cases hmeet : A.Meets pageStart pageEnd
  · rw [Area.release, if_pos hmeet]
    set unmapStart := if A.start > pageStart then A.start else pageStart with hus
    set unmapEnd := if A.stop < pageEnd then A.stop else pageEnd with hue
    have halign : unmapStart % pageSize = 0 := by
      rw [hus]
      split <;> assumption
    have hle : unmapEnd ≤ A.stop ∧ unmapEnd ≤ pageEnd := by
      rw [hue]
      split <;> omega
    have hge : A.start ≤ unmapStart ∧ pageStart ≤ unmapStart := by
      rw [hus]
      split <;> omega
    have hlim : unmapStart ≤ A.stop := by
      have := hmeet.1
      have := hA.lt
      rw [hus]
      split <;> omega
    have hiff : ∀ n, (unmapStart / pageSize ≤ n ∧ n < unmapStart / pageSize +
        (unmapEnd - unmapStart + (pageSize - 1)) / pageSize) ↔
        A.Holds n ∧ pageStart ≤ n * pageSize ∧ n * pageSize < pageEnd := by
      intro n
      have h1 : unmapStart = A.start ∨ unmapStart = pageStart := by
        rw [hus]
        split <;> simp
      have h2 : unmapEnd = A.stop ∨ unmapEnd = pageEnd := by
        rw [hue]
        split <;> simp
      rw [Area.Holds]
      rw [pageSize] at *
      omega
    obtain ⟨hmoves, hkeeps⟩ := h.unmapAndFree hroot halign
      (n := (unmapEnd - unmapStart + (pageSize - 1)) / pageSize) (by rw [pageSize] at *; omega)
    refine ⟨hmoves.congr fun n _ => ?_, hkeeps.mono fun n => (hiff n).mp⟩
    rw [cleared, if_congr (hiff n) rfl rfl]
  · rw [Area.release, if_neg hmeet]
    refine ⟨h.moves_self.congr fun n _ => ?_, .refl _⟩
    rw [if_neg]
    rintro ⟨⟨h1, h2⟩, h3, h4⟩
    exact hmeet ⟨lt_of_le_of_lt h3 h2, lt_of_le_of_lt h1 h4⟩

/-- The pages that `vmaDestroy` leaves. -/
theorem Shared.releaseAll (h : m.Shared R) (hroot : root ∈ R) {L : List Area}
    (hL : ∀ A ∈ L, A.Valid) (hs : pageStart % pageSize = 0) (he : pageEnd % pageSize = 0) :
    (m.Moves (L.foldl (Area.release root pageStart pageEnd) m) R root fun n =>
      if (∃ A ∈ L, A.Holds n) ∧ pageStart ≤ n * pageSize ∧ n * pageSize < pageEnd then none
      else m.mapped root n) ∧
    m.Keeps (L.foldl (Area.release root pageStart pageEnd) m) R root fun n =>
      (∃ A ∈ L, A.Holds n) ∧ pageStart ≤ n * pageSize ∧ n * pageSize < pageEnd := by
  induction L generalizing m with
  | nil =>
    refine ⟨h.moves_self.congr fun n _ => ?_, .refl _⟩
    rw [if_neg]
    rintro ⟨⟨A, hA, -⟩, -⟩
    exact not_mem_nil hA
  | cons A L ih =>
    obtain ⟨hfirst, hkeeps⟩ := h.release hroot (hL A (.head _)) hs he
    obtain ⟨hrest, hkeeps'⟩ := ih hfirst.shared fun B hB => hL B (.tail _ hB)
    refine ⟨(hfirst.trans hrest).congr fun n hn => ?_,
      (hkeeps.mono fun n hn => ?_).trans (hkeeps'.mono fun n hn => ?_) fun n e hn he' => ?_⟩
    · rw [hfirst.mapped_eq hn]
      by_cases hrange : pageStart ≤ n * pageSize ∧ n * pageSize < pageEnd
      · by_cases h1 : A.Holds n <;> by_cases h2 : ∃ B ∈ L, B.Holds n <;> simp [hrange, h1, h2]
      · rw [if_neg fun hc => hrange hc.2, if_neg fun hc => hrange hc.2,
          if_neg fun hc => hrange hc.2]
    · exact ⟨⟨A, .head _, hn.1⟩, hn.2⟩
    · obtain ⟨⟨B, hB, hholds⟩, hrange⟩ := hn
      exact ⟨⟨B, mem_cons_of_mem _ hB, hholds⟩, hrange⟩
    · rw [hfirst.mapped_eq hn] at he'
      split at he'
      · cases he'
      · exact he'

end Vmm

namespace Process

/-- The process `p`, with the areas `L`, shares memory with those at `R`, and its pages lie in its areas
with permissions that these grant, up to the pages `X`. -/
structure Agrees (R : List ℕ) (X : Set ℕ) (p : Process) (L : List Area) : Prop where
  shared : p.vmm.Shared R
  root : p.pml4 ∈ R
  view : p.View L
  ordered : Area.Ordered L
  user : ∀ A ∈ L, A.flags.has vmaUser = true
  cover : Area.Cover X L (p.vmm.mapped p.pml4)

/-- A step of one process leaves the pages of the others alone. -/
structure Beside (R : List ℕ) (p p' : Process) : Prop where
  pml4_eq : p'.pml4 = p.pml4
  others_eq : ∀ r ∈ R, r ≠ p.pml4 → ∀ {n}, n < userPages → p'.vmm.mapped r n = p.vmm.mapped r n

section Steps

variable {R : List ℕ} {X : Set ℕ} {p p' : Process} {L : List Area}

theorem Beside.refl (R : List ℕ) (p : Process) : Beside R p p := ⟨rfl, fun _ _ _ _ _ => rfl⟩

theorem Beside.trans {p'' : Process} (h : Beside R p p') (h' : Beside R p' p'') : Beside R p p'' :=
  ⟨h'.pml4_eq.trans h.pml4_eq, fun r hr hne _ hn =>
    (h'.others_eq r hr (h.pml4_eq.symm ▸ hne) hn).trans (h.others_eq r hr hne hn)⟩

variable {f : ℕ → Option Pte}

theorem Beside.of_moves (h : p.vmm.Moves p'.vmm R p.pml4 f) (hpml4 : p'.pml4 = p.pml4) :
    Beside R p p' :=
  ⟨hpml4, fun r hr hne _ hn => h.others_eq r hr hne hn⟩

theorem SameMachine.beside (h : p.SameMachine p') : Beside R p p' :=
  ⟨h.pml4_eq, fun r _ _ n _ => by rw [h.vmm_eq]⟩

/-- A step on the pages that leaves the areas. -/
theorem Agrees.withVmm (h : Agrees R X p L) {m : Vmm} (hmoves : p.vmm.Moves m R p.pml4 f)
    (hcover : Area.Cover X L f) : Agrees R X { p with vmm := m } L :=
  { h with
    shared := hmoves.shared
    view := h.view.withVmm m
    cover := hcover.congr fun _ hn => hmoves.mapped_eq hn }

/-- `vmaCreate` with a user area. -/
theorem Agrees.vmaCreate (h : Agrees R X p L) (start size : ℕ) {flags : VmaFlags}
    (huser : flags.has vmaUser = true) :
    ∃ L', Agrees R X (p.vmaCreate start size flags).2 L' ∧
      Beside R p (p.vmaCreate start size flags).2 ∧
      ((p.vmaCreate start size flags).1 ≠ none →
        newArea start size flags ∈ L' ∧ (newArea start size flags).Valid) := by
  obtain ⟨hpost, hsame⟩ := h.view.vmaCreate start size flags
  have hagrees : ∀ {L'}, (p.vmaCreate start size flags).2.View L' → Area.Ordered L' →
      (∀ A ∈ L', A.flags.has vmaUser = true) → (∀ A ∈ L, A ∈ L') →
      Agrees R X (p.vmaCreate start size flags).2 L' := by
    intro L' hview hord huser' hsub
    refine ⟨hsame.vmm_eq ▸ h.shared, hsame.pml4_eq ▸ h.root, hview, hord, huser', ?_⟩
    rw [hsame.vmm_eq, hsame.pml4_eq]
    exact h.cover.mono hsub
  cases hpost with
  | failed hr hview =>
    exact ⟨L, hagrees hview h.ordered h.user fun A hA => hA, hsame.beside, fun hne => absurd hr hne⟩
  | created _ L1 L2 hsplit hview hlt hle hapart hbefore hafter =>
    subst hsplit
    have hvalid := newArea_valid hlt hle
    refine ⟨_, hagrees hview (h.ordered.insert hvalid hapart hbefore hafter) ?_ ?_, hsame.beside,
      fun _ => ⟨by simp, hvalid⟩⟩
    · intro A hA
      rw [mem_append, mem_cons] at hA
      rcases hA with hA | rfl | hA
      · exact h.user A (mem_append_left _ hA)
      · exact huser
      · exact h.user A (mem_append_right _ hA)
    · intro A hA
      rw [mem_append] at hA
      rw [mem_append]
      tauto

variable {A : Area}

/-- A page of an area is in user space. -/
theorem Agrees.virt_lt (h : Agrees R X p L) (hA : A ∈ L) {virt : ℕ}
    (hholds : A.Holds (virt / pageSize)) : virt < userSpaceMax := by
  have hle := (h.ordered.valid A hA).le_max
  have hstop := (h.ordered.valid A hA).stop_aligned
  have hlt := hholds.2
  rw [pageSize] at *
  omega

variable {flags : Pte}

/-- Backing a page of an area with an entry that the area grants. -/
theorem Agrees.backPage (h : Agrees R X p L) (hA : A ∈ L) (virt : ℕ)
    (hholds : A.Holds (virt / pageSize)) (hflags : flags.FlagsOnly)
    (hgrants : A.Grants flags (virt / pageSize ∈ X)) :
    Agrees R X { p with vmm := (p.vmm.backPage p.pml4 virt flags).2 } L ∧
      Beside R p { p with vmm := (p.vmm.backPage p.pml4 virt flags).2 } := by
  have hv := h.virt_lt hA hholds
  rcases (h.shared.backPage h.root hv hflags).1 with ⟨-, phys, -, -, hmoves⟩ | ⟨-, hmoves⟩
  · exact ⟨h.withVmm hmoves (h.cover.update hA hholds (hgrants.leaf phys)), .of_moves hmoves rfl⟩
  · exact ⟨h.withVmm hmoves h.cover, .of_moves hmoves rfl⟩

/-- Backing a run of pages of an area. -/
theorem Agrees.backPages (h : Agrees R X p L) (hA : A ∈ L) (hflags : flags.FlagsOnly)
    (hgrants : A.Grants flags False) (n virt : ℕ)
    (hholds : ∀ k, k < n → A.Holds (virt / pageSize + k)) :
    Agrees R X { p with vmm := (Vmm.backPages p.pml4 flags n virt p.vmm).2 } L ∧
      Beside R p { p with vmm := (Vmm.backPages p.pml4 flags n virt p.vmm).2 } := by
  induction n generalizing p virt with
  | zero => exact ⟨h, .refl R p⟩
  | succ n ih =>
    obtain ⟨hfirst, hbeside⟩ := h.backPage hA virt (hholds 0 (Nat.succ_pos n)) hflags
      ⟨hgrants.user, hgrants.write, fun hx => (hgrants.exec hx).imp_right False.elim⟩
    rw [Vmm.backPages]
    generalize p.vmm.backPage p.pml4 virt flags = r at hfirst hbeside
    obtain ⟨backed, m⟩ := r
    cases backed with
    | false => exact ⟨hfirst, hbeside⟩
    | true =>
      have hpage : (virt + pageSize) / pageSize = virt / pageSize + 1 :=
        Nat.add_div_right _ (by decide)
      obtain ⟨hrest, hbeside'⟩ := ih hfirst (virt + pageSize) fun k hk => by
        rw [hpage, add_assoc, add_comm 1]
        exact hholds (k + 1) (by omega)
      exact ⟨hrest, hbeside.trans hbeside'⟩

end Steps

/-! ## Page faults -/

section Fault

variable {R : List ℕ} {X : Set ℕ} {p : Process} {L : List Area}

theorem faultVma_machine (p : Process) (cr2 rsp : ℕ) :
    (p.faultVma cr2 rsp).2.vmm = p.vmm ∧ (p.faultVma cr2 rsp).2.pml4 = p.pml4 := by
  unfold Process.faultVma
  split
  · exact ⟨rfl, rfl⟩
  · split <;> exact ⟨rfl, rfl⟩

/-- A page fault leaves the address spaces in place, whatever the areas are. -/
theorem vmmPageFaultHandler_shared (hshared : p.vmm.Shared R) (hroot : p.pml4 ∈ R) (f : Fault) :
    (p.vmmPageFaultHandler f).2.vmm.Shared R := by
  unfold Process.vmmPageFaultHandler
  dsimp only
  split
  · exact hshared
  rename_i hcr2
  obtain ⟨hvmm, hpml4⟩ := p.faultVma_machine f.cr2.toNat f.rsp.toNat
  generalize p.faultVma f.cr2.toNat f.rsp.toNat = r at hvmm hpml4
  obtain ⟨vma, p'⟩ := r
  rw [← hvmm] at hshared
  rw [← hpml4] at hroot
  cases vma with
  | none => exact hshared
  | some vma =>
    dsimp only
    split
    · exact hshared
    have hv : pageFloor f.cr2.toNat < userSpaceMax :=
      lt_of_le_of_lt (Nat.div_mul_le_self _ _) (Nat.lt_of_not_le hcr2)
    rcases (hshared.backPage hroot hv (userFlags_spec _ _).1).1 with ⟨-, _, -, -, hmoves⟩ | ⟨-, hmoves⟩
    · exact hmoves.shared
    · exact hmoves.shared

end Fault

end Process

end NovaOS.Mem
