import NovaOS.Mem.VmmSafe

/-!
# The kernel half of every address space

`vmmCreateAddressSpace` copies the upper half of the kernel's root, and from then on a new root shares
the kernel's lower tables. A later change to the kernel's mappings reaches the new root as long as it
does not change the kernel's root: unmapping never does, and mapping does not where the root entry is
present already. `run_translates_alike` is the invariant over runs of the three operations.
-/

namespace NovaOS.Mem

open NovaOS.Lib List

namespace Vmm

section

variable {m m' : Vmm} {root virt : ℕ}

/-! ## Writes that miss the tables -/

/-- A step that changes the tables in permissions only keeps the tree. -/
theorem Tree.congr_strip (h : m.Tree root) (hpmm : m'.pmm.Inv)
    (htotal : m'.pmm.gTotalFrames = m.pmm.gTotalFrames) (hused : m.pmm.usedSet ⊆ m'.pmm.usedSet)
    (hstrip : ∀ a, m.IsTab root a → ∀ j, (m'.mem a j).strip = (m.mem a j).strip) :
    m'.Tree root ∧ ∀ q, Depth q → m'.tab root q = m.tab root q := by
  have htab : ∀ q, Depth q → m'.tab root q = m.tab root q := by
    intro q hq
    refine Radix.walk_congr Pte.next m.mem fun p j s hp hs => Pte.next_congr (hstrip s ⟨p, ?_, hs⟩ j)
    exact depth_prefixClosed.of_concat (depth_prefixClosed _ _ hp hq)
  refine ⟨⟨hpmm, htotal.trans_le h.total_le, fun p q t hp hq ht ht' => ?_, fun hq hs => ?_,
    fun i hi => ?_⟩, htab⟩
  · exact h.sep p q t hp hq ((htab p hp).symm.trans ht) ((htab q hq).symm.trans ht')
  · obtain ⟨haddr, hmem⟩ := h.used hq ((htab _ hq).symm.trans hs)
    exact ⟨haddr, hused hmem⟩
  · obtain ⟨h0, h7, -⟩ := Pte.strip_congr (hstrip root ⟨[], Nat.zero_le _, rfl⟩ i)
    rw [h7]
    exact h.top i (h0 ▸ hi)

/-- The frames that `vmmMapPage` writes to as if they were tables. -/
def scribbled (m : Vmm) (root virt : ℕ) : List ℕ :=
  match m.leafOf root virt with
  | none => []
  | some (k, e) =>
    if k = 21 then [e.addr]
    else if k = 30 then
      let word := m.mem e.addr (pdIdx virt)
      if word.has vmmFlagPresent then [word.addr] else [e.addr]
    else []

/-- A step that writes, up to permissions, only to frames that were free and to those of a list. -/
structure Misses (m m' : Vmm) (l : List ℕ) : Prop where
  pmm : m'.pmm.Inv
  total_eq : m'.pmm.gTotalFrames = m.pmm.gTotalFrames
  used_mono : m.pmm.usedSet ⊆ m'.pmm.usedSet
  kernel_eq : m'.gKernelPml4 = m.gKernelPml4
  strip_eq : ∀ a, a ∉ l → a / pageSize ∈ m.pmm.usedSet → ∀ j, (m'.mem a j).strip = (m.mem a j).strip

section Misses

variable {l : List ℕ} {t : ℕ} {i : Fin 512} {e : Pte}

theorem Misses.refl (hpmm : m.pmm.Inv) : m.Misses m l :=
  ⟨hpmm, rfl, subset_rfl, rfl, fun _ _ _ _ => rfl⟩

theorem Misses.widen (h : m.Misses m' l) (flags : Pte) :
    m.Misses (m'.write t i ((m'.mem t i).widen flags)) l :=
  ⟨h.pmm, h.total_eq, h.used_mono, h.kernel_eq, fun a ha hused j =>
    (strip_write_widen flags a j).trans (h.strip_eq a ha hused j)⟩

theorem Misses.write (h : m.Misses m' l) (ht : t ∈ l ∨ t / pageSize ∉ m.pmm.usedSet) :
    m.Misses (m'.write t i e) l := by
  refine ⟨h.pmm, h.total_eq, h.used_mono, h.kernel_eq, fun a ha hused j => ?_⟩
  have hne : a ≠ t := by
    rintro rfl
    exact ht.elim ha fun hfree => hfree hused
  rw [write_mem_of_ne hne]
  exact h.strip_eq a ha hused j

/-- An absent entry in a frame of the list is filled in, if a frame is to be had. -/
theorem Misses.getOrAllocTable (h : m.Misses m' l) (ht : t ∈ l)
    (hmiss : (m'.mem t i).getLsbD 0 = false) (flags : Pte) :
    m.Misses (m'.getOrAllocTable t i flags).2 l ∧
      ∀ f, (m'.getOrAllocTable t i flags).1 = some f → f / pageSize ∉ m.pmm.usedSet := by
  rw [getOrAllocTable_of_absent hmiss]
  have hr := pmmAllocFrame_spec h.pmm
  split
  · refine ⟨⟨hr.inv, hr.total_eq.trans h.total_eq, h.used_mono.trans hr.used_mono,
      hr.kernel_eq.trans h.kernel_eq, fun a ha hused j => ?_⟩, fun f hf => nomatch hf⟩
    rw [hr.mem_eq]
    exact h.strip_eq a ha hused j
  · rename_i hnull
    have hfree : m'.pmmAllocFrame.1 / pageSize ∉ m.pmm.usedSet := fun hused =>
      (hr.result.resolve_left fun hc => hnull hc.1).2.2.2.1 (h.used_mono hused)
    refine ⟨⟨hr.inv, hr.total_eq.trans h.total_eq, h.used_mono.trans hr.used_mono,
      hr.kernel_eq.trans h.kernel_eq, fun a ha hused j => ?_⟩, fun f hf => ?_⟩
    · have hat : a ≠ t := fun heq => ha (heq ▸ ht)
      have haf : a ≠ m'.pmmAllocFrame.1 := fun heq => hfree (heq ▸ hused)
      rw [linkTable_mem flags haf fun hc => hat hc.1]
      exact h.strip_eq a ha hused j
    · rw [← Option.some.inj hf]
      exact hfree

end Misses

variable {pdpt : ℕ} {e : Pte}

/-- Mapping a page of a 1 GiB page. -/
theorem InHuge.misses (h : m.InHuge root virt pdpt e) (hpmm : m.pmm.Inv) (phys : ℕ) (flags : Pte) :
    m.Misses (m.vmmMapPage root virt phys flags).2
      (if (m.mem e.addr (pdIdx virt)).has vmmFlagPresent then [(m.mem e.addr (pdIdx virt)).addr]
        else [e.addr]) := by
  rw [h.vmmMapPage, Pte.has_present]
  have hwiden : ∀ l, m.Misses (m.widened root virt pdpt flags) l := fun l =>
    ((Misses.refl hpmm).widen flags).widen flags
  obtain ⟨hpres, haddr⟩ := m.present_widened root virt pdpt flags e.addr (pdIdx virt)
  cases hword : (m.mem e.addr (pdIdx virt)).getLsbD 0 with
  | true =>
    rw [getOrAllocTable_of_present (hpres.trans hword), haddr]
    exact ((hwiden _).widen flags).write (.inl (mem_singleton_self _))
  | false =>
    obtain ⟨hmisses, hfresh⟩ := (hwiden [e.addr]).getOrAllocTable (mem_singleton_self _)
      (hpres.trans hword) flags
    rcases hr : (m.widened root virt pdpt flags).getOrAllocTable e.addr (pdIdx virt) flags with
      ⟨_ | f, m'⟩ <;> rw [hr] at hmisses hfresh
    · exact hmisses
    · exact hmisses.write (.inr (hfresh f rfl))

/-- Mapping a page of a 2 MiB page. -/
theorem InLarge.misses {pd : ℕ} (h : m.InLarge root virt pdpt pd e) (hpmm : m.pmm.Inv) (phys : ℕ)
    (flags : Pte) : m.Misses (m.vmmMapPage root virt phys flags).2 [e.addr] := by
  obtain ⟨hi4, hi3, hi2, hi1⟩ := idx_pageFloor virt
  unfold Vmm.vmmMapPage
  simp only [hi4, hi3, hi2]
  rw [getOrAllocTable_of_present h.root_present, h.pdpt_eq]
  dsimp only
  obtain ⟨hpres3, -, haddr3⟩ := Pte.strip_congr (strip_write_widen (m := m) (t := root)
    (i := pml4Idx virt) flags pdpt (pdptIdx virt))
  rw [getOrAllocTable_of_present (hpres3.trans h.pdpt_present), haddr3, h.pd_eq]
  dsimp only
  obtain ⟨hpres2, haddr2⟩ := m.present_widened root virt pdpt flags pd (pdIdx virt)
  have hlast := getOrAllocTable_of_present (hpres2.trans h.present) flags
  rw [haddr2, ← Pte.addr_strip, h.strip_eq] at hlast
  unfold widened at hlast
  rw [hlast]
  exact ((((Misses.refl hpmm).widen flags).widen flags).widen flags).write
    (.inl (mem_singleton_self _))

/-! ## Mapping in the kernel's tree -/

/-- What mapping a page in the kernel's tree leaves alone: frames in use that are not tables, and the
root where its entry is present. -/
structure KernelMaps (m m' : Vmm) (root virt : ℕ) : Prop where
  tree : m'.Tree root
  kernel_eq : m'.gKernelPml4 = m.gKernelPml4
  kept : ∀ a, FrameAddr a → a / pageSize ∈ m.pmm.usedSet → ¬m.IsTab root a →
    a ∉ m.scribbled root virt →
      a / pageSize ∈ m'.pmm.usedSet ∧ ¬m'.IsTab root a ∧ ∀ j, (m'.mem a j).strip = (m.mem a j).strip
  top_eq : (m.mem root (pml4Idx virt)).getLsbD 0 = true →
    ∀ j, (m'.mem root j).strip = (m.mem root j).strip

theorem Misses.kernelMaps (h : m.Misses m' (m.scribbled root virt)) (htree : m.Tree root)
    (hmiss : ∀ a ∈ m.scribbled root virt, ¬m.IsTab root a) : m.KernelMaps m' root virt := by
  have hstrip : ∀ a, m.IsTab root a → ∀ j, (m'.mem a j).strip = (m.mem a j).strip := by
    rintro a ⟨q, hq, ha⟩
    exact h.strip_eq a (fun hmem => hmiss a hmem ⟨q, hq, ha⟩) (htree.used hq ha).2
  obtain ⟨htree', htab⟩ := htree.congr_strip h.pmm h.total_eq h.used_mono hstrip
  refine ⟨htree', h.kernel_eq, fun a _ hused hnot hfar => ⟨h.used_mono hused, ?_, ?_⟩, fun _ => ?_⟩
  · exact mt (isTab_congr htab a).mp hnot
  · exact h.strip_eq a hfar hused
  · exact hstrip root ⟨[], Nat.zero_le _, rfl⟩

theorem Tree.kernelMaps (h : m.Tree root) (hmiss : ∀ a ∈ m.scribbled root virt, ¬m.IsTab root a)
    (phys : ℕ) (flags : Pte) : m.KernelMaps (m.vmmMapPage root virt phys flags).2 root virt := by
  by_cases hsmall : m.Small root virt
  · have hmaps := h.vmmMapPage hsmall phys flags
    refine ⟨hmaps.touches.tree, hmaps.touches.kernel_eq, fun a haddr hused hnot _ => ?_, hmaps.top_eq⟩
    obtain ⟨hused', hnot'⟩ := hmaps.touches.stays a haddr hused hnot
    exact ⟨hused', hnot', fun j => by rw [hmaps.touches.outside a hnot hnot']⟩
  · rw [Small] at hsmall
    push Not at hsmall
    obtain ⟨⟨k, e⟩, hleaf, hk⟩ := hsmall
    refine Misses.kernelMaps ?_ h hmiss
    rw [scribbled, hleaf]
    obtain ⟨rfl, pdpt, hhuge⟩ | ⟨rfl, pdpt, pd, hlarge⟩ | hc := h.leafOf_cases hleaf
    · exact hhuge.misses h.pmm phys flags
    · exact hlarge.misses h.pmm phys flags
    · exact absurd hc hk

/-- A new root is a fresh frame with the upper half of the kernel's root. -/
theorem vmmCreateAddressSpace_misses (hpmm : m.pmm.Inv) :
    m.Misses m.vmmCreateAddressSpace.2 [] ∧
      (m.vmmCreateAddressSpace.1 ≠ 0 → m.AllocFrame m.pmmAllocFrame ∧
        m.vmmCreateAddressSpace.1 = m.pmmAllocFrame.1 ∧
        m.vmmCreateAddressSpace.2.pmm = m.pmmAllocFrame.2.pmm ∧
        ∀ i : Fin 512, 256 ≤ i.val →
          m.vmmCreateAddressSpace.2.mem m.vmmCreateAddressSpace.1 i = m.mem m.gKernelPml4 i) := by
  have hr := pmmAllocFrame_spec hpmm
  unfold vmmCreateAddressSpace
  dsimp only
  split
  · refine ⟨⟨hr.inv, hr.total_eq, hr.used_mono, hr.kernel_eq, fun a _ _ j => ?_⟩, fun hne => ?_⟩
    · rw [hr.mem_eq]
    · exact absurd rfl hne
  · rename_i hnull
    refine ⟨⟨hr.inv, hr.total_eq, hr.used_mono, hr.kernel_eq, fun a _ hused j => ?_⟩,
      fun _ => ⟨hr, rfl, rfl, fun i hi => ?_⟩⟩
    · have hfree := (hr.result.resolve_left fun hc => hnull hc.1).2.2.2.1
      have hne : a ≠ m.pmmAllocFrame.1 := fun heq => hfree (heq ▸ hused)
      dsimp only
      rw [if_neg hne, hr.mem_eq]
    · dsimp only
      rw [if_pos rfl, if_neg (by omega), hr.mem_eq, hr.kernel_eq]

end

end Vmm

/-! ## Runs -/

/-- The machine with the roots that `vmmCreateAddressSpace` has returned. -/
structure Kernel where
  vmm : Vmm
  roots : List ℕ

/-- The operations on the kernel's mappings. -/
inductive KernelOp where
  | create
  | mapPage (virt phys : ℕ) (flags : Pte)
  | unmapPage (virt : ℕ)

namespace Kernel

/-- One operation; mapping and unmapping are in `gKernelPml4`. -/
def exec (c : Kernel) : KernelOp → Kernel
  | .create =>
    let r := c.vmm.vmmCreateAddressSpace
    ⟨r.2, if r.1 = 0 then c.roots else r.1 :: c.roots⟩
  | .mapPage virt phys flags =>
    { c with vmm := (c.vmm.vmmMapPage c.vmm.gKernelPml4 virt phys flags).2 }
  | .unmapPage virt => { c with vmm := (c.vmm.vmmUnmapPage c.vmm.gKernelPml4 virt).2 }

def run (c : Kernel) (ops : List KernelOp) : Kernel := ops.foldl exec c

/-- An address of the upper half. -/
def KernelHalf (virt : ℕ) : Prop := 256 ≤ (pml4Idx virt).val

instance (virt : ℕ) : Decidable (KernelHalf virt) := inferInstanceAs (Decidable (_ ≤ _))

/-- Mapping goes on in a table that all roots share, or there is no other root; and the contents of a
large page that are taken for a table are neither a table of the kernel nor a root. -/
def Allowed (c : Kernel) : KernelOp → Prop
  | .create => True
  | .mapPage virt _ _ =>
    KernelHalf virt ∧
    ((c.vmm.mem c.vmm.gKernelPml4 (pml4Idx virt)).has vmmFlagPresent = true ∨ c.roots = []) ∧
    ∀ a ∈ c.vmm.scribbled c.vmm.gKernelPml4 virt, ¬c.vmm.IsTab c.vmm.gKernelPml4 a ∧ a ∉ c.roots
  | .unmapPage virt => KernelHalf virt

def AllowedRun (c : Kernel) : List KernelOp → Prop
  | [] => True
  | op :: ops => c.Allowed op ∧ (c.exec op).AllowedRun ops

/-- Every root has the upper half of the kernel's, up to permissions. -/
structure Inv (c : Kernel) : Prop where
  tree : c.vmm.Tree c.vmm.gKernelPml4
  root : ∀ R ∈ c.roots, FrameAddr R ∧ R / pageSize ∈ c.vmm.pmm.usedSet ∧
    ¬c.vmm.IsTab c.vmm.gKernelPml4 R
  upper : ∀ R ∈ c.roots, ∀ i : Fin 512, 256 ≤ i.val →
    (c.vmm.mem R i).strip = (c.vmm.mem c.vmm.gKernelPml4 i).strip

variable {c : Kernel}

theorem Inv.create (h : c.Inv) : (c.exec .create).Inv := by
  obtain ⟨hmisses, hnew⟩ := Vmm.vmmCreateAddressSpace_misses h.tree.pmm
  have hstrip : ∀ a, c.vmm.IsTab c.vmm.gKernelPml4 a → ∀ j,
      (c.vmm.vmmCreateAddressSpace.2.mem a j).strip = (c.vmm.mem a j).strip := by
    rintro a ⟨q, hq, ha⟩
    exact hmisses.strip_eq a (by simp) (h.tree.used hq ha).2
  obtain ⟨htree, htab⟩ := h.tree.congr_strip hmisses.pmm hmisses.total_eq hmisses.used_mono hstrip
  have hisTab := Vmm.isTab_congr htab
  have htop := hstrip c.vmm.gKernelPml4 ⟨[], Nat.zero_le _, rfl⟩
  have hkernel : (c.exec .create).vmm.gKernelPml4 = c.vmm.gKernelPml4 := hmisses.kernel_eq
  -- a root of the new machine is an old one or the frame just handed out
  have hroots : ∀ R ∈ (c.exec .create).roots,
      R ∈ c.roots ∨ R = c.vmm.vmmCreateAddressSpace.1 ∧ c.vmm.vmmCreateAddressSpace.1 ≠ 0 := by
    intro R hR
    simp only [Kernel.exec] at hR
    split at hR
    · exact .inl hR
    · exact (mem_cons.mp hR).elim (fun heq => .inr ⟨heq, ‹_›⟩) .inl
  refine ⟨?_, fun R hR => ?_, fun R hR i hi => ?_⟩
  · rw [hkernel]
    exact htree
  · rw [hkernel]
    obtain hold | ⟨rfl, hne⟩ := hroots R hR
    · obtain ⟨haddr, hused, hnot⟩ := h.root R hold
      exact ⟨haddr, hmisses.used_mono hused, mt (hisTab R).mp hnot⟩
    · obtain ⟨hr, hroot, hpmm, -⟩ := hnew hne
      rw [hroot] at hne ⊢
      obtain ⟨haddr, hfree, -, hused, -⟩ := hr.frameAddr h.tree.total_le hne
      refine ⟨haddr, ?_, fun htable => ?_⟩
      · show _ ∈ c.vmm.vmmCreateAddressSpace.2.pmm.usedSet
        rw [hpmm, hused]
        exact Finset.mem_insert_self _ _
      · obtain ⟨q, hq, hs⟩ := (hisTab _).mp htable
        exact hfree (h.tree.used hq hs).2
  · rw [hkernel]
    refine .trans ?_ (htop i).symm
    obtain hold | ⟨rfl, hne⟩ := hroots R hR
    · exact (hmisses.strip_eq R (by simp) (h.root R hold).2.1 i).trans (h.upper R hold i hi)
    · exact congrArg Pte.strip ((hnew hne).2.2.2 i hi)

variable {virt : ℕ}

theorem Inv.mapPage (h : c.Inv) {phys : ℕ} {flags : Pte}
    (hop : c.Allowed (.mapPage virt phys flags)) : (c.exec (.mapPage virt phys flags)).Inv := by
  obtain ⟨-, htop, hmiss⟩ := hop
  have hmaps := h.tree.kernelMaps (fun a ha => (hmiss a ha).1) phys flags
  have hkept : ∀ R ∈ c.roots, _ := fun R hR =>
    hmaps.kept R (h.root R hR).1 (h.root R hR).2.1 (h.root R hR).2.2 fun hmem => (hmiss R hmem).2 hR
  have hkernel : (c.exec (.mapPage virt phys flags)).vmm.gKernelPml4 = c.vmm.gKernelPml4 :=
    hmaps.kernel_eq
  refine ⟨?_, fun R hR => ?_, fun R hR i hi => ?_⟩
  · rw [hkernel]
    exact hmaps.tree
  · rw [hkernel]
    exact ⟨(h.root R hR).1, (hkept R hR).1, (hkept R hR).2.1⟩
  · rcases htop with hpres | hnone
    · rw [Pte.has_present] at hpres
      rw [hkernel]
      exact ((hkept R hR).2.2 i).trans ((h.upper R hR i hi).trans (hmaps.top_eq hpres i).symm)
    · have hR' : R ∈ c.roots := hR
      rw [hnone] at hR'
      cases hR'

theorem Inv.unmapPage (h : c.Inv) (hhalf : KernelHalf virt) : (c.exec (.unmapPage virt)).Inv := by
  have hunmaps := h.tree.vmmUnmapPage virt
  have hkernel : (c.exec (.unmapPage virt)).vmm.gKernelPml4 = c.vmm.gKernelPml4 :=
    hunmaps.touches.kernel_eq
  have hstays : ∀ R ∈ c.roots, _ := fun R hR =>
    hunmaps.touches.stays R (h.root R hR).1 (h.root R hR).2.1 (h.root R hR).2.2
  refine ⟨?_, fun R hR => ?_, fun R hR i hi => ?_⟩
  · rw [hkernel]
    exact hunmaps.touches.tree
  · rw [hkernel]
    exact ⟨(h.root R hR).1, hstays R hR⟩
  · rw [hkernel]
    show ((c.vmm.vmmUnmapPage c.vmm.gKernelPml4 virt).2.mem R i).strip =
      ((c.vmm.vmmUnmapPage c.vmm.gKernelPml4 virt).2.mem c.vmm.gKernelPml4 i).strip
    rw [hunmaps.top_eq hhalf, hunmaps.touches.outside R (h.root R hR).2.2 (hstays R hR).2]
    exact h.upper R hR i hi

theorem Inv.exec (h : c.Inv) {op : KernelOp} (hop : c.Allowed op) : (c.exec op).Inv := by
  cases op with
  | create => exact h.create
  | mapPage virt phys flags => exact h.mapPage hop
  | unmapPage virt => exact h.unmapPage hop

theorem Inv.run (h : c.Inv) {ops : List KernelOp} (hops : c.AllowedRun ops) : (c.run ops).Inv := by
  induction ops generalizing c with
  | nil => exact h
  | cons op ops ih => exact ih (h.exec hops.1) hops.2

/-- Every live root translates the upper half as the kernel does, after any run of the three operations
in which the kernel maps below present entries of its root. -/
theorem run_translates_alike {m : Vmm} (h : m.Tree m.gKernelPml4) {ops : List KernelOp}
    (hops : (Kernel.mk m []).AllowedRun ops) :
    let c := (Kernel.mk m []).run ops
    ∀ R ∈ c.roots, ∀ virt, KernelHalf virt →
      c.vmm.vmmVirtToPhys R virt = c.vmm.vmmVirtToPhys c.vmm.gKernelPml4 virt := by
  intro c R hR virt hhalf
  have hinit : (Kernel.mk m []).Inv := ⟨h, by simp, by simp⟩
  have hinv : c.Inv := hinit.run hops
  -- the roots agree on the entry up to permissions
  obtain ⟨hpres, -, haddr⟩ := Pte.strip_congr (hinv.upper R hR _ hhalf)
  unfold Vmm.vmmVirtToPhys
  simp only [Pte.has_present, hpres, haddr]

/-- Two address spaces, with a page mapped and unmapped below a present entry of the kernel's root. -/
def sharedOps : List KernelOp :=
  [.create, .mapPage 0xFFFF800040000000 0xE0000000 vmmFlagWritable, .create,
    .mapPage 0xFFFF800040001000 0xE0001000 vmmFlagWritable, .unmapPage 0xFFFF800040000000]

theorem run_translates_alike_shared :
    ((Kernel.mk Vmm.directMapVmm []).run sharedOps).roots = [0x104000, 0x101000] ∧
      ((Kernel.mk Vmm.directMapVmm []).run sharedOps).vmm.vmmVirtToPhys 0x101000
        0xFFFF800040001234 =
      ((Kernel.mk Vmm.directMapVmm []).run sharedOps).vmm.vmmVirtToPhys
        ((Kernel.mk Vmm.directMapVmm []).run sharedOps).vmm.gKernelPml4 0xFFFF800040001234 := by
  refine ⟨by decide +kernel, run_translates_alike Vmm.tree_directMapVmm ?_ 0x101000
    (by decide +kernel) _ (by decide)⟩
  -- no large page is on the way of the two maps
  have hclear : ∀ {c : Kernel} {virt : ℕ}, c.vmm.scribbled c.vmm.gKernelPml4 virt = [] →
      ∀ a ∈ c.vmm.scribbled c.vmm.gKernelPml4 virt,
        ¬c.vmm.IsTab c.vmm.gKernelPml4 a ∧ a ∉ c.roots := by
    intro c virt hnil a ha
    rw [hnil] at ha
    cases ha
  refine ⟨trivial, ⟨by decide, .inl (by decide +kernel), hclear (by decide +kernel)⟩, trivial,
    ⟨by decide, .inl (by decide +kernel), hclear (by decide +kernel)⟩, ?_, trivial⟩
  exact (by decide : KernelHalf 0xFFFF800040000000)

/-- A page mapped below an absent entry of the kernel's root reaches no root made before. -/
theorem mapPage_absent_diverges :
    Vmm.directMapVmm.Tree Vmm.directMapVmm.gKernelPml4 ∧ KernelHalf 0xFFFF900000000000 ∧
      let c := (Kernel.mk Vmm.directMapVmm []).run
        [.create, .mapPage 0xFFFF900000000000 0xE0000000 vmmFlagWritable]
      c.roots = [0x101000] ∧ c.vmm.vmmVirtToPhys c.vmm.gKernelPml4 0xFFFF900000000000 = 0xE0000000 ∧
        c.vmm.vmmVirtToPhys 0x101000 0xFFFF900000000000 = 0 := by
  refine ⟨Vmm.tree_directMapVmm, by decide, ?_⟩
  decide +kernel

end Kernel

end NovaOS.Mem
