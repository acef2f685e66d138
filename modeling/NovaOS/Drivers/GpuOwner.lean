import NovaOS.Drivers.GpuMap

/-!
# Owners of GPU buffers

The frames of a resource are reachable from its record, from the page tables of the process that made
it and through the areas of that process, and each of the three can give them back. `run_owned` says
when the record is the only one that does: buffers are mapped as a whole, no process unmaps a buffer
that is still listed, and none ends while it has one.
-/

namespace NovaOS.Drivers

open NovaOS.Lib NovaOS.Mem List Function

/-- The frames of a resource. -/
def VirtioGpuResource.frames (r : VirtioGpuResource) : List ℕ := frameRun r.physBase r.pageCount

theorem VirtioGpuResource.mem_frames {r : VirtioGpuResource} {a : ℕ} :
    a ∈ r.frames ↔ ∃ k, k < r.pageCount ∧ a = r.physBase + k * pageSize := by
  rw [frames, frameRun, mem_map]
  exact exists_congr fun k => and_congr mem_range eq_comm

namespace GpuSystem

/-- The memory part of `sysExit` in process `i`. The record of the process stays, with its root. -/
def sysExit (s : GpuSystem) (i : ℕ) : GpuSystem :=
  let p := (s.proc i).vmaDestroyAll.2
  s.setProc i { p with vmm := p.vmm.vmmDestroyAddressSpace p.pml4 }

/-- The roots of the processes `live`. -/
def roots (s : GpuSystem) (live : List ℕ) : List ℕ := live.map fun i => (s.procs i).pml4

/-- The frames of the resources `L` belong to these alone: they are in use, no page table and not the
kernel's, in one resource only, and mapped, if at all, at their own page of the buffer. -/
structure Owned (s : GpuSystem) (live : List ℕ) (L : List VirtioGpuResource) : Prop where
  data : ∀ r ∈ L, ∀ a ∈ r.frames, s.vmm.Data (s.roots live) a
  not_kernel : ∀ r ∈ L, ∀ a ∈ r.frames, a ≠ s.vmm.gKernelPml4
  home : ∀ r ∈ L, ∀ i ∈ live, ∀ {n e k}, n < userPages → k < r.pageCount →
    s.vmm.mapped (s.procs i).pml4 n = some e → e.addr = r.physBase + k * pageSize →
      i = r.proc ∧ r.userVirt ≠ 0 ∧ n = r.userVirt / pageSize + k
  disjoint : L.Pairwise fun r r' => ∀ a ∈ r.frames, a ∉ r'.frames

/-- The invariant of the machine; `ledger` is the balance of each frame at the start. -/
structure Inv (ledger : ℕ → ℤ) (s : GpuSystem) (live : List ℕ) (L : List VirtioGpuResource) :
    Prop where
  shared : s.vmm.Shared (s.roots live)
  nodup : (s.roots live).Nodup
  vmas : ∀ i ∈ live, (s.procs i).Ordered
  zero : 0 ∈ s.vmm.pmm.usedSet
  ledger_eq : ∀ a, FrameAddr a → s.vmm.ledger a = ledger a
  owned : s.Owned live L
  alive : ∀ r ∈ L, r.proc ∈ live
  buffer : ∀ r ∈ L, 0 < r.pageCount ∧ r.userVirt % pageSize = 0 ∧
    r.userVirt + r.pageCount * pageSize ≤ userSpaceMax
  cursor : s.gpu.gGpuUserVirtCursor % pageSize = 0 ∧ gpuUserMemBase ≤ s.gpu.gGpuUserVirtCursor

section Inv

variable {ledger : ℕ → ℤ} {s : GpuSystem} {live : List ℕ} {L L1 L2 : List VirtioGpuResource} {i : ℕ}

theorem mem_roots (hi : i ∈ live) : (s.procs i).pml4 ∈ s.roots live := mem_map_of_mem hi

/-- A process is known by its root. -/
theorem Inv.eq_of_root (h : Inv ledger s live L) {j : ℕ} (hi : i ∈ live) (hj : j ∈ live)
    (heq : (s.procs i).pml4 = (s.procs j).pml4) : i = j :=
  inj_on_of_nodup_map h.nodup hi hj heq

/-- Fewer resources. -/
theorem Inv.sublist (h : Inv ledger s live L) {L' : List VirtioGpuResource} (hsub : L'.Sublist L) :
    Inv ledger s live L' :=
  { h with
    owned := ⟨fun r hr => h.owned.data r (hsub.subset hr),
      fun r hr => h.owned.not_kernel r (hsub.subset hr),
      fun r hr => h.owned.home r (hsub.subset hr), h.owned.disjoint.sublist hsub⟩
    alive := fun r hr => h.alive r (hsub.subset hr)
    buffer := fun r hr => h.buffer r (hsub.subset hr) }

/-- The invariant is about memory, the processes and the cursor. -/
theorem Inv.congr (h : Inv ledger s live L) {s' : GpuSystem} (hvmm : s'.vmm = s.vmm)
    (hprocs : s'.procs = s.procs) (hcursor : s'.gpu.gGpuUserVirtCursor % pageSize = 0 ∧
      gpuUserMemBase ≤ s'.gpu.gGpuUserVirtCursor) : Inv ledger s' live L := by
  obtain ⟨vmm, procs, gpu⟩ := s
  subst hvmm hprocs
  exact ⟨h.shared, h.nodup, h.vmas, h.zero, h.ledger_eq, ⟨h.owned.data, h.owned.not_kernel,
    fun r hr => h.owned.home r hr, h.owned.disjoint⟩, h.alive, h.buffer, hcursor⟩

variable {p : Process}

/-- A process that keeps its root. -/
theorem pml4_update {f : ℕ → Process} (hpml4 : p.pml4 = (f i).pml4) (j : ℕ) :
    (update f i p j).pml4 = (f j).pml4 := by
  rw [update_apply]
  split
  · rename_i heq
    rw [hpml4, heq]
  · rfl

/-- A step of process `i` under which pages of buffers are only cleared. -/
theorem Inv.setProc (h : Inv ledger s live L) {f : ℕ → Option Pte}
    (hmoves : s.vmm.Moves p.vmm (s.roots live) (s.procs i).pml4 f)
    (hpml4 : p.pml4 = (s.procs i).pml4) (hord : p.Ordered)
    (hold : ∀ r ∈ L, ∀ n e, n < userPages → f n = some e → e.addr ∈ r.frames →
      s.vmm.mapped (s.procs i).pml4 n = some e)
    (hdata : ∀ r ∈ L, ∀ a ∈ r.frames, p.vmm.Data (s.roots live) a) :
    Inv ledger (s.setProc i p) live L := by
  have hprocs : ∀ j, ((s.setProc i p).procs j).pml4 = (s.procs j).pml4 := pml4_update hpml4
  have hroots : (s.setProc i p).roots live = s.roots live := map_congr_left fun j _ => hprocs j
  refine ⟨hroots ▸ hmoves.shared, hroots ▸ h.nodup, fun j hj => ?_, hmoves.balanced.zero_mono h.zero,
    fun a ha => (hmoves.balanced.ledger_eq h.zero a ha).trans (h.ledger_eq a ha),
    ⟨fun r hr a ha => hroots ▸ hdata r hr a ha, fun r hr a ha => ?_, ?_, h.owned.disjoint⟩, h.alive,
    h.buffer, h.cursor⟩
  · show (update s.procs i p j).Ordered
    rw [update_apply]
    split
    · exact hord
    · exact h.vmas j hj
  · show a ≠ p.vmm.gKernelPml4
    rw [hmoves.kernel_eq]
    exact h.owned.not_kernel r hr a ha
  · intro r hr j hj n e k hn hk he haddr
    refine h.owned.home r hr j hj hn hk ?_ haddr
    rw [hprocs] at he
    by_cases hroot : (s.procs j).pml4 = (s.procs i).pml4
    · rw [hroot] at he ⊢
      rw [show (s.setProc i p).vmm = p.vmm from rfl, hmoves.mapped_eq hn] at he
      exact hold r hr n e hn he (VirtioGpuResource.mem_frames.mpr ⟨k, hk, haddr⟩)
    · exact (hmoves.others_eq _ (mem_roots hj) hroot hn).symm.trans he

/-- A step of the allocator. -/
theorem Inv.withVmm (h : Inv ledger s live L) {m : Vmm}
    (hmoves : ∀ root, s.vmm.Moves m (s.roots live) root (s.vmm.mapped root))
    (hdata : ∀ r ∈ L, ∀ a ∈ r.frames, m.Data (s.roots live) a) :
    Inv ledger { s with vmm := m } live L := by
  have hzero := hmoves 0
  refine ⟨hzero.shared, h.nodup, h.vmas, hzero.balanced.zero_mono h.zero,
    fun a ha => (hzero.balanced.ledger_eq h.zero a ha).trans (h.ledger_eq a ha),
    ⟨hdata, fun r hr a ha heq => h.owned.not_kernel r hr a ha (heq.trans hzero.kernel_eq), ?_,
      h.owned.disjoint⟩, h.alive, h.buffer, h.cursor⟩
  intro r hr j hj n e k hn hk he haddr
  exact h.owned.home r hr j hj hn hk (((hmoves _).mapped_eq hn).symm.trans he) haddr

/-- One resource more. -/
theorem Inv.cons (h : Inv ledger s live L) {r0 : VirtioGpuResource}
    (hdata : ∀ a ∈ r0.frames, s.vmm.Data (s.roots live) a ∧ a ≠ s.vmm.gKernelPml4)
    (hhome : ∀ i ∈ live, ∀ {n e k}, n < userPages → k < r0.pageCount →
      s.vmm.mapped (s.procs i).pml4 n = some e → e.addr = r0.physBase + k * pageSize →
        i = r0.proc ∧ r0.userVirt ≠ 0 ∧ n = r0.userVirt / pageSize + k)
    (hfresh : ∀ r ∈ L, ∀ a ∈ r0.frames, a ∉ r.frames) (halive : r0.proc ∈ live)
    (hbuffer : 0 < r0.pageCount ∧ r0.userVirt % pageSize = 0 ∧
      r0.userVirt + r0.pageCount * pageSize ≤ userSpaceMax) : Inv ledger s live (r0 :: L) := by
  refine { h with
    owned := ⟨?_, ?_, ?_, pairwise_cons.mpr ⟨hfresh, h.owned.disjoint⟩⟩
    alive := forall_mem_cons.mpr ⟨halive, h.alive⟩
    buffer := forall_mem_cons.mpr ⟨hbuffer, h.buffer⟩ }
  · exact forall_mem_cons.mpr ⟨fun a ha => (hdata a ha).1, h.owned.data⟩
  · exact forall_mem_cons.mpr ⟨fun a ha => (hdata a ha).2, h.owned.not_kernel⟩
  · exact forall_mem_cons.mpr ⟨fun i hi => hhome i hi, fun r hr => h.owned.home r hr⟩

/-! ## Destroying a resource -/

variable {t : VirtioGpuResource}

/-- The frames of a resource that no page maps can be given back. -/
theorem Inv.free (h : Inv ledger s live (L1 ++ t :: L2))
    (hun : ∀ i ∈ live, ∀ n e, n < userPages → s.vmm.mapped (s.procs i).pml4 n = some e →
      e.addr ∉ t.frames) :
    Inv ledger { s with vmm := pmmFreeFrames s.vmm t.physBase t.pageCount } live (L1 ++ L2) := by
  have ht : t ∈ L1 ++ t :: L2 := by simp
  have hspare : s.vmm.SpareRun (s.roots live) t.physBase t.pageCount := by
    intro k hk
    have hmem := VirtioGpuResource.mem_frames.mpr ⟨k, hk, rfl⟩
    refine ⟨⟨h.owned.data t ht _ hmem, fun root hroot ⟨n, e, hn, he, heq⟩ => ?_⟩,
      h.owned.not_kernel t ht _ hmem⟩
    obtain ⟨i, hi, rfl⟩ := mem_map.mp hroot
    exact hun i hi n e hn he (heq ▸ hmem)
  obtain ⟨hmoves, hdata⟩ := h.shared.pmmFreeFrames hspare
  have hsub : (L1 ++ L2).Sublist (L1 ++ t :: L2) :=
    (Sublist.refl L1).append (sublist_cons_self t L2)
  refine (h.sublist hsub).withVmm hmoves fun r hr a ha =>
    hdata a (h.owned.data r (hsub.subset hr) a ha) fun hat => ?_
  -- the frames of another resource are others
  obtain ⟨-, hrest, hcross⟩ := pairwise_append.mp h.owned.disjoint
  rcases mem_append.mp hr with hr | hr
  · exact hcross r hr t (.head _) a ha hat
  · exact (pairwise_cons.mp hrest).1 r hr a hat ha

theorem Inv.listed (h : Inv ledger s live L) (ht : t ∈ L) : s.Listed (s.roots live) t :=
  ⟨mem_roots (h.alive t ht), h.vmas _ (h.alive t ht), h.buffer t ht⟩

theorem Inv.unmapBuffer (h : Inv ledger s live L) (ht : t ∈ L) :
    Inv ledger (s.setProc t.proc (s.withoutBuffer t)) live L ∧
      ∀ k, k < t.pageCount →
        (s.withoutBuffer t).vmm.mapped (s.withoutBuffer t).pml4 (t.userVirt / pageSize + k) = none := by
  obtain ⟨-, halign, hmax⟩ := h.buffer t ht
  obtain ⟨hpml4, hord, hmoves, hkept⟩ := (h.listed ht).withoutBuffer_moves h.shared
  refine ⟨h.setProc hmoves hpml4 hord (fun r hr n e hn he _ => ?_) fun r hr a ha =>
    hkept a (h.owned.data r hr a ha), fun k hk => ?_⟩
  · rw [Vmm.cleared] at he
    split at he
    · cases he
    · exact he
  · have hn : t.userVirt / pageSize + k < userPages := by
      have hlt : t.userVirt + k * pageSize < userSpaceMax := by
        rw [pageSize] at *
        omega
      have hpage := page_lt_userPages hlt
      rwa [Vmm.page_add] at hpage
    rw [hpml4, hmoves.mapped_eq hn, Vmm.cleared, if_pos ⟨by omega, by omega⟩]

theorem Inv.releaseResource (h : Inv ledger s live (L1 ++ t :: L2)) :
    Inv ledger (s.releaseResource t) live (L1 ++ L2) := by
  have ht : t ∈ L1 ++ t :: L2 := by simp
  obtain ⟨hpos, halign, hmax⟩ := h.buffer t ht
  have hi := h.alive t ht
  have hroot0 : (s.procs t.proc).pml4 ≠ 0 := h.shared.root_ne_zero (mem_roots hi)
  have hphys : t.physBase ≠ 0 ∧ t.pageCount > 0 := by
    refine ⟨?_, hpos⟩
    have haddr := (h.owned.data t ht _ (VirtioGpuResource.mem_frames.mpr ⟨0, hpos, rfl⟩)).addr.ne_zero
    rwa [zero_mul, add_zero] at haddr
  have hsize := wrap64_of_le_userSpaceMax (a := t.pageCount * pageSize) (by omega)
  unfold GpuSystem.releaseResource
  rw [hsize, if_pos hphys]
  by_cases hmapped : t.userVirt ≠ 0
  · rw [if_pos ⟨hmapped, hroot0⟩]
    obtain ⟨hinv, hnone⟩ := h.unmapBuffer ht
    refine hinv.free fun j hj n e hn he hat => ?_
    obtain ⟨k, hk, haddr⟩ := VirtioGpuResource.mem_frames.mp hat
    obtain ⟨rfl, -, rfl⟩ := hinv.owned.home t ht j hj hn hk he haddr
    rw [show ((s.setProc t.proc _).procs t.proc) = _ from update_self _ _ _] at he
    have hnone := hnone k hk
    exact nomatch hnone.symm.trans he
  · rw [if_neg fun hc => hmapped hc.1]
    refine h.free fun j hj n e hn he hat => ?_
    obtain ⟨k, hk, haddr⟩ := VirtioGpuResource.mem_frames.mp hat
    exact hmapped (h.owned.home t ht j hj hn hk he haddr).2.1

theorem Inv.virtioGpuResourceDestroy (h : Inv ledger s live s.gpu.resources)
    (ctxId resId : BitVec 32) :
    Inv ledger (s.virtioGpuResourceDestroy ctxId resId).2 live
      (s.virtioGpuResourceDestroy ctxId resId).2.gpu.resources := by
  by_cases hnone : resId ≠ 0#32 → s.gpu.resources.find? (fun r => r.resourceId == resId) = none
  · rw [virtioGpuResourceDestroy_absent hnone]
    exact h
  obtain ⟨hne, hsome⟩ := Classical.not_imp.mp hnone
  obtain ⟨t, hfind⟩ := Option.ne_none_iff_exists'.mp hsome
  obtain ⟨hid, L1, L2, hsplit, hbefore⟩ := find?_eq_some_iff_append.mp hfind
  obtain ⟨s1, heq, hvmm, hprocs, hcursor, hres⟩ := destroy_eq ctxId hne hfind
  rw [heq, releaseResource_gpu, hres, hsplit,
    eraseP_append_right _ (fun b hb => by simpa using hbefore b hb), eraseP_cons, hid, cond_true]
  exact (Inv.congr (hsplit ▸ h) hvmm hprocs (hcursor.symm ▸ h.cursor)).releaseResource

/-! ## Making a resource -/

variable {curr : ℕ}

/-- The end of a call that gets as far as mapping, with frames for the tables: the buffer is mapped as a
whole and its record listed. -/
theorem Inv.listResource (h : Inv ledger s live s.gpu.resources) (hcurr : curr ∈ live)
    {phys n : ℕ} (hspare : s.vmm.SpareRun (s.roots live) phys n) (hpos : 0 < n)
    (hfresh : ∀ r ∈ s.gpu.resources, ∀ k, k < n → phys + k * pageSize ∉ r.frames)
    (hfits : s.gpu.gGpuUserVirtCursor + n * pageSize ≤ userSpaceMax)
    (hsupply : Vmm.Supplies (3 * n) s.vmm) (args : NagResourceCreateArgs) (l : Layout)
    (resId : BitVec 32) :
    Inv ledger (s.listResource curr args l resId phys n).2 live
      (s.listResource curr args l resId phys n).2.gpu.resources := by
  obtain ⟨hstart, hbase⟩ := h.cursor
  have hroot := mem_roots (s := s) hcurr
  have hroot0 : (s.proc curr).pml4 ≠ 0 := h.shared.root_ne_zero hroot
  have hsize := wrap64_of_le_userSpaceMax (a := n * pageSize) (by omega)
  obtain ⟨k, q, -, hall, hpml4, hord, hmoves, hkept, hmap⟩ := mapResource_cases
    (p := s.proc curr) h.shared hroot ((h.vmas curr hcurr).withVmm _) hfits hspare
  obtain rfl := hall hsupply
  rw [if_pos rfl] at hmap
  obtain ⟨hvmm, hprocs, hcursor, res, hres, hphys, hcount, hvirt, hproc⟩ :=
    listResource_eq hroot0 args l resId phys k
  rw [hsize, hmap] at hvmm hprocs hvirt
  rw [hsize] at hcursor
  rw [hres]
  set s' := (s.listResource curr args l resId phys k).2
  dsimp only at hvirt
  set start := s.gpu.gGpuUserVirtCursor with hstartdef
  have hcursor' : s'.gpu.gGpuUserVirtCursor % pageSize = 0 ∧
      gpuUserMemBase ≤ s'.gpu.gGpuUserVirtCursor := by
    rw [hcursor, nextGpuCursor, wrap64_of_le_userSpaceMax hfits]
    split
    · exact ⟨by decide, le_rfl⟩
    · refine ⟨?_, by omega⟩
      rw [pageSize] at *
      omega
  have hleaf : ∀ j, j < k → (Pte.leaf (phys + j * pageSize) gpuPteFlags).addr = phys + j * pageSize :=
    fun j hj => Pte.addr_leaf (hspare j hj).1.data.addr (by decide)
  -- the records that were there
  have hold : Inv ledger s' live s.gpu.resources := by
    refine (h.setProc (i := curr) hmoves hpml4 hord (fun r hr i e _ he hmem => ?_) fun r hr a ha =>
      hkept a (h.owned.data r hr a ha)).congr hvmm hprocs hcursor'
    rw [Vmm.withRun] at he
    split at he
    · obtain rfl := Option.some.inj he
      rw [hleaf _ (by omega)] at hmem
      exact absurd hmem (hfresh r hr _ (by omega))
    · exact he
  have hpml4s : ∀ j, (s'.procs j).pml4 = (s.procs j).pml4 := by
    intro j
    rw [hprocs]
    exact pml4_update (f := s.procs) hpml4 j
  have hroots : s'.roots live = s.roots live := map_congr_left fun j _ => hpml4s j
  have hrun : ∀ a ∈ res.frames, ∃ j, j < k ∧ a = phys + j * pageSize := by
    intro a ha
    rw [VirtioGpuResource.mem_frames, hcount, hphys] at ha
    exact ha
  refine hold.cons (fun a ha => ?_) (fun i hi n e j hn hj he haddr => ?_) (fun r hr a ha => ?_)
    (hproc ▸ hcurr) ?_
  · obtain ⟨j, hj, rfl⟩ := hrun a ha
    rw [hroots, hvmm]
    exact ⟨hkept _ (hspare j hj).1.data, fun heq => (hspare j hj).2 (heq.trans hmoves.kernel_eq)⟩
  · rw [hcount] at hj
    rw [hphys] at haddr
    rw [hproc, hvirt]
    rw [hvmm, hpml4s] at he
    -- a page that maps a frame of the buffer was mapped by this call
    have hnew : ∀ root ∈ s.roots live, s.vmm.mapped root n ≠ some e := fun root hroot hmapped =>
      (hspare j hj).1.unmapped root hroot ⟨n, e, hn, hmapped, haddr⟩
    by_cases heq : (s.procs i).pml4 = (s.procs curr).pml4
    swap
    · exact absurd ((hmoves.others_eq _ (mem_roots hi) heq hn).symm.trans he) (hnew _ (mem_roots hi))
    rw [heq, show (s.procs curr).pml4 = (s.proc curr).pml4 from rfl, hmoves.mapped_eq hn,
      Vmm.withRun] at he
    split at he
    swap
    · exact absurd he (hnew _ hroot)
    obtain rfl := Option.some.inj he
    rw [hleaf _ (by omega)] at haddr
    have hj' : n - start / pageSize = j := by
      rw [pageSize] at *
      omega
    exact ⟨h.eq_of_root hi hcurr heq, (lt_of_lt_of_le (by decide) hbase).ne', by omega⟩
  · obtain ⟨j, hj, rfl⟩ := hrun a ha
    exact hfresh r hr j hj
  · rw [hcount, hvirt]
    exact ⟨hpos, hstart, hfits⟩

/-- Taking frames. -/
theorem Inv.takeFrames (h : Inv ledger s live L) (n : ℕ) :
    Inv ledger { s with vmm := (pmmAllocFrames s.vmm n).2 } live L :=
  h.withVmm (h.shared.pmmAllocFrames n).1 fun r hr a ha =>
    (h.shared.pmmAllocFrames n).2.1 a (h.owned.data r hr a ha)

theorem Inv.quiet {s1 : GpuSystem} (h : Inv ledger s live s.gpu.resources) (hq : s.Quiet s1) :
    Inv ledger s1 live s1.gpu.resources :=
  hq.resources_eq ▸ h.congr hq.vmm_eq hq.procs_eq (hq.cursor_eq.symm ▸ h.cursor)

theorem Inv.virtioGpuResourceCreate (h : Inv ledger s live s.gpu.resources) (hcurr : curr ∈ live)
    {args : NagResourceCreateArgs} (hmaps : ∀ n, s.pagesToMap args = some n →
      s.gpu.gGpuUserVirtCursor + n * pageSize ≤ userSpaceMax ∧
        Vmm.Supplies (3 * n) (pmmAllocFrames s.vmm n).2) :
    Inv ledger (s.virtioGpuResourceCreate curr args).2 live
      (s.virtioGpuResourceCreate curr args).2.gpu.resources := by
  have hfresh : ∀ n, (pmmAllocFrames s.vmm n).1 ≠ 0 → ∀ r ∈ s.gpu.resources, ∀ k, k < n →
      (pmmAllocFrames s.vmm n).1 + k * pageSize ∉ r.frames := fun n hne r hr k hk hmem =>
    ((h.shared.pmmAllocFrames n).2.2 hne).2 k hk (h.owned.data r hr _ hmem)
  have hcases := create_cases s curr args
  generalize s.virtioGpuResourceCreate curr args = r at hcases
  cases hcases with
  | refused _ => exact h
  | noFrames n _ => exact h.takeFrames n
  | rejected n s1 _ hne hq =>
    obtain ⟨hmoves, hdata, hspare⟩ := h.shared.pmmAllocFrames n
    obtain ⟨hfree, hkept⟩ := (hmoves 0).shared.pmmFreeFrames (hspare hne).1
    have hstep := h.withVmm (fun root => (hmoves root).trans_self (hfree root)) fun r hr a ha =>
      hkept a (hdata a (h.owned.data r hr a ha)) fun hmem => by
        obtain ⟨k, hk, rfl⟩ := mem_map.mp hmem
        exact hfresh n hne r hr k (mem_range.mp hk) ha
    refine hq.resources_eq ▸ hstep.congr ?_ hq.procs_eq (hq.cursor_eq.symm ▸ h.cursor)
    exact congrArg (pmmFreeFrames · (pmmAllocFrames s.vmm n).1 n) hq.vmm_eq
  | noRecord n s1 _ _ hq => exact ((h.takeFrames n).quiet hq).virtioGpuResourceDestroy _ _
  | listed n s1 l resId hn hne hq =>
    obtain ⟨hfits, hsupply⟩ := hmaps n hn
    have hroots : s1.roots live = s.roots live := by rw [roots, hq.procs_eq, roots]
    refine ((h.takeFrames n).quiet hq).listResource hcurr ?_ (pos_of_pmmAllocFrames hne) ?_ ?_ ?_ args l resId
    · rw [hroots, hq.vmm_eq]
      exact ((h.shared.pmmAllocFrames n).2.2 hne).1
    · rw [hq.resources_eq]
      exact hfresh n hne
    · rw [hq.cursor_eq]
      exact hfits
    · rw [hq.vmm_eq]
      exact hsupply

/-! ## The calls of a process -/

/-- What `sysMunmap` does to the pages: some in its range are cleared. -/
theorem sysMunmap_moves (hshared : p.vmm.Shared R) (hroot : p.pml4 ∈ R) (hvmas : p.Ordered)
    (addr length : ℕ) :
    (Syscall.sysMunmap p addr length).2.pml4 = p.pml4 ∧
      ∃ f, p.vmm.Moves (Syscall.sysMunmap p addr length).2.vmm R p.pml4 f ∧
        (∀ n e, f n = some e → p.vmm.mapped p.pml4 n = some e) ∧
        p.vmm.Keeps (Syscall.sysMunmap p addr length).2.vmm R p.pml4 fun n =>
          addr ≤ n * pageSize ∧ n * pageSize < addr + pageCeil length := by
  have hself : ∃ f, p.vmm.Moves p.vmm R p.pml4 f ∧
      (∀ n e, f n = some e → p.vmm.mapped p.pml4 n = some e) ∧
      p.vmm.Keeps p.vmm R p.pml4 fun n =>
        addr ≤ n * pageSize ∧ n * pageSize < addr + pageCeil length :=
    ⟨_, hshared.moves_self, fun _ _ he => he, .refl _⟩
  unfold Syscall.sysMunmap
  dsimp only
  split
  · exact ⟨rfl, hself⟩
  have halign : addr % pageSize = 0 := by omega
  split
  · exact ⟨rfl, hself⟩
  split
  · exact ⟨rfl, hself⟩
  by_cases hzero : pageCeil length = 0
  · rw [Process.vmaDestroy, if_pos hzero]
    exact ⟨rfl, hself⟩
  obtain ⟨L, hview, hL⟩ := hvmas
  obtain ⟨hres, -, hpost⟩ := hview.vmaDestroy addr hzero
  have hlen := Syscall.pageCeil_mod length
  rw [Syscall.pageFloor_of_aligned halign, Syscall.pageFloor_range halign hlen] at hpost
  have hend : wrap64 (addr + pageCeil length) % pageSize = 0 := by
    rw [← Syscall.pageFloor_range halign hlen]
    exact Area.pageFloor_mod _
  obtain ⟨hmoves, hkeeps⟩ := hshared.releaseAll hroot hL.valid halign hend
  rw [← hpost.vmm_eq] at hmoves hkeeps
  generalize p.vmaDestroy addr (pageCeil length) = r at hres hpost hmoves hkeeps
  obtain ⟨res, q⟩ := r
  obtain rfl : res = 0 := hres
  refine ⟨hpost.pml4_eq, _, hmoves, fun n e he => ?_, hkeeps.mono fun n hn => ⟨hn.2.1, ?_⟩⟩
  · split at he
    · cases he
    · exact he
  · exact lt_of_lt_of_le hn.2.2 (wrap64_le _)

theorem Inv.sysMunmap (h : Inv ledger s live L) (hi : i ∈ live) {addr length : ℕ}
    (hforwards : Syscall.MunmapForwards (s.proc i) addr length)
    (hapart : ∀ r ∈ L, r.proc = i → r.userVirt ≠ 0 → addr + pageCeil length ≤ r.userVirt ∨
      r.userVirt + r.pageCount * pageSize ≤ addr) :
    Inv ledger (s.setProc i (Syscall.sysMunmap (s.proc i) addr length).2) live L := by
  have hord : (s.proc i).Ordered := (h.vmas i hi).withVmm _
  obtain ⟨hpml4, f, hmoves, hold, hkeeps⟩ := sysMunmap_moves (p := s.proc i) h.shared
    (mem_roots hi) hord addr length
  refine h.setProc hmoves hpml4 (Syscall.sysMunmap_ordered hord hforwards)
    (fun r hr n e _ he _ => hold n e he) fun r hr a ha =>
      hkeeps a (h.owned.data r hr a ha) fun n e hn hP he heq => ?_
  -- a frame of a buffer in the range would be at its page of the buffer
  obtain ⟨k, hk, rfl⟩ := VirtioGpuResource.mem_frames.mp ha
  obtain ⟨hproc, hvirt, rfl⟩ := h.owned.home r hr i hi hn hk he heq
  have hbuffer := (h.buffer r hr).2.1
  have hout := hapart r hr hproc.symm hvirt
  rw [pageSize] at *
  omega

theorem Inv.sysExit (h : Inv ledger s live L) (hi : i ∈ live) (hnone : ∀ r ∈ L, r.proc ≠ i) :
    Inv ledger (s.sysExit i) (live.erase i) L := by
  have hperm : (s.roots live).Perm ((s.procs i).pml4 :: s.roots (live.erase i)) :=
    (perm_cons_erase hi).map _
  obtain ⟨hnot, hnodup⟩ := nodup_cons.mp (hperm.nodup_iff.mp h.nodup)
  have hshared : s.vmm.Shared ((s.procs i).pml4 :: s.roots (live.erase i)) :=
    h.shared.mono fun r hr => hperm.mem_iff.mpr hr
  obtain ⟨hmoves, hused, -⟩ := hshared.vmmDestroyAddressSpace hnot
  have hlive : live.Nodup := Nodup.of_map _ h.nodup
  have hothers : ∀ j ∈ live.erase i, j ∈ live ∧ (s.sysExit i).procs j = s.procs j := by
    intro j hj
    obtain ⟨hne, hj⟩ := hlive.mem_erase_iff.mp hj
    exact ⟨hj, update_of_ne hne _ _⟩
  have hvmm : (s.sysExit i).vmm = s.vmm.vmmDestroyAddressSpace (s.procs i).pml4 := rfl
  have hroots : (s.sysExit i).roots (live.erase i) = s.roots (live.erase i) :=
    map_congr_left fun j hj => by rw [(hothers j hj).2]
  have hmem : (s.vmm.vmmDestroyAddressSpace (s.procs i).pml4).mem = s.vmm.mem := by
    rw [Vmm.vmmDestroyAddressSpace_eq (hshared.root_ne_zero (.head _))
      (hshared.ne_kernel (.head _)), Vmm.freeAll_mem]
  refine ⟨?_, hroots ▸ hnodup, fun j hj => (hothers j hj).2 ▸ h.vmas j (hothers j hj).1,
    hvmm ▸ hmoves.balanced.zero_mono h.zero, fun a ha => ?_, ⟨fun r hr a ha => ?_,
    fun r hr a ha heq => ?_, fun r hr j hj n e k hn hk he haddr => ?_, h.owned.disjoint⟩,
    fun r hr => ?_, h.buffer, h.cursor⟩
  · rw [hroots]
    exact hmoves.shared
  · exact (hmoves.balanced.ledger_eq h.zero a ha).trans (h.ledger_eq a ha)
  · -- the process that ends has no page of a buffer
    have hd := h.owned.data r hr a ha
    have hd' : s.vmm.Data (s.roots (live.erase i)) a := ⟨hd.addr, hd.used, fun root hroot =>
      hd.not_table root (hperm.mem_iff.mpr (.tail _ hroot))⟩
    rw [hroots]
    refine hd'.of_pmm hmem ((hused a hd.addr).mpr ⟨hd.used, hd.not_table _ (mem_roots hi), ?_⟩)
    rintro ⟨n, e, hn, he, rfl⟩
    obtain ⟨k, hk, haddr⟩ := VirtioGpuResource.mem_frames.mp ha
    exact hnone r hr (h.owned.home r hr i hi hn hk he haddr).1.symm
  · rw [hvmm, hmoves.kernel_eq] at heq
    exact h.owned.not_kernel r hr a ha heq
  · obtain ⟨hj', hprocs⟩ := hothers j hj
    rw [hprocs, hvmm, hmoves.others_eq _ (mem_map_of_mem hj) (fun heq =>
      hnot (heq ▸ mem_map_of_mem hj)) hn] at he
    exact h.owned.home r hr j hj' hn hk he haddr
  · exact hlive.mem_erase_iff.mpr ⟨hnone r hr, h.alive r hr⟩

end Inv

end GpuSystem

/-! ## Runs -/

/-- The operations on resources, and those that give pages back. -/
inductive GpuOp where
  | create (curr : ℕ) (args : NagResourceCreateArgs)
  | destroy (ctxId resId : BitVec 32)
  | munmap (curr : ℕ) (addr length : BitVec 64)
  | exit (curr : ℕ)

/-- The machine and its running processes. -/
structure GpuClient where
  sys : GpuSystem
  live : List ℕ

namespace GpuClient

def step (c : GpuClient) : GpuOp → GpuClient
  | .create curr args => { c with sys := (c.sys.virtioGpuResourceCreate curr args).2 }
  | .destroy ctxId resId => { c with sys := (c.sys.virtioGpuResourceDestroy ctxId resId).2 }
  | .munmap curr addr length => { c with
      sys := c.sys.setProc curr (Syscall.sysMunmap (c.sys.proc curr) addr.toNat length.toNat).2 }
  | .exit curr => { sys := c.sys.sysExit curr, live := c.live.erase curr }

def run (c : GpuClient) (ops : List GpuOp) : GpuClient := ops.foldl step c

/-- When an operation of a running process keeps the frames of resources with their records: a buffer
is in user space and there are frames for its tables, `sysMunmap` does not wrap around and is of no
buffer, and a process that ends has none. -/
def Allowed (c : GpuClient) : GpuOp → Prop
  | .create curr args => curr ∈ c.live ∧ ∀ n, c.sys.pagesToMap args = some n →
      c.sys.gpu.gGpuUserVirtCursor + n * pageSize ≤ userSpaceMax ∧
        Vmm.Supplies (3 * n) (pmmAllocFrames c.sys.vmm n).2
  | .destroy _ _ => True
  | .munmap curr addr length => curr ∈ c.live ∧
      Syscall.MunmapForwards (c.sys.proc curr) addr.toNat length.toNat ∧
      ∀ r ∈ c.sys.gpu.resources, r.proc = curr → r.userVirt ≠ 0 →
        addr.toNat + pageCeil length.toNat ≤ r.userVirt ∨
          r.userVirt + r.pageCount * pageSize ≤ addr.toNat
  | .exit curr => curr ∈ c.live ∧ ∀ r ∈ c.sys.gpu.resources, r.proc ≠ curr

def AllowedRun (c : GpuClient) : List GpuOp → Prop
  | [] => True
  | op :: ops => c.Allowed op ∧ (c.step op).AllowedRun ops

/-- A machine without resources, whose running processes have address spaces of their own. -/
structure Ready (c : GpuClient) : Prop where
  shared : c.sys.vmm.Shared (c.sys.roots c.live)
  nodup : (c.sys.roots c.live).Nodup
  vmas : ∀ i ∈ c.live, (c.sys.procs i).VmaListOk
  zero : 0 ∈ c.sys.vmm.pmm.usedSet
  resources : c.sys.gpu.resources = []
  cursor : c.sys.gpu.gGpuUserVirtCursor = gpuUserMemBase

/-- The invariant of `GpuSystem`, for the resources that are listed. -/
def Inv (ledger : ℕ → ℤ) (c : GpuClient) : Prop :=
  GpuSystem.Inv ledger c.sys c.live c.sys.gpu.resources

section Run

variable {ledger : ℕ → ℤ} {c : GpuClient}

theorem Ready.inv (h : c.Ready) : Inv c.sys.vmm.ledger c := by
  have hnone : ∀ r, r ∉ c.sys.gpu.resources := by
    rw [h.resources]
    exact fun _ => not_mem_nil
  refine ⟨h.shared, h.nodup, fun i hi => Process.vmaListOk_iff.mp (h.vmas i hi), h.zero,
    fun _ _ => rfl, ⟨fun r hr => absurd hr (hnone r), fun r hr => absurd hr (hnone r),
      fun r hr => absurd hr (hnone r), ?_⟩, fun r hr => absurd hr (hnone r),
    fun r hr => absurd hr (hnone r), ?_⟩
  · rw [h.resources]
    exact Pairwise.nil
  · rw [h.cursor]
    exact ⟨by decide, le_rfl⟩

theorem Inv.step (h : Inv ledger c) {op : GpuOp} (hop : c.Allowed op) : Inv ledger (c.step op) := by
  cases op with
  | create curr args => exact h.virtioGpuResourceCreate hop.1 hop.2
  | destroy ctxId resId => exact h.virtioGpuResourceDestroy ctxId resId
  | munmap curr addr length => exact h.sysMunmap hop.1 hop.2.1 hop.2.2
  | exit curr => exact h.sysExit hop.1 hop.2

theorem Inv.run (h : Inv ledger c) {ops : List GpuOp} (hops : c.AllowedRun ops) :
    Inv ledger (c.run ops) := by
  induction ops generalizing c with
  | nil => exact h
  | cons op ops ih => exact ih (h.step hops.1) hops.2

end Run

/-- Along every run of allowed operations, the frames of the listed resources are in use and belong to
these alone, and no frame is given back that is not in use. -/
theorem run_owned {c : GpuClient} (h : c.Ready) {ops : List GpuOp} (hops : c.AllowedRun ops) :
    (c.run ops).sys.Owned (c.run ops).live (c.run ops).sys.gpu.resources ∧
      ∀ a, FrameAddr a → (c.run ops).sys.vmm.ledger a = c.sys.vmm.ledger a :=
  ⟨(h.inv.run hops).owned, (h.inv.run hops).ledger_eq⟩

/-- One process and a device that accepts every command. -/
def fresh : GpuClient := ⟨GpuSystem.freshSystem, [0]⟩

theorem fresh_ready : fresh.Ready where
  shared := by
    have hshared := SpaceClient.smallSpace_shared.1
    rw [← GpuSystem.freshSystem_vmm] at hshared
    exact hshared
  nodup := nodup_singleton _
  vmas := fun _ _ =>
    Process.vmaListOk_iff.mpr ⟨[], ⟨[], ⟨DList.nil, by simp⟩, rfl⟩, Area.Ordered.nil⟩
  zero := by
    decide +kernel
  resources := rfl
  cursor := rfl

/-- A buffer is made and destroyed, and the process ends. -/
def freshOps : List GpuOp := [.create 0 GpuSystem.smallBuffer, .destroy 0 1, .exit 0]

theorem fresh_allowedRun : fresh.AllowedRun freshOps := by
  refine ⟨⟨mem_singleton_self 0, ?_⟩, trivial, ⟨mem_singleton_self 0, ?_⟩, trivial⟩
  · show ∀ n ∈ GpuSystem.freshSystem.pagesToMap GpuSystem.smallBuffer, _
    decide +kernel
  · have hnone : ((fresh.step (.create 0 GpuSystem.smallBuffer)).step (.destroy 0 1)).sys.gpu.resources =
        [] := by decide +kernel
    rw [hnone]
    simp

theorem run_owned_freshOps :
    (fresh.step (.create 0 GpuSystem.smallBuffer)).sys.gpu.resources.map (·.frames) = [[0x102000]] ∧
      (fresh.run freshOps).sys.vmm.freed.count 0x102000 = 1 ∧
      (fresh.run freshOps).sys.vmm.ledger 0x102000 = fresh.sys.vmm.ledger 0x102000 :=
  ⟨by decide +kernel, by decide +kernel,
    (run_owned fresh_ready fresh_allowedRun).2 0x102000 (by decide)⟩

/-- The buffer is unmapped with `sysMunmap` while it is listed. -/
def unmapped : GpuClient :=
  fresh.run [.create 0 GpuSystem.smallBuffer, .munmap 0 0x600000000000 4096]

/-- A buffer of two pages for which the second page finds no frame for its table. -/
def cutShort : GpuClient :=
  { fresh with sys := { GpuSystem.freshSystem with
      vmm := { GpuSystem.freshSystem.vmm with denials := [false, false, false, true] }
      gpu := { GpuSystem.freshSystem.gpu with gGpuUserVirtCursor := 0x6000001FF000 } } }
    |>.step (.create 0 { GpuSystem.smallBuffer with width := 8192 })

/-- `sysMunmap` frees the frame of a listed resource, and destroying the resource frees it again; a
`vmm_map_range` that fails after a page leaves the frame of that page free and listed. -/
theorem listed_frame_freed :
    unmapped.sys.gpu.resources.map (·.frames) = [[0x102000]] ∧
      0x102000 / pageSize ∉ unmapped.sys.vmm.pmm.usedSet ∧
      (unmapped.step (.destroy 0 1)).sys.vmm.freed.count 0x102000 = 2 ∧
      (unmapped.step (.destroy 0 1)).sys.vmm.allocated.count 0x102000 = 1 ∧
      cutShort.sys.gpu.resources.map (·.frames) = [[0x102000, 0x103000]] ∧
      0x102000 / pageSize ∉ cutShort.sys.vmm.pmm.usedSet ∧
      ¬unmapped.sys.Owned unmapped.live unmapped.sys.gpu.resources := by
  have hlisted : unmapped.sys.gpu.resources.map (·.frames) = [[0x102000]] := by decide +kernel
  have hfree : 0x102000 / pageSize ∉ unmapped.sys.vmm.pmm.usedSet := by decide +kernel
  refine ⟨hlisted, hfree, by decide +kernel, by decide +kernel, by decide +kernel,
    by decide +kernel, fun howned => ?_⟩
  obtain ⟨r, hr, hframes⟩ : ∃ r ∈ unmapped.sys.gpu.resources, r.frames = [0x102000] :=
    mem_map.mp (by rw [hlisted]; exact mem_singleton_self _)
  exact hfree (howned.data r hr 0x102000 (by rw [hframes]; exact mem_singleton_self _)).used

end GpuClient

end NovaOS.Drivers
