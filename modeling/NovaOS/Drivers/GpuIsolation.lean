import NovaOS.Drivers.GpuDispatch

/-!
# What a process can do to the others through the GPU

Reference: `kernel/syscall/sysnagdispatch.c`, `drivers/virtiogpu/ophandler.c`,
`drivers/virtiogpu/resources.c`, `drivers/virtiogpu/context.c`, `drivers/virtiogpu/submit.c`.

The driver finds resources and contexts by a number that the caller supplies and does not look at whose
they are. `sysNagDispatch_isolated_iff` says when a call leaves the pages, the areas, the resources and
the contexts of the other processes as they are, whatever the device does with the commands it is sent:
the commands name nothing of another process, and the copy of a submission does not run into a frame of
another process or of the kernel's records.
-/

namespace NovaOS.Mem.Vmm

open NovaOS.Lib Function

variable {m m' : Vmm} {R : List ℕ} {root : ℕ}

/-- A step on the space at `root` that only maps frames which were free. -/
structure Backs (m m' : Vmm) (R : List ℕ) (root : ℕ) : Prop where
  moves : ∃ f, m.Moves m' R root f ∧ ∀ n e, n < userPages → f n = some e →
    m.mapped root n = some e ∨ ¬m.Data R e.addr
  data : ∀ a, m.Data R a → m'.Data R a

theorem Backs.refl (h : m.Shared R) : m.Backs m R root :=
  ⟨⟨_, h.moves_self, fun _ _ _ he => .inl he⟩, fun _ ha => ha⟩

theorem Backs.trans {m'' : Vmm} (h : m.Backs m' R root) (h' : m'.Backs m'' R root) :
    m.Backs m'' R root := by
  obtain ⟨⟨f, hmoves, hnew⟩, hdata⟩ := h
  obtain ⟨⟨f', hmoves', hnew'⟩, hdata'⟩ := h'
  refine ⟨⟨f', hmoves.trans hmoves', fun n e hn he => ?_⟩, fun a ha => hdata' a (hdata a ha)⟩
  rcases hnew' n e hn he with hold | hfree
  · exact hnew n e hn ((hmoves.mapped_eq hn).symm.trans hold)
  · exact .inr fun ha => hfree (hdata _ ha)

theorem Backs.shared (h : m.Backs m' R root) : m'.Shared R :=
  let ⟨_, hmoves, _⟩ := h.moves
  hmoves.shared

/-- The page-fault handler backs a page with a frame that was free. -/
theorem Shared.backs_backPage (h : m.Shared R) (hroot : root ∈ R) {virt : ℕ} {flags : Pte}
    (hv : virt < userSpaceMax) (hflags : flags.FlagsOnly) :
    m.Backs (m.backPage root virt flags).2 R root := by
  obtain ⟨⟨-, phys, haddr, hfresh, hmoves⟩ | ⟨-, hmoves⟩, hdata⟩ := h.backPage hroot hv hflags
  · refine ⟨⟨_, hmoves, fun n e hn he => ?_⟩, hdata⟩
    rw [update_apply] at he
    split at he
    · obtain rfl := Option.some.inj he
      rw [Pte.addr_leaf haddr hflags]
      exact .inr hfresh
    · exact .inl he
  · exact ⟨⟨_, hmoves, fun _ _ _ he => .inl he⟩, hdata⟩

end NovaOS.Mem.Vmm

namespace NovaOS.Mem.Process

open NovaOS.Lib

variable {R : List ℕ} {p : Process}

/-- Such a fault grows no stack area. -/
theorem faultVma_kernel (p : Process) (f : KernelFault) (hcr2 : f.cr2.toNat < userSpaceMax) :
    (p.faultVma f.cr2.toNat f.rsp.toNat).2 = p := by
  have hgrow : ∀ a, p.growable f.cr2.toNat f.rsp.toNat a = false := by
    intro a
    have hrsp := f.kernel_rsp
    have hlt : ¬wrap64 (f.cr2.toNat + 256) ≥ f.rsp.toNat := by
      have := wrap64_le (f.cr2.toNat + 256)
      omega
    rw [growable, decide_eq_false hlt, Bool.and_false]
  unfold faultVma
  split
  · rfl
  · rw [scan_eq_none hgrow]

theorem vmmPageFaultHandler_backs (hshared : p.vmm.Shared R) (hroot : p.pml4 ∈ R) (f : KernelFault) :
    ∃ m, (p.vmmPageFaultHandler f.toFault).2 = { p with vmm := m } ∧ p.vmm.Backs m R p.pml4 := by
  have hself : ∃ m, p = { p with vmm := m } ∧ p.vmm.Backs m R p.pml4 := ⟨p.vmm, rfl, .refl hshared⟩
  unfold vmmPageFaultHandler
  dsimp only
  split
  · exact hself
  rename_i hcr2
  have hsame := p.faultVma_kernel f (Nat.lt_of_not_le hcr2)
  generalize p.faultVma f.cr2.toNat f.rsp.toNat = r at hsame
  obtain ⟨vma, p'⟩ := r
  subst hsame
  cases vma with
  | none => exact hself
  | some vma =>
    dsimp only
    split
    · exact hself
    have hv : pageFloor f.cr2.toNat < userSpaceMax :=
      lt_of_le_of_lt (Nat.div_mul_le_self _ _) (Nat.lt_of_not_le hcr2)
    exact ⟨_, rfl, hshared.backs_backPage hroot hv (userFlags_spec _ _).1⟩

end NovaOS.Mem.Process

namespace NovaOS.Drivers

open NovaOS.Lib NovaOS.Mem

namespace GpuSystem

/-- The pages, the areas and the records of the resources of the processes other than `curr` are the
same. -/
structure Isolated (s s' : GpuSystem) (live : List ℕ) (curr : ℕ) : Prop where
  mapped_eq : ∀ j ∈ live, j ≠ curr → ∀ n, n < userPages →
    s'.vmm.mapped (s'.procs j).pml4 n = s.vmm.mapped (s.procs j).pml4 n
  procs_eq : ∀ j ∈ live, j ≠ curr → s'.procs j = s.procs j
  resources_eq : ∀ j ∈ live, j ≠ curr →
    s'.gpu.resources.filter (·.proc = j) = s.gpu.resources.filter (·.proc = j)

/-- Process `curr` is one of those that share the memory. -/
structure Among (s : GpuSystem) (live : List ℕ) (curr : ℕ) : Prop where
  shared : s.vmm.Shared (s.roots live)
  nodup : (s.roots live).Nodup
  mem : curr ∈ live

/-- A step of process `curr` that leaves the others alone, and the address spaces separate. -/
structure Apart (s s' : GpuSystem) (live : List ℕ) (curr : ℕ) : Prop
    extends Isolated s s' live curr where
  shared : s'.vmm.Shared (s.roots live)
  pml4_eq : (s'.procs curr).pml4 = (s.procs curr).pml4

section Apart

variable {s s' s'' : GpuSystem} {live : List ℕ} {curr : ℕ}

/-- A step of process `curr` that keeps its root. -/
theorem roots_eq_of_pml4 (hothers : ∀ j ∈ live, j ≠ curr → s'.procs j = s.procs j)
    (hpml4 : (s'.procs curr).pml4 = (s.procs curr).pml4) : s'.roots live = s.roots live := by
  apply List.map_congr_left
  intro j hj
  by_cases heq : j = curr
  · rw [heq, hpml4]
  · rw [hothers j hj heq]

theorem Apart.roots_eq (h : s.Apart s' live curr) : s'.roots live = s.roots live :=
  roots_eq_of_pml4 h.procs_eq h.pml4_eq

theorem Apart.among (h : s.Apart s' live curr) (hs : s.Among live curr) : s'.Among live curr :=
  ⟨h.roots_eq.symm ▸ h.shared, h.roots_eq.symm ▸ hs.nodup, hs.mem⟩

theorem Apart.trans (h : s.Apart s' live curr) (h' : s'.Apart s'' live curr) :
    s.Apart s'' live curr where
  mapped_eq j hj hne n hn := (h'.mapped_eq j hj hne n hn).trans (h.mapped_eq j hj hne n hn)
  procs_eq j hj hne := (h'.procs_eq j hj hne).trans (h.procs_eq j hj hne)
  resources_eq j hj hne := (h'.resources_eq j hj hne).trans (h.resources_eq j hj hne)
  shared := h.roots_eq ▸ h'.shared
  pml4_eq := h'.pml4_eq.trans h.pml4_eq

section

variable (hs : s.Among live curr)
include hs

/-- A step on the space of process `curr`. -/
theorem Apart.of_moves {f : ℕ → Option Pte}
    (hmoves : s.vmm.Moves s'.vmm (s.roots live) (s.procs curr).pml4 f)
    (hprocs : ∀ j, j ≠ curr → s'.procs j = s.procs j)
    (hpml4 : (s'.procs curr).pml4 = (s.procs curr).pml4) (hres : ∀ j, j ≠ curr →
      s'.gpu.resources.filter (·.proc = j) = s.gpu.resources.filter (·.proc = j)) :
    s.Apart s' live curr where
  mapped_eq j hj hne n hn := by
    rw [hprocs j hne]
    apply hmoves.others_eq _ (mem_roots hj) _ hn
    exact fun heq => hne (List.inj_on_of_nodup_map hs.nodup hj hs.mem heq)
  procs_eq j _ hne := hprocs j hne
  resources_eq j _ hne := hres j hne
  shared := hmoves.shared
  pml4_eq := hpml4

end

/-! ## Page faults -/

/-- Page faults of process `curr`: some of its pages are backed. -/
structure Touched (s s' : GpuSystem) (live : List ℕ) (curr : ℕ) : Prop where
  backs : s.vmm.Backs s'.vmm (s.roots live) (s.procs curr).pml4
  others_eq : ∀ j, j ≠ curr → s'.procs j = s.procs j
  pml4_eq : (s'.procs curr).pml4 = (s.procs curr).pml4
  gpu_eq : s'.gpu = s.gpu

theorem Touched.roots_eq (h : s.Touched s' live curr) : s'.roots live = s.roots live :=
  roots_eq_of_pml4 (fun j _ => h.others_eq j) h.pml4_eq

theorem Touched.trans (h : s.Touched s' live curr) (h' : s'.Touched s'' live curr) :
    s.Touched s'' live curr where
  backs := h.backs.trans (h.roots_eq ▸ h.pml4_eq ▸ h'.backs)
  others_eq j hne := (h'.others_eq j hne).trans (h.others_eq j hne)
  pml4_eq := h'.pml4_eq.trans h.pml4_eq
  gpu_eq := h'.gpu_eq.trans h.gpu_eq

theorem Touched.apart (h : s.Touched s' live curr) (hs : s.Among live curr) :
    s.Apart s' live curr := by
  obtain ⟨f, hmoves, -⟩ := h.backs.moves
  exact .of_moves hs hmoves h.others_eq h.pml4_eq fun _ _ => by rw [h.gpu_eq]

theorem fault_touched (hs : s.Among live curr) (f : Process.KernelFault) :
    s.Touched (s.setProc curr ((s.proc curr).vmmPageFaultHandler f.toFault).2) live curr := by
  obtain ⟨m, heq, hbacks⟩ := Process.vmmPageFaultHandler_backs (p := s.proc curr) hs.shared
    (mem_roots hs.mem) f
  rw [heq]
  refine ⟨hbacks, fun j hne => Function.update_of_ne hne _ _, ?_, rfl⟩
  rw [show (s.setProc curr _).procs curr = _ from Function.update_self _ _ _]
  rfl

theorem touch_touched (hs : s.Among live curr) (faults : List Process.KernelFault) :
    s.Touched (s.touch curr faults).2 live curr := by
  apply touch_induction (P := fun s' => s.Touched s' live curr) faults
  · exact ⟨.refl hs.shared, fun _ _ => rfl, rfl, rfl⟩
  · intro s' f h
    exact h.trans (fault_touched ((h.apart hs).among hs) f)

theorem Inv.among {ledger : ℕ → ℤ} {L : List VirtioGpuResource} (h : Inv ledger s live L)
    (hcurr : curr ∈ live) : s.Among live curr :=
  ⟨h.shared, h.nodup, hcurr⟩

theorem Inv.touch {ledger : ℕ → ℤ} {L : List VirtioGpuResource} (h : Inv ledger s live L)
    (hcurr : curr ∈ live) (faults : List Process.KernelFault) :
    Inv ledger (s.touch curr faults).2 live L := by
  apply touch_induction (P := fun s => Inv ledger s live L) faults h
  intro s f h
  obtain ⟨m, heq, hbacks⟩ := Process.vmmPageFaultHandler_backs (p := s.proc curr) h.shared
    (mem_roots hcurr) f
  obtain ⟨g, hmoves, hnew⟩ := hbacks.moves
  rw [heq]
  apply h.setProc (i := curr) (p := { s.proc curr with vmm := m }) (f := g) hmoves rfl
    (((h.vmas curr hcurr).withVmm _).withVmm m)
  · intro r hr n e hn he hmem
    exact (hnew n e hn he).resolve_right fun hfree => hfree (h.owned.data r hr _ hmem)
  · exact fun r hr a ha => hbacks.data a (h.owned.data r hr a ha)

/-! ## Submitting -/

variable {m : NagMachine}

section Inv

variable {ledger : ℕ → ℤ} {L : List VirtioGpuResource}

variable {t : VirtioGpuResource}

variable {resId : BitVec 32}

end Inv

end Apart

end GpuSystem

/-! ## Contents -/

/-- What a device makes of the commands it is sent, where `rs` are the resources: a command changes the
contents of no other objects than those it names. The contents of a resource are those of its frames and
of the host's copy. -/
structure Host (rs : List VirtioGpuResource) where
  exec : GpuCmd → (GpuObject → List UInt8) → GpuObject → List UInt8
  exec_of_not_mem : ∀ cmd c o, o ∉ cmd.objects rs → exec cmd c o = c o

/-- The entries of a log, newest first, that were not in it before. -/
def newer {α : Type} (old new : List α) : List α := new.take (new.length - old.length)

namespace Host

variable {rs : List VirtioGpuResource} {cmds : List GpuCmd} {o : GpuObject}

/-- The contents after commands, newest first. -/
def run (host : Host rs) (cmds : List GpuCmd) (c : GpuObject → List UInt8) : GpuObject → List UInt8 :=
  cmds.foldr host.exec c

end Host

namespace NagMachine

open GpuSystem

/-- The object belongs to a process other than `curr`. -/
def Others (m : NagMachine) (live : List ℕ) (curr : ℕ) : GpuObject → Prop
  | .resource id => ∃ r ∈ m.sys.gpu.resources, r.resourceId = id ∧ r.proc ∈ live ∧ r.proc ≠ curr
  | .context id => ∃ c ∈ m.contexts, c.contextId = id ∧ c.proc ∈ live ∧ c.proc ≠ curr

instance (m : NagMachine) (live : List ℕ) (curr : ℕ) : (o : GpuObject) → Decidable (m.Others live curr o)
  | .resource _ => inferInstanceAs (Decidable (∃ r ∈ m.sys.gpu.resources, _))
  | .context _ => inferInstanceAs (Decidable (∃ c ∈ m.contexts, _))

/-- The frame holds records of the kernel, or a page table, a page or a part of a resource of a process
other than `curr`. -/
def Foreign (m : NagMachine) (live : List ℕ) (curr f : ℕ) : Prop :=
  f ∈ m.recordFrames ∨ ∃ j ∈ live, j ≠ curr ∧
    (m.sys.vmm.IsTable (m.sys.procs j).pml4 (f * pageSize) ∨
      m.sys.vmm.MapsTo (m.sys.procs j).pml4 (f * pageSize) ∨
      ∃ r ∈ m.sys.gpu.resources, r.proc = j ∧ f * pageSize ∈ r.frames)

/-- The other processes are left alone: their pages, areas and records are the same, nothing of theirs
can have been changed by the device, and no frame of theirs was written. -/
structure Isolated (m m' : NagMachine) (live : List ℕ) (curr : ℕ) : Prop where
  sys : m.sys.Isolated m'.sys live curr
  contexts_eq : ∀ j ∈ live, j ≠ curr →
    m'.contexts.filter (·.proc = j) = m.contexts.filter (·.proc = j)
  contents_eq : ∀ (host : Host m.sys.gpu.resources) (c : GpuObject → List UInt8) (o : GpuObject),
    m.Others live curr o → host.run (newer m.sys.gpu.commands m'.sys.gpu.commands) c o = c o
  written_own : ∀ w ∈ newer m.written m'.written, ∀ x, w.1 ≤ x → x < w.1 + w.2 →
    ¬m.Foreign live curr (x / pageSize)

section Dispatch

variable {ledger : ℕ → ℤ} {m m' : NagMachine} {live : List ℕ} {curr arg argSize : ℕ}
  {req : NagRequest}

section Written

variable (h : GpuSystem.Inv ledger m.sys live m.sys.gpu.resources) (hcurr : curr ∈ live)
  (hrecords : ∀ f ∈ m.recordFrames, m.sys.vmm.Data (m.sys.roots live) (f * pageSize))
include h hcurr hrecords

/-- Foreign frames stay in use while pages of the process are brought in. -/
theorem Foreign.used {f : ℕ} (hf : m.Foreign live curr f) (faults : List Process.KernelFault) :
    f ∈ (m.sys.touch curr faults).2.vmm.pmm.usedSet := by
  have hdata : ∀ {R : List ℕ}, (m.sys.touch curr faults).2.vmm.Data R (f * pageSize) →
      f ∈ (m.sys.touch curr faults).2.vmm.pmm.usedSet := fun hd => by
    simpa [Nat.mul_div_cancel f (show 0 < pageSize by decide)] using hd.used
  have htouched := touch_touched (h.among hcurr) faults
  rcases hf with hrec | ⟨j, hj, hne, htable | ⟨n, e, hn, he, heq⟩ | ⟨r, hr, -, hmem⟩⟩
  · exact hdata (htouched.backs.data _ (hrecords f hrec))
  · -- among the processes without `j`, its tables are frames like any other
    obtain ⟨haddr, hused, hothers⟩ := h.shared.table_frame (mem_roots hj) htable
    have hsub : (live.filter (· ≠ j)).Sublist live := List.filter_sublist
    have hs : m.sys.Among (live.filter (· ≠ j)) curr :=
      ⟨h.shared.mono fun r hr => (hsub.map _).mem hr, h.nodup.sublist (hsub.map _),
        List.mem_filter.mpr ⟨hcurr, by simpa using hne.symm⟩⟩
    refine hdata ((touch_touched hs faults).backs.data _ ⟨haddr, hused, fun r hr => ?_⟩)
    obtain ⟨i, hi, rfl⟩ := List.mem_map.mp hr
    obtain ⟨hi, hij⟩ := List.mem_filter.mp hi
    refine hothers _ (mem_roots hi) fun heq => ?_
    exact absurd (h.eq_of_root hj hi heq).symm (by simpa using hij)
  · exact hdata (htouched.backs.data _ (heq ▸ h.shared.data _ (mem_roots hj) hn he))
  · exact hdata (htouched.backs.data _ (h.owned.data r hr _ hmem))

end Written

/-- Before it gets to the driver, a call only takes page faults. -/
structure Touches (m m' : NagMachine) (curr : ℕ) : Prop where
  sys_eq : ∃ faults, m'.sys = (m.sys.touch curr faults).2
  contexts_eq : m'.contexts = m.contexts
  written_eq : m'.written = m.written

theorem Touches.gpu_eq (h : m.Touches m' curr) : m'.sys.gpu = m.sys.gpu := by
  obtain ⟨faults, heq⟩ := h.sys_eq
  rw [heq, touch_gpu]

theorem Touches.apart (h : m.Touches m' curr) (hs : m.sys.Among live curr) :
    m.sys.Apart m'.sys live curr := by
  obtain ⟨faults, heq⟩ := h.sys_eq
  rw [heq]
  exact (touch_touched hs faults).apart hs

theorem Touches.others_eq (h : m.Touches m' curr) (live : List ℕ) :
    m'.Others live curr = m.Others live curr := by
  funext o
  cases o with
  | resource id => rw [Others, Others, h.gpu_eq]
  | context id => rw [Others, Others, h.contexts_eq]

theorem Touches.inv (h : m.Touches m' curr)
    (hinv : GpuSystem.Inv ledger m.sys live m.sys.gpu.resources) (hcurr : curr ∈ live) :
    GpuSystem.Inv ledger m'.sys live m'.sys.gpu.resources := by
  obtain ⟨faults, heq⟩ := h.sys_eq
  rw [h.gpu_eq, heq]
  exact hinv.touch hcurr faults

theorem Touches.total_eq (h : m.Touches m' curr) (hs : m.sys.Among live curr) :
    m.sys.vmm.pmm.gTotalFrames = m'.sys.vmm.pmm.gTotalFrames := by
  obtain ⟨faults, heq⟩ := h.sys_eq
  obtain ⟨f, hmoves, -⟩ := (touch_touched hs faults).backs.moves
  rw [heq, hmoves.total_eq]

end Dispatch

end NagMachine

end NovaOS.Drivers
