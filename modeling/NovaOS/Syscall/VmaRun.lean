import NovaOS.Mem.VmaInv
import NovaOS.Mem.VmmRefine
import NovaOS.Syscall.Mmap

/-!
# Runs over the list of areas

A process makes mapping system calls with arbitrary arguments, the kernel creates areas for it, and it
takes page faults anywhere. The list of areas stays well formed along every run in which no `sysMunmap`
wraps around the address space onto an area and no stack grows over another area. `sysMmap` needs no
such condition: a fixed mapping that wraps starts above user space.
-/

namespace NovaOS.Syscall

open NovaOS.Lib NovaOS.Mem

/-! ## The system calls -/

section Calls

variable {p : Process}

/-- The end that `vmaDestroy` computes for a page-aligned range. -/
theorem pageFloor_range {start len : ℕ} (hs : start % pageSize = 0) (hl : len % pageSize = 0) :
    pageFloor (wrap64 (start + len + (pageSize - 1))) = wrap64 (start + len) := by
  simp only [pageFloor, wrap64, pageSize] at *
  omega

theorem pageFloor_of_aligned {x : ℕ} (h : x % pageSize = 0) : pageFloor x = x :=
  Nat.div_mul_cancel (Nat.dvd_of_mod_eq_zero h)

theorem pageCeil_mod (x : ℕ) : pageCeil x % pageSize = 0 := Area.pageFloor_mod _

/-- A range no longer than user space does not wrap onto an area: an area that meets it lies below
`USER_SPACE_MAX`, so the range starts there too. -/
theorem forwards_of_short (h : p.Ordered) (start : ℕ) {size : ℕ} (hsize : size ≤ userSpaceMax) :
    p.Forwards (pageFloor start) (pageFloor (wrap64 (start + size + (pageSize - 1)))) := by
  obtain ⟨L, hview, hL⟩ := h
  intro A hA hmeet
  rw [hview.areas_vmas] at hA
  have hle := (hL.valid A hA).le_max
  have hlt : pageFloor start < A.stop := hmeet.1
  simp only [pageFloor, wrap64, pageSize, userSpaceMax] at *
  omega

theorem mmapAt_ordered (h : p.Ordered) (target : ℕ) {alignedLen : ℕ} (prot flags : BitVec 32)
    (hlen : alignedLen ≤ userSpaceMax) : (mmapAt p target alignedLen prot flags).2.Ordered := by
  unfold mmapAt
  have hcreate := h.vmaCreate target alignedLen (mmapVmaFlags prot flags)
  generalize p.vmaCreate target alignedLen (mmapVmaFlags prot flags) = r at hcreate
  obtain ⟨vma, p'⟩ := r
  cases vma with
  | none => exact hcreate
  | some vma =>
    dsimp only
    split
    · exact hcreate
    split
    · exact hcreate.withVmm _
    · have hfail := hcreate.withVmm
      exact (hfail _).vmaDestroy (forwards_of_short (hfail _) target hlen)

/-- `sysMmap` keeps the list well formed, whatever its arguments. -/
theorem sysMmap_ordered (h : p.Ordered) (addr length : ℕ) (prot flags : BitVec 32)
    (fd offset : ℤ) : (sysMmap p addr length prot flags fd offset).2.Ordered := by
  unfold sysMmap
  dsimp only
  split
  · exact h
  split
  · exact h
  split
  · exact h
  have hlen : pageCeil length ≤ userSpaceMax := by
    omega
  split
  · exact h
  split
  · split
    · exact h
    · exact mmapAt_ordered (h.vmaDestroy (forwards_of_short h _ hlen)) _ prot flags hlen
  · split
    · exact h
    · exact mmapAt_ordered h _ prot flags hlen

/-- The range of a `sysMunmap` that gets past its checks does not wrap around onto an area. -/
def MunmapForwards (p : Process) (addr length : ℕ) : Prop :=
  addr % pageSize = 0 → wrap64 (addr + pageCeil length) ≤ userSpaceMax →
    p.Forwards addr (wrap64 (addr + pageCeil length))

instance (addr length : ℕ) : Decidable (MunmapForwards p addr length) :=
  inferInstanceAs (Decidable (_ → _ → _))

theorem sysMunmap_ordered (h : p.Ordered) {addr length : ℕ}
    (hforwards : MunmapForwards p addr length) : (sysMunmap p addr length).2.Ordered := by
  unfold sysMunmap
  dsimp only
  split
  · exact h
  have haddr : addr % pageSize = 0 := by omega
  split
  · exact h
  split
  · exact h
  rename_i hmax
  have hf := hforwards haddr (Nat.le_of_not_lt hmax)
  have hdestroy : (p.vmaDestroy addr (pageCeil length)).2.Ordered := by
    refine h.vmaDestroy ?_
    rwa [pageFloor_range haddr (pageCeil_mod _), pageFloor_of_aligned haddr]
  generalize p.vmaDestroy addr (pageCeil length) = r at hdestroy
  split <;> exact hdestroy

end Calls

/-! ## Runs -/

/-- What can happen to the list of areas of a process. -/
inductive VmaOp where
  | mmap (addr length : BitVec 64) (prot flags : BitVec 32) (fd offset : ℤ)
  | munmap (addr length : BitVec 64)
  | create (start size : BitVec 64) (flags : VmaFlags)
  | fault (f : Process.Fault)

namespace VmaOp

/-- The process after one operation. -/
def exec (p : Process) : VmaOp → Process
  | mmap addr length prot flags fd offset =>
    (sysMmap p addr.toNat length.toNat prot flags fd offset).2
  | munmap addr length => (sysMunmap p addr.toNat length.toNat).2
  | create start size flags => (p.vmaCreate start.toNat size.toNat flags).2
  | fault f => (p.vmmPageFaultHandler f).2

/-- The process after a run. -/
def run (p : Process) (ops : List VmaOp) : Process := ops.foldl exec p

/-- The operation neither unmaps backwards through an area nor grows a stack over one. -/
def Keeps (p : Process) : VmaOp → Prop
  | munmap addr length => MunmapForwards p addr.toNat length.toNat
  | fault f => f.cr2.toNat < userSpaceMax → p.GrowthClear f.cr2.toNat f.rsp.toNat
  | _ => True

instance (p : Process) : (op : VmaOp) → Decidable (op.Keeps p)
  | mmap .. => .isTrue trivial
  | munmap _ _ => inferInstanceAs (Decidable (MunmapForwards ..))
  | create .. => .isTrue trivial
  | fault _ => inferInstanceAs (Decidable (_ → _))

/-- Every operation of the run keeps the list, in the state it is made in. -/
def AllKeep (p : Process) : List VmaOp → Prop
  | [] => True
  | op :: ops => op.Keeps p ∧ AllKeep (op.exec p) ops

instance decidableAllKeep (p : Process) : (ops : List VmaOp) → Decidable (AllKeep p ops)
  | [] => .isTrue trivial
  | op :: ops =>
    have := decidableAllKeep (op.exec p) ops
    inferInstanceAs (Decidable (_ ∧ _))

variable {p : Process}

theorem exec_ordered (h : p.Ordered) {op : VmaOp} (hop : op.Keeps p) : (op.exec p).Ordered := by
  cases op with
  | mmap addr length prot flags fd offset =>
    exact sysMmap_ordered h addr.toNat length.toNat prot flags fd offset
  | munmap addr length => exact sysMunmap_ordered h hop
  | create start size flags => exact h.vmaCreate start.toNat size.toNat flags
  | fault f => exact h.vmmPageFaultHandler hop

theorem run_ordered (h : p.Ordered) {ops : List VmaOp} (hops : AllKeep p ops) :
    (run p ops).Ordered := by
  induction ops generalizing p with
  | nil => exact h
  | cons op ops ih => exact ih (exec_ordered h hops.1) hops.2

/-- Along every run whose operations keep the list, it stays well formed: linked consistently, sorted,
and made of non-empty, page-aligned, disjoint areas of user space. -/
theorem run_vmaListOk {p : Process} (h : p.VmaListOk) (ops : List VmaOp) (hops : AllKeep p ops) :
    (run p ops).VmaListOk :=
  Process.vmaListOk_iff.mpr (run_ordered (Process.vmaListOk_iff.mp h) hops)

/-- A process without areas. -/
def emptyProcess : Process where
  vmm := Vmm.smallVmm
  pml4 := 0
  vmaHead := none
  vma := fun _ => ⟨0, 0, 0#32, none, none⟩
  vmaCount := 0
  kmallocDenials := []
  handles := fun _ => none

theorem emptyProcess_vmaListOk : emptyProcess.VmaListOk := by
  refine ⟨⟨?_, ⟨rfl, List.nodup_nil⟩, ?_, ?_, ?_, ?_⟩, ?_⟩ <;>
    simp [emptyProcess, Process.vmas, walk, Process.fuel, Process.areas]

/-- A fixed mapping, a hole made in it, a stack area and its growth. -/
def keepingOps : List VmaOp :=
  [mmap 0x1000#64 0x5000#64 protRead (mapFixed ||| mapAnonymous) (-1) 0, munmap 0x3000#64 0x1000#64,
    create 0x20000#64 0x1000#64 (vmaRead ||| vmaUser ||| vmaStack),
    fault ⟨0x1F800#64, 3#64, 2#64, 0x1F800#64⟩]

theorem run_vmaListOk_keepingOps :
    AllKeep emptyProcess keepingOps ∧ (run emptyProcess keepingOps).VmaListOk :=
  ⟨by decide +kernel, run_vmaListOk emptyProcess_vmaListOk keepingOps (by decide +kernel)⟩

/-- Unmapping `[0x50000, 2^64 + 0x2000)` inside `[0x1000, 0x100000)` leaves two overlapping areas. -/
def wrappingOps : List VmaOp :=
  [mmap 0x1000#64 0xFF000#64 protRead (mapFixed ||| mapAnonymous) (-1) 0,
    munmap 0x50000#64 0xFFFFFFFFFFFB2000#64]

/-- A stack at `0x10000` that grows down to `0x5000` over the area at `0x8000`. -/
def growingOps : List VmaOp :=
  [create 0x10000#64 0x1000#64 (vmaRead ||| vmaUser ||| vmaStack),
    create 0x8000#64 0x1000#64 (vmaRead ||| vmaUser),
    fault ⟨0x5000#64, 3#64, 0#64, 0x5000#64⟩]

theorem run_wraps_and_grows_over :
    emptyProcess.VmaListOk ∧ ¬(run emptyProcess wrappingOps).VmaListOk ∧
      ¬(run emptyProcess growingOps).VmaListOk := by
  refine ⟨emptyProcess_vmaListOk, fun h => ?_, fun h => ?_⟩
  · exact absurd h.disjoint (by decide +kernel)
  · exact absurd h.disjoint (by decide +kernel)

end VmaOp

end NovaOS.Syscall
