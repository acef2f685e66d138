import NovaOS.Mem.VmaPages
import NovaOS.Sched.Threads

/-!
# Ending a process

Reference: `kernel/syscall/sysexit.c`, `kernel/syscall/sysfile.c` (`fileTableCleanup`),
`kernel/drivers/driver.c` (`driverCleanupProcess`), `kernel/sched/sched.c` (`schedThreadExit`).

The last thread of a process ends through `sysExit`, which releases what the process has, or in the
page-fault handler, which only marks the thread. `kfreed` and `closed` record the calls of `kfree` and
of the `close` operations of drivers, newest first. Nothing else in the kernel looks at a zombie.
-/

namespace NovaOS.Sched

open NovaOS.Lib NovaOS.Mem List

/-- The blocks of the heap that a process holds. -/
inductive Block where
  | vma (a : ℕ)
  | fileHandle (fd : ℕ)
  | path (fd : ℕ)
  | fileHandles
  | driverHandles
deriving DecidableEq, Repr

/-- `FileTable` without the handles, which are in the process. -/
structure FileTable where
  present : Bool
  capacity : ℕ
  hasPath : ℕ → Bool

/-- A driver as far as closing a handle looks at it. -/
structure DriverEntry where
  hasClose : Bool

structure DriverHandle where
  driver : Option DriverEntry
  sessionPriv : ℕ
  active : Bool

/-- `DriverHandleTable`; the length of the list is the capacity. -/
structure DriverHandleTable where
  handles : Option (List DriverHandle)
  count : ℕ

/-- The current thread, the last one of its process, with what the process has. -/
structure Task where
  proc : Process
  fileTable : FileTable
  handleTable : DriverHandleTable
  state : ThreadState
  cr3 : ℕ
  kfreed : List Block
  closed : List ℕ

/-- Closing the handle calls the driver. -/
def DriverHandle.closes (h : DriverHandle) : Bool := h.active && h.driver.any (·.hasClose)

namespace Task

/-- `kfree`. -/
def kfree (t : Task) (b : Block) : Task := { t with kfreed := b :: t.kfreed }

/-- The body of the loop of `fileTableCleanup`. -/
def freeFile (fd : ℕ) (t : Task) : Task :=
  match t.proc.handles fd with
  | none => t
  | some _ => (if t.fileTable.hasPath fd then t.kfree (.path fd) else t).kfree (.fileHandle fd)

/-- `fileTableCleanup`. -/
def fileTableCleanup (t : Task) : Task :=
  if t.fileTable.present then
    let t := (forUp 0 t.fileTable.capacity freeFile t).kfree .fileHandles
    { t with
      proc := { t.proc with handles := fun _ => none }
      fileTable := { t.fileTable with present := false, capacity := 0 } }
  else t

/-- The body of the loop of `driverCleanupProcess`. The handle is also marked inactive, in the table
that is freed after the loop. -/
def closeHandle (t : Task) (h : DriverHandle) : Task :=
  if h.closes then { t with closed := h.sessionPriv :: t.closed } else t

/-- `driverCleanupProcess`. -/
def driverCleanupProcess (t : Task) : Task :=
  match t.handleTable.handles with
  | none => t
  | some handles => { (handles.foldl closeHandle t).kfree .driverHandles with handleTable := ⟨none, 0⟩ }

/-- `vma_destroy_all`. -/
def vmaDestroyAll (t : Task) : Task :=
  let (records, p) := t.proc.vmaDestroyAll
  records.foldl (fun t a => t.kfree (.vma a)) { t with proc := p }

/-- `schedThreadExit`, which does not return. -/
def schedThreadExit (t : Task) : Task := { t with state := .zombie }

/-- `sysExit`. -/
def sysExit (t : Task) : Task :=
  let t := t.fileTableCleanup.driverCleanupProcess.vmaDestroyAll
  let t := { t with cr3 := t.proc.vmm.gKernelPml4 }
  { t with proc := { t.proc with vmm := t.proc.vmm.vmmDestroyAddressSpace t.proc.pml4 } }.schedThreadExit

/-- `vmmPageFaultHandler` in the thread. -/
def pageFault (t : Task) (f : Process.Fault) : Task :=
  match t.proc.vmmPageFaultHandler f with
  | (.threadExit, p) => { t with proc := p }.schedThreadExit
  | (_, p) => { t with proc := p }

/-- What the last thread of a process can end with. -/
inductive Ending where
  | exit (code : BitVec 32)
  | fault (f : Process.Fault)

/-- The state after the ending. -/
def finish (t : Task) : Ending → Task
  | .exit _ => t.sysExit
  | .fault f => t.pageFault f

/-- The thread does end: a fault is one that the handler answers with `schedThreadExit`. -/
def Ends (t : Task) : Ending → Prop
  | .exit _ => True
  | .fault f => (t.proc.vmmPageFaultHandler f).1 = .threadExit

/-! ## What is to be released -/

/-- The process holds a block. -/
def Holds (t : Task) : Block → Prop
  | .vma a => a ∈ t.proc.vmas
  | .fileHandle fd =>
    t.fileTable.present = true ∧ fd < t.fileTable.capacity ∧ t.proc.handles fd ≠ none
  | .path fd =>
    t.fileTable.present = true ∧ fd < t.fileTable.capacity ∧ t.proc.handles fd ≠ none ∧
      t.fileTable.hasPath fd = true
  | .fileHandles => t.fileTable.present = true
  | .driverHandles => t.handleTable.handles ≠ none

/-- The sessions of the open driver handles. -/
def sessions (t : Task) : List ℕ :=
  ((t.handleTable.handles.getD []).filter DriverHandle.closes).map DriverHandle.sessionPriv

/-- Everything of the process `t` is released, once, in `t'`. -/
structure Released (t t' : Task) : Prop where
  frames : ∀ a, t.proc.vmm.IsTable t.proc.pml4 a ∨ t.proc.vmm.MapsTo t.proc.pml4 a →
    t'.proc.vmm.freed.count a = t.proc.vmm.freed.count a + 1 ∧
      a / pageSize ∉ t'.proc.vmm.pmm.usedSet
  vmas : t'.proc.vmaHead = none
  files : t'.fileTable.present = false
  drivers : t'.handleTable.handles = none
  blocks : ∀ b, t.Holds b → t'.kfreed.count b = t.kfreed.count b + 1
  sessions : ∀ s, t'.closed.count s = t.closed.count s + t.sessions.count s

/-! ## The stages of `sysExit` -/

/-- Free several blocks. -/
def kfreeAll (t : Task) (l : List Block) : Task := { t with kfreed := l.reverse ++ t.kfreed }

theorem kfreeAll_append (t : Task) (l l' : List Block) :
    (t.kfreeAll l).kfreeAll l' = t.kfreeAll (l ++ l') := by
  rw [kfreeAll, kfreeAll, kfreeAll, reverse_append, append_assoc]

theorem kfree_eq (t : Task) (b : Block) : t.kfree b = t.kfreeAll [b] := rfl

/-- The blocks of one open file. -/
def fileBlocks (t : Task) (fd : ℕ) : List Block :=
  if (t.proc.handles fd).isSome then
    (if t.fileTable.hasPath fd then [.path fd] else []) ++ [.fileHandle fd]
  else []

theorem freeFile_eq (t : Task) (fd : ℕ) : t.freeFile fd = t.kfreeAll (t.fileBlocks fd) := by
  unfold freeFile fileBlocks
  cases t.proc.handles fd with
  | none => rfl
  | some fh =>
    dsimp only
    split <;> rfl

theorem forUp_freeFile (t : Task) (n : ℕ) :
    forUp 0 n freeFile t = t.kfreeAll ((range' 0 n).flatMap t.fileBlocks) := by
  -- the handles and the paths stay as they are along the loop
  suffices H : ∀ (l : List ℕ) (u : Task), u.fileBlocks = t.fileBlocks →
      l.foldl (fun u fd => freeFile fd u) u = u.kfreeAll (l.flatMap t.fileBlocks) from H _ t rfl
  intro l
  induction l with
  | nil => exact fun u _ => rfl
  | cons fd l ih =>
    intro u hu
    rw [foldl_cons, freeFile_eq, ih (u.kfreeAll (u.fileBlocks fd)) hu, kfreeAll_append, hu,
      flatMap_cons]

/-- The blocks that `fileTableCleanup` frees. -/
def tableBlocks (t : Task) : List Block :=
  if t.fileTable.present then (range' 0 t.fileTable.capacity).flatMap t.fileBlocks ++ [.fileHandles]
  else []

/-- The blocks that `driverCleanupProcess` frees. -/
def driverBlocks (t : Task) : List Block :=
  if t.handleTable.handles.isSome then [.driverHandles] else []

/-- The blocks that `sysExit` frees, in order. -/
def exitBlocks (t : Task) : List Block := t.tableBlocks ++ t.driverBlocks ++ t.proc.vmas.map .vma

theorem fileTableCleanup_spec (t : Task) :
    t.fileTableCleanup.kfreed = t.tableBlocks.reverse ++ t.kfreed ∧
      t.fileTableCleanup.fileTable.present = false ∧
      t.fileTableCleanup.proc = { t.proc with handles := t.fileTableCleanup.proc.handles } ∧
      t.fileTableCleanup.handleTable = t.handleTable ∧ t.fileTableCleanup.closed = t.closed := by
  unfold fileTableCleanup tableBlocks
  by_cases h : t.fileTable.present = true
  · rw [if_pos h, if_pos h, forUp_freeFile, kfree_eq, kfreeAll_append]
    exact ⟨rfl, rfl, rfl, rfl, rfl⟩
  · rw [if_neg h, if_neg h]
    exact ⟨rfl, by simpa using h, rfl, rfl, rfl⟩

theorem foldl_closeHandle (l : List DriverHandle) (t : Task) :
    l.foldl closeHandle t = { t with
      closed := ((l.filter DriverHandle.closes).map DriverHandle.sessionPriv).reverse ++ t.closed } := by
  induction l generalizing t with
  | nil => rfl
  | cons h l ih =>
    rw [foldl_cons, ih, closeHandle]
    by_cases hc : h.closes = true
    · rw [if_pos hc, filter_cons_of_pos hc, map_cons, reverse_cons, append_assoc]
      rfl
    · rw [if_neg hc, filter_cons_of_neg hc]

theorem driverCleanupProcess_spec (t : Task) :
    t.driverCleanupProcess.kfreed = t.driverBlocks.reverse ++ t.kfreed ∧
      t.driverCleanupProcess.handleTable.handles = none ∧
      t.driverCleanupProcess.closed = t.sessions.reverse ++ t.closed ∧
      t.driverCleanupProcess.proc = t.proc ∧ t.driverCleanupProcess.fileTable = t.fileTable := by
  unfold driverCleanupProcess driverBlocks sessions
  cases h : t.handleTable.handles with
  | none => exact ⟨rfl, h, rfl, rfl, rfl⟩
  | some handles =>
    dsimp only
    rw [foldl_closeHandle]
    exact ⟨rfl, rfl, rfl, rfl, rfl⟩

theorem foldl_kfree (l : List ℕ) (t : Task) :
    l.foldl (fun t a => t.kfree (.vma a)) t = t.kfreeAll (l.map .vma) := by
  induction l generalizing t with
  | nil => rfl
  | cons a l ih =>
    rw [foldl_cons, ih, kfree_eq, kfreeAll_append]
    rfl

/-- The parts of the state after `sysExit`. -/
theorem sysExit_spec (t : Task) :
    t.sysExit.kfreed = t.exitBlocks.reverse ++ t.kfreed ∧ t.sysExit.fileTable.present = false ∧
      t.sysExit.handleTable.handles = none ∧ t.sysExit.closed = t.sessions.reverse ++ t.closed ∧
      t.sysExit.proc.vmaHead = none ∧
      t.sysExit.proc.vmm = t.proc.vmm.vmmDestroyAddressSpace t.proc.pml4 := by
  obtain ⟨hfreed1, hfiles1, hproc1, htable1, hclosed1⟩ := t.fileTableCleanup_spec
  unfold sysExit exitBlocks
  generalize t.fileTableCleanup = t1 at hfreed1 hfiles1 hproc1 htable1 hclosed1
  obtain ⟨hfreed2, htable2, hclosed2, hproc2, hfiles2⟩ := t1.driverCleanupProcess_spec
  have hdriver : t1.driverBlocks = t.driverBlocks := by rw [driverBlocks, htable1, driverBlocks]
  have hsessions : t1.sessions = t.sessions := by rw [Task.sessions, htable1, Task.sessions]
  generalize t1.driverCleanupProcess = t2 at hfreed2 htable2 hclosed2 hproc2 hfiles2
  rw [hproc1] at hproc2
  have hvmas : t2.proc.vmaDestroyAll = (t.proc.vmas, { t2.proc with vmaHead := none }) := by
    rw [hproc2]
    rfl
  rw [vmaDestroyAll, hvmas]
  dsimp only
  rw [foldl_kfree]
  refine ⟨?_, hfiles2 ▸ hfiles1, htable2, ?_, rfl, ?_⟩
  · show (t.proc.vmas.map Block.vma).reverse ++ t2.kfreed = _
    rw [hfreed2, hfreed1, hdriver, reverse_append, reverse_append, append_assoc, append_assoc]
  · show t2.closed = _
    rw [hclosed2, hsessions, hclosed1]
  · show t2.proc.vmm.vmmDestroyAddressSpace t2.proc.pml4 = _
    rw [hproc2]

/-! ## Every block once -/

variable {t : Task} {b : Block}

theorem mem_fileBlocks {fd : ℕ} :
    b ∈ t.fileBlocks fd ↔ t.proc.handles fd ≠ none ∧
      (b = .fileHandle fd ∨ (b = .path fd ∧ t.fileTable.hasPath fd = true)) := by
  unfold fileBlocks
  cases t.proc.handles fd with
  | none => simp
  | some fh => by_cases hpath : t.fileTable.hasPath fd = true <;> simp [hpath, or_comm]

theorem nodup_fileBlocks (t : Task) (fd : ℕ) : (t.fileBlocks fd).Nodup := by
  unfold fileBlocks
  split_ifs <;> simp

theorem mem_tableBlocks :
    b ∈ t.tableBlocks ↔ t.fileTable.present = true ∧ (b = .fileHandles ∨
      ∃ fd, fd < t.fileTable.capacity ∧ b ∈ t.fileBlocks fd) := by
  unfold tableBlocks
  split
  · rename_i h
    simp [h, mem_flatMap, mem_range'_1, or_comm]
  · rename_i h
    simp [h]

theorem nodup_tableBlocks (t : Task) : t.tableBlocks.Nodup := by
  unfold tableBlocks
  split
  swap
  · exact nodup_nil
  rw [nodup_append]
  refine ⟨nodup_flatMap.mpr ⟨fun fd _ => t.nodup_fileBlocks fd, ?_⟩, nodup_singleton _, ?_⟩
  · have hdistinct : (range' 0 t.fileTable.capacity).Pairwise (· ≠ ·) := nodup_range'
    refine hdistinct.imp fun {i j} hij b hi hj => hij ?_
    obtain ⟨-, rfl | ⟨rfl, -⟩⟩ := mem_fileBlocks.mp hi <;>
      obtain ⟨-, h | ⟨h, -⟩⟩ := mem_fileBlocks.mp hj <;> simp_all
  · intro b hb c hc heq
    obtain ⟨fd, -, hfd⟩ := mem_flatMap.mp hb
    obtain ⟨-, rfl | ⟨rfl, -⟩⟩ := mem_fileBlocks.mp hfd <;> simp_all

theorem mem_exitBlocks : b ∈ t.exitBlocks ↔ t.Holds b := by
  unfold exitBlocks driverBlocks
  rw [mem_append, mem_append, mem_tableBlocks]
  cases b <;> simp [Holds, mem_fileBlocks, Option.isSome_iff_ne_none]

theorem nodup_exitBlocks (h : t.proc.VmaListOk) : t.exitBlocks.Nodup := by
  unfold exitBlocks driverBlocks
  have hvmas : (t.proc.vmas.map Block.vma).Nodup :=
    h.links.nodup.map fun a b hab => Block.vma.inj hab
  have hdriver : (if t.handleTable.handles.isSome then [Block.driverHandles] else []).Nodup := by
    split <;> simp
  rw [nodup_append, nodup_append]
  refine ⟨⟨t.nodup_tableBlocks, hdriver, ?_⟩, hvmas, ?_⟩
  · rintro b hb c hc rfl
    rw [mem_tableBlocks] at hb
    obtain ⟨-, rfl | ⟨fd, -, hfd⟩⟩ := hb
    · simp at hc
    · obtain ⟨-, rfl | ⟨rfl, -⟩⟩ := mem_fileBlocks.mp hfd <;> simp at hc
  · rintro b hb c hc rfl
    obtain ⟨a, -, rfl⟩ := mem_map.mp hc
    rw [mem_append, mem_tableBlocks] at hb
    obtain ⟨-, hb | ⟨fd, -, hfd⟩⟩ | hb := hb
    · simp at hb
    · obtain ⟨-, hb | ⟨hb, -⟩⟩ := mem_fileBlocks.mp hfd <;> simp at hb
    · simp at hb

/-! ## The two endings -/

section Endings

variable {t : Task} {R : List ℕ}

theorem sysExit_released (hshared : t.proc.vmm.Shared (t.proc.pml4 :: R)) (hnot : t.proc.pml4 ∉ R)
    (hvmas : t.proc.VmaListOk) : t.Released t.sysExit := by
  obtain ⟨hkfreed, hfiles, hdrivers, hclosed, hhead, hvmm⟩ := t.sysExit_spec
  obtain ⟨-, hused, hfreed⟩ := hshared.vmmDestroyAddressSpace hnot
  have hmem : t.proc.pml4 ∈ t.proc.pml4 :: R := (.head _)
  refine ⟨fun a ha => ⟨?_, fun hu => ?_⟩, hhead, hfiles, hdrivers, fun b hb => ?_, fun s => ?_⟩
  · rw [hvmm]
    exact hfreed a ha
  · rw [hvmm] at hu
    have haddr : FrameAddr a := by
      rcases ha with ⟨p, hp, ht⟩ | ⟨n, e, hn, he, rfl⟩
      · exact ((hshared.space _ hmem).used hp ht).1
      · exact (hshared.data _ hmem hn he).addr
    obtain ⟨-, h1, h2⟩ := (hused a haddr).mp hu
    exact ha.elim h1 h2
  · rw [hkfreed, count_append, count_reverse,
      count_eq_one_of_mem (nodup_exitBlocks hvmas) (mem_exitBlocks.mpr hb), add_comm]
  · rw [hclosed, count_append, count_reverse, add_comm]

/-- A page fault leaves the address space in place. -/
theorem pageFault_shared (hshared : t.proc.vmm.Shared R) (hroot : t.proc.pml4 ∈ R)
    (f : Process.Fault) : (t.pageFault f).proc.vmm.Shared R := by
  have hproc : (t.pageFault f).proc = (t.proc.vmmPageFaultHandler f).2 := by
    unfold pageFault
    split
    · rename_i heq
      rw [heq]
      rfl
    · rename_i heq
      rw [heq]
  rw [hproc]
  exact Process.vmmPageFaultHandler_shared hshared hroot f

/-- The last thread of a process releases everything if and only if it ends in `sysExit`. -/
theorem finish_released (hshared : t.proc.vmm.Shared (t.proc.pml4 :: R)) (hnot : t.proc.pml4 ∉ R)
    (hvmas : t.proc.VmaListOk) (e : Ending) (hends : t.Ends e) :
    t.Released (t.finish e) ↔ ∃ code, e = .exit code := by
  cases e with
  | exit code => exact ⟨fun _ => ⟨code, rfl⟩, fun _ => sysExit_released hshared hnot hvmas⟩
  | fault f =>
    refine ⟨fun hrel => ?_, fun ⟨code, h⟩ => nomatch h⟩
    -- the root of the address space is still in use
    have hmem : t.proc.pml4 ∈ t.proc.pml4 :: R := (.head _)
    have hroot := hrel.frames t.proc.pml4 (.inl ⟨[], userPath_nil, rfl⟩)
    have hspace := (pageFault_shared hshared hmem f).space _ hmem
    exact absurd (hspace.used userPath_nil rfl).2 hroot.2

end Endings

/-- A process with an area of two pages and an open file. -/
def areaProcess : Process where
  vmm := SpaceClient.smallSpace
  pml4 := 0x101000
  vmaHead := some 0
  vma := fun _ => ⟨0x400000, 0x402000, vmaRead ||| vmaWrite ||| vmaUser, none, none⟩
  vmaCount := 1
  kmallocDenials := []
  handles := fun fd => if fd = 3 then some ⟨false⟩ else none

theorem areaProcess_ordered : areaProcess.Ordered := by
  have hvmas : areaProcess.vmas = [0] := by decide
  apply Process.vmaListOk_iff.mp
  refine ⟨⟨?_, ?_, ?_, ?_, ?_, ?_⟩, ?_⟩ <;> rw [hvmas]
  · decide
  · exact ⟨⟨rfl, rfl, rfl⟩, by decide⟩
  all_goals decide

/-- A write to the first page of the area. -/
def firstWrite : Process.Fault := ⟨0x400010, 0x23, 6, 0⟩

/-- The process after the write, with an open driver. -/
def smallTask : Task where
  proc := (areaProcess.vmmPageFaultHandler firstWrite).2
  fileTable := ⟨true, 16, fun fd => fd == 3⟩
  handleTable := ⟨some [⟨some ⟨true⟩, 7, true⟩, ⟨none, 0, false⟩], 1⟩
  state := .running
  cr3 := 0x101000
  kfreed := []
  closed := []

theorem finish_released_smallTask :
    smallTask.proc.vmm.vmmVirtToPhys 0x101000 0x400010 = 0x102010 ∧
      smallTask.sysExit.kfreed = [.vma 0, .driverHandles, .fileHandles, .fileHandle 3, .path 3] ∧
      smallTask.Released (smallTask.finish (.exit 0)) := by
  have hpml4 : smallTask.proc.pml4 = areaProcess.pml4 := by decide +kernel
  have hproc : smallTask.proc = (areaProcess.vmmPageFaultHandler firstWrite).2 := by simp only [smallTask]
  have harea : areaProcess.vmm.Shared [areaProcess.pml4] := by
    simp only [areaProcess]
    exact SpaceClient.smallSpace_shared.1
  have hshared : smallTask.proc.vmm.Shared [smallTask.proc.pml4] := by
    rw [hpml4, hproc]
    exact Process.vmmPageFaultHandler_shared harea (.head _) firstWrite
  have hvmas : smallTask.proc.VmaListOk := by
    rw [hproc]
    exact Process.vmaListOk_iff.mpr (areaProcess_ordered.vmmPageFaultHandler fun _ => by decide +kernel)
  exact ⟨by decide +kernel, by decide +kernel,
    (finish_released hshared (not_mem_nil) hvmas (.exit 0) trivial).mpr ⟨0, rfl⟩⟩

/-- An access to an address outside all areas ends the thread and releases nothing. -/
theorem fault_not_released :
    smallTask.Ends (.fault ⟨0x800000, 0x23, 4, 0⟩) ∧
      (smallTask.finish (.fault ⟨0x800000, 0x23, 4, 0⟩)).state = .zombie ∧
      (smallTask.finish (.fault ⟨0x800000, 0x23, 4, 0⟩)).kfreed = [] ∧
      (smallTask.finish (.fault ⟨0x800000, 0x23, 4, 0⟩)).closed = [] ∧
      (smallTask.finish (.fault ⟨0x800000, 0x23, 4, 0⟩)).proc.vmm.freed = [] ∧
      ¬smallTask.Released (smallTask.finish (.fault ⟨0x800000, 0x23, 4, 0⟩)) := by
  have hkfreed : (smallTask.finish (.fault ⟨0x800000, 0x23, 4, 0⟩)).kfreed = [] := by decide +kernel
  refine ⟨by unfold Ends; decide +kernel, by decide +kernel, hkfreed, by decide +kernel,
    by decide +kernel, fun hrel => ?_⟩
  have hholds : smallTask.fileTable.present = true := by decide +kernel
  have hcount := hrel.blocks .fileHandles hholds
  rw [hkfreed] at hcount
  cases hcount

end Task

end NovaOS.Sched
