import NovaOS.Lib.Fallible
import NovaOS.Sched.SpawnOwned

/-!
# The error exits of `schedSpawn`

Reference: `kernel/sched/sched.c` (`schedSpawn`, `schedCreateProcess`, `schedCreateUserThread`),
`kernel/krdrivers/fs/fat32/fat32.c` (`fat32_read_file`).

`schedSpawn` with every exit and its own cleanup. What can fail is given from outside: the reads of files,
each `kmalloc`, and through the denials of the memory every `pmm_alloc_frame`. Heap blocks have a name each;
`live` are those that are allocated, and a `kfree` of another one is counted in `badFrees`. The contents of
the stack page are in `Sched/InitStack`; they need no memory besides the two arrays of pointers.

A process that gets number zero is given the page tables of the kernel, which `vmmDestroyAddressSpace` does
not touch; `Sched/SpawnKernel` is about it. With any other number a failed `schedSpawn` gives everything
back.
-/

namespace NovaOS.Sched

open NovaOS.Lib NovaOS.Mem Fallible List

/-- The heap blocks of `schedSpawn`; the interpreter is looked for in several places. -/
inductive SpawnBlock
  | rawData
  | interpRawData (attempt : ℕ)
  | process
  | userArgvPtrs
  | userEnvpPtrs
  | thread
  | kstack
deriving DecidableEq, Repr

/-- What `fs_read_file` does: it returns an error without a buffer or after giving its buffer back, or it
returns no buffer for an empty file, or a buffer with the contents. -/
inductive FileRead
  | failed
  | broken
  | empty
  | data (f : ElfFile)

/-- The contents of a file that was read. -/
def FileRead.contents : FileRead → Option ElfFile
  | .data f => some f
  | _ => none

/-- What `schedSpawn` checks of an executable before there is a process. -/
def ElfFile.loadable (f : ElfFile) : Bool :=
  decide (sizeofEhdr ≤ f.fileSize.toNat) && f.valid && f.phdrsInside

/-- The executable, if it was read and passes the checks. -/
def FileRead.executable (r : FileRead) : Option ElfFile := r.contents.filter ElfFile.loadable

/-- The reads in the search for the interpreter: of its path, of the path without the first character if
that is a slash, and of the last part of the path, of length `baseLen`, in three directories. -/
structure InterpReads where
  slash : Bool
  baseLen : ℕ
  path : FileRead
  bare : FileRead
  lib : FileRead
  bin : FileRead
  efi : FileRead

/-- The file that the search finds first; `altPath` has room for 128 bytes. -/
def InterpReads.found (r : InterpReads) : Option ElfFile :=
  r.path.contents.or <|
    (if r.slash then r.bare.contents else none).or <|
      (if r.baseLen + 5 < 128 then r.lib.contents else none).or <|
        (if r.baseLen + 5 < 128 then r.bin.contents else none).or <|
          if r.baseLen + 12 < 128 then r.efi.contents else none

/-- The files, and which of the allocations succeed. -/
structure SpawnInput where
  exe : FileRead
  interp : InterpReads
  process : Bool
  argv : Bool
  envp : Bool
  thread : Bool
  kstack : Bool

/-- The state of the kernel as far as `schedSpawn` changes it; the memory is that of the process. `vmaFreed`
are the area records that were freed. -/
structure Spawner where
  proc : Process
  gNextPid : BitVec 32
  gNextTid : BitVec 32
  readyQueue : List (BitVec 32)
  live : List SpawnBlock
  badFrees : ℕ
  vmaFreed : List ℕ

namespace Spawner

/-- The state before the call, in which `kmalloc` of the area records fails where `kmallocDenials` says so. -/
def start (m : Vmm) (gNextPid gNextTid : BitVec 32) (readyQueue : List (BitVec 32))
    (kmallocDenials : List Bool) : Spawner where
  proc := newProcess m 0 kmallocDenials
  gNextPid := gNextPid
  gNextTid := gNextTid
  readyQueue := readyQueue
  live := []
  badFrees := 0
  vmaFreed := []

/-- `kfree`. -/
def kfree (b : SpawnBlock) (s : Spawner) : Spawner :=
  if b ∈ s.live then { s with live := s.live.erase b } else { s with badFrees := s.badFrees + 1 }

/-- `kmalloc` or `kzalloc`. -/
def kmalloc (b : SpawnBlock) (served : Bool) : Fallible Spawner Unit := fun s =>
  if served then (some (), { s with live := b :: s.live }) else (none, s)

/-- `fs_read_file`; an empty file is an error for its callers. -/
def fsReadFile (b : SpawnBlock) (r : FileRead) : Fallible Spawner ElfFile := fun s =>
  match r with
  | .failed => (none, s)
  | .broken => (none, kfree b { s with live := b :: s.live })
  | .empty => (none, s)
  | .data f => (some f, { s with live := b :: s.live })

/-- One read in the search for the interpreter, with the number of the read. -/
def readInterp (attempt : ℕ) (r : FileRead) : Fallible Spawner (ℕ × ElfFile) := do
  let f ← fsReadFile (.interpRawData attempt) r
  return (attempt, f)

/-- The search for the interpreter; `altPath` has room for 128 bytes. -/
def findInterp (r : InterpReads) : Fallible Spawner (ℕ × ElfFile) :=
  (readInterp 0 r.path).orTry <|
    (if r.slash then readInterp 1 r.bare else .fail).orTry <|
      (if r.baseLen + 5 < 128 then readInterp 2 r.lib else .fail).orTry <|
        (if r.baseLen + 5 < 128 then readInterp 3 r.bin else .fail).orTry <|
          if r.baseLen + 12 < 128 then readInterp 4 r.efi else .fail

/-- A step on the process. -/
def onProcess (step : Process → Bool × Process) : Fallible Spawner Unit := fun s =>
  match step s.proc with
  | (true, p) => (some (), { s with proc := p })
  | (false, p) => (none, { s with proc := p })

/-- `vmaDestroyAll`, `vmmDestroyAddressSpace` and `kfree` of the process. -/
def destroyProcess (s : Spawner) : Spawner :=
  let r := s.proc.vmaDestroyAll
  kfree .process { s with
    proc := { r.2 with vmm := r.2.vmm.vmmDestroyAddressSpace r.2.pml4 }
    vmaFreed := r.1 ++ s.vmaFreed }

/-- The cleanup of most exits. -/
def dropProcess (s : Spawner) : Spawner := kfree .rawData s.destroyProcess

/-- The address space of a new process; process number zero has that of the kernel. -/
def createSpace : Fallible Spawner Unit := fun s =>
  let pid := s.gNextPid
  let s := { s with gNextPid := pid + 1 }
  if pid = 0 then
    (some (), { s with proc := newProcess s.proc.vmm s.proc.vmm.gKernelPml4 s.proc.kmallocDenials })
  else
    match s.proc.vmm.vmmCreateAddressSpace with
    | (pml4, m) =>
      if pml4 = 0 then (none, { s with proc := { s.proc with vmm := m } })
      else (some (), { s with proc := newProcess m pml4 s.proc.kmallocDenials })

/-- `schedCreateProcess`. -/
def schedCreateProcess (served : Bool) : Fallible Spawner Unit := do
  kmalloc .process served
  createSpace.orClean (kfree .process)

/-- The part of `schedSpawn` that loads the interpreter, with the entry point of the process. -/
def loadInterpreter (exe : ElfFile) (r : InterpReads) : Fallible Spawner ℕ :=
  if exe.wantsInterp then do
    let found ← (findInterp r).orClean dropProcess
    (Fallible.check (decide (sizeofEhdr ≤ found.2.fileSize.toNat))).orClean
      fun s => dropProcess (kfree (.interpRawData found.1) s)
    (Fallible.check found.2.valid).orClean fun s => dropProcess (kfree (.interpRawData found.1) s)
    (onProcess (loadElfSegments found.2 (interpBias found.2))).orClean
      fun s => dropProcess (kfree (.interpRawData found.1) s)
    Fallible.update (kfree (.interpRawData found.1))
    return wrap64 (found.2.eEntry.toNat + interpBias found.2)
  else return wrap64 (exe.eEntry.toNat + exeBias exe)

/-- `schedCreateUserThread` with a stack pointer. -/
def schedCreateUserThread (entry : ℕ) (thread kstack : Bool) : Fallible Spawner Unit := do
  Fallible.check (decide (entry ≠ 0))
  kmalloc .thread thread
  (kmalloc .kstack kstack).orClean (kfree .thread)
  Fallible.update fun s =>
    { s with gNextTid := s.gNextTid + 1, readyQueue := s.readyQueue ++ [s.gNextTid] }

/-- The first part of `schedSpawn`: the executable is read and its header checked. -/
def readExecutable (r : FileRead) : Fallible Spawner ElfFile := do
  let exe ← fsReadFile .rawData r
  (Fallible.check (decide (sizeofEhdr ≤ exe.fileSize.toNat))).orClean (kfree .rawData)
  (Fallible.check exe.valid).orClean (kfree .rawData)
  (Fallible.check exe.phdrsInside).orClean (kfree .rawData)
  return exe

/-- The last part of `schedSpawn`, once the stack is mapped: the arguments are put there and the thread is
made. -/
def startProcess (i : SpawnInput) (entryPoint : ℕ) : Fallible Spawner Process := do
  (kmalloc .userArgvPtrs i.argv).orClean dropProcess
  (kmalloc .userEnvpPtrs i.envp).orClean fun s => dropProcess (kfree .userArgvPtrs s)
  Fallible.update fun s => kfree .rawData (kfree .userEnvpPtrs (kfree .userArgvPtrs s))
  (schedCreateUserThread entryPoint i.thread i.kstack).orClean destroyProcess
  Fallible.reads (·.proc)

/-- `schedSpawn`. -/
def schedSpawn (i : SpawnInput) : Fallible Spawner Process := do
  let exe ← readExecutable i.exe
  (schedCreateProcess i.process).orClean (kfree .rawData)
  (onProcess (loadElfSegments exe (exeBias exe))).orClean dropProcess
  let entryPoint ← loadInterpreter exe i.interp
  (onProcess mapStack).orClean dropProcess
  startProcess i entryPoint

/-! ## Heap blocks -/

/-- The blocks `live` are allocated and no block was freed that was not. -/
structure Heap (ready : List (BitVec 32)) (live : List SpawnBlock) (s : Spawner) : Prop where
  live_eq : s.live = live
  badFrees_eq : s.badFrees = 0
  ready_eq : s.readyQueue = ready

variable {ready : List (BitVec 32)} {s : Spawner}

theorem kfree_eq {live : List SpawnBlock} {b : SpawnBlock} (h : Heap ready live s) (hb : b ∈ live) :
    kfree b s = { s with live := live.erase b } := by
  rw [kfree, h.live_eq, if_pos hb]

/-- A predicate on states with the blocks that are allocated. -/
structure Tracks (I : List SpawnBlock → Spawner → Prop) : Prop where
  alloc : ∀ b live s, I live s → I (b :: live) { s with live := b :: s.live }
  free : ∀ b live s, b ∈ live → I live s → I (live.erase b) (kfree b s)

section Tracks

variable {I : List SpawnBlock → Spawner → Prop} {live : List SpawnBlock} {b : SpawnBlock} {s : Spawner}

theorem Tracks.free_head (hI : Tracks I) (h : I (b :: live) s) : I live (kfree b s) := by
  have hfree := hI.free b (b :: live) s (.head _) h
  rwa [erase_cons_head] at hfree

theorem Tracks.kmalloc (hI : Tracks I) (b : SpawnBlock) (served : Bool) :
    Triple (I live) (kmalloc b served) (fun _ => I (b :: live)) (I live) := by
  intro s hs
  cases served with
  | false => exact hs
  | true => exact hI.alloc b live s hs

theorem Tracks.fsReadFile (hI : Tracks I) (b : SpawnBlock) (r : FileRead) :
    Triple (I live) (fsReadFile b r) (fun f s => I (b :: live) s ∧ r.contents = some f)
      (fun s => I live s ∧ r.contents = none) := by
  intro s hs
  cases r with
  | failed => exact ⟨hs, rfl⟩
  | broken => exact ⟨hI.free_head (hI.alloc b live s hs), rfl⟩
  | empty => exact ⟨hs, rfl⟩
  | data f => exact ⟨hI.alloc b live s hs, rfl⟩

/-- The executable is read, or its buffer is given back. -/
theorem Tracks.readExecutable (hI : Tracks I) (r : FileRead) :
    Triple (I []) (readExecutable r) (fun exe s => I [.rawData] s ∧ r.executable = some exe)
      (fun s => I [] s ∧ r.executable = none) := by
  have hfail : ∀ {exe} {c : Bool}, r.contents = some exe → (c = false → exe.loadable = false) →
      Triple (I [.rawData]) ((Fallible.check c).orClean (Spawner.kfree .rawData))
        (fun _ s => I [.rawData] s ∧ c = true) (fun s => I [] s ∧ r.executable = none) := by
    intro exe c hr hc
    refine Triple.orClean (Triple.check _ c) fun s hs => ⟨hI.free_head hs.1, ?_⟩
    rw [FileRead.executable, hr, Option.filter_some, hc hs.2]
    rfl
  refine Triple.bind ((hI.fsReadFile .rawData r).fail_mono fun s hs => ⟨hs.1, ?_⟩) fun exe => ?_
  · rw [FileRead.executable, hs.2, Option.filter_none]
  refine Triple.intro_pre (fun s hs => hs.2) fun hr => ?_
  refine Triple.bind_fact ((hfail hr fun h => ?_).mono (fun _ hs => hs.1) (fun _ _ h => h)
    fun _ h => h) fun _ hsize => ?_
  · rw [ElfFile.loadable, h]
    rfl
  refine Triple.bind_fact (hfail hr fun h => ?_) fun _ hvalid => ?_
  · rw [ElfFile.loadable, h, Bool.and_false]
    rfl
  refine Triple.bind_fact (hfail hr fun h => ?_) fun _ hinside => ?_
  · rw [ElfFile.loadable, h, Bool.and_false]
  refine Triple.pure fun s hs => ⟨hs, ?_⟩
  rw [FileRead.executable, hr, Option.filter_some, ElfFile.loadable, hsize, hvalid, hinside]
  rfl

/-- The search leaves one buffer, or none. -/
theorem Tracks.findInterp (hI : Tracks I) (r : InterpReads) :
    Triple (I live) (findInterp r)
      (fun found s => I (.interpRawData found.1 :: live) s ∧ r.found = some found.2)
      (fun s => I live s ∧ r.found = none) := by
  -- each read is tried from a state in which the ones before it found nothing
  have hread : ∀ (c : Prop) [Decidable c] attempt (file : FileRead), Triple (I live)
      (if c then Spawner.readInterp attempt file else .fail)
      (fun found s => I (.interpRawData found.1 :: live) s ∧
        (if c then file.contents else none) = some found.2)
      (fun s => I live s ∧ (if c then file.contents else none) = none) := by
    intro c _ attempt file
    refine Triple.ite (fun hc => ?_) fun hc => .fail fun _ hs => ⟨hs, if_neg hc⟩
    rw [if_pos hc]
    exact Triple.bind (hI.fsReadFile _ file) fun f => .pure fun _ hs => hs
  have htry : ∀ {x y : Fallible Spawner (ℕ × ElfFile)} {o o' : Option ElfFile},
      Triple (I live) x (fun found s => I (.interpRawData found.1 :: live) s ∧ o = some found.2)
        (fun s => I live s ∧ o = none) →
      Triple (I live) y (fun found s => I (.interpRawData found.1 :: live) s ∧ o' = some found.2)
        (fun s => I live s ∧ o' = none) →
      Triple (I live) (x.orTry y)
        (fun found s => I (.interpRawData found.1 :: live) s ∧ o.or o' = some found.2)
        (fun s => I live s ∧ o.or o' = none) := by
    intro x y o o' hx hy
    refine Triple.orTry (hx.mono (fun _ hs => hs) (fun found _ h => ⟨h.1, ?_⟩) fun _ hs => hs) ?_
    · rw [h.2, Option.some_or]
    · refine Triple.intro_pre (fun s hs => hs.2) fun ho => ?_
      rw [ho, Option.none_or]
      exact hy.mono (fun _ hs => hs.1) (fun _ _ h => h) fun _ hs => hs
  have hfirst := hread True 0 r.path
  rw [if_pos trivial, if_pos trivial] at hfirst
  exact htry hfirst (htry (hread _ 1 r.bare) (htry (hread _ 2 r.lib)
    (htry (hread _ 3 r.bin) (hread _ 4 r.efi))))

end Tracks

/-! ## What is there before, while and after the process is there -/

/-- The memory of the kernel before the call. -/
structure KernelReady (m : Vmm) : Prop where
  pmm : m.pmm.Inv
  total_le : m.pmm.gTotalFrames ≤ 2 ^ 40
  zero_used : 0 ∈ m.pmm.usedSet
  kernel_addr : FrameAddr m.gKernelPml4
  kernel_used : m.gKernelPml4 / pageSize ∈ m.pmm.usedSet

/-- There is no process yet. -/
structure Before (m₀ : Vmm) (pid : BitVec 32) (denials : List Bool) (ready : List (BitVec 32))
    (live : List SpawnBlock) (s : Spawner) : Prop where
  heap : Heap ready live s
  proc_eq : s.proc = newProcess m₀ 0 denials
  vmaFreed_eq : s.vmaFreed = []
  pid_eq : s.gNextPid = pid

/-- The process is being filled. -/
structure During (m₀ : Vmm) (ready : List (BitVec 32)) (live : List SpawnBlock) (s : Spawner) : Prop where
  heap : Heap ready live s
  filling : ∃ root, Filling m₀ root s.proc
  vmaFreed_eq : s.vmaFreed = []

/-- There is no process any more: no frame was given back that was not in use, and every area record was
freed once. `U` says which frames are in use. -/
structure After (m₀ : Vmm) (U : Finset ℕ → Prop) (ready : List (BitVec 32)) (live : List SpawnBlock)
    (s : Spawner) : Prop where
  heap : Heap ready live s
  used : U s.proc.vmm.pmm.usedSet
  balanced : m₀.Balanced s.proc.vmm
  vmaFreed_perm : s.vmaFreed.Perm (range s.proc.vmaCount)

/-- The frames in use are those of before. -/
abbrev Same (m₀ : Vmm) (used : Finset ℕ) : Prop := used = m₀.pmm.usedSet

/-- What holds while there is a process, `I`, and once it is destroyed, `A`. -/
structure Stage (I A : List SpawnBlock → Spawner → Prop) : Prop where
  during : Tracks I
  after : Tracks A
  load : ∀ live f loadBias, Keeps (I live) (onProcess (loadElfSegments f loadBias))
  stack : ∀ live, Keeps (I live) (onProcess mapStack)
  destroy : ∀ live s, I (.process :: live) s → A live s.destroyProcess

/-- A new thread gets the next number and stands at the end of the ready queue. -/
def enqueueNew (s : Spawner) : Spawner :=
  { s with gNextTid := s.gNextTid + 1, readyQueue := s.readyQueue ++ [s.gNextTid] }

section Stage

variable {I A : List SpawnBlock → Spawner → Prop} {live : List SpawnBlock} {s : Spawner}

theorem Tracks.schedCreateUserThread (hI : Tracks I) (entry : ℕ) (thread kstack : Bool) :
    Triple (I live) (schedCreateUserThread entry thread kstack)
      (fun _ s => ∃ t, I (.kstack :: .thread :: live) t ∧ s = t.enqueueNew) (I live) := by
  apply Triple.bind (Keeps.check _ _)
  intro _
  apply Triple.bind (hI.kmalloc .thread thread)
  intro _
  apply Triple.bind ((hI.kmalloc .kstack kstack).orClean fun s h => hI.free_head h)
  intro _
  exact .update fun s h => ⟨s, h, rfl⟩

section

variable (h : Stage I A)
include h

theorem Stage.dropProcess (hs : I [.process, .rawData] s) : A [] s.dropProcess :=
  h.after.free_head (h.destroy _ _ hs)

/-- The interpreter that was found is loaded, or the process is destroyed. -/
theorem Stage.loadInterpreter (exe : ElfFile) (r : InterpReads) :
    Triple (I [.process, .rawData]) (loadInterpreter exe r) (fun _ => I [.process, .rawData])
      (A []) := by
  have hdrop : ∀ attempt s, I [.interpRawData attempt, .process, .rawData] s →
      A [] (kfree (.interpRawData attempt) s).dropProcess := fun attempt s hs =>
    h.dropProcess (h.during.free_head hs)
  apply Triple.ite
  · intro _
    apply Triple.bind (((h.during.findInterp r).orClean fun s hs => h.dropProcess hs.1).mono
      (fun _ hs => hs) (fun _ _ hs => hs.1) fun _ hs => hs)
    intro found
    apply Triple.bind ((Keeps.check _ _).orClean (hdrop found.1))
    intro _
    apply Triple.bind ((Keeps.check _ _).orClean (hdrop found.1))
    intro _
    apply Triple.bind ((h.load _ found.2 (interpBias found.2)).orClean (hdrop found.1))
    intro _
    apply Triple.bind (Q := fun _ => I [.process, .rawData])
      (Triple.update fun s hs => h.during.free_head hs)
    intro _
    exact .pure fun s hs => hs
  · intro _
    exact .pure fun s hs => hs

theorem Stage.startProcess (i : SpawnInput) (entryPoint : ℕ) :
    Triple (I [.process, .rawData]) (startProcess i entryPoint)
      (fun p s => ∃ t, I [.kstack, .thread, .process] t ∧ s = t.enqueueNew ∧ p = t.proc) (A []) := by
  apply Triple.bind ((h.during.kmalloc .userArgvPtrs i.argv).orClean fun s hs => h.dropProcess hs)
  intro _
  apply Triple.bind ((h.during.kmalloc .userEnvpPtrs i.envp).orClean fun s hs =>
    h.dropProcess (h.during.free_head hs))
  intro _
  have hthree : ∀ s, I [.userEnvpPtrs, .userArgvPtrs, .process, .rawData] s →
      I [.process] (kfree .rawData (kfree .userEnvpPtrs (kfree .userArgvPtrs s))) := by
    intro s hs
    have hargv := h.during.free .userArgvPtrs _ s (by decide) hs
    have henvp := h.during.free .userEnvpPtrs _ _ (by decide) hargv
    exact h.during.free .rawData _ _ (by decide) henvp
  apply Triple.bind (Q := fun _ => I [.process]) (Triple.update hthree)
  intro _
  apply Triple.bind ((h.during.schedCreateUserThread entryPoint i.thread i.kstack).orClean
    fun s hs => h.destroy _ _ hs)
  intro _
  exact .reads fun _ ⟨t, ht, heq⟩ => ⟨t, ht, heq, heq ▸ rfl⟩

/-- From the stack on. -/
theorem Stage.finish (i : SpawnInput) (entryPoint : ℕ) :
    Triple (I [.process, .rawData])
      (do (onProcess mapStack).orClean Spawner.dropProcess; Spawner.startProcess i entryPoint)
      (fun p s => ∃ t, I [.kstack, .thread, .process] t ∧ s = t.enqueueNew ∧ p = t.proc) (A []) :=
  .bind ((h.stack _).orClean fun _ hs => h.dropProcess hs) fun _ => h.startProcess i entryPoint

end

end Stage

section Stages

variable {m₀ : Vmm} {U : Finset ℕ → Prop} {pid : BitVec 32} {denials : List Bool}
  {ready : List (BitVec 32)} {live : List SpawnBlock} {s : Spawner}

theorem Heap.setLive (h : Heap ready live s) (live' : List SpawnBlock) :
    Heap ready live' { s with live := live' } :=
  ⟨rfl, h.badFrees_eq, h.ready_eq⟩

/-- A predicate that says of the blocks only what `Heap` says. -/
theorem tracks_of_heap {I : List SpawnBlock → Spawner → Prop}
    (hheap : ∀ {live s}, I live s → Heap ready live s)
    (hlive : ∀ {live s} live', I live s → I live' { s with live := live' }) : Tracks I where
  alloc b live s h := by
    rw [(hheap h).live_eq]
    exact hlive _ h
  free b live s hb h := by
    rw [kfree_eq (hheap h) hb]
    exact hlive _ h

theorem tracks_before : Tracks (Before m₀ pid denials ready) := tracks_of_heap Before.heap fun l h =>
  ⟨h.heap.setLive l, h.proc_eq, h.vmaFreed_eq, h.pid_eq⟩

theorem tracks_during : Tracks (During m₀ ready) := tracks_of_heap During.heap fun l h =>
  ⟨h.heap.setLive l, h.filling, h.vmaFreed_eq⟩

theorem tracks_after : Tracks (After m₀ U ready) := tracks_of_heap After.heap fun l h =>
  ⟨h.heap.setLive l, h.used, h.balanced, h.vmaFreed_perm⟩

theorem After.mono {U' : Finset ℕ → Prop} (h : After m₀ U ready live s) (hU : ∀ used, U used → U' used) :
    After m₀ U' ready live s :=
  ⟨h.heap, hU _ h.used, h.balanced, h.vmaFreed_perm⟩

theorem Before.after (h : Before m₀ pid denials ready live s) (hU : U m₀.pmm.usedSet) :
    After m₀ U ready live s := by
  have hproc := h.proc_eq
  refine ⟨h.heap, ?_, ?_, ?_⟩
  · rw [hproc]
    exact hU
  · rw [hproc]
    exact .refl m₀
  · rw [hproc, h.vmaFreed_eq]
    exact .nil

/-- The process is destroyed. -/
theorem Heap.destroyProcess (h : Heap ready (.process :: live) s) (hcomplete : s.proc.Complete)
    (hfreed : s.vmaFreed = [])
    (hused : U (s.proc.vmm.vmmDestroyAddressSpace s.proc.pml4).pmm.usedSet)
    (hbalanced : m₀.Balanced (s.proc.vmm.vmmDestroyAddressSpace s.proc.pml4)) :
    After m₀ U ready live s.destroyProcess := by
  have hafter : After m₀ U ready (.process :: live) { s with
      proc := { s.proc.vmaDestroyAll.2 with
        vmm := s.proc.vmaDestroyAll.2.vmm.vmmDestroyAddressSpace s.proc.vmaDestroyAll.2.pml4 }
      vmaFreed := s.proc.vmaDestroyAll.1 ++ s.vmaFreed } := by
    refine ⟨⟨h.live_eq, h.badFrees_eq, h.ready_eq⟩, hused, hbalanced, ?_⟩
    rw [hfreed, append_nil]
    exact hcomplete.vmaDestroyAll
  exact tracks_after.free_head hafter

theorem During.destroyProcess (h : During m₀ ready (.process :: live) s) (hzero : 0 ∈ m₀.pmm.usedSet) :
    After m₀ (Same m₀) ready live s.destroyProcess := by
  obtain ⟨root, hfilling⟩ := h.filling
  obtain ⟨hused, hbalanced⟩ := hfilling.filled.vmmDestroyAddressSpace hzero
  rw [← hfilling.pml4_eq] at hused hbalanced
  exact h.heap.destroyProcess hfilling.complete h.vmaFreed_eq hused hbalanced

/-- A step on the process that keeps it filled. -/
theorem During.onProcess {step : Process → Bool × Process}
    (hstep : ∀ root p, Filling m₀ root p → Filling m₀ root (step p).2) :
    Triple (During m₀ ready live) (onProcess step) (fun _ => During m₀ ready live)
      (During m₀ ready live) := by
  intro s hs
  obtain ⟨root, hfilling⟩ := hs.filling
  have hafter := hstep root s.proc hfilling
  unfold Spawner.onProcess
  generalize step s.proc = r at hafter
  obtain ⟨ok, p⟩ := r
  have hduring : During m₀ ready live { s with proc := p } :=
    ⟨⟨hs.heap.live_eq, hs.heap.badFrees_eq, hs.heap.ready_eq⟩, ⟨root, hafter⟩, hs.vmaFreed_eq⟩
  cases ok with
  | false => exact hduring
  | true => exact hduring

/-- A process that was just made. -/
theorem Filling.newProcess {m : Vmm} {root : ℕ} (h : m₀.Filled root m) (kmallocDenials : List Bool)
    (hnone : ∀ n, n < userPages → m.mapped root n = none) :
    Filling m₀ root (newProcess m root kmallocDenials) := by
  have hrep : (Sched.newProcess m root kmallocDenials).Rep [] := ⟨.nil, by simp⟩
  refine ⟨rfl, ⟨[], h.shared, .head _, ⟨[], hrep, rfl⟩, .nil, by simp, fun n e hn he => ?_⟩, h,
    ⟨[], hrep, rfl⟩⟩
  exact nomatch (hnone n hn).symm.trans he

/-- For a process that does not get number zero, what it owns is given back when it is destroyed. -/
theorem stage_during (hzero : 0 ∈ m₀.pmm.usedSet) : Stage (During m₀ ready) (After m₀ (Same m₀) ready) where
  during := tracks_during
  after := tracks_after
  load _ f loadBias := During.onProcess fun _ _ h => h.loadElfSegments f loadBias
  stack _ := During.onProcess fun _ _ h => h.mapStack
  destroy _ _ h := h.destroyProcess hzero

theorem Before.createSpace (hready : KernelReady m₀) (hpid : pid ≠ 0) :
    Triple (Before m₀ pid denials ready live) createSpace (fun _ => During m₀ ready live)
      (After m₀ (Same m₀) ready live) := by
  intro s hs
  unfold Spawner.createSpace
  dsimp only
  have hvmm : s.proc.vmm = m₀ := by
    rw [hs.proc_eq]
    rfl
  rw [if_neg (hs.pid_eq ▸ hpid), hvmm]
  by_cases hnull : m₀.vmmCreateAddressSpace.1 = 0
  · rw [if_pos hnull]
    have hr := Vmm.pmmAllocFrame_spec hready.pmm
    have hfailed : m₀.pmmAllocFrame.1 = 0 ∧ m₀.vmmCreateAddressSpace.2 = m₀.pmmAllocFrame.2 := by
      unfold Vmm.vmmCreateAddressSpace at hnull ⊢
      dsimp only at hnull ⊢
      split at hnull
      · rename_i hzero
        exact ⟨hzero, by rw [if_pos hzero]⟩
      · rename_i hzero
        exact absurd hnull hzero
    rw [hfailed.2]
    refine ⟨⟨hs.heap.live_eq, hs.heap.badFrees_eq, hs.heap.ready_eq⟩,
      hr.used_of_null hready.zero_used hfailed.1, hr.balanced hready.total_le, ?_⟩
    rw [hs.vmaFreed_eq, hs.proc_eq]
    exact .nil
  · rw [if_neg hnull]
    obtain ⟨hfilled, hnone⟩ := Vmm.Filled.vmmCreateAddressSpace hready.pmm hready.total_le
      hready.zero_used hready.kernel_addr hready.kernel_used hnull
    exact ⟨⟨hs.heap.live_eq, hs.heap.badFrees_eq, hs.heap.ready_eq⟩,
      ⟨_, Filling.newProcess hfilled _ hnone⟩, hs.vmaFreed_eq⟩

theorem Before.schedCreateProcess (hready : KernelReady m₀) (hpid : pid ≠ 0) (served : Bool) :
    Triple (Before m₀ pid denials ready live) (schedCreateProcess served)
      (fun _ => During m₀ ready (.process :: live)) (After m₀ (Same m₀) ready live) := by
  apply Triple.bind ((tracks_before.kmalloc .process served).fail_mono fun _ h =>
    h.after (U := Same m₀) rfl)
  intro _
  exact (Before.createSpace hready hpid).orClean fun s h => tracks_after.free_head h

/-- Every run returns a process or leaves nothing behind. -/
theorem Before.schedSpawn (hready : KernelReady m₀) (hpid : pid ≠ 0) (i : SpawnInput) :
    Triple (Before m₀ pid denials ready []) (schedSpawn i)
      (fun p s => ∃ t, During m₀ ready [.kstack, .thread, .process] t ∧ s = t.enqueueNew ∧ p = t.proc)
      (After m₀ (Same m₀) ready []) := by
  have hstage : Stage (During m₀ ready) _ := stage_during hready.zero_used
  apply Triple.bind_fact ((tracks_before.readExecutable i.exe).fail_mono fun _ h =>
    h.1.after (U := Same m₀) rfl)
  intro exe _
  apply Triple.bind ((Before.schedCreateProcess hready hpid i.process).orClean fun s h =>
    tracks_after.free_head h)
  intro _
  apply Triple.bind ((hstage.load _ exe (exeBias exe)).orClean fun s h => hstage.dropProcess h)
  intro _
  apply Triple.bind (hstage.loadInterpreter exe i.interp)
  intro entryPoint
  exact hstage.finish i entryPoint

end Stages

/-- What a `schedSpawn` that returns `NULL` leaves behind: the frames in use are those of before, and each
frame was given back as often as it was taken; no heap block is left and none was freed twice, and every
area record was freed once; the ready queue is as it was. -/
structure Released (m₀ : Vmm) (ready : List (BitVec 32)) (s : Spawner) : Prop where
  used_eq : s.proc.vmm.pmm.usedSet = m₀.pmm.usedSet
  returned : ∀ a, FrameAddr a → (s.proc.vmm.allocated.count a : ℤ) - m₀.allocated.count a =
    s.proc.vmm.freed.count a - m₀.freed.count a
  live_eq : s.live = []
  badFrees_eq : s.badFrees = 0
  vmaFreed_perm : s.vmaFreed.Perm (range s.proc.vmaCount)
  ready_eq : s.readyQueue = ready

theorem After.released {m₀ : Vmm} {U : Finset ℕ → Prop} (h : After m₀ U ready [] s)
    (hzero : 0 ∈ m₀.pmm.usedSet) (hused : Same m₀ s.proc.vmm.pmm.usedSet) : Released m₀ ready s where
  used_eq := hused
  returned a ha := by
    have hledger := h.balanced.ledger_eq hzero a ha
    rw [Vmm.ledger, Vmm.ledger, hused] at hledger
    omega
  live_eq := h.heap.live_eq
  badFrees_eq := h.heap.badFrees_eq
  vmaFreed_perm := h.vmaFreed_perm
  ready_eq := h.heap.ready_eq

/-- A `schedSpawn` that returns a process has put its thread at the end of the ready queue. Of the heap blocks
the process, the thread and its stack are left, and none was freed twice. Each mapped page lies in an area
that grants its permissions, the execution of the first stack page apart. -/
theorem schedSpawn_spawned {m : Vmm} (hready : KernelReady m) {gNextPid : BitVec 32} (hpid : gNextPid ≠ 0)
    (gNextTid : BitVec 32) (readyQueue : List (BitVec 32)) (kmallocDenials : List Bool) (i : SpawnInput)
    {p : Process} {s : Spawner}
    (hspawn : schedSpawn i (start m gNextPid gNextTid readyQueue kmallocDenials) = (some p, s)) :
    s.readyQueue = readyQueue ++ [s.gNextTid - 1] ∧ s.live = [.kstack, .thread, .process] ∧
      s.badFrees = 0 ∧
      ∃ L, p.View L ∧ Area.Ordered L ∧ Area.Cover {stackPage} L (p.vmm.mapped p.pml4) := by
  obtain ⟨t, h, rfl, rfl⟩ :=
    (Before.schedSpawn hready hpid i).returns ⟨⟨rfl, rfl, rfl⟩, rfl, rfl, rfl⟩ hspawn
  obtain ⟨root, hfilling⟩ := h.filling
  obtain ⟨L, hL⟩ := hfilling.agrees
  refine ⟨?_, h.heap.live_eq, h.heap.badFrees_eq, L, hL.view, hL.ordered, hL.cover⟩
  rw [enqueueNew, h.heap.ready_eq, BitVec.add_sub_cancel]
  rfl

/-- An executable with one page. -/
def onePageFile : ElfFile where
  fileSize := 0x2000
  eIdent i := if i = 0 then 0x7F else if i = 1 then 0x45 else if i = 2 then 0x4C else if i = 3 then 0x46
    else if i = 4 then 2 else 1
  eType := etExec
  eMachine := emX8664
  eEntry := 0x400000
  ePhoff := 64
  ePhentsize := 56
  ePhnum := 1
  phdrs _ := ⟨ptLoad, pfR ||| pfX, 0x1000, 0x400000, 0x10, 0x10⟩

/-- The executable is read and the heap has memory. -/
def onePageInput : SpawnInput where
  exe := .data onePageFile
  interp := ⟨false, 0, .failed, .failed, .failed, .failed, .failed⟩
  process := true
  argv := true
  envp := true
  thread := true
  kstack := true

theorem smallMachine_kernelReady : KernelReady SpaceClient.smallMachine := by
  obtain ⟨hpmm, htotal, hzero, hkernel, -⟩ := SpaceClient.smallMachine_ready
  exact ⟨hpmm, htotal, hzero, ⟨by decide, by decide, by decide⟩, hkernel⟩

/-- A page that shares tables with the stack. -/
def highInput : SpawnInput :=
  { onePageInput with
    exe := .data { onePageFile with phdrs := fun _ => ⟨ptLoad, pfR, 0, 0x7FFFFF000000, 8, 8⟩ } }

theorem schedSpawn_spawned_high :
    ∃ p s, schedSpawn highInput (start SpaceClient.smallMachine 1 5 [3] []) = (some p, s) ∧
      s.readyQueue = [3, 5] ∧ s.live = [.kstack, .thread, .process] ∧ s.badFrees = 0 ∧
      ∃ L, p.View L ∧ Area.Ordered L ∧ Area.Cover {stackPage} L (p.vmm.mapped p.pml4) := by
  have hsome : (schedSpawn highInput (start SpaceClient.smallMachine 1 5 [3] [])).1.isSome = true := by
    decide +kernel
  have htid : (schedSpawn highInput (start SpaceClient.smallMachine 1 5 [3] [])).2.gNextTid = 6 := by
    decide +kernel
  obtain ⟨p, hp⟩ := Option.isSome_iff_exists.mp hsome
  have hspawn := eq_of_fst_eq_some hp
  obtain ⟨hready, hrest⟩ := schedSpawn_spawned smallMachine_kernelReady (by decide) 5 [3] [] highInput
    hspawn
  rw [htid] at hready
  exact ⟨p, _, hspawn, hready, hrest⟩

end Spawner

end NovaOS.Sched
