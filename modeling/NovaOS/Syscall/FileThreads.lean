import Mathlib.Data.Int.Notation
import Mathlib.Tactic.Common

/-!
# File handles shared by the threads of a process

Reference: `kernel/syscall/sysread.c`, `kernel/syscall/sysmmap.c`, `kernel/syscall/sysfile.c`.

`sysRead` and `sysMmap` look their handle up under the lock of the file table and use it after they have
released it: `fh->path` for every chunk that is read, `fh->size` and `fh->path` for every page that is
mapped. `sysClose` takes the handle from the table under the lock and frees the path and the handle after
it. Each critical section, each round of a loop and each `kfree` is a step here, and the steps of the threads
can come in any order. `wild` is set when a handle or a path is used or freed that has been freed before.

`handles_safe` says that no run goes wild in which a handle is taken from the table only while no thread is
using it. `read_after_close` is a run that does.
-/

namespace NovaOS.Syscall

open Function Option

/-- A `FileHandle`; `path` is the block of its name. -/
structure SharedHandle where
  path : ℕ
  offset : ℕ
  size : ℕ
  isDir : Bool
deriving DecidableEq

/-- Where a thread is within a system call. -/
inductive Activity where
  | idle
  /-- `sysRead` after its critical section. -/
  | reading (fh pos toRead totalRead : ℕ)
  /-- `sysMmap` after its critical section. -/
  | mapping (fh offset pageOff alignedLen : ℕ)
  /-- `sysClose` after its critical section. -/
  | closing (fh : ℕ)
  /-- `sysClose` after it has freed the path. -/
  | closingHandle (fh : ℕ)
deriving DecidableEq

/-- The activity uses the handle after its critical section. -/
def Activity.uses (fh : ℕ) : Activity → Bool
  | .reading f _ _ _ => f == fh
  | .mapping f _ _ _ => f == fh
  | _ => false

/-- The activity is going to free the handle. -/
def Activity.closes (fh : ℕ) : Activity → Bool
  | .closing f => f == fh
  | .closingHandle f => f == fh
  | _ => false

/-- The file table of a process by descriptor, the handles and the paths that have not been freed, and
what its threads are doing. -/
structure FileThreads where
  handles : ℕ → Option ℕ
  heap : ℕ → Option SharedHandle
  paths : ℕ → Bool
  next : ℕ
  thread : ℕ → Activity
  wild : Bool

namespace FileThreads

/-- A process that has opened nothing. -/
def create : FileThreads := ⟨fun _ => none, fun _ => none, fun _ => false, 0, fun _ => .idle, false⟩

/-- The thread goes on with this. -/
def setThread (t : ℕ) (a : Activity) (s : FileThreads) : FileThreads :=
  { s with thread := update s.thread t a }

/-- A field of the handle `fh` is read; of a freed handle anything could be read. -/
def readHandle (fh : ℕ) (s : FileThreads) : SharedHandle × FileThreads :=
  match s.heap fh with
  | some h => (h, s)
  | none => (⟨0, 0, 0, false⟩, { s with wild := true })

/-- The characters of a path are read. -/
def readPath (p : ℕ) (s : FileThreads) : FileThreads :=
  if s.paths p then s else { s with wild := true }

/-- `fh->offset` is set. -/
def writeOffset (fh offset : ℕ) (s : FileThreads) : FileThreads :=
  match s.heap fh with
  | some h => { s with heap := update s.heap fh (some { h with offset := offset }) }
  | none => { s with wild := true }

/-- `kfree` of a path. -/
def freePath (p : ℕ) (s : FileThreads) : FileThreads :=
  if s.paths p then { s with paths := update s.paths p false } else { s with wild := true }

/-- `kfree` of a handle. -/
def freeHandle (fh : ℕ) (s : FileThreads) : FileThreads :=
  match s.heap fh with
  | some _ => { s with heap := update s.heap fh none }
  | none => { s with wild := true }

/-- `sysOpen` binds the descriptor, which is free, to a new handle with a new path. -/
def sysOpen (fd size : ℕ) (isDir : Bool) (s : FileThreads) : FileThreads :=
  { s with
    handles := update s.handles fd (some s.next)
    heap := update s.heap s.next (some ⟨s.next + 1, 0, size, isDir⟩)
    paths := update s.paths (s.next + 1) true
    next := s.next + 2 }

/-- `sysRead` up to the end of its critical section; `chunkMem` tells whether there is memory for the
buffer. -/
def sysReadBegin (t fd count : ℕ) (chunkMem : Bool) (s : FileThreads) : FileThreads :=
  match s.handles fd with
  | none => s
  | some fh =>
    let (h, s) := s.readHandle fh
    if h.isDir then s
    else if h.offset ≥ h.size then s
    else
      let available := h.size - h.offset
      let toRead := if count < available then count else available
      let s := s.writeOffset fh (h.offset + toRead)
      if chunkMem then s.setThread t (.reading fh h.offset toRead 0) else s

/-- One round of the loop of `sysRead`: what `fs_read` returns and reads, and whether `copy_to_user`
succeeds. -/
def sysReadChunk (t fh pos toRead totalRead : ℕ) (ok : Bool) (stepRead : ℕ) (copied : Bool)
    (s : FileThreads) : FileThreads :=
  if totalRead < toRead then
    let step := if toRead - totalRead > 65536 then 65536 else toRead - totalRead
    let (h, s) := s.readHandle fh
    let s := s.readPath h.path
    if !ok ∨ stepRead = 0 then s.setThread t .idle
    else if !copied then s.setThread t .idle
    else if stepRead < step then s.setThread t .idle
    else s.setThread t (.reading fh pos toRead (totalRead + stepRead))
  else s.setThread t .idle

/-- `sysMmap` of a file up to the end of its critical section; `vma` tells whether it then finds and gets
an area. -/
def sysMmapBegin (t fd offset alignedLen : ℕ) (vma : Bool) (s : FileThreads) : FileThreads :=
  match s.handles fd with
  | none => s
  | some fh =>
    let (h, s) := s.readHandle fh
    if h.isDir then s
    else if vma then s.setThread t (.mapping fh offset 0 alignedLen) else s

/-- One round of the loop of `sysMmap`: whether there is a frame, and whether it can be mapped. -/
def sysMmapPage (t fh offset pageOff alignedLen : ℕ) (frame mapped : Bool) (s : FileThreads) :
    FileThreads :=
  if pageOff < alignedLen then
    if !frame then s.setThread t .idle
    else
      let (h, s) := s.readHandle fh
      let s := if offset + pageOff < h.size then s.readPath h.path else s
      if !mapped then s.setThread t .idle
      else s.setThread t (.mapping fh offset (pageOff + 4096) alignedLen)
  else s.setThread t .idle

/-- `sysLseek`, all of which is a critical section; `seek` computes the new offset from the handle, if
there is one. -/
def sysLseek (fd : ℕ) (seek : SharedHandle → Option ℕ) (s : FileThreads) : FileThreads :=
  match s.handles fd with
  | none => s
  | some fh =>
    let (h, s) := s.readHandle fh
    match seek h with
    | none => s
    | some newOffset => s.writeOffset fh newOffset

/-- `sysClose` up to the end of its critical section. -/
def sysCloseBegin (t fd : ℕ) (s : FileThreads) : FileThreads :=
  if fd < 3 then s
  else
    match s.handles fd with
    | none => s
    | some fh => { s with handles := update s.handles fd none }.setThread t (.closing fh)

/-- `kfree(fh->path)`. -/
def sysClosePath (t fh : ℕ) (s : FileThreads) : FileThreads :=
  let (h, s) := s.readHandle fh
  (s.freePath h.path).setThread t (.closingHandle fh)

/-- `kfree(fh)`. -/
def sysCloseHandle (t fh : ℕ) (s : FileThreads) : FileThreads := (s.freeHandle fh).setThread t .idle

/-- What a thread does next. -/
inductive Event where
  | open (fd size : ℕ) (isDir : Bool)
  | read (fd count : ℕ) (chunkMem : Bool)
  | chunk (ok : Bool) (stepRead : ℕ) (copied : Bool)
  | mmap (fd offset alignedLen : ℕ) (vma : Bool)
  | page (frame mapped : Bool)
  | lseek (fd : ℕ) (seek : SharedHandle → Option ℕ)
  | close (fd : ℕ)
  | free

/-- A step of the thread `t`; the calls begin when the thread is in no other one. -/
def step (s : FileThreads) (t : ℕ) (e : Event) : Option FileThreads :=
  match s.thread t, e with
  | .idle, .open fd size isDir =>
    if 3 ≤ fd ∧ s.handles fd = none then some (s.sysOpen fd size isDir) else none
  | .idle, .read fd count chunkMem => some (s.sysReadBegin t fd count chunkMem)
  | .idle, .mmap fd offset alignedLen vma => some (s.sysMmapBegin t fd offset alignedLen vma)
  | .idle, .lseek fd seek => some (s.sysLseek fd seek)
  | .idle, .close fd => some (s.sysCloseBegin t fd)
  | .reading fh pos toRead totalRead, .chunk ok stepRead copied =>
    some (s.sysReadChunk t fh pos toRead totalRead ok stepRead copied)
  | .mapping fh offset pageOff alignedLen, .page frame mapped =>
    some (s.sysMmapPage t fh offset pageOff alignedLen frame mapped)
  | .closing fh, .free => some (s.sysClosePath t fh)
  | .closingHandle fh, .free => some (s.sysCloseHandle t fh)
  | _, _ => none

/-- A thread closes a descriptor only while no thread uses its handle. -/
def Keeps (s : FileThreads) : Event → Prop
  | .close fd => ∀ fh, s.handles fd = some fh → ∀ u, (s.thread u).uses fh = false
  | _ => True

/-- The states that the threads come through, where every `sysClose` meets its condition. -/
inductive Reached : FileThreads → Prop
  | create : Reached create
  | step {s s' : FileThreads} {t : ℕ} {e : Event} :
      Reached s → s.Keeps e → s.step t e = some s' → Reached s'

/-! ## The invariant -/

/-- The path of a handle that has not been freed. -/
def pathOf (s : FileThreads) (fh : ℕ) : Option ℕ := (s.heap fh).map (·.path)

/-- Neither the handle nor its path has been freed. -/
def Live (s : FileThreads) (fh : ℕ) : Prop := ∃ p, s.pathOf fh = some p ∧ s.paths p = true

/-- Handles in the table, handles in use and handles about to be freed are live, and a handle that is about
to be freed is in no other hands. -/
structure Inv (s : FileThreads) : Prop where
  tame : s.wild = false
  bound : ∀ fh p, s.pathOf fh = some p → fh < s.next ∧ p < s.next
  distinct : ∀ fh fh' p, s.pathOf fh = some p → s.pathOf fh' = some p → fh = fh'
  table_live : ∀ fd fh, s.handles fd = some fh → s.Live fh
  table_inj : ∀ fd fd' fh, s.handles fd = some fh → s.handles fd' = some fh → fd = fd'
  uses_live : ∀ t fh, (s.thread t).uses fh = true → s.Live fh
  closing_live : ∀ t fh, s.thread t = .closing fh → s.Live fh
  closes_heap : ∀ t fh, (s.thread t).closes fh = true → s.pathOf fh ≠ none
  closes_table : ∀ t fd fh, (s.thread t).closes fh = true → s.handles fd ≠ some fh
  closes_uses : ∀ t u fh, (s.thread t).closes fh = true → (s.thread u).uses fh = false
  closes_unique : ∀ t u fh, (s.thread t).closes fh = true → (s.thread u).closes fh = true → t = u

variable {s s' : FileThreads} {t fh : ℕ}

/-- A live handle is read. -/
theorem Live.readHandle (h : s.Live fh) :
    ∃ f, s.heap fh = some f ∧ s.readHandle fh = (f, s) ∧ s.paths f.path = true := by
  obtain ⟨p, hp, hlive⟩ := h
  obtain ⟨f, hf, rfl⟩ := map_eq_some_iff.mp hp
  refine ⟨f, hf, ?_, hlive⟩
  rw [FileThreads.readHandle, hf]

/-- What the other threads do. -/
theorem setThread_of_ne {u : ℕ} (hu : u ≠ t) (a : Activity) (s : FileThreads) :
    (s.setThread t a).thread u = s.thread u := update_of_ne hu ..

/-- What the thread does. -/
theorem setThread_self (t : ℕ) (a : Activity) (s : FileThreads) :
    (s.setThread t a).thread t = a := update_self ..

/-- The handle is live and no thread is going to free it. -/
def Kept (s : FileThreads) (fh : ℕ) : Prop := s.Live fh ∧ ∀ u, (s.thread u).closes fh ≠ true

/-- What is in the table is kept. -/
theorem Inv.table_kept (h : s.Inv) {fd : ℕ} (hfd : s.handles fd = some fh) : s.Kept fh :=
  ⟨h.table_live fd fh hfd, fun u hu => h.closes_table u fd fh hu hfd⟩

/-- What a thread uses is kept. -/
theorem Inv.uses_kept (h : s.Inv) (hu : (s.thread t).uses fh = true) : s.Kept fh := by
  refine ⟨h.uses_live t fh hu, fun v hv => ?_⟩
  rw [h.closes_uses v t fh hv] at hu
  cases hu

theorem Inv.uses_read (h : s.Inv) (hu : (s.thread t).uses fh = true) :
    ∃ f, s.Kept fh ∧ s.readHandle fh = (f, s) ∧ s.readPath f.path = s := by
  obtain ⟨f, -, hread, hp⟩ := (h.uses_kept hu).1.readHandle
  exact ⟨f, h.uses_kept hu, hread, if_pos hp⟩

/-- A step that opens nothing: it is enough that the handles in the table and in use are kept. -/
theorem Inv.next_of_kept {w : FileThreads} (h : s.Inv) (htame : w.wild = false) (hnext : w.next = s.next)
    (hpath : ∀ g p, w.pathOf g = some p → s.pathOf g = some p)
    (htable : ∀ k g, w.handles k = some g → s.handles k = some g ∧ w.Kept g)
    (huses : ∀ u g, (w.thread u).uses g = true → w.Kept g)
    (hclosing : ∀ u g, w.thread u = .closing g → w.Live g)
    (hheap : ∀ u g, (w.thread u).closes g = true → w.pathOf g ≠ none)
    (hunique : ∀ u v g, (w.thread u).closes g = true → (w.thread v).closes g = true → u = v) :
    w.Inv where
  tame := htame
  bound g p hg := hnext ▸ h.bound g p (hpath g p hg)
  distinct g g' p hg hg' := h.distinct g g' p (hpath g p hg) (hpath g' p hg')
  table_live k g hk := (htable k g hk).2.1
  table_inj k k' g hk hk' := h.table_inj k k' g (htable k g hk).1 (htable k' g hk').1
  uses_live u g hu := (huses u g hu).1
  closing_live := hclosing
  closes_heap := hheap
  closes_table u k g hu hk := (htable k g hk).2.2 u hu
  closes_uses u v g hu := Bool.eq_false_iff.mpr fun hv => (huses v g hv).2 u hu
  closes_unique := hunique

variable {a : Activity}

/-- A thread goes on with something that closes nothing, and uses a kept handle if any. -/
theorem Inv.setThread (h : s.Inv) (t : ℕ) (hcloses : ∀ fh, a.closes fh = false)
    (hkept : ∀ fh, a.uses fh = true → s.Kept fh) : (s.setThread t a).Inv := by
  -- a thread that closes something is another one and was there before
  have hold : ∀ u fh, ((s.setThread t a).thread u).closes fh = true →
      u ≠ t ∧ (s.thread u).closes fh = true := by
    intro u fh hu
    by_cases hut : u = t
    · subst hut
      rw [setThread_self, hcloses] at hu
      cases hu
    · rw [setThread_of_ne hut] at hu
      exact ⟨hut, hu⟩
  have hstays : ∀ g, s.Kept g → (s.setThread t a).Kept g :=
    fun g hg => ⟨hg.1, fun u hu => hg.2 u (hold u g hu).2⟩
  refine h.next_of_kept h.tame rfl (fun _ _ hg => hg)
    (fun k g hk => ⟨hk, hstays g (h.table_kept hk)⟩) (fun u g hu => hstays g ?_) (fun u g hu => ?_)
    (fun u g hu => h.closes_heap u g (hold u g hu).2)
    (fun u v g hu hv => h.closes_unique u v g (hold u g hu).2 (hold v g hv).2)
  · by_cases hut : u = t
    · subst hut
      rw [setThread_self] at hu
      exact hkept g hu
    · rw [setThread_of_ne hut] at hu
      exact h.uses_kept hu
  · have hc : ((s.setThread t a).thread u).closes g = true := by rw [hu]; exact beq_self_eq_true g
    rw [setThread_of_ne (hold u g hc).1] at hu
    exact h.closing_live u g hu

/-- The call of the thread returns. -/
theorem Inv.idle (h : s.Inv) (t : ℕ) : (s.setThread t .idle).Inv :=
  h.setThread t (fun _ => rfl) fun _ hu => absurd hu Bool.false_ne_true

/-- A thread uses a handle that it finds in the table or that it uses already. -/
theorem Inv.use (h : s.Inv) (t fh : ℕ) (hcloses : ∀ f, a.closes f = false)
    (huses : ∀ f, a.uses f = (fh == f)) (hkept : s.Kept fh) : (s.setThread t a).Inv :=
  h.setThread t hcloses fun f hf => beq_iff_eq.mp ((huses f).symm.trans hf) ▸ hkept

/-! ## Reading, mapping, seeking -/

/-- Setting an offset changes no path. -/
theorem pathOf_writeOffset {f : SharedHandle} (hf : s.heap fh = some f) (offset g : ℕ) :
    (s.writeOffset fh offset).pathOf g = s.pathOf g := by
  simp only [writeOffset, hf, pathOf]
  by_cases hg : g = fh
  · subst hg
    rw [update_self, hf]
    rfl
  · rw [update_of_ne hg]

/-- Setting the offset of a live handle keeps the invariant and what is kept. -/
theorem Inv.writeOffset (h : s.Inv) (hlive : s.Live fh) (offset : ℕ) :
    (s.writeOffset fh offset).Inv ∧ ∀ g, s.Kept g → (s.writeOffset fh offset).Kept g := by
  obtain ⟨f, hf, -⟩ := hlive.readHandle
  have hpath := pathOf_writeOffset hf offset
  have he : s.writeOffset fh offset =
      { s with heap := update s.heap fh (some { f with offset := offset }) } := by
    rw [FileThreads.writeOffset, hf]
  rw [he] at hpath ⊢
  have hl : ∀ g, s.Live g → Live _ g := fun g ⟨p, hg, hp⟩ => ⟨p, (hpath g).trans hg, hp⟩
  have hkept : ∀ g, s.Kept g → Kept _ g := fun g hg => ⟨hl g hg.1, hg.2⟩
  refine ⟨?_, hkept⟩
  exact h.next_of_kept h.tame rfl (fun g p hg => (hpath g).symm.trans hg)
    (fun k g hk => ⟨hk, hkept g (h.table_kept hk)⟩) (fun u g hu => hkept g (h.uses_kept hu))
    (fun u g hu => hl g (h.closing_live u g hu)) (fun u g hu => hpath g ▸ h.closes_heap u g hu)
    h.closes_unique

/-- `sysRead` up to the end of its critical section. -/
theorem Inv.sysReadBegin (h : s.Inv) (t fd count : ℕ) (chunkMem : Bool) :
    (s.sysReadBegin t fd count chunkMem).Inv := by
  rw [FileThreads.sysReadBegin]
  split
  · exact h
  · next fh hfd =>
      have hkept := h.table_kept hfd
      obtain ⟨f, hf, hread, _⟩ := hkept.1.readHandle
      rw [hread]
      simp only
      split
      · exact h
      · split
        · exact h
        · obtain ⟨hinv, hstays⟩ := h.writeOffset hkept.1
            (f.offset + if count < f.size - f.offset then count else f.size - f.offset)
          split
          · exact hinv.use t fh (fun _ => rfl) (fun _ => rfl) (hstays fh hkept)
          · exact hinv

/-- One round of the loop of `sysRead`. -/
theorem Inv.sysReadChunk (h : s.Inv) {pos toRead totalRead : ℕ}
    (ht : s.thread t = .reading fh pos toRead totalRead) (ok : Bool) (stepRead : ℕ) (copied : Bool) :
    (s.sysReadChunk t fh pos toRead totalRead ok stepRead copied).Inv := by
  obtain ⟨f, hkept, hread, hpath⟩ := h.uses_read (by rw [ht]; exact beq_self_eq_true fh)
  rw [FileThreads.sysReadChunk]
  split
  · rw [hread]
    simp only [hpath]
    split
    · exact h.idle t
    · split
      · exact h.idle t
      · generalize (if toRead - totalRead > 65536 then 65536 else toRead - totalRead) = step
        split
        · exact h.idle t
        · exact h.use t fh (fun _ => rfl) (fun _ => rfl) hkept
  · exact h.idle t

/-- `sysMmap` up to the end of its critical section. -/
theorem Inv.sysMmapBegin (h : s.Inv) (t fd offset alignedLen : ℕ) (vma : Bool) :
    (s.sysMmapBegin t fd offset alignedLen vma).Inv := by
  rw [FileThreads.sysMmapBegin]
  split
  · exact h
  · next fh hfd =>
      have hkept := h.table_kept hfd
      obtain ⟨f, hf, hread, _⟩ := hkept.1.readHandle
      rw [hread]
      simp only
      split_ifs
      · exact h
      · exact h.use t fh (fun _ => rfl) (fun _ => rfl) hkept
      · exact h

/-- One round of the loop of `sysMmap`. -/
theorem Inv.sysMmapPage (h : s.Inv) {offset pageOff alignedLen : ℕ}
    (ht : s.thread t = .mapping fh offset pageOff alignedLen) (frame mapped : Bool) :
    (s.sysMmapPage t fh offset pageOff alignedLen frame mapped).Inv := by
  obtain ⟨f, hkept, hread, hpath⟩ := h.uses_read (by rw [ht]; exact beq_self_eq_true fh)
  rw [FileThreads.sysMmapPage]
  split
  · rw [hread]
    simp only [hpath, ite_self]
    split_ifs
    · exact h.idle t
    · exact h.idle t
    · exact h.use t fh (fun _ => rfl) (fun _ => rfl) hkept
  · exact h.idle t

/-- `sysLseek`. -/
theorem Inv.sysLseek (h : s.Inv) (fd : ℕ) (seek : SharedHandle → Option ℕ) : (s.sysLseek fd seek).Inv := by
  rw [FileThreads.sysLseek]
  split
  · exact h
  · next fh hfd =>
      have hlive := h.table_live fd fh hfd
      obtain ⟨f, hf, hread, _⟩ := hlive.readHandle
      rw [hread]
      simp only
      split
      · exact h
      · exact (h.writeOffset hlive _).1

/-! ## Opening and closing -/

/-- `sysOpen`: the new blocks are in no hands. -/
theorem Inv.sysOpen (h : s.Inv) (fd size : ℕ) (isDir : Bool) : (s.sysOpen fd size isDir).Inv := by
  have hfresh : s.pathOf s.next = none := by
    cases hp : s.pathOf s.next with
    | none => rfl
    | some p => exact absurd (h.bound _ p hp).1 (Nat.lt_irrefl _)
  have hnew : (s.sysOpen fd size isDir).pathOf s.next = some (s.next + 1) :=
    by simp only [FileThreads.sysOpen, pathOf, update_self, map_some]
  have hpath : ∀ g, g ≠ s.next → (s.sysOpen fd size isDir).pathOf g = s.pathOf g :=
    fun g hg => by simp only [FileThreads.sysOpen, pathOf, update_of_ne hg]
  have hne : ∀ g, s.Live g → g ≠ s.next := by
    rintro g ⟨p, hp, _⟩ rfl
    rw [hfresh] at hp
    cases hp
  have hlive : ∀ g, s.Live g → (s.sysOpen fd size isDir).Live g := by
    rintro g ⟨p, hp, hpp⟩
    refine ⟨p, by rw [hpath g (hne g ⟨p, hp, hpp⟩), hp], ?_⟩
    have hlt : p ≠ s.next + 1 := Nat.ne_of_lt (Nat.lt_succ_of_lt (h.bound g p hp).2)
    simp only [FileThreads.sysOpen, update_of_ne hlt, hpp]
  have hpaths : ∀ g p, (s.sysOpen fd size isDir).pathOf g = some p →
      g = s.next ∧ p = s.next + 1 ∨ s.pathOf g = some p := by
    intro g p hg
    by_cases hgn : g = s.next
    · rw [hgn, hnew] at hg
      exact .inl ⟨hgn, (some.inj hg).symm⟩
    · exact .inr ((hpath g hgn).symm.trans hg)
  have htab : ∀ k g, (s.sysOpen fd size isDir).handles k = some g →
      k = fd ∧ g = s.next ∨ s.handles k = some g := by
    intro k g hk
    by_cases hkf : k = fd
    · have hself : (s.sysOpen fd size isDir).handles fd = some s.next := update_self ..
      rw [hkf, hself] at hk
      exact .inl ⟨hkf, (some.inj hk).symm⟩
    · exact .inr ((update_of_ne hkf ..).symm.trans hk)
  refine ⟨h.tame, fun g p hg => ?_, fun g g' p hg hg' => ?_, fun k g hk => ?_, fun k k' g hk hk' => ?_,
    fun u g hu => hlive g (h.uses_live u g hu), fun u g hu => hlive g (h.closing_live u g hu),
    fun u g hu => ?_, fun u k g hu hk => ?_, h.closes_uses, h.closes_unique⟩
  · change g < s.next + 2 ∧ p < s.next + 2
    rcases hpaths g p hg with ⟨rfl, rfl⟩ | hg
    · omega
    · have := h.bound g p hg
      omega
  · rcases hpaths g p hg with ⟨hgn, hp⟩ | hg <;> rcases hpaths g' p hg' with ⟨hgn', hp'⟩ | hg'
    · exact hgn.trans hgn'.symm
    · have := (h.bound g' p hg').2
      omega
    · have := (h.bound g p hg).2
      omega
    · exact h.distinct g g' p hg hg'
  · rcases htab k g hk with ⟨-, rfl⟩ | hk
    · exact ⟨s.next + 1, hnew, update_self ..⟩
    · exact hlive g (h.table_live k g hk)
  · rcases htab k g hk with ⟨hkf, hg⟩ | hk <;> rcases htab k' g hk' with ⟨hkf', hg'⟩ | hk'
    · exact hkf.trans hkf'.symm
    · exact absurd hg (hne g (h.table_live k' g hk'))
    · exact absurd hg' (hne g (h.table_live k g hk))
    · exact h.table_inj k k' g hk hk'
  · have hg := h.closes_heap u g hu
    rw [hpath g fun he => hg (he ▸ hfresh)]
    exact hg
  · rcases htab k g hk with ⟨-, rfl⟩ | hk
    · exact h.closes_heap u _ hu hfresh
    · exact h.closes_table u k g hu hk

/-- `sysClose` takes the handle from the table; no thread uses it. -/
theorem Inv.sysCloseBegin (h : s.Inv) (t fd : ℕ) (hk : s.Keeps (.close fd)) :
    (s.sysCloseBegin t fd).Inv := by
  rw [FileThreads.sysCloseBegin]
  split
  · exact h
  · split
    · exact h
    · next fh hfd =>
        obtain ⟨w, hw⟩ : ∃ w : FileThreads,
          w = { s with handles := update s.handles fd none } := ⟨_, rfl⟩
        have htab : ∀ k g, w.handles k = some g → k ≠ fd ∧ s.handles k = some g := by
          intro k g hk
          by_cases hkf : k = fd
          · rw [hw, hkf] at hk
            simp only [update_self] at hk
            cases hk
          · rw [hw] at hk
            simp only [update_of_ne hkf] at hk
            exact ⟨hkf, hk⟩
        rw [← hw]
        -- the thread that closes `g` is `t`, or it was closing `g` before
        have hcl : ∀ u g, ((w.setThread t (.closing fh)).thread u).closes g = true →
            (u = t ∧ g = fh) ∨ (u ≠ t ∧ (s.thread u).closes g = true) := by
          intro u g hu
          by_cases hut : u = t
          · rw [hut, setThread_self] at hu
            exact .inl ⟨hut, (beq_iff_eq.mp hu).symm⟩
          · rw [setThread_of_ne hut, hw] at hu
            exact .inr ⟨hut, hu⟩
        have hstays : ∀ g, g ≠ fh → s.Kept g → (w.setThread t (.closing fh)).Kept g :=
          fun g hg hk => ⟨hw ▸ hk.1, fun u hu => (hcl u g hu).elim (fun e => hg e.2) fun e => hk.2 u e.2⟩
        refine h.next_of_kept (hw ▸ h.tame) (hw ▸ rfl) (fun _ _ hg => by rw [hw] at hg; exact hg)
          (fun k g hkg => ?_) (fun u g hu => ?_) (fun u g hu => ?_) (fun u g hu => ?_) (fun u v g hu hv => ?_)
        · obtain ⟨hkf, hbound⟩ := htab k g hkg
          exact ⟨hbound, hstays g (fun he => hkf (h.table_inj k fd fh (he ▸ hbound) hfd))
            (h.table_kept hbound)⟩
        · by_cases hut : u = t
          · rw [hut, setThread_self] at hu
            exact absurd hu Bool.false_ne_true
          · rw [setThread_of_ne hut, hw] at hu
            refine hstays g ?_ (h.uses_kept hu)
            rintro rfl
            exact absurd hu (by rw [hk g hfd u]; decide)
        · by_cases hut : u = t
          · rw [hut, setThread_self] at hu
            obtain rfl := Activity.closing.inj hu
            exact hw ▸ h.table_live fd fh hfd
          · rw [setThread_of_ne hut, hw] at hu
            exact hw ▸ h.closing_live u g hu
        · rcases hcl u g hu with ⟨_, rfl⟩ | ⟨_, hc⟩
          · obtain ⟨p, hp, _⟩ := h.table_live fd g hfd
            intro hn
            rw [hw] at hn
            exact nomatch hp.symm.trans hn
          · exact hw ▸ h.closes_heap u g hc
        · rcases hcl u g hu with ⟨rfl, rfl⟩ | ⟨_, hc⟩
          · rcases hcl v g hv with ⟨rfl, _⟩ | ⟨_, hc⟩
            · rfl
            · exact absurd hc ((h.table_kept hfd).2 v)
          · rcases hcl v g hv with ⟨rfl, rfl⟩ | ⟨_, hc'⟩
            · exact absurd hc ((h.table_kept hfd).2 u)
            · exact h.closes_unique u v g hc hc'

/-- A thread that is closing a handle goes on: the other handles and the other threads are as before. -/
theorem Inv.release {w : FileThreads} (h : s.Inv) (ht : (s.thread t).closes fh = true)
    (htame : w.wild = false) (hhandles : w.handles = s.handles) (hnext : w.next = s.next)
    (hpaths : ∀ g, w.pathOf g = s.pathOf g ∨ g = fh ∧ w.pathOf g = none)
    (hlive : ∀ g, g ≠ fh → s.Live g → w.Live g) (hother : ∀ u, u ≠ t → w.thread u = s.thread u)
    (hself : w.thread t = .closingHandle fh ∧ w.pathOf fh ≠ none ∨ w.thread t = .idle) : w.Inv := by
  have hpath : ∀ g p, w.pathOf g = some p → s.pathOf g = some p := by
    intro g p hg
    rcases hpaths g with he | ⟨_, he⟩
    · rwa [← he]
    · exact nomatch hg.symm.trans he
  have hcl : ∀ u g, (w.thread u).closes g = true →
      (s.thread u).closes g = true ∧ (u = t → g = fh ∧ w.pathOf fh ≠ none) := by
    intro u g hu
    by_cases hut : u = t
    · subst hut
      rcases hself with ⟨hs, hp⟩ | hs
      · rw [hs] at hu
        obtain rfl := beq_iff_eq.mp hu
        exact ⟨ht, fun _ => ⟨rfl, hp⟩⟩
      · rw [hs] at hu
        exact absurd hu Bool.false_ne_true
    · rw [hother u hut] at hu
      exact ⟨hu, fun he => absurd he hut⟩
  have hstays : ∀ g, s.Kept g → w.Kept g := by
    intro g hg
    have hne : g ≠ fh := by
      rintro rfl
      exact hg.2 t ht
    exact ⟨hlive g hne hg.1, fun u hu => hg.2 u (hcl u g hu).1⟩
  have hut : ∀ {u g}, (w.thread u).uses g = true ∨ w.thread u = .closing g → u ≠ t := by
    rintro u g hu rfl
    rcases hself with ⟨hs, _⟩ | hs <;> rw [hs] at hu <;> exact absurd hu (by simp [Activity.uses])
  refine h.next_of_kept htame hnext hpath (fun k g hk => ?_) (fun u g hu => ?_) (fun u g hu => ?_)
    (fun u g hu => ?_) fun u v g hu hv => h.closes_unique u v g (hcl u g hu).1 (hcl v g hv).1
  · rw [hhandles] at hk
    exact ⟨hk, hstays g (h.table_kept hk)⟩
  · rw [hother u (hut (.inl hu))] at hu
    exact hstays g (h.uses_kept hu)
  · have hne := hut (.inr hu)
    rw [hother u hne] at hu
    refine hlive g (fun he => ?_) (h.closing_live u g hu)
    have hc : (s.thread u).closes fh = true := by rw [hu, he]; exact beq_self_eq_true fh
    exact hne (h.closes_unique u t fh hc ht)
  · obtain ⟨hu', hut⟩ := hcl u g hu
    by_cases hg : g = fh
    · subst hg
      exact (hut (h.closes_unique u t g hu' ht)).2
    · rw [(hpaths g).resolve_right fun hn => hg hn.1]
      exact h.closes_heap u g hu'

/-- `kfree(fh->path)`. -/
theorem Inv.sysClosePath (h : s.Inv) (ht : s.thread t = .closing fh) : (s.sysClosePath t fh).Inv := by
  have hc : (s.thread t).closes fh = true := by rw [ht]; exact beq_self_eq_true fh
  obtain ⟨f, hf, hread, hp⟩ := (h.closing_live t fh ht).readHandle
  have hpf : s.pathOf fh = some f.path := by rw [pathOf, hf]; rfl
  have he : s.sysClosePath t fh =
      { s with paths := update s.paths f.path false }.setThread t (.closingHandle fh) := by
    rw [FileThreads.sysClosePath, hread]
    simp only [freePath, hp, if_true]
  rw [he]
  refine h.release hc h.tame rfl rfl (fun g => .inl rfl) ?_ (fun u hu => setThread_of_ne hu ..)
    (.inl ⟨setThread_self .., ?_⟩)
  · rintro g hg ⟨p, hp, hpp⟩
    have hne : p ≠ f.path := by
      rintro rfl
      exact hg (h.distinct g fh _ hp hpf)
    exact ⟨p, hp, (update_of_ne hne ..).trans hpp⟩
  · exact fun hn => nomatch hpf.symm.trans hn

/-- `kfree(fh)`. -/
theorem Inv.sysCloseHandle (h : s.Inv) (ht : s.thread t = .closingHandle fh) :
    (s.sysCloseHandle t fh).Inv := by
  have hc : (s.thread t).closes fh = true := by rw [ht]; exact beq_self_eq_true fh
  obtain ⟨p, hp⟩ := ne_none_iff_exists'.mp (h.closes_heap t fh hc)
  obtain ⟨f, hf, _⟩ := map_eq_some_iff.mp hp
  have he : s.sysCloseHandle t fh =
      { s with heap := update s.heap fh none }.setThread t .idle := by
    rw [FileThreads.sysCloseHandle, freeHandle, hf]
  rw [he]
  have hpath : ∀ g, g ≠ fh → (update s.heap fh none g).map (·.path) = s.pathOf g :=
    fun g hg => by rw [update_of_ne hg, pathOf]
  refine h.release hc h.tame rfl rfl (fun g => ?_) ?_ (fun u hu => setThread_of_ne hu ..)
    (.inr (setThread_self ..))
  · by_cases hg : g = fh
    · exact .inr ⟨hg, by simp [pathOf, FileThreads.setThread, hg]⟩
    · exact .inl (hpath g hg)
  · rintro g hg ⟨p, hp, hpp⟩
    exact ⟨p, (hpath g hg).trans hp, hpp⟩

/-! ## Runs -/

/-- One step of a thread. -/
theorem Inv.step {e : Event} (h : s.Inv) (hk : s.Keeps e) (hstep : s.step t e = some s') : s'.Inv := by
  unfold FileThreads.step at hstep
  split at hstep
  · split at hstep
    · exact some.inj hstep ▸ h.sysOpen ..
    · cases hstep
  · exact some.inj hstep ▸ h.sysReadBegin ..
  · exact some.inj hstep ▸ h.sysMmapBegin ..
  · exact some.inj hstep ▸ h.sysLseek ..
  · exact some.inj hstep ▸ h.sysCloseBegin _ _ hk
  · next ht => exact some.inj hstep ▸ h.sysReadChunk ht ..
  · next ht => exact some.inj hstep ▸ h.sysMmapPage ht ..
  · next ht => exact some.inj hstep ▸ h.sysClosePath ht
  · next ht => exact some.inj hstep ▸ h.sysCloseHandle ht
  · cases hstep

/-- No handle, no thread in a call. -/
theorem inv_create : create.Inv := by
  constructor <;> simp [create, pathOf, Activity.uses, Activity.closes]

/-- The invariant holds along every run. -/
theorem Reached.inv (h : Reached s) : s.Inv := by
  induction h with
  | create => exact inv_create
  | step _ hk hstep ih => exact ih.step hk hstep

/-- If handles are only closed while no thread uses them then no step uses or frees a handle or a path that
has been freed, whatever the order of the steps. -/
theorem handles_safe (h : Reached s) : s.wild = false := h.inv.tame

/-- The events of a run, each with its thread. -/
def run (es : List (ℕ × Event)) : Option FileThreads := es.foldlM (fun s e => s.step e.1 e.2) create

/-- Thread 1 reads from descriptor 3 to the end, and then thread 2 closes it. -/
def sampleOrder : List (ℕ × Event) :=
  [(1, .open 3 100 false), (1, .read 3 10 true), (1, .chunk true 10 true), (1, .chunk true 0 true),
    (2, .close 3), (2, .free), (2, .free)]

/-- The close meets its condition, and nothing goes wrong. -/
theorem handles_safe_order :
    (run sampleOrder).isSome = true ∧ (run sampleOrder).map (·.wild) = some false := by
  have h3 := Reached.step (t := 1) (e := .chunk true 10 true) (Reached.step (t := 1) (e := .read 3 10 true)
    (Reached.step (t := 1) (e := .open 3 100 false) .create trivial rfl) trivial rfl) trivial rfl
  have h4 := Reached.step (t := 1) (e := .chunk true 0 true) h3 trivial rfl
  have h7 := Reached.step (t := 2) (e := .free) (Reached.step (t := 2) (e := .free)
    (Reached.step (t := 2) (e := .close 3) h4 (fun fh _ u => ?_) rfl) trivial rfl) trivial rfl
  · exact ⟨rfl, congrArg some (handles_safe h7)⟩
  · -- thread 1 has returned, and the others have done nothing
    by_cases hu : u = 1
    · rw [hu]
      rfl
    · have hidle := (setThread_of_ne hu .idle _).trans
        ((setThread_of_ne hu (.reading 0 0 10 10) _).trans (setThread_of_ne hu (.reading 0 0 10 0)
          ((create.sysOpen 3 100 false).writeOffset 0 10)))
      exact congrArg (Activity.uses fh) hidle

/-- Thread 1 has begun to read descriptor 3 when thread 2 closes it. -/
def sampleRace : List (ℕ × Event) :=
  [(1, .open 3 100 false), (1, .read 3 10 true), (2, .close 3), (2, .free), (2, .free),
    (1, .chunk true 10 true)]

/-- The chunk is read through a freed handle. The state was not wild before. -/
theorem read_after_close :
    (run sampleRace).map (·.wild) = some true ∧ (run (sampleRace.take 5)).map (·.wild) = some false := by
  decide +kernel

end FileThreads

end NovaOS.Syscall
