import NovaOS.Mem.Vmm
import NovaOS.Mem.PmmSpec

/-!
# The page-table tree of an address space

The user half of an address space is a radix tree of tables. `Space` is its invariant: distinct paths
reach distinct tables, every table is a frame in use, directory entries are writable, executable and
never huge, and a user leaf has user directories above it.

`vmm.c` changes the tree in four ways: it rewrites an entry in place, links a fresh empty table,
takes a frame and drops the attempt, and unlinks and frees an empty table. Each is an `Evolves` step:
the invariant is kept, the used frames that are not tables of the space stay the same, what the logs
of `pmm_alloc_frame` and `pmm_free_frame` owe changes only by the tables of the space, and a new table
is a frame handed out on the way.
-/

namespace NovaOS.Mem

open NovaOS.Lib List Radix Option

/-- A path to a table of the user half: at most three indices, the first below 256. -/
structure UserPath (p : List (Fin 512)) : Prop where
  length_le : p.length ≤ 3
  head_lt : ∀ i ∈ p.head?, i.val < 256

theorem userPath_nil : UserPath [] := ⟨by simp, by simp⟩

theorem userPath_prefixClosed : PrefixClosed UserPath := by
  rintro p q ⟨r, rfl⟩ hq
  refine ⟨?_, fun i hi => hq.head_lt i ?_⟩
  · have hlen := hq.length_le
    rw [length_append] at hlen
    omega
  · cases p with
    | nil => simp at hi
    | cons j p => simpa using hi

section

variable {p : List (Fin 512)} {i : Fin 512} (h : UserPath (p ++ [i]))
include h

theorem UserPath.of_concat : UserPath p := userPath_prefixClosed.of_concat h

theorem UserPath.length_lt : p.length < 3 := Nat.lt_of_succ_le (by simpa using h.length_le)

end

/-- The bits every directory entry has: writable, not huge, executable. -/
structure Pte.DirBits (e : Pte) : Prop where
  writable : e.getLsbD 1 = true
  huge : e.getLsbD 7 = false
  noExecute : e.getLsbD 63 = false

theorem Pte.dirBits_dir {frame : ℕ} (h : FrameAddr frame) (flags : Pte) :
    (Pte.dir frame flags).DirBits := by
  refine ⟨?_, ?_, ?_⟩ <;> rw [Pte.getLsbD_dir]
  · simp
  · rw [h.getLsbD (by decide)]
    simp
  · rw [h.getLsbD (by decide)]
    simp

theorem Pte.DirBits.widen {e : Pte} (h : e.DirBits) (flags : Pte) : (e.widen flags).DirBits := by
  refine ⟨?_, ?_, ?_⟩ <;> rw [Pte.getLsbD_widen]
  · rw [h.writable]
    rfl
  · rw [h.huge]
    simp
  · rw [h.noExecute]
    simp

variable {a : ℕ}

/-- The frames of the allocator have addresses that fit an entry. -/
theorem FrameAddr.of_total {total : ℕ} (htotal : total ≤ 2 ^ 40) (halign : a % pageSize = 0)
    (hne : a ≠ 0) (hlt : a / pageSize < total) : FrameAddr a := by
  refine ⟨halign, hne, ?_⟩
  rw [pageSize] at *
  omega

/-- Two aligned addresses of the same frame are equal. -/
theorem FrameAddr.eq_of_div_eq {b : ℕ} (ha : FrameAddr a) (hb : FrameAddr b)
    (h : a / pageSize = b / pageSize) : a = b := by
  have ha' := ha.aligned
  have hb' := hb.aligned
  rw [pageSize] at *
  omega

theorem FrameAddr.div_eq_iff {b : ℕ} (ha : FrameAddr a) (hb : FrameAddr b) :
    a / pageSize = b / pageSize ↔ a = b :=
  ⟨ha.eq_of_div_eq hb, fun h => h ▸ rfl⟩

theorem FrameAddr.div_ne_zero (h : FrameAddr a) : a / pageSize ≠ 0 := by
  have h1 := h.aligned
  have h2 := h.ne_zero
  rw [pageSize] at *
  omega

/-- An address that `pmm_free_frame` does not ignore. -/
structure FreeAddr (a : ℕ) : Prop where
  ne_zero : a ≠ 0
  aligned : a % pageSize = 0

theorem FrameAddr.valid (ha : FrameAddr a) : FreeAddr a := ⟨ha.ne_zero, ha.aligned⟩

theorem FreeAddr.eq_div_iff (ha : FreeAddr a) {g : ℕ} : g = a / pageSize ↔ g * pageSize = a := by
  have := ha.aligned
  rw [pageSize] at *
  omega

variable {s : Pmm}

/-- Freeing a frame removes it from the frames in use. -/
theorem FreeAddr.pmmFreeFrame (ha : FreeAddr a) (hs : s.Inv) :
    s.Post (s.usedSet.erase (a / pageSize)) (s.pmmFreeFrame a) := by
  have hpost := hs.pmmFreeFrame a
  rwa [Pmm.namedFrames, if_neg (by simp [ha.ne_zero, ha.aligned]), Pmm.Ico_succ_eq_insert le_rfl,
    Finset.Ico_self, Finset.sdiff_insert, Finset.sdiff_empty] at hpost

theorem FrameAddr.pmmFreeFrame (ha : FrameAddr a) (hs : s.Inv) :
    s.Post (s.usedSet.erase (a / pageSize)) (s.pmmFreeFrame a) :=
  ha.valid.pmmFreeFrame hs

/-- Another frame stays in use. -/
theorem FrameAddr.mem_pmmFreeFrame {b : ℕ} (hb : FrameAddr b) (ha : FrameAddr a) (hs : s.Inv) :
    b / pageSize ∈ (s.pmmFreeFrame a).usedSet ↔ b ≠ a ∧ b / pageSize ∈ s.usedSet := by
  rw [(ha.pmmFreeFrame hs).used_eq, Finset.mem_erase, ne_eq, hb.div_eq_iff ha]

theorem FrameAddr.zero_mem_pmmFreeFrame (ha : FrameAddr a) (hs : s.Inv) (hz : 0 ∈ s.usedSet) :
    0 ∈ (s.pmmFreeFrame a).usedSet := by
  rw [(ha.pmmFreeFrame hs).used_eq]
  exact Finset.mem_erase_of_ne_of_mem ha.div_ne_zero.symm hz

namespace Vmm

/-- The table reached from `root` along a path. -/
def table (m : Vmm) (root : ℕ) (p : List (Fin 512)) : Option ℕ := walk Pte.child m.mem root p

/-- Entry `i` of the table at a path. -/
def entry (m : Vmm) (root : ℕ) (p : List (Fin 512)) (i : Fin 512) : Option Pte :=
  (m.table root p).map fun t => m.mem t i

/-- The present entry `i` of the table at a path. -/
def leaf (m : Vmm) (root : ℕ) (p : List (Fin 512)) (i : Fin 512) : Option Pte :=
  (m.entry root p i).filter fun e => e.getLsbD 0

/-- A table of the user half, the root included. -/
def IsTable (m : Vmm) (root a : ℕ) : Prop := ∃ p, UserPath p ∧ m.table root p = some a

/-- The invariant of an address space. -/
structure Space (m : Vmm) (root : ℕ) : Prop where
  pmm : m.pmm.Inv
  total_le : m.pmm.gTotalFrames ≤ 2 ^ 40
  sep : Sep Pte.child UserPath m.mem root
  used : ∀ {p t}, UserPath p → m.table root p = some t → FrameAddr t ∧ t / pageSize ∈ m.pmm.usedSet
  dirs : ∀ {p i e}, UserPath (p ++ [i]) → m.entry root p i = some e → e.getLsbD 0 = true → e.DirBits
  user : ∀ {p i e}, UserPath p → p.length = 3 → m.leaf root p i = some e → e.getLsbD 2 = true →
    ∀ {q j e'}, (q ++ [j]) <+: p → m.entry root q j = some e' → e'.getLsbD 2 = true

open Classical in
/-- The calls of `pmm_alloc_frame` that returned `a`, less the frees of `a`, less one if `a` is a
table of the space. -/
noncomputable def owed (m : Vmm) (root a : ℕ) : ℤ :=
  m.allocated.count a - m.freed.count a - if m.IsTable root a then 1 else 0

/-- What every step of `vmm.c` on an address space guarantees. -/
structure Evolves (m m' : Vmm) (root : ℕ) : Prop where
  space : m'.Space root
  kernel_eq : m'.gKernelPml4 = m.gKernelPml4
  total_eq : m'.pmm.gTotalFrames = m.pmm.gTotalFrames
  others_eq : ∀ a, FrameAddr a →
    ((a / pageSize ∈ m'.pmm.usedSet ∧ ¬m'.IsTable root a) ↔
      (a / pageSize ∈ m.pmm.usedSet ∧ ¬m.IsTable root a))
  mem_eq : ∀ a, FrameAddr a → a / pageSize ∈ m.pmm.usedSet → ¬m.IsTable root a → m'.mem a = m.mem a
  zero_mono : 0 ∈ m.pmm.usedSet → 0 ∈ m'.pmm.usedSet
  owed_eq : ∀ a, m'.owed root a = m.owed root a
  grown : ∃ new, m'.allocated = new ++ m.allocated ∧
    (∀ a, m'.IsTable root a → m.IsTable root a ∨ a ∈ new) ∧
    ∀ a ∈ new, a / pageSize < m.pmm.gTotalFrames

variable {m : Vmm} {root : ℕ}

theorem Space.evolves_self (h : m.Space root) : m.Evolves m root :=
  ⟨h, rfl, rfl, fun _ _ => Iff.rfl, fun _ _ _ _ => rfl, id, fun _ => rfl, [], rfl,
    fun _ => .inl, by simp⟩

theorem Evolves.trans {m1 m2 m3 : Vmm} (h : m1.Evolves m2 root) (h' : m2.Evolves m3 root) :
    m1.Evolves m3 root where
  space := h'.space
  kernel_eq := h'.kernel_eq.trans h.kernel_eq
  total_eq := h'.total_eq.trans h.total_eq
  others_eq := fun a ha => (h'.others_eq a ha).trans (h.others_eq a ha)
  mem_eq := fun a ha hused hnot => by
    obtain ⟨hused', hnot'⟩ := (h.others_eq a ha).mpr ⟨hused, hnot⟩
    exact (h'.mem_eq a ha hused' hnot').trans (h.mem_eq a ha hused hnot)
  zero_mono := fun h0 => h'.zero_mono (h.zero_mono h0)
  owed_eq := fun a => (h'.owed_eq a).trans (h.owed_eq a)
  grown := by
    obtain ⟨new, hlog, htable, hlt⟩ := h.grown
    obtain ⟨new', hlog', htable', hlt'⟩ := h'.grown
    refine ⟨new' ++ new, by rw [hlog', hlog, append_assoc], fun a ha => ?_, fun a ha => ?_⟩
    · rcases htable' a ha with ha | ha
      · exact (htable a ha).imp_right (mem_append_right _)
      · exact .inr (mem_append_left _ ha)
    · rcases mem_append.mp ha with ha | ha
      · exact h.total_eq ▸ hlt' a ha
      · exact hlt a ha

/-! ## Reading the tree -/

section View

variable {m : Vmm} {root t : ℕ} {p : List (Fin 512)} {i : Fin 512} {e : Pte}

theorem entry_of_table (ht : m.table root p = some t) (i : Fin 512) :
    m.entry root p i = some (m.mem t i) := by
  rw [entry, ht]
  rfl

theorem entry_eq_some :
    m.entry root p i = some e ↔ ∃ t, m.table root p = some t ∧ m.mem t i = e := by
  rw [entry, map_eq_some_iff]

theorem leaf_eq_some :
    m.leaf root p i = some e ↔ m.entry root p i = some e ∧ e.getLsbD 0 = true := by
  rw [leaf, filter_eq_some_iff]

theorem leaf_of_entry (h : m.entry root p i = some e) :
    m.leaf root p i = if e.getLsbD 0 then some e else none := by
  rw [leaf, h]
  rfl

variable {m' : Vmm}

theorem leaf_congr (h : m'.entry root p i = m.entry root p i) :
    m'.leaf root p i = m.leaf root p i := by
  rw [leaf, leaf, h]

theorem table_concat : m.table root (p ++ [i]) = (m.entry root p i).bind Pte.child := by
  rw [table, walk_concat, entry, bind_map]
  rfl

/-- A table's path has a table at every prefix. -/
theorem table_of_isPrefix {q : List (Fin 512)} (h : p <+: q) (hq : m.table root q = some t) :
    ∃ s, m.table root p = some s := by
  obtain ⟨r, rfl⟩ := h
  rw [table, walk_append] at hq
  obtain ⟨s, hs, -⟩ := bind_eq_some_iff.mp hq
  exact ⟨s, hs⟩

theorem isTable_congr (h : ∀ q, UserPath q → m'.table root q = m.table root q) (a : ℕ) :
    m'.IsTable root a ↔ m.IsTable root a := by
  constructor <;> rintro ⟨q, hq, ht⟩
  · exact ⟨q, hq, (h q hq) ▸ ht⟩
  · exact ⟨q, hq, (h q hq).symm ▸ ht⟩

variable {a : ℕ}

theorem owed_of_isTable (h : m.IsTable root a) :
    m.owed root a = m.allocated.count a - m.freed.count a - 1 := by
  rw [owed, if_pos h]

theorem owed_of_not_isTable (h : ¬m.IsTable root a) :
    m.owed root a = m.allocated.count a - m.freed.count a := by
  rw [owed, if_neg h, Int.sub_zero]

open Classical in
theorem owed_congr (halloc : m'.allocated = m.allocated) (hfreed : m'.freed = m.freed)
    (h : m'.IsTable root a ↔ m.IsTable root a) : m'.owed root a = m.owed root a := by
  simp only [owed, halloc, hfreed, h]

end View

/-! ## Rewriting an entry in place -/

section InPlace

variable {m : Vmm} {root t : ℕ} {p : List (Fin 512)} {i : Fin 512} {e : Pte}

variable {q : List (Fin 512)}

/-- The entries after a write at `(p, i)` that moves no table. -/
theorem Space.entry_write (h : m.Space root) (hp : UserPath p) (ht : m.table root p = some t)
    (hq : UserPath q) (hsame : (m.write t i e).table root q = m.table root q) (j : Fin 512) :
    (m.write t i e).entry root q j = if q = p ∧ j = i then some e else m.entry root q j :=
  entry_setEntry h.sep hp ht hq hsame j

/-- A write that moves no table keeps the space when a directory entry keeps its bits and its `USER`
bit, and a user leaf is below user directories. -/
theorem Space.write (h : m.Space root) (hp : UserPath p) (ht : m.table root p = some t)
    (hsame : ∀ q, UserPath q → (m.write t i e).table root q = m.table root q)
    (hdir : UserPath (p ++ [i]) → e.getLsbD 0 = true → e.DirBits)
    (hmono : p.length < 3 → (m.mem t i).getLsbD 2 = true → e.getLsbD 2 = true)
    (huser : p.length = 3 → e.getLsbD 0 = true → e.getLsbD 2 = true →
      ∀ {q j e'}, (q ++ [j]) <+: p → m.entry root q j = some e' → e'.getLsbD 2 = true) :
    m.Evolves (m.write t i e) root := by
  have hentry : ∀ {q} j, UserPath q → (m.write t i e).entry root q j = _ :=
    fun j hq => h.entry_write hp ht hq (hsame _ hq) j
  have hspace : (m.write t i e).Space root :=
    { pmm := h.pmm
      total_le := h.total_le
      sep := h.sep.congr hsame
      used := fun hq hs => h.used hq ((hsame _ hq).symm.trans hs)
      dirs := by
        intro q j e' hq he' hpres
        rw [hentry j hq.of_concat] at he'
        split at he'
        · rename_i hqp
          obtain ⟨rfl, rfl⟩ := hqp
          obtain rfl := some.inj he'
          exact hdir hq hpres
        · exact h.dirs hq he' hpres
      user := by
        intro p' k e1 hp' hlen hl hu q j e' hpre he'
        have hq : UserPath q := (userPath_prefixClosed _ _ hpre hp').of_concat
        rw [leaf_eq_some, hentry k hp'] at hl
        rw [hentry j hq] at he'
        have hqlen := (userPath_prefixClosed _ _ hpre hp').length_lt
        split at he'
        · rename_i hqp
          obtain ⟨rfl, rfl⟩ := hqp
          obtain rfl := some.inj he'
          -- the write is in a directory, so the leaf is an old one
          rw [if_neg (by rintro ⟨rfl, -⟩; omega), ← leaf_eq_some] at hl
          exact hmono hqlen (h.user hp' hlen hl hu hpre (entry_of_table ht j))
        · split at hl
          · rename_i hpk
            obtain ⟨rfl, rfl⟩ := hpk
            obtain rfl := some.inj hl.1
            exact huser hlen hl.2 hu hpre he'
          · exact h.user hp' hlen (leaf_eq_some.mpr hl) hu hpre he' }
  refine ⟨hspace, rfl, rfl, fun a _ => ?_, fun a _ _ hnot => ?_, id, fun a => ?_,
    [], rfl, fun a ha => .inl ((isTable_congr hsame a).mp ha), by simp⟩
  · rw [isTable_congr hsame]
    rfl
  · funext j
    exact setEntry_of_ne _ _ fun hc => hnot (hc.1 ▸ ⟨p, hp, ht⟩)
  · exact owed_congr rfl rfl (isTable_congr hsame a)

/-- Writes to the entries of a page table move no table. -/
theorem Space.table_write_leaf (h : m.Space root) (hp : UserPath p) (hlen : p.length = 3)
    (ht : m.table root p = some t) (hq : UserPath q) :
    (m.write t i e).table root q = m.table root q := by
  refine walk_setEntry_of_not_isPrefix userPath_prefixClosed h.sep hp ht hq ?_
  intro hpre
  have h1 := hpre.length_le
  have h2 := hq.length_le
  rw [length_append, length_singleton] at h1
  omega

end InPlace

/-! ## Freeing a list of frames -/

/-- `pmm_free_frame` of every address of a list, in order. -/
def freeAll (l : List ℕ) (m : Vmm) : Vmm := l.foldl pmmFreeFrame m

theorem freeAll_append (l l' : List ℕ) (m : Vmm) :
    freeAll (l ++ l') m = freeAll l' (freeAll l m) := by
  rw [freeAll, foldl_append]
  rfl

/-- Only the allocator and the log of frees change. -/
theorem freeAll_eq (l : List ℕ) (m : Vmm) :
    freeAll l m = { m with pmm := (freeAll l m).pmm, freed := l.reverse ++ m.freed } := by
  induction l generalizing m with
  | nil => rfl
  | cons a l ih =>
    refine (ih (m.pmmFreeFrame a)).trans ?_
    rw [reverse_cons, append_assoc]
    rfl

theorem freeAll_mem (l : List ℕ) (m : Vmm) : (freeAll l m).mem = m.mem := by
  rw [freeAll_eq]

theorem freeAll_kernel (l : List ℕ) (m : Vmm) : (freeAll l m).gKernelPml4 = m.gKernelPml4 := by
  rw [freeAll_eq]

theorem freeAll_allocated (l : List ℕ) (m : Vmm) : (freeAll l m).allocated = m.allocated := by
  rw [freeAll_eq]

theorem freeAll_freed (l : List ℕ) (m : Vmm) : (freeAll l m).freed = l.reverse ++ m.freed := by
  rw [freeAll_eq]

variable {l : List ℕ}

theorem freeAll_total (hinv : m.pmm.Inv) (hl : ∀ a ∈ l, FreeAddr a) :
    (freeAll l m).pmm.gTotalFrames = m.pmm.gTotalFrames := by
  induction l generalizing m with
  | nil => rfl
  | cons a l ih =>
    have hpost := (hl a (.head _)).pmmFreeFrame hinv
    exact (ih (m := m.pmmFreeFrame a) hpost.inv fun b hb => hl b (.tail _ hb)).trans hpost.total_eq

/-- Freeing frames removes exactly those frames. -/
theorem freeAll_used (hinv : m.pmm.Inv) (hl : ∀ a ∈ l, FreeAddr a) :
    (freeAll l m).pmm.Inv ∧
      ∀ f, f ∈ (freeAll l m).pmm.usedSet ↔ f ∈ m.pmm.usedSet ∧ ∀ a ∈ l, f ≠ a / pageSize := by
  induction l generalizing m with
  | nil => exact ⟨hinv, fun f => by simp [freeAll]⟩
  | cons a l ih =>
    have ha := hl a (.head _)
    have hpost := ha.pmmFreeFrame hinv
    obtain ⟨hinv', hused⟩ := ih (m := m.pmmFreeFrame a) hpost.inv fun b hb => hl b (.tail _ hb)
    refine ⟨hinv', fun f => (hused f).trans ?_⟩
    show (f ∈ (m.pmm.pmmFreeFrame a).usedSet ∧ _) ↔ _
    rw [hpost.used_eq, Finset.mem_erase]
    simp only [forall_mem_cons]
    tauto

/-! ## Taking a frame -/

/-- What `pmm_alloc_frame` does: it fails, or it hands out a frame that was free. -/
structure AllocFrame (m : Vmm) (r : ℕ × Vmm) : Prop where
  mem_eq : r.2.mem = m.mem
  kernel_eq : r.2.gKernelPml4 = m.gKernelPml4
  freed_eq : r.2.freed = m.freed
  inv : r.2.pmm.Inv
  total_eq : r.2.pmm.gTotalFrames = m.pmm.gTotalFrames
  used_mono : m.pmm.usedSet ⊆ r.2.pmm.usedSet
  result :
    (r.1 = 0 ∧ r.2.allocated = m.allocated ∧
        ∀ g, g ≠ 0 → (g ∈ r.2.pmm.usedSet ↔ g ∈ m.pmm.usedSet)) ∨
      (r.1 ≠ 0 ∧ r.1 % pageSize = 0 ∧ r.1 / pageSize < m.pmm.gTotalFrames ∧
        r.1 / pageSize ∉ m.pmm.usedSet ∧
        r.2.pmm.usedSet = insert (r.1 / pageSize) m.pmm.usedSet ∧
        r.2.allocated = r.1 :: m.allocated)

theorem pmmAllocFrame_spec (h : m.pmm.Inv) : m.AllocFrame m.pmmAllocFrame := by
  unfold pmmAllocFrame
  split
  · exact ⟨rfl, rfl, rfl, h, rfl, Finset.Subset.rfl, .inl ⟨rfl, rfl, fun _ _ => Iff.rfl⟩⟩
  rcases h.pmmAllocFrame with ⟨hnull, hsame⟩ | ⟨f, haddr, hlt, hfree, hpost⟩
  · dsimp only
    rw [hsame, if_pos hnull]
    exact ⟨rfl, rfl, rfl, h, rfl, Finset.Subset.rfl, .inl ⟨hnull, rfl, fun _ _ => Iff.rfl⟩⟩
  have hused : m.pmm.pmmAllocFrame.2.usedSet = insert f m.pmm.usedSet := by
    rw [hpost.used_eq, Pmm.Ico_succ_eq_insert le_rfl, Finset.Ico_self, Finset.union_insert,
      Finset.union_empty]
  have hnot : f ∉ m.pmm.usedSet := by
    rw [Pmm.mem_usedSet, hfree f le_rfl (Nat.lt_succ_self f)]
    simp
  have hdiv : m.pmm.pmmAllocFrame.1 / pageSize = f := by
    rw [haddr]
    exact Nat.mul_div_cancel f (by decide)
  have hmono : m.pmm.usedSet ⊆ m.pmm.pmmAllocFrame.2.usedSet := by
    rw [hused]
    exact Finset.subset_insert _ _
  refine ⟨rfl, rfl, rfl, hpost.inv, hpost.total_eq, hmono, ?_⟩
  by_cases hnull : m.pmm.pmmAllocFrame.1 = 0
  · -- frame 0 was free: it becomes used, but its address reads as a failure
    refine .inl ⟨hnull, if_pos hnull, fun g hg => ?_⟩
    obtain rfl : f = 0 := by
      rw [← hdiv, hnull]
      rfl
    rw [hused, Finset.mem_insert, or_iff_right hg]
  · refine .inr ⟨hnull, ?_, ?_, ?_, ?_, if_neg hnull⟩
    · rw [haddr]
      exact Nat.mul_mod_left f pageSize
    · show m.pmm.pmmAllocFrame.1 / pageSize < _
      omega
    · rwa [hdiv]
    · rw [hdiv, hused]

/-! ## Memories that agree on the tables of a space -/

section Agree

variable {m m' : Vmm} {r : ℕ} {q : List (Fin 512)}

section

variable (h : ∀ a, m.IsTable r a → m'.mem a = m.mem a)
include h

theorem table_of_agree (hq : UserPath q) : m'.table r q = m.table r q := by
  refine Radix.walk_congr _ _ fun p j t hp ht => ?_
  have htable : m.IsTable r t := ⟨p, (userPath_prefixClosed _ _ hp hq).of_concat, ht⟩
  rw [h t htable]

theorem entry_of_agree (hq : UserPath q) (j : Fin 512) : m'.entry r q j = m.entry r q j := by
  cases ht : m.table r q with
  | none => rw [entry, entry, table_of_agree h hq, ht]; rfl
  | some t =>
    rw [entry_of_table ht, entry_of_table ((table_of_agree h hq).trans ht), h t ⟨q, hq, ht⟩]

theorem isTable_of_agree (a : ℕ) : m'.IsTable r a ↔ m.IsTable r a :=
  isTable_congr (fun _ hq => table_of_agree h hq) a

end

/-- A space is kept by a step that leaves its tables alone and in use. -/
theorem Space.of_agree (hs : m.Space r) (h : ∀ a, m.IsTable r a → m'.mem a = m.mem a)
    (hinv : m'.pmm.Inv) (htotal : m'.pmm.gTotalFrames = m.pmm.gTotalFrames)
    (hused : ∀ a, m.IsTable r a → a / pageSize ∈ m'.pmm.usedSet) : m'.Space r where
  pmm := hinv
  total_le := htotal ▸ hs.total_le
  sep := hs.sep.congr fun _ => table_of_agree h
  used := by
    intro p t hp ht
    rw [table_of_agree h hp] at ht
    exact ⟨(hs.used hp ht).1, hused t ⟨p, hp, ht⟩⟩
  dirs := fun hp he => hs.dirs hp ((entry_of_agree h hp.of_concat _).symm.trans he)
  user := by
    intro p i e hp hlen hl hu q j e' hpre he'
    have hq := (userPath_prefixClosed _ _ hpre hp).of_concat
    exact hs.user hp hlen ((leaf_congr (entry_of_agree h hp i)).symm.trans hl) hu hpre
      ((entry_of_agree h hq j).symm.trans he')

end Agree

/-- An allocation whose caller gives up changes nothing of the space. -/
theorem Space.allocFailed (h : m.Space root) {r : ℕ × Vmm} (hr : m.AllocFrame r) (hnull : r.1 = 0) :
    m.Evolves r.2 root := by
  rcases hr.result with ⟨-, hlog, hused⟩ | ⟨hne, -⟩
  · have hagree : ∀ a, m.IsTable root a → r.2.mem a = m.mem a := fun a _ => congrFun hr.mem_eq a
    have htables : ∀ a, m.IsTable root a → a / pageSize ∈ r.2.pmm.usedSet :=
      fun a ⟨_, hp, ht⟩ => hr.used_mono (h.used hp ht).2
    refine ⟨h.of_agree hagree hr.inv hr.total_eq htables, hr.kernel_eq, hr.total_eq,
      fun a ha => ?_, fun a _ _ _ => congrFun hr.mem_eq a, fun h0 => hr.used_mono h0, fun a => ?_,
      [], hlog, fun a ha => .inl ((isTable_of_agree hagree a).mp ha), by simp⟩
    · rw [isTable_of_agree hagree, hused _ ha.div_ne_zero]
    · exact owed_congr hlog hr.freed_eq (isTable_of_agree hagree a)
  · exact absurd hnull hne

/-- Below a directory entry that had, or has, no table the leaves stay, so the others keep their
user directories. -/
theorem Space.user_kept {m' : Vmm} {p : List (Fin 512)} {i : Fin 512} (h : m.Space root)
    (hleaf : ∀ {q}, UserPath q → q.length = 3 → ∀ j, m'.leaf root q j = m.leaf root q j)
    (hentry : ∀ {q}, UserPath q → q ≠ p ++ [i] → ∀ j, ¬(q = p ∧ j = i) →
      m'.entry root q j = m.entry root q j)
    (hgone : m.table root (p ++ [i]) = none ∨ m'.table root (p ++ [i]) = none)
    {p' : List (Fin 512)} {k : Fin 512} {e : Pte} (hp' : UserPath p') (hlen : p'.length = 3)
    (hl : m'.leaf root p' k = some e) (hu : e.getLsbD 2 = true) {q : List (Fin 512)} {j : Fin 512}
    {e' : Pte} (hpre : (q ++ [j]) <+: p') (he' : m'.entry root q j = some e') :
    e'.getLsbD 2 = true := by
  obtain ⟨s', hs', -⟩ := entry_eq_some.mp (leaf_eq_some.mp hl).1
  rw [hleaf hp' hlen] at hl
  obtain ⟨s, hs, -⟩ := entry_eq_some.mp (leaf_eq_some.mp hl).1
  -- the path of the leaf walks through tables before and after
  have hnotpre : ¬(p ++ [i]) <+: p' := fun hpre' => by
    obtain ⟨_, ht⟩ := table_of_isPrefix hpre' hs
    obtain ⟨_, ht'⟩ := table_of_isPrefix hpre' hs'
    rcases hgone with hgone | hgone <;> simp_all
  rw [hentry (userPath_prefixClosed _ _ hpre hp').of_concat ?_ j ?_] at he'
  · exact h.user hp' hlen hl hu hpre he'
  · rintro rfl
    exact hnotpre ((prefix_append _ _).trans hpre)
  · rintro ⟨rfl, rfl⟩
    exact hnotpre hpre

/-! ## Linking a fresh table -/

/-- The state after `*entry = frame | flags` with the new table cleared. -/
def linkTable (m : Vmm) (t : ℕ) (i : Fin 512) (flags : Pte) (r : ℕ × Vmm) : Vmm :=
  { r.2 with mem := setEntry (fill m.mem r.1 0#64) t i (Pte.dir r.1 flags) }

section Link

variable {m : Vmm} {root t : ℕ} {p : List (Fin 512)} {i : Fin 512} {r : ℕ × Vmm}

theorem getOrAllocTable_of_present (hpres : (m.mem t i).getLsbD 0 = true) (flags : Pte) :
    m.getOrAllocTable t i flags =
      (some (m.mem t i).addr, m.write t i ((m.mem t i).widen flags)) := by
  unfold getOrAllocTable
  dsimp only
  rw [Pte.has_present, hpres, if_pos rfl, Pte.addr_widen]

theorem getOrAllocTable_of_absent (hmiss : (m.mem t i).getLsbD 0 = false) (flags : Pte) :
    m.getOrAllocTable t i flags =
      if m.pmmAllocFrame.1 = 0 then (none, m.pmmAllocFrame.2)
      else (some m.pmmAllocFrame.1, m.linkTable t i flags m.pmmAllocFrame) := by
  have hmem : m.pmmAllocFrame.2.mem = m.mem := by
    unfold pmmAllocFrame
    split <;> rfl
  unfold getOrAllocTable
  dsimp only
  rw [Pte.has_present, hmiss, linkTable, ← hmem]
  rfl

/-- A frame just handed out fits a page-table entry. -/
theorem AllocFrame.frameAddr (hr : m.AllocFrame r) (htotal : m.pmm.gTotalFrames ≤ 2 ^ 40)
    (hne : r.1 ≠ 0) :
    FrameAddr r.1 ∧ r.1 / pageSize ∉ m.pmm.usedSet ∧ r.1 / pageSize < m.pmm.gTotalFrames ∧
      r.2.pmm.usedSet = insert (r.1 / pageSize) m.pmm.usedSet ∧
      r.2.allocated = r.1 :: m.allocated := by
  rcases hr.result with ⟨hnull, -⟩ | ⟨-, halign, hlt, hnot, hused, hlog⟩
  · exact absurd hnull hne
  · exact ⟨.of_total htotal halign hne hlt, hnot, hlt, hused, hlog⟩

section Steps

variable (h : m.Space root) (hr : m.AllocFrame r) (hne : r.1 ≠ 0) (hp : UserPath (p ++ [i]))
  (ht : m.table root p = some t) (hmiss : (m.mem t i).getLsbD 0 = false) (flags : Pte)
  {q : List (Fin 512)}
include h hr hne hp ht hmiss

theorem Space.links : Links Pte.child UserPath m.mem root t p i r.1 (Pte.dir r.1 flags) 0#64 :=
  have ⟨haddr, hnot, _⟩ := hr.frameAddr h.total_le hne
  ⟨userPath_prefixClosed, h.sep, hp, ht, Pte.child_eq_none.mpr hmiss,
    fun _ hq hw => hnot (h.used hq hw).2, Pte.child_dir haddr flags, Pte.child_zero⟩

/-- The entries after a link. -/
theorem Space.entry_linkTable (hq : UserPath q) (j : Fin 512) :
    (m.linkTable t i flags r).entry root q j =
      if q = p ++ [i] then some 0#64
      else if q = p ∧ j = i then some (Pte.dir r.1 flags)
      else m.entry root q j :=
  (h.links hr hne hp ht hmiss flags).entry_eq hq j

/-- A link changes no leaf. -/
theorem Space.leaf_linkTable (hq : UserPath q) (hlen : q.length = 3) (j : Fin 512) :
    (m.linkTable t i flags r).leaf root q j = m.leaf root q j := by
  have hentry := h.entry_linkTable hr hne hp ht hmiss flags hq j
  by_cases hnew : q = p ++ [i]
  · -- the new table is empty, and there was no table in its place
    rw [if_pos hnew] at hentry
    have hold : m.entry root q j = none := by
      rw [entry, hnew, table_concat, entry_of_table ht, bind_some,
        Pte.child_eq_none.mpr hmiss]
      rfl
    rw [leaf_of_entry hentry, leaf, hold]
    rfl
  · rw [if_neg hnew, if_neg] at hentry
    · exact leaf_congr hentry
    · rintro ⟨rfl, -⟩
      exact hp.length_lt.ne hlen

open Classical in
/-- Linking a fresh table keeps the space. -/
theorem Space.linkTable : m.Evolves (m.linkTable t i flags r) root := by
  obtain ⟨haddr, hnot, hlt, hused, hlog⟩ := hr.frameAddr h.total_le hne
  have hlink := h.links hr hne hp ht hmiss flags
  have hentry := fun {q} hq j => h.entry_linkTable hr hne hp ht hmiss flags (q := q) hq j
  have hleaf := fun {q} hq hlen j => h.leaf_linkTable hr hne hp ht hmiss flags (q := q) hq hlen j
  have hisTable : ∀ a, (m.linkTable t i flags r).IsTable root a ↔ a = r.1 ∨ m.IsTable root a :=
    hlink.reached_iff
  have hsub : ∀ {g}, g ∈ m.pmm.usedSet → g ∈ r.2.pmm.usedSet := by
    intro g hg
    rw [hused]
    exact Finset.mem_insert_of_mem hg
  have hspace : (m.linkTable t i flags r).Space root :=
    { pmm := hr.inv
      total_le := hr.total_eq ▸ h.total_le
      sep := hlink.sep_link
      used := by
        intro q s hq hs
        rcases (hisTable s).mp ⟨q, hq, hs⟩ with rfl | ⟨q', hq', hs'⟩
        · refine ⟨haddr, ?_⟩
          show r.1 / pageSize ∈ r.2.pmm.usedSet
          rw [hused]
          exact Finset.mem_insert_self _ _
        · exact ⟨(h.used hq' hs').1, hsub (h.used hq' hs').2⟩
      dirs := by
        intro q j e hq he hpres
        rw [hentry hq.of_concat] at he
        split at he
        · obtain rfl := some.inj he
          simp at hpres
        · split at he
          · obtain rfl := some.inj he
            exact Pte.dirBits_dir haddr flags
          · exact h.dirs hq he hpres
      user := h.user_kept hleaf (fun hq hne j hne' => by rw [hentry hq, if_neg hne, if_neg hne'])
        (.inl (hlink.walk_eq_none (prefix_refl _))) }
  refine ⟨hspace, hr.kernel_eq, hr.total_eq, fun a ha => ?_, fun a _ ha hnot' => ?_,
    fun h0 => hr.used_mono h0, fun a => ?_, [r.1], hlog, fun a ha => ?_, by simpa using hlt⟩
  · rw [hisTable a]
    show (a / pageSize ∈ r.2.pmm.usedSet ∧ _) ↔ _
    rw [hused, Finset.mem_insert, ha.div_eq_iff haddr]
    by_cases hra : a = r.1
    · subst hra
      simp [hnot]
    · simp [hra]
  · funext j
    have hat : ¬(a = t ∧ j = i) := fun hc => hnot' (hc.1 ▸ ⟨p, hp.of_concat, ht⟩)
    have hfresh : a ≠ r.1 := fun hc => hnot (hc ▸ ha)
    show setEntry _ t i _ a j = _
    rw [setEntry_of_ne _ _ hat, fill_of_ne _ _ _ hfresh]
  · have halloc : (m.linkTable t i flags r).allocated = r.1 :: m.allocated := hlog
    have hfreed : (m.linkTable t i flags r).freed = m.freed := hr.freed_eq
    rw [owed, owed, halloc, hfreed]
    simp only [hisTable]
    by_cases hra : a = r.1
    · subst hra
      have hold : ¬m.IsTable root r.1 := fun ⟨q, hq, hs⟩ => hlink.fresh q hq hs
      rw [if_pos (.inl rfl), if_neg hold, count_cons_self]
      omega
    · rw [count_cons_of_ne (Ne.symm hra)]
      simp only [hra, false_or]
  · rcases (hisTable a).mp ha with rfl | ha
    · exact .inr (mem_singleton.mpr rfl)
    · exact .inl ha

end Steps

end Link

/-! ## Unlinking an empty table -/

section Unlink

variable {m : Vmm} {root t c : ℕ} {p : List (Fin 512)} {i : Fin 512}

/-- The state after `*entry = 0` and the release of the table it named. -/
def unlinkTable (m : Vmm) (t : ℕ) (i : Fin 512) (c : ℕ) : Vmm := (m.write t i 0#64).pmmFreeFrame c

theorem isTableEmpty_iff : m.isTableEmpty c = true ↔ ∀ j, (m.mem c j).getLsbD 0 = false := by
  rw [isTableEmpty, decide_eq_true_eq]
  exact forall_congr' fun j => by rw [Pte.has_present]

variable (h : m.Space root) (hp : UserPath (p ++ [i])) (ht : m.table root p = some t)
  (hc : Pte.child (m.mem t i) = some c) (hempty : m.isTableEmpty c = true) {q : List (Fin 512)}
include h hp ht hc hempty

theorem Space.unlinks : Unlinks Pte.child UserPath m.mem root t p i c 0#64 :=
  ⟨userPath_prefixClosed, h.sep, hp, ht, hc, Pte.child_zero,
    fun j => Pte.child_eq_none.mpr (isTableEmpty_iff.mp hempty j)⟩

/-- The tables after an unlink. -/
theorem Space.table_unlinkTable (hq : UserPath q) :
    (m.unlinkTable t i c).table root q = if q = p ++ [i] then none else m.table root q :=
  (h.unlinks hp ht hc hempty).walk_eq hq

/-- The entries after an unlink. -/
theorem Space.entry_unlinkTable (hq : UserPath q) (j : Fin 512) :
    (m.unlinkTable t i c).entry root q j =
      if q = p ++ [i] then none
      else if q = p ∧ j = i then some 0#64
      else m.entry root q j :=
  (h.unlinks hp ht hc hempty).entry_eq hq j

/-- An unlink changes no leaf. -/
theorem Space.leaf_unlinkTable (hq : UserPath q) (hlen : q.length = 3) (j : Fin 512) :
    (m.unlinkTable t i c).leaf root q j = m.leaf root q j := by
  have hentry := h.entry_unlinkTable hp ht hc hempty hq j
  by_cases hgone : q = p ++ [i]
  · -- the table removed had no present entry
    rw [if_pos hgone] at hentry
    have hold : m.entry root q j = some (m.mem c j) :=
      entry_of_table (hgone ▸ (h.unlinks hp ht hc hempty).walk_concat) j
    rw [leaf, hentry, leaf_of_entry hold, isTableEmpty_iff.mp hempty j]
    rfl
  · rw [if_neg hgone, if_neg] at hentry
    · exact leaf_congr hentry
    · rintro ⟨rfl, -⟩
      exact hp.length_lt.ne hlen

open Classical in
/-- Unlinking an empty table keeps the space. -/
theorem Space.unlinkTable : m.Evolves (m.unlinkTable t i c) root := by
  have hentry := fun {q} hq j => h.entry_unlinkTable hp ht hc hempty (q := q) hq j
  have hleaf := fun {q} hq hlen j => h.leaf_unlinkTable hp ht hc hempty (q := q) hq hlen j
  have hisTable : ∀ a, (m.unlinkTable t i c).IsTable root a ↔ a ≠ c ∧ m.IsTable root a :=
    (h.unlinks hp ht hc hempty).reached_iff
  have hold : m.table root (p ++ [i]) = some c := (h.unlinks hp ht hc hempty).walk_concat
  obtain ⟨hcaddr, hcused⟩ := h.used hp hold
  have hpost := hcaddr.pmmFreeFrame h.pmm
  have hkeep : ∀ {a}, FrameAddr a → a ≠ c → a / pageSize ∈ m.pmm.usedSet →
      a / pageSize ∈ (m.pmm.pmmFreeFrame c).usedSet := by
    exact fun ha hne hused => (ha.mem_pmmFreeFrame hcaddr h.pmm).mpr ⟨hne, hused⟩
  have hspace : (m.unlinkTable t i c).Space root :=
    { pmm := hpost.inv
      total_le := by
        show (m.pmm.pmmFreeFrame c).gTotalFrames ≤ _
        rw [hpost.total_eq]
        exact h.total_le
      sep := (h.unlinks hp ht hc hempty).sep_unlink
      used := by
        intro q s hq hs
        obtain ⟨hne, q', hq', hs'⟩ := (hisTable s).mp ⟨q, hq, hs⟩
        obtain ⟨ha, hu⟩ := h.used hq' hs'
        exact ⟨ha, hkeep ha hne hu⟩
      dirs := by
        intro q j e hq he hpres
        rw [hentry hq.of_concat] at he
        split at he
        · cases he
        · split at he
          · obtain rfl := some.inj he
            simp at hpres
          · exact h.dirs hq he hpres
      user := h.user_kept hleaf (fun hq hne j hne' => by rw [hentry hq, if_neg hne, if_neg hne'])
        (.inr ((h.table_unlinkTable hp ht hc hempty hp).trans (if_pos rfl))) }
  refine ⟨hspace, rfl, hpost.total_eq, fun a ha => ?_, fun a _ _ hnot => ?_,
    hcaddr.zero_mem_pmmFreeFrame h.pmm, fun a => ?_, [], rfl,
    fun a ha => .inl ((hisTable a).mp ha).2, by simp⟩
  · rw [hisTable a]
    show (a / pageSize ∈ (m.pmm.pmmFreeFrame c).usedSet ∧ _) ↔ _
    rw [ha.mem_pmmFreeFrame hcaddr h.pmm]
    by_cases hac : a = c
    · subst hac
      simp [show m.IsTable root a from ⟨_, hp, hold⟩]
    · simp [hac]
  · funext j
    exact setEntry_of_ne _ _ fun hc => hnot (hc.1 ▸ ⟨p, hp.of_concat, ht⟩)
  · have hfreed : (m.unlinkTable t i c).freed = c :: m.freed := rfl
    rw [owed, owed, hfreed]
    simp only [hisTable]
    by_cases hac : a = c
    · subst hac
      rw [if_neg fun h' => h'.1 rfl, if_pos ⟨p ++ [i], hp, hold⟩, count_cons_self]
      show (m.allocated.count a : ℤ) - _ - _ = _
      omega
    · rw [count_cons_of_ne (Ne.symm hac)]
      simp only [ne_eq, hac, not_false_eq_true, true_and]
      rfl

end Unlink

end Vmm

end NovaOS.Mem
