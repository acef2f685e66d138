import NovaOS.Drivers.NvMmu
import NovaOS.Lib.Radix
import NovaOS.Lib.Word

/-!
# The page tables of the GPU

Reference: `drivers/nvidia/core/vmm.c` (`get_or_alloc_table`, `nv_vmm_map`, `nv_vmm_unmap`).

A table is named by the physical address of its frame; `mem t i` is the entry at byte `8 * i` of the table
at `t`. In the tables of the fourth level an entry has 16 bytes, of which the upper half refers to the small
page table: it is at `2 * i + 1`. The frames that `pmm_alloc_frame` returns are given by `frames`, and whether
`kmalloc` succeeds by `nodes`.

`tables_refine_last_mapping` says that after every sequence of successful calls whose ranges lie in the 49-bit
address space a walk finds the last mapping of the page. `unmap_nothing` shows what happens to other ranges.
-/

namespace NovaOS.Drivers

open NovaOS.Lib NvMmuEntry List Radix Option

/-- An `NvVmm`, as far as the page tables go. -/
structure NvVmm where
  mem : ℕ → Fin 512 → NvMmuEntry
  pdb : ℕ
  tableList : List ℕ
  frames : List (Option ℕ)
  nodes : List Bool

namespace NvVmm

/-! ## The model -/

def pde4Idx (va : ℕ) : Fin 512 := ⟨(va >>> 47) &&& 0x3, lt_of_le_of_lt Nat.and_le_right (by decide)⟩

def pde3Idx (va : ℕ) : Fin 512 := ⟨(va >>> 38) &&& 0x1FF, lt_of_le_of_lt Nat.and_le_right (by decide)⟩

def pde2Idx (va : ℕ) : Fin 512 := ⟨(va >>> 29) &&& 0x1FF, lt_of_le_of_lt Nat.and_le_right (by decide)⟩

def pde1Idx (va : ℕ) : Fin 256 := ⟨(va >>> 21) &&& 0xFF, lt_of_le_of_lt Nat.and_le_right (by decide)⟩

def pteIdx (va : ℕ) : Fin 512 := ⟨(va >>> 12) &&& 0x1FF, lt_of_le_of_lt Nat.and_le_right (by decide)⟩

/-- The entry at byte `pde1_idx * 16`. -/
def lptIdx (va : ℕ) : Fin 512 := ⟨2 * (pde1Idx va).val, by have := (pde1Idx va).isLt; omega⟩

/-- The entry at byte `pde1_idx * 16 + 8`. -/
def sptIdx (va : ℕ) : Fin 512 := ⟨2 * (pde1Idx va).val + 1, by have := (pde1Idx va).isLt; omega⟩

/-- `table[i] = e`. -/
def write (table : ℕ) (i : Fin 512) (e : NvMmuEntry) (s : NvVmm) : NvVmm :=
  { s with mem := setEntry s.mem table i e }

/-- `get_or_alloc_table` on entry `i` of `table`; `none` is `NULL`. The new frame is zeroed. -/
def getOrAllocTable (table : ℕ) (i : Fin 512) (s : NvVmm) : Option ℕ × NvVmm :=
  match child (s.mem table i) with
  | some phys => (some phys, s)
  | none =>
    match s.frames with
    | some phys :: frames =>
      (some phys, { s with
        frames := frames
        nodes := s.nodes.tail
        tableList := if s.nodes.head? = some true then phys :: s.tableList else s.tableList
        mem := setEntry (fill s.mem phys .empty) table i
          (turingMmuEncodePde (BitVec.ofNat 64 phys) .sysMemCoherent) })
    | frames => (none, { s with frames := frames.tail })

/-- One round of the loop of `nv_vmm_map`. -/
def mapPage (va : ℕ) (e : NvMmuEntry) (s : NvVmm) : ℤ × NvVmm :=
  match s.getOrAllocTable s.pdb (pde4Idx va) with
  | (none, s) => (-1, s)
  | (some pde3, s) =>
    match s.getOrAllocTable pde3 (pde3Idx va) with
    | (none, s) => (-1, s)
    | (some pde2, s) =>
      match s.getOrAllocTable pde2 (pde2Idx va) with
      | (none, s) => (-1, s)
      | (some pde1, s) =>
        let s := s.write pde1 (lptIdx va) .empty
        match s.getOrAllocTable pde1 (sptIdx va) with
        | (none, s) => (-1, s)
        | (some pt, s) => (0, s.write pt (pteIdx va) e)

/-- The loop of `nv_vmm_map` over `n` pages from page `i` on. -/
def mapPages (gpuVa physAddr : ℕ) (aperture : NvMmuAperture) (readOnly : Bool) (kind : BitVec 8) :
    (n i : ℕ) → NvVmm → ℤ × NvVmm
  | 0, _, s => (0, s)
  | n + 1, i, s =>
    let currPhys := BitVec.ofNat 64 (physAddr + i * 4096)
    match s.mapPage (wrap64 (gpuVa + i * 4096)) (turingMmuEncodePte currPhys aperture readOnly kind) with
    | (0, s) => mapPages gpuVa physAddr aperture readOnly kind n (i + 1) s
    | (r, s) => (r, s)

/-- `(size + NV_VMM_PAGE_SIZE - 1) / NV_VMM_PAGE_SIZE`. -/
def pageCount (size : ℕ) : ℕ := wrap64 (size + 4095) / 4096

/-- `nv_vmm_map`; the VMM and its root are not null. -/
def nvVmmMap (gpuVa physAddr size : ℕ) (aperture : NvMmuAperture) (readOnly : Bool) (kind : BitVec 8)
    (s : NvVmm) : ℤ × NvVmm :=
  if size = 0 then (-1, s)
  else if gpuVa % 4096 ≠ 0 ∨ physAddr % 4096 ≠ 0 then (-1, s)
  else mapPages gpuVa physAddr aperture readOnly kind (pageCount size) 0 s

/-- The small page table of an address, found as in `nv_vmm_unmap`. -/
def findTable (s : NvVmm) (va : ℕ) : Option ℕ :=
  (child (s.mem s.pdb (pde4Idx va))).bind fun pde3 =>
    (child (s.mem pde3 (pde3Idx va))).bind fun pde2 =>
      (child (s.mem pde2 (pde2Idx va))).bind fun pde1 => child (s.mem pde1 (sptIdx va))

/-- One round of the loop of `nv_vmm_unmap`. -/
def unmapPage (va : ℕ) (s : NvVmm) : NvVmm :=
  match s.findTable va with
  | none => s
  | some pt => s.write pt (pteIdx va) .empty

/-- The loop of `nv_vmm_unmap` over `n` pages from page `i` on. -/
def unmapPages (gpuVa : ℕ) : (n i : ℕ) → NvVmm → NvVmm
  | 0, _, s => s
  | n + 1, i, s => unmapPages gpuVa n (i + 1) (s.unmapPage (wrap64 (gpuVa + i * 4096)))

/-- `nv_vmm_unmap`. -/
def nvVmmUnmap (gpuVa size : ℕ) (s : NvVmm) : ℤ × NvVmm :=
  if size = 0 then (-1, s) else (0, unmapPages gpuVa (pageCount size) 0 s)

/-- The page table entry that a walk finds for an address. -/
def walkPte (s : NvVmm) (va : ℕ) : NvMmuEntry :=
  match s.findTable va with
  | none => .empty
  | some pt => s.mem pt (pteIdx va)

/-- `nv_vmm_create` with the root at `pdb`, as far as the tables go. -/
def create (mem : ℕ → Fin 512 → NvMmuEntry) (pdb : ℕ) (frames : List (Option ℕ)) (nodes : List Bool) :
    NvVmm :=
  ⟨fill mem pdb .empty, pdb, [], frames, nodes⟩

/-! ## Paths -/

/-- The indices on the way to the small page table. -/
def pagePath (va : ℕ) : List (Fin 512) := [pde4Idx va, pde3Idx va, pde2Idx va, sptIdx va]

/-- The paths at which there are tables: four levels below the root, and in the fourth only the entries for
small page tables. -/
def TablePath (p : List (Fin 512)) : Prop := p.length ≤ 4 ∧ ∀ i, p[3]? = some i → i.val % 2 = 1

theorem tablePath_prefixClosed : PrefixClosed TablePath := by
  rintro p q ⟨r, rfl⟩ ⟨hlen, hodd⟩
  rw [length_append] at hlen
  refine ⟨by omega, fun i hi => hodd i ?_⟩
  rw [getElem?_append_left (List.getElem?_eq_some_iff.mp hi).1]
  exact hi

theorem tablePath_pagePath (va : ℕ) : TablePath (pagePath va) := by
  refine ⟨le_of_eq rfl, fun i hi => ?_⟩
  obtain rfl : sptIdx va = i := by simpa [pagePath] using hi
  simp only [sptIdx]
  omega

/-- The table that a path of indices reaches. -/
def table (s : NvVmm) (p : List (Fin 512)) : Option ℕ := walk child s.mem s.pdb p

theorem findTable_eq (s : NvVmm) (va : ℕ) : s.findTable va = s.table (pagePath va) := by
  simp only [findTable, table, pagePath, walk_cons, walk_nil, bind_fun_some]

/-- Two addresses are walked alike exactly if they are in the same page, up to 49 bits. -/
theorem pagePath_eq_iff (va va' : ℕ) :
    pagePath va = pagePath va' ∧ pteIdx va = pteIdx va' ↔ va / 4096 % 2 ^ 37 = va' / 4096 % 2 ^ 37 := by
  have h2 : ∀ n : ℕ, n &&& 0x3 = n % 4 := fun n => Nat.and_two_pow_sub_one_eq_mod n 2
  have h8 : ∀ n : ℕ, n &&& 0xFF = n % 256 := fun n => Nat.and_two_pow_sub_one_eq_mod n 8
  have h9 : ∀ n : ℕ, n &&& 0x1FF = n % 512 := fun n => Nat.and_two_pow_sub_one_eq_mod n 9
  simp only [pagePath, cons.injEq, and_true, Fin.ext_iff, pde4Idx, pde3Idx, pde2Idx, sptIdx, pde1Idx,
    pteIdx, h2, h8, h9, Nat.shiftRight_eq_div_pow]
  omega

/-! ## The tree of tables -/

/-- The tables form a tree, and the frames still to come are page aligned, distinct and not in it. -/
structure Tree (s : NvVmm) : Prop where
  sep : Sep child TablePath s.mem s.pdb
  fresh : ∀ f, some f ∈ s.frames → ∀ q, TablePath q → s.table q ≠ some f
  nodup : (s.frames.filterMap id).Nodup
  aligned : ∀ f, some f ∈ s.frames → f % 4096 = 0 ∧ f < 2 ^ 64

/-- Tables may have been added; no page table entry has changed. -/
structure Extends (s s' : NvVmm) : Prop where
  tree : s'.Tree
  pdb : s'.pdb = s.pdb
  table : ∀ q t, TablePath q → s.table q = some t → s'.table q = some t
  walk : ∀ va, s'.walkPte va = s.walkPte va

variable {s s' : NvVmm} {p : List (Fin 512)} {i : Fin 512} {t va : ℕ} {e : NvMmuEntry}

theorem Extends.refl (h : s.Tree) : s.Extends s := ⟨h, rfl, fun _ _ _ ht => ht, fun _ => rfl⟩

variable {s'' : NvVmm}

theorem Extends.trans (h : s.Extends s') (h' : s'.Extends s'') : s.Extends s'' :=
  ⟨h'.tree, h'.pdb.trans h.pdb, fun q t hq ht => h'.table q t hq (h.table q t hq ht),
    fun va => (h'.walk va).trans (h.walk va)⟩

/-- The entry of an address as an entry of the tree. -/
theorem walkPte_eq (s : NvVmm) (va : ℕ) :
    s.walkPte va = (entry child s.mem s.pdb (pagePath va) (pteIdx va)).getD .empty := by
  rw [walkPte, findTable_eq, entry, table]
  cases walk child s.mem s.pdb (pagePath va) <;> rfl

/-- The entry of an address without a page table. -/
theorem walkPte_of_none (ht : s.table (pagePath va) = none) : s.walkPte va = .empty := by
  rw [walkPte, findTable_eq, ht]

variable {q : List (Fin 512)}

/-- A write that is not to a directory entry on a path of tables moves no table. -/
theorem Tree.table_write (h : s.Tree) (hp : TablePath p) (ht : s.table p = some t)
    (hoff : ¬TablePath (p ++ [i])) (e : NvMmuEntry) (hq : TablePath q) :
    (s.write t i e).table q = s.table q :=
  walk_setEntry_of_not_isPrefix tablePath_prefixClosed h.sep hp ht hq
    fun hpre => hoff (tablePath_prefixClosed _ _ hpre hq)

/-- Such a write keeps the tree. -/
theorem Tree.write (h : s.Tree) (hp : TablePath p) (ht : s.table p = some t)
    (hoff : ¬TablePath (p ++ [i])) (e : NvMmuEntry) : (s.write t i e).Tree where
  sep q q' a hq hq' hw hw' := by
    have h1 : s.table q = some a := (h.table_write hp ht hoff e hq).symm.trans hw
    have h2 : s.table q' = some a := (h.table_write hp ht hoff e hq').symm.trans hw'
    exact h.sep q q' a hq hq' h1 h2
  fresh f hf q hq := by
    rw [h.table_write hp ht hoff e hq]
    exact h.fresh f hf q hq
  nodup := h.nodup
  aligned := h.aligned

/-- Such a write changes the entries of the pages it is for. -/
theorem Tree.walkPte_write (h : s.Tree) (hp : TablePath p) (ht : s.table p = some t)
    (hoff : ¬TablePath (p ++ [i])) (e : NvMmuEntry) (va : ℕ) :
    (s.write t i e).walkPte va = if pagePath va = p ∧ pteIdx va = i then e else s.walkPte va := by
  have hva := tablePath_pagePath va
  have hentry : entry child (s.write t i e).mem s.pdb (pagePath va) (pteIdx va) = _ :=
    entry_setEntry h.sep hp ht hva (h.table_write hp ht hoff e hva) _
  rw [walkPte_eq, walkPte_eq]
  refine (congrArg (getD · .empty) hentry).trans ?_
  split <;> rfl

/-- The state in which a new frame has been linked. -/
def link (table : ℕ) (i : Fin 512) (phys : ℕ) (frames : List (Option ℕ)) (s : NvVmm) : NvVmm :=
  { s with
    frames := frames
    nodes := s.nodes.tail
    tableList := if s.nodes.head? = some true then phys :: s.tableList else s.tableList
    mem := setEntry (fill s.mem phys .empty) table i
      (turingMmuEncodePde (BitVec.ofNat 64 phys) .sysMemCoherent) }

variable {f pdb : ℕ}

/-- The entry for a new frame refers to it. -/
theorem Tree.child_newEntry (h : s.Tree) (hf : some f ∈ s.frames) :
    child (turingMmuEncodePde (BitVec.ofNat 64 f) .sysMemCoherent) = some f := by
  obtain ⟨hal, hlt⟩ := h.aligned f hf
  have hnat : (BitVec.ofNat 64 f).toNat = f := by
    rw [BitVec.toNat_ofNat, Nat.mod_eq_of_lt hlt]
  rw [child_encodePde _ (by rw [hnat, hal]), hnat]

/-- A new frame can be linked. -/
theorem Tree.links (h : s.Tree) (hf : some f ∈ s.frames) (hp : TablePath (p ++ [i]))
    (ht : s.table p = some t) (hmiss : child (s.mem t i) = none) :
    Links child TablePath s.mem s.pdb t p i f
      (turingMmuEncodePde (BitVec.ofNat 64 f) .sysMemCoherent) .empty :=
  ⟨tablePath_prefixClosed, h.sep, hp, ht, hmiss, h.fresh f hf, h.child_newEntry hf, child_empty⟩

/-- Linking a new frame keeps the tree and every page table entry. -/
theorem Tree.link (h : s.Tree) {fs : List (Option ℕ)} (hfs : s.frames = some f :: fs)
    (hp : TablePath (p ++ [i])) (ht : s.table p = some t) (hmiss : child (s.mem t i) = none) :
    s.Extends (s.link t i f fs) := by
  have hf : some f ∈ s.frames := hfs ▸ (.head _)
  have hlink := h.links hf hp ht hmiss
  have hnodup : (f :: fs.filterMap id).Nodup := by
    have hn := h.nodup
    rwa [hfs] at hn
  rw [nodup_cons] at hnodup
  refine ⟨⟨hlink.sep_link, fun g hg q hq hqg => ?_, hnodup.2, fun g hg => ?_⟩, rfl,
    fun q a hq hqa => hlink.walk_mono hq hqa, fun va => ?_⟩
  · rcases (hlink.reached_iff g).mp ⟨q, hq, hqg⟩ with rfl | ⟨q', hq', hqg'⟩
    · exact hnodup.1 (mem_filterMap.mpr ⟨some g, hg, rfl⟩)
    · exact h.fresh g (hfs ▸ mem_cons_of_mem _ hg) q' hq' hqg'
  · exact h.aligned g (hfs ▸ mem_cons_of_mem _ hg)
  · have hentry := hlink.entry_eq (tablePath_pagePath va) (pteIdx va)
    rw [walkPte_eq, walkPte_eq]
    refine (congrArg (getD · .empty) hentry).trans ?_
    by_cases hpath : pagePath va = p ++ [i]
    · -- the new table is the page table of the address, and it is empty
      rw [if_pos hpath, entry, hlink.walk_eq_none (hpath ▸ prefix_rfl)]
      rfl
    · rw [if_neg hpath, if_neg]
      -- a page table is not a directory
      rintro ⟨hpage, -⟩
      have hlen := hp.1
      rw [length_append, length_singleton, ← hpage] at hlen
      exact absurd hlen (by simp [pagePath])

/-! ## Mapping and unmapping a page -/

/-- A frame may be left unused. -/
theorem Tree.dropFrame (h : s.Tree) : s.Extends { s with frames := s.frames.tail } where
  tree := ⟨h.sep, fun f hf => h.fresh f (mem_of_mem_tail hf),
    h.nodup.sublist ((tail_sublist _).filterMap id), fun f hf => h.aligned f (mem_of_mem_tail hf)⟩
  pdb := rfl
  table _ _ _ hq := hq
  walk _ := rfl

/-- `get_or_alloc_table` finds or makes the table of a path. -/
theorem Tree.getOrAllocTable (h : s.Tree) (hp : TablePath (p ++ [i])) (ht : s.table p = some t) :
    s.Extends (s.getOrAllocTable t i).2 ∧ ∀ c, (s.getOrAllocTable t i).1 = some c →
      (s.getOrAllocTable t i).2.table (p ++ [i]) = some c := by
  cases hc : child (s.mem t i) with
  | some c =>
    have he : s.getOrAllocTable t i = (some c, s) := by
      rw [NvVmm.getOrAllocTable, hc]
    rw [he]
    refine ⟨Extends.refl h, fun c' hc' => ?_⟩
    obtain rfl := some.inj hc'
    rw [table, walk_concat]
    exact (congrArg (bind · _) ht).trans hc
  | none =>
    match hfs : s.frames with
    | some f :: fs =>
      have he : s.getOrAllocTable t i = (some f, s.link t i f fs) := by
        simp only [NvVmm.getOrAllocTable, hc, hfs, NvVmm.link]
      rw [he]
      refine ⟨h.link hfs hp ht hc, fun c' hc' => ?_⟩
      exact ((h.links (hfs ▸ (.head _)) hp ht hc).walk_eq hp).trans ((if_pos rfl).trans hc')
    | none :: _ | [] =>
      have he : s.getOrAllocTable t i = (none, { s with frames := s.frames.tail }) := by
        simp only [NvVmm.getOrAllocTable, hc, hfs]
      rw [he]
      exact ⟨h.dropFrame, by simp⟩

/-- Only the entries of the page of `va` have changed, and they are `e` now if the call succeeded. -/
structure SetsPage (s : NvVmm) (va : ℕ) (e : NvMmuEntry) (ok : Prop) (s' : NvVmm) : Prop where
  tree : s'.Tree
  other : ∀ va', va' / 4096 % 2 ^ 37 ≠ va / 4096 % 2 ^ 37 → s'.walkPte va' = s.walkPte va'
  same : ok → ∀ va', va' / 4096 % 2 ^ 37 = va / 4096 % 2 ^ 37 → s'.walkPte va' = e

variable {ok : Prop}

/-- Tables were made, but the entry was not written. -/
theorem Extends.setsPage (h : s.Extends s') (va : ℕ) (e : NvMmuEntry) (hok : ¬ok) :
    s.SetsPage va e ok s' :=
  ⟨h.tree, fun va' _ => h.walk va', fun hk => absurd hk hok⟩

/-- The entry is written once its page table is known. -/
theorem Extends.setsPage_write (h : s.Extends s') (ht : s'.table (pagePath va) = some t)
    (e : NvMmuEntry) (ok : Prop) : s.SetsPage va e ok (s'.write t (pteIdx va) e) := by
  have hoff : ¬TablePath (pagePath va ++ [pteIdx va]) := fun hp => absurd hp.1 (by simp [pagePath])
  have hwalk := h.tree.walkPte_write (tablePath_pagePath va) ht hoff e
  refine ⟨h.tree.write (tablePath_pagePath va) ht hoff e, fun va' hne => ?_, fun _ va' heq => ?_⟩
  · rw [hwalk, if_neg fun hc => hne ((pagePath_eq_iff va' va).mp hc), h.walk]
  · rw [hwalk, if_pos ((pagePath_eq_iff va' va).mpr heq)]

/-- Clearing the entry of the large page table changes no page. -/
theorem Extends.clearLpt (h : s.Extends s') (va : ℕ)
    (ht : s'.table [pde4Idx va, pde3Idx va, pde2Idx va] = some t) :
    s.Extends (s'.write t (lptIdx va) .empty) ∧
      (s'.write t (lptIdx va) .empty).table [pde4Idx va, pde3Idx va, pde2Idx va] = some t := by
  have hp : TablePath [pde4Idx va, pde3Idx va, pde2Idx va] :=
    tablePath_prefixClosed _ _ (prefix_append _ [sptIdx va]) (tablePath_pagePath va)
  have hoff : ¬TablePath ([pde4Idx va, pde3Idx va, pde2Idx va] ++ [lptIdx va]) := by
    intro hp
    have hodd := hp.2 (lptIdx va) rfl
    simp only [lptIdx] at hodd
    omega
  have htab := fun {q} => h.tree.table_write (q := q) hp ht hoff .empty
  refine ⟨⟨h.tree.write hp ht hoff _, h.pdb, fun q a hq hqa => ?_, fun va' => ?_⟩, (htab hp).trans ht⟩
  · rw [htab hq]
    exact h.table q a hq hqa
  · rw [h.tree.walkPte_write hp ht hoff, if_neg, h.walk]
    exact fun hc => absurd (congrArg length hc.1) (by simp [pagePath])

/-- One round of `nv_vmm_map`. -/
theorem Tree.mapPage (h : s.Tree) (va : ℕ) (e : NvMmuEntry) :
    s.SetsPage va e ((s.mapPage va e).1 = 0) (s.mapPage va e).2 ∧ (s.mapPage va e).2.pdb = s.pdb := by
  have hpath : ∀ p, p <+: pagePath va → TablePath p :=
    fun p hp => tablePath_prefixClosed _ _ hp (tablePath_pagePath va)
  have hfail : ¬((-1 : ℤ) = 0) := by decide
  rw [NvVmm.mapPage]
  obtain ⟨h1, ht1⟩ := h.getOrAllocTable (p := []) (i := pde4Idx va) (hpath _ ⟨_, rfl⟩) rfl
  rcases hr1 : s.getOrAllocTable s.pdb (pde4Idx va) with ⟨_ | pde3, s1⟩
  · rw [hr1] at h1
    exact ⟨h1.setsPage va e hfail, h1.pdb⟩
  rw [hr1] at h1 ht1
  obtain ⟨h2, ht2⟩ := h1.tree.getOrAllocTable (p := [pde4Idx va]) (i := pde3Idx va) (hpath _ ⟨_, rfl⟩)
    (ht1 pde3 rfl)
  simp only
  rcases hr2 : s1.getOrAllocTable pde3 (pde3Idx va) with ⟨_ | pde2, s2⟩
  · rw [hr2] at h2
    exact ⟨(h1.trans h2).setsPage va e hfail, (h1.trans h2).pdb⟩
  rw [hr2] at h2 ht2
  have h12 := h1.trans h2
  obtain ⟨h3, ht3⟩ := h2.tree.getOrAllocTable (p := [pde4Idx va, pde3Idx va]) (i := pde2Idx va)
    (hpath _ ⟨_, rfl⟩) (ht2 pde2 rfl)
  simp only
  rcases hr3 : s2.getOrAllocTable pde2 (pde2Idx va) with ⟨_ | pde1, s3⟩
  · rw [hr3] at h3
    exact ⟨(h12.trans h3).setsPage va e hfail, (h12.trans h3).pdb⟩
  rw [hr3] at h3 ht3
  obtain ⟨h4, ht4⟩ := (h12.trans h3).clearLpt va (ht3 pde1 rfl)
  obtain ⟨h5, ht5⟩ := h4.tree.getOrAllocTable (i := sptIdx va) (hpath _ ⟨_, rfl⟩) ht4
  simp only
  rcases hr5 : (s3.write pde1 (lptIdx va) .empty).getOrAllocTable pde1 (sptIdx va) with ⟨_ | pt, s5⟩
  · rw [hr5] at h5
    exact ⟨(h4.trans h5).setsPage va e hfail, (h4.trans h5).pdb⟩
  rw [hr5] at h5 ht5
  exact ⟨(h4.trans h5).setsPage_write (ht5 pt rfl) e _, (h4.trans h5).pdb⟩

/-- One round of `nv_vmm_unmap`. -/
theorem Tree.unmapPage (h : s.Tree) (va : ℕ) :
    s.SetsPage va .empty True (s.unmapPage va) ∧ (s.unmapPage va).pdb = s.pdb := by
  rw [NvVmm.unmapPage, findTable_eq]
  cases ht : s.table (pagePath va) with
  | some pt => exact ⟨(Extends.refl h).setsPage_write ht .empty True, rfl⟩
  | none =>
    refine ⟨⟨h, fun _ _ => rfl, fun _ va' heq => walkPte_of_none ?_⟩, rfl⟩
    rw [((pagePath_eq_iff va' va).mpr heq).1, ht]

/-! ## Ranges -/

/-- The pages from number `first` on, `n` of them, have changed at most; if the call succeeded then page
`first + k` has the entry `e k`. -/
structure SetsRange (s : NvVmm) (first n : ℕ) (e : ℕ → NvMmuEntry) (ok : Prop) (s' : NvVmm) : Prop where
  tree : s'.Tree
  pdb : s'.pdb = s.pdb
  other : ∀ va, va < 2 ^ 49 → ¬(first ≤ va / 4096 ∧ va / 4096 < first + n) → s'.walkPte va = s.walkPte va
  same : ok → ∀ va, va < 2 ^ 49 → first ≤ va / 4096 → va / 4096 < first + n →
    s'.walkPte va = e (va / 4096 - first)

/-- No page. -/
theorem Tree.setsRange_zero (h : s.Tree) (first : ℕ) (e : ℕ → NvMmuEntry) (ok : Prop) :
    s.SetsRange first 0 e ok s :=
  ⟨h, rfl, fun _ _ _ => rfl, fun _ _ _ _ _ => by omega⟩

/-- One page and then the others. -/
theorem SetsRange.cons {first next n : ℕ} {e e' : ℕ → NvMmuEntry} {ok' : Prop}
    (hpage : va / 4096 = first) (hlt : first < 2 ^ 37) (h : s.SetsPage va (e 0) ok s')
    (hpdb : s'.pdb = s.pdb) (h' : s'.SetsRange next n e' ok' s'') (hnext : next = first + 1)
    (he : ∀ k, e' k = e (k + 1)) (hok : ok' → ok) : s.SetsRange first (n + 1) e ok' s'' where
  tree := h'.tree
  pdb := h'.pdb.trans hpdb
  other va' hva hout := by
    rw [h'.other va' hva (by omega)]
    apply h.other
    rw [hpage, Nat.mod_eq_of_lt hlt, Nat.mod_eq_of_lt (by omega)]
    omega
  same hk va' hva hge hle := by
    by_cases heq : va' / 4096 = first
    · rw [h'.other va' hva (by omega), heq, Nat.sub_self]
      apply h.same (hok hk)
      rw [hpage, heq]
    · rw [h'.same hk va' hva (by omega) (by omega), he]
      congr 1
      omega

/-- The entry of page `k` of a mapping. -/
def rangeEntry (physAddr : ℕ) (aperture : NvMmuAperture) (readOnly : Bool) (kind : BitVec 8) (k : ℕ) :
    NvMmuEntry :=
  turingMmuEncodePte (BitVec.ofNat 64 (physAddr + k * 4096)) aperture readOnly kind

/-- The address of page `i` of a range, and the pages after it. -/
theorem page_of_range {gpuVa n i : ℕ} (hva : gpuVa + (i + (n + 1)) * 4096 ≤ 2 ^ 49)
    (hal : gpuVa % 4096 = 0) :
    wrap64 (gpuVa + i * 4096) = gpuVa + i * 4096 ∧
      (gpuVa + i * 4096) / 4096 = gpuVa / 4096 + i ∧ gpuVa + (i + 1 + n) * 4096 ≤ 2 ^ 49 :=
  ⟨wrap64_of_lt (by omega), by omega, by rwa [add_assoc i, add_comm 1]⟩

/-- The loop of `nv_vmm_map`. -/
theorem Tree.mapPages (h : s.Tree) {gpuVa : ℕ} (physAddr : ℕ) (aperture : NvMmuAperture) (readOnly : Bool)
    (kind : BitVec 8) (n i : ℕ) (hva : gpuVa + (i + n) * 4096 ≤ 2 ^ 49) (hal : gpuVa % 4096 = 0) :
    s.SetsRange (gpuVa / 4096 + i) n (fun k => rangeEntry physAddr aperture readOnly kind (i + k))
      ((mapPages gpuVa physAddr aperture readOnly kind n i s).1 = 0)
      (mapPages gpuVa physAddr aperture readOnly kind n i s).2 := by
  induction n generalizing i s with
  | zero => exact h.setsRange_zero _ _ _
  | succ n ih =>
    obtain ⟨hwrap, hpage, hnext⟩ := page_of_range hva hal
    obtain ⟨hp, hpdb⟩ := h.mapPage (gpuVa + i * 4096) (rangeEntry physAddr aperture readOnly kind i)
    rw [rangeEntry] at hp hpdb
    rw [NvVmm.mapPages, hwrap]
    split
    · next s1 hr =>
      rw [hr] at hp hpdb
      exact SetsRange.cons hpage (by omega) hp hpdb (ih hp.tree (i + 1) hnext)
        (add_assoc ..).symm (fun k => by rw [add_right_comm i 1 k, add_assoc]) fun _ => rfl
    · next r s1 hr0 hr =>
      rw [hr] at hp hpdb
      exact SetsRange.cons hpage (by omega) hp hpdb
        ⟨hp.tree, rfl, fun _ _ _ => rfl, fun hk => absurd hk hr0⟩ rfl (fun _ => rfl) id

/-- The loop of `nv_vmm_unmap`. -/
theorem Tree.unmapPages (h : s.Tree) {gpuVa : ℕ} (n i : ℕ) (hva : gpuVa + (i + n) * 4096 ≤ 2 ^ 49)
    (hal : gpuVa % 4096 = 0) :
    s.SetsRange (gpuVa / 4096 + i) n (fun _ => .empty) True (unmapPages gpuVa n i s) := by
  induction n generalizing i s with
  | zero => exact h.setsRange_zero _ _ _
  | succ n ih =>
    obtain ⟨hwrap, hpage, hnext⟩ := page_of_range hva hal
    obtain ⟨hp, hpdb⟩ := h.unmapPage (gpuVa + i * 4096)
    rw [NvVmm.unmapPages, hwrap]
    exact SetsRange.cons hpage (by omega) hp hpdb (ih hp.tree (i + 1) hnext)
      (add_assoc ..).symm (fun _ => rfl) id

/-! ## Sequences of calls -/

/-- The calls that change the tables. -/
inductive Call where
  | map (gpuVa physAddr size : ℕ) (aperture : NvMmuAperture) (readOnly : Bool) (kind : BitVec 8)
  | unmap (gpuVa size : ℕ)

/-- The first address of the range of a call. -/
def Call.gpuVa : Call → ℕ
  | .map gpuVa _ _ _ _ _ => gpuVa
  | .unmap gpuVa _ => gpuVa

/-- The size of the range of a call. -/
def Call.size : Call → ℕ
  | .map _ _ size _ _ _ => size
  | .unmap _ size => size

/-- The call returns a value and a state. -/
def call (s : NvVmm) : Call → ℤ × NvVmm
  | .map gpuVa physAddr size aperture readOnly kind =>
    s.nvVmmMap gpuVa physAddr size aperture readOnly kind
  | .unmap gpuVa size => s.nvVmmUnmap gpuVa size

/-- The page with number `n` has an address in the range of the call. -/
def Call.Covers (c : Call) (n : ℕ) : Prop := c.gpuVa < (n + 1) * 4096 ∧ n * 4096 < c.gpuVa + c.size

instance (c : Call) (n : ℕ) : Decidable (c.Covers n) := inferInstanceAs (Decidable (_ ∧ _))

/-- The entry that a call gives to a page of its range. -/
def Call.entry (c : Call) (n : ℕ) : NvMmuEntry :=
  match c with
  | .map gpuVa physAddr _ aperture readOnly kind =>
    turingMmuEncodePte (BitVec.ofNat 64 (physAddr + (n * 4096 - gpuVa))) aperture readOnly kind
  | .unmap _ _ => .empty

/-- The entry of a page after some calls, latest first: that of the last call whose range it is in. -/
def lastMapping : List Call → ℕ → NvMmuEntry
  | [], _ => .empty
  | c :: cs, n => if c.Covers n then c.entry n else lastMapping cs n

/-- The addresses of a call are page aligned, and the physical ones are below `2 ^ 52`. -/
def Call.Aligned : Call → Prop
  | .map gpuVa physAddr size _ _ _ => gpuVa % 4096 = 0 ∧ physAddr % 4096 = 0 ∧ physAddr + size ≤ 2 ^ 52
  | .unmap gpuVa _ => gpuVa % 4096 = 0

/-- The range of a call lies in the 49-bit address space. -/
def Call.InSpace (c : Call) : Prop := c.gpuVa + c.size ≤ 2 ^ 49

theorem Call.Aligned.gpuVa {c : Call} (h : c.Aligned) : c.gpuVa % 4096 = 0 := by
  cases c with
  | map => exact h.1
  | unmap => exact h

/-- The pages of a range in the address space. -/
theorem Call.covers_iff {c : Call} (hal : c.gpuVa % 4096 = 0) (hin : c.InSpace) (n : ℕ) :
    c.Covers n ↔ c.gpuVa / 4096 + 0 ≤ n ∧ n < c.gpuVa / 4096 + 0 + pageCount c.size := by
  rw [Call.InSpace] at hin
  rw [Call.Covers, pageCount, wrap64_of_lt (by omega)]
  omega

/-- What the loops do to the pages of a call. -/
theorem SetsRange.covers {c : Call} {e : ℕ → NvMmuEntry} (hal : c.gpuVa % 4096 = 0) (hin : c.InSpace)
    (h : s.SetsRange (c.gpuVa / 4096 + 0) (pageCount c.size) e ok s')
    (he : ∀ n, c.gpuVa / 4096 ≤ n → e (n - (c.gpuVa / 4096 + 0)) = c.entry n) :
    s'.Tree ∧ (∀ va, va < 2 ^ 49 → ¬c.Covers (va / 4096) → s'.walkPte va = s.walkPte va) ∧
      (ok → ∀ va, va < 2 ^ 49 → c.Covers (va / 4096) → s'.walkPte va = c.entry (va / 4096)) := by
  have hcov := Call.covers_iff hal hin
  refine ⟨h.tree, fun va hlt hout => h.other va hlt fun hc => hout ((hcov _).mpr hc),
    fun hok va hlt hin' => ?_⟩
  obtain ⟨hge, hle⟩ := (hcov _).mp hin'
  rw [h.same hok va hlt hge hle, he _ hge]

/-- One call: it changes no page outside its range, and the pages of its range get their entries. -/
theorem Tree.call (h : s.Tree) {c : Call} (hal : c.Aligned) (hin : c.InSpace) :
    (s.call c).2.Tree ∧
      (∀ va, va < 2 ^ 49 → ¬c.Covers (va / 4096) → (s.call c).2.walkPte va = s.walkPte va) ∧
      ((s.call c).1 = 0 → ∀ va, va < 2 ^ 49 → c.Covers (va / 4096) →
        (s.call c).2.walkPte va = c.entry (va / 4096)) := by
  have hva := hal.gpuVa
  have hbound : c.gpuVa + (0 + pageCount c.size) * 4096 ≤ 2 ^ 49 := by
    rw [Call.InSpace] at hin
    rw [pageCount, wrap64_of_lt (by omega)]
    omega
  have hnull : s.Tree ∧ (∀ va, va < 2 ^ 49 → ¬c.Covers (va / 4096) → s.walkPte va = s.walkPte va) ∧
      ((-1 : ℤ) = 0 → ∀ va, va < 2 ^ 49 → c.Covers (va / 4096) → s.walkPte va = c.entry (va / 4096)) :=
    ⟨h, fun _ _ _ => rfl, fun hr => absurd hr (by decide)⟩
  cases c with
  | map gpuVa physAddr size aperture readOnly kind =>
    rw [NvVmm.call, nvVmmMap]
    split
    · exact hnull
    · rw [if_neg fun hc => hc.elim (fun h1 => h1 hal.1) (fun h2 => h2 hal.2.1)]
      apply (h.mapPages physAddr aperture readOnly kind (pageCount size) 0 hbound hva).covers hva hin
      intro n hge
      rw [Call.entry, rangeEntry]
      congr 2
      simp only [Call.gpuVa] at hva hge ⊢
      omega
  | unmap gpuVa size =>
    rw [NvVmm.call, nvVmmUnmap]
    split
    · exact hnull
    · obtain ⟨htree, hother, hsame⟩ := (h.unmapPages (pageCount size) 0 hbound hva).covers hva hin
        fun _ _ => rfl
      exact ⟨htree, hother, fun _ => hsame trivial⟩

/-- The states that successful calls lead to, with the calls made so far, latest first. -/
inductive Reached (s₀ : NvVmm) : List Call → NvVmm → Prop
  | start : Reached s₀ [] s₀
  | call {cs : List Call} {s s' : NvVmm} {c : Call} :
      Reached s₀ cs s → c.Aligned → c.InSpace → s.call c = (0, s') → Reached s₀ (c :: cs) s'

/-- What the frame allocator gives: page-aligned frames, all different, and none of them the root. -/
structure FrameSupply (pdb : ℕ) (frames : List (Option ℕ)) : Prop where
  nodup : (frames.filterMap id).Nodup
  aligned : ∀ f, some f ∈ frames → f % 4096 = 0 ∧ f < 2 ^ 64
  ne_root : some pdb ∉ frames

variable {mem : ℕ → Fin 512 → NvMmuEntry} {frames : List (Option ℕ)} {nodes : List Bool}

/-- The new root refers to no table. -/
theorem table_create (ht : (create mem pdb frames nodes).table q = some t) : q = [] ∧ t = pdb := by
  cases q with
  | nil => exact ⟨rfl, (some.inj ht).symm⟩
  | cons j q =>
    have hc : child (fill mem pdb .empty pdb j) = none := by
      rw [fill_self, child_empty]
    have hn : (create mem pdb frames nodes).table (j :: q) = none :=
      (walk_cons ..).trans (congrArg (bind · _) hc)
    exact nomatch ht.symm.trans hn

/-- Along a run the tables are a tree that holds the last mapping of every page. -/
theorem Reached.refines {cs : List Call} (hfs : FrameSupply pdb frames)
    (h : Reached (create mem pdb frames nodes) cs s) :
    s.Tree ∧ ∀ va, va < 2 ^ 49 → s.walkPte va = lastMapping cs (va / 4096) := by
  induction h with
  | start =>
    -- a new VMM is a tree of one table
    refine ⟨⟨fun _ _ _ _ _ hp hq => (table_create hp).1.trans (table_create hq).1.symm,
      fun _ hf _ _ hq => hfs.ne_root ((table_create hq).2 ▸ hf), hfs.nodup, hfs.aligned⟩,
      fun va _ => walkPte_of_none ?_⟩
    cases ht : (create mem pdb frames nodes).table (pagePath va) with
    | none => rfl
    | some t => exact absurd (table_create ht).1 (by simp [pagePath])
  | @call cs s s' c _ hal hin hcall ih =>
    obtain ⟨htree, hother, hsame⟩ := ih.1.call hal hin
    rw [hcall] at htree hother hsame
    refine ⟨htree, fun va hva => ?_⟩
    rw [lastMapping]
    split
    · next hc => exact hsame rfl va hva hc
    · next hc => rw [hother va hva hc, ih.2 va hva]

/-- After every sequence of successful calls whose ranges lie in the address space, the walk for an address
yields the entry of the last mapping of its page. A further call, whatever it returns, changes no page
outside its range. Reading a directory entry inverts encoding it. -/
theorem tables_refine_last_mapping (mem : ℕ → Fin 512 → NvMmuEntry) {pdb : ℕ} {frames : List (Option ℕ)}
    (nodes : List Bool) {cs : List Call} (hfs : FrameSupply pdb frames)
    (h : Reached (create mem pdb frames nodes) cs s) :
    (∀ va, va < 2 ^ 49 → s.walkPte va = lastMapping cs (va / 4096)) ∧
      (∀ c : Call, c.Aligned → c.InSpace → ∀ va, va < 2 ^ 49 → ¬c.Covers (va / 4096) →
        (s.call c).2.walkPte va = s.walkPte va) ∧
      ∀ (p : BitVec 64) (aperture : NvMmuAperture), p.toNat % 4096 = 0 →
        (turingMmuEncodePde p aperture).tablePhys = p.toNat := by
  obtain ⟨htree, hwalk⟩ := h.refines hfs
  exact ⟨hwalk, fun c hal hin => (htree.call hal hin).2.1, tablePhys_encodePde⟩

/-- A VMM with its root at `0x1000` and four frames. -/
def sampleVmm : NvVmm :=
  create (fun _ _ => .empty) 0x1000 [some 0x2000, some 0x3000, some 0x4000, some 0x5000] []

/-- One page is mapped at address zero. -/
def sampleMap : Call := .map 0 0x9000 4096 .vidMem false 0

/-- Two more pages are mapped, the first of them is unmapped, and the second one is mapped again. -/
def sampleMap2 : Call := .map 0x1000 0xA000 0x2000 .vidMem false 0

def sampleUnmap : Call := .unmap 0x1000 0x1000

def sampleRemap : Call := .map 0x2000 0x20000 0x1000 .vidMem true 0

/-- The VMM after the four calls. -/
def sampleMapped : NvVmm :=
  ((((sampleVmm.call sampleMap).2.call sampleMap2).2.call sampleUnmap).2.call sampleRemap).2

theorem Reached.snd {s₀ : NvVmm} {cs : List Call} {c : Call} (h : Reached s₀ cs s) (hal : c.Aligned)
    (hin : c.InSpace) (hret : (s.call c).1 = 0) : Reached s₀ (c :: cs) (s.call c).2 :=
  h.call hal hin (Prod.ext hret rfl)

theorem reached_sampleMapped : Reached sampleVmm [sampleRemap, sampleUnmap, sampleMap2, sampleMap] sampleMapped := by
  have hstart : Reached sampleVmm [] sampleVmm := .start
  have hone := hstart.snd (c := sampleMap) ⟨by decide, by decide, by decide⟩
    (by decide : 0 + 4096 ≤ 2 ^ 49) (by decide +kernel)
  have htwo := hone.snd (c := sampleMap2) ⟨by decide, by decide, by decide⟩
    (by decide : 0x1000 + 0x2000 ≤ 2 ^ 49) (by decide +kernel)
  have hthree := htwo.snd (c := sampleUnmap) (by decide : 0x1000 % 4096 = 0)
    (by decide : 0x1000 + 0x1000 ≤ 2 ^ 49) (by decide +kernel)
  have hfour := hthree.snd (c := sampleRemap) ⟨by decide, by decide, by decide⟩
    (by decide : 0x2000 + 0x1000 ≤ 2 ^ 49) (by decide +kernel)
  unfold sampleMapped
  exact hfour

/-- Every page has its last mapping. -/
theorem tables_refine_last_mapping_sample :
    sampleMapped.walkPte 0 = turingMmuEncodePte 0x9000 .vidMem false 0 ∧ sampleMapped.walkPte 0x1000 = .empty ∧
      sampleMapped.walkPte 0x2000 = turingMmuEncodePte 0x20000 .vidMem true 0 := by
  have hfs : FrameSupply 0x1000 [some 0x2000, some 0x3000, some 0x4000, some 0x5000] :=
    ⟨by decide, by simp, by decide⟩
  have hlast := (tables_refine_last_mapping _ _ hfs reached_sampleMapped).1
  exact ⟨(hlast 0 (by decide)).trans (by decide +kernel), (hlast 0x1000 (by decide)).trans (by decide +kernel),
    (hlast 0x2000 (by decide)).trans (by decide +kernel)⟩

/-- `nv_vmm_unmap` of a range of `2 ^ 64 - 1` bytes from address zero returns 0 and unmaps nothing. -/
theorem unmap_nothing :
    ((sampleVmm.call sampleMap).2.call (.unmap 0 (2 ^ 64 - 1))).1 = 0 ∧
      ((sampleVmm.call sampleMap).2.call (.unmap 0 (2 ^ 64 - 1))).2.walkPte 0 =
        turingMmuEncodePte 0x9000 .vidMem false 0 ∧
      lastMapping [.unmap 0 (2 ^ 64 - 1), sampleMap] 0 = .empty ∧
      -- a page mapped at the address `2 ^ 49` is found at address zero
      (sampleVmm.call (.map (2 ^ 49) 0x9000 4096 .vidMem false 0)).1 = 0 ∧
      (sampleVmm.call (.map (2 ^ 49) 0x9000 4096 .vidMem false 0)).2.walkPte 0 =
        turingMmuEncodePte 0x9000 .vidMem false 0 := by
  decide +kernel

end NvVmm

end NovaOS.Drivers
