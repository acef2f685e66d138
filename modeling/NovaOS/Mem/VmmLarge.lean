import NovaOS.Mem.VmmSpec
import NovaOS.Mem.VmmWalk

/-!
# Page tables with large pages

The tables of an address space when its directories may also map large pages, as the direct map that
the boot loader makes does. `Pte.next` follows references to tables only, `Tree` says that the tables so
reached form a tree in frames that are in use, and `leafAt` reads off the entry that maps an address,
with the level it stands at. `vmm.c` changes such a tree by widening an entry, linking a fresh table,
writing a page-table entry and unlinking an empty table; `Extends` and `Prunes` are what the first two
and the last two have in common.
-/

namespace NovaOS.Mem

open NovaOS.Lib List Pte Radix Option

/-! ## Entries -/

namespace Pte

/-- The table that an entry refers to; a large page refers to none. -/
def next (e : Pte) : Option ℕ :=
  if e.has vmmFlagPresent && !e.has vmmFlagHuge then some e.addr else none

variable {e : Pte}

theorem next_eq_some {t : ℕ} :
    next e = some t ↔ e.getLsbD 0 = true ∧ e.getLsbD 7 = false ∧ e.addr = t := by
  rw [next, has_present, has_huge]
  cases e.getLsbD 0 <;> cases e.getLsbD 7 <;> simp

theorem next_eq_none : next e = none ↔ e.getLsbD 0 = false ∨ e.getLsbD 7 = true := by
  rw [next, has_present, has_huge]
  cases e.getLsbD 0 <;> cases e.getLsbD 7 <;> simp

theorem next_zero : next 0#64 = none := by decide

theorem next_dir {frame : ℕ} (h : FrameAddr frame) (flags : Pte) :
    next (dir frame flags) = some frame := by
  rw [next_eq_some]
  exact ⟨by simp [getLsbD_dir], (dirBits_dir h flags).huge, addr_dir h flags⟩

theorem next_congr {e' : Pte} (h : e.strip = e'.strip) : next e = next e' := by
  obtain ⟨h0, h7, haddr⟩ := strip_congr h
  rw [next, next, has_present, has_present, has_huge, has_huge, h0, h7, haddr]

end Pte

/-- The paths at which there are tables. -/
def Depth (p : List (Fin 512)) : Prop := p.length ≤ 3

theorem depth_prefixClosed : PrefixClosed Depth := fun _ _ h hq => h.length_le.trans hq

/-- The indices of an address, each with the number of address bits below it. -/
def levels (virt : ℕ) : List (Fin 512 × ℕ) :=
  [(pml4Idx virt, 39), (pdptIdx virt, 30), (pdIdx virt, 21), (ptIdx virt, 12)]

/-- The address bits of an entry that maps `2 ^ k` bytes. -/
def pageMask (k : ℕ) : Pte :=
  if k = 30 then 0x000FFFFFC0000000#64 else if k = 21 then 0x000FFFFFFFE00000#64 else pteAddrMask

/-- The translation by an entry that maps `2 ^ k` bytes. -/
def physOf (virt : ℕ) : Option (ℕ × Pte) → ℕ
  | none => 0
  | some (k, e) => (e &&& pageMask k).toNat ||| (virt &&& (2 ^ k - 1))

namespace Vmm

/-- The table reached from `root` along a path of references to tables. -/
def tab (m : Vmm) (root : ℕ) (p : List (Fin 512)) : Option ℕ := walk next m.mem root p

/-- A table of the tree, the root included. -/
def IsTab (m : Vmm) (root a : ℕ) : Prop := ∃ p, Depth p ∧ m.tab root p = some a

/-- Entry `i` of the table at a path. -/
def entryAt (m : Vmm) (root : ℕ) (p : List (Fin 512)) (i : Fin 512) : Option Pte :=
  (m.tab root p).map fun t => m.mem t i

/-- The entry that maps an address, with its level and up to permissions: from the table at `q` down
the remaining indices to a large page or to the last index. -/
def leafAt (m : Vmm) (root : ℕ) : (q : List (Fin 512)) → List (Fin 512 × ℕ) → Option (ℕ × Pte)
  | _, [] => none
  | q, (j, k) :: rest =>
    match m.entryAt root q j with
    | none => none
    | some e =>
      if e.getLsbD 0 then
        if rest.isEmpty || e.getLsbD 7 then some (k, e.strip) else m.leafAt root (q ++ [j]) rest
      else none

/-- The entry that maps an address. -/
def leafOf (m : Vmm) (root virt : ℕ) : Option (ℕ × Pte) := m.leafAt root [] (levels virt)

/-- The invariant of a tree with large pages. -/
structure Tree (m : Vmm) (root : ℕ) : Prop where
  pmm : m.pmm.Inv
  total_le : m.pmm.gTotalFrames ≤ 2 ^ 40
  sep : Sep next Depth m.mem root
  used : ∀ {p t}, Depth p → m.tab root p = some t → FrameAddr t ∧ t / pageSize ∈ m.pmm.usedSet
  top : ∀ i, (m.mem root i).getLsbD 0 = true → (m.mem root i).getLsbD 7 = false

/-! ## Reading the tree -/

section View

variable {m : Vmm} {root t c : ℕ} {p q : List (Fin 512)} {i j : Fin 512} {e : Pte}

theorem tab_nil : m.tab root [] = some root := rfl

theorem entryAt_of_tab (ht : m.tab root p = some t) (i : Fin 512) :
    m.entryAt root p i = some (m.mem t i) := by
  rw [entryAt, ht]
  rfl

theorem tab_concat : m.tab root (p ++ [i]) = (m.entryAt root p i).bind next := by
  rw [tab, walk_concat, entryAt, bind_map]
  rfl

theorem tab_concat_of_tab (ht : m.tab root p = some t) :
    m.tab root (p ++ [i]) = next (m.mem t i) := by
  rw [tab_concat, entryAt_of_tab ht, bind_some]

theorem leafAt_cons_of_tab (ht : m.tab root q = some t) (k : ℕ) (rest : List (Fin 512 × ℕ)) :
    m.leafAt root q ((j, k) :: rest) =
      if (m.mem t j).getLsbD 0 then
        if rest.isEmpty || (m.mem t j).getLsbD 7 then some (k, (m.mem t j).strip)
        else m.leafAt root (q ++ [j]) rest
      else none := by
  rw [leafAt, entryAt_of_tab ht]

/-- `vmmVirtToPhys` is the translation by the entry that maps the address. -/
theorem Tree.vmmVirtToPhys (h : m.Tree root) (virt : ℕ) :
    m.vmmVirtToPhys root virt = physOf virt (m.leafOf root virt) := by
  unfold Vmm.vmmVirtToPhys
  simp only [has_present, has_huge]
  rw [leafOf, levels, leafAt_cons_of_tab tab_nil]
  cases h4 : (m.mem root (pml4Idx virt)).getLsbD 0
  · rfl
  have h4' := h.top _ h4
  have ht3 : m.tab root [pml4Idx virt] = some (m.mem root (pml4Idx virt)).addr :=
    (tab_concat_of_tab tab_nil).trans (next_eq_some.mpr ⟨h4, h4', rfl⟩)
  rw [h4']
  simp only [Bool.false_eq_true, isEmpty_cons, Bool.or_false, nil_append]
  rw [leafAt_cons_of_tab ht3]
  set pdpt := (m.mem root (pml4Idx virt)).addr
  cases h3 : (m.mem pdpt (pdptIdx virt)).getLsbD 0
  · rfl
  cases h3' : (m.mem pdpt (pdptIdx virt)).getLsbD 7
  swap
  · simp only [if_false, if_true, Bool.or_true, physOf]
    rw [strip_and _ (by decide)]
    rfl
  have ht2 : m.tab root [pml4Idx virt, pdptIdx virt] = some (m.mem pdpt (pdptIdx virt)).addr :=
    (tab_concat_of_tab ht3).trans (next_eq_some.mpr ⟨h3, h3', rfl⟩)
  simp only [Bool.false_eq_true, isEmpty_cons, Bool.or_false, cons_append, nil_append]
  rw [leafAt_cons_of_tab ht2]
  set pd := (m.mem pdpt (pdptIdx virt)).addr
  cases h2 : (m.mem pd (pdIdx virt)).getLsbD 0
  · rfl
  cases h2' : (m.mem pd (pdIdx virt)).getLsbD 7
  swap
  · simp only [if_false, if_true, Bool.or_true, physOf]
    rw [strip_and _ (by decide)]
    rfl
  have ht1 : m.tab root [pml4Idx virt, pdptIdx virt, pdIdx virt] =
      some (m.mem pd (pdIdx virt)).addr :=
    (tab_concat_of_tab ht2).trans (next_eq_some.mpr ⟨h2, h2', rfl⟩)
  simp only [Bool.false_eq_true, isEmpty_cons, Bool.or_false, cons_append, nil_append]
  rw [leafAt_cons_of_tab ht1]
  set pt := (m.mem pd (pdIdx virt)).addr
  cases h1 : (m.mem pt (ptIdx virt)).getLsbD 0
  · rfl
  · simp only [if_false, if_true, isEmpty_nil, Bool.true_or, physOf]
    rw [strip_and _ (by decide)]
    rfl

end View

/-! ## Growing the tree -/

/-- A step that may widen entries and add tables, and changes no translation. -/
structure Extends (m m' : Vmm) (root : ℕ) : Prop where
  tree : m'.Tree root
  kernel_eq : m'.gKernelPml4 = m.gKernelPml4
  tab_mono : ∀ {q s}, Depth q → m.tab root q = some s → m'.tab root q = some s
  leaf_eq : ∀ l q, q.length + l.length = 4 → m'.leafAt root q l = m.leafAt root q l
  outside : ∀ a, ¬m'.IsTab root a → m'.mem a = m.mem a
  stays : ∀ a, FrameAddr a → a / pageSize ∈ m.pmm.usedSet → ¬m.IsTab root a →
    a / pageSize ∈ m'.pmm.usedSet ∧ ¬m'.IsTab root a

section Steps

variable {m m' : Vmm} {root t c : ℕ} {p q : List (Fin 512)} {i : Fin 512} {e : Pte}

variable {a virt : ℕ}

theorem Extends.isTab_mono (h : m.Extends m' root) (ha : m.IsTab root a) : m'.IsTab root a := by
  obtain ⟨q, hq, hs⟩ := ha
  exact ⟨q, hq, h.tab_mono hq hs⟩

variable {m1 m2 m3 : Vmm}

theorem Extends.trans (h : m1.Extends m2 root) (h' : m2.Extends m3 root) : m1.Extends m3 root where
  tree := h'.tree
  kernel_eq := h'.kernel_eq.trans h.kernel_eq
  tab_mono := fun hq hs => h'.tab_mono hq (h.tab_mono hq hs)
  leaf_eq := fun l q hlen => (h'.leaf_eq l q hlen).trans (h.leaf_eq l q hlen)
  outside := fun a ha => (h'.outside a ha).trans (h.outside a fun ha' => ha (h'.isTab_mono ha'))
  stays := fun a haddr hused hnot =>
    have ⟨hused', hnot'⟩ := h.stays a haddr hused hnot
    h'.stays a haddr hused' hnot'

theorem isTab_congr (htab : ∀ q, Depth q → m'.tab root q = m.tab root q) (a : ℕ) :
    m'.IsTab root a ↔ m.IsTab root a :=
  exists_congr fun q => and_congr_right fun hq => by rw [htab q hq]

/-- Trees whose entries on the way agree up to permissions translate alike. -/
theorem leafAt_congr {l : List (Fin 512 × ℕ)} (hlen : q.length + l.length = 4)
    (hentry : ∀ p j, Depth p → (p ++ [j]) <+: q ++ l.map Prod.fst →
      (m'.entryAt root p j).map strip = (m.entryAt root p j).map strip) :
    m'.leafAt root q l = m.leafAt root q l := by
  induction l generalizing q with
  | nil => rfl
  | cons x rest ih =>
    obtain ⟨j, k⟩ := x
    rw [length_cons] at hlen
    have hrest := ih (q := q ++ [j]) (by rw [length_append, length_singleton]; omega)
      fun p i hp hpre => hentry p i hp (by simpa using hpre)
    have hj := hentry q j (show q.length ≤ 3 by omega) (by simp)
    rw [leafAt, leafAt]
    cases he : m.entryAt root q j with
    | none =>
      rw [he, map_none, map_eq_none_iff] at hj
      rw [hj]
    | some e =>
      rw [he, map_some, map_eq_some_iff] at hj
      obtain ⟨e', he', hstrip⟩ := hj
      obtain ⟨h0, h7, -⟩ := strip_congr hstrip
      rw [he']
      dsimp only
      rw [h0, h7, hstrip, hrest]

/-- The translation goes through the table at the next index. -/
theorem leafAt_of_tab_concat {s k : ℕ} {rest : List (Fin 512 × ℕ)} (hrest : rest.isEmpty = false)
    (hs : m.tab root (q ++ [i]) = some s) :
    m.leafAt root q ((i, k) :: rest) = m.leafAt root (q ++ [i]) rest := by
  obtain ⟨e, he, hnext⟩ := bind_eq_some_iff.mp (tab_concat.symm.trans hs)
  obtain ⟨h0, h7, -⟩ := next_eq_some.mp hnext
  rw [leafAt, he]
  dsimp only
  rw [h0, h7, hrest]
  rfl

theorem leafAt_of_absent (he : m.entryAt root q i = some e) (hbit : e.getLsbD 0 = false) (k : ℕ)
    (rest : List (Fin 512 × ℕ)) : m.leafAt root q ((i, k) :: rest) = none := by
  rw [leafAt, he]
  dsimp only
  rw [hbit]
  rfl

/-- A tree with an empty table more than another one translates alike. -/
theorem leafAt_empty (hp : Depth (p ++ [i])) (hc : m'.tab root (p ++ [i]) = some c)
    (hempty : ∀ j, ∃ e, m'.entryAt root (p ++ [i]) j = some e ∧ e.getLsbD 0 = false)
    (hmiss : ∃ e, m.entryAt root p i = some e ∧ e.getLsbD 0 = false)
    (hentry : ∀ q j, Depth q → q ≠ p ++ [i] → ¬(q = p ∧ j = i) →
      m'.entryAt root q j = m.entryAt root q j)
    (l : List (Fin 512 × ℕ)) (q : List (Fin 512)) (hlen : q.length + l.length = 4) :
    m'.leafAt root q l = m.leafAt root q l := by
  obtain ⟨e, he, hbit⟩ := hmiss
  have hnone' : ∀ l, m'.leafAt root (p ++ [i]) l = none := by
    rintro (_ | ⟨⟨j, k⟩, rest⟩)
    · rfl
    · obtain ⟨e', he', hbit'⟩ := hempty j
      exact leafAt_of_absent he' hbit' k rest
  have hnone : ∀ l, m.leafAt root (p ++ [i]) l = none := by
    rintro (_ | ⟨⟨j, k⟩, rest⟩)
    · rfl
    · rw [leafAt, entryAt, tab_concat, he, bind_some, next_eq_none.mpr (.inl hbit)]
      rfl
  induction l generalizing q with
  | nil => rfl
  | cons x rest ih =>
    obtain ⟨j, k⟩ := x
    rw [length_cons] at hlen
    have hrest := ih (q ++ [j]) (by rw [length_append, length_singleton]; omega)
    by_cases hnew : q = p ++ [i]
    · rw [hnew, hnone', hnone]
    by_cases hold : q = p ∧ j = i
    · obtain ⟨rfl, rfl⟩ := hold
      have hlen' : q.length + 1 ≤ 3 := by simpa [Depth] using hp
      have hfar : rest.isEmpty = false := by
        cases rest with
        | nil => exact absurd hlen (by simp; omega)
        | cons y rest => rfl
      rw [leafAt_of_tab_concat hfar hc, hnone', leafAt_of_absent he hbit]
    · rw [leafAt, leafAt, hentry q j (show q.length ≤ 3 by omega) hnew hold, hrest]

/-- Memory that is not a table is not written by a write to a table. -/
theorem write_mem_of_ne (ha : a ≠ t) : (m.write t i e).mem a = m.mem a :=
  funext fun _ => setEntry_of_ne _ _ fun hc => ha hc.1

/-- No entry of the root becomes a large page by a write of a small one. -/
theorem Tree.top_write (h : m.Tree root) (he : e.getLsbD 0 = true → e.getLsbD 7 = false)
    (j : Fin 512) : (setEntry m.mem t i e root j).getLsbD 0 = true →
      (setEntry m.mem t i e root j).getLsbD 7 = false := by
  by_cases hst : root = t ∧ j = i
  · obtain ⟨rfl, rfl⟩ := hst
    rwa [setEntry_self]
  · rw [setEntry_of_ne _ _ hst]
    exact h.top j

/-- A widened entry is the same up to permissions. -/
theorem strip_write_widen (flags : Pte) (s : ℕ) (j : Fin 512) :
    ((m.write t i ((m.mem t i).widen flags)).mem s j).strip = (m.mem s j).strip := by
  show (setEntry m.mem t i _ s j).strip = _
  by_cases hst : s = t ∧ j = i
  · obtain ⟨rfl, rfl⟩ := hst
    rw [setEntry_self, strip_widen]
  · rw [setEntry_of_ne _ _ hst]

/-- Widening an entry. -/
theorem Tree.widen (h : m.Tree root) (hp : Depth p) (ht : m.tab root p = some t) (flags : Pte) :
    m.Extends (m.write t i ((m.mem t i).widen flags)) root := by
  have hstrip := strip_write_widen (m := m) (t := t) (i := i) flags
  have htab : ∀ q, (m.write t i ((m.mem t i).widen flags)).tab root q = m.tab root q :=
    fun _ => walk_congr next m.mem fun _ j s _ _ => next_congr (hstrip s j)
  have hisTab := isTab_congr fun q _ => htab q
  refine ⟨⟨h.pmm, h.total_le, ?_, fun hq hs => h.used hq ((htab _).symm.trans hs), ?_⟩, rfl,
    fun _ hs => (htab _).trans hs, fun l q hlen => leafAt_congr hlen fun q j _ _ => ?_,
    fun a ha => write_mem_of_ne ?_,
    fun a _ hused hnot => ⟨hused, mt (hisTab a).mp hnot⟩⟩
  · exact h.sep.setEntry_same (next_congr (strip_widen _ _))
  · intro j hj
    obtain ⟨h0, h7, -⟩ := strip_congr (hstrip root j)
    rw [h7]
    exact h.top j (h0 ▸ hj)
  · rw [entryAt, entryAt, htab]
    cases m.tab root q with
    | none => rfl
    | some s => exact congrArg some (hstrip s j)
  · rintro rfl
    exact ha ((hisTab a).mpr ⟨p, hp, ht⟩)

section Link

variable {r : ℕ × Vmm}

/-- The memory after a link: the entry, the new table, and nothing else. -/
theorem linkTable_mem {a : ℕ} {j : Fin 512} (flags : Pte) (ha : a ≠ r.1) (hat : ¬(a = t ∧ j = i)) :
    (m.linkTable t i flags r).mem a j = m.mem a j := by
  show setEntry _ t i _ a j = _
  rw [setEntry_of_ne _ _ hat, fill_of_ne _ _ _ ha]

variable (h : m.Tree root) (hr : m.AllocFrame r) (hne : r.1 ≠ 0) (hp : Depth (p ++ [i]))
  (ht : m.tab root p = some t) (hmiss : (m.mem t i).getLsbD 0 = false) (flags : Pte)
include h hr hne hp ht hmiss

theorem Tree.links : Links next Depth m.mem root t p i r.1 (dir r.1 flags) 0#64 :=
  have ⟨haddr, hnot, _⟩ := hr.frameAddr h.total_le hne
  ⟨depth_prefixClosed, h.sep, hp, ht, next_eq_none.mpr (.inl hmiss),
    fun _ hq hw => hnot (h.used hq hw).2, next_dir haddr flags, next_zero⟩

/-- Linking a fresh table. -/
theorem Tree.link : m.Extends (m.linkTable t i flags r) root := by
  obtain ⟨haddr, hnot, -, hused, -⟩ := hr.frameAddr h.total_le hne
  have hlink := h.links hr hne hp ht hmiss flags
  have hisTab : ∀ a, (m.linkTable t i flags r).IsTab root a ↔ a = r.1 ∨ m.IsTab root a :=
    hlink.reached_iff
  have hrused : ∀ {g}, g ∈ m.pmm.usedSet → g ∈ (m.linkTable t i flags r).pmm.usedSet :=
    fun hg => hr.used_mono hg
  refine ⟨⟨hr.inv, hr.total_eq ▸ h.total_le, hlink.sep_link, ?_, ?_⟩, hr.kernel_eq,
    fun hq hs => hlink.walk_mono hq hs, ?_, ?_, ?_⟩
  · intro q s hq hs
    rcases (hisTab s).mp ⟨q, hq, hs⟩ with rfl | ⟨q', hq', hs'⟩
    · refine ⟨haddr, ?_⟩
      show r.1 / pageSize ∈ r.2.pmm.usedSet
      rw [hused]
      exact Finset.mem_insert_self _ _
    · exact ⟨(h.used hq' hs').1, hrused (h.used hq' hs').2⟩
  · intro j hj
    have hroot : root ≠ r.1 := fun heq =>
      hnot (heq ▸ (h.used (p := []) (Nat.zero_le _) rfl).2)
    by_cases hrt : root = t ∧ j = i
    · obtain ⟨rfl, rfl⟩ := hrt
      have hnew : (m.linkTable root j flags r).mem root j = dir r.1 flags :=
        setEntry_self _ _ _ _
      rw [hnew]
      exact (dirBits_dir haddr flags).huge
    · rw [linkTable_mem flags hroot hrt] at hj ⊢
      exact h.top j hj
  · exact leafAt_empty hp ((hlink.walk_eq hp).trans (if_pos rfl))
      (fun j => ⟨0#64, (hlink.entry_eq hp j).trans (if_pos rfl), rfl⟩) ⟨_, entryAt_of_tab ht i, hmiss⟩
      fun q j hq hnew hold => (hlink.entry_eq hq j).trans ((if_neg hnew).trans (if_neg hold))
  · intro a ha
    have ha' := mt (hisTab a).mpr ha
    exact funext fun j => linkTable_mem flags (fun heq => ha' (.inl heq))
      fun hc => ha' (.inr (hc.1 ▸ ⟨p, depth_prefixClosed.of_concat hp, ht⟩))
  · intro a haddr' ha hna
    refine ⟨hrused ha, fun hta => ?_⟩
    rcases (hisTab a).mp hta with rfl | hta
    · exact hnot ha
    · exact hna hta

end Link

/-- A change of the allocator alone that keeps the tables in use. -/
theorem Tree.allocFailed (h : m.Tree root) {r : ℕ × Vmm} (hr : m.AllocFrame r) :
    m.Extends r.2 root := by
  have htab : ∀ q, r.2.tab root q = m.tab root q := fun q => by rw [tab, tab, hr.mem_eq]
  refine ⟨⟨hr.inv, hr.total_eq ▸ h.total_le, ?_, fun hq hs => ?_, ?_⟩, hr.kernel_eq,
    fun _ hs => (htab _).trans hs, fun l q hlen => leafAt_congr hlen fun q j _ _ => ?_,
    fun a _ => congrFun hr.mem_eq a,
    fun a _ ha hna => ⟨hr.used_mono ha, mt (isTab_congr (fun q _ => htab q) a).mp hna⟩⟩
  · rw [hr.mem_eq]
    exact h.sep
  · have hused := h.used hq ((htab _).symm.trans hs)
    exact ⟨hused.1, hr.used_mono hused.2⟩
  · rw [hr.mem_eq]
    exact h.top
  · rw [entryAt, entryAt, htab, hr.mem_eq]

/-- `getOrAllocTable` on an entry that is no large page. -/
theorem Tree.getOrAllocTable (h : m.Tree root) (hp : Depth (p ++ [i])) (ht : m.tab root p = some t)
    (hsmall : (m.mem t i).getLsbD 0 = true → (m.mem t i).getLsbD 7 = false) (flags : Pte) :
    m.Extends (m.getOrAllocTable t i flags).2 root ∧
      (∀ c, (m.getOrAllocTable t i flags).1 = some c →
        (m.getOrAllocTable t i flags).2.tab root (p ++ [i]) = some c) ∧
      (∀ s j, m.IsTab root s → ¬(s = t ∧ j = i) →
        (m.getOrAllocTable t i flags).2.mem s j = m.mem s j) ∧
      ((m.mem t i).getLsbD 0 = true →
        ((m.getOrAllocTable t i flags).2.mem t i).strip = (m.mem t i).strip) := by
  cases hpres : (m.mem t i).getLsbD 0 with
  | true =>
    have hext := h.widen (i := i) (depth_prefixClosed.of_concat hp) ht flags
    rw [getOrAllocTable_of_present hpres]
    refine ⟨hext, fun c hc => hext.tab_mono hp ?_, fun s j _ hst => ?_, fun _ => ?_⟩
    · rw [tab_concat_of_tab ht, next_eq_some]
      exact ⟨hpres, hsmall hpres, some.inj hc⟩
    · exact setEntry_of_ne _ _ hst
    · show (setEntry m.mem t i _ t i).strip = _
      rw [setEntry_self, strip_widen]
  | false =>
    rw [getOrAllocTable_of_absent hpres]
    have hr := pmmAllocFrame_spec h.pmm
    split
    · exact ⟨h.allocFailed hr, by simp, fun s j _ _ => congrFun (congrFun hr.mem_eq s) j, by simp⟩
    · rename_i hnull
      refine ⟨h.link hr hnull hp ht hpres flags, fun c hc => ?_, fun s j hs hst => ?_, by simp⟩
      · refine ((h.links hr hnull hp ht hpres flags).walk_eq hp).trans ?_
        rw [if_pos rfl, ← hc]
      · refine linkTable_mem flags ?_ hst
        rintro rfl
        obtain ⟨q, hq, hs⟩ := hs
        exact (hr.frameAddr h.total_le hnull).2.1 (h.used hq hs).2

/-! ## Writing a page-table entry -/

section

variable (h : m.Tree root) (hp : p.length = 3) (ht : m.tab root p = some t)
include h hp ht

theorem Tree.tab_write_leaf (hq : Depth q) : (m.write t i e).tab root q = m.tab root q := by
  refine walk_setEntry_of_not_isPrefix depth_prefixClosed h.sep hp.le ht hq fun hpre => ?_
  have hlen := hpre.length_le
  rw [length_append, hp] at hlen
  exact nomatch hlen.trans hq

/-- Writing an entry of a page table keeps the tree and its tables. -/
theorem Tree.writeLeaf (e : Pte) : (m.write t i e).Tree root := by
  have htab := fun {q} hq => h.tab_write_leaf (e := e) (i := i) (q := q) hp ht hq
  have hne : root ≠ t := by
    rintro rfl
    have := h.sep p [] root hp.le (Nat.zero_le _) ht rfl
    rw [this] at hp
    cases hp
  refine ⟨h.pmm, h.total_le, h.sep.congr fun _ => htab,
    fun hq hs => h.used hq ((htab hq).symm.trans hs), ?_⟩
  rw [write_mem_of_ne hne]
  exact h.top

/-- The translations that do not use the entry are kept. -/
theorem Tree.leafAt_write_leaf (l : List (Fin 512 × ℕ)) (q : List (Fin 512))
    (hlen : q.length + l.length = 4) (hne : q ++ l.map Prod.fst ≠ p ++ [i]) :
    (m.write t i e).leafAt root q l = m.leafAt root q l := by
  refine leafAt_congr hlen fun q' j hq' hpre => congrArg _
    ((entry_setEntry h.sep hp.le ht hq' (h.tab_write_leaf hp ht hq') j).trans (if_neg ?_))
  rintro ⟨rfl, rfl⟩
  exact hne (hpre.eq_of_length (by simp [hp, hlen])).symm

end

/-- The directories of an address. -/
def dirPath (virt : ℕ) : List (Fin 512) := [pml4Idx virt, pdptIdx virt, pdIdx virt]

theorem tab_of_dirPath (ht : m.tab root (dirPath virt) = some t) :
    ∃ pdpt pd, m.tab root [pml4Idx virt] = some pdpt ∧
      m.tab root [pml4Idx virt, pdptIdx virt] = some pd := by
  obtain ⟨e, he, -⟩ := bind_eq_some_iff.mp
    ((tab_concat (p := [pml4Idx virt, pdptIdx virt])).symm.trans ht)
  obtain ⟨pd, hpd, -⟩ := map_eq_some_iff.mp he
  obtain ⟨e', he', -⟩ := bind_eq_some_iff.mp
    ((tab_concat (p := [pml4Idx virt])).symm.trans hpd)
  obtain ⟨pdpt, hpdpt, -⟩ := map_eq_some_iff.mp he'
  exact ⟨pdpt, pd, hpdpt, hpd⟩

/-- The translation of an address whose page table is reached. -/
theorem leafOf_of_tab (ht : m.tab root (dirPath virt) = some t) :
    m.leafOf root virt =
      if (m.mem t (ptIdx virt)).getLsbD 0 then some (12, (m.mem t (ptIdx virt)).strip) else none := by
  obtain ⟨pdpt, pd, hpdpt, hpd⟩ := tab_of_dirPath ht
  rw [leafOf, levels, leafAt_of_tab_concat (q := []) rfl hpdpt,
    leafAt_of_tab_concat (q := [] ++ [pml4Idx virt]) rfl hpd,
    leafAt_of_tab_concat (q := [] ++ [pml4Idx virt] ++ [pdptIdx virt]) rfl ht,
    leafAt_cons_of_tab (q := [] ++ [pml4Idx virt] ++ [pdptIdx virt] ++ [pdIdx virt]) ht]
  rfl

/-! ## Shrinking the tree -/

/-- A step that may take empty tables away, and changes no translation. -/
structure Prunes (m m' : Vmm) (root : ℕ) : Prop where
  tree : m'.Tree root
  kernel_eq : m'.gKernelPml4 = m.gKernelPml4
  tab_anti : ∀ {q s}, Depth q → m'.tab root q = some s → m.tab root q = some s
  leaf_eq : ∀ l q, q.length + l.length = 4 → m'.leafAt root q l = m.leafAt root q l
  outside : ∀ a, ¬m.IsTab root a → m'.mem a = m.mem a
  stays : ∀ a, FrameAddr a → a / pageSize ∈ m.pmm.usedSet → ¬m.IsTab root a →
    a / pageSize ∈ m'.pmm.usedSet ∧ ¬m'.IsTab root a

theorem Prunes.refl (h : m.Tree root) : m.Prunes m root :=
  ⟨h, rfl, fun _ hs => hs, fun _ _ _ => rfl, fun _ _ => rfl, fun _ _ hused hnot => ⟨hused, hnot⟩⟩

theorem Prunes.trans (h : m1.Prunes m2 root) (h' : m2.Prunes m3 root) : m1.Prunes m3 root where
  tree := h'.tree
  kernel_eq := h'.kernel_eq.trans h.kernel_eq
  tab_anti := fun hq hs => h.tab_anti hq (h'.tab_anti hq hs)
  leaf_eq := fun l q hlen => (h'.leaf_eq l q hlen).trans (h.leaf_eq l q hlen)
  outside := fun a ha => (h'.outside a fun ⟨q, hq, hs⟩ => ha ⟨q, hq, h.tab_anti hq hs⟩).trans
    (h.outside a ha)
  stays := fun a haddr hused hnot =>
    have ⟨hused', hnot'⟩ := h.stays a haddr hused hnot
    h'.stays a haddr hused' hnot'

section Unlink

variable (h : m.Tree root) (hp : Depth (p ++ [i])) (ht : m.tab root p = some t)
  (hc : next (m.mem t i) = some c) (hempty : m.isTableEmpty c = true)
include h hp ht hc hempty

theorem Tree.unlinks : Unlinks next Depth m.mem root t p i c 0#64 :=
  ⟨depth_prefixClosed, h.sep, hp, ht, hc, next_zero,
    fun j => next_eq_none.mpr (.inl (isTableEmpty_iff.mp hempty j))⟩

/-- Unlinking and freeing an empty table. -/
theorem Tree.unlink : m.Prunes (m.unlinkTable t i c) root := by
  have hunlink := h.unlinks hp ht hc hempty
  have hct : m.tab root (p ++ [i]) = some c := hunlink.walk_concat
  have hcaddr := (h.used hp hct).1
  have hpost := hcaddr.pmmFreeFrame h.pmm
  have hkeep : ∀ {a}, FrameAddr a → a ≠ c → a / pageSize ∈ m.pmm.usedSet →
      a / pageSize ∈ (m.unlinkTable t i c).pmm.usedSet := by
    exact fun ha hne hused => (ha.mem_pmmFreeFrame hcaddr h.pmm).mpr ⟨hne, hused⟩
  refine ⟨⟨hpost.inv, hpost.total_eq ▸ h.total_le, hunlink.sep_unlink, fun hq hs => ?_,
    h.top_write (by simp)⟩, rfl, fun hq hs => (hunlink.walk_anti hq hs).2, fun l q hlen => ?_, fun a ha => ?_,
    fun a haddr hused hnot => ?_⟩
  · obtain ⟨hne, hs'⟩ := hunlink.walk_anti hq hs
    exact ⟨(h.used hq hs').1, hkeep (h.used hq hs').1 hne (h.used hq hs').2⟩
  · have hentry : ∀ {q j}, Depth q → (m.unlinkTable t i c).entryAt root q j = _ :=
      fun hq => hunlink.entry_eq hq _
    refine (leafAt_empty hp hct (fun j => ⟨_, entryAt_of_tab hct j, isTableEmpty_iff.mp hempty j⟩)
      ⟨0#64, ?_, rfl⟩ (fun q j hq hnew hold => ?_) l q hlen).symm
    · rw [hentry (depth_prefixClosed.of_concat hp), if_neg (by simp), if_pos ⟨rfl, rfl⟩]
    · rw [hentry hq, if_neg hnew, if_neg hold]
      rfl
  · refine write_mem_of_ne ?_
    rintro rfl
    exact ha ⟨p, depth_prefixClosed.of_concat hp, ht⟩
  · refine ⟨hkeep haddr (fun heq => hnot (heq ▸ ⟨p ++ [i], hp, hct⟩)) hused, ?_⟩
    rintro ⟨q, hq, hs⟩
    exact hnot ⟨q, hq, (hunlink.walk_anti hq hs).2⟩

end Unlink

end Steps

end Vmm

end NovaOS.Mem
