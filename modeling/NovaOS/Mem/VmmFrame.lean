import NovaOS.Mem.VmmLarge

/-!
# What mapping and unmapping a page leave alone

`vmmMapPage` takes a large page on its way for a table, and `vmmUnmapPage` clears a 2 MiB page as a
whole. Everywhere else the two change the translation of the page they name and of no other page, and
write to tables only.
-/

namespace NovaOS.Mem

open NovaOS.Lib List

/-! ## Pages -/

/-- Two addresses of one page; the walk reads 36 bits of the page number. -/
def SamePage (virt virt' : ℕ) : Prop := virt / pageSize % 2 ^ 36 = virt' / pageSize % 2 ^ 36

instance (virt virt' : ℕ) : Decidable (SamePage virt virt') := inferInstanceAs (Decidable (_ = _))

theorem samePage_iff (virt virt' : ℕ) : SamePage virt virt' ↔
    pml4Idx virt = pml4Idx virt' ∧ pdptIdx virt = pdptIdx virt' ∧ pdIdx virt = pdIdx virt' ∧
      ptIdx virt = ptIdx virt' := by
  simp only [SamePage, pml4Idx, pdptIdx, pdIdx, ptIdx, Fin.ext_iff, tableIndex_val, pageSize]
  omega

/-- The indices of an address are those of its page. -/
theorem idx_pageFloor (virt : ℕ) :
    pml4Idx (pageFloor virt) = pml4Idx virt ∧ pdptIdx (pageFloor virt) = pdptIdx virt ∧
      pdIdx (pageFloor virt) = pdIdx virt ∧ ptIdx (pageFloor virt) = ptIdx virt := by
  rw [← samePage_iff, SamePage, pageFloor_div]

theorem levels_ne {virt virt' : ℕ} (h : ¬SamePage virt virt') :
    [] ++ (levels virt').map Prod.fst ≠ Vmm.dirPath virt ++ [ptIdx virt] := by
  intro heq
  simp only [levels, Vmm.dirPath, map_cons, map_nil, nil_append, cons_append,
    cons.injEq, and_true] at heq
  exact h ((samePage_iff _ _).mpr ⟨heq.1.symm, heq.2.1.symm, heq.2.2.1.symm, heq.2.2.2.symm⟩)

namespace Vmm

/-- What a step of `vmm.c` on the tree leaves alone: memory that is not a table, and the frames in use
that are not tables. -/
structure Touches (m m' : Vmm) (root : ℕ) : Prop where
  tree : m'.Tree root
  kernel_eq : m'.gKernelPml4 = m.gKernelPml4
  outside : ∀ a, ¬m.IsTab root a → ¬m'.IsTab root a → m'.mem a = m.mem a
  stays : ∀ a, FrameAddr a → a / pageSize ∈ m.pmm.usedSet → ¬m.IsTab root a →
    a / pageSize ∈ m'.pmm.usedSet ∧ ¬m'.IsTab root a

section

variable {m m' : Vmm} {root virt : ℕ}

theorem Extends.touches (h : m.Extends m' root) : m.Touches m' root :=
  ⟨h.tree, h.kernel_eq, fun a _ ha => h.outside a ha, h.stays⟩

theorem Touches.refl (h : m.Tree root) : m.Touches m root :=
  ⟨h, rfl, fun _ _ _ => rfl, fun _ _ hused hnot => ⟨hused, hnot⟩⟩

/-! ## Mapping -/

/-- No large page maps the address. -/
def Small (m : Vmm) (root virt : ℕ) : Prop := ∀ x, m.leafOf root virt = some x → x.1 = 12

variable {t pdpt pd : ℕ} {q p : List (Fin 512)}

/-- What `vmmMapPage` does where it meets no large page. -/
structure MapsPage (m : Vmm) (root virt phys : ℕ) (flags : Pte) (r : ℤ × Vmm) : Prop where
  touches : m.Touches r.2 root
  others_eq : ∀ virt', ¬SamePage virt virt' → r.2.leafOf root virt' = m.leafOf root virt'
  mapped : r.1 = 0 → r.2.leafOf root virt = some (12, (Pte.leaf (pageFloor phys) flags).strip)
  top_eq : (m.mem root (pml4Idx virt)).getLsbD 0 = true →
    ∀ j, (r.2.mem root j).strip = (m.mem root j).strip

/-- A table below the root is not the root. -/
theorem Tree.ne_root (h : m.Tree root) (hq : Depth q) (hne : q ≠ []) (ht : m.tab root q = some t) :
    root ≠ t := by
  rintro rfl
  exact hne (h.sep q [] root hq (Nat.zero_le _) ht rfl)

/-- The way down through directories, none of which is a large page. -/
theorem Tree.descend (h : m.Tree root) (flags : Pte) {l r : List (Fin 512 × ℕ)}
    (hr : r.isEmpty = false) (hlen : p.length + (l ++ r).length = 4)
    (ht : m.tab root p = some t) (hl : ∀ x ∈ l, x.2 ≠ 12)
    (hsmall : ∀ x, m.leafAt root p (l ++ r) = some x → x.1 = 12) :
    m.Extends (Vmm.descend flags (l.map Prod.fst) t m).2 root ∧
      (∀ c, (Vmm.descend flags (l.map Prod.fst) t m).1 = some c →
        (Vmm.descend flags (l.map Prod.fst) t m).2.tab root (p ++ l.map Prod.fst) = some c) ∧
      ((p = [] → ∀ x ∈ l.head?, (m.mem root x.1).getLsbD 0 = true) →
        ∀ j, ((Vmm.descend flags (l.map Prod.fst) t m).2.mem root j).strip = (m.mem root j).strip) := by
  induction l generalizing p t m with
  | nil =>
    rw [map_nil, append_nil]
    exact ⟨⟨h, rfl, fun _ hs => hs, fun _ _ _ => rfl, fun _ _ => rfl, fun _ _ hused hnot => ⟨hused, hnot⟩⟩,
      fun c hc => ht.trans hc, fun _ _ => rfl⟩
  | cons x l ih =>
    obtain ⟨i, k⟩ := x
    have hne : (l ++ r).isEmpty = false := by simp_all
    have hp : Depth (p ++ [i]) := by
      simp only [Depth, length_append, length_cons, length_nil] at hlen ⊢
      have := length_pos_iff.mpr (by simpa using hr)
      omega
    -- a large page here would map the address
    have hhuge : (m.mem t i).getLsbD 0 = true → (m.mem t i).getLsbD 7 = false := by
      intro hpres
      by_contra hhuge
      rw [cons_append, leafAt_cons_of_tab ht, hpres, eq_true_of_ne_false hhuge, Bool.or_true] at hsmall
      exact hl _ (.head _) (hsmall _ rfl)
    obtain ⟨g, hres, hframe, hstrip⟩ := h.getOrAllocTable hp ht hhuge flags
    have htop : (p = [] → (m.mem root i).getLsbD 0 = true) → ∀ j,
        ((m.getOrAllocTable t i flags).2.mem root j).strip = (m.mem root j).strip := by
      intro hpres j
      by_cases hj : root = t ∧ j = i
      · obtain ⟨rfl, rfl⟩ := hj
        exact hstrip (hpres (h.sep p [] root (depth_prefixClosed.of_concat hp) (Nat.zero_le _) ht rfl))
      · rw [hframe root j ⟨[], Nat.zero_le _, rfl⟩ hj]
    rw [map_cons, append_cons, Vmm.descend]
    generalize m.getOrAllocTable t i flags = res at g hres htop
    obtain ⟨_ | c, m1⟩ := res
    · exact ⟨g, by simp, fun hpres => htop fun hp => hpres hp _ rfl⟩
    have ht1 := hres c rfl
    have hleaf := g.leaf_eq _ _ hlen
    rw [cons_append, leafAt_of_tab_concat hne ht1] at hleaf
    obtain ⟨g', hres', htop'⟩ := ih g.tree (by simpa [Nat.add_assoc, Nat.add_comm 1] using hlen) ht1
      (fun y hy => hl y (.tail _ hy)) (hleaf ▸ hsmall)
    exact ⟨g.trans g', hres', fun hpres j =>
      (htop' (by simp) j).trans (htop (fun hp => hpres hp _ rfl) j)⟩

theorem Tree.vmmMapPage (h : m.Tree root) (hsmall : m.Small root virt) (phys : ℕ) (flags : Pte) :
    m.MapsPage root virt phys flags (m.vmmMapPage root virt phys flags) := by
  obtain ⟨g, hres, htop⟩ := h.descend flags (p := []) (l := [(pml4Idx virt, 39), (pdptIdx virt, 30),
    (pdIdx virt, 21)]) (r := [(ptIdx virt, 12)]) rfl rfl tab_nil (by simp) hsmall
  replace htop := fun hpres => htop fun _ x hx => Option.mem_some.mp hx ▸ hpres
  obtain ⟨hi4, hi3, hi2, hi1⟩ := idx_page virt
  rw [vmmMapPage_eq, ← hi1, show pagePath (virt / pageSize) = [pml4Idx virt, pdptIdx virt, pdIdx virt] by
    rw [hi4, hi3, hi2, pagePath]]
  dsimp only [map] at g hres htop
  generalize Vmm.descend flags [pml4Idx virt, pdptIdx virt, pdIdx virt] root m = r at g hres htop
  obtain ⟨_ | pt, m1⟩ := r
  · exact ⟨g.touches, fun _ _ => g.leaf_eq _ _ rfl, fun hzero => absurd hzero (by simp), htop⟩
  have ht : m1.tab root (dirPath virt) = some pt := hres pt rfl
  set e := Pte.leaf (pageFloor phys) flags with he
  have htree := g.tree.writeLeaf (i := ptIdx virt) rfl ht e
  have htab := fun {q} hq => g.tree.tab_write_leaf (i := ptIdx virt) (e := e) (q := q) rfl ht hq
  have hpt : m1.IsTab root pt := ⟨_, le_rfl, ht⟩
  have hisTab := isTab_congr fun q hq => htab (q := q) hq
  refine ⟨⟨htree, g.kernel_eq, fun a _ ha' => ?_, fun a haddr hused hnot => ?_⟩, fun virt' hne => ?_,
    fun _ => ?_, fun hpres j => ?_⟩
  · have ha : ¬m1.IsTab root a := mt (hisTab a).mpr ha'
    have hne : a ≠ pt := by
      rintro rfl
      exact ha hpt
    exact (write_mem_of_ne hne).trans (g.outside a ha)
  · obtain ⟨hused', hnot'⟩ := g.stays a haddr hused hnot
    exact ⟨hused', mt (hisTab a).mp hnot'⟩
  · exact (g.tree.leafAt_write_leaf rfl ht _ [] rfl (levels_ne hne)).trans (g.leaf_eq _ _ rfl)
  · have hmem : (m1.write pt (ptIdx virt) e).mem pt (ptIdx virt) = e := Radix.setEntry_self _ _ _ _
    have hbit : e.getLsbD 0 = true := by
      rw [Pte.getLsbD_leaf]
      simp
    rw [leafOf_of_tab ((htab (show Depth _ from le_rfl)).trans ht), hmem, hbit]
    rfl
  · rw [write_mem_of_ne (g.tree.ne_root (show Depth _ from le_rfl) (by simp [dirPath]) ht)]
    exact htop hpres j

/-! ## Unmapping -/

theorem pruneTables_pageFloor (m : Vmm) (pml4 pdpt pd pt virt : ℕ) :
    m.pruneTables pml4 pdpt pd pt (pageFloor virt) = m.pruneTables pml4 pdpt pd pt virt := by
  obtain ⟨hi4, hi3, hi2, -⟩ := idx_pageFloor virt
  rw [pruneTables_eq, pruneTables_eq, hi4, hi3, hi2]

variable {i : Fin 512}

/-- The tables above an unlinked table stay. -/
theorem Tree.tab_unlinkTable_of_ne (h : m.Tree root) {c s : ℕ} (hp : Depth (p ++ [i]))
    (ht : m.tab root p = some t) (hc : m.tab root (p ++ [i]) = some c)
    (hempty : m.isTableEmpty c = true) (hlen : q.length ≤ p.length) (hs : m.tab root q = some s) :
    (m.unlinkTable t i c).tab root q = some s := by
  have hp' : Depth p := depth_prefixClosed.of_concat hp
  refine ((h.unlinks hp ht ((tab_concat_of_tab ht).symm.trans hc) hempty).walk_eq
    (hlen.trans hp')).trans ((if_neg ?_).trans hs)
  rintro rfl
  rw [length_append, length_singleton] at hlen
  omega

/-- The pruning after an unmap. -/
theorem Tree.pruneTables (h : m.Tree root) {pt : ℕ} (ht1 : m.tab root [pml4Idx virt] = some pdpt)
    (ht2 : m.tab root [pml4Idx virt, pdptIdx virt] = some pd)
    (ht3 : m.tab root (dirPath virt) = some pt) :
    m.Prunes (m.pruneTables root pdpt pd pt virt) root ∧
      (256 ≤ (pml4Idx virt).val → (m.pruneTables root pdpt pd pt virt).mem root = m.mem root) := by
  have hd1 : Depth ([] ++ [pml4Idx virt]) := by simp [Depth]
  have hd2 : Depth ([pml4Idx virt] ++ [pdptIdx virt]) := by simp [Depth]
  have hd3 : Depth ([pml4Idx virt, pdptIdx virt] ++ [pdIdx virt]) := by simp [Depth]
  rw [pruneTables_eq]
  by_cases hempty3 : m.isTableEmpty pt = true
  swap
  · rw [if_neg hempty3]
    exact ⟨Prunes.refl h, fun _ => rfl⟩
  rw [if_pos hempty3]
  -- the page table goes
  have g1 := h.unlink hd3 ht2 ((tab_concat_of_tab ht2).symm.trans ht3) hempty3
  have hroot1 : (m.unlinkTable pd (pdIdx virt) pt).mem root = m.mem root :=
    write_mem_of_ne (h.ne_root hd2 (by simp) ht2)
  have ht1' := h.tab_unlinkTable_of_ne hd3 ht2 ht3 hempty3 (by simp) ht1
  have ht2' := h.tab_unlinkTable_of_ne hd3 ht2 ht3 hempty3 (by simp) ht2
  generalize m.unlinkTable pd (pdIdx virt) pt = m1 at g1 hroot1 ht1' ht2'
  by_cases hempty2 : m1.isTableEmpty pd = true
  swap
  · rw [if_neg hempty2]
    exact ⟨g1, fun _ => hroot1⟩
  rw [if_pos hempty2]
  -- the page directory goes
  have g2 := g1.trans (g1.tree.unlink hd2 ht1' ((tab_concat_of_tab ht1').symm.trans ht2') hempty2)
  have hroot2 : (m1.unlinkTable pdpt (pdptIdx virt) pd).mem root = m.mem root :=
    (write_mem_of_ne (g1.tree.ne_root hd1 (by simp) ht1')).trans hroot1
  have ht1'' := g1.tree.tab_unlinkTable_of_ne hd2 ht1' ht2' hempty2 le_rfl ht1'
  generalize m1.unlinkTable pdpt (pdptIdx virt) pd = m2 at g2 hroot2 ht1''
  by_cases hempty1 : ((pml4Idx virt).val < 256 && m2.isTableEmpty pdpt) = true
  swap
  · rw [if_neg hempty1]
    exact ⟨g2, fun _ => hroot2⟩
  rw [if_pos hempty1]
  -- the page-directory-pointer table goes, in the lower half only
  rw [Bool.and_eq_true, decide_eq_true_eq] at hempty1
  refine ⟨g2.trans (g2.tree.unlink hd1 tab_nil ((tab_concat_of_tab tab_nil).symm.trans ht1'')
    hempty1.2), fun hupper => absurd hempty1.1 (by omega)⟩

/-- The translation of an address whose page directory is reached. -/
theorem leafOf_of_pd {virt virt' : ℕ} (ht1 : m.tab root [pml4Idx virt] = some pdpt)
    (ht2 : m.tab root [pml4Idx virt, pdptIdx virt] = some pd) (h4 : pml4Idx virt' = pml4Idx virt)
    (h3 : pdptIdx virt' = pdptIdx virt) :
    m.leafOf root virt' =
      if (m.mem pd (pdIdx virt')).getLsbD 0 then
        if (m.mem pd (pdIdx virt')).getLsbD 7 then some (21, (m.mem pd (pdIdx virt')).strip)
        else m.leafAt root [pml4Idx virt, pdptIdx virt, pdIdx virt'] [(ptIdx virt', 12)]
      else none := by
  rw [leafOf, levels, h4, h3, leafAt_of_tab_concat (q := []) rfl ht1,
    leafAt_of_tab_concat (q := [] ++ [pml4Idx virt]) rfl ht2,
    leafAt_cons_of_tab (q := [] ++ [pml4Idx virt] ++ [pdptIdx virt]) ht2]
  simp only [isEmpty_cons, Bool.false_or, nil_append, cons_append]

/-- Clearing the entry of a large page keeps the tree and its tables. -/
theorem Tree.clearLarge (h : m.Tree root) (hp : Depth p) (ht : m.tab root p = some t)
    (hnext : Pte.next (m.mem t i) = none) :
    m.Touches (m.write t i 0#64) root ∧
      ∀ q, Depth q → (m.write t i 0#64).tab root q = m.tab root q := by
  have hsame : Pte.next 0#64 = Pte.next (m.mem t i) := Pte.next_zero.trans hnext.symm
  have htab : ∀ q, Depth q → (m.write t i 0#64).tab root q = m.tab root q :=
    fun q _ => Radix.walk_setEntry_same hsame q
  have hisTab := isTab_congr htab
  refine ⟨⟨⟨h.pmm, h.total_le, h.sep.setEntry_same hsame,
    fun hq hs => h.used hq ((htab _ hq).symm.trans hs), h.top_write (by simp)⟩, rfl,
    fun a ha _ => write_mem_of_ne ?_, fun a _ hused hnot => ⟨hused, mt (hisTab a).mp hnot⟩⟩, htab⟩
  rintro rfl
  exact ha ⟨p, hp, ht⟩

/-- What `vmmUnmapPage` does: it maps nothing anew, and where a 2 MiB page maps the address that page
goes as a whole. -/
structure UnmapsPage (m : Vmm) (root virt : ℕ) (m' : Vmm) : Prop where
  touches : m.Touches m' root
  others_eq : (∀ x, m.leafOf root virt = some x → x.1 ≠ 21) →
    ∀ virt', ¬SamePage virt virt' → m'.leafOf root virt' = m.leafOf root virt'
  large_eq : (∃ e, m.leafOf root virt = some (21, e)) →
    ∀ virt', pml4Idx virt' = pml4Idx virt → pdptIdx virt' = pdptIdx virt →
      pdIdx virt' = pdIdx virt →
        m'.leafOf root virt' = none ∧ m.leafOf root virt' = m.leafOf root virt
  top_eq : 256 ≤ (pml4Idx virt).val → m'.mem root = m.mem root

theorem UnmapsPage.of_absent (h : m.Tree root)
    (hleaf : ∀ x, m.leafOf root virt = some x → x.1 = 30) : m.UnmapsPage root virt m :=
  ⟨Touches.refl h, fun _ _ _ => rfl, fun ⟨_, he⟩ => absurd (hleaf _ he) (by simp), fun _ => rfl⟩

theorem Tree.vmmUnmapPage (h : m.Tree root) (virt : ℕ) :
    m.UnmapsPage root virt (m.vmmUnmapPage root virt).2 := by
  obtain ⟨hi4, hi3, hi2, hi1⟩ := idx_pageFloor virt
  have hd1 : Depth [pml4Idx virt] := by simp [Depth]
  have hd2 : Depth [pml4Idx virt, pdptIdx virt] := by simp [Depth]
  unfold Vmm.vmmUnmapPage
  simp only [pruneTables_pageFloor, hi4, hi3, hi2, hi1, Pte.has_present, Pte.has_huge]
  have hleaf0 : m.leafOf root virt = _ := leafAt_cons_of_tab tab_nil _ _
  cases h4 : (m.mem root (pml4Idx virt)).getLsbD 0
  · rw [h4] at hleaf0
    exact UnmapsPage.of_absent h (by simp [hleaf0])
  have ht1 : m.tab root [pml4Idx virt] = some (m.mem root (pml4Idx virt)).addr :=
    (tab_concat_of_tab tab_nil).trans (Pte.next_eq_some.mpr ⟨h4, h.top _ h4, rfl⟩)
  set pdpt := (m.mem root (pml4Idx virt)).addr
  have hleaf1 : m.leafOf root virt = _ :=
    (leafAt_of_tab_concat (q := []) rfl ht1).trans (leafAt_cons_of_tab ht1 _ _)
  cases h3 : (m.mem pdpt (pdptIdx virt)).getLsbD 0
  · rw [h3] at hleaf1
    exact UnmapsPage.of_absent h (by simp [hleaf1])
  cases h3' : (m.mem pdpt (pdptIdx virt)).getLsbD 7
  swap
  · rw [h3, h3'] at hleaf1
    refine UnmapsPage.of_absent h fun x hx => ?_
    rw [hleaf1] at hx
    simp only [if_true, Bool.or_true, Option.some.injEq] at hx
    rw [← hx]
  have ht2 : m.tab root [pml4Idx virt, pdptIdx virt] = some (m.mem pdpt (pdptIdx virt)).addr :=
    (tab_concat_of_tab ht1).trans (Pte.next_eq_some.mpr ⟨h3, h3', rfl⟩)
  set pd := (m.mem pdpt (pdptIdx virt)).addr
  have hvirt := leafOf_of_pd ht1 ht2 rfl rfl
  cases h2 : (m.mem pd (pdIdx virt)).getLsbD 0
  · rw [h2] at hvirt
    exact UnmapsPage.of_absent h (by simp [hvirt])
  cases h2' : (m.mem pd (pdIdx virt)).getLsbD 7
  swap
  · -- a 2 MiB page is cleared as a whole
    show m.UnmapsPage root virt (m.write pd (pdIdx virt) 0#64)
    obtain ⟨htouches, htab⟩ := h.clearLarge hd2 ht2 (Pte.next_eq_none.mpr (.inr h2'))
    rw [h2, h2', if_pos rfl, if_pos rfl] at hvirt
    refine ⟨htouches, fun hlarge => absurd rfl (hlarge _ hvirt), fun _ virt' h4' h3'' h2'' => ?_,
      fun _ => write_mem_of_ne (h.ne_root hd2 (by simp) ht2)⟩
    have hmem : (m.write pd (pdIdx virt) 0#64).mem pd (pdIdx virt) = 0#64 :=
      Radix.setEntry_self _ _ _ _
    constructor
    · rw [leafOf_of_pd ((htab _ hd1).trans ht1) ((htab _ hd2).trans ht2) h4' h3'', h2'', hmem]
      rfl
    · rw [leafOf_of_pd ht1 ht2 h4' h3'', hvirt, h2'', h2, h2', if_pos rfl, if_pos rfl]
  -- the entry of a page table is cleared and empty tables are taken away
  have ht3 : m.tab root (dirPath virt) = some (m.mem pd (pdIdx virt)).addr :=
    (tab_concat_of_tab ht2).trans (Pte.next_eq_some.mpr ⟨h2, h2', rfl⟩)
  set pt := (m.mem pd (pdIdx virt)).addr
  simp only [Bool.not_true, Bool.false_eq_true, if_false]
  have hd3 : Depth (dirPath virt) := le_rfl
  have htree := h.writeLeaf (i := ptIdx virt) rfl ht3 0#64
  have htab := fun q hq => h.tab_write_leaf (i := ptIdx virt) (e := 0#64) (q := q) rfl ht3 hq
  have hisTab := isTab_congr htab
  have hpt : m.IsTab root pt := ⟨_, hd3, ht3⟩
  obtain ⟨g, hroot⟩ := htree.pruneTables ((htab _ hd1).trans ht1) ((htab _ hd2).trans ht2)
    ((htab _ hd3).trans ht3)
  refine ⟨⟨g.tree, g.kernel_eq, fun a ha _ => ?_, fun a haddr hused hnot => ?_⟩, fun _ virt' hne => ?_,
    fun hmapped => ?_, fun hupper => ?_⟩
  · have hne : a ≠ pt := by
      rintro rfl
      exact ha hpt
    exact (g.outside a (mt (hisTab a).mp ha)).trans (write_mem_of_ne hne)
  · exact g.stays a haddr hused (mt (hisTab a).mp hnot)
  · exact (g.leaf_eq _ _ rfl).trans (h.leafAt_write_leaf rfl ht3 _ [] rfl (levels_ne hne))
  · obtain ⟨e, he⟩ := hmapped
    rw [leafOf_of_tab ht3] at he
    split at he
    · cases he
    · cases he
  · exact (hroot hupper).trans (write_mem_of_ne (h.ne_root hd3 (by simp [dirPath]) ht3))

end

end Vmm

end NovaOS.Mem
