import NovaOS.Mem.VmmFrame
import NovaOS.Mem.VmmRefine

/-!
# Where mapping and unmapping pages is safe

Mapping a page should make that page translate to the frame, and neither mapping nor unmapping should
touch another page or memory that holds no table. This is so exactly where no large page is in the way:
`vmmUnmapPage` takes a 2 MiB page away as a whole, and `vmmMapPage` reads and writes the contents of a
large page as if they were a table.
-/

namespace NovaOS.Mem

open NovaOS.Lib Pte Option

namespace Vmm

section

variable {m m' : Vmm} {root virt : ℕ}

/-! ## The translations -/

variable {phys : ℕ} {flags : Pte}

/-- The address field of a leaf entry. -/
theorem addr_leaf_of_lt (hphys : phys < 2 ^ 52) (hflags : flags.FlagsOnly) :
    (Pte.leaf (pageFloor phys) flags).addr = pageFloor phys := by
  by_cases hzero : pageFloor phys = 0
  · have hbits : (Pte.leaf 0 flags).addr = Pte.addr 0#64 := by
      refine addr_congr fun i h1 h2 => ?_
      rw [getLsbD_leaf, hflags.getLsbD h1 h2]
      simp
      omega
    rw [hzero, hbits]
    rfl
  · refine addr_leaf ⟨Nat.mul_mod_left _ _, hzero, ?_⟩ hflags
    exact lt_of_le_of_lt (Nat.div_mul_le_self _ _) hphys

theorem physOf_leaf (hphys : phys < 2 ^ 52) (hflags : flags.FlagsOnly) (virt : ℕ) :
    physOf virt (some (12, (Pte.leaf (pageFloor phys) flags).strip)) =
      pageFloor phys + virt % pageSize := by
  have haddr := addr_leaf_of_lt hphys hflags
  rw [Pte.addr] at haddr
  show ((Pte.leaf (pageFloor phys) flags).strip &&& pteAddrMask).toNat ||| (virt &&& (2 ^ 12 - 1)) = _
  rw [strip_and _ (by decide), haddr, Nat.and_two_pow_sub_one_eq_mod, pageFloor, mul_comm]
  have hlt : virt % 2 ^ 12 < 2 ^ 12 := Nat.mod_lt _ (by decide)
  exact (Nat.two_pow_add_eq_or_of_lt hlt _).symm

/-- Addresses of one page are mapped by one entry. -/
theorem leafOf_samePage {virt' : ℕ} (h : SamePage virt virt') :
    m.leafOf root virt' = m.leafOf root virt := by
  obtain ⟨h4, h3, h2, h1⟩ := (samePage_iff _ _).mp h
  rw [leafOf, leafOf, levels, levels, h4, h3, h2, h1]

/-- What is asked of `vmmMapPage`: on success the page translates to the frame, no other page changes
its translation, and no memory outside tables is written. -/
def MapSafe (m : Vmm) (root virt : ℕ) : Prop :=
  ∀ phys flags, phys < 2 ^ 52 → FlagsOnly flags →
    let r := m.vmmMapPage root virt phys flags
    (r.1 = 0 → ∀ virt', SamePage virt virt' →
      r.2.vmmVirtToPhys root virt' = pageFloor phys + virt' % pageSize) ∧
    (∀ virt', ¬SamePage virt virt' → r.2.vmmVirtToPhys root virt' = m.vmmVirtToPhys root virt') ∧
    ∀ a, ¬m.IsTab root a → ¬r.2.IsTab root a → r.2.mem a = m.mem a

/-- What is asked of `vmmUnmapPage`. -/
def UnmapSafe (m : Vmm) (root virt : ℕ) : Prop :=
  let m' := (m.vmmUnmapPage root virt).2
  (∀ virt', ¬SamePage virt virt' → m'.vmmVirtToPhys root virt' = m.vmmVirtToPhys root virt') ∧
    ∀ a, ¬m.IsTab root a → ¬m'.IsTab root a → m'.mem a = m.mem a

theorem Tree.mapSafe (h : m.Tree root) (hsmall : m.Small root virt) : m.MapSafe root virt := by
  intro phys flags hphys hflags r
  have hmaps := h.vmmMapPage hsmall phys flags
  refine ⟨fun hzero virt' hsame => ?_, fun virt' hne => ?_, hmaps.touches.outside⟩
  · rw [hmaps.touches.tree.vmmVirtToPhys, leafOf_samePage hsame, hmaps.mapped hzero,
      physOf_leaf hphys hflags]
  · rw [hmaps.touches.tree.vmmVirtToPhys, h.vmmVirtToPhys, hmaps.others_eq virt' hne]

theorem Tree.unmapSafe (h : m.Tree root) (hlarge : ∀ x, m.leafOf root virt = some x → x.1 ≠ 21) :
    m.UnmapSafe root virt := by
  have hunmaps := h.vmmUnmapPage virt
  refine ⟨fun virt' hne => ?_, hunmaps.touches.outside⟩
  rw [hunmaps.touches.tree.vmmVirtToPhys, h.vmmVirtToPhys, hunmaps.others_eq hlarge virt' hne]

/-- Unmapping a page of a 2 MiB page unmaps the other pages of it. -/
theorem Tree.not_unmapSafe (h : m.Tree root) {e : Pte} (hlarge : m.leafOf root virt = some (21, e)) :
    ¬m.UnmapSafe root virt := by
  rintro ⟨hothers, -⟩
  -- a neighbour in the large page: its second or its third page
  obtain ⟨k, hk, hne⟩ : ∃ k, (k = 1 ∨ k = 2) ∧ virt / pageSize % 512 ≠ k := by
    by_cases h1 : virt / pageSize % 512 = 1
    · exact ⟨2, .inr rfl, by omega⟩
    · exact ⟨1, .inl rfl, h1⟩
  set virt' := virt / 2 ^ 21 * 2 ^ 21 + k * pageSize with hvirt'
  have hidx : pml4Idx virt' = pml4Idx virt ∧ pdptIdx virt' = pdptIdx virt ∧
      pdIdx virt' = pdIdx virt := by
    simp only [pml4Idx, pdptIdx, pdIdx, Fin.ext_iff, tableIndex_val, pageSize] at *
    omega
  have hpage : ¬SamePage virt virt' := by
    rw [SamePage, pageSize] at *
    omega
  have hunmaps := h.vmmUnmapPage virt
  obtain ⟨hgone, hsame⟩ := hunmaps.large_eq ⟨e, hlarge⟩ virt' hidx.1 hidx.2.1 hidx.2.2
  have htrans := hothers virt' hpage
  rw [hunmaps.touches.tree.vmmVirtToPhys, h.vmmVirtToPhys, hgone, hsame, hlarge] at htrans
  have hoffset : virt' &&& (2 ^ 21 - 1) = 0 := (Nat.or_eq_zero_iff.mp htrans.symm).2
  rw [Nat.and_two_pow_sub_one_eq_mod, pageSize] at *
  omega

/-! ## Mapping below a 1 GiB page -/

variable {x : ℕ × Pte}

theorem leafAt_level {l : List (Fin 512 × ℕ)} {q : List (Fin 512)}
    (h : m.leafAt root q l = some x) : x.1 ∈ l.map Prod.snd := by
  induction l generalizing q with
  | nil => exact absurd h (by simp [leafAt])
  | cons y rest ih =>
    rw [leafAt] at h
    split at h
    · cases h
    · split at h
      · split at h
        · rw [← some.inj h]
          exact (.head _)
        · exact List.mem_cons_of_mem _ (ih h)
      · cases h

/-- The walk to an address in a 1 GiB page. -/
structure InHuge (m : Vmm) (root virt pdpt : ℕ) (e : Pte) : Prop where
  root_present : (m.mem root (pml4Idx virt)).getLsbD 0 = true
  pdpt_eq : (m.mem root (pml4Idx virt)).addr = pdpt
  present : (m.mem pdpt (pdptIdx virt)).getLsbD 0 = true
  huge : (m.mem pdpt (pdptIdx virt)).getLsbD 7 = true
  strip_eq : (m.mem pdpt (pdptIdx virt)).strip = e

/-- The walk to an address in a 2 MiB page. -/
structure InLarge (m : Vmm) (root virt pdpt pd : ℕ) (e : Pte) : Prop where
  root_present : (m.mem root (pml4Idx virt)).getLsbD 0 = true
  pdpt_eq : (m.mem root (pml4Idx virt)).addr = pdpt
  pdpt_present : (m.mem pdpt (pdptIdx virt)).getLsbD 0 = true
  pd_eq : (m.mem pdpt (pdptIdx virt)).addr = pd
  present : (m.mem pd (pdIdx virt)).getLsbD 0 = true
  strip_eq : (m.mem pd (pdIdx virt)).strip = e

/-- The level of the entry that maps an address. -/
theorem Tree.leafOf_cases (h : m.Tree root) (hleaf : m.leafOf root virt = some x) :
    (x.1 = 30 ∧ ∃ pdpt, m.InHuge root virt pdpt x.2) ∨
      (x.1 = 21 ∧ ∃ pdpt pd, m.InLarge root virt pdpt pd x.2) ∨ x.1 = 12 := by
  have hleaf0 : m.leafOf root virt = _ := leafAt_cons_of_tab tab_nil _ _
  cases h4 : (m.mem root (pml4Idx virt)).getLsbD 0
  · rw [h4, hleaf] at hleaf0
    cases hleaf0
  have ht1 : m.tab root [pml4Idx virt] = some (m.mem root (pml4Idx virt)).addr :=
    (tab_concat_of_tab tab_nil).trans (next_eq_some.mpr ⟨h4, h.top _ h4, rfl⟩)
  set pdpt := (m.mem root (pml4Idx virt)).addr with hpdpt
  have hleaf1 : m.leafOf root virt = _ :=
    (leafAt_of_tab_concat (q := []) rfl ht1).trans (leafAt_cons_of_tab ht1 _ _)
  rw [hleaf] at hleaf1
  cases h3 : (m.mem pdpt (pdptIdx virt)).getLsbD 0
  · rw [h3] at hleaf1
    cases hleaf1
  cases h3' : (m.mem pdpt (pdptIdx virt)).getLsbD 7
  swap
  · rw [h3, h3', Bool.or_true, if_pos rfl, if_pos rfl, some.injEq] at hleaf1
    rw [hleaf1]
    exact .inl ⟨rfl, pdpt, h4, hpdpt.symm, h3, h3', rfl⟩
  have ht2 : m.tab root [pml4Idx virt, pdptIdx virt] = some (m.mem pdpt (pdptIdx virt)).addr :=
    (tab_concat_of_tab ht1).trans (next_eq_some.mpr ⟨h3, h3', rfl⟩)
  rw [leafOf_of_pd ht1 ht2 rfl rfl] at hleaf
  set pd := (m.mem pdpt (pdptIdx virt)).addr with hpd
  refine .inr ?_
  cases h2 : (m.mem pd (pdIdx virt)).getLsbD 0
  · rw [h2] at hleaf
    cases hleaf
  cases h2' : (m.mem pd (pdIdx virt)).getLsbD 7
  · rw [h2, h2'] at hleaf
    exact .inr (by simpa using leafAt_level hleaf)
  · rw [h2, h2', if_pos rfl, if_pos rfl, some.injEq] at hleaf
    rw [← hleaf]
    exact .inl ⟨rfl, pdpt, pd, h4, hpdpt.symm, h3, hpd.symm, h2, rfl⟩

section Huge

variable {pdpt : ℕ} {e : Pte}

section

variable (h : m.InHuge root virt pdpt e)
include h

theorem InHuge.tab (htree : m.Tree root) : m.tab root [pml4Idx virt] = some pdpt :=
  (tab_concat_of_tab tab_nil).trans
    (next_eq_some.mpr ⟨h.root_present, htree.top _ h.root_present, h.pdpt_eq⟩)

theorem InHuge.vmmVirtToPhys : m.vmmVirtToPhys root virt = physOf virt (some (30, e)) := by
  unfold Vmm.vmmVirtToPhys
  simp only [has_present, has_huge, h.root_present, h.pdpt_eq, h.present, h.huge]
  rw [physOf, ← h.strip_eq, strip_and _ (by decide)]
  rfl

/-- The translation in a 1 GiB page depends on two entries. -/
theorem InHuge.congr (h4 : (m'.mem root (pml4Idx virt)).strip = (m.mem root (pml4Idx virt)).strip)
    (h3 : (m'.mem pdpt (pdptIdx virt)).strip = (m.mem pdpt (pdptIdx virt)).strip) :
    m'.InHuge root virt pdpt e := by
  obtain ⟨hpres4, -, haddr4⟩ := strip_congr h4
  obtain ⟨hpres3, hhuge3, -⟩ := strip_congr h3
  exact ⟨hpres4.trans h.root_present, haddr4.trans h.pdpt_eq, hpres3.trans h.present,
    hhuge3.trans h.huge, h3.trans h.strip_eq⟩

end

/-- The two upper levels of a walk to a 1 GiB page, as `vmmMapPage` leaves them. -/
def widened (m : Vmm) (root virt pdpt : ℕ) (flags : Pte) : Vmm :=
  let m := m.write root (pml4Idx virt) ((m.mem root (pml4Idx virt)).widen flags)
  m.write pdpt (pdptIdx virt) ((m.mem pdpt (pdptIdx virt)).widen flags)

theorem strip_widened (flags : Pte) (s : ℕ) (j : Fin 512) :
    ((m.widened root virt pdpt flags).mem s j).strip = (m.mem s j).strip :=
  (strip_write_widen flags s j).trans (strip_write_widen flags s j)

/-- `vmmMapPage` takes the start of a 1 GiB page for a page directory. -/
theorem InHuge.vmmMapPage (h : m.InHuge root virt pdpt e) (phys : ℕ) (flags : Pte) :
    m.vmmMapPage root virt phys flags =
      match (m.widened root virt pdpt flags).getOrAllocTable e.addr (pdIdx virt) flags with
      | (none, m) => (-1, m)
      | (some pt, m) => (0, m.write pt (ptIdx virt) (Pte.leaf (pageFloor phys) flags)) := by
  obtain ⟨hi4, hi3, hi2, hi1⟩ := idx_pageFloor virt
  unfold Vmm.vmmMapPage
  simp only [hi4, hi3, hi2, hi1]
  rw [getOrAllocTable_of_present h.root_present, h.pdpt_eq]
  dsimp only
  obtain ⟨hpres, -, haddr⟩ := strip_congr (strip_write_widen (m := m) (t := root)
    (i := pml4Idx virt) flags pdpt (pdptIdx virt))
  rw [getOrAllocTable_of_present (hpres.trans h.present), haddr]
  rw [← h.strip_eq, addr_strip]
  rfl

theorem present_widened (m : Vmm) (root virt pdpt : ℕ) (flags : Pte) (s : ℕ) (j : Fin 512) :
    ((m.widened root virt pdpt flags).mem s j).getLsbD 0 = (m.mem s j).getLsbD 0 ∧
      ((m.widened root virt pdpt flags).mem s j).addr = (m.mem s j).addr := by
  obtain ⟨hpres, -, haddr⟩ := strip_congr (strip_widened flags s j)
  exact ⟨hpres, haddr⟩

theorem pmmAllocFrame_widened (flags : Pte) :
    (m.widened root virt pdpt flags).pmmAllocFrame.1 = m.pmmAllocFrame.1 := by
  have hdenials : (m.widened root virt pdpt flags).denials = m.denials := rfl
  unfold pmmAllocFrame
  rw [hdenials]
  split <;> rfl

/-- With nothing at the word read and no frame to put there, mapping fails and only widens. -/
theorem InHuge.mapSafe (h : m.InHuge root virt pdpt e) (htree : m.Tree root)
    (hword : (m.mem e.addr (pdIdx virt)).getLsbD 0 = false) (hfull : m.pmmAllocFrame.1 = 0) :
    m.MapSafe root virt := by
  intro phys flags _ _ r
  set m2 := m.widened root virt pdpt flags with hm2
  have hr : r = (-1, m2.pmmAllocFrame.2) := by
    show m.vmmMapPage root virt phys flags = _
    rw [h.vmmMapPage, getOrAllocTable_of_absent ((m.present_widened _ _ _ flags _ _).1.trans hword)]
    rw [if_pos ((pmmAllocFrame_widened flags).trans hfull)]
  have hmem : m2.pmmAllocFrame.2.mem = m2.mem := (pmmAllocFrame_spec (m := m2) htree.pmm).mem_eq
  rw [hr]
  refine ⟨fun hzero => absurd hzero (by simp), fun virt' _ => vmmVirtToPhys_congr_strip ?_, ?_⟩
  · intro t _ j
    rw [hmem]
    exact strip_widened flags t j
  · intro a ha _
    rw [hmem]
    refine (write_mem_of_ne ?_).trans (write_mem_of_ne ?_)
    · rintro rfl
      exact ha ⟨_, by simp [Depth], h.tab htree⟩
    · rintro rfl
      exact ha ⟨[], Nat.zero_le _, rfl⟩

/-- With a table to be had, mapping succeeds and leaves the translation as it was. -/
theorem InHuge.vmmMapPage_huge (h : m.InHuge root virt pdpt e) (htree : m.Tree root)
    (htable : (m.mem e.addr (pdIdx virt)).getLsbD 0 = true ∨ m.pmmAllocFrame.1 ≠ 0)
    (hapart : (m.mem e.addr (pdIdx virt)).getLsbD 0 = true →
      (m.mem e.addr (pdIdx virt)).addr ∉ m.walkTables root virt) (phys : ℕ) (flags : Pte) :
    (m.vmmMapPage root virt phys flags).1 = 0 ∧
      (m.vmmMapPage root virt phys flags).2.InHuge root virt pdpt e := by
  have hwalk : m.walkTables root virt = [root, pdpt] := by
    unfold walkTables
    simp [h.root_present, h.pdpt_eq, h.huge]
  rw [hwalk] at hapart
  rw [h.vmmMapPage]
  set m2 := m.widened root virt pdpt flags with hm2
  have hhuge2 : m2.InHuge root virt pdpt e := h.congr (strip_widened _ _ _) (strip_widened _ _ _)
  obtain ⟨hpres, haddr⟩ := m.present_widened root virt pdpt flags e.addr (pdIdx virt)
  cases hword : (m.mem e.addr (pdIdx virt)).getLsbD 0 with
  | true =>
    -- the contents of the large page are taken for a directory entry
    have hnot := hapart hword
    rw [List.mem_cons, List.mem_singleton, not_or] at hnot
    rw [getOrAllocTable_of_present (hpres.trans hword), haddr]
    refine ⟨rfl, hhuge2.congr ?_ ?_⟩
    · rw [write_mem_of_ne (Ne.symm hnot.1), strip_write_widen]
    · rw [write_mem_of_ne (Ne.symm hnot.2), strip_write_widen]
  | false =>
    -- a fresh table is linked from the contents of the large page
    have hne : m2.pmmAllocFrame.1 ≠ 0 := by
      rw [pmmAllocFrame_widened]
      exact htable.resolve_left (by rw [hword]; decide)
    have hr := pmmAllocFrame_spec (m := m2) htree.pmm
    have hfree : m2.pmmAllocFrame.1 / pageSize ∉ m.pmm.usedSet :=
      (hr.result.resolve_left fun hc => hne hc.1).2.2.2.1
    have hkeep : ∀ {q a} {j : Fin 512}, Depth q → m.tab root q = some a →
        (m2.mem a j).getLsbD 0 = true →
        ((m2.linkTable e.addr (pdIdx virt) flags m2.pmmAllocFrame).write m2.pmmAllocFrame.1
          (ptIdx virt) (Pte.leaf (pageFloor phys) flags)).mem a j = m2.mem a j := by
      intro q a j hq ha hj
      have haf : a ≠ m2.pmmAllocFrame.1 := by
        rintro rfl
        exact hfree (htree.used hq ha).2
      have hat : ¬(a = e.addr ∧ j = pdIdx virt) := by
        rintro ⟨rfl, rfl⟩
        rw [hpres.trans hword] at hj
        cases hj
      rw [write_mem_of_ne haf, linkTable_mem flags haf hat]
    rw [getOrAllocTable_of_absent (hpres.trans hword), if_neg hne]
    refine ⟨rfl, hhuge2.congr ?_ ?_⟩
    · exact congrArg strip (hkeep (Nat.zero_le _) tab_nil hhuge2.root_present)
    · exact congrArg strip (hkeep (by simp [Depth]) (h.tab htree) hhuge2.present)

theorem InHuge.not_mapSafe (h : m.InHuge root virt pdpt e) (htree : m.Tree root)
    (htable : (m.mem e.addr (pdIdx virt)).getLsbD 0 = true ∨ m.pmmAllocFrame.1 ≠ 0)
    (hapart : (m.mem e.addr (pdIdx virt)).getLsbD 0 = true →
      (m.mem e.addr (pdIdx virt)).addr ∉ m.walkTables root virt) : ¬m.MapSafe root virt := by
  intro hsafe
  -- a frame other than the one the page translates to
  obtain ⟨phys, hphys, hother⟩ : ∃ phys, phys < 2 ^ 52 ∧
      m.vmmVirtToPhys root virt ≠ pageFloor phys + virt % pageSize := by
    by_cases hzero : m.vmmVirtToPhys root virt = pageFloor 0 + virt % pageSize
    · refine ⟨pageSize, by decide, ?_⟩
      rw [hzero, pageFloor, pageFloor, pageSize]
      omega
    · exact ⟨0, by decide, hzero⟩
  obtain ⟨hres, hhuge⟩ := h.vmmMapPage_huge htree htable hapart phys 0#64
  have htrans := (hsafe phys 0#64 hphys (by decide)).1 hres virt rfl
  rw [hhuge.vmmVirtToPhys, ← h.vmmVirtToPhys] at htrans
  exact hother htrans

end Huge

/-! ## Safety -/

/-- No large page maps the address, or a 1 GiB page does with nothing at the word that `vmmMapPage`
takes for a directory entry and no frame to be had. -/
def Plain (m : Vmm) (root virt : ℕ) : Prop :=
  ∀ k e, m.leafOf root virt = some (k, e) →
    k = 12 ∨ k = 30 ∧ (m.mem e.addr (pdIdx virt)).getLsbD 0 = false ∧ m.pmmAllocFrame.1 = 0

/-- Mapping and unmapping a page of a tree are safe exactly where no large page is in the way. In a
1 GiB page the word taken for a directory entry is assumed not to refer to a table of the walk. -/
theorem safe_iff_plain (h : m.Tree root) (virt : ℕ)
    (hapart : ∀ e, m.leafOf root virt = some (30, e) →
      (m.mem e.addr (pdIdx virt)).getLsbD 0 = true →
        (m.mem e.addr (pdIdx virt)).addr ∉ m.walkTables root virt) :
    m.MapSafe root virt ∧ m.UnmapSafe root virt ↔ m.Plain root virt := by
  constructor
  · rintro ⟨hmap, hunmap⟩ k e hleaf
    rcases h.leafOf_cases hleaf with ⟨rfl, pdpt, hhuge⟩ | ⟨rfl, -⟩ | rfl
    · refine .inr ⟨rfl, ?_⟩
      by_contra hnot
      refine hhuge.not_mapSafe h ?_ (hapart e hleaf) hmap
      rcases hword : (m.mem e.addr (pdIdx virt)).getLsbD 0 with _ | _
      · exact .inr fun hfull => hnot ⟨hword, hfull⟩
      · exact .inl rfl
    · exact absurd hunmap (h.not_unmapSafe hleaf)
    · exact .inl rfl
  · intro hplain
    have hlarge : ∀ x, m.leafOf root virt = some x → x.1 ≠ 21 := by
      rintro ⟨k, e⟩ hleaf
      rcases hplain k e hleaf with rfl | ⟨rfl, -⟩ <;> simp
    refine ⟨?_, h.unmapSafe hlarge⟩
    by_cases hsmall : m.Small root virt
    · exact h.mapSafe hsmall
    · rw [Small] at hsmall
      push Not at hsmall
      obtain ⟨⟨k, e⟩, hleaf, hk⟩ := hsmall
      rcases hplain k e hleaf with rfl | ⟨rfl, hword, hfull⟩
      · exact absurd rfl hk
      · obtain ⟨-, pdpt, hhuge⟩ | ⟨hc, -⟩ | hc := h.leafOf_cases hleaf
        · exact hhuge.mapSafe h hword hfull
        · cases hc
        · cases hc

end

/-! ## A direct map of one 2 MiB page -/

/-- A machine whose kernel tree maps the first addresses of the upper half by one 2 MiB page. -/
def directMapVmm : Vmm :=
  { smallVmm with
    denials := []
    mem := fun t i =>
      if t = 0x3000 ∧ i = entryIdx 256 then 0x4003#64
      else if t = 0x4000 ∧ i = entryIdx 0 then 0x5003#64
      else if t = 0x5000 ∧ i = entryIdx 0 then 0x200083#64
      else 0#64 }

variable {t : ℕ}

theorem next_directMapVmm {s : ℕ} {i : Fin 512} (h : next (directMapVmm.mem t i) = some s) :
    t = 0x3000 ∧ i = 256 ∧ s = 0x4000 ∨ t = 0x4000 ∧ i = 0 ∧ s = 0x5000 := by
  unfold directMapVmm at h
  dsimp only at h
  split_ifs at h with h1 h2 h3
  · exact .inl ⟨h1.1, h1.2, mem_unique h (by decide)⟩
  · exact .inr ⟨h2.1, h2.2, mem_unique h (by decide)⟩
  · exact absurd h (by rw [show next 0x200083#64 = none by decide]; simp)
  · exact absurd h (by rw [next_zero]; simp)

theorem tab_directMapVmm {p : List (Fin 512)} (h : directMapVmm.tab 0x3000 p = some t) :
    (p = [] ∧ t = 0x3000) ∨ (p = [256] ∧ t = 0x4000) ∨ (p = [256, 0] ∧ t = 0x5000) := by
  rcases p with _ | ⟨i, p⟩
  · exact .inl ⟨rfl, (some.inj h).symm⟩
  rw [tab, Radix.walk_cons, bind_eq_some_iff] at h
  obtain ⟨s, hs, h⟩ := h
  obtain ⟨-, rfl, rfl⟩ | ⟨hc, -⟩ := next_directMapVmm hs
  swap
  · cases hc
  rcases p with _ | ⟨i, p⟩
  · exact .inr (.inl ⟨rfl, (some.inj h).symm⟩)
  rw [Radix.walk_cons, bind_eq_some_iff] at h
  obtain ⟨s, hs, h⟩ := h
  obtain ⟨hc, -⟩ | ⟨-, rfl, rfl⟩ := next_directMapVmm hs
  · cases hc
  rcases p with _ | ⟨i, p⟩
  · exact .inr (.inr ⟨rfl, (some.inj h).symm⟩)
  rw [Radix.walk_cons, bind_eq_some_iff] at h
  obtain ⟨s, hs, -⟩ := h
  obtain ⟨hc, -⟩ | ⟨hc, -⟩ := next_directMapVmm hs <;> cases hc

theorem tree_directMapVmm : directMapVmm.Tree 0x3000 where
  pmm := (Pmm.pmmInit_inv _ _).1
  total_le := by decide +kernel
  sep := by
    intro p q t _ _ ht ht'
    have h1 := tab_directMapVmm ht
    have h2 := tab_directMapVmm ht'
    grind
  used := by
    have hused : ∀ f ∈ [3, 4, 5], f ∈ directMapVmm.pmm.usedSet := by
      intro f hf
      revert f
      decide +kernel
    intro p t _ ht
    rcases tab_directMapVmm ht with ⟨-, rfl⟩ | ⟨-, rfl⟩ | ⟨-, rfl⟩
    · exact ⟨⟨by decide, by decide, by decide⟩, hused 3 (by decide)⟩
    · exact ⟨⟨by decide, by decide, by decide⟩, hused 4 (by decide)⟩
    · exact ⟨⟨by decide, by decide, by decide⟩, hused 5 (by decide)⟩
  top := by
    intro i h
    unfold directMapVmm at h ⊢
    dsimp only at h ⊢
    split_ifs at h ⊢ with h1 h2 h3
    · decide
    · cases h2.1
    · cases h3.1
    · cases h

/-- Below the direct map the two are safe. -/
theorem safe_iff_plain_directMap :
    directMapVmm.leafOf 0x3000 0x400000 = none ∧
      (directMapVmm.vmmMapPage 0x3000 0x400000 0xE0000000 vmmFlagWritable).1 = 0 ∧
      directMapVmm.MapSafe 0x3000 0x400000 ∧ directMapVmm.UnmapSafe 0x3000 0x400000 := by
  have hleaf : directMapVmm.leafOf 0x3000 0x400000 = none := by decide +kernel
  refine ⟨hleaf, by decide +kernel, ?_⟩
  refine (safe_iff_plain tree_directMapVmm 0x400000 fun e he => ?_).mpr fun k e he => ?_
  · exact nomatch hleaf.symm.trans he
  · exact nomatch hleaf.symm.trans he

/-- In the direct map they are not: mapping a device page over the page at `0x201000` reports success,
leaves its translation and writes to the data at `0x200000`; unmapping it unmaps its neighbour. -/
theorem directMap_not_safe :
    directMapVmm.Tree 0x3000 ∧
      (directMapVmm.vmmMapPage 0x3000 0xFFFF800000001000 0xE0000000 vmmFlagWritable).1 = 0 ∧
      (directMapVmm.vmmMapPage 0x3000 0xFFFF800000001000 0xE0000000
        vmmFlagWritable).2.vmmVirtToPhys 0x3000 0xFFFF800000001000 = 0x201000 ∧
      (directMapVmm.vmmMapPage 0x3000 0xFFFF800000001000 0xE0000000
        vmmFlagWritable).2.mem 0x200000 1 ≠ directMapVmm.mem 0x200000 1 ∧
      directMapVmm.vmmVirtToPhys 0x3000 0xFFFF800000002000 = 0x202000 ∧
      (directMapVmm.vmmUnmapPage 0x3000 0xFFFF800000001000).2.vmmVirtToPhys 0x3000
        0xFFFF800000002000 = 0 ∧
      ¬directMapVmm.MapSafe 0x3000 0xFFFF800000001000 ∧
      ¬directMapVmm.UnmapSafe 0x3000 0xFFFF800000001000 := by
  refine ⟨tree_directMapVmm, by decide +kernel, by decide +kernel, by decide +kernel,
    by decide +kernel, by decide +kernel, fun hsafe => ?_, fun hsafe => ?_⟩
  · have hmap := hsafe 0xE0000000 vmmFlagWritable (by decide) (by decide)
    exact absurd (hmap.1 (by decide +kernel) _ rfl) (by decide +kernel)
  · exact absurd (hsafe.1 0xFFFF800000002000 (by decide)) (by decide +kernel)

end Vmm

end NovaOS.Mem
