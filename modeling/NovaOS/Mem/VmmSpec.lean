import NovaOS.Mem.VmmTree

/-!
# What the routines of the virtual memory manager do to the tree

One lemma per routine: each is an `Evolves` step, and the leaves change at the page it names and
nowhere else.
-/

namespace NovaOS.Mem

open NovaOS.Lib List Nat Pte Option Function

/-! ## Pages and paths -/

/-- The path to the page table of page number `n`. -/
def pagePath (n : ℕ) : List (Fin 512) := [tableIndex n 27, tableIndex n 18, tableIndex n 9]

/-- The index of page number `n` in its page table. -/
def pageIdx (n : ℕ) : Fin 512 := tableIndex n 0

/-- The number of user pages. -/
def userPages : ℕ := userSpaceMax / pageSize

/-- The number of pages that cover `size` bytes. -/
def pageCount (size : ℕ) : ℕ := (size + (pageSize - 1)) / pageSize

theorem tableIndex_val (n shift : ℕ) : (tableIndex n shift).val = n / 2 ^ shift % 512 := by
  show (n >>> shift) &&& 0x1FF = _
  rw [shiftRight_eq_div_pow]
  exact and_two_pow_sub_one_eq_mod _ 9

theorem tableIndex_page (virt k : ℕ) : tableIndex virt (12 + k) = tableIndex (virt / pageSize) k := by
  apply Fin.ext
  rw [tableIndex_val, tableIndex_val, Nat.pow_add, Nat.div_div_eq_div_mul]
  rfl

theorem idx_page (virt : ℕ) :
    pml4Idx virt = tableIndex (virt / pageSize) 27 ∧ pdptIdx virt = tableIndex (virt / pageSize) 18 ∧
      pdIdx virt = tableIndex (virt / pageSize) 9 ∧ ptIdx virt = pageIdx (virt / pageSize) :=
  ⟨tableIndex_page virt 27, tableIndex_page virt 18, tableIndex_page virt 9, tableIndex_page virt 0⟩

theorem pageFloor_div (virt : ℕ) : pageFloor virt / pageSize = virt / pageSize :=
  Nat.mul_div_cancel _ (by decide)

theorem page_lt_userPages {virt : ℕ} (hv : virt < userSpaceMax) : virt / pageSize < userPages := by
  have hmul : pageSize * userPages = userSpaceMax := by decide
  exact Nat.div_lt_of_lt_mul (hmul ▸ hv)

variable {n : ℕ}

theorem userPath_pagePath (hn : n < userPages) : UserPath (pagePath n) := by
  refine ⟨le_of_eq rfl, fun i hi => ?_⟩
  obtain rfl : tableIndex n 27 = i := by simpa [pagePath] using hi
  have hlt : n < 2 ^ 35 := hn
  rw [tableIndex_val]
  omega

/-- Distinct user pages have distinct places in the tree. -/
theorem page_eq_of_path_eq {n' : ℕ} (hn : n < userPages) (hn' : n' < userPages)
    (hp : pagePath n = pagePath n') (hi : pageIdx n = pageIdx n') : n = n' := by
  have hlt : n < 2 ^ 35 := hn
  have hlt' : n' < 2 ^ 35 := hn'
  simp only [pagePath, cons.injEq, Fin.ext_iff, tableIndex_val] at hp
  simp only [pageIdx, Fin.ext_iff, tableIndex_val] at hi
  omega

namespace Vmm

variable {m : Vmm} {root t c : ℕ} {p : List (Fin 512)} {i : Fin 512} {flags : Pte}

theorem child_of_table (ht : m.table root p = some t) (hc : m.table root (p ++ [i]) = some c) :
    child (m.mem t i) = some c := by
  rwa [table_concat, entry_of_table ht, bind_some] at hc

/-- The present entry of page number `n`. -/
def mapped (m : Vmm) (root n : ℕ) : Option Pte := m.leaf root (pagePath n) (pageIdx n)

/-! ## Walking down with allocation -/

/-- A step that may add tables and widen directories, and touches no leaf. -/
structure Grows (m m' : Vmm) (root : ℕ) : Prop where
  evolves : m.Evolves m' root
  leaf_eq : ∀ {q} j, UserPath q → q.length = 3 → m'.leaf root q j = m.leaf root q j
  table_mono : ∀ {q s}, UserPath q → m.table root q = some s → m'.table root q = some s
  user_mono : ∀ {q j e}, UserPath (q ++ [j]) → m.entry root q j = some e → e.getLsbD 0 = true →
    e.getLsbD 2 = true →
      ∃ e', m'.entry root q j = some e' ∧ e'.getLsbD 0 = true ∧ e'.getLsbD 2 = true

/-- The entry that `getOrAllocTable` leaves behind grants what the flags ask for. -/
def GrantsUser (m : Vmm) (root : ℕ) (p : List (Fin 512)) (i : Fin 512) (flags : Pte) : Prop :=
  flags.getLsbD 2 = true → ∃ e, m.entry root p i = some e ∧ e.getLsbD 0 = true ∧ e.getLsbD 2 = true

variable {m' m1 m2 : Vmm}

theorem Grows.grantsUser (h : m.Grows m' root) (hp : UserPath (p ++ [i]))
    (hg : m.GrantsUser root p i flags) : m'.GrantsUser root p i flags := by
  intro hf
  obtain ⟨e, he, hpres, hu⟩ := hg hf
  exact h.user_mono hp he hpres hu

section

variable (h : m.Space root) (hp : UserPath (p ++ [i])) (ht : m.table root p = some t)
include h hp ht

/-- The present branch of `getOrAllocTable`. -/
theorem Space.widen (hpres : (m.mem t i).getLsbD 0 = true) (flags : Pte) :
    m.Grows (m.write t i ((m.mem t i).widen flags)) root ∧
      (m.write t i ((m.mem t i).widen flags)).GrantsUser root p i flags := by
  set e := (m.mem t i).widen flags with he
  have hsame : ∀ q, UserPath q → (m.write t i e).table root q = m.table root q :=
    fun q _ => Radix.walk_setEntry_same (child_widen _ _) q
  have hlen := hp.length_lt
  have hbit : ∀ k, (m.mem t i).getLsbD k = true → e.getLsbD k = true := by
    intro k hk
    rw [getLsbD_widen, hk]
    rfl
  have hentry := fun {q} j hq => h.entry_write (e := e) (i := i) hp.of_concat ht hq (hsame q hq) j
  have hevolves : m.Evolves (m.write t i e) root := by
    refine h.write hp.of_concat ht hsame ?_ (fun _ => hbit 2) ?_
    · intro _ _
      exact (h.dirs hp (entry_of_table ht i) hpres).widen flags
    · exact fun h3 => absurd h3 (by omega)
  refine ⟨⟨hevolves, ?_, ?_, ?_⟩, ?_⟩
  · intro q j hq hq3
    refine leaf_congr ((h.entry_write hp.of_concat ht hq (hsame q hq) j).trans (if_neg ?_))
    rintro ⟨rfl, -⟩
    omega
  · intro q s hq hs
    rw [hsame q hq, hs]
  · intro q j e' hq he' h0 h2
    rw [hentry j hq.of_concat]
    by_cases hqp : q = p ∧ j = i
    · obtain ⟨rfl, rfl⟩ := hqp
      obtain rfl := mem_unique (entry_of_table ht j) he'
      exact ⟨e, if_pos ⟨rfl, rfl⟩, hbit 0 h0, hbit 2 h2⟩
    · exact ⟨e', by rw [if_neg hqp, he'], h0, h2⟩
  · intro hf
    refine ⟨e, by rw [hentry i hp.of_concat, if_pos ⟨rfl, rfl⟩], hbit 0 hpres, ?_⟩
    rw [getLsbD_widen, hf]
    simp

/-- The allocating branch of `getOrAllocTable`. -/
theorem Space.link (hmiss : (m.mem t i).getLsbD 0 = false) {r : ℕ × Vmm} (hr : m.AllocFrame r)
    (hne : r.1 ≠ 0) (flags : Pte) :
    m.Grows (m.linkTable t i flags r) root ∧
      (m.linkTable t i flags r).GrantsUser root p i flags := by
  have hentry := fun {q} j hq => h.entry_linkTable hr hne hp ht hmiss flags (q := q) hq j
  have hpne : p ≠ p ++ [i] := fun heq => by simpa using congrArg length heq
  refine ⟨⟨h.linkTable hr hne hp ht hmiss flags,
    fun j hq hlen => h.leaf_linkTable hr hne hp ht hmiss flags hq hlen j,
    fun hq hs => (h.links hr hne hp ht hmiss flags).walk_mono hq hs, ?_⟩, ?_⟩
  · intro q j e hq he h0 h2
    refine ⟨e, ?_, h0, h2⟩
    rw [hentry j hq.of_concat, if_neg, if_neg, he]
    · rintro ⟨rfl, rfl⟩
      obtain rfl := mem_unique (entry_of_table ht j) he
      rw [hmiss] at h0
      cases h0
    · rintro rfl
      obtain ⟨s, hs, -⟩ := entry_eq_some.mp he
      have hc := child_of_table ht hs
      rw [child_eq_none.mpr hmiss] at hc
      cases hc
  · intro hf
    refine ⟨dir r.1 flags, by rw [hentry i hp.of_concat, if_neg hpne, if_pos ⟨rfl, rfl⟩], ?_, ?_⟩
    · rw [getLsbD_dir]
      simp
    · rw [getLsbD_dir, hf]
      simp

/-- `getOrAllocTable` returns the table at its entry, or fails without touching the tree. -/
theorem Space.getOrAllocTable (flags : Pte) :
    m.Grows (m.getOrAllocTable t i flags).2 root ∧
      ∀ c, (m.getOrAllocTable t i flags).1 = some c →
        (m.getOrAllocTable t i flags).2.table root (p ++ [i]) = some c ∧
          (m.getOrAllocTable t i flags).2.GrantsUser root p i flags := by
  cases hpres : (m.mem t i).getLsbD 0 with
  | true =>
    obtain ⟨hgrows, hgrants⟩ := h.widen hp ht hpres flags
    rw [getOrAllocTable_of_present hpres]
    refine ⟨hgrows, fun c hc => ⟨hgrows.table_mono hp ?_, hgrants⟩⟩
    rw [table_concat, entry_of_table ht, bind_some, child_of_present hpres]
    exact hc
  | false =>
    rw [getOrAllocTable_of_absent hpres]
    have hr := pmmAllocFrame_spec h.pmm
    split
    · rename_i hnull
      have hmem : ∀ q, m.pmmAllocFrame.2.table root q = m.table root q := by
        intro q
        rw [table, table, hr.mem_eq]
      have hentry : ∀ q j, m.pmmAllocFrame.2.entry root q j = m.entry root q j := by
        intro q j
        rw [entry, entry, hmem, hr.mem_eq]
      refine ⟨⟨h.allocFailed hr hnull, fun j _ _ => leaf_congr (hentry _ j),
        fun _ hs => (hmem _).trans hs, fun _ he h0 h2 => ⟨_, (hentry _ _).trans he, h0, h2⟩⟩, ?_⟩
      simp
    · rename_i hnull
      obtain ⟨hgrows, hgrants⟩ := h.link hp ht hpres hr hnull flags
      refine ⟨hgrows, fun c hc => ⟨((h.links hr hnull hp ht hpres flags).walk_eq hp).trans ?_, hgrants⟩⟩
      rw [if_pos rfl, ← hc]

end

/-! ## Writing a leaf -/

/-- A step that sets the entry of one page. -/
structure SetsPage (m m' : Vmm) (root n₀ : ℕ) (v : Option Pte) : Prop where
  evolves : m.Evolves m' root
  mapped_eq : ∀ {n}, n < userPages → m'.mapped root n = if n = n₀ then v else m.mapped root n

variable {n n₀ virt phys pdpt pd pt first k size virtStart : ℕ}

/-- Where a mapped page comes from. -/
theorem SetsPage.cases {v : Option Pte} {e : Pte} (h : m.SetsPage m' root n₀ v) (hn : n < userPages)
    (he : m'.mapped root n = some e) :
    n = n₀ ∧ v = some e ∨ n ≠ n₀ ∧ m.mapped root n = some e := by
  rw [h.mapped_eq hn] at he
  split at he
  · exact .inl ⟨‹_›, he⟩
  · exact .inr ⟨‹_›, he⟩

/-- A step that leaves every page. -/
theorem Grows.mapped_eq (h : m.Grows m' root) (hn : n < userPages) :
    m'.mapped root n = m.mapped root n :=
  h.leaf_eq _ (userPath_pagePath hn) rfl

theorem Grows.refl (h : m.Space root) : m.Grows m root :=
  ⟨h.evolves_self, fun _ _ _ => rfl, fun _ hs => hs, fun _ he h0 h2 => ⟨_, he, h0, h2⟩⟩

theorem Grows.trans {m3 : Vmm} (h : m1.Grows m2 root) (h' : m2.Grows m3 root) :
    m1.Grows m3 root where
  evolves := h.evolves.trans h'.evolves
  leaf_eq := fun j hq hlen => (h'.leaf_eq j hq hlen).trans (h.leaf_eq j hq hlen)
  table_mono := fun hq hs => h'.table_mono hq (h.table_mono hq hs)
  user_mono := by
    intro q j e hq he h0 h2
    obtain ⟨e', he', h0', h2'⟩ := h.user_mono hq he h0 h2
    exact h'.user_mono hq he' h0' h2'

/-- `getOrAllocTable` along a path. -/
def descend (flags : Pte) : List (Fin 512) → ℕ → Vmm → Option ℕ × Vmm
  | [], t, m => (some t, m)
  | i :: l, t, m =>
    match m.getOrAllocTable t i flags with
    | (none, m) => (none, m)
    | (some c, m) => descend flags l c m

theorem vmmMapPage_eq (m : Vmm) (root virt phys : ℕ) (flags : Pte) :
    m.vmmMapPage root virt phys flags =
      match descend flags (pagePath (virt / pageSize)) root m with
      | (none, m) => (-1, m)
      | (some pt, m) => (0, m.write pt (pageIdx (virt / pageSize)) (.leaf (pageFloor phys) flags)) := by
  obtain ⟨hidx4, hidx3, hidx2, hidx1⟩ := idx_page (pageFloor virt)
  rw [pageFloor_div] at hidx4 hidx3 hidx2 hidx1
  simp only [Vmm.vmmMapPage, hidx4, hidx3, hidx2, hidx1, pagePath, descend]
  repeat' split
  all_goals simp_all

/-- On the way down every directory is there with the `USER` bit of the flags. -/
theorem Space.descend (h : m.Space root) (flags : Pte) {l : List (Fin 512)} (hp : UserPath (p ++ l))
    (ht : m.table root p = some t)
    (hg : ∀ {q j}, (q ++ [j]) <+: p → m.GrantsUser root q j flags) :
    m.Grows (Vmm.descend flags l t m).2 root ∧ ∀ c, (Vmm.descend flags l t m).1 = some c →
      (Vmm.descend flags l t m).2.table root (p ++ l) = some c ∧
        ∀ {q j}, (q ++ [j]) <+: p ++ l → (Vmm.descend flags l t m).2.GrantsUser root q j flags := by
  induction l generalizing p t m with
  | nil =>
    rw [append_nil]
    exact ⟨.refl h, fun c hc => ⟨ht.trans hc, hg⟩⟩
  | cons i l ih =>
    rw [append_cons] at hp ⊢
    have hp1 := userPath_prefixClosed _ _ (prefix_append (p ++ [i]) l) hp
    obtain ⟨g, hres⟩ := h.getOrAllocTable hp1 ht flags
    rw [Vmm.descend]
    generalize m.getOrAllocTable t i flags = r at g hres
    obtain ⟨_ | c, m1⟩ := r
    · exact ⟨g, by simp⟩
    obtain ⟨ht1, hu⟩ := hres c rfl
    obtain ⟨g', hres'⟩ := ih g.evolves.space hp ht1 fun {q j} hpre => by
      rcases prefix_concat_iff.mp hpre with heq | hpre'
      · obtain ⟨rfl, hj⟩ := append_inj' heq rfl
        exact singleton_inj.mp hj ▸ hu
      · exact g.grantsUser (userPath_prefixClosed _ _ hpre hp1) (hg hpre')
    exact ⟨g.trans g', hres'⟩

/-- Writing an entry of the page table of page `n₀`. -/
theorem Space.writeLeaf (h : m.Space root) (hn0 : n₀ < userPages)
    (ht : m.table root (pagePath n₀) = some t) (e : Pte)
    (huser : e.getLsbD 0 = true → e.getLsbD 2 = true → ∀ {q j e'}, (q ++ [j]) <+: pagePath n₀ →
      m.entry root q j = some e' → e'.getLsbD 2 = true) :
    m.SetsPage (m.write t (pageIdx n₀) e) root n₀ (if e.getLsbD 0 then some e else none) := by
  have hp := userPath_pagePath hn0
  have hsame : ∀ q, UserPath q → (m.write t (pageIdx n₀) e).table root q = m.table root q :=
    fun q hq => h.table_write_leaf hp rfl ht hq
  refine ⟨h.write hp ht hsame ?_ ?_ (fun _ => huser), ?_⟩
  · intro hp'
    have := hp'.length_le
    exact absurd this (by simp [pagePath])
  · intro hlt
    exact absurd hlt (by simp [pagePath])
  · intro n hn
    have hentry := h.entry_write (e := e) (i := pageIdx n₀) hp ht (userPath_pagePath hn)
      (hsame _ (userPath_pagePath hn)) (pageIdx n)
    by_cases heq : n = n₀
    · subst heq
      rw [if_pos ⟨rfl, rfl⟩] at hentry
      rw [mapped, leaf_of_entry hentry, if_pos rfl]
    · rw [if_neg fun hc => heq (page_eq_of_path_eq hn hn0 hc.1 hc.2)] at hentry
      rw [if_neg heq]
      exact leaf_congr hentry

variable {q : List (Fin 512)}

/-- The outcome of mapping one page: it is mapped, or nothing is. -/
def MapPagePost (m : Vmm) (root n₀ phys : ℕ) (flags : Pte) (r : ℤ × Vmm) : Prop :=
  (r.1 = 0 ∧ m.SetsPage r.2 root n₀ (some (Pte.leaf phys flags))) ∨ (r.1 = -1 ∧ m.Grows r.2 root)

/-- `vmmMapPage`. -/
theorem Space.vmmMapPage (h : m.Space root) (hv : virt < userSpaceMax) (hphys : FrameAddr phys)
    (flags : Pte) :
    m.MapPagePost root (virt / pageSize) phys flags (m.vmmMapPage root virt phys flags) := by
  have hn := page_lt_userPages hv
  have hfloor : pageFloor phys = phys := Nat.div_mul_cancel (Nat.dvd_of_mod_eq_zero hphys.aligned)
  obtain ⟨g, hres⟩ := h.descend flags (p := []) (l := pagePath _) (userPath_pagePath hn) rfl (by simp)
  rw [vmmMapPage_eq, hfloor]
  generalize Vmm.descend flags (pagePath (virt / pageSize)) root m = r at g hres
  obtain ⟨_ | pt, m1⟩ := r
  · exact .inr ⟨rfl, g⟩
  obtain ⟨ht, hgrants⟩ := hres pt rfl
  have hpres : (Pte.leaf phys flags).getLsbD 0 = true := by
    rw [getLsbD_leaf]
    simp
  have hbit : (Pte.leaf phys flags).getLsbD 2 = flags.getLsbD 2 := by
    rw [getLsbD_leaf]
    simp
  have hset := g.evolves.space.writeLeaf hn ht (Pte.leaf phys flags) fun _ h2 q j e' hpre he' => by
    -- each directory on the path was widened, or made, with the `USER` bit of the flags
    obtain ⟨e, he, -, hue⟩ := hgrants hpre (hbit ▸ h2)
    obtain rfl := mem_unique he he'
    exact hue
  refine .inl ⟨rfl, g.evolves.trans hset.evolves, fun {n} hn' => ?_⟩
  have hmapped := hset.mapped_eq hn'
  rwa [if_pos hpres, g.mapped_eq hn'] at hmapped

/-! ## Clearing a leaf and pruning -/

/-- The tables above page `n₀`, from the root down. -/
structure Chain (m : Vmm) (root n₀ pdpt pd pt : ℕ) : Prop where
  pdpt : m.table root [tableIndex n₀ 27] = some pdpt
  pd : m.table root [tableIndex n₀ 27, tableIndex n₀ 18] = some pd
  pt : m.table root (pagePath n₀) = some pt

/-- Unlinking an empty table leaves every page, and the tables that are not below it. -/
theorem Space.unlink (h : m.Space root) (hp : UserPath (p ++ [i])) (ht : m.table root p = some t)
    (hc : m.table root (p ++ [i]) = some c) (hempty : m.isTableEmpty c = true) :
    m.Evolves (m.unlinkTable t i c) root ∧
      (∀ {n}, n < userPages → (m.unlinkTable t i c).mapped root n = m.mapped root n) ∧
      ∀ {q s}, q <+: p → m.table root q = some s → (m.unlinkTable t i c).table root q = some s := by
  have hchild := child_of_table ht hc
  refine ⟨h.unlinkTable hp ht hchild hempty,
    fun hn => h.leaf_unlinkTable hp ht hchild hempty (userPath_pagePath hn) rfl _, fun hq hs => ?_⟩
  rw [h.table_unlinkTable hp ht hchild hempty (userPath_prefixClosed _ _ hq hp.of_concat), if_neg, hs]
  rintro rfl
  exact absurd hq.length_le (by simp)

theorem pruneTables_eq (m : Vmm) (pml4 pdpt pd pt virt : ℕ) :
    m.pruneTables pml4 pdpt pd pt virt =
      if m.isTableEmpty pt then
        if (m.unlinkTable pd (pdIdx virt) pt).isTableEmpty pd then
          let m2 := (m.unlinkTable pd (pdIdx virt) pt).unlinkTable pdpt (pdptIdx virt) pd
          if (pml4Idx virt).val < 256 && m2.isTableEmpty pdpt then
            m2.unlinkTable pml4 (pml4Idx virt) pdpt
          else m2
        else m.unlinkTable pd (pdIdx virt) pt
      else m :=
  rfl

/-- The pruning of `vmmUnmapPage` leaves every page. -/
theorem Space.pruneTables (h : m.Space root) (hv : virt < userSpaceMax)
    (hchain : m.Chain root (virt / pageSize) pdpt pd pt) :
    m.Evolves (m.pruneTables root pdpt pd pt virt) root ∧
      ∀ {n}, n < userPages →
        (m.pruneTables root pdpt pd pt virt).mapped root n = m.mapped root n := by
  have hp3 := userPath_pagePath (page_lt_userPages hv)
  obtain ⟨hidx4, hidx3, hidx2, -⟩ := idx_page virt
  have hhalf : (pml4Idx virt).val < 256 := hp3.head_lt _ (by simp [pagePath, hidx4])
  obtain ⟨ht1, ht2, ht3⟩ := hchain
  simp only [pagePath, ← hidx4, ← hidx3, ← hidx2] at hp3 ht1 ht2 ht3
  have hp2 := UserPath.of_concat (p := [pml4Idx virt, pdptIdx virt]) hp3
  have hp1 := UserPath.of_concat (p := [pml4Idx virt]) hp2
  rw [pruneTables_eq]
  by_cases he3 : m.isTableEmpty pt = true
  swap
  · rw [if_neg he3]
    exact ⟨h.evolves_self, fun _ => rfl⟩
  obtain ⟨ev3, keep3, tab3⟩ := h.unlink (p := [pml4Idx virt, pdptIdx virt]) hp3 ht2 ht3 he3
  replace ht1 := tab3 (by simp) ht1
  replace ht2 := tab3 prefix_rfl ht2
  rw [if_pos he3]
  generalize m.unlinkTable pd (pdIdx virt) pt = m1 at *
  by_cases he2 : m1.isTableEmpty pd = true
  swap
  · rw [if_neg he2]
    exact ⟨ev3, keep3⟩
  obtain ⟨ev2, keep2, tab2⟩ := ev3.space.unlink (p := [pml4Idx virt]) hp2 ht1 ht2 he2
  replace ht1 := tab2 prefix_rfl ht1
  rw [if_pos he2]
  generalize m1.unlinkTable pdpt (pdptIdx virt) pd = m2 at *
  simp only [decide_eq_true hhalf, Bool.true_and]
  by_cases he1 : m2.isTableEmpty pdpt = true
  swap
  · rw [if_neg he1]
    exact ⟨ev3.trans ev2, fun hn => (keep2 hn).trans (keep3 hn)⟩
  obtain ⟨ev1, keep1, -⟩ := ev2.space.unlink (p := []) hp1 rfl ht1 he1
  rw [if_pos he1]
  exact ⟨(ev3.trans ev2).trans ev1, fun hn => ((keep1 hn).trans (keep2 hn)).trans (keep3 hn)⟩

/-! ## Walking down without allocation -/

theorem mapped_eq_none (hq : q <+: pagePath n₀) (h : m.table root q = none) :
    m.mapped root n₀ = none := by
  cases hm : m.mapped root n₀ with
  | none => rfl
  | some e =>
    obtain ⟨s, hs, -⟩ := entry_eq_some.mp (leaf_eq_some.mp hm).1
    obtain ⟨s', hs'⟩ := table_of_isPrefix hq hs
    simp [h] at hs'

/-- The four ways the walk to page `n₀` can end: at a missing entry of one of the three upper tables,
where the page is not mapped, or in its page table. -/
inductive WalkEnds (m : Vmm) (root n₀ : ℕ) : Prop where
  | pml4 (h₄ : (m.mem root (tableIndex n₀ 27)).getLsbD 0 = false) (hm : m.mapped root n₀ = none)
  | pdpt (e₄ : Pte) (he₄ : m.mem root (tableIndex n₀ 27) = e₄) (h₄ : e₄.getLsbD 0 = true)
      (h₃ : (m.mem e₄.addr (tableIndex n₀ 18)).getLsbD 0 = false) (hm : m.mapped root n₀ = none)
  | pd (e₄ e₃ : Pte) (he₄ : m.mem root (tableIndex n₀ 27) = e₄) (h₄ : e₄.getLsbD 0 = true)
      (he₃ : m.mem e₄.addr (tableIndex n₀ 18) = e₃) (h₃ : e₃.getLsbD 0 = true) (d₃ : e₃.DirBits)
      (h₂ : (m.mem e₃.addr (tableIndex n₀ 9)).getLsbD 0 = false) (hm : m.mapped root n₀ = none)
  | pt (e₄ e₃ e₂ : Pte) (he₄ : m.mem root (tableIndex n₀ 27) = e₄) (h₄ : e₄.getLsbD 0 = true)
      (d₄ : e₄.DirBits) (he₃ : m.mem e₄.addr (tableIndex n₀ 18) = e₃) (h₃ : e₃.getLsbD 0 = true)
      (d₃ : e₃.DirBits) (he₂ : m.mem e₃.addr (tableIndex n₀ 9) = e₂) (h₂ : e₂.getLsbD 0 = true)
      (d₂ : e₂.DirBits) (chain : m.Chain root n₀ e₄.addr e₃.addr e₂.addr)

theorem Space.walkEnds (h : m.Space root) (hn : n₀ < userPages) : m.WalkEnds root n₀ := by
  have hp3 : UserPath [tableIndex n₀ 27, tableIndex n₀ 18, tableIndex n₀ 9] := userPath_pagePath hn
  have hp2 : UserPath [tableIndex n₀ 27, tableIndex n₀ 18] := UserPath.of_concat hp3
  have hp1 : UserPath [tableIndex n₀ 27] := UserPath.of_concat hp2
  have hroot : m.table root [] = some root := rfl
  have htable : ∀ {q s j}, m.table root q = some s →
      m.table root (q ++ [j]) = child (m.mem s j) := by
    intro q s j hs
    rw [table_concat, entry_of_table hs, bind_some]
  cases h4 : (m.mem root (tableIndex n₀ 27)).getLsbD 0 with
  | false =>
    refine .pml4 h4 (mapped_eq_none (q := [] ++ [tableIndex n₀ 27]) ?_ ?_)
    · exact ⟨_, rfl⟩
    · rw [htable hroot, child_eq_none.mpr h4]
  | true =>
  have ht1 : m.table root [tableIndex n₀ 27] = some (m.mem root (tableIndex n₀ 27)).addr :=
    (htable hroot).trans (child_of_present h4)
  cases h3 : (m.mem (m.mem root (tableIndex n₀ 27)).addr (tableIndex n₀ 18)).getLsbD 0 with
  | false =>
    refine .pdpt _ rfl h4 h3 (mapped_eq_none (q := [tableIndex n₀ 27] ++ [tableIndex n₀ 18]) ?_ ?_)
    · exact ⟨_, rfl⟩
    · rw [htable ht1, child_eq_none.mpr h3]
  | true =>
  have ht2 := (htable (j := tableIndex n₀ 18) ht1).trans (child_of_present h3)
  have d3 := h.dirs (p := [tableIndex n₀ 27]) hp2 (entry_of_table ht1 _) h3
  cases h2 : (m.mem (m.mem (m.mem root (tableIndex n₀ 27)).addr (tableIndex n₀ 18)).addr
      (tableIndex n₀ 9)).getLsbD 0 with
  | false =>
    refine .pd _ _ rfl h4 rfl h3 d3 h2 (mapped_eq_none (q := pagePath n₀) prefix_rfl ?_)
    exact (htable ht2).trans (child_eq_none.mpr h2)
  | true =>
  have ht3 := (htable (j := tableIndex n₀ 9) ht2).trans (child_of_present h2)
  exact .pt _ _ _ rfl h4 (h.dirs (p := []) hp1 (entry_of_table hroot _) h4) rfl h3 d3 rfl h2
    (h.dirs (p := [tableIndex n₀ 27, tableIndex n₀ 18]) hp3 (entry_of_table ht2 _) h2)
    ⟨ht1, ht2, ht3⟩

theorem Chain.mapped_eq (hc : m.Chain root n₀ pdpt pd pt) :
    m.mapped root n₀ =
      if (m.mem pt (pageIdx n₀)).getLsbD 0 then some (m.mem pt (pageIdx n₀)) else none :=
  leaf_of_entry (entry_of_table hc.pt _)

/-- `vmmUnmapPage`. -/
theorem Space.vmmUnmapPage (h : m.Space root) (hv : virt < userSpaceMax) :
    (m.vmmUnmapPage root virt).1 = 0 ∧
      m.SetsPage (m.vmmUnmapPage root virt).2 root (virt / pageSize) none := by
  have hn := page_lt_userPages hv
  have hv' : pageFloor virt < userSpaceMax := lt_of_le_of_lt (div_mul_le_self _ _) hv
  have hidle : m.mapped root (virt / pageSize) = none →
      m.SetsPage m root (virt / pageSize) none := by
    intro hm
    refine ⟨h.evolves_self, fun {n} _ => ?_⟩
    split
    · rename_i heq
      rw [heq, hm]
    · rfl
  obtain ⟨hidx4, hidx3, hidx2, hidx1⟩ := idx_page (pageFloor virt)
  rw [pageFloor_div] at hidx4 hidx3 hidx2 hidx1
  unfold Vmm.vmmUnmapPage
  simp only [hidx4, hidx3, hidx2, hidx1, has_present, has_huge]
  cases h.walkEnds hn with
  | pml4 h4 hm =>
    simp only [h4, Bool.not_false, if_true]
    exact ⟨trivial, hidle hm⟩
  | pdpt e4 he4 h4 h3 hm =>
    simp only [he4, h4, h3, Bool.not_true, Bool.not_false, if_true, Bool.false_eq_true, if_false]
    exact ⟨trivial, hidle hm⟩
  | pd e4 e3 he4 h4 he3 h3 d3 h2 hm =>
    simp only [he4, h4, he3, h3, d3.huge, h2, Bool.not_true, Bool.not_false, if_true,
      Bool.false_eq_true, if_false]
    exact ⟨trivial, hidle hm⟩
  | pt e4 e3 e2 he4 h4 _ he3 h3 d3 he2 h2 d2 chain =>
    simp only [he4, h4, he3, h3, he2, h2, d3.huge, d2.huge, Bool.not_true, Bool.false_eq_true,
      if_false]
    have hclear := h.writeLeaf hn chain.pt 0#64 fun h0 => nomatch h0
    have hp3 := userPath_pagePath hn
    have hp2 : UserPath [tableIndex (virt / pageSize) 27, tableIndex (virt / pageSize) 18] :=
      UserPath.of_concat hp3
    have hsame := fun {q} hq => h.table_write_leaf (i := pageIdx (virt / pageSize)) (e := 0#64)
      (userPath_pagePath hn) rfl chain.pt (q := q) hq
    have hchain : (m.write e2.addr (pageIdx (virt / pageSize)) 0#64).Chain root
        (pageFloor virt / pageSize) e4.addr e3.addr e2.addr := by
      rw [pageFloor_div]
      exact ⟨(hsame hp2.of_concat).trans chain.pdpt, (hsame hp2).trans chain.pd,
        (hsame hp3).trans chain.pt⟩
    obtain ⟨hprune, hkeep⟩ := hclear.evolves.space.pruneTables hv' hchain
    refine ⟨trivial, hclear.evolves.trans hprune, fun {n} hn' => ?_⟩
    rw [hkeep hn', hclear.mapped_eq hn']
    rfl

/-- `vmmVirtToPhys` reads the entry of the page. -/
theorem Space.vmmVirtToPhys (h : m.Space root) (hv : virt < userSpaceMax) :
    m.vmmVirtToPhys root virt =
      match m.mapped root (virt / pageSize) with
      | none => 0
      | some e => e.addr ||| (virt &&& (pageSize - 1)) := by
  have hn := page_lt_userPages hv
  obtain ⟨hidx4, hidx3, hidx2, hidx1⟩ := idx_page virt
  unfold Vmm.vmmVirtToPhys
  simp only [hidx4, hidx3, hidx2, hidx1, has_present, has_huge]
  cases h.walkEnds hn with
  | pml4 h4 hm => simp only [h4, hm, Bool.not_false, if_true]
  | pdpt e4 he4 h4 h3 hm =>
    simp only [he4, h4, h3, hm, Bool.not_true, Bool.not_false, if_true, Bool.false_eq_true,
      if_false]
  | pd e4 e3 he4 h4 he3 h3 d3 h2 hm =>
    simp only [he4, h4, he3, h3, d3.huge, h2, hm, Bool.not_true, Bool.not_false, if_true,
      Bool.false_eq_true, if_false]
  | pt e4 e3 e2 he4 h4 _ he3 h3 d3 he2 h2 d2 chain =>
    simp only [he4, h4, he3, h3, he2, h2, d3.huge, d2.huge]
    rw [chain.mapped_eq]
    cases (m.mem e2.addr (pageIdx (virt / pageSize))).getLsbD 0 <;> rfl

/-! ## Ranges -/

/-- The pages from `first` on, `k` of them, mapped to a run of frames. -/
def withRun (f : ℕ → Option Pte) (first phys : ℕ) (flags : Pte) (k n : ℕ) : Option Pte :=
  if first ≤ n ∧ n < first + k then some (Pte.leaf (phys + (n - first) * pageSize) flags) else f n

theorem withRun_zero (f : ℕ → Option Pte) (first phys : ℕ) (flags : Pte) (n : ℕ) :
    withRun f first phys flags 0 n = f n :=
  if_neg (by omega)

theorem withRun_succ (f : ℕ → Option Pte) (first phys : ℕ) (flags : Pte) (k n : ℕ) :
    withRun (update f first (some (Pte.leaf phys flags))) (first + 1) (phys + pageSize) flags
      k n = withRun f first phys flags (k + 1) n := by
  unfold withRun
  rw [update_apply]
  by_cases hfirst : n = first
  · subst hfirst
    rw [if_neg (by omega), if_pos rfl, if_pos (by omega), Nat.sub_self, Nat.zero_mul, Nat.add_zero]
  · by_cases hin : first + 1 ≤ n ∧ n < first + 1 + k
    · have hphys : phys + pageSize + (n - (first + 1)) * pageSize = phys + (n - first) * pageSize := by
        rw [pageSize]
        omega
      rw [if_pos hin, if_pos (by omega), hphys]
    · rw [if_neg hin, if_neg hfirst, if_neg (by omega)]

/-- A step that maps `k` pages from `first` to consecutive frames. -/
structure SetsRange (m m' : Vmm) (root first phys : ℕ) (flags : Pte) (k : ℕ) : Prop where
  evolves : m.Evolves m' root
  mapped_eq : ∀ {n}, n < userPages → m'.mapped root n =
    if first ≤ n ∧ n < first + k then some (Pte.leaf (phys + (n - first) * pageSize) flags)
    else m.mapped root n

/-- A step that unmaps `k` pages from `first`. -/
structure ClearsRange (m m' : Vmm) (root first k : ℕ) : Prop where
  evolves : m.Evolves m' root
  mapped_eq : ∀ {n}, n < userPages →
    m'.mapped root n = if first ≤ n ∧ n < first + k then none else m.mapped root n

theorem Grows.setsRange (h : m.Grows m' root) (first phys : ℕ) (flags : Pte) :
    m.SetsRange m' root first phys flags 0 := by
  refine ⟨h.evolves, fun {n} hn => ?_⟩
  rw [if_neg (by omega), h.mapped_eq hn]

theorem SetsRange.cons (h : m.SetsPage m1 root first (some (Pte.leaf phys flags)))
    (h' : m1.SetsRange m2 root (first + 1) (phys + pageSize) flags k) :
    m.SetsRange m2 root first phys flags (k + 1) := by
  refine ⟨h.evolves.trans h'.evolves, fun {n} hn => ?_⟩
  have hsucc := withRun_succ (m.mapped root) first phys flags k n
  rw [withRun, update_apply, ← h.mapped_eq hn] at hsucc
  exact (h'.mapped_eq hn).trans hsucc

theorem ClearsRange.cons (h : m.SetsPage m1 root first none)
    (h' : m1.ClearsRange m2 root (first + 1) k) : m.ClearsRange m2 root first (k + 1) := by
  refine ⟨h.evolves.trans h'.evolves, fun {n} hn => ?_⟩
  rw [h'.mapped_eq hn, h.mapped_eq hn]
  split_ifs <;> first | rfl | omega

theorem page_add (virt j : ℕ) : (virt + j * pageSize) / pageSize = virt / pageSize + j :=
  add_mul_div_right _ _ (by decide)

/-- The outcome of mapping `n` pages: all of them, or those before the first failure. -/
def MapRangePost (m : Vmm) (root first phys : ℕ) (flags : Pte) (n : ℕ) (r : ℤ × Vmm) : Prop :=
  ∃ k, ((r.1 = 0 ∧ k = n) ∨ (r.1 = -1 ∧ k < n)) ∧ m.SetsRange r.2 root first phys flags k

/-- The loop of `vmmMapRange`. -/
theorem Space.mapPages (h : m.Space root) (virtStart physStart : ℕ) (flags : Pte) (n j : ℕ)
    (hv : ∀ k, k < n → virtStart + (j + k) * pageSize < userSpaceMax)
    (hphys : ∀ k, k < n → FrameAddr (physStart + (j + k) * pageSize)) :
    m.MapRangePost root (virtStart / pageSize + j) (physStart + j * pageSize) flags n
      (mapPages root virtStart physStart flags n (j * pageSize) m) := by
  induction n generalizing m j with
  | zero => exact ⟨0, .inl ⟨rfl, rfl⟩, (Grows.refl h).setsRange _ _ _⟩
  | succ n ih =>
    have hv0 := hv 0 (succ_pos n)
    have hphys0 := hphys 0 (succ_pos n)
    rw [add_zero] at hv0 hphys0
    have hwrap : wrap64 (virtStart + j * pageSize) = virtStart + j * pageSize :=
      wrap64_of_lt (lt_trans hv0 (by decide))
    have hwrap' : wrap64 (physStart + j * pageSize) = physStart + j * pageSize :=
      wrap64_of_lt (lt_trans hphys0.lt (by decide))
    have hpost := h.vmmMapPage hv0 hphys0 flags
    rw [page_add] at hpost
    unfold Vmm.mapPages
    rw [hwrap, hwrap']
    rcases hpost with ⟨hres, hset⟩ | ⟨hres, hgrows⟩
    · have hrest := ih hset.evolves.space (j + 1)
        (fun k hk => by rw [add_assoc, add_comm 1]; exact hv (k + 1) (by omega))
        (fun k hk => by rw [add_assoc, add_comm 1]; exact hphys (k + 1) (by omega))
      obtain ⟨k, hk, hrange⟩ := hrest
      rw [← add_assoc, succ_mul, ← add_assoc] at hrange
      dsimp only
      rw [if_neg (by simp [hres]), ← succ_mul]
      refine ⟨k + 1, ?_, SetsRange.cons hset ?_⟩
      · rcases hk with ⟨h0, hk⟩ | ⟨h1, hk⟩
        · exact .inl ⟨h0, by omega⟩
        · exact .inr ⟨h1, by omega⟩
      · simpa [succ_mul] using hrange
    · dsimp only
      rw [if_pos (by simp [hres])]
      exact ⟨0, .inr ⟨rfl, succ_pos n⟩, hgrows.setsRange _ _ _⟩

/-- The loop of `vmmUnmapRange`. -/
theorem Space.unmapPages (h : m.Space root) (virtStart n j : ℕ)
    (hv : ∀ k, k < n → virtStart + (j + k) * pageSize < userSpaceMax) :
    m.ClearsRange (unmapPages root virtStart n (j * pageSize) m) root
      (virtStart / pageSize + j) n := by
  induction n generalizing m j with
  | zero =>
    refine ⟨h.evolves_self, fun {n} _ => ?_⟩
    rw [if_neg (by omega)]
    rfl
  | succ n ih =>
    have hv0 := hv 0 (succ_pos n)
    have hwrap : wrap64 (virtStart + j * pageSize) = virtStart + j * pageSize :=
      wrap64_of_lt (lt_trans hv0 (by decide))
    obtain ⟨-, hset⟩ := h.vmmUnmapPage hv0
    rw [page_add] at hset
    have hrest := ih hset.evolves.space (j + 1)
      (fun k hk => by rw [add_assoc, add_comm 1]; exact hv (k + 1) (by omega))
    unfold Vmm.unmapPages
    rw [hwrap, ← succ_mul]
    exact ClearsRange.cons hset hrest

theorem pageCeil_div (h : size ≤ userSpaceMax) : pageCeil size / pageSize = pageCount size := by
  rw [pageCeil, pageFloor_div, wrap64_of_lt, pageCount]
  exact lt_of_le_of_lt (Nat.add_le_add_right h _) (by decide)

/-- The pages of a range in user space. -/
theorem range_page_lt (h : virtStart + size ≤ userSpaceMax) (hk : k < pageCount size) :
    virtStart + k * pageSize < userSpaceMax := by
  rw [pageCount, pageSize] at *
  omega

/-- `vmmMapRange`. -/
theorem Space.vmmMapRange (h : m.Space root) {physStart : ℕ} (hv : virtStart + size ≤ userSpaceMax)
    (hphys : ∀ k, k < pageCount size → FrameAddr (physStart + k * pageSize)) (flags : Pte) :
    m.MapRangePost root (virtStart / pageSize) physStart flags (pageCount size)
      (m.vmmMapRange root virtStart physStart size flags) := by
  have hloop := h.mapPages virtStart physStart flags (pageCount size) 0
    (fun k hk => by rw [zero_add]; exact range_page_lt hv hk)
    (fun k hk => by rw [zero_add]; exact hphys k hk)
  rwa [Vmm.vmmMapRange, pageCeil_div (by omega)]

/-- `vmmUnmapRange`. -/
theorem Space.vmmUnmapRange (h : m.Space root) (hv : virtStart + size ≤ userSpaceMax) :
    (m.vmmUnmapRange root virtStart size).1 = 0 ∧
      m.ClearsRange (m.vmmUnmapRange root virtStart size).2 root (virtStart / pageSize)
        (pageCount size) := by
  have hloop := h.unmapPages virtStart (pageCount size) 0
    (fun k hk => by rw [zero_add]; exact range_page_lt hv hk)
  rw [Vmm.vmmUnmapRange, pageCeil_div (by omega)]
  exact ⟨rfl, hloop⟩

/-! ## A new address space -/

/-- What a successful `vmmCreateAddressSpace` leaves: a root of its own with an empty user half. -/
structure Created (m : Vmm) (r : ℕ × Vmm) : Prop where
  space : r.2.Space r.1
  mapped_eq : ∀ {n}, n < userPages → r.2.mapped r.1 n = none
  isTable_iff : ∀ a, r.2.IsTable r.1 a ↔ a = r.1
  fresh : r.1 / pageSize ∉ m.pmm.usedSet
  used_eq : r.2.pmm.usedSet = insert (r.1 / pageSize) m.pmm.usedSet
  total_eq : r.2.pmm.gTotalFrames = m.pmm.gTotalFrames
  kernel_eq : r.2.gKernelPml4 = m.gKernelPml4
  mem_eq : ∀ a, a ≠ r.1 → r.2.mem a = m.mem a
  owed_eq : ∀ a, r.2.owed r.1 a = m.allocated.count a - m.freed.count a

theorem vmmCreateAddressSpace_spec (hpmm : m.pmm.Inv) (htotal : m.pmm.gTotalFrames ≤ 2 ^ 40)
    (hne : m.vmmCreateAddressSpace.1 ≠ 0) : m.Created m.vmmCreateAddressSpace := by
  have hr := pmmAllocFrame_spec hpmm
  unfold vmmCreateAddressSpace at hne ⊢
  dsimp only at hne ⊢
  by_cases hnull : m.pmmAllocFrame.1 = 0
  · rw [if_pos hnull] at hne
    exact absurd rfl hne
  rw [if_neg hnull]
  set f := m.pmmAllocFrame.1 with hf
  set m1 := m.pmmAllocFrame.2 with hm1
  set m' : Vmm := { m1 with
      mem := fun t i =>
        if t = f then (if i.val < 256 then 0#64 else m1.mem m1.gKernelPml4 i) else m1.mem t i }
    with hm'
  obtain ⟨haddr, hnot, -, hused, hlog⟩ := hr.frameAddr htotal hnull
  have hzero : ∀ i : Fin 512, i.val < 256 → m'.mem f i = 0#64 := by
    intro i hi
    rw [hm']
    simp [hi]
  -- the root is the only table: its user entries are all clear
  have htable : ∀ {q s}, UserPath q → m'.table f q = some s → q = [] ∧ s = f := by
    intro q s hq hs
    cases q with
    | nil => exact ⟨rfl, (some.inj hs).symm⟩
    | cons i q =>
      rw [table, Radix.walk_cons, hzero i (hq.head_lt i rfl)] at hs
      cases hs
  have hlong : ∀ {q : List (Fin 512)} {j e}, UserPath q → q.length = 3 → m'.entry f q j = some e →
      False := by
    intro q j e hq hlen he
    obtain ⟨s, hs, -⟩ := entry_eq_some.mp he
    rw [(htable hq hs).1] at hlen
    cases hlen
  have hisTable : ∀ a, m'.IsTable f a ↔ a = f := by
    intro a
    constructor
    · rintro ⟨q, hq, hs⟩
      exact (htable hq hs).2
    · rintro rfl
      exact ⟨[], userPath_nil, rfl⟩
  refine ⟨⟨hr.inv, hr.total_eq ▸ htotal, ?_, ?_, ?_, ?_⟩, ?_, hisTable, hnot, hused, hr.total_eq,
    hr.kernel_eq, fun a ha => (funext fun i => if_neg ha).trans (congrFun hr.mem_eq a), ?_⟩
  · intro p q t hp hq hwp hwq
    rw [(htable hp hwp).1, (htable hq hwq).1]
  · intro p t hp ht
    rw [(htable hp ht).2]
    refine ⟨haddr, ?_⟩
    rw [hused]
    exact Finset.mem_insert_self _ _
  · intro p i e hp he hpres
    obtain ⟨s, hs, hse⟩ := entry_eq_some.mp he
    obtain ⟨rfl, rfl⟩ := htable hp.of_concat hs
    rw [hzero i (hp.head_lt i rfl)] at hse
    rw [← hse] at hpres
    cases hpres
  · intro p i e hp hlen hl
    exact (hlong hp hlen (leaf_eq_some.mp hl).1).elim
  · intro n hn
    cases hm : m'.mapped f n with
    | none => rfl
    | some e => exact (hlong (userPath_pagePath hn) rfl (leaf_eq_some.mp hm).1).elim
  · intro a
    have halloc : m'.allocated = f :: m.allocated := hlog
    have hfreed : m'.freed = m.freed := hr.freed_eq
    by_cases haf : a = f
    · rw [owed_of_isTable ((hisTable a).mpr haf), halloc, hfreed, haf, count_cons_self]
      omega
    · rw [owed_of_not_isTable (fun h => haf ((hisTable a).mp h)), halloc, hfreed,
        count_cons_of_ne (Ne.symm haf)]

end Vmm

end NovaOS.Mem
