import NovaOS.Mem.VmaList
import NovaOS.Mem.VmmSpec

/-!
# Well-formed lists of areas

`VmaListOk` is what the list of a process should satisfy: consistent links, and areas that are sorted,
non-empty, page-aligned, disjoint and in user space. `vmaCreate` keeps it for every range;
`vmaDestroy` keeps it unless its range runs backwards through an area, and a page fault keeps it
unless a stack area grows over another one.
-/

namespace NovaOS.Mem

open NovaOS.Lib List

namespace Area

/-- An area alone: non-empty, page-aligned and in user space. -/
structure Valid (A : Area) : Prop where
  lt : A.start < A.stop
  start_aligned : A.start % pageSize = 0
  stop_aligned : A.stop % pageSize = 0
  le_max : A.stop ≤ userSpaceMax

/-- A sequence of areas: each is valid and ends before the later ones start. -/
structure Ordered (L : List Area) : Prop where
  valid : ∀ A ∈ L, A.Valid
  before : L.Pairwise fun A B => A.stop ≤ B.start

/-- An area inside another, with its flags. -/
structure Sub (B A : Area) : Prop where
  start_le : A.start ≤ B.start
  stop_le : B.stop ≤ A.stop
  flags_eq : B.flags = A.flags

theorem Sub.refl (A : Area) : A.Sub A := ⟨le_rfl, le_rfl, rfl⟩

theorem pageFloor_mod (x : ℕ) : pageFloor x % pageSize = 0 := Nat.mul_mod_left _ _

theorem Ordered.nil : Ordered [] := ⟨by simp, Pairwise.nil⟩

variable {L L1 L2 : List Area} {A : Area} {x : ℕ}

/-- An address is in one area at most. -/
theorem eq_of_covers (h : L.Pairwise fun A B => A.stop ≤ B.start ∨ B.stop ≤ A.start) {B : Area}
    (hA : A ∈ L) (hB : B ∈ L) (hxA : A.start ≤ x ∧ x < A.stop) (hxB : B.start ≤ x ∧ x < B.stop) :
    A = B := by
  by_contra hne
  have : Std.Symm fun A B : Area => A.stop ≤ B.start ∨ B.stop ≤ A.start := ⟨fun _ _ => Or.symm⟩
  have := h.forall hA hB hne
  omega

/-- Past the end of an area that ends later, fewer areas are left. -/
theorem length_filter_stop_lt (hA : A ∈ L) (hx : x < A.stop) :
    (L.filter fun B => decide (A.stop < B.stop)).length <
      (L.filter fun B => decide (x < B.stop)).length := by
  have hsub : (L.filter fun B => decide (A.stop < B.stop)) =
      (L.filter fun B => decide (x < B.stop)).filter fun B => decide (A.stop < B.stop) := by
    rw [filter_filter]
    refine filter_congr fun B _ => ?_
    rw [← Bool.decide_and]
    exact decide_eq_decide.mpr ⟨fun hB => ⟨hB, hx.trans hB⟩, fun hB => hB.1⟩
  have hmem : A ∈ L.filter fun B => decide (x < B.stop) := mem_filter.mpr ⟨hA, decide_eq_true hx⟩
  rw [hsub]
  exact length_filter_lt_length_iff_exists.mpr ⟨A, hmem, by simp⟩

/-- Inserting an area that is apart from the others, at its place. -/
theorem Ordered.insert (h : Ordered (L1 ++ L2)) (hA : A.Valid)
    (hapart : ∀ B ∈ L1 ++ L2, ¬(A.start < B.stop ∧ A.stop > B.start))
    (hbefore : ∀ B ∈ L1, B.start ≤ A.start) (hafter : ∀ B, L2.head? = some B → A.start ≤ B.start) :
    Ordered (L1 ++ A :: L2) := by
  have hlt := hA.lt
  obtain ⟨hp1, hp2, hp12⟩ := pairwise_append.mp h.before
  have h1 : ∀ B ∈ L1, B.stop ≤ A.start := by
    intro B hB
    have hn := hapart B (mem_append_left _ hB)
    have hs := hbefore B hB
    omega
  have h2 : ∀ B ∈ L2, A.stop ≤ B.start := by
    intro B hB
    have hn := hapart B (mem_append_right _ hB)
    have hBlt := (h.valid B (mem_append_right _ hB)).lt
    have hs : A.start ≤ B.start := by
      cases L2 with
      | nil => cases hB
      | cons C L2 =>
        have hC := hafter C rfl
        rcases mem_cons.mp hB with rfl | hB
        · exact hC
        · have hCB := (pairwise_cons.mp hp2).1 B hB
          have hClt := (h.valid C (mem_append_right _ (.head _))).lt
          omega
    omega
  refine ⟨fun B hB => ?_, pairwise_append.mpr ⟨hp1, pairwise_cons.mpr ⟨h2, hp2⟩, ?_⟩⟩
  · rw [mem_append, mem_cons] at hB
    rcases hB with hB | rfl | hB
    · exact h.valid B (mem_append_left _ hB)
    · exact hA
    · exact h.valid B (mem_append_right _ hB)
  · intro B hB C hC
    rcases mem_cons.mp hC with rfl | hC
    · exact h1 B hB
    · exact hp12 B hB C hC

section Carve

variable {A B : Area} {L L' : List Area} {pageStart pageEnd : ℕ} {split : Bool}

/-- The parts that are left of an area. -/
theorem Valid.carve (hA : A.Valid) (hs : pageStart % pageSize = 0) (he : pageEnd % pageSize = 0)
    (hB : B ∈ A.carve pageStart pageEnd split) : B.Valid ∧ B.Sub A := by
  have hle := hA.le_max
  by_cases hmeet : A.Meets pageStart pageEnd
  · have hleft : A.start < pageStart → Valid { A with stop := pageStart } ∧
        Sub { A with stop := pageStart } A := fun h =>
      ⟨⟨h, hA.start_aligned, hs, hmeet.1.le.trans hle⟩, ⟨le_rfl, hmeet.1.le, rfl⟩⟩
    have hright : pageEnd < A.stop → Valid { A with start := pageEnd } ∧
        Sub { A with start := pageEnd } A := fun h =>
      ⟨⟨h, he, hA.stop_aligned, hle⟩, ⟨hmeet.2.le, le_rfl, rfl⟩⟩
    rcases lt_or_ge A.start pageStart with h1 | h1 <;>
      rcases lt_or_ge pageEnd A.stop with h2 | h2
    · rw [carve_around hmeet ⟨h1, h2⟩] at hB
      cases split with
      | true =>
        rcases mem_cons.mp hB with rfl | hB
        · exact hleft h1
        · exact mem_singleton.mp hB ▸ hright h2
      | false => exact mem_singleton.mp hB ▸ hleft h1
    · rw [carve_left hmeet h1 h2] at hB
      exact mem_singleton.mp hB ▸ hleft h1
    · rw [carve_right hmeet h1 h2] at hB
      exact mem_singleton.mp hB ▸ hright h2
    · rw [carve_inside hmeet ⟨h1, h2⟩] at hB
      cases hB
  · rw [carve_apart hmeet] at hB
    obtain rfl := mem_singleton.mp hB
    exact ⟨hA, .refl B⟩

/-- The two parts of a split are in order when the range does not run backwards. -/
theorem carve_before (h : A.Meets pageStart pageEnd → pageStart ≤ pageEnd) :
    (A.carve pageStart pageEnd split).Pairwise fun A B => A.stop ≤ B.start := by
  by_cases hmeet : A.Meets pageStart pageEnd
  · by_cases haround : A.start < pageStart ∧ A.stop > pageEnd
    · rw [carve_around hmeet haround]
      cases split with
      | true => exact pairwise_pair.mpr (h hmeet)
      | false => exact pairwise_singleton _ _
    · rw [carve]
      split_ifs
      · exact Pairwise.nil
      · exact pairwise_singleton _ _
      · exact pairwise_singleton _ _
  · rw [carve_apart hmeet]
    exact pairwise_singleton _ _

theorem carveAll_sub (denials : List Bool) (hL : ∀ A ∈ L, A.Valid) (hs : pageStart % pageSize = 0)
    (he : pageEnd % pageSize = 0) :
    ∀ B ∈ carveAll pageStart pageEnd denials L, B.Valid ∧ ∃ A ∈ L, B.Sub A := by
  induction L generalizing denials with
  | nil => exact fun B hB => nomatch hB
  | cons A L ih =>
    intro B hB
    rcases mem_append.mp hB with hB | hB
    · obtain ⟨hv, hsub⟩ := (hL A (.head _)).carve hs he hB
      exact ⟨hv, A, .head _, hsub⟩
    · obtain ⟨hv, A', hA', hsub⟩ := ih _ (fun C hC => hL C (.tail _ hC)) B hB
      exact ⟨hv, A', mem_cons_of_mem _ hA', hsub⟩

/-- Carving keeps the order when the range does not run backwards through an area. -/
theorem Ordered.carveAll (h : Ordered L) (denials : List Bool) (hs : pageStart % pageSize = 0)
    (he : pageEnd % pageSize = 0)
    (hback : ∀ A ∈ L, A.Meets pageStart pageEnd → pageStart ≤ pageEnd) :
    Ordered (carveAll pageStart pageEnd denials L) := by
  refine ⟨fun B hB => (carveAll_sub denials h.valid hs he B hB).1, ?_⟩
  induction L generalizing denials with
  | nil => exact Pairwise.nil
  | cons A L ih =>
    have htail : Ordered L := ⟨fun B hB => h.valid B (.tail _ hB), (pairwise_cons.mp h.before).2⟩
    refine pairwise_append.mpr ⟨carve_before (hback A (.head _)),
      ih htail _ fun B hB => hback B (.tail _ hB), fun B hB C hC => ?_⟩
    obtain ⟨-, hBA⟩ := (h.valid A (.head _)).carve hs he hB
    obtain ⟨-, A', hA', hCA'⟩ := carveAll_sub _ htail.valid hs he C hC
    exact hBA.stop_le.trans (((pairwise_cons.mp h.before).1 A' hA').trans hCA'.start_le)

end Carve

/-- Lowering the start of an area over a gap. -/
theorem Ordered.grow {cr2 : ℕ} (h : Ordered (L1 ++ A :: L2))
    (hmiss : ∀ B ∈ L1 ++ A :: L2, ¬(B.start ≤ cr2 ∧ cr2 < B.stop)) (hbelow : cr2 < A.start)
    (hclear : ∀ B ∈ L1 ++ A :: L2, ¬(cr2 < B.start ∧ B.start < A.start)) :
    Ordered (L1 ++ { A with start := pageFloor cr2 } :: L2) := by
  obtain ⟨hp1, hp2, hp12⟩ := pairwise_append.mp h.before
  obtain ⟨hA2, hp2⟩ := pairwise_cons.mp hp2
  have hA := h.valid A (by simp)
  have hfloor : pageFloor cr2 ≤ cr2 := Nat.div_mul_le_self _ _
  have h1 : ∀ B ∈ L1, B.stop ≤ pageFloor cr2 := by
    intro B hB
    have hmem : B ∈ L1 ++ A :: L2 := mem_append_left _ hB
    have hBA := hp12 B hB A (.head _)
    have hv := h.valid B hmem
    have hlt := hv.lt
    have hm := hmiss B hmem
    have hc := hclear B hmem
    have hle : B.stop ≤ cr2 := by omega
    -- the end of `B` is page-aligned, so it is below the page of the address too
    calc B.stop = B.stop / pageSize * pageSize :=
          (Nat.div_mul_cancel (Nat.dvd_of_mod_eq_zero hv.stop_aligned)).symm
      _ ≤ pageFloor cr2 := Nat.mul_le_mul_right _ (Nat.div_le_div_right hle)
  refine ⟨fun B hB => ?_, pairwise_append.mpr
    ⟨hp1, pairwise_cons.mpr ⟨hA2, hp2⟩, fun B hB C hC => ?_⟩⟩
  · rw [mem_append, mem_cons] at hB
    rcases hB with hB | rfl | hB
    · exact h.valid B (mem_append_left _ hB)
    · exact ⟨(hfloor.trans_lt hbelow).trans hA.lt, pageFloor_mod _, hA.stop_aligned, hA.le_max⟩
    · exact h.valid B (mem_append_right _ (.tail _ hB))
  · rcases mem_cons.mp hC with rfl | hC
    · exact h1 B hB
    · exact hp12 B hB C (.tail _ hC)

end Area

namespace Process

/-- The records of the list, by walking it. -/
def vmas (p : Process) : List ℕ := walk p.next p.fuel p.vmaHead

/-- A list of areas of a process, in any order. -/
structure VmaListWf (p : Process) : Prop where
  records : ∀ a ∈ p.vmas, a < p.vmaCount
  links : DList p.next p.prev p.vmaHead p.vmas
  nonempty : ∀ A ∈ p.areas p.vmas, A.start < A.stop
  aligned : ∀ A ∈ p.areas p.vmas, A.start % pageSize = 0 ∧ A.stop % pageSize = 0
  disjoint : (p.areas p.vmas).Pairwise fun A B => A.stop ≤ B.start ∨ B.stop ≤ A.start
  le_max : ∀ A ∈ p.areas p.vmas, A.stop ≤ userSpaceMax

/-- What the list of areas of a process should satisfy. -/
structure VmaListOk (p : Process) : Prop extends p.VmaListWf where
  sorted : (p.areas p.vmas).Pairwise fun A B => A.start < B.start

variable {p : Process}

theorem Rep.vmas_eq {l : List ℕ} (h : p.Rep l) : p.vmas = l :=
  h.list.seg.walk_eq (Nat.lt_succ_of_le h.length_le)

variable {L : List Area}

theorem View.areas_vmas (h : p.View L) : p.areas p.vmas = L := by
  obtain ⟨l, hl, hL⟩ := h
  rw [hl.vmas_eq, hL]

theorem VmaListWf.inSpace (h : p.VmaListWf) (m : Vmm) (root : ℕ) :
    ({ p with vmm := m, pml4 := root } : Process).VmaListWf :=
  ⟨h.records, h.links, h.nonempty, h.aligned, h.disjoint, h.le_max⟩

theorem VmaListWf.view (h : p.VmaListWf) : p.View (p.areas p.vmas) :=
  ⟨p.vmas, ⟨h.links, h.records⟩, rfl⟩

/-- The steps that a walk along the list may take are enough for its areas. -/
theorem View.length_filter_lt (h : p.View L) (q : Area → Bool) : (L.filter q).length < p.fuel := by
  obtain ⟨l, hl, rfl⟩ := h
  have hlen := hl.length_le
  have := length_filter_le q (p.areas l)
  rw [areas, length_map] at this
  rw [fuel, areas]
  omega

/-- The list of the process is an ordered sequence of areas. -/
def Ordered (p : Process) : Prop := ∃ L, p.View L ∧ Area.Ordered L

theorem vmaListOk_iff : p.VmaListOk ↔ p.Ordered := by
  constructor
  · intro h
    refine ⟨p.areas p.vmas, ⟨p.vmas, ⟨h.links, h.records⟩, rfl⟩, fun A hA =>
      ⟨h.nonempty A hA, (h.aligned A hA).1, (h.aligned A hA).2, h.le_max A hA⟩, ?_⟩
    refine (h.sorted.and h.disjoint).imp_of_mem fun {A B} _ hB hAB => ?_
    have hlt := h.nonempty B hB
    omega
  · rintro ⟨L, hview, hL⟩
    have hareas := hview.areas_vmas
    obtain ⟨l, hl, -⟩ := hview
    have hl' : p.Rep p.vmas := hl.vmas_eq.symm ▸ hl
    refine ⟨⟨hl'.lt, hl'.list, ?_, ?_, ?_, ?_⟩, ?_⟩ <;> rw [hareas]
    · exact fun A hA => (hL.valid A hA).lt
    · exact fun A hA => ⟨(hL.valid A hA).start_aligned, (hL.valid A hA).stop_aligned⟩
    · exact hL.before.imp fun h => .inl h
    · exact fun A hA => (hL.valid A hA).le_max
    · refine hL.before.imp_of_mem fun {A B} hA _ hAB => ?_
      exact (hL.valid A hA).lt.trans_le hAB

theorem Ordered.withVmm (h : p.Ordered) (m : Vmm) : ({ p with vmm := m } : Process).Ordered := by
  obtain ⟨L, hview, hL⟩ := h
  exact ⟨L, hview.withVmm m, hL⟩

variable {start size : ℕ}

theorem newArea_valid {flags : VmaFlags}
    (hlt : (newArea start size flags).start < (newArea start size flags).stop)
    (hle : (newArea start size flags).stop ≤ userSpaceMax) : (newArea start size flags).Valid :=
  ⟨hlt, Area.pageFloor_mod _, Area.pageFloor_mod _, hle⟩

/-- `vmaCreate` keeps the order, whatever its range. -/
theorem Ordered.vmaCreate (h : p.Ordered) (start size : ℕ) (flags : VmaFlags) :
    (p.vmaCreate start size flags).2.Ordered := by
  obtain ⟨L, hview, hL⟩ := h
  cases (hview.vmaCreate start size flags).1 with
  | failed _ hview => exact ⟨L, hview, hL⟩
  | created _ L1 L2 hsplit hview' hlt hle hapart hbefore hafter =>
    subst hsplit
    exact ⟨_, hview', hL.insert (newArea_valid hlt hle) hapart hbefore hafter⟩

/-- The range of `vmaDestroy` does not run backwards through an area. -/
def Forwards (p : Process) (pageStart pageEnd : ℕ) : Prop :=
  ∀ A ∈ p.areas p.vmas, A.Meets pageStart pageEnd → pageStart ≤ pageEnd

instance (p : Process) (pageStart pageEnd : ℕ) : Decidable (p.Forwards pageStart pageEnd) :=
  inferInstanceAs (Decidable (∀ A ∈ p.areas p.vmas, A.Meets pageStart pageEnd → pageStart ≤ pageEnd))

theorem Ordered.vmaDestroy (h : p.Ordered)
    (hback : p.Forwards (pageFloor start) (pageFloor (wrap64 (start + size + (pageSize - 1))))) :
    (p.vmaDestroy start size).2.Ordered := by
  by_cases hsize : size = 0
  · rwa [Process.vmaDestroy, if_pos hsize]
  · obtain ⟨L, hview, hL⟩ := h
    rw [Forwards, hview.areas_vmas] at hback
    exact ⟨_, (hview.vmaDestroy start hsize).2.1,
      hL.carveAll _ (Area.pageFloor_mod _) (Area.pageFloor_mod _) hback⟩

/-- The stack area that a fault grows, if it grows one, has no other area between it and the
address. -/
def GrowthClear (p : Process) (cr2 rsp : ℕ) : Prop :=
  match p.vmaFind cr2, scan p.next (p.growable cr2 rsp) p.fuel p.vmaHead with
  | none, some it => ∀ A ∈ p.areas p.vmas, ¬(cr2 < A.start ∧ A.start < (p.area it).start)
  | _, _ => True

instance (p : Process) (cr2 rsp : ℕ) : Decidable (p.GrowthClear cr2 rsp) := by
  unfold GrowthClear
  split <;> infer_instance

theorem Ordered.faultVma (h : p.Ordered) {cr2 rsp : ℕ} (hclear : p.GrowthClear cr2 rsp) :
    (p.faultVma cr2 rsp).2.Ordered := by
  obtain ⟨L, hview, hL⟩ := h
  cases (hview.faultVma cr2 rsp).1 with
  | found _ _ _ _ _ _ _ hview' => exact ⟨L, hview', hL⟩
  | none _ hview' => exact ⟨L, hview', hL⟩
  | grown L1 L2 A hsplit hmiss hbelow vma hfind hscan hA _ _ hview' =>
    rw [GrowthClear, hfind, hscan, hview.areas_vmas] at hclear
    dsimp only at hclear
    rw [hA] at hclear
    subst hsplit
    exact ⟨_, hview', hL.grow hmiss hbelow hclear⟩

/-- A page fault keeps the order unless it grows a stack area over another area. -/
theorem Ordered.vmmPageFaultHandler (h : p.Ordered) {f : Fault}
    (hclear : f.cr2.toNat < userSpaceMax → p.GrowthClear f.cr2.toNat f.rsp.toNat) :
    (p.vmmPageFaultHandler f).2.Ordered := by
  unfold Process.vmmPageFaultHandler
  dsimp only
  split
  · exact h
  rename_i hcr2
  have hvma := h.faultVma (hclear (Nat.lt_of_not_le hcr2))
  generalize p.faultVma f.cr2.toNat f.rsp.toNat = r at hvma
  obtain ⟨vma, p'⟩ := r
  cases vma with
  | none => exact hvma
  | some vma =>
    dsimp only
    split
    · exact hvma
    · exact hvma.withVmm _

end Process

end NovaOS.Mem
