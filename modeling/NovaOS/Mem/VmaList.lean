import NovaOS.Mem.Vma

/-!
# The list of areas

`Rep p l` says that the area records of `p` form the doubly linked list `l`. Under it the routines of
`vmm.c` act on the sequence of areas: `vmaCreate` inserts one, `vmaDestroy` carves a range out of each,
and a page fault may lower the start of one. The links stay consistent whatever the ranges are.
-/

namespace NovaOS.Mem

open NovaOS.Lib List Process Option

/-- An area without its links. -/
structure Area where
  start : ℕ
  stop : ℕ
  flags : VmaFlags
deriving DecidableEq

def Vma.area (v : Vma) : Area := ⟨v.start, v.stop, v.flags⟩

namespace Process

/-- The area of the record at `a`. -/
def area (p : Process) (a : ℕ) : Area := (p.vma a).area

/-- The records `l` are the list of the process, in order. -/
structure Rep (p : Process) (l : List ℕ) : Prop where
  list : DList p.next p.prev p.vmaHead l
  lt : ∀ a ∈ l, a < p.vmaCount

/-- The areas of the list. -/
def areas (p : Process) (l : List ℕ) : List Area := l.map p.area

variable {p : Process} {l : List ℕ}

theorem Rep.length_le (h : p.Rep l) : l.length ≤ p.vmaCount := by
  have hsub : l ⊆ range p.vmaCount := fun a ha => mem_range.mpr (h.lt a ha)
  have hlen := (h.list.nodup.subperm hsub).length_le
  rwa [length_range] at hlen

theorem Rep.scan_eq (h : p.Rep l) (found : ℕ → Bool) :
    scan p.next found p.fuel p.vmaHead = l.find? found :=
  h.list.scan_eq (Nat.lt_succ_of_le h.length_le) found

/-! ## Field writes -/

section Writes

variable (p : Process) (a y : ℕ) (f : Vma → Vma) (ptr v : Option ℕ)

theorem vma_setVma : (p.setVma a f).vma y = if y = a then f (p.vma a) else p.vma y := by
  exact Function.update_apply p.vma a (f (p.vma a)) y

theorem vma_setVma_self : (p.setVma a f).vma a = f (p.vma a) := by
  rw [vma_setVma, if_pos rfl]

variable {a y} in
theorem vma_setVma_of_ne (h : y ≠ a) : (p.setVma a f).vma y = p.vma y := by
  rw [vma_setVma, if_neg h]

theorem next_setVma :
    (p.setVma a f).next y = if y = a then (f (p.vma a)).next else p.next y := by
  rw [next, vma_setVma, apply_ite Vma.next]
  rfl

theorem prev_setVma :
    (p.setVma a f).prev y = if y = a then (f (p.vma a)).prev else p.prev y := by
  rw [prev, vma_setVma, apply_ite Vma.prev]
  rfl

@[simp] theorem vmaHead_setVma : (p.setVma a f).vmaHead = p.vmaHead := rfl

@[simp] theorem vmaHead_setPrev : (p.setPrev ptr v).vmaHead = p.vmaHead := by
  cases ptr <;> rfl

@[simp] theorem vmaCount_setPrev : (p.setPrev ptr v).vmaCount = p.vmaCount := by
  cases ptr <;> rfl

theorem vma_setVma_some :
    (p.setVma a f).vma y = if some a = some y then f (p.vma y) else p.vma y := by
  rw [vma_setVma]
  by_cases h : y = a
  · rw [if_pos h, h, if_pos rfl]
  · rw [if_neg h, if_neg fun hc => h (some.inj hc).symm]

theorem vma_setPrev : (p.setPrev ptr v).vma y =
    if ptr = some y then { p.vma y with prev := v } else p.vma y := by
  cases ptr with
  | none => rfl
  | some a => exact p.vma_setVma_some a y fun x => { x with prev := v }

theorem next_setPrev : (p.setPrev ptr v).next y = p.next y := by
  rw [next, vma_setPrev]
  split <;> rfl

theorem prev_setPrev : (p.setPrev ptr v).prev y = if ptr = some y then v else p.prev y := by
  rw [prev, vma_setPrev]
  split <;> rfl

theorem vma_setNextOrHead : (p.setNextOrHead ptr v).vma y =
    if ptr = some y then { p.vma y with next := v } else p.vma y := by
  cases ptr with
  | none => rfl
  | some a => exact p.vma_setVma_some a y fun x => { x with next := v }

theorem next_setNextOrHead :
    (p.setNextOrHead ptr v).next y = if ptr = some y then v else p.next y := by
  rw [next, vma_setNextOrHead]
  split <;> rfl

theorem prev_setNextOrHead : (p.setNextOrHead ptr v).prev y = p.prev y := by
  rw [prev, vma_setNextOrHead]
  split <;> rfl

theorem vmaHead_setNextOrHead :
    (p.setNextOrHead ptr v).vmaHead = if ptr = none then v else p.vmaHead := by
  cases ptr <;> rfl

@[simp] theorem vmaCount_setNextOrHead : (p.setNextOrHead ptr v).vmaCount = p.vmaCount := by
  cases ptr <;> rfl

end Writes

variable {f : Vma → Vma}

/-- Rewriting a record without its links keeps the list. -/
theorem Rep.setVma (h : p.Rep l) (a : ℕ) (hf : ∀ x, (f x).next = x.next ∧ (f x).prev = x.prev) :
    (p.setVma a f).Rep l := by
  refine ⟨h.list.congr (fun y _ => ?_) fun y _ => ?_, h.lt⟩ <;> by_cases hy : y = a <;>
    simp [next, prev, vma_setVma, hf, hy]

theorem area_setVma_of_ne {a y : ℕ} (h : y ≠ a) : (p.setVma a f).area y = p.area y := by
  rw [area, area, vma_setVma_of_ne p f h]

theorem area_setVma_self (p : Process) (a : ℕ) (f : Vma → Vma) :
    (p.setVma a f).area a = (f (p.vma a)).area := by
  rw [area, vma_setVma_self]

/-- The machine plays no part in the list. -/
theorem Rep.withVmm (h : p.Rep l) (m : Vmm) : ({ p with vmm := m } : Process).Rep l :=
  ⟨h.list, h.lt⟩

/-! ## Taking a record -/

/-- `kmalloc` fails, or returns a record that is in no list. -/
theorem kmallocVma_cases (p : Process) :
    (p.kmallocDenials.head? = some true ∧
        p.kmallocVma = (none, { p with kmallocDenials := p.kmallocDenials.tail })) ∨
      (p.kmallocDenials.head? ≠ some true ∧ p.kmallocVma = (some p.vmaCount,
        { p with kmallocDenials := p.kmallocDenials.tail, vmaCount := p.vmaCount + 1 })) := by
  unfold kmallocVma
  split
  · exact .inl ⟨‹_›, rfl⟩
  · exact .inr ⟨‹_›, rfl⟩

/-- The state after a record was had and filled. -/
def fillVma (p : Process) (x : Vma) : Process :=
  ({ p with
    kmallocDenials := p.kmallocDenials.tail
    vmaCount := p.vmaCount + 1 } : Process).setVma p.vmaCount fun _ => x

/-- The list does not see a record that is filled outside it. -/
theorem Rep.fillVma (h : p.Rep l) (x : Vma) :
    (p.fillVma x).Rep l ∧ p.vmaCount ∉ l ∧ (∀ y ∈ l, (p.fillVma x).vma y = p.vma y) ∧
      (p.fillVma x).vma p.vmaCount = x := by
  have hnot : p.vmaCount ∉ l := fun hmem => absurd (h.lt _ hmem) (lt_irrefl _)
  have hold : ∀ y ∈ l, (p.fillVma x).vma y = p.vma y := fun y hy =>
    vma_setVma_of_ne _ _ fun heq => hnot (heq ▸ hy)
  refine ⟨⟨h.list.congr ?_ ?_, fun y hy => Nat.lt_succ_of_lt (h.lt y hy)⟩, hnot, hold,
    vma_setVma_self _ _ _⟩
  · exact fun y hy => congrArg Vma.next (hold y hy)
  · exact fun y hy => congrArg Vma.prev (hold y hy)

/-! ## Linking and unlinking records -/

section Link

variable {p : Process} {l l₁ l₂ : List ℕ} {vma it : ℕ}

/-- What linking leaves alone: the areas and everything outside the list. -/
structure SameAreas (p p' : Process) : Prop where
  area_eq : ∀ y, p'.area y = p.area y
  count_eq : p'.vmaCount = p.vmaCount
  vmm_eq : p'.vmm = p.vmm
  pml4_eq : p'.pml4 = p.pml4
  handles_eq : p'.handles = p.handles
  denials_eq : p'.kmallocDenials = p.kmallocDenials

theorem SameAreas.trans {p1 p2 p3 : Process} (h : p1.SameAreas p2) (h' : p2.SameAreas p3) :
    p1.SameAreas p3 :=
  ⟨fun y => (h'.area_eq y).trans (h.area_eq y), h'.count_eq.trans h.count_eq,
    h'.vmm_eq.trans h.vmm_eq, h'.pml4_eq.trans h.pml4_eq, h'.handles_eq.trans h.handles_eq,
    h'.denials_eq.trans h.denials_eq⟩

/-- Writes to the links of a record. -/
theorem sameAreas_setVma (p : Process) (a : ℕ) {f : Vma → Vma} (hf : ∀ x, (f x).area = x.area) :
    p.SameAreas (p.setVma a f) := by
  refine ⟨fun y => ?_, rfl, rfl, rfl, rfl, rfl⟩
  rw [area, area, vma_setVma]
  split
  · rename_i heq
    rw [hf, heq]
  · rfl

theorem sameAreas_setPrev (p : Process) (ptr v : Option ℕ) : p.SameAreas (p.setPrev ptr v) := by
  cases ptr with
  | none => exact ⟨fun _ => rfl, rfl, rfl, rfl, rfl, rfl⟩
  | some a => exact sameAreas_setVma p a (f := fun x => { x with prev := v }) fun _ => rfl

theorem sameAreas_setNextOrHead (p : Process) (ptr v : Option ℕ) :
    p.SameAreas (p.setNextOrHead ptr v) := by
  cases ptr with
  | none => exact ⟨fun _ => rfl, rfl, rfl, rfl, rfl, rfl⟩
  | some a => exact sameAreas_setVma p a (f := fun x => { x with next := v }) fun _ => rfl

theorem sameAreas_linkHead (p : Process) (vma : ℕ) : p.SameAreas (p.linkHead vma) := by
  have h := (sameAreas_setVma p vma (f := fun x => { x with next := p.vmaHead }) fun _ => rfl).trans
    (sameAreas_setPrev _ p.vmaHead (some vma))
  exact ⟨h.area_eq, h.count_eq, h.vmm_eq, h.pml4_eq, h.handles_eq, h.denials_eq⟩

theorem sameAreas_linkAfter (p : Process) (vma it : ℕ) : p.SameAreas (p.linkAfter vma it) := by
  refine SameAreas.trans ?_
    (sameAreas_setVma _ it (f := fun x => { x with next := some vma }) fun _ => rfl)
  refine SameAreas.trans ?_ (sameAreas_setPrev _ _ _)
  exact sameAreas_setVma p vma (f := fun x => { x with next := p.next it, prev := some it })
    fun _ => rfl

theorem Rep.linkHead (h : p.Rep l) (hnot : vma ∉ l) (hlt : vma < p.vmaCount)
    (hprev : p.prev vma = none) : (p.linkHead vma).Rep (vma :: l) := by
  have hne : p.vmaHead ≠ some vma := by
    rw [h.list.head_eq]
    exact fun hc => hnot (mem_of_head? hc)
  have hmem : ∀ {y}, y ∈ l → y ≠ vma := fun hy heq => hnot (heq ▸ hy)
  have hnext := fun y => p.next_setVma vma y fun x => { x with next := p.vmaHead }
  have hold := fun y => p.prev_setVma vma y fun x => { x with next := p.vmaHead }
  refine ⟨h.list.insertHead hnot ((next_setPrev ..).trans ?_) ((prev_setPrev ..).trans ?_)
    (fun y hy => (next_setPrev ..).trans ?_) (fun y hy => (prev_setPrev ..).trans ?_), ?_⟩
  · rw [hnext, if_pos rfl]
  · rw [if_neg hne, hold, if_pos rfl]
    exact hprev
  · rw [hnext, if_neg (hmem hy)]
  · rw [hold, if_neg (hmem hy)]
  · intro y hy
    rw [(sameAreas_linkHead p vma).count_eq]
    rcases mem_cons.mp hy with rfl | hy
    · exact hlt
    · exact h.lt y hy

theorem Rep.linkAfter (h : p.Rep (l₁ ++ it :: l₂)) (hnot : vma ∉ l₁ ++ it :: l₂)
    (hlt : vma < p.vmaCount) : (p.linkAfter vma it).Rep (l₁ ++ it :: vma :: l₂) := by
  have hnodup := h.list.nodup
  rw [nodup_middle, nodup_cons] at hnodup
  have hit : it ≠ vma := fun heq => hnot (heq ▸ by simp)
  have hvma : ∀ {y}, y ∈ l₁ ++ l₂ → y ≠ vma := by
    rintro y hy rfl
    exact hnot (((sublist_cons_self it l₂).append_left l₁).subset hy)
  have hne : ∀ {y}, y ∈ l₁ ++ l₂ → y ≠ it := fun hy heq => hnodup.1 (heq ▸ hy)
  have hnext : ∀ {y}, p.next it = some y → y ∈ l₁ ++ l₂ := by
    intro y hy
    rw [h.list.next_eq] at hy
    exact mem_append_right _ (mem_of_head? hy)
  have hlist : DList (p.linkAfter vma it).next (p.linkAfter vma it).prev p.vmaHead
      (l₁ ++ it :: vma :: l₂) := by
    refine h.list.insertAfter hnot ?_ ?_ ?_ ?_ (fun y hy => ?_) fun y hy => ?_
    all_goals rw [Process.linkAfter]
    · rw [next_setVma, if_pos rfl]
    · rw [prev_setVma, if_pos rfl]
      refine (prev_setPrev ..).trans ?_
      rw [if_neg fun hc => hne (hnext hc) rfl, prev_setVma, if_neg hit]
    · rw [next_setVma, if_neg hit.symm, next_setPrev, next_setVma, if_pos rfl]
    · rw [prev_setVma, if_neg hit.symm, prev_setPrev, if_neg fun hc => hvma (hnext hc) rfl,
        prev_setVma, if_pos rfl]
    · rw [next_setVma, if_neg (hne hy), next_setPrev, next_setVma, if_neg (hvma hy)]
    · rw [prev_setVma, if_neg (hne hy), prev_setPrev, prev_setVma, if_neg (hvma hy)]
  have hhead : (p.linkAfter vma it).vmaHead = p.vmaHead := by
    rw [Process.linkAfter, vmaHead_setVma, vmaHead_setPrev]
    rfl
  refine ⟨hhead ▸ hlist, fun y hy => ?_⟩
  rw [(sameAreas_linkAfter p vma it).count_eq]
  by_cases hyv : y = vma
  · rwa [hyv]
  · exact h.lt y (by simpa [hyv] using hy)

/-- Unlinking a record. -/
theorem Rep.unlink (h : p.Rep (l₁ ++ it :: l₂)) :
    ((p.setNextOrHead (p.prev it) (p.next it)).setPrev (p.next it) (p.prev it)).Rep (l₁ ++ l₂) := by
  refine ⟨h.list.remove ?_ ?_ ?_, fun y hy => ?_⟩
  · rw [vmaHead_setPrev, vmaHead_setNextOrHead]
  · intro y _
    rw [next_setPrev, next_setNextOrHead]
  · intro y _
    rw [prev_setPrev, prev_setNextOrHead]
  · rw [vmaCount_setPrev, vmaCount_setNextOrHead]
    refine h.lt y ?_
    exact ((sublist_cons_self it l₂).append_left l₁).subset hy

/-- Linking a filled record in: it lands after records that start no later, and the next record starts
no earlier. -/
theorem Rep.linkVma (h : p.Rep l) (pageStart : ℕ) (hnot : vma ∉ l) (hlt : vma < p.vmaCount)
    (hprev : p.prev vma = none) :
    p.SameAreas (p.linkVma vma pageStart) ∧
      ∃ l₁ l₂, l = l₁ ++ l₂ ∧ (p.linkVma vma pageStart).Rep (l₁ ++ vma :: l₂) ∧
        (∀ y ∈ l₁, (p.area y).start ≤ pageStart) ∧
        ∀ y, l₂.head? = some y → pageStart ≤ (p.area y).start := by
  unfold Process.linkVma
  cases l with
  | nil =>
    have hnil : p.vmaHead = none := h.list.head_eq
    simp only [hnil]
    exact ⟨sameAreas_linkHead p vma, [], [], rfl, h.linkHead hnot hlt hprev, by simp, by simp⟩
  | cons a l =>
    have hcons : p.vmaHead = some a := h.list.head_eq
    simp only [hcons]
    split
    · rename_i hbefore
      refine ⟨sameAreas_linkHead p vma, [], a :: l, rfl, h.linkHead hnot hlt hprev, by simp, ?_⟩
      intro y hy
      obtain rfl := some.inj hy
      exact le_of_lt hbefore
    · rename_i hbefore
      have hseg := h.list.seg
      rw [hcons] at hseg
      have hlen := h.length_le
      rw [length_cons] at hlen
      obtain ⟨l₁, l₂, hl, hahead, hstop⟩ := hseg.advance_eq
        (show l.length ≤ p.fuel by rw [fuel]; omega) fun b => decide ((p.vma b).start < pageStart)
      set it := advance p.next (fun b => decide ((p.vma b).start < pageStart)) p.fuel a
      rw [hl] at h hnot ⊢
      refine ⟨sameAreas_linkAfter p vma it, l₁ ++ [it], l₂, by simp, ?_, ?_, ?_⟩
      · rw [append_assoc]
        exact h.linkAfter hnot hlt
      · intro y hy
        by_cases hya : y = a
        · rw [hya]
          exact Nat.le_of_not_lt hbefore
        · exact le_of_lt (of_decide_eq_true (hahead y hy hya))
      · intro y hy
        exact Nat.le_of_not_lt (of_decide_eq_false (hstop y hy))

end Link

/-! ## The list as a sequence of areas -/

/-- The areas of the process, in list order. -/
def View (p : Process) (L : List Area) : Prop := ∃ l, p.Rep l ∧ p.areas l = L

theorem areas_congr {p' : Process} (h : ∀ y ∈ l, p'.area y = p.area y) : p'.areas l = p.areas l :=
  map_congr_left h

/-- The areas around one record. -/
theorem areas_middle {p' : Process} {l₁ l₂ : List ℕ} {x : ℕ}
    (h : ∀ y ∈ l₁ ++ l₂, p'.area y = p.area y) :
    p'.areas (l₁ ++ x :: l₂) = p.areas l₁ ++ p'.area x :: p.areas l₂ := by
  rw [← areas_congr fun y hy => h y (mem_append_left _ hy),
    ← areas_congr fun y hy => h y (mem_append_right _ hy)]
  exact map_append

variable {L : List Area}

theorem View.withVmm (h : p.View L) (m : Vmm) : ({ p with vmm := m } : Process).View L := by
  obtain ⟨l, hl, hL⟩ := h
  exact ⟨l, hl.withVmm m, hL⟩

/-- Everything of a process but its list of areas. -/
structure SameMachine (p p' : Process) : Prop where
  vmm_eq : p'.vmm = p.vmm
  pml4_eq : p'.pml4 = p.pml4
  handles_eq : p'.handles = p.handles

/-- What `vmaCreate` does to the areas: nothing, or it inserts the new one. -/
inductive CreatePost (p : Process) (L : List Area) (A : Area) (r : Option ℕ × Process) : Prop where
  | failed (hr : r.1 = none) (hview : r.2.View L)
  | created (hr : r.1 ≠ none) (L₁ L₂ : List Area) (hL : L = L₁ ++ L₂)
      (hview : r.2.View (L₁ ++ A :: L₂)) (hlt : A.start < A.stop) (hle : A.stop ≤ userSpaceMax)
      (hapart : ∀ B ∈ L, ¬(A.start < B.stop ∧ A.stop > B.start))
      (hbefore : ∀ B ∈ L₁, B.start ≤ A.start)
      (hafter : ∀ B, L₂.head? = some B → A.start ≤ B.start)

/-- The area that `vmaCreate` makes. -/
def newArea (start size : ℕ) (flags : VmaFlags) : Area :=
  ⟨pageFloor start, pageFloor (wrap64 (start + size + (pageSize - 1))), flags⟩

theorem View.vmaCreate (h : p.View L) (start size : ℕ) (flags : VmaFlags) :
    CreatePost p L (newArea start size flags) (p.vmaCreate start size flags) ∧
      p.SameMachine (p.vmaCreate start size flags).2 := by
  have hidle : p.SameMachine p := ⟨rfl, rfl, rfl⟩
  unfold Process.vmaCreate
  split
  · exact ⟨.failed rfl h, hidle⟩
  dsimp only
  split
  · exact ⟨.failed rfl h, hidle⟩
  split
  · exact ⟨.failed rfl h, hidle⟩
  rename_i hscan
  obtain ⟨l, hl, rfl⟩ := h
  have hlt : pageFloor start < pageFloor (wrap64 (start + size + (pageSize - 1))) := by omega
  set pageStart := pageFloor start with hps
  set pageEnd := pageFloor (wrap64 (start + size + (pageSize - 1))) with hpe
  rcases p.kmallocVma_cases with ⟨-, hk⟩ | ⟨-, hk⟩ <;> rw [hk] <;> dsimp only
  · exact ⟨.failed rfl ⟨l, ⟨hl.list, hl.lt⟩, rfl⟩, ⟨rfl, rfl, rfl⟩⟩
  obtain ⟨hq_rep, hnot, hold, hnew⟩ := hl.fillVma ⟨pageStart, pageEnd, flags, none, none⟩
  rw [← fillVma]
  set q := p.fillVma ⟨pageStart, pageEnd, flags, none, none⟩
  obtain ⟨hsame, l₁, l₂, hsplit, hrep, hbefore, hafter⟩ := hq_rep.linkVma pageStart
    hnot (Nat.lt_succ_self _) (congrArg Vma.prev hnew)
  have harea : ∀ y ∈ l, q.area y = p.area y := fun y hy => congrArg Vma.area (hold y hy)
  have hmem : ∀ {y}, y ∈ l₁ ∨ y ∈ l₂ → y ∈ l := fun hy => hsplit ▸ mem_append.mpr hy
  refine ⟨.created (by simp) (p.areas l₁) (p.areas l₂) ?_ ⟨_, hrep, ?_⟩ hlt (by
    show pageEnd ≤ userSpaceMax
    omega) ?_ ?_ ?_, ⟨hsame.vmm_eq, hsame.pml4_eq, hsame.handles_eq⟩⟩
  · rw [hsplit]
    exact map_append
  · rw [areas_congr fun y _ => hsame.area_eq y,
      areas_middle fun y hy => harea y (hmem (mem_append.mp hy)), area, hnew]
    rfl
  · rintro B hB ⟨h1, h2⟩
    obtain ⟨y, hy, rfl⟩ := mem_map.mp hB
    rw [hl.scan_eq] at hscan
    refine hscan (find?_isSome.mpr ⟨y, hy, ?_⟩)
    exact Bool.and_eq_true_iff.mpr ⟨decide_eq_true h1, decide_eq_true h2⟩
  · intro B hB
    obtain ⟨y, hy, rfl⟩ := mem_map.mp hB
    rw [← harea y (hmem (.inl hy))]
    exact hbefore y hy
  · intro B hB
    rw [areas, head?_map, map_eq_some_iff] at hB
    obtain ⟨y, hy, rfl⟩ := hB
    rw [← harea y (hmem (.inr (mem_of_head? hy)))]
    exact hafter y hy

/-! ## `vmaDestroy` -/

end Process

namespace Area

/-- The area meets the range. -/
def Meets (A : Area) (pageStart pageEnd : ℕ) : Prop := A.stop > pageStart ∧ A.start < pageEnd

instance (A : Area) (pageStart pageEnd : ℕ) : Decidable (A.Meets pageStart pageEnd) :=
  inferInstanceAs (Decidable (_ ∧ _))

/-- The range lies strictly inside the area, which is then split in two. -/
def Splits (A : Area) (pageStart pageEnd : ℕ) : Prop :=
  A.Meets pageStart pageEnd ∧ A.start < pageStart ∧ A.stop > pageEnd

instance (A : Area) (pageStart pageEnd : ℕ) : Decidable (A.Splits pageStart pageEnd) :=
  inferInstanceAs (Decidable (_ ∧ _))

/-- What is left of an area after `vmaDestroy`; `split` says whether the record for the right part of
a split could be had. -/
def carve (A : Area) (pageStart pageEnd : ℕ) (split : Bool) : List Area :=
  if ¬A.Meets pageStart pageEnd then [A]
  else if A.start ≥ pageStart ∧ A.stop ≤ pageEnd then []
  else if A.start < pageStart ∧ A.stop > pageEnd then
    if split then [{ A with stop := pageStart }, { A with start := pageEnd }]
    else [{ A with stop := pageStart }]
  else if A.start < pageStart then [{ A with stop := pageStart }]
  else [{ A with start := pageEnd }]

section Carve

variable {A : Area} {pageStart pageEnd : ℕ} {split : Bool}

theorem carve_apart (h : ¬A.Meets pageStart pageEnd) : A.carve pageStart pageEnd split = [A] :=
  if_pos h

section

variable (h : A.Meets pageStart pageEnd)
include h

theorem carve_inside (h1 : A.start ≥ pageStart ∧ A.stop ≤ pageEnd) :
    A.carve pageStart pageEnd split = [] := by
  rw [carve, if_neg (not_not.mpr h), if_pos h1]

theorem carve_around (h1 : A.start < pageStart ∧ A.stop > pageEnd) :
    A.carve pageStart pageEnd split =
      if split then [{ A with stop := pageStart }, { A with start := pageEnd }]
      else [{ A with stop := pageStart }] := by
  rw [carve, if_neg (not_not.mpr h), if_neg (by omega), if_pos h1]

theorem carve_left (h1 : A.start < pageStart) (h2 : A.stop ≤ pageEnd) :
    A.carve pageStart pageEnd split = [{ A with stop := pageStart }] := by
  rw [carve, if_neg (not_not.mpr h), if_neg (by omega), if_neg (by omega), if_pos h1]

theorem carve_right (h1 : pageStart ≤ A.start) (h2 : pageEnd < A.stop) :
    A.carve pageStart pageEnd split = [{ A with start := pageEnd }] := by
  rw [carve, if_neg (not_not.mpr h), if_neg (by omega), if_neg (by omega), if_neg (by omega)]

end

end Carve

/-- The pages of an area that `vmaDestroy` unmaps and frees. -/
def release (pml4 pageStart pageEnd : ℕ) (m : Vmm) (A : Area) : Vmm :=
  if A.Meets pageStart pageEnd then
    let unmapStart := if A.start > pageStart then A.start else pageStart
    let unmapEnd := if A.stop < pageEnd then A.stop else pageEnd
    unmapAndFree pml4 ((unmapEnd - unmapStart + (pageSize - 1)) / pageSize) unmapStart m
  else m

/-- The sequence of areas after `vmaDestroy`; `denials` are the answers of `kmalloc`, one of which is
used by each split. -/
def carveAll (pageStart pageEnd : ℕ) : (denials : List Bool) → List Area → List Area
  | _, [] => []
  | denials, A :: L =>
    A.carve pageStart pageEnd (decide (denials.head? ≠ some true)) ++
      carveAll pageStart pageEnd (if A.Splits pageStart pageEnd then denials.tail else denials) L

end Area

namespace Process

section Destroy

variable {p : Process} {l₁ l₂ : List ℕ} {curr pageStart pageEnd : ℕ}

/-- What one turn of the loop of `vmaDestroy` leaves: the current area carved, with its pages released,
and the others as they were. -/
structure Carved (p p' : Process) (l₁ l₂ : List ℕ) (curr pageStart pageEnd : ℕ) : Prop where
  rep : ∃ mid, p'.Rep (l₁ ++ mid ++ l₂) ∧ p'.areas mid =
    (p.area curr).carve pageStart pageEnd (decide (p.kmallocDenials.head? ≠ some true))
  denials_eq : p'.kmallocDenials =
    if (p.area curr).Splits pageStart pageEnd then p.kmallocDenials.tail else p.kmallocDenials
  area_eq : ∀ y ∈ l₁ ++ l₂, p'.area y = p.area y
  vmm_eq : p'.vmm = Area.release p.pml4 pageStart pageEnd p.vmm (p.area curr)
  pml4_eq : p'.pml4 = p.pml4
  handles_eq : p'.handles = p.handles

theorem Rep.ne_of_mem (h : p.Rep (l₁ ++ curr :: l₂)) {y : ℕ} (hy : y ∈ l₁ ++ l₂) : y ≠ curr := by
  have hnodup := h.list.nodup
  rw [nodup_middle, nodup_cons] at hnodup
  exact fun heq => hnodup.1 (heq ▸ hy)

variable {q : Process}

/-- An area cut at one end. -/
theorem Rep.carved_cut (h : p.Rep (l₁ ++ curr :: l₂)) {f : Vma → Vma}
    (hrep : q.Rep (l₁ ++ curr :: l₂)) (hvma : q.vma = p.vma)
    (hdenials : q.kmallocDenials = if (p.area curr).Splits pageStart pageEnd then
      p.kmallocDenials.tail else p.kmallocDenials)
    (hvmm : q.vmm = Area.release p.pml4 pageStart pageEnd p.vmm (p.area curr))
    (hpml4 : q.pml4 = p.pml4) (hhandles : q.handles = p.handles)
    (hf : ∀ x, (f x).next = x.next ∧ (f x).prev = x.prev)
    (hcarve : (p.area curr).carve pageStart pageEnd
      (decide (p.kmallocDenials.head? ≠ some true)) = [(f (p.vma curr)).area]) :
    Carved p (q.setVma curr f) l₁ l₂ curr pageStart pageEnd := by
  refine ⟨⟨[curr], by simpa using hrep.setVma curr hf, ?_⟩, hdenials, fun y hy => ?_, hvmm, hpml4,
    hhandles⟩
  · rw [hcarve, areas, map_singleton, area_setVma_self, hvma]
  · rw [area_setVma_of_ne (h.ne_of_mem hy), area, hvma]
    rfl

/-- An area split in two. -/
theorem Rep.carved_split (h : p.Rep (l₁ ++ curr :: l₂)) (hrep : q.Rep (l₁ ++ curr :: l₂))
    (hvma : q.vma = p.vma)
    (hvmm : q.vmm = Area.release p.pml4 pageStart pageEnd p.vmm (p.area curr))
    (hpml4 : q.pml4 = p.pml4) (hhandles : q.handles = p.handles)
    (hdenials : q.kmallocDenials = p.kmallocDenials) (hhead : p.kmallocDenials.head? ≠ some true)
    (hsplits : (p.area curr).Splits pageStart pageEnd) :
    Carved p (((q.fillVma ⟨pageEnd, (p.vma curr).stop, (p.vma curr).flags, none, none⟩).linkAfter
      q.vmaCount curr).setVma curr fun x => { x with stop := pageStart }) l₁ l₂ curr pageStart
      pageEnd := by
  obtain ⟨hrep', hnot, hold, hnew⟩ :=
    hrep.fillVma ⟨pageEnd, (p.vma curr).stop, (p.vma curr).flags, none, none⟩
  set q' := q.fillVma ⟨pageEnd, (p.vma curr).stop, (p.vma curr).flags, none, none⟩
  have hlink := hrep'.linkAfter hnot (Nat.lt_succ_self _)
  have hsame := sameAreas_linkAfter q' q.vmaCount curr
  have hne : q.vmaCount ≠ curr := fun heq => hnot (heq ▸ by simp)
  have harea : ∀ y ∈ l₁ ++ curr :: l₂, (q'.linkAfter q.vmaCount curr).area y = p.area y := by
    intro y hy
    rw [hsame.area_eq, area, hold y hy, hvma]
    rfl
  refine ⟨⟨[curr, q.vmaCount], ?_, ?_⟩, ?_, fun y hy => ?_, hsame.vmm_eq.trans hvmm,
    hsame.pml4_eq.trans hpml4, hsame.handles_eq.trans hhandles⟩
  · have hcut := hlink.setVma curr (f := fun x => { x with stop := pageStart }) fun _ => ⟨rfl, rfl⟩
    simpa using hcut
  · have hright : q'.area q.vmaCount = { p.area curr with start := pageEnd } :=
      congrArg Vma.area hnew
    rw [Area.carve_around hsplits.1 hsplits.2, if_pos (decide_eq_true hhead), areas, map_cons,
      map_singleton, area_setVma_self, area_setVma_of_ne hne, hsame.area_eq, hright,
      ← harea curr (by simp)]
    rfl
  · rw [if_pos hsplits, ← hdenials]
    exact hsame.denials_eq
  · rw [area_setVma_of_ne (h.ne_of_mem hy)]
    exact harea y (((sublist_cons_self curr l₂).append_left l₁).subset hy)

/-- The body of the loop of `vmaDestroy`. -/
theorem Rep.destroyVma (h : p.Rep (l₁ ++ curr :: l₂)) (hmeet : (p.area curr).Meets pageStart pageEnd) :
    Carved p (p.destroyVma pageStart pageEnd curr) l₁ l₂ curr pageStart pageEnd := by
  unfold Process.destroyVma
  dsimp only
  have hvmm : unmapAndFree p.pml4 _ _ p.vmm =
      Area.release p.pml4 pageStart pageEnd p.vmm (p.area curr) := (if_pos hmeet).symm
  set m := unmapAndFree p.pml4 _ _ p.vmm
  have hrep : ({ p with vmm := m } : Process).Rep (l₁ ++ curr :: l₂) := h.withVmm m
  split
  · rename_i hinside
    have hsame := (sameAreas_setNextOrHead ({ p with vmm := m } : Process) (p.vma curr).prev
      (p.vma curr).next).trans (sameAreas_setPrev _ (p.vma curr).next (p.vma curr).prev)
    refine ⟨⟨[], by rw [append_nil]; exact hrep.unlink, ?_⟩, ?_, fun y _ => hsame.area_eq y,
      hsame.vmm_eq.trans hvmm, hsame.pml4_eq, hsame.handles_eq⟩
    · rw [Area.carve_inside hmeet hinside]
      rfl
    · rw [if_neg fun hs => absurd hs.2.1 (not_lt.mpr hinside.1)]
      exact hsame.denials_eq
  split
  · rename_i hsplit
    rcases kmallocVma_cases ({ p with vmm := m } : Process) with ⟨hhead, hk⟩ | ⟨hhead, hk⟩ <;>
      rw [hk] <;> dsimp only
    · -- no record for the right part: the area is only cut
      refine h.carved_cut ⟨hrep.list, hrep.lt⟩ rfl (if_pos ⟨hmeet, hsplit⟩).symm hvmm rfl rfl
        (fun _ => ⟨rfl, rfl⟩) ?_
      rw [Area.carve_around hmeet hsplit, if_neg (by simpa using hhead)]
      rfl
    · exact h.carved_split hrep rfl hvmm rfl rfl rfl hhead ⟨hmeet, hsplit⟩
  rename_i hsplit
  have hdenials : p.kmallocDenials = if (p.area curr).Splits pageStart pageEnd then
      p.kmallocDenials.tail else p.kmallocDenials := (if_neg fun hs => hsplit hs.2).symm
  split
  · rename_i hleft
    have hstop : (p.vma curr).stop ≤ pageEnd := by omega
    exact h.carved_cut hrep rfl hdenials hvmm rfl rfl (fun _ => ⟨rfl, rfl⟩)
      (Area.carve_left hmeet hleft hstop)
  · rename_i hleft
    have hstop : pageEnd < (p.vma curr).stop := by omega
    exact h.carved_cut hrep rfl hdenials hvmm rfl rfl (fun _ => ⟨rfl, rfl⟩)
      (Area.carve_right hmeet (Nat.le_of_not_lt hleft) hstop)

variable (pageStart pageEnd) in
/-- One turn of the loop of `vmaDestroy`. -/
theorem Rep.destroyTurn (h : p.Rep (l₁ ++ curr :: l₂)) :
    Carved p (if (p.vma curr).stop > pageStart ∧ (p.vma curr).start < pageEnd then
      p.destroyVma pageStart pageEnd curr else p) l₁ l₂ curr pageStart pageEnd := by
  split
  · exact h.destroyVma ‹_›
  · rename_i hmeet
    change ¬(p.area curr).Meets pageStart pageEnd at hmeet
    refine ⟨⟨[curr], by simpa using h, ?_⟩, (if_neg fun hs => hmeet hs.1).symm, fun _ _ => rfl,
      (if_neg hmeet).symm, rfl, rfl⟩
    rw [Area.carve_apart hmeet]
    rfl

/-- What `vmaDestroy` leaves. -/
structure DestroyPost (p p' : Process) (L : List Area) (pageStart pageEnd : ℕ) : Prop where
  vmm_eq : p'.vmm = L.foldl (Area.release p.pml4 pageStart pageEnd) p.vmm
  pml4_eq : p'.pml4 = p.pml4
  handles_eq : p'.handles = p.handles

variable (pageStart pageEnd) in
/-- The loop of `vmaDestroy`, with `l₁` behind it and `l₂` ahead. -/
theorem Rep.destroyLoop {fuel : ℕ} (h : p.Rep (l₁ ++ l₂)) (hfuel : l₂.length < fuel) :
    (destroyLoop pageStart pageEnd fuel l₂.head? p).View
        (p.areas l₁ ++ Area.carveAll pageStart pageEnd p.kmallocDenials (p.areas l₂)) ∧
      DestroyPost p (destroyLoop pageStart pageEnd fuel l₂.head? p) (p.areas l₂) pageStart
        pageEnd := by
  induction l₂ generalizing p l₁ fuel with
  | nil =>
    have hdone : destroyLoop pageStart pageEnd fuel none p = p := by
      cases fuel <;> rfl
    rw [head?_nil, hdone]
    refine ⟨⟨l₁ ++ [], h, ?_⟩, rfl, rfl, rfl⟩
    rw [append_nil]
    exact (append_nil _).symm
  | cons curr l₂ ih =>
    cases fuel with
    | zero => exact absurd hfuel (Nat.not_lt_zero _)
    | succ fuel =>
      rw [length_cons] at hfuel
      have hturn := h.destroyTurn pageStart pageEnd
      rw [head?_cons, destroyLoop, h.list.next_eq]
      set p' := if (p.vma curr).stop > pageStart ∧ (p.vma curr).start < pageEnd then
        p.destroyVma pageStart pageEnd curr else p
      obtain ⟨mid, hrep, hmid⟩ := hturn.rep
      obtain ⟨hview, hpost⟩ := ih hrep (show l₂.length < fuel by omega)
      have h1 : p'.areas l₁ = p.areas l₁ :=
        areas_congr fun y hy => hturn.area_eq y (mem_append_left _ hy)
      have h2 : p'.areas l₂ = p.areas l₂ :=
        areas_congr fun y hy => hturn.area_eq y (mem_append_right _ hy)
      refine ⟨?_, ?_, hpost.pml4_eq.trans hturn.pml4_eq, hpost.handles_eq.trans hturn.handles_eq⟩
      · have happ : p'.areas (l₁ ++ mid) = p.areas l₁ ++ _ := map_append.trans (congrArg₂ _ h1 hmid)
        rw [happ, append_assoc, h2, hturn.denials_eq] at hview
        exact hview
      · rw [hpost.vmm_eq, h2, hturn.vmm_eq, hturn.pml4_eq]
        rfl

/-- `vmaDestroy` carves its range out of every area. -/
theorem View.vmaDestroy {L : List Area} (h : p.View L) (start : ℕ) {size : ℕ} (hsize : size ≠ 0) :
    (p.vmaDestroy start size).1 = 0 ∧
      (p.vmaDestroy start size).2.View (Area.carveAll (pageFloor start)
        (pageFloor (wrap64 (start + size + (pageSize - 1)))) p.kmallocDenials L) ∧
      DestroyPost p (p.vmaDestroy start size).2 L (pageFloor start)
        (pageFloor (wrap64 (start + size + (pageSize - 1)))) := by
  obtain ⟨l, hl, rfl⟩ := h
  rw [Process.vmaDestroy, if_neg hsize]
  refine ⟨rfl, ?_⟩
  have hloop := Rep.destroyLoop (pageFloor start)
    (pageFloor (wrap64 (start + size + (pageSize - 1)))) (show p.Rep ([] ++ l) from hl)
    (Nat.lt_succ_of_le hl.length_le)
  rw [← hl.list.head_eq] at hloop
  exact hloop

end Destroy

/-! ## Page faults -/

/-- What the search for the area of a fault does: it finds the area of the address, lowers the start
of a stack area to the page of the address, or fails. -/
inductive FaultPost (p : Process) (L : List Area) (cr2 rsp : ℕ) (r : Option ℕ × Process) : Prop where
  | found (A : Area) (hA : A ∈ L) (hmem : A.start ≤ cr2 ∧ cr2 < A.stop) (vma : ℕ)
      (hfind : p.vmaFind cr2 = some vma) (hr : r.1 = some vma) (harea : r.2.area vma = A)
      (hview : r.2.View L)
  | grown (L₁ L₂ : List Area) (A : Area) (hL : L = L₁ ++ A :: L₂)
      (hmiss : ∀ B ∈ L, ¬(B.start ≤ cr2 ∧ cr2 < B.stop)) (hbelow : cr2 < A.start) (vma : ℕ)
      (hfind : p.vmaFind cr2 = none)
      (hscan : scan p.next (p.growable cr2 rsp) p.fuel p.vmaHead = some vma)
      (hA : p.area vma = A) (hr : r.1 = some vma) (harea : r.2.area vma = { A with start := pageFloor cr2 })
      (hview : r.2.View (L₁ ++ { A with start := pageFloor cr2 } :: L₂))
  | none (hr : r.1 = none) (hview : r.2.View L)

theorem View.faultVma {p : Process} {L : List Area} (h : p.View L) (cr2 rsp : ℕ) :
    FaultPost p L cr2 rsp (p.faultVma cr2 rsp) ∧ p.SameMachine (p.faultVma cr2 rsp).2 := by
  obtain ⟨l, hl, rfl⟩ := h
  have hvmaFind : p.vmaFind cr2 = l.find? _ := hl.scan_eq _
  have hscan := hl.scan_eq (p.growable cr2 rsp)
  unfold Process.faultVma
  cases hfind : p.vmaFind cr2 with
  | some vma =>
    rw [hvmaFind] at hfind
    have hp := find?_some hfind
    rw [Bool.and_eq_true, decide_eq_true_eq, decide_eq_true_eq] at hp
    exact ⟨.found (p.area vma) (mem_map_of_mem (mem_of_find?_eq_some hfind)) hp vma
      (hvmaFind.trans hfind) rfl rfl ⟨l, hl, rfl⟩, ⟨rfl, rfl, rfl⟩⟩
  | none =>
    rw [hvmaFind] at hfind
    have hmiss : ∀ B ∈ p.areas l, ¬(B.start ≤ cr2 ∧ cr2 < B.stop) := by
      rintro B hB ⟨h1, h2⟩
      obtain ⟨y, hy, rfl⟩ := mem_map.mp hB
      exact find?_eq_none.mp hfind y hy
        (Bool.and_eq_true_iff.mpr ⟨decide_eq_true h1, decide_eq_true h2⟩)
    cases hgrow : scan p.next (p.growable cr2 rsp) p.fuel p.vmaHead with
    | none => exact ⟨.none rfl ⟨l, hl, rfl⟩, ⟨rfl, rfl, rfl⟩⟩
    | some it =>
      obtain ⟨hp, l₁, l₂, hsplit, -⟩ := find?_eq_some_iff_append.mp (hscan ▸ hgrow)
      have hbelow : cr2 < (p.area it).start := by
        simp only [growable, Bool.and_eq_true, decide_eq_true_eq] at hp
        exact hp.1.1.2
      have hrep := hl.setVma it (f := fun x => { x with start := pageFloor cr2 })
        fun _ => ⟨rfl, rfl⟩
      rw [hsplit] at hl
      refine ⟨.grown (p.areas l₁) (p.areas l₂) (p.area it) ?_ hmiss hbelow it
        (hvmaFind.trans hfind) hgrow rfl rfl
        (area_setVma_self p it fun x => { x with start := pageFloor cr2 }) ⟨l, hrep, ?_⟩,
        ⟨rfl, rfl, rfl⟩⟩
      · rw [hsplit]
        exact map_append
      · rw [hsplit, areas_middle fun y hy => area_setVma_of_ne (hl.ne_of_mem hy), area_setVma_self]
        rfl

end Process

end NovaOS.Mem
