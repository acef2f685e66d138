import NovaOS.Mem.PmmSpec

/-!
# Runs of the frame allocator from boot

`pmm_init` establishes the allocator's invariant with frame 0 used. Over any sequence of the five
routines by callers who free only what they hold, the frames handed out stay apart from each other
and from the frames reserved at boot.
-/

namespace NovaOS.Mem

open NovaOS.Lib Finset Function

/-! ## `pmm_init` -/

/-- Frame `f` lies in the descriptor. -/
def EfiMemoryDescriptor.Contains (desc : EfiMemoryDescriptor) (f : ℕ) : Prop :=
  desc.physicalStart ≤ f * pageSize ∧ f * pageSize < desc.physicalStart + desc.numberOfPages * pageSize

/-- A descriptor of whole pages below 2^52. -/
def EfiMemoryDescriptor.Valid (desc : EfiMemoryDescriptor) : Prop :=
  desc.physicalStart % pageSize = 0 ∧ desc.physicalStart + desc.numberOfPages * pageSize ≤ 2 ^ 52

namespace Pmm

theorem highestPhys_lt (m : BootMemoryMap) : highestPhys m < 2 ^ 64 := by
  refine forUp_invariant (fun _ h => h < 2 ^ 64) (Nat.zero_le _) (by decide) ?_
  intro i highest _ _ hlt
  dsimp only
  have hwrap := wrap64_lt
    ((m.descriptor i).physicalStart + (m.descriptor i).numberOfPages * pageSize)
  split
  · split
    · exact hwrap
    · exact hlt
  · exact hlt

/-- Every word of the bitmap is filled with ones. -/
theorem fillBitmap_apply {words i : ℕ} (hi : i < words) (b : Bitmap 64) :
    fillBitmap words b i = BitVec.allOnes 64 := by
  have hloop : ∀ j, j < words → fillBitmap words b j = BitVec.allOnes 64 := by
    refine forUp_invariant
      (fun n (t : Bitmap 64) => ∀ j, j < n → t j = BitVec.allOnes 64) (Nat.zero_le _)
      (fun j hj => absurd hj (Nat.not_lt_zero _)) ?_
    intro n t _ _ ht j hj
    by_cases hjn : j = n
    · rw [hjn, update_self]
    · rw [update_of_ne hjn]
      exact ht j (by omega)
  exact hloop i hi

variable {total f : ℕ}

/-- The state of `pmm_init` in which every frame is used. -/
theorem Inv.allUsed (ram : Bitmap 64) (words cursor : ℕ) (htotal : total < 2 ^ 52)
    (hwords : total ≤ 64 * words) :
    Inv ⟨fillBitmap words ram, total, total, words, cursor⟩ ∧
      usedSet ⟨fillBitmap words ram, total, total, words, cursor⟩ = Finset.range total := by
  have hset : ∀ f, f < 64 * words → (fillBitmap words ram).testBit f = true := by
    intro f hf
    exact Bitmap.testBit_of_word_allOnes (by decide) (fillBitmap_apply (by omega) ram)
  have hall : (fillBitmap words ram).setBits total = Finset.range total := by
    ext f
    rw [Bitmap.mem_setBits, mem_range]
    exact ⟨fun h => h.1, fun h => ⟨h, hset f (by omega)⟩⟩
  refine ⟨⟨htotal, fun f _ hf => hset f hf, ?_⟩, hall⟩
  show total = ((fillBitmap words ram).setBits total).card
  rw [hall, card_range]

/-- The frames a descriptor gives to the allocator. -/
def released (total : ℕ) (desc : EfiMemoryDescriptor) : Finset ℕ :=
  if desc.type = .conventionalMemory then
    Finset.Ico (desc.physicalStart / pageSize)
      (min (wrap64 (desc.physicalStart / pageSize + desc.numberOfPages)) total)
  else ∅

variable {s : Pmm}

theorem Inv.releaseDescriptor (hs : s.Inv) (desc : EfiMemoryDescriptor) :
    s.Post (s.usedSet \ released s.gTotalFrames desc) (s.releaseDescriptor desc) := by
  unfold Pmm.releaseDescriptor released
  split
  · set stop := min (wrap64 (desc.physicalStart / pageSize + desc.numberOfPages)) s.gTotalFrames
    rcases le_total (desc.physicalStart / pageSize) stop with hle | hge
    · exact hs.forUp_releaseFrame hle (Nat.min_le_right _ _)
    · rw [forUp_of_le hge, Finset.Ico_eq_empty_of_le hge]
      exact hs.post_self
  · exact hs.post_self

/-- The ranges reserved at the end of `pmm_init`, each with its base and its size. -/
def bootRanges (bootInfo : BootInfo) (bitmapPhys bitmapPages : ℕ) : List (ℕ × ℕ) :=
  [(0x0, 0x100000), (bitmapPhys, wrap64 (bitmapPages * pageSize)),
    (bootInfo.kernel.physBase, bootInfo.kernel.size), (bootInfo.stack.physBase, bootInfo.stack.size),
    (sub64 bootInfo.address hhdmBase, pageSize),
    (sub64 bootInfo.memoryMap.map hhdmBase, bootInfo.memoryMap.size),
    (sub64 bootInfo.pml4 hhdmBase, pageSize)] ++
  if bootInfo.fontHeader ≠ 0 then [(sub64 bootInfo.fontHeader hhdmBase, pageSize * 4)] else []

/-- The frames of memory that a reservation covers. -/
def reserved (total : ℕ) (r : ℕ × ℕ) : Finset ℕ :=
  Finset.Ico (r.1 / pageSize) (min (wrap64 (r.1 + r.2 + (pageSize - 1)) / pageSize) total)

theorem Inv.reserveAll (hs : s.Inv) (L : List (ℕ × ℕ)) :
    ∃ U, s.Post U (L.foldl (fun s r => s.pmmReserveRange r.1 r.2) s) ∧
      ∀ f, f ∈ U ↔ f ∈ s.usedSet ∨ ∃ r ∈ L, f ∈ reserved s.gTotalFrames r := by
  induction L generalizing s with
  | nil => exact ⟨_, hs.post_self, by simp⟩
  | cons r L ih =>
    have hr := hs.pmmReserveRange r.1 r.2
    obtain ⟨U, hU, hmem⟩ := ih hr.inv
    refine ⟨U, hr.trans hU, fun f => ?_⟩
    rw [hmem, hr.used_eq, hr.total_eq, mem_union, or_assoc]
    simp only [List.mem_cons, exists_eq_or_imp]
    rfl

/-- The pages of the bitmap for `total` frames. -/
def bitmapPages (total : ℕ) : ℕ := ((total + 7) / 8 + (pageSize - 1)) / pageSize

/-- The ranges that `pmm_init` reserves. -/
def initRanges (bootInfo : BootInfo) : List (ℕ × ℕ) :=
  let pages := bitmapPages (highestPhys bootInfo.memoryMap / pageSize)
  bootRanges bootInfo (findBitmapPhys bootInfo.memoryMap pages) pages

theorem pmmReserveBoot_eq (s : Pmm) (bootInfo : BootInfo) (bitmapPhys bitmapPages : ℕ) :
    s.pmmReserveBoot bootInfo bitmapPhys bitmapPages =
      (bootRanges bootInfo bitmapPhys bitmapPages).foldl (fun s r => s.pmmReserveRange r.1 r.2) s := by
  rw [bootRanges, List.foldl_append]
  iterate 7 rw [List.foldl_cons]
  rw [List.foldl_nil]
  unfold Pmm.pmmReserveBoot
  by_cases hfont : bootInfo.fontHeader ≠ 0
  · rw [if_pos hfont, if_pos hfont, List.foldl_cons, List.foldl_nil]
  · rw [if_neg hfont, if_neg hfont, List.foldl_nil]

/-- The descriptor loop: a frame stays used unless a descriptor gives it away. -/
theorem Inv.releaseAll (hs : s.Inv) (descriptor : ℕ → EfiMemoryDescriptor) (n : ℕ) :
    ∃ U, s.Post U (forUp 0 n (fun i s => Pmm.releaseDescriptor (descriptor i) s) s) ∧
      ∀ f, f ∈ U ↔ f ∈ s.usedSet ∧ ∀ i < n, f ∉ released s.gTotalFrames (descriptor i) := by
  refine forUp_invariant (fun n t => ∃ U, s.Post U t ∧ ∀ f, f ∈ U ↔ f ∈ s.usedSet ∧ ∀ i < n,
    f ∉ released s.gTotalFrames (descriptor i)) (Nat.zero_le _) ⟨_, hs.post_self, by simp⟩ ?_
  rintro n t _ _ ⟨U, hU, hmem⟩
  refine ⟨_, hU.trans (hU.inv.releaseDescriptor (descriptor n)), fun f => ?_⟩
  rw [hU.used_eq, mem_sdiff, hmem, hU.total_eq, and_assoc, Nat.forall_lt_succ_right]

/-- What `pmm_init` establishes: the invariant, with exactly those frames used that no descriptor gives
to the allocator or that are reserved. -/
theorem pmmInit_spec (ram : Bitmap 64) (bootInfo : BootInfo) : let s := pmmInit ram bootInfo
    s.Inv ∧ ∀ f, f ∈ s.usedSet ↔
      (f < s.gTotalFrames ∧ ∀ i < numEntries bootInfo.memoryMap,
        f ∉ released s.gTotalFrames (bootInfo.memoryMap.descriptor i)) ∨
      ∃ r ∈ initRanges bootInfo, f ∈ reserved s.gTotalFrames r := by
  have hhigh := highestPhys_lt bootInfo.memoryMap
  unfold pmmInit initRanges
  dsimp only
  rw [← bitmapPages, pmmReserveBoot_eq]
  generalize htotal : highestPhys bootInfo.memoryMap / pageSize = total
  have hlt : total < 2 ^ 52 := by
    rw [← htotal, pageSize]
    omega
  have hwords : total ≤ 64 * (((total + 7) / 8 + (8 - 1)) / 8) := by omega
  generalize ((total + 7) / 8 + (8 - 1)) / 8 = words at hwords
  obtain ⟨hfill, hall⟩ := Inv.allUsed ram words 0 hlt hwords
  obtain ⟨U, hU, hmemU⟩ := hfill.releaseAll bootInfo.memoryMap.descriptor
    (numEntries bootInfo.memoryMap)
  obtain ⟨V, hV, hmemV⟩ := hU.inv.reserveAll (bootRanges bootInfo
    (findBitmapPhys bootInfo.memoryMap (bitmapPages total)) (bitmapPages total))
  have hpost := hU.trans hV
  refine ⟨(hpost.withCursor 0).inv, fun f => ?_⟩
  rw [(hpost.withCursor 0).used_eq, hmemV, hU.used_eq, hmemU, hall, mem_range, hU.total_eq,
    hpost.total_eq]

/-- `pmm_init` establishes the invariant, with frame 0 used. -/
theorem pmmInit_inv (ram : Bitmap 64) (bootInfo : BootInfo) :
    (pmmInit ram bootInfo).Inv ∧
      (0 < (pmmInit ram bootInfo).gTotalFrames → 0 ∈ (pmmInit ram bootInfo).usedSet) := by
  obtain ⟨hinv, hmem⟩ := pmmInit_spec ram bootInfo
  refine ⟨hinv, fun hpos => (hmem 0).mpr (.inr ⟨(0x0, 0x100000), by simp [initRanges, bootRanges], ?_⟩)⟩
  have hstop : wrap64 (0x0 + 0x100000 + (pageSize - 1)) / pageSize = 256 := by decide
  rw [reserved, hstop, mem_Ico]
  exact ⟨by decide, by omega⟩

theorem mem_released {desc : EfiMemoryDescriptor} (h : desc.Valid) (hf : f < total) :
    f ∈ released total desc ↔ desc.type = .conventionalMemory ∧ desc.Contains f := by
  obtain ⟨halign, hend⟩ := h
  unfold released EfiMemoryDescriptor.Contains
  rw [pageSize] at *
  split
  · rename_i hconv
    rw [wrap64_of_lt (by omega), mem_Ico, lt_min_iff]
    exact ⟨fun h => ⟨hconv, by omega, by omega⟩, fun h => ⟨by omega, by omega, hf⟩⟩
  · rename_i hconv
    exact ⟨(nomatch ·), fun h => absurd h.1 hconv⟩

theorem mem_reserved {r : ℕ × ℕ} (h : r.1 + r.2 + pageSize ≤ 2 ^ 64) (hf : f < total) :
    f ∈ reserved total r ↔ r.1 / pageSize ≤ f ∧ f * pageSize < r.1 + r.2 := by
  rw [reserved, mem_Ico]
  rw [pageSize] at *
  rw [wrap64_of_lt (by omega)]
  omega

/-- The bitmap starts in a descriptor, or at 0. -/
theorem findBitmapPhys_le {m : BootMemoryMap} (h : ∀ i < numEntries m, (m.descriptor i).Valid)
    (pages : ℕ) : findBitmapPhys m pages ≤ 2 ^ 52 := by
  have hfound : ∀ {p i}, findUp 0 (numEntries m) p = some i → (m.descriptor i).physicalStart ≤ 2 ^ 52 :=
    fun hi => (Nat.le_add_right _ _).trans (h _ (findUp_eq_some hi).1).2
  simp only [findBitmapPhys]
  split_ifs <;> split
  · exact hfound ‹_›
  · exact Nat.zero_le _
  · exact hfound ‹_›
  · exact Nat.zero_le _

/-- No reserved range wraps when none of those that the boot information names does. -/
theorem initRanges_le {bootInfo : BootInfo}
    (hdesc : ∀ i < numEntries bootInfo.memoryMap, (bootInfo.memoryMap.descriptor i).Valid)
    (hboot : ∀ r ∈ bootRanges bootInfo 0 0, r.1 + r.2 + pageSize ≤ 2 ^ 64) :
    ∀ r ∈ initRanges bootInfo, r.1 + r.2 + pageSize ≤ 2 ^ 64 := by
  intro r hr
  have hhigh := highestPhys_lt bootInfo.memoryMap
  set pages := bitmapPages (highestPhys bootInfo.memoryMap / pageSize) with hpages
  have hphys := findBitmapPhys_le hdesc pages
  have hsize := wrap64_le (pages * pageSize)
  have hsplit : r = (findBitmapPhys bootInfo.memoryMap pages, wrap64 (pages * pageSize)) ∨
      r ∈ bootRanges bootInfo 0 0 := by
    rcases List.mem_append.mp hr with hr | hfont
    · rcases List.mem_cons.mp hr with rfl | hr
      · exact .inr (List.mem_append_left _ (.head _))
      rcases List.mem_cons.mp hr with rfl | hr
      · exact .inl rfl
      · exact .inr (List.mem_append_left _ (.tail _ (.tail _ hr)))
    · exact .inr (List.mem_append_right _ hfont)
  rcases hsplit with rfl | hold
  · rw [bitmapPages] at hpages
    rw [pageSize] at *
    omega
  · exact hboot r hold

end Pmm

/-! ## Callers -/

/-- The calls a client of the frame allocator makes. -/
inductive PmmOp where
  | allocFrame
  | allocFrames (count : ℕ)
  | allocAlignedFrames (count alignFrames : ℕ)
  | freeFrame (physAddr : ℕ)
  | freeFrames (physAddr count : ℕ)

/-- The allocator with the ranges handed out, each without the frames of it freed since. -/
structure PmmClient where
  pmm : Pmm
  handed : List (Finset ℕ)

namespace PmmClient

/-- The frames currently held by callers. -/
def Held (c : PmmClient) (f : ℕ) : Prop := ∃ r ∈ c.handed, f ∈ r

instance (c : PmmClient) (f : ℕ) : Decidable (c.Held f) :=
  inferInstanceAs (Decidable (∃ r ∈ c.handed, f ∈ r))

/-- Record the answer of an allocation of `count` frames. -/
def receive (c : PmmClient) (count : ℕ) (r : ℕ × Pmm) : PmmClient :=
  if r.1 = 0 then { c with pmm := r.2 }
  else ⟨r.2, Finset.Ico (r.1 / pageSize) (r.1 / pageSize + count) :: c.handed⟩

/-- Record the release of a set of frames. -/
def giveBack (c : PmmClient) (freed : Finset ℕ) (s : Pmm) : PmmClient :=
  ⟨s, c.handed.map (· \ freed)⟩

/-- One call. -/
def step (c : PmmClient) : PmmOp → PmmClient
  | .allocFrame => c.receive 1 c.pmm.pmmAllocFrame
  | .allocFrames count => c.receive count (c.pmm.pmmAllocFrames count)
  | .allocAlignedFrames count alignFrames =>
    c.receive count (c.pmm.pmmAllocAlignedFrames count alignFrames)
  | .freeFrame physAddr =>
    c.giveBack (Pmm.namedFrames physAddr 1) (c.pmm.pmmFreeFrame physAddr)
  | .freeFrames physAddr count =>
    c.giveBack (Pmm.namedFrames physAddr count) (c.pmm.pmmFreeFrames physAddr count)

/-- The calls in scope: sizes are 64-bit, alignments are powers of two, and of the frames of memory
a free names, the callers hold every one. -/
def Allowed (c : PmmClient) : PmmOp → Prop
  | .allocFrame => True
  | .allocFrames count => count < 2 ^ 64
  | .allocAlignedFrames count alignFrames => count < 2 ^ 64 ∧ ∃ k < 64, alignFrames = 2 ^ k
  | .freeFrame physAddr =>
    ∀ f ∈ Pmm.namedFrames physAddr 1, f < c.pmm.gTotalFrames → c.Held f
  | .freeFrames physAddr count =>
    ∀ f ∈ Pmm.namedFrames physAddr count, f < c.pmm.gTotalFrames → c.Held f

instance (c : PmmClient) : (op : PmmOp) → Decidable (c.Allowed op)
  | .allocFrame => inferInstanceAs (Decidable True)
  | .allocFrames count => inferInstanceAs (Decidable (count < 2 ^ 64))
  | .allocAlignedFrames count alignFrames =>
    inferInstanceAs (Decidable (count < 2 ^ 64 ∧ ∃ k < 64, alignFrames = 2 ^ k))
  | .freeFrame physAddr => inferInstanceAs (Decidable
      (∀ f ∈ Pmm.namedFrames physAddr 1, f < c.pmm.gTotalFrames → c.Held f))
  | .freeFrames physAddr count => inferInstanceAs (Decidable
      (∀ f ∈ Pmm.namedFrames physAddr count, f < c.pmm.gTotalFrames → c.Held f))

/-- A sequence of calls. -/
def run (c : PmmClient) : List PmmOp → PmmClient
  | [] => c
  | op :: ops => (c.step op).run ops

/-- Every call of the sequence is in scope when it is made. -/
def AllowedRun (c : PmmClient) : List PmmOp → Prop
  | [] => True
  | op :: ops => c.Allowed op ∧ (c.step op).AllowedRun ops

instance decidableAllowedRun : (c : PmmClient) → (ops : List PmmOp) → Decidable (c.AllowedRun ops)
  | _, [] => inferInstanceAs (Decidable True)
  | c, op :: ops =>
    have := decidableAllowedRun (c.step op) ops
    inferInstanceAs (Decidable (c.Allowed op ∧ (c.step op).AllowedRun ops))

/-- The allocator just after boot, with nothing handed out. -/
def boot (ram : Bitmap 64) (bootInfo : BootInfo) : PmmClient := ⟨Pmm.pmmInit ram bootInfo, []⟩

/-- The invariant of a run that started in `s₀`: what is handed out is in use and was free in `s₀`,
and what `s₀` had reserved is still in use. -/
structure Inv (s₀ : Pmm) (c : PmmClient) : Prop where
  pmm : c.pmm.Inv
  total_eq : c.pmm.gTotalFrames = s₀.gTotalFrames
  words_eq : c.pmm.gBitmapWords = s₀.gBitmapWords
  disjoint : c.handed.Pairwise Disjoint
  used : ∀ r ∈ c.handed, r ⊆ c.pmm.usedSet
  fresh : ∀ r ∈ c.handed, Disjoint r s₀.usedSet
  reserved : s₀.usedSet ⊆ c.pmm.usedSet

variable {s₀ : Pmm} {c : PmmClient}

theorem Inv.receive (hc : Inv s₀ c) {count : ℕ} {r : ℕ × Pmm} (hr : c.pmm.AllocPost count r) :
    Inv s₀ (c.receive count r) := by
  unfold PmmClient.receive
  rcases hr with ⟨hnull, hsame⟩ | ⟨a, haddr, hend, hfree, hpost⟩
  · rw [if_pos hnull, hsame]
    exact hc
  by_cases hnull : r.1 = 0
  · -- a run starting at frame 0: its address is `NULL`, so the caller takes nothing
    rw [if_pos hnull]
    exact
      { hc with
        pmm := hpost.inv
        total_eq := hpost.total_eq.trans hc.total_eq
        words_eq := hpost.words_eq.trans hc.words_eq
        used := fun r' hr' => (hc.used r' hr').trans (hpost.used_eq ▸ subset_union_left)
        reserved := hc.reserved.trans (hpost.used_eq ▸ subset_union_left)  }
  · rw [if_neg hnull]
    have hdiv : r.1 / pageSize = a := by
      rw [haddr]
      exact Nat.mul_div_cancel a (by decide)
    rw [hdiv]
    have hnew : Disjoint (Finset.Ico a (a + count)) c.pmm.usedSet := by
      rw [disjoint_left]
      intro f hf hused
      rw [mem_Ico] at hf
      rw [Pmm.mem_usedSet, hfree f hf.1 hf.2] at hused
      exact nomatch hused.2
    refine
      { pmm := hpost.inv
        total_eq := hpost.total_eq.trans hc.total_eq
        words_eq := hpost.words_eq.trans hc.words_eq
        disjoint := ?_
        used := ?_
        fresh := ?_
        reserved := hc.reserved.trans (hpost.used_eq ▸ subset_union_left) }
    · rw [List.pairwise_cons]
      exact ⟨fun r' hr' => hnew.mono_right (hc.used r' hr'), hc.disjoint⟩
    · intro r' hr'
      rw [hpost.used_eq]
      rcases List.mem_cons.mp hr' with rfl | hr'
      · exact subset_union_right
      · exact (hc.used r' hr').trans subset_union_left
    · intro r' hr'
      rcases List.mem_cons.mp hr' with rfl | hr'
      · exact hnew.mono_right hc.reserved
      · exact hc.fresh r' hr'

theorem Inv.giveBack (hc : Inv s₀ c) {freed F : Finset ℕ} {s : Pmm}
    (hheld : ∀ f ∈ freed, f < c.pmm.gTotalFrames → c.Held f) (hF : F ⊆ freed)
    (hs : c.pmm.Post (c.pmm.usedSet \ F) s) : Inv s₀ (c.giveBack freed s) where
  pmm := hs.inv
  total_eq := hs.total_eq.trans hc.total_eq
  words_eq := hs.words_eq.trans hc.words_eq
  disjoint := hc.disjoint.map _ fun _ _ h =>
    h.mono sdiff_subset sdiff_subset
  used := by
    intro r hr
    obtain ⟨r', hr', rfl⟩ := List.mem_map.mp hr
    show r' \ freed ⊆ s.usedSet
    rw [hs.used_eq]
    exact sdiff_subset_sdiff (hc.used r' hr') hF
  fresh := by
    intro r hr
    obtain ⟨r', hr', rfl⟩ := List.mem_map.mp hr
    exact (hc.fresh r' hr').mono_left sdiff_subset
  reserved := by
    intro f hf
    have hused := hc.reserved hf
    show f ∈ s.usedSet
    rw [hs.used_eq, mem_sdiff]
    refine ⟨hused, fun hfreed => ?_⟩
    -- a reserved frame is never held, so no permitted free names it
    obtain ⟨r, hr, hfr⟩ := hheld f (hF hfreed) (Pmm.mem_usedSet.mp hused).1
    exact disjoint_left.mp (hc.fresh r hr) hfr hf

theorem Inv.step (hc : Inv s₀ c) {op : PmmOp} (h : c.Allowed op) : Inv s₀ (c.step op) := by
  cases op with
  | allocFrame => exact hc.receive hc.pmm.pmmAllocFrame
  | allocFrames count => exact hc.receive (hc.pmm.pmmAllocFrames count)
  | allocAlignedFrames count alignFrames =>
    exact hc.receive (hc.pmm.pmmAllocAlignedFrames h.1 alignFrames)
  | freeFrame physAddr =>
    exact hc.giveBack h Finset.Subset.rfl (hc.pmm.pmmFreeFrame physAddr)
  | freeFrames physAddr count =>
    obtain ⟨F, hF, hpost⟩ := hc.pmm.pmmFreeFrames physAddr count
    exact hc.giveBack h hF hpost

theorem Inv.run (hc : Inv s₀ c) {ops : List PmmOp} (h : c.AllowedRun ops) : Inv s₀ (c.run ops) := by
  induction ops generalizing c with
  | nil => exact hc
  | cons op ops ih => exact ih (hc.step h.1) h.2

theorem boot_inv (ram : Bitmap 64) (bootInfo : BootInfo) :
    Inv (Pmm.pmmInit ram bootInfo) (boot ram bootInfo) where
  pmm := (Pmm.pmmInit_inv ram bootInfo).1
  total_eq := rfl
  words_eq := rfl
  disjoint := List.Pairwise.nil
  used := fun _ h => nomatch h
  fresh := fun _ h => nomatch h
  reserved := Finset.Subset.rfl

/-- Every run from boot keeps the ranges handed out pairwise disjoint, away from frame 0 and from
every frame `pmm_init` left reserved; the padding bits stay set; and the used counter is the number
of set bits below `g_total_frames`, so the free count does not underflow. -/
theorem boot_run_safe (ram : Bitmap 64) (bootInfo : BootInfo) (ops : List PmmOp)
    (h : (boot ram bootInfo).AllowedRun ops) :
    let s₀ := Pmm.pmmInit ram bootInfo
    let c := (boot ram bootInfo).run ops
    c.handed.Pairwise Disjoint ∧
      (∀ r ∈ c.handed, ∀ f ∈ r, f ≠ 0 ∧ f < s₀.gTotalFrames ∧ s₀.bitmapTestBit f = false) ∧
      (∀ f, c.pmm.gTotalFrames ≤ f → f < 64 * c.pmm.gBitmapWords → c.pmm.bitmapTestBit f = true) ∧
      c.pmm.gTotalFrames = s₀.gTotalFrames ∧ c.pmm.gBitmapWords = s₀.gBitmapWords ∧
      c.pmm.gUsedFrames =
        ((Finset.range c.pmm.gTotalFrames).filter fun f => c.pmm.bitmapTestBit f = true).card ∧
      c.pmm.pmmGetFreeFrames + c.pmm.gUsedFrames = c.pmm.gTotalFrames := by
  have hinv := (boot_inv ram bootInfo).run h
  have hle := hinv.pmm.used_le_total
  have hlt := hinv.pmm.total_lt
  refine ⟨hinv.disjoint, ?_, hinv.pmm.tail_set, hinv.total_eq, hinv.words_eq, hinv.pmm.used_eq, ?_⟩
  · intro r hr f hf
    have htot := (Pmm.mem_usedSet.mp (hinv.used r hr hf)).1
    rw [hinv.total_eq] at htot
    have hnot : f ∉ (Pmm.pmmInit ram bootInfo).usedSet := disjoint_left.mp (hinv.fresh r hr) hf
    refine ⟨?_, htot, ?_⟩
    · rintro rfl
      exact hnot ((Pmm.pmmInit_inv ram bootInfo).2 htot)
    · simpa [Pmm.mem_usedSet, htot] using hnot
  · rw [Pmm.pmmGetFreeFrames, sub64_of_le hle (by omega)]
    omega

/-- A machine with eight conventional pages at 1 MiB, everything else below 1 MiB. -/
def smallBootInfo : BootInfo where
  address := hhdmBase + 0x1000
  memoryMap :=
    { map := hhdmBase + 0x2000
      size := 48
      descriptorSize := 48
      descriptor := fun _ => ⟨.conventionalMemory, 0x100000, 8⟩ }
  fontHeader := 0
  pml4 := hhdmBase + 0x3000
  kernel := ⟨0x4000, 0x1000⟩
  stack := ⟨0x5000, 0x1000⟩

/-- A single frame, a pair and an aligned pair taken, then the single frame and half of the first
pair given back. -/
def smallOps : List PmmOp :=
  [.allocFrame, .allocFrames 2, .allocAlignedFrames 2 2, .freeFrame 0x101000,
    .freeFrames 0x103000 1]

/-- The run of `smallOps` is in scope and leaves three ranges apart. -/
theorem boot_run_safe_smallOps :
    (boot (fun _ => 0#64) smallBootInfo).AllowedRun smallOps ∧
      ((boot (fun _ => 0#64) smallBootInfo).run smallOps).handed
        = [Finset.Ico 260 262, Finset.Ico 258 259, ∅] ∧
      ((boot (fun _ => 0#64) smallBootInfo).run smallOps).handed.Pairwise Disjoint := by
  refine (and_iff_left_of_imp fun hallowed => ?_).mpr (by decide +kernel)
  exact ⟨by decide +kernel, (boot_run_safe _ smallBootInfo smallOps hallowed).1⟩

end PmmClient

/-! ## What `pmm_init` leaves free -/

namespace Pmm

/-- After `pmm_init` a frame is free exactly when it lies in conventional memory and in the page hull of
no reserved range; the padding bits are set; and the counter is the number of frames not free. -/
theorem pmmInit_classifies (ram : Bitmap 64) (bootInfo : BootInfo)
    (hdesc : ∀ i < numEntries bootInfo.memoryMap, (bootInfo.memoryMap.descriptor i).Valid)
    (hboot : ∀ r ∈ bootRanges bootInfo 0 0, r.1 + r.2 + pageSize ≤ 2 ^ 64) :
    let s := pmmInit ram bootInfo
    (∀ f < s.gTotalFrames, s.bitmapTestBit f = false ↔
      (∃ i < numEntries bootInfo.memoryMap,
        (bootInfo.memoryMap.descriptor i).type = .conventionalMemory ∧
          (bootInfo.memoryMap.descriptor i).Contains f) ∧
      ∀ r ∈ initRanges bootInfo, ¬ (r.1 / pageSize ≤ f ∧ f * pageSize < r.1 + r.2)) ∧
    (∀ f, s.gTotalFrames ≤ f → f < 64 * s.gBitmapWords → s.bitmapTestBit f = true) ∧
    s.gUsedFrames = s.gTotalFrames -
      ((Finset.range s.gTotalFrames).filter fun f => s.bitmapTestBit f = false).card := by
  obtain ⟨hinv, hmem⟩ := pmmInit_spec ram bootInfo
  generalize pmmInit ram bootInfo = s at hinv hmem
  refine ⟨fun f hf => ?_, hinv.tail_set, ?_⟩
  · refine Iff.trans ?_ (and_congr
      (exists_congr fun i => and_congr_right fun hi => mem_released (hdesc i hi) hf)
      (forall₂_congr fun r hr => not_congr (mem_reserved (initRanges_le hdesc hboot r hr) hf)))
    have hused := not_congr (hmem f)
    push Not at hused
    simpa [mem_usedSet, hf] using hused
  · have hsplit := card_filter_add_card_filter_not (s := Finset.range s.gTotalFrames)
      (fun f => s.bitmapTestBit f = true)
    have hused : s.gUsedFrames = _ := hinv.used_eq
    simp only [Bool.not_eq_true, card_range] at hsplit
    rw [hused]
    exact Nat.eq_sub_of_add_eq hsplit

/-- The machine of `PmmClient.smallBootInfo`: the bitmap takes the first of its eight pages. -/
theorem pmmInit_classifies_small :
    (pmmInit (fun _ => 0#64) PmmClient.smallBootInfo).bitmapTestBit 257 = false ↔
      (∃ i < 1, (PmmClient.smallBootInfo.memoryMap.descriptor i).type = .conventionalMemory ∧
          (PmmClient.smallBootInfo.memoryMap.descriptor i).Contains 257) ∧
      ∀ r ∈ initRanges PmmClient.smallBootInfo,
        ¬ (r.1 / pageSize ≤ 257 ∧ 257 * pageSize < r.1 + r.2) :=
  (pmmInit_classifies (fun _ => 0#64) PmmClient.smallBootInfo
    (fun _ _ => (by decide : 0x100000 % pageSize = 0 ∧ 0x100000 + 8 * pageSize ≤ 2 ^ 52))
    (by decide +kernel)).1 257 (by decide +kernel)

end Pmm

end NovaOS.Mem
