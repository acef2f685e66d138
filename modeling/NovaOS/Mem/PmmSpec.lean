import NovaOS.Mem.Pmm
import Mathlib.Order.Interval.Finset.Nat

/-!
# What the frame allocator's routines do to the set of used frames

`Pmm.usedSet` is the set of frames whose bit is set. `Pmm.Inv` says that the counter is its size and
that the padding of the last bitmap word is set. Every routine is described by `Pmm.Post`: it
keeps the invariant and the geometry and leaves a given set of used frames.
-/

namespace NovaOS.Mem.Pmm

open NovaOS.Lib Finset Option

/-- The frames in use. -/
def usedSet (s : Pmm) : Finset ℕ := s.gBitmap.setBits s.gTotalFrames

variable {s t : Pmm} {f b a count k : ℕ}

theorem mem_usedSet : f ∈ s.usedSet ↔ f < s.gTotalFrames ∧ s.bitmapTestBit f = true :=
  Bitmap.mem_setBits

/-- The allocator's invariant. -/
structure Inv (s : Pmm) : Prop where
  total_lt : s.gTotalFrames < 2 ^ 52
  tail_set : ∀ f, s.gTotalFrames ≤ f → f < 64 * s.gBitmapWords → s.bitmapTestBit f = true
  used_eq : s.gUsedFrames = s.usedSet.card

/-- `s'` is a well-formed state over the same memory as `s` in which exactly `U` is used. -/
structure Post (s : Pmm) (U : Finset ℕ) (s' : Pmm) : Prop where
  inv : s'.Inv
  total_eq : s'.gTotalFrames = s.gTotalFrames
  words_eq : s'.gBitmapWords = s.gBitmapWords
  used_eq : s'.usedSet = U

theorem Inv.post_self (hs : s.Inv) : s.Post s.usedSet s := ⟨hs, rfl, rfl, rfl⟩

variable {U : Finset ℕ}

theorem Post.trans {u : Pmm} {V : Finset ℕ} (h1 : s.Post U t) (h2 : t.Post V u) : s.Post V u :=
  ⟨h2.inv, h2.total_eq.trans h1.total_eq, h2.words_eq.trans h1.words_eq, h2.used_eq⟩

theorem Inv.used_le_total (hs : s.Inv) : s.gUsedFrames ≤ s.gTotalFrames := by
  rw [hs.used_eq]
  exact Bitmap.setBits_card_le _ _

/-- The scan cursor plays no part in the invariant. -/
theorem Post.withCursor (h : s.Post U t) (i : ℕ) : s.Post U { t with gLastScannedIndex := i } :=
  ⟨⟨h.inv.total_lt, h.inv.tail_set, h.inv.used_eq⟩, h.total_eq, h.words_eq, h.used_eq⟩

theorem Post.lowerCursor (h : s.Post U t) (i : ℕ) : s.Post U (t.lowerCursor i) := by
  unfold Pmm.lowerCursor
  split
  · exact h.withCursor i
  · exact h

/-- A new bitmap with its counter: the padding must stay set and the counter must be the size of
the new set. -/
theorem Inv.withBitmap (hs : s.Inv) {b : Bitmap 64} {used cursor : ℕ}
    (htail : ∀ g, s.gTotalFrames ≤ g → s.gBitmap.testBit g = true → b.testBit g = true)
    (hU : b.setBits s.gTotalFrames = U) (hused : used = U.card) :
    s.Post U ⟨b, s.gTotalFrames, used, s.gBitmapWords, cursor⟩ where
  inv :=
    { total_lt := hs.total_lt
      tail_set := fun g hg hg' => htail g hg (hs.tail_set g hg hg')
      used_eq := hused.trans (congrArg Finset.card hU.symm) }
  total_eq := rfl
  words_eq := rfl
  used_eq := hU

/-! ## One frame -/

section

variable (hs : s.Inv) (hf : f < s.gTotalFrames)
include hs hf

/-- Marking a free frame used. -/
theorem Inv.setFree (hfree : s.bitmapTestBit f = false) (cursor : ℕ) :
    s.Post (insert f s.usedSet)
      { s.bitmapSetBit f with
        gUsedFrames := wrap64 (s.gUsedFrames + 1), gLastScannedIndex := cursor } := by
  have hnot : f ∉ s.usedSet := by simp [mem_usedSet, hfree]
  refine hs.withBitmap ?_ (Bitmap.setBits_setBit (by decide) _ hf) ?_
  · intro g _ hg
    show (s.gBitmap.setBit f).testBit g = true
    rw [Bitmap.testBit_setBit (by decide), hg, Bool.or_true]
  · have hlt := hs.used_le_total
    have htot := hs.total_lt
    rw [card_insert_of_notMem hnot, ← hs.used_eq, wrap64_of_lt (by omega)]

theorem Inv.reserveFrame : s.Post (insert f s.usedSet) (s.reserveFrame f) := by
  unfold Pmm.reserveFrame
  split
  · rename_i hset
    rw [insert_eq_of_mem (mem_usedSet.mpr ⟨hf, hset⟩)]
    exact hs.post_self
  · rename_i hset
    exact hs.setFree hf (by simpa using hset) s.gLastScannedIndex

theorem Inv.releaseFrame : s.Post (s.usedSet.erase f) (s.releaseFrame f) := by
  unfold Pmm.releaseFrame
  split
  · rename_i hset
    have hmem : f ∈ s.usedSet := mem_usedSet.mpr ⟨hf, hset⟩
    refine hs.withBitmap ?_ (Bitmap.setBits_clearBit (by decide) _ _ _) ?_
    · intro g hg hset'
      have hgf : g ≠ f := (lt_of_lt_of_le hf hg).ne'
      show (s.gBitmap.clearBit f).testBit g = true
      rw [Bitmap.testBit_clearBit (by decide), hset']
      simpa using hgf
    · have hpos : 0 < s.gUsedFrames := by
        rw [hs.used_eq]
        exact card_pos.mpr ⟨f, hmem⟩
      have hlt := hs.used_le_total
      have htot := hs.total_lt
      rw [card_erase_of_mem hmem, ← hs.used_eq, sub64_of_le hpos (by omega)]
  · rename_i hset
    rw [erase_eq_of_notMem (fun hmem => hset (mem_usedSet.mp hmem).2)]
    exact hs.post_self

end

/-! ## Ranges of frames -/

variable {i : ℕ}

/-- A range extended by its next frame. -/
theorem Ico_succ_eq_insert (h : a ≤ i) : Finset.Ico a (i + 1) = insert i (Finset.Ico a i) := by
  ext g
  simp only [mem_Ico, mem_insert]
  omega

/-- The loop of `pmm_reserve_range` over frames that exist. -/
theorem Inv.forUp_reserveFrame (hs : s.Inv) (hab : a ≤ b) (hb : b ≤ s.gTotalFrames) :
    s.Post (s.usedSet ∪ Finset.Ico a b) (forUp a b Pmm.reserveFrame s) := by
  refine forUp_invariant (fun i t => s.Post (s.usedSet ∪ Finset.Ico a i) t) hab ?_ ?_
  · simpa using hs.post_self
  · intro i t hai hib ht
    have hstep := ht.inv.reserveFrame (f := i) (by rw [ht.total_eq]; omega)
    rw [ht.used_eq, ← union_insert, ← Ico_succ_eq_insert hai] at hstep
    exact ht.trans hstep

/-- The loop of `pmm_free_frames` over frames that exist. -/
theorem Inv.forUp_releaseFrame (hs : s.Inv) (hab : a ≤ b) (hb : b ≤ s.gTotalFrames) :
    s.Post (s.usedSet \ Finset.Ico a b) (forUp a b Pmm.releaseFrame s) := by
  refine forUp_invariant (fun i t => s.Post (s.usedSet \ Finset.Ico a i) t) hab ?_ ?_
  · simpa using hs.post_self
  · intro i t hai hib ht
    have hstep := ht.inv.releaseFrame (f := i) (by rw [ht.total_eq]; omega)
    rw [ht.used_eq, ← sdiff_insert, ← Ico_succ_eq_insert hai] at hstep
    exact ht.trans hstep

/-- Reserving a range adds the frames of the range that exist. -/
theorem Inv.pmmReserveRange (hs : s.Inv) (physBase size : ℕ) :
    s.Post (s.usedSet ∪ Finset.Ico (physBase / pageSize)
        (min (wrap64 (physBase + size + (pageSize - 1)) / pageSize) s.gTotalFrames))
      (s.pmmReserveRange physBase size) := by
  unfold Pmm.pmmReserveRange
  set stop := min (wrap64 (physBase + size + (pageSize - 1)) / pageSize) s.gTotalFrames with hstop
  rcases le_total (physBase / pageSize) stop with hle | hge
  · exact hs.forUp_reserveFrame hle (Nat.min_le_right _ _)
  · rw [forUp_of_le hge, Finset.Ico_eq_empty_of_le hge, union_empty]
    exact hs.post_self

/-- Setting the bits of a run. -/
theorem forUp_bitmapSetBit (hab : a ≤ b) :
    ∃ bm : Bitmap 64, forUp a b (fun f s => s.bitmapSetBit f) s = { s with gBitmap := bm } ∧
      ∀ g, bm.testBit g = (decide (g ∈ Finset.Ico a b) || s.gBitmap.testBit g) := by
  refine forUp_invariant (fun i t => ∃ bm : Bitmap 64, t = { s with gBitmap := bm } ∧
    ∀ g, bm.testBit g = (decide (g ∈ Finset.Ico a i) || s.gBitmap.testBit g)) hab ?_ ?_
  · exact ⟨s.gBitmap, rfl, by simp⟩
  · rintro i _ hai _ ⟨bm, rfl, hbm⟩
    refine ⟨bm.setBit i, rfl, fun g => ?_⟩
    rw [Bitmap.testBit_setBit (by decide), hbm, ← Bool.or_assoc, Ico_succ_eq_insert hai]
    simp only [mem_insert, Bool.decide_or]

/-- Marking a run of free frames used. -/
theorem Inv.markRun (hs : s.Inv) (hb : a + count ≤ s.gTotalFrames)
    (hfree : ∀ f, a ≤ f → f < a + count → s.bitmapTestBit f = false) :
    s.Post (s.usedSet ∪ Finset.Ico a (a + count)) (s.markRun a count) := by
  obtain ⟨bm, hloop, hbm⟩ := forUp_bitmapSetBit (s := s) (Nat.le_add_right a count)
  unfold Pmm.markRun
  simp only [hloop]
  have hused : bm.setBits s.gTotalFrames = s.usedSet ∪ Finset.Ico a (a + count) := by
    ext g
    simp only [Bitmap.mem_setBits, hbm, mem_union, mem_usedSet, Bool.or_eq_true,
      decide_eq_true_eq, mem_Ico]
    constructor
    · rintro ⟨hg, h | h⟩
      · exact .inr h
      · exact .inl ⟨hg, h⟩
    · rintro (⟨hg, h⟩ | h)
      · exact ⟨hg, .inr h⟩
      · exact ⟨by omega, .inl h⟩
  have hdisj : Disjoint s.usedSet (Finset.Ico a (a + count)) := by
    rw [disjoint_left]
    intro g hg hg'
    rw [mem_Ico] at hg'
    rw [mem_usedSet, hfree g hg'.1 hg'.2] at hg
    cases hg.2
  refine hs.withBitmap ?_ hused ?_
  · intro g _ hg
    rw [hbm, hg, Bool.or_true]
  · have hcard : (s.usedSet ∪ Finset.Ico a (a + count)).card = s.gUsedFrames + count := by
      rw [card_union_of_disjoint hdisj, ← hs.used_eq, Nat.card_Ico]
      omega
    have hle : (bm.setBits s.gTotalFrames).card ≤ s.gTotalFrames := Bitmap.setBits_card_le _ _
    have htot := hs.total_lt
    rw [hused] at hle
    rw [hcard, wrap64_of_lt (by omega)]

/-! ## Allocation -/

/-- What an allocation of `count` frames returns: `NULL` and no change, or the start of a run of
free frames that are now used. -/
def AllocPost (s : Pmm) (count : ℕ) (r : ℕ × Pmm) : Prop :=
  (r.1 = 0 ∧ r.2 = s) ∨
    ∃ a, r.1 = a * pageSize ∧ a + count ≤ s.gTotalFrames ∧
      (∀ f, a ≤ f → f < a + count → s.bitmapTestBit f = false) ∧
      s.Post (s.usedSet ∪ Finset.Ico a (a + count)) r.2

theorem Inv.takeLowestClear (hs : s.Inv) (hi : s.gBitmap i ≠ BitVec.allOnes 64) :
    s.AllocPost 1 (s.takeLowestClear i) := by
  have hclear := Bitmap.testBit_lowestClear (by decide) hi
  simp only [Pmm.takeLowestClear]
  set f := i * 64 + (~~~(s.gBitmap i)).ctz.toNat
  split
  · exact .inl ⟨rfl, rfl⟩
  · refine .inr ⟨f, rfl, by omega, fun g hg hg' => ?_, ?_⟩
    · obtain rfl : g = f := by omega
      exact hclear
    · have hsingle : Finset.Ico f (f + 1) = {f} := Nat.Ico_succ_singleton f
      rw [hsingle, union_comm]
      exact hs.setFree (by omega) hclear i

/-- `pmm_alloc_frame`. -/
theorem Inv.pmmAllocFrame (hs : s.Inv) : s.AllocPost 1 s.pmmAllocFrame := by
  have hclear : ∀ {lo hi i : ℕ},
      findUp lo hi (fun i => s.gBitmap i != BitVec.allOnes 64) = some i →
        s.gBitmap i ≠ BitVec.allOnes 64 := by
    intro lo hi i h
    simpa using (findUp_eq_some h).2
  unfold Pmm.pmmAllocFrame
  dsimp only
  split
  · rename_i i h
    exact hs.takeLowestClear (hclear h)
  · split
    · rename_i i h
      exact hs.takeLowestClear (hclear h)
    · exact .inl ⟨rfl, rfl⟩

/-- The scan of `pmm_alloc_frames` keeps a run of `contiguousFound` free frames ending at `i`. -/
theorem findRun_spec (n i c start r : ℕ) (hn : i + n = s.gTotalFrames) (hi : start + c = i)
    (hfree : ∀ f, start ≤ f → f < i → s.bitmapTestBit f = false)
    (h : s.findRun count n i c start = some r) :
    r + count ≤ s.gTotalFrames ∧ ∀ f, r ≤ f → f < r + count → s.bitmapTestBit f = false := by
  induction n generalizing i c start with
  | zero => simp [findRun] at h
  | succ n ih =>
    rw [findRun] at h
    by_cases hset : s.bitmapTestBit i = true
    · rw [if_pos hset] at h
      exact ih (i + 1) 0 (i + 1) (by omega) (by omega) (fun f h1 h2 => by omega) h
    · rw [if_neg hset] at h
      have hfree' : ∀ f, start ≤ f → f < i + 1 → s.bitmapTestBit f = false := by
        intro f h1 h2
        rcases Nat.lt_succ_iff_lt_or_eq.mp h2 with hlt | rfl
        · exact hfree f h1 hlt
        · simpa using hset
      by_cases hc : c + 1 = count
      · rw [if_pos hc, some.injEq] at h
        subst h
        exact ⟨by omega, fun f h1 h2 => hfree' f h1 (by omega)⟩
      · rw [if_neg hc] at h
        exact ih (i + 1) (c + 1) start (by omega) (by omega) hfree' h

/-- `pmm_alloc_frames`. -/
theorem Inv.pmmAllocFrames (hs : s.Inv) (count : ℕ) :
    s.AllocPost count (s.pmmAllocFrames count) := by
  unfold Pmm.pmmAllocFrames
  by_cases h0 : count = 0
  · exact .inl (by simp [h0])
  by_cases h1 : count = 1
  · subst h1
    exact hs.pmmAllocFrame
  rw [if_neg h0, if_neg h1]
  split
  · rename_i a ha
    obtain ⟨hb, hfree⟩ := findRun_spec s.gTotalFrames 0 0 0 a (by omega) rfl (by omega) ha
    exact .inr ⟨a, rfl, hb, hfree, hs.markRun hb hfree⟩
  · exact .inl ⟨rfl, rfl⟩

/-- Rounding up does not come near the end of the 64-bit range, whatever the alignment: that would need
a mask that reaches no further than memory. -/
theorem alignedStart_lt {start : ℕ} (hs : start ≤ 2 ^ 52) (align : ℕ) :
    alignedStart start align < 2 ^ 64 - 2 ^ 52 := by
  by_contra hge
  have hleft := (not_lt.mp hge).trans Nat.and_le_left
  have hright := (not_lt.mp hge).trans Nat.and_le_right
  simp only [BitVec.toNat_not, BitVec.toNat_sub, BitVec.toNat_add, BitVec.toNat_ofNat] at hleft hright
  omega

/-- The run found by `pmm_alloc_aligned_frames` starts at a rounded frame, lies inside memory and is
free. The first check of the loop bounds `count`, so no later sum wraps. -/
theorem findAlignedRun_spec (hs : s.Inv) {align : ℕ} (fuel : ℕ) {start r : ℕ} (hcount : count < 2 ^ 64)
    (hstart : start ≤ s.gTotalFrames) (hinit : start = 0 ∨ count ≤ s.gTotalFrames)
    (h : s.findAlignedRun count align fuel start = some r) :
    r + count ≤ s.gTotalFrames ∧ ∀ f, r ≤ f → f < r + count → s.bitmapTestBit f = false := by
  have htot := hs.total_lt
  induction fuel generalizing start with
  | zero => simp [findAlignedRun] at h
  | succ fuel ih =>
    rw [findAlignedRun] at h
    by_cases hfit : wrap64 (start + count) ≤ s.gTotalFrames
    · rw [if_pos hfit] at h
      have hcount' : count ≤ s.gTotalFrames := by
        rcases hinit with rfl | hle
        · rwa [zero_add, wrap64_of_lt hcount] at hfit
        · exact hle
      have ha := alignedStart_lt (show start ≤ 2 ^ 52 by omega) align
      set a := alignedStart start align
      have hwrap : wrap64 (a + count) = a + count := wrap64_of_lt (by omega)
      simp only [hwrap] at h
      by_cases hend : a + count > s.gTotalFrames
      · simp [hend] at h
      · rw [if_neg hend] at h
        split at h
        · rename_i f hf
          have hlt := (findUp_eq_some hf).1
          exact ih (by omega) (.inr hcount') h
        · rename_i hnone
          rw [some.injEq] at h
          subst h
          exact ⟨by omega, findUp_eq_none hnone⟩
    · simp [hfit] at h

/-- `pmm_alloc_aligned_frames`. -/
theorem Inv.pmmAllocAlignedFrames (hs : s.Inv) (hcount : count < 2 ^ 64) (align : ℕ) :
    s.AllocPost count (s.pmmAllocAlignedFrames count align) := by
  unfold Pmm.pmmAllocAlignedFrames
  by_cases h0 : count = 0
  · exact .inl (by simp [h0])
  by_cases h1 : align ≤ 1
  · rw [if_neg h0, if_pos h1]
    exact hs.pmmAllocFrames count
  rw [if_neg h0, if_neg h1]
  split
  · rename_i a ha
    obtain ⟨hb, hfree⟩ := findAlignedRun_spec hs _ hcount (Nat.zero_le _) (.inl rfl) ha
    exact .inr ⟨a, rfl, hb, hfree, hs.markRun hb hfree⟩
  · exact .inl ⟨rfl, rfl⟩

/-! ## Release -/

/-- The frames a free of `count` frames at `physAddr` names; `NULL` and unaligned addresses name
none. -/
def namedFrames (physAddr count : ℕ) : Finset ℕ :=
  if physAddr = 0 ∨ physAddr % pageSize ≠ 0 then ∅
  else Finset.Ico (physAddr / pageSize) (physAddr / pageSize + count)

/-- `pmm_free_frame` removes the frame it names. -/
theorem Inv.pmmFreeFrame (hs : s.Inv) (physAddr : ℕ) :
    s.Post (s.usedSet \ namedFrames physAddr 1) (s.pmmFreeFrame physAddr) := by
  unfold Pmm.pmmFreeFrame namedFrames
  by_cases hbad : physAddr = 0 ∨ physAddr % pageSize ≠ 0
  · rw [if_pos hbad, if_pos hbad]
    exact hs.post_self
  rw [if_neg hbad, if_neg hbad]
  set f := physAddr / pageSize
  have hsingle : Finset.Ico f (f + 1) = {f} := Nat.Ico_succ_singleton f
  rw [hsingle, sdiff_singleton_eq_erase]
  by_cases hge : f ≥ s.gTotalFrames
  · rw [if_pos hge, erase_eq_of_notMem (fun hmem => by
      have := (mem_usedSet.mp hmem).1
      omega)]
    exact hs.post_self
  rw [if_neg hge]
  by_cases hset : s.bitmapTestBit f = true
  · rw [if_pos hset]
    exact (hs.releaseFrame (by omega)).lowerCursor _
  · rw [if_neg hset, erase_eq_of_notMem (fun hmem => hset (mem_usedSet.mp hmem).2)]
    exact hs.post_self

/-- `pmm_free_frames` removes some of the frames it names: all of them that exist, or none when the
end of the range wraps. -/
theorem Inv.pmmFreeFrames (hs : s.Inv) (physAddr count : ℕ) :
    ∃ F ⊆ namedFrames physAddr count, s.Post (s.usedSet \ F) (s.pmmFreeFrames physAddr count) := by
  unfold Pmm.pmmFreeFrames namedFrames
  by_cases hbad : physAddr = 0 ∨ physAddr % pageSize ≠ 0 ∨ count = 0
  · rw [if_pos hbad]
    exact ⟨∅, empty_subset _, by simpa using hs.post_self⟩
  rw [if_neg hbad, if_neg (fun h => hbad (h.imp_right .inl))]
  set a := physAddr / pageSize
  dsimp only
  set b := if wrap64 (a + count) > s.gTotalFrames then s.gTotalFrames else wrap64 (a + count)
    with hb
  have hbtot : b ≤ s.gTotalFrames := by
    rw [hb]
    split <;> omega
  have hbend : b ≤ a + count := by
    have := wrap64_le (a + count)
    rw [hb]
    split <;> omega
  rcases le_total a b with hle | hge
  · exact ⟨Finset.Ico a b, Finset.Ico_subset_Ico_right hbend,
      (hs.forUp_releaseFrame hle hbtot).lowerCursor _⟩
  · rw [forUp_of_le hge]
    refine ⟨∅, empty_subset _, ?_⟩
    exact hs.post_self.lowerCursor _

/-- `pmm_free_frames` of frames that exist removes all of them. -/
theorem Inv.pmmFreeFrames_of_le (hs : s.Inv) {physAddr : ℕ} (hne : physAddr ≠ 0)
    (halign : physAddr % pageSize = 0) (hend : physAddr / pageSize + count ≤ s.gTotalFrames) :
    s.Post (s.usedSet \ Finset.Ico (physAddr / pageSize) (physAddr / pageSize + count))
      (s.pmmFreeFrames physAddr count) := by
  unfold Pmm.pmmFreeFrames
  by_cases hzero : count = 0
  · rw [if_pos (.inr (.inr hzero)), hzero, add_zero, Finset.Ico_self]
    exact hs.post_self
  have htotal := hs.total_lt
  have hwrap : wrap64 (physAddr / pageSize + count) = physAddr / pageSize + count :=
    wrap64_of_lt (by omega)
  rw [if_neg (by simp [hne, halign, hzero])]
  dsimp only
  rw [hwrap, if_neg (by omega)]
  exact (hs.forUp_releaseFrame (Nat.le_add_right _ _) hend).lowerCursor _

end NovaOS.Mem.Pmm
