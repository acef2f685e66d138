import Mathlib.Data.Finset.Card

/-!
# Bitmaps stored in machine words

A bitmap is a sequence of `w`-bit words; bit `f` is bit `f % w` of word `f / w`. `setBit` and
`clearBit` are the read-modify-write of one word, and `setBits b n` is the finite set of the indices
below `n` whose bit is set.
-/

namespace NovaOS.Lib

open Function

/-- The words of a bitmap, in order. -/
abbrev Bitmap (w : ℕ) := ℕ → BitVec w

namespace Bitmap

variable {w : ℕ}

/-- The mask with the single bit of index `f` inside its word. -/
def mask (w f : ℕ) : BitVec w := 1#w <<< (f % w)

/-- `words[f / w] |= 1 << (f % w)`. -/
def setBit (b : Bitmap w) (f : ℕ) : Bitmap w := update b (f / w) (b (f / w) ||| mask w f)

/-- `words[f / w] &= ~(1 << (f % w))`. -/
def clearBit (b : Bitmap w) (f : ℕ) : Bitmap w :=
  update b (f / w) (b (f / w) &&& ~~~(mask w f))

/-- `(words[f / w] & (1 << (f % w))) != 0`. -/
def testBit (b : Bitmap w) (f : ℕ) : Bool := (b (f / w) &&& mask w f) != 0#w

theorem getLsbD_mask (hw : 0 < w) (f i : ℕ) : (mask w f).getLsbD i = decide (i = f % w) := by
  have hlt : f % w < w := Nat.mod_lt _ hw
  rw [mask, ← BitVec.twoPow_eq]
  simp [hlt, eq_comm]

/-- The test reads the bit of its index. -/
theorem testBit_eq_getLsbD (hw : 0 < w) (b : Bitmap w) (f : ℕ) :
    testBit b f = (b (f / w)).getLsbD (f % w) := by
  rw [testBit, Bool.eq_iff_iff, bne_iff_ne]
  constructor
  · intro hne
    by_contra hbit
    refine hne (BitVec.eq_of_getLsbD_eq fun i hi => ?_)
    rw [BitVec.getLsbD_and, getLsbD_mask hw]
    by_cases h : i = f % w
    · subst h
      simpa using hbit
    · simp [h]
  · intro hbit heq
    have h := congrArg (fun x => x.getLsbD (f % w)) heq
    simp [getLsbD_mask hw, hbit] at h

variable {f n : ℕ}

/-- Two indices with the same word and the same place in it are equal. -/
private theorem eq_of_div_mod {g : ℕ} (hd : f / w = g / w) (hm : f % w = g % w) : f = g := by
  rw [← Nat.div_add_mod f w, ← Nat.div_add_mod g w, hd, hm]

/-- Setting a bit sets that bit and no other. -/
theorem testBit_setBit (hw : 0 < w) (b : Bitmap w) (f g : ℕ) :
    testBit (setBit b f) g = (decide (g = f) || testBit b g) := by
  rw [testBit_eq_getLsbD hw, testBit_eq_getLsbD hw, setBit]
  by_cases hd : g / w = f / w
  · rw [hd, update_self, BitVec.getLsbD_or, getLsbD_mask hw, Bool.or_comm]
    congr 1
    rw [decide_eq_decide]
    exact ⟨eq_of_div_mod hd, fun h => h ▸ rfl⟩
  · rw [update_of_ne hd]
    have hne : g ≠ f := fun h => hd (h ▸ rfl)
    simp [hne]

/-- Clearing a bit clears that bit and no other. -/
theorem testBit_clearBit (hw : 0 < w) (b : Bitmap w) (f g : ℕ) :
    testBit (clearBit b f) g = (decide (g ≠ f) && testBit b g) := by
  rw [testBit_eq_getLsbD hw, testBit_eq_getLsbD hw, clearBit]
  by_cases hd : g / w = f / w
  · rw [hd, update_self, BitVec.getLsbD_and, BitVec.getLsbD_not, getLsbD_mask hw,
      Bool.and_comm]
    have hlt : g % w < w := Nat.mod_lt _ hw
    have hiff : g % w = f % w ↔ g = f := ⟨eq_of_div_mod hd, fun h => h ▸ rfl⟩
    simp [hlt, hiff]
  · rw [update_of_ne hd]
    have hne : g ≠ f := fun h => hd (h ▸ rfl)
    simp [hne]

variable {b : Bitmap w}

/-- A word of ones has every bit set. -/
theorem testBit_of_word_allOnes (hw : 0 < w) (h : b (f / w) = BitVec.allOnes w) :
    testBit b f = true := by
  rw [testBit_eq_getLsbD hw, h]
  simpa using Nat.mod_lt f hw

/-- The lowest clear bit of a word that is not all ones: its index inside the word is below the
width, the bit is clear, and those below it are set. -/
theorem testBit_lowestClear (hw : 0 < w) {i : ℕ} (h : b i ≠ BitVec.allOnes w) :
    testBit b (i * w + (~~~(b i)).ctz.toNat) = false := by
  have hne : ~~~(b i) ≠ 0#w := by
    intro h0
    apply h
    rw [← BitVec.not_not (b := b i), h0, BitVec.not_zero]
  have hset := BitVec.getLsbD_true_ctz_of_ne_zero hne
  have hlt : (~~~(b i)).ctz.toNat < w := BitVec.lt_of_getLsbD hset
  rw [testBit_eq_getLsbD hw, Nat.mul_comm, Nat.mul_add_div hw, Nat.div_eq_of_lt hlt,
    Nat.mul_add_mod, Nat.mod_eq_of_lt hlt]
  simpa [hlt] using hset

/-- The indices below `n` whose bit is set. -/
def setBits (b : Bitmap w) (n : ℕ) : Finset ℕ := (Finset.range n).filter fun f => testBit b f = true

@[simp] theorem mem_setBits : f ∈ setBits b n ↔ f < n ∧ testBit b f = true := by
  simp [setBits]

theorem setBits_card_le (b : Bitmap w) (n : ℕ) : (setBits b n).card ≤ n := by
  simpa [setBits] using Finset.card_filter_le (Finset.range n) (fun f => testBit b f = true)

theorem setBits_setBit (hw : 0 < w) (b : Bitmap w) (hf : f < n) :
    setBits (setBit b f) n = insert f (setBits b n) := by
  ext g
  simp only [mem_setBits, testBit_setBit hw, Finset.mem_insert, Bool.or_eq_true, decide_eq_true_eq]
  constructor
  · rintro ⟨hg, rfl | h⟩
    · exact .inl rfl
    · exact .inr ⟨hg, h⟩
  · rintro (rfl | ⟨hg, h⟩)
    · exact ⟨hf, .inl rfl⟩
    · exact ⟨hg, .inr h⟩

theorem setBits_clearBit (hw : 0 < w) (b : Bitmap w) (n f : ℕ) :
    setBits (clearBit b f) n = (setBits b n).erase f := by
  ext g
  simp only [mem_setBits, testBit_clearBit hw, Finset.mem_erase, Bool.and_eq_true,
    decide_eq_true_eq]
  exact and_left_comm

end Bitmap

end NovaOS.Lib
