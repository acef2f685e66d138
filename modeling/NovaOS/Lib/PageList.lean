import Mathlib.Tactic.Common

/-!
# Lists kept in linked pages

A list too long for one page is spread over several: every page but the last keeps its last slot for
a link to the next page, and the last page uses it for an entry. `k` is the number of entries of a
page that has a link, so a page has `k + 1` slots. `load p i` reads slot `i` of page `p`, as an entry
or as a link.
-/

namespace NovaOS.Lib.PageList

open Nat List

variable {α : Type} (k : ℕ) (load : α → ℕ → α)

/-- The number of pages that `n` entries take. -/
def pages (n : ℕ) : ℕ := if n ≤ k + 1 then 1 else 1 + (n - (k + 1) + (k - 1)) / k

/-- The `n` entries that a reader of the list at `page` finds. -/
def read (page : α) (n : ℕ) : List α :=
  if k = 0 ∨ n ≤ k + 1 then (range n).map (load page)
  else (range k).map (load page) ++ read (load page k) (n - k)
termination_by n

/-- The pages that the reader visits. -/
def visited (page : α) (n : ℕ) : List α :=
  if k = 0 ∨ n ≤ k + 1 then [page] else page :: visited (load page k) (n - k)
termination_by n

variable {k} {load} {n : ℕ}

theorem read_last (page : α) (hn : n ≤ k + 1) :
    read k load page n = (range n).map (load page) := by
  rw [read, if_pos (.inr hn)]

theorem read_link (page : α) (hk : k ≠ 0) (hn : k + 1 < n) :
    read k load page n = (range k).map (load page) ++ read k load (load page k) (n - k) := by
  rw [read, if_neg (by omega)]

theorem visited_last (page : α) (hn : n ≤ k + 1) : visited k load page n = [page] := by
  rw [visited, if_pos (.inr hn)]

theorem visited_link (page : α) (hk : k ≠ 0) (hn : k + 1 < n) :
    visited k load page n = page :: visited k load (load page k) (n - k) := by
  rw [visited, if_neg (by omega)]

theorem pages_last (hn : n ≤ k + 1) : pages k n = 1 := if_pos hn

/-- A page with a link leaves a list that takes one page less. -/
theorem pages_link (hk : k ≠ 0) (hn : k + 1 < n) : pages k n = pages k (n - k) + 1 := by
  rw [pages, if_neg (by omega)]
  by_cases h : n - k ≤ k + 1
  · have hq : (n - (k + 1) + (k - 1)) / k = 1 := by
      rw [Nat.div_eq_iff (by omega)]
      omega
    rw [pages_last h, hq]
  · have hsub : n - (k + 1) + (k - 1) = n - k - (k + 1) + (k - 1) + k := by omega
    rw [pages, if_neg h, hsub, add_div_right _ (by omega)]
    omega

theorem pages_pos : 0 < pages k n := by
  unfold pages
  split
  · exact Nat.one_pos
  · exact Nat.lt_of_lt_of_le Nat.one_pos (Nat.le_add_right _ _)

/-! ## Where the entries are -/

variable (k) in
/-- The page and the slot of entry `j` in a list whose first `l` pages have links. -/
def slot : (l j : ℕ) → ℕ × ℕ
  | 0, j => (0, j)
  | l + 1, j => if j < k then (0, j) else ((slot l (j - k)).1 + 1, (slot l (j - k)).2)

variable {l j p e : ℕ}

theorem slot_of_lt (hj : j < k) : slot k l j = (0, j) := by
  cases l with
  | zero => rfl
  | succ l => rw [slot, if_pos hj]

theorem slot_add (l j : ℕ) : slot k (l + 1) (k + j) = ((slot k l j).1 + 1, (slot k l j).2) := by
  rw [slot, if_neg (by omega), Nat.add_sub_cancel_left]

theorem slot_sum (l j : ℕ) : (slot k l j).1 * k + (slot k l j).2 = j := by
  induction l generalizing j with
  | zero => simp [slot]
  | succ l ih =>
    rcases Nat.lt_or_ge j k with hj | hj
    · simp [slot_of_lt hj]
    · obtain ⟨i, rfl⟩ := Nat.exists_eq_add_of_le hj
      have hi := ih i
      rw [slot_add, Nat.add_mul]
      omega

theorem slot_fst_le (l j : ℕ) : (slot k l j).1 ≤ l := by
  induction l generalizing j with
  | zero => exact zero_le _
  | succ l ih =>
    rcases Nat.lt_or_ge j k with hj | hj
    · simp [slot_of_lt hj]
    · obtain ⟨i, rfl⟩ := Nat.exists_eq_add_of_le hj
      rw [slot_add]
      exact succ_le_succ (ih i)

/-- No entry is in the last slot of a page with a link. -/
theorem slot_snd_lt (h : (slot k l j).1 < l) : (slot k l j).2 < k := by
  induction l generalizing j with
  | zero => exact absurd h (not_lt_zero _)
  | succ l ih =>
    rcases Nat.lt_or_ge j k with hj | hj
    · rwa [slot_of_lt hj]
    · obtain ⟨i, rfl⟩ := Nat.exists_eq_add_of_le hj
      rw [slot_add] at h ⊢
      exact ih (lt_of_succ_lt_succ h)

/-- The page and the slot are determined by the number of entries before them. -/
theorem slot_eq (hsum : p * k + e = j) (hp : p ≤ l) (he : p < l → e < k) : slot k l j = (p, e) := by
  have hsum' := slot_sum (k := k) l j
  have hle := slot_fst_le (k := k) l j
  have hlt := slot_snd_lt (k := k) (l := l) (j := j)
  generalize slot k l j = r at hsum' hle hlt
  obtain ⟨p', e'⟩ := r
  dsimp only at hsum'
  -- the earlier of two different pages would have a link and too many entries
  have hpage : p' = p := by
    rcases Nat.lt_trichotomy p' p with h | h | h
    · have := mul_le_mul_right k (succ_le_of_lt h)
      rw [succ_mul] at this
      omega
    · exact h
    · have := mul_le_mul_right k (succ_le_of_lt h)
      rw [succ_mul] at this
      omega
  subst hpage
  rw [show e' = e by omega]

theorem lt_of_pages (hpages : pages k n = l + 2) : k + 1 < n := by
  by_contra hn
  rw [pages_last (by omega)] at hpages
  omega

theorem pages_eq_one_iff (hk : k ≠ 0) : pages k n = 1 ↔ n ≤ k + 1 := by
  refine ⟨fun hpages => ?_, pages_last⟩
  by_contra hn
  rw [pages_link hk (by omega)] at hpages
  have := pages_pos (k := k) (n := n - k)
  omega

/-- The entries of a list fit in its pages. -/
theorem slot_snd_le (hk : k ≠ 0) (hpages : pages k n = l + 1) (hj : j < n) :
    (slot k l j).2 ≤ k := by
  induction l generalizing j n with
  | zero =>
    have hn := (pages_eq_one_iff hk).mp hpages
    show j ≤ k
    omega
  | succ l ih =>
    rcases Nat.lt_or_ge j k with hjk | hjk
    · rw [slot_of_lt hjk]
      exact Nat.le_of_lt hjk
    · obtain ⟨i, rfl⟩ := Nat.exists_eq_add_of_le hjk
      have hn := lt_of_pages hpages
      rw [pages_link hk hn] at hpages
      rw [slot_add]
      exact ih (n := n - k) (by omega) (by omega)

/-- The last entry of a list is in its last page. -/
theorem slot_last (hk : k ≠ 0) (hpages : pages k (n + 1) = l + 1) : (slot k l n).1 = l := by
  induction l generalizing n with
  | zero => rfl
  | succ l ih =>
    have hn := lt_of_pages hpages
    obtain ⟨i, rfl⟩ := Nat.exists_eq_add_of_le (show k ≤ n by omega)
    rw [pages_link hk hn, show k + i + 1 - k = i + 1 by omega] at hpages
    rw [slot_add, ih (by omega)]

/-- Pages `f` that hold the entries `g` at their slots and the links read as the list. -/
theorem read_of_slots (hk : k ≠ 0) (hpages : pages k n = l + 1) {f g : ℕ → α}
    (hentries : ∀ j < n, load (f (slot k l j).1) (slot k l j).2 = g j)
    (hlinks : ∀ q < l, load (f q) k = f (q + 1)) :
    read k load (f 0) n = (range n).map g ∧
      visited k load (f 0) n = (range (l + 1)).map f := by
  induction l generalizing n f g with
  | zero =>
    have hn := (pages_eq_one_iff hk).mp hpages
    rw [read_last _ hn, visited_last _ hn]
    refine ⟨map_congr_left fun j hj => ?_, rfl⟩
    exact hentries j (mem_range.mp hj)
  | succ l ih =>
    have hn := lt_of_pages hpages
    obtain ⟨i, rfl⟩ := Nat.exists_eq_add_of_le (show k ≤ n by omega)
    rw [pages_link hk hn, Nat.add_sub_cancel_left] at hpages
    have hrest := ih (n := i) (f := fun q => f (q + 1)) (g := fun j => g (k + j))
      (by omega) (fun j hj => by rw [← hentries (k + j) (by omega), slot_add])
      (fun q hq => hlinks (q + 1) (by omega))
    rw [read_link _ hk hn, visited_link _ hk hn, hlinks 0 (by omega), Nat.add_sub_cancel_left,
      hrest.1, hrest.2, range_add, map_append, map_map,
      range_succ_eq_map (n := l + 1), map_cons, map_map]
    refine ⟨congrArg (· ++ _) (map_congr_left fun j hj => ?_), rfl⟩
    have hjk := mem_range.mp hj
    rw [← hentries j (by omega), slot_of_lt hjk]

end NovaOS.Lib.PageList
