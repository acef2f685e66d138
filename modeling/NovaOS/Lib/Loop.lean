import Mathlib.Data.List.Range

/-!
# Counted loops

`forUp lo hi body s` is the loop `for (i = lo; i < hi; i++) s = body(i, s)` and `findUp lo hi p` is
the loop that leaves at the first index satisfying `p`. Both are plain recursions over the list of
indices, so they evaluate; proofs about them go through the rules below.
-/

namespace NovaOS.Lib

open List

universe u

variable {σ : Type u}

/-- `for (i = lo; i < hi; i++) s = body(i, s)`. -/
def forUp (lo hi : ℕ) (body : ℕ → σ → σ) (s : σ) : σ :=
  (range' lo (hi - lo)).foldl (fun s i => body i s) s

variable {lo hi : ℕ}

/-- A loop whose bounds are crossed does nothing. -/
theorem forUp_of_le (h : hi ≤ lo) (body : ℕ → σ → σ) (s : σ) : forUp lo hi body s = s := by
  have hlen : hi - lo = 0 := by omega
  simp [forUp, hlen]

/-- The first iteration of a loop. -/
theorem forUp_of_lt (h : lo < hi) (body : ℕ → σ → σ) (s : σ) :
    forUp lo hi body s = forUp (lo + 1) hi body (body lo s) := by
  have hlen : hi - lo = (hi - (lo + 1)) + 1 := by omega
  simp only [forUp, hlen, range'_succ, foldl_cons]

/-- The invariant rule: what the body carries from `i` to `i + 1` holds at the end of the loop. -/
theorem forUp_invariant {body : ℕ → σ → σ} {s : σ} (P : ℕ → σ → Prop) (hle : lo ≤ hi)
    (h0 : P lo s) (hstep : ∀ i s, lo ≤ i → i < hi → P i s → P (i + 1) (body i s)) :
    P hi (forUp lo hi body s) := by
  -- induction on the number of iterations left, with the start index and the state free
  suffices H : ∀ (n i : ℕ) (t : σ), hi - i = n → lo ≤ i → i ≤ hi → P i t →
      P hi (forUp i hi body t) from H (hi - lo) lo s rfl le_rfl hle h0
  intro n
  induction n with
  | zero =>
    intro i t hn _ hi' hp
    obtain rfl : i = hi := by omega
    rwa [forUp_of_le le_rfl]
  | succ n ih =>
    intro i t hn hlo _ hp
    rw [forUp_of_lt (by omega)]
    exact ih (i + 1) _ (by omega) (by omega) (by omega) (hstep i t hlo (by omega) hp)

/-- The loop that leaves at the first index in `[lo, hi)` satisfying `p`. -/
def findUp (lo hi : ℕ) (p : ℕ → Bool) : Option ℕ := (range' lo (hi - lo)).find? p

variable {p : ℕ → Bool}

/-- The index at which the search stops. -/
theorem findUp_eq_some {i : ℕ} (h : findUp lo hi p = some i) : i < hi ∧ p i = true := by
  have hmem := mem_of_find?_eq_some h
  rw [mem_range'_1] at hmem
  exact ⟨by omega, find?_some h⟩

/-- A search that falls through has seen no index satisfying `p`. -/
theorem findUp_eq_none (h : findUp lo hi p = none) : ∀ j, lo ≤ j → j < hi → p j = false := by
  intro j hlo hhi
  have hall := find?_eq_none.mp h j (by rw [mem_range'_1]; omega)
  simpa using hall

end NovaOS.Lib
