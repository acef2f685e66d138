import Mathlib.Tactic.Common

/-!
# `memcpy` and `memmove`

Reference: `kernel/string/string.c`.

Neither range of a call wraps the address space, so an address is a natural number. A pass of a
loop reads its whole byte or word before it writes: going upwards, what later passes read lies
above what is written, at any distance.
-/

namespace NovaOS.Mem

/-- Reads `w` bytes at `s`, then writes them at `d`. -/
def copyChunk (w : ℕ) (mem : ℕ → UInt8) (d s : ℕ) : ℕ → UInt8 := fun a =>
  if d ≤ a ∧ a < d + w then mem (s + (a - d)) else mem a

/-- The loops of `memcpy`: `k` passes of `w` bytes upwards from `d` and `s`. -/
def copyUp (w : ℕ) : (k : ℕ) → (mem : ℕ → UInt8) → (d s : ℕ) → ℕ → UInt8
  | 0, mem, _, _ => mem
  | k + 1, mem, d, s => copyUp w k (copyChunk w mem d s) (d + w) (s + w)

/-- `memcpy`: the pointer it returns and the memory after it. -/
def memcpy (mem : ℕ → UInt8) (dest src n : ℕ) : ℕ × (ℕ → UInt8) :=
  if dest % 8 = 0 ∧ src % 8 = 0 then
    let d := dest + n / 8 * 8
    let s := src + n / 8 * 8
    (dest, copyUp 1 (n % 8) (copyUp 8 (n / 8) mem dest src) d s)
  else (dest, copyUp 1 n mem dest src)

/-- The loop of `memmove`: `k` bytes downwards, each below the pointers `d` and `s`. -/
def copyDown : (k : ℕ) → (mem : ℕ → UInt8) → (d s : ℕ) → ℕ → UInt8
  | 0, mem, _, _ => mem
  | k + 1, mem, d, s => copyDown k (copyChunk 1 mem (d - 1) (s - 1)) (d - 1) (s - 1)

/-- `memmove`. -/
def memmove (mem : ℕ → UInt8) (dest src n : ℕ) : ℕ × (ℕ → UInt8) :=
  if dest < src then memcpy mem dest src n
  else if src < dest then (dest, copyDown n mem (dest + n) (src + n))
  else (dest, mem)

variable {mem : ℕ → UInt8} {d s : ℕ}

theorem copyChunk_zero : copyChunk 0 mem d s = mem :=
  funext fun a => if_neg (by omega)

/-- A chunk at the lower address and then the rest above it make one chunk. -/
theorem copyChunk_above (h : d ≤ s) (w k : ℕ) :
    copyChunk k (copyChunk w mem d s) (d + w) (s + w) = copyChunk (w + k) mem d s := by
  funext a
  unfold copyChunk
  by_cases hk : d + w ≤ a ∧ a < d + w + k
  · rw [if_pos hk, if_neg (by omega), if_pos (by omega), show s + w + (a - (d + w)) = s + (a - d) by omega]
  · rw [if_neg hk]
    by_cases hw : d ≤ a ∧ a < d + w
    · rw [if_pos hw, if_pos (by omega)]
    · rw [if_neg hw, if_neg (by omega)]

/-- A byte at the upper end and then the rest below it make one chunk. -/
theorem copyChunk_below (h : s ≤ d) (k : ℕ) :
    copyChunk k (copyChunk 1 mem (d + k) (s + k)) d s = copyChunk (k + 1) mem d s := by
  funext a
  unfold copyChunk
  by_cases hk : d ≤ a ∧ a < d + k
  · rw [if_pos hk, if_neg (by omega), if_pos (by omega)]
  · rw [if_neg hk]
    by_cases htop : d + k ≤ a ∧ a < d + k + 1
    · rw [if_pos htop, if_pos (by omega), show s + k + (a - (d + k)) = s + (a - d) by omega]
    · rw [if_neg htop, if_neg (by omega)]

theorem copyUp_eq (h : d ≤ s) (w k : ℕ) : copyUp w k mem d s = copyChunk (k * w) mem d s := by
  induction k generalizing mem d s with
  | zero => rw [copyUp, Nat.zero_mul, copyChunk_zero]
  | succ k ih => rw [copyUp, ih (by omega), copyChunk_above h, Nat.succ_mul, Nat.add_comm]

theorem copyDown_eq (h : s ≤ d) (k : ℕ) :
    copyDown k mem (d + k) (s + k) = copyChunk k mem d s := by
  induction k generalizing mem with
  | zero => rw [copyDown, copyChunk_zero]
  | succ k ih => exact ih.trans (copyChunk_below h k)

/-- `memcpy` to a lower address. -/
theorem memcpy_eq (h : d ≤ s) (n : ℕ) : memcpy mem d s n = (d, copyChunk n mem d s) := by
  unfold memcpy
  split
  · dsimp only
    rw [copyUp_eq h, copyUp_eq (by omega), copyChunk_above h, Nat.mul_one, Nat.div_add_mod']
  · rw [copyUp_eq h, Nat.mul_one]

/-- `memmove` puts the old contents of the source at the destination and changes nothing else. -/
theorem memmove_moves (mem : ℕ → UInt8) (dest src n : ℕ) :
    (memmove mem dest src n).1 = dest ∧
      (∀ i < n, (memmove mem dest src n).2 (dest + i) = mem (src + i)) ∧
      ∀ a, a < dest ∨ dest + n ≤ a → (memmove mem dest src n).2 a = mem a := by
  have hmove : memmove mem dest src n = (dest, copyChunk n mem dest src) := by
    unfold memmove
    split_ifs with hlt hgt
    · exact memcpy_eq (Nat.le_of_lt hlt) n
    · rw [copyDown_eq (Nat.le_of_lt hgt)]
    · obtain rfl : src = dest := by omega
      refine Prod.ext rfl (funext fun a => ?_)
      dsimp only [copyChunk]
      split_ifs with ha
      · rw [Nat.add_sub_cancel' ha.1]
      · rfl
  rw [hmove]
  refine ⟨rfl, fun i hi => ?_, fun a ha => if_neg (by omega)⟩
  dsimp only [copyChunk]
  rw [if_pos (by omega), Nat.add_sub_cancel_left]

end NovaOS.Mem
