import Mathlib.Algebra.Group.Nat.Defs
import Mathlib.Tactic.Common

/-!
# Unsigned 64-bit and 32-bit arithmetic on natural numbers

A `uint64_t` is a natural number below `2 ^ 64`. An operation that can leave the range is written
with `wrap64`; one that cannot is written as it stands. A `uint32_t` is treated alike with `wrap32`.
-/

namespace NovaOS.Lib

/-- Reduction to 64 bits. -/
def wrap64 (x : ℕ) : ℕ := x % 2 ^ 64

/-- `a - b` on 64 bits. -/
def sub64 (a b : ℕ) : ℕ := (a + 2 ^ 64 - b) % 2 ^ 64

theorem wrap64_lt (x : ℕ) : wrap64 x < 2 ^ 64 := Nat.mod_lt _ (by decide)

variable {x a b : ℕ}

theorem wrap64_of_lt (h : x < 2 ^ 64) : wrap64 x = x := Nat.mod_eq_of_lt h

theorem wrap64_le (x : ℕ) : wrap64 x ≤ x := Nat.mod_le _ _

theorem sub64_of_le (hb : b ≤ a) (ha : a < 2 ^ 64) : sub64 a b = a - b := by
  unfold sub64
  omega

/-- Reduction to 32 bits. -/
def wrap32 (x : ℕ) : ℕ := x % 2 ^ 32

/-- `a - b` on 32 bits. -/
def sub32 (a b : ℕ) : ℕ := (a + 2 ^ 32 - b % 2 ^ 32) % 2 ^ 32

theorem wrap32_of_lt (h : x < 2 ^ 32) : wrap32 x = x := Nat.mod_eq_of_lt h

theorem sub32_lt (a b : ℕ) : sub32 a b < 2 ^ 32 := Nat.mod_lt _ (by decide)

theorem sub32_of_le (hb : b ≤ a) (ha : a < 2 ^ 32) : sub32 a b = a - b := by
  unfold sub32
  omega

end NovaOS.Lib
