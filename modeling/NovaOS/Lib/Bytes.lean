import Mathlib.Data.List.Basic
import Mathlib.Algebra.Group.Nat.Defs
import Mathlib.Order.Nat

/-!
# Byte buffers

A buffer is a list of bytes of a fixed length. `fill buf bytes` is a transfer of `bytes` to the
start of the buffer; what does not fit is dropped. `le16`, `le32` and `le64` read little-endian
integers and `toLe` writes them.
-/

namespace NovaOS.Lib

open List

/-- The little-endian 16-bit integer at offset `i`. -/
def le16 (b : ℕ → UInt8) (i : ℕ) : ℕ := (b i).toNat + 256 * (b (i + 1)).toNat

/-- The little-endian 32-bit integer at offset `i`. -/
def le32 (b : ℕ → UInt8) (i : ℕ) : ℕ := le16 b i + 65536 * le16 b (i + 2)

theorem le16_lt (b : ℕ → UInt8) (i : ℕ) : le16 b i < 65536 := by
  have h0 := (b i).toNat_lt
  have h1 := (b (i + 1)).toNat_lt
  unfold le16
  omega

theorem le32_lt (b : ℕ → UInt8) (i : ℕ) : le32 b i < 2 ^ 32 := by
  have h0 := le16_lt b i
  have h1 := le16_lt b (i + 2)
  unfold le32
  omega

/-- The little-endian 64-bit integer at offset `i`. -/
def le64 (b : ℕ → UInt8) (i : ℕ) : ℕ := le32 b i + 2 ^ 32 * le32 b (i + 4)

theorem le64_lt (b : ℕ → UInt8) (i : ℕ) : le64 b i < 2 ^ 64 := by
  have h0 := le32_lt b i
  have h1 := le32_lt b (i + 4)
  unfold le64
  omega

/-- The integer `n` as `width` little-endian bytes. -/
def toLe : (width n : ℕ) → List UInt8
  | 0, _ => []
  | width + 1, n => UInt8.ofNat n :: toLe width (n / 256)

@[simp] theorem length_toLe (width n : ℕ) : (toLe width n).length = width := by
  induction width generalizing n with
  | zero => rfl
  | succ width ih => rw [toLe, length_cons, ih]

/-- The buffer after `bytes` have been written to its start. -/
def fill (buf bytes : List UInt8) : List UInt8 := (bytes ++ buf.drop bytes.length).take buf.length

theorem length_fill (buf bytes : List UInt8) : (fill buf bytes).length = buf.length := by
  simp only [fill, length_take, length_append, length_drop]
  omega

variable {buf bytes : List UInt8}

/-- A transfer of the buffer's size replaces its contents. -/
theorem fill_of_length_eq (h : bytes.length = buf.length) : fill buf bytes = bytes := by
  rw [fill, h, drop_length, append_nil, ← h, take_length]

/-- A transfer that fits stands at the start, and the rest of the buffer behind it. -/
theorem fill_of_length_le (h : bytes.length ≤ buf.length) :
    fill buf bytes = bytes ++ buf.drop bytes.length := by
  rw [fill, take_of_length_le]
  rw [length_append, length_drop]
  omega

section

variable {α β : Type} {f : α → List β} {n : ℕ}

theorem length_flatMap_of_length (hf : ∀ a, (f a).length = n) (l : List α) :
    (l.flatMap f).length = l.length * n := by
  induction l with
  | nil => simp
  | cons a l ih => rw [flatMap_cons, length_append, hf, ih, length_cons,
      Nat.add_mul, Nat.one_mul, Nat.add_comm]

/-- Whole pieces of equal length can be dropped from a concatenation one by one. -/
theorem drop_flatMap_of_length (hf : ∀ a, (f a).length = n) (l : List α) (k : ℕ) :
    (l.flatMap f).drop (k * n) = (l.drop k).flatMap f := by
  induction l generalizing k with
  | nil => simp
  | cons a l ih =>
    cases k with
    | zero => simp
    | succ k =>
      rw [flatMap_cons, Nat.add_mul, Nat.one_mul, Nat.add_comm, ← drop_drop,
        drop_append_of_le_length (hf a).ge, drop_of_length_le (hf a).le,
        nil_append, ih, drop_succ_cons]

end

/-- A slice of a concatenation takes what it can from the first part and the rest from the second. -/
theorem take_drop_append {α : Type} {a b : List α} {off : ℕ} (hoff : off ≤ a.length) (m : ℕ) :
    ((a ++ b).drop off).take m =
      (a.drop off).take (min (a.length - off) m) ++ b.take (m - min (a.length - off) m) := by
  rw [drop_append_of_le_length hoff, take_append, length_drop]
  have hlen : (a.drop off).length = a.length - off := length_drop
  rcases le_total (a.length - off) m with h | h
  · rw [Nat.min_eq_left h, take_of_length_le (hlen.trans_le h), ← hlen, take_length]
  · rw [Nat.min_eq_right h, Nat.sub_self, Nat.sub_eq_zero_of_le h]

end NovaOS.Lib
