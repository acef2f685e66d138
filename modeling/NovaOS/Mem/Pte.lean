import NovaOS.Mem.Pmm
import Mathlib.Data.Nat.Bitwise

/-!
# Page-table entry words

Reference: `kernel/mem/vmm.h`, `kernel/mem/vmm.c`.

The flag bits, the address field and the words that `vmm.c` composes from them, with the values that
the fields of a composed word read back as.
-/

namespace NovaOS.Mem

open BitVec

/-- A page-table entry. -/
abbrev Pte := BitVec 64

def vmmFlagPresent : Pte := 1#64 <<< 0
def vmmFlagWritable : Pte := 1#64 <<< 1
def vmmFlagUser : Pte := 1#64 <<< 2
def vmmFlagHuge : Pte := 1#64 <<< 7
def vmmFlagNoExecute : Pte := 1#64 <<< 63

/-- `PTE_ADDR_MASK`. -/
def pteAddrMask : Pte := 0x000FFFFFFFFFF000#64

namespace Pte

/-- `e & flag` as a condition. -/
def has (e flag : Pte) : Bool := (e &&& flag) != 0#64

/-- `e & PTE_ADDR_MASK`. -/
def addr (e : Pte) : ℕ := (e &&& pteAddrMask).toNat

/-- The table a present entry refers to. -/
def child (e : Pte) : Option ℕ := if e.has vmmFlagPresent then some e.addr else none

/-- The entry that links a new table: `frame | PRESENT | WRITABLE`, and `USER` when asked for. -/
def dir (frame : ℕ) (flags : Pte) : Pte :=
  let entryFlags := vmmFlagPresent ||| vmmFlagWritable
  let entryFlags := if flags.has vmmFlagUser then entryFlags ||| vmmFlagUser else entryFlags
  BitVec.ofNat 64 frame ||| entryFlags

/-- The flags added to an entry that is already present. -/
def widen (e flags : Pte) : Pte :=
  let e := if flags.has vmmFlagUser then e ||| vmmFlagUser else e
  if flags.has vmmFlagWritable then e ||| vmmFlagWritable else e

/-- The leaf entry `(phys & PTE_ADDR_MASK) | flags | PRESENT`. -/
def leaf (phys : ℕ) (flags : Pte) : Pte :=
  (BitVec.ofNat 64 phys &&& pteAddrMask) ||| flags ||| vmmFlagPresent

/-! ## Single bits -/

theorem has_shiftLeft {k : ℕ} (hk : k < 64) (e : Pte) : e.has (1#64 <<< k) = e.getLsbD k := by
  have h := Lib.Bitmap.testBit_eq_getLsbD (by decide) (fun _ => e) k
  rwa [Lib.Bitmap.testBit, Lib.Bitmap.mask, Nat.mod_eq_of_lt hk] at h

@[simp] theorem has_present (e : Pte) : e.has vmmFlagPresent = e.getLsbD 0 :=
  has_shiftLeft (by decide) e

@[simp] theorem has_writable (e : Pte) : e.has vmmFlagWritable = e.getLsbD 1 :=
  has_shiftLeft (by decide) e

@[simp] theorem has_user (e : Pte) : e.has vmmFlagUser = e.getLsbD 2 := has_shiftLeft (by decide) e

@[simp] theorem has_huge (e : Pte) : e.has vmmFlagHuge = e.getLsbD 7 := has_shiftLeft (by decide) e

@[simp] theorem has_noExecute (e : Pte) : e.has vmmFlagNoExecute = e.getLsbD 63 :=
  has_shiftLeft (by decide) e

theorem getLsbD_pteAddrMask (i : ℕ) : pteAddrMask.getLsbD i = decide (12 ≤ i ∧ i < 52) := by
  by_cases hi : i < 64
  · have hall : ∀ j : Fin 64, pteAddrMask.getLsbD j.val = decide (12 ≤ j.val ∧ j.val < 52) := by
      decide
    exact hall ⟨i, hi⟩
  · rw [getLsbD_of_ge _ _ (by omega)]
    simp
    omega

/-- Flags outside the address field. -/
def FlagsOnly (flags : Pte) : Prop := flags &&& pteAddrMask = 0#64

instance (flags : Pte) : Decidable flags.FlagsOnly :=
  inferInstanceAs (Decidable (flags &&& pteAddrMask = 0#64))

theorem FlagsOnly.getLsbD {flags : Pte} (h : FlagsOnly flags) {i : ℕ} (h1 : 12 ≤ i) (h2 : i < 52) :
    flags.getLsbD i = false := by
  have hbit := congrArg (fun x => x.getLsbD i) h
  simpa [getLsbD_pteAddrMask, h1, h2] using hbit

end Pte

/-- The address of a frame that fits a page-table entry. -/
structure FrameAddr (p : ℕ) : Prop where
  aligned : p % pageSize = 0
  ne_zero : p ≠ 0
  lt : p < 2 ^ 52

instance (p : ℕ) : Decidable (FrameAddr p) :=
  decidable_of_iff (p % pageSize = 0 ∧ p ≠ 0 ∧ p < 2 ^ 52)
    ⟨fun h => ⟨h.1, h.2.1, h.2.2⟩, fun h => ⟨h.aligned, h.ne_zero, h.lt⟩⟩

theorem FrameAddr.getLsbD {p : ℕ} (h : FrameAddr p) {i : ℕ} (hi : i < 12 ∨ 52 ≤ i) :
    (BitVec.ofNat 64 p).getLsbD i = false := by
  rw [getLsbD_ofNat]
  rcases hi with hi | hi
  · obtain ⟨k, rfl⟩ : ∃ k, p = k * 2 ^ 12 :=
      ⟨p / 2 ^ 12, by have := h.aligned; rw [pageSize] at this; omega⟩
    have hbit : (k * 2 ^ 12).testBit i = false := by
      rw [Nat.testBit_mul_two_pow]
      simp
      omega
    rw [hbit, Bool.and_false]
  · have hbit : p.testBit i = false :=
      Nat.testBit_lt_two_pow (lt_of_lt_of_le h.lt (Nat.pow_le_pow_right (by decide) hi))
    rw [hbit, Bool.and_false]

namespace Pte

variable {e : Pte}

/-- The address field of a word that carries a frame address and bits outside the field. -/
theorem addr_of_getLsbD {p : ℕ} (hp : FrameAddr p)
    (h : ∀ i, 12 ≤ i → i < 52 → e.getLsbD i = (BitVec.ofNat 64 p).getLsbD i) : e.addr = p := by
  have heq : e &&& pteAddrMask = BitVec.ofNat 64 p := by
    refine eq_of_getLsbD_eq fun i _ => ?_
    rw [getLsbD_and, getLsbD_pteAddrMask]
    by_cases hi : 12 ≤ i ∧ i < 52
    · simp [hi, h i hi.1 hi.2]
    · rw [hp.getLsbD (by omega)]
      simp [hi]
  have hlt := hp.lt
  rw [addr, heq, toNat_ofNat, Nat.mod_eq_of_lt (by omega)]

theorem addr_congr {e' : Pte} (h : ∀ i, 12 ≤ i → i < 52 → e.getLsbD i = e'.getLsbD i) :
    e.addr = e'.addr := by
  rw [addr]
  congr 1
  refine eq_of_getLsbD_eq fun i _ => ?_
  rw [getLsbD_and, getLsbD_and, getLsbD_pteAddrMask]
  by_cases hi : 12 ≤ i ∧ i < 52
  · rw [h i hi.1 hi.2]
  · simp [hi]

/-! ## Composed words -/

/-- The bits of an entry that links a table. -/
theorem getLsbD_dir (frame : ℕ) (flags : Pte) (i : ℕ) :
    (dir frame flags).getLsbD i =
      ((BitVec.ofNat 64 frame).getLsbD i || decide (i = 0) || decide (i = 1) ||
        (flags.getLsbD 2 && decide (i = 2))) := by
  unfold dir
  rw [has_user]
  cases flags.getLsbD 2 <;>
    simp [vmmFlagPresent, vmmFlagWritable, vmmFlagUser, ← twoPow_eq,
      getLsbD_twoPow, Bool.or_assoc, eq_comm]

/-- The bits of a widened entry. -/
theorem getLsbD_widen (e flags : Pte) (i : ℕ) :
    (widen e flags).getLsbD i =
      (e.getLsbD i || (flags.getLsbD 2 && decide (i = 2)) ||
        (flags.getLsbD 1 && decide (i = 1))) := by
  unfold widen
  rw [has_user, has_writable]
  cases flags.getLsbD 2 <;> cases flags.getLsbD 1 <;>
    simp [vmmFlagWritable, vmmFlagUser, ← twoPow_eq, getLsbD_twoPow, eq_comm]

/-- The bits of a leaf entry. -/
theorem getLsbD_leaf (phys : ℕ) (flags : Pte) (i : ℕ) :
    (leaf phys flags).getLsbD i =
      (((BitVec.ofNat 64 phys).getLsbD i && decide (12 ≤ i ∧ i < 52)) || flags.getLsbD i ||
        decide (i = 0)) := by
  unfold leaf
  rw [getLsbD_or, getLsbD_or, getLsbD_and, getLsbD_pteAddrMask, vmmFlagPresent]
  simp

variable {frame : ℕ}

theorem addr_dir (h : FrameAddr frame) (flags : Pte) : (dir frame flags).addr = frame :=
  addr_of_getLsbD h fun i h₁ _ => by
    have h0 : i ≠ 0 := by omega
    have h1 : i ≠ 1 := by omega
    have h2 : i ≠ 2 := by omega
    simp [getLsbD_dir, h0, h1, h2]

theorem addr_widen (e flags : Pte) : (widen e flags).addr = e.addr :=
  addr_congr fun i h₁ _ => by
    have h1 : i ≠ 1 := by omega
    have h2 : i ≠ 2 := by omega
    simp [getLsbD_widen, h1, h2]

theorem addr_leaf {phys : ℕ} (h : FrameAddr phys) {flags : Pte} (hf : FlagsOnly flags) :
    (leaf phys flags).addr = phys :=
  addr_of_getLsbD h fun i h1 h2 => by
    have h0 : i ≠ 0 := by omega
    simp [getLsbD_leaf, h1, h2, hf.getLsbD h1 h2, h0]

theorem child_of_present (h : e.getLsbD 0 = true) : child e = some e.addr := by
  rw [child, has_present, if_pos h]

theorem child_eq_none : child e = none ↔ e.getLsbD 0 = false := by
  rw [child, has_present]
  cases e.getLsbD 0 <;> simp

theorem child_eq_some {t : ℕ} : child e = some t ↔ e.getLsbD 0 = true ∧ e.addr = t := by
  rw [child, has_present]
  cases e.getLsbD 0 <;> simp

theorem child_zero : child 0#64 = none := child_eq_none.mpr (by simp)

theorem child_dir (h : FrameAddr frame) (flags : Pte) : child (dir frame flags) = some frame := by
  rw [child_eq_some, addr_dir h]
  exact ⟨by simp [getLsbD_dir], rfl⟩

theorem child_widen (e flags : Pte) : child (widen e flags) = child e := by
  have hbit : (widen e flags).getLsbD 0 = e.getLsbD 0 := by
    rw [getLsbD_widen]
    simp only [show ¬(0 = 2) by decide, show ¬(0 = 1) by decide, decide_false, Bool.and_false,
      Bool.or_false]
  cases h : e.getLsbD 0
  · rw [child_eq_none.mpr h, child_eq_none, hbit, h]
  · rw [child_of_present h, child_eq_some, hbit, addr_widen]
    exact ⟨h, rfl⟩

end Pte

end NovaOS.Mem
