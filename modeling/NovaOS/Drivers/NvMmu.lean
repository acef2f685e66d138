import Mathlib.Data.BitVec
import Mathlib.Tactic.IntervalCases

/-!
# Entries of the Turing MMU

Reference: `drivers/nvidia/core/mmu.c`, `drivers/nvidia/core/vmm.c`, `drivers/nvidia/include/nv_mmu.h`.

How directory and page table entries are encoded, and how `vmm.c` reads a directory entry back: it takes the
entry for a reference if the aperture field is not zero, and the address from the bits above the flags.
-/

namespace NovaOS.Drivers

/-- An `NvMmuEntry`. -/
structure NvMmuEntry where
  word0 : BitVec 32
  word1 : BitVec 32
deriving DecidableEq

/-- An `NvMmuAperture`. -/
inductive NvMmuAperture where
  | vidMem
  | invalid
  | sysMemCoherent
  | sysMemNoncoherent
deriving DecidableEq

/-- The number of an aperture. -/
def NvMmuAperture.code : NvMmuAperture → BitVec 64
  | vidMem => 0
  | invalid => 1
  | sysMemCoherent => 2
  | sysMemNoncoherent => 3

/-- The aperture is system memory. -/
def NvMmuAperture.isSysMem : NvMmuAperture → Bool
  | sysMemCoherent => true
  | sysMemNoncoherent => true
  | _ => false

namespace NvMmuEntry

/-- An entry of zeros. -/
def empty : NvMmuEntry := ⟨0, 0⟩

/-- The two words as one. -/
def raw (e : NvMmuEntry) : BitVec 64 := (e.word1.setWidth 64 <<< 32) ||| e.word0.setWidth 64

/-- The two words of an entry. -/
def ofRaw (entry : BitVec 64) : NvMmuEntry :=
  ⟨(entry &&& 0xFFFFFFFF#64).setWidth 32, (entry >>> 32).setWidth 32⟩

/-- `turing_mmu_encode_pte`. -/
def turingMmuEncodePte (targetPhys : BitVec 64) (aperture : NvMmuAperture) (readOnly : Bool)
    (kind : BitVec 8) : NvMmuEntry :=
  let entry := (targetPhys >>> 4) ||| 1#64 <<< 0
  let entry := entry ||| ((aperture.code &&& 3#64) <<< 1)
  let entry := if aperture.isSysMem then entry ||| 1#64 <<< 3 else entry
  let entry := if readOnly then entry ||| 1#64 <<< 6 else entry
  ofRaw (entry ||| (kind.setWidth 64 <<< 56))

/-- `turing_mmu_encode_pde`. -/
def turingMmuEncodePde (ptPhys : BitVec 64) (aperture : NvMmuAperture) : NvMmuEntry :=
  let entry := (ptPhys >>> 4) ||| ((aperture.code &&& 3#64) <<< 1)
  ofRaw (if aperture.isSysMem then entry ||| 1#64 <<< 3 else entry)

/-- The address that `get_or_alloc_table` and `nv_vmm_unmap` read from a directory entry. -/
def tablePhys (e : NvMmuEntry) : ℕ := ((e.raw &&& ~~~0xFF#64) <<< 4).toNat

/-- The table that a directory entry refers to. -/
def child (e : NvMmuEntry) : Option ℕ :=
  if (e.raw &&& 6#64) ≠ 0#64 then some e.tablePhys else none

/-- Splitting an entry into words and joining them again. -/
@[simp] theorem raw_ofRaw (x : BitVec 64) : (ofRaw x).raw = x := by
  apply BitVec.eq_of_getLsbD_eq
  intro i hi
  simp only [raw, ofRaw]
  by_cases h32 : i < 32
  · have hmask : (0xFFFFFFFF#64).getLsbD i = true := by
      interval_cases i <;> decide
    simp [h32, hi, hmask]
  · have hadd : 32 + (i - 32) = i := by omega
    have hlt : i - 32 < 32 := by omega
    have hlt64 : i - 32 < 64 := by omega
    simp [h32, hi, hlt, hlt64, hadd]

variable {x : BitVec 64} {k i : ℕ}

/-- A word below `2 ^ k` has no bits from bit `k` on. -/
theorem getLsbD_of_toNat_lt (hx : x.toNat < 2 ^ k) (hi : k ≤ i) : x.getLsbD i = false :=
  Nat.testBit_lt_two_pow (lt_of_lt_of_le hx (Nat.pow_le_pow_right (by decide) hi))

/-- A word that is a multiple of `2 ^ k` has no bits below bit `k`. -/
theorem getLsbD_of_toNat_mod (hx : x.toNat % 2 ^ k = 0) (hi : i < k) : x.getLsbD i = false := by
  have hmod : (x.toNat % 2 ^ k).testBit i = x.toNat.testBit i := by
    rw [Nat.testBit_mod_two_pow, decide_eq_true hi, Bool.true_and]
  rw [hx, Nat.zero_testBit] at hmod
  exact hmod.symm

/-- The flags of a directory entry. -/
def pdeFlags (aperture : NvMmuAperture) : BitVec 64 :=
  ((aperture.code &&& 3#64) <<< 1) ||| if aperture.isSysMem then 1#64 <<< 3 else 0#64

/-- A directory entry is an address and flags. -/
theorem raw_encodePde (p : BitVec 64) (aperture : NvMmuAperture) :
    (turingMmuEncodePde p aperture).raw = (p >>> 4) ||| pdeFlags aperture := by
  cases aperture <;> simp [turingMmuEncodePde, pdeFlags, NvMmuAperture.isSysMem, BitVec.or_assoc]

/-- Reading the address of a directory entry inverts encoding it. -/
theorem tablePhys_encodePde (p : BitVec 64) (aperture : NvMmuAperture) (hp : p.toNat % 4096 = 0) :
    (turingMmuEncodePde p aperture).tablePhys = p.toNat := by
  have hflags : (pdeFlags aperture).toNat < 2 ^ 8 := by cases aperture <;> decide
  rw [tablePhys, raw_encodePde]
  congr 1
  apply BitVec.eq_of_getLsbD_eq
  intro i hi
  simp only [BitVec.getLsbD_shiftLeft, BitVec.getLsbD_and, BitVec.getLsbD_or, BitVec.getLsbD_not,
    BitVec.getLsbD_ushiftRight]
  by_cases h12 : i < 12
  · have hlow : (0xFF#64).getLsbD (i - 4) = true := by
      have hlt : i - 4 < 8 := by omega
      generalize i - 4 = j at hlt
      interval_cases j <;> decide
    rw [getLsbD_of_toNat_mod (k := 12) hp h12, hlow, Bool.not_true, Bool.and_false, Bool.and_false,
      Bool.and_false]
  · have hhigh : (0xFF#64).getLsbD (i - 4) = false := getLsbD_of_toNat_lt (k := 8) (by decide) (by omega)
    have hi4 : 4 + (i - 4) = i := by omega
    rw [getLsbD_of_toNat_lt hflags (by omega), hhigh, hi4, decide_eq_true hi,
      decide_eq_false (by omega : ¬i < 4), decide_eq_true (by omega : i - 4 < 64)]
    simp

/-- An entry of zeros refers to nothing. -/
theorem child_empty : child empty = none := by decide

/-- The entry that links a table refers to it. -/
theorem child_encodePde (p : BitVec 64) (hp : p.toNat % 4096 = 0) :
    child (turingMmuEncodePde p .sysMemCoherent) = some p.toNat := by
  rw [child, if_pos, tablePhys_encodePde p _ hp]
  intro h
  have hbit := congrArg (fun x : BitVec 64 => x.getLsbD 2) h
  rw [raw_encodePde] at hbit
  simp [pdeFlags, NvMmuAperture.code, NvMmuAperture.isSysMem] at hbit

end NvMmuEntry

end NovaOS.Drivers
