import NovaOS.Fs.Gpt

/-!
# The checksum of the partition table

Reference: `crc32` of `kernel/krdrivers/fs/gpt.c`.

The register takes a byte at once and then shifts eight times. This is the same as taking one bit
before each shift (`shiftIn`), and a whole word of bits may be taken ahead of its shifts as well
(`shiftIn_word`). A shift is linear and injective, so the registers of two buffers that differ in
one word of bits stay apart.
-/

namespace NovaOS.Fs

open BitVec Function

/-- One shift of the register in `crc32`. -/
def crcShift (c : BitVec 32) : BitVec 32 := (c >>> 1) ^^^ (0xEDB88320 &&& -(c &&& 1))

theorem getLsbD_crcShift (c : BitVec 32) (i : ℕ) :
    (crcShift c).getLsbD i =
      (c.getLsbD (1 + i) ^^ ((0xEDB88320#32).getLsbD i && c.getLsbD 0)) := by
  have hmask : 0xEDB88320 &&& -(c &&& 1#32) = if c.getLsbD 0 then 0xEDB88320#32 else 0 := by
    rw [and_one_eq_setWidth_ofBool_getLsbD]
    cases c.getLsbD 0 <;> rfl
  rw [crcShift, getLsbD_xor, getLsbD_ushiftRight]
  refine congrArg _ ((congrArg (getLsbD · i) hmask).trans ?_)
  cases c.getLsbD 0 <;> simp

theorem crcShift_xor (c c' : BitVec 32) : crcShift (c ^^^ c') = crcShift c ^^^ crcShift c' := by
  refine eq_of_getLsbD_eq fun i _ => ?_
  simp only [getLsbD_crcShift, getLsbD_xor, Bool.and_xor_distrib_left, Bool.xor_assoc,
    Bool.xor_left_comm]

/-- The top bit of the polynomial is set, so that the bit shifted out can be read from the result. -/
theorem crcShift_injective : Injective crcShift := by
  intro c c' h
  have hbit : ∀ i, (crcShift c).getLsbD i = (crcShift c').getLsbD i := fun i => by rw [h]
  simp only [getLsbD_crcShift] at hbit
  have hlow : c.getLsbD 0 = c'.getLsbD 0 := by simpa using hbit 31
  refine eq_of_getLsbD_eq fun i _ => ?_
  cases i with
  | zero => exact hlow
  | succ i =>
    have hi := hbit i
    rw [hlow, Bool.xor_left_inj, Nat.add_comm] at hi
    exact hi

/-- The register `c` after `k` bits, each taken before a shift. -/
def shiftIn (bit : ℕ → Bool) (c : BitVec 32) : ℕ → BitVec 32
  | 0 => c
  | k + 1 => crcShift (shiftIn bit c k ^^^ (ofBool (bit k)).setWidth 32)

theorem shiftIn_add (bit : ℕ → Bool) (c : BitVec 32) (k m : ℕ) :
    shiftIn bit c (k + m) = shiftIn (fun i => bit (k + i)) (shiftIn bit c k) m := by
  induction m with
  | zero => rfl
  | succ m ih => rw [← Nat.add_assoc, shiftIn, shiftIn, ih]

theorem shiftIn_xor (bit bit' : ℕ → Bool) (c c' : BitVec 32) (k : ℕ) :
    shiftIn bit c k ^^^ shiftIn bit' c' k = shiftIn (fun i => bit i ^^ bit' i) (c ^^^ c') k := by
  induction k with
  | zero => rfl
  | succ k ih =>
    rw [shiftIn, shiftIn, shiftIn, ← ih, ← crcShift_xor, ← ofBool_xor_ofBool, setWidth_xor]
    ac_rfl

variable {bit : ℕ → Bool} {w : BitVec 32}

/-- A word taken at once is its low bits taken one by one and, above the register, the rest of it. -/
theorem shiftIn_low (c : BitVec 32) (k : ℕ) :
    shiftIn w.getLsbD c k ^^^ (w >>> k) = crcShift^[k] (c ^^^ w) := by
  induction k with
  | zero => simp [shiftIn]
  | succ k ih =>
    rw [iterate_succ_apply', ← ih, shiftIn]
    refine eq_of_getLsbD_eq fun i _ => ?_
    simp only [getLsbD_crcShift, getLsbD_xor, getLsbD_ushiftRight, getLsbD_setWidth, getLsbD_ofBool]
    simp [Nat.add_assoc, Bool.xor_comm]

/-- Bits that form a word may be taken ahead of their shifts. -/
theorem shiftIn_word (c : BitVec 32) {k : ℕ}
    (hw : ∀ i, w.getLsbD i = (decide (i < k) && bit i)) :
    shiftIn bit c k = crcShift^[k] (c ^^^ w) := by
  have hout : w >>> k = 0#32 := eq_of_getLsbD_eq fun i _ => by simp [hw]
  have hlow : ∀ m ≤ k, shiftIn bit c m = shiftIn w.getLsbD c m := by
    intro m hm
    induction m with
    | zero => rfl
    | succ m ih => rw [shiftIn, shiftIn, ih (by omega), hw, decide_eq_true (by omega), Bool.true_and]
  rw [← shiftIn_low, hout, xor_zero, hlow k le_rfl]

theorem crcShift_iterate_zero (k : ℕ) : crcShift^[k] 0#32 = 0#32 := iterate_fixed rfl k

/-- From zero, bits that lie in 32 consecutive positions leave the register at zero only if none of
them is set. -/
theorem shiftIn_burst {n p k : ℕ} (hspan : ∀ i < n, bit i = true → p ≤ i ∧ i < p + 32) (hk : k < n)
    (hset : bit k = true) : shiftIn bit 0#32 n ≠ 0#32 := by
  obtain ⟨hpk, hkp⟩ := hspan k hk hset
  obtain ⟨m, rfl⟩ : ∃ m, n = p + m := ⟨n - p, by omega⟩
  have hlow : shiftIn bit 0#32 p = crcShift^[p] (0#32 ^^^ 0#32) := by
    refine shiftIn_word _ fun i => ?_
    rw [getLsbD_zero, eq_comm, Bool.and_eq_false_imp, decide_eq_true_iff]
    exact fun hi => Bool.eq_false_iff.mpr fun hbit => absurd (hspan i (by omega) hbit).1 (by omega)
  set w : BitVec 32 := .ofNat 32 (Nat.ofBits fun i : Fin 32 => decide (i < m) && bit (p + i))
  have hget : ∀ i, w.getLsbD i = (decide (i < m) && bit (p + i)) := by
    intro i
    by_cases hi : i < 32
    · simp only [w, getLsbD_ofNat, Nat.testBit_ofBits_lt _ _ hi, decide_eq_true hi, Bool.true_and]
    · rw [getLsbD_of_ge _ _ (by omega), eq_comm, Bool.and_eq_false_imp, decide_eq_true_iff]
      exact fun hm => Bool.eq_false_iff.mpr fun hbit => absurd (hspan _ (by omega) hbit).2 (by omega)
  rw [shiftIn_add, hlow, BitVec.xor_self, crcShift_iterate_zero, shiftIn_word _ hget, zero_xor,
    ← crcShift_iterate_zero m]
  intro heq
  have hbit := hget (k - p)
  rw [crcShift_injective.iterate m heq, Nat.add_sub_cancel' hpk, hset] at hbit
  simp [show k - p < m by omega] at hbit

/-- Bit `k` of a buffer, the bits of each byte from least to most significant. -/
def bufferBit (buf : ℕ → UInt8) (k : ℕ) : Bool := (buf (k / 8)).toBitVec.getLsbD (k % 8)

theorem crc32_eq_shiftIn (buf : ℕ → UInt8) (length : ℕ) :
    crc32 buf length = ~~~shiftIn (bufferBit buf) 0xFFFFFFFF (8 * length) := by
  rw [crc32]
  congr 1
  induction length with
  | zero => rfl
  | succ n ih =>
    rw [List.range_succ, List.foldl_append, List.foldl_cons, List.foldl_nil, ih, Nat.mul_succ, shiftIn_add]
    refine (shiftIn_word _ fun i => ?_).symm
    by_cases hi : i < 8
    · rw [bufferBit, show (8 * n + i) / 8 = n by omega, show (8 * n + i) % 8 = i by omega]
      simp [hi, show i < 32 by omega]
    · simp [hi, getLsbD_of_ge (buf n).toBitVec i (by omega)]

/-- Two buffers that differ, in bits that lie in 32 consecutive positions, have different
checksums. -/
theorem crc32_burst (a b : ℕ → UInt8) (length p : ℕ) (hne : ∃ i < length, a i ≠ b i)
    (hspan : ∀ k < 8 * length, bufferBit a k ≠ bufferBit b k → p ≤ k ∧ k < p + 32) :
    crc32 a length ≠ crc32 b length := by
  obtain ⟨i, hi, hab⟩ := hne
  obtain ⟨j, hj, hbit⟩ : ∃ j < 8, (a i).toBitVec.getLsbD j ≠ (b i).toBitVec.getLsbD j := by
    by_contra hall
    push Not at hall
    exact hab (UInt8.toBitVec_inj.mp (eq_of_getLsbD_eq hall))
  intro heq
  rw [crc32_eq_shiftIn, crc32_eq_shiftIn] at heq
  have hxor := shiftIn_xor (bufferBit a) (bufferBit b) 0xFFFFFFFF 0xFFFFFFFF (8 * length)
  rw [BitVec.not_inj.mp heq, BitVec.xor_self, BitVec.xor_self, eq_comm] at hxor
  refine shiftIn_burst (k := 8 * i + j) (fun k hk hset => hspan k hk ?_) (by omega) ?_ hxor
  · simpa using hset
  · simpa [bufferBit, show (8 * i + j) / 8 = i by omega, show (8 * i + j) % 8 = j by omega] using hbit

theorem crc32_burst_sample :
    crc32 (fun i => if i = 5 then 0xFF else 7) 512 ≠ crc32 (fun _ => 7) 512 := by
  refine crc32_burst _ _ 512 40 ⟨5, by decide, by decide⟩ fun k _ hk => ?_
  by_cases h : k / 8 = 5
  · omega
  · exact absurd (by rw [bufferBit, bufferBit, if_neg h]) hk

/-- The checksum is affine: the effect of a change depends on the changed bits alone. -/
theorem crc32_xor (a b c : ℕ → UInt8) (n : ℕ) :
    crc32 (fun i => a i ^^^ b i ^^^ c i) n = crc32 a n ^^^ crc32 b n ^^^ crc32 c n := by
  have hbit : bufferBit (fun i => a i ^^^ b i ^^^ c i) =
      fun k => (bufferBit a k ^^ bufferBit b k) ^^ bufferBit c k := by
    funext k
    simp [bufferBit]
  have hxor := shiftIn_xor (fun k => bufferBit a k ^^ bufferBit b k) (bufferBit c)
    (0xFFFFFFFF ^^^ 0xFFFFFFFF) 0xFFFFFFFF (8 * n)
  rw [← shiftIn_xor, BitVec.xor_self, zero_xor, ← hbit] at hxor
  simp only [crc32_eq_shiftIn, ← hxor]
  rw [← not_xor_right, ← not_xor_left, ← not_xor_right, BitVec.not_not]

end NovaOS.Fs
