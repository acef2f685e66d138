import NovaOS.Fs.Fat32

/-!
# The indices of the directory reader

Reference: `kernel/krdrivers/fs/fat32/fat32.c`.

`dirAccesses` goes along the loop of `dirEntries` and lists what `list_dir_cluster` and its helpers
index. All of it is inside its array unless the loop comes to a long-name entry with number 20 that is
marked as the last one: the terminator then goes to `lfn_unicode[260]`.
-/

namespace NovaOS.Fs

open List

/-- An index into `lfn_unicode`, `entry.name` or the directory buffer. -/
inductive DirAccess where
  | unicode (i : ℕ)
  | name (i : ℕ)
  | buffer (i : ℕ)
deriving DecidableEq

/-- The index is inside its array; the directory buffer has `size` bytes. -/
def DirAccess.Inside (size : ℕ) : DirAccess → Prop
  | unicode i => i < 260
  | name i => i < 256
  | buffer i => i < size

theorem length_utf8Bytes (ch : ℕ) : 1 ≤ (utf8Bytes ch).length ∧ (utf8Bytes ch).length ≤ 3 := by
  unfold utf8Bytes
  split_ifs <;> simp

/-- What `utf16le_to_utf8` indexes on its way from `in_idx` and `out_idx`. -/
def utf16leAccesses (src : ℕ → ℕ) (inIdx outIdx : ℕ) : List DirAccess :=
  .unicode inIdx ::
    if src inIdx ≠ 0 ∧ src inIdx ≠ 0xFFFF ∧ outIdx + 4 < 256 then
      (range (utf8Bytes (src inIdx)).length).map (fun k => .name (outIdx + k)) ++
        utf16leAccesses src (inIdx + 1) (outIdx + (utf8Bytes (src inIdx)).length)
    else [.name outIdx]
termination_by 256 - outIdx
decreasing_by
  have := length_utf8Bytes (src inIdx)
  omega

/-- What the branch for a long-name entry indexes. -/
def lfnAccesses (raw : ℕ → UInt8) : List DirAccess :=
  let seq := (raw 0 &&& 0x1F).toNat
  let charOffset := (seq - 1) * 13
  if 1 ≤ seq ∧ seq ≤ 20 then
    (range 13).map (fun c => .unicode (charOffset + c)) ++
      if raw 0 &&& 0x40 ≠ 0 then [.unicode (charOffset + 13)] else []
  else []

/-- What the formatting of a name indexes. -/
def LfnState.nameAccesses (lfn : LfnState) (raw : ℕ → UInt8) : List DirAccess :=
  if lfn.active ∧ lfn.checksum = calculateSfnChecksum raw then
    utf16leAccesses (fun i => lfn.unicode.getD i 0) 0 0
  else (range ((formatSfnName raw).length + 1)).map .name

/-- What the loop of `list_dir_cluster` indexes from entry `i` on. -/
def dirAccesses (buf : ℕ → UInt8) : (left i : ℕ) → LfnState → List DirAccess
  | 0, _, _ => []
  | left + 1, i, lfn =>
    let raw := fun j => buf (i * 32 + j)
    (range 32).map (fun j => .buffer (i * 32 + j)) ++
      if raw 0 = 0x00 then []
      else if raw 0 = 0xE5 then dirAccesses buf left (i + 1) { lfn with active := false }
      else if raw 11 = 0x0F then lfnAccesses raw ++ dirAccesses buf left (i + 1) (lfn.collect raw)
      else if raw 11 &&& 0x08 ≠ 0 then dirAccesses buf left (i + 1) { lfn with active := false }
      else lfn.nameAccesses raw ++ dirAccesses buf left (i + 1) ⟨noUnicode, lfn.checksum, false⟩

/-- A long-name entry with number 20 that is marked as the last one. -/
def Overlong (raw : ℕ → UInt8) : Prop :=
  raw 11 = 0x0F ∧ (raw 0 &&& 0x1F).toNat = 20 ∧ raw 0 &&& 0x40 ≠ 0

variable {size : ℕ} {raw : ℕ → UInt8}

/-- The output grows with every unit, so its bound stops the loop before the end of the input. -/
theorem utf16leAccesses_inside (src : ℕ → ℕ) {inIdx outIdx : ℕ} (hle : inIdx ≤ outIdx)
    (hout : outIdx < 256) : ∀ a ∈ utf16leAccesses src inIdx outIdx, a.Inside size := by
  induction inIdx, outIdx using utf16leAccesses.induct src with
  | case1 inIdx outIdx ih =>
    have hlen := length_utf8Bytes (src inIdx)
    rw [utf16leAccesses, forall_mem_cons]
    refine ⟨show inIdx < 260 by omega, ?_⟩
    split
    · rw [forall_mem_append, forall_mem_map]
      refine ⟨fun k hk => show outIdx + k < 256 from ?_, ih ‹_› (by omega) (by omega)⟩
      rw [mem_range] at hk
      omega
    · exact forall_mem_singleton.mpr hout

theorem lfnAccesses_inside : (∀ a ∈ lfnAccesses raw, a.Inside size) ↔
    ¬((raw 0 &&& 0x1F).toNat = 20 ∧ raw 0 &&& 0x40 ≠ 0) := by
  have hcopied (hseq : (raw 0 &&& 0x1F).toNat ≤ 20) (c : ℕ) (hc : c ∈ range 13) :
      DirAccess.Inside size (.unicode (((raw 0 &&& 0x1F).toNat - 1) * 13 + c)) := by
    rw [mem_range] at hc
    exact show _ < 260 by omega
  simp only [lfnAccesses]
  split
  · rename_i hseq
    rw [forall_mem_append, forall_mem_map, iff_true_intro (hcopied hseq.2), true_and]
    split
    · rename_i hlast
      rw [forall_mem_singleton, and_iff_left hlast]
      exact show _ < 260 ↔ _ by omega
    · simp [*]
  · rename_i hseq
    exact iff_of_true (forall_mem_nil _) fun h => hseq (by omega)

theorem length_formatSfnName (raw : ℕ → UInt8) : (formatSfnName raw).length ≤ 12 := by
  have htake : ∀ (p : UInt8 → Bool) (f : ℕ → UInt8) n,
      (((range n).map f).takeWhile p).length ≤ n := fun p f n => by
    simpa using (takeWhile_sublist (l := (range n).map f) p).length_le
  simp only [formatSfnName, apply_ite length, length_append, length_cons, length_map]
  split
  · exact Nat.add_le_add (htake _ _ 8) (Nat.succ_le_succ (htake _ _ 3))
  · exact (htake _ _ 8).trans (Nat.le_add_right 8 4)

theorem LfnState.nameAccesses_inside (lfn : LfnState) (raw : ℕ → UInt8) :
    ∀ a ∈ lfn.nameAccesses raw, a.Inside size := by
  unfold LfnState.nameAccesses
  split
  · exact utf16leAccesses_inside _ le_rfl (by decide)
  · rw [forall_mem_map]
    intro k hk
    have hlen := length_formatSfnName raw
    rw [mem_range] at hk
    exact show k < 256 by omega

/-- The pass over one entry; it goes on unless the first byte is 0. -/
theorem dirAccesses_succ {buf : ℕ → UInt8} {left i : ℕ} {lfn : LfnState} {rest : Prop}
    (hsize : i * 32 + 32 ≤ size)
    (hrest : ∀ lfn, (∀ a ∈ dirAccesses buf left (i + 1) lfn, a.Inside size) ↔ rest) :
    (∀ a ∈ dirAccesses buf (left + 1) i lfn, a.Inside size) ↔
      ¬Overlong (fun j => buf (i * 32 + j)) ∧ (buf (i * 32) ≠ 0 → rest) := by
  have hentry : ∀ j ∈ range 32, DirAccess.Inside size (.buffer (i * 32 + j)) := by
    intro j hj
    rw [mem_range] at hj
    exact show i * 32 + j < size by omega
  rw [dirAccesses, forall_mem_append, forall_mem_map, iff_true_intro hentry, true_and]
  split_ifs with hend hfree hattr hvolume
  · exact iff_of_true (forall_mem_nil _) ⟨fun h => h.2.2 (by rw [hend]; rfl), fun h => absurd hend h⟩
  · rw [hrest]
    refine ⟨fun h => ⟨fun hover => ?_, fun _ => h⟩, fun h => h.2 hend⟩
    have := hover.2.1
    rw [hfree] at this
    cases this
  · rw [forall_mem_append, lfnAccesses_inside, hrest]
    exact and_congr (not_congr (and_iff_right hattr).symm) ⟨fun h _ => h, fun h => h hend⟩
  · rw [hrest]
    exact ⟨fun h => ⟨fun hover => hattr hover.1, fun _ => h⟩, fun h => h.2 hend⟩
  · rw [forall_mem_append, hrest]
    exact ⟨fun h => ⟨fun hover => hattr hover.1, fun _ => h.2⟩,
      fun h => ⟨lfn.nameAccesses_inside _, h.2 hend⟩⟩

/-- The loop goes over the entries up to one whose first byte is 0. -/
theorem dirAccesses_inside {buf : ℕ → UInt8} {left i : ℕ} {lfn : LfnState} (hsize : (i + left) * 32 ≤ size) :
    (∀ a ∈ dirAccesses buf left i lfn, a.Inside size) ↔
      ∀ k < left, (∀ m < k, buf ((i + m) * 32) ≠ 0) → ¬Overlong fun j => buf ((i + k) * 32 + j) := by
  induction left generalizing i lfn with
  | zero => simp [dirAccesses]
  | succ left ih =>
    rw [dirAccesses_succ (by omega) fun lfn => ih (by omega), Nat.forall_lt_succ_left]
    refine and_congr (by simp) ?_
    simp only [Nat.forall_lt_succ_left, Nat.add_zero, and_imp, Nat.add_right_comm i 1, ← Nat.add_assoc]
    exact ⟨fun h k hk hne => h hne k hk, fun h hne k hk => h k hk hne⟩

/-- Everything that `list_dir_cluster` indexes is in its array if and only if such an entry comes, if at
all, after an entry whose first byte is 0. -/
theorem list_dir_inside_iff (dirBuf : List UInt8) :
    (∀ a ∈ dirAccesses (fun i => dirBuf.getD i 0) (dirBuf.length / 32) 0 ⟨noUnicode, 0, false⟩,
      a.Inside dirBuf.length) ↔
    ∀ k < dirBuf.length / 32, (∀ m < k, dirBuf.getD (m * 32) 0 ≠ 0) →
      ¬Overlong fun j => dirBuf.getD (k * 32 + j) 0 := by
  have hsize : (0 + dirBuf.length / 32) * 32 ≤ dirBuf.length := by omega
  rw [dirAccesses_inside hsize]
  simp only [Nat.zero_add]

/-- A long-name entry of 32 bytes. -/
def lfnEntry (order : UInt8) : List UInt8 := order :: replicate 10 0 ++ 0x0F :: replicate 20 0

theorem list_dir_outside_twenty :
    ¬∀ a ∈ dirAccesses (fun i => (lfnEntry 0x54).getD i 0) 1 0 ⟨noUnicode, 0, false⟩, a.Inside 32 :=
  fun h => lt_irrefl 260 (h (.unicode 260) (by decide +kernel))

end NovaOS.Fs
