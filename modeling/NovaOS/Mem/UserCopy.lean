import NovaOS.Mem.Memory
import NovaOS.Mem.VmaInv

/-!
# Copies from and to user memory

Reference: `kernel/mem/vmm.c`.

`validateUserRange` accepts a range exactly when each of its bytes lies in an area of the process with
`VMA_USER` and the right asked for; the copies go on to `memcpy` in this case only.
-/

namespace NovaOS.Mem

open NovaOS.Lib List Option

namespace Process

/-! ## Validation -/

/-- The right `validateUserRange` asks for. -/
def accessFlag (write : Bool) : VmaFlags := if write then vmaWrite else vmaRead

/-- The loop of `validateUserRange`; each turn moves past one area. -/
def validateLoop (p : Process) (pageEnd : ℕ) (write : Bool) : (fuel cur : ℕ) → Bool
  | 0, _ => false
  | fuel + 1, cur =>
    if cur < pageEnd then
      match p.vmaFind cur with
      | none => false
      | some a =>
        if (p.vma a).flags.has vmaUser = false then false
        else if write = true ∧ (p.vma a).flags.has vmaWrite = false then false
        else if write = false ∧ (p.vma a).flags.has vmaRead = false then false
        else p.validateLoop pageEnd write fuel (p.vma a).stop
    else true

/-- `validateUserRange` in the current process. -/
def validateUserRange (p : Process) (userPtr size : ℕ) (write : Bool) : Bool :=
  if size = 0 then true
  else if userPtr = 0 then false
  else
    let stop := wrap64 (userPtr + size)
    if stop < userPtr ∨ stop > userSpaceMax then false
    else p.validateLoop (pageCeil stop) write p.fuel (pageFloor userPtr)

/-- A turn of the loop of `validateUserRange` that does not return: the area at `cur` has the rights,
and the loop goes on at its end. -/
def ValidateTurn (p : Process) (pageEnd : ℕ) (write : Bool) (cur next : ℕ) : Prop :=
  cur < pageEnd ∧ ∃ a, p.vmaFind cur = some a ∧ (p.vma a).flags.has vmaUser = true ∧
    (p.vma a).flags.has (accessFlag write) = true ∧ next = (p.vma a).stop

/-- The address lies in an area that the process may use in the way asked for. -/
def Permits (p : Process) (write : Bool) (x : ℕ) : Prop :=
  ∃ A ∈ p.areas p.vmas, (A.start ≤ x ∧ x < A.stop) ∧
    A.flags.has vmaUser = true ∧ A.flags.has (accessFlag write) = true

instance (p : Process) (write : Bool) (x : ℕ) : Decidable (p.Permits write x) :=
  inferInstanceAs (Decidable (∃ A ∈ p.areas p.vmas, _))

section Validation

variable {p : Process} {L : List Area} {write : Bool}

/-- What `vmaFind` answers, on the areas. -/
theorem View.vmaFind (h : p.View L) (x : ℕ) :
    (∃ a, p.vmaFind x = some a ∧ p.area a ∈ L ∧ (p.area a).start ≤ x ∧ x < (p.area a).stop) ∨
      p.vmaFind x = none ∧ ∀ A ∈ L, ¬(A.start ≤ x ∧ x < A.stop) := by
  obtain ⟨l, hl, rfl⟩ := h
  have hscan : p.vmaFind x = l.find? _ := hl.scan_eq _
  cases hfind : p.vmaFind x with
  | some a =>
    rw [hscan] at hfind
    have hin := find?_some hfind
    rw [Bool.and_eq_true, decide_eq_true_eq, decide_eq_true_eq] at hin
    exact .inl ⟨a, rfl, mem_map_of_mem (mem_of_find?_eq_some hfind), hin⟩
  | none =>
    rw [hscan] at hfind
    refine .inr ⟨rfl, fun A hA hin => ?_⟩
    obtain ⟨a, ha, rfl⟩ := mem_map.mp hA
    exact find?_eq_none.mp hfind a ha
      (Bool.and_eq_true_iff.mpr ⟨decide_eq_true hin.1, decide_eq_true hin.2⟩)

variable {pageEnd fuel cur : ℕ}

/-- One turn of the loop that finds an area. -/
theorem validateLoop_found {a : ℕ} (hcur : cur < pageEnd) (hfind : p.vmaFind cur = some a) :
    p.validateLoop pageEnd write (fuel + 1) cur =
      ((p.area a).flags.has vmaUser && (p.area a).flags.has (accessFlag write) &&
        p.validateLoop pageEnd write fuel (p.area a).stop) := by
  have hflags : (p.area a).flags = (p.vma a).flags := rfl
  have hstop : (p.area a).stop = (p.vma a).stop := rfl
  rw [validateLoop, if_pos hcur, hfind, hflags, hstop, accessFlag]
  cases write with
  | false =>
    cases huser : (p.vma a).flags.has vmaUser <;> cases hread : (p.vma a).flags.has vmaRead <;>
      simp [huser, hread]
  | true =>
    cases huser : (p.vma a).flags.has vmaUser <;> cases hwrite : (p.vma a).flags.has vmaWrite <;>
      simp [huser, hwrite]

/-- The loop walks from area to area, so it accepts when every address up to `pageEnd` is in one. -/
theorem View.validateLoop (h : p.View L)
    (hL : L.Pairwise fun A B => A.stop ≤ B.start ∨ B.stop ≤ A.start) (hfuel : (L.filter fun A => decide (cur < A.stop)).length < fuel) :
    p.validateLoop pageEnd write fuel cur = true ↔
      ∀ x, cur ≤ x → x < pageEnd → p.Permits write x := by
  have hareas := h.areas_vmas
  induction fuel generalizing cur with
  | zero => omega
  | succ fuel ih =>
    by_cases hcur : cur < pageEnd
    · rcases h.vmaFind cur with ⟨a, hfind, hA, hin⟩ | ⟨hfind, hmiss⟩
      · generalize hAeq : p.area a = A at hA hin
        have hnext : (L.filter fun B => decide (A.stop < B.stop)).length < fuel :=
          lt_of_lt_of_le (Area.length_filter_stop_lt hA hin.2) (Nat.le_of_lt_succ hfuel)
        rw [validateLoop_found hcur hfind, hAeq, Bool.and_eq_true, Bool.and_eq_true]
        constructor
        · rintro ⟨⟨huser, hflag⟩, hrest⟩ x hx hxe
          by_cases hxA : x < A.stop
          · exact ⟨A, hareas ▸ hA, ⟨hin.1.trans hx, hxA⟩, huser, hflag⟩
          · exact (ih hnext).mp hrest x (not_lt.mp hxA) hxe
        · intro hall
          obtain ⟨B, hB, hBin, huser, hflag⟩ := hall cur le_rfl hcur
          obtain rfl := Area.eq_of_covers hL hA (hareas ▸ hB) hin hBin
          exact ⟨⟨huser, hflag⟩, (ih hnext).mpr fun x hx hxe => hall x (hin.2.le.trans hx) hxe⟩
      · rw [Process.validateLoop, if_pos hcur, hfind]
        simp only [Bool.false_eq_true, false_iff, not_forall]
        refine ⟨cur, le_rfl, hcur, ?_⟩
        rintro ⟨A, hA, hin, -⟩
        exact hmiss A (hareas ▸ hA) hin
    · rw [Process.validateLoop, if_neg hcur]
      simp only [true_iff]
      exact fun x hx hxe => absurd (hx.trans_lt hxe) hcur

/-- The records of the list are turns enough for the loop. -/
theorem VmaListWf.validateLoop_iff (hok : p.VmaListWf) (hfuel : p.fuel ≤ fuel) :
    p.validateLoop pageEnd write fuel cur = true ↔
      ∀ x, cur ≤ x → x < pageEnd → p.Permits write x :=
  hok.view.validateLoop hok.disjoint (lt_of_lt_of_le (hok.view.length_filter_lt _) hfuel)

/-- Areas end at page boundaries, so a page is permitted when one of its bytes is. -/
theorem Permits.of_page (hok : p.VmaListWf) {x y : ℕ} (h : p.Permits write x)
    (hpage : y / pageSize = x / pageSize) : p.Permits write y := by
  obtain ⟨A, hA, hin, hflags⟩ := h
  obtain ⟨hstart, hstop⟩ := hok.aligned A hA
  refine ⟨A, hA, ?_, hflags⟩
  rw [pageSize] at *
  omega

/-- `validateUserRange` accepts exactly the ranges in user space whose bytes are all permitted. -/
theorem validateUserRange_iff (hok : p.VmaListWf) {userPtr size : ℕ} (hptr : userPtr < 2 ^ 64)
    (hsize : size < 2 ^ 64) (hne : size ≠ 0) :
    p.validateUserRange userPtr size write = true ↔
      userPtr ≠ 0 ∧ userPtr + size ≤ userSpaceMax ∧
        ∀ x, userPtr ≤ x → x < userPtr + size → p.Permits write x := by
  rw [validateUserRange, if_neg hne]
  by_cases hnull : userPtr = 0
  · simp [hnull]
  rw [if_neg hnull]
  by_cases hwrap : wrap64 (userPtr + size) < userPtr ∨ wrap64 (userPtr + size) > userSpaceMax
  · have hbound : ¬userPtr + size ≤ userSpaceMax := by
      intro hle
      have hlt : userPtr + size < 2 ^ 64 := hle.trans_lt (by decide)
      rw [wrap64_of_lt hlt] at hwrap
      omega
    simp [hwrap, hbound]
  · have hlt : userPtr + size < 2 ^ 64 := by
      rw [wrap64] at hwrap
      omega
    rw [wrap64_of_lt hlt] at hwrap ⊢
    have hle : userPtr + size ≤ userSpaceMax := by omega
    have hceil : pageCeil (userPtr + size) =
        (userPtr + size + (pageSize - 1)) / pageSize * pageSize := by
      rw [pageCeil, wrap64_of_lt, pageFloor]
      rw [userSpaceMax] at hle
      rw [pageSize]
      omega
    rw [if_neg hwrap, hok.validateLoop_iff le_rfl, hceil, pageFloor]
    constructor
    · refine fun hall => ⟨hnull, hle, fun x hx hxe => hall x ?_ ?_⟩ <;> rw [pageSize] <;> omega
    · rintro ⟨-, -, hall⟩ x hx hxe
      -- a page of the range holds the byte of the range that is nearest to `x`
      refine (hall (max userPtr (min x (userPtr + size - 1))) (by omega) (by omega)).of_page hok ?_
      rw [pageSize] at *
      omega

end Validation

/-! ## Copies -/

/-- `copyFromUser`; `none` is an exception. -/
def copyFromUser (p : Process) (m : Memory) (dst src n : ℕ) : Option (ℤ × Memory) :=
  if n = 0 then some (0, m)
  else if p.validateUserRange src n false = false then some (-14, m)
  else (m.memcpy dst src n).map fun t => (0, t)

/-- `copyToUser`; `none` is an exception. -/
def copyToUser (p : Process) (m : Memory) (dst src n : ℕ) : Option (ℤ × Memory) :=
  if n = 0 then some (0, m)
  else if p.validateUserRange dst n true = false then some (-14, m)
  else (m.memcpy dst src n).map fun t => (0, t)

theorem copyFromUser_eq (p : Process) (m : Memory) (dst : ℕ) {src n : ℕ} (hn : n ≠ 0) :
    p.copyFromUser m dst src n =
      if p.validateUserRange src n false = false then some (-14, m)
      else if m.Backed src n ∧ m.Backed dst n then some (0, m.copied dst src n) else none := by
  rw [copyFromUser, if_neg hn, Memory.memcpy_eq]
  split_ifs <;> rfl

/-- The memory that the process can read: its areas with `VMA_USER` and `VMA_READ`. -/
def Readable (p : Process) (x : ℕ) : Prop := p.Permits false x

instance (p : Process) (x : ℕ) : Decidable (p.Readable x) :=
  inferInstanceAs (Decidable (p.Permits false x))

/-- The physical addresses that the process can read. -/
def Sees (p : Process) (m : Memory) (x : ℕ) : Prop := ∃ a, p.Readable a ∧ m.translate a = some x

variable {p : Process} {src n : ℕ}

/-- The bytes of a validated range, at the addresses as `memcpy` computes them. -/
theorem sees_of_validateUserRange (hok : p.VmaListWf) (hsrc : src < 2 ^ 64) (hn : n < 2 ^ 64)
    (h : p.validateUserRange src n false = true) {m : Memory} (hb : m.Backed src n) {i : ℕ}
    (hi : i < n) : p.Sees m (m.loc src i) := by
  obtain ⟨-, hle, hall⟩ := (validateUserRange_iff hok hsrc hn (by omega)).mp h
  have hlt : src + i < 2 ^ 64 := by
    rw [userSpaceMax] at hle
    omega
  obtain ⟨x, hx⟩ := Option.ne_none_iff_exists'.mp (hb i hi)
  refine ⟨src + i, hall _ (Nat.le_add_right src i) (by omega), ?_⟩
  rw [Memory.loc, hx, Option.getD_some, ← hx, Memory.phys, wrap64_of_lt hlt]

/-- The range lies in user space and every byte of it is permitted. -/
def RangePermitted (p : Process) (write : Bool) (userPtr size : ℕ) : Prop :=
  userPtr + size < 2 ^ 64 ∧ userPtr + size ≤ userSpaceMax ∧
    ∀ x, userPtr ≤ x → x < userPtr + size → p.Permits write x

/-- Each turn moves past the area it finds, so the loop ends. -/
theorem VmaListWf.validateTurn_wf (hok : p.VmaListWf) (pageEnd : ℕ) (write : Bool) :
    WellFounded fun next cur => p.ValidateTurn pageEnd write cur next := by
  refine Subrelation.wf ?_ (measure fun cur => pageEnd - cur).wf
  rintro _ cur ⟨hcur, a, hfind, -, -, rfl⟩
  rcases hok.view.vmaFind cur with ⟨b, hb, -, -, hlt⟩ | ⟨hnone, -⟩
  · obtain rfl : a = b := mem_unique hfind hb
    exact Nat.sub_lt_sub_left hcur hlt
  · rw [hnone] at hfind
    cases hfind

/-- `validateUserRange` ends and accepts exactly the ranges of user space whose bytes all lie in areas
with the rights; a range it does not accept is neither read nor written by the copies. -/
theorem user_ranges_validated {p : Process} (hok : p.VmaListWf) (userPtr size : BitVec 64)
    (hptr : userPtr ≠ 0#64) (hsize : size ≠ 0#64) (write : Bool) :
    (WellFounded fun next cur =>
        p.ValidateTurn (pageCeil (wrap64 (userPtr.toNat + size.toNat))) write cur next) ∧
      (∀ fuel, p.fuel ≤ fuel →
        p.validateLoop (pageCeil (wrap64 (userPtr.toNat + size.toNat))) write fuel
            (pageFloor userPtr.toNat) =
          p.validateLoop (pageCeil (wrap64 (userPtr.toNat + size.toNat))) write p.fuel
            (pageFloor userPtr.toNat)) ∧
      (p.validateUserRange userPtr.toNat size.toNat write = true ↔
        p.RangePermitted write userPtr.toNat size.toNat) ∧
      (¬p.RangePermitted false userPtr.toNat size.toNat →
        ∀ (m : Memory) (dst : ℕ), p.copyFromUser m dst userPtr.toNat size.toNat = some (-14, m)) ∧
      (¬p.RangePermitted true userPtr.toNat size.toNat →
        ∀ (m : Memory) (src : ℕ), p.copyToUser m userPtr.toNat src size.toNat = some (-14, m)) := by
  have hptr : userPtr.toNat ≠ 0 := fun h => hptr (BitVec.eq_of_toNat_eq h)
  have hsize : size.toNat ≠ 0 := fun h => hsize (BitVec.eq_of_toNat_eq h)
  have hiff : ∀ write, p.validateUserRange userPtr.toNat size.toNat write = true ↔
      p.RangePermitted write userPtr.toNat size.toNat := by
    intro write
    rw [validateUserRange_iff hok userPtr.isLt size.isLt hsize]
    refine ⟨fun h => ⟨h.2.1.trans_lt (by decide), h.2⟩, fun h => ⟨hptr, h.2⟩⟩
  refine ⟨hok.validateTurn_wf _ _, fun fuel hfuel => ?_, hiff write, fun hnot m dst => ?_,
    fun hnot m src => ?_⟩
  · rw [Bool.eq_iff_iff, hok.validateLoop_iff hfuel, hok.validateLoop_iff le_rfl]
  · rw [copyFromUser, if_neg hsize, if_pos (Bool.eq_false_iff.mpr ((hiff false).not.mpr hnot))]
  · rw [copyToUser, if_neg hsize, if_pos (Bool.eq_false_iff.mpr ((hiff true).not.mpr hnot))]

/-- A process with two areas, the later one first on the list: two pages that it may read and, below them
and without a gap, one that it may also write. -/
def twoAreas : Process where
  vmm := ⟨⟨fun _ => 0#64, 0, 0, 0, 0⟩, [], fun _ _ => 0#64, 0, [], []⟩
  pml4 := 0
  vmaHead := some 1
  vma a := if a = 0 then ⟨0x1000, 0x2000, vmaRead ||| vmaWrite ||| vmaUser, none, some 1⟩
    else ⟨0x2000, 0x4000, vmaRead ||| vmaUser, some 0, none⟩
  vmaCount := 2
  kmallocDenials := []
  handles := fun _ => none

theorem twoAreas_vmaListWf : twoAreas.VmaListWf := by
  have hvmas : twoAreas.vmas = [1, 0] := by decide
  refine ⟨?_, ?_, ?_, ?_, ?_, ?_⟩ <;> rw [hvmas]
  · decide
  · exact ⟨⟨rfl, rfl, rfl, rfl, rfl⟩, by decide⟩
  · decide
  · decide
  · decide
  · decide

/-- A range across both areas is accepted for reading but not for writing, and not with a byte more. -/
theorem user_ranges_validated_twoAreas :
    twoAreas.RangePermitted false 0x1800 0x2800 ∧
      (∀ (m : Memory) (src : ℕ), twoAreas.copyToUser m 0x1800 src 0x2800 = some (-14, m)) ∧
      ∀ (m : Memory) (dst : ℕ), twoAreas.copyFromUser m dst 0x1800 0x2801 = some (-14, m) := by
  have hfits := user_ranges_validated twoAreas_vmaListWf 0x1800#64 0x2800#64 (by decide) (by decide)
  have hover := user_ranges_validated twoAreas_vmaListWf 0x1800#64 0x2801#64 (by decide) (by decide)
    false
  refine ⟨(hfits false).2.2.1.mp (by decide), (hfits true).2.2.2.2 fun h => ?_,
    hover.2.2.2.1 fun h => ?_⟩
  · exact absurd ((hfits true).2.2.1.mpr h) (by decide)
  · exact absurd (hover.2.2.1.mpr h) (by decide)

end Process

end NovaOS.Mem
