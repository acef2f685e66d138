import NovaOS.Mem.Vmm

/-!
# The walk of `vmmVirtToPhys`

`walkTables` lists the tables that `vmmVirtToPhys` reads for an address: the walk stops at an entry
that is not present and at one that maps a large page. The translation depends on nothing but the
contents of these tables up to permissions, and it keeps the offset within the page.
-/

namespace NovaOS.Mem

namespace Pte

/-- An entry without the permissions that `getOrAllocTable` may add. -/
def strip (e : Pte) : Pte := e &&& ~~~(vmmFlagWritable ||| vmmFlagUser)

theorem getLsbD_strip (e : Pte) (i : ℕ) :
    e.strip.getLsbD i = (e.getLsbD i && !decide (i = 1) && !decide (i = 2)) := by
  unfold strip
  rw [BitVec.getLsbD_and, vmmFlagWritable, vmmFlagUser, ← BitVec.twoPow_eq, ← BitVec.twoPow_eq]
  by_cases hi : i < 64
  · simp [hi, Bool.and_assoc]
  · rw [BitVec.getLsbD_of_ge _ _ (by omega)]
    simp

theorem strip_widen (e flags : Pte) : (widen e flags).strip = e.strip := by
  refine BitVec.eq_of_getLsbD_eq fun i _ => ?_
  rw [getLsbD_strip, getLsbD_strip, getLsbD_widen]
  by_cases h1 : i = 1 <;> by_cases h2 : i = 2 <;> simp [h1, h2]

/-- Entries that agree up to permissions agree on what refers to memory. -/
theorem strip_congr {e e' : Pte} (h : e.strip = e'.strip) :
    e.getLsbD 0 = e'.getLsbD 0 ∧ e.getLsbD 7 = e'.getLsbD 7 ∧ e.addr = e'.addr := by
  have hbit : ∀ i, i ≠ 1 → i ≠ 2 → e.getLsbD i = e'.getLsbD i := by
    intro i h1 h2
    have hi := congrArg (fun x => BitVec.getLsbD x i) h
    simpa [getLsbD_strip, h1, h2] using hi
  exact ⟨hbit 0 (by decide) (by decide), hbit 7 (by decide) (by decide),
    addr_congr fun i hi _ => hbit i (by omega) (by omega)⟩

@[simp] theorem strip_strip (e : Pte) : e.strip.strip = e.strip := by
  refine BitVec.eq_of_getLsbD_eq fun i _ => ?_
  rw [getLsbD_strip, getLsbD_strip]
  by_cases h1 : i = 1 <;> by_cases h2 : i = 2 <;> simp [h1, h2]

theorem addr_strip (e : Pte) : e.strip.addr = e.addr := (strip_congr e.strip_strip).2.2

theorem strip_and (e : Pte) {m : Pte}
    (hm : ~~~(vmmFlagWritable ||| vmmFlagUser) &&& m = m) : e.strip &&& m = e &&& m := by
  rw [strip, BitVec.and_assoc, hm]

end Pte

namespace Vmm

/-- The tables that `vmmVirtToPhys` reads. -/
def walkTables (m : Vmm) (pml4 virt : ℕ) : List ℕ :=
  let pml4Entry := m.mem pml4 (pml4Idx virt)
  if !pml4Entry.has vmmFlagPresent then [pml4]
  else
    let pdptEntry := m.mem pml4Entry.addr (pdptIdx virt)
    if !pdptEntry.has vmmFlagPresent || pdptEntry.has vmmFlagHuge then [pml4, pml4Entry.addr]
    else
      let pdEntry := m.mem pdptEntry.addr (pdIdx virt)
      if !pdEntry.has vmmFlagPresent || pdEntry.has vmmFlagHuge then
        [pml4, pml4Entry.addr, pdptEntry.addr]
      else [pml4, pml4Entry.addr, pdptEntry.addr, pdEntry.addr]

variable {m m' : Vmm} {pml4 virt : ℕ}

/-- The translation depends on the tables of the walk alone, and not on permissions. -/
theorem vmmVirtToPhys_congr_strip
    (h : ∀ t ∈ m.walkTables pml4 virt, ∀ j, (m'.mem t j).strip = (m.mem t j).strip) :
    m'.vmmVirtToPhys pml4 virt = m.vmmVirtToPhys pml4 virt := by
  have hroot := h pml4 (by unfold walkTables; dsimp only; grind) (pml4Idx virt)
  unfold vmmVirtToPhys
  unfold walkTables at h
  simp only [Pte.has_present, Pte.has_huge] at h ⊢
  obtain ⟨h4, -, haddr4⟩ := Pte.strip_congr hroot
  rw [h4, haddr4]
  set e4 := m.mem pml4 (pml4Idx virt)
  cases hpres4 : e4.getLsbD 0
  · rfl
  have hpdpt := h e4.addr (by grind) (pdptIdx virt)
  obtain ⟨h3, h3', haddr3⟩ := Pte.strip_congr hpdpt
  rw [h3, h3', haddr3, ← Pte.strip_and _ (m := 0x000FFFFFC0000000#64) (by decide), hpdpt,
    Pte.strip_and _ (by decide)]
  set e3 := m.mem e4.addr (pdptIdx virt)
  cases hpres3 : e3.getLsbD 0
  · rfl
  cases hhuge3 : e3.getLsbD 7
  swap
  · rfl
  have hpd := h e3.addr (by grind) (pdIdx virt)
  obtain ⟨h2, h2', haddr2⟩ := Pte.strip_congr hpd
  rw [h2, h2', haddr2, ← Pte.strip_and _ (m := 0x000FFFFFFFE00000#64) (by decide), hpd,
    Pte.strip_and _ (by decide)]
  set e2 := m.mem e3.addr (pdIdx virt)
  cases hpres2 : e2.getLsbD 0
  · rfl
  cases hhuge2 : e2.getLsbD 7
  swap
  · rfl
  obtain ⟨h1, -, haddr1⟩ := Pte.strip_congr (h e2.addr (by grind) (ptIdx virt))
  rw [h1, haddr1]

/-- The address bits of an entry from bit `k` on, together with an offset below them. -/
theorem field_or_offset (e mask : Pte) (x : ℕ) {k : ℕ} (hk : 12 ≤ k) (hk' : k ≤ 52)
    (hmask : mask.toNat < 2 ^ 52) (hlow : mask.toNat % 2 ^ k = 0) :
    ((e &&& mask).toNat ||| (x &&& (2 ^ k - 1))) % pageSize = x % pageSize ∧
      ((e &&& mask).toNat ||| (x &&& (2 ^ k - 1))) < 2 ^ 52 := by
  have hlt : (e &&& mask).toNat < 2 ^ 52 := by
    exact lt_of_le_of_lt Nat.and_le_right hmask
  have hdvd : (e &&& mask).toNat % 2 ^ k = 0 := by
    rw [BitVec.toNat_and, Nat.and_mod_two_pow, hlow, Nat.and_zero]
  have hpage : (e &&& mask).toNat % 2 ^ 12 = 0 := by
    rw [← Nat.mod_mod_of_dvd _ (Nat.pow_dvd_pow 2 hk), hdvd]
  rw [Nat.and_two_pow_sub_one_eq_mod]
  constructor
  · show ((e &&& mask).toNat ||| x % 2 ^ k) % 2 ^ 12 = x % 2 ^ 12
    rw [Nat.or_mod_two_pow, hpage, Nat.zero_or, Nat.mod_mod_of_dvd _ (Nat.pow_dvd_pow 2 hk)]
  · refine Nat.or_lt_two_pow hlt (lt_of_lt_of_le (Nat.mod_lt _ (Nat.two_pow_pos k)) ?_)
    exact Nat.pow_le_pow_right (by decide) hk'

/-- A translated address has the offset of the virtual one, and fits an entry. -/
theorem vmmVirtToPhys_offset (h : m.vmmVirtToPhys pml4 virt ≠ 0) :
    m.vmmVirtToPhys pml4 virt % pageSize = virt % pageSize ∧
      m.vmmVirtToPhys pml4 virt < 2 ^ 52 := by
  unfold vmmVirtToPhys at h ⊢
  dsimp only at h
  split at h
  · exact absurd rfl h
  rw [if_neg ‹_›]
  split at h
  · exact absurd rfl h
  rw [if_neg ‹_›]
  split at h
  · rw [if_pos ‹_›]
    exact field_or_offset _ _ virt (k := 30) (by decide) (by decide) (by decide) (by decide)
  rw [if_neg ‹_›]
  split at h
  · exact absurd rfl h
  rw [if_neg ‹_›]
  split at h
  · rw [if_pos ‹_›]
    exact field_or_offset _ _ virt (k := 21) (by decide) (by decide) (by decide) (by decide)
  rw [if_neg ‹_›]
  split at h
  · exact absurd rfl h
  rw [if_neg ‹_›]
  exact field_or_offset _ _ virt (k := 12) (by decide) (by decide) (by decide) (by decide)

end Vmm

end NovaOS.Mem
