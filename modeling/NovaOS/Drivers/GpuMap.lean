import NovaOS.Drivers.GpuResource
import NovaOS.Mem.VmaPages
import NovaOS.Syscall.VmaRun

/-!
# Mapping a GPU resource

What `virtioGpuResourceCreate` does to the pages of the current process. The address of the buffer comes
from a cursor that knows nothing of the areas of the process, and the answer of `vmaCreate` is ignored.
`resourceCreate_separate` says when the buffer stays clear of what the process had before.
-/

namespace NovaOS.Mem

open NovaOS.Lib List

/-- Addresses in user space do not wrap. -/
theorem wrap64_of_le_userSpaceMax {a : ℕ} (h : a ≤ userSpaceMax) : wrap64 a = a :=
  wrap64_of_lt (lt_of_le_of_lt h (by decide))

/-! ## Runs of frames -/

namespace Vmm

variable {m : Vmm} {R : List ℕ} {root : ℕ}

theorem nodup_frameRun (a count : ℕ) : (Drivers.frameRun a count).Nodup :=
  List.Nodup.map (fun i j (hij : a + i * pageSize = a + j * pageSize) => by
    rw [pageSize] at hij
    omega) nodup_range

variable {a count k n virt : ℕ}

theorem mem_frameRun {b : ℕ} (ha : a % pageSize = 0) (hb : b % pageSize = 0) :
    b ∈ Drivers.frameRun a count ↔
      a / pageSize ≤ b / pageSize ∧ b / pageSize < a / pageSize + count := by
  rw [Drivers.frameRun, mem_map]
  constructor
  · rintro ⟨k, hk, rfl⟩
    rw [mem_range] at hk
    rw [page_add]
    omega
  · rintro ⟨h1, h2⟩
    refine ⟨b / pageSize - a / pageSize, mem_range.mpr (by omega), ?_⟩
    rw [pageSize] at *
    omega

theorem balanced_pmmAllocFrames (hinv : m.pmm.Inv) (hpos : 0 < count) :
    m.Balanced (Drivers.pmmAllocFrames m count).2 := by
  by_cases hz : 0 ∈ m.pmm.usedSet
  swap
  · exact ⟨fun h => absurd h hz, fun h => absurd h hz⟩
  unfold Drivers.pmmAllocFrames
  dsimp only
  rcases hinv.pmmAllocFrames count with ⟨hnull, hsame⟩ | ⟨a, haddr, hlt, hfree, hpost⟩
  · rw [hnull, hsame]
    exact .refl m
  have hnot : ∀ k, k < count → a + k ∉ m.pmm.usedSet := by
    intro k hk
    rw [Pmm.mem_usedSet, hfree (a + k) (by omega) (by omega)]
    simp
  have ha : a ≠ 0 := by
    rintro rfl
    exact hnot 0 hpos hz
  have hne : a * pageSize ≠ 0 := Nat.mul_ne_zero ha (by decide)
  have hdiv : a * pageSize / pageSize = a := Nat.mul_div_cancel _ (by decide)
  rw [haddr, if_neg hne]
  refine Balanced.of_alloc (fun _ => ?_) rfl rfl (nodup_frameRun (a * pageSize) count)
    (fun b hb => ?_) fun b hb => ?_
  · rw [hpost.used_eq]
    exact Finset.mem_union_left _ hz
  · rw [hpost.used_eq, Finset.mem_union, Finset.mem_Ico,
      mem_frameRun (Nat.mul_mod_left _ _) hb.aligned, hdiv]
  · obtain ⟨k, hk, rfl⟩ := mem_map.mp hb
    rw [page_add, hdiv]
    exact hnot k (mem_range.mp hk)

/-- `pmm_alloc_frames` fails or hands out a run of frames that were free. -/
theorem Shared.pmmAllocFrames (h : m.Shared R) (count : ℕ) :
    (∀ root, m.Moves (Drivers.pmmAllocFrames m count).2 R root (m.mapped root)) ∧
      (∀ a, m.Data R a → (Drivers.pmmAllocFrames m count).2.Data R a) ∧
      ((Drivers.pmmAllocFrames m count).1 ≠ 0 →
        (Drivers.pmmAllocFrames m count).2.SpareRun R (Drivers.pmmAllocFrames m count).1 count ∧
        ∀ k, k < count → ¬m.Data R ((Drivers.pmmAllocFrames m count).1 + k * pageSize)) := by
  rcases Nat.eq_zero_or_pos count with rfl | hpos
  · exact ⟨fun root => h.moves_self, fun _ ha => ha, fun hne => absurd rfl hne⟩
  have hbalanced := balanced_pmmAllocFrames h.pmm hpos
  unfold Drivers.pmmAllocFrames
  dsimp only
  rcases h.pmm.pmmAllocFrames count with ⟨hnull, hsame⟩ | ⟨a, haddr, hlt, hfree, hpost⟩
  · rw [hnull, hsame]
    exact ⟨fun root => h.moves_self, fun _ ha => ha, fun hne => absurd rfl hne⟩
  have hmono : ∀ {f}, f ∈ m.pmm.usedSet → f ∈ (m.pmm.pmmAllocFrames count).2.usedSet := by
    intro f hf
    rw [hpost.used_eq]
    exact Finset.mem_union_left _ hf
  refine ⟨fun root => h.of_pmm rfl rfl hpost.inv hpost.total_eq hbalanced fun a _ hu _ => hmono hu,
    fun b hb => hb.of_pmm rfl (hmono hb.used), fun hne => ?_⟩
  rw [haddr] at hne ⊢
  have hfk : ∀ k, a * pageSize + k * pageSize = (a + k) * pageSize :=
    fun k => (add_mul a k pageSize).symm
  have hdiv : ∀ k, (a + k) * pageSize / pageSize = a + k := fun k => Nat.mul_div_cancel _ (by decide)
  have hnot : ∀ k, k < count → (a * pageSize + k * pageSize) / pageSize ∉ m.pmm.usedSet := by
    intro k hk
    rw [hfk, hdiv, Pmm.mem_usedSet, hfree (a + k) (by omega) (by omega)]
    simp
  refine ⟨fun k hk => ?_, fun k hk hd => hnot k hk hd.used⟩
  refine h.spare_of_fresh rfl rfl (.of_total h.total_le ?_ (by omega) ?_) (hnot k hk) ?_
  · rw [hfk]
    exact Nat.mul_mod_left _ _
  · rw [hfk, hdiv]
    omega
  · rw [hfk, hdiv, hpost.used_eq, Finset.mem_union, Finset.mem_Ico]
    exact .inr ⟨by omega, by omega⟩

/-- A run of spare frames can be given back. -/
theorem Shared.pmmFreeFrames (h : m.Shared R) (hspare : m.SpareRun R a count) :
    (∀ root, m.Moves (Drivers.pmmFreeFrames m a count) R root (m.mapped root)) ∧
      ∀ b, m.Data R b → b ∉ Drivers.frameRun a count →
        (Drivers.pmmFreeFrames m a count).Data R b := by
  rcases Nat.eq_zero_or_pos count with rfl | hpos
  · have hsame : Drivers.pmmFreeFrames m a 0 = m := by
      rw [Drivers.pmmFreeFrames, Pmm.pmmFreeFrames, if_pos (by simp)]
      rfl
    rw [hsame]
    exact ⟨fun root => h.moves_self, fun b hb _ => hb⟩
  have hrun : ∀ b ∈ Drivers.frameRun a count, m.Spare R b ∧ b ≠ m.gKernelPml4 := by
    intro b hb
    obtain ⟨k, hk, rfl⟩ := mem_map.mp hb
    exact hspare k (mem_range.mp hk)
  have haddr : FrameAddr a := by
    have hfirst := (hspare 0 hpos).1.data.addr
    rwa [zero_mul, add_zero] at hfirst
  have hend : a / pageSize + count ≤ m.pmm.gTotalFrames := by
    have hlast := (Pmm.mem_usedSet.mp (hspare (count - 1) (by omega)).1.data.used).1
    rw [page_add] at hlast
    omega
  have hpost := h.pmm.pmmFreeFrames_of_le haddr.ne_zero haddr.aligned hend
  have hused : ∀ b, FrameAddr b → (b / pageSize ∈ (Drivers.pmmFreeFrames m a count).pmm.usedSet ↔
      b / pageSize ∈ m.pmm.usedSet ∧ b ∉ Drivers.frameRun a count) := by
    intro b hb
    show b / pageSize ∈ (m.pmm.pmmFreeFrames a count).usedSet ↔ _
    rw [hpost.used_eq, Finset.mem_sdiff, Finset.mem_Ico, mem_frameRun haddr.aligned hb.aligned]
  have hbalanced : m.Balanced (Drivers.pmmFreeFrames m a count) := by
    refine .of_free (fun hz => ?_) rfl rfl (nodup_frameRun a count) hused fun b hb =>
      (hrun b hb).1.data.used
    show 0 ∈ (m.pmm.pmmFreeFrames a count).usedSet
    rw [hpost.used_eq, Finset.mem_sdiff, Finset.mem_Ico]
    exact ⟨hz, fun hin => haddr.div_ne_zero (Nat.le_zero.mp hin.1)⟩
  refine ⟨fun root => h.of_pmm rfl rfl hpost.inv hpost.total_eq hbalanced fun b hb hu hown => ?_,
    fun b hb hnot => hb.of_pmm rfl ((hused b hb.addr).mpr ⟨hb.used, hnot⟩)⟩
  refine (hused b hb).mpr ⟨hu, fun hbF => ?_⟩
  obtain ⟨hs, hk⟩ := hrun b hbF
  rcases hown with ⟨r, hr, hta | hmaps⟩ | heq
  · exact hs.data.not_table r hr hta
  · exact hs.unmapped r hr hmaps
  · exact hk heq

/-! ## Frames for tables -/

/-- The next `k` calls of `pmm_alloc_frame` return a frame. -/
def Supplies : (k : ℕ) → Vmm → Prop
  | 0, _ => True
  | k + 1, m => m.pmmAllocFrame.1 ≠ 0 ∧ Supplies k m.pmmAllocFrame.2

instance decidableSupplies : (k : ℕ) → (m : Vmm) → Decidable (Supplies k m)
  | 0, _ => .isTrue trivial
  | k + 1, m =>
    have := decidableSupplies k m.pmmAllocFrame.2
    inferInstanceAs (Decidable (_ ∧ _))

variable {m' : Vmm}

/-- The allocator alone decides. -/
theorem Supplies.congr (h : Supplies k m) (hpmm : m'.pmm = m.pmm)
    (hdenials : m'.denials = m.denials) : Supplies k m' := by
  induction k generalizing m m' with
  | zero => trivial
  | succ k ih =>
    have hstep : m'.pmmAllocFrame.1 = m.pmmAllocFrame.1 ∧
        m'.pmmAllocFrame.2.pmm = m.pmmAllocFrame.2.pmm ∧
        m'.pmmAllocFrame.2.denials = m.pmmAllocFrame.2.denials := by
      unfold pmmAllocFrame
      rw [hdenials, hpmm]
      split <;> exact ⟨rfl, rfl, rfl⟩
    exact ⟨hstep.1 ▸ h.1, ih h.2 hstep.2.1 hstep.2.2⟩

theorem Supplies.of_succ (h : Supplies (k + 1) m) : Supplies k m := by
  induction k generalizing m with
  | zero => trivial
  | succ k ih => exact ⟨h.1, ih h.2⟩

theorem Supplies.getOrAllocTable (h : Supplies (k + 1) m) (t : ℕ) (i : Fin 512) (flags : Pte) :
    ∃ c m', m.getOrAllocTable t i flags = (some c, m') ∧ Supplies k m' := by
  cases hpres : (m.mem t i).getLsbD 0 with
  | true => exact ⟨_, _, getOrAllocTable_of_present hpres flags, h.of_succ.congr rfl rfl⟩
  | false =>
    refine ⟨_, _, (getOrAllocTable_of_absent hpres flags).trans (if_neg h.1), ?_⟩
    exact h.2.congr rfl rfl

theorem Supplies.vmmMapPage (h : Supplies (k + 3) m) (root virt phys : ℕ) (flags : Pte) :
    (m.vmmMapPage root virt phys flags).1 = 0 ∧
      Supplies k (m.vmmMapPage root virt phys flags).2 := by
  unfold Vmm.vmmMapPage
  dsimp only
  obtain ⟨c1, m1, h1, hs1⟩ := h.getOrAllocTable root (pml4Idx (pageFloor virt)) flags
  rw [h1]
  dsimp only
  obtain ⟨c2, m2, h2, hs2⟩ := hs1.getOrAllocTable c1 (pdptIdx (pageFloor virt)) flags
  rw [h2]
  dsimp only
  obtain ⟨c3, m3, h3, hs3⟩ := hs2.getOrAllocTable c2 (pdIdx (pageFloor virt)) flags
  rw [h3]
  exact ⟨rfl, hs3.congr rfl rfl⟩

/-- With three frames for each page the whole range is mapped. -/
theorem Supplies.mapPages (h : Supplies (3 * n) m) (root virtStart physStart : ℕ) (flags : Pte)
    (offset : ℕ) : (Vmm.mapPages root virtStart physStart flags n offset m).1 = 0 := by
  induction n generalizing m offset with
  | zero => rfl
  | succ n ih =>
    have hfirst := Supplies.vmmMapPage (show Supplies (3 * n + 3) m from h) root
      (wrap64 (virtStart + offset)) (wrap64 (physStart + offset)) flags
    rw [Vmm.mapPages]
    obtain ⟨hres, hrest⟩ := hfirst
    dsimp only
    rw [hres]
    exact ih hrest (offset + pageSize)

/-! ## Translations -/

theorem Shared.vmmVirtToPhys_eq_zero (h : m.Shared R) (hroot : root ∈ R)
    (hv : virt < userSpaceMax) :
    m.vmmVirtToPhys root virt = 0 ↔ m.mapped root (virt / pageSize) = none := by
  rw [(h.space root hroot).vmmVirtToPhys hv]
  cases hm : m.mapped root (virt / pageSize) with
  | none => simp
  | some e =>
    have haddr := (h.data root hroot (page_lt_userPages hv) hm).addr.ne_zero
    simp [haddr]

/-- The first address of a mapped page. -/
theorem Shared.vmmVirtToPhys_page (h : m.Shared R) (hroot : root ∈ R) {e : Pte}
    (hn : n * pageSize < userSpaceMax) (he : m.mapped root n = some e) :
    m.vmmVirtToPhys root (n * pageSize) = e.addr := by
  have hand := Nat.and_two_pow_sub_one_eq_mod (n * pageSize) 12
  rw [show 2 ^ 12 = pageSize from rfl, Nat.mul_mod_left] at hand
  rw [(h.space root hroot).vmmVirtToPhys hn, Nat.mul_div_cancel _ (by decide), he]
  dsimp only
  rw [hand, Nat.or_zero]

/-- A page whose entry a step keeps translates as before. -/
theorem Moves.vmmVirtToPhys_eq {f : ℕ → Option Pte} (hmoves : m.Moves m' R root f)
    (h : m.Shared R) (hroot : root ∈ R) (hv : virt < userSpaceMax)
    (hf : f (virt / pageSize) = m.mapped root (virt / pageSize)) :
    m'.vmmVirtToPhys root virt = m.vmmVirtToPhys root virt := by
  rw [(h.space root hroot).vmmVirtToPhys hv, (hmoves.shared.space root hroot).vmmVirtToPhys hv,
    hmoves.mapped_eq (page_lt_userPages hv), hf]

end Vmm

end NovaOS.Mem

namespace NovaOS.Drivers

open NovaOS.Lib NovaOS.Mem

/-! ## One process -/

section Process

variable {R : List ℕ} {p : Process} {start phys count : ℕ}

/-- `vmaDestroy` of an aligned range clears the pages of the range that areas cover. -/
theorem vmaDestroy_moves {size : ℕ} (hshared : p.vmm.Shared R) (hroot : p.pml4 ∈ R)
    (hvmas : p.Ordered) (halign : start % pageSize = 0) (hsize : size % pageSize = 0)
    (hne : size ≠ 0) (hmax : start + size ≤ userSpaceMax) :
    (p.vmaDestroy start size).2.pml4 = p.pml4 ∧ (p.vmaDestroy start size).2.Ordered ∧
      (p.vmm.Moves (p.vmaDestroy start size).2.vmm R p.pml4 fun n =>
        if (∃ A ∈ p.areas p.vmas, A.Holds n) ∧ start ≤ n * pageSize ∧ n * pageSize < start + size
        then none else p.vmm.mapped p.pml4 n) ∧
      p.vmm.Keeps (p.vmaDestroy start size).2.vmm R p.pml4 fun n =>
        (∃ A ∈ p.areas p.vmas, A.Holds n) ∧ start ≤ n * pageSize ∧ n * pageSize < start + size := by
  have hshort : size ≤ userSpaceMax := by omega
  have hord := hvmas.vmaDestroy (Syscall.forwards_of_short hvmas start hshort)
  obtain ⟨L, hview, hL⟩ := hvmas
  obtain ⟨-, -, hpost⟩ := hview.vmaDestroy start hne
  have hend : pageFloor (wrap64 (start + size + (pageSize - 1))) = start + size := by
    rw [Syscall.pageFloor_range halign hsize, wrap64_of_le_userSpaceMax hmax]
  rw [Syscall.pageFloor_of_aligned halign, hend] at hpost
  have hend' : (start + size) % pageSize = 0 := by
    rw [pageSize] at *
    omega
  refine ⟨hpost.pml4_eq, hord, ?_⟩
  rw [hpost.vmm_eq, hview.areas_vmas]
  exact hshared.releaseAll hroot hL.valid halign hend'

/-- `vmaDestroy` of a range without pages gives back nothing. -/
theorem vmaDestroy_unmapped {q : Process} (hshared : q.vmm.Shared R)
    (hroot : q.pml4 ∈ R) (hord : q.Ordered) (halign : start % pageSize = 0) (hpos : 0 < count)
    (hmax : start + count * pageSize ≤ userSpaceMax)
    (hnone : ∀ n, n < userPages → start / pageSize ≤ n → n < start / pageSize + count →
      q.vmm.mapped q.pml4 n = none) :
    (q.vmaDestroy start (count * pageSize)).2.pml4 = q.pml4 ∧
      (q.vmaDestroy start (count * pageSize)).2.Ordered ∧
      q.vmm.Moves (q.vmaDestroy start (count * pageSize)).2.vmm R q.pml4 (q.vmm.mapped q.pml4) ∧
      ∀ a, q.vmm.Data R a → (q.vmaDestroy start (count * pageSize)).2.vmm.Data R a := by
  obtain ⟨hpml4, hord', hclear, hkeeps⟩ := vmaDestroy_moves hshared hroot hord halign
    (Nat.mul_mod_left count _) (Nat.mul_ne_zero hpos.ne' (by decide)) hmax
  have hin : ∀ n, start ≤ n * pageSize → n * pageSize < start + count * pageSize →
      start / pageSize ≤ n ∧ n < start / pageSize + count := by
    intro n h1 h2
    rw [pageSize] at *
    omega
  refine ⟨hpml4, hord', hclear.congr fun n hn => ?_, fun a ha => hkeeps a ha fun n e hn hP he => ?_⟩
  · split
    · rename_i hP
      obtain ⟨h1, h2⟩ := hin n hP.2.1 hP.2.2
      exact (hnone n hn h1 h2).symm
    · rfl
  · obtain ⟨h1, h2⟩ := hin n hP.2.1 hP.2.2
    rw [hnone n hn h1 h2] at he
    cases he

/-- What `mapResource` does up to the failure of `vmm_map_range`, if it fails: it maps the first `k`
pages of the buffer. -/
theorem mapResource_cases (hshared : p.vmm.Shared R) (hroot : p.pml4 ∈ R) (hvmas : p.Ordered)
    (hmax : start + count * pageSize ≤ userSpaceMax) (hspare : p.vmm.SpareRun R phys count) :
    ∃ k q, k ≤ count ∧ (Vmm.Supplies (3 * count) p.vmm → k = count) ∧ q.pml4 = p.pml4 ∧ q.Ordered ∧
      p.vmm.Moves q.vmm R p.pml4
        (Vmm.withRun (p.vmm.mapped p.pml4) (start / pageSize) phys gpuPteFlags k) ∧
      (∀ a, p.vmm.Data R a → q.vmm.Data R a) ∧
      mapResource p start phys (count * pageSize) =
        if k = count then (start, q) else (0, (q.vmaDestroy start (count * pageSize)).2) := by
  have hpages : pageCeil (count * pageSize) / pageSize = count := by
    rw [Vmm.pageCeil_div (by omega), Mem.pageCount, pageSize]
    omega
  unfold mapResource
  have hcreate := hvmas.vmaCreate start (count * pageSize) (vmaRead ||| vmaWrite ||| vmaUser)
  obtain ⟨L, hview, -⟩ := hvmas
  obtain ⟨-, hsame⟩ := hview.vmaCreate start (count * pageSize) (vmaRead ||| vmaWrite ||| vmaUser)
  generalize (p.vmaCreate start (count * pageSize) (vmaRead ||| vmaWrite ||| vmaUser)).2 = p1
    at hcreate hsame
  dsimp only
  rw [hsame.vmm_eq, hsame.pml4_eq, Vmm.vmmMapRange, hpages]
  have hphys : phys + 0 * pageSize = phys := by rw [zero_mul, add_zero]
  obtain ⟨k, hk, hres, hmoves, hdata⟩ := hshared.mapPages hroot
    (show gpuPteFlags.FlagsOnly by decide)
    (show start + (0 + count) * pageSize ≤ userSpaceMax by rwa [zero_add]) (hphys.symm ▸ hspare)
  have hsupplied : Vmm.Supplies (3 * count) p.vmm → _ := fun h =>
    h.mapPages p.pml4 start phys gpuPteFlags 0
  rw [zero_mul] at hmoves
  rw [zero_mul] at hres hdata
  generalize Vmm.mapPages p.pml4 start phys gpuPteFlags count 0 p.vmm = r
    at hres hmoves hdata hsupplied
  obtain ⟨res, m⟩ := r
  dsimp only at hsupplied
  refine ⟨k, { p1 with vmm := m }, hk, fun h => hres.mp (hsupplied h), hsame.pml4_eq,
    hcreate.withVmm m, hmoves, hdata, ?_⟩
  split
  · rename_i heq
    obtain ⟨rfl, rfl⟩ := Prod.mk.inj heq
    rw [if_pos (hres.mp rfl), hsame.pml4_eq]
  · rename_i hne heq
    obtain ⟨rfl, rfl⟩ := Prod.mk.inj heq
    rw [if_neg fun hall => hne (hres.mpr hall), hsame.pml4_eq]

/-- What mapping a buffer does to the pages of the process: nothing outside its range, and if there are
frames for the tables, every page of the range is one of the buffer. -/
structure MapsBuffer (R : List ℕ) (p p' : Process) (start phys count : ℕ)
    (f : ℕ → Option Pte) : Prop where
  moves : p.vmm.Moves p'.vmm R p.pml4 f
  pml4_eq : p'.pml4 = p.pml4
  outside : ∀ n, n < userPages → ¬(start / pageSize ≤ n ∧ n < start / pageSize + count) →
    f n = p.vmm.mapped p.pml4 n
  inside : Vmm.Supplies (3 * count) p.vmm → ∀ k, k < count →
    f (start / pageSize + k) = some (Pte.leaf (phys + k * pageSize) gpuPteFlags)

theorem mapResource_mapsBuffer (hshared : p.vmm.Shared R) (hroot : p.pml4 ∈ R) (hvmas : p.Ordered)
    (halign : start % pageSize = 0) (hcount : 0 < count)
    (hmax : start + count * pageSize ≤ userSpaceMax) (hspare : p.vmm.SpareRun R phys count) :
    ∃ f, MapsBuffer R p (mapResource p start phys (count * pageSize)).2 start phys count f := by
  obtain ⟨k, q, hk, hsupplied, hpml4, hord, hmoves, -, heq⟩ :=
    mapResource_cases hshared hroot hvmas hmax hspare
  rw [heq]
  by_cases hall : k = count
  · rw [if_pos hall]
    refine ⟨_, hmoves, hpml4, fun n _ hout => if_neg (by rwa [hall]), fun _ i hi => ?_⟩
    rw [Vmm.withRun, if_pos (by omega), Nat.add_sub_cancel_left]
  · -- the pages mapped so far are given back, as far as areas cover them
    rw [if_neg hall]
    obtain ⟨hroot', -, hundo, -⟩ := vmaDestroy_moves hmoves.shared (hpml4 ▸ hroot) hord halign
      (Nat.mul_mod_left count _) (Nat.mul_ne_zero hcount.ne' (by decide)) hmax
    rw [hpml4] at hundo
    refine ⟨_, hmoves.trans hundo, hroot'.trans hpml4, fun n hn hout => ?_, fun hsupply => ?_⟩
    · rw [if_neg, hmoves.mapped_eq hn, Vmm.withRun, if_neg (by omega)]
      rintro ⟨-, h1, h2⟩
      rw [pageSize] at *
      omega
    · exact absurd (hsupplied hsupply) hall

end Process

/-! ## The whole call -/

namespace GpuSystem

/-- Steps that touch neither memory nor processes nor the list of resources. -/
structure Quiet (s s' : GpuSystem) : Prop where
  vmm_eq : s'.vmm = s.vmm
  procs_eq : s'.procs = s.procs
  resources_eq : s'.gpu.resources = s.gpu.resources
  cursor_eq : s'.gpu.gGpuUserVirtCursor = s.gpu.gGpuUserVirtCursor

section Quiet

variable {s : GpuSystem}

theorem Quiet.refl (s : GpuSystem) : s.Quiet s := ⟨rfl, rfl, rfl, rfl⟩

theorem Quiet.trans {s1 s2 s3 : GpuSystem} (h : s1.Quiet s2) (h' : s2.Quiet s3) : s1.Quiet s3 :=
  ⟨h'.vmm_eq.trans h.vmm_eq, h'.procs_eq.trans h.procs_eq, h'.resources_eq.trans h.resources_eq,
    h'.cursor_eq.trans h.cursor_eq⟩

theorem kzallocResource_quiet : s.Quiet s.kzallocResource.2 := ⟨rfl, rfl, rfl, rfl⟩

theorem virtioGpuResourceDestroy_absent {resId : BitVec 32} (h : resId ≠ 0#32 →
    s.gpu.resources.find? (fun r => r.resourceId == resId) = none) (ctxId : BitVec 32) :
    (s.virtioGpuResourceDestroy ctxId resId).2 = s := by
  unfold virtioGpuResourceDestroy
  split
  · rfl
  · rw [h ‹_›]

theorem releaseResource_gpu (s : GpuSystem) (t : VirtioGpuResource) :
    (s.releaseResource t).gpu = s.gpu := by
  unfold GpuSystem.releaseResource
  dsimp only
  split_ifs <;> rfl

/-- `virtioGpuResourceDestroy` that finds a record. The list is shortened first; the commands change
nothing here. -/
theorem destroy_eq {resId : BitVec 32} {t : VirtioGpuResource} (ctxId : BitVec 32) (hne : resId ≠ 0#32)
    (hfind : s.gpu.resources.find? (fun r => r.resourceId == resId) = some t) :
    ∃ s1 : GpuSystem, (s.virtioGpuResourceDestroy ctxId resId).2 = s1.releaseResource t ∧
      s1.vmm = s.vmm ∧ s1.procs = s.procs ∧
      s1.gpu.gGpuUserVirtCursor = s.gpu.gGpuUserVirtCursor ∧
      s1.gpu.resources = s.gpu.resources.eraseP (fun r => r.resourceId == resId) := by
  unfold GpuSystem.virtioGpuResourceDestroy
  rw [if_neg hne, hfind]
  dsimp only
  split
  · exact ⟨_, rfl, rfl, rfl, rfl, rfl⟩
  · exact ⟨_, rfl, rfl, rfl, rfl, rfl⟩

theorem takeResourceId_ne_zero (s : GpuSystem) : s.takeResourceId.1 ≠ 0#32 := by
  unfold takeResourceId
  dsimp only
  split
  · rename_i hzero
    rw [hzero]
    decide
  · assumption

end Quiet

/-- The owner of a resource once its buffer is unmapped and its areas are destroyed. -/
def withoutBuffer (s : GpuSystem) (t : VirtioGpuResource) : Process :=
  ({ s.proc t.proc with
      vmm := (s.vmm.vmmUnmapRange (s.procs t.proc).pml4 t.userVirt (t.pageCount * pageSize)).2 }
    |>.vmaDestroy t.userVirt (t.pageCount * pageSize)).2

/-- A resource of a process whose root is in `R`, with a buffer in user space. -/
structure Listed (s : GpuSystem) (R : List ℕ) (t : VirtioGpuResource) : Prop where
  root : (s.procs t.proc).pml4 ∈ R
  vmas : (s.procs t.proc).Ordered
  buffer : 0 < t.pageCount ∧ t.userVirt % pageSize = 0 ∧
    t.userVirt + t.pageCount * pageSize ≤ userSpaceMax

section Listed

variable {s : GpuSystem} {R : List ℕ} {t : VirtioGpuResource}

/-- The pages of the buffer are unmapped before its areas are destroyed, so these give back nothing. -/
theorem Listed.withoutBuffer_moves (h : s.Listed R t) (hshared : s.vmm.Shared R) :
    (s.withoutBuffer t).pml4 = (s.procs t.proc).pml4 ∧ (s.withoutBuffer t).Ordered ∧
      s.vmm.Moves (s.withoutBuffer t).vmm R (s.procs t.proc).pml4
        (Vmm.cleared (s.vmm.mapped (s.procs t.proc).pml4) (t.userVirt / pageSize) t.pageCount) ∧
      ∀ a, s.vmm.Data R a → (s.withoutBuffer t).vmm.Data R a := by
  obtain ⟨hpos, halign, hmax⟩ := h.buffer
  have hroot := h.root
  have hpages : pageCeil (t.pageCount * pageSize) / pageSize = t.pageCount := by
    rw [Vmm.pageCeil_div (by omega), Mem.pageCount, pageSize]
    omega
  obtain ⟨hunmap, hkept⟩ := hshared.unmapPages hroot
    (show t.userVirt + (0 + t.pageCount) * pageSize ≤ userSpaceMax by rwa [zero_add])
  rw [zero_mul] at hunmap
  rw [withoutBuffer, Vmm.vmmUnmapRange, hpages]
  have hord := h.vmas.withVmm
    (Vmm.unmapPages (s.procs t.proc).pml4 t.userVirt t.pageCount 0 s.vmm)
  -- the process between the two steps
  set q : Process := { s.procs t.proc with
    vmm := Vmm.unmapPages (s.procs t.proc).pml4 t.userVirt t.pageCount 0 s.vmm } with hq
  have hqpml4 : (s.procs t.proc).pml4 = q.pml4 := rfl
  rw [hqpml4] at hroot
  obtain ⟨hpml4, hord', hsame, hkept'⟩ := vmaDestroy_unmapped hunmap.shared hroot hord halign hpos hmax
    fun n hn h1 h2 => by rw [hunmap.mapped_eq hn, Vmm.cleared, if_pos ⟨h1, h2⟩]
  refine ⟨hpml4.trans hqpml4.symm, hord', ?_, fun a ha => hkept' a (hkept a ha)⟩
  exact hunmap.trans_self hsame

/-- The end of `virtioGpuResourceDestroy` takes the pages of the buffer down; the frames that are given
back do not matter to the tables. -/
theorem Listed.releaseResource_mem (h : s.Listed R t) (hshared : s.vmm.Shared R) :
    ∃ m, (s.releaseResource t).vmm.mem = m.mem ∧ s.vmm.Moves m R (s.procs t.proc).pml4
      (if t.userVirt = 0 then s.vmm.mapped (s.procs t.proc).pml4 else
        Vmm.cleared (s.vmm.mapped (s.procs t.proc).pml4) (t.userVirt / pageSize) t.pageCount) := by
  have hsize := wrap64_of_le_userSpaceMax (a := t.pageCount * pageSize) (by have := h.buffer.2.2; omega)
  unfold GpuSystem.releaseResource
  dsimp only
  rw [hsize]
  by_cases hzero : t.userVirt = 0
  · have hno : ¬(t.userVirt ≠ 0 ∧ (s.proc t.proc).pml4 ≠ 0) := fun hc => hc.1 hzero
    rw [if_neg hno, if_pos hzero]
    exact ⟨s.vmm, by split <;> rfl, hshared.moves_self⟩
  · have hyes : t.userVirt ≠ 0 ∧ (s.proc t.proc).pml4 ≠ 0 := ⟨hzero, hshared.root_ne_zero h.root⟩
    rw [if_pos hyes, if_neg hzero]
    exact ⟨(s.withoutBuffer t).vmm, by split <;> rfl, (h.withoutBuffer_moves hshared).2.2.1⟩

/-- So an address of the buffer is not mapped any more, and others translate as before. -/
theorem Listed.releaseResource_translates (h : s.Listed R t) (hshared : s.vmm.Shared R) {root virt : ℕ}
    (hroot : root ∈ R) (hv : virt < userSpaceMax) :
    (s.releaseResource t).vmm.vmmVirtToPhys root virt =
      if t.userVirt ≠ 0 ∧ (s.procs t.proc).pml4 = root ∧ t.userVirt ≤ virt ∧
        virt < t.userVirt + t.pageCount * pageSize then 0 else s.vmm.vmmVirtToPhys root virt := by
  obtain ⟨m, hmem, hmoves⟩ := h.releaseResource_mem hshared
  have heq : (s.releaseResource t).vmm.vmmVirtToPhys root virt = m.vmmVirtToPhys root virt := by
    simp only [Vmm.vmmVirtToPhys, hmem]
  rw [heq]
  by_cases hsame : (s.procs t.proc).pml4 = root
  · subst hsame
    have hpage : t.userVirt ≤ virt ∧ virt < t.userVirt + t.pageCount * pageSize ↔
        t.userVirt / pageSize ≤ virt / pageSize ∧
          virt / pageSize < t.userVirt / pageSize + t.pageCount := by
      have halign := h.buffer.2.1
      rw [pageSize] at *
      omega
    split
    · rename_i hcleared
      rw [hmoves.shared.vmmVirtToPhys_eq_zero hroot hv, hmoves.mapped_eq (page_lt_userPages hv),
        if_neg hcleared.1, Vmm.cleared, if_pos (hpage.mp hcleared.2.2)]
    · rename_i hkept
      refine hmoves.vmmVirtToPhys_eq hshared hroot hv ?_
      split
      · rfl
      · exact if_neg fun hin => hkept ⟨‹_›, rfl, hpage.mpr hin⟩
  · rw [if_neg fun hc => hsame hc.2.1, (hshared.space _ hroot).vmmVirtToPhys hv,
      (hmoves.shared.space _ hroot).vmmVirtToPhys hv,
      hmoves.others_eq _ hroot (Ne.symm hsame) (page_lt_userPages hv)]

end Listed

/-- The commands of a call that got frames, with the number they are sent for. -/
def asked (s : GpuSystem) (args : NagResourceCreateArgs) (l : Layout) (m : Vmm) (phys n : ℕ) :
    Bool × GpuSystem :=
  { s with vmm := m }.takeResourceId.2.announce args l s.takeResourceId.1 phys n

theorem asked_quiet (s : GpuSystem) (args : NagResourceCreateArgs) (l : Layout) (m : Vmm)
    (phys n : ℕ) : Quiet { s with vmm := m } (s.asked args l m phys n).2 := by
  unfold asked announce
  dsimp only
  split_ifs <;> exact ⟨rfl, rfl, rfl, rfl⟩

/-- The pages that `virtioGpuResourceCreate` maps: those of a request that is well formed, finds
frames, is accepted by the device and gets a record. -/
def pagesToMap (s : GpuSystem) (args : NagResourceCreateArgs) : Option ℕ :=
  match args.layout with
  | none => none
  | some l =>
    let count := pagesOf l.byteSize
    let r := pmmAllocFrames s.vmm count
    if r.1 = 0 then none
    else
      let t := { s with vmm := r.2 }.takeResourceId
      let a := t.2.announce args l t.1 r.1 count
      if a.1 && a.2.kzallocResource.1 then some count else none

/-- `virtioGpuResourceCreate` gets frames and the device's consent but no record, and calls
`virtioGpuResourceDestroy` for the new number. -/
def undoes (s : GpuSystem) (args : NagResourceCreateArgs) : Bool :=
  match args.layout with
  | none => false
  | some l =>
    let count := pagesOf l.byteSize
    let r := pmmAllocFrames s.vmm count
    if r.1 = 0 then false
    else
      let t := { s with vmm := r.2 }.takeResourceId
      let a := t.2.announce args l t.1 r.1 count
      a.1 && !a.2.kzallocResource.1

/-- The listed resource that it then destroys. -/
def undone (s : GpuSystem) (args : NagResourceCreateArgs) : Option VirtioGpuResource :=
  if s.undoes args then s.gpu.resources.find? fun r => r.resourceId == s.takeResourceId.1 else none

section Create

variable {s : GpuSystem} {R : List ℕ} {curr : ℕ} {args : NagResourceCreateArgs}

section Layout

variable {l : Layout} {n phys : ℕ} {m : Vmm} (hl : args.layout = some l) (hn : n = pagesOf l.byteSize)
  (halloc : pmmAllocFrames s.vmm n = (phys, m))
include hl hn halloc

theorem create_eq (curr : ℕ) :
    let a := s.asked args l m phys n
    s.virtioGpuResourceCreate curr args =
      if phys = 0 then (none, { s with vmm := m })
      else if a.1 = false then (none, { a.2 with vmm := pmmFreeFrames a.2.vmm phys n })
      else if a.2.kzallocResource.1 = false then
        (none, (a.2.kzallocResource.2.virtioGpuResourceDestroy args.contextId s.takeResourceId.1).2)
      else a.2.kzallocResource.2.listResource curr args l s.takeResourceId.1 phys n := by
  subst hn
  unfold virtioGpuResourceCreate
  simp only [hl, halloc, Bool.not_eq_true']
  rfl

theorem pagesToMap_eq : s.pagesToMap args = if phys = 0 then none else
    if (s.asked args l m phys n).1 && (s.asked args l m phys n).2.kzallocResource.1 then some n
    else none := by
  subst hn
  unfold pagesToMap
  simp only [hl, halloc]
  rfl

theorem undoes_eq : s.undoes args = if phys = 0 then false else
    (s.asked args l m phys n).1 && !(s.asked args l m phys n).2.kzallocResource.1 := by
  subst hn
  unfold undoes
  simp only [hl, halloc]
  rfl

end Layout

theorem create_of_none (curr : ℕ) (hl : args.layout = none) :
    s.virtioGpuResourceCreate curr args = (none, s) := by
  unfold virtioGpuResourceCreate
  rw [hl]

/-- The ways `virtioGpuResourceCreate` can end. -/
inductive CreateCase (s : GpuSystem) (curr : ℕ) (args : NagResourceCreateArgs) :
    Option NagResource × GpuSystem → Prop
  | refused (hn : s.pagesToMap args = none) (hu : s.undoes args = false) :
      CreateCase s curr args (none, s)
  | noFrames (n : ℕ) (hn : s.pagesToMap args = none) (hu : s.undoes args = false) :
      CreateCase s curr args (none, { s with vmm := (pmmAllocFrames s.vmm n).2 })
  | rejected (n : ℕ) (s₁ : GpuSystem) (hn : s.pagesToMap args = none)
      (hne : (pmmAllocFrames s.vmm n).1 ≠ 0)
      (hquiet : Quiet { s with vmm := (pmmAllocFrames s.vmm n).2 } s₁)
      (hu : s.undoes args = false) :
      CreateCase s curr args
        (none, { s₁ with vmm := pmmFreeFrames s₁.vmm (pmmAllocFrames s.vmm n).1 n })
  | noRecord (n : ℕ) (s₁ : GpuSystem) (hn : s.pagesToMap args = none)
      (hne : (pmmAllocFrames s.vmm n).1 ≠ 0)
      (hquiet : Quiet { s with vmm := (pmmAllocFrames s.vmm n).2 } s₁)
      (hu : s.undoes args = true) :
      CreateCase s curr args
        (none, (s₁.virtioGpuResourceDestroy args.contextId s.takeResourceId.1).2)
  | listed (n : ℕ) (s₁ : GpuSystem) (l : Layout) (resId : BitVec 32)
      (hn : s.pagesToMap args = some n) (hne : (pmmAllocFrames s.vmm n).1 ≠ 0)
      (hquiet : Quiet { s with vmm := (pmmAllocFrames s.vmm n).2 } s₁)
      (hu : s.undoes args = false) :
      CreateCase s curr args (s₁.listResource curr args l resId (pmmAllocFrames s.vmm n).1 n)

theorem create_cases (s : GpuSystem) (curr : ℕ) (args : NagResourceCreateArgs) :
    CreateCase s curr args (s.virtioGpuResourceCreate curr args) := by
  cases hl : args.layout with
  | none =>
    rw [create_of_none curr hl]
    exact .refused (by rw [pagesToMap, hl]) (by rw [undoes, hl])
  | some l =>
    obtain ⟨n, hn⟩ : ∃ n, n = pagesOf l.byteSize := ⟨_, rfl⟩
    obtain ⟨⟨phys, m⟩, halloc⟩ : ∃ r, pmmAllocFrames s.vmm n = r := ⟨_, rfl⟩
    have hpages := pagesToMap_eq hl hn halloc
    have hundoes := undoes_eq hl hn halloc
    have hquiet := s.asked_quiet args l m phys n
    rw [create_eq hl hn halloc curr]
    generalize s.asked args l m phys n = a at hpages hundoes hquiet ⊢
    obtain ⟨rfl, rfl⟩ : (pmmAllocFrames s.vmm n).1 = phys ∧ (pmmAllocFrames s.vmm n).2 = m :=
      ⟨congrArg Prod.fst halloc, congrArg Prod.snd halloc⟩
    by_cases hnull : (pmmAllocFrames s.vmm n).1 = 0
    · rw [if_pos hnull] at hpages hundoes ⊢
      exact .noFrames n hpages hundoes
    rw [if_neg hnull] at hpages hundoes ⊢
    split_ifs with ha hrec
    · rw [ha] at hpages hundoes
      exact .rejected n a.2 hpages hnull hquiet hundoes
    · rw [Bool.not_eq_false] at ha
      rw [ha, hrec] at hpages hundoes
      exact .noRecord n _ hpages hnull (hquiet.trans kzallocResource_quiet) hundoes
    · rw [Bool.not_eq_false] at ha hrec
      rw [ha, hrec] at hpages hundoes
      exact .listed n _ l _ hpages hnull (hquiet.trans kzallocResource_quiet) hundoes

/-- A call that does not get as far as mapping leaves the pages. -/
theorem create_unmapped (curr : ℕ) (hshared : s.vmm.Shared R) (h : s.pagesToMap args = none)
    (hundone : s.undone args = none) :
    (∀ root, s.vmm.Moves (s.virtioGpuResourceCreate curr args).2.vmm R root (s.vmm.mapped root)) ∧
      (s.virtioGpuResourceCreate curr args).2.gpu.resources = s.gpu.resources := by
  have hcases := create_cases s curr args
  generalize s.virtioGpuResourceCreate curr args = r at hcases
  cases hcases with
  | refused _ => exact ⟨fun root => hshared.moves_self, rfl⟩
  | noFrames n _ => exact ⟨(hshared.pmmAllocFrames n).1, rfl⟩
  | rejected n s1 _ hne hquiet =>
    obtain ⟨halloc, -, hspare⟩ := hshared.pmmAllocFrames n
    refine ⟨fun root => ?_, hquiet.resources_eq⟩
    rw [hquiet.vmm_eq]
    exact (halloc root).trans_self (((halloc root).shared.pmmFreeFrames (hspare hne).1).1 root)
  | noRecord n s1 _ _ hquiet hu =>
    rw [undone, if_pos hu] at hundone
    rw [virtioGpuResourceDestroy_absent fun _ => hquiet.resources_eq.symm ▸ hundone]
    exact ⟨fun root => hquiet.vmm_eq ▸ (hshared.pmmAllocFrames n).1 root, hquiet.resources_eq⟩
  | listed n _ _ _ hn => exact nomatch h.symm.trans hn

/-- A call that destroys a listed resource. -/
theorem create_undone {t : VirtioGpuResource} (curr : ℕ) (h : s.undone args = some t) :
    ∃ n s1, (s.virtioGpuResourceCreate curr args).2 = releaseResource s1 t ∧
      s1.vmm = (pmmAllocFrames s.vmm n).2 ∧ s1.procs = s.procs ∧
      s1.gpu.resources ⊆ s.gpu.resources := by
  have hcases := create_cases s curr args
  generalize s.virtioGpuResourceCreate curr args = r at hcases
  unfold undone at h
  split at h
  case isFalse => cases h
  rename_i hundoes
  cases hcases
  case noRecord n s1 _ _ hquiet _ =>
    obtain ⟨s2, heq, hvmm, hprocs, -, hres⟩ := destroy_eq args.contextId s.takeResourceId_ne_zero
      (hquiet.resources_eq.symm ▸ h)
    refine ⟨n, s2, heq, hvmm.trans hquiet.vmm_eq, hprocs.trans hquiet.procs_eq, ?_⟩
    rw [hres, hquiet.resources_eq]
    exact List.eraseP_subset
  all_goals exact absurd (hundoes.symm.trans ‹s.undoes args = false›) (by decide)

/-- A call that gets as far as mapping. -/
theorem create_listed {n : ℕ} (curr : ℕ) (h : s.pagesToMap args = some n) :
    (pmmAllocFrames s.vmm n).1 ≠ 0 ∧ ∃ l s1 resId,
      Quiet { s with vmm := (pmmAllocFrames s.vmm n).2 } s1 ∧
      s.virtioGpuResourceCreate curr args =
        s1.listResource curr args l resId (pmmAllocFrames s.vmm n).1 n := by
  have hcases := create_cases s curr args
  generalize s.virtioGpuResourceCreate curr args = r at hcases
  cases hcases
  case listed n' s1 l resId hn hne hquiet _ =>
    obtain rfl := Option.mem_unique h hn
    exact ⟨hne, l, s1, resId, hquiet, rfl⟩
  all_goals exact absurd (h.symm.trans ‹s.pagesToMap args = none›) (Option.some_ne_none n)

end Create

/-- The call maps its buffer apart from what the process had: a page that was mapped translates as
before, a page that is mapped now lay in no area, and the buffer is in user space. -/
structure Separate (s s' : GpuSystem) (curr : ℕ) : Prop where
  kept : ∀ virt, virt < userSpaceMax → s.vmm.vmmVirtToPhys (s.proc curr).pml4 virt ≠ 0 →
    s'.vmm.vmmVirtToPhys (s.proc curr).pml4 virt = s.vmm.vmmVirtToPhys (s.proc curr).pml4 virt
  fresh : ∀ virt, virt < userSpaceMax → s.vmm.vmmVirtToPhys (s.proc curr).pml4 virt = 0 →
    s'.vmm.vmmVirtToPhys (s.proc curr).pml4 virt ≠ 0 → (s.proc curr).vmaFind virt = none
  user : ∀ r ∈ s'.gpu.resources, r ∉ s.gpu.resources →
    r.userVirt + r.pageCount * pageSize ≤ userSpaceMax

/-- A range of user space with no area and no page in it. -/
structure Clear (p : Process) (start size : ℕ) : Prop where
  fits : start + size ≤ userSpaceMax
  areas : ∀ A ∈ p.areas p.vmas, A.stop ≤ start ∨ start + size ≤ A.start
  unmapped : ∀ virt, start ≤ virt → virt < start + size → p.vmm.vmmVirtToPhys p.pml4 virt = 0

/-- The pages of the resource are no pages of the process. -/
def Spares (s : GpuSystem) (curr : ℕ) (t : VirtioGpuResource) : Prop :=
  t.userVirt ≠ 0 → (s.procs t.proc).pml4 = (s.proc curr).pml4 →
    ∀ virt, t.userVirt ≤ virt → virt < t.userVirt + t.pageCount * pageSize →
      s.vmm.vmmVirtToPhys (s.proc curr).pml4 virt = 0

section Separate

variable {s : GpuSystem} {R : List ℕ} {curr : ℕ} {args : NagResourceCreateArgs}

theorem vmaFind_eq_none {p : Process} (h : p.Ordered) (virt : ℕ) :
    p.vmaFind virt = none ↔ ∀ A ∈ p.areas p.vmas, ¬(A.start ≤ virt ∧ virt < A.stop) := by
  obtain ⟨L, ⟨l, hl, rfl⟩, -⟩ := h
  rw [hl.vmas_eq, Process.vmaFind, hl.scan_eq, Process.areas]
  simp [Process.area, Vma.area]

variable {n : ℕ}

theorem listResource_eq (hpml4 : (s.proc curr).pml4 ≠ 0) (args : NagResourceCreateArgs) (l : Layout)
    (resId : BitVec 32) (phys n : ℕ) :
    let s' := (s.listResource curr args l resId phys n).2
    let r := mapResource (s.proc curr) s.gpu.gGpuUserVirtCursor phys (wrap64 (n * pageSize))
    s'.vmm = r.2.vmm ∧ s'.procs = Function.update s.procs curr r.2 ∧
      s'.gpu.gGpuUserVirtCursor = nextGpuCursor s.gpu.gGpuUserVirtCursor (wrap64 (n * pageSize)) ∧
      ∃ res : VirtioGpuResource, s'.gpu.resources = res :: s.gpu.resources ∧ res.physBase = phys ∧
        res.pageCount = n ∧ res.userVirt = r.1 ∧ res.proc = curr := by
  unfold listResource
  dsimp only
  rw [if_pos hpml4]
  exact ⟨rfl, rfl, rfl, _, rfl, rfl, rfl, rfl, rfl⟩

/-- The pages of an aligned range. -/
theorem page_mem_iff {start virt : ℕ} (halign : start % pageSize = 0) :
    (start / pageSize ≤ virt / pageSize ∧ virt / pageSize < start / pageSize + n) ↔
      start ≤ virt ∧ virt < start + n * pageSize := by
  rw [pageSize] at *
  omega

section

variable (hshared : s.vmm.Shared R) (hroot : (s.proc curr).pml4 ∈ R)
  (hvmas : (s.proc curr).Ordered) (hcursor : s.gpu.gGpuUserVirtCursor % pageSize = 0)
  (hn : s.pagesToMap args = some n)
include hshared hroot hvmas hcursor hn

/-- The state after a call that gets as far as mapping. -/
theorem create_mapsBuffer (hfits : s.gpu.gGpuUserVirtCursor + n * pageSize ≤ userSpaceMax) :
    let s' := (s.virtioGpuResourceCreate curr args).2
    (∃ f, s.vmm.Moves s'.vmm R (s.proc curr).pml4 f ∧
      (∀ i, i < userPages → ¬(s.gpu.gGpuUserVirtCursor / pageSize ≤ i ∧
        i < s.gpu.gGpuUserVirtCursor / pageSize + n) → f i = s.vmm.mapped (s.proc curr).pml4 i) ∧
      (Vmm.Supplies (3 * n) (pmmAllocFrames s.vmm n).2 → ∀ k, k < n →
        f (s.gpu.gGpuUserVirtCursor / pageSize + k) =
          some (Pte.leaf ((pmmAllocFrames s.vmm n).1 + k * pageSize) gpuPteFlags))) ∧
      ∀ r ∈ s'.gpu.resources, r ∉ s.gpu.resources →
        r.pageCount = n ∧ (r.userVirt = 0 ∨ r.userVirt = s.gpu.gGpuUserVirtCursor) := by
  intro s'
  obtain ⟨hne, l, s1, resId, hquiet, heq⟩ := create_listed curr hn
  obtain ⟨halloc, -, hspare⟩ := hshared.pmmAllocFrames n
  have hn0 := pos_of_pmmAllocFrames hne
  have hproc : s1.proc curr = { s.proc curr with vmm := (pmmAllocFrames s.vmm n).2 } := by
    unfold proc
    rw [hquiet.procs_eq, hquiet.vmm_eq]
  have hroot0 : (s1.proc curr).pml4 ≠ 0 := by
    rw [hproc]
    exact hshared.root_ne_zero hroot
  have hsize := wrap64_of_le_userSpaceMax (a := n * pageSize) (by omega)
  obtain ⟨hs', -, -, res, hres, -, hcount, hvirt, -⟩ := listResource_eq hroot0 args l resId
    (pmmAllocFrames s.vmm n).1 n
  obtain ⟨f, hmaps⟩ := mapResource_mapsBuffer (p := { s.proc curr with
    vmm := (pmmAllocFrames s.vmm n).2 }) (halloc 0).shared hroot (hvmas.withVmm _) hcursor hn0 hfits
    (hspare hne).1
  rw [hproc, hquiet.cursor_eq, hsize] at hs' hvirt
  have hvmm : s'.vmm = _ := (congrArg (fun r => r.2.vmm) heq).trans hs'
  have hlist : s'.gpu.resources = res :: s.gpu.resources :=
    (congrArg (fun r => r.2.gpu.resources) heq).trans (hres.trans (by rw [hquiet.resources_eq]))
  refine ⟨⟨f, ?_, fun i hi hout => ?_, hmaps.inside⟩, fun r hr hold => ?_⟩
  · rw [hvmm]
    exact (halloc _).trans hmaps.moves
  · rw [hmaps.outside i hi hout]
    exact (halloc _).mapped_eq hi
  · rw [hlist, List.mem_cons] at hr
    obtain rfl := hr.resolve_right hold
    refine ⟨hcount, ?_⟩
    rw [hvirt]
    unfold mapResource
    dsimp only
    split
    · exact .inr rfl
    · exact .inl rfl

theorem Clear.separate (hclear : Clear (s.proc curr) s.gpu.gGpuUserVirtCursor (n * pageSize)) :
    s.Separate (s.virtioGpuResourceCreate curr args).2 curr := by
  obtain ⟨⟨f, hmoves, houtside, -⟩, hlisted⟩ := create_mapsBuffer hshared hroot hvmas hcursor hn
    hclear.fits
  have hsame : ∀ virt, virt < userSpaceMax → ¬_ → _ := fun virt hv hout =>
    hmoves.vmmVirtToPhys_eq hshared hroot hv
      (houtside _ (page_lt_userPages hv) (mt (page_mem_iff hcursor).mp hout))
  refine ⟨fun virt hv hmapped => hsame virt hv fun hin => ?_, fun virt hv hnone hmapped => ?_,
    fun r hr hold => ?_⟩
  · exact hmapped (hclear.unmapped virt hin.1 hin.2)
  · have hin := not_not.mp fun hout => hmapped ((hsame virt hv hout).trans hnone)
    rw [vmaFind_eq_none hvmas]
    rintro A hA ⟨h1, h2⟩
    have hapart := hclear.areas A hA
    omega
  · have hfits := hclear.fits
    obtain ⟨hcount, hvirt | hvirt⟩ := hlisted r hr hold <;> rw [hcount, hvirt] <;> omega

theorem Separate.clear (hfits : s.gpu.gGpuUserVirtCursor + n * pageSize ≤ userSpaceMax)
    (hsupply : Vmm.Supplies (3 * n) (pmmAllocFrames s.vmm n).2)
    (hsep : s.Separate (s.virtioGpuResourceCreate curr args).2 curr) :
    Clear (s.proc curr) s.gpu.gGpuUserVirtCursor (n * pageSize) := by
  obtain ⟨⟨f, hmoves, -, hinside⟩, -⟩ := create_mapsBuffer hshared hroot hvmas hcursor hn hfits
  obtain ⟨halloc, -, hspare⟩ := hshared.pmmAllocFrames n
  have hne := (create_listed curr hn).1
  have hn0 := pos_of_pmmAllocFrames hne
  have hvalid : ∀ A ∈ (s.proc curr).areas (s.proc curr).vmas, A.Valid := by
    obtain ⟨L, hview, hL⟩ := hvmas
    rw [hview.areas_vmas]
    exact hL.valid
  set start := s.gpu.gGpuUserVirtCursor with hstart
  set root := (s.proc curr).pml4 with hrootdef
  -- each page of the buffer is mapped by the call, and to a frame that was free
  have hafter : ∀ k, k < n → (start / pageSize + k) * pageSize < userSpaceMax ∧
      start / pageSize + k < userPages ∧ (s.virtioGpuResourceCreate curr args).2.vmm.mapped root
        (start / pageSize + k) = some (Pte.leaf ((pmmAllocFrames s.vmm n).1 + k * pageSize) gpuPteFlags) := by
    intro k hk
    have hlt : (start / pageSize + k) * pageSize < userSpaceMax := by
      rw [pageSize] at *
      omega
    have hpage := page_lt_userPages hlt
    rw [Nat.mul_div_cancel _ (by decide)] at hpage
    exact ⟨hlt, hpage, (hmoves.mapped_eq hpage).trans (hinside hsupply k hk)⟩
  have hbefore : ∀ k, k < n → s.vmm.mapped root (start / pageSize + k) = none := by
    intro k hk
    obtain ⟨hlt, hpage, hnew⟩ := hafter k hk
    obtain ⟨hs, -⟩ := (hspare hne).1 k hk
    cases hold : s.vmm.mapped root (start / pageSize + k) with
    | none => rfl
    | some e =>
      exfalso
      have htrans := hsep.kept _ hlt (by
        rw [hshared.vmmVirtToPhys_page hroot hlt hold]
        exact (hshared.data root hroot hpage hold).addr.ne_zero)
      rw [hshared.vmmVirtToPhys_page hroot hlt hold, hmoves.shared.vmmVirtToPhys_page hroot hlt
        hnew, Pte.addr_leaf hs.data.addr (by decide)] at htrans
      refine hs.unmapped root hroot ⟨_, e, hpage, ?_, htrans.symm⟩
      rw [(halloc root).mapped_eq hpage, hold]
  refine ⟨hfits, fun A hA => ?_, fun virt h1 h2 => ?_⟩
  · -- a page of an area that meets the range would be mapped where an area was
    by_contra hmeet
    obtain ⟨k, hk, h1, h2⟩ : ∃ k, k < n ∧ A.start ≤ (start / pageSize + k) * pageSize ∧
        (start / pageSize + k) * pageSize < A.stop := by
      have hA1 := (hvalid A hA).start_aligned
      have hA3 := (hvalid A hA).lt
      refine ⟨(max A.start start - start) / pageSize, ?_⟩
      rw [pageSize] at *
      omega
    obtain ⟨hlt, -, hnew⟩ := hafter k hk
    have hnone : s.vmm.vmmVirtToPhys root ((start / pageSize + k) * pageSize) = 0 := by
      rw [hshared.vmmVirtToPhys_eq_zero hroot hlt, Nat.mul_div_cancel _ (by decide)]
      exact hbefore k hk
    have hfind := hsep.fresh _ hlt hnone (by
      rw [Ne, hmoves.shared.vmmVirtToPhys_eq_zero hroot hlt, Nat.mul_div_cancel _ (by decide), hnew]
      simp)
    rw [vmaFind_eq_none hvmas] at hfind
    exact hfind A hA ⟨h1, h2⟩
  · have hv : virt < userSpaceMax := by omega
    have hin := (page_mem_iff hcursor).mpr ⟨h1, h2⟩
    show s.vmm.vmmVirtToPhys root virt = 0
    rw [hshared.vmmVirtToPhys_eq_zero hroot hv]
    have hpage := hbefore (virt / pageSize - start / pageSize) (by omega)
    rwa [Nat.add_sub_cancel' hin.1] at hpage

end

theorem separate_undone_iff {t : VirtioGpuResource} (hshared : s.vmm.Shared R)
    (hroot : (s.proc curr).pml4 ∈ R) (h : s.undone args = some t) (hlisted : s.Listed R t) :
    s.Separate (s.virtioGpuResourceCreate curr args).2 curr ↔ s.Spares curr t := by
  obtain ⟨n, s1, heq, hvmm, hprocs, hres⟩ := create_undone curr h
  have halloc := (hshared.pmmAllocFrames n).1 (s.proc curr).pml4
  have hlisted1 : s1.Listed R t := ⟨hprocs ▸ hlisted.root, hprocs ▸ hlisted.vmas, hlisted.buffer⟩
  have htrans {virt : ℕ} (hv : virt < userSpaceMax) :=
    hlisted1.releaseResource_translates (hvmm ▸ halloc.shared) hroot hv
  rw [hprocs, hvmm, ← heq] at htrans
  constructor
  · intro hsep hne hsame virt hlow hhigh
    by_contra hmapped
    have hv : virt < userSpaceMax := lt_of_lt_of_le hhigh hlisted.buffer.2.2
    have hkept := hsep.kept virt hv hmapped
    rw [htrans hv, if_pos ⟨hne, hsame, hlow, hhigh⟩] at hkept
    exact hmapped hkept.symm
  · intro hspares
    have hsame {virt : ℕ} (hv : virt < userSpaceMax) := halloc.vmmVirtToPhys_eq hshared hroot hv rfl
    refine ⟨fun virt hv hmapped => ?_, fun virt hv hnone hmapped => ?_, fun r hr hold => ?_⟩
    · rw [htrans hv, if_neg fun hc => hmapped (hspares hc.1 hc.2.1 virt hc.2.2.1 hc.2.2.2), hsame hv]
    · rw [htrans hv, hsame hv, hnone, ite_self] at hmapped
      exact absurd rfl hmapped
    · rw [heq, releaseResource_gpu] at hr
      exact absurd (hres hr) hold

/-- `virtioGpuResourceCreate` keeps its buffer apart from what the process had, if the addresses at the
cursor are clear where it maps, and the resource that it destroys where it undoes has no pages in the
process; the first only if, when there are frames for the tables, and the second only if. -/
theorem resourceCreate_separate (hshared : s.vmm.Shared R) (hroot : (s.proc curr).pml4 ∈ R)
    (hvmas : (s.proc curr).VmaListOk) (hcursor : s.gpu.gGpuUserVirtCursor % pageSize = 0)
    (args : NagResourceCreateArgs) :
    ((∀ t, s.undone args = some t → s.Listed R t ∧ s.Spares curr t) →
      (∀ n, s.pagesToMap args = some n →
        Clear (s.proc curr) s.gpu.gGpuUserVirtCursor (n * pageSize)) →
      s.Separate (s.virtioGpuResourceCreate curr args).2 curr) ∧
    (∀ n, s.pagesToMap args = some n → s.gpu.gGpuUserVirtCursor + n * pageSize ≤ userSpaceMax →
      Vmm.Supplies (3 * n) (pmmAllocFrames s.vmm n).2 →
      s.Separate (s.virtioGpuResourceCreate curr args).2 curr →
      Clear (s.proc curr) s.gpu.gGpuUserVirtCursor (n * pageSize)) ∧
    ∀ t, s.undone args = some t → s.Listed R t →
      s.Separate (s.virtioGpuResourceCreate curr args).2 curr → s.Spares curr t := by
  rw [Process.vmaListOk_iff] at hvmas
  refine ⟨fun hspares hclear => ?_, fun n hn hfits hsupply hsep =>
    hsep.clear hshared hroot hvmas hcursor hn hfits hsupply, fun t ht hlisted =>
    (separate_undone_iff hshared hroot ht hlisted).mp⟩
  cases hundone : s.undone args with
  | some t =>
    obtain ⟨hlisted, hspares⟩ := hspares t hundone
    exact (separate_undone_iff hshared hroot hundone hlisted).mpr hspares
  | none =>
  cases hn : s.pagesToMap args with
  | some n => exact (hclear n hn).separate hshared hroot hvmas hcursor hn
  | none =>
    obtain ⟨hmoves, hlist⟩ := create_unmapped curr hshared hn hundone
    have hsame : ∀ virt, virt < userSpaceMax → _ := fun virt hv =>
      (hmoves (s.proc curr).pml4).vmmVirtToPhys_eq hshared hroot hv rfl
    refine ⟨fun virt hv _ => hsame virt hv, fun virt hv hnone hmapped => ?_, fun r hr hold => ?_⟩
    · exact absurd ((hsame virt hv).trans hnone) hmapped
    · exact absurd (hlist ▸ hr) hold

end Separate

/-! ## A small machine -/

/-- A process with nothing mapped, and a device that accepts every command. -/
def freshSystem : GpuSystem where
  vmm := SpaceClient.smallSpace
  procs := fun _ =>
    { vmm := SpaceClient.smallSpace, pml4 := 0x101000, vmaHead := none
      vma := fun _ => ⟨0, 0, 0, none, none⟩, vmaCount := 0, kmallocDenials := []
      handles := fun _ => none }
  gpu :=
    { resources := [], nextResourceId := 1, gGpuUserVirtCursor := gpuUserMemBase
      kzallocDenials := [], answers := [], commands := [] }

theorem freshSystem_vmm : freshSystem.vmm = SpaceClient.smallSpace := by
  simp only [freshSystem]

theorem freshSystem_proc : (freshSystem.proc 0).vmm = freshSystem.vmm := by
  simp only [proc]

/-- A request for a buffer of sixteen bytes. -/
def smallBuffer : NagResourceCreateArgs := ⟨0, .buffer, 0, .none, 16, 0, 0⟩

theorem resourceCreate_separate_fresh :
    freshSystem.pagesToMap smallBuffer = some 1 ∧
      freshSystem.Separate (freshSystem.virtioGpuResourceCreate 0 smallBuffer).2 0 := by
  have hpages : freshSystem.pagesToMap smallBuffer = some 1 := by decide +kernel
  obtain ⟨hshared, hnone⟩ := SpaceClient.smallSpace_shared
  rw [← freshSystem_vmm] at hshared hnone
  have hvmas : (freshSystem.proc 0).VmaListOk :=
    Process.vmaListOk_iff.mpr ⟨[], ⟨[], ⟨DList.nil, by simp⟩, rfl⟩, Area.Ordered.nil⟩
  have hundone : freshSystem.undone smallBuffer = none := by
    unfold undone
    split <;> rfl
  refine ⟨hpages, (resourceCreate_separate hshared (List.mem_singleton_self _) hvmas (by decide)
    smallBuffer).1 (fun t ht => absurd (hundone.symm.trans ht) (by simp)) fun n hn => ?_⟩
  obtain rfl := Option.mem_unique hpages hn
  refine ⟨by decide, fun A hA => absurd hA ?_, fun virt h1 h2 => ?_⟩
  · rw [show (freshSystem.proc 0).vmas = [] from rfl]
    simp [Process.areas]
  · have hv : virt < userSpaceMax := lt_of_lt_of_le h2 (by decide)
    have hzero := (hshared.vmmVirtToPhys_eq_zero (List.mem_singleton_self _) hv).mpr
      (hnone _ (page_lt_userPages hv))
    rw [freshSystem_proc]
    exact hzero

/-- The same process after mapping a page with `sysMmap` and touching it. -/
def mmappedSystem : GpuSystem :=
  freshSystem.setProc 0 ((Syscall.sysMmap (freshSystem.proc 0) 0 4096 3 0x20 (-1) 0).2
    |>.vmmPageFaultHandler ⟨0x600000000000, 0x23, 6, 0⟩).2

/-- The first buffer takes the place of the first page that the process got from `sysMmap`. -/
theorem resourceCreate_over_mmap :
    (Syscall.sysMmap (freshSystem.proc 0) 0 4096 3 0x20 (-1) 0).1 = 0x600000000000 ∧
      (mmappedSystem.proc 0).vmaFind 0x600000000000 = some 0 ∧
      mmappedSystem.vmm.vmmVirtToPhys 0x101000 0x600000000000 = 0x102000 ∧
      (mmappedSystem.virtioGpuResourceCreate 0 smallBuffer).2.vmm.vmmVirtToPhys 0x101000
        0x600000000000 = 0x106000 ∧
      ¬mmappedSystem.Separate (mmappedSystem.virtioGpuResourceCreate 0 smallBuffer).2 0 := by
  refine ⟨by decide +kernel, by decide +kernel, by decide +kernel, by decide +kernel, fun hsep => ?_⟩
  exact absurd (hsep.kept 0x600000000000 (by decide)) (by decide +kernel)

end GpuSystem

end NovaOS.Drivers
