import NovaOS.Drivers.Nvme
import NovaOS.Mem.VmmRefine
import NovaOS.Mem.VmmWalk

/-!
# What the commands of `nvme_read` transfer

The device's reading of a command is written down on its own: where the transfer starts, which
memory pages PRP1, PRP2 and a PRP list name, and which list pages the device visits. The loops of
`nvme_read` are then followed with `Holding`, which says what the driver's frames have done to the
allocator and to memory while a PRP list is held.
-/

namespace NovaOS.Drivers

open NovaOS.Lib NovaOS.Mem Fallible List PageList Triple Nat

/-! ## The device's reading of a command -/

/-- Entry `i` of the memory page at `page`. -/
def loadEntry (mem : ℕ → Fin 512 → Pte) (page i : ℕ) : ℕ := (mem page (Vmm.entryIdx i)).toNat

variable {i page page' : ℕ}

theorem entryIdx_inj {j : ℕ} (hi : i < 512) (hj : j < 512) :
    Vmm.entryIdx i = Vmm.entryIdx j ↔ i = j := by
  rw [Fin.ext_iff]
  show i % 512 = j % 512 ↔ i = j
  rw [mod_eq_of_lt hi, mod_eq_of_lt hj]

theorem loadEntry_write (m : Vmm) (page i : ℕ) {v : ℕ} (hv : v < 2 ^ 64) :
    loadEntry (m.write page (Vmm.entryIdx i) (BitVec.ofNat 64 v)).mem page i = v := by
  show (Radix.setEntry m.mem page _ _ page _).toNat = v
  rw [Radix.setEntry_self, BitVec.toNat_ofNat, mod_eq_of_lt hv]

theorem loadEntry_write_of_ne (m : Vmm) {i' : ℕ} (e : Pte) (hi : i < 512) (hi' : i' < 512)
    (hne : ¬(page' = page ∧ i' = i)) :
    loadEntry (m.write page (Vmm.entryIdx i) e).mem page' i' = loadEntry m.mem page' i' := by
  show (Radix.setEntry m.mem page _ e page' _).toNat = _
  rw [Radix.setEntry_of_ne _ _ (by rwa [entryIdx_inj hi' hi])]
  rfl

theorem loadEntry_clear_of_ne (m : Vmm) (i : ℕ) (hne : page' ≠ page) :
    loadEntry (m.clearTable page).mem page' i = loadEntry m.mem page' i := by
  show (Radix.fill m.mem page _ page' _).toNat = _
  rw [Radix.fill_of_ne _ _ _ hne]
  rfl

/-- The number of pages that `bytes` bytes from `addr` on touch. -/
def pageCount (addr bytes : ℕ) : ℕ := (addr % pageSize + bytes + pageSize - 1) / pageSize

/-- The `n` pages that PRP1 and PRP2 name: PRP2 is unused, the second page or a list. -/
def prpPages (mem : ℕ → Fin 512 → Pte) (n prp1 prp2 : ℕ) : List ℕ :=
  if n ≤ 1 then [prp1]
  else if n = 2 then [prp1, prp2]
  else prp1 :: read 511 (loadEntry mem) prp2 (n - 1)

/-- The list pages that the device visits for `n` pages. -/
def prpListPages (mem : ℕ → Fin 512 → Pte) (n prp2 : ℕ) : List ℕ :=
  if n ≤ 2 then [] else visited 511 (loadEntry mem) prp2 (n - 1)

namespace Submission

/-- The first block of the transfer. -/
def lba (c : Submission) : ℕ := c.sqe.cdw11 * 2 ^ 32 + c.sqe.cdw10

/-- The number of blocks of the transfer. -/
def blocks (c : Submission) : ℕ := c.sqe.cdw12 + 1

/-- The addresses of the transfer, page by page. -/
def dataPages (c : Submission) (blockSize : ℕ) : List ℕ :=
  prpPages c.mem (pageCount c.sqe.dptr0 (c.blocks * blockSize)) c.sqe.dptr0 c.sqe.dptr1

/-- The list pages of the transfer. -/
def listPages (c : Submission) (blockSize : ℕ) : List ℕ :=
  prpListPages c.mem (pageCount c.sqe.dptr0 (c.blocks * blockSize)) c.sqe.dptr1

end Submission

/-- The addresses of `bytes` bytes from `virt` on, page by page. -/
def bufferPages (virt bytes : ℕ) : List ℕ :=
  virt :: (range (pageCount virt bytes - 1)).map fun i =>
    wrap64 (pageFloor virt + pageSize + i * pageSize)

namespace Nvme

/-! ## Holding list frames -/

/-- The state `s` while the frames `held` are list frames, after the commands `cs` since `s₀`. -/
structure Holding (s₀ : Nvme) (cs : List Submission) (held : List ℕ) (s : Nvme) : Prop where
  pmm : s.vmm.pmm.Inv
  total_eq : s.vmm.pmm.gTotalFrames = s₀.vmm.pmm.gTotalFrames
  kernel_eq : s.vmm.gKernelPml4 = s₀.vmm.gKernelPml4
  used_iff : ∀ g, g ≠ 0 → (g ∈ s.vmm.pmm.usedSet ↔ g ∈ s₀.vmm.pmm.usedSet ∨ g * pageSize ∈ held)
  zero_mono : 0 ∈ s₀.vmm.pmm.usedSet → 0 ∈ s.vmm.pmm.usedSet
  fresh : ∀ f ∈ held, FreeAddr f ∧ f / pageSize < s₀.vmm.pmm.gTotalFrames ∧
    f / pageSize ∉ s₀.vmm.pmm.usedSet
  nodup : held.Nodup
  mem_eq : ∀ t, t / pageSize ∈ s₀.vmm.pmm.usedSet → s.vmm.mem t = s₀.vmm.mem t
  answers : s.answers <:+ s₀.answers
  refused_le : s₀.refused ≤ s.refused
  commands_eq : s.commands = cs ++ s₀.commands
  logs : ∃ lists, s.released = lists ++ s₀.released ∧ (∀ l ∈ lists, l.length ≤ 130 ∧ l.Nodup) ∧
    s.vmm.allocated.Perm (held ++ lists.flatten ++ s₀.vmm.allocated) ∧
    s.vmm.freed.Perm (lists.flatten ++ s₀.vmm.freed)

theorem Holding.refl {s : Nvme} (h : s.vmm.pmm.Inv) : s.Holding [] [] s where
  pmm := h
  total_eq := rfl
  kernel_eq := rfl
  used_iff := by simp
  zero_mono := id
  fresh := by simp
  nodup := nodup_nil
  mem_eq := fun _ _ => rfl
  answers := suffix_rfl
  refused_le := le_rfl
  commands_eq := rfl
  logs := ⟨[], rfl, by simp, Perm.refl _, Perm.refl _⟩

section Steps

variable {s₀ : Nvme} {cs : List Submission} {held : List ℕ}

/-- `pmm_alloc_frame` returns `NULL`, or one more frame is held. -/
theorem pmmAllocFrame_spec :
    Triple (Holding s₀ cs held) pmmAllocFrame
      (fun f s => if f = 0 then Holding s₀ cs held s ∧ s₀.refused < s.refused
        else Holding s₀ cs (held ++ [f]) s) (fun _ => False) := by
  intro s hs
  have hspec := Vmm.pmmAllocFrame_spec hs.pmm
  obtain ⟨lists, hreleased, hlists, halloc, hfreed⟩ := hs.logs
  simp only [pmmAllocFrame]
  generalize s.vmm.pmmAllocFrame = r at hspec
  obtain ⟨f, m⟩ := r
  have hmem : ∀ t, t / pageSize ∈ s₀.vmm.pmm.usedSet → m.mem t = s₀.vmm.mem t :=
    fun t ht => (congrFun hspec.mem_eq t).trans (hs.mem_eq t ht)
  rw [← hspec.freed_eq] at hfreed
  rcases hspec.result with ⟨hf, hallocated, hused⟩ | ⟨hf, haligned, hlt, hfree, hused, hallocated⟩
  · rw [if_pos hf, if_pos hf]
    refine ⟨⟨hspec.inv, hspec.total_eq.trans hs.total_eq, hspec.kernel_eq.trans hs.kernel_eq,
      fun g hg => (hused g hg).trans (hs.used_iff g hg), fun h0 => hspec.used_mono (hs.zero_mono h0),
      hs.fresh, hs.nodup, hmem, hs.answers, le_succ_of_le hs.refused_le, hs.commands_eq, lists,
      hreleased, hlists, ?_, hfreed⟩, lt_succ_of_le hs.refused_le⟩
    rw [hallocated]
    exact halloc
  · rw [if_neg hf, if_neg hf]
    have hdiv : f / pageSize ≠ 0 := by
      rw [pageSize] at *
      omega
    have hnot := mt (hs.used_iff _ hdiv).mpr hfree
    rw [Nat.div_mul_cancel (Nat.dvd_of_mod_eq_zero haligned)] at hnot
    have haddr : FreeAddr f := ⟨hf, haligned⟩
    refine ⟨hspec.inv, hspec.total_eq.trans hs.total_eq, hspec.kernel_eq.trans hs.kernel_eq,
      fun g hg => ?_, fun h0 => hspec.used_mono (hs.zero_mono h0), fun g hg => ?_, ?_, hmem,
      hs.answers, hs.refused_le, hs.commands_eq, lists, hreleased, hlists, ?_, hfreed⟩
    · rw [hused, Finset.mem_insert, hs.used_iff g hg, haddr.eq_div_iff, mem_append, mem_singleton]
      tauto
    · rcases mem_append.mp hg with hg | hg
      · exact hs.fresh g hg
      · obtain rfl := mem_singleton.mp hg
        exact ⟨haddr, hs.total_eq ▸ hlt, fun h => hnot (.inl h)⟩
    · rw [nodup_append]
      refine ⟨hs.nodup, nodup_singleton f, fun a ha b hb => ?_⟩
      obtain rfl := mem_singleton.mp hb
      rintro rfl
      exact hnot (.inr ha)
    · rw [hallocated]
      refine (halloc.cons f).trans ?_
      simp only [append_assoc]
      exact perm_middle.symm

/-- Freeing the held frames leaves none. -/
theorem freePrpFrames_spec {E : Nvme → Prop} (hlen : held.length ≤ 130) :
    Triple (Holding s₀ cs held) (freePrpFrames held) (fun _ => Holding s₀ cs []) E := by
  refine update fun s hs => ?_
  obtain ⟨lists, hreleased, hlists, halloc, hfreed⟩ := hs.logs
  have haddr : ∀ f ∈ held, FreeAddr f := fun f hf => (hs.fresh f hf).1
  obtain ⟨hinv, hused⟩ := Vmm.freeAll_used hs.pmm haddr
  refine ⟨hinv, (Vmm.freeAll_total hs.pmm haddr).trans hs.total_eq,
    (Vmm.freeAll_kernel _ _).trans hs.kernel_eq, fun g hg => ?_, fun h0 => ?_, by simp,
    nodup_nil, fun t ht => ?_, hs.answers, hs.refused_le, hs.commands_eq, held :: lists, ?_, ?_,
    ?_, ?_⟩
  · refine (hused g).trans ?_
    rw [hs.used_iff g hg]
    constructor
    · rintro ⟨hold | hheld, hnot⟩
      · exact .inl hold
      · exact absurd ((haddr _ hheld).eq_div_iff.mpr rfl) (hnot _ hheld)
    · rintro (hold | hnil)
      · exact ⟨.inl hold, fun f hf heq => (hs.fresh f hf).2.2 (heq ▸ hold)⟩
      · cases hnil
  · exact (hused 0).mpr ⟨hs.zero_mono h0, fun f hf heq => (hs.fresh f hf).2.2 (heq ▸ h0)⟩
  · show (Vmm.freeAll held s.vmm).mem t = _
    rw [Vmm.freeAll_mem]
    exact hs.mem_eq t ht
  · rw [hreleased]
    rfl
  · intro l hl
    rcases mem_cons.mp hl with rfl | hl
    · exact ⟨hlen, hs.nodup⟩
    · exact hlists l hl
  · show (Vmm.freeAll held s.vmm).allocated.Perm _
    rw [Vmm.freeAll_allocated]
    exact halloc
  · show (Vmm.freeAll held s.vmm).freed.Perm _
    rw [Vmm.freeAll_freed, flatten_cons, append_assoc]
    exact (reverse_perm held).append hfreed

variable {s : Nvme}

/-- Writes to memory pages that were free before the call keep `Holding`. -/
theorem Holding.of_mem (h : Holding s₀ cs held s) {mem : ℕ → Fin 512 → Pte}
    (hmem : ∀ t, t / pageSize ∈ s₀.vmm.pmm.usedSet → mem t = s.vmm.mem t) :
    Holding s₀ cs held { s with vmm := { s.vmm with mem } } :=
  { h with mem_eq := fun t ht => (hmem t ht).trans (h.mem_eq t ht) }

variable {f : ℕ}

section

variable (h : Holding s₀ cs held s)
include h

/-- The frames of the list are not among those in use before the call. -/
theorem Holding.not_used {t : ℕ} (hf : f ∈ held) (ht : t / pageSize ∈ s₀.vmm.pmm.usedSet) :
    t ≠ f := by
  rintro rfl
  exact (h.fresh t hf).2.2 ht

theorem Holding.write (hf : f ∈ held) (i : Fin 512) (e : Pte) :
    Holding s₀ cs held { s with vmm := s.vmm.write f i e } :=
  h.of_mem fun _ ht => funext fun _ =>
    Radix.setEntry_of_ne _ _ fun heq => h.not_used hf ht heq.1

theorem Holding.clearTable (hf : f ∈ held) :
    Holding s₀ cs held { s with vmm := s.vmm.clearTable f } :=
  h.of_mem fun _ ht => funext fun j => Radix.fill_of_ne _ _ j (h.not_used hf ht)

/-- The translation of an address whose tables were in use before the call. -/
theorem Holding.kernelPhys {virt : ℕ}
    (ht : ∀ t ∈ s₀.vmm.walkTables s₀.vmm.gKernelPml4 virt, t / pageSize ∈ s₀.vmm.pmm.usedSet) :
    s.kernelPhys virt = s₀.kernelPhys virt := by
  rw [Nvme.kernelPhys, h.kernel_eq]
  exact Vmm.vmmVirtToPhys_congr_strip fun t hmem j => by rw [h.mem_eq t (ht t hmem)]

/-- The address of a list frame fits a list entry. -/
theorem Holding.lt (hf : f ∈ held) : f < 2 ^ 64 := by
  have hlt := (h.fresh f hf).2.1
  have htotal := h.pmm.total_lt
  rw [h.total_eq] at htotal
  rw [pageSize] at hlt
  omega

end

end Steps

/-! ## The allocation of the list frames -/

section Build

variable (s₀ : Nvme) (Buffer : ℕ → Prop) (cs : List Submission)

/-- The tables that translate the addresses of the buffer are not free. -/
def TablesInUse : Prop := ∀ virt, Buffer virt →
  ∀ t ∈ s₀.vmm.walkTables s₀.vmm.gKernelPml4 virt, t / pageSize ∈ s₀.vmm.pmm.usedSet

/-- A call that gives up holds no frame, and has a reason: an address of the buffer is not mapped,
a frame was refused or a command failed. -/
structure Failed (s : Nvme) : Prop where
  holding : Holding s₀ cs [] s
  reason : (∃ virt, Buffer virt ∧ s₀.kernelPhys virt = 0) ∨
    s₀.refused < s.refused ∨ true ∈ s₀.answers

variable {s₀ Buffer cs}

/-- The allocation loop. -/
theorem allocPrpFrames_spec (n : ℕ) (held : List ℕ) (hlen : held.length + n ≤ 130) :
    Triple (Holding s₀ cs held) (allocPrpFrames n held)
      (fun l s => l.length = held.length + n ∧ Holding s₀ cs l s) (Failed s₀ Buffer cs) := by
  induction n generalizing held with
  | zero => exact pure fun s hs => ⟨rfl, hs⟩
  | succ n ih =>
    refine bind (pmmAllocFrame_spec.fail_mono (by simp)) fun frame =>
      ite (fun hnull => ?_) fun hframe => ?_
    · -- the frames before this one are freed
      refine bind (Q := fun _ s => Failed s₀ Buffer cs s) ?_ fun _ => fail fun s h => h
      rintro s hs
      rw [if_pos hnull] at hs
      have hfree := freePrpFrames_spec (E := fun _ => False) (by omega) s hs.1
      exact ⟨hfree, .inr (.inl hs.2)⟩
    · refine (ih (held ++ [frame]) (by simp; omega)).mono (fun s hs => ?_) (fun l s h => ?_)
        fun _ h => h
      · rwa [if_neg hframe] at hs
      · exact ⟨by rw [h.1, length_append, length_singleton]; omega, h.2⟩

/-! ## The list loop -/

/-- The cursor of the list loop when `j` entries are written. -/
def cursor (links : ℕ) : (j : ℕ) → ℕ × ℕ
  | 0 => (0, 0)
  | j + 1 => ((slot 511 links j).1, (slot 511 links j).2 + 1)

/-- The state of the list loop: the first `j` of the entries `es` are written and the first `p` of
the `l` links. -/
structure Filled (s₀ : Nvme) (cs : List Submission) (frames : List ℕ) (es : ℕ → ℕ) (l j p : ℕ)
    (s : Nvme) : Prop where
  holding : Holding s₀ cs frames s
  entries : ∀ i < j, loadEntry s.vmm.mem (frames.getD (slot 511 l i).1 0) (slot 511 l i).2 = es i
  links : ∀ q < p, loadEntry s.vmm.mem (frames.getD q 0) 511 = frames.getD (q + 1) 0

theorem cursor_spec (l j : ℕ) :
    (cursor l j).1 * 511 + (cursor l j).2 = j ∧ (cursor l j).1 ≤ l ∧
      ((cursor l j).1 < l → (cursor l j).2 ≤ 511) := by
  cases j with
  | zero => simp [cursor]
  | succ j =>
    have hsum := slot_sum (k := 511) l j
    have hlt := slot_snd_lt (k := 511) (l := l) (j := j)
    simp only [cursor]
    exact ⟨by omega, slot_fst_le l j, fun h => by have := hlt h; omega⟩

section List

variable {frames : List ℕ} {es : ℕ → ℕ} {n l j : ℕ}

variable {q p virt : ℕ}

theorem getD_mem (hq : q < frames.length) : frames.getD q 0 ∈ frames := by
  rw [getD_eq_getElem _ _ hq]
  exact getElem_mem hq

theorem getD_inj (hnodup : frames.Nodup) {q' : ℕ} (hq : q < frames.length)
    (hq' : q' < frames.length) (heq : frames.getD q 0 = frames.getD q' 0) : q = q' := by
  rw [getD_eq_getElem _ _ hq, getD_eq_getElem _ _ hq'] at heq
  exact (hnodup.getElem_inj_iff).mp heq

/-- The entries before a full page's link are in the pages up to it, and in no link slot. -/
theorem slot_before {i : ℕ} (hp : p < l) (hi : i < p * 511 + 511) :
    (slot 511 l i).1 ≤ p ∧ (slot 511 l i).2 < 511 := by
  have hsum := slot_sum (k := 511) l i
  have hlt := slot_snd_lt (k := 511) (l := l) (j := i)
  omega

variable {E : Nvme → Prop}

section

variable (hlen : frames.length = l + 1)
include hlen

/-- The link of a full page. -/
theorem writeLink_spec (hp : p < l) (hfull : p * 511 + 511 = j) :
    Triple (Filled s₀ cs frames es l j p)
      (writePrpList (frames.getD p 0) 511 (frames.getD (p + 1) 0))
      (fun _ => Filled s₀ cs frames es l j (p + 1)) E := by
  refine update fun s hs => ⟨hs.holding.write (getD_mem (by omega)) _ _, fun i hi => ?_,
    fun q hq => ?_⟩
  · obtain ⟨hpage, hslot⟩ := slot_before hp (hfull ▸ hi)
    rw [← hs.entries i hi]
    exact loadEntry_write_of_ne _ _ (by decide) (by omega) fun heq => by omega
  · rcases Nat.lt_succ_iff_lt_or_eq.mp hq with hq | rfl
    · rw [← hs.links q hq]
      refine loadEntry_write_of_ne _ _ (by decide) (by decide) fun heq => ?_
      have := getD_inj hs.holding.nodup (by omega) (by omega) heq.1
      omega
    · exact loadEntry_write _ _ _ (hs.holding.lt (getD_mem (by omega)))

/-- The page after a full page is cleared. -/
theorem clearNext_spec (hp : p < l) (hfull : p * 511 + 511 = j) :
    Triple (Filled s₀ cs frames es l j (p + 1)) (clearPrpList (frames.getD (p + 1) 0))
      (fun _ => Filled s₀ cs frames es l j (p + 1)) E := by
  refine update fun s hs => ⟨hs.holding.clearTable (getD_mem (by omega)), fun i hi => ?_,
    fun q hq => ?_⟩
  · obtain ⟨hpage, -⟩ := slot_before hp (hfull ▸ hi)
    rw [← hs.entries i hi]
    refine loadEntry_clear_of_ne _ _ fun heq => ?_
    have := getD_inj hs.holding.nodup (by omega) (by omega) heq
    omega
  · rw [← hs.links q hq]
    refine loadEntry_clear_of_ne _ _ fun heq => ?_
    have := getD_inj hs.holding.nodup (by omega) (by omega) heq
    omega

/-- The start of an iteration moves the cursor to the slot of the next entry. -/
theorem nextPrpPage_spec (j : ℕ) :
    Triple (Filled s₀ cs frames es l j (cursor l j).1)
      (nextPrpPage frames (cursor l j).1 (cursor l j).2)
      (fun cur s => cur = slot 511 l j ∧ Filled s₀ cs frames es l j cur.1 s) E := by
  obtain ⟨hsum, hle, hfull⟩ := cursor_spec l j
  generalize cursor l j = c at *
  obtain ⟨p, e⟩ := c
  dsimp only at hsum
  refine ite (fun hlink => ?_) fun hstay => pure fun s hs => ⟨?_, hs⟩
  · obtain ⟨rfl, hlt⟩ := hlink
    have hp : p < l := by omega
    have hslot : slot 511 l j = (p + 1, 0) := by
      refine slot_eq ?_ hp fun _ => by decide
      rw [succ_mul, hsum]
    exact bind (writeLink_spec hlen hp hsum) fun _ =>
      bind (clearNext_spec hlen hp hsum) fun _ =>
        pure fun s hs => ⟨hslot.symm, hs⟩
  · refine (slot_eq hsum hle fun hp => ?_).symm
    omega

/-- The next entry is written to its slot. -/
theorem writePrpList_spec (hpages : pages 511 n = l + 1) (hj : j < n) (hes : es j < 2 ^ 64) :
    Triple (Filled s₀ cs frames es l j (slot 511 l j).1)
      (writePrpList (frames.getD (slot 511 l j).1 0) (slot 511 l j).2 (es j))
      (fun _ => Filled s₀ cs frames es l (j + 1) (slot 511 l j).1) E := by
  have hsnd : ∀ {i}, i < n → (slot 511 l i).2 < 512 :=
    fun hi => lt_succ_of_le (slot_snd_le (by decide) hpages hi)
  have hfst : ∀ i, (slot 511 l i).1 < frames.length := fun i => by
    have := slot_fst_le (k := 511) l i
    omega
  refine update fun s hs => ⟨hs.holding.write (getD_mem (hfst j)) _ _, fun i hi => ?_,
    fun q hq => ?_⟩
  · rcases Nat.lt_succ_iff_lt_or_eq.mp hi with hi | rfl
    · rw [← hs.entries i hi]
      refine loadEntry_write_of_ne _ _ (hsnd hj) (hsnd (hi.trans hj)) fun heq => ?_
      have hpage := getD_inj hs.holding.nodup (hfst i) (hfst j) heq.1
      have hsum := slot_sum (k := 511) l i
      have hsum' := slot_sum (k := 511) l j
      omega
    · exact loadEntry_write _ _ _ hes
  · rw [← hs.links q hq]
    refine loadEntry_write_of_ne _ _ (hsnd hj) (by decide) fun heq => ?_
    have := getD_inj hs.holding.nodup (hq.trans (hfst j)) (hfst j) heq.1
    omega

end

/-- What the driver finds at an address of the buffer. -/
theorem virtToPhys_spec {P : Nvme → Prop} {held : List ℕ} (hP : ∀ s, P s → Holding s₀ cs held s)
    (hB : TablesInUse s₀ Buffer) (hvirt : Buffer virt) :
    Triple P (virtToPhys virt) (fun phys s => phys = s₀.kernelPhys virt ∧ P s) E :=
  reads fun s hs => ⟨(hP s hs).kernelPhys (hB virt hvirt), hs⟩

/-- The list loop writes the translations of the pages from `start` on. -/
theorem fillPrpList_spec (hB : TablesInUse s₀ Buffer) (hlen : frames.length = l + 1)
    (hlen' : frames.length ≤ 130) (hpages : pages 511 n = l + 1) (hn : 0 < n) {start : ℕ}
    (hbuffer : ∀ i < n, Buffer (wrap64 (start + i * pageSize)))
    (hes : ∀ i, es i = s₀.kernelPhys (wrap64 (start + i * pageSize))) (fuel : ℕ) {j bytesLeft : ℕ}
    (hfuel : bytesLeft ≤ fuel) (hj : j + pagesNeeded bytesLeft = n)
    (hvirt : 0 < bytesLeft → virt = wrap64 (start + j * pageSize)) :
    Triple (Filled s₀ cs frames es l j (cursor l j).1)
      (fillPrpList frames fuel (cursor l j).1 (cursor l j).2 virt bytesLeft)
      (fun _ => Filled s₀ cs frames es l n l) (Failed s₀ Buffer cs) := by
  -- the loop ends when every entry is written, with the cursor in the last page
  have hdone : ∀ {j}, j = n → (cursor l j).1 = l := by
    rintro j rfl
    obtain ⟨i, rfl⟩ := Nat.exists_eq_succ_of_ne_zero (Nat.pos_iff_ne_zero.mp hn)
    exact slot_last (by decide) hpages
  induction fuel generalizing j bytesLeft virt with
  | zero =>
    obtain rfl : bytesLeft = 0 := by omega
    obtain rfl : j = n := hj
    rw [hdone rfl]
    exact pure fun s hs => hs
  | succ fuel ih =>
    refine ite (fun hzero => ?_) fun hpos => ?_
    · subst hzero
      obtain rfl : j = n := hj
      rw [hdone rfl]
      exact pure fun s hs => hs
    have hjn : j < n := by
      rw [pagesNeeded, pageSize] at hj
      omega
    rw [hvirt (by omega)]
    refine bind (nextPrpPage_spec hlen j) fun cur => bind
      (virtToPhys_spec (fun s hs => hs.2.holding) hB (hbuffer j hjn)) fun phys =>
        ite (fun hnull => ?_) fun hphys => ?_
    · refine bind (Q := fun _ s => Failed s₀ Buffer cs s) ?_ fun _ => fail fun _ h => h
      rintro s ⟨hphys, -, hs⟩
      have hfree := freePrpFrames_spec (E := fun _ => False) hlen' s hs.holding
      exact ⟨hfree, .inl ⟨_, hbuffer j hjn, hphys ▸ hnull⟩⟩
    · refine intro_pre (p := phys = es j ∧ cur = slot 511 l j)
        (fun s hs => ⟨hs.1.trans (hes j).symm, hs.2.1⟩) ?_
      rintro ⟨rfl, rfl⟩
      have hlt : es j < 2 ^ 64 := by
        rw [hes] at hphys ⊢
        exact (Vmm.vmmVirtToPhys_offset hphys).2.trans (by decide)
      refine bind ((writePrpList_spec hlen hpages hjn hlt).mono (fun s hs => hs.2.2)
        (fun _ _ h => h) fun _ h => h) fun _ => ?_
      refine ih (j := j + 1) ?_ ?_ ?_
      · rw [pageSize]
        split <;> omega
      · rw [pagesNeeded, pageSize] at *
        split <;> omega
      · intro hleft
        have hmore : bytesLeft > pageSize := by
          by_contra hlast
          rw [if_neg hlast] at hleft
          omega
        rw [if_pos hmore, wrap64, wrap64, mod_add_mod, add_assoc, succ_mul, wrap64]

end List

/-- The list of the pages that the device will read. -/
theorem numPrpPages_eq (n : ℕ) : numPrpPages n = pages 511 n := by
  unfold numPrpPages pages
  split <;> split <;> omega

/-- A list is built that reads as the translations of the pages from `start` on. -/
theorem buildPrpList_spec (hB : TablesInUse s₀ Buffer)
    {start bytesLeft : ℕ} (hpos : 0 < bytesLeft) (hbytes : bytesLeft ≤ 2 ^ 28)
    (hbuffer : ∀ i < pagesNeeded bytesLeft, Buffer (wrap64 (start + i * pageSize))) :
    Triple (Holding s₀ cs []) (buildPrpList (wrap64 start) bytesLeft)
      (fun r s => Holding s₀ cs r.2 s ∧ r.2.length ≤ 130 ∧
        read 511 (loadEntry s.vmm.mem) r.1 (pagesNeeded bytesLeft) =
          (range (pagesNeeded bytesLeft)).map
            (fun i => s₀.kernelPhys (wrap64 (start + i * pageSize))) ∧
        visited 511 (loadEntry s.vmm.mem) r.1 (pagesNeeded bytesLeft) = r.2)
      (Failed s₀ Buffer cs) := by
  set n := pagesNeeded bytesLeft with hn
  have hnpos : 0 < n := by
    rw [hn, pagesNeeded, pageSize]
    omega
  obtain ⟨l, hl⟩ := exists_eq_succ_of_ne_zero (pages_pos (k := 511) (n := n)).ne'
  have hcount : l + 1 ≤ 130 := by
    rw [← succ_eq_add_one, ← hl, pages]
    rw [hn, pagesNeeded, pageSize]
    split <;> omega
  unfold buildPrpList
  rw [numPrpPages_eq, hl]
  refine bind (allocPrpFrames_spec _ [] (by simpa using hcount)) fun frames => ?_
  refine intro_pre (p := frames.length = l + 1) (fun s hs => by simpa using hs.1) fun hlen => ?_
  have hclear : Triple (Holding s₀ cs frames) (clearPrpList (frames.getD 0 0))
      (fun _ => Filled s₀ cs frames (fun i => s₀.kernelPhys (wrap64 (start + i * pageSize))) l 0 0)
      (Failed s₀ Buffer cs) :=
    update fun s hs => ⟨hs.clearTable (getD_mem (by omega)), by simp, by simp⟩
  refine bind (hclear.mono (fun _ hs => hs.2) (fun _ _ h => h) fun _ h => h) fun _ => ?_
  refine bind (fillPrpList_spec hB hlen (hlen ▸ hcount) hl hnpos hbuffer (fun _ => rfl)
    bytesLeft le_rfl (zero_add _) fun _ => ?_) fun _ => ?_
  · rw [zero_mul, add_zero]
  · refine pure fun s hs => ⟨hs.holding, hlen ▸ hcount, ?_⟩
    have hread := read_of_slots (by decide) hl (f := fun q => frames.getD q 0) hs.entries hs.links
    refine ⟨hread.1, hread.2.trans (ext_getElem (by simp [hlen]) fun q hq hq' => ?_)⟩
    rw [getElem_map, getElem_range, getD_eq_getElem _ _ hq']

/-- With PRP1 at the translation of `virt` and PRP2 and the list frames `r`, the device finds the pages
of the chunk and visits the list frames. -/
def Describes (s₀ : Nvme) (virt bytes : ℕ) (r : ℕ × List ℕ) (mem : ℕ → Fin 512 → Pte) : Prop :=
  prpPages mem (pageCount virt bytes) (s₀.kernelPhys virt) r.1 =
      (bufferPages virt bytes).map s₀.kernelPhys ∧
    prpListPages mem (pageCount virt bytes) r.1 = r.2

/-- The second data pointer is chosen so that the device finds the pages of the chunk. -/
theorem secondPrp_spec (hB : TablesInUse s₀ Buffer) {virt bytes : ℕ} (hpos : 0 < bytes)
    (hbytes : bytes ≤ 2 ^ 28) (hbuffer : ∀ p ∈ bufferPages virt bytes, Buffer p) :
    Triple (Holding s₀ cs []) (secondPrp virt bytes)
      (fun r s => Holding s₀ cs r.2 s ∧ r.2.length ≤ 130 ∧ Describes s₀ virt bytes r s.vmm.mem)
      (Failed s₀ Buffer cs) := by
  have hoffset : virt &&& (pageSize - 1) = virt % pageSize := and_two_pow_sub_one_eq_mod virt 12
  have hnext : wrap64 (virt + (pageSize - virt % pageSize)) = wrap64 (pageFloor virt + pageSize) := by
    rw [pageFloor, pageSize]
    congr 1
    omega
  have hpage : ∀ i < pageCount virt bytes - 1,
      Buffer (wrap64 (pageFloor virt + pageSize + i * pageSize)) := fun i hi =>
    hbuffer _ (.tail _ (mem_map.mpr ⟨i, mem_range.mpr hi, rfl⟩))
  unfold secondPrp Describes prpPages prpListPages bufferPages
  dsimp only
  rw [hoffset, hnext]
  refine ite (fun hone => pure fun s hs => ?_) fun hmany => ite (fun htwo => ?_) fun hlist => ?_
  · have hcount : pageCount virt bytes = 1 := by
      rw [pageCount, pageSize] at *
      omega
    rw [hcount]
    exact ⟨hs, zero_le _, rfl, rfl⟩
  · have hcount : pageCount virt bytes = 2 := by
      rw [pageCount, pageSize] at *
      omega
    have hbuf := hpage 0 (by omega)
    rw [zero_mul, add_zero] at hbuf
    rw [hcount]
    refine bind (virtToPhys_spec (fun _ h => h) hB hbuf) fun phys => ite
      (fun hnull => fail ?_) fun _ => pure ?_
    · rintro s ⟨hphys, hs⟩
      exact ⟨hs, .inl ⟨_, hbuf, hphys ▸ hnull⟩⟩
    · rintro s ⟨rfl, hs⟩
      have hrest : (range (2 - 1)).map (fun i =>
          wrap64 (pageFloor virt + pageSize + i * pageSize)) =
            [wrap64 (pageFloor virt + pageSize)] := by simp
      rw [hrest]
      exact ⟨hs, zero_le _, rfl, rfl⟩
  · have hcount : pagesNeeded (bytes - (pageSize - virt % pageSize)) = pageCount virt bytes - 1 := by
      rw [pageCount, pagesNeeded, pageSize] at *
      omega
    have hmore : 2 < pageCount virt bytes := by
      rw [pageCount, pageSize] at *
      omega
    refine (buildPrpList_spec hB (by omega) (by omega) (by rwa [hcount])).mono (fun _ h => h) ?_
      fun _ h => h
    rintro r s ⟨hs, hlen, hread, hvisited⟩
    rw [hcount] at hread hvisited
    rw [if_neg (by omega), if_neg (by omega), if_neg (by omega), hread, hvisited, map_cons, map_map]
    exact ⟨hs, hlen, rfl, rfl⟩

/-- A submitted command is recorded with the memory at its doorbell. -/
theorem nvmeSubmitIoCmd_spec {cmd : NvmeSqe} {frames : List ℕ} {P : (ℕ → Fin 512 → Pte) → Prop}
    {E : Nvme → Prop} :
    Triple (fun s => Holding s₀ cs frames s ∧ P s.vmm.mem) (nvmeSubmitIoCmd cmd frames)
      (fun ok s => ∃ tail mem, P mem ∧ (ok = false → true ∈ s₀.answers) ∧
        Holding s₀ (⟨{ cmd with cdw0 := (cmd.cdw0 &&& 0xFFFF) ||| (tail <<< 16) }, mem, frames⟩ :: cs)
          frames s) E := by
  rintro s ⟨hs, hmem⟩
  refine ⟨s.sqTail, s.vmm.mem, hmem, fun hfailed => ?_, ?_⟩
  · refine hs.answers.subset (mem_of_mem_head? ?_)
    simpa using hfailed
  · exact { hs with
      answers := (tail_suffix _).trans hs.answers
      commands_eq := by
        rw [hs.commands_eq]
        rfl }

end Build

/-! ## The chunks -/

/-- The command reads blocks from `lba` on to the buffer pages from `virt` on. -/
structure Reads (s₀ : Nvme) (nsid blockSize lba virt : ℕ) (c : Submission) : Prop where
  opcode : c.sqe.cdw0 % 2 ^ 8 = nvmeNvmOpRead
  nsid_eq : c.sqe.nsid = nsid
  lba_eq : c.lba = lba
  blocks_le : c.blocks ≤ 0x10000
  transfer_le : s₀.maxTransferBytes ≠ 0 → c.blocks * blockSize ≤ s₀.maxTransferBytes
  data_eq : c.dataPages blockSize = (bufferPages virt (c.blocks * blockSize)).map s₀.kernelPhys
  list_eq : c.listPages blockSize = c.prpFrames
  frames_le : c.prpFrames.length ≤ 130

section Chunks

variable {s₀ : Nvme} {Buffer : ℕ → Prop} {cs : List Submission} {nsid blockSize : ℕ}

theorem readCommand_opcode (tail : ℕ) :
    ((nvmeNvmOpRead &&& 0xFFFF) ||| (tail <<< 16)) % 2 ^ 8 = nvmeNvmOpRead := by
  rw [or_mod_two_pow, shiftLeft_eq, show 2 ^ 16 = 2 ^ 8 * 2 ^ 8 from rfl, ← mul_assoc, mul_mod_left]
  rfl

variable {lba : ℕ}

/-- One iteration of the loop of `nvme_read`. -/
theorem readChunk_spec (hB : TablesInUse s₀ Buffer) {blocks virt : ℕ} (hblocks : 0 < blocks)
    (hmax : blocks ≤ 0x10000) (hsize : 0 < blockSize) (hsize' : blockSize ≤ 4096)
    (htransfer : s₀.maxTransferBytes ≠ 0 → blocks * blockSize ≤ s₀.maxTransferBytes)
    (hbuffer : ∀ p ∈ bufferPages virt (blocks * blockSize), Buffer p) :
    Triple (Holding s₀ cs []) (readChunk nsid lba blocks virt (blocks * blockSize))
      (fun _ s => ∃ c, c.blocks = blocks ∧ Reads s₀ nsid blockSize lba virt c ∧
        Holding s₀ (c :: cs) [] s)
      (fun s => Failed s₀ Buffer cs s ∨ ∃ c, c.blocks = blocks ∧
        Reads s₀ nsid blockSize lba virt c ∧ Failed s₀ Buffer (c :: cs) s) := by
  have hpos : 0 < blocks * blockSize := Nat.mul_pos hblocks hsize
  have hbytes : blocks * blockSize ≤ 0x10000 * 4096 := Nat.mul_le_mul hmax hsize'
  have hvirt := hbuffer virt (.head _)
  refine bind (virtToPhys_spec (fun _ h => h) hB hvirt) fun prp1 => ite
    (fun hnull => fail ?_) fun hprp1 => ?_
  · rintro s ⟨hphys, hs⟩
    exact .inl ⟨hs, .inl ⟨_, hvirt, hphys ▸ hnull⟩⟩
  refine intro_pre (fun s hs => hs.1) fun hphys => ?_
  refine bind ((secondPrp_spec hB hpos hbytes hbuffer).mono (fun s hs => hs.2)
    (fun _ _ h => h) fun _ h => .inl h) fun r => ?_
  obtain ⟨prp2, frames⟩ := r
  refine intro_pre (fun s hs => hs.2.1) fun hlen => ?_
  have hcount : pageCount prp1 (blocks * blockSize) = pageCount virt (blocks * blockSize) := by
    have hne : s₀.kernelPhys virt ≠ 0 := hphys ▸ hprp1
    have hoffset : s₀.kernelPhys virt % pageSize = virt % pageSize :=
      (Vmm.vmmVirtToPhys_offset hne).1
    rw [pageCount, pageCount, hphys, hoffset]
  -- the command as the device will find it
  have hreads : ∀ tail mem, Describes s₀ virt (blocks * blockSize) (prp2, frames) mem →
      let c : Submission := ⟨{ readCommand nsid lba blocks prp1 prp2 with
        cdw0 := (nvmeNvmOpRead &&& 0xFFFF) ||| (tail <<< 16) }, mem, frames⟩
      c.blocks = blocks ∧ Reads s₀ nsid blockSize lba virt c := by
    rintro tail mem ⟨hdata, hlist⟩ c
    have hc : c.blocks = blocks := Nat.sub_add_cancel hblocks
    have hn : pageCount c.sqe.dptr0 (c.blocks * blockSize) =
        pageCount virt (blocks * blockSize) := by
      rw [hc]
      exact hcount
    refine ⟨hc, readCommand_opcode tail, rfl, ?_, hc ▸ hmax, hc ▸ htransfer, ?_, ?_, hlen⟩
    · show lba >>> 32 * 2 ^ 32 + (lba &&& (2 ^ 32 - 1)) = lba
      rw [and_two_pow_sub_one_eq_mod, shiftRight_eq_div_pow, mul_comm]
      exact div_add_mod _ _
    · rw [Submission.dataPages, hn, hc, ← hdata, ← hphys]
      rfl
    · rw [Submission.listPages, hn]
      exact hlist
  refine bind (nvmeSubmitIoCmd_spec.mono (fun s hs => ⟨hs.1, hs.2.2⟩) (fun _ _ h => h)
    fun _ h => h) fun ok => ?_
  rintro s ⟨tail, mem, hmem, hok, hs⟩
  obtain ⟨hc, hread⟩ := hreads tail mem hmem
  have hfree := freePrpFrames_spec (E := fun _ => False) hlen s hs
  cases ok with
  | true => exact ⟨_, hc, hread, hfree⟩
  | false => exact .inr ⟨_, hc, hread, hfree, .inr (.inr (hok rfl))⟩

/-- The pages of a part of the buffer are at addresses of the part. -/
theorem mem_bufferPages {a bytes p : ℕ} (hpos : 0 < bytes)
    (hp : p ∈ bufferPages (wrap64 a) bytes) : ∃ j < bytes, p = wrap64 (a + j) := by
  rcases mem_cons.mp hp with rfl | hp
  · exact ⟨0, hpos, rfl⟩
  · obtain ⟨i, hi, rfl⟩ := mem_map.mp hp
    have hi := mem_range.mp hi
    refine ⟨pageSize - wrap64 a % pageSize + i * pageSize, ?_, ?_⟩
    · rw [pageCount, pageSize] at hi
      rw [pageSize]
      omega
    · rw [pageFloor, pageSize]
      unfold wrap64
      omega

/-- The commands, oldest first, read the blocks from `k` to `k'` of the request one after another. -/
def Covers (s₀ : Nvme) (nsid blockSize lba buf : ℕ) : (k : ℕ) → List Submission → (k' : ℕ) → Prop
  | k, [], k' => k = k'
  | k, c :: cs, k' => Reads s₀ nsid blockSize (lba + k) (wrap64 (buf + k * blockSize)) c ∧
      Covers s₀ nsid blockSize lba buf (k + c.blocks) cs k'

/-- The loop of `nvme_read` covers the request, or a part of it when it gives up. -/
theorem readChunks_spec (nsid : ℕ) {count buf maxChunk : ℕ} (hB : TablesInUse s₀ Buffer)
    (hbuffer : ∀ j < count * blockSize, Buffer (wrap64 (buf + j))) (hsize : 0 < blockSize)
    (hsize' : blockSize ≤ 4096) (hend : lba + count ≤ 2 ^ 64) (hmax : 0 < maxChunk)
    (hmax' : maxChunk ≤ 0x10000)
    (htransfer : s₀.maxTransferBytes ≠ 0 → maxChunk * blockSize ≤ s₀.maxTransferBytes) (fuel : ℕ)
    {k : ℕ} (hk : k ≤ count) (hfuel : count - k ≤ fuel) (cs : List Submission) :
    Triple (Holding s₀ cs [])
      (readChunks nsid blockSize maxChunk fuel (wrap64 (lba + k)) (count - k)
        (wrap64 (buf + k * blockSize)))
      (fun _ s => ∃ new, Covers s₀ nsid blockSize lba buf k new count ∧
        Holding s₀ (new.reverse ++ cs) [] s)
      (fun s => ∃ new k', k' ≤ count ∧ Covers s₀ nsid blockSize lba buf k new k' ∧
        Failed s₀ Buffer (new.reverse ++ cs) s) := by
  induction fuel generalizing k cs with
  | zero =>
    obtain rfl : k = count := by omega
    exact pure fun s hs => ⟨[], rfl, hs⟩
  | succ fuel ih =>
    refine ite (fun hdone => pure fun s hs => ?_) fun hmore => ?_
    · obtain rfl : k = count := by omega
      exact ⟨[], rfl, hs⟩
    set blocks := if count - k > maxChunk then maxChunk else count - k with hblocks
    have hle : blocks ≤ maxChunk ∧ 0 < blocks ∧ k + blocks ≤ count := by
      rw [hblocks]
      split <;> omega
    have hbytes : blocks * blockSize ≤ 0x10000 * 4096 := Nat.mul_le_mul (hle.1.trans hmax') hsize'
    have hsum : (k + blocks) * blockSize ≤ count * blockSize := mul_le_mul_right blockSize hle.2.2
    rw [add_mul] at hsum
    dsimp only
    rw [wrap32_of_lt (by omega), wrap64_of_lt (x := lba + k) (by omega)]
    refine bind (R := fun _ s => ∃ new, Covers s₀ nsid blockSize lba buf k new count ∧
      Holding s₀ (new.reverse ++ cs) [] s)
      ((readChunk_spec hB hle.2.1 (hle.1.trans hmax') hsize hsize'
        (fun h => (mul_le_mul_right _ hle.1).trans (htransfer h)) fun p hp => ?_).mono
        (fun _ h => h) (fun _ _ h => h) ?_) fun _ => ?_
    · obtain ⟨j, hj, rfl⟩ := mem_bufferPages (Nat.mul_pos hle.2.1 hsize) hp
      rw [add_assoc]
      exact hbuffer _ (by omega)
    · rintro s (hfailed | ⟨c, hc, hreads, hfailed⟩)
      · exact ⟨[], k, hk, rfl, hfailed⟩
      · exact ⟨[c], k + c.blocks, hc ▸ hle.2.2, ⟨hreads, rfl⟩, hfailed⟩
    · rintro s ⟨c, hc, hreads, hs⟩
      have hrest := ih (k := k + blocks) hle.2.2 (by omega) (c :: cs) s hs
      have hvirt : wrap64 (wrap64 (buf + k * blockSize) + blocks * blockSize) =
          wrap64 (buf + (k + blocks) * blockSize) := by
        rw [wrap64, wrap64, mod_add_mod, add_mul, ← add_assoc, wrap64]
      rw [hvirt, Nat.add_assoc, Nat.sub_sub]
      split at hrest
      · obtain ⟨new, hcovers, hhold⟩ := hrest
        exact ⟨c :: new, ⟨hreads, hc ▸ hcovers⟩, by simpa using hhold⟩
      · obtain ⟨new, k', hk', hcovers, hfailed⟩ := hrest
        exact ⟨c :: new, k', hk', ⟨hreads, hc ▸ hcovers⟩, by simpa using hfailed⟩

/-- `max_chunk_blocks` is positive and respects the limits. -/
theorem maxChunkBlocks_spec {maxTransferBytes : ℕ} (hsize : 0 < blockSize)
    (hsize' : blockSize ≤ 4096) (hmax : maxTransferBytes = 0 ∨ 4096 ≤ maxTransferBytes) :
    0 < maxChunkBlocks maxTransferBytes blockSize ∧
      maxChunkBlocks maxTransferBytes blockSize ≤ 0x10000 ∧
      (maxTransferBytes ≠ 0 →
        maxChunkBlocks maxTransferBytes blockSize * blockSize ≤ maxTransferBytes) := by
  have hdiv : maxTransferBytes / blockSize * blockSize ≤ maxTransferBytes := div_mul_le_self _ _
  unfold maxChunkBlocks
  dsimp only
  split
  · exact ⟨by omega, by omega, fun _ => hdiv⟩
  · refine ⟨by omega, le_rfl, fun hne => ?_⟩
    -- the quotient is positive, so it is at least `0x10000`
    have hpos : 0 < maxTransferBytes / blockSize := div_pos (by omega) hsize
    exact (mul_le_mul_right blockSize (by omega)).trans hdiv

/-- The array `prp_frames` of each chunk had at most 130 frames, and every frame of it was allocated
once and freed once. -/
structure Released (s s' : Nvme) : Prop where
  logs : ∃ lists, s'.released = lists ++ s.released ∧ (∀ l ∈ lists, l.length ≤ 130 ∧ l.Nodup) ∧
    s'.vmm.allocated.Perm (lists.flatten ++ s.vmm.allocated) ∧
    s'.vmm.freed.Perm (lists.flatten ++ s.vmm.freed)
  used_iff : ∀ g, g ≠ 0 → (g ∈ s'.vmm.pmm.usedSet ↔ g ∈ s.vmm.pmm.usedSet)

theorem Holding.released {s : Nvme} (h : Holding s₀ cs [] s) : Released s₀ s :=
  ⟨h.logs, fun g hg => by simpa using h.used_iff g hg⟩

end Chunks

/-- Every run of `nvme_read` issues commands that read consecutive blocks from `lba` on, each within
the limits and described to the device as exactly its part of the buffer; it releases its list
frames; when it returns `0` the commands cover the request; and it returns `0` when the buffer is
mapped, no command fails and no frame is refused. -/
theorem nvmeRead_covers {s : Nvme} {ns : NvmeNamespace} {nsid lba count buf : ℕ}
    (hpmm : s.vmm.pmm.Inv) (hns : s.namespaces.find? (fun ns => ns.nsid = nsid) = some ns)
    (hsize : 512 ≤ ns.blockSize) (hsize' : ns.blockSize ≤ 4096)
    (hmax : s.maxTransferBytes = 0 ∨ 4096 ≤ s.maxTransferBytes)
    (hcount : 1 ≤ count) (hend : lba + count ≤ 2 ^ 64) (hbuf : buf < 2 ^ 64)
    (htables : ∀ j < count * ns.blockSize,
      ∀ t ∈ s.vmm.walkTables s.vmm.gKernelPml4 (wrap64 (buf + j)),
        t / pageSize ∈ s.vmm.pmm.usedSet) :
    ∃ cs k, (nvmeRead nsid lba count buf s).2.commands = cs.reverse ++ s.commands ∧
      Covers s nsid ns.blockSize lba buf 0 cs k ∧ k ≤ count ∧
      Released s (nvmeRead nsid lba count buf s).2 ∧
      ((nvmeRead nsid lba count buf s).1 = some () → k = count) ∧
      (buf ≠ 0 → (∀ j < count * ns.blockSize, s.kernelPhys (wrap64 (buf + j)) ≠ 0) →
        true ∉ s.answers → (nvmeRead nsid lba count buf s).2.refused = s.refused →
        (nvmeRead nsid lba count buf s).1 = some ()) := by
  by_cases hnull : buf = 0 ∨ count = 0
  · have hrun : nvmeRead nsid lba count buf s = (none, s) := if_pos hnull
    rw [hrun]
    exact ⟨[], 0, rfl, rfl, zero_le _, (Holding.refl hpmm).released, by simp, fun hbuf => by omega⟩
  obtain ⟨hpos, hle, htransfer⟩ := maxChunkBlocks_spec (by omega) hsize' hmax
  have hrun : nvmeRead nsid lba count buf s = readChunks nsid ns.blockSize
      (maxChunkBlocks s.maxTransferBytes ns.blockSize) count lba count buf s := by
    unfold nvmeRead
    rw [if_neg hnull, hns]
    exact if_neg (by omega)
  have hB : TablesInUse s fun virt => ∃ j < count * ns.blockSize, virt = wrap64 (buf + j) := by
    rintro virt ⟨j, hj, rfl⟩
    exact htables j hj
  have hspec := readChunks_spec nsid hB (fun j hj => ⟨j, hj, rfl⟩) (by omega) hsize' hend hpos hle
    htransfer count (zero_le count) (sub_le _ _) [] s (Holding.refl hpmm)
  rw [add_zero, wrap64_of_lt (by omega), zero_mul, add_zero, wrap64_of_lt hbuf,
    Nat.sub_zero, ← hrun] at hspec
  split at hspec
  · rename_i heq
    obtain ⟨cs, hcovers, hs⟩ := hspec
    rw [heq]
    exact ⟨cs, count, by simpa using hs.commands_eq, hcovers, le_rfl, hs.released, fun _ => rfl,
      fun _ _ _ _ => rfl⟩
  · rename_i heq
    obtain ⟨cs, k, hk, hcovers, hs⟩ := hspec
    rw [heq]
    refine ⟨cs, k, by simpa using hs.holding.commands_eq, hcovers, hk, hs.holding.released, by simp,
      fun _ hmapped hanswers hrefused => ?_⟩
    rcases hs.reason with ⟨virt, ⟨j, hj, rfl⟩, hzero⟩ | hlt | hmem
    · exact absurd hzero (hmapped j hj)
    · exact absurd hrefused hlt.ne'
    · exact absurd hmem hanswers

/-- A machine whose kernel tables map every address into one large page at 1 GiB. -/
def sampleNvme : Nvme where
  vmm := { Vmm.smallVmm with
    denials := []
    mem := fun t _ => if t = 0x3000 then 0x4003#64 else if t = 0x4000 then 0x40000083#64 else 0#64 }
  maxTransferBytes := 12288
  namespaces := [⟨1, 100, 512, fun _ _ => 0, by decide⟩]
  queueSize := 64
  sqTail := 0
  answers := []
  commands := []
  released := []
  refused := 0

/-- 25 blocks to an unaligned buffer take two commands, the first one with a PRP list. -/
theorem nvmeRead_covers_unaligned :
    (Nvme.nvmeRead 1 7 25 0xFFFF800000010123 sampleNvme).1 = some () ∧
      (Nvme.nvmeRead 1 7 25 0xFFFF800000010123 sampleNvme).2.commands.map
        (fun c => (c.blocks, c.prpFrames.length)) = [(1, 0), (24, 1)] ∧
      ∃ cs, (Nvme.nvmeRead 1 7 25 0xFFFF800000010123 sampleNvme).2.commands = cs.reverse ∧
        Nvme.Covers sampleNvme 1 512 7 0xFFFF800000010123 0 cs 25 := by
  have hused : 0x3000 / pageSize ∈ sampleNvme.vmm.pmm.usedSet ∧
      0x4000 / pageSize ∈ sampleNvme.vmm.pmm.usedSet := by decide +kernel
  have hroot : ∀ i, sampleNvme.vmm.mem sampleNvme.vmm.gKernelPml4 i = 0x4003#64 := fun _ => rfl
  have hpdpt : ∀ i, sampleNvme.vmm.mem (Pte.addr 0x4003#64) i = 0x40000083#64 := fun _ => rfl
  have htables : ∀ virt, ∀ t ∈ sampleNvme.vmm.walkTables sampleNvme.vmm.gKernelPml4 virt,
      t / pageSize ∈ sampleNvme.vmm.pmm.usedSet := by
    intro virt t ht
    simp only [Vmm.walkTables, hroot, hpdpt] at ht
    rcases mem_cons.mp ht with rfl | ht
    · exact hused.1
    · obtain rfl := mem_singleton.mp ht
      exact hused.2
  have hmapped : ∀ virt, sampleNvme.kernelPhys virt ≠ 0 := by
    intro virt hzero
    simp only [kernelPhys, Vmm.vmmVirtToPhys, hroot, hpdpt] at hzero
    exact nomatch (or_eq_zero_iff.mp hzero).1
  obtain ⟨cs, k, hcommands, hcovers, -, -, hfull, hreturns⟩ :=
    @nvmeRead_covers sampleNvme _ 1 7 25 0xFFFF800000010123
      (Pmm.pmmInit_inv _ _).1 rfl le_rfl (by decide) (.inr (by decide)) (by decide) (by decide)
      (by decide) fun j _ => htables _
  have hsome := hreturns (by decide) (fun j _ => hmapped _) (by decide) (by decide +kernel)
  obtain rfl := hfull hsome
  exact ⟨hsome, by decide +kernel, cs, hcommands.trans (append_nil _), hcovers⟩

end Nvme

end NovaOS.Drivers
