import NovaOS.Mem.VmmDestroy

/-!
# Several address spaces in one memory

`Shared m R` says that the address spaces at the roots `R` share the memory `m` without interfering: no
table belongs to two of them, a frame that is mapped is no table and is mapped once, and all are in
use. Every routine of `vmm.c` on one root keeps this and leaves the pages of the other roots alone.
-/

namespace NovaOS.Mem

open NovaOS.Lib List Function

namespace Vmm

/-- A frame in use that is no table of the spaces at `R`. -/
structure Data (m : Vmm) (R : List ℕ) (a : ℕ) : Prop where
  addr : FrameAddr a
  used : a / pageSize ∈ m.pmm.usedSet
  not_table : ∀ r ∈ R, ¬m.IsTable r a

/-- A frame in use that the spaces at `R` neither have as a table nor map. -/
structure Spare (m : Vmm) (R : List ℕ) (a : ℕ) : Prop where
  data : m.Data R a
  unmapped : ∀ r ∈ R, ¬m.MapsTo r a

/-- The address spaces at `R` share the memory. -/
structure Shared (m : Vmm) (R : List ℕ) : Prop where
  pmm : m.pmm.Inv
  total_le : m.pmm.gTotalFrames ≤ 2 ^ 40
  space : ∀ r ∈ R, m.Space r
  disjoint : ∀ r ∈ R, ∀ r' ∈ R, ∀ a, m.IsTable r a → m.IsTable r' a → r = r'
  data : ∀ r ∈ R, ∀ {n e}, n < userPages → m.mapped r n = some e → m.Data R e.addr
  inj : ∀ r ∈ R, ∀ r' ∈ R, ∀ {n n' e e'}, n < userPages → n' < userPages →
    m.mapped r n = some e → m.mapped r' n' = some e' → e.addr = e'.addr → r = r' ∧ n = n'
  kernel : m.Spare R m.gKernelPml4

theorem Shared.nil {m : Vmm} (hpmm : m.pmm.Inv) (htotal : m.pmm.gTotalFrames ≤ 2 ^ 40)
    (haddr : FrameAddr m.gKernelPml4) (hused : m.gKernelPml4 / pageSize ∈ m.pmm.usedSet) :
    m.Shared [] where
  pmm := hpmm
  total_le := htotal
  space := by simp
  disjoint := by simp
  data := by simp
  inj := by simp
  kernel := ⟨⟨haddr, hused, by simp⟩, by simp⟩

/-! ## Memories that agree on the tables of a space -/

section Agree

variable {m m' : Vmm} {r : ℕ}

variable {q : List (Fin 512)}

section

variable (h : ∀ a, m.IsTable r a → m'.mem a = m.mem a)
include h

theorem mapped_of_agree {n : ℕ} (hn : n < userPages) : m'.mapped r n = m.mapped r n :=
  leaf_congr (entry_of_agree h (userPath_pagePath hn) _)

theorem mapsTo_of_agree (a : ℕ) : m'.MapsTo r a ↔ m.MapsTo r a := by
  constructor <;> rintro ⟨n, e, hn, he, heq⟩
  · exact ⟨n, e, hn, (mapped_of_agree h hn).symm.trans he, heq⟩
  · exact ⟨n, e, hn, (mapped_of_agree h hn).trans he, heq⟩

end

end Agree

/-! ## Frames handed out and given back -/

/-- The times that `a` was handed out, less the times it was given back, less one while it is in use.
It falls when a frame is given back that is not in use. -/
def ledger (m : Vmm) (a : ℕ) : ℤ :=
  m.allocated.count a - m.freed.count a - if a / pageSize ∈ m.pmm.usedSet then 1 else 0

/-- A step gives no frame back that is not in use, as long as frame zero is not handed out. -/
structure Balanced (m m' : Vmm) : Prop where
  zero_mono : 0 ∈ m.pmm.usedSet → 0 ∈ m'.pmm.usedSet
  ledger_eq : 0 ∈ m.pmm.usedSet → ∀ a, FrameAddr a → m'.ledger a = m.ledger a

section Balanced

variable {m m' : Vmm}

theorem Balanced.refl (m : Vmm) : m.Balanced m := ⟨id, fun _ _ _ => rfl⟩

theorem Balanced.trans {m'' : Vmm} (h : m.Balanced m') (h' : m'.Balanced m'') : m.Balanced m'' :=
  ⟨fun hz => h'.zero_mono (h.zero_mono hz), fun hz a ha =>
    (h'.ledger_eq (h.zero_mono hz) a ha).trans (h.ledger_eq hz a ha)⟩

variable {l : List ℕ}

/-- Handing out frames that were free. -/
theorem Balanced.of_alloc (hzero : 0 ∈ m.pmm.usedSet → 0 ∈ m'.pmm.usedSet)
    (halloc : m'.allocated = l ++ m.allocated) (hfreed : m'.freed = m.freed) (hl : l.Nodup)
    (hused : ∀ a, FrameAddr a →
      (a / pageSize ∈ m'.pmm.usedSet ↔ a / pageSize ∈ m.pmm.usedSet ∨ a ∈ l))
    (hfresh : ∀ a ∈ l, a / pageSize ∉ m.pmm.usedSet) : m.Balanced m' := by
  refine ⟨hzero, fun _ a ha => ?_⟩
  rw [ledger, ledger, halloc, hfreed, count_append, if_congr (hused a ha) rfl rfl]
  by_cases hmem : a ∈ l
  · rw [count_eq_one_of_mem hl hmem, if_pos (.inr hmem), if_neg (hfresh a hmem)]
    omega
  · rw [count_eq_zero_of_not_mem hmem, zero_add, if_congr (or_iff_left hmem) rfl rfl]

/-- Giving back frames that were in use. -/
theorem Balanced.of_free (hzero : 0 ∈ m.pmm.usedSet → 0 ∈ m'.pmm.usedSet)
    (halloc : m'.allocated = m.allocated) (hfreed : m'.freed = l ++ m.freed) (hl : l.Nodup)
    (hused : ∀ a, FrameAddr a →
      (a / pageSize ∈ m'.pmm.usedSet ↔ a / pageSize ∈ m.pmm.usedSet ∧ a ∉ l))
    (hlive : ∀ a ∈ l, a / pageSize ∈ m.pmm.usedSet) : m.Balanced m' := by
  refine ⟨hzero, fun _ a ha => ?_⟩
  rw [ledger, ledger, halloc, hfreed, count_append, if_congr (hused a ha) rfl rfl]
  by_cases hmem : a ∈ l
  · rw [count_eq_one_of_mem hl hmem, if_neg fun h => h.2 hmem, if_pos (hlive a hmem)]
    omega
  · rw [count_eq_zero_of_not_mem hmem, zero_add, if_congr (and_iff_left hmem) rfl rfl]

theorem AllocFrame.balanced {r : ℕ × Vmm} (hr : m.AllocFrame r)
    (htotal : m.pmm.gTotalFrames ≤ 2 ^ 40) : m.Balanced r.2 := by
  rcases hr.result with ⟨-, halloc, hsame⟩ | ⟨hne, halign, hlt, hnot, hused, halloc⟩
  · refine .of_alloc (l := []) (fun hz => hr.used_mono hz) halloc hr.freed_eq nodup_nil
      (fun a ha => ?_) (by simp)
    rw [hsame _ ha.div_ne_zero]
    simp
  · have haddr := FrameAddr.of_total htotal halign hne hlt
    refine .of_alloc (l := [r.1]) (fun hz => hr.used_mono hz) halloc hr.freed_eq
      (nodup_singleton _) (fun a ha => ?_) (by simpa using hnot)
    rw [hused, Finset.mem_insert, mem_singleton, or_comm, ha.div_eq_iff haddr]

/-- A frame that is in use is given back. -/
theorem balanced_pmmFreeFrame {a : ℕ} (ha : FrameAddr a) (hinv : m.pmm.Inv)
    (hused : a / pageSize ∈ m.pmm.usedSet) : m.Balanced (m.pmmFreeFrame a) := by
  refine .of_free (ha.zero_mem_pmmFreeFrame hinv) rfl rfl (nodup_singleton a) (fun b hb => ?_)
    (by simpa using hused)
  rw [mem_singleton, and_comm]
  exact hb.mem_pmmFreeFrame ha hinv

/-- Where no frame is handed out, those in use are the same. -/
theorem AllocFrame.used_of_null {r : ℕ × Vmm} (hr : m.AllocFrame r) (hzero : 0 ∈ m.pmm.usedSet)
    (hnull : r.1 = 0) : r.2.pmm.usedSet = m.pmm.usedSet := by
  obtain ⟨-, -, hsame⟩ | ⟨hne, -⟩ := hr.result
  · ext g
    by_cases hg : g = 0
    · rw [hg]
      exact iff_of_true (hr.used_mono hzero) hzero
    · exact hsame g hg
  · exact absurd hnull hne

/-- The routines on one space hand out and give back tables only. -/
theorem Evolves.balanced {root : ℕ} (hev : m.Evolves m' root) (h : m.Space root) :
    m.Balanced m' := by
  classical
  refine ⟨hev.zero_mono, fun _ a ha => ?_⟩
  have howed := hev.owed_eq a
  have hothers := hev.others_eq a ha
  have hsplit : ∀ {n : Vmm}, n.Space root → n.ledger a =
      n.owed root a - if a / pageSize ∈ n.pmm.usedSet ∧ ¬n.IsTable root a then 1 else 0 := by
    intro n hn
    by_cases htable : n.IsTable root a
    · obtain ⟨p, hp, ht⟩ := htable
      rw [ledger, owed, if_pos (hn.used hp ht).2, if_pos ⟨p, hp, ht⟩, if_neg fun h => h.2 ⟨p, hp, ht⟩,
        sub_zero]
    · rw [ledger, owed, if_neg htable, sub_zero, if_congr (and_iff_left htable) rfl rfl]
  rw [hsplit h, hsplit hev.space, howed, if_congr hothers rfl rfl]

end Balanced

/-! ## Steps on one of the spaces -/

/-- A step on the space at `root` after which its pages are `f`. -/
structure Moves (m m' : Vmm) (R : List ℕ) (root : ℕ) (f : ℕ → Option Pte) : Prop where
  shared : m'.Shared R
  mapped_eq : ∀ {n}, n < userPages → m'.mapped root n = f n
  others_eq : ∀ r ∈ R, r ≠ root → ∀ {n}, n < userPages → m'.mapped r n = m.mapped r n
  kernel_eq : m'.gKernelPml4 = m.gKernelPml4
  total_eq : m'.pmm.gTotalFrames = m.pmm.gTotalFrames
  balanced : m.Balanced m'

section Steps

variable {m m' : Vmm} {R : List ℕ} {root : ℕ}

theorem Shared.moves_self (h : m.Shared R) : m.Moves m R root (m.mapped root) :=
  ⟨h, fun _ => rfl, fun _ _ _ _ _ => rfl, rfl, rfl, .refl m⟩

variable {m'' : Vmm} {f g : ℕ → Option Pte}

theorem Moves.trans (h : m.Moves m' R root f) (h' : m'.Moves m'' R root g) : m.Moves m'' R root g :=
  ⟨h'.shared, h'.mapped_eq, fun r hr hne _ hn =>
      (h'.others_eq r hr hne hn).trans (h.others_eq r hr hne hn),
    h'.kernel_eq.trans h.kernel_eq, h'.total_eq.trans h.total_eq, h.balanced.trans h'.balanced⟩

theorem Moves.congr (h : m.Moves m' R root f) (hfg : ∀ n, n < userPages → f n = g n) :
    m.Moves m' R root g :=
  ⟨h.shared, fun hn => (h.mapped_eq hn).trans (hfg _ hn), h.others_eq, h.kernel_eq, h.total_eq,
    h.balanced⟩

/-- A step after which the pages are left alone. -/
theorem Moves.trans_self (h : m.Moves m' R root f) (h' : m'.Moves m'' R root (m'.mapped root)) :
    m.Moves m'' R root f :=
  (h.trans h').congr fun _ hn => h.mapped_eq hn

variable {r a : ℕ}

/-- A table of one of the spaces is a frame in use and no table of another. -/
theorem Shared.table_frame (h : m.Shared R) (hr : r ∈ R) (ha : m.IsTable r a) :
    FrameAddr a ∧ a / pageSize ∈ m.pmm.usedSet ∧ ∀ r' ∈ R, r ≠ r' → ¬m.IsTable r' a := by
  have ⟨_, hp, ht⟩ := ha
  have hframe := (h.space r hr).used hp ht
  exact ⟨hframe.1, hframe.2, fun r' hr' hne hta => hne (h.disjoint r hr r' hr' a ha hta)⟩

/-- The tables of the other spaces are not written by a step on the space at `root`. -/
theorem Shared.agree (h : m.Shared R) (hroot : root ∈ R) (hev : m.Evolves m' root)
    (hr : r ∈ R) (hne : r ≠ root) : ∀ a, m.IsTable r a → m'.mem a = m.mem a := by
  intro a ha
  obtain ⟨haddr, hused, hnot⟩ := h.table_frame hr ha
  exact hev.mem_eq a haddr hused (hnot root hroot hne)

theorem Shared.data_evolves (h : m.Shared R) (hroot : root ∈ R) (hev : m.Evolves m' root)
    (ha : m.Data R a) : m'.Data R a := by
  obtain ⟨hused, hnot⟩ := (hev.others_eq a ha.addr).mpr ⟨ha.used, ha.not_table root hroot⟩
  refine ⟨ha.addr, hused, fun r hr hta => ?_⟩
  by_cases hne : r = root
  · exact hnot (hne ▸ hta)
  · exact ha.not_table r hr ((isTable_of_agree (h.agree hroot hev hr hne) a).mp hta)

/-- A step on the space at `root` that maps, at most, spare frames at `n₀`. -/
theorem Shared.evolves (h : m.Shared R) (hroot : root ∈ R) (hev : m.Evolves m' root) (n0 : ℕ)
    (hmap : ∀ {n e}, n < userPages → m'.mapped root n = some e →
      m.mapped root n = some e ∨ (n = n0 ∧ m.Spare R e.addr ∧ e.addr ≠ m.gKernelPml4)) :
    m.Moves m' R root (m'.mapped root) := by
  have hagree := fun {r} hr hne => h.agree hroot hev (r := r) hr hne
  have hdata := fun {a} ha => h.data_evolves hroot hev (a := a) ha
  have hothers : ∀ r ∈ R, r ≠ root → ∀ {n}, n < userPages → m'.mapped r n = m.mapped r n :=
    fun r hr hne n hn => mapped_of_agree (hagree hr hne) hn
  -- a table of another space is in use and no table of this one, before and after
  have hkept : ∀ r ∈ R, r ≠ root → ∀ {a}, m.IsTable r a →
      a / pageSize ∈ m'.pmm.usedSet ∧ ¬m'.IsTable root a := by
    intro r hr hne a ha
    obtain ⟨haddr, hused, hnot⟩ := h.table_frame hr ha
    exact (hev.others_eq a haddr).mpr ⟨hused, hnot root hroot hne⟩
  -- where a mapped page comes from
  have hold : ∀ r ∈ R, ∀ {n e}, n < userPages → m'.mapped r n = some e →
      m.mapped r n = some e ∨ (r = root ∧ n = n0 ∧ m.Spare R e.addr ∧ e.addr ≠ m.gKernelPml4) := by
    intro r hr n e hn he
    by_cases hne : r = root
    · subst hne
      exact (hmap hn he).imp_right fun hnew => ⟨rfl, hnew⟩
    · exact .inl ((hothers r hr hne hn).symm.trans he)
  refine ⟨⟨hev.space.pmm, hev.space.total_le, fun r hr => ?_, fun r hr r' hr' a hta hta' => ?_,
    fun r hr n e hn he => ?_, fun r hr r' hr' n n' e e' hn hn' he he' heq => ?_, ?_⟩,
    fun _ => rfl, hothers, hev.kernel_eq, hev.total_eq, hev.balanced (h.space root hroot)⟩
  · by_cases hne : r = root
    · exact hne ▸ hev.space
    · exact (h.space r hr).of_agree (hagree hr hne) hev.space.pmm hev.total_eq
        fun a ha => (hkept r hr hne ha).1
  · have htable := fun {r} hr hne => (isTable_of_agree (hagree (r := r) hr hne) a).mp
    by_cases hne : r = root <;> by_cases hne' : r' = root
    · rw [hne, hne']
    · exact absurd (hne ▸ hta) (hkept r' hr' hne' (htable hr' hne' hta')).2
    · exact absurd (hne' ▸ hta') (hkept r hr hne (htable hr hne hta)).2
    · exact h.disjoint r hr r' hr' a (htable hr hne hta) (htable hr' hne' hta')
  · rcases hold r hr hn he with he | ⟨-, -, hs, -⟩
    · exact hdata (h.data r hr hn he)
    · exact hdata hs.data
  · rcases hold r hr hn he with h1 | ⟨hr1, hn1, hs, -⟩ <;>
      rcases hold r' hr' hn' he' with h2 | ⟨hr2, hn2, hs', -⟩
    · exact h.inj r hr r' hr' hn hn' h1 h2 heq
    · exact absurd ⟨n, e, hn, h1, heq⟩ (hs'.unmapped r hr)
    · exact absurd ⟨n', e', hn', h2, heq.symm⟩ (hs.unmapped r' hr')
    · exact ⟨hr1.trans hr2.symm, hn1.trans hn2.symm⟩
  · rw [hev.kernel_eq]
    refine ⟨hdata h.kernel.data, ?_⟩
    rintro r hr ⟨n, e, hn, he, heq⟩
    rcases hold r hr hn he with he | ⟨-, -, -, hne⟩
    · exact h.kernel.unmapped r hr ⟨n, e, hn, he, heq⟩
    · exact hne heq

/-- A spare frame stays spare unless the step maps it. -/
theorem Shared.spare_evolves (h : m.Shared R) (hroot : root ∈ R) (hev : m.Evolves m' root)
    (ha : m.Spare R a) (hnot : ¬m'.MapsTo root a) : m'.Spare R a := by
  refine ⟨h.data_evolves hroot hev ha.data, fun r hr hmaps => ?_⟩
  by_cases hne : r = root
  · exact hnot (hne ▸ hmaps)
  · exact ha.unmapped r hr ((mapsTo_of_agree (h.agree hroot hev hr hne) a).mp hmaps)

/-- A change of the allocator alone, under which the frames of the spaces stay in use. -/
theorem Shared.of_pmm (h : m.Shared R) (hmem : m'.mem = m.mem)
    (hkernel : m'.gKernelPml4 = m.gKernelPml4) (hinv : m'.pmm.Inv)
    (htotal : m'.pmm.gTotalFrames = m.pmm.gTotalFrames) (hbalanced : m.Balanced m')
    (hused : ∀ a, FrameAddr a → a / pageSize ∈ m.pmm.usedSet →
      (∃ r ∈ R, m.IsTable r a ∨ m.MapsTo r a) ∨ a = m.gKernelPml4 →
        a / pageSize ∈ m'.pmm.usedSet) : m.Moves m' R root (m.mapped root) := by
  have hagree : ∀ {r a}, m.IsTable r a → m'.mem a = m.mem a := fun _ => by rw [hmem]
  have hmapped : ∀ r {n}, n < userPages → m'.mapped r n = m.mapped r n :=
    fun r n hn => mapped_of_agree (fun _ => hagree) hn
  have htable : ∀ r a, m'.IsTable r a ↔ m.IsTable r a :=
    fun r a => isTable_of_agree (fun _ => hagree) a
  have hdata : ∀ {a}, m.Data R a → a / pageSize ∈ m'.pmm.usedSet → m'.Data R a :=
    fun ha hu => ⟨ha.addr, hu, fun r hr hta => ha.not_table r hr ((htable r _).mp hta)⟩
  refine ⟨⟨hinv, htotal ▸ h.total_le, fun r hr => ?_, fun r hr r' hr' a hta hta' => ?_,
    fun r hr n e hn he => ?_, fun r hr r' hr' n n' e e' hn hn' he he' heq => ?_, ?_⟩,
    hmapped root, fun r _ _ _ => hmapped r, hkernel, htotal, hbalanced⟩
  · refine (h.space r hr).of_agree (fun _ => hagree) hinv htotal fun a ha => ?_
    obtain ⟨haddr, hu, -⟩ := h.table_frame hr ha
    exact hused a haddr hu (.inl ⟨r, hr, .inl ha⟩)
  · exact h.disjoint r hr r' hr' a ((htable r a).mp hta) ((htable r' a).mp hta')
  · rw [hmapped r hn] at he
    have hd := h.data r hr hn he
    exact hdata hd (hused _ hd.addr hd.used (.inl ⟨r, hr, .inr ⟨n, e, hn, he, rfl⟩⟩))
  · exact h.inj r hr r' hr' hn hn' ((hmapped r hn).symm.trans he)
      ((hmapped r' hn').symm.trans he') heq
  · rw [hkernel]
    have hk := h.kernel.data
    refine ⟨hdata hk (hused _ hk.addr hk.used (.inr rfl)), fun r hr hmaps => ?_⟩
    exact h.kernel.unmapped r hr ((mapsTo_of_agree (fun _ => hagree) _).mp hmaps)

/-- A frame that stays in use under a change of the allocator. -/
theorem Data.of_pmm (ha : m.Data R a) (hmem : m'.mem = m.mem)
    (hused : a / pageSize ∈ m'.pmm.usedSet) : m'.Data R a :=
  ⟨ha.addr, hused, fun r hr hta =>
    ha.not_table r hr ((isTable_of_agree (fun _ _ => by rw [hmem]) a).mp hta)⟩

theorem Spare.of_pmm (ha : m.Spare R a) (hmem : m'.mem = m.mem)
    (hused : a / pageSize ∈ m'.pmm.usedSet) : m'.Spare R a :=
  ⟨ha.data.of_pmm hmem hused, fun r hr hmaps =>
    ha.unmapped r hr ((mapsTo_of_agree (fun _ _ => by rw [hmem]) a).mp hmaps)⟩

/-- A frame that was free and is in use now is spare. -/
theorem Shared.spare_of_fresh (h : m.Shared R) (hmem : m'.mem = m.mem)
    (hkernel : m'.gKernelPml4 = m.gKernelPml4) (haddr : FrameAddr a)
    (hfree : a / pageSize ∉ m.pmm.usedSet) (hused : a / pageSize ∈ m'.pmm.usedSet) :
    m'.Spare R a ∧ a ≠ m'.gKernelPml4 := by
  refine ⟨⟨⟨haddr, hused, fun r hr hta => ?_⟩, fun r hr hmaps => ?_⟩, fun heq => ?_⟩
  · have ha := (isTable_of_agree (m := m) (fun _ _ => by rw [hmem]) a).mp hta
    exact hfree (h.table_frame hr ha).2.1
  · obtain ⟨n, e, hn, he, heq⟩ := (mapsTo_of_agree (m := m) (fun _ _ => by rw [hmem]) a).mp hmaps
    exact hfree (heq ▸ (h.data r hr hn he).used)
  · exact hfree (heq ▸ hkernel ▸ h.kernel.data.used)

/-- The frames that a step on the space at `root` leaves in use: all but those that pages in `P` map. -/
def Keeps (m m' : Vmm) (R : List ℕ) (root : ℕ) (P : ℕ → Prop) : Prop :=
  ∀ a, m.Data R a → (∀ n e, n < userPages → P n → m.mapped root n = some e → e.addr ≠ a) → m'.Data R a

theorem Keeps.refl (P : ℕ → Prop) : m.Keeps m R root P := fun _ ha _ => ha

variable {P : ℕ → Prop}

theorem Keeps.mono {Q : ℕ → Prop} (h : m.Keeps m' R root P) (hPQ : ∀ n, P n → Q n) :
    m.Keeps m' R root Q :=
  fun a ha hout => h a ha fun n e hn hP => hout n e hn (hPQ n hP)

/-- Two steps, the first of which maps no new page. -/
theorem Keeps.trans (h : m.Keeps m' R root P) (h' : m'.Keeps m'' R root P)
    (hold : ∀ n e, n < userPages → m'.mapped root n = some e → m.mapped root n = some e) :
    m.Keeps m'' R root P :=
  fun a ha hout => h' a (h a ha hout) fun n e hn hP he => hout n e hn hP (hold n e hn he)

/-- Fewer spaces. -/
theorem Shared.mono {R' : List ℕ} (h : m.Shared R) (hsub : ∀ r ∈ R', r ∈ R) : m.Shared R' where
  pmm := h.pmm
  total_le := h.total_le
  space := fun r hr => h.space r (hsub r hr)
  disjoint := fun r hr r' hr' => h.disjoint r (hsub r hr) r' (hsub r' hr')
  data := fun r hr _ _ hn he => by
    have hd := h.data r (hsub r hr) hn he
    exact ⟨hd.addr, hd.used, fun r' hr' => hd.not_table r' (hsub r' hr')⟩
  inj := fun r hr r' hr' => h.inj r (hsub r hr) r' (hsub r' hr')
  kernel := ⟨⟨h.kernel.data.addr, h.kernel.data.used,
    fun r hr => h.kernel.data.not_table r (hsub r hr)⟩, fun r hr => h.kernel.unmapped r (hsub r hr)⟩

end Steps

/-! ## The routines -/

section Routines

variable {m : Vmm} {R : List ℕ} {root : ℕ}

/-- `pmm_alloc_frame` fails or hands out a spare frame. -/
theorem Shared.pmmAllocFrame (root : ℕ) (h : m.Shared R) :
    m.Moves m.pmmAllocFrame.2 R root (m.mapped root) ∧
      (m.pmmAllocFrame.1 ≠ 0 → m.pmmAllocFrame.2.Spare R m.pmmAllocFrame.1 ∧
        m.pmmAllocFrame.1 ≠ m.pmmAllocFrame.2.gKernelPml4) ∧
      ∀ a, m.Spare R a → m.pmmAllocFrame.2.Spare R a := by
  have hr := pmmAllocFrame_spec h.pmm
  refine ⟨h.of_pmm hr.mem_eq hr.kernel_eq hr.inv hr.total_eq (hr.balanced h.total_le)
    fun a _ hu _ => hr.used_mono hu, fun hne => ?_, fun a ha => ha.of_pmm hr.mem_eq (hr.used_mono ha.data.used)⟩
  obtain ⟨haddr, hnot, -, hused, -⟩ := hr.frameAddr h.total_le hne
  refine h.spare_of_fresh hr.mem_eq hr.kernel_eq haddr hnot ?_
  rw [hused]
  exact Finset.mem_insert_self _ _

variable {a virt phys : ℕ}

/-- A spare frame can be given back. -/
theorem Shared.pmmFreeFrame (root : ℕ) (h : m.Shared R) (ha : m.Spare R a)
    (hk : a ≠ m.gKernelPml4) : m.Moves (m.pmmFreeFrame a) R root (m.mapped root) := by
  have hpost := ha.data.addr.pmmFreeFrame h.pmm
  refine h.of_pmm rfl rfl hpost.inv hpost.total_eq (balanced_pmmFreeFrame ha.data.addr h.pmm ha.data.used)
    fun b hb hu hown => ?_
  refine (hb.mem_pmmFreeFrame ha.data.addr h.pmm).mpr ⟨fun heq => ?_, hu⟩
  obtain rfl := heq
  rcases hown with ⟨r, hr, hta | hmaps⟩ | heq
  · exact ha.data.not_table r hr hta
  · exact ha.unmapped r hr hmaps
  · exact hk heq

theorem Data.pmmFreeFrame {b : ℕ} (hb : m.Data R b) (hinv : m.pmm.Inv) (ha : FrameAddr a)
    (hne : a ≠ b) : (m.pmmFreeFrame a).Data R b :=
  hb.of_pmm rfl ((hb.addr.mem_pmmFreeFrame ha hinv).mpr ⟨hne.symm, hb.used⟩)

theorem Shared.data_vmmMapPage (h : m.Shared R) (hroot : root ∈ R) (flags : Pte)
    (hv : virt < userSpaceMax) (hphys : FrameAddr phys) (ha : m.Data R a) :
    (m.vmmMapPage root virt phys flags).2.Data R a := by
  rcases (h.space root hroot).vmmMapPage hv hphys flags with ⟨-, hset⟩ | ⟨-, hgrows⟩
  · exact h.data_evolves hroot hset.evolves ha
  · exact h.data_evolves hroot hgrows.evolves ha

section

variable (h : m.Shared R) (hroot : root ∈ R) (hv : virt < userSpaceMax)
include h hroot hv

theorem Shared.data_vmmUnmapPage (ha : m.Data R a) : (m.vmmUnmapPage root virt).2.Data R a :=
  h.data_evolves hroot ((h.space root hroot).vmmUnmapPage hv).2.evolves ha

/-- `vmmMapPage` of a spare frame maps it, or fails and leaves it spare; other spare frames stay
spare. -/
theorem Shared.vmmMapPage {flags : Pte} (hflags : flags.FlagsOnly) (hphys : m.Spare R phys)
    (hk : phys ≠ m.gKernelPml4) :
    (((m.vmmMapPage root virt phys flags).1 = 0 ∧
        m.Moves (m.vmmMapPage root virt phys flags).2 R root
          (update (m.mapped root) (virt / pageSize) (some (Pte.leaf phys flags)))) ∨
      ((m.vmmMapPage root virt phys flags).1 = -1 ∧
        m.Moves (m.vmmMapPage root virt phys flags).2 R root (m.mapped root) ∧
        (m.vmmMapPage root virt phys flags).2.Spare R phys)) ∧
      ∀ a, a ≠ phys → m.Spare R a → (m.vmmMapPage root virt phys flags).2.Spare R a := by
  have haddr := Pte.addr_leaf hphys.data.addr hflags
  rcases (h.space root hroot).vmmMapPage hv hphys.data.addr flags with ⟨hres, hset⟩ | ⟨hres, hgrows⟩
  · have hmoves := h.evolves hroot hset.evolves (virt / pageSize) fun {n e} hn he => by
      rcases hset.cases hn he with ⟨hpage, he⟩ | ⟨-, he⟩
      · obtain rfl := Option.some.inj he
        exact .inr ⟨hpage, haddr.symm ▸ hphys, haddr.symm ▸ hk⟩
      · exact .inl he
    refine ⟨.inl ⟨hres, hmoves.congr fun n hn => ?_⟩, fun a hne ha => ?_⟩
    · rw [hset.mapped_eq hn, update_apply]
    · refine h.spare_evolves hroot hset.evolves ha ?_
      rintro ⟨n, e, hn, he, heq⟩
      rcases hset.cases hn he with ⟨-, hnew⟩ | ⟨-, he⟩
      · obtain rfl := Option.some.inj hnew
        exact hne (heq.symm.trans haddr)
      · exact ha.unmapped root hroot ⟨n, e, hn, he, heq⟩
  · have hmoves := h.evolves hroot hgrows.evolves 0 fun hn he =>
      .inl ((hgrows.mapped_eq hn).symm.trans he)
    have hspare : ∀ a, m.Spare R a → (m.vmmMapPage root virt phys flags).2.Spare R a := by
      intro a ha
      refine h.spare_evolves hroot hgrows.evolves ha ?_
      rintro ⟨n, e, hn, he, heq⟩
      exact ha.unmapped root hroot ⟨n, e, hn, (hgrows.mapped_eq hn).symm.trans he, heq⟩
    exact ⟨.inr ⟨hres, hmoves.congr fun n hn => hgrows.mapped_eq hn, hspare phys hphys⟩,
      fun a _ ha => hspare a ha⟩

/-- `vmmUnmapPage` clears one page; the frame it mapped becomes spare. -/
theorem Shared.vmmUnmapPage :
    m.Moves (m.vmmUnmapPage root virt).2 R root
        (update (m.mapped root) (virt / pageSize) none) ∧
      ∀ e, m.mapped root (virt / pageSize) = some e →
        (m.vmmUnmapPage root virt).2.Spare R e.addr := by
  obtain ⟨-, hset⟩ := (h.space root hroot).vmmUnmapPage hv
  have hold := fun {n e} (hn : n < userPages) (he : _ = some e) =>
    (hset.cases hn he).resolve_left fun hc => nomatch hc.2
  have hmoves := h.evolves hroot hset.evolves 0 fun hn he => .inl (hold hn he).2
  refine ⟨hmoves.congr fun n hn => ?_, fun e he => ?_⟩
  · rw [hset.mapped_eq hn, update_apply]
  · have hpage := page_lt_userPages hv
    refine ⟨h.data_evolves hroot hset.evolves (h.data root hroot hpage he), fun r hr hmaps => ?_⟩
    obtain ⟨n, e', hn, he', heq⟩ := hmaps
    by_cases hne : r = root
    · subst hne
      obtain ⟨hnp, he'⟩ := hold hn he'
      exact hnp (h.inj r hr r hr hn hpage he' he heq).2
    · rw [hmoves.others_eq r hr hne hn] at he'
      exact hne (h.inj r hr root hroot hn hpage he' he heq).1

end

/-- `vmmCreateAddressSpace` adds an empty space. -/
theorem Shared.vmmCreateAddressSpace (h : m.Shared R) (hne : m.vmmCreateAddressSpace.1 ≠ 0) :
    m.vmmCreateAddressSpace.2.Shared (m.vmmCreateAddressSpace.1 :: R) ∧
      ∀ n, n < userPages → m.vmmCreateAddressSpace.2.mapped m.vmmCreateAddressSpace.1 n = none := by
  have hc := vmmCreateAddressSpace_spec h.pmm h.total_le hne
  generalize m.vmmCreateAddressSpace = c at hc
  obtain ⟨root, m'⟩ := c
  -- the new root was free, so it is no table, leaf or kernel root
  have hused : ∀ {a}, a / pageSize ∈ m.pmm.usedSet → a / pageSize ∈ m'.pmm.usedSet := by
    intro a ha
    rw [hc.used_eq]
    exact Finset.mem_insert_of_mem ha
  have hfresh : ∀ r ∈ R, ¬m.IsTable r root := fun r hr ha => hc.fresh (h.table_frame hr ha).2.1
  have hagree : ∀ {r}, r ∈ R → ∀ a, m.IsTable r a → m'.mem a = m.mem a := fun hr a ha =>
    hc.mem_eq a fun (heq : a = root) => hfresh _ hr (heq ▸ ha)
  have hdata : ∀ {a}, m.Data R a → m'.Data (root :: R) a := by
    intro a ha
    refine ⟨ha.addr, hused ha.used, fun r hr hta => ?_⟩
    rcases mem_cons.mp hr with rfl | hr
    · obtain rfl := (hc.isTable_iff a).mp hta
      exact hc.fresh ha.used
    · exact ha.not_table r hr ((isTable_of_agree (hagree hr) a).mp hta)
  have hpages : ∀ r ∈ root :: R, ∀ {n e}, n < userPages → m'.mapped r n = some e →
      r ∈ R ∧ m.mapped r n = some e := by
    intro r hr n e hn he
    rcases mem_cons.mp hr with rfl | hr
    · have hnone := hc.mapped_eq hn
      rw [he] at hnone
      cases hnone
    · exact ⟨hr, (mapped_of_agree (hagree hr) hn).symm.trans he⟩
  have htables : ∀ r ∈ root :: R, ∀ a, m'.IsTable r a →
      (r = root ∧ a = root) ∨ (r ∈ R ∧ m.IsTable r a) := by
    intro r hr a hta
    rcases mem_cons.mp hr with rfl | hr
    · exact .inl ⟨rfl, (hc.isTable_iff a).mp hta⟩
    · exact .inr ⟨hr, (isTable_of_agree (hagree hr) a).mp hta⟩
  refine ⟨⟨hc.space.pmm, hc.space.total_le, fun r hr => ?_, fun r hr r' hr' a hta hta' => ?_,
    fun r hr n e hn he => ?_, fun r hr r' hr' n n' e e' hn hn' he he' heq => ?_, ?_⟩,
    fun n hn => hc.mapped_eq hn⟩
  · rcases mem_cons.mp hr with rfl | hr
    · exact hc.space
    · exact (h.space r hr).of_agree (hagree hr) hc.space.pmm hc.total_eq
        fun a ha => hused (h.table_frame hr ha).2.1
  · rcases htables r hr a hta with ⟨rfl, rfl⟩ | ⟨hr, hta⟩ <;>
      rcases htables r' hr' _ hta' with ⟨h1, h2⟩ | ⟨hr', hta'⟩
    · exact h1.symm
    · exact absurd hta' (hfresh r' hr')
    · exact absurd (h2 ▸ hta) (hfresh r hr)
    · exact h.disjoint r hr r' hr' a hta hta'
  · obtain ⟨hr, he⟩ := hpages r hr hn he
    exact hdata (h.data r hr hn he)
  · obtain ⟨hr, he⟩ := hpages r hr hn he
    obtain ⟨hr', he'⟩ := hpages r' hr' hn' he'
    exact h.inj r hr r' hr' hn hn' he he' heq
  · rw [hc.kernel_eq]
    refine ⟨hdata h.kernel.data, ?_⟩
    rintro r hr ⟨n, e, hn, he, heq⟩
    obtain ⟨hr, he⟩ := hpages r hr hn he
    exact h.kernel.unmapped r hr ⟨n, e, hn, he, heq⟩

theorem Shared.single (h : m.Shared R) (hroot : root ∈ R) : m.Single root where
  not_leaf := by
    rintro a ⟨n, e, hn, he, rfl⟩
    exact (h.data root hroot hn he).not_table root hroot
  inj := fun hn hn' he he' heq => (h.inj root hroot root hroot hn hn' he he' heq).2

theorem Shared.root_ne_zero (h : m.Shared R) (hroot : root ∈ R) : root ≠ 0 :=
  ((h.space root hroot).used userPath_nil rfl).1.ne_zero

theorem Shared.ne_kernel (h : m.Shared R) (hroot : root ∈ R) : root ≠ m.gKernelPml4 := by
  rintro rfl
  exact h.kernel.data.not_table _ hroot ⟨[], userPath_nil, rfl⟩

/-- `vmmDestroyAddressSpace` removes a space and leaves the others. -/
theorem Shared.vmmDestroyAddressSpace (h : m.Shared (root :: R)) (hnot : root ∉ R) :
    m.Moves (m.vmmDestroyAddressSpace root) R root (m.mapped root) ∧
      (∀ a, FrameAddr a → (a / pageSize ∈ (m.vmmDestroyAddressSpace root).pmm.usedSet ↔
        a / pageSize ∈ m.pmm.usedSet ∧ ¬m.IsTable root a ∧ ¬m.MapsTo root a)) ∧
      ∀ a, m.IsTable root a ∨ m.MapsTo root a →
        (m.vmmDestroyAddressSpace root).freed.count a = m.freed.count a + 1 := by
  have hmem : root ∈ root :: R := (.head _)
  have hspace := h.space root hmem
  obtain ⟨hnodup, hframes⟩ := hspace.userFrames (h.single hmem)
  have hlive : ∀ a ∈ userFrames m.mem root, FrameAddr a ∧ a / pageSize ∈ m.pmm.usedSet := by
    intro a ha
    rcases (hframes a).mp ha with ⟨p, hp, ht⟩ | ⟨n, e, hn, he, rfl⟩
    · exact hspace.used hp ht
    · exact ⟨(h.data root hmem hn he).addr, (h.data root hmem hn he).used⟩
  have haddr := fun a ha => (hlive a ha).1
  rw [vmmDestroyAddressSpace_eq (h.root_ne_zero hmem) (h.ne_kernel hmem)]
  obtain ⟨hinv, hused⟩ := freeAll_used h.pmm fun a ha => (haddr a ha).valid
  have hsub : m.Shared R := h.mono fun r hr => .tail _ hr
  have hgone : ∀ a, FrameAddr a → (a / pageSize ∈ (freeAll (userFrames m.mem root) m).pmm.usedSet ↔
      a / pageSize ∈ m.pmm.usedSet ∧ a ∉ (userFrames m.mem root).reverse) := by
    intro a ha
    rw [hused, mem_reverse]
    exact and_congr_right fun _ => ⟨fun hall hmem => hall a hmem rfl, fun hnot b hb heq =>
      hnot (ha.eq_of_div_eq (haddr b hb) heq ▸ hb)⟩
  have hbalanced : m.Balanced (freeAll (userFrames m.mem root) m) := by
    refine .of_free (fun hz => ?_) (freeAll_allocated _ m) (freeAll_freed _ m)
      (nodup_reverse.mpr hnodup) hgone fun a ha => (hlive a (mem_reverse.mp ha)).2
    exact (hused 0).mpr ⟨hz, fun a ha heq => (haddr a ha).div_ne_zero heq.symm⟩
  refine ⟨hsub.of_pmm (freeAll_mem _ m) (freeAll_kernel _ m) hinv
    (freeAll_total h.pmm fun a ha => (haddr a ha).valid) hbalanced fun a ha hu hown => ?_, ?_, ?_⟩
  · -- what the other spaces own is neither a table nor a leaf of this one
    refine (hused _).mpr ⟨hu, fun b hb heq => ?_⟩
    obtain rfl := ha.eq_of_div_eq (haddr b hb) heq
    rcases (hframes a).mp hb with htable | ⟨n, e, hn, he, hea⟩
    · rcases hown with ⟨r, hr, hta | ⟨n, e, hn, he, rfl⟩⟩ | rfl
      · exact hnot (h.disjoint r (.tail _ hr) root hmem a hta htable ▸ hr)
      · exact (h.data r (.tail _ hr) hn he).not_table root hmem htable
      · exact h.kernel.data.not_table root hmem htable
    · rcases hown with ⟨r, hr, hta | ⟨n', e', hn', he', hea'⟩⟩ | rfl
      · exact (h.data root hmem hn he).not_table r (.tail _ hr) (hea ▸ hta)
      · have hsame := h.inj r (.tail _ hr) root hmem hn' hn he' he (hea'.trans hea.symm)
        exact hnot (hsame.1 ▸ hr)
      · exact h.kernel.unmapped root hmem ⟨n, e, hn, he, hea⟩
  · intro a ha
    rw [hgone a ha, mem_reverse, hframes, not_or]
  · intro a ha
    rw [freeAll_freed, count_append, count_reverse,
      count_eq_one_of_mem hnodup ((hframes a).mpr ha), add_comm]

end Routines

end Vmm

/-! ## A small machine -/

namespace SpaceClient

/-- The small machine with one address space, at `0x101000`. -/
def smallSpace : Vmm := smallMachine.vmmCreateAddressSpace.2

theorem smallSpace_shared :
    smallSpace.Shared [0x101000] ∧ ∀ n, n < userPages → smallSpace.mapped 0x101000 n = none := by
  obtain ⟨hpmm, htotal, -, hkernel, hroot⟩ := smallMachine_ready
  have hnil := Vmm.Shared.nil hpmm htotal ⟨by decide, by decide, by decide⟩ hkernel
  obtain ⟨hshared, hnone⟩ := hnil.vmmCreateAddressSpace (by rw [hroot]; decide)
  rw [hroot] at hshared hnone
  exact ⟨hshared, hnone⟩

end SpaceClient

end NovaOS.Mem
