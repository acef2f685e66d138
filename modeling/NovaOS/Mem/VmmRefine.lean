import NovaOS.Mem.PmmRun
import NovaOS.Mem.VmmSpec

/-!
# Address spaces refine page maps

The purpose of `vmm.c` is a partial map from user pages to frames with flags. Every run of its four
routines on a new address space, with `pmm_alloc_frame` failing wherever it likes, does to the tables
what the same calls do to such a map: only the pages that were mapped or unmapped successfully
change, translation and permissions read back as the map says, and the tables stay a tree.
-/

namespace NovaOS.Mem

open NovaOS.Lib List Option

/-! ## Page maps -/

/-- What a page grants. -/
structure Perms where
  writable : Bool
  user : Bool
  noExecute : Bool
deriving DecidableEq, Repr

/-- The permissions in the bits of a word. -/
def Pte.perms (e : Pte) : Perms :=
  ⟨e.has vmmFlagWritable, e.has vmmFlagUser, e.has vmmFlagNoExecute⟩

/-- A map from page numbers to a frame and the flags it was mapped with. -/
abbrev PageMap := ℕ → Option (ℕ × Pte)

/-- The calls on an address space. -/
inductive VmmOp where
  | mapPage (virt phys : ℕ) (flags : Pte)
  | unmapPage (virt : ℕ)
  | mapRange (virtStart physStart size : ℕ) (flags : Pte)
  | unmapRange (virtStart size : ℕ)

namespace PageMap

/-- Map `k` pages from `first` to consecutive frames. -/
def setRange (A : PageMap) (first phys : ℕ) (flags : Pte) (k : ℕ) : PageMap :=
  fun n => if first ≤ n ∧ n < first + k then some (phys + (n - first) * pageSize, flags) else A n

/-- Remove `k` pages from `first`. -/
def clearRange (A : PageMap) (first k : ℕ) : PageMap :=
  fun n => if first ≤ n ∧ n < first + k then none else A n

/-- The physical address of a user address, `0` when its page is not mapped. -/
def translate (A : PageMap) (virt : ℕ) : ℕ :=
  match A (virt / pageSize) with
  | none => 0
  | some (phys, _) => phys + virt % pageSize

/-- What a call with a given result does to the map. A failed range leaves the pages before the one
that failed mapped. -/
inductive Step : PageMap → VmmOp → ℤ → PageMap → Prop where
  | mapPage (A : PageMap) (virt phys : ℕ) (flags : Pte) :
      Step A (.mapPage virt phys flags) 0 (A.setRange (virt / pageSize) phys flags 1)
  | mapPageFailed (A : PageMap) (virt phys : ℕ) (flags : Pte) :
      Step A (.mapPage virt phys flags) (-1) A
  | unmapPage (A : PageMap) (virt : ℕ) :
      Step A (.unmapPage virt) 0 (A.clearRange (virt / pageSize) 1)
  | mapRange (A : PageMap) (virtStart physStart size : ℕ) (flags : Pte) :
      Step A (.mapRange virtStart physStart size flags) 0
        (A.setRange (virtStart / pageSize) physStart flags (pageCount size))
  | mapRangeFailed (A : PageMap) (virtStart physStart size : ℕ) (flags : Pte) {k : ℕ}
      (hk : k < pageCount size) :
      Step A (.mapRange virtStart physStart size flags) (-1)
        (A.setRange (virtStart / pageSize) physStart flags k)
  | unmapRange (A : PageMap) (virtStart size : ℕ) :
      Step A (.unmapRange virtStart size) 0 (A.clearRange (virtStart / pageSize) (pageCount size))

/-- A sequence of calls with their results. -/
inductive Run : PageMap → List VmmOp → List ℤ → PageMap → Prop where
  | nil (A : PageMap) : Run A [] [] A
  | cons {A A' A'' : PageMap} {op : VmmOp} {r : ℤ} {ops : List VmmOp} {rs : List ℤ}
      (hstep : Step A op r A') (hrun : Run A' ops rs A'') : Run A (op :: ops) (r :: rs) A''

end PageMap

namespace Vmm

variable {m : Vmm} {root : ℕ}

/-! ## Permissions -/

/-- The permissions the four levels grant together: `W` and `U` of every level, `NX` of any. -/
def effectivePerms (m : Vmm) (root virt : ℕ) : Option Perms :=
  let e₄ := m.mem root (pml4Idx virt)
  let e₃ := m.mem e₄.addr (pdptIdx virt)
  let e₂ := m.mem e₃.addr (pdIdx virt)
  let e₁ := m.mem e₂.addr (ptIdx virt)
  if e₄.has vmmFlagPresent && e₃.has vmmFlagPresent && e₂.has vmmFlagPresent &&
      e₁.has vmmFlagPresent then
    some
      { writable := e₄.has vmmFlagWritable && e₃.has vmmFlagWritable && e₂.has vmmFlagWritable &&
          e₁.has vmmFlagWritable
        user := e₄.has vmmFlagUser && e₃.has vmmFlagUser && e₂.has vmmFlagUser && e₁.has vmmFlagUser
        noExecute := e₄.has vmmFlagNoExecute || e₃.has vmmFlagNoExecute ||
          e₂.has vmmFlagNoExecute || e₁.has vmmFlagNoExecute }
  else none

/-- The directories grant whatever the leaf does. -/
theorem Space.effectivePerms (h : m.Space root) {virt : ℕ} (hv : virt < userSpaceMax) :
    m.effectivePerms root virt = (m.mapped root (virt / pageSize)).map Pte.perms := by
  have hn := page_lt_userPages hv
  obtain ⟨hidx4, hidx3, hidx2, hidx1⟩ := idx_page virt
  unfold Vmm.effectivePerms Pte.perms
  simp only [hidx4, hidx3, hidx2, hidx1, Pte.has_present, Pte.has_writable, Pte.has_user,
    Pte.has_noExecute]
  cases h.walkEnds hn with
  | pml4 h4 hm => simp only [h4, hm, Bool.false_and, Bool.false_eq_true, if_false, map_none]
  | pdpt e4 he4 h4 h3 hm =>
    simp only [he4, h3, hm, Bool.and_false, Bool.false_and, Bool.false_eq_true, if_false,
      map_none]
  | pd e4 e3 he4 h4 he3 h3 d3 h2 hm =>
    simp only [he4, he3, h2, hm, Bool.and_false, Bool.false_and, Bool.false_eq_true, if_false,
      map_none]
  | pt e4 e3 e2 he4 h4 d4 he3 h3 d3 he2 h2 d2 chain =>
    have hm := chain.mapped_eq
    simp only [he4, he3, he2, h4, h3, h2, d4.writable, d3.writable, d2.writable, d4.noExecute,
      d3.noExecute, d2.noExecute, Bool.true_and, Bool.false_or]
    rw [hm]
    cases hpres : (m.mem e2.addr (pageIdx (virt / pageSize))).getLsbD 0 with
    | false => rfl
    | true =>
      simp only [if_true, map_some, some.injEq, Perms.mk.injEq, and_true, true_and]
      cases hu : (m.mem e2.addr (pageIdx (virt / pageSize))).getLsbD 2 with
      | false => exact Bool.and_false _
      | true =>
        rw [hpres] at hm
        have huser : ∀ {q j e}, (q ++ [j]) <+: pagePath (virt / pageSize) →
            m.entry root q j = some e → e.getLsbD 2 = true :=
          h.user (userPath_pagePath hn) rfl hm hu
        have hu4 : e4.getLsbD 2 = true := huser (q := []) ⟨_, rfl⟩ (he4 ▸ entry_of_table rfl _)
        have hu3 : e3.getLsbD 2 = true :=
          huser (q := [tableIndex (virt / pageSize) 27]) ⟨_, rfl⟩
            (he3 ▸ entry_of_table chain.pdpt _)
        have hu2 : e2.getLsbD 2 = true :=
          huser (q := [tableIndex (virt / pageSize) 27, tableIndex (virt / pageSize) 18])
            ⟨_, rfl⟩ (he2 ▸ entry_of_table chain.pd _)
        rw [hu4, hu3, hu2]
        rfl

/-! ## Runs -/

/-- One call. -/
def exec (m : Vmm) (root : ℕ) : VmmOp → ℤ × Vmm
  | .mapPage virt phys flags => m.vmmMapPage root virt phys flags
  | .unmapPage virt => m.vmmUnmapPage root virt
  | .mapRange virtStart physStart size flags => m.vmmMapRange root virtStart physStart size flags
  | .unmapRange virtStart size => m.vmmUnmapRange root virtStart size

/-- A sequence of calls, with their results. -/
def run (m : Vmm) (root : ℕ) : List VmmOp → List ℤ × Vmm
  | [] => ([], m)
  | op :: ops =>
    let r := m.exec root op
    let rest := r.2.run root ops
    (r.1 :: rest.1, rest.2)

/-- The frames handed out between two states. -/
def newFrames (m m' : Vmm) : List ℕ := m'.allocated.take (m'.allocated.length - m.allocated.length)

/-- A page of the space is mapped to `a`. -/
def MapsTo (m : Vmm) (root a : ℕ) : Prop :=
  ∃ n e, n < userPages ∧ m.mapped root n = some e ∧ e.addr = a

end Vmm

namespace VmmOp

/-- The frames a call maps. -/
def frames : VmmOp → List ℕ
  | .mapPage _ phys _ => [phys]
  | .mapRange _ physStart size _ =>
    (range (pageCount size)).map fun k => physStart + k * pageSize
  | .unmapPage _ => []
  | .unmapRange _ _ => []

/-- The addresses of a call are user addresses and its flags lie outside the address field. -/
def InScope : VmmOp → Prop
  | .mapPage virt _ flags => virt < userSpaceMax ∧ flags.FlagsOnly
  | .unmapPage virt => virt < userSpaceMax
  | .mapRange virtStart _ size flags => virtStart + size ≤ userSpaceMax ∧ flags.FlagsOnly
  | .unmapRange virtStart size => virtStart + size ≤ userSpaceMax

instance : (op : VmmOp) → Decidable op.InScope
  | .mapPage virt _ flags =>
    inferInstanceAs (Decidable (virt < userSpaceMax ∧ flags.FlagsOnly))
  | .unmapPage virt => inferInstanceAs (Decidable (virt < userSpaceMax))
  | .mapRange virtStart _ size flags =>
    inferInstanceAs (Decidable (virtStart + size ≤ userSpaceMax ∧ flags.FlagsOnly))
  | .unmapRange virtStart size =>
    inferInstanceAs (Decidable (virtStart + size ≤ userSpaceMax))

end VmmOp

namespace Vmm

variable {m : Vmm} {root : ℕ}

/-- The calls in scope. The frames mapped are not page-table frames: none is a table when the call
is made, and none that is mapped is handed out for a table during the call. -/
structure Allowed (m : Vmm) (root : ℕ) (op : VmmOp) : Prop where
  inScope : op.InScope
  frameAddr : ∀ a ∈ op.frames, FrameAddr a
  not_table : ∀ a ∈ op.frames, ¬m.IsTable root a
  not_taken : ∀ a ∈ m.newFrames (m.exec root op).2, a ∉ op.frames ∧ ¬m.MapsTo root a

/-- Every call of the sequence is in scope when it is made. -/
def AllowedRun (m : Vmm) (root : ℕ) : List VmmOp → Prop
  | [] => True
  | op :: ops => m.Allowed root op ∧ (m.exec root op).2.AllowedRun root ops

variable {m' : Vmm}

theorem newFrames_eq {new : List ℕ} (h : m'.allocated = new ++ m.allocated) :
    m.newFrames m' = new := by
  rw [newFrames, h, length_append, Nat.add_sub_cancel, take_left]

/-- The simulation: the tables hold the page map, no leaf is a table, and the logs owe exactly the
tables. -/
structure Refines (m : Vmm) (root : ℕ) (A : PageMap) : Prop where
  space : m.Space root
  mapped_eq : ∀ {n}, n < userPages → m.mapped root n = (A n).map fun x => Pte.leaf x.1 x.2
  valid : ∀ {n x}, n < userPages → A n = some x → FrameAddr x.1 ∧ x.2.FlagsOnly
  not_leaf : ∀ a, m.MapsTo root a → ¬m.IsTable root a
  owed_eq : ∀ a, m.owed root a = 0

variable {a first phys : ℕ}

/-- After a step, a table that was not one before is a frame handed out on the way. -/
theorem Evolves.isTable_cases (h : m.Evolves m' root) (ha : m'.IsTable root a) :
    m.IsTable root a ∨ a ∈ m.newFrames m' := by
  obtain ⟨new, hlog, htable, -⟩ := h.grown
  rw [newFrames_eq hlog]
  exact htable a ha

variable {A : PageMap}

variable {k virt : ℕ} {flags : Pte}

section Change

variable {B : PageMap} {frames : List ℕ} (h : m.Refines root A) (haddr : ∀ a ∈ frames, FrameAddr a)
  (htable : ∀ a ∈ frames, ¬m.IsTable root a)
  (htaken : ∀ a ∈ m.newFrames m', a ∉ frames ∧ ¬m.MapsTo root a)
include h haddr htable htaken

/-- A call after which the pages have the mapping they had, none, or one to the frames given to it. -/
theorem Refines.change (hev : m.Evolves m' root)
    (hmapped : ∀ {n}, n < userPages → m'.mapped root n = (B n).map fun x => Pte.leaf x.1 x.2)
    (hnew : ∀ {n x}, B n = some x → A n = some x ∨ x.1 ∈ frames ∧ x.2.FlagsOnly) :
    m'.Refines root B := by
  have hvalid : ∀ {n x}, n < userPages → B n = some x → FrameAddr x.1 ∧ x.2.FlagsOnly :=
    fun hn hx => (hnew hx).elim (h.valid hn) fun hx => ⟨haddr _ hx.1, hx.2⟩
  refine ⟨hev.space, hmapped, hvalid, ?_, fun a => (hev.owed_eq a).trans (h.owed_eq a)⟩
  rintro a ⟨n, e, hn, he, rfl⟩ hta
  rw [hmapped hn] at he
  obtain ⟨x, hx, rfl⟩ := map_eq_some_iff.mp he
  rcases hnew hx with hold | ⟨hmem, -⟩
  · have hmaps : m.MapsTo root (Pte.leaf x.1 x.2).addr :=
      ⟨n, _, hn, by rw [h.mapped_eq hn, hold]; rfl, rfl⟩
    rcases hev.isTable_cases hta with hta | hta
    · exact h.not_leaf _ hmaps hta
    · exact (htaken _ hta).2 hmaps
  · rw [Pte.addr_leaf (hvalid hn hx).1 (hvalid hn hx).2] at hta
    rcases hev.isTable_cases hta with hta | hta
    · exact htable _ hmem hta
    · exact (htaken _ hta).1 hmem

/-- Mapping pages in the tables and in the map. -/
theorem Refines.setRange (hset : m.SetsRange m' root first phys flags k) (hf : flags.FlagsOnly)
    (hframes : ∀ j, j < k → phys + j * pageSize ∈ frames) :
    m'.Refines root (A.setRange first phys flags k) := by
  refine h.change haddr htable htaken hset.evolves (fun hn => ?_) fun hx => ?_
  · rw [hset.mapped_eq hn, PageMap.setRange]
    split
    · rfl
    · exact h.mapped_eq hn
  · rw [PageMap.setRange] at hx
    split at hx
    · obtain rfl := some.inj hx
      exact .inr ⟨hframes _ (by omega), hf⟩
    · exact .inl hx

/-- Unmapping pages in the tables and in the map. -/
theorem Refines.clearRange (hclear : m.ClearsRange m' root first k) :
    m'.Refines root (A.clearRange first k) := by
  refine h.change haddr htable htaken hclear.evolves (fun hn => ?_) fun hx => ?_
  · rw [hclear.mapped_eq hn, PageMap.clearRange]
    split
    · rfl
    · exact h.mapped_eq hn
  · rw [PageMap.clearRange] at hx
    split at hx
    · cases hx
    · exact .inl hx

end Change

/-- A page is a range of one. -/
theorem SetsPage.setsRange (h : m.SetsPage m' root first (some (Pte.leaf phys flags))) :
    m.SetsRange m' root first phys flags 1 :=
  SetsRange.cons h ((Grows.refl h.evolves.space).setsRange _ _ _)

theorem SetsPage.clearsRange (h : m.SetsPage m' root first none) :
    m.ClearsRange m' root first 1 := by
  refine ClearsRange.cons h ⟨h.evolves.space.evolves_self, fun {n} _ => ?_⟩
  rw [if_neg (by omega)]

variable {op : VmmOp}

/-- One call simulates one step of the page map. -/
theorem Refines.exec (h : m.Refines root A) (hop : m.Allowed root op) :
    ∃ A', PageMap.Step A op (m.exec root op).1 A' ∧ (m.exec root op).2.Refines root A' := by
  obtain ⟨hscope, haddr, htable, htaken⟩ := hop
  cases op with
  | mapPage virt phys flags =>
    obtain ⟨hv, hf⟩ := hscope
    have hphys : FrameAddr phys := haddr phys (mem_singleton.mpr rfl)
    rcases h.space.vmmMapPage hv hphys flags with ⟨hres, hset⟩ | ⟨hres, hgrows⟩
    · refine ⟨_, ?_, h.setRange haddr htable htaken hset.setsRange hf fun j hj => ?_⟩
      · show PageMap.Step A _ (m.vmmMapPage root virt phys flags).1 _
        rw [hres]
        exact .mapPage A virt phys flags
      · obtain rfl : j = 0 := by omega
        simp [VmmOp.frames]
    · refine ⟨A, ?_, h.change haddr htable htaken hgrows.evolves (fun hn => ?_) .inl⟩
      · show PageMap.Step A _ (m.vmmMapPage root virt phys flags).1 _
        rw [hres]
        exact .mapPageFailed A virt phys flags
      · exact (hgrows.mapped_eq hn).trans (h.mapped_eq hn)
  | unmapPage virt =>
    obtain ⟨hres, hset⟩ := h.space.vmmUnmapPage hscope
    refine ⟨_, ?_, h.clearRange haddr htable htaken hset.clearsRange⟩
    show PageMap.Step A _ (m.vmmUnmapPage root virt).1 _
    rw [hres]
    exact .unmapPage A virt
  | mapRange virtStart physStart size flags =>
    obtain ⟨hv, hf⟩ := hscope
    have hmem : ∀ j, j < pageCount size →
        physStart + j * pageSize ∈ VmmOp.frames (.mapRange virtStart physStart size flags) :=
      fun j hj => mem_map.mpr ⟨j, mem_range.mpr hj, rfl⟩
    obtain ⟨k, hk, hset⟩ := h.space.vmmMapRange hv (fun j hj => haddr _ (hmem j hj)) flags
    refine ⟨_, ?_, h.setRange haddr htable htaken hset hf fun j hj => hmem j (by omega)⟩
    show PageMap.Step A _ (m.vmmMapRange root virtStart physStart size flags).1 _
    rcases hk with ⟨hres, rfl⟩ | ⟨hres, hk⟩
    · rw [hres]
      exact .mapRange A virtStart physStart size flags
    · rw [hres]
      exact .mapRangeFailed A virtStart physStart size flags hk
  | unmapRange virtStart size =>
    obtain ⟨hres, hclear⟩ := h.space.vmmUnmapRange hscope
    refine ⟨_, ?_, h.clearRange haddr htable htaken hclear⟩
    exact .unmapRange A virtStart size

variable {ops : List VmmOp}

/-- A run simulates a run of the page map. -/
theorem Refines.run (h : m.Refines root A) (hops : m.AllowedRun root ops) :
    ∃ A', PageMap.Run A ops (m.run root ops).1 A' ∧ (m.run root ops).2.Refines root A' := by
  induction ops generalizing m A with
  | nil => exact ⟨A, .nil A, h⟩
  | cons op ops ih =>
    obtain ⟨A', hstep, h'⟩ := h.exec hops.1
    obtain ⟨A'', hrun, h''⟩ := ih h' hops.2
    exact ⟨A'', .cons hstep hrun, h''⟩

/-! ## What a run guarantees -/

/-- Entry `i` of the table at `t` is a directory entry of the user half. -/
def DirEntry (m : Vmm) (root t : ℕ) (i : Fin 512) : Prop :=
  ∃ p, UserPath (p ++ [i]) ∧ m.table root p = some t

/-- The tables form a tree: each but the root is referenced by exactly one directory entry, the root
by none, no table is mapped as a page, and each frame handed out was freed once, unless it is still
a table. -/
structure IsTree (m : Vmm) (root : ℕ) : Prop where
  unique_ref : ∀ a, m.IsTable root a → a ≠ root →
    ∃! x : ℕ × Fin 512, m.DirEntry root x.1 x.2 ∧ Pte.child (m.mem x.1 x.2) = some a
  root_unref : ∀ t i, m.DirEntry root t i → Pte.child (m.mem t i) ≠ some root
  not_leaf : ∀ a, m.MapsTo root a → ¬m.IsTable root a
  live_once : ∀ a, m.IsTable root a → m.allocated.count a = m.freed.count a + 1
  freed_once : ∀ a, ¬m.IsTable root a → m.allocated.count a = m.freed.count a

theorem table_of_dirEntry {t : ℕ} {i : Fin 512} {p : List (Fin 512)}
    (ht : m.table root p = some t) (hc : Pte.child (m.mem t i) = some a) :
    m.table root (p ++ [i]) = some a := by
  rw [table_concat, entry_of_table ht, bind_some, hc]

theorem Refines.isTree (h : m.Refines root A) : m.IsTree root where
  unique_ref := by
    rintro a ⟨q, hq, hs⟩ hne
    -- the last step of the only path to the table
    rcases eq_nil_or_concat q with rfl | ⟨p, i, rfl⟩
    · exact absurd (some.inj hs).symm hne
    rw [concat_eq_append] at *
    obtain ⟨t, ht⟩ := table_of_isPrefix (prefix_append p [i]) hs
    refine ⟨(t, i), ⟨⟨p, hq, ht⟩, child_of_table ht hs⟩, ?_⟩
    rintro ⟨t', i'⟩ ⟨⟨p', hp', ht'⟩, hc'⟩
    have hpath := h.space.sep _ _ a hp' hq (table_of_dirEntry ht' hc') hs
    obtain ⟨rfl, hi⟩ := append_inj' hpath rfl
    obtain rfl := mem_unique ht' ht
    rw [cons.injEq] at hi
    exact Prod.ext rfl hi.1
  root_unref := by
    rintro t i ⟨p, hp, ht⟩ hc
    have hpath := h.space.sep _ [] root hp userPath_nil (table_of_dirEntry ht hc) rfl
    exact absurd hpath (by simp)
  not_leaf := h.not_leaf
  live_once := by
    intro a ha
    have howed := h.owed_eq a
    rw [owed_of_isTable ha] at howed
    omega
  freed_once := by
    intro a ha
    have howed := h.owed_eq a
    rw [owed_of_not_isTable ha] at howed
    omega

/-- An aligned address and an offset in its page. -/
theorem FrameAddr.or_offset {p : ℕ} (h : FrameAddr p) (virt : ℕ) :
    p ||| (virt &&& (pageSize - 1)) = p + virt % pageSize := by
  have hmask : virt &&& (pageSize - 1) = virt % 2 ^ 12 := Nat.and_two_pow_sub_one_eq_mod virt 12
  obtain ⟨k, rfl⟩ : ∃ k, p = 2 ^ 12 * k := Nat.dvd_of_mod_eq_zero h.aligned
  rw [hmask, ← Nat.two_pow_add_eq_or_of_lt (Nat.mod_lt _ (by decide))]
  rfl

theorem Refines.vmmVirtToPhys (h : m.Refines root A) (hv : virt < userSpaceMax) :
    m.vmmVirtToPhys root virt = A.translate virt := by
  have hn := page_lt_userPages hv
  rw [h.space.vmmVirtToPhys hv, h.mapped_eq hn, PageMap.translate]
  cases hA : A (virt / pageSize) with
  | none => rfl
  | some x =>
    obtain ⟨haddr, hf⟩ := h.valid hn hA
    show (Pte.leaf x.1 x.2).addr ||| (virt &&& (pageSize - 1)) = x.1 + virt % pageSize
    rw [Pte.addr_leaf haddr hf, FrameAddr.or_offset haddr]

/-- A leaf grants what its flags say. -/
theorem perms_leaf (flags : Pte) : (Pte.leaf phys flags).perms = flags.perms := by
  rw [Pte.perms, Pte.perms]
  simp only [Pte.has_writable, Pte.has_user, Pte.has_noExecute, Pte.getLsbD_leaf]
  simp

theorem Refines.effectivePerms (h : m.Refines root A) (hv : virt < userSpaceMax) :
    m.effectivePerms root virt = (A (virt / pageSize)).map fun x => x.2.perms := by
  have hn := page_lt_userPages hv
  rw [h.space.effectivePerms hv, h.mapped_eq hn]
  cases hA : A (virt / pageSize) with
  | none => rfl
  | some x => exact congrArg some (perms_leaf x.2)

/-- A new address space refines the empty page map. -/
theorem Created.refines (h : m.Created m.vmmCreateAddressSpace) (halloc : m.allocated = [])
    (hfreed : m.freed = []) :
    m.vmmCreateAddressSpace.2.Refines m.vmmCreateAddressSpace.1 (fun _ => none) where
  space := h.space
  mapped_eq := h.mapped_eq
  valid := fun _ hx => nomatch hx
  not_leaf := by
    rintro a ⟨n, e, hn, he, -⟩
    rw [h.mapped_eq hn] at he
    cases he
  owed_eq := by
    intro a
    rw [h.owed_eq a, halloc, hfreed]
    rfl

/-! ## Device memory

Frames outside the memory the allocator manages are never tables, so a run that maps only such frames
is always in scope. -/

/-- Every frame of the map lies outside the first `total` frames. -/
def Outside (total : ℕ) (A : PageMap) : Prop := ∀ n x, A n = some x → total ≤ x.1 / pageSize

theorem Outside.step {total : ℕ} {A' : PageMap} {r : ℤ} (h : Outside total A)
    (hop : ∀ a ∈ op.frames, total ≤ a / pageSize) (hstep : PageMap.Step A op r A') :
    Outside total A' := by
  have hset : ∀ {first phys flags k}, (∀ j, j < k → total ≤ (phys + j * pageSize) / pageSize) →
      Outside total (A.setRange first phys flags k) := by
    intro first phys flags k hphys n x hx
    rw [PageMap.setRange] at hx
    split at hx
    · obtain rfl := some.inj hx
      exact hphys _ (by omega)
    · exact h n x hx
  have hclear : ∀ {first k}, Outside total (A.clearRange first k) := by
    intro first k n x hx
    rw [PageMap.clearRange] at hx
    split at hx
    · cases hx
    · exact h n x hx
  cases hstep with
  | mapPage virt phys flags =>
    refine hset fun j hj => ?_
    obtain rfl : j = 0 := by omega
    simpa using hop phys (mem_singleton.mpr rfl)
  | mapPageFailed => exact h
  | unmapPage => exact hclear
  | mapRange virtStart physStart size flags =>
    exact hset fun j hj => hop _ (mem_map.mpr ⟨j, mem_range.mpr hj, rfl⟩)
  | mapRangeFailed virtStart physStart size flags hk =>
    exact hset fun j hj => hop _ (mem_map.mpr ⟨j, mem_range.mpr (by omega), rfl⟩)
  | unmapRange => exact hclear

theorem Refines.mapsTo (h : m.Refines root A) (ha : m.MapsTo root a) :
    ∃ n x, A n = some x ∧ x.1 = a := by
  obtain ⟨n, e, hn, he, rfl⟩ := ha
  rw [h.mapped_eq hn, map_eq_some_iff] at he
  obtain ⟨x, hx, rfl⟩ := he
  obtain ⟨haddr, hf⟩ := h.valid hn hx
  exact ⟨n, x, hx, (Pte.addr_leaf haddr hf).symm⟩

/-- A call keeps the space whatever the frames it maps. -/
theorem Space.exec (h : m.Space root) (hscope : op.InScope) (haddr : ∀ a ∈ op.frames, FrameAddr a) :
    m.Evolves (m.exec root op).2 root := by
  cases op with
  | mapPage virt phys flags =>
    rcases h.vmmMapPage hscope.1 (haddr phys (mem_singleton.mpr rfl)) flags with
      ⟨-, hset⟩ | ⟨-, hgrows⟩
    · exact hset.evolves
    · exact hgrows.evolves
  | unmapPage virt => exact (h.vmmUnmapPage hscope).2.evolves
  | mapRange virtStart physStart size flags =>
    obtain ⟨k, -, hset⟩ := h.vmmMapRange hscope.1
      (fun j hj => haddr _ (mem_map.mpr ⟨j, mem_range.mpr hj, rfl⟩)) flags
    exact hset.evolves
  | unmapRange virtStart size => exact (h.vmmUnmapRange hscope).2.evolves

/-- A call that maps device memory is in scope. -/
theorem Refines.allowed_of_outside (h : m.Refines root A) (hA : Outside m.pmm.gTotalFrames A)
    (hscope : op.InScope) (hop : ∀ a ∈ op.frames, FrameAddr a ∧ m.pmm.gTotalFrames ≤ a / pageSize) :
    m.Allowed root op := by
  have hnew : ∀ a ∈ m.newFrames (m.exec root op).2, a / pageSize < m.pmm.gTotalFrames := by
    obtain ⟨new, hlog, -, hlt⟩ := (h.space.exec hscope fun a ha => (hop a ha).1).grown
    rwa [newFrames_eq hlog]
  refine ⟨hscope, fun a ha => (hop a ha).1, fun a ha => ?_, fun a ha => ⟨fun hmem => ?_, ?_⟩⟩
  · rintro ⟨p, hp, ht⟩
    have hlt := (Pmm.mem_usedSet.mp (h.space.used hp ht).2).1
    have hge := (hop a ha).2
    omega
  · have hlt := hnew a ha
    have hge := (hop a hmem).2
    omega
  · intro hmaps
    obtain ⟨n, x, hx, rfl⟩ := h.mapsTo hmaps
    have hlt := hnew _ ha
    have hge := hA n x hx
    omega

theorem Refines.allowedRun_of_outside (h : m.Refines root A) (hA : Outside m.pmm.gTotalFrames A)
    (hops : ∀ op ∈ ops, op.InScope ∧
      ∀ a ∈ op.frames, FrameAddr a ∧ m.pmm.gTotalFrames ≤ a / pageSize) :
    m.AllowedRun root ops := by
  induction ops generalizing m A with
  | nil => trivial
  | cons op ops ih =>
    obtain ⟨hscope, hframes⟩ := hops op (.head _)
    have hallowed := h.allowed_of_outside hA hscope hframes
    obtain ⟨A', hstep, h'⟩ := h.exec hallowed
    have htotal := (h.space.exec hscope fun a ha => (hframes a ha).1).total_eq
    refine ⟨hallowed, ih h' ?_ ?_⟩
    · rw [htotal]
      exact hA.step (fun a ha => (hframes a ha).2) hstep
    · rw [htotal]
      exact fun op' hop' => hops op' (.tail _ hop')

/-- Every run on a new address space does to the tables what the calls that succeeded do to a page
map: translation and permissions agree with it at every user address, and the tables form a tree. The
logs start empty when the address space is made. -/
theorem created_run_refines (m₀ : Vmm) (hpmm : m₀.pmm.Inv) (htotal : m₀.pmm.gTotalFrames ≤ 2 ^ 40)
    (halloc : m₀.allocated = []) (hfreed : m₀.freed = []) (ops : List VmmOp)
    (hroot : m₀.vmmCreateAddressSpace.1 ≠ 0)
    (hops : m₀.vmmCreateAddressSpace.2.AllowedRun m₀.vmmCreateAddressSpace.1 ops) :
    let root := m₀.vmmCreateAddressSpace.1
    let r := m₀.vmmCreateAddressSpace.2.run root ops
    ∃ A, PageMap.Run (fun _ => none) ops r.1 A ∧
      (∀ virt, virt < userSpaceMax → r.2.vmmVirtToPhys root virt = A.translate virt) ∧
      r.2.IsTree root ∧
      ∀ virt, virt < userSpaceMax →
        r.2.effectivePerms root virt = (A (virt / pageSize)).map fun x => x.2.perms := by
  have hcreated := vmmCreateAddressSpace_spec hpmm htotal hroot
  obtain ⟨A, hrun, href⟩ := (hcreated.refines halloc hfreed).run hops
  exact ⟨A, hrun, fun _ hv => href.vmmVirtToPhys hv, href.isTree,
    fun _ hv => href.effectivePerms hv⟩

/-- A machine just booted with eight pages of free memory. The second call of `pmm_alloc_frame`
fails. -/
def smallVmm : Vmm where
  pmm := Pmm.pmmInit (fun _ => 0#64) PmmClient.smallBootInfo
  denials := [false, true]
  mem := fun _ _ => 0#64
  gKernelPml4 := 0x3000
  allocated := []
  freed := []

/-- A framebuffer page mapped for the user after a first attempt without memory, two read-only pages
beside it, and the first one taken away. -/
def smallVmmOps : List VmmOp :=
  [.mapPage 0x400000 0xE0000000 (vmmFlagWritable ||| vmmFlagUser),
    .mapPage 0x400000 0xE0000000 (vmmFlagWritable ||| vmmFlagUser),
    .mapRange 0x401000 0xE0001000 0x1800 vmmFlagUser,
    .unmapPage 0x400000]

/-- The run of `smallVmmOps`: the first call fails for want of a table, and the page unmapped at the
end translates to nothing while its neighbours stay. -/
theorem created_run_refines_small :
    smallVmm.vmmCreateAddressSpace.1 = 0x101000 ∧
      (smallVmm.vmmCreateAddressSpace.2.run 0x101000 smallVmmOps).1 = [-1, 0, 0, 0] ∧
      (smallVmm.vmmCreateAddressSpace.2.run 0x101000 smallVmmOps).2.vmmVirtToPhys 0x101000 0x402345
        = 0xE0002345 ∧
      ∃ A, PageMap.Run (fun _ => none) smallVmmOps [-1, 0, 0, 0] A ∧
        A.translate 0x402345 = 0xE0002345 := by
  refine (and_iff_left_of_imp fun hroot => ?_).mpr (by decide +kernel)
  refine (and_iff_left_of_imp fun hres => ?_).mpr (by decide +kernel)
  refine (and_iff_left_of_imp fun hphys => ?_).mpr (by decide +kernel)
  have hne : smallVmm.vmmCreateAddressSpace.1 ≠ 0 := by
    rw [hroot]
    decide
  have hpmm : smallVmm.pmm.Inv := (Pmm.pmmInit_inv _ _).1
  have htotal : smallVmm.pmm.gTotalFrames ≤ 2 ^ 40 := by decide +kernel
  have hcreated := vmmCreateAddressSpace_spec hpmm htotal hne
  have hops : smallVmm.vmmCreateAddressSpace.2.AllowedRun smallVmm.vmmCreateAddressSpace.1
      smallVmmOps := by
    refine (hcreated.refines rfl rfl).allowedRun_of_outside (fun _ _ hx => nomatch hx) ?_
    decide +kernel
  obtain ⟨A, hrun, htrans, -⟩ :=
    created_run_refines smallVmm hpmm htotal rfl rfl smallVmmOps hne hops
  rw [hroot] at hrun htrans
  rw [hres] at hrun
  exact ⟨A, hrun, (htrans 0x402345 (by decide)).symm.trans hphys⟩

end Vmm

end NovaOS.Mem
