import NovaOS.Mem.VmmRefine

/-!
# Tearing an address space down

`vmmDestroyAddressSpace` walks the user half and frees what it meets. The walk is the release of one
list of frames, read off the tables it starts from; in a well-formed space whose frames are mapped
once each, the list has no duplicates and is exactly the tables and the mapped frames.
-/

namespace NovaOS.Mem

open NovaOS.Lib List Option

namespace Vmm

/-! ## The walk as a list of frees -/

/-- A loop whose body frees a list read off the tables frees the concatenation, and then the
table. -/
theorem forUp_freeAll {body : ℕ → Vmm → Vmm} {g : ℕ → List ℕ} {m : Vmm} {hi t : ℕ}
    (hbody : ∀ i m', m'.mem = m.mem → body i m' = freeAll (g i) m') :
    (forUp 0 hi body m).pmmFreeFrame t = freeAll ((range' 0 hi).flatMap g ++ [t]) m := by
  rw [freeAll_append, forUp]
  refine congrArg (pmmFreeFrame · t) ?_
  induction range' 0 hi generalizing m with
  | nil => rfl
  | cons i l ih =>
    rw [foldl_cons, hbody i m rfl, flatMap_cons, freeAll_append]
    exact ih fun j m' hm' => hbody j m' (hm'.trans (freeAll_mem ..))

/-- The frames of the subtree below a table, the table last; `depth` directory levels are above the
page tables. -/
def subtree (mem : ℕ → Fin 512 → Pte) : (depth t : ℕ) → List ℕ
  | 0, t =>
    (range' 0 512).flatMap (fun i =>
      if (mem t (entryIdx i)).has vmmFlagPresent then [(mem t (entryIdx i)).addr] else []) ++ [t]
  | depth + 1, t =>
    (range' 0 512).flatMap (fun i =>
      if !(mem t (entryIdx i)).has vmmFlagPresent || (mem t (entryIdx i)).has vmmFlagHuge then []
      else subtree mem depth (mem t (entryIdx i)).addr) ++ [t]

/-- The frames of the user half of an address space, the root last. -/
def userFrames (mem : ℕ → Fin 512 → Pte) (root : ℕ) : List ℕ :=
  (range' 0 256).flatMap (fun i =>
    if !(mem root (entryIdx i)).has vmmFlagPresent then []
    else subtree mem 2 (mem root (entryIdx i)).addr) ++ [root]

theorem destroyPt_eq (pt : ℕ) (m : Vmm) : destroyPt pt m = freeAll (subtree m.mem 0 pt) m := by
  refine forUp_freeAll fun i m' hm => ?_
  dsimp only
  rw [hm]
  split <;> rfl

theorem destroyPd_eq (pd : ℕ) (m : Vmm) : destroyPd pd m = freeAll (subtree m.mem 1 pd) m := by
  refine forUp_freeAll fun i m' hm => ?_
  dsimp only
  rw [← hm]
  split
  · rfl
  · exact destroyPt_eq _ m'

theorem destroyPdpt_eq (pdpt : ℕ) (m : Vmm) :
    destroyPdpt pdpt m = freeAll (subtree m.mem 2 pdpt) m := by
  refine forUp_freeAll fun i m' hm => ?_
  dsimp only
  rw [← hm]
  split
  · rfl
  · exact destroyPd_eq _ m'

variable {m : Vmm} {root : ℕ}

/-- Destroying an address space frees its user half. -/
theorem vmmDestroyAddressSpace_eq (h0 : root ≠ 0) (hk : root ≠ m.gKernelPml4) :
    m.vmmDestroyAddressSpace root = freeAll (userFrames m.mem root) m := by
  rw [vmmDestroyAddressSpace, if_neg (by tauto)]
  refine forUp_freeAll fun i m' hm => ?_
  dsimp only
  rw [← hm]
  split
  · rfl
  · exact destroyPdpt_eq _ m'

/-! ## Where a frame occurs -/

/-- `a` is the table at path `q`, or a frame mapped by the page table at `q`. -/
def OccursAt (m : Vmm) (root a : ℕ) (q : List (Fin 512)) : Prop :=
  UserPath q ∧
    (m.table root q = some a ∨ ∃ i e, q.length = 3 ∧ m.leaf root q i = some e ∧ e.addr = a)

/-- Every place of a page table is the place of a user page. -/
theorem exists_page {q : List (Fin 512)} (hq : UserPath q) (hlen : q.length = 3) (i : Fin 512) :
    ∃ n, n < userPages ∧ pagePath n = q ∧ pageIdx n = i := by
  obtain ⟨a, b, c, rfl⟩ := length_eq_three.mp hlen
  have ha : a.val < 256 := hq.head_lt a rfl
  refine ⟨a.val * 2 ^ 27 + b.val * 2 ^ 18 + c.val * 2 ^ 9 + i.val, ?_, ?_, ?_⟩
  · show _ < 2 ^ 35
    omega
  · simp only [pagePath, cons.injEq, and_true, Fin.ext_iff, tableIndex_val]
    omega
  · simp only [pageIdx, Fin.ext_iff, tableIndex_val]
    omega

/-- The frames that occur are the tables and the frames mapped. -/
theorem exists_occursAt_iff {a : ℕ} :
    (∃ q, m.OccursAt root a q) ↔ m.IsTable root a ∨ m.MapsTo root a := by
  constructor
  · rintro ⟨q, hq, ht | ⟨i, e, hlen, hl, rfl⟩⟩
    · exact .inl ⟨q, hq, ht⟩
    · obtain ⟨n, hn, rfl, rfl⟩ := exists_page hq hlen i
      exact .inr ⟨n, e, hn, hl, rfl⟩
  · rintro (⟨q, hq, ht⟩ | ⟨n, e, hn, he, rfl⟩)
    · exact ⟨q, hq, .inl ht⟩
    · exact ⟨pagePath n, userPath_pagePath hn, .inr ⟨pageIdx n, e, rfl, he, rfl⟩⟩

/-- Every mapped frame is mapped by one page and is not a table. -/
structure Single (m : Vmm) (root : ℕ) : Prop where
  not_leaf : ∀ a, m.MapsTo root a → ¬m.IsTable root a
  inj : ∀ {n n' e e'}, n < userPages → n' < userPages → m.mapped root n = some e →
    m.mapped root n' = some e' → e.addr = e'.addr → n = n'

section Subtree

variable {m : Vmm} {root t : ℕ} {p : List (Fin 512)}

variable {q q' : List (Fin 512)} {i : Fin 512} {e : Pte}

theorem Single.leaf_inj (hs : m.Single root) {i' : Fin 512} {e' : Pte} (hq : UserPath q)
    (hq' : UserPath q') (hlen : q.length = 3) (hlen' : q'.length = 3)
    (he : m.leaf root q i = some e) (he' : m.leaf root q' i' = some e') (ha : e.addr = e'.addr) :
    q = q' ∧ i = i' := by
  obtain ⟨n, hn, rfl, rfl⟩ := exists_page hq hlen i
  obtain ⟨n', hn', rfl, rfl⟩ := exists_page hq' hlen' i'
  obtain rfl := hs.inj hn hn' he he' ha
  exact ⟨rfl, rfl⟩

theorem Single.not_isTable (hs : m.Single root) (hq : UserPath q) (hlen : q.length = 3)
    (he : m.leaf root q i = some e) : ¬m.IsTable root e.addr := by
  obtain ⟨n, hn, rfl, rfl⟩ := exists_page hq hlen i
  exact hs.not_leaf _ ⟨n, e, hn, he, rfl⟩

/-- A frame occurs at one path. -/
theorem OccursAt.unique (h : m.Space root) (hs : m.Single root) {a : ℕ} (ha : m.OccursAt root a q)
    (ha' : m.OccursAt root a q') : q = q' := by
  obtain ⟨hq, ht | ⟨i, e, hlen, hl, rfl⟩⟩ := ha <;>
    obtain ⟨hq', ht' | ⟨i', e', hlen', hl', heq⟩⟩ := ha'
  · exact h.sep q q' a hq hq' ht ht'
  · exact absurd ⟨q, hq, heq ▸ ht⟩ (hs.not_isTable hq' hlen' hl')
  · exact absurd ⟨q', hq', ht'⟩ (hs.not_isTable hq hlen hl)
  · exact (hs.leaf_inj hq hq' hlen hlen' hl hl' heq.symm).1

theorem entryIdx_val (j : Fin 512) : entryIdx j.val = j := by
  apply Fin.ext
  exact Nat.mod_eq_of_lt j.isLt

theorem entryIdx_inj {i j : ℕ} (hi : i < 512) (hj : j < 512) (h : entryIdx i = entryIdx j) :
    i = j := by
  have hmod : i % 512 = j % 512 := congrArg Fin.val h
  rwa [Nat.mod_eq_of_lt hi, Nat.mod_eq_of_lt hj] at hmod

/-- A proper extension of a path goes through one of its children. -/
theorem prefix_cases (h : p <+: q) : q = p ∨ ∃ j, (p ++ [j]) <+: q := by
  obtain ⟨r, rfl⟩ := h
  cases r with
  | nil => exact .inl (append_nil p)
  | cons j r => exact .inr ⟨j, r, by simp⟩

theorem mem_flatMap_concat {hi a : ℕ} {g : ℕ → List ℕ} :
    a ∈ (range' 0 hi).flatMap g ++ [t] ↔ (∃ i, i < hi ∧ a ∈ g i) ∨ a = t := by
  simp

/-- The frames of disjoint entries, and then a frame of none of them, have no duplicates. -/
theorem nodup_flatMap_concat {hi : ℕ} {g : ℕ → List ℕ} (hg : ∀ i, i < hi → (g i).Nodup)
    (hinj : ∀ i j a, i < hi → j < hi → a ∈ g i → a ∈ g j → i = j)
    (ht : ∀ i, i < hi → t ∉ g i) : ((range' 0 hi).flatMap g ++ [t]).Nodup := by
  rw [← range_eq_range']
  refine nodup_append.mpr ⟨nodup_flatMap.mpr ⟨fun i hi' => hg i (mem_range.mp hi'), ?_⟩, by simp, ?_⟩
  · exact nodup_range.pairwise_of_forall_ne fun i hi' j hj hij a hai haj =>
      hij (hinj i j a (mem_range.mp hi') (mem_range.mp hj) hai haj)
  · rintro a ha b hb rfl
    obtain ⟨i, hi', hai⟩ := mem_flatMap.mp ha
    obtain rfl := mem_singleton.mp hb
    exact ht i (mem_range.mp hi') hai

/-- `l` lists, once each, the frames that occur at and below a path. -/
def Lists (m : Vmm) (root : ℕ) (p : List (Fin 512)) (l : List ℕ) : Prop :=
  l.Nodup ∧ ∀ a, a ∈ l ↔ ∃ q, p <+: q ∧ m.OccursAt root a q

/-- The frames below a directory are those below its children, then the directory. -/
theorem Space.lists_node (h : m.Space root) (hs : m.Single root) (hp : UserPath p)
    (hlen : p.length < 3) (ht : m.table root p = some t) {hi : ℕ} (hhi : hi ≤ 512)
    (hcover : ∀ j : Fin 512, UserPath (p ++ [j]) → j.val < hi) {g : ℕ → List ℕ}
    (hg : ∀ i, i < hi → m.Lists root (p ++ [entryIdx i]) (g i)) :
    m.Lists root p ((range' 0 hi).flatMap g ++ [t]) := by
  have hself : m.OccursAt root t p := ⟨hp, .inl ht⟩
  have hbelow : ∀ {i a}, i < hi → a ∈ g i → ∃ q, (p ++ [entryIdx i]) <+: q ∧ m.OccursAt root a q :=
    fun hi' ha => ((hg _ hi').2 _).mp ha
  refine ⟨nodup_flatMap_concat (fun i hi' => (hg i hi').1) ?_ ?_, fun a => ?_⟩
  · intro i j a hi' hj hai haj
    obtain ⟨q, hq, ho⟩ := hbelow hi' hai
    obtain ⟨q', hq', ho'⟩ := hbelow hj haj
    obtain rfl := ho.unique h hs ho'
    -- two children of one path on the way to the same place
    have heq := prefix_of_prefix_length_le hq hq' (by simp)
    have hidx := append_inj' (heq.eq_of_length (by simp)) rfl
    exact entryIdx_inj (by omega) (by omega) (cons.inj hidx.2).1
  · intro i hi' hai
    obtain ⟨q, hq, ho⟩ := hbelow hi' hai
    obtain rfl := hself.unique h hs ho
    have := hq.length_le
    rw [length_append, length_singleton] at this
    omega
  · rw [mem_flatMap_concat]
    constructor
    · rintro (⟨i, hi', hai⟩ | rfl)
      · obtain ⟨q, hq, ho⟩ := hbelow hi' hai
        exact ⟨q, (prefix_append _ _).trans hq, ho⟩
      · exact ⟨p, prefix_rfl, hself⟩
    · rintro ⟨q, hpq, ho⟩
      rcases prefix_cases hpq with rfl | ⟨j, hj⟩
      · rcases ho.2 with hta | ⟨i, e, hlen', -⟩
        · exact .inr (mem_unique hta ht)
        · omega
      · have hjlt := hcover j (userPath_prefixClosed _ _ hj ho.1)
        refine .inl ⟨j.val, hjlt, ?_⟩
        rw [(hg _ hjlt).2, entryIdx_val]
        exact ⟨q, hj, ho⟩

/-- Nothing occurs below a missing entry. -/
theorem lists_nil {j : Fin 512} (ht : m.table root p = some t)
    (hmiss : (m.mem t j).getLsbD 0 = false) : m.Lists root (p ++ [j]) [] := by
  refine ⟨nodup_nil, fun a => ⟨fun ha => absurd ha not_mem_nil, ?_⟩⟩
  rintro ⟨q, hq, ho⟩
  have hsome : ∃ s, m.table root q = some s := by
    rcases ho.2 with hta | ⟨i, e, -, hl, -⟩
    · exact ⟨a, hta⟩
    · obtain ⟨s, hs, -⟩ := entry_eq_some.mp (leaf_eq_some.mp hl).1
      exact ⟨s, hs⟩
  obtain ⟨s, hs⟩ := hsome
  obtain ⟨c, hc⟩ := table_of_isPrefix hq hs
  have hchild := child_of_table ht hc
  rw [Pte.child_eq_none.mpr hmiss] at hchild
  cases hchild

theorem UserPath.concat {p : List (Fin 512)} (hp : UserPath p) (hne : p ≠ []) (hlen : p.length < 3)
    (j : Fin 512) : UserPath (p ++ [j]) := by
  refine ⟨by rw [length_append, length_singleton]; omega, fun i hi => hp.head_lt i ?_⟩
  rwa [head?_append_of_ne_nil p hne] at hi

/-- The frames of a page table. -/
theorem Single.lists_pt (hs : m.Single root) (hp : UserPath p) (hlen : p.length = 3)
    (ht : m.table root p = some t) : m.Lists root p (subtree m.mem 0 t) := by
  have hmem : ∀ {a i}, (a ∈ if (m.mem t (entryIdx i)).has vmmFlagPresent then
      [(m.mem t (entryIdx i)).addr] else []) ↔
        m.leaf root p (entryIdx i) = some (m.mem t (entryIdx i)) ∧
          (m.mem t (entryIdx i)).addr = a := by
    intro a i
    rw [leaf_eq_some, entry_of_table ht, Pte.has_present]
    cases (m.mem t (entryIdx i)).getLsbD 0 <;> simp [eq_comm]
  have hself : m.IsTable root t := ⟨p, hp, ht⟩
  refine ⟨nodup_flatMap_concat (fun i _ => by split <;> simp) ?_ ?_, fun a => ?_⟩
  · intro i j a hi hj hai haj
    rw [hmem] at hai haj
    exact entryIdx_inj hi hj (hs.leaf_inj hp hp hlen hlen hai.1 haj.1 (hai.2.trans haj.2.symm)).2
  · intro i _ hai
    rw [hmem] at hai
    exact hs.not_isTable hp hlen hai.1 (by rwa [hai.2])
  · rw [subtree, mem_flatMap_concat]
    constructor
    · rintro (⟨i, -, hai⟩ | rfl)
      · rw [hmem] at hai
        exact ⟨p, prefix_rfl, hp, .inr ⟨_, _, hlen, hai.1, hai.2⟩⟩
      · exact ⟨p, prefix_rfl, hp, .inl ht⟩
    · rintro ⟨q, hpq, hq, ho⟩
      obtain rfl := hpq.eq_of_length_le (by rw [hlen]; exact hq.length_le)
      rcases ho with hta | ⟨j, e, -, hl, rfl⟩
      · exact .inr (mem_unique hta ht)
      · refine .inl ⟨j.val, j.isLt, ?_⟩
        obtain rfl := mem_unique (entry_of_table ht j) (leaf_eq_some.mp hl).1
        rw [hmem, entryIdx_val]
        exact ⟨hl, rfl⟩

/-- The frames of a subtree. -/
theorem Space.lists_subtree (h : m.Space root) (hs : m.Single root) (depth : ℕ)
    (hp : UserPath p) (hne : p ≠ []) (hlen : p.length + depth = 3)
    (ht : m.table root p = some t) : m.Lists root p (subtree m.mem depth t) := by
  induction depth generalizing p t with
  | zero => exact hs.lists_pt hp hlen ht
  | succ depth ih =>
    refine h.lists_node hs hp (by omega) ht le_rfl (fun j _ => j.isLt) fun i _ => ?_
    have hp' := UserPath.concat hp hne (by omega) (entryIdx i)
    rw [Pte.has_present, Pte.has_huge]
    cases hpres : (m.mem t (entryIdx i)).getLsbD 0 with
    | false => exact lists_nil ht hpres
    | true =>
      rw [(h.dirs hp' (entry_of_table ht _) hpres).huge]
      refine ih hp' (by simp) (by rw [length_append, length_singleton]; omega) ?_
      rw [table_concat, entry_of_table ht, bind_some, Pte.child_of_present hpres]

/-- The frames of the user half: the tables and the mapped frames, once each. -/
theorem Space.userFrames (h : m.Space root) (hs : m.Single root) :
    (userFrames m.mem root).Nodup ∧
      ∀ a, a ∈ userFrames m.mem root ↔ m.IsTable root a ∨ m.MapsTo root a := by
  have hlists : m.Lists root [] (Vmm.userFrames m.mem root) := by
    refine h.lists_node hs userPath_nil (by decide) rfl (by decide) (fun j hj => hj.head_lt j rfl)
      fun i hi => ?_
    have hp : UserPath [entryIdx i] := by
      refine ⟨by simp, fun j hj => ?_⟩
      obtain rfl : entryIdx i = j := by simpa using hj
      show i % 512 < 256
      omega
    rw [Pte.has_present]
    cases hpres : (m.mem root (entryIdx i)).getLsbD 0 with
    | false => exact lists_nil (p := []) rfl hpres
    | true =>
      refine h.lists_subtree hs 2 hp (by simp) rfl ?_
      exact (table_concat (p := [])).trans (Pte.child_of_present hpres)
  refine ⟨hlists.1, fun a => (hlists.2 a).trans ?_⟩
  rw [← exists_occursAt_iff]
  exact exists_congr fun q => and_iff_right q.nil_prefix

end Subtree

end Vmm

/-! ## Owners of an address space -/

/-- What the owner of an address space does: take a frame, map one it took, unmap a page, or give a
frame back. -/
inductive SpaceOp where
  | obtain
  | mapPage (virt phys : ℕ) (flags : Pte)
  | unmapPage (virt : ℕ)
  | release (physAddr : ℕ)

/-- The machine with the frames the owner took and did not give back. -/
structure SpaceClient where
  vmm : Vmm
  held : List ℕ

namespace SpaceClient

/-- One action on the address space at `root`. -/
def step (c : SpaceClient) (root : ℕ) : SpaceOp → SpaceClient
  | .obtain =>
    let r := c.vmm.pmmAllocFrame
    if r.1 = 0 then { c with vmm := r.2 } else ⟨r.2, r.1 :: c.held⟩
  | .mapPage virt phys flags => { c with vmm := (c.vmm.vmmMapPage root virt phys flags).2 }
  | .unmapPage virt => { c with vmm := (c.vmm.vmmUnmapPage root virt).2 }
  | .release physAddr => ⟨c.vmm.pmmFreeFrame physAddr, c.held.erase physAddr⟩

/-- The actions in scope: only frames taken from the allocator are mapped, at user addresses and at
one address each, and only frames that are not mapped are given back. -/
def Allowed (c : SpaceClient) (root : ℕ) : SpaceOp → Prop
  | .obtain => True
  | .mapPage virt phys flags =>
    virt < userSpaceMax ∧ flags.FlagsOnly ∧ phys ∈ c.held ∧
      ∀ n e, n < userPages → n ≠ virt / pageSize → c.vmm.mapped root n = some e → e.addr ≠ phys
  | .unmapPage virt => virt < userSpaceMax
  | .release physAddr => physAddr ∈ c.held ∧ ¬c.vmm.MapsTo root physAddr

/-- A sequence of actions. -/
def run (c : SpaceClient) (root : ℕ) : List SpaceOp → SpaceClient
  | [] => c
  | op :: ops => (c.step root op).run root ops

/-- Every action of the sequence is in scope when it is taken. -/
def AllowedRun (c : SpaceClient) (root : ℕ) : List SpaceOp → Prop
  | [] => True
  | op :: ops => c.Allowed root op ∧ (c.step root op).AllowedRun root ops

/-- The owner of a new address space. -/
def create (m : Vmm) : SpaceClient := ⟨m.vmmCreateAddressSpace.2, []⟩

/-- The invariant of an owner whose allocator had the frames `used₀` in use before the address space
was made: the used frames that are not tables are those and the ones held. -/
structure Inv (used₀ : Finset ℕ) (root : ℕ) (c : SpaceClient) : Prop where
  space : c.vmm.Space root
  nodup : c.held.Nodup
  fresh : ∀ a ∈ c.held, FrameAddr a ∧ a / pageSize ∉ used₀
  mapped_held : ∀ {n e}, n < userPages → c.vmm.mapped root n = some e → e.addr ∈ c.held
  inj : ∀ {n n' e e'}, n < userPages → n' < userPages → c.vmm.mapped root n = some e →
    c.vmm.mapped root n' = some e' → e.addr = e'.addr → n = n'
  ledger : ∀ a, FrameAddr a →
    ((a / pageSize ∈ c.vmm.pmm.usedSet ∧ ¬c.vmm.IsTable root a) ↔
      (a / pageSize ∈ used₀ ∨ a ∈ c.held))
  zero : 0 ∈ c.vmm.pmm.usedSet
  kernel : c.vmm.gKernelPml4 / pageSize ∈ used₀

variable {used₀ : Finset ℕ} {root : ℕ} {c : SpaceClient}

variable {a : ℕ}

theorem Inv.held_spec (h : Inv used₀ root c) (ha : a ∈ c.held) :
    a / pageSize ∈ c.vmm.pmm.usedSet ∧ ¬c.vmm.IsTable root a :=
  (h.ledger a (h.fresh a ha).1).mpr (.inr ha)

variable {m' m : Vmm}

/-- A step of `vmm.c` that changes the pages as described keeps the invariant. -/
theorem Inv.evolves (h : Inv used₀ root c) (hev : c.vmm.Evolves m' root)
    (hmapped : ∀ {n e}, n < userPages → m'.mapped root n = some e → e.addr ∈ c.held)
    (hinj : ∀ {n n' e e'}, n < userPages → n' < userPages → m'.mapped root n = some e →
      m'.mapped root n' = some e' → e.addr = e'.addr → n = n') :
    Inv used₀ root { c with vmm := m' } where
  space := hev.space
  nodup := h.nodup
  fresh := h.fresh
  mapped_held := hmapped
  inj := hinj
  ledger := fun a ha => (hev.others_eq a ha).trans (h.ledger a ha)
  zero := hev.zero_mono h.zero
  kernel := by
    rw [hev.kernel_eq]
    exact h.kernel

/-- A step of `vmm.c` that maps no further page keeps the invariant. -/
theorem Inv.evolves_of_mapped (h : Inv used₀ root c) (hev : c.vmm.Evolves m' root)
    (hold : ∀ {n e}, n < userPages → m'.mapped root n = some e → c.vmm.mapped root n = some e) :
    Inv used₀ root { c with vmm := m' } :=
  h.evolves hev (fun hn he => h.mapped_held hn (hold hn he))
    (fun hn hn' he he' => h.inj hn hn' (hold hn he) (hold hn' he'))

/-- The pages are untouched by the allocator. -/
theorem mapped_congr (hmem : m'.mem = m.mem) (n : ℕ) : m'.mapped root n = m.mapped root n := by
  rw [Vmm.mapped, Vmm.mapped, Vmm.leaf, Vmm.leaf, Vmm.entry, Vmm.entry, Vmm.table, Vmm.table, hmem]

theorem step_obtain_mem (hinv : c.vmm.pmm.Inv) : (c.step root .obtain).vmm.mem = c.vmm.mem := by
  rw [step]
  split <;> exact (Vmm.pmmAllocFrame_spec hinv).mem_eq

section

variable (h : Inv used₀ root c)
include h

theorem Inv.obtain : Inv used₀ root (c.step root .obtain) := by
  have hr := Vmm.pmmAllocFrame_spec h.space.pmm
  have hmapped : ∀ n, _ = c.vmm.mapped root n := mapped_congr hr.mem_eq
  have hagree : ∀ a, c.vmm.IsTable root a → _ = c.vmm.mem a := fun a _ => congrFun hr.mem_eq a
  rw [step]
  split
  · rename_i hnull
    exact h.evolves_of_mapped (h.space.allocFailed hr hnull) fun _ he => (hmapped _).symm.trans he
  rename_i hnull
  obtain ⟨haddr, hnot, -, hused, -⟩ := hr.frameAddr h.space.total_le hnull
  -- the frame was free, so nobody held it and it was no table
  have hnew : ¬(c.vmm.pmmAllocFrame.1 / pageSize ∈ used₀ ∨ c.vmm.pmmAllocFrame.1 ∈ c.held) :=
    fun hc => hnot ((h.ledger _ haddr).mpr hc).1
  rw [not_or] at hnew
  have htables : ∀ a, c.vmm.IsTable root a → a / pageSize ∈ c.vmm.pmmAllocFrame.2.pmm.usedSet :=
    fun a ⟨_, hp, ht⟩ => hr.used_mono (h.space.used hp ht).2
  exact
    { space := h.space.of_agree hagree hr.inv hr.total_eq htables
      nodup := nodup_cons.mpr ⟨hnew.2, h.nodup⟩
      fresh := by
        intro a ha
        rcases mem_cons.mp ha with rfl | ha
        · exact ⟨haddr, hnew.1⟩
        · exact h.fresh a ha
      mapped_held := fun hn he =>
        mem_cons_of_mem _ (h.mapped_held hn ((hmapped _).symm.trans he))
      inj := fun hn hn' he he' =>
        h.inj hn hn' ((hmapped _).symm.trans he) ((hmapped _).symm.trans he')
      ledger := by
        intro a ha
        rw [Vmm.isTable_of_agree hagree, hused, Finset.mem_insert, mem_cons, ha.div_eq_iff haddr]
        by_cases hra : a = c.vmm.pmmAllocFrame.1
        · subst hra
          simpa using fun ⟨_, hp, ht⟩ => hnot (h.space.used hp ht).2
        · simpa [hra] using h.ledger a ha
      zero := hr.used_mono h.zero
      kernel := by
        rw [hr.kernel_eq]
        exact h.kernel }

theorem Inv.release (ha : a ∈ c.held) (hmaps : ¬c.vmm.MapsTo root a) :
    Inv used₀ root (c.step root (.release a)) := by
  obtain ⟨haddr, hfresh⟩ := h.fresh a ha
  obtain ⟨-, hnot⟩ := h.held_spec ha
  have hpost := haddr.pmmFreeFrame h.space.pmm
  have hkeep : ∀ {b}, FrameAddr b → b ≠ a → (b / pageSize ∈ (c.vmm.pmm.pmmFreeFrame a).usedSet ↔
      b / pageSize ∈ c.vmm.pmm.usedSet) := by
    intro b hb hne
    rw [hb.mem_pmmFreeFrame haddr h.space.pmm, and_iff_right hne]
  have htables : ∀ b, c.vmm.IsTable root b → b / pageSize ∈ (c.vmm.pmm.pmmFreeFrame a).usedSet := by
    rintro b ⟨p, hp, ht⟩
    obtain ⟨hb, hused⟩ := h.space.used hp ht
    exact (hkeep hb fun heq => hnot (heq ▸ ⟨p, hp, ht⟩)).mpr hused
  exact
    { h with
      space := h.space.of_agree (fun _ _ => rfl) hpost.inv hpost.total_eq htables
      nodup := h.nodup.erase a
      fresh := fun b hb => h.fresh b (mem_of_mem_erase hb)
      mapped_held := by
        intro n e hn he
        refine (mem_erase_of_ne ?_).mpr (h.mapped_held hn he)
        exact fun heq => hmaps ⟨n, e, hn, he, heq⟩
      ledger := by
        intro b hb
        show (b / pageSize ∈ (c.vmm.pmm.pmmFreeFrame a).usedSet ∧ _) ↔ (_ ∨ b ∈ c.held.erase a)
        by_cases hba : b = a
        · subst hba
          rw [hpost.used_eq]
          simp [hfresh, h.nodup.not_mem_erase]
        · rw [hkeep hb hba, mem_erase_of_ne hba]
          exact h.ledger b hb
      zero := haddr.zero_mem_pmmFreeFrame h.space.pmm h.zero }

theorem Inv.step {op : SpaceOp} (hop : c.Allowed root op) : Inv used₀ root (c.step root op) := by
  cases op with
  | obtain => exact h.obtain
  | mapPage virt phys flags =>
    obtain ⟨hv, hf, hheld, honce⟩ := hop
    have haddr := (h.fresh phys hheld).1
    rcases h.space.vmmMapPage hv haddr flags with ⟨-, hset⟩ | ⟨-, hgrows⟩
    · -- the page now maps `phys`, which no other page does
      have hphys : ∀ {e}, some (Pte.leaf phys flags) = some e → e.addr = phys := fun heq =>
        some.inj heq ▸ Pte.addr_leaf haddr hf
      refine h.evolves hset.evolves (fun hn he => ?_) fun hn hn' he he' heq => ?_
      · rcases hset.cases hn he with ⟨-, heq⟩ | ⟨-, he⟩
        · rwa [hphys heq]
        · exact h.mapped_held hn he
      · rcases hset.cases hn he with ⟨h1, h2⟩ | ⟨h1, h2⟩ <;>
          rcases hset.cases hn' he' with ⟨h1', h2'⟩ | ⟨h1', h2'⟩
        · rw [h1, h1']
        · exact absurd (heq.symm.trans (hphys h2)) (honce _ _ hn' h1' h2')
        · exact absurd (heq.trans (hphys h2')) (honce _ _ hn h1 h2)
        · exact h.inj hn hn' h2 h2' heq
    · exact h.evolves_of_mapped hgrows.evolves fun hn he => (hgrows.mapped_eq hn).symm.trans he
  | unmapPage virt =>
    obtain ⟨-, hset⟩ := h.space.vmmUnmapPage hop
    refine h.evolves_of_mapped hset.evolves fun hn he => ?_
    exact ((hset.cases hn he).resolve_left fun hc => nomatch hc.2).2
  | release a => exact h.release hop.1 hop.2

theorem Inv.run {ops : List SpaceOp} (hops : c.AllowedRun root ops) :
    Inv used₀ root (c.run root ops) := by
  induction ops generalizing c with
  | nil => exact h
  | cons op ops ih => exact ih (h.step hops.1) hops.2

end

theorem create_inv (hm : m.Created m.vmmCreateAddressSpace) (hzero : 0 ∈ m.pmm.usedSet)
    (hkernel : m.gKernelPml4 / pageSize ∈ m.pmm.usedSet) :
    Inv m.pmm.usedSet m.vmmCreateAddressSpace.1 (create m) where
  space := hm.space
  nodup := nodup_nil
  fresh := fun _ ha => nomatch ha
  mapped_held := fun hn he => nomatch (hm.mapped_eq hn).symm.trans he
  inj := fun hn _ he => nomatch (hm.mapped_eq hn).symm.trans he
  ledger := by
    intro a ha
    have hroot := (hm.space.used userPath_nil rfl).1
    show (a / pageSize ∈ m.vmmCreateAddressSpace.2.pmm.usedSet ∧
      ¬m.vmmCreateAddressSpace.2.IsTable m.vmmCreateAddressSpace.1 a) ↔ (_ ∨ a ∈ [])
    rw [hm.isTable_iff, hm.used_eq, Finset.mem_insert, ha.div_eq_iff hroot]
    by_cases hra : a = m.vmmCreateAddressSpace.1
    · subst hra
      simp [hm.fresh]
    · simp [hra]
  zero := by
    show 0 ∈ m.vmmCreateAddressSpace.2.pmm.usedSet
    rw [hm.used_eq]
    exact Finset.mem_insert_of_mem hzero
  kernel := by
    show m.vmmCreateAddressSpace.2.gKernelPml4 / pageSize ∈ _
    rw [hm.kernel_eq]
    exact hkernel

/-- The owner's first frame is mapped nowhere. -/
theorem mapped_create_obtain (hm : m.Created m.vmmCreateAddressSpace) {n : ℕ} (hn : n < userPages) :
    ((create m).step root .obtain).vmm.mapped m.vmmCreateAddressSpace.1 n = none := by
  rw [mapped_congr (step_obtain_mem (c := create m) hm.space.pmm)]
  exact hm.mapped_eq hn

/-! ## Destruction -/

theorem Inv.single (h : Inv used₀ root c) : c.vmm.Single root where
  not_leaf := by
    rintro a ⟨n, e, hn, he, rfl⟩
    exact (h.held_spec (h.mapped_held hn he)).2
  inj := h.inj

/-- The root is not the kernel's. -/
theorem Inv.root_ne_kernel (h : Inv used₀ root c) : root ≠ c.vmm.gKernelPml4 := by
  intro heq
  have hroot := (h.space.used userPath_nil rfl).1
  refine ((h.ledger root hroot).mpr (.inl ?_)).2 ⟨[], userPath_nil, rfl⟩
  rw [heq]
  exact h.kernel

theorem Inv.frameAddr_userFrames (h : Inv used₀ root c) (ha : a ∈ Vmm.userFrames c.vmm.mem root) :
    FrameAddr a := by
  rcases ((h.space.userFrames h.single).2 a).mp ha with ⟨p, hp, ht⟩ | ⟨n, e, hn, he, rfl⟩
  · exact (h.space.used hp ht).1
  · exact (h.fresh _ (h.mapped_held hn he)).1

/-- The address of a frame other than frame 0. -/
theorem Inv.frameAddr_mul (h : Inv used₀ root c) {f : ℕ} (hf0 : f ≠ 0)
    (hf : f < c.vmm.pmm.gTotalFrames) : FrameAddr (f * pageSize) ∧ f * pageSize / pageSize = f := by
  have htotal := h.space.total_le
  refine ⟨⟨Nat.mul_mod_left f pageSize, ?_, ?_⟩, Nat.mul_div_cancel f (by decide)⟩ <;>
    rw [pageSize] <;> omega

/-- What is still in use after the address space is gone: the frames in use before it was made, and
the frames held that no page mapped. -/
theorem Inv.used_destroy (h : Inv used₀ root c) (hzero : 0 ∈ used₀)
    (hlt : ∀ f ∈ used₀, f < c.vmm.pmm.gTotalFrames) (f : ℕ) :
    (f ∈ c.vmm.pmm.usedSet ∧ ∀ a ∈ Vmm.userFrames c.vmm.mem root, f ≠ a / pageSize) ↔
      f ∈ used₀ ∨ ∃ a ∈ c.held, ¬c.vmm.MapsTo root a ∧ f = a / pageSize := by
  obtain ⟨-, hmem⟩ := h.space.userFrames h.single
  have hframe := fun a ha => h.frameAddr_userFrames (a := a) ha
  by_cases hf0 : f = 0
  · subst hf0
    exact iff_of_true ⟨h.zero, fun a ha heq => (hframe a ha).div_ne_zero heq.symm⟩ (.inl hzero)
  by_cases hft : f < c.vmm.pmm.gTotalFrames
  swap
  · refine iff_of_false (fun hu => hft (Pmm.mem_usedSet.mp hu.1).1) ?_
    rintro (hu | ⟨a, ha, -, rfl⟩)
    · exact hft (hlt f hu)
    · exact hft (Pmm.mem_usedSet.mp (h.held_spec ha).1).1
  obtain ⟨haddr, hdiv⟩ := h.frameAddr_mul hf0 hft
  have hself : ∀ {a}, FrameAddr a → f = a / pageSize → a = f * pageSize :=
    fun ha heq => ha.eq_of_div_eq haddr (by rw [hdiv, heq])
  have hledger := h.ledger _ haddr
  rw [hdiv] at hledger
  constructor
  · rintro ⟨hu, hall⟩
    have hnot : ¬(c.vmm.IsTable root (f * pageSize) ∨ c.vmm.MapsTo root (f * pageSize)) :=
      fun hc => hall _ ((hmem _).mpr hc) hdiv.symm
    rw [not_or] at hnot
    rcases hledger.mp ⟨hu, hnot.1⟩ with hu0 | hheld
    · exact .inl hu0
    · exact .inr ⟨_, hheld, hnot.2, hdiv.symm⟩
  · intro hor
    have hkeep : (f ∈ used₀ ∨ f * pageSize ∈ c.held) ∧ ¬c.vmm.MapsTo root (f * pageSize) := by
      rcases hor with hu0 | ⟨a, ha, hna, heq⟩
      · refine ⟨.inl hu0, ?_⟩
        rintro ⟨n, e, hn, he, heq⟩
        have hheld := h.mapped_held hn he
        rw [heq] at hheld
        exact (h.fresh _ hheld).2 (by rw [hdiv]; exact hu0)
      · obtain rfl := hself (h.fresh a ha).1 heq
        exact ⟨.inr ha, hna⟩
    obtain ⟨hu, hnt⟩ := hledger.mpr hkeep.1
    refine ⟨hu, fun a ha heq => ?_⟩
    obtain rfl := hself (hframe a ha) heq
    rcases (hmem _).mp ha with hta | hma
    · exact hnt hta
    · exact hkeep.2 hma

/-- Destroying an address space frees its user tables, its root and the frames it maps, each once and
nothing else, and leaves in use the frames that were in use before it was made together with those its
owner took, did not give back and no longer maps. -/
theorem destroy_frees_user_half (m₀ : Vmm) (hpmm : m₀.pmm.Inv)
    (htotal : m₀.pmm.gTotalFrames ≤ 2 ^ 40) (hzero : 0 ∈ m₀.pmm.usedSet)
    (hkernel : m₀.gKernelPml4 / pageSize ∈ m₀.pmm.usedSet)
    (hroot : m₀.vmmCreateAddressSpace.1 ≠ 0) (ops : List SpaceOp)
    (hops : (create m₀).AllowedRun m₀.vmmCreateAddressSpace.1 ops) :
    let root := m₀.vmmCreateAddressSpace.1
    let c := (create m₀).run root ops
    let d := c.vmm.vmmDestroyAddressSpace root
    (∃ l, d.freed = l ++ c.vmm.freed ∧ l.Nodup ∧
        ∀ a, a ∈ l ↔ c.vmm.IsTable root a ∨ c.vmm.MapsTo root a) ∧
      ∀ f, f ∈ d.pmm.usedSet ↔
        f ∈ m₀.pmm.usedSet ∨ ∃ a ∈ c.held, ¬c.vmm.MapsTo root a ∧ f = a / pageSize := by
  have hcreated := Vmm.vmmCreateAddressSpace_spec hpmm htotal hroot
  intro root c d
  have h : Inv m₀.pmm.usedSet root c := (create_inv hcreated hzero hkernel).run hops
  obtain ⟨hnodup, hmem⟩ := h.space.userFrames h.single
  have hd : d = Vmm.freeAll (Vmm.userFrames c.vmm.mem root) c.vmm :=
    Vmm.vmmDestroyAddressSpace_eq hroot h.root_ne_kernel
  refine ⟨⟨(Vmm.userFrames c.vmm.mem root).reverse, ?_, nodup_reverse.mpr hnodup, fun a => ?_⟩,
    fun f => ?_⟩
  · rw [hd, Vmm.freeAll_freed]
  · rw [mem_reverse, hmem]
  · rw [hd, (Vmm.freeAll_used h.space.pmm fun a ha => (h.frameAddr_userFrames ha).valid).2]
    refine h.used_destroy hzero (fun g hg => ?_) f
    by_cases hg0 : g = 0
    · rw [hg0]
      exact (Pmm.mem_usedSet.mp h.zero).1
    · have haddr : FrameAddr (g * pageSize) := by
        have hlt := (Pmm.mem_usedSet.mp hg).1
        refine ⟨Nat.mul_mod_left g pageSize, ?_, ?_⟩ <;> rw [pageSize] <;> omega
      have hdiv : g * pageSize / pageSize = g := Nat.mul_div_cancel g (by decide)
      have hu := ((h.ledger _ haddr).mpr (.inl (by rwa [hdiv]))).1
      rw [hdiv] at hu
      exact (Pmm.mem_usedSet.mp hu).1

/-- The machine of `smallVmm` with every allocation granted. -/
def smallMachine : Vmm := { Vmm.smallVmm with denials := [] }

theorem smallMachine_ready :
    smallMachine.pmm.Inv ∧ smallMachine.pmm.gTotalFrames ≤ 2 ^ 40 ∧ 0 ∈ smallMachine.pmm.usedSet ∧
      smallMachine.gKernelPml4 / pageSize ∈ smallMachine.pmm.usedSet ∧
      smallMachine.vmmCreateAddressSpace.1 = 0x101000 :=
  ⟨(Pmm.pmmInit_inv _ _).1, by decide +kernel, by decide +kernel, by decide +kernel,
    by decide +kernel⟩

/-- Taking a frame and mapping it is in scope on a new address space. -/
theorem smallMachine_map_allowed :
    ((create smallMachine).step 0x101000 .obtain).Allowed 0x101000
      (.mapPage 0x400000 0x102000 (vmmFlagWritable ||| vmmFlagUser)) := by
  obtain ⟨hpmm, htotal, -, -, hroot⟩ := smallMachine_ready
  have hcreated := Vmm.vmmCreateAddressSpace_spec hpmm htotal (by rw [hroot]; decide)
  refine ⟨by decide, by decide, by decide +kernel, fun n e hn _ he => ?_⟩
  rw [← hroot, mapped_create_obtain hcreated hn] at he
  cases he

/-- The frames in use after destruction need not be those before creation: a frame mapped and then
unmapped stays with its owner. -/
theorem destroy_keeps_unmapped_frame :
    ¬∀ (m₀ : Vmm) (ops : List SpaceOp), m₀.pmm.Inv → m₀.pmm.gTotalFrames ≤ 2 ^ 40 →
      0 ∈ m₀.pmm.usedSet → m₀.gKernelPml4 / pageSize ∈ m₀.pmm.usedSet →
      m₀.vmmCreateAddressSpace.1 ≠ 0 →
      (create m₀).AllowedRun m₀.vmmCreateAddressSpace.1 ops →
      (((create m₀).run m₀.vmmCreateAddressSpace.1 ops).vmm.vmmDestroyAddressSpace
        m₀.vmmCreateAddressSpace.1).pmm.usedSet = m₀.pmm.usedSet := by
  intro hall
  obtain ⟨hpmm, htotal, hzero, hkernel, hroot⟩ := smallMachine_ready
  have hused := hall smallMachine
    [.obtain, .mapPage 0x400000 0x102000 (vmmFlagWritable ||| vmmFlagUser), .unmapPage 0x400000]
    hpmm htotal hzero hkernel (by rw [hroot]; decide)
    (by rw [hroot]; exact ⟨trivial, smallMachine_map_allowed, show _ < _ by decide, trivial⟩)
  rw [hroot] at hused
  exact absurd (Finset.ext_iff.mp hused 0x102) (by decide +kernel)

/-- One frame taken and mapped: after destruction the frames in use are those before creation. -/
theorem destroy_frees_user_half_small :
    (((create smallMachine).run 0x101000
        [.obtain, .mapPage 0x400000 0x102000 (vmmFlagWritable ||| vmmFlagUser)]).vmm
          |>.vmmDestroyAddressSpace 0x101000).pmm.usedSet = smallMachine.pmm.usedSet := by
  obtain ⟨hpmm, htotal, hzero, hkernel, hroot⟩ := smallMachine_ready
  have hdestroy := (destroy_frees_user_half smallMachine hpmm htotal hzero hkernel
    (by rw [hroot]; decide)
    [.obtain, .mapPage 0x400000 0x102000 (vmmFlagWritable ||| vmmFlagUser)]
    (by rw [hroot]; exact ⟨trivial, smallMachine_map_allowed, trivial⟩)).2
  rw [hroot] at hdestroy
  ext f
  rw [hdestroy f]
  refine or_iff_left ?_
  rintro ⟨a, ha, hna, -⟩
  have hheld : ((create smallMachine).run 0x101000
      [.obtain, .mapPage 0x400000 0x102000 (vmmFlagWritable ||| vmmFlagUser)]).held
        = [0x102000] := by
    decide +kernel
  rw [hheld, mem_singleton] at ha
  subst ha
  refine hna ⟨0x400, Pte.leaf 0x102000 (vmmFlagWritable ||| vmmFlagUser), by decide, ?_, ?_⟩
  · decide +kernel
  · decide +kernel

end SpaceClient

end NovaOS.Mem
