import Mathlib.Data.List.Infix

/-!
# Radix trees of tables in memory

A memory holds tables of entries, `mem t i` being entry `i` of the table at address `t`. `child`
reads an entry as a reference to another table. A path of indices from a root is walked by following
references, and `Sep` says that distinct paths reach distinct tables: the tables form a tree in
which each is referenced once.

The lemmas describe the four updates a tree-building program makes: rewriting an entry without
moving its reference, linking a fresh empty table, rewriting an entry off every path, and unlinking a
table with no children.
-/

namespace NovaOS.Lib.Radix

open List Option

universe u v w

variable {α : Type u} {ι : Type v} {ε : Type w}

/-- The table reached from `root` along a path of indices. -/
def walk (child : ε → Option α) (mem : α → ι → ε) (root : α) : List ι → Option α
  | [] => some root
  | i :: p => (child (mem root i)).bind fun t => walk child mem t p

/-- Entry `i` of the table reached along a path. -/
def entry (child : ε → Option α) (mem : α → ι → ε) (root : α) (p : List ι) (i : ι) : Option ε :=
  (walk child mem root p).map fun t => mem t i

section Walk

variable (child : ε → Option α) (mem : α → ι → ε)

@[simp] theorem walk_nil (root : α) : walk child mem root [] = some root := rfl

theorem walk_cons (root : α) (i : ι) (p : List ι) :
    walk child mem root (i :: p) = (child (mem root i)).bind fun t => walk child mem t p := rfl

theorem walk_append (root : α) (p q : List ι) :
    walk child mem root (p ++ q) = (walk child mem root p).bind fun t => walk child mem t q := by
  induction p generalizing root with
  | nil => rfl
  | cons i p ih =>
    rw [cons_append, walk_cons, walk_cons, bind_assoc]
    congr 1
    funext t
    exact ih t

theorem walk_concat (root : α) (p : List ι) (i : ι) :
    walk child mem root (p ++ [i]) = (walk child mem root p).bind fun t => child (mem t i) := by
  rw [walk_append]
  congr 1
  funext t
  rw [walk_cons]
  cases child (mem t i) <;> rfl

/-- A walk is unchanged when every reference it reads is. -/
theorem walk_congr {mem' : α → ι → ε} {root : α} {q : List ι}
    (h : ∀ p j t, (p ++ [j]) <+: q → walk child mem root p = some t →
      child (mem' t j) = child (mem t j)) : walk child mem' root q = walk child mem root q := by
  induction q using reverseRecOn with
  | nil => rfl
  | append_singleton q j ih =>
    have hq : walk child mem' root q = walk child mem root q :=
      ih fun p j' t hp => h p j' t (hp.trans (prefix_append q [j]))
    rw [walk_concat, walk_concat, hq]
    cases hw : walk child mem root q with
    | none => rfl
    | some t => exact h q j t prefix_rfl hw

end Walk

/-! ## Single-table updates -/

section Update

variable [DecidableEq α] [DecidableEq ι]

/-- `mem[t][i] = e`. -/
def setEntry (mem : α → ι → ε) (t : α) (i : ι) (e : ε) : α → ι → ε :=
  fun t' i' => if t' = t ∧ i' = i then e else mem t' i'

/-- `mem[t][i] = e` for every `i`. -/
def fill (mem : α → ι → ε) (t : α) (e : ε) : α → ι → ε :=
  fun t' i' => if t' = t then e else mem t' i'

@[simp] theorem setEntry_self (mem : α → ι → ε) (t : α) (i : ι) (e : ε) :
    setEntry mem t i e t i = e := by
  simp [setEntry]

variable {t t' : α}

theorem setEntry_of_ne (mem : α → ι → ε) {i i' : ι} (e : ε) (h : ¬(t' = t ∧ i' = i)) :
    setEntry mem t i e t' i' = mem t' i' :=
  if_neg h

omit [DecidableEq ι] in
@[simp] theorem fill_self (mem : α → ι → ε) (t : α) (e : ε) (i : ι) : fill mem t e t i = e := by
  simp [fill]

omit [DecidableEq ι] in
theorem fill_of_ne (mem : α → ι → ε) (e : ε) (i : ι) (h : t' ≠ t) : fill mem t e t' i = mem t' i :=
  if_neg h

end Update

/-! ## Trees

`dom` is the set of paths at which the tree has tables. -/

section Tree

variable (child : ε → Option α) (dom : List ι → Prop)

/-- Distinct paths reach distinct tables. -/
def Sep (mem : α → ι → ε) (root : α) : Prop :=
  ∀ p q t, dom p → dom q → walk child mem root p = some t → walk child mem root q = some t → p = q

/-- A set of paths closed under prefixes. -/
def PrefixClosed : Prop := ∀ p q, p <+: q → dom q → dom p

variable {child dom} {mem : α → ι → ε} {root t : α} {p : List ι} {i : ι} {e : ε}

variable {q : List ι}

/-- Memories with the same walks are trees alike. -/
theorem Sep.congr {mem' : α → ι → ε} (hsep : Sep child dom mem root)
    (h : ∀ q, dom q → walk child mem' root q = walk child mem root q) : Sep child dom mem' root :=
  fun p q t hp hq hwp hwq => hsep p q t hp hq ((h p hp).symm.trans hwp) ((h q hq).symm.trans hwq)

/-- The path to a prefix's table stays in the tree. -/
theorem PrefixClosed.of_concat (hdom : PrefixClosed dom) {j : ι} (h : dom (q ++ [j])) : dom q :=
  hdom q (q ++ [j]) (prefix_append q [j]) h

/-- A path does not extend itself. -/
private theorem not_concat_isPrefix (p : List ι) (i : ι) : ¬(p ++ [i]) <+: p := by
  intro h
  have hlen := h.length_le
  rw [length_append, length_singleton] at hlen
  omega

/-- A path that extends `p ++ [i]` properly continues with some index. -/
private theorem concat_prefix_cases {p : List ι} {i : ι} (h : (p ++ [i]) <+: q) :
    q = p ++ [i] ∨ ∃ j, (p ++ [i] ++ [j]) <+: q := by
  obtain ⟨r, rfl⟩ := h
  cases r with
  | nil => exact .inl (append_nil _)
  | cons j r => exact .inr ⟨j, ⟨r, by simp⟩⟩

/-- A walk through a missing reference is missing. -/
private theorem walk_eq_none_of_isPrefix {p : List ι} (h : p <+: q)
    (hw : walk child mem root p = none) : walk child mem root q = none := by
  obtain ⟨r, rfl⟩ := h
  rw [walk_append, hw]
  rfl

variable [DecidableEq α] [DecidableEq ι]

/-- Rewriting an entry without moving its reference changes no walk. -/
theorem walk_setEntry_same (he : child e = child (mem t i)) (q : List ι) :
    walk child (setEntry mem t i e) root q = walk child mem root q := by
  refine walk_congr child mem fun p' j t' _ _ => ?_
  by_cases h : t' = t ∧ j = i
  · obtain ⟨rfl, rfl⟩ := h
    rw [setEntry_self, he]
  · rw [setEntry_of_ne mem e h]

/-- A write at `(p, i)` leaves every walk that does not pass there. -/
theorem walk_setEntry_of_not_isPrefix (hdom : PrefixClosed dom) (hsep : Sep child dom mem root)
    (hp : dom p) (hw : walk child mem root p = some t) (hq : dom q) (hnot : ¬(p ++ [i]) <+: q) :
    walk child (setEntry mem t i e) root q = walk child mem root q := by
  refine walk_congr child mem fun p' j t' hpre hw' => ?_
  have hp' : dom p' := hdom.of_concat (hdom _ _ hpre hq)
  by_cases h : t' = t ∧ j = i
  · obtain ⟨rfl, rfl⟩ := h
    obtain rfl := hsep p p' t' hp hp' hw hw'
    exact absurd hpre hnot
  · rw [setEntry_of_ne mem e h]

variable {f : α} {z : ε}

omit [DecidableEq ι] in
/-- Filling a table that no path reaches changes no walk. -/
theorem walk_fill_of_unreached (hdom : PrefixClosed dom)
    (hf : ∀ q, dom q → walk child mem root q ≠ some f) (hq : dom q) :
    walk child (fill mem f z) root q = walk child mem root q := by
  refine walk_congr child mem fun p' j t' hpre hw' => ?_
  have hp' : dom p' := hdom.of_concat (hdom _ _ hpre hq)
  have hne : t' ≠ f := by
    rintro rfl
    exact hf p' hp' hw'
  rw [fill_of_ne mem z j hne]

omit [DecidableEq ι] in
/-- Filling an unreached table keeps the tree. -/
theorem Sep.fill (hdom : PrefixClosed dom) (hsep : Sep child dom mem root)
    (hf : ∀ q, dom q → walk child mem root q ≠ some f) : Sep child dom (fill mem f z) root :=
  hsep.congr fun _ hq => walk_fill_of_unreached hdom hf hq

/-- The entries after a write that does not change the walk to their table. -/
theorem entry_setEntry (hsep : Sep child dom mem root) (hp : dom p)
    (hw : walk child mem root p = some t) (hq : dom q)
    (hsame : walk child (setEntry mem t i e) root q = walk child mem root q) (j : ι) :
    entry child (setEntry mem t i e) root q j =
      if q = p ∧ j = i then some e else entry child mem root q j := by
  rw [entry, entry, hsame]
  cases hs : walk child mem root q with
  | none =>
    rw [if_neg]
    · rfl
    · rintro ⟨rfl, -⟩
      exact nomatch hs.symm.trans hw
  | some s =>
    simp only [map_some]
    by_cases hst : s = t ∧ j = i
    · obtain ⟨rfl, rfl⟩ := hst
      rw [setEntry_self, if_pos ⟨hsep q p s hq hp hs hw, rfl⟩]
    · rw [setEntry_of_ne _ _ hst, if_neg]
      rintro ⟨rfl, hj⟩
      exact hst ⟨mem_unique hs hw, hj⟩

/-- Rewriting an entry without moving its reference keeps the tree. -/
theorem Sep.setEntry_same (hsep : Sep child dom mem root) (he : child e = child (mem t i)) :
    Sep child dom (setEntry mem t i e) root :=
  hsep.congr fun q _ => walk_setEntry_same he q

/-! ### Linking a fresh table -/

variable (child dom mem root t p i) in
/-- The table `f`, on no path and filled with `z`, is to be linked by `e` at the missing reference `i`
of the table at `p`. -/
structure Links (f : α) (e z : ε) : Prop where
  closed : PrefixClosed dom
  sep : Sep child dom mem root
  path : dom (p ++ [i])
  walk : walk child mem root p = some t
  missing : child (mem t i) = none
  fresh : ∀ q, dom q → Radix.walk child mem root q ≠ some f
  child_new : child e = some f
  child_fill : child z = none

section Links

variable {f : α} {z : ε} (h : Links child dom mem root t p i f e z) {q : List ι}
include h

omit [DecidableEq α] [DecidableEq ι] in
/-- No old path passes the missing reference. -/
theorem Links.walk_eq_none (hpre : (p ++ [i]) <+: q) : Radix.walk child mem root q = none := by
  refine walk_eq_none_of_isPrefix hpre ?_
  rw [walk_concat, h.walk, bind_some, h.missing]

/-- Linking adds exactly the new table. -/
theorem Links.walk_eq (hq : dom q) :
    Radix.walk child (setEntry (fill mem f z) t i e) root q =
      if q = p ++ [i] then some f else Radix.walk child mem root q := by
  have hp : dom p := h.closed.of_concat h.path
  have hwfill : ∀ q, dom q → Radix.walk child (fill mem f z) root q = Radix.walk child mem root q :=
    fun q hq => walk_fill_of_unreached h.closed h.fresh hq
  have hwp : Radix.walk child (fill mem f z) root p = some t := (hwfill p hp).trans h.walk
  have htf : f ≠ t := fun heq => h.fresh p hp (heq ▸ h.walk)
  have hsep := h.sep.fill (z := z) h.closed h.fresh
  -- the path to `t` itself is not affected by the write
  have hwp' : Radix.walk child (setEntry (fill mem f z) t i e) root p = some t := by
    rw [walk_setEntry_of_not_isPrefix h.closed hsep hp hwp hp (not_concat_isPrefix p i), hwp]
  have hnew : Radix.walk child (setEntry (fill mem f z) t i e) root (p ++ [i]) = some f := by
    rw [walk_concat, hwp', bind_some, setEntry_self, h.child_new]
  by_cases hpre : (p ++ [i]) <+: q
  · rcases concat_prefix_cases hpre with rfl | ⟨j, hj⟩
    · rw [if_pos rfl, hnew]
    · have hne : q ≠ p ++ [i] := by
        rintro rfl
        exact not_concat_isPrefix _ j hj
      rw [if_neg hne, h.walk_eq_none hpre]
      refine walk_eq_none_of_isPrefix hj ?_
      rw [walk_concat, hnew, bind_some, setEntry_of_ne _ _ fun h => htf h.1, fill_self,
        h.child_fill]
  · have hne : q ≠ p ++ [i] := by
      rintro rfl
      exact hpre prefix_rfl
    rw [if_neg hne, walk_setEntry_of_not_isPrefix h.closed hsep hp hwp hq hpre, hwfill q hq]

/-- Linking moves no table. -/
theorem Links.walk_mono (hq : dom q) {s : α} (hs : Radix.walk child mem root q = some s) :
    Radix.walk child (setEntry (fill mem f z) t i e) root q = some s := by
  rw [h.walk_eq hq, if_neg, hs]
  rintro rfl
  exact nomatch (h.walk_eq_none prefix_rfl).symm.trans hs

/-- The tables after a link. -/
theorem Links.reached_iff (a : α) :
    (∃ q, dom q ∧ Radix.walk child (setEntry (fill mem f z) t i e) root q = some a) ↔
      a = f ∨ ∃ q, dom q ∧ Radix.walk child mem root q = some a := by
  constructor
  · rintro ⟨q, hq, hs⟩
    rw [h.walk_eq hq] at hs
    split at hs
    · exact .inl (some.inj hs).symm
    · exact .inr ⟨q, hq, hs⟩
  · rintro (rfl | ⟨q, hq, hs⟩)
    · exact ⟨p ++ [i], h.path, by rw [h.walk_eq h.path, if_pos rfl]⟩
    · exact ⟨q, hq, h.walk_mono hq hs⟩

/-- Linking keeps the tree. -/
theorem Links.sep_link : Sep child dom (setEntry (fill mem f z) t i e) root := by
  intro q q' s hq hq' hwq hwq'
  rw [h.walk_eq hq] at hwq
  rw [h.walk_eq hq'] at hwq'
  by_cases hnew : q = p ++ [i] <;> by_cases hnew' : q' = p ++ [i]
  · rw [hnew, hnew']
  · rw [if_pos hnew] at hwq
    rw [if_neg hnew', ← hwq] at hwq'
    exact absurd hwq' (h.fresh q' hq')
  · rw [if_pos hnew'] at hwq'
    rw [if_neg hnew, ← hwq'] at hwq
    exact absurd hwq (h.fresh q hq)
  · rw [if_neg hnew] at hwq
    rw [if_neg hnew'] at hwq'
    exact h.sep q q' s hq hq' hwq hwq'

/-- The entries after a link. -/
theorem Links.entry_eq (hq : dom q) (j : ι) :
    entry child (setEntry (fill mem f z) t i e) root q j =
      if q = p ++ [i] then some z else if q = p ∧ j = i then some e else entry child mem root q j := by
  have hp : dom p := h.closed.of_concat h.path
  have hne : f ≠ t := fun heq => h.fresh p hp (heq ▸ h.walk)
  have hw := h.walk_eq hq
  by_cases hnew : q = p ++ [i]
  · rw [if_pos hnew] at hw ⊢
    rw [entry, hw, map_some, setEntry_of_ne _ _ fun hc => hne hc.1, fill_self]
  rw [if_neg hnew] at hw ⊢
  have hfill := fun {q} hq => walk_fill_of_unreached (z := z) (q := q) h.closed h.fresh hq
  rw [entry_setEntry (h.sep.fill h.closed h.fresh) hp ((hfill hp).trans h.walk) hq
    (hw.trans (hfill hq).symm), entry, entry, hfill hq]
  cases hs : Radix.walk child mem root q with
  | none => rfl
  | some s =>
    have hsf : s ≠ f := fun heq => h.fresh q hq (heq ▸ hs)
    rw [map_some, map_some, fill_of_ne _ _ _ hsf]

end Links

/-! ### Unlinking an empty table -/

variable (child dom mem root t p i) in
/-- The table `c`, which refers to no other, is to be unlinked by `e` at `i` of the table at `p`. -/
structure Unlinks (c : α) (e : ε) : Prop where
  closed : PrefixClosed dom
  sep : Sep child dom mem root
  path : dom (p ++ [i])
  walk : walk child mem root p = some t
  child_old : child (mem t i) = some c
  child_new : child e = none
  empty : ∀ j, child (mem c j) = none

section Unlinks

variable {c : α} (h : Unlinks child dom mem root t p i c e) {q : List ι}
include h

omit [DecidableEq α] [DecidableEq ι] in
/-- The table to be unlinked. -/
theorem Unlinks.walk_concat : Radix.walk child mem root (p ++ [i]) = some c := by
  rw [Radix.walk_concat, h.walk, bind_some, h.child_old]

/-- Unlinking removes exactly the table. -/
theorem Unlinks.walk_eq (hq : dom q) :
    Radix.walk child (setEntry mem t i e) root q =
      if q = p ++ [i] then none else Radix.walk child mem root q := by
  have hp : dom p := h.closed.of_concat h.path
  have hwp' : Radix.walk child (setEntry mem t i e) root p = some t := by
    rw [walk_setEntry_of_not_isPrefix h.closed h.sep hp h.walk hp (not_concat_isPrefix p i), h.walk]
  have hgone : Radix.walk child (setEntry mem t i e) root (p ++ [i]) = none := by
    rw [Radix.walk_concat, hwp', bind_some, setEntry_self, h.child_new]
  by_cases hpre : (p ++ [i]) <+: q
  · rw [walk_eq_none_of_isPrefix hpre hgone]
    rcases concat_prefix_cases hpre with rfl | ⟨j, hj⟩
    · rw [if_pos rfl]
    · rw [eq_comm, ite_eq_left_iff]
      intro _
      refine walk_eq_none_of_isPrefix hj ?_
      rw [Radix.walk_concat, h.walk_concat, bind_some, h.empty]
  · have hne : q ≠ p ++ [i] := by
      rintro rfl
      exact hpre prefix_rfl
    rw [if_neg hne, walk_setEntry_of_not_isPrefix h.closed h.sep hp h.walk hq hpre]

/-- The tables that stay were there, and are not the one unlinked. -/
theorem Unlinks.walk_anti (hq : dom q) {s : α}
    (hs : Radix.walk child (setEntry mem t i e) root q = some s) :
    s ≠ c ∧ Radix.walk child mem root q = some s := by
  rw [h.walk_eq hq] at hs
  split at hs
  · cases hs
  · rename_i hne
    refine ⟨?_, hs⟩
    rintro rfl
    exact hne (h.sep q _ s hq h.path hs h.walk_concat)

/-- The tables after an unlink. -/
theorem Unlinks.reached_iff (a : α) :
    (∃ q, dom q ∧ Radix.walk child (setEntry mem t i e) root q = some a) ↔
      a ≠ c ∧ ∃ q, dom q ∧ Radix.walk child mem root q = some a := by
  constructor
  · rintro ⟨q, hq, hs⟩
    exact ⟨(h.walk_anti hq hs).1, q, hq, (h.walk_anti hq hs).2⟩
  · rintro ⟨hne, q, hq, hs⟩
    refine ⟨q, hq, ?_⟩
    rw [h.walk_eq hq, if_neg, hs]
    rintro rfl
    exact hne (mem_unique hs h.walk_concat)

/-- Unlinking keeps the tree. -/
theorem Unlinks.sep_unlink : Sep child dom (setEntry mem t i e) root := fun q q' s hq hq' hs hs' =>
  h.sep q q' s hq hq' (h.walk_anti hq hs).2 (h.walk_anti hq' hs').2

/-- The entries after an unlink. -/
theorem Unlinks.entry_eq (hq : dom q) (j : ι) :
    entry child (setEntry mem t i e) root q j =
      if q = p ++ [i] then none else if q = p ∧ j = i then some e else entry child mem root q j := by
  have hw := h.walk_eq hq
  by_cases hgone : q = p ++ [i]
  · rw [if_pos hgone] at hw ⊢
    rw [entry, hw, map_none]
  · rw [if_neg hgone] at hw ⊢
    exact entry_setEntry h.sep (h.closed.of_concat h.path) h.walk hq hw j

end Unlinks

end Tree

end NovaOS.Lib.Radix
