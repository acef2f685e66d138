import Mathlib.Data.List.Nodup

/-!
# Singly linked lists in memory

Nodes are indices into a table and `next` reads their link field. `Links next p l q` says that following
`next` from `p` leads through the nodes `l` to `q`, where `q` may be a node or an end mark. As for the
doubly linked lists, an update is described by the link fields after it.
-/

namespace NovaOS.Lib

open List Function

universe u

variable {α : Type u}

/-- Following `next` from `p` leads through `l` to `q`. -/
def Links (next : α → α) : (p : α) → List α → (q : α) → Prop
  | p, [], q => p = q
  | p, a :: l, q => p = a ∧ Links next (next a) l q

namespace Links

variable {next next' : α → α} {p q r : α} {l l1 l2 : List α}

theorem congr (h : Links next p l q) (hnext : ∀ a ∈ l, next' a = next a) : Links next' p l q := by
  induction l generalizing p with
  | nil => exact h
  | cons a l ih =>
    refine ⟨h.1, ?_⟩
    rw [hnext a (.head _)]
    exact ih h.2 fun x hx => hnext x (.tail _ hx)

/-- A list splits at any node. -/
theorem append : Links next p (l1 ++ l2) q ↔ ∃ r, Links next p l1 r ∧ Links next r l2 q := by
  induction l1 generalizing p with
  | nil =>
    constructor
    · exact fun h => ⟨p, rfl, h⟩
    · rintro ⟨r, rfl, h⟩
      exact h
  | cons a l1 ih =>
    constructor
    · rintro ⟨hp, hl⟩
      obtain ⟨r, h1, h2⟩ := ih.mp hl
      exact ⟨r, ⟨hp, h1⟩, h2⟩
    · rintro ⟨r, ⟨hp, h1⟩, h2⟩
      exact ⟨hp, ih.mpr ⟨r, h1, h2⟩⟩

/-- A new link at the last node moves the end of the list. -/
theorem update_getLast [DecidableEq α] (h : Links next p l r) (hl : l.Nodup) (hne : l ≠ []) (q : α) :
    Links (update next (l.getLast hne) q) p l q := by
  obtain ⟨front, a, rfl⟩ := l.eq_nil_or_concat'.resolve_left hne
  obtain ⟨b, hfront, hb, -⟩ := append.mp h
  rw [getLast_concat]
  refine append.mpr ⟨b, hfront.congr fun x hx => ?_, hb, ?_⟩
  · have hxa : x ≠ a := (nodup_append.mp hl).2.2 x hx a (mem_singleton.mpr rfl)
    exact update_of_ne hxa _ _
  · exact update_self a q next

/-- The nodes up to an end that is not one of them are determined by the links. -/
theorem unique (h : Links next p l1 q) (h' : Links next p l2 q) (hq : q ∉ l1) (hq' : q ∉ l2) :
    l1 = l2 := by
  induction l1 generalizing p l2 with
  | nil =>
    cases l2 with
    | nil => rfl
    | cons b l2 =>
      obtain rfl : p = q := h
      exact absurd (h'.1 ▸ (.head _)) hq'
  | cons a l1 ih =>
    obtain ⟨rfl, h⟩ := h
    cases l2 with
    | nil =>
      obtain rfl : p = q := h'
      exact absurd (.head _) hq
    | cons b l2 =>
      obtain ⟨rfl, h'⟩ := h'
      rw [ih h h' (fun hm => hq (.tail _ hm)) fun hm => hq' (.tail _ hm)]

/-- A list that ends is not visited twice. -/
theorem nodup (h : Links next p l q) (hq : q ∉ l) : l.Nodup := by
  induction l generalizing p with
  | nil => exact nodup_nil
  | cons a l ih =>
    have hrest : q ∉ l := fun hm => hq (.tail _ hm)
    refine nodup_cons.mpr ⟨fun ha => ?_, ih h.2 hrest⟩
    -- from the second visit on, the list would be the whole list again
    obtain ⟨l1, l2, rfl⟩ := append_of_mem ha
    obtain ⟨r, -, hr⟩ := append.mp h.2
    rw [← hr.1.trans h.1.symm] at h
    have heq := unique h hr hq fun hm => hrest (mem_append_right _ hm)
    have hlength := congrArg length heq
    rw [length_cons, length_append] at hlength
    omega

end Links

end NovaOS.Lib
