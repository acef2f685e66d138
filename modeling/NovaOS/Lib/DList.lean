import Mathlib.Data.List.Nodup

/-!
# Doubly linked lists in memory

Nodes live at addresses; `next` and `prev` read the two link fields. `Seg next prev b p l q` says that
the pointer `p` starts a chain through the nodes `l`, the link before the first being `b` and the link
after the last being `q`. `DList` is a whole list. An update is described by the link fields after it,
so the rules apply to any program that writes those fields.
-/

namespace NovaOS.Lib

open List Option

universe u

variable {α : Type u}

/-- The chain through `l` from `p`, with `b` before it and `q` after it. -/
def Seg (next prev : α → Option α) : (b p : Option α) → List α → (q : Option α) → Prop
  | _, p, [], q => p = q
  | b, p, a :: l, q => p = some a ∧ prev a = b ∧ Seg next prev (some a) (next a) l q

/-- A list: its nodes are distinct and the links at both ends are null. -/
structure DList (next prev : α → Option α) (head : Option α) (l : List α) : Prop where
  seg : Seg next prev none head l none
  nodup : l.Nodup

namespace Seg

variable {next prev next' prev' : α → Option α} {b p q r : Option α} {l l1 l2 : List α}

theorem start (h : Seg next prev b p l q) : p = l.head?.or q := by
  cases l with
  | nil => exact h
  | cons a l => exact h.1

theorem congr (h : Seg next prev b p l q) (hnext : ∀ a ∈ l, next' a = next a)
    (hprev : ∀ a ∈ l, prev' a = prev a) : Seg next' prev' b p l q := by
  induction l generalizing b p with
  | nil => exact h
  | cons a l ih =>
    obtain ⟨hp, hb, hl⟩ := h
    refine ⟨hp, (hprev a (.head _)).trans hb, ?_⟩
    rw [hnext a (.head _)]
    exact ih hl (fun x hx => hnext x (.tail _ hx)) (fun x hx => hprev x (.tail _ hx))

/-- A chain splits at any node. -/
theorem append : Seg next prev b p (l1 ++ l2) q ↔
    ∃ r, Seg next prev b p l1 r ∧ Seg next prev (l1.getLast?.or b) r l2 q := by
  induction l1 generalizing b p with
  | nil =>
    constructor
    · exact fun h => ⟨p, rfl, h⟩
    · rintro ⟨r, rfl, h⟩
      exact h
  | cons a l1 ih =>
    have hlast : (a :: l1).getLast?.or b = l1.getLast?.or (some a) := by
      rw [getLast?_cons]
      cases l1.getLast? <;> rfl
    rw [hlast]
    constructor
    · rintro ⟨hp, hb, hl⟩
      obtain ⟨r, h1, h2⟩ := ih.mp hl
      exact ⟨r, ⟨hp, hb, h1⟩, h2⟩
    · rintro ⟨r, ⟨hp, hb, h1⟩, h2⟩
      exact ⟨hp, hb, ih.mpr ⟨r, h1, h2⟩⟩

variable [DecidableEq α]

/-- A new link after the last node moves the end of the chain. -/
theorem retarget (h : Seg next prev b p l r) (hl : l.Nodup) (hprev : ∀ a ∈ l, prev' a = prev a)
    (hnext : ∀ a ∈ l, next' a = if l.getLast? = some a then q else next a) :
    Seg next' prev' b (l.head?.or q) l q := by
  induction l generalizing b p with
  | nil => rfl
  | cons a l ih =>
    obtain ⟨-, hb, hrest⟩ := h
    obtain ⟨hnot, hl⟩ := nodup_cons.mp hl
    refine ⟨rfl, (hprev a (.head _)).trans hb, ?_⟩
    rw [hnext a (.head _)]
    cases l with
    | nil => exact if_pos rfl
    | cons c l =>
      rw [getLast?_cons_cons] at hnext ⊢
      rw [if_neg fun hc => hnot (mem_of_getLast? hc), hrest.1]
      exact ih hrest hl (fun x hx => hprev x (.tail _ hx)) fun x hx => hnext x (.tail _ hx)

/-- A new link before the first node moves the start of the chain. -/
theorem rebase (h : Seg next prev b p l q) (hl : l.Nodup) (hnext : ∀ a ∈ l, next' a = next a)
    (hprev : ∀ a ∈ l, prev' a = if l.head? = some a then r else prev a) :
    Seg next' prev' r p l q := by
  cases l with
  | nil => exact h
  | cons a l =>
    obtain ⟨hp, -, hrest⟩ := h
    refine ⟨hp, (hprev a (.head _)).trans (if_pos rfl), ?_⟩
    rw [hnext a (.head _)]
    refine hrest.congr (fun x hx => hnext x (.tail _ hx)) fun x hx => ?_
    refine (hprev x (.tail _ hx)).trans (if_neg fun hc => ?_)
    obtain rfl := some.inj hc
    exact (nodup_cons.mp hl).1 hx

end Seg

namespace DList

variable {next prev next' prev' : α → Option α} {head head' : Option α} {l l1 l2 : List α} {a x : α}

theorem nil : DList next prev none [] := ⟨rfl, nodup_nil⟩

theorem head_eq (h : DList next prev head l) : head = l.head? := by
  rw [h.seg.start, or_none]

theorem congr (h : DList next prev head l) (hnext : ∀ a ∈ l, next' a = next a)
    (hprev : ∀ a ∈ l, prev' a = prev a) : DList next' prev' head l :=
  ⟨h.seg.congr hnext hprev, h.nodup⟩

section

variable (h : DList next prev head (l1 ++ x :: l2))
include h

/-- The two sides of a node. -/
theorem split :
    Seg next prev none head l1 (some x) ∧ prev x = l1.getLast? ∧ next x = l2.head? ∧
      Seg next prev (some x) (next x) l2 none := by
  obtain ⟨r, h1, hr, hx, h2⟩ := Seg.append.mp h.seg
  rw [or_none] at hx
  refine ⟨hr ▸ h1, hx, ?_, h2⟩
  rw [h2.start, or_none]

theorem next_eq : next x = l2.head? := h.split.2.2.1

end

section Update

variable [DecidableEq α]

/-- Linking a node before the first. -/
theorem insertHead (h : DList next prev head l) (ha : a ∉ l) (hna : next' a = head)
    (hpa : prev' a = none) (hnext : ∀ y ∈ l, next' y = next y)
    (hprev : ∀ y ∈ l, prev' y = if head = some y then some a else prev y) :
    DList next' prev' (some a) (a :: l) := by
  refine ⟨⟨rfl, hpa, ?_⟩, nodup_cons.mpr ⟨ha, h.nodup⟩⟩
  rw [hna]
  refine h.seg.rebase h.nodup hnext fun y hy => ?_
  rw [hprev y hy, h.head_eq]

/-- Linking a node after another. -/
theorem insertAfter (h : DList next prev head (l1 ++ x :: l2)) (ha : a ∉ l1 ++ x :: l2)
    (hnx : next' x = some a) (hpx : prev' x = prev x) (hna : next' a = next x)
    (hpa : prev' a = some x) (hnext : ∀ y ∈ l1 ++ l2, next' y = next y)
    (hprev : ∀ y ∈ l1 ++ l2, prev' y = if next x = some y then some a else prev y) :
    DList next' prev' head (l1 ++ x :: a :: l2) := by
  obtain ⟨h1, hx, hnext2, h2⟩ := h.split
  obtain ⟨hn1, hn2, hdisj⟩ := nodup_append.mp (nodup_middle.mp h.nodup).of_cons
  -- no node before `x` is the one after it
  have hfirst : ∀ y ∈ l1, prev' y = prev y := by
    intro y hy
    rw [hprev y (mem_append_left _ hy), if_neg]
    rw [hnext2]
    exact fun hc => hdisj y hy y (mem_of_head? hc) rfl
  refine ⟨Seg.append.mpr ⟨some x, ?_, rfl, ?_, ?_⟩, ?_⟩
  · exact h1.congr (fun y hy => hnext y (mem_append_left _ hy)) hfirst
  · rw [hpx, hx, or_none]
  · rw [hnx]
    refine ⟨rfl, hpa, ?_⟩
    rw [hna]
    refine h2.rebase hn2 (fun y hy => hnext y (mem_append_right _ hy)) fun y hy => ?_
    rw [hprev y (mem_append_right _ hy), hnext2]
  · have hperm : (l1 ++ x :: a :: l2).Perm (a :: (l1 ++ x :: l2)) := by
      rw [← singleton_append, ← append_assoc]
      exact perm_middle.trans (by simp)
    exact hperm.nodup_iff.mpr (nodup_cons.mpr ⟨ha, h.nodup⟩)

/-- Unlinking a node. -/
theorem remove (h : DList next prev head (l1 ++ x :: l2))
    (hhead : head' = if prev x = none then next x else head)
    (hnext : ∀ y ∈ l1 ++ l2, next' y = if prev x = some y then next x else next y)
    (hprev : ∀ y ∈ l1 ++ l2, prev' y = if next x = some y then prev x else prev y) :
    DList next' prev' head' (l1 ++ l2) := by
  obtain ⟨h1, hx, hnext2, h2⟩ := h.split
  have hnodup := (nodup_middle.mp h.nodup).of_cons
  obtain ⟨hn1, hn2, hdisj⟩ := nodup_append.mp hnodup
  have hstart : head' = l1.head?.or (next x) := by
    rw [hhead, hx, h1.start]
    cases l1 with
    | nil => rfl
    | cons y l1 => rfl
  refine ⟨Seg.append.mpr ⟨next x, ?_, ?_⟩, hnodup⟩
  · rw [hstart]
    refine h1.retarget hn1 (fun y hy => ?_) fun y hy => ?_
    · rw [hprev y (mem_append_left _ hy), if_neg]
      rw [hnext2]
      exact fun hc => hdisj y hy y (mem_of_head? hc) rfl
    · rw [hnext y (mem_append_left _ hy), hx]
  · refine h2.rebase hn2 (fun y hy => ?_) fun y hy => ?_
    · rw [hnext y (mem_append_right _ hy), if_neg]
      rw [hx]
      exact fun hc => hdisj y (mem_of_getLast? hc) y hy rfl
    · rw [hprev y (mem_append_right _ hy), hnext2, hx, or_none]

end Update

end DList

/-! ## Following the links -/

/-- `for (p = head; p; p = p->next) if (found(p)) return p;` within a number of steps. -/
def scan (next : α → Option α) (found : α → Bool) : (fuel : ℕ) → Option α → Option α
  | 0, _ => none
  | _ + 1, none => none
  | fuel + 1, some a => if found a then some a else scan next found fuel (next a)

/-- `while (it->next && ahead(it->next)) it = it->next;` within a number of steps. -/
def advance (next : α → Option α) (ahead : α → Bool) : (fuel : ℕ) → α → α
  | 0, it => it
  | fuel + 1, it =>
    match next it with
    | none => it
    | some a => if ahead a then advance next ahead fuel a else it

variable {next prev : α → Option α}

/-- The nodes met from a pointer within a number of steps. -/
def walk (next : α → Option α) : (fuel : ℕ) → Option α → List α
  | 0, _ => []
  | _ + 1, none => []
  | fuel + 1, some a => a :: walk next fuel (next a)

/-- A scan is a search in the nodes that are met. -/
theorem scan_eq_find (found : α → Bool) (fuel : ℕ) (p : Option α) :
    scan next found fuel p = (walk next fuel p).find? found := by
  induction fuel generalizing p with
  | zero => rfl
  | succ fuel ih =>
    cases p with
    | none => rfl
    | some a =>
      rw [scan, walk, find?_cons, ih]
      cases found a <;> rfl

theorem scan_eq_none {found : α → Bool} (h : ∀ a, found a = false) (fuel : ℕ) (p : Option α) :
    scan next found fuel p = none := by
  rw [scan_eq_find, find?_eq_none]
  exact fun a _ => by rw [h a]; decide

variable {b p : Option α} {l : List α} {fuel : ℕ}

theorem Seg.walk_eq (h : Seg next prev b p l none) (hfuel : l.length < fuel) :
    walk next fuel p = l := by
  induction l generalizing b p fuel with
  | nil =>
    obtain rfl : p = none := h
    cases fuel <;> rfl
  | cons a l ih =>
    obtain ⟨rfl, -, hrest⟩ := h
    cases fuel with
    | zero => exact absurd hfuel (Nat.not_lt_zero _)
    | succ fuel =>
      rw [length_cons] at hfuel
      rw [walk, ih hrest (by omega)]

theorem Seg.scan_eq (h : Seg next prev b p l none) (hfuel : l.length < fuel) (found : α → Bool) :
    scan next found fuel p = l.find? found := by
  rw [scan_eq_find, h.walk_eq hfuel]

/-- A scan of a whole list is a search in its nodes. -/
theorem DList.scan_eq {head : Option α} (h : DList next prev head l) (hfuel : l.length < fuel)
    (found : α → Bool) : scan next found fuel head = l.find? found :=
  h.seg.scan_eq hfuel found

/-- Where advancing from the first node stops: everything passed is ahead, the node after is not. -/
theorem Seg.advance_eq {a : α} (h : Seg next prev b (some a) (a :: l) none)
    (hfuel : l.length ≤ fuel) (ahead : α → Bool) :
    ∃ l1 l2, a :: l = l1 ++ advance next ahead fuel a :: l2 ∧
      (∀ y ∈ l1 ++ [advance next ahead fuel a], y ≠ a → ahead y = true) ∧
      ∀ y, l2.head? = some y → ahead y = false := by
  induction l generalizing b a fuel with
  | nil =>
    have hnext : next a = none := h.2.2
    refine ⟨[], [], ?_, ?_, by simp⟩ <;> cases fuel <;> simp [advance, hnext]
  | cons c l ih =>
    have hnext : next a = some c := h.2.2.1
    cases fuel with
    | zero => cases hfuel
    | succ fuel =>
      rw [length_cons] at hfuel
      simp only [advance, hnext]
      cases hc : ahead c with
      | false => exact ⟨[], c :: l, by simp, by simp, by simp [hc]⟩
      | true =>
        have hseg : Seg next prev (some a) (some c) (c :: l) none := hnext ▸ h.2.2
        obtain ⟨l1, l2, heq, hall, hhead⟩ := ih hseg (show l.length ≤ fuel by omega)
        refine ⟨a :: l1, l2, by simp [heq], ?_, hhead⟩
        intro y hy hne
        by_cases hyc : y = c
        · rw [hyc, hc]
        · rcases mem_cons.mp hy with rfl | hy
          · exact absurd rfl hne
          · exact hall y hy hyc

end NovaOS.Lib
