import Mathlib.Data.List.Basic
import Mathlib.Data.Nat.ModEq
import Mathlib.Order.Nat

/-!
# Rings with a lap tag

A producer fills the slots of a ring in order, lap after lap, and gives every entry a tag that changes
from one lap to the next. A consumer that knows how many entries it has taken can tell from the tag in
the next slot whether that slot holds a new entry or one from the lap before. `PhaseRing` relates the
slots to the whole sequence of entries; nothing bounds the length of the sequence.
-/

namespace NovaOS.Lib

open List Function

universe u

/-- The tag of entry number `n`: `1` on the first lap, `0` on the second, and so on. -/
def lapTag (size n : ℕ) : ℕ := (n / size + 1) % 2

variable {size : ℕ}

theorem lapTag_of_lt {n : ℕ} (h : n < size) : lapTag size n = 1 := by
  rw [lapTag, Nat.div_eq_of_lt h]

theorem lapTag_add_size (hpos : 0 < size) (n : ℕ) : lapTag size (n + size) ≠ lapTag size n := by
  rw [lapTag, lapTag, Nat.add_div_right n hpos]
  omega

/-- The tag of the next entry, computed from where it goes. -/
theorem lapTag_succ (hpos : 0 < size) (n : ℕ) :
    lapTag size (n + 1) =
      if (n % size + 1) % size = 0 then lapTag size n ^^^ 1 else lapTag size n := by
  have hflip : ∀ k : ℕ, (k + 2) % 2 = (k + 1) % 2 ^^^ 1 := by
    intro k
    rcases Nat.mod_two_eq_zero_or_one k with hk | hk
    · rw [show (k + 2) % 2 = 0 by omega, show (k + 1) % 2 = 1 by omega]
      rfl
    · rw [show (k + 2) % 2 = 1 by omega, show (k + 1) % 2 = 0 by omega]
      rfl
  have hlt := Nat.mod_lt n hpos
  have hn := Nat.div_add_mod n size
  rw [lapTag, lapTag]
  split
  · rename_i hwrap
    have hlast : n % size + 1 = size := by
      by_contra hne
      rw [Nat.mod_eq_of_lt (by omega)] at hwrap
      omega
    have hdiv : (n + 1) / size = n / size + 1 := by
      rw [show n + 1 = size * (n / size + 1) by rw [Nat.mul_add]; omega,
        Nat.mul_div_cancel_left _ hpos]
    rw [hdiv, ← hflip]
  · rename_i hwrap
    have hnext : n % size + 1 < size := by
      by_contra hge
      rw [show n % size + 1 = size by omega, Nat.mod_self] at hwrap
      exact hwrap rfl
    have hdiv : (n + 1) / size = n / size := by
      rw [show n + 1 = n % size + 1 + size * (n / size) by omega, Nat.add_mul_div_left _ _ hpos,
        Nat.div_eq_of_lt hnext, Nat.zero_add]
    rw [hdiv]

/-- The slots hold the last lap of the entries `posted`, of which the first `taken` have been taken.
A slot that was never filled carries the tag `0`. -/
structure PhaseRing {α : Type u} (tag : α → ℕ) (size : ℕ) (slot : ℕ → α) (posted : List α)
    (taken : ℕ) : Prop where
  pos : 0 < size
  taken_le : taken ≤ posted.length
  room : posted.length ≤ taken + size
  slot_eq : ∀ n (h : n < posted.length), posted.length ≤ n + size → slot (n % size) = posted[n]
  tag_eq : ∀ n (h : n < posted.length), tag posted[n] = lapTag size n
  blank : ∀ i, posted.length ≤ i → i < size → tag (slot i) = 0

namespace PhaseRing

variable {α : Type u} {tag : α → ℕ} {size : ℕ} {slot : ℕ → α} {posted : List α} {taken : ℕ}

theorem nil (hpos : 0 < size) (hblank : ∀ i < size, tag (slot i) = 0) :
    PhaseRing tag size slot [] 0 where
  pos := hpos
  taken_le := le_rfl
  room := Nat.zero_le _
  slot_eq := by simp
  tag_eq := by simp
  blank := fun i _ hi => hblank i hi

/-- The slot to be taken next holds the first entry that was not taken. -/
theorem next_eq (h : PhaseRing tag size slot posted taken) (hlt : taken < posted.length) :
    slot (taken % size) = posted[taken] := h.slot_eq taken hlt h.room

/-- The tag in the next slot tells whether there is an entry to take. -/
theorem tag_next_iff (h : PhaseRing tag size slot posted taken) :
    tag (slot (taken % size)) = lapTag size taken ↔ taken < posted.length := by
  constructor
  · intro htag
    by_contra hge
    have hall : posted.length = taken := le_antisymm (not_lt.mp hge) h.taken_le
    rcases lt_or_ge taken size with hfirst | hlater
    · -- the slot was never filled
      rw [Nat.mod_eq_of_lt hfirst, h.blank taken hall.le hfirst, lapTag_of_lt hfirst] at htag
      cases htag
    · -- the slot holds the entry of the lap before
      have hpos := h.pos
      have hold : taken - size < posted.length := by omega
      have hslot := h.slot_eq (taken - size) hold (by omega)
      rw [← Nat.mod_eq_sub_mod hlater] at hslot
      rw [hslot, h.tag_eq _ hold] at htag
      have hne := lapTag_add_size h.pos (taken - size)
      rw [Nat.sub_add_cancel hlater] at hne
      exact hne htag.symm
  · intro hlt
    rw [h.next_eq hlt, h.tag_eq taken hlt]

/-- Taking an entry. -/
theorem take (h : PhaseRing tag size slot posted taken) (hlt : taken < posted.length) :
    PhaseRing tag size slot posted (taken + 1) :=
  { h with
    taken_le := hlt
    room := by
      have := h.room
      omega }

/-- Filling the next slot, when the producer does not overtake the consumer. -/
theorem post (h : PhaseRing tag size slot posted taken) (hroom : posted.length < taken + size) {x : α}
    (hx : tag x = lapTag size posted.length) :
    PhaseRing tag size (update slot (posted.length % size) x) (posted ++ [x]) taken where
  pos := h.pos
  taken_le := by
    rw [length_append]
    exact le_trans h.taken_le (Nat.le_add_right _ _)
  room := by
    rw [length_append]
    exact hroom
  slot_eq := by
    intro n hn hlast
    rw [length_append, length_singleton] at hn hlast
    rcases Nat.lt_succ_iff_lt_or_eq.mp hn with hlt | rfl
    · -- within one lap, another entry has another slot
      have hne : n % size ≠ posted.length % size := fun heq =>
        absurd (Nat.ModEq.add_le_of_lt heq hlt) (by omega)
      rw [update_of_ne hne, getElem_append_left hlt]
      exact h.slot_eq n hlt (by omega)
    · rw [update_self, getElem_concat_length rfl]
  tag_eq := by
    intro n hn
    rw [length_append, length_singleton] at hn
    rcases Nat.lt_succ_iff_lt_or_eq.mp hn with hlt | rfl
    · rw [getElem_append_left hlt]
      exact h.tag_eq n hlt
    · rw [getElem_concat_length rfl]
      exact hx
  blank := by
    intro i hi hlt
    rw [length_append, length_singleton] at hi
    rw [update_of_ne]
    · exact h.blank i (by omega) hlt
    · rw [Nat.mod_eq_of_lt (by omega)]
      omega

end PhaseRing

end NovaOS.Lib
