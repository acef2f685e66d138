import Mathlib.Data.List.Nodup

/-!
# Queues of linked nodes

A queue keeps pointers to its first and its last node, and `next` reads the link field of a node. `Chain`
says that a pointer leads through the nodes of a list to the end, `Fifo.Holds` that a queue holds a list of
distinct nodes. The link fields can be part of several chains; `Fifo.push` leaves the others alone.
-/

namespace NovaOS.Lib

open Function List Option

universe u

variable {α : Type u}

/-- Following `next` from `p` leads through `l` to a null pointer. -/
def Chain (next : α → Option α) : (p : Option α) → List α → Prop
  | p, [] => p = none
  | p, a :: l => p = some a ∧ Chain next (next a) l

variable {next : α → Option α} {p : Option α} {l l1 : List α}

variable {next' : α → Option α}

theorem Chain.congr (h : Chain next p l) (hnext : ∀ a ∈ l, next' a = next a) : Chain next' p l := by
  induction l generalizing p with
  | nil => exact h
  | cons a l ih =>
    refine ⟨h.1, ?_⟩
    rw [hnext a (.head _)]
    exact ih h.2 fun x hx => hnext x (.tail _ hx)

theorem Chain.eq_none_iff (h : Chain next p l) : p = none ↔ l = [] := by
  cases l with
  | nil => exact iff_of_true h rfl
  | cons a l =>
    rw [h.1]
    simp

variable {a : α}

/-- After the nodes `l₁` the chain is led elsewhere, by a new link in the last of them or, where there
is none, by a new start. -/
theorem Chain.splice [DecidableEq α] {p' q : Option α} {m m' : List α}
    (h : Chain next p (l1 ++ m)) (hl : l1.Nodup) (hm : Chain next' q m')
    (hhead : p' = if l1 = [] then q else p)
    (hnext : ∀ y ∈ l1, next' y = if l1.getLast? = some y then q else next y) :
    Chain next' p' (l1 ++ m') := by
  induction l1 generalizing p p' with
  | nil =>
    exact hhead ▸ hm
  | cons a l1 ih =>
    obtain ⟨ha, hl⟩ := nodup_cons.mp hl
    refine ⟨hhead.trans h.1, ?_⟩
    rw [hnext a (.head _)]
    cases l1 with
    | nil => exact if_pos (rfl : [a].getLast? = some a) ▸ hm
    | cons b l1 =>
      rw [getLast?_cons_cons] at hnext ⊢
      rw [if_neg fun hc => ha (mem_of_getLast? hc)]
      exact ih h.2 hl (if_neg (cons_ne_nil b l1)).symm fun y hy => hnext y (.tail _ hy)

/-- A chain that ends at `b` goes on to a new node. -/
theorem Chain.concat [DecidableEq α] {b : α} (h : Chain next p l) (hl : l.Nodup)
    (hb : l.getLast? = some b) (ha : a ∉ l) :
    Chain (update (update next a none) b (some a)) p (l ++ [a]) := by
  have hab : a ≠ b := fun heq => ha (heq ▸ mem_of_getLast? hb)
  have hne : l ≠ [] := by
    rintro rfl
    cases hb
  rw [← l.append_nil] at h
  refine h.splice hl (q := some a) ⟨rfl, ?_⟩ (if_neg hne).symm fun y hy => ?_
  · rw [update_of_ne hab, update_self]
    rfl
  · have hya : y ≠ a := fun heq => ha (heq ▸ hy)
    rw [hb, update_apply, update_of_ne hya]
    simp only [some.injEq, eq_comm]

/-- Pointers to the first and the last node. -/
structure Fifo (α : Type u) where
  head : Option α
  tail : Option α

namespace Fifo

/-- The queue holds the nodes `l`, from the first to the last. -/
structure Holds (next : α → Option α) (q : Fifo α) (l : List α) : Prop where
  chain : Chain next q.head l
  tail_eq : q.tail = l.getLast?
  nodup : l.Nodup

variable {next next' : α → Option α} {q : Fifo α} {l : List α} {a : α}

theorem Holds.empty (next : α → Option α) : Holds next ⟨none, none⟩ [] := ⟨rfl, rfl, nodup_nil⟩

theorem Holds.head_eq_none_iff (h : Holds next q l) : q.head = none ↔ l = [] := h.chain.eq_none_iff

theorem Holds.congr (h : Holds next q l) (hnext : ∀ x ∈ l, next' x = next x) : Holds next' q l :=
  ⟨h.chain.congr hnext, h.tail_eq, h.nodup⟩

/-- The queue without its first node `a`. -/
def pop (next : α → Option α) (q : Fifo α) (a : α) : Fifo α :=
  ⟨next a, if (next a).isNone then none else q.tail⟩

theorem Holds.pop (h : Holds next q l) (ha : q.head = some a) :
    ∃ rest, l = a :: rest ∧ Holds next (q.pop next a) rest := by
  cases l with
  | nil => exact nomatch ha.symm.trans h.chain
  | cons b rest =>
    obtain ⟨hb, hchain⟩ := h.chain
    obtain rfl := mem_unique ha hb
    refine ⟨rest, rfl, hchain, ?_, (nodup_cons.mp h.nodup).2⟩
    rw [Fifo.pop]
    cases rest with
    | nil =>
      rw [show next a = none from hchain]
      rfl
    | cons c rest =>
      rw [hchain.1]
      exact h.tail_eq.trans getLast?_cons_cons

variable [DecidableEq α]

/-- The link fields when a node is put at the end. -/
def pushNext (next : α → Option α) (q : Fifo α) (a : α) : α → Option α :=
  match q.tail with
  | some b => update (update next a none) b (some a)
  | none => update next a none

/-- The queue with a node at the end. -/
def push (q : Fifo α) (a : α) : Fifo α :=
  match q.tail with
  | some _ => { q with tail := some a }
  | none => ⟨some a, some a⟩

/-- Links of nodes that are not in the queue are kept. -/
theorem Holds.pushNext_of_notMem (h : Holds next q l) {x : α} (hx : x ∉ l) (hxa : x ≠ a) :
    pushNext next q a x = next x := by
  rw [pushNext]
  cases htail : q.tail with
  | none => exact update_of_ne hxa _ _
  | some b =>
    have hb : b ∈ l := mem_of_getLast? (h.tail_eq.symm.trans htail)
    have hxb : x ≠ b := fun heq => hx (heq ▸ hb)
    simp only
    rw [update_of_ne hxb, update_of_ne hxa]

theorem Holds.push (h : Holds next q l) (ha : a ∉ l) : Holds (pushNext next q a) (q.push a) (l ++ [a]) := by
  have hnodup : (l ++ [a]).Nodup := by
    refine nodup_append.mpr ⟨h.nodup, nodup_singleton a, fun x hx y hy => ?_⟩
    rw [mem_singleton.mp hy]
    exact fun heq => ha (heq ▸ hx)
  rw [pushNext, Fifo.push]
  cases htail : q.tail with
  | none =>
    obtain rfl : l = [] := getLast?_eq_none_iff.mp (h.tail_eq.symm.trans htail)
    refine ⟨⟨rfl, ?_⟩, rfl, hnodup⟩
    simp only
    rw [update_self]
    rfl
  | some b =>
    refine ⟨h.chain.concat h.nodup (h.tail_eq.symm.trans htail) ha, ?_, hnodup⟩
    rw [getLast?_concat]

end Fifo

end NovaOS.Lib
