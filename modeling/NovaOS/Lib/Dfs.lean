import Mathlib.Data.Finset.Card

/-!
# Depth-first search

`dfs` finishes the nodes that can be reached from a node, successors first, and appends them to the list
of finished nodes. A node on the stack of the search or finished before is passed over, so that the search
also ends on a graph with cycles. `dfs_spec` says which nodes are finished and in which order: a successor
comes before a node unless the node can be reached from it.
-/

namespace NovaOS.Lib

open List Option

universe u

variable {α : Type u}

/-- What each step of a loop that may stop keeps. -/
theorem foldlM_keeps {σ : Type*} {f : σ → α → Option σ} {P : σ → Prop} {l : List α} {s s' : σ}
    (hstep : ∀ s a s', a ∈ l → P s → f s a = some s' → P s') (hs : P s)
    (hrun : l.foldlM f s = some s') : P s' := by
  induction l generalizing s with
  | nil => exact some.inj hrun ▸ hs
  | cons a l ih =>
    obtain ⟨t, ht, hrun⟩ := bind_eq_some_iff.mp hrun
    exact ih (fun s b s' hb => hstep s b s' (.tail _ hb)) (hstep s a t (.head _) hs ht) hrun

/-- Search from `a` with the nodes `stack` in progress and `done` finished, within a depth. -/
def dfs [DecidableEq α] (succs : α → List α) : (fuel : ℕ) → (stack done : List α) → α → Option (List α)
  | 0, _, _, _ => none
  | fuel + 1, stack, done, a =>
    if a ∈ done ∨ a ∈ stack then some done
    else ((succs a).foldlM (dfs succs fuel (a :: stack)) done).map (· ++ [a])

/-- Some path leads from `a` to `b`. -/
def Reaches (succs : α → List α) : α → α → Prop := Relation.ReflTransGen fun a b => b ∈ succs a

/-- Each node comes after its successors, but for those from which it can be reached. -/
def SuccsFirst (succs : α → List α) (done : List α) : Prop :=
  ∀ l₁ a l₂, done = l₁ ++ a :: l₂ → ∀ b ∈ succs a, b ∈ l₁ ∨ Reaches succs b a

theorem SuccsFirst.nil (succs : α → List α) : SuccsFirst succs [] := by
  intro l1 a l2 h
  exact absurd h (by simp)

variable {a : α}

/-- The next node. -/
theorem SuccsFirst.concat {succs : α → List α} {done : List α} (h : SuccsFirst succs done)
    (ha : ∀ b ∈ succs a, b ∈ done ∨ Reaches succs b a) : SuccsFirst succs (done ++ [a]) := by
  intro l1 x l2 heq b hb
  rcases eq_nil_or_concat l2 with rfl | ⟨l2, y, rfl⟩
  · obtain ⟨rfl, hx⟩ := append_inj' heq rfl
    obtain rfl := singleton_inj.mp hx
    exact ha b hb
  · rw [concat_eq_append, ← cons_append, ← append_assoc] at heq
    obtain ⟨rfl, -⟩ := append_inj' heq rfl
    exact h l1 x l2 rfl b hb

variable {succs' : α → List α} {P : α → Prop}

/-- Paths in a graph that agrees on a closed set of nodes. -/
theorem Reaches.congr {succs : α → List α} {b : α} (h : Reaches succs a b) (ha : P a)
    (hclosed : ∀ a, P a → ∀ b ∈ succs a, P b) (hsame : ∀ a, P a → succs' a = succs a) :
    Reaches succs' a b ∧ P b := by
  induction h with
  | refl => exact ⟨.refl, ha⟩
  | tail _ hedge ih =>
    obtain ⟨hpath, hb⟩ := ih
    exact ⟨hpath.tail (by rwa [hsame _ hb]), hclosed _ hb _ hedge⟩

theorem SuccsFirst.congr {succs : α → List α} {done : List α} (h : SuccsFirst succs done)
    (hdone : ∀ a ∈ done, P a) (hclosed : ∀ a, P a → ∀ b ∈ succs a, P b)
    (hsame : ∀ a, P a → succs' a = succs a) : SuccsFirst succs' done := by
  intro l1 a l2 heq b hb
  have ha : P a := by
    apply hdone
    rw [heq]
    exact mem_append_right _ (.head _)
  rw [hsame a ha] at hb
  exact (h l1 a l2 heq b hb).imp_right fun hpath =>
    (hpath.congr (hclosed a ha b hb) hclosed hsame).1

variable {succs : α → List α} {nodes : Finset α} {stack done done' done'' : List α}

/-- What a search among `nodes` does to the finished nodes. -/
structure Finishes (succs : α → List α) (nodes : Finset α) (stack done done' : List α) : Prop where
  new : ∃ new, done' = done ++ new ∧ ∀ x ∈ new, x ∈ nodes ∧ x ∉ stack
  nodup : done'.Nodup
  succsFirst : SuccsFirst succs done'

theorem Finishes.refl (hnodup : done.Nodup) (hfirst : SuccsFirst succs done) :
    Finishes succs nodes stack done done :=
  ⟨⟨[], (append_nil done).symm, by simp⟩, hnodup, hfirst⟩

theorem Finishes.trans (h : Finishes succs nodes stack done done')
    (h' : Finishes succs nodes stack done' done'') : Finishes succs nodes stack done done'' := by
  obtain ⟨l, rfl, hl⟩ := h.new
  obtain ⟨l', rfl, hl'⟩ := h'.new
  refine ⟨⟨l ++ l', append_assoc _ _ _, fun x hx => ?_⟩, h'.nodup, h'.succsFirst⟩
  exact (mem_append.mp hx).elim (hl x) (hl' x)

theorem Finishes.subset (h : Finishes succs nodes stack done done') : done ⊆ done' := by
  obtain ⟨l, rfl, -⟩ := h.new
  exact subset_append_left done l

variable [DecidableEq α]

/-- The nodes that are neither finished nor in progress. -/
def unvisited (nodes : Finset α) (stack done : List α) : Finset α :=
  nodes.filter fun x => x ∉ stack ∧ x ∉ done

theorem card_unvisited_le (hsub : done ⊆ done') :
    (unvisited nodes stack done').card ≤ (unvisited nodes stack done).card := by
  apply Finset.card_le_card
  intro x hx
  rw [unvisited, Finset.mem_filter] at hx ⊢
  exact ⟨hx.1, hx.2.1, fun hd => hx.2.2 (hsub hd)⟩

theorem card_unvisited_cons (ha : a ∈ nodes) (hdone : a ∉ done) (hstack : a ∉ stack) :
    (unvisited nodes (a :: stack) done).card < (unvisited nodes stack done).card := by
  apply Finset.card_lt_card
  refine ⟨fun x hx => ?_, fun hsub => ?_⟩
  · rw [unvisited, Finset.mem_filter] at hx ⊢
    exact ⟨hx.1, fun hs => hx.2.1 (.tail _ hs), hx.2.2⟩
  · have hin := hsub (Finset.mem_filter.mpr ⟨ha, hstack, hdone⟩)
    rw [unvisited, Finset.mem_filter] at hin
    exact hin.2.1 (.head _)

variable {fuel : ℕ}

/-- The searches from several nodes, one after another, given what each does. -/
theorem foldlM_dfs_spec (stack : List α) {l : List α}
    (hstep : ∀ done a, a ∈ l → (unvisited nodes stack done).card < fuel → done.Nodup →
      SuccsFirst succs done → ∃ done', dfs succs fuel stack done a = some done' ∧
        Finishes succs nodes stack done done' ∧ (a ∈ done' ∨ a ∈ stack))
    (hfuel : (unvisited nodes stack done).card < fuel) (hnodup : done.Nodup)
    (hfirst : SuccsFirst succs done) :
    ∃ done', l.foldlM (dfs succs fuel stack) done = some done' ∧
      Finishes succs nodes stack done done' ∧ ∀ a ∈ l, a ∈ done' ∨ a ∈ stack := by
  induction l generalizing done with
  | nil => exact ⟨done, rfl, .refl hnodup hfirst, fun a ha => nomatch ha⟩
  | cons a l ih =>
    obtain ⟨done1, hrun, hfin, ha⟩ := hstep done a (.head _) hfuel hnodup hfirst
    obtain ⟨done', hrun', hfin', hl⟩ := ih (fun done b hb => hstep done b (.tail _ hb))
      (lt_of_le_of_lt (card_unvisited_le hfin.subset) hfuel) hfin.nodup hfin.succsFirst
    refine ⟨done', ?_, hfin.trans hfin', fun b hb => ?_⟩
    · rw [foldlM_cons, hrun]
      exact hrun'
    · rcases mem_cons.mp hb with rfl | hb
      · exact ha.imp_left fun h => hfin'.subset h
      · exact hl b hb

/-- A search with more depth than there are unvisited nodes ends. The nodes on the stack are those on the
path to the present one. -/
theorem dfs_spec (hclosed : ∀ a ∈ nodes, ∀ b ∈ succs a, b ∈ nodes) (ha : a ∈ nodes)
    (hstack : ∀ x ∈ stack, Reaches succs x a) (hfuel : (unvisited nodes stack done).card < fuel)
    (hnodup : done.Nodup) (hfirst : SuccsFirst succs done) :
    ∃ done', dfs succs fuel stack done a = some done' ∧
      Finishes succs nodes stack done done' ∧ (a ∈ done' ∨ a ∈ stack) := by
  induction fuel generalizing stack done a with
  | zero => exact absurd hfuel (Nat.not_lt_zero _)
  | succ fuel ih =>
    rw [dfs]
    split
    · rename_i hvisited
      exact ⟨done, rfl, .refl hnodup hfirst, hvisited⟩
    rename_i hvisited
    rw [not_or] at hvisited
    obtain ⟨hdone, hnot⟩ := hvisited
    have hcard := card_unvisited_cons ha hdone hnot
    obtain ⟨done1, hrun, hfin, hsuccs⟩ := foldlM_dfs_spec (a :: stack) (l := succs a)
      (fun done b hb hfuel hnodup hfirst => ih (hclosed a ha b hb) (fun x hx => by
        -- the path to `a` goes on to `b`
        rcases mem_cons.mp hx with rfl | hx
        · exact .single hb
        · exact (hstack x hx).tail hb) hfuel hnodup hfirst) (by omega) hnodup hfirst
    rw [hrun]
    obtain ⟨new, rfl, hnew⟩ := hfin.new
    have hfresh : a ∉ done ++ new := by
      rw [mem_append, not_or]
      exact ⟨hdone, fun h => (hnew a h).2 (.head _)⟩
    refine ⟨_, rfl, ⟨⟨new ++ [a], append_assoc _ _ _, fun x hx => ?_⟩, ?_, ?_⟩, .inl ?_⟩
    · rcases mem_append.mp hx with hx | hx
      · exact ⟨(hnew x hx).1, fun h => (hnew x hx).2 (.tail _ h)⟩
      · obtain rfl := mem_singleton.mp hx
        exact ⟨ha, hnot⟩
    · rw [nodup_append]
      refine ⟨hfin.nodup, nodup_singleton a, fun x hx y hy => ?_⟩
      rintro rfl
      exact hfresh (mem_singleton.mp hy ▸ hx)
    · apply hfin.succsFirst.concat
      intro b hb
      refine (hsuccs b hb).imp_right fun h => ?_
      rcases mem_cons.mp h with rfl | h
      · exact .refl
      · exact hstack b h
    · exact mem_append_right _ (mem_singleton_self a)

end NovaOS.Lib
