import Mathlib.Data.List.Nodup
import Mathlib.Data.Int.Notation

/-!
# Exit handlers

Reference: `lib/libc/stdlib.c`.

`__cxa_atexit` puts a handler at the front of `gAtExitList`. `exit` takes that list over, calls its
handlers from the front and then the finalisers of the loader; what these register meanwhile goes to a
list of its own. Handlers and finalisers are arbitrary code that returns. The list is private to
`stdlib.c` and `exit` does not return, so registrations are all that such code can do to it. The log of
registrations and calls is kept beside the state.
-/

namespace NovaOS.Libc

open List

/-- A node of `gAtExitList`. It is the `id`-th registration and was made after `since` calls. -/
structure AtExitNode where
  fn : ℕ
  arg : ℕ
  id : ℕ
  since : ℕ
deriving DecidableEq, Repr

/-- The handlers that wait, and all that were registered and called so far, newest first. -/
structure ExitState where
  gAtExitList : List AtExitNode
  registered : List AtExitNode
  called : List AtExitNode

/-- A call of `__cxa_atexit`, with what `malloc` makes of it. -/
structure Registration where
  fn : ℕ
  arg : ℕ
  served : Bool

/-- The call puts a handler on the list. -/
def Registration.Successful (r : Registration) : Prop := r.fn ≠ 0 ∧ r.served = true

/-- The address of `atexitBridge`. -/
def atexitBridge : ℕ := 0x1000

/-- `atexit`. -/
def atexit (fn : ℕ) (served : Bool) : Registration := ⟨atexitBridge, fn, served⟩

/-- What code that is called registers: a handler with an argument, one without that is called by
`atexitBridge`, and the finalisers that `rtldCallFini` calls. The last is a weak symbol. -/
structure Code where
  withArg : (fn arg : ℕ) → ExitState → List Registration
  plain : (fn : ℕ) → ExitState → List Registration
  rtldCallFini : Option (ExitState → List Registration)

namespace Code

/-- `curr->fn(curr->arg)`. -/
def call (code : Code) (n : AtExitNode) (s : ExitState) : List Registration :=
  if n.fn = atexitBridge then if n.arg ≠ 0 then code.plain n.arg s else []
  else code.withArg n.fn n.arg s

/-- `if (rtldCallFini) rtldCallFini()`. -/
def fini (code : Code) (s : ExitState) : List Registration :=
  match code.rtldCallFini with
  | none => []
  | some run => run s

end Code

namespace ExitState

/-- `__cxa_atexit`, with its result. -/
def cxaAtexit (s : ExitState) (r : Registration) : ℤ × ExitState :=
  if r.fn = 0 then (0, s)
  else if !r.served then (-1, s)
  else
    let node : AtExitNode := ⟨r.fn, r.arg, s.registered.length, s.called.length⟩
    (0, { s with gAtExitList := node :: s.gAtExitList, registered := node :: s.registered })

def cxaAtexits (s : ExitState) (rs : List Registration) : ExitState :=
  rs.foldl (fun s r => (s.cxaAtexit r).2) s

/-- The state in which a program starts. -/
def empty : ExitState := ⟨[], [], []⟩

/-- The `while` loop of `exit` over the list it took. -/
def runHandlers (code : Code) : List AtExitNode → ExitState → ExitState
  | [], s => s
  | curr :: next, s =>
    let s :=
      if curr.fn ≠ 0 then { s with called := curr :: s.called }.cxaAtexits (code.call curr s)
      else s
    runHandlers code next s

/-- `exit`, up to the system call. -/
def exit (s : ExitState) (code : Code) : ExitState :=
  let s := runHandlers code s.gAtExitList { s with gAtExitList := [] }
  s.cxaAtexits (code.fini s)

/-- Every handler is called once, and one that is called after another was registered before it or when
the other had already been called. -/
structure Complete (s : ExitState) : Prop where
  once : ∀ n ∈ s.registered, s.called.count n = 1
  order : ∀ before n after, s.called.reverse = before ++ n :: after → ∀ m ∈ after,
    n.id < m.id → before.length < m.since

/-- Each handler of the list, called after those before it, registers none, and neither do the
finalisers after all of them. -/
def Silent (code : Code) : List AtExitNode → ExitState → Prop
  | [], s => ∀ r ∈ code.fini s, ¬r.Successful
  | n :: rest, s => (∀ r ∈ code.call n s, ¬r.Successful) ∧
      Silent code rest { s with called := n :: s.called }

/-- The handlers are numbered, and each one waits, has been called or is in the rest of the list that
`exit` took. -/
structure Inv (rest : List AtExitNode) (s : ExitState) : Prop where
  parts : s.registered = s.gAtExitList ++ (s.called.reverse ++ rest)
  ids : s.registered.Pairwise fun m n => n.id < m.id
  nodes : ∀ n ∈ s.registered, n.id < s.registered.length ∧ n.fn ≠ 0

variable {s : ExitState} {rest : List AtExitNode} {code : Code}

/-! ## Every handler is accounted for -/

theorem Inv.cxaAtexit (h : Inv rest s) (r : Registration) : Inv rest (s.cxaAtexit r).2 := by
  unfold ExitState.cxaAtexit
  split_ifs with hfn
  · exact h
  · exact h
  refine ⟨congrArg (cons _) h.parts, .cons (fun n hn => (h.nodes n hn).1) h.ids, ?_⟩
  rintro n (_ | ⟨_, hn⟩)
  · exact ⟨Nat.lt_succ_self _, hfn⟩
  · exact ⟨Nat.lt_succ_of_lt (h.nodes n hn).1, (h.nodes n hn).2⟩

theorem Inv.cxaAtexits (h : Inv rest s) (rs : List Registration) : Inv rest (s.cxaAtexits rs) := by
  induction rs generalizing s with
  | nil => exact h
  | cons r rs ih => exact ih (h.cxaAtexit r)

theorem Inv.fn_ne_zero (h : Inv rest s) {n : AtExitNode} (hn : n ∈ rest) : n.fn ≠ 0 :=
  (h.nodes n (by simp [h.parts, hn])).2

/-- A call moves the node from the rest to the handlers called. -/
theorem Inv.call {n : AtExitNode} (h : Inv (n :: rest) s) : Inv rest { s with called := n :: s.called } :=
  ⟨by simpa using h.parts, h.ids, h.nodes⟩

theorem Inv.runHandlers (h : Inv rest s) (code : Code) : Inv [] (runHandlers code rest s) := by
  induction rest generalizing s with
  | nil => exact h
  | cons n rest ih =>
    rw [ExitState.runHandlers, if_pos (h.fn_ne_zero (.head _))]
    exact ih (h.call.cxaAtexits _)

theorem called_cxaAtexits (s : ExitState) (rs : List Registration) :
    (s.cxaAtexits rs).called = s.called := by
  induction rs generalizing s with
  | nil => rfl
  | cons r rs ih =>
    refine (ih _).trans ?_
    dsimp only [ExitState.cxaAtexit]
    split_ifs <;> rfl

/-- The list that `exit` takes holds all handlers of the program. -/
theorem inv_taken (rs : List Registration) :
    Inv (empty.cxaAtexits rs).gAtExitList { empty.cxaAtexits rs with gAtExitList := [] } := by
  have hempty : Inv [] empty := ⟨rfl, .nil, fun n hn => nomatch hn⟩
  have h := hempty.cxaAtexits rs
  have hparts := h.parts
  exact ⟨by simpa [called_cxaAtexits, empty] using hparts, h.ids, h.nodes⟩

/-- At the system call all is as it should be if no handler waits. -/
theorem Inv.complete_iff (h : Inv [] s) : s.Complete ↔ s.gAtExitList = [] := by
  have hparts := h.parts
  rw [append_nil] at hparts
  have hnodup : s.registered.Nodup := by
    refine h.ids.imp ?_
    rintro m n hlt rfl
    exact Nat.lt_irrefl _ hlt
  constructor
  · intro hc
    refine eq_nil_iff_forall_not_mem.mpr fun n hn => ?_
    have hcount := hc.once n (hparts ▸ mem_append_left _ hn)
    rw [hparts] at hnodup
    have hmem : n ∈ s.called.reverse := by
      rw [mem_reverse]
      exact count_pos_iff.mp (by omega)
    exact (nodup_append.mp hnodup).2.2 n hn n hmem rfl
  · intro hnil
    rw [hnil, nil_append] at hparts
    refine ⟨fun n hn => ?_, fun before n after hsplit m hm hlt => ?_⟩
    · rw [← count_reverse, ← hparts]
      exact count_eq_one_of_mem hnodup hn
    · have hids := h.ids
      rw [hparts, hsplit] at hids
      have := rel_of_pairwise_cons (pairwise_append.mp hids).2.1 hm
      omega

/-! ## What is left on the list -/

theorem cxaAtexit_cases (s : ExitState) (r : Registration) :
    ¬r.Successful ∧ (s.cxaAtexit r).2 = s ∨
      r.Successful ∧ (s.cxaAtexit r).2.gAtExitList ≠ [] := by
  unfold cxaAtexit
  split_ifs with hfn hserved
  · exact .inl ⟨fun h => h.1 hfn, rfl⟩
  · exact .inl ⟨fun h => by simp [h.2] at hserved, rfl⟩
  · exact .inr ⟨⟨hfn, by simpa using hserved⟩, cons_ne_nil _ _⟩

theorem cxaAtexits_of_silent {rs : List Registration} (h : ∀ r ∈ rs, ¬r.Successful) :
    s.cxaAtexits rs = s := by
  induction rs with
  | nil => rfl
  | cons r rs ih =>
    obtain ⟨-, hsame⟩ | ⟨hsucc, -⟩ := s.cxaAtexit_cases r
    · change cxaAtexits (s.cxaAtexit r).2 rs = s
      rw [hsame]
      exact ih fun r' hr' => h r' (.tail _ hr')
    · exact absurd hsucc (h r (.head _))

/-- A handler that waits goes on waiting. -/
theorem cxaAtexits_ne_nil {rs : List Registration}
    (h : s.gAtExitList ≠ [] ∨ ∃ r ∈ rs, r.Successful) : (s.cxaAtexits rs).gAtExitList ≠ [] := by
  induction rs generalizing s with
  | nil => exact h.resolve_right (by simp)
  | cons r rs ih =>
    change (cxaAtexits (s.cxaAtexit r).2 rs).gAtExitList ≠ []
    obtain ⟨hr, hsame⟩ | ⟨-, hne⟩ := s.cxaAtexit_cases r
    · rw [hsame]
      refine ih (h.imp_right fun ⟨r', hr', hsucc⟩ => ⟨r', (mem_cons.mp hr').resolve_left ?_, hsucc⟩)
      rintro rfl
      exact hr hsucc
    · exact ih (.inl hne)

theorem cxaAtexits_eq_nil {rs : List Registration} (hs : s.gAtExitList = []) :
    (s.cxaAtexits rs).gAtExitList = [] ↔ ∀ r ∈ rs, ¬r.Successful := by
  refine ⟨fun h r hr hsucc => cxaAtexits_ne_nil (.inr ⟨r, hr, hsucc⟩) h, fun h => ?_⟩
  rw [cxaAtexits_of_silent h, hs]

theorem runHandlers_ne_nil (h : s.gAtExitList ≠ []) : (runHandlers code rest s).gAtExitList ≠ [] := by
  induction rest generalizing s with
  | nil => exact h
  | cons n rest ih =>
    rw [runHandlers]
    split
    · exact ih (cxaAtexits_ne_nil (.inl h))
    · exact ih h

/-- Nothing waits at the system call if and only if nothing was registered on the way. -/
theorem exit_eq_nil (h : Inv rest s) (hs : s.gAtExitList = []) :
    ((runHandlers code rest s).cxaAtexits (code.fini (runHandlers code rest s))).gAtExitList = [] ↔
      Silent code rest s := by
  induction rest generalizing s with
  | nil => exact cxaAtexits_eq_nil hs
  | cons n rest ih =>
    rw [runHandlers, if_pos (h.fn_ne_zero (.head _)), Silent]
    by_cases hcall : ∀ r ∈ code.call n s, ¬r.Successful
    · rw [cxaAtexits_of_silent hcall, and_iff_right hcall]
      exact ih h.call hs
    · refine iff_of_false (cxaAtexits_ne_nil (.inl (runHandlers_ne_nil (cxaAtexits_ne_nil (.inr ?_)))))
        fun hsilent => hcall hsilent.1
      simpa using hcall

/-- After any registrations, `exit` calls every handler as it should if and only if neither a handler nor a
finaliser registers another one. -/
theorem exit_complete_iff (rs : List Registration) (code : Code) :
    ((empty.cxaAtexits rs).exit code).Complete ↔
      Silent code (empty.cxaAtexits rs).gAtExitList { empty.cxaAtexits rs with gAtExitList := [] } := by
  have h := inv_taken rs
  exact ((h.runHandlers code).cxaAtexits _).complete_iff.trans (exit_eq_nil h rfl)

/-- A handler that registers another one, which does nothing, in a program without a loader. -/
def nested : Code where
  withArg _ _ _ := []
  plain fn _ := if fn = 1 then [atexit 2 true] else []
  rtldCallFini := none

/-- The handler registered by a handler is not called. -/
theorem exit_nested :
    let s := (empty.cxaAtexits [atexit 1 true]).exit nested
    s.registered = [⟨atexitBridge, 2, 1, 1⟩, ⟨atexitBridge, 1, 0, 0⟩] ∧
      s.called = [⟨atexitBridge, 1, 0, 0⟩] ∧ ¬s.Complete :=
  ⟨by decide, by decide, fun h => absurd (h.once ⟨atexitBridge, 2, 1, 1⟩ (by decide)) (by decide)⟩

end ExitState

end NovaOS.Libc
