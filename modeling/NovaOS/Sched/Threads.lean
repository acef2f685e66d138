import Mathlib.Data.List.Nodup

/-!
# Switching between threads

Reference: `kernel/sched/sched.c` (`enqueueReady`, `dequeueReady`, `schedBlockCurrent`, `schedule`).

The scheduler of one CPU: the state of each thread, the ready queue, the current thread and the idle
thread. The two links of a thread are those of the one queue it is on, so the queue is a list. What a
switch does to registers, stacks and page tables is left out. A thread is named by a number.
-/

namespace NovaOS.Sched

open List Option

inductive ThreadState where
  | unused
  | ready
  | running
  | blocked
  | sleeping
  | zombie
deriving DecidableEq, Repr

/-- The thread runs or waits for the CPU. -/
def ThreadState.Live (st : ThreadState) : Prop := st = .ready ∨ st = .running

structure Scheduler where
  state : ℕ → ThreadState
  gReadyQueue : List ℕ
  gCurrentThread : ℕ
  gIdleThread : ℕ

namespace Scheduler

/-- A thread changes its state. -/
def setState (s : Scheduler) (t : ℕ) (st : ThreadState) : Scheduler :=
  { s with state := Function.update s.state t st }

/-- `enqueueReady`. -/
def enqueueReady (s : Scheduler) (t : ℕ) : Scheduler :=
  { s.setState t .ready with gReadyQueue := s.gReadyQueue ++ [t] }

/-- `dequeueReady`. -/
def dequeueReady (s : Scheduler) : Option ℕ × Scheduler :=
  (s.gReadyQueue.head?, { s with gReadyQueue := s.gReadyQueue.tail })

/-- The switch to another thread. -/
def switchTo (s : Scheduler) (next : ℕ) : Scheduler :=
  { s.setState next .running with gCurrentThread := next }

/-- `schedBlockCurrent` up to the release of the other lock. -/
def markBlocked (s : Scheduler) : Scheduler := s.setState s.gCurrentThread .blocked

/-- The rest of `schedBlockCurrent`. -/
def switchBlocked (s : Scheduler) : Scheduler :=
  let (front, s) := s.dequeueReady
  s.switchTo (front.getD s.gIdleThread)

/-- The current thread gives way to another one; the idle thread is not put on the queue. -/
def leave (s : Scheduler) : Scheduler :=
  let prev := s.gCurrentThread
  if s.state prev = .running then
    if prev = s.gIdleThread then s.setState prev .ready else s.enqueueReady prev
  else s

/-- `schedule`, with preemption enabled. -/
def schedule (s : Scheduler) : Scheduler :=
  let prev := s.gCurrentThread
  let (front, s) := s.dequeueReady
  let next := front.getD (if s.state prev = .running then prev else s.gIdleThread)
  if next = prev then s else s.leave.switchTo next

/-! ## Threads that run, wait for the CPU or are blocked -/

/-- Each thread is where its state says. -/
structure Placed (s : Scheduler) : Prop where
  nodup : s.gReadyQueue.Nodup
  mem_iff : ∀ t, t ≠ s.gIdleThread → (t ∈ s.gReadyQueue ↔ s.state t = .ready)
  idle_notMem : s.gIdleThread ∉ s.gReadyQueue
  running_eq : ∀ t, s.state t = .running → t = s.gCurrentThread
  idle_state : s.state s.gIdleThread = .ready ∨ s.state s.gIdleThread = .running

section Placed

variable {s : Scheduler} {t : ℕ}

theorem setState_self (s : Scheduler) (t : ℕ) (st : ThreadState) : (s.setState t st).state t = st := by
  simp [setState]

theorem setState_of_ne (s : Scheduler) (st : ThreadState) {t x : ℕ} (h : x ≠ t) :
    (s.setState t st).state x = s.state x := by
  simp [setState, h]

theorem Placed.notMem_of_state (h : s.Placed) (hidle : t ≠ s.gIdleThread) (ht : s.state t ≠ .ready) :
    t ∉ s.gReadyQueue :=
  fun hmem => ht ((h.mem_iff t hidle).mp hmem)

/-- The current thread is marked as blocked. -/
theorem Placed.markBlocked (h : s.Placed) (hidle : s.gCurrentThread ≠ s.gIdleThread)
    (hrun : s.state s.gCurrentThread = .running) : s.markBlocked.Placed where
  nodup := h.nodup
  mem_iff t ht := by
    refine (h.mem_iff t ht).trans ?_
    by_cases heq : t = s.gCurrentThread
    · rw [heq, Scheduler.markBlocked, setState_self, hrun]
      simp
    · rw [Scheduler.markBlocked, setState_of_ne s _ heq]
  idle_notMem := h.idle_notMem
  running_eq t ht := by
    by_cases heq : t = s.gCurrentThread
    · exact heq
    · rw [Scheduler.markBlocked, setState_of_ne s _ heq] at ht
      exact h.running_eq t ht
  idle_state := by
    change (s.setState _ _).state s.gIdleThread = _ ∨ (s.setState _ _).state s.gIdleThread = _
    rw [setState_of_ne s _ (Ne.symm hidle)]
    exact h.idle_state

theorem Placed.ne_idle (h : s.Placed) (ht : s.state t = .blocked) : t ≠ s.gIdleThread := by
  rintro rfl
  rcases h.idle_state with hst | hst <;> rw [hst] at ht <;> nomatch ht

/-- A thread that is not ready is put on the queue. -/
theorem Placed.enqueueReady (h : s.Placed) (hidle : t ≠ s.gIdleThread) (ht : s.state t ≠ .ready) :
    (s.enqueueReady t).Placed := by
  have hnot := h.notMem_of_state hidle ht
  constructor
  · refine nodup_append.mpr ⟨h.nodup, nodup_singleton t, fun x hx y hy heq => ?_⟩
    rw [mem_singleton.mp hy] at heq
    exact hnot (heq ▸ hx)
  · intro x hx
    change x ∈ s.gReadyQueue ++ [t] ↔ (s.setState t .ready).state x = .ready
    rw [mem_append]
    by_cases heq : x = t
    · rw [heq, setState_self]
      simp
    · rw [setState_of_ne s _ heq, h.mem_iff x hx]
      simp [heq]
  · intro hmem
    rcases mem_append.mp hmem with hmem | hmem
    · exact h.idle_notMem hmem
    · exact hidle (mem_singleton.mp hmem).symm
  · intro x hx
    change (s.setState t .ready).state x = .running at hx
    by_cases heq : x = t
    · rw [heq, setState_self] at hx
      cases hx
    · rw [setState_of_ne s _ heq] at hx
      exact h.running_eq x hx
  · change (s.setState t .ready).state s.gIdleThread = _ ∨ (s.setState t .ready).state s.gIdleThread = _
    rw [setState_of_ne s _ (Ne.symm hidle)]
    exact h.idle_state

variable {next : ℕ} {rest : List ℕ}

/-- A thread that is not on the queue any more becomes the current one, where no thread runs. -/
theorem Placed.switchTo (h : s.Placed) (hstop : ∀ t, s.state t ≠ .running)
    (hqueue : next = s.gIdleThread ∧ rest = s.gReadyQueue ∨ s.gReadyQueue = next :: rest) :
    ({ s with gReadyQueue := rest }.switchTo next).Placed := by
  have hsub : rest.Sublist s.gReadyQueue := by
    rcases hqueue with ⟨-, rfl⟩ | heq
    · exact .refl _
    · rw [heq]
      exact sublist_cons_self next rest
  have hnot : next ∉ rest := by
    rcases hqueue with ⟨rfl, rfl⟩ | heq
    · exact h.idle_notMem
    · exact (nodup_cons.mp (heq ▸ h.nodup)).1
  constructor
  · exact h.nodup.sublist hsub
  · intro t ht
    change t ∈ rest ↔ (s.setState next .running).state t = .ready
    by_cases heq : t = next
    · rw [heq, setState_self]
      exact iff_of_false hnot (by simp)
    · rw [setState_of_ne s _ heq, ← h.mem_iff t ht]
      rcases hqueue with ⟨-, rfl⟩ | hcons
      · rfl
      · rw [hcons, mem_cons]
        exact (or_iff_right heq).symm
  · exact fun hmem => h.idle_notMem (hsub.subset hmem)
  · intro t ht
    change (s.setState next .running).state t = .running at ht
    by_cases heq : t = next
    · exact heq
    · rw [setState_of_ne s _ heq] at ht
      exact absurd ht (hstop t)
  · change (s.setState next .running).state s.gIdleThread = _ ∨
      (s.setState next .running).state s.gIdleThread = _
    by_cases heq : s.gIdleThread = next
    · rw [heq, setState_self]
      exact .inr rfl
    · rw [setState_of_ne s _ heq]
      exact h.idle_state

/-- A switch changes only which of the live threads runs. -/
structure Switches (s s' : Scheduler) : Prop where
  placed : s'.Placed
  running : s'.state s'.gCurrentThread = .running
  idle_eq : s'.gIdleThread = s.gIdleThread
  state_eq : ∀ t, s'.state t = s.state t ∨ (s.state t).Live ∧ (s'.state t).Live

variable {s' : Scheduler}

theorem Switches.blocked_iff (h : Switches s s') (t : ℕ) :
    s'.state t = .blocked ↔ s.state t = .blocked := by
  rcases h.state_eq t with heq | ⟨hlive, hlive'⟩
  · rw [heq]
  · refine iff_of_false ?_ ?_
    · rcases hlive' with hst | hst <;> rw [hst] <;> simp
    · rcases hlive with hst | hst <;> rw [hst] <;> simp

theorem Switches.live (h : Switches s s') (ht : (s.state t).Live) : (s'.state t).Live := by
  rcases h.state_eq t with heq | ⟨-, hlive'⟩
  · rw [heq]
    exact ht
  · exact hlive'

/-- The front of the queue, or the idle thread, becomes the current one. -/
theorem Placed.switch_front (h : s.Placed) (hstop : ∀ t, s.state t ≠ .running)
    (hqueue : next = s.gIdleThread ∧ rest = s.gReadyQueue ∨ s.gReadyQueue = next :: rest) :
    Switches s ({ s with gReadyQueue := rest }.switchTo next) := by
  refine ⟨h.switchTo hstop hqueue, setState_self _ next .running, rfl, fun t => ?_⟩
  change (s.setState next .running).state t = _ ∨ _ ∧ ((s.setState next .running).state t).Live
  by_cases heq : t = next
  · have hnext : (s.state next).Live := by
      rcases hqueue with ⟨hidle, -⟩ | hcons
      · rw [hidle]
        exact h.idle_state
      · have hmem : next ∈ s.gReadyQueue := hcons ▸ (.head _)
        have hidle : next ≠ s.gIdleThread := fun heq => h.idle_notMem (heq ▸ hmem)
        exact .inl ((h.mem_iff next hidle).mp hmem)
    rw [heq, setState_self]
    exact .inr ⟨hnext, .inr rfl⟩
  · rw [setState_of_ne s _ heq]
    exact .inl rfl

theorem Placed.switchBlocked (h : s.Placed) (hblocked : s.state s.gCurrentThread = .blocked) :
    Switches s s.switchBlocked := by
  have hstop : ∀ t, s.state t ≠ .running := by
    intro t ht
    rw [h.running_eq t ht, hblocked] at ht
    cases ht
  rw [Scheduler.switchBlocked, dequeueReady]
  cases hqueue : s.gReadyQueue with
  | nil => exact h.switch_front hstop (.inl ⟨rfl, hqueue.symm⟩)
  | cons next rest => exact h.switch_front hstop (.inr hqueue)

theorem leave_state (hrun : s.state s.gCurrentThread = .running) :
    s.leave.state = (s.setState s.gCurrentThread .ready).state := by
  rw [Scheduler.leave]
  simp only [hrun, if_true]
  split <;> rfl

theorem Placed.leave (h : s.Placed) (hrun : s.state s.gCurrentThread = .running) :
    s.leave.Placed ∧ ∀ t, s.leave.state t ≠ .running := by
  refine ⟨?_, fun t ht => ?_⟩
  · rw [Scheduler.leave]
    simp only [hrun, if_true]
    split
    · rename_i hidle
      refine ⟨h.nodup, fun t ht => ?_, h.idle_notMem, fun t ht => ?_, .inl ?_⟩
      · have hne : t ≠ s.gCurrentThread := fun heq => ht (heq.trans hidle)
        rw [setState_of_ne s _ hne]
        exact h.mem_iff t ht
      · by_cases heq : t = s.gCurrentThread
        · exact heq
        · rw [setState_of_ne s _ heq] at ht
          exact h.running_eq t ht
      · rw [hidle]
        exact setState_self s _ _
    · rename_i hidle
      exact h.enqueueReady hidle (by rw [hrun]; simp)
  · rw [leave_state hrun] at ht
    by_cases heq : t = s.gCurrentThread
    · rw [heq, setState_self] at ht
      cases ht
    · rw [setState_of_ne s _ heq] at ht
      exact heq (h.running_eq t ht)

theorem Placed.schedule (h : s.Placed) (hrun : s.state s.gCurrentThread = .running) :
    Switches s s.schedule := by
  obtain ⟨hleave, hstop⟩ := h.leave hrun
  cases hqueue : s.gReadyQueue with
  | nil =>
    have hsame : s.schedule = s := by
      rw [Scheduler.schedule, dequeueReady, hqueue]
      simp only [head?_nil, tail_nil, getD_none, hrun, if_true]
      rw [← hqueue]
    rw [hsame]
    exact ⟨h, hrun, rfl, fun _ => .inl rfl⟩
  | cons next rest =>
    have hmem : next ∈ s.gReadyQueue := hqueue ▸ (.head _)
    have hne : next ≠ s.gCurrentThread := by
      rintro rfl
      have hidle : s.gCurrentThread ≠ s.gIdleThread := fun heq => h.idle_notMem (heq ▸ hmem)
      exact absurd ((h.mem_iff _ hidle).mp hmem) (by rw [hrun]; simp)
    -- taking the front off the queue and putting the current thread at its end commute
    obtain ⟨rest', hleft, heq⟩ : ∃ rest', s.leave.gReadyQueue = next :: rest' ∧
        s.schedule = { s.leave with gReadyQueue := rest' }.switchTo next := by
      simp only [Scheduler.schedule, dequeueReady, Scheduler.leave, hqueue, head?_cons,
        getD_some, hrun, if_neg hne]
      by_cases hidle : s.gCurrentThread = s.gIdleThread
      · rw [if_pos hidle, if_pos hidle]
        exact ⟨rest, hqueue, rfl⟩
      · rw [if_neg hidle, if_neg hidle]
        refine ⟨rest ++ [s.gCurrentThread], ?_, rfl⟩
        rw [Scheduler.enqueueReady, hqueue]
        rfl
    have hswitch := hleave.switch_front hstop (.inr hleft)
    rw [heq]
    refine ⟨hswitch.placed, hswitch.running, hswitch.idle_eq.trans ?_, fun t => ?_⟩
    · rw [Scheduler.leave]
      simp only [hrun, if_true]
      split <;> rfl
    · by_cases ht : t = s.gCurrentThread
      · rw [ht, hrun]
        refine .inr ⟨.inr rfl, hswitch.live ?_⟩
        rw [leave_state hrun, setState_self]
        exact .inl rfl
      · have hsame : s.leave.state t = s.state t := by
          rw [leave_state hrun, setState_of_ne s _ ht]
        rcases hswitch.state_eq t with hstate | ⟨hlive, hlive'⟩
        · exact .inl (hstate.trans hsame)
        · exact .inr ⟨hsame ▸ hlive, hlive'⟩

end Placed

/-- Two threads next to the idle thread 0. -/
def samplePair : Scheduler where
  state t := if t = 1 then .running else if t = 0 ∨ t = 2 then .ready else .unused
  gReadyQueue := [2]
  gCurrentThread := 1
  gIdleThread := 0

theorem samplePair_placed : samplePair.Placed where
  nodup := nodup_singleton 2
  mem_iff t ht := by
    change t ≠ 0 at ht
    simp only [samplePair]
    by_cases h1 : t = 1 <;> by_cases h2 : t = 2 <;> simp [h1, h2, ht]
  idle_notMem := by decide
  running_eq t ht := by
    by_contra hne
    change t ≠ 1 at hne
    by_cases h2 : t = 0 ∨ t = 2 <;> simp [samplePair, hne, h2] at ht
  idle_state := .inl rfl

end Scheduler

end NovaOS.Sched
