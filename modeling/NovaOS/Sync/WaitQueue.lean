import NovaOS.Lib.Fifo
import NovaOS.Lib.Word
import NovaOS.Sched.Threads
import Mathlib.Logic.Equiv.Basic
import Mathlib.Logic.Function.Iterate

/-!
# Wait queues

Reference: `kernel/sync/sync.h` (`wait_queue_wake_all`, `wait_event_timeout`), `kernel/sched/sched.c`
(`schedBlockCurrent`, `schedEnqueueReady`).

Threads of one CPU that wait for a condition, and any number of calls of `wait_queue_wake_all` next to them,
by threads or by interrupt handlers. Each section under a spinlock and each access outside of one is one
step, and a waker can take its next step at any time; only for `schedEnqueueReady` it waits for the lock of
the scheduler. The condition can become true and false at any time. The clock shows any value.
-/

namespace NovaOS.Sync

open NovaOS.Lib NovaOS.Sched Function

/-- Where a thread is in `wait_event_timeout`: outside, before the test of the loop, before the test of the
clock, before the lock of the queue; or in `schedBlockCurrent`, before or after the switch. -/
inductive WaitStage where
  | outside
  | testing
  | timing
  | locking
  | parking
  | waiting
deriving DecidableEq

/-- The thread has queued and has not run since. -/
def WaitStage.Asleep (stage : WaitStage) : Prop := stage = .parking ∨ stage = .waiting

instance (stage : WaitStage) : Decidable stage.Asleep := instDecidableOr

/-- The local variables of `wait_event_timeout`. -/
structure WaitLocals where
  start : ℕ
  timeoutMs : ℕ
  ret : ℕ

/-- Where a call of `wait_queue_wake_all` is: in front of the loop, or before the write to `waitNext` or the
call of `schedEnqueueReady` for `curr`. -/
inductive Waker where
  | idle
  | walking (curr : Option ℕ)
  | unlinking (curr : ℕ) (next : Option ℕ)
  | enqueueing (curr : ℕ) (next : Option ℕ)
deriving DecidableEq

/-- The threads that the call has still to put on the ready queue. -/
def Waker.Walks (waitNext : ℕ → Option ℕ) : Waker → List ℕ → Prop
  | .idle, l => l = []
  | .walking curr, l => Chain waitNext curr l
  | .unlinking curr next, l => ∃ rest, l = curr :: rest ∧ Chain waitNext next rest
  | .enqueueing curr next, l => ∃ rest, l = curr :: rest ∧ Chain waitNext next rest

theorem Waker.Walks.congr {waitNext waitNext' : ℕ → Option ℕ} {w : Waker} {l : List ℕ}
    (h : w.Walks waitNext l) (hnext : ∀ t ∈ l, waitNext' t = waitNext t) : w.Walks waitNext' l := by
  cases w with
  | idle => exact h
  | walking curr => exact Chain.congr h hnext
  | unlinking curr next | enqueueing curr next =>
    obtain ⟨rest, rfl, hchain⟩ := h
    exact ⟨rest, rfl, hchain.congr fun t ht => hnext t (.tail _ ht)⟩

/-- The threads, the queue and the wakers. `waitNext` is a field of the threads.

The rest is a record. `lists none` are the threads that queued since the queue was last detached,
`lists (some u)` those that `u` has detached and not put on the ready queue, in their order; `arrivals`,
`detached` and `wakes` are all threads that have queued, been detached and been put on the ready queue by a
waker. `drained` says that the queue has been detached since the condition became true. -/
structure WaitSystem where
  sched : Scheduler
  waitNext : ℕ → Option ℕ
  wq : Fifo ℕ
  condition : Bool
  stage : ℕ → WaitStage
  locals : ℕ → WaitLocals
  waker : ℕ → Waker
  lists : Option ℕ → List ℕ
  arrivals : List ℕ
  detached : List ℕ
  wakes : List ℕ
  drained : Bool

namespace WaitSystem

/-- `schedCurrent`. -/
def current (s : WaitSystem) : ℕ := s.sched.gCurrentThread

/-- The current thread goes on to another place. -/
def goto (s : WaitSystem) (stage : WaitStage) : WaitSystem :=
  { s with stage := update s.stage s.current stage }

/-- The start of `wait_event_timeout`. -/
def enter (s : WaitSystem) (now timeoutMs : ℕ) : WaitSystem :=
  { s.goto .testing with locals := update s.locals s.current ⟨now, timeoutMs, 1⟩ }

/-- The test of the loop. -/
def testCondition (s : WaitSystem) : WaitSystem := s.goto (if s.condition then .outside else .timing)

/-- The test of the clock. -/
def testTimeout (s : WaitSystem) (now : ℕ) : WaitSystem :=
  let l := s.locals s.current
  if l.timeoutMs ≤ sub64 now l.start then
    { s.goto .outside with locals := update s.locals s.current { l with ret := 0 } }
  else s.goto .locking

/-- The thread is put on the queue and marked as blocked. -/
def queueUp (s : WaitSystem) : WaitSystem :=
  { s.goto .parking with
    waitNext := Fifo.pushNext s.waitNext s.wq s.current
    wq := s.wq.push s.current
    sched := s.sched.markBlocked
    lists := update s.lists none (s.lists none ++ [s.current])
    arrivals := s.arrivals ++ [s.current] }

/-- The section under the lock of the queue, up to its release in `schedBlockCurrent`. -/
def enqueue (s : WaitSystem) : WaitSystem := if s.condition then s.goto .outside else s.queueUp

/-- The end of `schedBlockCurrent`. -/
def park (s : WaitSystem) : WaitSystem := { s.goto .waiting with sched := s.sched.switchBlocked }

/-- The timer interrupt, or a call of `schedule`. -/
def preempt (s : WaitSystem) : WaitSystem := { s with sched := s.sched.schedule }

/-- `wait_queue_wake_all` up to the release of the lock. -/
def detach (s : WaitSystem) (u : ℕ) : WaitSystem :=
  { s with
    wq := ⟨none, none⟩
    waker := update s.waker u (.walking s.wq.head)
    lists := update (update s.lists (some u) (s.lists none)) none []
    detached := s.detached ++ s.lists none
    drained := s.condition }

/-- The loop of `wait_queue_wake_all`. -/
def wakerStep (u : ℕ) (s : WaitSystem) : WaitSystem :=
  match s.waker u with
  | .idle => s
  | .walking none => { s with waker := update s.waker u .idle }
  | .walking (some curr) =>
    { s with waker := update s.waker u (.unlinking curr (s.waitNext curr)) }
  | .unlinking curr next =>
    { s with
      waitNext := update s.waitNext curr none
      waker := update s.waker u (.enqueueing curr next) }
  | .enqueueing curr next =>
    { s with
      sched := s.sched.enqueueReady curr
      waker := update s.waker u (.walking next)
      lists := update s.lists (some u) (s.lists (some u)).tail
      wakes := s.wakes ++ [curr] }

/-- The condition becomes true, or false. -/
def setCondition (s : WaitSystem) (b : Bool) : WaitSystem :=
  { s with condition := b, drained := s.drained && b }

/-- A step of the current thread, of a waker or of the condition. The current thread is not preempted while
it holds the lock of the scheduler, and the idle thread only halts the CPU. -/
inductive Step : WaitSystem → WaitSystem → Prop
  | enter {s : WaitSystem} (now timeoutMs : ℕ) : s.stage s.current = .outside →
      s.current ≠ s.sched.gIdleThread → Step s (s.enter now timeoutMs)
  | testCondition {s : WaitSystem} : s.stage s.current = .testing → Step s s.testCondition
  | testTimeout {s : WaitSystem} (now : ℕ) : s.stage s.current = .timing → Step s (s.testTimeout now)
  | enqueue {s : WaitSystem} : s.stage s.current = .locking → Step s s.enqueue
  | park {s : WaitSystem} : s.stage s.current = .parking → Step s s.park
  | resume {s : WaitSystem} : s.stage s.current = .waiting → Step s (s.goto .testing)
  | preempt {s : WaitSystem} : s.stage s.current ≠ .parking → Step s s.preempt
  | detach {s : WaitSystem} (u : ℕ) : s.waker u = .idle → Step s (s.detach u)
  | waker {s : WaitSystem} (u : ℕ) :
      (∀ curr next, s.waker u = .enqueueing curr next → s.stage s.current ≠ .parking) →
      Step s (s.wakerStep u)
  | setCondition {s : WaitSystem} (b : Bool) : Step s (s.setCondition b)

/-- A new queue, and threads that do not use it yet. -/
def create (sched : Scheduler) (waitNext : ℕ → Option ℕ) (locals : ℕ → WaitLocals) (condition : Bool) :
    WaitSystem where
  sched := sched
  waitNext := waitNext
  wq := ⟨none, none⟩
  condition := condition
  stage _ := .outside
  locals := locals
  waker _ := .idle
  lists _ := []
  arrivals := []
  detached := []
  wakes := []
  drained := false

/-- The states of a run. -/
inductive Reached : WaitSystem → Prop
  | create {sched : Scheduler} (waitNext : ℕ → Option ℕ) (locals : ℕ → WaitLocals) (condition : Bool) :
      sched.Placed → sched.state sched.gCurrentThread = .running →
      Reached (create sched waitNext locals condition)
  | step {s s' : WaitSystem} : Reached s → Step s s' → Reached s'

/-- What holds in every state. -/
structure Inv (s : WaitSystem) : Prop where
  placed : s.sched.Placed
  queue : s.wq.Holds s.waitNext (s.lists none)
  walks : ∀ u, (s.waker u).Walks s.waitNext (s.lists (some u))
  nodup : ∀ i, (s.lists i).Nodup
  apart : ∀ i j t, t ∈ s.lists i → t ∈ s.lists j → i = j
  running : s.stage s.current ≠ .parking → s.sched.state s.current = .running
  parking : ∀ t, s.stage t = .parking → t = s.current ∧ ∃ i, t ∈ s.lists i
  mem : ∀ i, ∀ t ∈ s.lists i, (s.stage t).Asleep ∧ s.sched.state t = .blocked
  waiting : ∀ t, s.stage t = .waiting → (∀ i, t ∉ s.lists i) → (s.sched.state t).Live
  idle : s.stage s.sched.gIdleThread = .outside
  queued_count : ∀ t, s.arrivals.count t = s.detached.count t + (s.lists none).count t
  taken_count : ∀ u, ∀ t ∈ s.lists (some u), s.detached.count t = s.wakes.count t + 1
  settled_count : ∀ t, (∀ u, t ∉ s.lists (some u)) → s.detached.count t = s.wakes.count t
  drained : s.drained = true → s.condition = true ∧ s.lists none = []

section Inv

variable {s : WaitSystem}

theorem Inv.create {sched : Scheduler} (waitNext : ℕ → Option ℕ) (locals : ℕ → WaitLocals)
    (condition : Bool) (hplaced : sched.Placed) (hrun : sched.state sched.gCurrentThread = .running) :
    (create sched waitNext locals condition).Inv := by
  constructor
  case placed => exact hplaced
  case queue => exact .empty waitNext
  case running => exact fun _ => hrun
  all_goals simp [WaitSystem.create, Waker.Walks]

theorem goto_self (s : WaitSystem) (stage : WaitStage) : (s.goto stage).stage s.current = stage := by
  simp [goto]

variable {t u : ℕ}

theorem goto_of_ne (s : WaitSystem) (stage : WaitStage) (h : t ≠ s.current) :
    (s.goto stage).stage t = s.stage t := by
  simp [goto, h]

/-- A thread in another stage than the new one is not the current one, and has kept its stage. -/
theorem stage_of_goto {stage stage' : WaitStage} (h : (s.goto stage).stage t = stage')
    (hne : stage' ≠ stage) : t ≠ s.current ∧ s.stage t = stage' := by
  have heq : t ≠ s.current := by
    rintro rfl
    exact hne (h.symm.trans (goto_self s stage))
  exact ⟨heq, (goto_of_ne s stage heq).symm.trans h⟩

/-- A thread that runs is in no list. -/
theorem Inv.notMem_of_running (h : s.Inv) (ht : s.sched.state t = .running) (i : Option ℕ) :
    t ∉ s.lists i := by
  intro hmem
  exact nomatch ht.symm.trans (h.mem i t hmem).2

section

variable (h : s.Inv) (hstage : s.stage s.current ≠ .parking)
include h hstage

/-- Only the current thread is about to switch. -/
theorem Inv.not_parking (t : ℕ) : s.stage t ≠ .parking :=
  fun ht => hstage ((h.parking t ht).1 ▸ ht)

/-- A running thread moves to a place where it still runs. -/
theorem Inv.goto {stage : WaitStage} (hidle : s.current ≠ s.sched.gIdleThread ∨ stage = .outside)
    (hawake : ¬stage.Asleep) (locals : ℕ → WaitLocals) :
    { s.goto stage with locals := locals }.Inv := by
  have hno := h.not_parking hstage
  have hnot := h.notMem_of_running (h.running hstage)
  exact { h with
    running := fun _ => h.running hstage
    parking := fun t ht => absurd (stage_of_goto ht fun heq => hawake (.inl heq.symm)).2 (hno t)
    mem := fun i t ht => by
      have heq : t ≠ s.current := fun heq => hnot i (heq ▸ ht)
      obtain ⟨hasleep, hstate⟩ := h.mem i t ht
      exact ⟨(goto_of_ne s stage heq).symm ▸ hasleep, hstate⟩
    waiting := fun t ht => h.waiting t (stage_of_goto ht fun heq => hawake (.inr heq.symm)).2
    idle := by
      change (s.goto stage).stage s.sched.gIdleThread = .outside
      by_cases heq : s.sched.gIdleThread = s.current
      · rw [heq, goto_self]
        exact hidle.resolve_left fun hne => hne heq.symm
      · rw [goto_of_ne s stage heq]
        exact h.idle }

theorem Inv.preempt : s.preempt.Inv := by
  have hswitch := h.placed.schedule (h.running hstage)
  exact { h with
    placed := hswitch.placed
    running := fun _ => hswitch.running
    parking := fun t ht => absurd ht (h.not_parking hstage t)
    mem := fun i t ht => ⟨(h.mem i t ht).1, (hswitch.blocked_iff t).mpr (h.mem i t ht).2⟩
    waiting := fun t ht hlists => hswitch.live (h.waiting t ht hlists)
    idle := by
      change s.stage s.sched.schedule.gIdleThread = _
      rw [hswitch.idle_eq]
      exact h.idle }

end

section

variable (h : s.Inv)
include h

/-- The thread queues. -/
theorem Inv.queueUp (hstage : s.stage s.current = .locking) (hcond : s.condition = false) :
    s.queueUp.Inv := by
  have hne : s.stage s.current ≠ .parking := by rw [hstage]; simp
  have hno := h.not_parking hne
  have hrun := h.running hne
  have hnot := h.notMem_of_running hrun
  have hidle : s.current ≠ s.sched.gIdleThread := by
    intro heq
    rw [heq, h.idle] at hstage
    cases hstage
  have hself : s.sched.markBlocked.state s.current = .blocked := Scheduler.setState_self _ _ _
  have hother : ∀ t, t ≠ s.current → s.sched.markBlocked.state t = s.sched.state t := fun t ht =>
    Scheduler.setState_of_ne _ _ ht
  have hnone : s.queueUp.lists none = s.lists none ++ [s.current] := by simp [WaitSystem.queueUp]
  have hsome : ∀ u, s.queueUp.lists (some u) = s.lists (some u) := by simp [WaitSystem.queueUp]
  -- the lists differ from the old ones only by the current thread, which was in none of them
  have hmem : ∀ i t, t ∈ s.queueUp.lists i ↔ t ∈ s.lists i ∨ i = none ∧ t = s.current := by
    intro i t
    cases i with
    | none => rw [hnone]; simp
    | some u => rw [hsome]; simp
  have hlists : ∀ i t, t ∈ s.lists i → t ≠ s.current := fun i t ht heq => hnot i (heq ▸ ht)
  exact {
    placed := h.placed.markBlocked hidle hrun
    queue := by
      exact h.queue.push (hnot none)
    walks := fun u => by
      refine (h.walks u).congr fun t ht => h.queue.pushNext_of_notMem ?_ (hlists _ t ht)
      exact fun hq => nomatch h.apart _ _ t ht hq
    nodup := fun i => by
      cases i with
      | none => exact hnone ▸ (h.queue.push (hnot none)).nodup
      | some u => exact hsome u ▸ h.nodup (some u)
    apart := fun i j t hi hj => by
      rcases (hmem i t).mp hi with hi | ⟨rfl, heq⟩ <;> rcases (hmem j t).mp hj with hj | ⟨rfl, heq'⟩
      · exact h.apart i j t hi hj
      · exact absurd heq' (hlists i t hi)
      · exact absurd heq (hlists j t hj)
      · rfl
    running := fun hpark => absurd (goto_self s _) hpark
    parking := fun t ht => by
      by_cases heq : t = s.current
      · exact ⟨heq, none, (hmem none t).mpr (.inr ⟨rfl, heq⟩)⟩
      · exact absurd ((goto_of_ne s _ heq).symm.trans ht) (hno t)
    mem := fun i t ht => by
      rcases (hmem i t).mp ht with ht | ⟨-, heq⟩
      · obtain ⟨hasleep, hstate⟩ := h.mem i t ht
        have heq := hlists i t ht
        exact ⟨(goto_of_ne s _ heq).symm ▸ hasleep, (hother t heq).trans hstate⟩
      · rw [heq]
        exact ⟨.inl (goto_self s _), hself⟩
    waiting := fun t ht hl => by
      have heq : t ≠ s.current := fun heq => hl none ((hmem none t).mpr (.inr ⟨rfl, heq⟩))
      change (s.sched.markBlocked.state t).Live
      rw [hother t heq]
      refine h.waiting t ((goto_of_ne s _ heq).symm.trans ht) fun i hi => ?_
      exact hl i ((hmem i t).mpr (.inl hi))
    idle := (goto_of_ne s _ (Ne.symm hidle)).trans h.idle
    queued_count := fun t => by
      have harrivals : s.queueUp.arrivals = s.arrivals ++ [s.current] := rfl
      have hdetached : s.queueUp.detached = s.detached := rfl
      rw [hnone, harrivals, hdetached, List.count_append, List.count_append, h.queued_count t,
        Nat.add_assoc]
    taken_count := fun u t ht => h.taken_count u t (hsome u ▸ ht)
    settled_count := fun t ht => h.settled_count t fun u hu => ht u (hsome u ▸ hu)
    drained := fun hd => nomatch hcond.symm.trans (h.drained hd).1 }

/-- The queued thread gives up the CPU. -/
theorem Inv.park (hstage : s.stage s.current = .parking) : s.park.Inv := by
  obtain ⟨-, i, hmem⟩ := h.parking _ hstage
  have hswitch := h.placed.switchBlocked (h.mem i _ hmem).2
  have hno : ∀ t, (s.goto .waiting).stage t ≠ .parking := by
    intro t ht
    obtain ⟨hne, ht⟩ := stage_of_goto ht (by simp)
    exact hne (h.parking t ht).1
  exact { h with
    placed := hswitch.placed
    running := fun _ => hswitch.running
    parking := fun t ht => absurd ht (hno t)
    mem := fun j t ht => by
      obtain ⟨hasleep, hstate⟩ := h.mem j t ht
      refine ⟨?_, (hswitch.blocked_iff t).mpr hstate⟩
      by_cases heq : t = s.current
      · rw [heq]
        exact .inr (goto_self s _)
      · exact (goto_of_ne s .waiting heq).symm ▸ hasleep
    waiting := fun t ht hl => by
      have heq : t ≠ s.current := fun heq => hl i (heq ▸ hmem)
      exact hswitch.live (h.waiting t ((goto_of_ne s _ heq).symm.trans ht) hl)
    idle := by
      have heq : s.sched.gIdleThread ≠ s.current := by
        intro heq
        rw [← heq, h.idle] at hstage
        cases hstage
      change (s.goto .waiting).stage s.sched.switchBlocked.gIdleThread = _
      rw [hswitch.idle_eq, goto_of_ne s _ heq]
      exact h.idle }

/-- A waker takes over the whole queue. -/
theorem Inv.detach (hu : s.waker u = .idle) : (s.detach u).Inv := by
  have hempty : s.lists (some u) = [] := by
    have hw := h.walks u
    rw [hu] at hw
    exact hw
  have hnone : (s.detach u).lists none = [] := by simp [WaitSystem.detach]
  have hself : (s.detach u).lists (some u) = s.lists none := by simp [WaitSystem.detach]
  have hother : ∀ v, v ≠ u → (s.detach u).lists (some v) = s.lists (some v) := fun v hv => by
    simp [WaitSystem.detach, hv]
  -- the queue and the list of the waker change places
  have hlists : ∀ i, (s.detach u).lists i = s.lists (Equiv.swap none (some u) i) := by
    intro i
    cases i with
    | none => rw [Equiv.swap_apply_left, hempty, hnone]
    | some v =>
      by_cases hv : v = u
      · rw [hv, Equiv.swap_apply_right, hself]
      · rw [Equiv.swap_apply_of_ne_of_ne (by simp) (by simp [hv]), hother v hv]
  have hold : ∀ i, (s.detach u).lists (Equiv.swap none (some u) i) = s.lists i := fun i => by
    rw [hlists, Equiv.swap_apply_self]
  have hcount : ∀ t, (s.detach u).detached.count t = s.detached.count t + (s.lists none).count t := fun t =>
    List.count_append
  exact { h with
    queue := hnone.symm ▸ .empty s.waitNext
    walks := fun v => by
      by_cases hv : v = u
      · rw [hv, hself]
        simp only [WaitSystem.detach, update_self]
        exact h.queue.chain
      · rw [hother v hv]
        simp only [WaitSystem.detach, update_of_ne hv]
        exact h.walks v
    nodup := fun i => hlists i ▸ h.nodup _
    apart := fun i j t hi hj =>
      (Equiv.swap none (some u)).injective (h.apart _ _ t (hlists i ▸ hi) (hlists j ▸ hj))
    parking := fun t ht => by
      obtain ⟨heq, i, hi⟩ := h.parking t ht
      exact ⟨heq, _, (hold i).symm ▸ hi⟩
    mem := fun i t ht => h.mem _ t (hlists i ▸ ht)
    waiting := fun t ht hl => h.waiting t ht fun i hi => hl _ ((hold i).symm ▸ hi)
    queued_count := fun t => by
      rw [hcount]
      exact h.queued_count t
    taken_count := fun v t ht => by
      rw [hcount]
      by_cases hv : v = u
      · rw [hv, hself] at ht
        have hfree : ∀ v, t ∉ s.lists (some v) := fun v hv => nomatch h.apart _ _ t ht hv
        rw [List.count_eq_one_of_mem (h.nodup none) ht, h.settled_count t hfree]
        rfl
      · rw [hother v hv] at ht
        have hnot : t ∉ s.lists none := fun hq => nomatch h.apart _ _ t ht hq
        rw [List.count_eq_zero.mpr hnot]
        exact h.taken_count v t ht
    settled_count := fun t ht => by
      have hnot : t ∉ s.lists none := fun hq => ht u (hself.symm ▸ hq)
      rw [hcount, List.count_eq_zero.mpr hnot]
      refine h.settled_count t fun v hv => ?_
      by_cases heq : v = u
      · rw [heq, hempty] at hv
        cases hv
      · exact ht v ((hother v heq).symm ▸ hv)
    drained := fun hd => ⟨hd, hnone⟩  }

theorem Inv.setCondition (b : Bool) : (s.setCondition b).Inv :=
  { h with
    drained := fun hd => by
      obtain ⟨hd, hb⟩ := Bool.and_eq_true_iff.mp hd
      exact ⟨hb, (h.drained hd).2⟩ }

/-- A waker takes a step that puts no thread on the ready queue. -/
theorem Inv.relink {w : Waker} {waitNext : ℕ → Option ℕ}
    (hwalks : w.Walks waitNext (s.lists (some u)))
    (hnext : ∀ t, t ∉ s.lists (some u) → waitNext t = s.waitNext t) :
    { s with waitNext := waitNext, waker := update s.waker u w }.Inv := by
  have hkeep : ∀ i, i ≠ some u → ∀ t ∈ s.lists i, waitNext t = s.waitNext t := fun i hi t ht =>
    hnext t fun hu => hi (h.apart i (some u) t ht hu)
  exact { h with
    queue := h.queue.congr (hkeep none (by simp))
    walks := fun v => by
      by_cases hv : v = u
      · rw [hv]
        simp only [update_self]
        exact hwalks
      · simp only [update_of_ne hv]
        exact (h.walks v).congr (hkeep (some v) (by simp [hv])) }

/-- A waker puts a thread on the ready queue. -/
theorem Inv.enqueueing {u curr : ℕ} {next : Option ℕ} (hstage : s.stage s.current ≠ .parking)
    (hu : s.waker u = .enqueueing curr next) : (s.wakerStep u).Inv := by
  have hwalks := h.walks u
  rw [hu] at hwalks
  obtain ⟨rest, hlist, hchain⟩ := hwalks
  have hcurr : curr ∈ s.lists (some u) := hlist ▸ (.head _)
  obtain ⟨hrest, hnodup⟩ := List.nodup_cons.mp (hlist ▸ h.nodup (some u))
  have hblocked := (h.mem _ _ hcurr).2
  have hstep : s.wakerStep u =
      { s with
        sched := s.sched.enqueueReady curr
        waker := update s.waker u (.walking next)
        lists := update s.lists (some u) rest
        wakes := s.wakes ++ [curr] } := by
    rw [wakerStep, hu, hlist]
    rfl
  rw [hstep]
  have hother : ∀ i, i ≠ some u → update s.lists (some u) rest i = s.lists i := fun i hi =>
    update_of_ne hi _ _
  have hmem : ∀ i t, t ∈ update s.lists (some u) rest i ↔ t ∈ s.lists i ∧ t ≠ curr := by
    intro i t
    by_cases hi : i = some u
    · rw [hi, update_self, hlist, List.mem_cons]
      constructor
      · exact fun ht => ⟨.inr ht, fun heq => hrest (heq ▸ ht)⟩
      · exact fun ⟨ht, hne⟩ => ht.resolve_left hne
    · rw [hother i hi]
      refine ⟨fun ht => ⟨ht, ?_⟩, And.left⟩
      rintro rfl
      exact hi (h.apart i (some u) t ht hcurr)
  have hstate : ∀ t, t ≠ curr → (s.sched.enqueueReady curr).state t = s.sched.state t := fun t ht =>
    Scheduler.setState_of_ne _ _ ht
  have hrun := h.running hstage
  have hne : s.current ≠ curr := by
    intro heq
    rw [heq] at hrun
    exact nomatch hrun.symm.trans hblocked
  have hcount : ∀ t, t ≠ curr → (s.wakes ++ [curr]).count t = s.wakes.count t := by
    intro t ht
    simp [Ne.symm ht]
  exact { h with
    placed := h.placed.enqueueReady (h.placed.ne_idle hblocked) (by rw [hblocked]; simp)
    walks := fun v => by
      by_cases hv : v = u
      · rw [hv]
        simp only [update_self]
        exact hchain
      · simp only [hother (some v) (by simp [hv]), update_of_ne hv]
        exact h.walks v
    nodup := fun i => by
      by_cases hi : i = some u
      · simp only [hi, update_self]
        exact hnodup
      · simp only [hother i hi]
        exact h.nodup i
    apart := fun i j t hi hj => h.apart i j t ((hmem i t).mp hi).1 ((hmem j t).mp hj).1
    running := fun _ => (hstate _ hne).trans hrun
    parking := fun t ht => absurd ht (h.not_parking hstage t)
    mem := fun i t ht => by
      obtain ⟨ht, hne⟩ := (hmem i t).mp ht
      exact ⟨(h.mem i t ht).1, (hstate t hne).trans (h.mem i t ht).2⟩
    waiting := fun t ht hl => by
      by_cases heq : t = curr
      · rw [heq]
        exact .inl (Scheduler.setState_self _ _ _)
      · simp only [hstate t heq]
        exact h.waiting t ht fun i hi => hl i ((hmem i t).mpr ⟨hi, heq⟩)
    taken_count := fun v t ht => by
      obtain ⟨ht, hne⟩ := (hmem _ t).mp ht
      rw [hcount t hne]
      exact h.taken_count v t ht
    settled_count := fun t ht => by
      by_cases heq : t = curr
      · rw [heq, List.count_append, h.taken_count u curr hcurr, List.count_singleton_self]
      · rw [hcount t heq]
        exact h.settled_count t fun v hv => ht v ((hmem _ t).mpr ⟨hv, heq⟩) }

theorem Inv.wakerStep
    (hlock : ∀ curr next, s.waker u = .enqueueing curr next → s.stage s.current ≠ .parking) :
    (s.wakerStep u).Inv := by
  have hwalks := h.walks u
  cases hu : s.waker u with
  | idle =>
    rw [WaitSystem.wakerStep, hu]
    exact h
  | walking curr =>
    rw [hu] at hwalks
    rw [WaitSystem.wakerStep, hu]
    cases curr with
    | none => exact h.relink (Chain.eq_none_iff hwalks |>.mp rfl) fun _ _ => rfl
    | some curr =>
      refine h.relink ?_ fun _ _ => rfl
      cases hlist : s.lists (some u) with
      | nil =>
        rw [hlist] at hwalks
        exact absurd hwalks (by simp [Waker.Walks, Chain])
      | cons t rest =>
        rw [hlist] at hwalks
        obtain ⟨heq, hchain⟩ := hwalks
        obtain rfl := Option.some.inj heq
        exact ⟨rest, rfl, hchain⟩
  | unlinking curr next =>
    rw [hu] at hwalks
    obtain ⟨rest, hlist, hchain⟩ := hwalks
    obtain ⟨hrest, -⟩ := List.nodup_cons.mp (hlist ▸ h.nodup (some u))
    rw [WaitSystem.wakerStep, hu]
    refine h.relink ⟨rest, hlist, hchain.congr fun t ht => ?_⟩ fun t ht => ?_
    · exact update_of_ne (ne_of_mem_of_not_mem ht hrest) _ _
    · refine update_of_ne ?_ _ _
      rintro rfl
      exact ht (hlist ▸ (.head _))
  | enqueueing curr next => exact h.enqueueing (hlock curr next hu) hu

theorem Inv.step {s' : WaitSystem} (hstep : Step s s') : s'.Inv := by
  have hidle : s.stage s.current ≠ .outside → s.current ≠ s.sched.gIdleThread := by
    intro hne heq
    rw [heq, h.idle] at hne
    exact hne rfl
  cases hstep with
  | enter now timeoutMs hstage hne => exact h.goto (by simp [hstage]) (.inl hne) (by decide) _
  | testCondition hstage =>
    rw [WaitSystem.testCondition]
    split
    · exact h.goto (by simp [hstage]) (.inr rfl) (by decide) s.locals
    · exact h.goto (by simp [hstage]) (.inl (hidle (by simp [hstage]))) (by decide) s.locals
  | testTimeout now hstage =>
    rw [WaitSystem.testTimeout]
    split
    · exact h.goto (by simp [hstage]) (.inr rfl) (by decide) _
    · exact h.goto (by simp [hstage]) (.inl (hidle (by simp [hstage]))) (by decide) s.locals
  | enqueue hstage =>
    rw [WaitSystem.enqueue]
    cases hcond : s.condition with
    | true => exact h.goto (by simp [hstage]) (.inr rfl) (by decide) s.locals
    | false => exact h.queueUp hstage hcond
  | park hstage => exact h.park hstage
  | resume hstage =>
    exact h.goto (by simp [hstage]) (.inl (hidle (by simp [hstage]))) (by decide) s.locals
  | preempt hstage => exact h.preempt hstage
  | detach u hu => exact h.detach hu
  | waker u hlock => exact h.wakerStep hlock
  | setCondition b => exact h.setCondition b

end

theorem Reached.inv (h : Reached s) : s.Inv := by
  induction h with
  | create waitNext locals condition hplaced hrun => exact .create waitNext locals condition hplaced hrun
  | step _ hstep ih => exact ih.step hstep

end Inv

/-! ## The end of a wake-up -/

section Finishes

variable {s : WaitSystem} {u : ℕ} {l : List ℕ}

/-- The loop of the waker ends and puts the threads `l` on the ready queue. -/
def Finishes (u : ℕ) (s : WaitSystem) (l : List ℕ) : Prop :=
  ∃ n, ((wakerStep u)^[n] s).waker u = .idle ∧ ((wakerStep u)^[n] s).wakes = s.wakes ++ l

theorem Finishes.of_step (woken : List ℕ) (h : Finishes u (s.wakerStep u) l)
    (hwakes : (s.wakerStep u).wakes = s.wakes ++ woken) : Finishes u s (woken ++ l) := by
  obtain ⟨n, hidle, heq⟩ := h
  refine ⟨n + 1, hidle, ?_⟩
  rw [Function.iterate_succ_apply, heq, hwakes, List.append_assoc]

theorem finishes (hwalks : (s.waker u).Walks s.waitNext l) (hl : l.Nodup) : Finishes u s l := by
  induction l generalizing s with
  | nil =>
    cases hu : s.waker u with
    | idle => exact ⟨0, hu, (List.append_nil _).symm⟩
    | walking curr =>
      rw [hu] at hwalks
      obtain rfl : curr = none := hwalks
      refine ⟨1, ?_, ?_⟩ <;> simp [wakerStep, hu]
    | unlinking curr next | enqueueing curr next =>
      rw [hu] at hwalks
      obtain ⟨rest, heq, -⟩ := hwalks
      cases heq
  | cons t l ih =>
    obtain ⟨ht, hl⟩ := List.nodup_cons.mp hl
    -- the three steps for `t`, from the last to the first
    have henqueue : ∀ (s : WaitSystem) next, s.waker u = .enqueueing t next →
        Chain s.waitNext next l → Finishes u s (t :: l) := by
      intro s next hu hchain
      refine .of_step [t] (ih ?_ hl) ?_
      · simpa [wakerStep, hu, Waker.Walks] using hchain
      · simp [wakerStep, hu]
    have hunlink : ∀ (s : WaitSystem) next, s.waker u = .unlinking t next →
        Chain s.waitNext next l → Finishes u s (t :: l) := by
      intro s next hu hchain
      refine .of_step [] (henqueue (s.wakerStep u) next ?_ ?_) ?_
      · simp [wakerStep, hu]
      · refine hchain.congr fun x hx => ?_
        simp [wakerStep, hu, ne_of_mem_of_not_mem hx ht]
      · simp [wakerStep, hu]
    cases hu : s.waker u with
    | idle =>
      rw [hu] at hwalks
      exact absurd hwalks (by simp [Waker.Walks])
    | walking curr =>
      rw [hu] at hwalks
      obtain ⟨rfl, hchain⟩ := hwalks
      refine .of_step [] (hunlink (s.wakerStep u) (s.waitNext t) ?_ ?_) ?_
      · simp [wakerStep, hu]
      · simpa [wakerStep, hu] using hchain
      · simp [wakerStep, hu]
    | unlinking curr next =>
      rw [hu] at hwalks
      obtain ⟨rest, heq, hchain⟩ := hwalks
      obtain ⟨rfl, rfl⟩ := List.cons.inj heq
      exact hunlink s next hu hchain
    | enqueueing curr next =>
      rw [hu] at hwalks
      obtain ⟨rest, heq, hchain⟩ := hwalks
      obtain ⟨rfl, rfl⟩ := List.cons.inj heq
      exact henqueue s next hu hchain

end Finishes

/-- In every state of every run:

* the queue holds the threads that queued since it was last detached, and what each waker goes through are
  the threads it detached and has not put on the ready queue yet;
* no thread is in two of these lists or twice in one, and all their threads are blocked and not on the ready
  queue;
* each time a thread queued it is still on the queue or has been detached once, and each time it was
  detached it has been put on the ready queue once or a waker still has it;
* the loop of each waker ends, and puts all its threads on the ready queue;
* a thread that waits is in one of the lists, or it runs or is on the ready queue once;
* once the condition is true and the queue has been detached after that, and until the condition becomes
  false, no thread is on the queue, and a thread that is still blocked belongs to a waker. -/
theorem wait_queue_safe {s : WaitSystem} (h : Reached s) :
    s.wq.Holds s.waitNext (s.lists none) ∧ (∀ u, (s.waker u).Walks s.waitNext (s.lists (some u))) ∧
      (∀ i, (s.lists i).Nodup ∧
        ∀ t ∈ s.lists i, s.sched.state t = .blocked ∧ t ∉ s.sched.gReadyQueue) ∧
      (∀ i j t, t ∈ s.lists i → t ∈ s.lists j → i = j) ∧
      (∀ t, s.arrivals.count t = s.detached.count t + (s.lists none).count t) ∧
      (∀ u, ∀ t ∈ s.lists (some u), s.detached.count t = s.wakes.count t + 1) ∧
      (∀ t, (∀ u, t ∉ s.lists (some u)) → s.detached.count t = s.wakes.count t) ∧
      (∀ u, Finishes u s (s.lists (some u))) ∧
      s.sched.gReadyQueue.Nodup ∧
      (∀ t, s.stage t = .waiting → (∃ i, t ∈ s.lists i) ∨ t = s.current ∨ t ∈ s.sched.gReadyQueue) ∧
      (s.drained = true → s.condition = true ∧ s.wq.head = none ∧
        ∀ t, (s.stage t).Asleep → s.sched.state t = .blocked → ∃ u, t ∈ s.lists (some u)) := by
  have hinv := h.inv
  have hplaced := hinv.placed
  refine ⟨hinv.queue, hinv.walks, fun i => ⟨hinv.nodup i, fun t ht => ?_⟩, hinv.apart, hinv.queued_count,
    hinv.taken_count, hinv.settled_count, fun u => finishes (hinv.walks u) (hinv.nodup _), hplaced.nodup,
    fun t ht => ?_, fun hd => ?_⟩
  · have hblocked := (hinv.mem i t ht).2
    exact ⟨hblocked, hplaced.notMem_of_state (hplaced.ne_idle hblocked) (by rw [hblocked]; simp)⟩
  · by_cases hl : ∃ i, t ∈ s.lists i
    · exact .inl hl
    have hne : t ≠ s.sched.gIdleThread := by
      rintro rfl
      exact nomatch hinv.idle.symm.trans ht
    rcases hinv.waiting t ht fun i hi => hl ⟨i, hi⟩ with hready | hrun
    · exact .inr (.inr ((hplaced.mem_iff t hne).mpr hready))
    · exact .inr (.inl (hplaced.running_eq t hrun))
  · obtain ⟨hcond, hempty⟩ := hinv.drained hd
    refine ⟨hcond, hinv.queue.head_eq_none_iff.mpr hempty, fun t hasleep hblocked => ?_⟩
    have hlist : ∃ i, t ∈ s.lists i := by
      rcases hasleep with hst | hst
      · exact (hinv.parking t hst).2
      · by_contra hl
        rcases hinv.waiting t hst fun i hi => hl ⟨i, hi⟩ with hstate | hstate <;>
          exact nomatch hstate.symm.trans hblocked
    obtain ⟨i, hi⟩ := hlist
    cases i with
    | none =>
      rw [hempty] at hi
      cases hi
    | some u => exact ⟨u, hi⟩

/-- Thread 1 waits, and after the condition has become true a waker takes it off the queue. -/
def sampleWake : WaitSystem :=
  let s := create .samplePair (fun _ => none) (fun _ => ⟨0, 0, 0⟩) false
  (((s.enter 0 10).testCondition.testTimeout 1).enqueue.park.setCondition true).detach 7

theorem sampleWake_reached : Reached sampleWake := by
  have h := Reached.create (fun _ => none) (fun _ => ⟨0, 0, 0⟩) false Scheduler.samplePair_placed rfl
  have h := h.step (.enter 0 10 rfl (by decide))
  have h := h.step (.testCondition rfl)
  have h := h.step (.testTimeout 1 rfl)
  have h := h.step (.enqueue rfl)
  have h := h.step (.park rfl)
  have h := h.step (.setCondition true)
  exact h.step (.detach 7 rfl)

theorem wait_queue_safe_sample :
    sampleWake.drained = true ∧ sampleWake.wq.head = none ∧
      (∃ u, 1 ∈ sampleWake.lists (some u)) ∧ ∀ u, Finishes u sampleWake (sampleWake.lists (some u)) := by
  obtain ⟨-, -, -, -, -, -, -, hfinish, -, -, hdrained⟩ := wait_queue_safe sampleWake_reached
  obtain ⟨-, hhead, hwaker⟩ := hdrained rfl
  exact ⟨rfl, hhead, hwaker 1 (.inr rfl) rfl, hfinish⟩

end WaitSystem

end NovaOS.Sync
