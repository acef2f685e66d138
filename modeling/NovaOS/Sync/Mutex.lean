import NovaOS.Lib.Fifo
import NovaOS.Sched.Threads

/-!
# Mutexes

Reference: `kernel/sync/sync.h` (`mutex_lock`, `mutex_unlock`), `kernel/sched/sched.c`
(`schedBlockCurrent`, `schedEnqueueReady`).

Threads of one CPU that lock and unlock a mutex, cut where another thread can run. Each section under a
spinlock is one step. `mutex_lock` that has to wait marks its thread as blocked before it releases the lock
of the mutex and switches to another thread after that, under the lock of the scheduler; `mutex_unlock`
hands the mutex over under its lock and puts the new owner on the ready queue in a second step. Between
steps the timer can switch to any other thread.
-/

namespace NovaOS.Sync

open NovaOS.Lib NovaOS.Sched Function List Option

/-- `Mutex`, without its spinlock. -/
structure Mutex where
  locked : Bool
  owner : Option ℕ
  waiters : Fifo ℕ

/-- `MUTEX_INIT`. -/
def Mutex.init : Mutex := ⟨false, none, ⟨none, none⟩⟩

/-- Where a thread is: outside the code of the mutex, or holding it without being in that code; in
`schedBlockCurrent` before or after the switch; or in `mutex_unlock` before it wakes the next owner. -/
inductive Stage where
  | outside
  | parking
  | waiting
  | waking (wake : ℕ)
deriving DecidableEq

/-- The threads and the mutex. `waitNext` is a field of the threads.

The rest is a record: the threads that are between a lock and an unlock, and in their order the threads
that had to wait, those that were made the owner by an unlock, and those that an unlock put on the ready
queue. -/
structure MutexSystem where
  sched : Scheduler
  waitNext : ℕ → Option ℕ
  m : Mutex
  stage : ℕ → Stage
  holding : ℕ → Bool
  arrivals : List ℕ
  handoffs : List ℕ
  wakes : List ℕ

namespace MutexSystem

/-- `schedCurrent`. -/
def current (s : MutexSystem) : ℕ := s.sched.gCurrentThread

def setStage (s : MutexSystem) (t : ℕ) (stage : Stage) : MutexSystem :=
  { s with stage := update s.stage t stage }

/-- `mutex_lock`, to its return or to the release of the lock in `schedBlockCurrent`. -/
def mutexLock (s : MutexSystem) : MutexSystem :=
  if !s.m.locked then
    { s with
      m := { s.m with locked := true, owner := some s.current }
      holding := update s.holding s.current true }
  else
    { s.setStage s.current .parking with
      waitNext := Fifo.pushNext s.waitNext s.m.waiters s.current
      m := { s.m with waiters := s.m.waiters.push s.current }
      sched := s.sched.markBlocked
      arrivals := s.arrivals ++ [s.current] }

/-- The end of `schedBlockCurrent`. -/
def park (s : MutexSystem) : MutexSystem :=
  { s.setStage s.current .waiting with sched := s.sched.switchBlocked }

/-- The return from `mutex_lock` after the switch back. -/
def resume (s : MutexSystem) : MutexSystem :=
  { s.setStage s.current .outside with holding := update s.holding s.current true }

/-- `mutex_unlock`, to the release of the lock. -/
def mutexUnlock (s : MutexSystem) : MutexSystem :=
  match s.m.waiters.head with
  | some wake =>
    { s.setStage s.current (.waking wake) with
      waitNext := update s.waitNext wake none
      m := { s.m with owner := some wake, waiters := s.m.waiters.pop s.waitNext wake }
      holding := update s.holding s.current false
      handoffs := s.handoffs ++ [wake] }
  | none =>
    { s with
      m := { s.m with locked := false, owner := none }
      holding := update s.holding s.current false }

/-- `schedEnqueueReady` at the end of `mutex_unlock`. -/
def wakeOwner (s : MutexSystem) (wake : ℕ) : MutexSystem :=
  { s.setStage s.current .outside with
    sched := s.sched.enqueueReady wake
    wakes := s.wakes ++ [wake] }

/-- The timer interrupt, or a call of `schedule`. -/
def preempt (s : MutexSystem) : MutexSystem := { s with sched := s.sched.schedule }

/-- A step of the current thread. It unlocks the mutex only as the owner, and is not preempted while it
holds the lock of the scheduler. The idle thread only halts the CPU. -/
inductive Step : MutexSystem → MutexSystem → Prop
  | lock {s : MutexSystem} : s.stage s.current = .outside → s.current ≠ s.sched.gIdleThread →
      Step s s.mutexLock
  | park {s : MutexSystem} : s.stage s.current = .parking → Step s s.park
  | resume {s : MutexSystem} : s.stage s.current = .waiting → Step s s.resume
  | unlock {s : MutexSystem} : s.stage s.current = .outside → s.m.owner = some s.current →
      Step s s.mutexUnlock
  | wake {s : MutexSystem} {wake : ℕ} : s.stage s.current = .waking wake → Step s (s.wakeOwner wake)
  | preempt {s : MutexSystem} : s.stage s.current ≠ .parking → Step s s.preempt

/-- A new mutex and threads that do not use it yet. -/
def create (sched : Scheduler) (waitNext : ℕ → Option ℕ) : MutexSystem :=
  ⟨sched, waitNext, .init, fun _ => .outside, fun _ => false, [], [], []⟩

/-- The states of a run. -/
inductive Reached : MutexSystem → Prop
  | create {sched : Scheduler} (waitNext : ℕ → Option ℕ) : sched.Placed →
      sched.state sched.gCurrentThread = .running → Reached (create sched waitNext)
  | step {s s' : MutexSystem} : Reached s → Step s s' → Reached s'

/-- What holds in every state, where the threads `w` wait for the mutex. -/
structure Inv (s : MutexSystem) (w : List ℕ) : Prop where
  placed : s.sched.Placed
  queue : s.m.waiters.Holds s.waitNext w
  running : s.stage s.current ≠ .parking → s.sched.state s.current = .running
  parking : ∀ t, s.stage t = .parking → t = s.current ∧ t ∈ w
  mem : ∀ t ∈ w, (s.stage t = .waiting ∨ s.stage t = .parking) ∧ s.sched.state t = .blocked
  locked_eq : s.m.locked = s.m.owner.isSome
  free : s.m.locked = false → w = []
  holding : ∀ t, s.holding t = true → s.m.owner = some t ∧ (s.stage t = .waiting → t ∈ w)
  waiting : ∀ t, s.stage t = .waiting → t ∉ w → s.m.owner = some t ∧
    ((s.sched.state t).Live ∨ s.sched.state t = .blocked ∧ ∃ u, s.stage u = .waking t)
  waking : ∀ u t, s.stage u = .waking t →
    s.m.owner = some t ∧ s.sched.state t = .blocked ∧ s.stage t = .waiting ∧ t ∉ w
  waking_unique : ∀ u u' t t', s.stage u = .waking t → s.stage u' = .waking t' → u = u'
  waiting_ne : ∀ t, s.stage t = .waiting → t ≠ s.sched.gIdleThread
  fifo : s.arrivals = s.handoffs ++ w
  pending : (∃ u t, s.stage u = .waking t ∧ s.handoffs = s.wakes ++ [t]) ∨
    (∀ u t, s.stage u ≠ .waking t) ∧ s.handoffs = s.wakes

section Inv

variable {s : MutexSystem} {w : List ℕ} {t : ℕ}

theorem setStage_self (s : MutexSystem) (t : ℕ) (stage : Stage) : (s.setStage t stage).stage t = stage := by
  simp [setStage]

variable {x next : ℕ}

theorem setStage_of_ne (s : MutexSystem) (stage : Stage) {t : ℕ} (h : x ≠ t) :
    (s.setStage t stage).stage x = s.stage x := by
  simp [setStage, h]

variable {stage stage' : Stage}

/-- A thread other than `t` has kept its stage if it is not in the new one. -/
theorem stage_of_setStage {t : ℕ} (h : (s.setStage t stage).stage x = stage')
    (hne : stage' ≠ stage := by simp) : x ≠ t ∧ s.stage x = stage' := by
  have hx : x ≠ t := by
    rintro rfl
    exact hne (h.symm.trans (setStage_self s x stage))
  exact ⟨hx, (setStage_of_ne s stage hx).symm.trans h⟩

/-- A thread that was not in the old stage of `t` keeps its own. -/
theorem setStage_of_stage {t : ℕ} {old : Stage} (h : s.stage x = stage') (hold : s.stage t = old)
    (hne : stage' ≠ old := by simp) : (s.setStage t stage).stage x = stage' := by
  have hx : x ≠ t := by
    rintro rfl
    exact hne (h.symm.trans hold)
  exact (setStage_of_ne s stage hx).trans h

theorem Inv.create {sched : Scheduler} (waitNext : ℕ → Option ℕ) (hplaced : sched.Placed)
    (hrun : sched.state sched.gCurrentThread = .running) : (create sched waitNext).Inv [] := by
  constructor
  case placed => exact hplaced
  case queue => exact .empty waitNext
  case running => exact fun _ => hrun
  all_goals simp [MutexSystem.create, Mutex.init]

section

variable (h : s.Inv w)
include h

theorem Inv.preempt (hstage : s.stage s.current ≠ .parking) : s.preempt.Inv w := by
  have hswitch := h.placed.schedule (h.running hstage)
  have hno : ∀ t, s.stage t ≠ .parking := fun t ht => hstage ((h.parking t ht).1 ▸ ht)
  exact { h with
    placed := hswitch.placed
    running := fun _ => hswitch.running
    parking := fun t ht => absurd ht (hno t)
    mem := fun t ht => ⟨(h.mem t ht).1, (hswitch.blocked_iff t).mpr (h.mem t ht).2⟩
    waiting := fun t ht hw => by
      obtain ⟨howner, hstate⟩ := h.waiting t ht hw
      exact ⟨howner, hstate.imp hswitch.live fun hb => ⟨(hswitch.blocked_iff t).mpr hb.1, hb.2⟩⟩
    waking := fun u t ht => by
      obtain ⟨howner, hstate, hrest⟩ := h.waking u t ht
      exact ⟨howner, (hswitch.blocked_iff t).mpr hstate, hrest⟩
    waiting_ne := fun t ht => hswitch.idle_eq ▸ h.waiting_ne t ht }

theorem Inv.not_waking (ht : s.stage t = .outside) (howner : s.m.owner = some t) (u x : ℕ) :
    s.stage u ≠ .waking x := by
  intro hu
  obtain ⟨hx, -, hwait, -⟩ := h.waking u x hu
  obtain rfl := mem_unique howner hx
  exact nomatch ht.symm.trans hwait

theorem Inv.notMem_of_outside (ht : s.stage t = .outside) : t ∉ w := by
  intro hw
  rcases (h.mem t hw).1 with hst | hst <;> exact nomatch ht.symm.trans hst

/-- The mutex is free. -/
theorem Inv.lock_free (hstage : s.stage s.current = .outside) (hfree : s.m.locked = false) :
    s.mutexLock.Inv w := by
  have howner : s.m.owner = none := by
    have heq := h.locked_eq
    rw [hfree] at heq
    exact isNone_iff_eq_none.mp (by simpa using heq.symm)
  have hnone : ∀ t, s.m.owner ≠ some t := fun t ht => nomatch howner.symm.trans ht
  rw [mutexLock, hfree]
  simp only [Bool.not_false, if_true]
  exact { h with
    locked_eq := rfl
    free := fun hf => nomatch hf
    holding := fun t ht => by
      by_cases heq : t = s.current
      · rw [heq]
        exact ⟨rfl, fun hwait => nomatch hstage.symm.trans hwait⟩
      · simp only [update_of_ne heq] at ht
        exact absurd (h.holding t ht).1 (hnone t)
    waiting := fun t ht hw => absurd (h.waiting t ht hw).1 (hnone t)
    waking := fun u t ht => absurd (h.waking u t ht).1 (hnone t) }

/-- The thread joins the waiters. -/
theorem Inv.lock_wait (hstage : s.stage s.current = .outside)
    (hidle : s.current ≠ s.sched.gIdleThread) (hlocked : s.m.locked = true) :
    s.mutexLock.Inv (w ++ [s.current]) := by
  have hrun := h.running (by rw [hstage]; simp)
  have hnot := h.notMem_of_outside hstage
  have hself : s.sched.markBlocked.state s.current = .blocked := Scheduler.setState_self _ _ _
  have hother : ∀ t, t ≠ s.current → s.sched.markBlocked.state t = s.sched.state t := fun t ht =>
    Scheduler.setState_of_ne _ _ ht
  have hwaiting : ∀ t, s.stage t = .waiting → t ≠ s.current := by
    rintro t ht rfl
    exact nomatch hstage.symm.trans ht
  rw [mutexLock, hlocked]
  simp only [Bool.not_true, Bool.false_eq_true, if_false]
  exact {
    placed := h.placed.markBlocked hidle hrun
    queue := h.queue.push hnot
    running := fun hpark => absurd (setStage_self s _ _) hpark
    parking := fun t ht => by
      by_cases heq : t = s.current
      · rw [heq]
        exact ⟨rfl, mem_append_right _ (mem_singleton_self _)⟩
      · have hst := (setStage_of_ne s _ heq).symm.trans ht
        exact absurd (h.parking t hst).1 heq
    mem := fun t ht => by
      rcases mem_append.mp ht with ht | ht
      · obtain ⟨hst, hstate⟩ := h.mem t ht
        have heq : t ≠ s.current := fun heq => hnot (heq ▸ ht)
        refine ⟨?_, (hother t heq).trans hstate⟩
        exact hst.imp (setStage_of_stage · hstage) (setStage_of_stage · hstage)
      · rw [mem_singleton.mp ht]
        exact ⟨.inr (setStage_self s _ _), hself⟩
    locked_eq := h.locked_eq
    free := fun hf => nomatch hlocked.symm.trans hf
    holding := fun t ht => by
      obtain ⟨howner, hwait⟩ := h.holding t ht
      refine ⟨howner, fun hst => mem_append_left _ (hwait ?_)⟩
      exact (stage_of_setStage hst).2
    waiting := fun t ht hw => by
      obtain ⟨heq, ht⟩ := stage_of_setStage ht
      obtain ⟨howner, hstate⟩ := h.waiting t ht fun hmem => hw (mem_append_left _ hmem)
      refine ⟨howner, ?_⟩
      rw [hother t heq]
      refine hstate.imp_right fun hb => ⟨hb.1, hb.2.imp fun u hu => ?_⟩
      exact setStage_of_stage hu hstage
    waking := fun u t hu => by
      obtain ⟨-, hu⟩ := stage_of_setStage hu
      obtain ⟨howner, hstate, hwait, hw⟩ := h.waking u t hu
      have heq := hwaiting t hwait
      refine ⟨howner, (hother t heq).trans hstate, setStage_of_stage hwait hstage,
        fun hmem => ?_⟩
      rcases mem_append.mp hmem with hmem | hmem
      · exact hw hmem
      · exact heq (mem_singleton.mp hmem)
    waking_unique := fun u u' t t' hu hu' => h.waking_unique u u' t t'
      (stage_of_setStage hu).2 (stage_of_setStage hu').2
    waiting_ne := fun t ht => h.waiting_ne t (stage_of_setStage ht).2
    fifo := by
      change s.arrivals ++ [s.current] = s.handoffs ++ (w ++ [s.current])
      rw [h.fifo, append_assoc]
    pending := by
      rcases h.pending with ⟨u, t, hu, heq⟩ | ⟨hno, heq⟩
      · exact .inl ⟨u, t, setStage_of_stage hu hstage, heq⟩
      · exact .inr ⟨fun u t hu => hno u t (stage_of_setStage hu).2, heq⟩ }

/-- The waiting thread gives up the CPU. -/
theorem Inv.park (hstage : s.stage s.current = .parking) : s.park.Inv w := by
  obtain ⟨-, hmem⟩ := h.parking _ hstage
  have hswitch := h.placed.switchBlocked (h.mem _ hmem).2
  have hwaits : ∀ t, (s.setStage s.current .waiting).stage t = .waiting → t ∉ w →
      s.stage t = .waiting := by
    intro t ht hw
    have heq : t ≠ s.current := fun heq => hw (heq ▸ hmem)
    exact (setStage_of_ne s _ heq).symm.trans ht
  have hno : ∀ t, (s.setStage s.current .waiting).stage t ≠ .parking := by
    intro t ht
    obtain ⟨hne, ht⟩ := stage_of_setStage ht
    exact hne (h.parking t ht).1
  exact { h with
    placed := hswitch.placed
    running := fun _ => hswitch.running
    parking := fun t ht => absurd ht (hno t)
    mem := fun t ht => by
      obtain ⟨hst, hstate⟩ := h.mem t ht
      refine ⟨.inl ?_, (hswitch.blocked_iff t).mpr hstate⟩
      rcases hst with hst | hst
      · exact setStage_of_stage hst hstage
      · rw [(h.parking t hst).1]
        exact setStage_self s _ _
    holding := fun t ht => by
      obtain ⟨howner, hwait⟩ := h.holding t ht
      refine ⟨howner, fun hst => ?_⟩
      by_contra hw
      exact hw (hwait (hwaits t hst hw))
    waiting := fun t ht hw => by
      obtain ⟨howner, hstate⟩ := h.waiting t (hwaits t ht hw) hw
      refine ⟨howner, hstate.imp hswitch.live fun hb => ⟨(hswitch.blocked_iff t).mpr hb.1, ?_⟩⟩
      exact hb.2.imp fun u hu => setStage_of_stage hu hstage
    waking := fun u t hu => by
      obtain ⟨-, hu⟩ := stage_of_setStage hu
      obtain ⟨howner, hstate, hwait, hw⟩ := h.waking u t hu
      exact ⟨howner, (hswitch.blocked_iff t).mpr hstate, setStage_of_stage hwait hstage, hw⟩
    waking_unique := fun u u' t t' hu hu' => h.waking_unique u u' t t'
      (stage_of_setStage hu).2 (stage_of_setStage hu').2
    waiting_ne := fun t ht => by
      by_cases hw : t ∈ w
      · exact h.placed.ne_idle (h.mem t hw).2
      · exact h.waiting_ne t (hwaits t ht hw)
    pending := by
      rcases h.pending with ⟨u, t, hu, heq⟩ | ⟨hnone, heq⟩
      · exact .inl ⟨u, t, setStage_of_stage hu hstage, heq⟩
      · exact .inr ⟨fun u t hu => hnone u t (stage_of_setStage hu).2, heq⟩  }

/-- The thread runs again, as the owner. -/
theorem Inv.resume (hstage : s.stage s.current = .waiting) : s.resume.Inv w := by
  have hrun := h.running (by rw [hstage]; simp)
  have hnot : s.current ∉ w := by
    intro hmem
    exact nomatch hrun.symm.trans (h.mem _ hmem).2
  obtain ⟨howner, -⟩ := h.waiting _ hstage hnot
  have hnone : ∀ u t, s.stage u ≠ .waking t := by
    intro u t hu
    obtain ⟨ht, hstate, -⟩ := h.waking u t hu
    obtain rfl := mem_unique howner ht
    exact nomatch hrun.symm.trans hstate
  have hnone' : ∀ u t, (s.setStage s.current .outside).stage u ≠ .waking t := fun u t hu =>
    hnone u t (stage_of_setStage hu).2
  exact { h with
    running := fun _ => hrun
    parking := fun t ht => h.parking t (stage_of_setStage ht).2
    mem := fun t ht => by
      have heq : t ≠ s.current := fun heq => hnot (heq ▸ ht)
      obtain ⟨hst, hstate⟩ := h.mem t ht
      have hsame : (s.setStage s.current .outside).stage t = s.stage t := setStage_of_ne s _ heq
      exact ⟨hst.imp hsame.trans hsame.trans, hstate⟩
    holding := fun t ht => by
      have heq : t = s.current := by
        by_contra heq
        simp only [MutexSystem.resume, update_of_ne heq] at ht
        exact heq (mem_unique (h.holding t ht).1 howner)
      rw [heq]
      refine ⟨howner, fun hst => nomatch (setStage_self s _ _).symm.trans hst⟩
    waiting := fun t ht hw => by
      obtain ⟨heq, ht⟩ := stage_of_setStage ht
      exact absurd (mem_unique (h.waiting t ht hw).1 howner) heq
    waking := fun u t hu => absurd hu (hnone' u t)
    waking_unique := fun u _ t _ hu => absurd hu (hnone' u t)
    waiting_ne := fun t ht => h.waiting_ne t (stage_of_setStage ht).2
    pending := by
      rcases h.pending with ⟨u, t, hu, -⟩ | ⟨-, heq⟩
      · exact absurd hu (hnone u t)
      · exact .inr ⟨hnone', heq⟩  }

end

/-- Nobody holds the mutex after its owner has let it go. -/
theorem Inv.released (h : s.Inv w) (howner : s.m.owner = some s.current) (t : ℕ) :
    update s.holding s.current false t ≠ true := by
  by_cases heq : t = s.current
  · simp [heq]
  · rw [update_of_ne heq]
    exact fun ht => heq (mem_unique (h.holding t ht).1 howner)

/-- The owner hands the mutex to the first waiter. -/
theorem Inv.unlock_handoff {rest : List ℕ} (h : s.Inv (next :: rest))
    (hstage : s.stage s.current = .outside) (howner : s.m.owner = some s.current)
    (hhead : s.m.waiters.head = some next) : s.mutexUnlock.Inv rest := by
  obtain ⟨rest', heq, hqueue⟩ := h.queue.pop hhead
  obtain rfl : rest = rest' := (cons.inj heq).2
  obtain ⟨hnext, -⟩ := nodup_cons.mp h.queue.nodup
  obtain ⟨hst, hblocked⟩ := h.mem next (.head _)
  have hrun := h.running (by rw [hstage]; simp)
  have hnone := h.not_waking hstage howner
  have hno : ∀ t, s.stage t ≠ .parking := by
    intro t ht
    have hst := (h.parking t ht).1 ▸ ht
    exact nomatch hstage.symm.trans hst
  have hwait : s.stage next = .waiting := hst.resolve_right (hno next)
  have hlocked : s.m.locked = true := by
    rw [h.locked_eq, howner]
    rfl
  have hwaits : ∀ t, s.stage t = .waiting → t ∉ next :: rest → False := by
    intro t ht hw
    obtain rfl := mem_unique (h.waiting t ht hw).1 howner
    exact nomatch hstage.symm.trans ht
  have hself : (s.setStage s.current (.waking next)).stage s.current = .waking next :=
    setStage_self s _ _
  have hwaking : ∀ u t, (s.setStage s.current (.waking next)).stage u = .waking t →
      u = s.current ∧ t = next := by
    intro u t hu
    by_cases heq : u = s.current
    · rw [heq, hself] at hu
      exact ⟨heq, (Stage.waking.inj hu).symm⟩
    · exact absurd ((setStage_of_ne s _ heq).symm.trans hu) (hnone u t)
  rw [mutexUnlock, hhead]
  exact {
    placed := h.placed
    queue := hqueue.congr fun x hx => update_of_ne (ne_of_mem_of_not_mem hx hnext) _ _
    running := fun _ => hrun
    parking := fun t ht => absurd (stage_of_setStage ht).2 (hno t)
    mem := fun t ht => by
      obtain ⟨hst, hstate⟩ := h.mem t (.tail _ ht)
      exact ⟨.inl (setStage_of_stage (hst.resolve_right (hno t)) hstage), hstate⟩
    locked_eq := hlocked
    free := fun hf => nomatch hlocked.symm.trans hf
    holding := fun t ht => absurd ht (h.released howner t)
    waiting := fun t ht hw => by
      obtain ⟨-, ht⟩ := stage_of_setStage ht
      have heq : t = next := by
        by_contra hne
        exact hwaits t ht fun hmem => (mem_cons.mp hmem).elim hne hw
      rw [heq]
      exact ⟨rfl, .inr ⟨hblocked, s.current, hself⟩⟩
    waking := fun u t hu => by
      obtain ⟨-, rfl⟩ := hwaking u t hu
      exact ⟨rfl, hblocked, setStage_of_stage hwait hstage, hnext⟩
    waking_unique := fun u u' t t' hu hu' => (hwaking u t hu).1.trans (hwaking u' t' hu').1.symm
    waiting_ne := fun t ht => h.waiting_ne t (stage_of_setStage ht).2
    fifo := by
      change s.arrivals = (s.handoffs ++ [next]) ++ rest
      rw [h.fifo, append_assoc]
      rfl
    pending := by
      rcases h.pending with ⟨u, t, hu, -⟩ | ⟨-, heq⟩
      · exact absurd hu (hnone u t)
      · exact .inl ⟨s.current, next, hself, congrArg (· ++ [next]) heq⟩ }

/-- The owner frees the mutex. -/
theorem Inv.unlock_free (h : s.Inv w) (hstage : s.stage s.current = .outside)
    (howner : s.m.owner = some s.current) (hhead : s.m.waiters.head = none) : s.mutexUnlock.Inv w := by
  obtain rfl : w = [] := h.queue.head_eq_none_iff.mp hhead
  have hnone := h.not_waking hstage howner
  rw [mutexUnlock, hhead]
  exact { h with
    locked_eq := rfl
    free := fun _ => rfl
    holding := fun t ht => absurd ht (h.released howner t)
    waiting := fun t ht hw => by
      obtain rfl := mem_unique (h.waiting t ht hw).1 howner
      exact nomatch hstage.symm.trans ht
    waking := fun u t hu => absurd hu (hnone u t) }

/-- The new owner is put on the ready queue. -/
theorem Inv.wakeOwner (h : s.Inv w) (hstage : s.stage s.current = .waking next) :
    (s.wakeOwner next).Inv w := by
  obtain ⟨howner, hblocked, hwait, hnot⟩ := h.waking _ _ hstage
  have hrun := h.running (by rw [hstage]; simp)
  have hother : ∀ t, t ≠ next → (s.sched.enqueueReady next).state t = s.sched.state t := fun t ht =>
    Scheduler.setState_of_ne _ _ ht
  have hready : (s.sched.enqueueReady next).state next = .ready := Scheduler.setState_self _ _ _
  have hne : s.current ≠ next := by
    intro heq
    rw [heq] at hrun
    exact nomatch hrun.symm.trans hblocked
  have hunique : ∀ u t, s.stage u = .waking t → u = s.current := fun u t hu =>
    h.waking_unique u s.current t next hu hstage
  have hnone : ∀ u t, (s.setStage s.current .outside).stage u ≠ .waking t := by
    intro u t hu
    obtain ⟨hu', hu⟩ := stage_of_setStage hu
    exact hu' (hunique u t hu)
  exact { h with
    placed := h.placed.enqueueReady (h.placed.ne_idle hblocked) (by rw [hblocked]; simp)
    running := fun _ => (hother _ hne).trans hrun
    parking := fun t ht => h.parking t (stage_of_setStage ht).2
    mem := fun t ht => by
      obtain ⟨hst, hstate⟩ := h.mem t ht
      have heq : t ≠ next := fun heq => hnot (heq ▸ ht)
      exact ⟨hst.imp (setStage_of_stage · hstage) (setStage_of_stage · hstage), (hother t heq).trans hstate⟩
    holding := fun t ht => by
      obtain ⟨howner, hw⟩ := h.holding t ht
      exact ⟨howner, fun hst => hw (stage_of_setStage hst).2⟩
    waiting := fun t ht hw => by
      obtain ⟨-, ht⟩ := stage_of_setStage ht
      obtain ⟨howner', -⟩ := h.waiting t ht hw
      obtain rfl := mem_unique howner' howner
      exact ⟨howner', .inl (.inl hready)⟩
    waking := fun u t hu => absurd hu (hnone u t)
    waking_unique := fun u _ t _ hu => absurd hu (hnone u t)
    waiting_ne := fun t ht => h.waiting_ne t (stage_of_setStage ht).2
    pending := by
      refine .inr ⟨hnone, ?_⟩
      rcases h.pending with ⟨u, t, hu, heq⟩ | ⟨hno, -⟩
      · rw [hunique u t hu, hstage] at hu
        rw [Stage.waking.inj hu]
        exact heq
      · exact absurd hstage (hno _ _)  }

theorem Inv.step {s' : MutexSystem} (h : s.Inv w) (hstep : Step s s') : ∃ w', s'.Inv w' := by
  cases hstep with
  | lock hstage hidle =>
    cases hlocked : s.m.locked with
    | false => exact ⟨w, h.lock_free hstage hlocked⟩
    | true => exact ⟨_, h.lock_wait hstage hidle hlocked⟩
  | park hstage => exact ⟨w, h.park hstage⟩
  | resume hstage => exact ⟨w, h.resume hstage⟩
  | unlock hstage howner =>
    cases hhead : s.m.waiters.head with
    | none => exact ⟨w, h.unlock_free hstage howner hhead⟩
    | some next =>
      obtain ⟨rest, rfl, -⟩ := h.queue.pop hhead
      exact ⟨rest, h.unlock_handoff hstage howner hhead⟩
  | wake hstage => exact ⟨w, h.wakeOwner hstage⟩
  | preempt hstage => exact ⟨w, h.preempt hstage⟩

theorem Reached.inv (h : Reached s) : ∃ w, s.Inv w := by
  induction h with
  | create waitNext hplaced hrun => exact ⟨[], .create waitNext hplaced hrun⟩
  | step _ hstep ih =>
    obtain ⟨w, hinv⟩ := ih
    exact hinv.step hstep

end Inv

/-- In every state of every run, with the threads `w` waiting in this order:

* a thread between lock and unlock is the owner, so there is at most one;
* the list of the mutex is `w`, without repetition, and all of `w` are blocked and not on the ready queue;
* the mutex is handed over in the order in which the threads came, and none waits while it is free;
* each thread that was handed the mutex has been put on the ready queue once, except for the last one
  while the `mutex_unlock` of some other thread is about to do it; until then it is blocked;
* a thread that waits is in `w`, or it is the owner and runs, is on the ready queue once, or is about to
  be put there. -/
theorem mutex_safe {s : MutexSystem} (h : Reached s) :
    ∃ w, (∀ t, s.holding t = true → s.m.owner = some t) ∧ s.m.waiters.Holds s.waitNext w ∧
      (∀ t ∈ w, s.sched.state t = .blocked ∧ t ∉ s.sched.gReadyQueue) ∧
      s.arrivals = s.handoffs ++ w ∧
      (s.m.locked = false → w = []) ∧
      ((∃ u t, s.stage u = .waking t ∧ s.handoffs = s.wakes ++ [t]) ∨ s.handoffs = s.wakes) ∧
      (∀ u t, s.stage u = .waking t →
        s.m.owner = some t ∧ s.sched.state t = .blocked ∧ t ∉ s.sched.gReadyQueue) ∧
      s.sched.gReadyQueue.Nodup ∧
      ∀ t, s.stage t = .waiting → t ∈ w ∨ s.m.owner = some t ∧
        (t = s.current ∨ t ∈ s.sched.gReadyQueue ∨ ∃ u, s.stage u = .waking t) := by
  obtain ⟨w, hinv⟩ := h.inv
  have hplaced := hinv.placed
  have hqueue : ∀ t, s.sched.state t = .blocked → t ∉ s.sched.gReadyQueue := fun t ht =>
    hplaced.notMem_of_state (hplaced.ne_idle ht) (by rw [ht]; simp)
  refine ⟨w, fun t ht => (hinv.holding t ht).1, hinv.queue, fun t ht => ?_, hinv.fifo, hinv.free, ?_,
    fun u t hu => ?_, hplaced.nodup, fun t ht => ?_⟩
  · exact ⟨(hinv.mem t ht).2, hqueue t (hinv.mem t ht).2⟩
  · exact hinv.pending.imp_right And.right
  · obtain ⟨howner, hstate, -⟩ := hinv.waking u t hu
    exact ⟨howner, hstate, hqueue t hstate⟩
  · by_cases hw : t ∈ w
    · exact .inl hw
    obtain ⟨howner, (hready | hrun) | ⟨-, hu⟩⟩ := hinv.waiting t ht hw
    · exact .inr ⟨howner, .inr (.inl ((hplaced.mem_iff t (hinv.waiting_ne t ht)).mpr hready))⟩
    · exact .inr ⟨howner, .inl (hplaced.running_eq t hrun)⟩
    · exact .inr ⟨howner, .inr (.inr hu)⟩

/-- Thread 1 locks the mutex, thread 2 has to wait for it, and thread 1 hands it over. -/
def sampleHandoff : MutexSystem :=
  (create .samplePair fun _ => none).mutexLock.preempt.mutexLock.park.mutexUnlock

theorem sampleHandoff_reached : Reached sampleHandoff := by
  have h := Reached.create (fun _ => none) Scheduler.samplePair_placed rfl
  have h := h.step (.lock rfl (by decide))
  have h := h.step (.preempt (by decide))
  have h := h.step (.lock rfl (by decide))
  have h := h.step (.park rfl)
  exact h.step (.unlock rfl rfl)

theorem mutex_safe_sample :
    sampleHandoff.stage 1 = .waking 2 ∧
      ∃ w, (∀ t, sampleHandoff.holding t = true → sampleHandoff.m.owner = some t) ∧
        sampleHandoff.arrivals = sampleHandoff.handoffs ++ w := by
  obtain ⟨w, howner, -, -, hfifo, -⟩ := mutex_safe sampleHandoff_reached
  exact ⟨rfl, w, howner, hfifo⟩

end MutexSystem

end NovaOS.Sync
