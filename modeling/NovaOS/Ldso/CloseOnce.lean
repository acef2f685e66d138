import Mathlib.Data.List.Flatten
import NovaOS.Ldso.Close

/-!
# What a close unloads

A close that comes to an object whose count is above one lowers the count, and otherwise unloads the object,
also when it has unloaded it before. `closeRun` is `rtldDlClose` with the list of what it unloads.
`rtldDlClose_once_iff` says, for every state and every graph of dependencies, when the call returns and
each object that it unloads is finalised, taken off the list and unmapped once.
-/

namespace NovaOS.Ldso

open NovaOS.Lib Function List Option

namespace Loader

/-- `rtldDlClose` with the objects that it unloads: one entry for each time that an object is finalised and,
after its dependencies, taken off the list and unmapped. -/
def closeRun : (fuel : ℕ) → Loader × List ℕ → ℕ → Option (Loader × List ℕ)
  | 0, _, _ => none
  | fuel + 1, (s, log), i =>
    if s.Stays i then some (s, log)
    else if (s.objs i).refCount > 1 then
      some (s.modify i fun o => { o with refCount := o.refCount - 1 }, log)
    else ((s.deps i).foldlM (closeRun fuel) (s.enter i, log ++ [i])).map fun r => (r.1.drop i, r.2)

/-- How often a close of `o` that unloads `log` comes to an object: once for the handle, and once for each
place in the dependencies of `log`. -/
def comings (s : Loader) (o : ℕ) (log : List ℕ) (x : ℕ) : ℕ := (o :: log.flatMap s.deps).count x

/-- A close of `o` that unloads `log` comes to no object more often than its count, and to those of `log`,
and no others, as often. -/
structure TakesDown (s : Loader) (o : ℕ) (log : List ℕ) : Prop where
  nodup : log.Nodup
  comings_le : ∀ x, ¬s.Stays x → s.comings o log x ≤ max 1 (s.objs x).refCount
  mem_iff : ∀ x, x ∈ log ↔ ¬s.Stays x ∧ s.comings o log x = max 1 (s.objs x).refCount

/-- The object is on the list, mapped and not finalised. -/
structure Standing (s : Loader) (x : ℕ) : Prop where
  finiCalled : (s.objs x).finiCalled = false
  listed : s.gObjects.count x = 1
  mapped : s.mapped.count x = 1
  image : (s.objs x).mapBase ≠ 0 ∧ (s.objs x).totalSpan ≠ 0

/-- From `s` to `t` the object is finalised, taken off the list and unmapped, each of it once. -/
structure Unloaded (s t : Loader) (x : ℕ) : Prop where
  finalised : (s.objs x).finiCalled = false ∧ (t.objs x).finiCalled = true ∧
    t.finiRun.filter (·.1 = x) = s.finiRun.filter (·.1 = x) ++ (s.objs x).finiCalls.map (x, ·)
  removed : s.gObjects.count x = 1 ∧ t.gObjects.count x = 0
  unmapped : s.mapped.count x = 1 ∧ t.mapped.count x = 0

/-- What the steps from `s` to `t` do to every object, if they enter `begun` and drop `done`. -/
structure Unloads (s t : Loader) (begun done : List ℕ) : Prop where
  objs_eq : ∀ x, ∃ n f, t.objs x = { s.objs x with refCount := n, finiCalled := f }
  finiCalled : ∀ x, (t.objs x).finiCalled = ((s.objs x).finiCalled || decide (x ∈ begun))
  finiRun : ∀ x, t.finiRun.filter (·.1 = x) = s.finiRun.filter (·.1 = x) ++
    if (s.objs x).finiCalled = false ∧ x ∈ begun then (s.objs x).finiCalls.map (x, ·) else []
  list : ∀ x, t.gObjects.count x = s.gObjects.count x - done.count x
  mapped : ∀ x, t.mapped.count x = s.mapped.count x -
    if (s.objs x).mapBase ≠ 0 ∧ (s.objs x).totalSpan ≠ 0 then done.count x else 0

/-- A close of `o` in `s` has led to `t`, has begun to unload `log` and is yet to come to `pending`. -/
structure Underway (s : Loader) (o : ℕ) (t : Loader) (log pending : List ℕ) : Prop where
  closing : Closing (fun _ => True) s t
  not_stays : ∀ x ∈ log, ¬s.Stays x
  refCount_le : ∀ x ∈ log, (t.objs x).refCount ≤ 1
  balance : ∀ x, ¬s.Stays x → s.comings o log x + max 1 (t.objs x).refCount =
    max 1 (s.objs x).refCount + log.count x + pending.count x

section Underway

variable {s t : Loader} {o i fuel : ℕ} {log pending l : List ℕ}

theorem closeRun_fst (fuel : ℕ) (r : Loader × List ℕ) (i : ℕ) :
    (closeRun fuel r i).map Prod.fst = rtldDlClose fuel r.1 i := by
  induction fuel generalizing r i with
  | zero => rfl
  | succ fuel ih =>
    have hloop : ∀ (l : List ℕ) (r : Loader × List ℕ),
        (l.foldlM (closeRun fuel) r).map Prod.fst = l.foldlM (rtldDlClose fuel) r.1 := by
      intro l
      induction l with
      | nil => exact fun _ => rfl
      | cons d l hl =>
        intro r
        rw [foldlM_cons, foldlM_cons, ← ih r d]
        cases closeRun fuel r d with
        | none => rfl
        | some r' => exact hl r'
    rw [rtldDlClose_succ, closeRun, ← hloop _ (r.1.enter i, r.2 ++ [i]), Option.map_map,
      apply_ite (Option.map _), apply_ite (Option.map _), Option.map_map]
    rfl

theorem enter_objs_of_ne (t : Loader) (hne : i ≠ o) : (t.enter o).objs i = t.objs i := by
  rw [enter, rtldExecuteFini]
  split
  · exact update_of_ne hne _ _
  · exact (update_of_ne hne _ _).trans (update_of_ne hne _ _)

/-! ## What is done to the objects -/

theorem Unloads.trans {u : Loader} {begun done begun' done' : List ℕ} (h : s.Unloads t begun done)
    (h' : t.Unloads u begun' done') : s.Unloads u (begun ++ begun') (done ++ done') where
  objs_eq x := by
    obtain ⟨n, f, heq⟩ := h.objs_eq x
    obtain ⟨n', f', heq'⟩ := h'.objs_eq x
    exact ⟨n', f', by rw [heq', heq]⟩
  finiCalled x := by
    rw [h'.finiCalled, h.finiCalled]
    simp [Bool.or_assoc]
  finiRun x := by
    obtain ⟨n, f, heq⟩ := h.objs_eq x
    have hcalls : (t.objs x).finiCalls = (s.objs x).finiCalls := by
      rw [heq]
      rfl
    rw [h'.finiRun, h.finiRun, h.finiCalled, hcalls, append_assoc]
    by_cases hs : (s.objs x).finiCalled <;> by_cases hb : x ∈ begun <;> by_cases hb' : x ∈ begun' <;>
      simp [hs, hb, hb']
  list x := by rw [h'.list, h.list, count_append, Nat.sub_sub]
  mapped x := by
    obtain ⟨n, f, heq⟩ := h.objs_eq x
    rw [h'.mapped, h.mapped, heq, Nat.sub_sub]
    split <;> simp [count_append]

/-- A change of the count alone. -/
theorem modify_unloads {f : SharedObject → SharedObject} {n : ℕ}
    (hf : f (s.objs i) = { s.objs i with refCount := n }) : s.Unloads (s.modify i f) [] [] := by
  have hobjs : ∀ x, ∃ n, (s.modify i f).objs x = { s.objs x with refCount := n } := by
    intro x
    by_cases hx : x = i
    · subst hx
      exact ⟨n, (modify_objs_self s x f).trans hf⟩
    · exact ⟨_, modify_objs_of_ne s f hx⟩
  refine ⟨fun x => ?_, fun x => ?_, by simp [modify], by simp [modify], by simp [modify]⟩ <;>
    obtain ⟨n, heq⟩ := hobjs x
  · exact ⟨n, _, heq⟩
  · simp [heq]

theorem rtldExecuteFini_unloads (s : Loader) (i : ℕ) : s.Unloads (s.rtldExecuteFini i) [i] [] := by
  have hclosing := rtldExecuteFini_closing (D := fun _ => True) s i
  rw [rtldExecuteFini] at hclosing ⊢
  split at hclosing
  · rename_i hcalled
    rw [if_pos hcalled]
    refine ⟨hclosing.objs_eq, fun x => ?_, fun x => ?_, by simp, by simp⟩
    · by_cases hx : x = i <;> simp [hx, hcalled]
    · by_cases hx : x = i <;> simp [hx, hcalled]
  · rename_i hcalled
    rw [if_neg hcalled]
    refine ⟨hclosing.objs_eq, fun x => ?_, fun x => ?_, by simp [modify], by simp [modify]⟩
    · by_cases hx : x = i
      · subst hx
        simp [modify]
      · simp [modify, hx]
    · rw [filter_append]
      by_cases hx : x = i
      · subst hx
        simp [hcalled]
      · simp [hx, Ne.symm hx]

theorem drop_unloads (s : Loader) (i : ℕ) : s.Unloads (s.drop i) [] [i] where
  objs_eq x := ⟨_, _, rfl⟩
  finiCalled x := by simp [drop]
  finiRun x := by simp [drop]
  list x := by rw [drop, count_erase, count_singleton]
  mapped x := by
    rw [drop]
    dsimp only
    by_cases hx : x = i
    · subst hx
      split <;> simp
    · split <;> simp [hx, Ne.symm hx]

theorem closeRun_unloads {s t : Loader} {log log' : List ℕ}
    (hrun : closeRun fuel (s, log) i = some (t, log')) :
    ∃ new done, log' = log ++ new ∧ done.Perm new ∧ s.Unloads t new done := by
  induction fuel generalizing s t log log' i with
  | zero => cases hrun
  | succ fuel ih =>
    have hrefl (s : Loader) : s.Unloads s [] [] := ⟨fun _ => ⟨_, _, rfl⟩, by simp, by simp, by simp, by simp⟩
    have hloop : ∀ {k : List ℕ} {s t : Loader} {log log' : List ℕ},
        k.foldlM (closeRun fuel) (s, log) = some (t, log') →
        ∃ new done, log' = log ++ new ∧ done.Perm new ∧ s.Unloads t new done := by
      intro k
      induction k with
      | nil =>
        rintro s t log log' ⟨⟩
        exact ⟨[], [], (append_nil _).symm, .nil, hrefl s⟩
      | cons d k hk =>
        intro s t log log' hrun
        obtain ⟨⟨s1, log1⟩, hd, hrest⟩ := bind_eq_some_iff.mp hrun
        obtain ⟨new, done, rfl, hperm, h⟩ := ih hd
        obtain ⟨new', done', rfl, hperm', h'⟩ := hk hrest
        exact ⟨new ++ new', done ++ done', append_assoc .., hperm.append hperm', h.trans h'⟩
    rw [closeRun] at hrun
    split_ifs at hrun
    · cases hrun
      exact ⟨[], [], (append_nil _).symm, .nil, hrefl s⟩
    · cases hrun
      exact ⟨[], [], (append_nil _).symm, .nil, modify_unloads rfl⟩
    · obtain ⟨⟨s1, log1⟩, hdeps, heq⟩ := map_eq_some_iff.mp hrun
      cases heq
      obtain ⟨new, done, rfl, hperm, h⟩ := hloop hdeps
      have henter : s.Unloads (s.enter i) [i] [] := (modify_unloads rfl).trans (rtldExecuteFini_unloads _ i)
      have hall := (henter.trans h).trans (drop_unloads s1 i)
      rw [append_nil] at hall
      exact ⟨i :: new, done ++ [i], append_assoc .., (perm_append_singleton i done).trans (hperm.cons i), hall⟩

section Steps

variable (h : s.Underway o t log (i :: pending))
include h

theorem Underway.skip (hstays : s.Stays i) : s.Underway o t log pending :=
  { h with
    balance := fun x hx => by
      have hne : i ≠ x := fun heq => hx (heq ▸ hstays)
      rw [h.balance x hx, count_cons_of_ne hne] }

theorem Underway.lower (hcount : (t.objs i).refCount > 1) :
    s.Underway o (t.modify i fun o => { o with refCount := o.refCount - 1 }) log pending :=
  have hclosing : Closing (fun _ => True) t _ := modify_closing rfl (Nat.sub_le _ _) (absurd trivial)
  { h with
    closing := h.closing.trans hclosing
    refCount_le := fun x hx => (hclosing.refCount_le x).trans (h.refCount_le x hx)
    balance := fun x hx => by
      have hbalance := h.balance x hx
      by_cases heq : x = i
      · subst heq
        rw [count_cons_self] at hbalance
        rw [modify_objs_self]
        dsimp only
        omega
      · rw [count_cons_of_ne (Ne.symm heq)] at hbalance
        rwa [modify_objs_of_ne _ _ heq] }

theorem Underway.enter (hstays : ¬s.Stays i) (hcount : ¬(t.objs i).refCount > 1) :
    s.Underway o (t.enter i) (log ++ [i]) (s.deps i ++ pending) where
  closing := h.closing.trans (enter_closing t trivial)
  not_stays := forall_mem_append.mpr ⟨h.not_stays, forall_mem_singleton.mpr hstays⟩
  refCount_le := by
    have hclosing := enter_closing (D := fun _ => True) (i := i) t trivial
    refine forall_mem_append.mpr ⟨fun x hx => ?_, forall_mem_singleton.mpr ?_⟩
    · exact (hclosing.refCount_le x).trans (h.refCount_le x hx)
    · exact (enter_refCount t i).trans_le (Nat.zero_le 1)
  balance x hx := by
    have hbalance := h.balance x hx
    simp only [comings, flatMap_append, flatMap_singleton, count_cons, count_append, count_nil]
      at hbalance ⊢
    by_cases heq : x = i
    · subst heq
      rw [enter_refCount]
      omega
    · rw [enter_objs_of_ne t heq]
      omega

end Steps

/-- An object that is unloaded next is one of those to be unloaded, and has not been before. -/
theorem TakesDown.fresh (hl : s.TakesDown o l) (h : s.Underway o t log (i :: pending))
    (hnodup : log.Nodup) (hsub : log ⊆ l) (hstays : ¬s.Stays i) (hcount : ¬(t.objs i).refCount > 1) :
    (log ++ [i]).Nodup ∧ log ++ [i] ⊆ l := by
  have hcomings : s.comings o log i ≤ s.comings o l i := by
    obtain ⟨l', hperm, hsublist⟩ := hnodup.subperm hsub
    rw [comings, ← ((hperm.flatMap_right s.deps).cons o).count_eq]
    exact ((hsublist.flatMap s.deps).cons_cons o).count_le i
  have hbalance := h.balance i hstays
  have hle := hl.comings_le i hstays
  rw [count_cons_self] at hbalance
  have hfresh : i ∉ log := count_eq_zero.mp (by omega)
  have hmem : i ∈ l := (hl.mem_iff i).mpr ⟨hstays, by omega⟩
  exact ⟨nodup_append'.mpr ⟨hnodup, nodup_singleton i, disjoint_singleton.mpr hfresh⟩,
    append_subset.mpr ⟨hsub, cons_subset.mpr ⟨hmem, nil_subset l⟩⟩⟩

/-- What the calls made after `log` come to. With objects `l` to be taken down they unload none but these and
none twice, and they return. -/
def Ends (s : Loader) (o : ℕ) (l log pending : List ℕ) (fuel : ℕ)
    (run : Option (Loader × List ℕ)) : Prop :=
  (∀ r, run = some r → s.Underway o r.1 r.2 pending) ∧
  (s.TakesDown o l → log.Nodup → log ⊆ l → l.length < fuel + log.length →
    ∃ r, run = some r ∧ r.2.Nodup ∧ r.2 ⊆ l ∧ log.length ≤ r.2.length)

theorem Underway.ends (h : s.Underway o t log pending) : s.Ends o l log pending fuel (some (t, log)) := by
  refine ⟨?_, fun _ hnodup hsub _ => ⟨_, rfl, hnodup, hsub, le_rfl⟩⟩
  rintro r ⟨⟩
  exact h

theorem Underway.run (h : s.Underway o t log (i :: pending)) :
    s.Ends o l log pending fuel (closeRun fuel (t, log) i) := by
  induction fuel generalizing t log i pending with
  | zero =>
    refine ⟨fun r hr => (nomatch hr), fun _ hnodup hsub hfuel => ?_⟩
    have hle := (hnodup.subperm hsub).length_le
    omega
  | succ fuel ih =>
    have hloop : ∀ {k : List ℕ} {t : Loader} {log : List ℕ}, s.Underway o t log (k ++ pending) →
        s.Ends o l log pending fuel (k.foldlM (closeRun fuel) (t, log)) := by
      intro k
      induction k with
      | nil => exact fun h => h.ends
      | cons d k hk =>
        intro t log h
        refine ⟨fun r hr => ?_, fun hl hnodup hsub hfuel => ?_⟩
        · obtain ⟨r1, hr1, hr⟩ := bind_eq_some_iff.mp hr
          exact (hk ((ih h).1 r1 hr1)).1 r hr
        · obtain ⟨r1, hr1, hnodup1, hsub1, hlen1⟩ := (ih h).2 hl hnodup hsub hfuel
          obtain ⟨r, hr, hnodup', hsub', hlen⟩ :=
            (hk ((ih h).1 r1 hr1)).2 hl hnodup1 hsub1 (by omega)
          refine ⟨r, ?_, hnodup', hsub', hlen1.trans hlen⟩
          rw [foldlM_cons, hr1]
          exact hr
    rw [closeRun, h.closing.deps_eq]
    split
    case isTrue hstays => exact (h.skip (h.closing.stays_iff.mp hstays)).ends
    rename_i hstays
    rw [h.closing.stays_iff] at hstays
    split
    case isTrue hcount => exact (h.lower hcount).ends
    rename_i hcount
    have hdeps := hloop (h.enter hstays hcount)
    refine ⟨fun r hr => ?_, fun hl hnodup hsub hfuel => ?_⟩
    · obtain ⟨r, hrun, rfl⟩ := map_eq_some_iff.mp hr
      have hend := hdeps.1 r hrun
      exact { hend with closing := hend.closing.trans (drop_closing r.1 trivial) }
    · -- the calls for the dependencies have one object less to unload
      obtain ⟨hnodup, hsub⟩ := hl.fresh h hnodup hsub hstays hcount
      have hlen : (log ++ [i]).length = log.length + 1 := length_append
      obtain ⟨r, hr, hnodup, hsub, hle⟩ := hdeps.2 hl hnodup hsub (by omega)
      rw [hr]
      exact ⟨(r.1.drop i, r.2), rfl, hnodup, hsub, Nat.le_of_succ_le (hlen.symm.trans_le hle)⟩

/-- A close returns, and each object that it unloads is finalised, taken off the list and unmapped once,
exactly where there are objects that it takes down: none is come to more often than its count, for the
handle and from those taken down, and these as often, and these are standing. -/
theorem rtldDlClose_once_iff (s : Loader) (o : ℕ) :
    (∃ fuel t log, rtldDlClose fuel s o = some t ∧ closeRun fuel (s, []) o = some (t, log) ∧ log.Nodup ∧
      ∀ x ∈ log, s.Unloaded t x) ↔
      ∃ log, s.TakesDown o log ∧ ∀ x ∈ log, s.Standing x := by
  have hinit : s.Underway o s [] [o] := by
    refine ⟨.refl s, forall_mem_nil _, forall_mem_nil _, fun x _ => ?_⟩
    rw [comings, flatMap_nil, count_nil]
    omega
  constructor
  · rintro ⟨fuel, t, log, -, hrun, hnodup, hdown⟩
    have h : s.Underway o t log [] := (hinit.run (l := [])).1 _ hrun
    refine ⟨log, ⟨hnodup, fun x hx => ?_, fun x => ⟨fun hmem => ?_, fun ⟨hx, heq⟩ => ?_⟩⟩, fun x hx => ?_⟩
    · have hbalance := h.balance x hx
      have hone := nodup_iff_count_le_one.mp hnodup x
      rw [count_nil] at hbalance
      omega
    · have hbalance := h.balance x (h.not_stays x hmem)
      have hbegun := h.refCount_le x hmem
      rw [count_nil, count_eq_one_of_mem hnodup hmem] at hbalance
      exact ⟨h.not_stays x hmem, by omega⟩
    · have hbalance := h.balance x hx
      rw [count_nil] at hbalance
      exact count_pos_iff.mp (by omega)
    · obtain ⟨new, done, -, -, hsteps⟩ := closeRun_unloads hrun
      have hx := hdown x hx
      refine ⟨hx.finalised.1, hx.removed.1, hx.unmapped.1, by_contra fun himage => ?_⟩
      -- an object without an image is not unmapped
      have hmapped := hsteps.mapped x
      rw [if_neg himage, hx.unmapped.1, hx.unmapped.2] at hmapped
      cases hmapped
  · rintro ⟨l, hl, hstanding⟩
    obtain ⟨⟨t, log⟩, hrun, hnodup, hsub, -⟩ :=
      hinit.run.2 hl nodup_nil (nil_subset l) (Nat.lt_succ_self _)
    obtain ⟨new, done, rfl, hperm, hsteps⟩ := closeRun_unloads hrun
    refine ⟨_, t, _, ?_, hrun, hnodup, fun x hx => ?_⟩
    · rw [← closeRun_fst _ (s, []), hrun]
      rfl
    · have hs := hstanding x (hsub hx)
      have hone : done.count x = 1 := (hperm.count_eq x).trans (count_eq_one_of_mem hnodup hx)
      refine ⟨⟨hs.finiCalled, ?_, ?_⟩, ⟨hs.listed, ?_⟩, hs.mapped, ?_⟩
      · simp [hsteps.finiCalled, hx]
      · rw [hsteps.finiRun, if_pos ⟨hs.finiCalled, hx⟩]
      · rw [hsteps.list, hs.listed, hone]
      · rw [hsteps.mapped, hs.mapped, if_pos hs.image, hone]

end Underway

/-- Two libraries that need each other, and one that needs another both itself and through a third. -/
def knot (name : Name) : Option Image :=
  if name = nameBytes "a.so" then some (sampleImage ["b.so"])
  else if name = nameBytes "b.so" then some (sampleImage ["a.so"])
  else if name = nameBytes "c.so" then some (sampleImage ["d.so", "e.so"])
  else if name = nameBytes "d.so" then some (sampleImage ["e.so"])
  else if name = nameBytes "e.so" then some (sampleImage [])
  else none

/-- A program that opens one of them. -/
def openedKnot (name : String) : Option Loader :=
  ((boot (sampleImage []) (sampleImage []) 0x700000000000 0x400000).start knot 8
    (sampleImage [])).bind (opens knot 8 [some (nameBytes name)])

/-- The shared object is unloaded twice, and the cycle is closed without end. -/
theorem rtldDlClose_knot :
    (openedKnot "c.so").bind (fun s => (closeRun 8 (s, []) 2).map (·.2)) = some [2, 3, 4, 4] ∧
    ∃ s, openedKnot "a.so" = some s ∧ s.gObjects = [3, 2, 0] ∧ ∀ fuel, rtldDlClose fuel s 2 = none := by
  refine ⟨by decide +kernel, ?_⟩
  have hrun : (openedKnot "a.so").map (fun s => (s.gObjects, (s.closeDeps 2, s.closeDeps 3),
      ((s.objs 2).refCount, (s.objs 3).refCount), decide (s.Stays 2))) =
        some ([3, 2, 0], ([3], [2]), (1, 0), false) := by
    decide +kernel
  obtain ⟨s, hs, hfacts⟩ := map_eq_some_iff.mp hrun
  simp only [Prod.mk.injEq, decide_eq_false_iff_not] at hfacts
  obtain ⟨hlist, ⟨hdeps2, hdeps3⟩, ⟨hcount2, hcount3⟩, hstays⟩ := hfacts
  refine ⟨s, hs, hlist, fun fuel => ?_⟩
  have hfalls : ∀ x, Reaches s.closeDeps 2 x → x = 2 ∨ x = 3 := by
    intro x hx
    induction hx with
    | refl => exact .inl rfl
    | tail _ hedge ih =>
      rcases ih with rfl | rfl
      · exact .inr (by simpa [hdeps2] using hedge)
      · exact .inl (by simpa [hdeps3] using hedge)
  have hedge2 : 3 ∈ s.closeDeps 2 := hdeps2 ▸ (.head _)
  have hedge3 : 2 ∈ s.closeDeps 3 := hdeps3 ▸ (.head _)
  refine rtldDlClose_cyclic (fun x hx => ?_) ⟨hstays, .refl⟩ hedge2 (.single hedge3)
  rcases hfalls x hx.2 with rfl | rfl <;> omega

end Loader

end NovaOS.Ldso
