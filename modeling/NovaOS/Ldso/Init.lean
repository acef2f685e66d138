import NovaOS.Lib.Dfs
import NovaOS.Ldso.Objects

/-!
# Initialisation order

`rtldInitDfs` is a depth-first search that keeps its marks in the records of the objects
(`rtldInitDfs_marked`). `opens_initialised` is for every start and every sequence of `dlopen` calls: the
initialisers of each loaded object have run once, after those of the objects it depends on unless these
depend on it, and `rtldCallFini` goes through the objects in the reverse order.
-/

namespace NovaOS.Ldso

open NovaOS.Lib Function List Option

namespace Loader

/-- The object is on the list or the main program. -/
def Loaded (s : Loader) (i : ℕ) : Prop := i ∈ s.gObjects ∨ s.gMainObj = some i

/-- The dependencies of an object. -/
def deps (s : Loader) (i : ℕ) : List ℕ := (s.objs i).deps

/-- Loaded objects have records, and so have their dependencies. -/
def Closed (s : Loader) : Prop := ∀ i, s.Loaded i → i < s.count ∧ ∀ d ∈ s.deps i, s.Loaded d

/-! ## What loading does -/

/-- Loading makes new records and puts them on the list. Of the records that were there, only the
dependencies of those in `grows` change. -/
structure Extends (grows : ℕ → Prop) (s s' : Loader) : Prop where
  count_le : s.count ≤ s'.count
  objs_eq : ∀ i, i < s.count → s'.objs i = { s.objs i with deps := s'.deps i }
  deps_eq : ∀ i, i < s.count → ¬grows i → s'.deps i = s.deps i
  list_eq : ∃ new, s'.gObjects = new ++ s.gObjects ∧ s'.mapped = new ++ s.mapped ∧ new.Nodup ∧
    ∀ i ∈ new, s.count ≤ i ∧ i < s'.count
  main_eq : s'.gMainObj = s.gMainObj
  startup_eq : s'.gIsStartingUp = s.gIsStartingUp
  initOrder_eq : s'.gInitOrder = s.gInitOrder
  initRun_eq : s'.initRun = s.initRun
  finiRun_eq : s'.finiRun = s.finiRun
  handles_eq : s'.handles = s.handles
  fresh : ∀ i, s.count ≤ i → i < s'.count → (s'.objs i).initCalled = false ∧
    (s'.objs i).finiCalled = false ∧ (s'.objs i).visiting = false ∧ (s'.objs i).refCount = 0 ∧
    (s'.objs i).isPinned = s.gIsStartingUp
  rest_eq : ∀ i, s'.count ≤ i → s'.objs i = s.objs i

section Extends

variable {grows : ℕ → Prop} {s s' s'' : Loader}

theorem Extends.refl (s : Loader) : Extends grows s s where
  count_le := le_rfl
  objs_eq _ _ := rfl
  deps_eq _ _ _ := rfl
  list_eq := ⟨[], rfl, rfl, nodup_nil, fun _ hi => nomatch hi⟩
  main_eq := rfl
  startup_eq := rfl
  initOrder_eq := rfl
  initRun_eq := rfl
  finiRun_eq := rfl
  handles_eq := rfl
  fresh _ hi hi' := absurd hi' (not_lt.mpr hi)
  rest_eq _ _ := rfl

theorem Extends.trans (h : Extends grows s s') (h' : Extends grows s' s'') : Extends grows s s'' where
  count_le := h.count_le.trans h'.count_le
  objs_eq i hi := by
    rw [h'.objs_eq i (lt_of_lt_of_le hi h.count_le), h.objs_eq i hi]
  deps_eq i hi hg := (h'.deps_eq i (lt_of_lt_of_le hi h.count_le) hg).trans (h.deps_eq i hi hg)
  list_eq := by
    obtain ⟨new, heq, hmap, hnodup, hnew⟩ := h.list_eq
    obtain ⟨new', heq', hmap', hnodup', hnew'⟩ := h'.list_eq
    refine ⟨new' ++ new, by rw [heq', heq, append_assoc], by rw [hmap', hmap, append_assoc],
      nodup_append.mpr ⟨hnodup', hnodup, fun i hi j hj => ?_⟩, fun i hi => ?_⟩
    · exact ne_of_gt (lt_of_lt_of_le (hnew j hj).2 (hnew' i hi).1)
    rcases mem_append.mp hi with hi | hi
    · exact ⟨h.count_le.trans (hnew' i hi).1, (hnew' i hi).2⟩
    · exact ⟨(hnew i hi).1, lt_of_lt_of_le (hnew i hi).2 h'.count_le⟩
  main_eq := h'.main_eq.trans h.main_eq
  startup_eq := h'.startup_eq.trans h.startup_eq
  initOrder_eq := h'.initOrder_eq.trans h.initOrder_eq
  initRun_eq := h'.initRun_eq.trans h.initRun_eq
  finiRun_eq := h'.finiRun_eq.trans h.finiRun_eq
  handles_eq := h'.handles_eq.trans h.handles_eq
  fresh i hi hi' := by
    by_cases hlt : i < s'.count
    · rw [h'.objs_eq i hlt]
      exact h.fresh i hi hlt
    · rw [← h.startup_eq]
      exact h'.fresh i (Nat.le_of_not_lt hlt) hi'
  rest_eq i hi := (h'.rest_eq i hi).trans (h.rest_eq i (h'.count_le.trans hi))

theorem Extends.mono {grows' : ℕ → Prop} (h : Extends grows s s')
    (hsub : ∀ i, i < s.count → grows i → grows' i) : Extends grows' s s' :=
  { h with deps_eq := fun i hi hg => h.deps_eq i hi fun hgi => hg (hsub i hi hgi) }

theorem Extends.loaded (h : Extends grows s s') {i : ℕ} (hi : s.Loaded i) : s'.Loaded i := by
  obtain ⟨new, heq, -⟩ := h.list_eq
  rw [Loaded, heq, h.main_eq]
  exact hi.imp_left (mem_append_right new)

end Extends

section Load

variable {files : Name → Option Image} {s s' t : Loader} {fuel obj : ℕ} {name : Name}

theorem newObject_extends (s : Loader) (name : Name) (img : Image) (grows : ℕ → Prop) :
    Extends grows s (s.newObject name img) := by
  have hold : ∀ i, i < s.count → (s.newObject name img).objs i = s.objs i := fun i hi =>
    update_of_ne (ne_of_lt hi) _ _
  have hnew : (s.newObject name img).objs s.count =
      .ofImage img name s.gNextLibAddr s.gIsStartingUp := update_self _ _ _
  refine ⟨Nat.le_succ _, fun i hi => ?_, fun i hi _ => congrArg _ (hold i hi),
    ⟨[s.count], rfl, rfl, nodup_singleton _, fun i hi => ?_⟩, rfl, rfl, rfl, rfl, rfl, rfl, fun i hi hi' => ?_,
    fun i hi => update_of_ne (ne_of_gt hi) _ _⟩
  · rw [deps, hold i hi]
  · obtain rfl := mem_singleton.mp hi
    exact ⟨le_rfl, Nat.lt_succ_self _⟩
  · obtain rfl : i = s.count := le_antisymm (Nat.le_of_lt_succ hi') hi
    rw [hnew]
    exact ⟨rfl, rfl, rfl, rfl, rfl⟩

theorem newObject_closed (h : s.Closed) (name : Name) (img : Image) :
    (s.newObject name img).Closed := by
  intro i hi
  by_cases heq : i = s.count
  · subst heq
    refine ⟨Nat.lt_succ_self _, fun d hd => ?_⟩
    rw [deps, show (s.newObject name img).objs s.count = _ from update_self _ _ _] at hd
    cases hd
  · have hold : s.Loaded i := hi.imp_left fun h => (mem_cons.mp h).resolve_left heq
    obtain ⟨hlt, hdeps⟩ := h i hold
    refine ⟨Nat.lt_succ_of_lt hlt, fun d hd => ?_⟩
    rw [deps, show (s.newObject name img).objs i = _ from update_of_ne heq _ _] at hd
    exact (newObject_extends s name img fun _ => False).loaded (hdeps d hd)

theorem rtldAddDependency_extends (hobj : obj < s.count) (dep : ℕ) :
    Extends (· = obj) s (s.rtldAddDependency obj dep) := by
  unfold rtldAddDependency
  split
  · exact .refl s
  refine ⟨le_rfl, fun i _ => ?_, fun i _ hi => ?_,
    ⟨[], rfl, rfl, nodup_nil, fun _ hi => nomatch hi⟩, rfl, rfl, rfl, rfl, rfl, rfl,
    fun i hi hi' => absurd hi' (not_lt.mpr hi), fun i hi =>
    modify_objs_of_ne s _ (ne_of_gt (lt_of_lt_of_le hobj hi))⟩
  · by_cases heq : i = obj
    · subst heq
      rw [deps, modify_objs_self]
    · rw [deps, modify_objs_of_ne s _ heq]
  · rw [deps, modify_objs_of_ne s _ hi]
    rfl

theorem rtldAddDependency_closed (h : s.Closed) {dep : ℕ} (hdep : s.Loaded dep) (obj : ℕ) :
    (s.rtldAddDependency obj dep).Closed := by
  unfold rtldAddDependency
  split
  · exact h
  intro i hi
  obtain ⟨hlt, hdeps⟩ := h i hi
  refine ⟨hlt, fun d hd => ?_⟩
  by_cases heq : i = obj
  · subst heq
    rw [deps, modify_objs_self] at hd
    rcases mem_append.mp hd with hd | hd
    · exact hdeps d hd
    · exact mem_singleton.mp hd ▸ hdep
  · rw [deps, modify_objs_of_ne s _ heq] at hd
    exact hdeps d hd

/-- What loading an object does. -/
def LoadSpec (s : Loader) (r : Option ℕ × Loader) : Prop :=
  Extends (fun _ => False) s r.2 ∧ r.2.Closed ∧ ∀ i, r.1 = some i → r.2.Loaded i

variable {r : Option ℕ × Loader}

theorem addLoaded_spec (h : LoadSpec s r) (hobj : obj < s.count) :
    Extends (· = obj) s (addLoaded obj r) ∧ (addLoaded obj r).Closed := by
  obtain ⟨dep, t⟩ := r
  obtain ⟨hext, hclosed, hdep⟩ := h
  have hext' : Extends (· = obj) s t := hext.mono fun _ _ h => h.elim
  cases dep with
  | none => exact ⟨hext', hclosed⟩
  | some dep =>
    exact ⟨hext'.trans (rtldAddDependency_extends (lt_of_lt_of_le hobj hext.count_le) dep),
      rtldAddDependency_closed hclosed (hdep dep rfl) obj⟩

variable {names : List Name}

/-- The loop over the needed names, given what loading one of them does. -/
theorem foldlM_load_spec {load : Name → Loader → Option (Option ℕ × Loader)}
    (hload : ∀ name s r, s.Closed → load name s = some r → LoadSpec s r) (hclosed : s.Closed)
    (hobj : obj < s.count)
    (hrun : names.foldlM (fun t dep => (load dep t).map (addLoaded obj)) s = some s') :
    Extends (· = obj) s s' ∧ s'.Closed := by
  refine foldlM_keeps (P := fun t => Extends (· = obj) s t ∧ t.Closed)
    (fun t name t' _ ⟨hext, hclosed⟩ ht => ?_) ⟨.refl s, hclosed⟩ hrun
  obtain ⟨r, hr, rfl⟩ := map_eq_some_iff.mp ht
  exact (addLoaded_spec (hload name t r hclosed hr) (lt_of_lt_of_le hobj hext.count_le)).imp_left
    hext.trans

theorem rtldLoadObject_spec (hclosed : s.Closed)
    (hrun : rtldLoadObject files fuel name s = some r) : LoadSpec s r := by
  induction fuel generalizing name s r with
  | zero => exact absurd hrun (by simp [rtldLoadObject])
  | succ fuel ih =>
    rw [rtldLoadObject] at hrun
    split at hrun
    · obtain rfl := some.inj hrun
      exact ⟨.refl s, hclosed, fun i hi => .inr hi⟩
    split at hrun
    · rename_i i hfind
      obtain rfl := some.inj hrun
      refine ⟨.refl s, hclosed, fun j hj => ?_⟩
      obtain rfl := some.inj hj
      exact .inl (mem_of_find?_eq_some hfind)
    split at hrun
    · obtain rfl := some.inj hrun
      exact ⟨.refl s, hclosed, fun i hi => nomatch hi⟩
    · rename_i img _
      obtain ⟨t, ht, rfl⟩ := map_eq_some_iff.mp hrun
      obtain ⟨hext, hclosed'⟩ := foldlM_load_spec (fun _ _ _ h h' => ih h h')
        (newObject_closed hclosed name img) (Nat.lt_succ_self _) ht
      refine ⟨?_, hclosed', fun i hi => ?_⟩
      · -- the record that grows is new
        refine (newObject_extends s name img (· = s.count)).trans hext |>.mono fun i hi heq => ?_
        exact absurd heq (ne_of_lt hi)
      · obtain rfl := some.inj hi
        exact hext.loaded (.inl (.head _))

/-- A file that is not there changes nothing. -/
theorem rtldLoadObject_none (hrun : rtldLoadObject files fuel name s = some (none, s')) : s' = s := by
  cases fuel with
  | zero => exact absurd hrun (by simp [rtldLoadObject])
  | succ fuel =>
    rw [rtldLoadObject] at hrun
    split at hrun
    · exact (Prod.mk.inj (some.inj hrun)).2.symm
    split at hrun
    · exact nomatch (Prod.mk.inj (some.inj hrun)).1
    split at hrun
    · exact (Prod.mk.inj (some.inj hrun)).2.symm
    · obtain ⟨t, -, ht⟩ := map_eq_some_iff.mp hrun
      exact nomatch (Prod.mk.inj ht).1

theorem loadNeeded_spec (hclosed : s.Closed) (hobj : obj < s.count)
    (hrun : s.loadNeeded files fuel obj names = some s') : Extends (· = obj) s s' ∧ s'.Closed :=
  foldlM_load_spec (fun _ _ _ h h' => rtldLoadObject_spec h h') hclosed hobj hrun

end Load

/-! ## The search -/

/-- The calls of an object's initialisers. -/
def initCalls (s : Loader) (i : ℕ) : List (ℕ × ℕ) := (s.objs i).initialisers.map fun f => (i, f)

/-- The loader when the search is at the objects `stack` and has finished `done`. -/
def marked (s : Loader) (stack done : List ℕ) : Loader :=
  { s with
    objs := fun i =>
      { s.objs i with visiting := decide (i ∈ stack), initCalled := decide (i ∈ done) }
    initRun := done.flatMap s.initCalls
    gInitOrder := done.map some }

section Marked

variable (s : Loader) {stack done : List ℕ} {i : ℕ}

theorem marked_push :
    (s.marked stack done).modify i (fun o => { o with visiting := true }) =
      s.marked (i :: stack) done := by
  refine Loader.ext (funext fun j => ?_) rfl rfl rfl rfl rfl rfl rfl rfl rfl rfl
  by_cases hj : j = i
  · subst hj
    rw [modify_objs_self]
    simp [marked]
  · rw [modify_objs_of_ne _ _ hj]
    simp [marked, hj]

theorem marked_pop (hi : i ∉ stack) :
    { (s.marked (i :: stack) done).modify i fun o => { o with visiting := false, initCalled := true }
      with
      initRun := (s.marked (i :: stack) done).initRun ++
        ((s.marked (i :: stack) done).objs i).initialisers.map fun f => (i, f)
      gInitOrder := (s.marked (i :: stack) done).gInitOrder ++ [some i] } =
      s.marked stack (done ++ [i]) := by
  have hobjs : ((s.marked (i :: stack) done).modify i fun o =>
      { o with visiting := false, initCalled := true }).objs =
      (s.marked stack (done ++ [i])).objs := by
    funext j
    by_cases hj : j = i
    · subst hj
      rw [modify_objs_self]
      simp [marked, hi]
    · rw [modify_objs_of_ne _ _ hj]
      simp [marked, hj]
  have hrun : (s.marked (i :: stack) done).initRun ++
      ((s.marked (i :: stack) done).objs i).initialisers.map (fun f => (i, f)) =
      (done ++ [i]).flatMap s.initCalls := by
    rw [flatMap_append, flatMap_singleton]
    rfl
  have horder : (s.marked (i :: stack) done).gInitOrder ++ [some i] = (done ++ [i]).map some := by
    rw [map_append]
    rfl
  exact Loader.ext hobjs rfl rfl rfl rfl rfl horder rfl hrun rfl rfl

/-- The loop over several objects, given what the search from one of them does. -/
theorem foldlM_marked {fuel : ℕ} {l : List ℕ}
    (hstep : ∀ done i, rtldInitDfs fuel (s.marked stack done) i =
      (dfs s.deps fuel stack done i).map (s.marked stack)) (done : List ℕ) :
    l.foldlM (rtldInitDfs fuel) (s.marked stack done) =
      (l.foldlM (dfs s.deps fuel stack) done).map (s.marked stack) := by
  induction l generalizing done with
  | nil => rfl
  | cons i l ih =>
    rw [foldlM_cons, foldlM_cons, hstep]
    cases dfs s.deps fuel stack done i with
    | none => rfl
    | some done' => exact ih done'

theorem rtldInitDfs_marked (fuel : ℕ) (stack done : List ℕ) (i : ℕ) :
    rtldInitDfs fuel (s.marked stack done) i =
      (dfs s.deps fuel stack done i).map (s.marked stack) := by
  induction fuel generalizing stack done i with
  | zero => rfl
  | succ fuel ih =>
    have hcond : (((s.marked stack done).objs i).initCalled = true ∨
        ((s.marked stack done).objs i).visiting = true) ↔ (i ∈ done ∨ i ∈ stack) := by
      simp [marked]
    rw [rtldInitDfs, dfs]
    by_cases hvisited : i ∈ done ∨ i ∈ stack
    · rw [if_pos hvisited, if_pos (hcond.mpr hvisited)]
      rfl
    rw [if_neg hvisited, if_neg (mt hcond.mp hvisited), marked_push,
      foldlM_marked s (ih (i :: stack)) done]
    rw [not_or] at hvisited
    change Option.map _ (Option.map _ (foldlM (dfs s.deps fuel (i :: stack)) done (s.deps i)))
      = Option.map _ (Option.map _ (foldlM (dfs s.deps fuel (i :: stack)) done (s.deps i)))
    cases foldlM (dfs s.deps fuel (i :: stack)) done (s.deps i) with
    | none => rfl
    | some done' => exact congrArg some (marked_pop s hvisited.2)

end Marked

/-! ## Whole runs -/

/-- The objects that `rtldCallInit` goes through. -/
def roots (s : Loader) : List ℕ := s.gObjects ++ s.gMainObj.toList

theorem mem_roots {s : Loader} {i : ℕ} : i ∈ s.roots ↔ s.Loaded i := by
  rw [roots, mem_append, mem_toList]
  rfl

/-- The objects `done` are initialised, in this order, and none is finalised. -/
structure Initialised (s : Loader) (done : List ℕ) : Prop where
  closed : s.Closed
  loaded : ∀ i ∈ done, s.Loaded i
  nodup : done.Nodup
  succsFirst : SuccsFirst s.deps done
  marked_eq : s.marked [] done = s
  finiCalled : ∀ i, (s.objs i).finiCalled = false
  finiRun_eq : s.finiRun = []

section Initialised

variable {grows : ℕ → Prop} {s s' : Loader} {done : List ℕ}

section

variable (h : s.Initialised done)
include h

theorem Initialised.initCalled (i : ℕ) : (s.objs i).initCalled = decide (i ∈ done) := by
  rw [← h.marked_eq]
  rfl

theorem Initialised.visiting (i : ℕ) : (s.objs i).visiting = false := by
  rw [← h.marked_eq]
  rfl

/-- Loading leaves the initialised objects as they are. -/
theorem Initialised.extend (hext : Extends grows s s') (hclosed : s'.Closed)
    (hfirst : SuccsFirst s'.deps done) : s'.Initialised done := by
  have hlt : ∀ i ∈ done, i < s.count := fun i hi => (h.closed i (h.loaded i hi)).1
  have hflags : ∀ i, (s'.objs i).visiting = false ∧ (s'.objs i).initCalled = decide (i ∈ done) ∧
      (s'.objs i).finiCalled = false := by
    intro i
    rcases lt_or_ge i s.count with hi | hi
    · rw [hext.objs_eq i hi]
      exact ⟨h.visiting i, h.initCalled i, h.finiCalled i⟩
    rcases lt_or_ge i s'.count with hi' | hi'
    · obtain ⟨hinit, hfini, hvisit, -⟩ := hext.fresh i hi hi'
      refine ⟨hvisit, ?_, hfini⟩
      rw [hinit, decide_eq_false fun hin => not_le.mpr (hlt i hin) hi]
    · rw [hext.rest_eq i hi']
      exact ⟨h.visiting i, h.initCalled i, h.finiCalled i⟩
  have hcalls : ∀ i ∈ done, s'.initCalls i = s.initCalls i := by
    intro i hi
    rw [initCalls, hext.objs_eq i (hlt i hi)]
    rfl
  refine ⟨hclosed, fun i hi => hext.loaded (h.loaded i hi), h.nodup, hfirst, ?_,
    fun i => (hflags i).2.2, hext.finiRun_eq.trans h.finiRun_eq⟩
  refine Loader.ext (funext fun i => ?_) rfl rfl rfl rfl rfl ?_ rfl ?_ rfl rfl
  · obtain ⟨hvisit, hinit, -⟩ := hflags i
    change { s'.objs i with visiting := decide (i ∈ []), initCalled := decide (i ∈ done) } = s'.objs i
    rw [← hinit, show decide (i ∈ []) = (s'.objs i).visiting by rw [hvisit]; rfl]
  · exact (congrArg gInitOrder h.marked_eq).trans hext.initOrder_eq.symm
  · refine .trans ?_ hext.initRun_eq.symm
    rw [← congrArg initRun h.marked_eq]
    exact flatMap_congr hcalls

theorem Initialised.rtldLoadObject {files : Name → Option Image} {fuel : ℕ} {name : Name}
    {r : Option ℕ × Loader} (hrun : s.rtldLoadObject files fuel name = some r) :
    r.2.Initialised done := by
  obtain ⟨hext, hclosed, -⟩ := rtldLoadObject_spec h.closed hrun
  apply h.extend hext hclosed
  exact h.succsFirst.congr h.loaded (fun i hi => (h.closed i hi).2)
    fun i hi => hext.deps_eq i (h.closed i hi).1 id

theorem Initialised.takeHandle (i : ℕ) : (s.takeHandle i).Initialised done := by
  have hobjs : ∀ j, ∃ n, (s.takeHandle i).objs j = { s.objs j with refCount := n } := by
    intro j
    by_cases hj : j = i
    · subst hj
      exact ⟨(s.objs j).refCount + 1, update_self j _ _⟩
    · exact ⟨(s.objs j).refCount, update_of_ne hj _ _⟩
  have hdeps : (s.takeHandle i).deps = s.deps := by
    funext j
    obtain ⟨n, hn⟩ := hobjs j
    rw [deps, hn]
    rfl
  have hcalls : (s.takeHandle i).initCalls = s.initCalls := by
    funext j
    obtain ⟨n, hn⟩ := hobjs j
    rw [initCalls, hn]
    rfl
  refine ⟨fun j hj => ?_, h.loaded, h.nodup, ?_, ?_, fun j => ?_, h.finiRun_eq⟩
  · rw [hdeps]
    exact h.closed j hj
  · rw [hdeps]
    exact h.succsFirst
  · refine Loader.ext (funext fun j => ?_) rfl rfl rfl rfl rfl ?_ rfl ?_ rfl rfl
    · obtain ⟨n, hn⟩ := hobjs j
      change { (s.takeHandle i).objs j with
        visiting := decide (j ∈ []), initCalled := decide (j ∈ done) } = (s.takeHandle i).objs j
      rw [hn, ← h.initCalled j, show decide (j ∈ []) = (s.objs j).visiting by rw [h.visiting]; rfl]
    · exact (congrArg gInitOrder h.marked_eq : (s.marked [] done).gInitOrder = s.gInitOrder)
    · change done.flatMap (s.takeHandle i).initCalls = s.initRun
      rw [hcalls]
      exact congrArg initRun h.marked_eq
  · obtain ⟨n, hn⟩ := hobjs j
    rw [hn]
    exact h.finiCalled j

/-- `rtldCallInit` returns, and then the loaded objects are initialised. -/
theorem Initialised.rtldCallInit :
    ∃ s' done', s.rtldCallInit (s.count + 1) = some s' ∧ s'.Initialised done' ∧
      (∀ i, s'.Loaded i → i ∈ done') ∧ s' = s.marked [] done' := by
  have hclosed : ∀ i ∈ s.roots.toFinset, ∀ d ∈ s.deps i, d ∈ s.roots.toFinset := by
    intro i hi d hd
    rw [List.mem_toFinset, mem_roots] at hi ⊢
    exact (h.closed i hi).2 d hd
  have hfuel : (unvisited s.roots.toFinset [] done).card < s.count + 1 := by
    have hsub : unvisited s.roots.toFinset [] done ⊆ Finset.range s.count := by
      intro i hi
      have hi := (Finset.mem_filter.mp hi).1
      rw [List.mem_toFinset, mem_roots] at hi
      exact Finset.mem_range.mpr (h.closed i hi).1
    have hcard := Finset.card_le_card hsub
    rw [Finset.card_range] at hcard
    exact Nat.lt_succ_of_le hcard
  obtain ⟨done', hrun, hfin, hroots⟩ := foldlM_dfs_spec [] (l := s.roots)
    (fun done i hi hfuel hnodup hfirst => dfs_spec hclosed (List.mem_toFinset.mpr hi)
      (fun _ hx => nomatch hx) hfuel hnodup hfirst) hfuel h.nodup h.succsFirst
  have hcall : s.rtldCallInit (s.count + 1) = some (s.marked [] done') := by
    have hmarked := foldlM_marked s (rtldInitDfs_marked s (s.count + 1) []) (l := s.roots) done
    rw [hrun, h.marked_eq] at hmarked
    exact hmarked
  refine ⟨_, done', hcall, ⟨h.closed, fun i hi => ?_, hfin.nodup, hfin.succsFirst, rfl,
    h.finiCalled, h.finiRun_eq⟩, fun i hi => ?_, rfl⟩
  · obtain ⟨new, rfl, hnew⟩ := hfin.new
    rcases mem_append.mp hi with hi | hi
    · exact h.loaded i hi
    · exact mem_roots.mp (List.mem_toFinset.mp (hnew i hi).1)
  · exact (hroots i (mem_roots.mpr hi)).resolve_right not_mem_nil

end

theorem Initialised.boot (ldso main : Image) (ldBase mainBase : ℕ) :
    (boot ldso main ldBase mainBase).Initialised [] where
  closed i hi := by
    have hdeps : (Loader.boot ldso main ldBase mainBase).deps i = [] := by
      rw [deps, Loader.boot]
      dsimp only
      split <;> rfl
    refine ⟨?_, fun d hd => nomatch hdeps ▸ hd⟩
    rcases hi with hi | hi
    · obtain rfl := mem_singleton.mp hi
      exact Nat.zero_lt_two
    · obtain rfl := some.inj hi
      exact Nat.one_lt_two
  loaded i hi := nomatch hi
  nodup := nodup_nil
  succsFirst := .nil _
  marked_eq := by
    refine Loader.ext (funext fun i => ?_) rfl rfl rfl rfl rfl rfl rfl rfl rfl rfl
    rw [marked, Loader.boot]
    dsimp only
    split <;> rfl
  finiCalled i := by
    rw [Loader.boot]
    dsimp only
    split <;> rfl
  finiRun_eq := rfl

/-! ## Finalisers -/

/-- The calls of an object's finalisers. -/
def finiCalls (s : Loader) (i : ℕ) : List (ℕ × ℕ) := (s.objs i).finiCalls.map fun f => (i, f)

theorem foldl_rtldExecuteFini {l : List ℕ} (hnodup : l.Nodup)
    (hfini : ∀ i ∈ l, (s.objs i).finiCalled = false) :
    ((l.map some).foldl (fun t entry => entry.elim t t.rtldExecuteFini) s).finiRun =
      s.finiRun ++ l.flatMap s.finiCalls := by
  induction l generalizing s with
  | nil => exact (append_nil _).symm
  | cons i l ih =>
    obtain ⟨hi, hnodup⟩ := nodup_cons.mp hnodup
    have hne : ∀ j ∈ l, (s.rtldExecuteFini i).objs j = s.objs j := by
      intro j hj
      rw [rtldExecuteFini]
      split
      · rfl
      · exact update_of_ne (ne_of_mem_of_not_mem hj hi) _ _
    have hrun : (s.rtldExecuteFini i).finiRun = s.finiRun ++ s.finiCalls i := by
      rw [rtldExecuteFini, if_neg (Bool.eq_false_iff.mp (hfini i (.head _)))]
      rfl
    have hrest := ih hnodup (s := s.rtldExecuteFini i) fun j hj => by
      rw [hne j hj]
      exact hfini j (.tail _ hj)
    have hcalls : l.flatMap (s.rtldExecuteFini i).finiCalls = l.flatMap s.finiCalls :=
      flatMap_congr fun j hj => by rw [finiCalls, hne j hj, finiCalls]
    rw [hrun, hcalls, append_assoc] at hrest
    exact hrest

theorem Initialised.rtldCallFini (h : s.Initialised done) :
    s.rtldCallFini.finiRun = done.reverse.flatMap s.finiCalls := by
  have horder : s.gInitOrder = done.map some := (congrArg gInitOrder h.marked_eq).symm
  have hrun := foldl_rtldExecuteFini (nodup_reverse.mpr h.nodup) fun i _ => h.finiCalled i
  rw [h.finiRun_eq, map_reverse, ← horder] at hrun
  exact hrun

end Initialised

/-! ## Opening objects one after another -/

/-- A sequence of `dlopen` calls. -/
def opens (files : Name → Option Image) (fuel : ℕ) (names : List (Option Name)) (s : Loader) :
    Option Loader :=
  names.foldlM (fun s name => (s.rtldDlOpen files fuel name).map (·.2)) s

section Opens

variable {files : Name → Option Image} {fuel : ℕ} {s s' : Loader} {done : List ℕ}

/-- All loaded objects are initialised. -/
def AllInitialised (s : Loader) : Prop := ∃ done, s.Initialised done ∧ ∀ i, s.Loaded i → i ∈ done

theorem AllInitialised.takeHandle (h : s.AllInitialised) (i : ℕ) :
    (s.takeHandle i).AllInitialised :=
  h.imp fun _ h => ⟨h.1.takeHandle i, h.2⟩

variable {name : Option Name} {r : Option ℕ × Loader}

/-- What `dlopen` does when it returns. -/
theorem rtldDlOpen_cases (hrun : s.rtldDlOpen files fuel name = some r) :
    r.2 = s ∨ (∃ i ∈ s.gObjects, r.2 = s.takeHandle i) ∨
    ∃ name' i t, s.rtldLoadObject files fuel name' = some (some i, t) ∧
      (t.takeHandle i).rtldCallInit (t.count + 1) = some r.2 := by
  cases name with
  | none => exact .inl (some.inj hrun ▸ rfl)
  | some name =>
    rw [Loader.rtldDlOpen] at hrun
    cases hfind : s.findObject name with
    | some i =>
      rw [hfind] at hrun
      exact .inr (.inl ⟨i, mem_of_find?_eq_some hfind, some.inj hrun ▸ rfl⟩)
    | none =>
      rw [hfind] at hrun
      cases hload : s.rtldLoadObject files fuel name with
      | none => exact absurd hrun (by simp [hload])
      | some loaded =>
        obtain ⟨loaded, t⟩ := loaded
        rw [hload] at hrun
        cases loaded with
        | none => exact .inl (some.inj hrun ▸ rtldLoadObject_none hload)
        | some i =>
          obtain ⟨t', ht', rfl⟩ := map_eq_some_iff.mp hrun
          exact .inr (.inr ⟨name, i, t, hload, ht'⟩)

theorem AllInitialised.rtldDlOpen (h : s.AllInitialised)
    (hrun : s.rtldDlOpen files fuel name = some r) : r.2.AllInitialised := by
  rcases rtldDlOpen_cases hrun with heq | ⟨i, -, heq⟩ | ⟨name', i, t, hload, hcall⟩
  · exact heq ▸ h
  · exact heq ▸ h.takeHandle i
  · obtain ⟨done, hinit, -⟩ := h
    obtain ⟨t', done', hcall', hinit', hall', -⟩ :=
      ((hinit.rtldLoadObject hload).takeHandle i).rtldCallInit
    obtain rfl := mem_unique hcall' hcall
    exact ⟨done', hinit', hall'⟩

/-- `dlopen` runs out of steps only where loading does. -/
theorem AllInitialised.rtldDlOpen_none (h : s.AllInitialised)
    (hrun : s.rtldDlOpen files fuel name = none) :
    ∃ name', name = some name' ∧ s.rtldLoadObject files fuel name' = none := by
  cases name with
  | none => exact absurd hrun (by simp [Loader.rtldDlOpen])
  | some name =>
    refine ⟨name, rfl, ?_⟩
    rw [Loader.rtldDlOpen] at hrun
    cases hfind : s.findObject name with
    | some i => exact absurd hrun (by simp [hfind])
    | none =>
      rw [hfind] at hrun
      cases hload : s.rtldLoadObject files fuel name with
      | none => rfl
      | some loaded =>
        obtain ⟨loaded, t⟩ := loaded
        rw [hload] at hrun
        cases loaded with
        | none => cases hrun
        | some i =>
          obtain ⟨done, hinit, -⟩ := h
          obtain ⟨t', -, hcall, -⟩ := ((hinit.rtldLoadObject hload).takeHandle i).rtldCallInit
          exact nomatch (map_eq_none_iff.mp hrun).symm.trans hcall

theorem AllInitialised.opens {names : List (Option Name)} (h : s.AllInitialised)
    (hrun : s.opens files fuel names = some s') : s'.AllInitialised := by
  refine foldlM_keeps (P := AllInitialised) (fun t name t' _ h ht => ?_) h hrun
  obtain ⟨r, hr, rfl⟩ := map_eq_some_iff.mp ht
  exact h.rtldDlOpen hr

/-- The start runs out of steps only where loading does. -/
theorem start_allInitialised (ldso main : Image) (ldBase mainBase : ℕ) :
    ((boot ldso main ldBase mainBase).start files fuel main = none →
      (boot ldso main ldBase mainBase).loadNeeded files fuel 1 main.needed = none) ∧
    ∀ s, (boot ldso main ldBase mainBase).start files fuel main = some s → s.AllInitialised := by
  have hboot := Initialised.boot ldso main ldBase mainBase
  rw [start]
  cases hload : (boot ldso main ldBase mainBase).loadNeeded files fuel 1 main.needed with
  | none => exact ⟨fun _ => rfl, fun s hrun => nomatch hrun⟩
  | some t =>
    obtain ⟨hext, hclosed⟩ := loadNeeded_spec hboot.closed Nat.one_lt_two hload
    obtain ⟨t', done, hcall, hinit, hall, rfl⟩ := (hboot.extend hext hclosed (.nil _)).rtldCallInit
    rw [bind_some, hcall]
    refine ⟨fun hrun => absurd hrun (by simp), fun s hrun => ?_⟩
    obtain rfl := some.inj hrun
    exact ⟨done, ⟨hinit.closed, hinit.loaded, hinit.nodup, hinit.succsFirst, rfl,
      hinit.finiCalled, hinit.finiRun_eq⟩, hall⟩

/-- The order in which the loaded objects are initialised and finalised. -/
structure InitOrder (s : Loader) (order : List ℕ) : Prop where
  nodup : order.Nodup
  mem_iff : ∀ i, i ∈ order ↔ s.Loaded i
  initRun_eq : s.initRun = order.flatMap s.initCalls
  deps_before : ∀ a b, s.Loaded a → b ∈ s.deps a → ¬Reaches s.deps b a →
    ∃ l₁ l₂, order = l₁ ++ a :: l₂ ∧ b ∈ l₁
  finiRun_eq : s.rtldCallFini.finiRun = order.reverse.flatMap s.finiCalls

theorem AllInitialised.initOrder (h : s.AllInitialised) : ∃ order, s.InitOrder order := by
  obtain ⟨done, hinit, hall⟩ := h
  refine ⟨done, hinit.nodup, fun i => ⟨hinit.loaded i, hall i⟩,
    (congrArg initRun hinit.marked_eq).symm, fun a b ha hb hreach => ?_, hinit.rtldCallFini⟩
  obtain ⟨l1, l2, heq⟩ := append_of_mem (hall a ha)
  exact ⟨l1, l2, heq, (hinit.succsFirst l1 a l2 heq b hb).resolve_right hreach⟩

/-- From every start and through every sequence of `dlopen` calls: `rtldCallInit` returns, so that only
loading can run out of steps. The loaded objects have been initialised once each, dependencies first
unless they depend on the object, and `rtldCallFini` calls the finalisers in the reverse order, all those
of an object whose finalisers are in its span. -/
theorem opens_initialised (files : Name → Option Image) (fuel : ℕ) (ldso main : Image)
    (ldBase mainBase : ℕ) :
    ((boot ldso main ldBase mainBase).start files fuel main = none →
      (boot ldso main ldBase mainBase).loadNeeded files fuel 1 main.needed = none) ∧
    ∀ names s, ((boot ldso main ldBase mainBase).start files fuel main).bind
        (opens files fuel names) = some s →
      (∀ name, s.rtldDlOpen files fuel name = none →
        ∃ name', name = some name' ∧ s.rtldLoadObject files fuel name' = none) ∧
      (∃ order, s.InitOrder order) ∧
      ∀ i, (s.objs i).FinisInSpan → s.finiCalls i = (s.objs i).finalisers.map fun f => (i, f) := by
  obtain ⟨hnone, hstart⟩ := start_allInitialised ldso main ldBase mainBase
  refine ⟨hnone, fun names s hrun => ?_⟩
  obtain ⟨t, ht, hrun⟩ := bind_eq_some_iff.mp hrun
  have hall := (hstart t ht).opens hrun
  refine ⟨fun name => hall.rtldDlOpen_none, hall.initOrder, fun i hi => ?_⟩
  rw [finiCalls, hi.finiCalls_eq]

/-- An image with one initialiser and one finaliser. -/
def sampleImage (needed : List String) : Image where
  minVaddr := 0
  totalSpan := 0x3000
  needed := needed.map nameBytes
  init := some 0x1000
  initArray := []
  fini := some 0x1010
  finiArrayAt := none
  finiArray := []

/-- Two libraries that need each other, and a third that needs the second. -/
def sampleFiles (name : Name) : Option Image :=
  if name = nameBytes "a.so" then some (sampleImage ["b.so"])
  else if name = nameBytes "b.so" then some (sampleImage ["a.so"])
  else if name = nameBytes "c.so" then some (sampleImage ["b.so"])
  else none

/-- The start of a program that needs the first of them. -/
def sampleStart : Option Loader :=
  (boot (sampleImage []) (sampleImage ["a.so"]) 0x700000000000 0x400000).start sampleFiles 8
    (sampleImage ["a.so"])

theorem opens_initialised_sample :
    ((sampleStart.bind (opens sampleFiles 8 [some (nameBytes "c.so")])).map fun s =>
      (s.initRun.map Prod.fst, s.rtldCallFini.finiRun.map Prod.fst)) =
        some ([2, 3, 0, 1, 4], [4, 3, 2]) ∧
    ∃ s, sampleStart.bind (opens sampleFiles 8 [some (nameBytes "c.so")]) = some s ∧
      ∃ order, s.InitOrder order := by
  refine (and_iff_left_of_imp fun hrun => ?_).mpr (by decide +kernel)
  obtain ⟨s, hs, -⟩ := map_eq_some_iff.mp hrun
  exact ⟨s, hs, ((opens_initialised sampleFiles 8 (sampleImage []) (sampleImage ["a.so"])
    0x700000000000 0x400000).2 _ s hs).2.1⟩

end Opens

end Loader

end NovaOS.Ldso
