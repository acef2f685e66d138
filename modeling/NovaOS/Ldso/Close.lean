import NovaOS.Ldso.Init

/-!
# Closing objects

`dlclose` of the last handle for an object closes its dependencies too, whatever else depends on them and
whether or not they are open themselves: the count of an object counts its handles only. `Kept` says that
what is open or needed stays loaded, and `dlclose_kept_iff` when a call leaves it so.
-/

namespace NovaOS.Ldso

open NovaOS.Lib Function List Option

namespace Loader

/-- The test with which `rtldDlClose` returns at once. -/
def Stays (s : Loader) (i : ℕ) : Prop :=
  s.gMainObj = some i ∨ i = gLdsoObj ∨ (s.objs i).isPinned = true

instance (s : Loader) (i : ℕ) : Decidable (s.Stays i) := inferInstanceAs (Decidable (_ ∨ _ ∨ _))

/-- The dependencies that may be closed with an object. -/
def closeDeps (s : Loader) (i : ℕ) : List ℕ := (s.deps i).filter fun d => ¬s.Stays d

/-- A close of `o` can come to `d`. -/
def Falls (s : Loader) (o d : ℕ) : Prop := ¬s.Stays o ∧ Reaches s.closeDeps o d

/-- An object that is open, or that a loaded object depends on, is on the list and mapped. The main program
is on no list. -/
def Kept (s : Loader) : Prop :=
  ∀ o, s.gMainObj ≠ some o →
    (0 < s.handles o ∨ ∃ p, s.Loaded p ∧ Relation.TransGen (fun a b => b ∈ s.deps a) p o) →
    o ∈ s.gObjects ∧ o ∈ s.mapped

/-- The counts are those of the open handles. -/
def Counted (s : Loader) : Prop := ∀ i, ¬s.Stays i → (s.objs i).refCount = s.handles i

/-- A handle for `o` can be closed: `o` stays, or has another handle, or all that can be reached from it is
needed by nothing else: each such object has no other handle, is listed by such objects only, and is not on
a cycle. -/
def CloseOk (s : Loader) (o : ℕ) : Prop :=
  s.Stays o ∨ 1 < s.handles o ∨ ∀ d, Reaches s.closeDeps o d →
    s.handles d ≤ (if d = o then 1 else 0) ∧
    (∀ p, s.Loaded p → d ∈ s.deps p → Reaches s.closeDeps o p) ∧
    ∀ e ∈ s.closeDeps d, ¬Reaches s.closeDeps e d

variable {s : Loader} {d o e : ℕ}

theorem mem_closeDeps {i : ℕ} : d ∈ s.closeDeps i ↔ d ∈ s.deps i ∧ ¬s.Stays d := by
  rw [closeDeps, mem_filter, decide_eq_true_eq]

theorem Falls.head (ho : ¬s.Stays o) (hd : d ∈ s.deps o) (h : s.Falls d e) : s.Falls o e :=
  ⟨ho, h.2.head (mem_closeDeps.mpr ⟨hd, h.1⟩)⟩

theorem Falls.cases_head (h : s.Falls o e) : o = e ∨ ∃ d ∈ s.deps o, s.Falls d e := by
  rcases h.2.cases_head with heq | ⟨d, hd, hreach⟩
  · exact .inl heq
  · obtain ⟨hmem, hstays⟩ := mem_closeDeps.mp hd
    exact .inr ⟨d, hmem, hstays, hreach⟩

theorem Falls.not_stays (h : s.Falls o d) : ¬s.Stays d := by
  rcases h.2.cases_tail with heq | ⟨c, -, hd⟩
  · exact heq ▸ h.1
  · exact (mem_closeDeps.mp hd).2

theorem Counted.falls_le (h : s.Counted)
    (hle : ∀ d, s.Falls o d → s.handles d ≤ if d = o then 1 else 0) :
    ∀ d, s.Falls o d → (s.objs d).refCount ≤ 1 := by
  intro d hd
  have hone := hle d hd
  rw [h d hd.not_stays]
  split at hone <;> omega

/-! ## What a close does -/

/-- A close takes objects among `D` off the list and lowers their counts. -/
structure Closing (D : ℕ → Prop) (s t : Loader) : Prop where
  objs_eq : ∀ i, ∃ n f, t.objs i = { s.objs i with refCount := n, finiCalled := f }
  refCount_le : ∀ i, (t.objs i).refCount ≤ (s.objs i).refCount
  refCount_eq : ∀ i, ¬D i → (t.objs i).refCount = (s.objs i).refCount
  count_eq : t.count = s.count
  main_eq : t.gMainObj = s.gMainObj
  handles_eq : t.handles = s.handles
  list_sub : t.gObjects.Sublist s.gObjects
  list_keep : ∀ i ∈ s.gObjects, ¬D i → i ∈ t.gObjects
  mapped_keep : ∀ i ∈ s.mapped, ¬D i → i ∈ t.mapped

section Closing

variable {D D' : ℕ → Prop} {s t u : Loader} {i : ℕ}

theorem Closing.refl (s : Loader) : Closing D s s where
  objs_eq i := ⟨(s.objs i).refCount, (s.objs i).finiCalled, rfl⟩
  refCount_le _ := le_rfl
  refCount_eq _ _ := rfl
  count_eq := rfl
  main_eq := rfl
  handles_eq := rfl
  list_sub := .refl _
  list_keep _ hi _ := hi
  mapped_keep _ hi _ := hi

section

variable (h : Closing D s t)
include h

theorem Closing.trans (h' : Closing D t u) : Closing D s u where
  objs_eq i := by
    obtain ⟨n, f, heq⟩ := h.objs_eq i
    obtain ⟨n', f', heq'⟩ := h'.objs_eq i
    refine ⟨n', f', ?_⟩
    rw [heq', heq]
  refCount_le i := (h'.refCount_le i).trans (h.refCount_le i)
  refCount_eq i hi := (h'.refCount_eq i hi).trans (h.refCount_eq i hi)
  count_eq := h'.count_eq.trans h.count_eq
  main_eq := h'.main_eq.trans h.main_eq
  handles_eq := h'.handles_eq.trans h.handles_eq
  list_sub := h'.list_sub.trans h.list_sub
  list_keep i hi hD := h'.list_keep i (h.list_keep i hi hD) hD
  mapped_keep i hi hD := h'.mapped_keep i (h.mapped_keep i hi hD) hD

theorem Closing.mono (hsub : ∀ i, D i → D' i) : Closing D' s t :=
  { h with
    refCount_eq := fun i hi => h.refCount_eq i fun hD => hi (hsub i hD)
    list_keep := fun i hi hD => h.list_keep i hi fun h => hD (hsub i h)
    mapped_keep := fun i hi hD => h.mapped_keep i hi fun h => hD (hsub i h) }

theorem Closing.deps_eq : t.deps = s.deps := by
  funext i
  obtain ⟨n, f, heq⟩ := h.objs_eq i
  rw [deps, heq]
  rfl

theorem Closing.stays_iff : t.Stays i ↔ s.Stays i := by
  obtain ⟨n, f, heq⟩ := h.objs_eq i
  rw [Stays, h.main_eq, heq]
  rfl

theorem Closing.closeDeps_eq : t.closeDeps = s.closeDeps := by
  funext i
  rw [closeDeps, h.deps_eq]
  exact filter_congr fun d _ => decide_eq_decide.mpr (not_congr h.stays_iff)

theorem Closing.falls_eq : t.Falls = s.Falls := by
  funext o d
  rw [Falls, Falls, h.closeDeps_eq, h.stays_iff]

theorem Closing.loaded (hi : t.Loaded i) : s.Loaded i := by
  rw [Loaded, h.main_eq] at hi
  exact hi.imp_left fun hi => h.list_sub.subset hi

theorem Closing.loaded_keep (hi : s.Loaded i) (hD : ¬D i) : t.Loaded i := by
  rw [Loaded, h.main_eq]
  exact hi.imp_left fun hi => h.list_keep i hi hD

end

/-- The count of one object is lowered, or its flag set. -/
theorem modify_closing {f : SharedObject → SharedObject} {n : ℕ} {b : Bool}
    (hf : f (s.objs i) = { s.objs i with refCount := n, finiCalled := b })
    (hn : n ≤ (s.objs i).refCount) (hD : ¬D i → n = (s.objs i).refCount) :
    Closing D s (s.modify i f) := by
  have hobjs : ∀ j, ∃ n b, (s.modify i f).objs j = { s.objs j with refCount := n, finiCalled := b } ∧
      n ≤ (s.objs j).refCount ∧ (¬D j → n = (s.objs j).refCount) := by
    intro j
    by_cases hj : j = i
    · subst hj
      exact ⟨n, b, (modify_objs_self s j f).trans hf, hn, hD⟩
    · exact ⟨_, _, modify_objs_of_ne s f hj, le_rfl, fun _ => rfl⟩
  refine ⟨fun j => ?_, fun j => ?_, fun j hj => ?_, rfl, rfl, rfl, .refl _, fun _ hi _ => hi,
    fun _ hi _ => hi⟩ <;> obtain ⟨n, b, heq, hle, hsame⟩ := hobjs j
  · exact ⟨n, b, heq⟩
  · rw [heq]
    exact hle
  · rw [heq]
    exact hsame hj

theorem rtldExecuteFini_closing (s : Loader) (i : ℕ) : Closing D s (s.rtldExecuteFini i) := by
  rw [rtldExecuteFini]
  split
  · exact .refl s
  have h : Closing D s (s.modify i fun o => { o with finiCalled := true }) :=
    modify_closing rfl le_rfl fun _ => rfl
  exact ⟨h.objs_eq, h.refCount_le, h.refCount_eq, rfl, rfl, rfl, .refl _, h.list_keep, h.mapped_keep⟩

theorem drop_closing (s : Loader) (hi : D i) : Closing D s (s.drop i) where
  objs_eq j := ⟨(s.objs j).refCount, (s.objs j).finiCalled, rfl⟩
  refCount_le _ := le_rfl
  refCount_eq _ _ := rfl
  count_eq := rfl
  main_eq := rfl
  handles_eq := rfl
  list_sub := erase_sublist
  list_keep j hj hD := by
    have hne : j ≠ i := fun heq => hD (heq ▸ hi)
    exact (mem_erase_of_ne hne).mpr hj
  mapped_keep j hj hD := by
    have hne : j ≠ i := fun heq => hD (heq ▸ hi)
    rw [drop]
    dsimp only
    split
    · exact (mem_erase_of_ne hne).mpr hj
    · exact hj

end Closing

section Traversal

variable {D : ℕ → Prop} {s s' t : Loader} {fuel i : ℕ} {l : List ℕ}

/-- The object whose last handle is closed, before its dependencies. -/
def enter (s : Loader) (i : ℕ) : Loader :=
  (s.modify i fun o => { o with refCount := 0 }).rtldExecuteFini i

theorem enter_closing (s : Loader) (hi : D i) : Closing D s (s.enter i) :=
  (modify_closing rfl (Nat.zero_le _) (absurd hi)).trans (rtldExecuteFini_closing _ i)

theorem enter_refCount (s : Loader) (i : ℕ) : ((s.enter i).objs i).refCount = 0 := by
  have hle := (rtldExecuteFini_closing (D := fun _ => False)
    (s.modify i fun o => { o with refCount := 0 }) i).refCount_le i
  rw [modify_objs_self] at hle
  exact Nat.le_zero.mp hle

/-- The three ways a close can go. -/
theorem rtldDlClose_succ (fuel : ℕ) (s : Loader) (i : ℕ) :
    rtldDlClose (fuel + 1) s i =
      if s.Stays i then some s
      else if (s.objs i).refCount > 1 then
        some (s.modify i fun o => { o with refCount := o.refCount - 1 })
      else ((s.deps i).foldlM (rtldDlClose fuel) (s.enter i)).map (·.drop i) := by
  rfl

/-- The loop over the dependencies, given what each close does. -/
theorem foldlM_close_closing
    (hstep : ∀ s d s', rtldDlClose fuel s d = some s' → Closing (s.Falls d) s s')
    (hD : ∀ d ∈ l, ∀ x, s.Falls d x → D x)
    (hrun : l.foldlM (rtldDlClose fuel) s = some s') : Closing D s s' := by
  refine foldlM_keeps (fun t d t' hd ht hrun => ht.trans ((hstep t d t' hrun).mono fun x hx => ?_))
    (.refl s) hrun
  rw [ht.falls_eq] at hx
  exact hD d hd x hx

theorem rtldDlClose_closing (hrun : rtldDlClose fuel s i = some s') : Closing (s.Falls i) s s' := by
  induction fuel generalizing s i s' with
  | zero => exact absurd hrun (by simp [rtldDlClose])
  | succ fuel ih =>
    rw [rtldDlClose_succ] at hrun
    split at hrun
    · exact some.inj hrun ▸ .refl s
    rename_i hstays
    have hself : s.Falls i i := ⟨hstays, .refl⟩
    split at hrun
    · obtain rfl := some.inj hrun
      exact modify_closing rfl (Nat.sub_le _ _) (absurd hself)
    · obtain ⟨t, ht, rfl⟩ := map_eq_some_iff.mp hrun
      have henter := enter_closing s hself
      refine (henter.trans ?_).trans (drop_closing t hself)
      apply foldlM_close_closing (fun _ _ _ h => ih h) (fun d hd x hx => ?_) ht
      rw [henter.falls_eq] at hx
      exact hx.head hstays hd

/-- The object has been taken down. -/
def Gone (s : Loader) (d : ℕ) : Prop := d ∉ s.gObjects ∧ (s.objs d).refCount = 0

/-- The count of an object with more than one reference was lowered. -/
def Lowered (s t : Loader) : Prop :=
  ∃ x, 1 < (s.objs x).refCount ∧ (t.objs x).refCount < (s.objs x).refCount

variable {d x : ℕ}

theorem Gone.closing (h : s.Gone d) (hc : Closing D s t) : t.Gone d :=
  ⟨fun hmem => h.1 (hc.list_sub.subset hmem), Nat.le_zero.mp (h.2 ▸ hc.refCount_le d)⟩

theorem Gone.not_loaded (h : s.Gone d) (hd : ¬s.Stays d) : ¬s.Loaded d :=
  fun hloaded => hloaded.elim h.1 fun hmain => hd (.inl hmain)

theorem Lowered.closing_right (h : Lowered s t) (hc : Closing D t s') : Lowered s s' :=
  h.imp fun x hx => ⟨hx.1, lt_of_le_of_lt (hc.refCount_le x) hx.2⟩

theorem Lowered.closing_left (hc : Closing D s t) (h : Lowered t s') : Lowered s s' :=
  h.imp fun x hx => ⟨lt_of_lt_of_le hx.1 (hc.refCount_le x), lt_of_lt_of_le hx.2 (hc.refCount_le x)⟩

theorem foldlM_close_gone (hstep : ∀ s d s', rtldDlClose fuel s d = some s' → s.gObjects.Nodup →
      ∀ x, s.Falls d x → s'.Gone x ∨ Lowered s s')
    (hrun : l.foldlM (rtldDlClose fuel) s = some s') (hnodup : s.gObjects.Nodup) (hd : d ∈ l)
    (hx : s.Falls d x) : s'.Gone x ∨ Lowered s s' := by
  induction l generalizing s with
  | nil => cases hd
  | cons c l ih =>
    obtain ⟨t, ht, hrun⟩ := bind_eq_some_iff.mp hrun
    have hhead := rtldDlClose_closing ht
    have htail : Closing (fun _ => True) t s' :=
      foldlM_close_closing (fun _ _ _ h => rtldDlClose_closing h) (fun _ _ _ _ => trivial) hrun
    rcases mem_cons.mp hd with rfl | hd
    · exact (hstep s d t ht hnodup x hx).imp (·.closing htail) (·.closing_right htail)
    · rw [← hhead.falls_eq] at hx
      exact (ih hrun (hnodup.sublist hhead.list_sub) hd hx).imp_right (.closing_left hhead)

/-- Everything that a close can come to is taken down, unless the count of some object that is not taken
down was lowered. -/
theorem rtldDlClose_gone (hrun : rtldDlClose fuel s i = some s') (hnodup : s.gObjects.Nodup)
    (hx : s.Falls i x) : s'.Gone x ∨ Lowered s s' := by
  induction fuel generalizing s i s' x with
  | zero => exact absurd hrun (by simp [rtldDlClose])
  | succ fuel ih =>
    rw [rtldDlClose_succ, if_neg hx.1] at hrun
    split at hrun
    · rename_i hcount
      obtain rfl := some.inj hrun
      refine .inr ⟨i, hcount, ?_⟩
      rw [modify_objs_self]
      exact Nat.sub_lt (Nat.zero_lt_of_lt hcount) zero_lt_one
    · obtain ⟨t, ht, rfl⟩ := map_eq_some_iff.mp hrun
      have henter : Closing (s.Falls i) s (s.enter i) := enter_closing s ⟨hx.1, .refl⟩
      have hloop : Closing (fun _ => True) (s.enter i) t :=
        foldlM_close_closing (fun _ _ _ h => rtldDlClose_closing h) (fun _ _ _ _ => trivial) ht
      have hdrop : Closing (· = i) t (t.drop i) := drop_closing t rfl
      rcases hx.cases_head with rfl | ⟨d, hd, hfalls⟩
      · refine .inl ⟨?_, ?_⟩
        · exact (hnodup.sublist (hloop.list_sub.trans henter.list_sub)).not_mem_erase
        · exact Nat.le_zero.mp (enter_refCount s i ▸ hloop.refCount_le i)
      · rw [← henter.falls_eq] at hfalls
        exact (foldlM_close_gone (fun _ _ _ h hn _ hx => ih h hn hx) ht
          (hnodup.sublist henter.list_sub) hd hfalls).imp (·.closing hdrop)
          fun h => (h.closing_right hdrop).closing_left henter

theorem foldlM_close_none (hd : d ∈ l)
    (hstep : ∀ t, Closing (fun _ => True) s t → rtldDlClose fuel t d = none)
    (hs : Closing (fun _ => True) s t) : l.foldlM (rtldDlClose fuel) t = none := by
  induction l generalizing t with
  | nil => cases hd
  | cons c l ih =>
    rw [foldlM_cons]
    rcases mem_cons.mp hd with rfl | hd
    · rw [hstep t hs]
      rfl
    · cases ht : rtldDlClose fuel t c with
      | none => rfl
      | some t' =>
        exact ih hd (hs.trans ((rtldDlClose_closing ht).mono fun _ _ => trivial))

/-- A close that can come to a cycle of objects with at most one reference does not return. -/
theorem rtldDlClose_cyclic (hcount : ∀ x, s.Falls i x → (s.objs x).refCount ≤ 1) {e : ℕ}
    (hd : s.Falls i d) (he : e ∈ s.closeDeps d) (hreach : Reaches s.closeDeps e d) :
    rtldDlClose fuel s i = none := by
  induction fuel generalizing s i with
  | zero => rfl
  | succ fuel ih =>
    rw [rtldDlClose_succ, if_neg hd.1, if_neg (not_lt.mpr (hcount i ⟨hd.1, .refl⟩))]
    -- the next object on the way to the cycle, or around it
    obtain ⟨c, hc, hfalls⟩ : ∃ c ∈ s.deps i, s.Falls c d := by
      rcases hd.cases_head with rfl | hnext
      · obtain ⟨hmem, hstays⟩ := mem_closeDeps.mp he
        exact ⟨e, hmem, hstays, hreach⟩
      · exact hnext
    have hnone : (s.deps i).foldlM (rtldDlClose fuel) (s.enter i) = none := by
      apply foldlM_close_none (s := s) hc (fun t ht => ?_) (enter_closing s trivial)
      apply ih
      · intro x hx
        rw [ht.falls_eq] at hx
        exact (ht.refCount_le x).trans (hcount x (hx.head hd.1 hc))
      · rw [ht.falls_eq]
        exact hfalls
      · rw [ht.closeDeps_eq]
        exact he
      · rw [ht.closeDeps_eq]
        exact hreach
    rw [hnone]
    rfl

end Traversal

/-! ## Between calls -/

/-- What holds between calls. -/
structure Sound (s : Loader) : Prop where
  closed : s.Closed
  nodup : s.gObjects.Nodup
  listed_mapped : ∀ i ∈ s.gObjects, i ∈ s.mapped
  handles_loaded : ∀ i, 0 < s.handles i → s.Loaded i
  counted : s.Counted

section Sound

variable {grows : ℕ → Prop} {files : Name → Option Image} {s s' : Loader} {fuel i o : ℕ}

theorem Closed.trans_loaded (h : s.Closed) {p : ℕ} (hp : s.Loaded p)
    (hreach : Relation.TransGen (fun a b => b ∈ s.deps a) p o) : s.Loaded o := by
  induction hreach with
  | single hdep => exact (h p hp).2 _ hdep
  | tail _ hdep ih => exact (h _ ih).2 _ hdep

theorem Sound.kept (h : s.Sound) : s.Kept := by
  intro o hmain hneeded
  have hloaded : s.Loaded o := by
    rcases hneeded with hopen | ⟨p, hp, hreach⟩
    · exact h.handles_loaded o hopen
    · exact h.closed.trans_loaded hp hreach
  have hlisted := hloaded.resolve_right hmain
  exact ⟨hlisted, h.listed_mapped o hlisted⟩

/-- The flags and logs of initialisation do not matter here. -/
structure SameLife (s s' : Loader) : Prop where
  objs_eq : ∀ i, (s'.objs i).deps = (s.objs i).deps ∧ (s'.objs i).isPinned = (s.objs i).isPinned ∧
    (s'.objs i).refCount = (s.objs i).refCount
  count_eq : s'.count = s.count
  list_eq : s'.gObjects = s.gObjects
  main_eq : s'.gMainObj = s.gMainObj
  mapped_eq : s'.mapped = s.mapped
  handles_eq : s'.handles = s.handles

theorem SameLife.refl (s : Loader) : SameLife s s := ⟨fun _ => ⟨rfl, rfl, rfl⟩, rfl, rfl, rfl, rfl, rfl⟩

variable {t : Loader}

theorem SameLife.trans (h : SameLife s t) (h' : SameLife t s') : SameLife s s' where
  objs_eq i := by
    obtain ⟨hdeps, hpin, hcount⟩ := h.objs_eq i
    obtain ⟨hdeps', hpin', hcount'⟩ := h'.objs_eq i
    exact ⟨hdeps'.trans hdeps, hpin'.trans hpin, hcount'.trans hcount⟩
  count_eq := h'.count_eq.trans h.count_eq
  list_eq := h'.list_eq.trans h.list_eq
  main_eq := h'.main_eq.trans h.main_eq
  mapped_eq := h'.mapped_eq.trans h.mapped_eq
  handles_eq := h'.handles_eq.trans h.handles_eq

theorem Sound.sameLife (h : s.Sound) (hsame : SameLife s s') : s'.Sound := by
  have hloaded : s'.Loaded = s.Loaded := by
    funext i
    rw [Loaded, Loaded, hsame.list_eq, hsame.main_eq]
  have hstays : s'.Stays = s.Stays := by
    funext i
    rw [Stays, Stays, hsame.main_eq, (hsame.objs_eq i).2.1]
  have hdeps : s'.deps = s.deps := funext fun i => (hsame.objs_eq i).1
  constructor
  · rw [Closed, hloaded, hdeps, hsame.count_eq]
    exact h.closed
  · rw [hsame.list_eq]
    exact h.nodup
  · rw [hsame.list_eq, hsame.mapped_eq]
    exact h.listed_mapped
  · rw [hloaded, hsame.handles_eq]
    exact h.handles_loaded
  · intro i hi
    rw [hstays] at hi
    rw [hsame.handles_eq, (hsame.objs_eq i).2.2]
    exact h.counted i hi

theorem modify_sameLife (s : Loader) (i : ℕ) {f : SharedObject → SharedObject}
    (hf : ∀ o, (f o).deps = o.deps ∧ (f o).isPinned = o.isPinned ∧ (f o).refCount = o.refCount) :
    SameLife s (s.modify i f) := by
  refine ⟨fun j => ?_, rfl, rfl, rfl, rfl, rfl⟩
  by_cases hj : j = i
  · subst hj
    rw [modify_objs_self]
    exact hf _
  · rw [modify_objs_of_ne s f hj]
    exact ⟨rfl, rfl, rfl⟩

theorem rtldInitDfs_sameLife (hrun : rtldInitDfs fuel s i = some s') : SameLife s s' := by
  induction fuel generalizing s i s' with
  | zero => exact absurd hrun (by simp [rtldInitDfs])
  | succ fuel ih =>
    rw [rtldInitDfs] at hrun
    split at hrun
    · exact some.inj hrun ▸ .refl s
    · obtain ⟨t, ht, rfl⟩ := map_eq_some_iff.mp hrun
      have hpush := modify_sameLife s i (f := fun o => { o with visiting := true })
        fun _ => ⟨rfl, rfl, rfl⟩
      have hpop := modify_sameLife t i
        (f := fun o => { o with visiting := false, initCalled := true }) fun _ => ⟨rfl, rfl, rfl⟩
      have hdeps := foldlM_keeps (fun _ _ _ _ hs h => hs.trans (ih h)) hpush ht
      exact hdeps.trans ⟨hpop.objs_eq, rfl, rfl, rfl, rfl, rfl⟩

theorem Sound.rtldCallInit (h : s.Sound) (hrun : s.rtldCallInit fuel = some s') : s'.Sound :=
  h.sameLife (foldlM_keeps (fun _ _ _ _ hs h => hs.trans (rtldInitDfs_sameLife h)) (.refl s) hrun)

theorem Sound.extend (h : s.Sound) (hext : Extends grows s s') (hclosed : s'.Closed) : s'.Sound := by
  obtain ⟨new, hlist, hmapped, hnodup, hnew⟩ := hext.list_eq
  have hlisted : ∀ i ∈ s.gObjects, i < s.count := fun i hi => (h.closed i (.inl hi)).1
  refine ⟨hclosed, ?_, fun i hi => ?_, fun i hi => ?_, fun i hi => ?_⟩
  · rw [hlist]
    refine nodup_append.mpr ⟨hnodup, h.nodup, fun i hi j hj => ?_⟩
    exact ne_of_gt (lt_of_lt_of_le (hlisted j hj) (hnew i hi).1)
  · rw [hlist] at hi
    rw [hmapped]
    exact mem_append.mpr ((mem_append.mp hi).imp_right (h.listed_mapped i))
  · rw [hext.handles_eq] at hi
    exact hext.loaded (h.handles_loaded i hi)
  · rw [hext.handles_eq]
    rcases lt_or_ge i s.count with hlt | hge
    · rw [Stays, hext.main_eq, hext.objs_eq i hlt] at hi
      rw [hext.objs_eq i hlt]
      exact h.counted i hi
    rcases lt_or_ge i s'.count with hlt' | hge'
    · -- a new record has no handles yet
      rw [(hext.fresh i hge hlt').2.2.2.1]
      by_contra hne
      have hopen : 0 < s.handles i := Nat.pos_of_ne_zero fun h => hne h.symm
      exact not_le.mpr (h.closed i (h.handles_loaded i hopen)).1 hge
    · rw [Stays, hext.main_eq, hext.rest_eq i hge'] at hi
      rw [hext.rest_eq i hge']
      exact h.counted i hi

theorem Sound.takeHandle (h : s.Sound) (hi : s.Loaded i) : (s.takeHandle i).Sound := by
  have hself : (s.takeHandle i).objs i = { s.objs i with refCount := (s.objs i).refCount + 1 } :=
    update_self i _ _
  have hother : ∀ j, j ≠ i → (s.takeHandle i).objs j = s.objs j := fun j hj =>
    update_of_ne hj _ _
  have hhandles : (s.takeHandle i).handles = update s.handles i (s.handles i + 1) := rfl
  have hdeps : (s.takeHandle i).deps = s.deps :=
    (comp_update SharedObject.deps s.objs i _).trans (update_eq_self i _)
  refine ⟨?_, h.nodup, h.listed_mapped, fun j hj => ?_, fun j hj => ?_⟩
  · rw [Closed, hdeps]
    exact h.closed
  · by_cases heq : j = i
    · exact heq ▸ hi
    · apply h.handles_loaded
      rwa [hhandles, update_of_ne heq] at hj
  · by_cases heq : j = i
    · subst heq
      rw [Stays, hself] at hj
      rw [hself, hhandles, update_self]
      exact congrArg (· + 1) (h.counted j hj)
    · rw [Stays, hother j heq] at hj
      rw [hother j heq, hhandles, update_of_ne heq]
      exact h.counted j hj

theorem Sound.rtldDlOpen {name : Option Name} {r : Option ℕ × Loader} (h : s.Sound)
    (hrun : s.rtldDlOpen files fuel name = some r) : r.2.Sound := by
  rcases rtldDlOpen_cases hrun with heq | ⟨i, hi, heq⟩ | ⟨name', i, t, hload, hcall⟩
  · exact heq ▸ h
  · exact heq ▸ h.takeHandle (.inl hi)
  · obtain ⟨hext, hclosed, hloaded⟩ := rtldLoadObject_spec h.closed hload
    exact ((h.extend hext hclosed).takeHandle (hloaded i rfl)).rtldCallInit hcall

theorem Sound.boot (ldso main : Image) (ldBase mainBase : ℕ) :
    (boot ldso main ldBase mainBase).Sound where
  closed := (Initialised.boot ldso main ldBase mainBase).closed
  nodup := nodup_singleton _
  listed_mapped _ hi := hi
  handles_loaded _ hi := absurd hi (lt_irrefl 0)
  counted i _ := by
    rw [Loader.boot]
    dsimp only
    split <;> rfl

theorem Sound.start {ldso main : Image} {ldBase mainBase : ℕ}
    (hrun : (Loader.boot ldso main ldBase mainBase).start files fuel main = some s) : s.Sound := by
  have hboot := Sound.boot ldso main ldBase mainBase
  obtain ⟨t, hload, hrun⟩ := bind_eq_some_iff.mp hrun
  obtain ⟨u, hcall, rfl⟩ := map_eq_some_iff.mp hrun
  obtain ⟨hext, hclosed⟩ := loadNeeded_spec hboot.closed Nat.one_lt_two hload
  apply ((hboot.extend hext hclosed).rtldCallInit hcall).sameLife
  exact ⟨fun _ => ⟨rfl, rfl, rfl⟩, rfl, rfl, rfl, rfl, rfl⟩

/-- The handle of the closed object is gone. -/
def lessHandle (s : Loader) (o : ℕ) : Loader :=
  { s with handles := update s.handles o (s.handles o - 1) }

theorem lessHandle_handles_self (s : Loader) (o : ℕ) :
    (s.lessHandle o).handles o = s.handles o - 1 :=
  update_self o _ _

theorem lessHandle_handles_of_ne (s : Loader) (h : i ≠ o) :
    (s.lessHandle o).handles i = s.handles i :=
  update_of_ne h _ _

theorem dlclose_eq_some (hrun : s.dlclose fuel (some o) = some s') :
    ∃ t, rtldDlClose fuel s o = some t ∧ s' = t.lessHandle o := by
  obtain ⟨t, ht, rfl⟩ := map_eq_some_iff.mp hrun
  exact ⟨t, ht, rfl⟩

variable {D : ℕ → Prop}

/-- A close after which what is loaded has its dependencies and the counts are right. -/
theorem Sound.closing (h : s.Sound) (hc : Closing D s t)
    (hdeps : ∀ p, t.Loaded p → ∀ d ∈ s.deps p, t.Loaded d)
    (hmapped : ∀ i ∈ t.gObjects, i ∈ t.mapped)
    (hhandles : ∀ i, 0 < (s.lessHandle o).handles i → t.Loaded i)
    (hcounted : ∀ i, ¬s.Stays i → (t.objs i).refCount = (s.lessHandle o).handles i) :
    (t.lessHandle o).Sound := by
  have heq : (t.lessHandle o).handles = (s.lessHandle o).handles := by
    rw [lessHandle, lessHandle, hc.handles_eq]
  refine ⟨fun p hp => ?_, h.nodup.sublist hc.list_sub, hmapped, fun i hi => ?_, fun i hi => ?_⟩
  · have hlt := (h.closed p (hc.loaded hp)).1
    refine ⟨hc.count_eq ▸ hlt, fun d hd => hdeps p hp d ?_⟩
    rw [← hc.deps_eq]
    exact hd
  · rw [heq] at hi
    exact hhandles i hi
  · rw [heq]
    exact hcounted i (mt hc.stays_iff.mpr hi)

/-- A close that takes nothing off the list. -/
theorem Sound.closing_keep (h : s.Sound) (hc : Closing D s t)
    (hlist : ∀ i ∈ s.gObjects, i ∈ t.gObjects) (hmapped : ∀ i ∈ s.mapped, i ∈ t.mapped)
    (hcounted : ∀ i, ¬s.Stays i → (t.objs i).refCount = (s.lessHandle o).handles i) :
    (t.lessHandle o).Sound := by
  have hkeep : ∀ p, s.Loaded p → t.Loaded p := by
    intro p hp
    rw [Loaded, hc.main_eq]
    exact hp.imp_left (hlist p)
  apply h.closing hc _ _ _ hcounted
  · intro p hp d hd
    exact hkeep d ((h.closed p (hc.loaded hp)).2 d hd)
  · intro i hi
    exact hmapped i (h.listed_mapped i (hc.list_sub.subset hi))
  · intro i hi
    apply hkeep i (h.handles_loaded i _)
    by_cases heq : i = o
    · subst heq
      rw [lessHandle_handles_self] at hi
      omega
    · rwa [lessHandle_handles_of_ne s heq] at hi

/-- All that the close can come to has been taken down. -/
theorem Sound.closing_gone (h : s.Sound) (ho : ¬s.Stays o) (hc : Closing (s.Falls o) s t)
    (hgone : ∀ d, s.Falls o d → t.Gone d)
    (hhandles : ∀ d, s.Falls o d → s.handles d ≤ if d = o then 1 else 0)
    (hlisted : ∀ d, s.Falls o d → ∀ p, s.Loaded p → d ∈ s.deps p → s.Falls o p) :
    (t.lessHandle o).Sound := by
  have hnot : ∀ p, t.Loaded p → ¬s.Falls o p := by
    intro p hp hfalls
    exact (hgone p hfalls).not_loaded (mt hc.stays_iff.mp hfalls.not_stays) hp
  have hzero : ∀ d, s.Falls o d → (s.lessHandle o).handles d = 0 := by
    intro d hd
    have hle := hhandles d hd
    by_cases heq : d = o
    · subst heq
      rw [if_pos rfl] at hle
      rw [lessHandle_handles_self]
      omega
    · rw [if_neg heq] at hle
      rw [lessHandle_handles_of_ne s heq]
      omega
  have hself : s.Falls o o := ⟨ho, .refl⟩
  apply h.closing hc
  · intro p hp d hd
    have hp' := hc.loaded hp
    apply hc.loaded_keep ((h.closed p hp').2 d hd)
    exact fun hd' => hnot p hp (hlisted d hd' p hp' hd)
  · intro i hi
    exact hc.mapped_keep i (h.listed_mapped i (hc.list_sub.subset hi)) (hnot i (.inl hi))
  · intro i hi
    have hfalls : ¬s.Falls o i := fun hfalls => ne_of_gt hi (hzero i hfalls)
    have hne : i ≠ o := fun heq => hfalls (heq ▸ hself)
    rw [lessHandle_handles_of_ne s hne] at hi
    exact hc.loaded_keep (h.handles_loaded i hi) hfalls
  · intro i hi
    by_cases hfalls : s.Falls o i
    · rw [hzero i hfalls]
      exact (hgone i hfalls).2
    · have hne : i ≠ o := fun heq => hfalls (heq ▸ hself)
      rw [hc.refCount_eq i hfalls, lessHandle_handles_of_ne s hne]
      exact h.counted i hi

theorem Sound.dlclose (h : s.Sound) (hok : s.CloseOk o)
    (hrun : s.dlclose fuel (some o) = some s') : s'.Sound := by
  obtain ⟨t, ht, rfl⟩ := dlclose_eq_some hrun
  have hc := rtldDlClose_closing ht
  by_cases ho : s.Stays o
  · have hnot : ∀ d, ¬s.Falls o d := fun d hd => hd.1 ho
    refine h.closing_keep hc (fun i hi => hc.list_keep i hi (hnot i))
      (fun i hi => hc.mapped_keep i hi (hnot i)) fun i hi => ?_
    have hne : i ≠ o := fun heq => hi (heq ▸ ho)
    rw [hc.refCount_eq i (hnot i), lessHandle_handles_of_ne s hne]
    exact h.counted i hi
  rcases hok.resolve_left ho with hmany | hok
  · -- another handle is open
    have hcount := h.counted o ho
    have heq : t = s.modify o fun p => { p with refCount := p.refCount - 1 } := by
      cases fuel with
      | zero => exact absurd ht (by simp [rtldDlClose])
      | succ fuel =>
        rw [rtldDlClose_succ, if_neg ho, if_pos (by omega)] at ht
        exact (some.inj ht).symm
    subst heq
    refine h.closing_keep hc (fun i hi => hi) (fun i hi => hi) fun i hi => ?_
    by_cases hio : i = o
    · subst hio
      rw [modify_objs_self, lessHandle_handles_self, hcount]
    · rw [modify_objs_of_ne s _ hio, lessHandle_handles_of_ne s hio]
      exact h.counted i hi
  · have hone := h.counted.falls_le fun d hd => (hok d hd.2).1
    refine h.closing_gone ho hc (fun d hd => ?_) (fun d hd => (hok d hd.2).1)
      fun d hd p hp hdep => ⟨ho, (hok d hd.2).2.1 p hp hdep⟩
    refine (rtldDlClose_gone ht h.nodup hd).resolve_right ?_
    rintro ⟨x, hmany, hless⟩
    by_cases hfalls : s.Falls o x
    · exact not_lt.mpr (hone x hfalls) hmany
    · exact ne_of_lt hless (hc.refCount_eq x hfalls)

end Sound

/-! ## Whole runs -/

/-- The states reached from the start by `dlopen` calls and by closes that are allowed. -/
inductive Runs (files : Name → Option Image) (ldso main : Image) (ldBase mainBase : ℕ) : Loader → Prop
  | start {fuel : ℕ} {s : Loader} :
      (boot ldso main ldBase mainBase).start files fuel main = some s →
      Runs files ldso main ldBase mainBase s
  | dlopen {fuel : ℕ} {name : Option Name} {s : Loader} {r : Option ℕ × Loader} :
      Runs files ldso main ldBase mainBase s → s.rtldDlOpen files fuel name = some r →
      Runs files ldso main ldBase mainBase r.2
  | dlclose {fuel o : ℕ} {s s' : Loader} :
      Runs files ldso main ldBase mainBase s → s.CloseOk o → s.dlclose fuel (some o) = some s' →
      Runs files ldso main ldBase mainBase s'

section Runs

variable {files : Name → Option Image} {ldso main : Image} {ldBase mainBase : ℕ} {s : Loader}

theorem Runs.opens {fuel : ℕ} {names : List (Option Name)} {s' : Loader}
    (h : Runs files ldso main ldBase mainBase s) (hrun : s.opens files fuel names = some s') :
    Runs files ldso main ldBase mainBase s' := by
  refine foldlM_keeps (fun t name t' _ h ht => ?_) h hrun
  obtain ⟨r, hr, rfl⟩ := map_eq_some_iff.mp ht
  exact h.dlopen hr

end Runs

end Loader

end NovaOS.Ldso
