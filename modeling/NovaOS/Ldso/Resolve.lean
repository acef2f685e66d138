import NovaOS.Ldso.Init

/-!
# Symbol resolution

Reference: `lib/ldso/rtld.c` (`rtldResolveSymbol`).

A name is looked up in the main program and then in the objects of the list, of which the one that was
loaded last is the first. The first definition with `STB_GLOBAL` is taken, else the first with `STB_WEAK`. A
lookup that reads outside its tables is `none`, and so is the whole resolution.
-/

namespace NovaOS.Ldso

open NovaOS.Lib List Option Function

def stbGlobal : BitVec 8 := 1#8
def stbWeak : BitVec 8 := 2#8

/-- `ELF64_ST_BIND`. -/
def Elf64Sym.stBind (sym : Elf64Sym) : BitVec 8 := sym.stInfo >>> 4

/-- `rtldLookupInObject`, with the symbol it returns. -/
def SymbolTables.lookup (t : SymbolTables) (fuel : ℕ) (name : Name) : Option (Option Elf64Sym) :=
  match t.rtldLookupInObject fuel name with
  | none => none
  | some none => some none
  | some (some i) => (t.symtab.bind (·[i]?)).map some

/-- The search of `rtldResolveSymbol` through objects, with the weak definition that was found before. -/
def resolveIn (lookup : ℕ → Option (Option Elf64Sym)) :
    List ℕ → Option (ℕ × Elf64Sym) → Option (Option (ℕ × Elf64Sym))
  | [], weak => some weak
  | i :: objs, weak =>
    match lookup i with
    | none => none
    | some none => resolveIn lookup objs weak
    | some (some sym) =>
      if sym.stBind = stbGlobal then some (some (i, sym))
      else resolveIn lookup objs (if sym.stBind = stbWeak ∧ weak = none then some (i, sym) else weak)

namespace Loader

/-- `rtldLookupInObject` for an object. -/
def lookup (s : Loader) (fuel : ℕ) (name : Name) (i : ℕ) : Option (Option Elf64Sym) :=
  (s.objs i).symbols.lookup fuel name

/-- `rtldResolveSymbol`, with the object and the symbol; `fuel` is for the lookups. -/
def rtldResolveSymbol (s : Loader) (fuel : ℕ) (name : Name) : Option (Option (ℕ × Elf64Sym)) :=
  resolveIn (s.lookup fuel name) (s.gMainObj.toList ++ s.gObjects) none

/-- The address of a symbol. -/
def symbolAddr (s : Loader) (i : ℕ) (sym : Elf64Sym) : ℕ := wrap64 ((s.objs i).base + sym.stValue.toNat)

end Loader

/-! ## Where a global definition is found -/

/-- The search goes on after this object. -/
def Passes (found : Option (Option Elf64Sym)) : Prop :=
  ∃ r, found = some r ∧ ∀ sym, r = some sym → sym.stBind ≠ stbGlobal

/-- The first object at which the search does not go on has this global definition. -/
def FirstGlobal (lookup : ℕ → Option (Option Elf64Sym)) (objs : List ℕ) (i : ℕ) (sym : Elf64Sym) : Prop :=
  lookup i = some (some sym) ∧ sym.stBind = stbGlobal ∧
    ∃ before after, objs = before ++ i :: after ∧ ∀ j ∈ before, Passes (lookup j)

section FirstGlobal

variable {lookup lookup' : ℕ → Option (Option Elf64Sym)} {objs objs' : List ℕ} {i : ℕ} {sym : Elf64Sym}

variable {j : ℕ}

theorem FirstGlobal.mem (h : FirstGlobal lookup objs i sym) : i ∈ objs := by
  obtain ⟨-, -, before, after, rfl, -⟩ := h
  exact mem_append_right _ (.head _)

/-- The search ends at the first object, or goes on after it. -/
theorem firstGlobal_cons : FirstGlobal lookup (j :: objs) i sym ↔
    (j = i ∧ lookup j = some (some sym) ∧ sym.stBind = stbGlobal) ∨
      Passes (lookup j) ∧ FirstGlobal lookup objs i sym := by
  constructor
  · rintro ⟨hlookup, hglobal, before, after, heq, hbefore⟩
    cases before with
    | nil =>
      obtain ⟨rfl, -⟩ := cons.inj heq
      exact .inl ⟨rfl, hlookup, hglobal⟩
    | cons k before =>
      obtain ⟨rfl, rfl⟩ := cons.inj heq
      obtain ⟨hj, hbefore⟩ := forall_mem_cons.mp hbefore
      exact .inr ⟨hj, hlookup, hglobal, before, after, rfl, hbefore⟩
  · rintro (⟨rfl, hlookup, hglobal⟩ | ⟨hj, hlookup, hglobal, before, after, rfl, hbefore⟩)
    · exact ⟨hlookup, hglobal, [], objs, rfl, fun _ h => nomatch h⟩
    · exact ⟨hlookup, hglobal, j :: before, after, rfl, forall_mem_cons.mpr ⟨hj, hbefore⟩⟩

theorem firstGlobal_append : FirstGlobal lookup (objs ++ objs') i sym ↔
    FirstGlobal lookup objs i sym ∨
      (∀ j ∈ objs, Passes (lookup j)) ∧ FirstGlobal lookup objs' i sym := by
  induction objs with
  | nil => simp [FirstGlobal]
  | cons j objs ih =>
    rw [cons_append, firstGlobal_cons, firstGlobal_cons, ih, forall_mem_cons]
    tauto

theorem resolveIn_global_iff {weak : Option (ℕ × Elf64Sym)} (hweak : ∀ w, weak = some w → w.2.stBind ≠ stbGlobal)
    (hglobal : sym.stBind = stbGlobal) :
    resolveIn lookup objs weak = some (some (i, sym)) ↔ FirstGlobal lookup objs i sym := by
  induction objs generalizing weak with
  | nil =>
    refine iff_of_false (fun h => ?_) fun h => nomatch h.mem
    exact hweak _ (some.inj h) hglobal
  | cons j objs ih =>
    rw [resolveIn, firstGlobal_cons]
    cases lookup j with
    | none => simp [Passes]
    | some found =>
      cases found with
      | none => simp [Passes, ih hweak]
      | some sym' =>
        dsimp only
        split
        · rename_i hsym
          simp [Passes, hsym, hglobal]
        · rename_i hsym
          have hne : sym' ≠ sym := fun heq => hsym (heq ▸ hglobal)
          rw [ih fun w hw => ?_]
          · simp [Passes, hsym, hne]
          · split_ifs at hw with hset
            · obtain rfl := some.inj hw
              exact hsym
            · exact hweak w hw

/-- Objects in between keep the definition if and only if the search goes on after all of them. -/
theorem firstGlobal_insert_iff {front new old : List ℕ} (h : FirstGlobal lookup (front ++ old) i sym)
    (hsame : ∀ j ∈ front ++ old, lookup' j = lookup j) (hnew : i ∉ new) :
    FirstGlobal lookup' (front ++ new ++ old) i sym ↔ i ∈ front ∨ ∀ j ∈ new, Passes (lookup' j) := by
  have hmem := h.mem
  obtain ⟨hlookup, hglobal, before, after, heq, hbefore⟩ := h
  have h' : FirstGlobal lookup' (front ++ old) i sym :=
    ⟨(hsame i hmem).trans hlookup, hglobal, before, after, heq, fun j hj =>
      (hsame j (heq ▸ mem_append_left _ hj)).symm ▸ hbefore j hj⟩
  rw [append_assoc, firstGlobal_append, firstGlobal_append]
  rcases firstGlobal_append.mp h' with hfront | ⟨hpass, hold⟩
  · exact iff_of_true (.inl hfront) (.inl hfront.mem)
  · -- the search stops at `i`, so it is not in the front
    have hfront : i ∉ front := by
      intro hi
      obtain ⟨r, hr, hr'⟩ := hpass i hi
      exact hr' sym (mem_unique hr h'.1) hglobal
    rw [or_iff_right (mt FirstGlobal.mem hfront), and_iff_right hpass,
      or_iff_right (mt FirstGlobal.mem hnew), and_iff_left hold, or_iff_right hfront]

end FirstGlobal

/-! ## What `rtldLoadObject` loads -/

namespace Loader

/-- `rtldLoadObject` finds the name among the objects that are there. -/
def Known (s : Loader) (name : Name) : Prop := ∃ i, s.Loaded i ∧ (s.objs i).name = name

/-- The files that have to be loaded for those in `root`: those that are not known, and what they need. -/
inductive Loads (files : Name → Option Image) (s : Loader) (root : Name → Prop) : Name → Prop
  | root {name : Name} : root name → ¬s.Known name → Loads files s root name
  | needed {name dep : Name} {img : Image} : Loads files s root name → files name = some img →
      dep ∈ img.needed → ¬s.Known dep → Loads files s root dep

/-- `new` are objects for which files were loaded, with all that they need. -/
structure Added (files : Name → Option Image) (b : Loader) (root : Name → Prop) (s t : Loader)
    (new : List ℕ) : Prop where
  list_eq : t.gObjects = new ++ s.gObjects
  range : ∀ j ∈ new, s.count ≤ j ∧ j < t.count
  file : ∀ j ∈ new, ∃ name img, Loads files b root name ∧ files name = some img ∧
    (t.objs j).symbols = img.symbols ∧ (t.objs j).name = name.take (sizeofName - 1) ∧
    ∀ dep ∈ img.needed, dep.length < sizeofName → t.Known dep ∨ files dep = none

section Loads

variable {files : Name → Option Image} {b s t u : Loader} {root root' : Name → Prop} {grows : ℕ → Prop}
  {name : Name} {new new' : List ℕ}

theorem Loads.not_known (h : Loads files b root name) : ¬b.Known name := by
  cases h with
  | root _ h => exact h
  | needed _ _ _ h => exact h

theorem Loads.mono (hroot : ∀ dep, root' dep → ¬b.Known dep → Loads files b root dep)
    (h : Loads files b root' name) : Loads files b root name := by
  induction h with
  | root hr hk => exact hroot _ hr hk
  | needed _ hfile hmem hk ih => exact ih.needed hfile hmem hk

theorem known_iff (s : Loader) (name : Name) :
    s.Known name ↔ s.gMainObj.any (fun i => (s.objs i).name == name) = true ∨
      (s.findObject name).isSome = true := by
  rw [findObject, find?_isSome]
  constructor
  · rintro ⟨i, hi | hi, hname⟩
    · exact .inr ⟨i, hi, by simpa using hname⟩
    · exact .inl (by simpa [hi] using hname)
  · rintro (hmain | ⟨i, hi, hname⟩)
    · cases hi : s.gMainObj with
      | none => exact absurd hmain (by simp [hi])
      | some i => exact ⟨i, .inr hi, by simpa [hi] using hmain⟩
    · exact ⟨i, .inl hi, by simpa using hname⟩

theorem Known.extends (h : s.Known name) (hclosed : s.Closed) (hext : Extends grows s t) : t.Known name := by
  obtain ⟨i, hi, hname⟩ := h
  refine ⟨i, hext.loaded hi, ?_⟩
  rw [hext.objs_eq i (hclosed i hi).1]
  exact hname

/-- A name that has become known is that of a new object. -/
theorem Known.mem_new (h : t.Known name) (hclosed : s.Closed) (hext : Extends grows s t)
    (hlist : t.gObjects = new ++ s.gObjects) (hnot : ¬s.Known name) : ∃ j ∈ new, (t.objs j).name = name := by
  obtain ⟨i, hi, hname⟩ := h
  have hold : ¬s.Loaded i := by
    intro hloaded
    rw [hext.objs_eq i (hclosed i hloaded).1] at hname
    exact hnot ⟨i, hloaded, hname⟩
  rcases hi with hi | hi
  · rw [hlist] at hi
    rcases mem_append.mp hi with hi | hi
    · exact ⟨i, hi, hname⟩
    · exact absurd (.inl hi) hold
  · exact absurd (.inr (hext.main_eq ▸ hi)) hold

theorem Added.nil (h : t.gObjects = s.gObjects) : Added files b root s t [] where
  list_eq := h
  range _ hj := nomatch hj
  file _ hj := nomatch hj

theorem Added.mono (h : Added files b root' s t new)
    (hroot : ∀ dep, root' dep → ¬b.Known dep → Loads files b root dep) : Added files b root s t new where
  list_eq := h.list_eq
  range := h.range
  file j hj := by
    obtain ⟨name, img, hloads, hrest⟩ := h.file j hj
    exact ⟨name, img, hloads.mono hroot, hrest⟩

theorem Added.trans (h : Added files b root s t new) (hclosed : t.Closed) (hcount : s.count ≤ t.count)
    (hext : Extends grows t u) (h' : Added files b root t u new') :
    Added files b root s u (new' ++ new) where
  list_eq := by rw [h'.list_eq, h.list_eq, append_assoc]
  range j hj := by
    rcases mem_append.mp hj with hj | hj
    · exact ⟨hcount.trans (h'.range j hj).1, (h'.range j hj).2⟩
    · exact ⟨(h.range j hj).1, lt_of_lt_of_le (h.range j hj).2 hext.count_le⟩
  file j hj := by
    rcases mem_append.mp hj with hj | hj
    · exact h'.file j hj
    · -- the objects that were new stay as they are while more is loaded
      obtain ⟨name, img, hloads, hfile, hsymbols, hname, hneeded⟩ := h.file j hj
      have hobj := hext.objs_eq j (h.range j hj).2
      refine ⟨name, img, hloads, hfile, by rw [hobj]; exact hsymbols, by rw [hobj]; exact hname, ?_⟩
      exact fun dep hdep hlen => (hneeded dep hdep hlen).imp_left (·.extends hclosed hext)

/-- What loading a file adds, and that the name is known afterwards. -/
def LoadAdds (files : Name → Option Image) (b : Loader) (name : Name) (s t : Loader) : Prop :=
  ∃ new, Added files b (· = name) s t new ∧
    (name.length < sizeofName → t.Known name ∨ files name = none)

theorem addLoaded_gObjects (obj : ℕ) (r : Option ℕ × Loader) : (addLoaded obj r).gObjects = r.2.gObjects := by
  obtain ⟨dep, t⟩ := r
  cases dep with
  | none => rfl
  | some dep =>
    rw [addLoaded, rtldAddDependency]
    split <;> rfl

/-- The loop over the needed names, given what loading one of them adds. -/
theorem foldlM_load_added {load : Name → Loader → Option (Option ℕ × Loader)} {obj : ℕ} {names : List Name}
    (hload : ∀ name s r, s.Closed → Extends (fun _ => True) b s → load name s = some r →
      LoadSpec s r ∧ LoadAdds files b name s r.2)
    (hclosed : s.Closed) (hobj : obj < s.count) (hext : Extends (fun _ => True) b s)
    (hrun : names.foldlM (fun t dep => (load dep t).map (addLoaded obj)) s = some t) :
    Extends (· = obj) s t ∧ ∃ new, Added files b (· ∈ names) s t new ∧
      ∀ dep ∈ names, dep.length < sizeofName → t.Known dep ∨ files dep = none := by
  induction names generalizing s with
  | nil =>
    obtain rfl := some.inj hrun
    exact ⟨.refl s, [], .nil rfl, fun _ h => nomatch h⟩
  | cons name names ih =>
    obtain ⟨u, hu, hrun⟩ := bind_eq_some_iff.mp hrun
    obtain ⟨r, hr, rfl⟩ := map_eq_some_iff.mp hu
    obtain ⟨hspec, new, hadded, hknown⟩ := hload name s r hclosed hext hr
    obtain ⟨hadd, hclosed'⟩ := addLoaded_spec hspec hobj
    obtain ⟨hdep, -⟩ : Extends (· = obj) r.2 (addLoaded obj r) ∧ _ :=
      addLoaded_spec ⟨.refl _, hspec.2⟩ (lt_of_lt_of_le hobj hspec.1.count_le)
    have hext' := hext.trans (hadd.mono fun _ _ _ => trivial)
    obtain ⟨hrest, new', hadded', hknown'⟩ :=
      ih hclosed' (lt_of_lt_of_le hobj hadd.count_le) hext' hrun
    have hfirst : Added files b (· ∈ name :: names) s (addLoaded obj r) new :=
      (hadded.mono fun _ heq => .root (mem_cons.mpr (.inl heq))).trans hspec.2.1 hspec.1.count_le hdep
        (.nil (addLoaded_gObjects obj r))
    refine ⟨hadd.trans hrest, new' ++ new, hfirst.trans hclosed' hadd.count_le hrest
      (hadded'.mono fun _ hmem => .root (.tail _ hmem)), fun dep hmem hlen => ?_⟩
    rcases mem_cons.mp hmem with rfl | hmem
    · exact (hknown hlen).imp_left fun h => (h.extends hspec.2.1 hdep).extends hclosed' hrest
    · exact hknown' dep hmem hlen

variable {img : Image}

/-- The first file that is loaded, and what it needs. -/
theorem Added.newObject (hfile : files name = some img) (hname : ¬b.Known name)
    (hext : Extends grows (s.newObject name img) t)
    (h : Added files b (· ∈ img.needed) (s.newObject name img) t new)
    (hneeded : ∀ dep ∈ img.needed, dep.length < sizeofName → t.Known dep ∨ files dep = none) :
    Added files b (· = name) s t (new ++ [s.count]) where
  list_eq := by
    rw [h.list_eq, append_assoc]
    rfl
  range j hj := by
    rcases mem_append.mp hj with hj | hj
    · exact ⟨Nat.le_of_succ_le (h.range j hj).1, (h.range j hj).2⟩
    · obtain rfl := mem_singleton.mp hj
      exact ⟨le_rfl, hext.count_le⟩
  file j hj := by
    have hroot : Loads files b (· = name) name := .root rfl hname
    rcases mem_append.mp hj with hj | hj
    · obtain ⟨dep, img', hloads, hrest⟩ := h.file j hj
      exact ⟨dep, img', hloads.mono fun _ hmem hk => hroot.needed hfile hmem hk, hrest⟩
    · obtain rfl := mem_singleton.mp hj
      have hobj := hext.objs_eq s.count (Nat.lt_succ_self _)
      rw [show (s.newObject name img).objs s.count = .ofImage img name s.gNextLibAddr s.gIsStartingUp from
        update_self _ _ _] at hobj
      refine ⟨name, img, hroot, hfile, ?_, ?_, hneeded⟩
      · rw [hobj]
        rfl
      · rw [hobj]
        rfl

theorem rtldLoadObject_added {fuel : ℕ} {r : Option ℕ × Loader} (hb : b.Closed) (hclosed : s.Closed)
    (hext : Extends (fun _ => True) b s) (hrun : rtldLoadObject files fuel name s = some r) :
    LoadAdds files b name s r.2 := by
  induction fuel generalizing name s r with
  | zero => exact absurd hrun (by simp [rtldLoadObject])
  | succ fuel ih =>
    rw [rtldLoadObject] at hrun
    split at hrun
    · rename_i hmain
      obtain rfl := some.inj hrun
      exact ⟨[], .nil rfl, fun _ => .inl ((known_iff s name).mpr (.inl hmain))⟩
    rename_i hmain
    split at hrun
    · rename_i i hfind
      obtain rfl := some.inj hrun
      exact ⟨[], .nil rfl, fun _ => .inl ((known_iff s name).mpr (.inr (by rw [hfind]; rfl)))⟩
    rename_i hfind
    split at hrun
    · rename_i hfile
      obtain rfl := some.inj hrun
      exact ⟨[], .nil rfl, fun _ => .inr hfile⟩
    · rename_i img hfile
      obtain ⟨t, ht, rfl⟩ := map_eq_some_iff.mp hrun
      have hnew := newObject_extends s name img fun _ => True
      have hnot : ¬s.Known name := by
        rw [known_iff, hfind]
        exact fun h => h.elim hmain (by simp)
      obtain ⟨hloop, new, hadded, hneeded⟩ := foldlM_load_added
        (fun _ _ _ hc he hr => ⟨rtldLoadObject_spec hc hr, ih hc he hr⟩)
        (newObject_closed hclosed name img) (Nat.lt_succ_self _) (hext.trans hnew) ht
      refine ⟨new ++ [s.count], hadded.newObject hfile (fun h => hnot (h.extends hb hext)) hloop hneeded,
        fun hlen => .inl ?_⟩
      have hknown : (s.newObject name img).Known name := by
        refine ⟨s.count, .inl (.head _), ?_⟩
        rw [show (s.newObject name img).objs s.count =
          .ofImage img name s.gNextLibAddr s.gIsStartingUp from update_self _ _ _]
        exact take_of_length_le (Nat.le_sub_one_of_lt hlen)
      exact hknown.extends (newObject_closed hclosed name img) hloop

/-- With names that fit into the records, a new object is there for each file that has to be loaded. -/
theorem Added.complete (hb : b.Closed) (hext : Extends grows b t) (h : Added files b root b t new)
    (hroot : ∀ name, root name → name.length < sizeofName → t.Known name ∨ files name = none)
    (hlen : ∀ name, Loads files b root name → name.length < sizeofName)
    (hloads : Loads files b root name) (hfile : files name = some img) :
    ∃ j ∈ new, (t.objs j).symbols = img.symbols := by
  -- the object of a loaded file that is known
  have hobj : ∀ {name img}, Loads files b root name → files name = some img → t.Known name →
      ∃ j ∈ new, (t.objs j).symbols = img.symbols ∧
        ∀ dep ∈ img.needed, dep.length < sizeofName → t.Known dep ∨ files dep = none := by
    intro name img hloads hfile hknown
    obtain ⟨j, hj, hname⟩ := hknown.mem_new hb hext h.list_eq hloads.not_known
    obtain ⟨name', img', hloads', hfile', hsymbols, hname', hneeded⟩ := h.file j hj
    rw [take_of_length_le (Nat.le_sub_one_of_lt (hlen name' hloads')), hname] at hname'
    obtain rfl := hname'
    obtain rfl := mem_unique hfile' hfile
    exact ⟨j, hj, hsymbols, hneeded⟩
  have hknown : t.Known name ∨ files name = none := by
    clear hfile
    induction hloads with
    | root hr hk => exact hroot _ hr (hlen _ (.root hr hk))
    | needed hn hfile hmem hk ih =>
      obtain ⟨j, -, -, hneeded⟩ := hobj hn hfile (ih.resolve_right (by simp [hfile]))
      exact hneeded _ hmem (hlen _ (hn.needed hfile hmem hk))
  obtain ⟨j, hj, hsymbols, -⟩ := hobj hloads hfile (hknown.resolve_right (by simp [hfile]))
  exact ⟨j, hj, hsymbols⟩

end Loads

/-! ## Opening a library -/

/-- The objects that are searched, their symbols and their addresses are the same. -/
structure SameSymbols (s t : Loader) : Prop where
  list_eq : t.gObjects = s.gObjects
  main_eq : t.gMainObj = s.gMainObj
  base_eq : ∀ i, (t.objs i).base = (s.objs i).base
  symbols_eq : ∀ i, (t.objs i).symbols = (s.objs i).symbols

section SameSymbols

variable {s t u : Loader} {i : ℕ}

theorem SameSymbols.refl (s : Loader) : SameSymbols s s := ⟨rfl, rfl, fun _ => rfl, fun _ => rfl⟩

theorem SameSymbols.trans (h : SameSymbols s t) (h' : SameSymbols t u) : SameSymbols s u where
  list_eq := h'.list_eq.trans h.list_eq
  main_eq := h'.main_eq.trans h.main_eq
  base_eq i := (h'.base_eq i).trans (h.base_eq i)
  symbols_eq i := (h'.symbols_eq i).trans (h.symbols_eq i)

theorem SameSymbols.modify (s : Loader) (i : ℕ) {f : SharedObject → SharedObject}
    (hbase : ∀ o, (f o).base = o.base) (hsymbols : ∀ o, (f o).symbols = o.symbols) :
    SameSymbols s (s.modify i f) := by
  refine ⟨rfl, rfl, fun j => ?_, fun j => ?_⟩
  · by_cases hj : j = i
    · rw [hj, modify_objs_self, hbase]
    · rw [modify_objs_of_ne s f hj]
  · by_cases hj : j = i
    · rw [hj, modify_objs_self, hsymbols]
    · rw [modify_objs_of_ne s f hj]

theorem SameSymbols.takeHandle (s : Loader) (i : ℕ) : SameSymbols s (s.takeHandle i) := by
  obtain ⟨hlist, hmain, hbase, hsymbols⟩ :=
    SameSymbols.modify s i (f := fun o => { o with refCount := o.refCount + 1 }) (fun _ => rfl) fun _ => rfl
  exact ⟨hlist, hmain, hbase, hsymbols⟩

/-- The loop over objects, given what the search from one of them does. -/
theorem SameSymbols.foldlM {step : Loader → ℕ → Option Loader}
    (hstep : ∀ s i t, step s i = some t → SameSymbols s t) {l : List ℕ}
    (hrun : l.foldlM step s = some t) : SameSymbols s t := by
  induction l generalizing s with
  | nil => exact some.inj hrun ▸ .refl s
  | cons i l ih =>
    obtain ⟨u, hu, hrun⟩ := bind_eq_some_iff.mp hrun
    exact (hstep s i u hu).trans (ih hrun)

variable {fuel : ℕ}

theorem SameSymbols.rtldInitDfs (hrun : rtldInitDfs fuel s i = some t) : SameSymbols s t := by
  induction fuel generalizing s i t with
  | zero => exact absurd hrun (by simp [Loader.rtldInitDfs])
  | succ fuel ih =>
    rw [Loader.rtldInitDfs] at hrun
    split at hrun
    · exact some.inj hrun ▸ .refl s
    · obtain ⟨u, hu, rfl⟩ := map_eq_some_iff.mp hrun
      have hvisit := SameSymbols.modify s i (f := fun o => { o with visiting := true }) (fun _ => rfl)
        fun _ => rfl
      have hdone := SameSymbols.modify u i
        (f := fun o => { o with visiting := false, initCalled := true }) (fun _ => rfl) fun _ => rfl
      have hall := (hvisit.trans (.foldlM (fun _ _ _ => ih) hu)).trans hdone
      exact ⟨hall.list_eq, hall.main_eq, hall.base_eq, hall.symbols_eq⟩

theorem SameSymbols.rtldCallInit (hrun : s.rtldCallInit fuel = some t) : SameSymbols s t :=
  .foldlM (fun _ _ _ => .rtldInitDfs) hrun

end SameSymbols

/-- Each name that was resolved to a global definition is resolved to the same one, at the same address. -/
def KeepsGlobals (fuel : ℕ) (s t : Loader) : Prop :=
  ∀ name i sym, s.rtldResolveSymbol fuel name = some (some (i, sym)) → sym.stBind = stbGlobal →
    t.rtldResolveSymbol fuel name = some (some (i, sym)) ∧ t.symbolAddr i sym = s.symbolAddr i sym

/-- Of the files that have to be loaded, none has a global definition of a name that is resolved to a global
definition outside the main program. -/
def NotInterposed (files : Name → Option Image) (fuel : ℕ) (s : Loader) (filename : Name) : Prop :=
  ∀ name i sym, s.rtldResolveSymbol fuel name = some (some (i, sym)) → sym.stBind = stbGlobal →
    s.gMainObj ≠ some i → ∀ file img, Loads files s (· = filename) file → files file = some img →
      Passes (img.symbols.lookup fuel name)

section Open

variable {files : Name → Option Image} {fuel depth i : ℕ} {s t : Loader} {name filename : Name}
  {sym : Elf64Sym} {new : List ℕ}

theorem rtldResolveSymbol_global_iff (hglobal : sym.stBind = stbGlobal) :
    s.rtldResolveSymbol fuel name = some (some (i, sym)) ↔
      FirstGlobal (s.lookup fuel name) (s.gMainObj.toList ++ s.gObjects) i sym :=
  resolveIn_global_iff (fun _ h => nomatch h) hglobal

/-- What a `dlopen` of a name that is not on the list leaves behind. -/
theorem rtldDlOpen_adds (hclosed : s.Closed) (hfind : s.findObject filename = none) {obj : ℕ}
    (hrun : s.rtldDlOpen files depth (some filename) = some (some obj, t)) :
    ∃ u, Extends (fun _ => False) s u ∧ LoadAdds files s filename s u ∧ SameSymbols u t := by
  rw [rtldDlOpen, hfind] at hrun
  cases hload : s.rtldLoadObject files depth filename with
  | none => exact absurd hrun (by simp [hload])
  | some r =>
    obtain ⟨loaded, u⟩ := r
    rw [hload] at hrun
    cases loaded with
    | none => cases hrun
    | some loaded =>
      obtain ⟨t', ht', heq⟩ := map_eq_some_iff.mp hrun
      obtain ⟨-, rfl⟩ := Prod.mk.inj heq
      exact ⟨u, (rtldLoadObject_spec hclosed hload).1,
        rtldLoadObject_added hclosed hclosed (.refl s) hload,
        (SameSymbols.takeHandle u loaded).trans (.rtldCallInit ht')⟩

/-- The objects at which a global definition is found have records. -/
theorem loaded_of_resolve (h : s.rtldResolveSymbol fuel name = some (some (i, sym)))
    (hglobal : sym.stBind = stbGlobal) : s.Loaded i := by
  obtain ⟨-, -, before, after, heq, -⟩ := (rtldResolveSymbol_global_iff hglobal).mp h
  have hmem : i ∈ s.gMainObj.toList ++ s.gObjects := heq ▸ mem_append_right _ (.head _)
  rcases mem_append.mp hmem with hmem | hmem
  · exact .inr (mem_toList.mp hmem)
  · exact .inl hmem

/-- A definition is kept if it is in the main program, or if no new object stops the search. -/
theorem resolve_kept_iff {u : Loader} {grows : ℕ → Prop} {root : Name → Prop} (hclosed : s.Closed)
    (hext : Extends grows s u) (hadded : Added files s root s u new) (hsame : SameSymbols u t)
    (h : s.rtldResolveSymbol fuel name = some (some (i, sym))) (hglobal : sym.stBind = stbGlobal) :
    t.rtldResolveSymbol fuel name = some (some (i, sym)) ↔
      s.gMainObj = some i ∨ ∀ j ∈ new, Passes ((u.objs j).symbols.lookup fuel name) := by
  have hlist : t.gMainObj.toList ++ t.gObjects = s.gMainObj.toList ++ new ++ s.gObjects := by
    rw [hsame.main_eq, hext.main_eq, hsame.list_eq, hadded.list_eq, append_assoc]
  have hlookup : ∀ j, t.lookup fuel name j = (u.objs j).symbols.lookup fuel name := fun j => by
    rw [lookup, hsame.symbols_eq]
  have hold : ∀ j ∈ s.gMainObj.toList ++ s.gObjects, t.lookup fuel name j = s.lookup fuel name j := by
    intro j hj
    have hloaded : s.Loaded j := (mem_append.mp hj).symm.imp_right mem_toList.mp
    rw [hlookup, hext.objs_eq j (hclosed j hloaded).1]
    rfl
  have hnew : i ∉ new := fun hmem =>
    not_le.mpr (hclosed i (loaded_of_resolve h hglobal)).1 (hadded.range i hmem).1
  rw [rtldResolveSymbol_global_iff hglobal, hlist,
    firstGlobal_insert_iff ((rtldResolveSymbol_global_iff hglobal).mp h) hold hnew, mem_toList]
  exact or_congr Iff.rfl (forall₂_congr fun j _ => by rw [hlookup])

/-- A successful `dlopen` of an object that is not loaded yet keeps all global definitions if none of the
files that it loads interposes on them. With names that fit into the records, it keeps them only then. -/
theorem rtldDlOpen_keepsGlobals_iff {obj : ℕ} (hclosed : s.Closed) (hfind : s.findObject filename = none)
    (hrun : s.rtldDlOpen files depth (some filename) = some (some obj, t)) :
    (NotInterposed files fuel s filename → KeepsGlobals fuel s t) ∧
    ((∀ file, Loads files s (· = filename) file → file.length < sizeofName) →
      (KeepsGlobals fuel s t ↔ NotInterposed files fuel s filename)) := by
  obtain ⟨u, hext, ⟨new, hadded, hknown⟩, hsame⟩ := rtldDlOpen_adds hclosed hfind hrun
  have hkeeps : NotInterposed files fuel s filename → KeepsGlobals fuel s t := by
    intro hnot name i sym h hglobal
    constructor
    · apply (resolve_kept_iff hclosed hext hadded hsame h hglobal).mpr
      by_cases hmain : s.gMainObj = some i
      · exact .inl hmain
      refine .inr fun j hj => ?_
      obtain ⟨file, img, hloads, hfile, hsymbols, -⟩ := hadded.file j hj
      rw [hsymbols]
      exact hnot name i sym h hglobal hmain file img hloads hfile
    · rw [symbolAddr, hsame.base_eq, hext.objs_eq i (hclosed i (loaded_of_resolve h hglobal)).1]
      rfl
  refine ⟨hkeeps, fun hlen => ⟨fun hall name i sym h hglobal hmain file img hloads hfile => ?_, hkeeps⟩⟩
  have hpass := ((resolve_kept_iff hclosed hext hadded hsame h hglobal).mp
    (hall name i sym h hglobal).1).resolve_left hmain
  obtain ⟨j, hj, hsymbols⟩ := hadded.complete hclosed hext (by rintro _ rfl; exact hknown) hlen hloads hfile
  rw [← hsymbols]
  exact hpass j hj

/-- A library with two global definitions. -/
def sampleLibrary : Image := { sampleImage [] with symbols := sampleObject }

/-- Two libraries with the same definitions, and one with none. -/
def sampleLibraries (name : Name) : Option Image :=
  if name = nameBytes "a.so" ∨ name = nameBytes "b.so" then some sampleLibrary
  else if name = nameBytes "c.so" then some (sampleImage [])
  else none

/-- The start of a program that needs the first of them. -/
def sampleLinked : Option Loader :=
  (boot (sampleImage []) (sampleImage ["a.so"]) 0x700000000000 0x400000).start sampleLibraries 8
    (sampleImage ["a.so"])

theorem sampleLibraries_c : sampleLibraries (nameBytes "c.so") = some (sampleImage []) := by
  rw [sampleLibraries, if_neg (by decide), if_pos rfl]

theorem sampleLibraries_loads {file : Name}
    (h : Loads sampleLibraries s (· = nameBytes "c.so") file) : file = nameBytes "c.so" := by
  induction h with
  | root hr _ => exact hr
  | needed _ hfile hmem _ ih =>
    subst ih
    obtain rfl := mem_unique sampleLibraries_c hfile
    cases hmem

theorem rtldDlOpen_keepsGlobals_iff_sample :
    (sampleLinked.bind fun s => (s.rtldDlOpen sampleLibraries 8 (some (nameBytes "c.so"))).map fun r =>
      (s.findObject (nameBytes "c.so"), r.1)) = some (none, some 3) ∧
    ∃ s t, sampleLinked = some s ∧
      s.rtldDlOpen sampleLibraries 8 (some (nameBytes "c.so")) = some (some 3, t) ∧ KeepsGlobals 4 s t := by
  refine (and_iff_left_of_imp fun hrun => ?_).mpr (by decide +kernel)
  obtain ⟨s, hs, hopen⟩ := bind_eq_some_iff.mp hrun
  obtain ⟨⟨obj, t⟩, ht, heq⟩ := map_eq_some_iff.mp hopen
  obtain ⟨hfind, rfl⟩ := Prod.mk.inj heq
  obtain ⟨done, hinit, -⟩ := (start_allInitialised (sampleImage []) (sampleImage ["a.so"]) 0x700000000000
    0x400000).2 s hs
  refine ⟨s, t, hs, ht, (rtldDlOpen_keepsGlobals_iff hinit.closed hfind ht).1 ?_⟩
  intro name i sym _ _ _ file img hloads hfile
  obtain rfl := sampleLibraries_loads hloads
  obtain rfl := mem_unique sampleLibraries_c hfile
  exact ⟨none, rfl, fun _ h => nomatch h⟩

/-- The address of a name. -/
def resolvedAddr (s : Loader) (fuel : ℕ) (name : Name) : Option ℕ :=
  (s.rtldResolveSymbol fuel name).join.map fun (i, sym) => s.symbolAddr i sym

/-- The second library takes the place of the first. -/
theorem interposed_address :
    (sampleLinked.map fun s => (s.resolvedAddr 4 [98],
      (s.rtldResolveSymbol 4 [98]).join.map fun r => decide (r.2.stBind = stbGlobal),
      (s.rtldDlOpen sampleLibraries 8 (some (nameBytes "b.so"))).map fun r => r.2.resolvedAddr 4 [98])) =
    some (some 0x780000001008, some true, some (some 0x780000201008)) := by
  decide +kernel

end Open

end Loader

end NovaOS.Ldso
