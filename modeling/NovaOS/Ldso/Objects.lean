import NovaOS.Ldso.Lookup

/-!
# Shared objects

Reference: `lib/ldso/rtld.c`, `lib/ldso/rtld.h`.

The dynamic loader: `rtldLoadObject`, `rtldDlOpen`, `rtldDlClose`, `rtldCallInit`, `rtldCallFini` and the
part of `ldMain` that loads the main program. A record of an object is named by its number in the order of
creation, the loader itself being number 0; records are never given back. What the file system holds is
given by `files`: a name that cannot be opened, read or mapped has no image. Every `rtldAlloc` succeeds.
Relocation does not touch what is modelled here, except that the arrays of functions are read after it. A
recursion that runs out of steps is `none`.
-/

namespace NovaOS.Ldso

open NovaOS.Lib Function List

/-- The bytes of a name. -/
abbrev Name := List UInt8

/-- The bytes of a name that is written out. -/
def nameBytes (s : String) : Name := s.toList.map fun c => UInt8.ofNat c.toNat

/-- `sizeof(obj->name)`. -/
def sizeofName : ℕ := 128

/-- `RTLD_LIB_BASE`. -/
def rtldLibBase : ℕ := 0x0000780000000000

/-- What is read from a file. `init`, `fini` and `finiArrayAt` are relative to the load bias; the entries
of the arrays are as they are after relocation. -/
structure Image where
  minVaddr : ℕ
  totalSpan : ℕ
  needed : List Name
  init : Option ℕ
  initArray : List ℕ
  fini : Option ℕ
  finiArrayAt : Option ℕ
  finiArray : List ℕ
  symbols : SymbolTables := ⟨none, none, none, none⟩

/-- A record; addresses of functions and arrays are zero where there is none. -/
structure SharedObject where
  name : Name
  base : ℕ
  mapBase : ℕ
  totalSpan : ℕ
  init : ℕ
  initArray : List ℕ
  fini : ℕ
  finiArrayAt : ℕ
  finiArray : List ℕ
  symbols : SymbolTables
  deps : List ℕ
  initCalled : Bool
  finiCalled : Bool
  visiting : Bool
  isPinned : Bool
  refCount : ℕ

namespace SharedObject

/-- The functions that `rtldInitDfs` calls, in order. -/
def initialisers (o : SharedObject) : List ℕ :=
  (if o.init ≠ 0 then [o.init] else []) ++ o.initArray.filter (· ≠ 0)

/-- The finalisers: those of the array from the last to the first, and `fini`. -/
def finalisers (o : SharedObject) : List ℕ :=
  (if o.finiArrayAt ≠ 0 then o.finiArray.reverse.filter (· ≠ 0) else []) ++
    if o.fini ≠ 0 then [o.fini] else []

/-- The test of an address against the span of the object. -/
def inSpan (o : SharedObject) (addr : ℕ) : Bool :=
  o.base ≤ addr && addr < wrap64 (o.base + o.totalSpan)

/-- The functions that `rtldExecuteFini` calls, in order. -/
def finiCalls (o : SharedObject) : List ℕ :=
  (if o.finiArrayAt ≠ 0 ∧ 0 < o.finiArray.length ∧ o.finiArray.length < 4096 ∧
      o.inSpan o.finiArrayAt = true then
    o.finiArray.reverse.filter fun f => f ≠ 0 && o.inSpan f else []) ++
    if o.fini ≠ 0 ∧ o.inSpan o.fini = true then [o.fini] else []

/-- The array of finalisers and the functions are in the span of the object, and the array is short. The
end of the span is a sum of 64 bits. -/
structure FinisInSpan (o : SharedObject) : Prop where
  length_lt : o.finiArray.length < 4096
  array : o.finiArrayAt ≠ 0 → o.inSpan o.finiArrayAt = true
  entries : ∀ f ∈ o.finiArray, f ≠ 0 → o.inSpan f = true
  fini : o.fini ≠ 0 → o.inSpan o.fini = true

/-- Then all the finalisers are called. -/
theorem FinisInSpan.finiCalls_eq {o : SharedObject} (h : o.FinisInSpan) :
    o.finiCalls = o.finalisers := by
  have hentries : o.finiArray.reverse.filter (fun f => f ≠ 0 && o.inSpan f) =
      o.finiArray.reverse.filter (· ≠ 0) := by
    apply filter_congr
    intro f hf
    by_cases hzero : f = 0
    · simp [hzero]
    · simp [hzero, h.entries f (mem_reverse.mp hf) hzero]
  have hfini : (o.fini ≠ 0 ∧ o.inSpan o.fini = true) ↔ o.fini ≠ 0 := and_iff_left_of_imp h.fini
  rw [finiCalls, finalisers, hentries, if_congr hfini rfl rfl]
  congr 1
  by_cases hat : o.finiArrayAt ≠ 0
  · rcases Nat.eq_zero_or_pos o.finiArray.length with hlen | hlen
    · simp [length_eq_zero_iff.mp hlen]
    · rw [if_pos hat, if_pos ⟨hat, hlen, h.length_lt, h.array hat⟩]
  · rw [if_neg hat, if_neg fun h => hat h.1]

/-- A record as `rtldLoadObject` fills it in. -/
def ofImage (img : Image) (name : Name) (mapBase : ℕ) (pinned : Bool) : SharedObject :=
  let base := sub64 mapBase img.minVaddr
  { name := name.take (sizeofName - 1)
    base := base
    mapBase := mapBase
    totalSpan := img.totalSpan
    init := img.init.elim 0 fun a => wrap64 (base + a)
    initArray := img.initArray
    fini := img.fini.elim 0 fun a => wrap64 (base + a)
    finiArrayAt := img.finiArrayAt.elim 0 fun a => wrap64 (base + a)
    finiArray := img.finiArray
    symbols := img.symbols
    deps := []
    initCalled := false
    finiCalled := false
    visiting := false
    isPinned := pinned
    refCount := 0 }

end SharedObject

/-- The state of the loader. `mapped` are the objects whose image is mapped; addresses are handed out once,
so that images do not meet. `initRun` and `finiRun` are the initialisers and finalisers that were called,
each with its object, newest last; `handles` counts the handles that `dlopen` returned and that were not
closed. -/
@[ext]
structure Loader where
  objs : ℕ → SharedObject
  count : ℕ
  gObjects : List ℕ
  gMainObj : Option ℕ
  gNextLibAddr : ℕ
  gIsStartingUp : Bool
  gInitOrder : List (Option ℕ)
  mapped : List ℕ
  initRun : List (ℕ × ℕ)
  finiRun : List (ℕ × ℕ)
  handles : ℕ → ℕ

/-- The record of the loader. -/
def gLdsoObj : ℕ := 0

namespace Loader

/-- A change of one record. -/
def modify (s : Loader) (i : ℕ) (f : SharedObject → SharedObject) : Loader :=
  { s with objs := update s.objs i (f (s.objs i)) }

theorem modify_objs_self (s : Loader) (i : ℕ) (f : SharedObject → SharedObject) :
    (s.modify i f).objs i = f (s.objs i) :=
  update_self i _ _

theorem modify_objs_of_ne (s : Loader) (f : SharedObject → SharedObject) {i j : ℕ} (h : j ≠ i) :
    (s.modify i f).objs j = s.objs j :=
  update_of_ne h _ _

/-! ## Loading -/

/-- The object of the list with this name. -/
def findObject (s : Loader) (name : Name) : Option ℕ :=
  s.gObjects.find? fun i => (s.objs i).name == name

/-- `rtldAddDependency`. -/
def rtldAddDependency (s : Loader) (obj dep : ℕ) : Loader :=
  if obj = dep ∨ dep ∈ (s.objs obj).deps then s
  else s.modify obj fun o => { o with deps := o.deps ++ [dep] }

/-- A new record at the front of the list. -/
def newObject (s : Loader) (name : Name) (img : Image) : Loader :=
  { s with
    objs := update s.objs s.count (.ofImage img name s.gNextLibAddr s.gIsStartingUp)
    count := s.count + 1
    gObjects := s.count :: s.gObjects
    gNextLibAddr := wrap64 (s.gNextLibAddr + img.totalSpan + (0x200000 - 1)) / 0x200000 * 0x200000
    mapped := s.count :: s.mapped }

/-- What is done with the result of loading a dependency of `obj`. -/
def addLoaded (obj : ℕ) (r : Option ℕ × Loader) : Loader :=
  match r with
  | (some dep, s) => s.rtldAddDependency obj dep
  | (none, s) => s

/-- `rtldLoadObject`. -/
def rtldLoadObject (files : Name → Option Image) :
    (fuel : ℕ) → Name → Loader → Option (Option ℕ × Loader)
  | 0, _, _ => none
  | fuel + 1, name, s =>
    if s.gMainObj.any (fun i => (s.objs i).name == name) then some (s.gMainObj, s)
    else
      match s.findObject name with
      | some i => some (some i, s)
      | none =>
        match files name with
        | none => some (none, s)
        | some img =>
          -- the loop of `loadNeeded`
          (img.needed.foldlM (fun t dep =>
            (rtldLoadObject files fuel dep t).map (addLoaded s.count))
            (s.newObject name img)).map fun t => (some s.count, t)

/-- The loop of `rtldLoadObject` and `ldMain` over the names that an object needs. -/
def loadNeeded (files : Name → Option Image) (fuel obj : ℕ) (names : List Name) (s : Loader) :
    Option Loader :=
  names.foldlM (fun t dep => (t.rtldLoadObject files fuel dep).map (addLoaded obj)) s

/-! ## Initialisers and finalisers -/

/-- `rtldInitDfs`; the flag `visiting` is set while the dependencies are visited. -/
def rtldInitDfs : (fuel : ℕ) → Loader → ℕ → Option Loader
  | 0, _, _ => none
  | fuel + 1, s, i =>
    if (s.objs i).initCalled ∨ (s.objs i).visiting then some s
    else
      ((s.objs i).deps.foldlM (rtldInitDfs fuel)
        (s.modify i fun o => { o with visiting := true })).map fun t =>
          { t.modify i fun o => { o with visiting := false, initCalled := true } with
            initRun := t.initRun ++ (t.objs i).initialisers.map fun f => (i, f)
            gInitOrder := t.gInitOrder ++ [some i] }

/-- `rtldCallInit`. -/
def rtldCallInit (fuel : ℕ) (s : Loader) : Option Loader :=
  (s.gObjects ++ s.gMainObj.toList).foldlM (rtldInitDfs fuel) s

/-- `rtldExecuteFini`. -/
def rtldExecuteFini (s : Loader) (i : ℕ) : Loader :=
  if (s.objs i).finiCalled then s
  else
    { s.modify i fun o => { o with finiCalled := true } with
      finiRun := s.finiRun ++ (s.objs i).finiCalls.map fun f => (i, f) }

/-- `rtldCallFini`. -/
def rtldCallFini (s : Loader) : Loader :=
  s.gInitOrder.reverse.foldl (fun t entry => entry.elim t t.rtldExecuteFini) s

/-! ## Opening and closing -/

/-- The object is returned as a handle. -/
def takeHandle (s : Loader) (i : ℕ) : Loader :=
  { s.modify i fun o => { o with refCount := o.refCount + 1 } with
    handles := update s.handles i (s.handles i + 1) }

/-- `rtldDlOpen`; `fuel` is for the loading. The initialisers are given a depth of one more than there are
records. -/
def rtldDlOpen (files : Name → Option Image) (fuel : ℕ) (filename : Option Name) (s : Loader) :
    Option (Option ℕ × Loader) :=
  match filename with
  | none => some (s.gMainObj, s)
  | some name =>
    match s.findObject name with
    | some i => some (some i, s.takeHandle i)
    | none =>
      match s.rtldLoadObject files fuel name with
      | none => none
      | some (none, s) => some (none, s)
      | some (some i, s) =>
        ((s.takeHandle i).rtldCallInit (s.count + 1)).map fun s => (some i, s)

/-- An object that has no references is taken off the list of objects and the list of initialised ones,
and its image is unmapped. -/
def drop (s : Loader) (i : ℕ) : Loader :=
  { s with
    gObjects := s.gObjects.erase i
    gInitOrder := match s.gInitOrder.idxOf? (some i) with
      | some k => s.gInitOrder.set k none
      | none => s.gInitOrder
    mapped := if (s.objs i).mapBase ≠ 0 ∧ (s.objs i).totalSpan ≠ 0 then s.mapped.erase i
      else s.mapped }

/-- `rtldDlClose`. -/
def rtldDlClose : (fuel : ℕ) → Loader → ℕ → Option Loader
  | 0, _, _ => none
  | fuel + 1, s, i =>
    if s.gMainObj = some i ∨ i = gLdsoObj ∨ (s.objs i).isPinned then some s
    else if (s.objs i).refCount > 1 then
      some (s.modify i fun o => { o with refCount := o.refCount - 1 })
    else
      ((s.objs i).deps.foldlM (rtldDlClose fuel)
        ((s.modify i fun o => { o with refCount := 0 }).rtldExecuteFini i)).map (·.drop i)

/-- `dlclose` of a handle; a null handle does nothing. -/
def dlclose (fuel : ℕ) (handle : Option ℕ) (s : Loader) : Option Loader :=
  match handle with
  | none => some s
  | some i =>
    (s.rtldDlClose fuel i).map fun s =>
      { s with handles := update s.handles i (s.handles i - 1) }

/-! ## The start -/

/-- A record of `ldMain`, whose image the kernel has mapped at `base`. -/
def bootObject (img : Image) (name : Name) (base : ℕ) : SharedObject :=
  { SharedObject.ofImage { img with minVaddr := 0 } name base true with mapBase := 0, totalSpan := 0 }

/-- The loader before it has loaded anything: its own record, and that of the main program, which is not on
the list. -/
def boot (ldso main : Image) (ldBase mainBase : ℕ) : Loader where
  objs := fun i =>
    if i = gLdsoObj then bootObject ldso (nameBytes "ld-crow.so") ldBase
    else bootObject main (nameBytes "<main>") mainBase
  count := 2
  gObjects := [gLdsoObj]
  gMainObj := some 1
  gNextLibAddr := rtldLibBase
  gIsStartingUp := true
  gInitOrder := []
  mapped := [gLdsoObj]
  initRun := []
  finiRun := []
  handles := fun _ => 0

/-- The end of `ldMain`: the objects that the main program needs are loaded and initialised. -/
def start (files : Name → Option Image) (fuel : ℕ) (main : Image) (s : Loader) : Option Loader :=
  (s.loadNeeded files fuel 1 main.needed).bind fun s =>
    (s.rtldCallInit (s.count + 1)).map fun s => { s with gIsStartingUp := false }

end Loader

end NovaOS.Ldso
