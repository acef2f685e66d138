import NovaOS.Drivers.Handles

/-!
# The driver registry and the handles that point into it

Reference: `kernel/drivers/driver.c`, `kernel/modules/module.c` (`module_unload`).

Here a `DriverEntry` has an address and can be freed: `driverUnregister` unlinks the first entry with the
name and frees it, and it has no view of the handle tables. `driverOpen` finds its entry under the lock of
the registry and fills a slot later, under the lock of the process's table; the calls in between are
`pending`, so other calls can come between the two parts.

`handles_registered_iff` says when the pointers of all active handles stay good: exactly when no entry is
unregistered that an active handle points to, and no slot is filled with an entry that is gone.
-/

namespace NovaOS.Drivers

open NovaOS.Lib List Option Function

/-- A `DriverHandle`; `driver` is the address of an entry, or null. -/
structure HandleSlot where
  driver : Option ℕ
  sessionPriv : ℕ
  active : Bool
deriving DecidableEq

/-- A slot that has not been used. -/
def HandleSlot.empty : HandleSlot := ⟨none, 0, false⟩

/-- A `driverOpen` of a process that has found its entry. -/
structure PendingOpen where
  proc : ℕ
  driver : ℕ
deriving DecidableEq

/-- The registered entries with their addresses, the handle tables of the processes, and the calls of
`driverOpen` between their two critical sections. -/
structure Registry where
  gDriverList : List (ℕ × DriverEntry)
  handleTable : ℕ → List HandleSlot
  pending : List PendingOpen

namespace Registry

/-- `driverInit`, and processes without handles. -/
def create : Registry := ⟨[], fun _ => [], []⟩

/-- The addresses of the entries that have not been freed. -/
def addresses (s : Registry) : List ℕ := s.gDriverList.map Prod.fst

/-- `driverRegister`; `block` is what `kzalloc` returns, a block that is not in use. -/
def driverRegister (entry : DriverEntry) (block : Option ℕ) (s : Registry) : Option (ℤ × Registry) :=
  if !entry.hasIoctl then some (-1, s)
  else
    match block with
    | none => some (-1, s)
    | some addr =>
      if addr ∈ s.addresses then none
      else some (0, { s with
        gDriverList := (addr, { entry with name := entry.name.take 63 }) :: s.gDriverList })

/-- The loop of `driverUnregister`: the list without the first entry of this name. -/
def unlinkName (name : CString) (l : List (ℕ × DriverEntry)) : List (ℕ × DriverEntry) :=
  l.eraseP fun p => p.2.name == name

/-- `driverUnregister`. -/
def driverUnregister (name : Option CString) (s : Registry) : Registry :=
  match name with
  | none => s
  | some name => { s with gDriverList := unlinkName name s.gDriverList }

/-- What `module_unload` does to this state: `exit` of the module unregisters drivers by name. -/
def moduleUnload (exit : List CString) (s : Registry) : Registry :=
  exit.foldl (fun s name => s.driverUnregister (some name)) s

/-- The first part of `driverOpen`, under the lock of the registry. -/
def driverOpenFind (proc : ℕ) (name : Option CString) (s : Registry) : ℤ × Registry :=
  match name with
  | none => (-1, s)
  | some name =>
    match s.gDriverList.find? fun p => matchDriverName p.2.name name with
    | none => (-2, s)
    | some p => (0, { s with pending := s.pending ++ [⟨proc, p.1⟩] })

/-- What `driver->ops` reads: `freed` if the entry is gone. -/
def opsAt (s : Registry) (driver : ℕ) (freed : DriverEntry) : DriverEntry :=
  ((s.gDriverList.find? fun p => p.1 == driver).map Prod.snd).getD freed

/-- The lowest slot of the process that is not active, the capacity if there is none. -/
def freeSlot (s : Registry) (proc : ℕ) : ℕ := (s.handleTable proc).findIdx (!·.active)

/-- The handle table of `proc` is now `t`. -/
def setTable (proc : ℕ) (t : List HandleSlot) (s : Registry) : Registry :=
  { s with handleTable := update s.handleTable proc t }

/-- The end of `driverOpen`; a slot outside the table is a fault. -/
def fillSlot (proc driver sessionPriv : ℕ) (targetSlot : ℤ) (t : List HandleSlot) (s : Registry) :
    Option (ℤ × Registry) :=
  if 0 ≤ targetSlot ∧ targetSlot.toNat < t.length then
    some (targetSlot, s.setTable proc (t.set targetSlot.toNat ⟨some driver, sessionPriv, true⟩))
  else none

/-- The part of `driverOpen` under the lock of the table; `grown` tells whether `krealloc` succeeds. -/
def takeSlot (proc driver sessionPriv : ℕ) (grown : Bool) (s : Registry) : Option (ℤ × Registry) :=
  let t := s.handleTable proc
  let targetSlot := if s.freeSlot proc < t.length then toInt32 (s.freeSlot proc) else -1
  if targetSlot = -1 then
    let newCap := if t.length = 0 then 8 else wrap64 (t.length * 2)
    if !grown then some (-12, s)
    else s.fillSlot proc driver sessionPriv (toInt32 t.length)
      (t.take newCap ++ replicate (newCap - t.length) .empty)
  else s.fillSlot proc driver sessionPriv targetSlot t

/-- The second part of `driverOpen`, for the pending call at index `i`. The `open` callback returns `ret`
and sets the session to `priv`. -/
def driverOpenInstall (i : ℕ) (freed : DriverEntry) (ret : ℤ) (priv : ℕ) (grown : Bool)
    (s : Registry) : Option (ℤ × Registry) :=
  match s.pending[i]? with
  | none => none
  | some p =>
    let s := { s with pending := s.pending.eraseIdx i }
    let hasOpen := (s.opsAt p.driver freed).hasOpen
    if hasOpen ∧ ret ≠ 0 then some (ret, s)
    else s.takeSlot p.proc p.driver (if hasOpen then priv else 0) grown

/-- The slot of this number if it is active. -/
def activeSlot (s : Registry) (proc : ℕ) (handle : ℤ) : Option HandleSlot :=
  if handle < 0 then none else ((s.handleTable proc)[handle.toNat]?).filter (·.active)

/-- `driverIoctl`: the session that `ioctl` is called with, or the error code. -/
def driverIoctl (proc : ℕ) (handle : ℤ) (freed : DriverEntry) (s : Registry) : ℤ ⊕ ℕ :=
  match s.activeSlot proc handle with
  | none => .inl (-9)
  | some h =>
    match h.driver with
    | none => .inl (-38)
    | some driver => if (s.opsAt driver freed).hasIoctl then .inr h.sessionPriv else .inl (-38)

/-- `driverClose`. -/
def driverClose (proc : ℕ) (handle : ℤ) (s : Registry) : ℤ × Registry :=
  match s.activeSlot proc handle with
  | none => (-9, s)
  | some _ => (0, s.setTable proc ((s.handleTable proc).set handle.toNat .empty))

/-- `driverCleanupProcess`. -/
def driverCleanupProcess (proc : ℕ) (s : Registry) : Registry := s.setTable proc []

/-- The calls that meet in the registry and in the handle tables. -/
inductive Call where
  | register (entry : DriverEntry) (block : Option ℕ)
  | unregister (name : Option CString)
  | unload (exit : List CString)
  | find (proc : ℕ) (name : Option CString)
  | install (i : ℕ) (freed : DriverEntry) (ret : ℤ) (priv : ℕ) (grown : Bool)
  | ioctl (proc : ℕ) (handle : ℤ) (freed : DriverEntry)
  | close (proc : ℕ) (handle : ℤ)
  | cleanup (proc : ℕ)

/-- The state after a call. -/
def step (s : Registry) : Call → Option Registry
  | .register entry block => (s.driverRegister entry block).map Prod.snd
  | .unregister name => some (s.driverUnregister name)
  | .unload exit => some (s.moduleUnload exit)
  | .find proc name => some (s.driverOpenFind proc name).2
  | .install i freed ret priv grown => (s.driverOpenInstall i freed ret priv grown).map Prod.snd
  | .ioctl _ _ _ => some s
  | .close proc handle => some (s.driverClose proc handle).2
  | .cleanup proc => some (s.driverCleanupProcess proc)

/-- The driver pointer of every active handle is the address of a registered entry. -/
def Sound (s : Registry) : Prop :=
  ∀ proc, ∀ h ∈ s.handleTable proc, h.active = true → ∃ addr ∈ s.addresses, h.driver = some addr

/-- `addr` is in the table of some process. -/
def Pointed (s : Registry) (addr : ℕ) : Prop :=
  ∃ proc, ∃ h ∈ s.handleTable proc, h.active = true ∧ h.driver = some addr

/-! ## When a call keeps the pointers good -/

/-- The address of the entry that `driverUnregister` frees. -/
def victim (name : CString) (l : List (ℕ × DriverEntry)) : Option ℕ :=
  (l.find? fun p => p.2.name == name).map Prod.fst

/-- The addresses of the entries that unregistering these names frees. -/
def victims : List CString → List (ℕ × DriverEntry) → List ℕ
  | [], _ => []
  | name :: exit, l => (victim name l).toList ++ victims exit (unlinkName name l)

/-- The pending call gets a slot: `open` does not refuse it, and the table has room or can grow. A slot
whose number is `-1` as an `int` is taken for none. -/
def Installs (p : PendingOpen) (freed : DriverEntry) (ret : ℤ) (grown : Bool) (s : Registry) : Prop :=
  ¬((s.opsAt p.driver freed).hasOpen ∧ ret ≠ 0) ∧
    (grown = true ∨
      s.freeSlot p.proc < (s.handleTable p.proc).length ∧ toInt32 (s.freeSlot p.proc) ≠ -1)

/-- The condition on a call: an entry that it frees is pointed to by no active handle, and an entry that it
stores in a slot is registered. -/
def Keeps (s : Registry) : Call → Prop
  | .unregister name => ∀ addr ∈ victims name.toList s.gDriverList, ¬s.Pointed addr
  | .unload exit => ∀ addr ∈ victims exit s.gDriverList, ¬s.Pointed addr
  | .install i freed ret _ grown => ∀ p, s.pending[i]? = some p →
      s.Installs p freed ret grown → p.driver ∈ s.addresses
  | _ => True

variable {s s' : Registry}

variable {l : List (ℕ × DriverEntry)}

/-- Unlinking by name removes the address of the victim and no other. -/
theorem mem_unlinkName (name : CString) (hd : (l.map Prod.fst).Nodup) (addr : ℕ) :
    addr ∈ (unlinkName name l).map Prod.fst ↔
      addr ∈ l.map Prod.fst ∧ addr ∉ (victim name l).toList := by
  induction l with
  | nil => simp [unlinkName]
  | cons p l ih =>
    rw [map_cons, nodup_cons] at hd
    by_cases hp : p.2.name = name
    · have hne : addr ∈ l.map Prod.fst → addr ≠ p.1 := fun h e => hd.1 (e ▸ h)
      simp only [unlinkName, victim, eraseP_cons, find?_cons, hp, beq_self_eq_true,
        map_cons, mem_cons, map_some, toList_some, not_mem_nil,
        or_false]
      constructor
      · exact fun h => ⟨.inr h, hne h⟩
      · exact fun h => h.1.resolve_left h.2
    · have hb : (p.2.name == name) = false := beq_false_of_ne hp
      have hv : victim name (p :: l) = victim name l := by
        simp only [victim, find?_cons, hb]
      have hu : unlinkName name (p :: l) = p :: unlinkName name l := by
        simp only [unlinkName, eraseP_cons, hb, cond_false]
      rw [hv, hu, map_cons, map_cons, mem_cons, mem_cons, ih hd.2]
      constructor
      · rintro (rfl | h)
        · refine ⟨.inl rfl, fun hm => hd.1 ?_⟩
          obtain ⟨q, hq, hqa⟩ := map_eq_some_iff.mp (mem_toList.mp hm)
          exact hqa ▸ mem_map_of_mem (mem_of_find?_eq_some hq)
        · exact ⟨.inr h.1, h.2⟩
      · rintro ⟨rfl | h, hm⟩
        · exact .inl rfl
        · exact .inr ⟨h, hm⟩

/-- The addresses that are left are distinct. -/
theorem nodup_unlinkName (name : CString) (hd : (l.map Prod.fst).Nodup) :
    ((unlinkName name l).map Prod.fst).Nodup :=
  hd.sublist ((eraseP_sublist).map _)

/-- Unlinking several names leaves the tables, and removes the victims. -/
theorem moduleUnload_eq (exit : List CString) (s : Registry) :
    s.moduleUnload exit =
      { s with gDriverList := exit.foldl (fun l name => unlinkName name l) s.gDriverList } := by
  induction exit generalizing s with
  | nil => rfl
  | cons name exit ih => exact ih _

/-- What is left after unlinking several names. -/
theorem mem_unlinkNames (exit : List CString) (hd : (l.map Prod.fst).Nodup) (addr : ℕ) :
    addr ∈ (exit.foldl (fun l name => unlinkName name l) l).map Prod.fst ↔
      addr ∈ l.map Prod.fst ∧ addr ∉ victims exit l := by
  induction exit generalizing l with
  | nil => simp [victims]
  | cons name exit ih =>
    rw [foldl_cons, ih (nodup_unlinkName name hd), mem_unlinkName name hd, victims,
      mem_append, not_or, and_assoc]

/-- The addresses stay distinct. -/
theorem nodup_unlinkNames (exit : List CString) (hd : (l.map Prod.fst).Nodup) :
    ((exit.foldl (fun l name => unlinkName name l) l).map Prod.fst).Nodup := by
  induction exit generalizing l with
  | nil => exact hd
  | cons name exit ih => exact ih (nodup_unlinkName name hd)

/-- Unregistering keeps the pointers good exactly if no victim is pointed to. -/
theorem moduleUnload_sound_iff (exit : List CString) (hd : s.addresses.Nodup) (hs : s.Sound) :
    (s.moduleUnload exit).Sound ↔ ∀ addr ∈ victims exit s.gDriverList, ¬s.Pointed addr := by
  rw [moduleUnload_eq]
  constructor
  · rintro h addr hv ⟨proc, slot, hm, ha, hp⟩
    obtain ⟨a, hmem, he⟩ := h proc slot hm ha
    obtain rfl : addr = a := mem_unique hp he
    exact ((mem_unlinkNames exit hd addr).mp hmem).2 hv
  · intro h proc slot hm ha
    obtain ⟨addr, hmem, he⟩ := hs proc slot hm ha
    refine ⟨addr, (mem_unlinkNames exit hd addr).mpr ⟨hmem, fun hv => ?_⟩, he⟩
    exact h addr hv ⟨proc, slot, hm, ha, he⟩

/-- A single `driverUnregister` is the case of one name, or of none. -/
theorem driverUnregister_eq (name : Option CString) (s : Registry) :
    s.driverUnregister name = s.moduleUnload name.toList := by
  cases name <;> rfl

/-! ## Tables -/

/-- The table that is set. -/
theorem setTable_self (proc : ℕ) (t : List HandleSlot) (s : Registry) :
    (s.setTable proc t).handleTable proc = t := update_self ..

variable {proc driver priv : ℕ}

variable {t : List HandleSlot}

/-- Slots that were there, slots that are not active, and slots that point to registered entries. -/
theorem Sound.setTable (hs : s.Sound)
    (ht : ∀ h ∈ t, h.active = true → h ∈ s.handleTable proc ∨ ∃ addr ∈ s.addresses, h.driver = some addr) :
    (s.setTable proc t).Sound := by
  intro q h hm ha
  by_cases hq : q = proc
  · subst hq
    rw [setTable_self] at hm
    rcases ht h hm ha with h' | h'
    · exact hs q h h' ha
    · exact h'
  · have hother : (s.setTable proc t).handleTable q = s.handleTable q := update_of_ne hq ..
    exact hs q h (hother ▸ hm) ha

variable {r : ℤ}

variable {k ret : ℤ}

/-- Filling a slot keeps the pointers good exactly if the entry is registered. -/
theorem fillSlot_sound_iff (hs : s.Sound) (ht : ∀ h ∈ t, h.active = true → h ∈ s.handleTable proc)
    (h : s.fillSlot proc driver priv k t = some (r, s')) : s'.Sound ↔ driver ∈ s.addresses := by
  rw [fillSlot] at h
  split at h
  case isFalse => cases h
  case isTrue hk =>
    obtain rfl : s.setTable proc (t.set k.toNat ⟨some driver, priv, true⟩) = s' :=
      (Prod.mk.inj (some.inj h)).2
    constructor
    · intro h'
      have hm : (⟨some driver, priv, true⟩ : HandleSlot) ∈
          (s.setTable proc (t.set k.toNat ⟨some driver, priv, true⟩)).handleTable proc := by
        rw [setTable_self]
        exact mem_set hk.2 _
      obtain ⟨addr, hmem, he⟩ := h' proc _ hm rfl
      exact some.inj he ▸ hmem
    · intro hmem
      refine hs.setTable fun slot hm ha => ?_
      rcases mem_or_eq_of_mem_set hm with hm | rfl
      · exact .inl (ht slot hm ha)
      · exact .inr ⟨driver, hmem, rfl⟩

/-- The grown table has no other active slots. -/
theorem mem_grown {n k : ℕ} {slot : HandleSlot} (hm : slot ∈ t.take n ++ replicate k .empty)
    (ha : slot.active = true) : slot ∈ t := by
  rcases mem_append.mp hm with h | h
  · exact mem_of_mem_take h
  · rw [(mem_replicate.mp h).2] at ha
    cases ha

variable {grown : Bool}

/-- The second half of `driverOpen` keeps the pointers good exactly if it stores no freed entry. -/
theorem takeSlot_sound_iff (hs : s.Sound) (h : s.takeSlot proc driver priv grown = some (r, s')) :
    s'.Sound ↔ ((grown = true ∨
      s.freeSlot proc < (s.handleTable proc).length ∧ toInt32 (s.freeSlot proc) ≠ -1) →
        driver ∈ s.addresses) := by
  rw [takeSlot] at h
  by_cases hroom : s.freeSlot proc < (s.handleTable proc).length ∧ toInt32 (s.freeSlot proc) ≠ -1
  · simp only [hroom.1, if_true, if_neg hroom.2] at h
    rw [fillSlot_sound_iff hs (fun _ hm _ => hm) h]
    exact ⟨fun hm _ => hm, fun hm => hm (.inr hroom)⟩
  · have ht : (if s.freeSlot proc < (s.handleTable proc).length then toInt32 (s.freeSlot proc)
        else -1) = -1 := by
      split
      case isTrue hl => exact not_not.mp fun hn => hroom ⟨hl, hn⟩
      case isFalse => rfl
    simp only [ht] at h
    cases grown with
    | false =>
      obtain rfl : s = s' := (Prod.mk.inj (some.inj h)).2
      exact ⟨fun _ hr => absurd (hr.resolve_left (by decide)) hroom, fun _ => hs⟩
    | true =>
      rw [fillSlot_sound_iff hs (fun _ hm ha => mem_grown hm ha) h]
      exact ⟨fun hm _ => hm, fun hm => hm (.inl rfl)⟩

variable {i : ℕ} {freed entry : DriverEntry}

/-- Between its two parts a call of `driverOpen` owns nothing in the tables. -/
theorem driverOpenInstall_sound_iff (hs : s.Sound)
    (h : s.driverOpenInstall i freed ret priv grown = some (r, s')) :
    s'.Sound ↔ s.Keeps (.install i freed ret priv grown) := by
  cases hp : s.pending[i]? with
  | none => simp [driverOpenInstall, hp] at h
  | some p =>
    simp only [driverOpenInstall, hp] at h
    simp only [Keeps, hp, some.injEq, forall_eq']
    obtain ⟨t, ht⟩ : ∃ t : Registry, t = { s with pending := s.pending.eraseIdx i } := ⟨_, rfl⟩
    have hts : t.Sound := by rw [ht]; exact hs
    have hopen : t.opsAt p.driver freed = s.opsAt p.driver freed := by rw [ht]; rfl
    rw [← ht] at h
    by_cases hret : (s.opsAt p.driver freed).hasOpen ∧ ret ≠ 0
    · rw [hopen, if_pos hret] at h
      obtain rfl : t = s' := (Prod.mk.inj (some.inj h)).2
      exact ⟨fun _ hi => absurd hret hi.1, fun _ => hts⟩
    · rw [hopen, if_neg hret] at h
      rw [takeSlot_sound_iff hts h, ht]
      exact ⟨fun hk hi => hk hi.2, fun hk hr => hk ⟨hret, hr⟩⟩

/-! ## Calls and runs -/

variable {block : Option ℕ}

/-- A new entry has a new address and is put before the others. -/
theorem driverRegister_cases (h : s.driverRegister entry block = some (r, s')) :
    s' = s ∨ ∃ addr e, addr ∉ s.addresses ∧ s' = { s with gDriverList := (addr, e) :: s.gDriverList } := by
  cases block with
  | none =>
    have hr : s.driverRegister entry none = some (-1, s) := by
      simp only [Registry.driverRegister, ite_self]
    exact .inl (Prod.mk.inj (mem_unique hr h)).2.symm
  | some addr =>
    simp only [Registry.driverRegister] at h
    split at h
    · exact .inl (Prod.mk.inj (some.inj h)).2.symm
    · split at h
      · cases h
      · next hn => exact .inr ⟨addr, _, hn, (Prod.mk.inj (some.inj h)).2.symm⟩

/-- `driverRegister` only adds to the registry. -/
theorem Sound.driverRegister (hs : s.Sound) (h : s.driverRegister entry block = some (r, s')) :
    s'.Sound := by
  rcases driverRegister_cases h with rfl | ⟨addr, e, _, rfl⟩
  · exact hs
  · intro proc slot hm ha
    obtain ⟨a, hmem, he⟩ := hs proc slot hm ha
    exact ⟨a, mem_cons_of_mem _ hmem, he⟩

/-- The first part of `driverOpen` changes neither the registry nor the tables. -/
theorem driverOpenFind_eq (proc : ℕ) (name : Option CString) (s : Registry) :
    ∃ ps, (s.driverOpenFind proc name).2 = { s with pending := ps } := by
  cases name with
  | none => exact ⟨s.pending, rfl⟩
  | some name =>
    simp only [driverOpenFind]
    split
    · exact ⟨s.pending, rfl⟩
    · exact ⟨_, rfl⟩

/-- `driverClose` only clears a slot. -/
theorem driverClose_eq (proc : ℕ) (handle : ℤ) (s : Registry) :
    (s.driverClose proc handle).2 = s ∨ (s.driverClose proc handle).2 =
      s.setTable proc ((s.handleTable proc).set handle.toNat .empty) := by
  rw [driverClose]
  split
  · exact .inl rfl
  · exact .inr rfl

/-- `driverClose` leaves good pointers. -/
theorem Sound.driverClose (hs : s.Sound) (proc : ℕ) (handle : ℤ) :
    (s.driverClose proc handle).2.Sound := by
  rcases driverClose_eq proc handle s with h | h
  · rw [h]
    exact hs
  · rw [h]
    refine hs.setTable fun slot hm ha => ?_
    rcases mem_or_eq_of_mem_set hm with hm | rfl
    · exact .inl hm
    · cases ha

variable {c : Call}

/-- One call from a good state. -/
theorem step_sound_iff (hd : s.addresses.Nodup) (hs : s.Sound) (h : s.step c = some s') :
    s'.Sound ↔ s.Keeps c := by
  cases c with
  | register entry block =>
    obtain ⟨⟨r, t⟩, ht, rfl⟩ := map_eq_some_iff.mp h
    exact iff_of_true (hs.driverRegister ht) trivial
  | unregister name =>
    obtain rfl := some.inj h
    rw [driverUnregister_eq]
    exact moduleUnload_sound_iff _ hd hs
  | unload exit =>
    obtain rfl := some.inj h
    exact moduleUnload_sound_iff _ hd hs
  | find proc name =>
    obtain rfl := some.inj h
    obtain ⟨ps, hps⟩ := driverOpenFind_eq proc name s
    rw [hps]
    exact iff_of_true hs trivial
  | install i freed ret priv grown =>
    obtain ⟨⟨r, t⟩, ht, rfl⟩ := map_eq_some_iff.mp h
    exact driverOpenInstall_sound_iff hs ht
  | ioctl proc handle freed =>
    obtain rfl := some.inj h
    exact iff_of_true hs trivial
  | close proc handle =>
    obtain rfl := some.inj h
    exact iff_of_true (hs.driverClose proc handle) trivial
  | cleanup proc =>
    obtain rfl := some.inj h
    exact iff_of_true (hs.setTable fun _ hm => nomatch hm) trivial

/-- Filling a slot does not change the registry. -/
theorem fillSlot_list (h : s.fillSlot proc driver priv k t = some (r, s')) :
    s'.gDriverList = s.gDriverList := by
  rw [fillSlot] at h
  split at h
  · exact (Prod.mk.inj (some.inj h)).2 ▸ rfl
  · cases h

/-- Neither does taking one. -/
theorem takeSlot_list (h : s.takeSlot proc driver priv grown = some (r, s')) :
    s'.gDriverList = s.gDriverList := by
  simp only [takeSlot] at h
  split_ifs at h
  all_goals first | exact fillSlot_list h | exact (Prod.mk.inj (some.inj h)).2 ▸ rfl

/-- `driverOpen` does not change the registry. -/
theorem driverOpenInstall_list (h : s.driverOpenInstall i freed ret priv grown = some (r, s')) :
    s'.gDriverList = s.gDriverList := by
  simp only [driverOpenInstall] at h
  split at h
  · cases h
  · split at h
    · exact (Prod.mk.inj (some.inj h)).2 ▸ rfl
    · exact (takeSlot_list h).trans rfl

/-- Addresses stay distinct. -/
theorem nodup_step (hd : s.addresses.Nodup) (h : s.step c = some s') : s'.addresses.Nodup := by
  cases c with
  | register entry block =>
    obtain ⟨⟨r, t⟩, ht, rfl⟩ := map_eq_some_iff.mp h
    rcases driverRegister_cases ht with rfl | ⟨addr, e, hn, rfl⟩
    · exact hd
    · exact nodup_cons.mpr ⟨hn, hd⟩
  | unregister name =>
    obtain rfl := some.inj h
    rw [driverUnregister_eq, moduleUnload_eq]
    exact nodup_unlinkNames _ hd
  | unload exit =>
    obtain rfl := some.inj h
    rw [moduleUnload_eq]
    exact nodup_unlinkNames _ hd
  | find proc name =>
    obtain rfl := some.inj h
    obtain ⟨ps, hps⟩ := driverOpenFind_eq proc name s
    rw [hps]
    exact hd
  | install i freed ret priv grown =>
    obtain ⟨⟨r, t⟩, ht, rfl⟩ := map_eq_some_iff.mp h
    exact (driverOpenInstall_list ht ▸ hd : (t.gDriverList.map Prod.fst).Nodup)
  | ioctl proc handle freed => exact some.inj h ▸ hd
  | close proc handle =>
    obtain rfl := some.inj h
    rcases driverClose_eq proc handle s with he | he
    · rw [he]
      exact hd
    · rw [he]
      exact hd
  | cleanup proc => exact some.inj h ▸ hd

/-- The pointers are good in every state that the calls go through. -/
def SoundAlong : List Call → Registry → Prop
  | [], s => s.Sound
  | c :: cs, s => s.Sound ∧ ∀ s', s.step c = some s' → SoundAlong cs s'

/-- Every call meets its condition in the state in which it comes. -/
def KeepsAlong : List Call → Registry → Prop
  | [], _ => True
  | c :: cs, s => ∀ s', s.step c = some s' → s.Keeps c ∧ KeepsAlong cs s'

/-- A run from a good state. -/
theorem soundAlong_iff (cs : List Call) (hd : s.addresses.Nodup) (hs : s.Sound) :
    SoundAlong cs s ↔ KeepsAlong cs s := by
  induction cs generalizing s with
  | nil => exact iff_of_true hs trivial
  | cons c cs ih =>
    constructor
    · rintro ⟨_, h⟩ s' hstep
      have hs' : s'.Sound := by
        cases cs with
        | nil => exact h s' hstep
        | cons _ _ => exact (h s' hstep).1
      exact ⟨(step_sound_iff hd hs hstep).mp hs', (ih (nodup_step hd hstep) hs').mp (h s' hstep)⟩
    · intro h
      refine ⟨hs, fun s' hstep => ?_⟩
      obtain ⟨hk, hrest⟩ := h s' hstep
      exact (ih (nodup_step hd hstep) ((step_sound_iff hd hs hstep).mpr hk)).mpr hrest

/-- The active handles of all processes point to registered entries throughout a run of calls exactly if no
call frees an entry that an active handle points to or stores an entry that has been freed. -/
theorem handles_registered_iff (cs : List Call) : SoundAlong cs create ↔ KeepsAlong cs create :=
  soundAlong_iff cs nodup_nil fun _ _ hm => nomatch hm

/-- A driver called `g` with an `ioctl` callback only. -/
def sampleDriver : DriverEntry := ⟨[0x67], false, false, true⟩

/-- A process opens the driver, and then the driver is unregistered. -/
def sampleUnregister : List Call :=
  [.register sampleDriver (some 0x1000), .find 1 (some [0x67]), .install 0 sampleDriver 0 0 true,
    .unregister (some [0x67])]

/-- The handle is still active and points to the entry that has been freed. -/
theorem unregister_leaves_handle :
    ((sampleUnregister.foldlM step create).map fun s => (s.gDriverList, (s.handleTable 1)[0]?)) =
        some ([], some ⟨some 0x1000, 0, true⟩) ∧
      ¬SoundAlong sampleUnregister create := by
  refine ⟨by decide +kernel, fun h => ?_⟩
  have hs : Sound _ := (((h.2 _ rfl).2 _ rfl).2 _ rfl).2 _ rfl
  obtain ⟨addr, hmem, _⟩ := hs 1 ⟨some 0x1000, 0, true⟩ (.head _) rfl
  cases hmem

end Registry

end NovaOS.Drivers
