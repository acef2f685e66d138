import NovaOS.Lib.Word
import Mathlib.Algebra.Group.Int.Defs
import Mathlib.Data.List.Basic

/-!
# Driver handles

Reference: `kernel/drivers/driver.c`.

The handles of a process: `driverOpen`, `driverIoctl`, `driverClose` and `driverCleanupProcess`. Entries of
drivers are not changed once they are registered, so a pointer to one is the entry itself. What the `open`
callback returns and whether `krealloc` succeeds are arguments of a call. The table has no null pointer of
its own: it is null when its capacity is zero.

Each `open` that is not refused begins a session. `driver_handles` says that handles are found, kept and
used as they should be through every sequence of calls, as long as the number of a handle fits an `int`,
and that the callbacks of a session balance if the driver has both.
-/

namespace NovaOS.Drivers

open NovaOS.Lib Function List Option

/-- The characters of a string. -/
abbrev CString := List UInt8

/-- A `DriverEntry`. A callback can be a null pointer. -/
structure DriverEntry where
  name : CString
  hasOpen : Bool
  hasClose : Bool
  hasIoctl : Bool
deriving DecidableEq

/-- The loop of `matchDriverName` over the query: what comes after the last slash or backslash. -/
def baseName (qBase : CString) : CString → CString
  | [] => qBase
  | c :: p => if c = 0x2F ∨ c = 0x5C then baseName p p else baseName qBase p

/-- `matchDriverName`. -/
def matchDriverName (registered query : CString) : Bool :=
  registered == query ||
    let qBase := baseName query query
    registered.isPrefixOf qBase &&
      (qBase.drop registered.length == [] ||
        qBase.drop registered.length == [0x2E, 0x65, 0x6C, 0x66])

/-- A `DriverHandle`; `session` is the number of the session that `sessionPriv` belongs to. -/
structure DriverHandle where
  driver : Option DriverEntry
  sessionPriv : ℕ
  active : Bool
  session : ℕ

/-- A slot that has not been used. -/
def DriverHandle.empty : DriverHandle := ⟨none, 0, false, 0⟩

/-- The registered drivers and the handle table of a process.

The rest is a record of what happened: the driver and the pointer of each session, the sessions that are
over, the calls of `open` that succeeded and of `close`, by session, and under which number a session was
last returned to the process. -/
structure DriverState where
  gDriverList : List DriverEntry
  handles : List DriverHandle
  count : ℕ
  sessions : List (DriverEntry × ℕ)
  ended : List ℕ
  openCalls : List ℕ
  closeCalls : List ℕ
  opened : ℕ → Option ℕ

/-- `(int)n`. -/
def toInt32 (n : ℕ) : ℤ := (BitVec.ofNat 32 n).toInt

namespace DriverState

/-- `driverInit`, and a process without handles. -/
def create : DriverState := ⟨[], [], 0, [], [], [], [], fun _ => none⟩

/-- `driverRegister`; `alloc` tells whether there is memory for the entry. -/
def driverRegister (entry : DriverEntry) (alloc : Bool) (s : DriverState) : ℤ × DriverState :=
  if !entry.hasIoctl then (-1, s)
  else if !alloc then (-1, s)
  else (0, { s with gDriverList := { entry with name := entry.name.take 63 } :: s.gDriverList })

/-- The `open` callback has succeeded, or there is none. -/
def beginSession (driver : DriverEntry) (sessionPriv : ℕ) (s : DriverState) : DriverState :=
  { s with
    sessions := s.sessions ++ [(driver, sessionPriv)]
    openCalls := s.openCalls ++ if driver.hasOpen then [s.sessions.length] else [] }

/-- The `close` callback is called if there is one. -/
def endSession (driver : Option DriverEntry) (session : ℕ) (s : DriverState) : DriverState :=
  { s with
    ended := s.ended ++ [session]
    closeCalls := s.closeCalls ++ if driver.any (·.hasClose) then [session] else [] }

/-- The end of `driverOpen`; a slot outside the table is a fault. -/
def fillSlot (driver : DriverEntry) (sessionPriv session : ℕ) (targetSlot : ℤ) (s : DriverState) :
    Option (ℤ × DriverState) :=
  if 0 ≤ targetSlot ∧ targetSlot.toNat < s.handles.length then
    some (targetSlot, { s with
      handles := s.handles.set targetSlot.toNat ⟨some driver, sessionPriv, true, session⟩
      count := wrap64 (s.count + 1)
      opened := update s.opened targetSlot.toNat (some session) })
  else none

/-- The table with `newCap` slots. -/
def grow (newCap : ℕ) (s : DriverState) : DriverState :=
  { s with
    handles := s.handles.take newCap ++ replicate (newCap - s.handles.length) .empty }

/-- The lowest slot that is not active, the capacity if there is none. -/
def freeSlot (s : DriverState) : ℕ := s.handles.findIdx (!·.active)

/-- The part of `driverOpen` under the lock of the table. -/
def takeSlot (driver : DriverEntry) (sessionPriv session : ℕ) (grown : Bool) (s : DriverState) :
    Option (ℤ × DriverState) :=
  let targetSlot := if s.freeSlot < s.handles.length then toInt32 s.freeSlot else -1
  if targetSlot = -1 then
    let newCap := if s.handles.length = 0 then 8 else wrap64 (s.handles.length * 2)
    if !grown then some (-12, s.endSession (some driver) session)
    else (s.grow newCap).fillSlot driver sessionPriv session (toInt32 s.handles.length)
  else s.fillSlot driver sessionPriv session targetSlot

/-- `driverOpen`; `ret` and `priv` are what the `open` callback returns, and `grown` tells whether
`krealloc` succeeds. -/
def driverOpen (name : Option CString) (ret : ℤ) (priv : ℕ) (grown : Bool) (s : DriverState) :
    Option (ℤ × DriverState) :=
  match name with
  | none => some (-1, s)
  | some name =>
    match s.gDriverList.find? fun driver => matchDriverName driver.name name with
    | none => some (-2, s)
    | some driver =>
      if driver.hasOpen ∧ ret ≠ 0 then some (ret, s)
      else
        let sessionPriv := if driver.hasOpen then priv else 0
        (s.beginSession driver sessionPriv).takeSlot driver sessionPriv s.sessions.length grown

/-- What `driverIoctl` does: it fails, or it calls `ioctl` of a driver with a session. -/
inductive Ioctl where
  | error (code : ℤ)
  | call (driver : DriverEntry) (sessionPriv : ℕ)
deriving DecidableEq

/-- The handle of this number if it is active. -/
def activeHandle (s : DriverState) (handle : ℤ) : Option DriverHandle :=
  if handle < 0 then none else (s.handles[handle.toNat]?).filter (·.active)

/-- `driverIoctl`. -/
def driverIoctl (handle : ℤ) (s : DriverState) : Ioctl :=
  match s.activeHandle handle with
  | none => .error (-9)
  | some h =>
    match h.driver with
    | none => .error (-38)
    | some driver => if driver.hasIoctl then .call driver h.sessionPriv else .error (-38)

/-- `driverClose`. -/
def driverClose (handle : ℤ) (s : DriverState) : ℤ × DriverState :=
  match s.activeHandle handle with
  | none => (-9, s)
  | some h =>
    (0, ({ s with
      handles := s.handles.set handle.toNat ⟨none, 0, false, h.session⟩
      count := sub64 s.count 1
      opened := update s.opened handle.toNat none }).endSession h.driver h.session)

/-- The loop of `driverCleanupProcess`; the table is freed after it. -/
def closeActive (handles : List DriverHandle) (s : DriverState) : DriverState :=
  handles.foldl (fun s h => if h.active then s.endSession h.driver h.session else s) s

/-- `driverCleanupProcess`. -/
def driverCleanupProcess (s : DriverState) : DriverState :=
  if s.handles.length = 0 then s
  else { s.closeActive s.handles with handles := [], count := 0, opened := fun _ => none }

/-- The slot holds this session. -/
def holds (session : ℕ) (h : DriverHandle) : Bool := h.active && h.session == session

/-- The handle of the session is active. -/
def sessionActive (s : DriverState) (session : ℕ) : Bool := s.handles.any (holds session)

/-- What holds between calls, where `pending` is a session that has begun and that no slot holds yet. Every
other session that has begun is over or held by one slot. -/
structure Inv (s : DriverState) (pending : Option ℕ) : Prop where
  count_eq : s.count = s.handles.countP (·.active)
  count_le : s.count ≤ 2 ^ 31
  opened_eq : ∀ i, s.opened i = ((s.handles[i]?).filter (·.active)).map (·.session)
  handle_eq : ∀ h ∈ s.handles, h.active = true →
    ∃ driver, h.driver = some driver ∧ s.sessions[h.session]? = some (driver, h.sessionPriv)
  drivers_ioctl : ∀ driver ∈ s.gDriverList, driver.hasIoctl = true
  sessions_ioctl : ∀ p ∈ s.sessions, p.1.hasIoctl = true
  balance : ∀ i, s.ended.count i + s.handles.countP (holds i) + (if pending = some i then 1 else 0) =
    if i < s.sessions.length then 1 else 0
  openCalls_eq : ∀ i, s.openCalls.count i =
    if (s.sessions[i]?).any (·.1.hasOpen) then 1 else 0
  closeCalls_eq : ∀ i, s.closeCalls.count i =
    if (s.sessions[i]?).any (·.1.hasClose) then s.ended.count i else 0

variable {i : ℕ}

/-- One entry of a list is replaced. -/
theorem countP_set_add {α : Type} (p : α → Bool) {l : List α} {old : α} (new : α)
    (h : l[i]? = some old) :
    (l.set i new).countP p + (p old).toNat = l.countP p + (p new).toNat := by
  obtain ⟨hi, rfl⟩ := List.getElem?_eq_some_iff.mp h
  rw [countP_set hi]
  cases hp : p l[i] with
  | false => cases p new <;> simp
  | true =>
    have hpos : 0 < l.countP p := countP_pos_iff.mpr ⟨l[i], getElem_mem hi, hp⟩
    cases p new <;> simp <;> omega

section Inv

variable {s : DriverState} {pending : Option ℕ} {driver : DriverEntry} {priv session i : ℕ}

theorem sessions_concat_getElem? (s : DriverState) (p : DriverEntry × ℕ) (i : ℕ) :
    (s.sessions ++ [p])[i]? = if i = s.sessions.length then some p else s.sessions[i]? := by
  grind

/-- A session that is over or held has begun. -/
theorem Inv.counts_fresh (h : s.Inv none) (hi : s.sessions.length ≤ i) : s.ended.count i = 0 := by
  have hbalance := h.balance i
  rw [if_neg (Nat.not_lt.mpr hi)] at hbalance
  omega

theorem Inv.beginSession (h : s.Inv none) (hioctl : driver.hasIoctl = true) :
    (s.beginSession driver priv).Inv (some s.sessions.length) :=
  { h with
    handle_eq := fun x hx hactive => by
      obtain ⟨e, he, hses⟩ := h.handle_eq x hx hactive
      have hlt : x.session < s.sessions.length := (List.getElem?_eq_some_iff.mp hses).1
      refine ⟨e, he, ?_⟩
      rw [DriverState.beginSession, getElem?_append_left hlt]
      exact hses
    sessions_ioctl := fun p hp => by
      rcases mem_append.mp hp with hp | hp
      · exact h.sessions_ioctl p hp
      · rw [mem_singleton.mp hp]
        exact hioctl
    balance := fun i => by
      have hbalance := h.balance i
      change s.ended.count i + s.handles.countP (holds i) +
        (if some s.sessions.length = some i then 1 else 0) =
        if i < (s.sessions ++ [(driver, priv)]).length then 1 else 0
      grind
    openCalls_eq := fun i => by
      change (s.openCalls ++ if driver.hasOpen then [s.sessions.length] else []).count i =
        if ((s.sessions ++ [(driver, priv)])[i]?).any (·.1.hasOpen) then 1 else 0
      rw [count_append, sessions_concat_getElem?, h.openCalls_eq i]
      by_cases hi : i = s.sessions.length
      · subst hi
        cases hopen : driver.hasOpen <;> simp [hopen]
      · rw [if_neg hi]
        cases driver.hasOpen <;> simp [Ne.symm hi]
    closeCalls_eq := fun i => by
      change s.closeCalls.count i =
        if ((s.sessions ++ [(driver, priv)])[i]?).any (·.1.hasClose) then s.ended.count i else 0
      rw [sessions_concat_getElem?, h.closeCalls_eq i]
      by_cases hi : i = s.sessions.length
      · subst hi
        rw [h.counts_fresh (Nat.le_refl _)]
        simp
      · rw [if_neg hi] }

/-- The pending session is over. -/
theorem Inv.endSession (h : s.Inv (some session))
    (hsession : s.sessions[session]? = some (driver, priv)) :
    (s.endSession (some driver) session).Inv none :=
  { h with
    balance := fun i => by
      refine .trans ?_ (h.balance i)
      change (s.ended ++ [session]).count i + s.handles.countP (holds i) + 0 = _
      rw [count_append, count_singleton]
      by_cases hi : session = i
      · simp
        omega
      · simp [hi]
    closeCalls_eq := fun i => by
      change (s.closeCalls ++ if (some driver).any (·.hasClose) then [session] else []).count i =
        if (s.sessions[i]?).any (·.1.hasClose) then (s.ended ++ [session]).count i else 0
      rw [count_append, h.closeCalls_eq i]
      by_cases hi : session = i
      · subst hi
        rw [hsession]
        cases hclose : driver.hasClose <;> simp [hclose]
      · cases hclose : driver.hasClose <;> simp [hclose, hi] }

variable {slot newCap : ℕ} {old : DriverHandle}

/-- A slot takes another handle. Sessions only change between the slot and `pending`. -/
theorem Inv.setSlot (h : s.Inv pending) (hslot : s.handles[slot]? = some old) (new : DriverHandle)
    {count : ℕ} {pending' : Option ℕ}
    (hcount : count + old.active.toNat = s.count + new.active.toNat) (hle : count ≤ 2 ^ 31)
    (hnew : new.active = true → ∃ driver, new.driver = some driver ∧
      s.sessions[new.session]? = some (driver, new.sessionPriv))
    (hmoved : ∀ i, (if pending' = some i then 1 else 0) + (holds i new).toNat =
      (if pending = some i then 1 else 0) + (holds i old).toNat) :
    DriverState.Inv { s with
      handles := s.handles.set slot new
      count := count
      opened := update s.opened slot (if new.active then some new.session else none) } pending' :=
  { h with
    count_eq := by
      have hset := countP_set_add (·.active) new hslot
      have heq := h.count_eq
      change count = (s.handles.set slot new).countP (·.active)
      omega
    count_le := hle
    opened_eq := fun i => by
      have hlt : slot < s.handles.length := (List.getElem?_eq_some_iff.mp hslot).1
      change update s.opened slot _ i = ((s.handles.set slot new)[i]?.filter (·.active)).map (·.session)
      rw [getElem?_set]
      by_cases hi : slot = i
      · subst hi
        rw [update_self, if_pos rfl, if_pos hlt, filter_some]
        cases new.active <;> rfl
      · rw [update_of_ne (Ne.symm hi), if_neg hi]
        exact h.opened_eq i
    handle_eq := fun x hx hactive => by
      rcases mem_or_eq_of_mem_set hx with hx | rfl
      · exact h.handle_eq x hx hactive
      · exact hnew hactive
    balance := fun i => by
      refine .trans ?_ (h.balance i)
      have hset := countP_set_add (holds i) new hslot
      have hi := hmoved i
      change s.ended.count i + (s.handles.set slot new).countP (holds i) + _ = _
      omega }

/-- An inactive slot takes the pending session. -/
theorem Inv.setHandle (h : s.Inv (some session))
    (hsession : s.sessions[session]? = some (driver, priv)) (hslot : s.handles[slot]? = some old)
    (hold : old.active = false) (hcount : s.count < 2 ^ 31) :
    DriverState.Inv { s with
      handles := s.handles.set slot ⟨some driver, priv, true, session⟩
      count := wrap64 (s.count + 1)
      opened := update s.opened slot (some session) } none := by
  have hwrap : wrap64 (s.count + 1) = s.count + 1 := wrap64_of_lt (by omega)
  refine h.setSlot hslot ⟨some driver, priv, true, session⟩ (by simp [hwrap, hold]) (by omega)
    (fun _ => ⟨driver, rfl, hsession⟩) fun i => ?_
  by_cases hi : session = i <;> simp [holds, hold, hi]

/-- An active slot gives up its session. -/
theorem Inv.clearHandle (h : s.Inv none) (hslot : s.handles[slot]? = some old)
    (hold : old.active = true) :
    DriverState.Inv { s with
      handles := s.handles.set slot ⟨none, 0, false, old.session⟩
      count := sub64 s.count 1
      opened := update s.opened slot none } (some old.session) := by
  have hle := h.count_le
  have hpos : 0 < s.count := by
    rw [h.count_eq]
    exact countP_pos_iff.mpr ⟨old, mem_of_getElem? hslot, hold⟩
  have hsub : sub64 s.count 1 = s.count - 1 := sub64_of_le hpos (by omega)
  refine h.setSlot hslot ⟨none, 0, false, old.session⟩ ?_ (by omega) (fun hactive => nomatch hactive)
    fun i => ?_
  · rw [hsub, hold]
    exact Nat.sub_add_cancel hpos
  · by_cases hi : old.session = i
    · simp [holds, hold, hi]
    · simp [holds, hold, hi, beq_false_of_ne hi]

theorem grow_handles (hcap : s.handles.length ≤ newCap) :
    (s.grow newCap).handles =
      s.handles ++ replicate (newCap - s.handles.length) DriverHandle.empty := by
  rw [grow, take_of_length_le hcap]

theorem Inv.grow (h : s.Inv pending) (hcap : s.handles.length ≤ newCap) :
    (s.grow newCap).Inv pending :=
  { h with
    count_eq := by
      rw [grow_handles hcap, countP_append, countP_replicate]
      exact h.count_eq
    opened_eq := fun i => by
      rw [grow_handles hcap, getElem?_append]
      split
      · exact h.opened_eq i
      · rename_i hi
        have hnone : ((replicate (newCap - s.handles.length)
            DriverHandle.empty)[i - s.handles.length]?).filter (·.active) = none := by
          rw [getElem?_replicate]
          split <;> rfl
        rw [hnone]
        refine (h.opened_eq i).trans ?_
        rw [List.getElem?_eq_none (Nat.le_of_not_lt hi)]
        rfl
    handle_eq := fun x hx hactive => by
      rw [grow_handles hcap] at hx
      rcases mem_append.mp hx with hx | hx
      · exact h.handle_eq x hx hactive
      · rw [(mem_replicate.mp hx).2] at hactive
        exact absurd hactive (by simp [DriverHandle.empty])
    balance := fun i => by
      rw [grow_handles hcap, countP_append, countP_replicate]
      exact h.balance i }

/-- All slots below the free one are active. -/
theorem freeSlot_le (s : DriverState) : s.freeSlot ≤ s.handles.countP (·.active) := by
  have hall : (s.handles.take s.freeSlot).countP (·.active) = (s.handles.take s.freeSlot).length := by
    apply countP_eq_length.mpr
    intro x hx
    obtain ⟨i, hi, rfl⟩ := mem_iff_getElem.mp hx
    rw [length_take] at hi
    have hfree : i < s.handles.findIdx (!·.active) := Nat.lt_of_lt_of_le hi (Nat.min_le_left _ _)
    simpa using not_of_lt_findIdx hfree
  have hlen : (s.handles.take s.freeSlot).length = s.freeSlot := by
    rw [length_take]
    exact Nat.min_eq_left findIdx_le_length
  have hsub := (take_sublist s.freeSlot s.handles).countP_le (p := (·.active))
  omega

theorem toInt32_of_lt {n : ℕ} (h : n < 2 ^ 31) : toInt32 n = n := by
  rw [toInt32, BitVec.toInt_eq_toNat_cond, BitVec.toNat_ofNat]
  split <;> omega

/-- `driverOpen` has returned the lowest free slot with a new session in it, and all other slots are
kept. -/
structure Opened (s s' : DriverState) (session : ℕ) (r : ℤ) : Prop where
  result_eq : r = s.freeSlot
  opened_eq : s'.opened = update s.opened s.freeSlot (some session)
  kept : ∀ i h, i ≠ s.freeSlot → s.handles[i]? = some h → s'.handles[i]? = some h

/-- `driverOpen` has left the table. -/
def Refused (s s' : DriverState) : Prop := s'.handles = s.handles ∧ s'.opened = s.opened

theorem fillSlot_of_lt (hslot : slot < s.handles.length) :
    s.fillSlot driver priv session slot = some ((slot : ℤ), { s with
      handles := s.handles.set slot ⟨some driver, priv, true, session⟩
      count := wrap64 (s.count + 1)
      opened := update s.opened slot (some session) }) := by
  rw [fillSlot, if_pos ⟨Int.natCast_nonneg slot, hslot⟩]
  rfl

theorem Inv.takeSlot (h : s.Inv (some session)) (grown : Bool)
    (hsession : s.sessions[session]? = some (driver, priv)) (hcount : s.count < 2 ^ 31) :
    ∃ r s', s.takeSlot driver priv session grown = some (r, s') ∧ s'.Inv none ∧
      s'.sessions = s.sessions ∧
      (s.freeSlot < s.handles.length ∨ grown = true → s.Opened s' session r) ∧
      (¬(s.freeSlot < s.handles.length ∨ grown = true) → s.Refused s') := by
  have hfree := s.freeSlot_le
  rw [← h.count_eq] at hfree
  rw [DriverState.takeSlot]
  by_cases hlt : s.freeSlot < s.handles.length
  · -- a slot is free
    rw [if_pos hlt, toInt32_of_lt (by omega), fillSlot_of_lt hlt]
    have hold : (s.handles[s.freeSlot]).active = false := by
      have hfound : (!(s.handles[s.freeSlot]).active) = true :=
        @findIdx_getElem _ (fun x : DriverHandle => !x.active) s.handles hlt
      simpa using hfound
    refine ⟨_, _, rfl, h.setHandle hsession (getElem?_eq_getElem hlt) hold hcount, rfl,
      fun _ => ⟨rfl, rfl, fun i x hi hx => ?_⟩, fun hno => absurd (.inl hlt) hno⟩
    rw [getElem?_set, if_neg (Ne.symm hi)]
    exact hx
  · -- the table is full
    have hlen : s.freeSlot = s.handles.length :=
      Nat.le_antisymm findIdx_le_length (Nat.le_of_not_lt hlt)
    rw [if_neg hlt]
    cases grown with
    | false =>
      exact ⟨_, _, rfl, h.endSession hsession, rfl, fun hroom => absurd hroom (by simp [hlt]),
        fun _ => ⟨rfl, rfl⟩⟩
    | true =>
      generalize hcap : (if s.handles.length = 0 then 8 else wrap64 (s.handles.length * 2)) = newCap
      have hnew : s.handles.length < newCap := by
        rw [← hcap]
        split
        · omega
        · rw [wrap64_of_lt (by omega)]
          omega
      have hgrown := grow_handles (Nat.le_of_lt hnew)
      have hslot : (s.grow newCap).handles[s.handles.length]? = some .empty := by
        rw [hgrown, getElem?_append_right (Nat.le_refl _), getElem?_replicate, if_pos (by
          omega)]
      have hlt' : s.handles.length < (s.grow newCap).handles.length :=
        (List.getElem?_eq_some_iff.mp hslot).1
      rw [toInt32_of_lt (by omega)]
      dsimp only
      rw [fillSlot_of_lt hlt']
      refine ⟨_, _, rfl, (h.grow (Nat.le_of_lt hnew)).setHandle hsession hslot rfl hcount, rfl,
        fun _ => ⟨by rw [hlen], by rw [hlen]; rfl, fun i x hi hx => ?_⟩,
        fun hno => absurd (.inr rfl) hno⟩
      have hi' : i < s.handles.length := (List.getElem?_eq_some_iff.mp hx).1
      rw [getElem?_set, if_neg (by omega), hgrown, getElem?_append_left hi']
      exact hx

/-- The driver that `driverOpen` finds. -/
def findDriver (s : DriverState) (name : Option CString) : Option DriverEntry :=
  name.bind fun name => s.gDriverList.find? fun driver => matchDriverName driver.name name

/-- `driverOpen` finds a driver that does not refuse, and a slot or memory for more slots. -/
def OpenOk (s : DriverState) (name : Option CString) (ret : ℤ) (grown : Bool) (driver : DriverEntry) :
    Prop :=
  s.findDriver name = some driver ∧ (driver.hasOpen = true → ret = 0) ∧
    (s.freeSlot < s.handles.length ∨ grown = true)

theorem Inv.driverOpen (h : s.Inv none) (hcount : s.count < 2 ^ 31) (name : Option CString) (ret : ℤ)
    (priv : ℕ) (grown : Bool) :
    ∃ r s', s.driverOpen name ret priv grown = some (r, s') ∧ s'.Inv none ∧
      (∀ driver, s.OpenOk name ret grown driver → s.Opened s' s.sessions.length r ∧
        s'.sessions = s.sessions ++ [(driver, if driver.hasOpen then priv else 0)]) ∧
      ((∀ driver, ¬s.OpenOk name ret grown driver) → s.Refused s') := by
  have hsame : ∀ driver, s.findDriver name = some driver → (driver.hasOpen = true ∧ ret ≠ 0) →
      ∀ e, ¬s.OpenOk name ret grown e := by
    rintro driver hfind ⟨hopen, hret⟩ e ⟨hfind', hok, -⟩
    obtain rfl := mem_unique hfind hfind'
    exact hret (hok hopen)
  have hnone : s.findDriver name = none → ∀ e, ¬s.OpenOk name ret grown e := by
    rintro hfind e ⟨hfind', -⟩
    rw [hfind] at hfind'
    cases hfind'
  cases name with
  | none =>
    exact ⟨_, s, rfl, h, fun e he => absurd he (hnone rfl e), fun _ => ⟨rfl, rfl⟩⟩
  | some name =>
    rw [DriverState.driverOpen]
    cases hfind : s.gDriverList.find? fun driver => matchDriverName driver.name name with
    | none => exact ⟨_, s, rfl, h, fun e he => absurd he (hnone hfind e), fun _ => ⟨rfl, rfl⟩⟩
    | some driver =>
      have hioctl := h.drivers_ioctl driver (mem_of_find?_eq_some hfind)
      simp only
      split
      · rename_i hret
        exact ⟨ret, s, rfl, h, fun e he => absurd he (hsame driver hfind hret e),
          fun _ => ⟨rfl, rfl⟩⟩
      rename_i hret
      obtain ⟨r, s', hrun, hinv, hsessions, hopened, hrefused⟩ :=
        (h.beginSession hioctl).takeSlot grown getElem?_concat_length hcount
      refine ⟨r, s', hrun, hinv, ?_, fun hno => ?_⟩
      · rintro e ⟨hfind', -, hroom⟩
        obtain rfl := mem_unique hfind hfind'
        have hslot := hopened hroom
        exact ⟨⟨hslot.result_eq, hslot.opened_eq, hslot.kept⟩, hsessions⟩
      · apply hrefused
        intro hroom
        refine hno driver ⟨hfind, fun hopen => ?_, hroom⟩
        exact Classical.not_not.mp fun hne => hret ⟨hopen, hne⟩

theorem activeHandle_eq_some {handle : ℤ} {x : DriverHandle} (hx : s.activeHandle handle = some x) :
    s.handles[handle.toNat]? = some x ∧ x.active = true := by
  rw [activeHandle] at hx
  split at hx
  · cases hx
  · exact filter_eq_some_iff.mp hx

theorem Inv.driverClose (h : s.Inv none) (handle : ℤ) : (s.driverClose handle).2.Inv none := by
  rw [DriverState.driverClose]
  cases hx : s.activeHandle handle with
  | none => exact h
  | some x =>
    obtain ⟨hslot, hactive⟩ := activeHandle_eq_some hx
    obtain ⟨driver, hdriver, hsession⟩ := h.handle_eq x (mem_of_getElem? hslot) hactive
    simp only
    rw [hdriver]
    exact (h.clearHandle hslot hactive).endSession hsession

/-- The loop of `driverCleanupProcess` changes the record only. -/
theorem closeActive_eq (l : List DriverHandle) (s : DriverState) :
    s.closeActive l = { s with
      ended := (s.closeActive l).ended
      closeCalls := (s.closeActive l).closeCalls } := by
  induction l generalizing s with
  | nil => rfl
  | cons x l ih =>
    rw [closeActive, foldl_cons]
    split
    · exact ih _
    · exact ih s

/-- The sessions of the active slots end, each with its own `close` callback. -/
theorem closeActive_counts (sessions : List (DriverEntry × ℕ)) (l : List DriverHandle) (s : DriverState)
    (hl : ∀ x ∈ l, x.active = true →
      ∃ driver, x.driver = some driver ∧ sessions[x.session]? = some (driver, x.sessionPriv)) (i : ℕ) :
    (s.closeActive l).ended.count i = s.ended.count i + l.countP (holds i) ∧
    (s.closeActive l).closeCalls.count i = s.closeCalls.count i +
      if (sessions[i]?).any (·.1.hasClose) then l.countP (holds i) else 0 := by
  induction l generalizing s with
  | nil => simp [closeActive]
  | cons x l ih =>
    have hl' := fun y hy => hl y (mem_cons_of_mem x hy)
    rw [closeActive, foldl_cons, countP_cons]
    cases hactive : x.active with
    | false =>
      have hholds : holds i x = false := by rw [holds, hactive, Bool.false_and]
      rw [hholds]
      exact ih s hl'
    | true =>
      obtain ⟨driver, hdriver, hsession⟩ := hl x (.head _) hactive
      obtain ⟨hended, hcalls⟩ := ih (s.endSession x.driver x.session) hl'
      rw [closeActive] at hended hcalls
      rw [if_pos rfl, hended, hcalls, endSession, hdriver]
      by_cases hi : x.session = i
      · subst hi
        have hholds : holds x.session x = true := by simp [holds, hactive]
        rw [hholds, hsession]
        cases hclose : driver.hasClose <;> simp [hclose] <;> omega
      · have hholds : holds i x = false := by simp [holds, hi]
        rw [hholds]
        cases hclose : driver.hasClose <;> simp [hclose, hi]

theorem Inv.driverCleanupProcess (h : s.Inv none) : s.driverCleanupProcess.Inv none := by
  rw [DriverState.driverCleanupProcess]
  split
  · exact h
  have hcounts := closeActive_counts s.sessions s.handles s h.handle_eq
  rw [closeActive_eq]
  refine ⟨rfl, Nat.zero_le _, fun i => rfl, fun x hx => absurd hx not_mem_nil, h.drivers_ioctl,
    h.sessions_ioctl, fun i => ?_, h.openCalls_eq, fun i => ?_⟩
  · refine .trans ?_ (h.balance i)
    rw [← (hcounts i).1]
    rfl
  · have hcalls := (hcounts i).2
    rw [h.closeCalls_eq i] at hcalls
    refine hcalls.trans ?_
    rw [(hcounts i).1]
    split <;> rfl

theorem Inv.driverRegister (h : s.Inv none) (entry : DriverEntry) (alloc : Bool) :
    (s.driverRegister entry alloc).2.Inv none := by
  rw [DriverState.driverRegister]
  split
  · exact h
  split
  · exact h
  rename_i hioctl _
  refine { h with drivers_ioctl := fun driver hd => ?_ }
  rcases mem_cons.mp hd with rfl | hd
  · simpa using hioctl
  · exact h.drivers_ioctl driver hd

theorem Inv.create : create.Inv none := by
  constructor <;> simp [DriverState.create]

end Inv

/-! ## Whole runs -/

/-- The states reached by calls, where fewer than `2 ^ 31` handles are active at each `driverOpen`. -/
inductive Runs : DriverState → Prop
  | create : Runs create
  | register {s : DriverState} (entry : DriverEntry) (alloc : Bool) :
      Runs s → Runs (s.driverRegister entry alloc).2
  | opens {s s' : DriverState} {name : Option CString} {ret r : ℤ} {priv : ℕ} {grown : Bool} :
      Runs s → s.handles.countP (·.active) < 2 ^ 31 →
      s.driverOpen name ret priv grown = some (r, s') → Runs s'
  | close {s : DriverState} (handle : ℤ) : Runs s → Runs (s.driverClose handle).2
  | cleanup {s : DriverState} : Runs s → Runs s.driverCleanupProcess

variable {s : DriverState}

theorem Runs.inv (h : Runs s) : s.Inv none := by
  induction h with
  | create => exact .create
  | register entry alloc _ ih => exact ih.driverRegister entry alloc
  | opens _ hcount hrun ih =>
    rw [← ih.count_eq] at hcount
    obtain ⟨r, s', hrun', hinv, -, -⟩ := ih.driverOpen hcount _ _ _ _
    rw [hrun] at hrun'
    obtain ⟨-, rfl⟩ := Prod.mk.inj (some.inj hrun')
    exact hinv
  | close handle _ ih => exact ih.driverClose handle
  | cleanup _ ih => exact ih.driverCleanupProcess

theorem Inv.driverIoctl_opened (h : s.Inv none) {session : ℕ}
    (hopened : s.opened i = some session) :
    ∃ driver priv, s.sessions[session]? = some (driver, priv) ∧
      s.driverIoctl i = .call driver priv := by
  rw [h.opened_eq i] at hopened
  obtain ⟨x, hx, rfl⟩ := map_eq_some_iff.mp hopened
  obtain ⟨hslot, hactive⟩ := filter_eq_some_iff.mp hx
  obtain ⟨driver, hdriver, hsession⟩ := h.handle_eq x (mem_of_getElem? hslot) hactive
  have hioctl := h.sessions_ioctl _ (mem_of_getElem? hsession)
  refine ⟨driver, x.sessionPriv, hsession, ?_⟩
  rw [driverIoctl, activeHandle, if_neg (by omega), Int.toNat_natCast, hx]
  simp only [hdriver]
  rw [if_pos hioctl]

theorem Inv.session_balance (h : s.Inv none) {priv : ℕ} {driver : DriverEntry}
    (hsession : s.sessions[i]? = some (driver, priv)) (hopen : driver.hasOpen = true)
    (hclose : driver.hasClose = true) :
    s.openCalls.count i = s.closeCalls.count i + if s.sessionActive i then 1 else 0 := by
  have hopens := h.openCalls_eq i
  have hcloses := h.closeCalls_eq i
  have hbalance := h.balance i
  rw [hsession] at hopens hcloses
  rw [if_pos (List.getElem?_eq_some_iff.mp hsession).1, if_neg (by simp)] at hbalance
  simp only [any_some, hopen, hclose, if_true] at hopens hcloses
  have hactive : s.sessionActive i = true ↔ 0 < s.handles.countP (holds i) := by
    rw [sessionActive, List.any_eq_true, countP_pos_iff]
  grind

/-- Through every sequence of calls that has fewer than `2 ^ 31` handles active at each `driverOpen`:
`count` is the number of active slots; `driverOpen` returns the lowest slot that is not active with a new
session of the driver in it and keeps all other handles, or leaves the table if it finds no driver, is
refused or has no room; the active slots are those under which sessions were returned and not
closed, and `driverIoctl` on one reaches the driver and pointer of that session; and the callbacks of a
session balance if its driver has both. -/
theorem driver_handles {s : DriverState} (h : Runs s) : s.count = s.handles.countP (·.active) ∧
    (s.handles.countP (·.active) < 2 ^ 31 → ∀ name ret priv grown,
      ∃ r s', s.driverOpen name ret priv grown = some (r, s') ∧
        (∀ driver, s.OpenOk name ret grown driver → s.Opened s' s.sessions.length r ∧
          s'.sessions = s.sessions ++ [(driver, if driver.hasOpen then priv else 0)]) ∧
        ((∀ driver, ¬s.OpenOk name ret grown driver) → s.Refused s')) ∧
    (∀ i, s.opened i = ((s.handles[i]?).filter (·.active)).map (·.session)) ∧
    (∀ i session, s.opened i = some session →
      ∃ driver priv, s.sessions[session]? = some (driver, priv) ∧
        s.driverIoctl i = .call driver priv) ∧
    ∀ i driver priv, s.sessions[i]? = some (driver, priv) → driver.hasOpen = true →
      driver.hasClose = true →
      s.openCalls.count i = s.closeCalls.count i + if s.sessionActive i then 1 else 0 := by
  have hinv := h.inv
  refine ⟨hinv.count_eq, fun hcount name ret priv grown => ?_, hinv.opened_eq,
    fun i session hopened => hinv.driverIoctl_opened hopened,
    fun i driver priv hsession hopen hclose => hinv.session_balance hsession hopen hclose⟩
  rw [← hinv.count_eq] at hcount
  obtain ⟨r, s', hrun, -, hopened, hrefused⟩ := hinv.driverOpen hcount name ret priv grown
  exact ⟨r, s', hrun, hopened, hrefused⟩

/-- A driver of this name, with or without a `close` callback. -/
def sampleDriver (hasClose : Bool) : DriverEntry := ⟨[0x74, 0x65, 0x73, 0x74], true, hasClose, true⟩

/-- A process that opens it. -/
def sampleOpen (hasClose : Bool) : Option (ℤ × DriverState) :=
  ((create.driverRegister (sampleDriver hasClose) true).2).driverOpen
    (some [0x74, 0x65, 0x73, 0x74]) 0 7 true

/-- It opens it once more, closes the first handle and opens it a third time. -/
def sampleReopen : Option (ℤ × DriverState) :=
  (sampleOpen true).bind fun r => (r.2.driverOpen (some [0x74, 0x65, 0x73, 0x74]) 0 8 true).bind fun r =>
    (r.2.driverClose 0).2.driverOpen (some [0x74, 0x65, 0x73, 0x74]) 0 9 true

/-- The first slot has the third session, the second slot still has the second one. -/
theorem driver_handles_sample :
    (sampleReopen.map fun r => (r.1, r.2.count, r.2.opened 0, r.2.opened 1)) = some (0, 2, some 2, some 1) ∧
      ∃ r, sampleReopen = some r ∧
        (∃ driver priv, r.2.sessions[2]? = some (driver, priv) ∧ r.2.driverIoctl 0 = .call driver priv) ∧
        ∃ driver priv, r.2.sessions[1]? = some (driver, priv) ∧ r.2.driverIoctl 1 = .call driver priv := by
  refine (and_iff_left_of_imp fun hrun => ?_).mpr (by decide +kernel)
  obtain ⟨r, hr, heq⟩ := map_eq_some_iff.mp hrun
  obtain ⟨r1, hr1, hrest⟩ := bind_eq_some_iff.mp hr
  obtain ⟨r2, hr2, hr3⟩ := bind_eq_some_iff.mp hrest
  have hone : ((sampleOpen true).map fun r => r.2.handles.countP (·.active)) = some 1 := by decide +kernel
  have htwo : ((sampleOpen true).bind fun r => (r.2.driverOpen (some [0x74, 0x65, 0x73, 0x74]) 0 8 true).map
      fun r => (r.2.driverClose 0).2.handles.countP (·.active)) = some 1 := by decide +kernel
  rw [hr1] at hone htwo
  rw [Option.bind_some, hr2] at htwo
  have hruns1 : Runs r1.2 := .opens (.register (sampleDriver true) true .create) (by decide) hr1
  have hruns2 : Runs r2.2 := hruns1.opens (Nat.lt_of_le_of_lt (Nat.le_of_eq (some.inj hone)) (by decide)) hr2
  have hruns : Runs r.2 :=
    (hruns2.close 0).opens (Nat.lt_of_le_of_lt (Nat.le_of_eq (some.inj htwo)) (by decide)) hr3
  have hfirst : r.2.opened 0 = some 2 := congrArg (fun t => t.2.2.1) heq
  have hsecond : r.2.opened 1 = some 1 := congrArg (fun t => t.2.2.2) heq
  have hioctl := (driver_handles hruns).2.2.2.1
  exact ⟨r, hr, hioctl 0 2 hfirst, hioctl 1 1 hsecond⟩

/-- The session of a driver without a `close` callback is opened by a callback and not closed by one. -/
theorem session_without_close :
    ((sampleOpen false).map fun r => (r.2.driverClose 0).2).map (fun s =>
      (s.openCalls.count 0, s.closeCalls.count 0, s.sessionActive 0)) = some (1, 0, false) := by
  decide +kernel

end DriverState

end NovaOS.Drivers
