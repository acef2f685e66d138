import NovaOS.Lib.Links
import Mathlib.Algebra.BigOperators.Group.List.Basic
import Mathlib.Data.List.Perm.Subperm
import Mathlib.Data.Nat.Bitwise
import Mathlib.Data.Nat.ModEq

/-!
# Virtqueues

Reference: `drivers/virtiogpu/virtqueue.c`, `drivers/virtiogpu/virtqueue.h`.

A split virtqueue and the device at its other end. The driver takes the descriptors of a request from
the front of the free list and gives them back when it finds the head of the chain in the used ring.
The device reads the available ring in order and returns each request that it has read once, in any
order and at any time, also while `virtqueuePoll` empties the used ring.

Requests are numbered in the order in which they were submitted. `sent`, `returned` and `reclaimed`
record which of them the driver has exposed, the device has returned and the driver has taken back.
-/

namespace NovaOS.Drivers

open NovaOS.Lib Function List

def virtqDescFNext : ℕ := 1
def virtqDescFWrite : ℕ := 2

structure VirtqBuf where
  physAddr : ℕ
  len : ℕ
  write : Bool
deriving DecidableEq, Repr

structure VirtqDesc where
  addr : ℕ
  len : ℕ
  flags : ℕ
  next : ℕ
deriving DecidableEq, Repr

/-- `0xFFFF`, the mark at the end of a list of descriptors. -/
def noDesc : ℕ := 0xFFFF

/-- `Virtqueue` with the three tables that it points to. -/
structure Virtqueue where
  queueSize : ℕ
  numFree : ℕ
  freeHead : ℕ
  lastUsedIdx : ℕ
  descTable : ℕ → VirtqDesc
  availIdx : ℕ
  availRing : ℕ → ℕ
  usedIdx : ℕ
  usedRing : ℕ → ℕ

namespace Virtqueue

/-- The descriptor table that `virtqueueCreate` lays out. -/
def createDesc (queueSize i : ℕ) : VirtqDesc := ⟨0, 0, 0, if i + 1 < queueSize then i + 1 else noDesc⟩

/-- `virtqueueCreate`. -/
def create (queueSize : ℕ) : Virtqueue where
  queueSize := queueSize
  numFree := queueSize
  freeHead := 0
  lastUsedIdx := 0
  descTable := createDesc queueSize
  availIdx := 0
  availRing := fun _ => 0
  usedIdx := 0
  usedRing := fun _ => 0

/-- `desc->next = next` for descriptor `i`. -/
def setNext (desc : ℕ → VirtqDesc) (i next : ℕ) : ℕ → VirtqDesc :=
  update desc i { desc i with next := next }

/-- The fields of the descriptor that holds a buffer, with or without another one after it. -/
def bufFlags (buf : VirtqBuf) (more : Bool) : ℕ :=
  (if buf.write then virtqDescFWrite else 0) ||| (if more then virtqDescFNext else 0)

/-- The loop of `virtqueueSubmitSg`: the table, `prevIdx` and `currIdx` after it. -/
def fillChain : List VirtqBuf → (ℕ → VirtqDesc) → (prevIdx currIdx : ℕ) → (ℕ → VirtqDesc) × ℕ × ℕ
  | [], desc, prevIdx, currIdx => (desc, prevIdx, currIdx)
  | buf :: bufs, desc, _, currIdx =>
    fillChain bufs
      (update desc currIdx ⟨buf.physAddr, buf.len, bufFlags buf !bufs.isEmpty, (desc currIdx).next⟩)
      currIdx (desc currIdx).next

/-- `virtqueueSubmitSg`. -/
def submitSg (vq : Virtqueue) (bufs : List VirtqBuf) : ℤ × Virtqueue :=
  if bufs.length = 0 ∨ vq.queueSize < bufs.length then (-1, vq)
  else if vq.numFree < bufs.length then (-1, vq)
  else
    let (desc, prevIdx, currIdx) := fillChain bufs vq.descTable noDesc vq.freeHead
    (0, { vq with
      freeHead := currIdx
      descTable := setNext desc prevIdx noDesc
      numFree := vq.numFree - bufs.length
      availRing := update vq.availRing (vq.availIdx % vq.queueSize) vq.freeHead
      availIdx := (vq.availIdx + 1) % 2 ^ 16 })

/-- The loop of `virtqueuePoll` that walks a chain: `tail` and `count` at its end. -/
def chainEnd (desc : ℕ → VirtqDesc) : (fuel tail count : ℕ) → Option (ℕ × ℕ)
  | 0, _, _ => none
  | fuel + 1, tail, count =>
    if (desc tail).flags &&& virtqDescFNext ≠ 0 then
      chainEnd desc fuel (desc tail).next ((count + 1) % 2 ^ 16)
    else some (tail, count)

/-- A chain of `count` descriptors goes back to the front of the free list. -/
def giveBack (vq : Virtqueue) (curr tail count : ℕ) : Virtqueue :=
  { vq with
    descTable := setNext vq.descTable tail vq.freeHead
    freeHead := curr
    numFree := (vq.numFree + count) % 2 ^ 16
    lastUsedIdx := (vq.lastUsedIdx + 1) % 2 ^ 16 }

/-- One turn of the loop over the used ring. -/
def reclaim (vq : Virtqueue) : Option Virtqueue :=
  let curr := vq.usedRing (vq.lastUsedIdx % vq.queueSize) % 2 ^ 16
  (chainEnd vq.descTable vq.queueSize curr 1).map fun (tail, count) => vq.giveBack curr tail count

end Virtqueue

/-- A request: the head of its chain and its buffers. -/
structure VirtqRequest where
  head : ℕ
  bufs : List VirtqBuf
deriving DecidableEq, Repr

/-- A virtqueue and the device. `fetched` are the heads that the device has read from the available
ring, `returned` the numbers of the requests that it has returned, each with the word that it wrote at
the start of the response. -/
structure VirtqLink where
  vq : Virtqueue
  sent : List VirtqRequest
  fetched : List ℕ
  returned : List (ℕ × ℕ)
  reclaimed : ℕ

namespace VirtqLink

def create (queueSize : ℕ) : VirtqLink := ⟨.create queueSize, [], [], [], 0⟩

/-- What the device does. -/
inductive Event where
  /-- read the next entry of the available ring -/
  | fetch
  /-- return request number `i`, answered by `word` -/
  | finish (i word : ℕ)
deriving DecidableEq, Repr

/-- The device keeps a 16-bit index of its own into the available ring. -/
def event (s : VirtqLink) : Event → VirtqLink
  | .fetch =>
    if s.fetched.length % 2 ^ 16 ≠ s.vq.availIdx then
      { s with
        fetched := s.fetched ++ [s.vq.availRing (s.fetched.length % 2 ^ 16 % s.vq.queueSize)] }
    else s
  | .finish i word =>
    match s.fetched[i]? with
    | none => s
    | some head =>
      if i ∈ s.returned.map Prod.fst then s
      else
        { s with
          vq := { s.vq with
            usedRing := update s.vq.usedRing (s.vq.usedIdx % s.vq.queueSize) head
            usedIdx := (s.vq.usedIdx + 1) % 2 ^ 16 }
          returned := s.returned ++ [(i, word)] }

def events (s : VirtqLink) (es : List Event) : VirtqLink := es.foldl event s

/-- `virtqueueSubmitSg`. -/
def submitSg (s : VirtqLink) (bufs : List VirtqBuf) : ℤ × VirtqLink :=
  let (ret, vq) := s.vq.submitSg bufs
  (ret, { s with
    vq := vq
    sent := if ret = 0 then s.sent ++ [⟨s.vq.freeHead, bufs⟩] else s.sent })

def reclaim (s : VirtqLink) : Option VirtqLink :=
  s.vq.reclaim.map fun vq => { s with vq := vq, reclaimed := s.reclaimed + 1 }

/-- The loop over the used ring; the device goes on with `turns` between two tests. -/
def reclaimAll : (fuel : ℕ) → (turns : List (List Event)) → VirtqLink → Option VirtqLink
  | 0, _, _ => none
  | fuel + 1, turns, s =>
    if s.vq.lastUsedIdx ≠ s.vq.usedIdx then
      s.reclaim.bind fun s => reclaimAll fuel turns.tail (s.events (turns.headD []))
    else some s

/-- `virtqueuePoll`, which gives up after the last of `turns`. -/
def poll : (turns : List (List Event)) → VirtqLink → Option (ℤ × VirtqLink)
  | [], s =>
    if s.vq.lastUsedIdx ≠ s.vq.usedIdx then
      (s.reclaimAll (s.vq.queueSize + 1) []).map fun s => (0, s)
    else some (-1, s)
  | turn :: turns, s =>
    if s.vq.lastUsedIdx ≠ s.vq.usedIdx then
      (s.reclaimAll (s.vq.queueSize + 1) (turn :: turns)).map fun s => (0, s)
    else poll turns (s.events turn)

inductive Op where
  | submit (bufs : List VirtqBuf)
  | poll (turns : List (List Event))
  | device (es : List Event)

/-- A step; `none` stands for a loop that does not end. -/
def step (s : VirtqLink) : Op → Option VirtqLink
  | .submit bufs => some (s.submitSg bufs).2
  | .poll turns => (s.poll turns).map Prod.snd
  | .device es => some (s.events es)

def run (s : VirtqLink) (ops : List Op) : Option VirtqLink := ops.foldlM step s

end VirtqLink

/-! ## Chains of descriptors -/

namespace Virtqueue

/-- The link field of the table. -/
def nextOf (desc : ℕ → VirtqDesc) (i : ℕ) : ℕ := (desc i).next

/-- What a descriptor says about its buffer. -/
def fieldsOf (desc : ℕ → VirtqDesc) (i : ℕ) : ℕ × ℕ × ℕ := ((desc i).addr, (desc i).len, (desc i).flags)

/-- The descriptors `c` hold the buffers one by one. -/
def Holds (desc : ℕ → VirtqDesc) : List ℕ → List VirtqBuf → Prop
  | [], [] => True
  | i :: c, buf :: bufs =>
    fieldsOf desc i = (buf.physAddr, buf.len, bufFlags buf !bufs.isEmpty) ∧ Holds desc c bufs
  | _, _ => False

/-- The chain `c` of a request in the table. -/
structure Chain (desc : ℕ → VirtqDesc) (req : VirtqRequest) (c : List ℕ) : Prop where
  links : Links (nextOf desc) req.head c noDesc
  holds : Holds desc c req.bufs
  ne_nil : c ≠ []

variable {desc desc' : ℕ → VirtqDesc} {c : List ℕ} {bufs : List VirtqBuf} {req : VirtqRequest}

theorem nextOf_setNext (desc : ℕ → VirtqDesc) (i n : ℕ) :
    nextOf (setNext desc i n) = update (nextOf desc) i n :=
  comp_update VirtqDesc.next desc i _

theorem fieldsOf_setNext (desc : ℕ → VirtqDesc) (i n : ℕ) :
    fieldsOf (setNext desc i n) = fieldsOf desc :=
  (comp_update (fun d : VirtqDesc => (d.addr, d.len, d.flags)) desc i { desc i with next := n }).trans
    (update_eq_self i _)

theorem Holds.congr (h : Holds desc c bufs) (heq : ∀ i ∈ c, fieldsOf desc' i = fieldsOf desc i) :
    Holds desc' c bufs := by
  induction c generalizing bufs with
  | nil => cases bufs <;> exact h
  | cons i c ih =>
    cases bufs with
    | nil => exact h
    | cons buf bufs =>
      exact ⟨(heq i (.head _)).trans h.1, ih h.2 fun j hj => heq j (.tail _ hj)⟩

theorem Holds.length_eq (h : Holds desc c bufs) : c.length = bufs.length := by
  induction c generalizing bufs with
  | nil =>
    cases bufs with
    | nil => rfl
    | cons buf bufs => exact absurd h id
  | cons i c ih =>
    cases bufs with
    | nil => exact absurd h id
    | cons buf bufs => exact congrArg (· + 1) (ih h.2)

theorem Chain.congr (h : Chain desc req c) (hnext : ∀ i ∈ c, nextOf desc' i = nextOf desc i)
    (hfields : ∀ i ∈ c, fieldsOf desc' i = fieldsOf desc i) : Chain desc' req c :=
  ⟨h.links.congr hnext, h.holds.congr hfields, h.ne_nil⟩

theorem Chain.head_eq (h : Chain desc req c) : c.head? = some req.head := by
  cases c with
  | nil => exact absurd rfl h.ne_nil
  | cons i c => exact congrArg some h.links.1.symm

/-- What the loop of `virtqueueSubmitSg` does to the descriptors at the front of the free list. -/
theorem fillChain_spec {prev curr q : ℕ} (hlinks : Links (nextOf desc) curr c q) (hnodup : c.Nodup)
    (hlen : c.length = bufs.length) :
    (∀ i ∉ c, (fillChain bufs desc prev curr).1 i = desc i) ∧
      nextOf (fillChain bufs desc prev curr).1 = nextOf desc ∧
      Holds (fillChain bufs desc prev curr).1 c bufs ∧
      (fillChain bufs desc prev curr).2.1 = c.getLast?.getD prev ∧
      (fillChain bufs desc prev curr).2.2 = q := by
  induction bufs generalizing c desc prev curr with
  | nil =>
    obtain rfl := length_eq_zero_iff.mp hlen
    exact ⟨fun _ _ => rfl, rfl, trivial, rfl, hlinks⟩
  | cons buf bufs ih =>
    cases c with
    | nil => cases hlen
    | cons i c =>
      obtain ⟨rfl, hlinks⟩ := hlinks
      obtain ⟨hi, hnodup⟩ := nodup_cons.mp hnodup
      rw [fillChain]
      -- the descriptor just written is behind the loop
      generalize hdesc1 : update desc curr
        ⟨buf.physAddr, buf.len, bufFlags buf !bufs.isEmpty, (desc curr).next⟩ = desc1
      have hnext : nextOf desc1 = nextOf desc :=
        hdesc1 ▸ (comp_update VirtqDesc.next desc curr _).trans (update_eq_self curr _)
      have hfields : fieldsOf desc1 curr = (buf.physAddr, buf.len, bufFlags buf !bufs.isEmpty) := by
        rw [← hdesc1, fieldsOf, update_self]
      have hlinks1 : Links (nextOf desc1) (desc curr).next c q := by
        rw [hnext]
        exact hlinks
      obtain ⟨hframe, hnext', hholds, hlast, hend⟩ :=
        @ih desc1 c curr _ hlinks1 hnodup (Nat.succ.inj hlen)
      refine ⟨fun j hj => ?_, hnext'.trans hnext, ⟨?_, hholds⟩, ?_, hend⟩
      · rw [mem_cons, not_or] at hj
        refine (hframe j hj.2).trans ?_
        rw [← hdesc1, update_of_ne hj.1]
      · refine .trans ?_ hfields
        rw [fieldsOf, fieldsOf, hframe curr hi]
      · rw [getLast?_cons]
        exact hlast

/-- A descriptor says whether another one follows. -/
theorem bufFlags_and_next (buf : VirtqBuf) (more : Bool) :
    bufFlags buf more &&& virtqDescFNext ≠ 0 ↔ more = true := by
  cases hwrite : buf.write <;> cases more <;> simp [bufFlags, hwrite, virtqDescFNext, virtqDescFWrite]

/-- The walk along a chain ends at its last descriptor. -/
theorem chainEnd_eq {head fuel count q : ℕ} (hlinks : Links (nextOf desc) head c q)
    (hholds : Holds desc c bufs) (hne : c ≠ []) (hfuel : c.length ≤ fuel)
    (hcount : count + c.length < 2 ^ 16) :
    chainEnd desc fuel head (count + 1) = some (c.getLast hne, count + c.length) := by
  induction c generalizing bufs head fuel count with
  | nil => exact absurd rfl hne
  | cons i c ih =>
    obtain ⟨rfl, hlinks⟩ := hlinks
    cases bufs with
    | nil => exact absurd hholds id
    | cons buf bufs =>
      obtain ⟨hfields, hholds⟩ := hholds
      have hflags : (desc head).flags = bufFlags buf !bufs.isEmpty :=
        congrArg (fun f => f.2.2) hfields
      obtain _ | fuel := fuel
      · simp at hfuel
      rw [chainEnd, hflags]
      cases c with
      | nil =>
        obtain rfl : bufs = [] := length_eq_zero_iff.mp hholds.length_eq.symm
        rw [if_neg (mt (bufFlags_and_next _ _).mp (by decide))]
        rfl
      | cons j c =>
        have hmore : (!bufs.isEmpty) = true := by
          cases bufs with
          | nil => exact absurd hholds id
          | cons buf bufs => rfl
        rw [if_pos ((bufFlags_and_next _ _).mpr hmore)]
        simp only [length_cons] at hfuel hcount ⊢
        rw [Nat.mod_eq_of_lt (by omega)]
        have hih := @ih bufs _ fuel (count + 1) hlinks hholds (by simp)
          (by simp only [length_cons]; omega) (by simp only [length_cons]; omega)
        rw [← nextOf, hih, length_cons]
        congr 2
        omega

end Virtqueue

/-! ## The free list and the requests in flight -/

namespace VirtqLink

open Virtqueue

/-- The heads of the requests in the order in which they were submitted. -/
def heads (s : VirtqLink) : List ℕ := s.sent.map VirtqRequest.head

/-- The numbers of the requests that the driver has taken back. -/
def taken (s : VirtqLink) : List ℕ := (s.returned.take s.reclaimed).map Prod.fst

/-- The descriptor table is made up of the free list and the chains of the requests in flight. -/
structure Table (vq : Virtqueue) (sent : List VirtqRequest) (free : List ℕ)
    (flying : List (ℕ × List ℕ)) : Prop where
  links : Links (nextOf vq.descTable) vq.freeHead free noDesc
  numFree_eq : vq.numFree = free.length
  parts : (free ++ flying.flatMap Prod.snd).Perm (range vq.queueSize)
  chain : ∀ f ∈ flying, ∃ req, sent[f.1]? = some req ∧ Chain vq.descTable req f.2

/-- The two rings hold what the other side has not read yet. -/
structure Rings (s : VirtqLink) : Prop where
  availIdx_eq : s.vq.availIdx = s.sent.length % 2 ^ 16
  availRing_eq : ∀ i req, s.sent[i]? = some req → s.sent.length ≤ i + s.vq.queueSize →
    s.vq.availRing (i % s.vq.queueSize) = req.head
  fetched_initial : s.fetched <+: s.heads
  returned_nodup : (s.returned.map Prod.fst).Nodup
  returned_lt : ∀ i ∈ s.returned.map Prod.fst, i < s.fetched.length
  usedIdx_eq : s.vq.usedIdx = s.returned.length % 2 ^ 16
  lastUsedIdx_eq : s.vq.lastUsedIdx = s.reclaimed % 2 ^ 16
  reclaimed_le : s.reclaimed ≤ s.returned.length
  usedRing_eq : ∀ j r, s.returned[j]? = some r → s.reclaimed ≤ j →
    s.fetched[r.1]? = some (s.vq.usedRing (j % s.vq.queueSize))

/-- The invariant of a virtqueue, with its free list and the numbers and chains in flight. -/
structure Inv (s : VirtqLink) (free : List ℕ) (flying : List (ℕ × List ℕ)) : Prop where
  size : ∃ k ≤ 15, s.vq.queueSize = 2 ^ k
  table : Table s.vq s.sent free flying
  rings : Rings s
  numbers_nodup : (flying.map Prod.fst).Nodup
  mem_numbers : ∀ i, i ∈ flying.map Prod.fst ↔ i < s.sent.length ∧ i ∉ s.taken

section Inv

variable {s : VirtqLink} {free : List ℕ} {flying : List (ℕ × List ℕ)}

theorem Inv.size_le (h : Inv s free flying) : s.vq.queueSize ≤ 2 ^ 15 := by
  obtain ⟨k, hk, heq⟩ := h.size
  rw [heq]
  exact Nat.pow_le_pow_right (by decide) hk

/-- A 16-bit index selects the same slot as the counter it is cut from. -/
theorem Inv.mod_mod (h : Inv s free flying) (n : ℕ) :
    n % 2 ^ 16 % s.vq.queueSize = n % s.vq.queueSize := by
  obtain ⟨k, hk, heq⟩ := h.size
  rw [heq]
  exact Nat.mod_mod_of_dvd n (Nat.pow_dvd_pow 2 (by omega))

/-- Two counters less than a queue apart select different slots. -/
theorem mod_ne_mod {a b n : ℕ} (hlt : a < b) (hle : b < a + n) : a % n ≠ b % n := fun heq =>
  absurd (Nat.ModEq.add_le_of_lt heq hlt) (by omega)

theorem Table.nodup {vq : Virtqueue} {sent : List VirtqRequest} (h : Table vq sent free flying) :
    (free ++ flying.flatMap Prod.snd).Nodup := h.parts.nodup_iff.mpr nodup_range

/-- A request in flight holds at least one descriptor. -/
theorem Table.flying_le {vq : Virtqueue} {sent : List VirtqRequest} (h : Table vq sent free flying) :
    free.length + flying.length ≤ vq.queueSize := by
  have hlen := h.parts.length_eq
  rw [length_append, length_range, length_flatMap] at hlen
  have hsum : flying.length ≤ (flying.map fun f => f.2.length).sum := by
    have hpos : ∀ n ∈ flying.map (fun f => f.2.length), 1 ≤ n := by
      intro n hn
      obtain ⟨f, hf, rfl⟩ := mem_map.mp hn
      obtain ⟨_, -, hchain⟩ := h.chain f hf
      exact length_pos_iff.mpr hchain.ne_nil
    have hle := length_le_sum_of_one_le _ hpos
    rwa [length_map] at hle
  omega

theorem Rings.fetched_le (h : Rings s) : s.fetched.length ≤ s.sent.length := by
  have hle := h.fetched_initial.length_le
  rwa [heads, length_map] at hle

theorem taken_subset (s : VirtqLink) : s.taken ⊆ s.returned.map Prod.fst :=
  ((take_sublist _ _).map _).subset

theorem Rings.taken_lt (h : Rings s) {i : ℕ} (hi : i ∈ s.taken) : i < s.fetched.length :=
  h.returned_lt _ (s.taken_subset hi)

section

variable (h : Inv s free flying)
include h

/-- The requests that the device has not read are in flight. -/
theorem Inv.sent_le : s.sent.length ≤ s.fetched.length + s.vq.queueSize := by
  have hsub : range' s.fetched.length (s.sent.length - s.fetched.length) ⊆
      flying.map Prod.fst := by
    intro i hi
    obtain ⟨hge, hlt⟩ := mem_range'_1.mp hi
    refine (h.mem_numbers i).mpr ⟨by omega, fun htaken => ?_⟩
    exact absurd (h.rings.taken_lt htaken) (by omega)
  have hle := (subperm_of_subset nodup_range' hsub).length_le
  rw [length_range', length_map] at hle
  have := h.table.flying_le
  omega

/-- So are those that it has returned and the driver has not taken back. -/
theorem Inv.pending_le (is : List ℕ) (his : is.Nodup) (hlt : ∀ i ∈ is, i < s.sent.length)
    (hnot : ∀ i ∈ is, i ∉ s.returned.map Prod.fst) :
    s.returned.length + is.length ≤ s.reclaimed + s.vq.queueSize := by
  have hsplit : s.returned.map Prod.fst = s.taken ++ (s.returned.drop s.reclaimed).map Prod.fst := by
    rw [taken, ← map_append, take_append_drop]
  have hnodup := h.rings.returned_nodup
  rw [hsplit, nodup_append] at hnodup
  obtain ⟨-, hpending, hdisjoint⟩ := hnodup
  have hsub : (s.returned.drop s.reclaimed).map Prod.fst ++ is ⊆ flying.map Prod.fst := by
    intro i hi
    rcases mem_append.mp hi with hi | hi
    · have hmem : i ∈ s.returned.map Prod.fst := by
        rw [hsplit]
        exact mem_append_right _ hi
      refine (h.mem_numbers i).mpr ⟨?_, fun htaken => hdisjoint i htaken i hi rfl⟩
      exact (h.rings.returned_lt i hmem).trans_le h.rings.fetched_le
    · exact (h.mem_numbers i).mpr ⟨hlt i hi, fun htaken => hnot i hi (s.taken_subset htaken)⟩
  have hnodup' : ((s.returned.drop s.reclaimed).map Prod.fst ++ is).Nodup := by
    refine nodup_append.mpr ⟨hpending, his, fun a ha b hb hab => hnot b hb ?_⟩
    rw [hsplit, ← hab]
    exact mem_append_right _ ha
  have hle := (subperm_of_subset hnodup' hsub).length_le
  rw [length_append, length_map, length_map, length_drop] at hle
  have := h.table.flying_le
  omega

/-- The driver finds the indices different exactly while something is to be taken back. -/
theorem Inv.used_iff : s.vq.lastUsedIdx ≠ s.vq.usedIdx ↔ s.reclaimed < s.returned.length := by
  have hle := h.rings.reclaimed_le
  have hpending := h.pending_le [] nodup_nil (by simp) (by simp)
  have hsize := h.size_le
  rw [h.rings.lastUsedIdx_eq, h.rings.usedIdx_eq]
  omega

end

/-- `virtqueueCreate` links the descriptors in their order. -/
theorem links_createDesc {i m n : ℕ} (heq : i + m + 1 = n) :
    Links (nextOf (createDesc n)) i (range' i (m + 1)) noDesc := by
  induction m generalizing i with
  | zero =>
    refine ⟨rfl, ?_⟩
    rw [nextOf, createDesc, if_neg (by omega)]
    rfl
  | succ m ih =>
    refine ⟨rfl, ?_⟩
    rw [nextOf, createDesc, if_pos (by omega)]
    change Links _ (i + 1) _ _
    exact ih (by omega)

theorem inv_create {k : ℕ} (hk : k ≤ 15) : Inv (create (2 ^ k)) (range (2 ^ k)) [] where
  size := ⟨k, hk, rfl⟩
  table := {
    links := by
      have hpos := Nat.two_pow_pos k
      obtain ⟨m, hm⟩ : ∃ m, 2 ^ k = m + 1 := ⟨2 ^ k - 1, by omega⟩
      rw [hm, range_eq_range']
      change Links _ 0 _ _
      exact links_createDesc (by omega)
    numFree_eq := length_range.symm
    parts := by
      rw [flatMap_nil, append_nil]
      exact Perm.refl _
    chain := fun f hf => nomatch hf }
  rings := {
    availIdx_eq := rfl
    availRing_eq := fun i req h => absurd h (by simp [create])
    fetched_initial := prefix_refl _
    returned_nodup := nodup_nil
    returned_lt := fun i hi => absurd hi (by simp [create])
    usedIdx_eq := rfl
    lastUsedIdx_eq := rfl
    reclaimed_le := le_rfl
    usedRing_eq := fun j r h => absurd h (by simp [create]) }
  numbers_nodup := nodup_nil
  mem_numbers := fun i => by simp [create]

/-- While no request is submitted, more of them are returned. -/
structure Later (s s' : VirtqLink) : Prop where
  sent_eq : s'.sent = s.sent
  size_eq : s'.vq.queueSize = s.vq.queueSize
  returned_initial : s.returned <+: s'.returned

theorem Later.refl (s : VirtqLink) : Later s s := ⟨rfl, rfl, prefix_refl _⟩

theorem Later.trans {s1 s2 s3 : VirtqLink} (h : Later s1 s2) (h' : Later s2 s3) : Later s1 s3 :=
  ⟨h'.sent_eq.trans h.sent_eq, h'.size_eq.trans h.size_eq,
    h.returned_initial.trans h'.returned_initial⟩

theorem later_event (s : VirtqLink) (e : Event) :
    Later s (s.event e) ∧ (s.event e).reclaimed = s.reclaimed := by
  cases e with
  | fetch =>
    rw [event]
    split
    · exact ⟨⟨rfl, rfl, prefix_refl _⟩, rfl⟩
    · exact ⟨Later.refl s, rfl⟩
  | finish i word =>
    rw [event]
    cases s.fetched[i]? with
    | none => exact ⟨Later.refl s, rfl⟩
    | some head =>
      dsimp only
      split
      · exact ⟨Later.refl s, rfl⟩
      · exact ⟨⟨rfl, rfl, prefix_append _ _⟩, rfl⟩

theorem later_events (s : VirtqLink) (es : List Event) :
    Later s (s.events es) ∧ (s.events es).reclaimed = s.reclaimed := by
  induction es generalizing s with
  | nil => exact ⟨Later.refl s, rfl⟩
  | cons e es ih =>
    obtain ⟨hlater, heq⟩ := later_event s e
    obtain ⟨hlater', heq'⟩ := ih (s.event e)
    exact ⟨hlater.trans hlater', heq'.trans heq⟩

section

variable (h : Inv s free flying)
include h

/-- The device reads the heads in the order of submission. -/
theorem Inv.fetch : Inv (s.event .fetch) free flying := by
  rw [event]
  split
  · rename_i hmore
    have hlt : s.fetched.length < s.sent.length := by
      have hle := h.rings.fetched_le
      rw [h.rings.availIdx_eq] at hmore
      by_contra hge
      exact hmore (congrArg (· % 2 ^ 16) (le_antisymm hle (not_lt.mp hge)))
    have hslot := h.rings.availRing_eq _ _ (getElem?_eq_getElem hlt) h.sent_le
    refine ⟨h.size, h.table, { h.rings with
      fetched_initial := ?_, returned_lt := ?_, usedRing_eq := ?_ }, h.numbers_nodup, h.mem_numbers⟩
    · rw [h.mod_mod, hslot]
      have htake : s.heads.take (s.fetched.length + 1) =
          s.fetched ++ [(s.sent[s.fetched.length]).head] := by
        rw [take_add_one, ← prefix_iff_eq_take.mp h.rings.fetched_initial, heads,
          getElem?_map, getElem?_eq_getElem hlt]
        rfl
      rw [← htake]
      exact take_prefix _ _
    · intro i hi
      rw [length_append]
      exact (h.rings.returned_lt i hi).trans_le (Nat.le_add_right _ _)
    · intro j r hr hj
      rw [getElem?_append_left (h.rings.returned_lt r.1 (mem_map_of_mem (mem_of_getElem? hr)))]
      exact h.rings.usedRing_eq j r hr hj
  · exact h

/-- The device returns a request that it has read. -/
theorem Inv.finish (i word : ℕ) : Inv (s.event (.finish i word)) free flying := by
  rw [event]
  cases hget : s.fetched[i]? with
  | none => exact h
  | some head =>
    dsimp only
    split
    · exact h
    · rename_i hnew
      obtain ⟨hi, rfl⟩ := List.getElem?_eq_some_iff.mp hget
      have hroom := h.pending_le [i] (nodup_singleton i)
        (fun j hj => (mem_singleton.mp hj) ▸ hi.trans_le h.rings.fetched_le)
        (fun j hj => (mem_singleton.mp hj) ▸ hnew)
      rw [length_singleton] at hroom
      refine ⟨h.size, ⟨h.table.links, h.table.numFree_eq, h.table.parts, h.table.chain⟩,
        { h.rings with
          returned_nodup := ?_, returned_lt := ?_, usedIdx_eq := ?_, reclaimed_le := ?_
          usedRing_eq := ?_ }, h.numbers_nodup, fun j => ?_⟩
      · rw [map_append]
        exact List.Nodup.append h.rings.returned_nodup (nodup_singleton i)
          (disjoint_singleton.mpr hnew)
      · intro j hj
        rw [map_append] at hj
        rcases mem_append.mp hj with hj | hj
        · exact h.rings.returned_lt j hj
        · exact (mem_singleton.mp hj) ▸ hi
      · rw [h.rings.usedIdx_eq, length_append, Nat.mod_add_mod]
        rfl
      · rw [length_append]
        exact h.rings.reclaimed_le.trans (Nat.le_add_right _ _)
      · intro j r hr hj
        change _ = some (update s.vq.usedRing _ _ (j % s.vq.queueSize))
        rw [h.rings.usedIdx_eq, h.mod_mod]
        rcases lt_or_ge j s.returned.length with hold | hlast
        · rw [getElem?_append_left hold] at hr
          rw [update_of_ne (mod_ne_mod hold (by dsimp only at hj; omega))]
          exact h.rings.usedRing_eq j r hr hj
        · obtain ⟨hjlt, hr⟩ := List.getElem?_eq_some_iff.mp hr
          have hj0 : j = s.returned.length := by
            rw [length_append, length_singleton] at hjlt
            omega
          rw [getElem_concat_length hj0] at hr
          rw [← hr, hj0, update_self]
          exact hget
      · rw [h.mem_numbers j]
        change _ ↔ _ ∧ j ∉ ((s.returned ++ [(i, word)]).take s.reclaimed).map Prod.fst
        rw [take_append_of_le_length h.rings.reclaimed_le]
        rfl

theorem Inv.events (es : List Event) : Inv (s.events es) free flying := by
  induction es generalizing s with
  | nil => exact h
  | cons e es ih =>
    cases e with
    | fetch => exact ih h.fetch
    | finish i word => exact ih (h.finish i word)

end

/-- The queue with a request put into it. -/
def submitted (vq : Virtqueue) (bufs : List VirtqBuf) : Virtqueue :=
  let filled := fillChain bufs vq.descTable noDesc vq.freeHead
  { vq with
    freeHead := filled.2.2
    descTable := setNext filled.1 filled.2.1 noDesc
    numFree := vq.numFree - bufs.length
    availRing := update vq.availRing (vq.availIdx % vq.queueSize) vq.freeHead
    availIdx := (vq.availIdx + 1) % 2 ^ 16 }

theorem submitSg_of_room {bufs : List VirtqBuf} (hbufs : bufs ≠ [])
    (hsize : bufs.length ≤ s.vq.queueSize) (hroom : bufs.length ≤ s.vq.numFree) :
    s.submitSg bufs =
      (0, { s with vq := submitted s.vq bufs, sent := s.sent ++ [⟨s.vq.freeHead, bufs⟩] }) := by
  have hpos := length_pos_iff.mpr hbufs
  rw [submitSg, Virtqueue.submitSg, if_neg (by omega), if_neg (by omega)]
  rfl

theorem submitSg_refused {bufs : List VirtqBuf}
    (h : bufs = [] ∨ s.vq.queueSize < bufs.length ∨ s.vq.numFree < bufs.length) :
    s.submitSg bufs = (-1, s) := by
  rw [← length_eq_zero_iff, ← or_assoc] at h
  rw [submitSg, Virtqueue.submitSg, ← ite_or, if_pos h]
  rfl

/-- `virtqueueSubmitSg` refuses a request exactly when fewer descriptors are free than it needs. -/
theorem Inv.refused_iff (h : Inv s free flying) {bufs : List VirtqBuf} (hbufs : bufs ≠ []) :
    (s.submitSg bufs).1 = -1 ↔ s.vq.numFree < bufs.length := by
  have hfree := h.table.numFree_eq
  have hle := h.table.flying_le
  by_cases hfew : s.vq.numFree < bufs.length
  · rw [submitSg_refused (.inr (.inr hfew))]
    exact iff_of_true rfl hfew
  · rw [submitSg_of_room hbufs (by omega) (by omega)]
    exact iff_of_false (show (0 : ℤ) ≠ -1 by decide) hfew

theorem size_submitSg (s : VirtqLink) (bufs : List VirtqBuf) :
    (s.submitSg bufs).2.vq.queueSize = s.vq.queueSize := by
  by_cases h : bufs = [] ∨ s.vq.queueSize < bufs.length ∨ s.vq.numFree < bufs.length
  · rw [submitSg_refused h]
  · push Not at h
    rw [submitSg_of_room h.1 h.2.1 h.2.2]
    rfl

/-- The descriptors at the front of the free list become the chain of the request. -/
theorem Table.submit {bufs : List VirtqBuf} {front rest : List ℕ}
    (h : Table s.vq s.sent (front ++ rest) flying) (hbufs : bufs ≠ [])
    (hlen : front.length = bufs.length) :
    Table (submitted s.vq bufs) (s.sent ++ [⟨s.vq.freeHead, bufs⟩]) rest
      (flying ++ [(s.sent.length, front)]) := by
  unfold submitted
  have hfront : front ≠ [] := by
    rintro rfl
    exact hbufs (length_eq_zero_iff.mp hlen.symm)
  obtain ⟨q, hlinks, hrest⟩ := Links.append.mp h.links
  have hnodup := h.nodup
  rw [append_assoc, nodup_append] at hnodup
  obtain ⟨hnodup, hnodup', hapart⟩ := hnodup
  obtain ⟨hframe, hnext, hholds, hlast, hend⟩ :=
    @fillChain_spec s.vq.descTable front bufs noDesc _ _ hlinks hnodup hlen
  generalize hfill : fillChain bufs s.vq.descTable noDesc s.vq.freeHead = r at *
  obtain ⟨desc, prev, curr⟩ := r
  dsimp only at *
  subst hend
  have hprev : prev = front.getLast hfront := by
    rw [hlast, getLast?_eq_getLast_of_ne_nil hfront]
    rfl
  have hmem : prev ∈ front := hprev ▸ getLast_mem hfront
  -- the links of the other descriptors are as before
  have hkeep : ∀ i ∉ front, nextOf (setNext desc prev noDesc) i = nextOf s.vq.descTable i := by
    intro i hi
    have hne : i ≠ prev := fun heq => hi (heq ▸ hmem)
    rw [nextOf_setNext, update_of_ne hne, hnext]
  have hkeep' : ∀ i ∉ front, fieldsOf (setNext desc prev noDesc) i = fieldsOf s.vq.descTable i := by
    intro i hi
    rw [fieldsOf_setNext, fieldsOf, hframe i hi]
    rfl
  refine ⟨hrest.congr fun i hi => hkeep i fun hif => ?_, ?_, ?_, fun f hf => ?_⟩
  · exact hapart i hif i (mem_append_left _ hi) rfl
  · have hfree := h.numFree_eq
    rw [length_append] at hfree
    dsimp only
    omega
  · rw [flatMap_append, flatMap_singleton]
    refine Perm.trans ?_ h.parts
    rw [← append_assoc]
    refine perm_append_comm.trans ?_
    rw [append_assoc]
  · rcases mem_append.mp hf with hf | hf
    · obtain ⟨req, hreq, hchain⟩ := h.chain f hf
      have hout : ∀ i ∈ f.2, i ∉ front := fun i hi hif =>
        hapart i hif i (mem_append_right _ (mem_flatMap.mpr ⟨f, hf, hi⟩)) rfl
      refine ⟨req, ?_, hchain.congr (fun i hi => hkeep i (hout i hi)) fun i hi => hkeep' i (hout i hi)⟩
      rw [getElem?_append_left (List.getElem?_eq_some_iff.mp hreq).1]
      exact hreq
    · obtain rfl := mem_singleton.mp hf
      refine ⟨⟨s.vq.freeHead, bufs⟩, getElem?_concat_length, ⟨?_, ?_, hfront⟩⟩
      · rw [nextOf_setNext, hnext, hprev]
        exact hlinks.update_getLast hnodup hfront noDesc
      · exact hholds.congr fun i _ => congrFun (fieldsOf_setNext _ _ _) i

theorem Inv.submitSg (h : Inv s free flying) (bufs : List VirtqBuf) :
    ∃ free' flying', Inv (s.submitSg bufs).2 free' flying' := by
  by_cases hrefused : bufs = [] ∨ s.vq.queueSize < bufs.length ∨ s.vq.numFree < bufs.length
  · rw [submitSg_refused hrefused]
    exact ⟨free, flying, h⟩
  · push Not at hrefused
    obtain ⟨hbufs, hsize, hroom⟩ := hrefused
    have hfree := h.table.numFree_eq
    have hlen : (free.take bufs.length).length = bufs.length := by
      rw [length_take]
      omega
    have htable := (take_append_drop bufs.length free).symm ▸ h.table
    rw [submitSg_of_room hbufs hsize hroom]
    refine ⟨free.drop bufs.length, flying ++ [(s.sent.length, free.take bufs.length)], h.size,
      htable.submit hbufs hlen, { h.rings with
        availIdx_eq := ?_, availRing_eq := ?_, fetched_initial := ?_ }, ?_, fun i => ?_⟩
    · change (s.vq.availIdx + 1) % 2 ^ 16 = (s.sent ++ [_]).length % 2 ^ 16
      rw [h.rings.availIdx_eq, length_append, Nat.mod_add_mod]
      rfl
    · intro i req hreq hnear
      change update s.vq.availRing _ _ (i % s.vq.queueSize) = req.head
      rw [h.rings.availIdx_eq, h.mod_mod]
      rcases lt_or_ge i s.sent.length with hold | hlast
      · rw [length_append, length_singleton] at hnear
        change _ ≤ i + s.vq.queueSize at hnear
        rw [getElem?_append_left hold] at hreq
        rw [update_of_ne (mod_ne_mod hold (by omega))]
        exact h.rings.availRing_eq i req hreq (by omega)
      · obtain ⟨hi, hreq⟩ := List.getElem?_eq_some_iff.mp hreq
        have hi0 : i = s.sent.length := by
          rw [length_append, length_singleton] at hi
          omega
        rw [getElem_concat_length hi0] at hreq
        rw [← hreq, hi0, update_self]
    · change s.fetched <+: (s.sent ++ [_]).map VirtqRequest.head
      rw [map_append]
      exact h.rings.fetched_initial.trans (prefix_append _ _)
    · rw [map_append]
      refine List.Nodup.append h.numbers_nodup (nodup_singleton _)
        (disjoint_singleton.mpr fun hmem => ?_)
      exact absurd ((h.mem_numbers _).mp hmem).1 (lt_irrefl _)
    · rw [map_append, mem_append, h.mem_numbers i, map_singleton,
        mem_singleton, length_append, length_singleton]
      have hnew : s.sent.length ∉ s.taken := fun htaken =>
        absurd (h.rings.taken_lt htaken) (not_lt.mpr h.rings.fetched_le)
      constructor
      · rintro (⟨hi, hnot⟩ | rfl)
        · exact ⟨by omega, hnot⟩
        · exact ⟨by omega, hnew⟩
      · rintro ⟨hi, hnot⟩
        rcases lt_or_ge i s.sent.length with hold | hlast
        · exact .inl ⟨hold, hnot⟩
        · exact .inr (by omega)

/-- The chain of a request that was returned goes to the front of the free list. -/
theorem Table.reclaim {vq : Virtqueue} {sent : List VirtqRequest} {i : ℕ} {c : List ℕ}
    {req : VirtqRequest} (h : Table vq sent free flying) (hsize : vq.queueSize ≤ 2 ^ 15)
    (hmem : (i, c) ∈ flying) (hreq : sent[i]? = some req)
    (hused : vq.usedRing (vq.lastUsedIdx % vq.queueSize) = req.head) :
    ∃ tail, vq.reclaim = some (vq.giveBack req.head tail c.length) ∧
      Table (vq.giveBack req.head tail c.length) sent (c ++ free) (flying.erase (i, c)) := by
  obtain ⟨req', hreq', hchain⟩ := h.chain _ hmem
  obtain rfl : req = req' := Option.mem_unique hreq hreq'
  have hperm := perm_cons_erase hmem
  -- the chain, the free list and the other chains are apart
  have hparts : (c ++ (free ++ (flying.erase (i, c)).flatMap Prod.snd)).Perm
      (free ++ flying.flatMap Prod.snd) := by
    refine Perm.trans ?_ ((hperm.flatMap_right Prod.snd).symm.append_left free)
    rw [flatMap_cons, ← append_assoc, ← append_assoc]
    exact perm_append_comm.append_right _
  have hnodup := hparts.nodup_iff.mpr h.nodup
  obtain ⟨hc, -, hapart⟩ := nodup_append.mp hnodup
  have hlt : ∀ d ∈ c, d < vq.queueSize := fun d hd =>
    mem_range.mp (h.parts.subset (hparts.subset (mem_append_left _ hd)))
  have hlen : c.length + free.length ≤ vq.queueSize := by
    have heq := (hparts.trans h.parts).length_eq
    rw [length_append, length_append, length_range] at heq
    omega
  have hhead : req.head < 2 ^ 16 := by
    have := hlt req.head (mem_of_mem_head? hchain.head_eq)
    omega
  have hlast := getLast_mem hchain.ne_nil
  have hkeep : ∀ j ∉ c, nextOf (setNext vq.descTable (c.getLast hchain.ne_nil) vq.freeHead) j =
      nextOf vq.descTable j := by
    intro j hj
    have hne : j ≠ c.getLast hchain.ne_nil := fun heq => hj (heq ▸ hlast)
    rw [nextOf_setNext, update_of_ne hne]
  have hend := chainEnd_eq hchain.links hchain.holds hchain.ne_nil
    (by omega : c.length ≤ vq.queueSize) (by omega : 0 + c.length < 2 ^ 16)
  refine ⟨c.getLast hchain.ne_nil, ?_, ?_, ?_, ?_, fun f hf => ?_⟩
  · rw [Virtqueue.reclaim, hused, Nat.mod_eq_of_lt hhead, hend, zero_add]
    rfl
  · refine Links.append.mpr ⟨vq.freeHead, ?_, h.links.congr fun j hj => hkeep j fun hjc => ?_⟩
    · rw [giveBack, nextOf_setNext]
      exact hchain.links.update_getLast hc hchain.ne_nil vq.freeHead
    · exact hapart j hjc j (mem_append_left _ hj) rfl
  · rw [giveBack, h.numFree_eq, length_append, Nat.mod_eq_of_lt (by omega), add_comm]
  · rw [append_assoc]
    exact hparts.trans h.parts
  · have hf' := mem_of_mem_erase hf
    obtain ⟨req', hreq', hchain'⟩ := h.chain f hf'
    refine ⟨req', hreq', hchain'.congr (fun j hj => hkeep j fun hjc => ?_)
      fun j _ => congrFun (fieldsOf_setNext _ _ _) j⟩
    exact hapart j hjc j (mem_append_right _ (mem_flatMap.mpr ⟨f, hf, hj⟩)) rfl

section

variable (h : Inv s free flying)
include h

/-- Taking back the next request that was returned. -/
theorem Inv.reclaim (hlt : s.reclaimed < s.returned.length) :
    ∃ s' c flying', s.reclaim = some s' ∧ Inv s' (c ++ free) flying' ∧
      flying'.length + 1 = flying.length ∧ s'.reclaimed = s.reclaimed + 1 ∧ Later s s' := by
  have hget := getElem?_eq_getElem hlt
  generalize s.returned[s.reclaimed] = r at hget
  have htaken : (s.returned.take (s.reclaimed + 1)).map Prod.fst = s.taken ++ [r.1] := by
    rw [take_add_one, hget, map_append]
    rfl
  have hnodup := h.rings.returned_nodup.sublist ((take_sublist (s.reclaimed + 1) _).map _)
  rw [htaken] at hnodup
  have hnot : r.1 ∉ s.taken := fun hin =>
    (nodup_append.mp hnodup).2.2 _ hin _ (mem_singleton.mpr rfl) rfl
  have hr := h.rings.returned_lt r.1 (mem_map_of_mem (mem_of_getElem? hget))
  have hr' := hr.trans_le h.rings.fetched_le
  obtain ⟨⟨i, c⟩, hmem, hi⟩ := mem_map.mp ((h.mem_numbers r.1).mpr ⟨hr', hnot⟩)
  subst hi
  -- the entry of the used ring is the head of that request
  have hhead : s.vq.usedRing (s.vq.lastUsedIdx % s.vq.queueSize) = s.sent[r.1].head := by
    rw [h.rings.lastUsedIdx_eq, h.mod_mod]
    have hentry := h.rings.usedRing_eq _ _ hget le_rfl
    rw [prefix_iff_eq_take.mp h.rings.fetched_initial, getElem?_take_of_lt hr, heads,
      getElem?_map, getElem?_eq_getElem hr'] at hentry
    exact (Option.some.inj hentry).symm
  obtain ⟨tail, hreclaim, htable⟩ :=
    h.table.reclaim h.size_le hmem (getElem?_eq_getElem hr') hhead
  have hnumbers := (perm_cons_erase hmem).map Prod.fst
  have hnodup' := hnumbers.nodup_iff.mp h.numbers_nodup
  rw [map_cons, nodup_cons] at hnodup'
  refine ⟨{ s with
      vq := s.vq.giveBack s.sent[r.1].head tail c.length
      reclaimed := s.reclaimed + 1 }, c, flying.erase (r.1, c), ?_,
    ⟨h.size, htable, { h.rings with lastUsedIdx_eq := ?_, reclaimed_le := hlt, usedRing_eq := ?_ },
      hnodup'.2, fun j => ?_⟩, ?_, rfl, ⟨rfl, rfl, prefix_refl _⟩⟩
  · rw [VirtqLink.reclaim, hreclaim]
    rfl
  · change (s.vq.lastUsedIdx + 1) % 2 ^ 16 = (s.reclaimed + 1) % 2 ^ 16
    rw [h.rings.lastUsedIdx_eq, Nat.mod_add_mod]
  · exact fun j r hr hj => h.rings.usedRing_eq j r hr ((Nat.le_succ _).trans hj)
  · change _ ↔ _ ∧ j ∉ (s.returned.take (s.reclaimed + 1)).map Prod.fst
    rw [htaken, mem_append, mem_singleton, not_or]
    have hj := (hnumbers.mem_iff (a := j)).symm.trans (h.mem_numbers j)
    rw [map_cons, mem_cons] at hj
    constructor
    · intro hin
      obtain ⟨hjlt, hjnot⟩ := hj.mp (.inr hin)
      exact ⟨hjlt, hjnot, fun heq => hnodup'.1 (heq ▸ hin)⟩
    · rintro ⟨hjlt, hjnot, hne⟩
      exact (hj.mpr ⟨hjlt, hjnot⟩).resolve_left hne
  · rw [length_erase_of_mem hmem]
    have := length_pos_of_mem hmem
    omega

/-- The loop over the used ring ends with nothing left to be taken back. -/
theorem Inv.reclaimAll {fuel : ℕ} (turns : List (List Event)) (hfuel : flying.length < fuel) :
    ∃ s' free' flying', s.reclaimAll fuel turns = some s' ∧ Inv s' free' flying' ∧ Later s s' ∧
      s'.reclaimed = s'.returned.length := by
  induction fuel generalizing s free flying turns with
  | zero => exact absurd hfuel (Nat.not_lt_zero _)
  | succ fuel ih =>
    rw [VirtqLink.reclaimAll]
    split
    · rename_i hmore
      obtain ⟨s1, c, flying1, hreclaim, hinv1, hlen, hcount, hlater1⟩ :=
        h.reclaim (h.used_iff.mp hmore)
      obtain ⟨hlater2, -⟩ := later_events s1 (turns.headD [])
      obtain ⟨s', free', flying', hall, hinv', hlater', hdone⟩ :=
        ih (hinv1.events (turns.headD [])) turns.tail (by omega)
      refine ⟨s', free', flying', ?_, hinv', hlater1.trans (hlater2.trans hlater'), hdone⟩
      rw [hreclaim]
      exact hall
    · rename_i hmore
      have hnot := mt h.used_iff.mpr hmore
      exact ⟨s, free, flying, rfl, h, Later.refl s,
        le_antisymm h.rings.reclaimed_le (not_lt.mp hnot)⟩

/-- What `virtqueuePoll` does: it returns `0` when something was taken back, and gives up with what the
device has done in all the turns. -/
theorem Inv.poll (turns : List (List Event)) :
    ∃ ret s' free' flying', s.poll turns = some (ret, s') ∧ Inv s' free' flying' ∧ Later s s' ∧
      s'.reclaimed = s'.returned.length ∧
      (ret = 0 ∧ s.reclaimed < s'.reclaimed ∨ ret = -1 ∧ s' = s.events turns.flatten) := by
  -- a turn of the loop that finds the indices different is the last one
  have hfound : ∀ {s : VirtqLink} {free flying}, Inv s free flying → ∀ turns : List (List Event),
      s.vq.lastUsedIdx ≠ s.vq.usedIdx → ∃ s' free' flying',
        (s.reclaimAll (s.vq.queueSize + 1) turns).map (fun s => ((0 : ℤ), s)) = some (0, s') ∧
        Inv s' free' flying' ∧ Later s s' ∧ s'.reclaimed = s'.returned.length ∧
        s.reclaimed < s'.reclaimed := by
    intro s free flying h turns hmore
    have hle := h.table.flying_le
    have hlt := h.used_iff.mp hmore
    obtain ⟨s', free', flying', hall, hinv, hlater, hdone⟩ :=
      h.reclaimAll turns (by omega : flying.length < s.vq.queueSize + 1)
    refine ⟨s', free', flying', by rw [hall]; rfl, hinv, hlater, hdone, ?_⟩
    exact hlt.trans_le (hdone ▸ hlater.returned_initial.length_le)
  induction turns generalizing s with
  | nil =>
    rw [VirtqLink.poll]
    split
    · rename_i hmore
      obtain ⟨s', free', flying', hall, hinv, hlater, hdone, hlt⟩ := hfound h [] hmore
      exact ⟨0, s', free', flying', hall, hinv, hlater, hdone, .inl ⟨rfl, hlt⟩⟩
    · rename_i hmore
      have hnot := mt h.used_iff.mpr hmore
      exact ⟨-1, s, free, flying, rfl, h, Later.refl s,
        le_antisymm h.rings.reclaimed_le (not_lt.mp hnot), .inr ⟨rfl, rfl⟩⟩
  | cons turn turns ih =>
    rw [VirtqLink.poll]
    split
    · rename_i hmore
      obtain ⟨s', free', flying', hall, hinv, hlater, hdone, hlt⟩ := hfound h (turn :: turns) hmore
      exact ⟨0, s', free', flying', hall, hinv, hlater, hdone, .inl ⟨rfl, hlt⟩⟩
    · obtain ⟨hlater1, hcount⟩ := later_events s turn
      obtain ⟨ret, s', free', flying', hpoll, hinv, hlater, hdone, hret⟩ := ih (h.events turn)
      refine ⟨ret, s', free', flying', hpoll, hinv, hlater1.trans hlater, hdone, ?_⟩
      rw [hcount] at hret
      rw [flatten_cons, VirtqLink.events, foldl_append]
      exact hret

theorem Inv.step (op : Op) :
    ∃ s' free' flying', s.step op = some s' ∧ s'.vq.queueSize = s.vq.queueSize ∧
      Inv s' free' flying' := by
  cases op with
  | submit bufs =>
    obtain ⟨free', flying', hinv⟩ := h.submitSg bufs
    exact ⟨_, free', flying', rfl, size_submitSg s bufs, hinv⟩
  | poll turns =>
    obtain ⟨ret, s', free', flying', hpoll, hinv, hlater, -⟩ := h.poll turns
    refine ⟨s', free', flying', ?_, hlater.size_eq, hinv⟩
    rw [VirtqLink.step, hpoll]
    rfl
  | device es => exact ⟨_, free, flying, rfl, (later_events s es).1.size_eq, h.events es⟩

/-- Every run ends, in a state with the invariant. -/
theorem Inv.run (ops : List Op) :
    ∃ s' free' flying', s.run ops = some s' ∧ s'.vq.queueSize = s.vq.queueSize ∧
      Inv s' free' flying' := by
  induction ops generalizing s free flying with
  | nil => exact ⟨s, free, flying, rfl, rfl, h⟩
  | cons op ops ih =>
    obtain ⟨s1, free1, flying1, hstep, hsize, hinv⟩ := h.step op
    obtain ⟨s', free', flying', hrun, hsize', hinv'⟩ := ih hinv
    refine ⟨s', free', flying', ?_, hsize'.trans hsize, hinv'⟩
    rw [VirtqLink.run, foldlM_cons, hstep]
    exact hrun

end

end Inv

/-- What the driver and the device rely on, for a free list and the numbers and chains in flight. -/
structure Consistent (s : VirtqLink) (free : List ℕ) (flying : List (ℕ × List ℕ)) : Prop where
  /-- The free list starts at `freeHead`, has no cycle and `numFree` members. -/
  free_links : Links (nextOf s.vq.descTable) s.vq.freeHead free noDesc
  free_nodup : free.Nodup
  free_length : free.length = s.vq.numFree
  /-- Every request that was not taken back is in flight, once, with a chain that holds its buffers. -/
  numbers_nodup : (flying.map Prod.fst).Nodup
  mem_numbers : ∀ i, i ∈ flying.map Prod.fst ↔ i < s.sent.length ∧ i ∉ s.taken
  chain : ∀ f ∈ flying, ∃ req, s.sent[f.1]? = some req ∧ Chain s.vq.descTable req f.2
  /-- The chains share no descriptor with each other or with the free list. -/
  flying_disjoint : flying.Pairwise fun f g => f.2.Disjoint g.2
  free_disjoint : ∀ f ∈ flying, free.Disjoint f.2
  /-- Every descriptor occurs once. -/
  parts : (free ++ flying.flatMap Prod.snd).Perm (range s.vq.queueSize)
  refused_iff : ∀ bufs, bufs ≠ [] → ((s.submitSg bufs).1 = -1 ↔ s.vq.numFree < bufs.length)
  /-- The device has read the heads in order and finds the others behind them. -/
  fetched_initial : s.fetched <+: s.heads
  availIdx_eq : s.vq.availIdx = s.heads.length % 2 ^ 16
  unread : ∀ i req, s.sent[i]? = some req → s.fetched.length ≤ i →
    s.vq.availRing (i % 2 ^ 16 % s.vq.queueSize) = req.head

theorem Inv.consistent {s : VirtqLink} {free : List ℕ} {flying : List (ℕ × List ℕ)}
    (h : Inv s free flying) : Consistent s free flying where
  free_links := h.table.links
  free_nodup := h.table.nodup.of_append_left
  free_length := h.table.numFree_eq.symm
  numbers_nodup := h.numbers_nodup
  mem_numbers := h.mem_numbers
  chain := h.table.chain
  flying_disjoint := (nodup_flatMap.mp h.table.nodup.of_append_right).2
  free_disjoint := fun f hf d hd hd' =>
    disjoint_of_nodup_append h.table.nodup hd (mem_flatMap.mpr ⟨f, hf, hd'⟩)
  parts := h.table.parts
  refused_iff := fun bufs hbufs => h.refused_iff hbufs
  fetched_initial := h.rings.fetched_initial
  availIdx_eq := by
    rw [heads, length_map]
    exact h.rings.availIdx_eq
  unread := fun i req hreq hi => by
    have hle := h.sent_le
    rw [h.mod_mod]
    exact h.rings.availRing_eq i req hreq (by omega)

/-- Whatever the driver submits and polls and the device does, every loop ends and the descriptors are
those of the free list and of the chains in flight. -/
theorem run_consistent {k : ℕ} (hk : k ≤ 15) (ops : List Op) :
    ∃ s free flying, (create (2 ^ k)).run ops = some s ∧ s.vq.queueSize = 2 ^ k ∧
      Consistent s free flying := by
  obtain ⟨s, free, flying, hrun, hsize, hinv⟩ := (inv_create hk).run ops
  exact ⟨s, free, flying, hrun, hsize, hinv.consistent⟩

theorem run_consistent_two :
    1 ≤ 15 ∧ ∃ s free flying, (create (2 ^ 1)).run
        [.submit [⟨0x1000, 24, false⟩], .submit [⟨0x2000, 24, true⟩],
          .poll [[.fetch, .fetch], [.finish 1 0x1100]]] = some s ∧
      s.vq.queueSize = 2 ^ 1 ∧ Consistent s free flying :=
  ⟨by decide, run_consistent (by decide) _⟩

end VirtqLink

end NovaOS.Drivers
