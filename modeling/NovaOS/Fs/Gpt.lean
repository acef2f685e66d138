import NovaOS.Fs.Fat32

/-!
# The partition table

Reference: `kernel/krdrivers/fs/gpt.c`.

`gpt_parse` reads the header and the entry array of a disk into two temporary buffers, checks both
and copies the entries in use to a list. A run is written from its end: each step puts what it does
in front of the rest of the run, so the trace is in program order.
-/

namespace NovaOS.Fs

open NovaOS.Lib List

/-- The temporary buffers of `gpt_parse`. -/
inductive GptBuffer where
  | headerBuf
  | entriesBuf
deriving DecidableEq

/-- What is done with a buffer. A transfer to it and a read of it are accesses. -/
inductive GptEvent where
  | kmalloc (b : GptBuffer)
  | access (b : GptBuffer) (offset length : ℕ)
  | kfree (b : GptBuffer)
deriving DecidableEq

/-- `crc32`. -/
def crc32 (buf : ℕ → UInt8) (length : ℕ) : BitVec 32 :=
  ~~~(range length).foldl (fun crc i =>
    (fun c : BitVec 32 => (c >>> 1) ^^^ (0xEDB88320 &&& -(c &&& 1)))^[8]
      (crc ^^^ (buf i).toBitVec.zeroExtend 32)) 0xFFFFFFFF

/-- The `GptGuid` at an offset. -/
def guidAt (b : ℕ → UInt8) (o : ℕ) : List UInt8 := (range 16).map fun i => b (o + i)

/-- `g_guid_zero`. -/
def guidZero : List UInt8 := replicate 16 0

/-- `utf16le_to_ascii` from unit `i` on: the characters before the terminating zero. -/
def utf16leToAscii (src : ℕ → UInt8) : (left i : ℕ) → List UInt8
  | 0, _ => []
  | left + 1, i =>
    let ch := le16 src (2 * i)
    if ch = 0 then []
    else (if ch < 0x80 then .ofNat ch else 0x3F) :: utf16leToAscii src left (i + 1)

/-- `GptPartition` with the fields that a mount does not read. -/
structure GptEntry extends GptPartition where
  typeGuid : List UInt8
  uniqueGuid : List UInt8
  attributes : ℕ
  name : List UInt8

/-- The partition that is filled in from a raw entry. -/
def GptEntry.ofRaw (raw : ℕ → UInt8) : GptEntry where
  startingLba := le64 raw 32
  endingLba := le64 raw 40
  startingLba_lt := le64_lt raw 32
  endingLba_lt := le64_lt raw 40
  typeGuid := guidAt raw 0
  uniqueGuid := guidAt raw 16
  attributes := le64 raw 48
  name := utf16leToAscii (fun j => raw (56 + j)) 36 0

/-- `GptTable`. -/
structure GptTable where
  partitions : List GptEntry
  partitionCount : ℕ
  blockSize : ℕ
  firstUsableLba : ℕ
  lastUsableLba : ℕ
  diskGuid : List UInt8

/-- A run: what it returns, what it leaves in `*table` and what it did with the buffers. -/
structure GptRun where
  status : ℤ
  table : Option GptTable
  trace : List GptEvent

/-- The namespace, with the answers of `nvme_read` and `kmalloc`. A block size of zero stands for a
namespace that was not found, too. -/
structure GptDisk where
  blockSize : ℕ
  /-- The bytes from a block on. -/
  block : ℕ → ℕ → UInt8
  readOk : (lba count : ℕ) → Bool
  memOk : GptBuffer → Bool
  listOk : Bool

namespace GptDisk

variable (d : GptDisk)

def header : ℕ → UInt8 := d.block 1
def headerSize : ℕ := le32 d.header 12
def entriesLba : ℕ := le64 d.header 72
def numEntries : ℕ := le32 d.header 80
def entrySize : ℕ := le32 d.header 84
def entries : ℕ → UInt8 := d.block d.entriesLba
def totalEntryBytes : ℕ := d.numEntries * d.entrySize
def entryBlocks : ℕ := wrap32 ((d.totalEntryBytes + d.blockSize - 1) / d.blockSize)

/-- The CRC of the header, with its own field taken as zero. -/
def headerCrc : BitVec 32 :=
  crc32 (fun i => if 16 ≤ i ∧ i < 20 then 0 else d.header i) d.headerSize

/-- What `kmalloc` is asked for. -/
def size : GptBuffer → ℕ
  | .headerBuf => d.blockSize
  | .entriesBuf => wrap32 (d.entryBlocks * d.blockSize)

/-- `entries_buf + (i * entry_size)`. -/
def offset (i : ℕ) : ℕ := wrap32 (i * d.entrySize)

/-- The raw entry at an offset. -/
def rawAt (o : ℕ) : ℕ → UInt8 := fun j => d.entries (o + j)

/-- The table that is filled in. -/
def table (partitions : List GptEntry) (partitionCount : ℕ) : GptTable :=
  ⟨partitions, partitionCount, d.blockSize, le64 d.header 40, le64 d.header 48, guidAt d.header 56⟩

end GptDisk

namespace GptRun

/-- An event before the rest of the run. -/
def log (e : GptEvent) (rest : GptRun) : GptRun := { rest with trace := e :: rest.trace }

/-- `if (!c) { kfree(..); return -1; }`. -/
def require (held : List GptBuffer) (c : Prop) [Decidable c] (rest : GptRun) : GptRun :=
  if c then rest else ⟨-1, none, held.map .kfree⟩

/-- A write to `*table`, unless the rest of the run writes there again. -/
def store (table : GptTable) (rest : GptRun) : GptRun :=
  { rest with table := rest.table <|> some table }

/-- A loop over the entries that reads `n` bytes of each. -/
def entriesLoop {α : Type} (d : GptDisk) (n : ℕ) (body : α → (ℕ → UInt8) → α) (rest : α → GptRun) :
    (left i : ℕ) → α → GptRun
  | 0, _, acc => rest acc
  | left + 1, i, acc => log (.access .entriesBuf (d.offset i) n)
      (entriesLoop d n body rest left (i + 1) (body acc (d.rawAt (d.offset i))))

end GptRun

open GptBuffer GptRun

/-- `gpt_parse`, from the counting loop on. -/
def GptDisk.copyEntries (d : GptDisk) : GptRun :=
  let done : GptRun := ⟨0, none, [.kfree entriesBuf, .kfree headerBuf]⟩
  entriesLoop d 16 (fun n raw => if guidAt raw 0 != guidZero then n + 1 else n) (fun validCount =>
    log (.access headerBuf 40 32) <| store (d.table [] 0) <|
    if validCount > 0 then
      require [entriesBuf, headerBuf] d.listOk <|
      entriesLoop d 128 (fun out raw => if guidAt raw 0 != guidZero then out ++ [.ofRaw raw] else out)
        (fun out => store (d.table out validCount) done) d.numEntries 0 []
    else done) d.numEntries 0 0

/-- `gpt_parse`, from the read of the entry array on. -/
def GptDisk.readEntries (d : GptDisk) : GptRun :=
  log (.access entriesBuf 0 (d.entryBlocks * d.blockSize)) <|
  require [entriesBuf, headerBuf] (d.readOk d.entriesLba d.entryBlocks) <|
  log (.access entriesBuf 0 d.totalEntryBytes) <|
  require [entriesBuf, headerBuf] (le32 d.header 88 = (crc32 d.entries d.totalEntryBytes).toNat)
  d.copyEntries

/-- `gpt_parse`. -/
def gptParse (d : GptDisk) : GptRun :=
  require [] (d.blockSize ≠ 0) <|
  require [] (d.memOk headerBuf) <| log (.kmalloc headerBuf) <|
  log (.access headerBuf 0 d.blockSize) <| require [headerBuf] (d.readOk 1 1) <|
  log (.access headerBuf 0 8) <| require [headerBuf] (le64 d.header 0 = 0x5452415020494645) <|
  log (.access headerBuf 12 4) <|
  require [headerBuf] (92 ≤ d.headerSize ∧ d.headerSize ≤ d.blockSize) <|
  log (.access headerBuf 0 d.headerSize) <|
  require [headerBuf] (le32 d.header 16 = d.headerCrc.toNat) <|
  log (.access headerBuf 72 20) <| require [headerBuf] (128 ≤ d.entrySize ∧ d.numEntries ≠ 0) <|
  require [headerBuf] (d.memOk entriesBuf) <| log (.kmalloc entriesBuf) d.readEntries

/-- The header is read and passes its checks, and there is memory for both buffers. -/
structure GptDisk.HeaderOk (d : GptDisk) : Prop where
  found : d.blockSize ≠ 0
  mem : ∀ b, d.memOk b
  read : d.readOk 1 1
  signature : le64 d.header 0 = 0x5452415020494645
  headerSize : 92 ≤ d.headerSize ∧ d.headerSize ≤ d.blockSize
  headerCrc : le32 d.header 16 = d.headerCrc.toNat
  params : 128 ≤ d.entrySize ∧ d.numEntries ≠ 0

/-- So is the entry array, and there is memory for the list. -/
structure GptDisk.Accepted (d : GptDisk) : Prop extends d.HeaderOk where
  readArray : d.readOk d.entriesLba d.entryBlocks
  entriesCrc : le32 d.header 88 = (crc32 d.entries d.totalEntryBytes).toNat
  list : d.listOk

/-- The number of blocks of the entry array, before it is cut to 32 bits. -/
def GptDisk.arrayBlocks (d : GptDisk) : ℕ := (d.totalEntryBytes + d.blockSize - 1) / d.blockSize

/-- A block holds what is read of the header before its size is checked, and for a header that passes
its checks the size of the buffer does not wrap; where the entry array can be read, nor does its number
of blocks. -/
def GptDisk.Fits (d : GptDisk) : Prop :=
  (d.blockSize ≠ 0 → d.memOk .headerBuf → d.readOk 1 1 →
    8 ≤ d.blockSize ∧ (le64 d.header 0 = 0x5452415020494645 → 16 ≤ d.blockSize)) ∧
  (d.HeaderOk → wrap32 d.arrayBlocks * d.blockSize < 2 ^ 32 ∧
    (d.readOk d.entriesLba (wrap32 d.arrayBlocks) → d.arrayBlocks < 2 ^ 32))

/-- The entries whose type is not zero. -/
def GptDisk.inUse (d : GptDisk) : List (ℕ → UInt8) :=
  ((range d.numEntries).map fun i => d.rawAt (i * d.entrySize)).filter fun raw =>
    guidAt raw 0 != guidZero

variable {d : GptDisk}

/-! ## The buffers -/

/-- Every access lies in its buffer. -/
def GptRun.Inside (d : GptDisk) (r : GptRun) : Prop :=
  ∀ b o n, .access b o n ∈ r.trace → o + n ≤ d.size b

/-- The rest of a run that holds the buffers `held` frees them and what it allocates. -/
structure GptRun.Frees (held : List GptBuffer) (r : GptRun) : Prop where
  freed : ∀ b, r.trace.count (.kfree b) = held.count b + r.trace.count (.kmalloc b)
  once : ∀ b, r.trace.count (.kfree b) ≤ 1

section Steps

variable {held : List GptBuffer} {b : GptBuffer} {o n : ℕ} {r : GptRun}

theorem GptRun.inside_access : Inside d (log (.access b o n) r) ↔ o + n ≤ d.size b ∧ Inside d r := by
  refine ⟨fun h => ⟨h b o n (.head _), fun b' o' n' hm => h b' o' n' (.tail _ hm)⟩, ?_⟩
  rintro ⟨hb, hr⟩ b' o' n' hm
  rcases mem_cons.mp hm with heq | hm
  · cases heq
    exact hb
  · exact hr b' o' n' hm

theorem GptRun.inside_kmalloc : Inside d (log (.kmalloc b) r) ↔ Inside d r := by
  simp [Inside, log]

theorem GptRun.inside_require {c : Prop} [Decidable c] :
    Inside d (require held c r) ↔ (c → Inside d r) := by
  unfold GptRun.require
  split <;> simp [Inside, *]

theorem GptRun.inside_entriesLoop {α : Type} {body : α → (ℕ → UInt8) → α} {rest : α → GptRun}
    (hn : ∀ i < d.numEntries, d.offset i + n ≤ d.size entriesBuf) (h : ∀ acc, Inside d (rest acc))
    {left i : ℕ} (hi : i + left ≤ d.numEntries) (acc : α) :
    Inside d (entriesLoop d n body rest left i acc) := by
  induction left generalizing i acc with
  | zero => exact h acc
  | succ left ih => exact inside_access.mpr ⟨hn i (by omega), ih (by omega) _⟩

theorem GptRun.Frees.access (h : Frees held r) : Frees held (log (.access b o n) r) :=
  ⟨fun b' => by simpa [log] using h.freed b', fun b' => by simpa [log] using h.once b'⟩

theorem GptRun.Frees.kmalloc (h : Frees (b :: held) r) : Frees held (log (.kmalloc b) r) where
  freed b' := by
    have hfreed := h.freed b'
    simp only [log, count_cons] at hfreed ⊢
    grind
  once b' := by simpa [log] using h.once b'

theorem GptRun.Frees.require {c : Prop} [Decidable c] (hn : held.Nodup) (h : Frees held r) :
    Frees held (require held c r) := by
  unfold GptRun.require
  split
  · exact h
  · have hk : ∀ b, (held.map GptEvent.kfree).count (.kfree b) = held.count b := fun b =>
      count_map_of_injective _ _ (fun _ _ => GptEvent.kfree.inj) _
    refine ⟨fun b => by simp [hk, count_eq_zero], fun b => ?_⟩
    rw [hk]
    exact nodup_iff_count_le_one.mp hn b

theorem GptRun.Frees.entriesLoop {α : Type} {body : α → (ℕ → UInt8) → α} {rest : α → GptRun}
    (h : ∀ acc, Frees held (rest acc)) (left i : ℕ) (acc : α) :
    Frees held (entriesLoop d n body rest left i acc) := by
  induction left generalizing i acc with
  | zero => exact h acc
  | succ left ih => exact .access (ih (i + 1) _)

end Steps

theorem gptParse_frees (d : GptDisk) : Frees [] (gptParse d) := by
  have hdone : Frees [entriesBuf, headerBuf] ⟨0, none, [.kfree entriesBuf, .kfree headerBuf]⟩ :=
    ⟨fun b => by cases b <;> rfl, fun b => by cases b <;> decide⟩
  have hstore : ∀ {t r}, Frees [entriesBuf, headerBuf] r → Frees [entriesBuf, headerBuf] (store t r) :=
    fun h => ⟨h.freed, h.once⟩
  refine .require (by decide) <| .require (by decide) <| .kmalloc <| .access <| .require (by decide) <|
    .access <| .require (by decide) <| .access <| .require (by decide) <| .access <|
    .require (by decide) <| .access <| .require (by decide) <| .require (by decide) <| .kmalloc <|
    .access <| .require (by decide) <| .access <| .require (by decide) <|
    .entriesLoop (fun count => .access (hstore ?_)) _ _ _
  split
  · exact .require (by decide) <| .entriesLoop (fun _ => hstore hdone) _ _ _
  · exact hdone

/-- The offset of an entry where the entry array does not wrap. -/
theorem GptDisk.offset_eq (hlt : d.totalEntryBytes < 2 ^ 32) {i : ℕ} (hi : i < d.numEntries) :
    d.offset i = i * d.entrySize ∧ d.offset i + d.entrySize ≤ d.totalEntryBytes := by
  have hmul : (i + 1) * d.entrySize ≤ d.totalEntryBytes := Nat.mul_le_mul_right _ hi
  rw [add_mul, one_mul] at hmul
  have heq : d.offset i = i * d.entrySize := wrap32_of_lt (by omega)
  exact ⟨heq, heq ▸ hmul⟩

theorem GptDisk.totalEntryBytes_le (hb : d.blockSize ≠ 0) :
    d.totalEntryBytes ≤ d.arrayBlocks * d.blockSize ∧
      d.arrayBlocks * d.blockSize < d.totalEntryBytes + d.blockSize := by
  have hle := Nat.div_mul_le_self (d.totalEntryBytes + d.blockSize - 1) d.blockSize
  have hlt := Nat.lt_div_mul_add (a := d.totalEntryBytes + d.blockSize - 1) (b := d.blockSize)
    (Nat.pos_of_ne_zero hb)
  rw [arrayBlocks]
  omega

/-- Past the read of an entry array that does not wrap, every access lies in its buffer. -/
theorem GptDisk.copyEntries_inside (hb : 92 ≤ d.blockSize) (he : 128 ≤ d.entrySize)
    (hlt : d.totalEntryBytes < 2 ^ 32) (hle : d.totalEntryBytes ≤ d.size entriesBuf) :
    Inside d d.copyEntries := by
  have hentry (n : ℕ) (hn : n ≤ 128) (i : ℕ) (hi : i < d.numEntries) :
      d.offset i + n ≤ d.size entriesBuf := by
    have hoff := (offset_eq hlt hi).2
    omega
  have hdone : Inside d ⟨0, none, [.kfree entriesBuf, .kfree headerBuf]⟩ := by simp [Inside]
  refine inside_entriesLoop (hentry 16 (by decide)) (fun count => ?_) (by omega) _
  refine inside_access.mpr ⟨le_trans (by decide) hb, show Inside d (ite _ _ _) from ?_⟩
  split
  · refine inside_require.mpr fun _ => inside_entriesLoop (hentry 128 le_rfl) (fun _ => ?_) (zero_add _).le _
    exact hdone
  · exact hdone

theorem GptDisk.readEntries_inside (hb : 92 ≤ d.blockSize) (he : 128 ≤ d.entrySize) :
    Inside d d.readEntries ↔ wrap32 d.arrayBlocks * d.blockSize < 2 ^ 32 ∧
      (d.readOk d.entriesLba (wrap32 d.arrayBlocks) → d.arrayBlocks < 2 ^ 32) := by
  obtain ⟨hle, hlt⟩ := d.totalEntryBytes_le (by omega)
  have hsize : d.size entriesBuf = wrap32 (wrap32 d.arrayBlocks * d.blockSize) := rfl
  simp only [readEntries, inside_access, inside_require, zero_add]
  change wrap32 d.arrayBlocks * d.blockSize ≤ _ ∧ (d.readOk _ (wrap32 d.arrayBlocks) → _) ↔ _
  constructor
  · rintro ⟨hread, hcrc⟩
    have hwrap : d.size entriesBuf < 2 ^ 32 := hsize ▸ Nat.mod_lt _ (by decide)
    refine ⟨hread.trans_lt hwrap, fun hok => ?_⟩
    -- an entry array of `2 ^ 32` blocks is longer than any buffer
    by_contra hge
    have hmul := Nat.mul_le_mul_right d.blockSize (Nat.le_of_not_lt hge)
    have hbytes := (hcrc hok).1
    omega
  · rintro ⟨hprod, hread⟩
    rw [wrap32_of_lt hprod] at hsize
    refine ⟨hsize.ge, fun hok => ?_⟩
    rw [wrap32_of_lt (hread hok)] at hsize hprod
    exact ⟨by omega, fun _ => copyEntries_inside hb he (by omega) (by omega)⟩

/-- The accesses of a run lie in their buffers if and only if no block is too short and no size wraps. -/
theorem gptParse_inside_iff (d : GptDisk) :
    (∀ b o n, .access b o n ∈ (gptParse d).trace → o + n ≤ d.size b) ↔ d.Fits := by
  change Inside d (gptParse d) ↔ _
  simp only [gptParse, inside_require, inside_access, inside_kmalloc]
  constructor
  · intro h
    refine ⟨fun hfound hmem hread => ?_, fun hok => ?_⟩
    · obtain ⟨-, h⟩ := h hfound hmem
      obtain ⟨hsig, h⟩ := h hread
      exact ⟨hsig, fun hs => (h hs).1⟩
    · have := ((((((h hok.found (hok.mem _)).2 hok.read).2 hok.signature).2 hok.headerSize).2
        hok.headerCrc).2 hok.params) (hok.mem _)
      exact (d.readEntries_inside (hok.headerSize.1.trans hok.headerSize.2) hok.params.1).mp this
  · rintro ⟨hshort, harray⟩ hfound hmem
    refine ⟨(zero_add _).le, fun hread => ?_⟩
    obtain ⟨hsig, hsize⟩ := hshort hfound hmem hread
    refine ⟨hsig, fun hs => ⟨hsize hs, fun hh => ⟨(zero_add _).trans_le hh.2, fun hcrc =>
      ⟨hh.1.trans hh.2, fun hp hmem' => ?_⟩⟩⟩⟩
    refine (d.readEntries_inside (hh.1.trans hh.2) hp.1).mpr (harray ⟨hfound, ?_, hread, hs, hh, hcrc, hp⟩)
    rintro (_ | _)
    · exact hmem
    · exact hmem'

/-- Past the header, the run is that of the entry array. -/
theorem GptDisk.HeaderOk.gptParse_eq (h : d.HeaderOk) :
    ∃ t, gptParse d = { d.readEntries with trace := t ++ d.readEntries.trace } := by
  simp only [gptParse, require, if_pos h.found, if_pos (h.mem _), if_pos h.read,
    if_pos h.signature, if_pos h.headerSize, if_pos h.headerCrc, if_pos h.params]
  exact ⟨[_, _, _, _, _, _, _], rfl⟩

/-- A disk with blocks of 512 bytes and entries of 128 bytes, every other of which is in use. -/
def sampleDisk (num headerCrc entriesCrc : ℕ) : GptDisk where
  blockSize := 512
  block lba i := if lba = 1 then
      (toLe 8 0x5452415020494645 ++ toLe 4 0x10000 ++ toLe 4 92 ++ toLe 4 headerCrc ++
        replicate 52 0 ++ toLe 8 2 ++ toLe 4 num ++ toLe 4 128 ++ toLe 4 entriesCrc).getD i 0
    else if i % 256 = 0 then 1 else 0
  readOk _ _ := true
  memOk _ := true
  listOk := true

/-- One with three entries. -/
def smallDisk : GptDisk := sampleDisk 3 3734416413 2543912837

/-- For `2 ^ 25 + 1` entries 512 bytes are allocated, and `nvme_read` fills 4 GiB more. -/
theorem gptParse_outside : let d := sampleDisk (2 ^ 25 + 1) 451199431 0
    .access entriesBuf 0 (2 ^ 32 + 512) ∈ (gptParse d).trace ∧ d.size entriesBuf = 512 := by
  intro d
  have hok : d.HeaderOk := ⟨by decide, fun _ => rfl, rfl, by decide +kernel, by decide +kernel,
    by decide +kernel, by decide +kernel⟩
  have hb : d.entryBlocks * d.blockSize = 2 ^ 32 + 512 := by decide +kernel
  obtain ⟨t, ht⟩ := hok.gptParse_eq
  rw [ht, ← hb]
  exact ⟨mem_append_right t (.head _), by decide +kernel⟩

/-! ## The partitions -/

theorem entriesLoop_result {α : Type} {n : ℕ} {body : α → (ℕ → UInt8) → α} {rest : α → GptRun}
    (left i : ℕ) (acc : α) :
    let r := rest (((range' i left).map fun i => d.rawAt (d.offset i)).foldl body acc)
    (entriesLoop d n body rest left i acc).status = r.status ∧
      (entriesLoop d n body rest left i acc).table = r.table := by
  induction left generalizing i acc with
  | zero => exact ⟨rfl, rfl⟩
  | succ left ih => exact ih (i + 1) _

theorem utf16leToAscii_eq (src : ℕ → UInt8) (left i : ℕ) : utf16leToAscii src left i =
    (((range' i left).map fun j => le16 src (2 * j)).takeWhile (· ≠ 0)).map fun ch =>
      if ch < 0x80 then .ofNat ch else 0x3F := by
  induction left generalizing i with
  | zero => rfl
  | succ left ih =>
    rw [utf16leToAscii, range'_succ, map_cons, takeWhile_cons]
    by_cases hch : le16 src (2 * i) = 0 <;> simp [hch, ih]

theorem GptDisk.copyEntries_result (h : d.totalEntryBytes < 2 ^ 32) (hl : d.listOk) : d.copyEntries.status = 0 ∧
    d.copyEntries.table = some (d.table (d.inUse.map .ofRaw) d.inUse.length) := by
  have hraw : (range' 0 d.numEntries).map (fun i => d.rawAt (d.offset i)) =
      (range d.numEntries).map fun i => d.rawAt (i * d.entrySize) := by
    rw [← range_eq_range']
    exact map_congr_left fun i hi => by rw [(offset_eq h (mem_range.mp hi)).1]
  unfold GptDisk.copyEntries
  rw [(entriesLoop_result _ _ _).1, (entriesLoop_result _ _ _).2, ← foldl_filter, hraw,
    ← GptDisk.inUse, foldl_add_const, zero_add, one_mul]
  simp only [log, store]
  split
  · rw [require, if_pos hl, (entriesLoop_result _ _ _).1, (entriesLoop_result _ _ _).2,
      ← foldl_filter, hraw, ← GptDisk.inUse, foldl_append_eq_append, nil_append,
      ← flatMap_def, ← map_eq_flatMap]
    exact ⟨rfl, rfl⟩
  · rw [eq_nil_of_length_eq_zero (l := d.inUse) (by omega)]
    exact ⟨rfl, rfl⟩

/-- An accepted disk gives its entries in use, and every run frees what it has allocated. -/
theorem gptParse_partitions (d : GptDisk) :
    (d.Accepted → d.numEntries * d.entrySize + d.blockSize < 2 ^ 32 →
      (gptParse d).status = 0 ∧
        (gptParse d).table = some (d.table (d.inUse.map .ofRaw) d.inUse.length)) ∧
      (∀ raw, (GptEntry.ofRaw raw).sectorCount =
          (if le64 raw 32 ≤ le64 raw 40 then wrap64 (le64 raw 40 - le64 raw 32 + 1) else 0) ∧
        (GptEntry.ofRaw raw).name =
          (((range 36).map fun j => le16 raw (56 + 2 * j)).takeWhile (· ≠ 0)).map fun ch =>
            if ch < 0x80 then .ofNat ch else 0x3F) ∧
      ∀ b, (gptParse d).trace.count (.kfree b) = (gptParse d).trace.count (.kmalloc b) ∧
        (gptParse d).trace.count (.kfree b) ≤ 1 := by
  have hfrees := gptParse_frees d
  refine ⟨fun h hfits => ?_, fun raw => ⟨rfl, ?_⟩, fun b => ⟨?_, hfrees.once b⟩⟩
  · obtain ⟨t, ht⟩ := h.gptParse_eq
    have hres := d.copyEntries_result (Nat.lt_of_le_of_lt (Nat.le_add_right _ _) hfits) h.list
    simp only [ht, GptDisk.readEntries, require, if_pos h.readArray, if_pos h.entriesCrc]
    exact hres
  · rw [range_eq_range']
    exact utf16leToAscii_eq _ 36 0
  · simpa using hfrees.freed b

theorem gptParse_partitions_sample : smallDisk.Accepted ∧ (gptParse smallDisk).status = 0 ∧
    (gptParse smallDisk).table = some (smallDisk.table (smallDisk.inUse.map .ofRaw) 2) := by
  have hok : smallDisk.Accepted := ⟨⟨by decide, fun _ => rfl, rfl, by decide +kernel,
    by decide +kernel, by decide +kernel, by decide +kernel⟩, rfl, by decide +kernel, rfl⟩
  have huse : smallDisk.inUse.length = 2 := by decide +kernel
  obtain ⟨hstatus, htable⟩ := (gptParse_partitions smallDisk).1 hok (by decide +kernel)
  exact ⟨hok, hstatus, huse ▸ htable⟩

end NovaOS.Fs
