import NovaOS.Drivers.Nvme
import NovaOS.Lib.Bytes

/-!
# The FAT32 driver

Reference: `kernel/krdrivers/fs/fat32/fat32.c`, `kernel/krdrivers/fs/gpt.c`.

The state holds the mounted volume with its one-sector FAT cache, the namespaces of the controller
with their blocks, and what the environment decides: `answers` is consumed by `nvme_read`, where
`some bytes` makes the call fail after it has transferred those bytes, and `kmallocDenials` by
`kmalloc`. A read beyond the last block of the namespace fails. `stale` is the heap memory nobody
has written: it is what a fresh allocation holds and what lies behind the boot sector buffer.
`failures` counts the reads and allocations that failed, and `reads` records the transfers, newest
first, with the room of the buffer each was given. `kfree` leaves no trace in the model.
-/

namespace NovaOS.Fs

open NovaOS.Lib Fallible List
open NovaOS.Drivers (NvmeNamespace)

/-! ## The device -/

/-- A transfer of `nvme_read`: its blocks, its size in bytes and the room of the destination. -/
structure NvmeRead where
  lba : ℕ
  count : ℕ
  bytes : ℕ
  room : ℕ
deriving DecidableEq

/-- `GptPartition`, as `gpt_parse` fills it in. -/
structure GptPartition where
  startingLba : ℕ
  endingLba : ℕ
  startingLba_lt : startingLba < 2 ^ 64
  endingLba_lt : endingLba < 2 ^ 64

/-- `sector_count`. -/
def GptPartition.sectorCount (p : GptPartition) : ℕ :=
  if p.endingLba ≥ p.startingLba then wrap64 (p.endingLba - p.startingLba + 1) else 0

/-- `Fat32Volume`. -/
structure Fat32Volume where
  nsid : ℕ
  partitionStartLba : ℕ
  partitionSectorCount : ℕ
  bytesPerSector : ℕ
  sectorsPerCluster : ℕ
  reservedSectorCount : ℕ
  numFats : ℕ
  totalSectors : ℕ
  fatSize : ℕ
  rootCluster : ℕ
  fsInfoSector : ℕ
  fatStartLba : ℕ
  dataStartLba : ℕ
  totalClusters : ℕ
  bytesPerCluster : ℕ
  fatCache : List UInt8
  fatCacheLba : ℕ
  volumeLabel : List UInt8
  oemName : List UInt8

/-- The driver and the device behind it. -/
structure Fat where
  namespaces : List NvmeNamespace
  volume : Fat32Volume
  answers : List (Option (List UInt8))
  kmallocDenials : List Bool
  stale : ℕ → UInt8
  failures : ℕ
  reads : List NvmeRead

namespace Fat

/-- The namespace with the given identifier. -/
def namespace? (s : Fat) (nsid : ℕ) : Option NvmeNamespace :=
  s.namespaces.find? fun ns => ns.nsid = nsid

/-- One more failure. -/
def failed (s : Fat) : Fat := { s with failures := s.failures + 1 }

/-- `kmalloc(size)`. -/
def kmalloc (size : ℕ) : Fallible Fat (List UInt8) := fun s =>
  if s.kmallocDenials.head? = some true then
    (none, { s with kmallocDenials := s.kmallocDenials.tail }.failed)
  else
    (some ((range size).map s.stale), { s with kmallocDenials := s.kmallocDenials.tail })

/-- `nvme_read(ctrl, nsid, lba, count, buf)`: whether it returned `0`, and the buffer after it. -/
def nvmeRead (nsid lba count : ℕ) (buf : List UInt8) : Fallible Fat (Bool × List UInt8) := fun s =>
  match s.namespace? nsid with
  | none => (some (false, buf), s.failed)
  | some ns =>
    if count = 0 ∨ ns.blockSize = 0 then (some (false, buf), s.failed)
    else
      let bytes := count * ns.blockSize
      let t := { s with
        answers := s.answers.tail
        reads := ⟨lba, count, bytes, buf.length⟩ :: s.reads }
      match s.answers.head?.join with
      | some part => (some (false, fill buf (part.take bytes)), t.failed)
      | none =>
        if ns.blockCount < lba + count then (some (false, buf), t.failed)
        else (some (true, fill buf (ns.contents lba count)), t)

/-- The two cache fields of the volume written. -/
def withCache (s : Fat) (cache : List UInt8) (lba : ℕ) : Fat :=
  { s with volume := { s.volume with fatCache := cache, fatCacheLba := lba } }

end Fat

open Fat

/-! ## Clusters -/

/-- `FAT32_CLUSTER_BAD`. -/
def fat32ClusterBad : ℕ := 0x0FFFFFF7

/-- `FAT32_CLUSTER_EOC`. -/
def fat32ClusterEoc : ℕ := 0x0FFFFFF8

/-- `FAT32_CLUSTER_MASK`. -/
def fat32ClusterMask : ℕ := 0x0FFFFFFF

/-- `~0ULL`, the cache's mark for no sector. -/
def noLba : ℕ := 2 ^ 64 - 1

/-- `cluster_to_lba`. -/
def clusterToLba (v : Fat32Volume) (cluster : ℕ) : ℕ :=
  if cluster < 2 then 0 else wrap64 (v.dataStartLba + (cluster - 2) * v.sectorsPerCluster)

/-- The check of `get_next_cluster` and `read_cluster` on a cluster number. -/
def Fat32Volume.outside (v : Fat32Volume) (cluster : ℕ) : Prop :=
  cluster < 2 ∨ cluster ≥ wrap32 (v.totalClusters + 2)

instance (v : Fat32Volume) (cluster : ℕ) : Decidable (v.outside cluster) :=
  inferInstanceAs (Decidable (_ ∨ _))

/-- The part of `get_next_cluster` that brings a FAT sector to the cache. -/
def fetchFatSector (targetLba : ℕ) : Fallible Fat Unit := do
  let v ← Fallible.reads Fat.volume
  if v.fatCacheLba = targetLba then pure ()
  else
    let (read, cache) ← nvmeRead v.nsid targetLba 1 v.fatCache
    if read then update fun s => s.withCache cache targetLba
    else do
      update fun s => s.withCache cache noLba
      fail

/-- `get_next_cluster`. -/
def getNextCluster (cluster : ℕ) : Fallible Fat ℕ := do
  let v ← Fallible.reads Fat.volume
  if v.outside cluster then fail
  else
    let fatOffset := wrap32 (cluster * 4)
    let fatSectorIdx := fatOffset / v.bytesPerSector
    let byteOffset := fatOffset % v.bytesPerSector
    if fatSectorIdx ≥ v.fatSize then fail
    else do
      fetchFatSector (wrap64 (v.fatStartLba + fatSectorIdx))
      let cache ← Fallible.reads fun s => s.volume.fatCache
      return le32 (fun i => cache.getD i 0) byteOffset &&& fat32ClusterMask

/-- `read_cluster`. -/
def readCluster (cluster : ℕ) (buf : List UInt8) : Fallible Fat (List UInt8) := do
  let v ← Fallible.reads Fat.volume
  if v.outside cluster then fail
  else
    let (read, buf) ← nvmeRead v.nsid (clusterToLba v cluster) v.sectorsPerCluster buf
    if read then return buf else fail

/-- `curr >= 2 && curr < FAT32_CLUSTER_EOC`. -/
def inChain (curr : ℕ) : Prop := 2 ≤ curr ∧ curr < fat32ClusterEoc

instance (curr : ℕ) : Decidable (inChain curr) := inferInstanceAs (Decidable (_ ∧ _))

/-- The first loop of `read_cluster_chain`: the clusters from `curr`, at most `left` of them. -/
def countChain : (left curr : ℕ) → Fallible Fat ℕ
  | left, curr =>
    if ¬inChain curr then pure 0
    else if curr = fat32ClusterBad then fail
    else
      match left with
      | 0 => fail
      | left + 1 => do
        let next ← getNextCluster curr
        let rest ← countChain left next
        return rest + 1

/-- The second loop of `read_cluster_chain`, which fills the rest of the buffer from `curr`. -/
def readChain (bytesPerCluster : ℕ) : (left curr : ℕ) → List UInt8 → Fallible Fat (List UInt8)
  | 0, _, buf => pure buf
  | left + 1, curr, buf =>
    if ¬inChain curr then pure buf
    else do
      let buf ← readCluster curr buf
      let next ← getNextCluster curr
      let rest ← readChain bytesPerCluster left next (buf.drop bytesPerCluster)
      return buf.take bytesPerCluster ++ rest

/-- `read_cluster_chain`. -/
def readClusterChain (startCluster : ℕ) : Fallible Fat (List UInt8) := do
  if startCluster < 2 then fail
  else
    let v ← Fallible.reads Fat.volume
    let clusterCount ← countChain v.totalClusters startCluster
    if clusterCount = 0 then return []
    else
      let buffer ← kmalloc (clusterCount * v.bytesPerCluster)
      readChain v.bytesPerCluster clusterCount startCluster buffer

/-! ## Mounting -/

/-- The fields of the boot sector that `fat32_mount` reads. -/
structure Fat32Bpb where
  signature : ℕ
  oemName : List UInt8
  bytesPerSector : ℕ
  sectorsPerCluster : ℕ
  reservedSectorCount : ℕ
  numFats : ℕ
  rootEntryCount : ℕ
  totalSectors16 : ℕ
  fatSize16 : ℕ
  totalSectors32 : ℕ
  fatSize32 : ℕ
  rootCluster : ℕ
  fsInfoSector : ℕ
  volumeLabel : List UInt8

namespace Fat32Bpb

/-- The boot sector in the bytes of a buffer. -/
def ofBytes (b : ℕ → UInt8) : Fat32Bpb where
  signature := le16 b 510
  oemName := (range 8).map fun i => b (3 + i)
  bytesPerSector := le16 b 11
  sectorsPerCluster := (b 13).toNat
  reservedSectorCount := le16 b 14
  numFats := (b 16).toNat
  rootEntryCount := le16 b 17
  totalSectors16 := le16 b 19
  fatSize16 := le16 b 22
  totalSectors32 := le32 b 32
  fatSize32 := le32 b 36
  rootCluster := le32 b 44
  fsInfoSector := le16 b 48
  volumeLabel := (range 11).map fun i => b (71 + i)

/-- `total_sectors`. -/
def totalSectors (bpb : Fat32Bpb) : ℕ :=
  if bpb.totalSectors16 ≠ 0 then bpb.totalSectors16 else bpb.totalSectors32

/-- `fat_size`. -/
def fatSize (bpb : Fat32Bpb) : ℕ := if bpb.fatSize16 ≠ 0 then bpb.fatSize16 else bpb.fatSize32

/-- `root_dir_sectors`. -/
def rootDirSectors (bpb : Fat32Bpb) : ℕ :=
  (bpb.rootEntryCount * 32 + (bpb.bytesPerSector - 1)) / bpb.bytesPerSector

/-- `data_sectors`, in 32-bit arithmetic. -/
def dataSectors (bpb : Fat32Bpb) : ℕ :=
  sub32 bpb.totalSectors
    (wrap32 (bpb.reservedSectorCount + wrap32 (bpb.numFats * bpb.fatSize) + bpb.rootDirSectors))

/-- `total_clusters`. -/
def totalClusters (bpb : Fat32Bpb) : ℕ := bpb.dataSectors / bpb.sectorsPerCluster

/-- The checks of `fat32_mount` on the boot sector. -/
def accepted (bpb : Fat32Bpb) : Prop := bpb.signature = 0xAA55 ∧
  ¬(bpb.bytesPerSector = 0 ∨ bpb.bytesPerSector % 512 ≠ 0) ∧
  ¬(bpb.sectorsPerCluster = 0 ∨ bpb.sectorsPerCluster &&& (bpb.sectorsPerCluster - 1) ≠ 0) ∧
  ¬(bpb.fatSize = 0 ∨ bpb.numFats = 0) ∧
  ¬bpb.totalClusters < 65525

instance (bpb : Fat32Bpb) : Decidable bpb.accepted :=
  inferInstanceAs (Decidable (_ ∧ _ ∧ _ ∧ _ ∧ _))

/-- `trim_trailing_spaces`. -/
def trimTrailingSpaces (src : List UInt8) : List UInt8 :=
  (src.reverse.dropWhile fun c => c = 0x20 ∨ c = 0).reverse

/-- The volume that `fat32_mount` fills in. -/
def volume (bpb : Fat32Bpb) (nsid : ℕ) (partition : GptPartition) (fatCache : List UInt8) :
    Fat32Volume where
  nsid := nsid
  partitionStartLba := partition.startingLba
  partitionSectorCount := partition.sectorCount
  bytesPerSector := bpb.bytesPerSector
  sectorsPerCluster := bpb.sectorsPerCluster
  reservedSectorCount := bpb.reservedSectorCount
  numFats := bpb.numFats
  totalSectors := bpb.totalSectors
  fatSize := bpb.fatSize
  rootCluster := bpb.rootCluster
  fsInfoSector := bpb.fsInfoSector
  fatStartLba := wrap64 (partition.startingLba + bpb.reservedSectorCount)
  dataStartLba := wrap64 (wrap64 (partition.startingLba + bpb.reservedSectorCount) +
    bpb.numFats * bpb.fatSize + bpb.rootDirSectors)
  totalClusters := bpb.totalClusters
  bytesPerCluster := bpb.bytesPerSector * bpb.sectorsPerCluster
  fatCache := fatCache
  fatCacheLba := noLba
  volumeLabel := trimTrailingSpaces bpb.volumeLabel
  oemName := trimTrailingSpaces bpb.oemName

end Fat32Bpb

/-- `fat32_mount`. The bytes behind a boot sector buffer shorter than a boot sector are stale. -/
def fat32Mount (nsid : ℕ) (partition : GptPartition) : Fallible Fat Unit := do
  let ns ← Fallible.reads fun s => s.namespace? nsid
  match ns with
  | none => fail
  | some ns =>
    if ns.blockSize = 0 then fail
    else do
      let sectorBuf ← kmalloc ns.blockSize
      let (read, sectorBuf) ← nvmeRead nsid partition.startingLba 1 sectorBuf
      let stale ← Fallible.reads Fat.stale
      let bpb := Fat32Bpb.ofBytes fun i => sectorBuf.getD i (stale i)
      if ¬(read = true ∧ bpb.accepted) then fail
      else do
        let fatCache ← kmalloc bpb.bytesPerSector
        update fun s => { s with volume := bpb.volume nsid partition fatCache }

/-! ## Directories -/

/-- `Fat32DirEntry`; the name is the bytes before the terminating zero that was written last. -/
structure Fat32DirEntry where
  name : List UInt8
  startCluster : ℕ
  fileSize : ℕ
  attributes : ℕ
  isDirectory : Bool
deriving DecidableEq

/-- `to_lower`. -/
def toLower (c : UInt8) : UInt8 := if 0x41 ≤ c ∧ c ≤ 0x5A then c + 0x20 else c

/-- `strcasecmp_ascii` on strings given without their terminating zero. -/
def strcasecmpAscii : List UInt8 → List UInt8 → ℤ
  | a :: s, b :: t =>
    if a ≠ 0 ∧ b ≠ 0 then
      if toLower a ≠ toLower b then ((toLower a).toNat : ℤ) - (toLower b).toNat
      else strcasecmpAscii s t
    else ((toLower a).toNat : ℤ) - (toLower b).toNat
  | a :: _, [] => (toLower a).toNat
  | [], b :: _ => -((toLower b).toNat : ℤ)
  | [], [] => 0

/-- `calculate_sfn_checksum` on the name field of a raw entry. -/
def calculateSfnChecksum (raw : ℕ → UInt8) : UInt8 :=
  (range 11).foldl (fun sum i => (if sum &&& 1 ≠ 0 then (0x80 : UInt8) else 0) +
    (sum >>> 1) + raw i) 0

/-- `format_sfn_name`. -/
def formatSfnName (raw : ℕ → UInt8) : List UInt8 :=
  let ntReserved := raw 12
  let base := (((range 8).map fun i => if i = 0 ∧ raw i = 0x05 then 0xE5 else raw i).takeWhile
    fun c => c ≠ 0x20).map fun c => if ntReserved &&& 0x08 ≠ 0 then toLower c else c
  let ext := (((range 3).map fun i => raw (8 + i)).takeWhile fun c => c ≠ 0x20).map fun c =>
    if ntReserved &&& 0x10 ≠ 0 then toLower c else c
  if ext.length > 0 then base ++ 0x2E :: ext else base

/-- The bytes that `utf16le_to_utf8` writes for one unit. -/
def utf8Bytes (ch : ℕ) : List UInt8 :=
  if ch < 0x80 then [.ofNat ch]
  else if ch < 0x800 then [.ofNat (0xC0 ||| (ch >>> 6)), .ofNat (0x80 ||| (ch &&& 0x3F))]
  else [.ofNat (0xE0 ||| (ch >>> 12)), .ofNat (0x80 ||| ((ch >>> 6) &&& 0x3F)),
    .ofNat (0x80 ||| (ch &&& 0x3F))]

/-- `utf16le_to_utf8`, with what has been written so far. -/
def utf16leToUtf8 (maxOut : ℕ) : List ℕ → List UInt8 → List UInt8
  | [], dst => dst
  | ch :: src, dst =>
    if ch ≠ 0 ∧ ch ≠ 0xFFFF ∧ dst.length + 4 < maxOut then
      utf16leToUtf8 maxOut src (dst ++ utf8Bytes ch)
    else dst

/-- `lfn_unicode`, `lfn_checksum` and `lfn_active`. -/
structure LfnState where
  unicode : List ℕ
  checksum : UInt8
  active : Bool

/-- `memset(lfn_unicode, 0, sizeof(lfn_unicode))`. -/
def noUnicode : List ℕ := replicate 260 0

/-- The offsets of the thirteen units in a long-name entry. -/
def lfnUnitOffsets : List ℕ := [1, 3, 5, 7, 9, 14, 16, 18, 20, 22, 24, 28, 30]

/-- The branch of `list_dir_cluster` for a long-name entry. A store past the end of `lfn_unicode`
is dropped. -/
def LfnState.collect (lfn : LfnState) (raw : ℕ → UInt8) : LfnState :=
  let seq := (raw 0 &&& 0x1F).toNat
  if 1 ≤ seq ∧ seq ≤ 20 then
    let charOffset := (seq - 1) * 13
    let unicode := (lfnUnitOffsets.zipIdx).foldl
      (fun u (o, c) => u.set (charOffset + c) (le16 raw o)) lfn.unicode
    if raw 0 &&& 0x40 ≠ 0 then ⟨unicode.set (charOffset + 13) 0, raw 13, true⟩
    else { lfn with unicode := unicode }
  else lfn

/-- The entry that `list_dir_cluster` hands to its callback. -/
def LfnState.entry (lfn : LfnState) (raw : ℕ → UInt8) : Fat32DirEntry where
  name :=
    if lfn.active ∧ lfn.checksum = calculateSfnChecksum raw then utf16leToUtf8 256 lfn.unicode []
    else formatSfnName raw
  startCluster := (le16 raw 20 <<< 16) ||| le16 raw 26
  fileSize := le32 raw 28
  attributes := (raw 11).toNat
  isDirectory := (raw 11 &&& 0x10) ≠ 0

/-- The loop of `list_dir_cluster` over the entries from `i`: what the callback receives. -/
def dirEntries (buf : ℕ → UInt8) : (left i : ℕ) → LfnState → List Fat32DirEntry
  | 0, _, _ => []
  | left + 1, i, lfn =>
    let raw := fun j => buf (i * 32 + j)
    if raw 0 = 0x00 then []
    else if raw 0 = 0xE5 then dirEntries buf left (i + 1) { lfn with active := false }
    else if raw 11 = 0x0F then dirEntries buf left (i + 1) (lfn.collect raw)
    else if raw 11 &&& 0x08 ≠ 0 then dirEntries buf left (i + 1) { lfn with active := false }
    else
      lfn.entry raw :: dirEntries buf left (i + 1) ⟨noUnicode, lfn.checksum, false⟩

/-- `list_dir_cluster`: the entries it passes to the callback, in order. -/
def listDirCluster (cluster : ℕ) : Fallible Fat (List Fat32DirEntry) := do
  if cluster < 2 then fail
  else
    let dirBuf ← readClusterChain cluster
    if dirBuf = [] then fail
    else return dirEntries (fun i => dirBuf.getD i 0) (dirBuf.length / 32) 0 ⟨noUnicode, 0, false⟩

/-- `find_in_dir`. -/
def findInDir (cluster : ℕ) (name : List UInt8) : Fallible Fat Fat32DirEntry := do
  if cluster < 2 then fail
  else
    let entries ← listDirCluster cluster
    match entries.find? fun e => strcasecmpAscii e.name name = 0 with
    | none => fail
    | some e => return e

/-- `c == '/' || c == '\'`. -/
def isSeparator (c : UInt8) : Bool := c = 0x2F ∨ c = 0x5C

/-- The loop of `fat32_stat` over the rest `p` of the path; every turn shortens the path, so `fuel`
is its length. -/
def statLoop : (fuel : ℕ) → (p : List UInt8) → (cluster : ℕ) → Fat32DirEntry →
    Fallible Fat Fat32DirEntry
  | 0, _, _, entry => pure entry
  | fuel + 1, p, cluster, entry =>
    if p = [] then pure entry
    else
      let token := p.takeWhile fun c => !isSeparator c
      let p := (p.dropWhile fun c => !isSeparator c).dropWhile isSeparator
      if token = [] then statLoop fuel p cluster entry
      else do
        let _ ← kmalloc (token.length + 1)
        let entry ← findInDir cluster token
        if p = [] then return entry
        else if !entry.isDirectory then fail
        else statLoop fuel p entry.startCluster entry

/-- `fat32_stat`. -/
def fat32Stat (path : List UInt8) : Fallible Fat Fat32DirEntry := do
  let v ← Fallible.reads Fat.volume
  let p := path.dropWhile isSeparator
  if p = [] then return ⟨[0x2F], v.rootCluster, 0, 0x10, true⟩
  else statLoop p.length p v.rootCluster ⟨[], 0, 0, 0, false⟩

/-- `fat32_list_dir`: the entries it passes to the callback. -/
def fat32ListDir (path : List UInt8) : Fallible Fat (List Fat32DirEntry) := do
  let v ← Fallible.reads Fat.volume
  if path = [] ∨ path = [0x2F] ∨ path = [0x5C] then listDirCluster v.rootCluster
  else
    let entry ← fat32Stat path
    if !entry.isDirectory then fail else listDirCluster entry.startCluster

/-! ## Files -/

/-- The loop of `fat32_read` that follows the chain to the first cluster of the range. -/
def skipClusters : (n curr : ℕ) → Fallible Fat ℕ
  | 0, curr => pure curr
  | n + 1, curr =>
    if ¬inChain curr then fail
    else do
      let next ← getNextCluster curr
      skipClusters n next

/-- `temp_cluster`, allocated at its first use. -/
def tempCluster (clusterSize : ℕ) : Option (List UInt8) → Fallible Fat (List UInt8)
  | some temp => pure temp
  | none => kmalloc clusterSize

/-- The part of a turn of `fat32_read` that brings `chunk` bytes of the cluster to the destination,
directly where they are a whole cluster. -/
def readChunk (clusterSize curr clusterOffset chunk : ℕ) (temp : Option (List UInt8))
    (dest : List UInt8) : Fallible Fat (Option (List UInt8) × List UInt8) :=
  if clusterOffset = 0 ∧ chunk = clusterSize then do
    let dest ← readCluster curr dest
    return (temp, dest)
  else do
    let buf ← tempCluster clusterSize temp
    let buf ← readCluster curr buf
    return (some buf, fill dest ((buf.drop clusterOffset).take chunk))

/-- The end of a turn, which follows the chain while bytes are left. -/
def nextWhileLeft (remaining curr : ℕ) : Fallible Fat ℕ :=
  if remaining > 0 then getNextCluster curr else pure curr

/-- The main loop of `fat32_read`: `remaining` bytes from `curr` to the destination `dest`. It
returns what is left to read and the destination; every turn reads at least one byte, so `fuel` is
the number of bytes. -/
def readLoop (clusterSize : ℕ) : (fuel remaining curr clusterOffset : ℕ) →
    (temp : Option (List UInt8)) → (dest : List UInt8) → Fallible Fat (ℕ × List UInt8)
  | 0, remaining, _, _, _, dest => pure (remaining, dest)
  | fuel + 1, remaining, curr, clusterOffset, temp, dest =>
    if ¬(remaining > 0 ∧ inChain curr) then pure (remaining, dest)
    else
      let chunk := min (clusterSize - clusterOffset) remaining
      do
        let (temp, dest) ← readChunk clusterSize curr clusterOffset chunk temp dest
        let next ← nextWhileLeft (remaining - chunk) curr
        let (left, rest) ← readLoop clusterSize fuel (remaining - chunk) next 0 temp
          (dest.drop chunk)
        return (left, dest.take chunk ++ rest)

/-- `fat32_read` into a buffer `buf`: the bytes read and the buffer after it. -/
def fat32Read (path : List UInt8) (offset size : ℕ) (buf : List UInt8) :
    Fallible Fat (ℕ × List UInt8) := do
  let entry ← fat32Stat path
  if entry.isDirectory then fail
  else if offset ≥ entry.fileSize ∨ size = 0 then return (0, buf)
  else
    let size := if wrap64 (offset + size) > entry.fileSize then entry.fileSize - offset else size
    let v ← Fallible.reads Fat.volume
    let curr ← skipClusters (offset / v.bytesPerCluster) entry.startCluster
    let (left, dest) ← readLoop v.bytesPerCluster size size curr (offset % v.bytesPerCluster) none
      buf
    return (size - left, dest)

/-- `fat32_read_file`. -/
def fat32ReadFile (path : List UInt8) : Fallible Fat (List UInt8) := do
  let entry ← fat32Stat path
  if entry.isDirectory then fail
  else if entry.fileSize = 0 then return []
  else
    let buf ← kmalloc entry.fileSize
    let (bytesRead, buf) ← fat32Read path 0 entry.fileSize buf
    if bytesRead ≠ entry.fileSize then fail else return buf

end NovaOS.Fs
