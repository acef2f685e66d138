import NovaOS.Fs.Fat32Inv

/-!
# The geometry of a mounted FAT32 volume

`fat32_mount` takes the sector size, the FAT and the cluster count from the boot sector, and the
size of a transfer and the extent of the partition from elsewhere. This module says what a mounted
volume is, and when the transfers that the driver asks for later stay inside their buffers and
inside the partition.
-/

namespace NovaOS.Fs

open NovaOS.Lib Fallible Fat List Option
open NovaOS.Drivers (NvmeNamespace)

/-! ## The device calls -/

namespace Fat

/-- What a call of `nvme_read` does: it touches the record, the environment's answers and the
buffer, and it returns `0` exactly when the blocks are in the buffer. -/
structure NvmeReadPost (s : Fat) (nsid lba count : ℕ) (buf : List UInt8) (read : Bool)
    (buf' : List UInt8) (s' : Fat) : Prop where
  length_eq : buf'.length = buf.length
  volume_eq : s'.volume = s.volume
  namespaces_eq : s'.namespaces = s.namespaces
  stale_eq : s'.stale = s.stale
  failures_eq : s'.failures = if read then s.failures else s.failures + 1
  read_eq : read = true → ∃ ns, s.namespace? nsid = some ns ∧ lba + count ≤ ns.blockCount ∧
    buf' = fill buf (ns.contents lba count) ∧
    s'.reads = ⟨lba, count, count * ns.blockSize, buf.length⟩ :: s.reads
  reads_eq : (s'.reads = s.reads ∧ ∀ ns, s.namespace? nsid = some ns → count = 0 ∨ ns.blockSize = 0) ∨
    ∃ ns, s.namespace? nsid = some ns ∧
    s'.reads = ⟨lba, count, count * ns.blockSize, buf.length⟩ :: s.reads

theorem nvmeRead_post (s : Fat) (nsid lba count : ℕ) (buf : List UInt8) :
    ∃ read buf' s', nvmeRead nsid lba count buf s = (some (read, buf'), s') ∧
      NvmeReadPost s nsid lba count buf read buf' s' := by
  unfold nvmeRead
  cases hns : s.namespace? nsid with
  | none =>
    exact ⟨false, buf, s.failed, rfl, rfl, rfl, rfl, rfl, rfl, nofun,
      .inl ⟨rfl, fun _ h => absurd (hns.symm.trans h) nofun⟩⟩
  | some ns =>
    dsimp only
    split
    · rename_i hzero
      refine ⟨false, buf, s.failed, rfl, rfl, rfl, rfl, rfl, rfl, nofun, .inl ⟨rfl, ?_⟩⟩
      rintro ns' hns'
      obtain rfl : ns = ns' := mem_unique hns hns'
      exact hzero
    cases s.answers.head?.join with
    | some part =>
      exact ⟨false, _, _, rfl, length_fill _ _, rfl, rfl, rfl, rfl, nofun, .inr ⟨ns, hns, rfl⟩⟩
    | none =>
      dsimp only
      split
      · exact ⟨false, _, _, rfl, rfl, rfl, rfl, rfl, rfl, nofun, .inr ⟨ns, hns, rfl⟩⟩
      · rename_i hcount
        exact ⟨true, _, _, rfl, length_fill _ _, rfl, rfl, rfl, rfl,
          fun _ => ⟨ns, hns, Nat.le_of_not_lt hcount, rfl, rfl⟩, .inr ⟨ns, hns, rfl⟩⟩

/-- The record stays `Good` if the transfer that may be added to it is. -/
theorem NvmeReadPost.good {s s' : Fat} {nsid lba count : ℕ} {buf buf' : List UInt8} {read : Bool}
    {Good : NvmeRead → Prop} (h : NvmeReadPost s nsid lba count buf read buf' s')
    (hs : ∀ r ∈ s.reads, Good r) (hnew : ∀ ns, s.namespace? nsid = some ns →
      Good ⟨lba, count, count * ns.blockSize, buf.length⟩) : ∀ r ∈ s'.reads, Good r := by
  obtain ⟨hreads, -⟩ | ⟨ns, hns, hreads⟩ := h.reads_eq <;> rw [hreads]
  · exact hs
  · exact forall_mem_cons.mpr ⟨hnew ns hns, hs⟩

/-- What `kmalloc` does. -/
theorem kmalloc_cases (s : Fat) (n : ℕ) :
    (∃ denials, Fat.kmalloc n s = (none, { s with kmallocDenials := denials }.failed)) ∨
      ∃ denials, Fat.kmalloc n s =
        (some ((range n).map s.stale), { s with kmallocDenials := denials }) := by
  unfold Fat.kmalloc
  split
  · exact .inl ⟨_, rfl⟩
  · exact .inr ⟨_, rfl⟩

end Fat

/-- A FAT sector is in the cache already, or it is read; a failed read empties the cache. -/
theorem fetchFatSector_cases (s : Fat) (lba : ℕ) :
    (s.volume.fatCacheLba = lba ∧ fetchFatSector lba s = (some (), s)) ∨
      (s.volume.fatCacheLba ≠ lba ∧ ∃ read cache t,
        NvmeReadPost s s.volume.nsid lba 1 s.volume.fatCache read cache t ∧
        fetchFatSector lba s =
          (if read then some () else none, t.withCache cache (if read then lba else noLba))) := by
  rw [fetchFatSector, bind_reads]
  by_cases hlba : s.volume.fatCacheLba = lba
  · rw [if_pos hlba]
    exact .inl ⟨hlba, rfl⟩
  · obtain ⟨read, cache, t, hread, hpost⟩ := nvmeRead_post s s.volume.nsid lba 1 s.volume.fatCache
    refine .inr ⟨hlba, read, cache, t, hpost, ?_⟩
    rw [if_neg hlba, bind_some hread]
    cases read <;> rfl

/-- A cluster is refused, or its blocks are read. -/
theorem readCluster_cases (s : Fat) (c : ℕ) (buf : List UInt8) :
    (s.volume.outside c ∧ readCluster c buf s = (none, s)) ∨
      (¬s.volume.outside c ∧ ∃ read buf' t,
        NvmeReadPost s s.volume.nsid (clusterToLba s.volume c) s.volume.sectorsPerCluster buf read
          buf' t ∧
        readCluster c buf s = (if read then some buf' else none, t)) := by
  rw [readCluster, bind_reads]
  by_cases hout : s.volume.outside c
  · rw [if_pos hout]
    exact .inl ⟨hout, rfl⟩
  · obtain ⟨read, buf', t, hread, hpost⟩ := nvmeRead_post s s.volume.nsid
      (clusterToLba s.volume c) s.volume.sectorsPerCluster buf
    refine .inr ⟨hout, read, buf', t, hpost, ?_⟩
    rw [if_neg hout, bind_some hread]
    cases read <;> rfl

/-! ## The record of transfers -/

/-- The state of a volume of geometry `g` on the given namespaces, all of whose recorded transfers
are `Good`. -/
structure Recorded (g : Fat32Volume) (nss : List NvmeNamespace) (Good : NvmeRead → Prop) (s : Fat) :
    Prop where
  geometry : s.volume.geometry = g
  cache_length : s.volume.fatCache.length = g.bytesPerSector
  namespaces : s.namespaces = nss
  reads : ∀ r ∈ s.reads, Good r

/-- A predicate that every transfer of a FAT sector and of a cluster meets holds of the record. -/
theorem recorded_invariant {g : Fat32Volume} {nss : List NvmeNamespace} {Good : NvmeRead → Prop}
    (hfat : ∀ ns, nss.find? (fun ns => ns.nsid = g.nsid) = some ns → ∀ c, ¬g.outside c →
      ∀ idx < g.fatSize,
      Good ⟨wrap64 (g.fatStartLba + idx), 1, 1 * ns.blockSize, g.bytesPerSector⟩)
    (hcluster : ∀ ns, nss.find? (fun ns => ns.nsid = g.nsid) = some ns → ∀ c, ¬g.outside c →
      ∀ room, g.bytesPerCluster ≤ room →
      Good ⟨clusterToLba g c, g.sectorsPerCluster, g.sectorsPerCluster * ns.blockSize, room⟩) :
    Invariant g (Recorded g nss Good) where
  geometry s hs := hs.geometry
  kmalloc n s hs := by
    obtain ⟨_, h⟩ | ⟨_, h⟩ := kmalloc_cases s n <;> rw [h]
    · exact ⟨hs.geometry, hs.cache_length, hs.namespaces, hs.reads⟩
    · exact ⟨⟨hs.geometry, hs.cache_length, hs.namespaces, hs.reads⟩,
        by rw [length_map, length_range]⟩
  fetch c idx hout hidx s hs := by
    obtain ⟨-, h⟩ | ⟨-, read, cache, t, hpost, h⟩ := fetchFatSector_cases s _ <;> rw [h]
    · exact hs
    have hgood : ∀ r ∈ t.reads, Good r := hpost.good hs.reads fun ns hns => by
      obtain rfl := hs.geometry
      rw [namespace?, hs.namespaces] at hns
      exact hs.cache_length ▸ hfat ns hns c hout idx hidx
    have hstate : ∀ lba, Recorded g nss Good (t.withCache cache lba) := fun lba =>
      ⟨(congrArg Fat32Volume.geometry hpost.volume_eq).trans hs.geometry,
        hpost.length_eq.trans hs.cache_length, hpost.namespaces_eq.trans hs.namespaces, hgood⟩
    cases read <;> exact hstate _
  read c buf hbuf s hs := by
    obtain ⟨-, h⟩ | ⟨hout, read, buf', t, hpost, h⟩ := readCluster_cases s c buf <;> rw [h]
    · exact hs
    have hgood : ∀ r ∈ t.reads, Good r := hpost.good hs.reads fun ns hns => by
      obtain rfl := hs.geometry
      rw [namespace?, hs.namespaces] at hns
      exact hcluster ns hns c hout _ hbuf
    have hstate : Recorded g nss Good t :=
      ⟨by rw [hpost.volume_eq, hs.geometry], by rw [hpost.volume_eq, hs.cache_length],
        hpost.namespaces_eq.trans hs.namespaces, hgood⟩
    cases read
    · exact hstate
    · exact ⟨hstate, hpost.length_eq⟩

/-! ## Mounting -/

/-- The boot sector that `fat32_mount` finds on the partition. -/
def bootSector (s : Fat) (ns : NvmeNamespace) (partition : GptPartition) : Fat32Bpb :=
  .ofBytes fun i => if i < ns.blockSize then ns.blocks partition.startingLba i else s.stale i

/-- What a successful `fat32_mount` leaves behind. -/
structure Mounted (s : Fat) (nsid : ℕ) (partition : GptPartition) (ns : NvmeNamespace) (s' : Fat) :
    Prop where
  namespace_eq : s.namespace? nsid = some ns
  blockSize_pos : 0 < ns.blockSize
  accepted : (bootSector s ns partition).accepted
  volume_eq : s'.volume.geometry = ((bootSector s ns partition).volume nsid partition []).geometry
  cache_length : s'.volume.fatCache.length = (bootSector s ns partition).bytesPerSector
  cacheLba_eq : s'.volume.fatCacheLba = noLba
  namespaces_eq : s'.namespaces = s.namespaces
  reads_eq : s'.reads = ⟨partition.startingLba, 1, 1 * ns.blockSize, ns.blockSize⟩ :: s.reads

/-- The buffer holds the boot sector and stale bytes behind it. -/
theorem ofBytes_contents (s : Fat) (ns : NvmeNamespace) (partition : GptPartition) :
    Fat32Bpb.ofBytes (fun i => (ns.contents partition.startingLba 1).getD i (s.stale i)) =
      bootSector s ns partition := by
  congr 1
  funext i
  rw [getD_eq_getElem?_getD, NvmeNamespace.contents, getElem?_map]
  by_cases hi : i < ns.blockSize
  · rw [getElem?_range (by omega), if_pos hi, map_some, getD_some,
      Nat.div_eq_of_lt hi, Nat.mod_eq_of_lt hi, add_zero]
  · rw [List.getElem?_eq_none (by rw [length_range]; omega), if_neg hi, map_none,
      getD_none]

theorem fat32Mount_mounted {s s' : Fat} {nsid : ℕ} {partition : GptPartition}
    {ns : NvmeNamespace} (h : fat32Mount nsid partition s = (some (), s'))
    (hns : s.namespace? nsid = some ns) : Mounted s nsid partition ns s' := by
  refine Triple.returns (P := fun t => t = s) (E := fun _ => True)
    (Q := fun _ s' => Mounted s nsid partition ns s') ?_ rfl h
  refine .bind_fact (p := (· = s.namespace? nsid)) (.reads fun t ht => ⟨ht, ht ▸ rfl⟩)
    fun found hfound => ?_
  obtain rfl : found = some ns := hfound.trans hns
  refine .ite (fun _ => .fail fun _ _ => trivial) fun hsize => ?_
  -- the states on the way differ from the first one in the record and the answers only
  refine .bind (Q := fun buf t => buf.length = ns.blockSize ∧ t.namespaces = s.namespaces ∧
    t.stale = s.stale ∧ t.reads = s.reads) ?_ fun buf => ?_
  · rintro t rfl
    obtain ⟨_, hk⟩ | ⟨_, hk⟩ := kmalloc_cases t ns.blockSize <;> rw [hk]
    · trivial
    · exact ⟨by rw [length_map, length_range], rfl, rfl, rfl⟩
  refine .bind (Q := fun r t => t.namespaces = s.namespaces ∧ t.stale = s.stale ∧
    (r.1 = true → r.2 = ns.contents partition.startingLba 1 ∧
      t.reads = ⟨partition.startingLba, 1, 1 * ns.blockSize, ns.blockSize⟩ :: s.reads))
    ?_ fun r => ?_
  · rintro t ⟨hlen, hnss, hstale, hreads⟩
    obtain ⟨read, buf', t', hread, hpost⟩ := nvmeRead_post t nsid partition.startingLba 1 buf
    rw [hread]
    have hns : t.namespace? nsid = some ns := by
      rw [namespace?, hnss]
      exact hns
    refine ⟨hpost.namespaces_eq.trans hnss, hpost.stale_eq.trans hstale, fun hok => ?_⟩
    obtain ⟨ns', hns', -, hbuf', hreads'⟩ := hpost.read_eq hok
    obtain rfl : ns = ns' := mem_unique hns hns'
    refine ⟨?_, by rw [hreads', hreads, hlen]⟩
    rw [hbuf', fill_of_length_eq]
    rw [NvmeNamespace.length_contents, hlen, one_mul]
  refine .bind_fact (p := (· = s.stale)) (.reads fun t ht => ⟨ht, ht.2.1⟩) fun stale hstale => ?_
  subst hstale
  refine .ite (fun _ => .fail fun _ _ => trivial) fun hok => ?_
  obtain ⟨hread, haccepted⟩ := not_not.mp hok
  refine .intro_pre (fun _ ht => (ht.2.2 hread).1) fun hbuf => ?_
  rw [hbuf, ofBytes_contents] at haccepted ⊢
  refine .bind (Q := fun cache t => cache.length = (bootSector s ns partition).bytesPerSector ∧
    t.namespaces = s.namespaces ∧
    t.reads = ⟨partition.startingLba, 1, 1 * ns.blockSize, ns.blockSize⟩ :: s.reads)
    ?_ fun cache => ?_
  · rintro t ⟨hnss, -, ht⟩
    obtain ⟨_, hk⟩ | ⟨_, hk⟩ := kmalloc_cases t (bootSector s ns partition).bytesPerSector <;>
      rw [hk]
    · trivial
    · exact ⟨by rw [length_map, length_range], hnss, (ht hread).2⟩
  · refine .update fun t ht => ?_
    exact ⟨hns, Nat.pos_of_ne_zero hsize, haccepted, rfl, ht.1, rfl, ht.2.1, ht.2.2⟩

/-- The bounds of the fields of an accepted boot sector. -/
structure Fat32Bpb.Bounded (bpb : Fat32Bpb) : Prop where
  totalSectors_lt : bpb.totalSectors < 2 ^ 32
  sectorsPerCluster_pos : 0 < bpb.sectorsPerCluster
  numFats_pos : 0 < bpb.numFats
  fatSize_pos : 0 < bpb.fatSize
  totalClusters_ge : 65525 ≤ bpb.totalClusters

theorem Fat32Bpb.ofBytes_bounded {b : ℕ → UInt8} (h : (ofBytes b).accepted) :
    (ofBytes b).Bounded where
  totalSectors_lt := by
    have h16 : (ofBytes b).totalSectors16 < 65536 := le16_lt b 19
    have h32 : (ofBytes b).totalSectors32 < 2 ^ 32 := le32_lt b 32
    rw [totalSectors]
    split <;> omega
  sectorsPerCluster_pos := Nat.pos_of_ne_zero fun hz => h.2.2.1 (.inl hz)
  numFats_pos := Nat.pos_of_ne_zero fun hz => h.2.2.2.1 (.inr hz)
  fatSize_pos := Nat.pos_of_ne_zero fun hz => h.2.2.2.1 (.inl hz)
  totalClusters_ge := Nat.le_of_not_lt h.2.2.2.2

/-- The sectors before the clusters, in exact arithmetic. -/
def Fat32Bpb.metaSectors (bpb : Fat32Bpb) : ℕ :=
  bpb.reservedSectorCount + bpb.numFats * bpb.fatSize + bpb.rootDirSectors

theorem Fat32Bpb.dataSectors_eq (bpb : Fat32Bpb) :
    bpb.dataSectors = sub32 bpb.totalSectors bpb.metaSectors := by
  unfold dataSectors metaSectors sub32 wrap32
  omega

/-! ## The room of the buffers -/

/-- The transfer fits the buffer it is given. -/
def NvmeRead.Fits (r : NvmeRead) : Prop := r.bytes ≤ r.room

instance (r : NvmeRead) : Decidable r.Fits := inferInstanceAs (Decidable (_ ≤ _))

/-- The one way in which a boot sector leaves the driver without a cluster to access: `total_clusters
+ 2` wraps around. -/
def Fat32Bpb.Unreachable (bpb : Fat32Bpb) : Prop :=
  bpb.sectorsPerCluster = 1 ∧ (bpb.metaSectors % 2 ^ 32 = (bpb.totalSectors + 1) % 2 ^ 32 ∨
    bpb.metaSectors % 2 ^ 32 = (bpb.totalSectors + 2) % 2 ^ 32)

theorem Fat32Bpb.Bounded.unreachable_iff {bpb : Fat32Bpb} (h : bpb.Bounded) :
    bpb.Unreachable ↔ wrap32 (bpb.totalClusters + 2) ≤ 2 := by
  obtain ⟨htotal, hspc, -, -, hclusters⟩ := h
  have hdata : bpb.dataSectors < 2 ^ 32 := sub32_lt _ _
  constructor
  · rintro ⟨hone, hmeta⟩
    have htc : bpb.totalClusters = bpb.dataSectors := by rw [totalClusters, hone, Nat.div_one]
    rw [dataSectors_eq] at htc
    unfold wrap32 sub32 at *
    omega
  · intro hwrap
    -- only a divisor of one leaves a quotient of at least `2 ^ 32 - 2`
    have hlarge : 2 ^ 32 - 2 ≤ bpb.totalClusters := by
      unfold wrap32 at hwrap
      omega
    have hone : bpb.sectorsPerCluster = 1 := by
      by_contra hne
      have htwo : 2 ≤ bpb.sectorsPerCluster := by omega
      have : bpb.totalClusters ≤ bpb.dataSectors / 2 := Nat.div_le_div_left htwo (by decide)
      omega
    have htc : bpb.totalClusters = bpb.dataSectors := by rw [totalClusters, hone, Nat.div_one]
    rw [dataSectors_eq] at htc
    refine ⟨hone, ?_⟩
    unfold sub32 at htc
    omega

section

variable {s s' : Fat} {nsid : ℕ} {partition : GptPartition} {ns : NvmeNamespace}

/-- The namespace is the one the volume names. -/
theorem Mounted.find_eq (h : Mounted s nsid partition ns s') {ns' : NvmeNamespace}
    (hns' : s'.namespaces.find? (fun n => n.nsid =
      ((bootSector s ns partition).volume nsid partition []).geometry.nsid) = some ns') :
    ns' = ns := by
  rw [h.namespaces_eq] at hns'
  exact mem_unique hns' h.namespace_eq

/-- A cluster that is not refused is read. -/
theorem exec_cluster_reads {c : ℕ} (hns : s.namespace? s.volume.nsid = some ns)
    (hsize : 0 < ns.blockSize) (hspc : 0 < s.volume.sectorsPerCluster)
    (hout : ¬s.volume.outside c) :
    (FatOp.exec s (.cluster c)).reads =
      ⟨clusterToLba s.volume c, s.volume.sectorsPerCluster,
        s.volume.sectorsPerCluster * ns.blockSize, s.volume.bytesPerCluster⟩ :: s.reads := by
  show (readCluster c _ s).2.reads = _
  obtain ⟨hout', -⟩ | ⟨-, read, buf', t, hpost, h⟩ := readCluster_cases s c
    (replicate s.volume.bytesPerCluster 0)
  · exact absurd hout' hout
  rw [h]
  obtain ⟨-, hzero⟩ | ⟨ns', hns', hreads⟩ := hpost.reads_eq
  · have := hzero ns hns
    omega
  · obtain rfl : ns = ns' := mem_unique hns hns'
    rw [hreads, length_replicate]

/-- **The transfers of a mounted volume fit their buffers** along every run exactly when a block is
no larger than a sector of the boot sector, or no cluster can be accessed at all. -/
theorem reads_fit_iff (hmount : fat32Mount nsid partition s = (some (), s'))
    (hns : s.namespace? nsid = some ns) (hreads : s.reads = []) :
    (∀ ops, ∀ r ∈ (FatOp.run s' ops).reads, r.Fits) ↔
      ns.blockSize ≤ (bootSector s ns partition).bytesPerSector ∨
        (bootSector s ns partition).Unreachable := by
  have h := fat32Mount_mounted hmount hns
  have hb : (bootSector s ns partition).Bounded := Fat32Bpb.ofBytes_bounded h.accepted
  set bpb := bootSector s ns partition
  rw [hb.unreachable_iff]
  constructor
  · -- the transfer of cluster 2 is as large as its buffer allows
    intro hfits
    by_contra hcond
    have hspc : s'.volume.sectorsPerCluster = bpb.sectorsPerCluster :=
      congrArg Fat32Volume.sectorsPerCluster h.volume_eq
    have hbpc : s'.volume.bytesPerCluster = bpb.bytesPerSector * bpb.sectorsPerCluster :=
      congrArg Fat32Volume.bytesPerCluster h.volume_eq
    have hout : ¬s'.volume.outside 2 := by
      have htc : s'.volume.totalClusters = bpb.totalClusters :=
        congrArg Fat32Volume.totalClusters h.volume_eq
      rw [Fat32Volume.outside, htc]
      omega
    have hns' : s'.namespace? s'.volume.nsid = some ns := by
      have hnsid : s'.volume.nsid = nsid := congrArg Fat32Volume.nsid h.volume_eq
      rw [namespace?, h.namespaces_eq, hnsid]
      exact hns
    have hread := exec_cluster_reads hns' h.blockSize_pos (hspc ▸ hb.sectorsPerCluster_pos) hout
    have hfit : _ * _ ≤ _ := hfits [.cluster 2] _ (hread ▸ mem_cons_self)
    rw [hspc, hbpc, mul_comm] at hfit
    have := Nat.le_of_mul_le_mul_right hfit hb.sectorsPerCluster_pos
    omega
  · intro hcond ops
    have hsize : ∀ c, ¬Fat32Volume.outside (bpb.volume nsid partition []).geometry c →
        ns.blockSize ≤ bpb.bytesPerSector := fun c hc => hcond.resolve_right fun hwrap =>
      hc (by rw [Fat32Volume.outside]; exact (lt_or_ge c 2).imp id fun h => hwrap.trans h)
    refine (FatOp.run_keeps (recorded_invariant ?_ ?_) ⟨h.volume_eq, h.cache_length, rfl, ?_⟩ ops).reads
    · intro ns' hns' c hc idx hidx
      obtain rfl := h.find_eq hns'
      exact (one_mul _).le.trans (hsize c hc)
    · intro ns' hns' c hc room hroom
      obtain rfl := h.find_eq hns'
      calc bpb.sectorsPerCluster * ns'.blockSize
          ≤ bpb.sectorsPerCluster * bpb.bytesPerSector := Nat.mul_le_mul_left _ (hsize c hc)
        _ = bpb.bytesPerSector * bpb.sectorsPerCluster := mul_comm _ _
        _ ≤ room := hroom
    · rw [h.reads_eq, hreads, forall_mem_singleton]
      exact (one_mul _).le

end

/-- A boot sector of 131072 sectors of 512 bytes, one sector a cluster, with 32 reserved sectors and
two FATs of 1024 sectors. -/
def sampleBootByte : ℕ → UInt8
  | 12 => 2
  | 13 => 1
  | 14 => 32
  | 16 => 2
  | 34 => 2
  | 37 => 4
  | 44 => 2
  | 510 => 0x55
  | 511 => 0xAA
  | _ => 0

/-- A namespace with that boot sector in block 2048. -/
def sampleNamespace (blockSize : ℕ) : NvmeNamespace where
  nsid := 1
  blockCount := 262144
  blockSize := blockSize
  blocks lba i := if lba = 2048 then sampleBootByte i else 0
  blockCount_lt := by decide

/-- The driver before it mounts a volume of that namespace. -/
def sampleFat (blockSize : ℕ) : Fat where
  namespaces := [sampleNamespace blockSize]
  volume := ⟨0, 0, 0, 0, 0, 0, 0, 0, 0, 0, 0, 0, 0, 0, 0, [], 0, [], []⟩
  answers := []
  kmallocDenials := []
  stale _ := 0
  failures := 0
  reads := []

/-- A partition from block 2048 of the given size. -/
def samplePartition (sectors : ℕ) (h : sectors ≤ 131072) : GptPartition :=
  ⟨2048, 2047 + sectors, by decide, by omega⟩

/-- The driver with the sample volume. -/
def sampleMounted (blockSize : ℕ) : Fat :=
  (fat32Mount 1 (samplePartition 131072 le_rfl) (sampleFat blockSize)).2

/-- With blocks as large as the sectors, every transfer fits. -/
theorem reads_fit_iff_512 : (sampleNamespace 512).blockSize ≤ 512 ∧
    ∀ ops, ∀ r ∈ (FatOp.run (sampleMounted 512) ops).reads, r.Fits := by
  have hmount : (fat32Mount 1 (samplePartition 131072 le_rfl) (sampleFat 512)).1 = some () := by
    decide +kernel
  refine ⟨le_rfl, ?_⟩
  exact (reads_fit_iff (eq_of_fst_eq_some hmount) rfl rfl).mpr (.inl (by decide +kernel))

/-- On a namespace of 4096-byte blocks, a cluster of one 512-byte sector overruns its buffer. -/
theorem reads_overrun_4096 :
    (fat32Mount 1 (samplePartition 131072 le_rfl) (sampleFat 4096)).1 = some () ∧
      ∃ r ∈ (FatOp.run (sampleMounted 4096) [.cluster 2]).reads, ¬r.Fits := by
  decide +kernel

section

variable {s s' : Fat} {nsid : ℕ} {partition : GptPartition} {ns : NvmeNamespace}

/-! ## The extent of the partition -/

theorem GptPartition.end_le (p : GptPartition) : p.startingLba + p.sectorCount ≤ 2 ^ 64 := by
  have h1 := p.startingLba_lt
  have h2 := p.endingLba_lt
  unfold sectorCount wrap64
  split <;> omega

/-- The state with an empty record. -/
def Fat.forget (s : Fat) : Fat := { s with reads := [] }

/-- The transfer stays inside the partition. -/
def NvmeRead.Inside (partition : GptPartition) (r : NvmeRead) : Prop :=
  partition.startingLba ≤ r.lba ∧ r.lba + r.count ≤ partition.startingLba + partition.sectorCount

instance (partition : GptPartition) (r : NvmeRead) : Decidable (r.Inside partition) :=
  inferInstanceAs (Decidable (_ ∧ _))

/-- The sectors before the clusters and the clusters lie inside the volume, and the volume inside
the partition, in exact arithmetic. -/
def Fat32Bpb.Contained (bpb : Fat32Bpb) (v : Fat32Volume) : Prop :=
  v.reservedSectorCount + v.numFats * v.fatSize + bpb.rootDirSectors +
      v.totalClusters * v.sectorsPerCluster ≤ v.totalSectors ∧
    v.totalSectors ≤ v.partitionSectorCount

instance (bpb : Fat32Bpb) (v : Fat32Volume) : Decidable (bpb.Contained v) :=
  inferInstanceAs (Decidable (_ ∧ _))

namespace Fat32Bpb

variable {bpb : Fat32Bpb}

/-- Where the exact difference is no wraparound, the clusters end with the volume. -/
theorem Bounded.clusters_le (h : bpb.Bounded) (hmeta : bpb.metaSectors ≤ bpb.totalSectors) :
    bpb.metaSectors + bpb.totalClusters * bpb.sectorsPerCluster ≤ bpb.totalSectors := by
  have hdata : bpb.dataSectors = bpb.totalSectors - bpb.metaSectors := by
    rw [dataSectors_eq, sub32_of_le hmeta h.totalSectors_lt]
  have hmul : bpb.totalClusters * bpb.sectorsPerCluster ≤ bpb.dataSectors := Nat.div_mul_le_self _ _
  omega

/-- The sectors of the first FAT lie before the clusters. -/
theorem Bounded.fat_le (h : bpb.Bounded) :
    bpb.reservedSectorCount + bpb.fatSize ≤ bpb.metaSectors := by
  have hfat : 1 * bpb.fatSize ≤ bpb.numFats * bpb.fatSize := Nat.mul_le_mul_right _ h.numFats_pos
  unfold metaSectors
  omega

theorem Bounded.fat_inside (h : bpb.Bounded) {partition : GptPartition} {idx bytes room : ℕ}
    (hmeta : bpb.metaSectors ≤ bpb.totalSectors) (htotal : bpb.totalSectors ≤ partition.sectorCount)
    (hidx : idx < bpb.fatSize) :
    NvmeRead.Inside partition
      ⟨wrap64 (wrap64 (partition.startingLba + bpb.reservedSectorCount) + idx), 1, bytes, room⟩ := by
  have hfat := h.fat_le
  have hend := partition.end_le
  have hlba : wrap64 (wrap64 (partition.startingLba + bpb.reservedSectorCount) + idx) =
      partition.startingLba + bpb.reservedSectorCount + idx := by
    unfold wrap64
    omega
  rw [NvmeRead.Inside]
  dsimp only
  omega

theorem Bounded.cluster_inside (h : bpb.Bounded) {partition : GptPartition} {nsid c bytes room : ℕ}
    (hmeta : bpb.metaSectors ≤ bpb.totalSectors) (htotal : bpb.totalSectors ≤ partition.sectorCount)
    (hc : ¬(bpb.volume nsid partition []).geometry.outside c) :
    NvmeRead.Inside partition
      ⟨clusterToLba (bpb.volume nsid partition []).geometry c, bpb.sectorsPerCluster, bytes,
        room⟩ := by
  have hend := partition.end_le
  have hclusters := h.clusters_le hmeta
  have hspc := h.sectorsPerCluster_pos
  obtain ⟨hc2, hc⟩ := not_or.mp hc
  have hcount : c - 2 + 1 ≤ bpb.totalClusters := by
    have hc : c < wrap32 (bpb.totalClusters + 2) := Nat.lt_of_not_le hc
    unfold wrap32 at hc
    omega
  have hmul := Nat.mul_le_mul_right bpb.sectorsPerCluster hcount
  rw [add_mul] at hmul
  have hlba : clusterToLba (bpb.volume nsid partition []).geometry c =
      partition.startingLba + bpb.metaSectors + (c - 2) * bpb.sectorsPerCluster := by
    rw [clusterToLba, if_neg hc2]
    show wrap64 (wrap64 (wrap64 (partition.startingLba + bpb.reservedSectorCount) +
      bpb.numFats * bpb.fatSize + bpb.rootDirSectors) + (c - 2) * bpb.sectorsPerCluster) = _
    unfold metaSectors at *
    unfold wrap64
    omega
  rw [NvmeRead.Inside]
  dsimp only
  omega

end Fat32Bpb

/-- **The volume lies inside the partition, and so does every later transfer**, exactly when the
sectors before the clusters and the volume do in exact arithmetic. -/
theorem contained_iff (hmount : fat32Mount nsid partition s = (some (), s'))
    (hns : s.namespace? nsid = some ns) :
    ((bootSector s ns partition).Contained s'.volume ∧
      ∀ ops, ∀ r ∈ (FatOp.run s'.forget ops).reads, r.Inside partition) ↔
    (bootSector s ns partition).metaSectors ≤ (bootSector s ns partition).totalSectors ∧
      (bootSector s ns partition).totalSectors ≤ partition.sectorCount := by
  have h := fat32Mount_mounted hmount hns
  have hb : (bootSector s ns partition).Bounded := Fat32Bpb.ofBytes_bounded h.accepted
  set bpb := bootSector s ns partition
  have hcontained : bpb.Contained s'.volume ↔
      bpb.metaSectors + bpb.totalClusters * bpb.sectorsPerCluster ≤ bpb.totalSectors ∧
        bpb.totalSectors ≤ partition.sectorCount := by
    show Fat32Bpb.Contained _ s'.volume.geometry ↔ _
    rw [h.volume_eq]
    rfl
  rw [hcontained]
  constructor
  · rintro ⟨⟨hmeta, htotal⟩, -⟩
    exact ⟨le_trans (Nat.le_add_right _ _) hmeta, htotal⟩
  · rintro ⟨hmeta, htotal⟩
    have hrecorded : Recorded (bpb.volume nsid partition []).geometry s'.namespaces
        (NvmeRead.Inside partition) s'.forget :=
      ⟨h.volume_eq, h.cache_length, rfl, fun _ hr => nomatch hr⟩
    refine ⟨⟨hb.clusters_le hmeta, htotal⟩, fun ops => ?_⟩
    refine (FatOp.run_keeps (recorded_invariant ?_ ?_) hrecorded ops).reads
    · intro ns' _ c _ idx hidx
      exact hb.fat_inside hmeta htotal hidx
    · intro ns' _ c hc room _
      exact hb.cluster_inside hmeta htotal hc

end

/-- On a partition as large as the volume, everything lies inside. -/
theorem contained_iff_whole : 131072 ≤ (samplePartition 131072 le_rfl).sectorCount ∧
    ∀ ops, ∀ r ∈ (FatOp.run (sampleMounted 512).forget ops).reads,
      r.Inside (samplePartition 131072 le_rfl) := by
  have hmount : (fat32Mount 1 (samplePartition 131072 le_rfl) (sampleFat 512)).1 = some () := by
    decide +kernel
  have hns : (sampleFat 512).namespace? 1 = some (sampleNamespace 512) := rfl
  have hcontained := (contained_iff (eq_of_fst_eq_some hmount) hns).mpr (by decide +kernel)
  exact ⟨by decide, hcontained.2⟩

/-- The volume is mounted from a partition of 100 sectors, and its first cluster lies outside. -/
theorem not_contained_100 :
    (fat32Mount 1 (samplePartition 100 (by decide)) (sampleFat 512)).1 = some () ∧
      ¬(bootSector (sampleFat 512) (sampleNamespace 512) (samplePartition 100 (by decide))).Contained
        (fat32Mount 1 (samplePartition 100 (by decide)) (sampleFat 512)).2.volume ∧
      ∃ r ∈ (FatOp.run (fat32Mount 1 (samplePartition 100 (by decide)) (sampleFat 512)).2
        [.cluster 2]).reads, ¬r.Inside (samplePartition 100 (by decide)) := by
  decide +kernel

end NovaOS.Fs
