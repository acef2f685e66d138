import NovaOS.Fs.Fat32Mount

/-!
# Reading files of a FAT32 volume

The FAT on the disk gives every cluster its successor (`fatSuccessor`), and a file is the concatenation
of the clusters of a chain. `Coherent` is the invariant of the one-sector cache: it is marked empty,
or it holds the block it names. On a namespace whose blocks are the volume's sectors the driver
keeps it whatever the device answers, and from a coherent state a read that meets no failure
returns the slice of the file it was asked for.
-/

namespace NovaOS.Fs

open NovaOS.Lib Fallible Fat List Option
open NovaOS.Drivers (NvmeNamespace)

/-! ## The file on the disk -/

/-- The successor of a cluster, where its sector of the FAT is on the disk. -/
def fatSuccessor (ns : NvmeNamespace) (v : Fat32Volume) (c : ℕ) : Option ℕ :=
  let idx := wrap32 (c * 4) / v.bytesPerSector
  let lba := wrap64 (v.fatStartLba + idx)
  if idx < v.fatSize ∧ lba < ns.blockCount then
    some (le32 (fun i => (ns.contents lba 1).getD i 0) (wrap32 (c * 4) % v.bytesPerSector) &&&
      fat32ClusterMask)
  else none

/-- The bytes of a cluster. -/
def clusterBytes (ns : NvmeNamespace) (v : Fat32Volume) (c : ℕ) : List UInt8 :=
  ns.contents (clusterToLba v c) v.sectorsPerCluster

/-- The first clusters of the chain from `start`: each is a cluster of the volume, and the FAT links
it to the next. -/
structure ClusterChain (ns : NvmeNamespace) (v : Fat32Volume) (start : ℕ) (cs : List ℕ) : Prop where
  head : ∀ c ∈ cs.head?, c = start
  linked : cs.IsChain fun c next => fatSuccessor ns v c = some next
  valid : ∀ c ∈ cs, 2 ≤ c ∧ c < v.totalClusters + 2 ∧ c < fat32ClusterEoc

theorem ClusterChain.tail {ns : NvmeNamespace} {v : Fat32Volume} {start next c : ℕ}
    {cs : List ℕ} (h : ClusterChain ns v start (c :: cs))
    (hnext : fatSuccessor ns v c = some next) : ClusterChain ns v next cs where
  head c' hc' := by
    cases cs with
    | nil => cases hc'
    | cons d cs =>
      obtain rfl := some.inj hc'
      exact mem_unique (isChain_cons_cons.mp h.linked).1 hnext
  linked := h.linked.tail
  valid c' hc' := h.valid c' (.tail _ hc')

/-! ## The cache -/

/-- A volume of geometry `g` on namespace `ns` whose cache is empty or holds the block it names. -/
structure Coherent (g : Fat32Volume) (ns : NvmeNamespace) (s : Fat) : Prop where
  geometry : s.volume.geometry = g
  namespace_eq : s.namespace? g.nsid = some ns
  cache_length : s.volume.fatCache.length = g.bytesPerSector
  cache : s.volume.fatCacheLba = noLba ∨ (s.volume.fatCacheLba < ns.blockCount ∧
    s.volume.fatCache = ns.contents s.volume.fatCacheLba 1)

section

variable {g : Fat32Volume} {ns : NvmeNamespace} {s : Fat}

theorem Coherent.congr (h : Coherent g ns s) {s' : Fat} (hvolume : s'.volume = s.volume)
    (hnss : s'.namespaces = s.namespaces) : Coherent g ns s' where
  geometry := by rw [hvolume, h.geometry]
  namespace_eq := by
    rw [namespace?, hnss]
    exact h.namespace_eq
  cache_length := by rw [hvolume, h.cache_length]
  cache := by
    rw [hvolume]
    exact h.cache

theorem Coherent.volume_nsid (h : Coherent g ns s) : s.volume.nsid = g.nsid := by
  rw [← h.geometry]
  rfl

/-- The state after the cache has been filled or emptied. -/
theorem Coherent.withCache (h : Coherent g ns s) {cache : List UInt8} {lba : ℕ}
    (hlen : cache.length = g.bytesPerSector)
    (hcache : lba = noLba ∨ (lba < ns.blockCount ∧ cache = ns.contents lba 1)) :
    Coherent g ns (s.withCache cache lba) :=
  ⟨h.geometry, h.namespace_eq, hlen, hcache⟩

/-- A coherent state after as many failures as before. -/
structure Unfailed (g : Fat32Volume) (ns : NvmeNamespace) (n : ℕ) (s : Fat) : Prop where
  coherent : Coherent g ns s
  failures_eq : s.failures = n

/-- What a fetch does in a coherent state: either a failure is counted and the cache emptied, or
the sector is in the cache, unless it is none that the disk has. -/
theorem fetchFatSector_spec (hsize : ns.blockSize = g.bytesPerSector) (n lba : ℕ) :
    Triple (Unfailed g ns n) (fetchFatSector lba)
      (fun _ s => Unfailed g ns n s ∧ (lba < ns.blockCount → s.volume.fatCache = ns.contents lba 1))
      (fun s => Coherent g ns s ∧ n < s.failures) := by
  rintro s ⟨h, hn⟩
  obtain ⟨hhit, heq⟩ | ⟨-, read, cache, t, hpost, heq⟩ := fetchFatSector_cases s lba <;> rw [heq]
  · refine ⟨⟨h, hn⟩, fun hlba => ?_⟩
    have hcount := ns.blockCount_lt
    obtain hno | ⟨-, hcache⟩ := h.cache
    · rw [noLba] at hno
      omega
    · rw [hcache, hhit]
  have ht := h.congr hpost.volume_eq hpost.namespaces_eq
  have hfailures := hpost.failures_eq
  cases read with
  | false =>
    refine ⟨ht.withCache (hpost.length_eq.trans h.cache_length) (.inl rfl), ?_⟩
    rw [if_neg (by decide)] at hfailures
    show n < t.failures
    omega
  | true =>
    obtain ⟨ns', hns', hend, hcache, -⟩ := hpost.read_eq rfl
    rw [h.volume_nsid] at hns'
    obtain rfl : ns = ns' := mem_unique h.namespace_eq hns'
    have hfill : cache = ns.contents lba 1 := by
      rw [hcache, fill_of_length_eq]
      rw [NvmeNamespace.length_contents, one_mul, hsize, h.cache_length]
    refine ⟨⟨ht.withCache (hpost.length_eq.trans h.cache_length) (.inr ⟨hend, hfill⟩), ?_⟩,
      fun _ => hfill⟩
    exact hfailures.trans hn

/-- What a cluster read does in a coherent state. -/
theorem readCluster_spec (n c : ℕ) (buf : List UInt8) :
    Triple (Unfailed g ns n) (readCluster c buf)
      (fun buf' s => Unfailed g ns n s ∧ buf' = fill buf (clusterBytes ns g c))
      (fun s => Coherent g ns s ∧ n ≤ s.failures ∧ (g.outside c ∨ n < s.failures)) := by
  rintro s ⟨h, hn⟩
  obtain ⟨hout, heq⟩ | ⟨-, read, buf', t, hpost, heq⟩ := readCluster_cases s c buf <;> rw [heq]
  · exact ⟨h, hn.ge, .inl (by rw [← h.geometry]; exact hout)⟩
  have ht := h.congr hpost.volume_eq hpost.namespaces_eq
  have hfailures := hpost.failures_eq
  cases read with
  | false =>
    rw [if_neg (by decide)] at hfailures
    exact ⟨ht, by omega, .inr (by omega)⟩
  | true =>
    obtain ⟨ns', hns', -, hbuf', -⟩ := hpost.read_eq rfl
    rw [h.volume_nsid] at hns'
    obtain rfl : ns = ns' := mem_unique h.namespace_eq hns'
    refine ⟨⟨ht, hfailures.trans hn⟩, ?_⟩
    rw [hbuf', ← h.geometry]
    rfl

theorem kmalloc_spec (n size : ℕ) :
    Triple (Unfailed g ns n) (Fat.kmalloc size) (fun buf s => Unfailed g ns n s ∧ buf.length = size)
      (fun s => Coherent g ns s ∧ n < s.failures) := by
  rintro s ⟨h, hn⟩
  obtain ⟨_, heq⟩ | ⟨_, heq⟩ := kmalloc_cases s size <;> rw [heq]
  · refine ⟨h.congr rfl rfl, ?_⟩
    show n < s.failures + 1
    omega
  · exact ⟨⟨h.congr rfl rfl, hn⟩, by rw [length_map, length_range]⟩

/-- A call that adds no failure unless it fails keeps the cache coherent and only adds failures. -/
theorem triple_of_unfailed {α : Type} {x : Fallible Fat α} {Q : α → Prop} {E : ℕ → Fat → Prop}
    (h : ∀ n, Triple (Unfailed g ns n) x (fun a s => Unfailed g ns n s ∧ Q a) (E n))
    (hE : ∀ n s, E n s → Coherent g ns s ∧ n ≤ s.failures) (n : ℕ) :
    Triple (fun s => Coherent g ns s ∧ n ≤ s.failures) x
      (fun a s => (Coherent g ns s ∧ n ≤ s.failures) ∧ Q a)
      (fun s => Coherent g ns s ∧ n ≤ s.failures) := by
  rintro s ⟨hs, hn⟩
  have hpost := h s.failures s ⟨hs, rfl⟩
  rcases hx : x s with ⟨_ | a, s'⟩ <;> rw [hx] at hpost
  · obtain ⟨hs', hle⟩ := hE _ _ hpost
    exact ⟨hs', hn.trans hle⟩
  · obtain ⟨⟨hs', heq⟩, hQ⟩ := hpost
    exact ⟨⟨hs', hn.trans heq.ge⟩, hQ⟩

/-- The driver keeps its cache coherent whatever the device answers, and failures are only added. -/
theorem coherent_invariant (hsize : ns.blockSize = g.bytesPerSector) (n : ℕ) :
    Invariant g fun s => Coherent g ns s ∧ n ≤ s.failures where
  geometry _ hs := hs.1.geometry
  kmalloc size := triple_of_unfailed (kmalloc_spec · size) (fun _ _ h => ⟨h.1, h.2.le⟩) n
  fetch _ _ _ _ :=
    (triple_of_unfailed (Q := fun _ => True) (fun m => (fetchFatSector_spec hsize m _).mono
      (fun _ h => h) (fun _ _ h => ⟨h.1, trivial⟩) fun _ h => h) (fun _ _ h => ⟨h.1, h.2.le⟩) n).keeps
  read c buf _ :=
    (triple_of_unfailed (readCluster_spec · c buf) (fun _ _ h => ⟨h.1, h.2.1⟩) n).mono
      (fun _ h => h) (fun _ _ h => ⟨h.1, h.2 ▸ length_fill _ _⟩) fun _ h => h

theorem Mounted.coherent {s₀ : Fat} {nsid : ℕ} {partition : GptPartition} {s : Fat}
    (h : Mounted s₀ nsid partition ns s) :
    Coherent ((bootSector s₀ ns partition).volume nsid partition []).geometry ns s where
  geometry := h.volume_eq
  namespace_eq := by
    rw [namespace?, h.namespaces_eq]
    exact h.namespace_eq
  cache_length := h.cache_length
  cache := .inl h.cacheLba_eq

/-! ## Following a chain -/

variable {c start curr clusterOffset : ℕ}

variable {temp : Option (List UInt8)} {dest : List UInt8}

/-- A chunk of a cluster reaches the destination by either way. -/
theorem readChunk_spec (hlen : ∀ c, (clusterBytes ns g c).length = g.bytesPerCluster) (n : ℕ)
    {chunk : ℕ} (hin : ¬g.outside curr) (htemp : ∀ buf ∈ temp, buf.length = g.bytesPerCluster)
    (hchunk : clusterOffset + chunk ≤ g.bytesPerCluster) (hdest : chunk ≤ dest.length) :
    Triple (Unfailed g ns n) (readChunk g.bytesPerCluster curr clusterOffset chunk temp dest)
      (fun r s => Unfailed g ns n s ∧ (∀ buf ∈ r.1, buf.length = g.bytesPerCluster) ∧
        r.2 = ((clusterBytes ns g curr).drop clusterOffset).take chunk ++ dest.drop chunk)
      (fun s => n < s.failures) := by
  have hread : ∀ buf, Triple (Unfailed g ns n) (readCluster curr buf)
      (fun buf' s => Unfailed g ns n s ∧ buf' = fill buf (clusterBytes ns g curr))
      (fun s => n < s.failures) := fun buf =>
    (readCluster_spec n curr buf).fail_mono fun _ h => h.2.2.resolve_left hin
  refine .ite (fun hwhole => ?_) fun _ => ?_
  · obtain ⟨rfl, rfl⟩ := hwhole
    refine .bind (hread dest) fun dest' => .pure fun s hs => ⟨hs.1, htemp, ?_⟩
    rw [hs.2, fill_of_length_le ((hlen curr).trans_le hdest), hlen, drop_zero,
      take_of_length_le (hlen curr).le]
  · have hbuf : Triple (Unfailed g ns n) (tempCluster g.bytesPerCluster temp)
        (fun buf s => Unfailed g ns n s ∧ buf.length = g.bytesPerCluster)
        (fun s => n < s.failures) := by
      cases temp with
      | none => exact (kmalloc_spec n _).fail_mono fun _ h => h.2
      | some buf => exact .pure fun _ hs => ⟨hs, htemp buf rfl⟩
    refine .bind_fact hbuf fun buf hbuflen => ?_
    refine .bind (hread buf) fun buf' => .pure fun s hs => ?_
    have hbuf' : buf' = clusterBytes ns g curr := by
      rw [hs.2, fill_of_length_eq ((hlen curr).trans hbuflen.symm)]
    have hslice : (((clusterBytes ns g curr).drop clusterOffset).take chunk).length = chunk := by
      rw [length_take, length_drop, hlen]
      omega
    refine ⟨hs.1, fun b hb => ?_, ?_⟩
    · obtain rfl := mem_some_iff.mp hb
      rw [hbuf', hlen]
    · rw [hbuf', fill_of_length_le (hslice.trans_le hdest), hslice]

variable {cs : List ℕ}

/-- One step along a chain of which the FAT on the disk may know only the first links. -/
theorem ClusterChain.advance {next : ℕ} (h : ClusterChain ns g curr cs)
    (hnext : ∀ d ∈ fatSuccessor ns g curr, next = d) : ClusterChain ns g next cs.tail := by
  match cs with
  | [] => exact ⟨nofun, .nil, nofun⟩
  | [c] => exact ⟨nofun, .nil, nofun⟩
  | c :: d :: cs =>
    have hlink := (isChain_cons_cons.mp h.linked).1
    have hhead := h.head c rfl
    rw [← hhead] at hnext
    exact hnext d hlink ▸ h.tail hlink

/-- A chain starts with a cluster that the loops of the driver accept. -/
theorem ClusterChain.eq_nil (h : ClusterChain ns g curr cs) (hcurr : ¬inChain curr) : cs = [] := by
  match cs with
  | [] => rfl
  | c :: cs =>
    have hvalid := h.valid c (.head _)
    exact absurd ⟨hvalid.1, hvalid.2.2⟩ (h.head c rfl ▸ hcurr)

section

variable (hsize : ns.blockSize = g.bytesPerSector)
include hsize

/-- The successor that `get_next_cluster` returns is the one of the FAT on the disk. -/
theorem getNextCluster_spec (n c : ℕ) :
    Triple (Unfailed g ns n) (getNextCluster c)
      (fun next s => Unfailed g ns n s ∧ ∀ d ∈ fatSuccessor ns g c, next = d)
      (fun s => g.outside c ∨ fatSuccessor ns g c = none ∨ n < s.failures) := by
  refine .bind_fact (p := (·.geometry = g)) (.reads fun _ hs => ⟨hs, hs.1.geometry⟩) fun v hv => ?_
  subst hv
  refine .ite (fun hout => .fail fun _ _ => .inl hout) fun _ => ?_
  refine .ite (fun hidx => .fail fun _ _ => .inr (.inl ?_)) fun hidx => ?_
  · exact if_neg fun h => absurd h.1 (Nat.not_lt_of_le hidx)
  refine .bind ((fetchFatSector_spec hsize n _).fail_mono fun _ h => .inr (.inr h.2)) fun _ => ?_
  refine .bind (.reads (Q := fun cache s => Unfailed v.geometry ns n s ∧
    (wrap64 (v.fatStartLba + wrap32 (c * 4) / v.bytesPerSector) < ns.blockCount →
      cache = ns.contents (wrap64 (v.fatStartLba + wrap32 (c * 4) / v.bytesPerSector)) 1))
    fun _ h => h) fun cache => .pure fun s hs => ⟨hs.1, fun d hd => ?_⟩
  unfold fatSuccessor at hd
  dsimp only at hd
  split at hd
  · rename_i hcond
    rw [hs.2 hcond.2]
    exact some.inj hd
  · cases hd

/-- The link from a cluster of a chain to the next. -/
theorem getNextCluster_linked (n : ℕ) {d : ℕ}
    (hc : ¬g.outside c) (hd : fatSuccessor ns g c = some d) :
    Triple (Unfailed g ns n) (getNextCluster c) (fun next s => Unfailed g ns n s ∧ next = d)
      (fun s => n < s.failures) := by
  refine (getNextCluster_spec hsize n c).mono (fun _ h => h)
    (fun _ _ h => ⟨h.1, h.2 d (mem_def.mpr hd)⟩) fun s h => ?_
  rw [hd] at h
  exact (h.resolve_left hc).resolve_left nofun

/-- The chain that `fat32_read` skips before the first cluster of its range. -/
theorem skipClusters_spec (n : ℕ) {k : ℕ}
    (h : ClusterChain ns g start cs) (hk : k < cs.length) (hin : ∀ c ∈ cs, ¬g.outside c) :
    Triple (Unfailed g ns n) (skipClusters k start)
      (fun curr s => Unfailed g ns n s ∧ ClusterChain ns g curr (cs.drop k))
      (fun s => n < s.failures) := by
  induction k generalizing cs start with
  | zero => exact .pure fun _ hs => ⟨hs, h⟩
  | succ k ih =>
    obtain ⟨c, cs, rfl⟩ := exists_cons_of_length_pos (Nat.zero_lt_of_lt hk)
    rw [length_cons] at hk
    obtain ⟨d, cs, rfl⟩ := exists_cons_of_length_pos (show 0 < cs.length by omega)
    obtain rfl := h.head c rfl
    have hlink := (isChain_cons_cons.mp h.linked).1
    have hvalid := h.valid c (.head _)
    refine .ite (fun hchain => absurd ⟨hvalid.1, hvalid.2.2⟩ hchain) fun _ => ?_
    refine .bind_fact (getNextCluster_linked hsize n (hin c (.head _)) hlink) fun next hnext => ?_
    subst hnext
    exact ih (h.tail hlink) (by omega) fun c' hc' => hin c' (.tail _ hc')

theorem countChain_ge (n left : ℕ) (h : ClusterChain ns g curr cs) :
    Triple (Unfailed g ns n) (countChain left curr)
      (fun m s => Unfailed g ns n s ∧ cs.length ≤ m) (fun _ => True) := by
  induction left generalizing curr cs with
  | zero =>
    refine .ite (fun hcurr => .pure fun _ hs => ⟨hs, by rw [h.eq_nil hcurr]; rfl⟩) fun _ => ?_
    exact .ite (fun _ => .fail fun _ _ => trivial) fun _ => .fail fun _ _ => trivial
  | succ left ih =>
    refine .ite (fun hcurr => .pure fun _ hs => ⟨hs, by rw [h.eq_nil hcurr]; rfl⟩) fun _ => ?_
    refine .ite (fun _ => .fail fun _ _ => trivial) fun _ => ?_
    refine .bind_fact ((getNextCluster_spec hsize n curr).fail_mono fun _ _ => trivial)
      fun next hnext => ?_
    refine .bind (ih (h.advance hnext)) fun m => .pure fun _ hs => ⟨hs.1, ?_⟩
    have hle := hs.2
    rw [length_tail] at hle
    omega

variable (hlen : ∀ c, (clusterBytes ns g c).length = g.bytesPerCluster)
include hlen

/-- **The main loop** copies the slice of the chain's clusters. -/
theorem readLoop_spec (n : ℕ) {fuel remaining : ℕ} (hfuel : remaining ≤ fuel)
    (hchain : remaining ≠ 0 → ClusterChain ns g curr cs)
    (hin : ∀ c ∈ cs, ¬g.outside c) (hoff : clusterOffset < g.bytesPerCluster)
    (hcover : clusterOffset + remaining ≤ cs.length * g.bytesPerCluster ∨ remaining = 0)
    (htemp : ∀ buf ∈ temp, buf.length = g.bytesPerCluster) (hdest : remaining ≤ dest.length) :
    Triple (Unfailed g ns n)
      (readLoop g.bytesPerCluster fuel remaining curr clusterOffset temp dest)
      (fun r s => Unfailed g ns n s ∧
        r = (0, ((cs.flatMap (clusterBytes ns g)).drop clusterOffset).take remaining ++
          dest.drop remaining))
      (fun s => n < s.failures) := by
  induction fuel generalizing remaining curr clusterOffset temp dest cs with
  | zero =>
    obtain rfl := Nat.le_zero.mp hfuel
    exact .pure fun _ hs => ⟨hs, by simp⟩
  | succ fuel ih =>
    rcases Nat.eq_zero_or_pos remaining with rfl | hpos
    · refine .ite (fun _ => .pure fun _ hs => ⟨hs, by simp⟩) fun hcond => ?_
      exact absurd (not_not.mp hcond).1 (lt_irrefl 0)
    have hchain := hchain hpos.ne'
    obtain ⟨c, cs, rfl⟩ : ∃ c cs', cs = c :: cs' :=
      exists_cons_of_ne_nil fun hnil => by
        rw [hnil, length_nil] at hcover
        omega
    obtain rfl := hchain.head c rfl
    have hvalid := hchain.valid c (.head _)
    refine .ite (fun hcond => absurd ⟨hpos, hvalid.1, hvalid.2.2⟩ hcond) fun _ => ?_
    rw [length_cons, add_mul] at hcover
    obtain ⟨chunk, hchunk⟩ : ∃ chunk, chunk = min (g.bytesPerCluster - clusterOffset) remaining :=
      ⟨_, rfl⟩
    rw [← hchunk]
    refine .bind_fact (readChunk_spec hlen n (hin c (.head _)) htemp (by omega) (by omega))
      fun r hr => ?_
    -- the rest of the chain is only needed where bytes are left
    have hnext : Triple (Unfailed g ns n) (nextWhileLeft (remaining - chunk) c)
        (fun next s => Unfailed g ns n s ∧ (remaining - chunk ≠ 0 → ClusterChain ns g next cs))
        (fun s => n < s.failures) := by
      refine .ite (fun hleft => ?_) fun hleft => .pure fun _ hs => ⟨hs, fun h => by omega⟩
      cases cs with
      | nil =>
        rw [length_nil] at hcover
        omega
      | cons d cs =>
        have hlink := (isChain_cons_cons.mp hchain.linked).1
        exact (getNextCluster_linked hsize n (hin c (.head _)) hlink).mono
          (fun _ hs => hs) (fun _ _ hq => ⟨hq.1, fun _ => hq.2 ▸ hchain.tail hlink⟩)
          fun _ he => he
    refine .bind_fact hnext fun next hrest => ?_
    have hslice : (((clusterBytes ns g c).drop clusterOffset).take chunk).length = chunk := by
      rw [length_take, length_drop, hlen]
      omega
    have hdrop : r.2.drop chunk = dest.drop chunk := by
      rw [hr.2, drop_append_of_le_length hslice.ge, drop_of_length_le hslice.le, nil_append]
    refine .bind (ih (by omega) hrest
      (fun c' hc' => hin c' (.tail _ hc')) (by omega) (by omega) hr.1 ?_)
      fun r' => .pure fun s hs => ⟨hs.1, ?_⟩
    · rw [hdrop, length_drop]
      omega
    · have hsum : chunk + (remaining - chunk) = remaining := by omega
      rw [hs.2, hdrop, hr.2, take_append_of_le_length hslice.ge,
        take_of_length_le hslice.le, drop_zero, flatMap_cons,
        take_drop_append (by rw [hlen]; omega), hlen, ← hchunk, drop_drop, hsum,
        append_assoc]

/-- The bytes of a file behind its directory entry. -/
theorem readFrom_spec (n : ℕ) (hchain : ClusterChain ns g start cs) (hin : ∀ c ∈ cs, ¬g.outside c)
    (hbpc : 0 < g.bytesPerCluster) (offset size : ℕ) (buf : List UInt8) (hpos : 0 < size)
    (hcover : offset + size ≤ cs.length * g.bytesPerCluster) (hbuf : size ≤ buf.length) :
    Triple (Unfailed g ns n)
      (do
        let curr ← skipClusters (offset / g.bytesPerCluster) start
        let (left, dest) ← readLoop g.bytesPerCluster size size curr
          (offset % g.bytesPerCluster) none buf
        return (size - left, dest) : Fallible Fat (ℕ × List UInt8))
      (fun r s => Unfailed g ns n s ∧
        r = (size, ((cs.flatMap (clusterBytes ns g)).drop offset).take size ++ buf.drop size))
      (fun s => n < s.failures) := by
  have hdiv := Nat.div_add_mod offset g.bytesPerCluster
  have hmod := Nat.mod_lt offset hbpc
  have hk : offset / g.bytesPerCluster < cs.length := (Nat.div_lt_iff_lt_mul hbpc).mpr (by omega)
  refine .bind_fact (skipClusters_spec hsize n hchain hk hin) fun curr hcurr => ?_
  refine .bind (readLoop_spec hsize hlen n le_rfl (fun _ => hcurr)
    (fun c hc => hin c (mem_of_mem_drop hc)) hmod (.inl ?_) nofun hbuf)
    fun r => .pure fun s hs => ⟨hs.1, ?_⟩
  · rw [length_drop, Nat.sub_mul, mul_comm (offset / g.bytesPerCluster)]
    omega
  · rw [hs.2, ← drop_flatMap_of_length hlen, drop_drop, Nat.sub_zero, mul_comm, hdiv]

theorem readChain_take (n left : ℕ) (h : ClusterChain ns g curr cs) (hleft : cs.length ≤ left)
    {buf : List UInt8}
    (hbuf : buf.length = left * g.bytesPerCluster) :
    Triple (Unfailed g ns n) (readChain g.bytesPerCluster left curr buf)
      (fun file _ => file.take (cs.length * g.bytesPerCluster) = cs.flatMap (clusterBytes ns g))
      (fun _ => True) := by
  induction left generalizing curr cs buf with
  | zero =>
    obtain rfl := eq_nil_of_length_eq_zero (Nat.le_zero.mp hleft)
    exact .pure fun _ _ => by simp
  | succ left ih =>
    refine .ite (fun hcurr => .pure fun _ _ => by rw [h.eq_nil hcurr]; simp) fun _ => ?_
    rw [add_mul] at hbuf
    refine .bind_fact ((readCluster_spec n curr buf).fail_mono fun _ _ => trivial)
      fun buf' hbuf' => ?_
    have hfit : (clusterBytes ns g curr).length ≤ buf.length := by
      rw [hlen]
      omega
    rw [fill_of_length_le hfit] at hbuf'
    refine .bind_fact ((getNextCluster_spec hsize n curr).fail_mono fun _ _ => trivial)
      fun next hnext => ?_
    refine .bind (ih (h.advance hnext) (by rw [length_tail]; omega) ?_)
      fun rest => .pure fun _ hs => ?_
    · rw [hbuf', length_drop, length_append, length_drop]
      omega
    match cs with
    | [] => simp
    | c :: cs =>
      obtain rfl := h.head c rfl
      rw [tail_cons] at hs
      rw [hbuf', take_append_of_le_length (hlen c).ge, take_of_length_le (hlen c).le,
        length_cons, add_mul, one_mul, add_comm, flatMap_cons, ← hs,
        ← hlen c, take_length_add_append]

/-- The buffer of `read_cluster_chain` starts with the clusters that the chain is known to have. -/
theorem readClusterChain_take (n : ℕ) (h : ClusterChain ns g start cs) :
    Triple (Unfailed g ns n) (readClusterChain start)
      (fun file _ => file.take (cs.length * g.bytesPerCluster) = cs.flatMap (clusterBytes ns g))
      (fun _ => True) := by
  refine .ite (fun _ => .fail fun _ _ => trivial) fun _ => ?_
  refine .bind_fact (p := (·.geometry = g)) (.reads fun _ hs => ⟨hs, hs.1.geometry⟩) fun v hv => ?_
  have hbpc : v.bytesPerCluster = g.bytesPerCluster := by rw [← hv]; rfl
  rw [hbpc]
  refine .bind_fact (countChain_ge hsize n _ h) fun count hcount => ?_
  refine .ite (fun hzero => .pure fun _ _ => ?_) fun _ => ?_
  · rw [hzero] at hcount
    obtain rfl := eq_nil_of_length_eq_zero (Nat.le_zero.mp hcount)
    simp
  · refine .bind_fact ((kmalloc_spec n _).fail_mono fun _ _ => trivial) fun buf hbuf => ?_
    exact readChain_take hsize hlen n count h hcount hbuf

end

end

/-! ## Reading a file -/

section

variable {s₀ s₁ : Fat} {nsid : ℕ} {partition : GptPartition} {ns : NvmeNamespace}

/-- Every state of a run of a mounted volume is coherent. -/
theorem Mounted.run_coherent (h : Mounted s₀ nsid partition ns s₁)
    (hsize : ns.blockSize = (bootSector s₀ ns partition).bytesPerSector) (ops : List FatOp) :
    Coherent ((bootSector s₀ ns partition).volume nsid partition []).geometry ns
      (FatOp.run s₁ ops) :=
  (FatOp.run_keeps (coherent_invariant hsize 0) ⟨h.coherent, Nat.zero_le _⟩ ops).1

/-- `fat32_read` after the lookup, in a coherent state: the slice that the file has. -/
theorem fat32Read_found {g : Fat32Volume} {s s' : Fat} {path buf : List UInt8}
    {entry : Fat32DirEntry} {offset size : ℕ} {cs : List ℕ}
    (hsize : ns.blockSize = g.bytesPerSector)
    (hlen : ∀ c, (clusterBytes ns g c).length = g.bytesPerCluster) (hbpc : 0 < g.bytesPerCluster)
    (hstat : fat32Stat path s = (some entry, s')) (hfile : entry.isDirectory = false)
    (hs' : Coherent g ns s') (hchain : ClusterChain ns g entry.startCluster cs)
    (hin : ∀ c ∈ cs, ¬g.outside c) (hcover : entry.fileSize ≤ cs.length * g.bytesPerCluster)
    (hsum : offset + size < 2 ^ 64) (hbuf : size ≤ buf.length)
    (hok : (fat32Read path offset size buf s).2.failures ≤ s'.failures) :
    (fat32Read path offset size buf s).1 = some (min size (entry.fileSize - offset),
      ((cs.flatMap (clusterBytes ns g)).drop offset).take (min size (entry.fileSize - offset)) ++
        buf.drop (min size (entry.fileSize - offset))) := by
  rw [fat32Read, bind_some hstat, hfile, if_neg Bool.false_ne_true] at hok ⊢
  by_cases hempty : offset ≥ entry.fileSize ∨ size = 0
  · rw [if_pos hempty]
    have hmin : min size (entry.fileSize - offset) = 0 := by omega
    rw [hmin]
    rfl
  rw [if_neg hempty] at hok ⊢
  have hmin : (if wrap64 (offset + size) > entry.fileSize then entry.fileSize - offset else size) =
      min size (entry.fileSize - offset) := by
    rw [wrap64_of_lt hsum]
    split <;> omega
  rw [hmin] at hok ⊢
  have hvolume : s'.volume.bytesPerCluster = g.bytesPerCluster := by rw [← hs'.geometry]; rfl
  rw [bind_reads, hvolume] at hok ⊢
  have hspec := readFrom_spec hsize hlen s'.failures hchain hin hbpc offset
    (min size (entry.fileSize - offset)) buf (by omega) (by omega) (by omega)
  obtain ⟨r, t, heq, hpost⟩ := hspec.total ⟨hs', rfl⟩ (not_lt.mpr hok)
  rw [heq, hpost.2]

/-- **Reading a file of a mounted volume.** On a namespace whose blocks are the volume's sectors,
after any use of the driver whatever the device answered, a `fat32_read` of a regular file that
meets no failure returns the bytes that the file has of the range, which are the slice of its
cluster chain and of what `read_cluster_chain` returns for it at any other time. -/
theorem fat32Read_slice (hmount : fat32Mount nsid partition s₀ = (some (), s₁))
    (hns : s₀.namespace? nsid = some ns)
    (hsize : ns.blockSize = (bootSector s₀ ns partition).bytesPerSector) (before : List FatOp)
    {path buf : List UInt8} {entry : Fat32DirEntry} {offset size : ℕ} {cs : List ℕ}
    (hstat : (fat32Stat path (FatOp.run s₁ before)).1 = some entry)
    (hfile : entry.isDirectory = false)
    (hchain : ClusterChain ns s₁.volume entry.startCluster cs)
    (hcover : (entry.fileSize + (s₁.volume.bytesPerCluster - 1)) / s₁.volume.bytesPerCluster ≤
      cs.length)
    (hsum : offset + size < 2 ^ 64) (hbuf : size ≤ buf.length)
    (hok : (fat32Read path offset size buf (FatOp.run s₁ before)).2.failures =
      (FatOp.run s₁ before).failures) :
    (fat32Read path offset size buf (FatOp.run s₁ before)).1 =
        some (min size (entry.fileSize - offset),
          ((cs.flatMap (clusterBytes ns s₁.volume)).drop offset).take
            (min size (entry.fileSize - offset)) ++
          buf.drop (min size (entry.fileSize - offset))) ∧
      ∀ after file, (readClusterChain entry.startCluster (FatOp.run s₁ after)).1 = some file →
        ((cs.flatMap (clusterBytes ns s₁.volume)).drop offset).take
            (min size (entry.fileSize - offset)) =
          (file.drop offset).take (min size (entry.fileSize - offset)) := by
  have h := fat32Mount_mounted hmount hns
  set g := ((bootSector s₀ ns partition).volume nsid partition []).geometry
  have hg : s₁.volume.geometry = g := h.volume_eq
  have hpos : 0 < g.bytesPerCluster := Nat.mul_pos
    (Nat.pos_of_ne_zero fun hz => h.accepted.2.1 (.inl hz))
    (Nat.pos_of_ne_zero fun hz => h.accepted.2.2.1 (.inl hz))
  have hlen : ∀ c, (clusterBytes ns g c).length = g.bytesPerCluster := fun c => by
    rw [clusterBytes, NvmeNamespace.length_contents, hsize, mul_comm]
    rfl
  have hbytes : clusterBytes ns s₁.volume = clusterBytes ns g := by rw [← hg]; rfl
  have hchain' : ClusterChain ns g entry.startCluster cs := by
    rw [← hg]
    exact ⟨hchain.head, hchain.linked, hchain.valid⟩
  have hbpc : s₁.volume.bytesPerCluster = g.bytesPerCluster := by rw [← hg]; rfl
  have hcover' : entry.fileSize ≤ cs.length * g.bytesPerCluster := by
    rw [hbpc] at hcover
    have hmul := Nat.mul_le_mul_right g.bytesPerCluster hcover
    have hmod := Nat.mod_lt (entry.fileSize + (g.bytesPerCluster - 1)) hpos
    have hdiv := Nat.div_add_mod (entry.fileSize + (g.bytesPerCluster - 1)) g.bytesPerCluster
    rw [mul_comm] at hdiv
    omega
  rw [hbytes]
  constructor
  · -- the lookup leaves a coherent state, and no failure has been added in it
    have hs := h.run_coherent hsize before
    obtain ⟨s', hstat'⟩ : ∃ s', fat32Stat path (FatOp.run s₁ before) = (some entry, s') :=
      ⟨_, eq_of_fst_eq_some hstat⟩
    have hpost := ((coherent_invariant hsize (FatOp.run s₁ before).failures).fat32Stat_inside
      path).returns ⟨hs, le_rfl⟩ hstat'
    refine fat32Read_found hsize hlen hpos hstat' hfile hpost.1.1 hchain' (fun c hc => ?_) hcover'
      hsum hbuf (hok.le.trans hpost.1.2)
    -- a cluster of the chain is in range, once any cluster is
    obtain ⟨d, hd⟩ : ∃ d, ¬g.outside d := hpost.2 hfile
    have hvalid := hchain'.valid c hc
    have htotal : g.totalClusters < 2 ^ 32 := lt_of_le_of_lt (Nat.div_le_self _ _) (sub32_lt _ _)
    unfold Fat32Volume.outside wrap32 at *
    omega
  · intro after file hfile'
    have htake := (readClusterChain_take hsize hlen _ hchain').returns
      ⟨h.run_coherent hsize after, rfl⟩ (eq_of_fst_eq_some hfile')
    rw [← htake, drop_take, take_take]
    congr 1
    omega

/-- After any use of a mounted volume, whatever the device answered, a successor that
`get_next_cluster` returns is the one that the FAT on the disk has. -/
theorem getNextCluster_disk (hmount : fat32Mount nsid partition s₀ = (some (), s₁))
    (hns : s₀.namespace? nsid = some ns)
    (hsize : ns.blockSize = (bootSector s₀ ns partition).bytesPerSector) (ops : List FatOp)
    {c next : ℕ} (hnext : (getNextCluster c (FatOp.run s₁ ops)).1 = some next) :
    ∀ d ∈ fatSuccessor ns s₁.volume c, next = d := by
  have h := fat32Mount_mounted hmount hns
  have hpost := (getNextCluster_spec hsize _ c).returns ⟨h.run_coherent hsize ops, rfl⟩
    (eq_of_fst_eq_some hnext)
  rw [← h.volume_eq] at hpost
  exact hpost.2

end

/-! ## A file of two clusters -/

/-- The sample volume with the file `A` of 515 bytes in the clusters 3 and 5. -/
def sampleFileByte (lba i : ℕ) : UInt8 :=
  if lba = 2048 then sampleBootByte i
  else if lba = 2080 then
    if i = 12 then 5 else if 8 ≤ i ∧ i < 12 ∨ 20 ≤ i ∧ i < 24 then 0xFF else 0
  else if lba = 4128 then
    match i with
    | 0 => 0x41
    | 11 => 0x20
    | 26 => 3
    | 28 => 3
    | 29 => 2
    | _ => if i < 11 then 0x20 else 0
  else if lba = 4129 then .ofNat i
  else if lba = 4131 ∧ i < 3 then 0x80 + .ofNat i
  else 0

/-- The namespace that holds it. -/
def sampleFileNamespace : NvmeNamespace := { sampleNamespace 512 with blocks := sampleFileByte }

/-- The driver after it has mounted the volume. -/
def sampleFileMounted : Fat :=
  (fat32Mount 1 (samplePartition 131072 (Nat.le_refl _))
    { sampleFat 512 with namespaces := [sampleFileNamespace] }).2

/-- The driver was used before, and the cache holds another sector of the FAT. -/
def sampleFileUse : List FatOp := [.stat [0x42], .chain 3, .readFile [0x41], .fatEntry 1000]

/-- Ten bytes from offset 508 of the file are its last seven, from both clusters. -/
theorem fat32Read_slice_seven :
    (fat32Read [0x41] 508 10 (replicate 10 7) (FatOp.run sampleFileMounted sampleFileUse)).1 =
      some (min 10 (515 - 508),
        (([3, 5].flatMap (clusterBytes sampleFileNamespace sampleFileMounted.volume)).drop 508).take
          (min 10 (515 - 508)) ++ (replicate 10 7).drop (min 10 (515 - 508))) := by
  have hmount : fat32Mount 1 (samplePartition 131072 le_rfl)
      { sampleFat 512 with namespaces := [sampleFileNamespace] } = (some (), sampleFileMounted) :=
    eq_of_fst_eq_some (by decide +kernel)
  have hstat : (fat32Stat [0x41] (FatOp.run sampleFileMounted sampleFileUse)).1 =
      some ⟨[0x41], 3, 515, 0x20, false⟩ := by decide +kernel
  have hnext : fatSuccessor sampleFileNamespace sampleFileMounted.volume 3 = some 5 := by decide +kernel
  have hchain : ClusterChain sampleFileNamespace sampleFileMounted.volume 3 [3, 5] :=
    ⟨fun c hc => (some.inj hc).symm, .cons_cons hnext (.singleton 5), by decide +kernel⟩
  exact (fat32Read_slice hmount rfl (by decide +kernel) sampleFileUse hstat rfl hchain
    (by decide +kernel) (by decide) (by decide) (by decide +kernel)).1

theorem getNextCluster_disk_sample :
    5 = (fatSuccessor sampleFileNamespace sampleFileMounted.volume 3).getD 0 :=
  @getNextCluster_disk { sampleFat 512 with namespaces := [sampleFileNamespace] } sampleFileMounted 1
    (samplePartition 131072 le_rfl) sampleFileNamespace (eq_of_fst_eq_some (by decide +kernel)) rfl
    (by decide +kernel) sampleFileUse 3 _ (by decide +kernel) _ (by decide +kernel)

end NovaOS.Fs
