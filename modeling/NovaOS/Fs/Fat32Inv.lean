import NovaOS.Fs.Fat32

/-!
# Invariants of the FAT32 driver

Every access of the driver to the device goes through `fetchFatSector` and `readCluster`, and every
allocation through `kmalloc`. `Invariant g I` says that those three keep `I` on a volume of geometry
`g`; the theorems of this module carry such a predicate through the cluster chains, the directory
walk and the file reader, and from there through whole runs.
-/

namespace NovaOS.Fs

open NovaOS.Lib Fallible Fat List

/-- The volume without its cache: what stays as `fat32_mount` wrote it. -/
def Fat32Volume.geometry (v : Fat32Volume) : Fat32Volume :=
  { v with fatCache := [], fatCacheLba := 0 }

/-- The accesses to the device and the heap keep `I`, on a volume of geometry `g`. -/
structure Invariant (g : Fat32Volume) (I : Fat → Prop) : Prop where
  geometry : ∀ s, I s → s.volume.geometry = g
  kmalloc : ∀ n, Triple I (Fat.kmalloc n) (fun buf s => I s ∧ buf.length = n) I
  fetch : ∀ c idx, ¬g.outside c → idx < g.fatSize →
    Keeps I (fetchFatSector (wrap64 (g.fatStartLba + idx)))
  read : ∀ c buf, g.bytesPerCluster ≤ buf.length →
    Triple I (readCluster c buf) (fun buf' s => I s ∧ buf'.length = buf.length) I

namespace Invariant

variable {g : Fat32Volume} {I : Fat → Prop}

/-- A continuation that is told the geometry of the volume it is given. -/
theorem bind_volume {α : Type} {f : Fat32Volume → Fallible Fat α} {Q : α → Fat → Prop}
    (h : Invariant g I) (hf : ∀ v, v.geometry = g → Triple I (f v) Q I) :
    Triple I (Fallible.reads Fat.volume >>= f) Q I :=
  .bind_fact (.reads fun s hs => ⟨hs, h.geometry s hs⟩) hf

theorem bind_keeps {α β : Type} {x : Fallible Fat α} {f : α → Fallible Fat β} {Q : β → Fat → Prop}
    (hx : Keeps I x) (hf : ∀ a, Triple I (f a) Q I) : Triple I (x >>= f) Q I := .bind hx hf

theorem keeps_pure {α : Type} (a : α) : Keeps I (pure a : Fallible Fat α) := .pure fun _ hs => hs

theorem keeps_fail {α : Type} : Keeps I (fail : Fallible Fat α) := .fail fun _ hs => hs

/-! ## Cluster chains

A walk that succeeds has seen a cluster in range. -/

theorem getNextCluster_inside (h : Invariant g I) (c : ℕ) :
    Triple I (Fs.getNextCluster c) (fun _ s => I s ∧ ¬g.outside c) I := by
  refine h.bind_volume fun v hv => ?_
  subst hv
  refine .ite (fun _ => .fail fun _ hs => hs) fun hout => ?_
  refine .ite (fun _ => .fail fun _ hs => hs) fun hidx => ?_
  refine bind_keeps (h.fetch c _ hout (Nat.lt_of_not_le hidx)) fun _ => ?_
  exact bind_keeps (.reads fun _ hs => hs) fun _ => .pure fun _ hs => ⟨hs, hout⟩

theorem getNextCluster (h : Invariant g I) (c : ℕ) : Keeps I (getNextCluster c) :=
  (h.getNextCluster_inside c).keeps

theorem countChain_inside (h : Invariant g I) (left curr : ℕ) :
    Triple I (Fs.countChain left curr) (fun n s => I s ∧ (n ≠ 0 → ∃ c, ¬g.outside c)) I := by
  induction left generalizing curr with
  | zero =>
    refine .ite (fun _ => .pure fun _ hs => ⟨hs, fun hn => absurd rfl hn⟩) fun _ => ?_
    exact .ite (fun _ => .fail fun _ hs => hs) fun _ => .fail fun _ hs => hs
  | succ left ih =>
    refine .ite (fun _ => .pure fun _ hs => ⟨hs, fun hn => absurd rfl hn⟩) fun _ => ?_
    refine .ite (fun _ => .fail fun _ hs => hs) fun _ => ?_
    refine .bind_fact (h.getNextCluster_inside curr) fun next hout => ?_
    exact bind_keeps (ih next).keeps fun _ => .pure fun _ hs => ⟨hs, fun _ => ⟨curr, hout⟩⟩

variable {buf dest : List UInt8}

section

variable (h : Invariant g I)
include h

/-- The second pass stays inside its buffer: `left` clusters of it are left. -/
theorem readChain (left curr : ℕ) (hbuf : buf.length = left * g.bytesPerCluster) :
    Triple I (readChain g.bytesPerCluster left curr buf)
      (fun buf' s => I s ∧ buf'.length = buf.length) I := by
  induction left generalizing curr buf with
  | zero => exact .pure fun s hs => ⟨hs, rfl⟩
  | succ left ih =>
    have hle : g.bytesPerCluster ≤ buf.length := by
      rw [hbuf, add_mul]
      omega
    refine .ite (fun _ => .pure fun s hs => ⟨hs, rfl⟩) fun _ => ?_
    refine .bind_fact (h.read curr buf hle) fun buf' hlen => ?_
    refine bind_keeps (h.getNextCluster curr) fun next => ?_
    have hrest : (buf'.drop g.bytesPerCluster).length = left * g.bytesPerCluster := by
      rw [length_drop, hlen, hbuf, add_mul]
      omega
    refine .bind_fact (ih next hrest) fun rest hlen' => .pure fun s hs => ⟨hs, ?_⟩
    rw [length_append, length_take, hbuf, add_mul]
    omega

theorem readClusterChain_inside (start : ℕ) :
    Triple I (Fs.readClusterChain start) (fun buf s => I s ∧ (buf ≠ [] → ∃ c, ¬g.outside c)) I := by
  refine .ite (fun _ => .fail fun _ hs => hs) fun _ => ?_
  refine h.bind_volume fun v hv => ?_
  refine .bind_fact (h.countChain_inside _ start) fun count hcount => ?_
  refine .ite (fun _ => .pure fun _ hs => ⟨hs, fun hn => absurd rfl hn⟩) fun hne => ?_
  refine .bind_fact (h.kmalloc _) fun buf hlen => ?_
  have hbpc : v.bytesPerCluster = g.bytesPerCluster := by rw [← hv]; rfl
  rw [hbpc] at hlen ⊢
  exact (h.readChain count start hlen).mono (fun _ hs => hs)
    (fun _ _ hq => ⟨hq.1, fun _ => hcount hne⟩) fun _ he => he

/-! ## Directories -/

theorem listDirCluster_inside (c : ℕ) :
    Triple I (Fs.listDirCluster c) (fun _ s => I s ∧ ∃ c, ¬g.outside c) I := by
  refine .ite (fun _ => .fail fun _ hs => hs) fun _ => ?_
  refine .bind (h.readClusterChain_inside c) fun buf => ?_
  exact .ite (fun _ => .fail fun _ hs => hs.1) fun hne => .pure fun _ hs => ⟨hs.1, hs.2 hne⟩

/-- An entry that a path leads to has been found in a directory, so some cluster is in range. -/
theorem findInDir_inside (c : ℕ) (name : List UInt8) :
    Triple I (Fs.findInDir c name) (fun _ s => I s ∧ ∃ c, ¬g.outside c) I := by
  refine .ite (fun _ => .fail fun _ hs => hs) fun _ => ?_
  refine .bind (h.listDirCluster_inside c) fun entries => ?_
  split
  · exact .fail fun _ hs => hs.1
  · exact .pure fun _ hs => hs

theorem statLoop (fuel : ℕ) (p : List UInt8) (c : ℕ) (e : Fat32DirEntry) :
    Keeps I (statLoop fuel p c e) := by
  induction fuel generalizing p c e with
  | zero => exact keeps_pure _
  | succ fuel ih =>
    refine .ite (fun _ => keeps_pure _) fun _ => ?_
    refine .ite (fun _ => ih _ _ _) fun _ => ?_
    refine bind_keeps (h.kmalloc _).keeps fun _ => ?_
    refine bind_keeps (h.findInDir_inside c _).keeps fun e' => ?_
    refine .ite (fun _ => keeps_pure _) fun _ => ?_
    exact .ite (fun _ => keeps_fail) fun _ => ih _ _ _

theorem fat32Stat (path : List UInt8) : Keeps I (fat32Stat path) := by
  refine h.bind_volume fun v _ => ?_
  exact .ite (fun _ => keeps_pure _) fun _ => h.statLoop _ _ _ _

theorem fat32ListDir (path : List UInt8) : Keeps I (fat32ListDir path) := by
  refine h.bind_volume fun v _ => ?_
  refine .ite (fun _ => (h.listDirCluster_inside _).keeps) fun _ => ?_
  refine bind_keeps (h.fat32Stat path) fun e => ?_
  exact .ite (fun _ => keeps_fail) fun _ => (h.listDirCluster_inside _).keeps

theorem fat32Stat_inside (path : List UInt8) :
    Triple I (Fs.fat32Stat path)
      (fun e s => I s ∧ (e.isDirectory = false → ∃ c, ¬g.outside c)) I := by
  refine h.bind_volume fun v _ => ?_
  refine .ite (fun _ => .pure fun _ hs => ⟨hs, nofun⟩) fun hp => ?_
  -- the rest of the path starts with a component, which is looked up in the first turn
  generalize hrest : path.dropWhile isSeparator = p at hp ⊢
  obtain ⟨a, p, rfl⟩ := exists_cons_of_ne_nil hp
  have ha : isSeparator a = false := by
    have := head?_dropWhile_not isSeparator path
    rw [hrest] at this
    simpa using this
  refine .ite (fun hnil => absurd hnil hp) fun _ => ?_
  refine .ite (fun htoken => ?_) fun _ => ?_
  · rw [takeWhile_cons, ha] at htoken
    cases htoken
  refine bind_keeps (h.kmalloc _).keeps fun _ => ?_
  refine .bind_fact (h.findInDir_inside _ _) fun e' hinside => ?_
  refine Triple.mono (Q := fun _ => I) (E := I) ?_ (fun _ hs => hs)
    (fun _ _ hq => ⟨hq, fun _ => hinside⟩) fun _ he => he
  refine .ite (fun _ => keeps_pure _) fun _ => ?_
  exact .ite (fun _ => keeps_fail) fun _ => h.statLoop _ _ _ _

/-! ## Files -/

theorem skipClusters (n curr : ℕ) : Keeps I (skipClusters n curr) := by
  induction n generalizing curr with
  | zero => exact keeps_pure _
  | succ n ih =>
    refine .ite (fun _ => keeps_fail) fun _ => ?_
    exact bind_keeps (h.getNextCluster curr) fun next => ih next

end

variable {temp : Option (List UInt8)}

section

variable (h : Invariant g I)
include h

theorem tempCluster (htemp : ∀ buf ∈ temp, buf.length = g.bytesPerCluster) :
    Triple I (tempCluster g.bytesPerCluster temp)
      (fun buf s => I s ∧ buf.length = g.bytesPerCluster) I := by
  cases temp with
  | none => exact h.kmalloc _
  | some buf => exact .pure fun s hs => ⟨hs, htemp buf rfl⟩

/-- A whole cluster goes to the destination only where it has room for one; both ways leave a
destination of the same length. -/
theorem readChunk {curr clusterOffset chunk : ℕ}
    (htemp : ∀ buf ∈ temp, buf.length = g.bytesPerCluster) (hdest : chunk ≤ dest.length) :
    Triple I (readChunk g.bytesPerCluster curr clusterOffset chunk temp dest)
      (fun r s => I s ∧ (∀ buf ∈ r.1, buf.length = g.bytesPerCluster) ∧
        r.2.length = dest.length) I := by
  refine .ite (fun hwhole => ?_) fun _ => ?_
  · exact .bind_fact (h.read curr dest (by omega)) fun dest' hlen =>
      .pure fun s hs => ⟨hs, htemp, hlen⟩
  · refine .bind_fact (h.tempCluster htemp) fun buf hlen => ?_
    refine .bind_fact (h.read curr buf hlen.ge) fun buf' hlen' => .pure fun s hs => ?_
    refine ⟨hs, fun b hb => ?_, length_fill _ _⟩
    obtain rfl := Option.mem_some_iff.mp hb
    exact hlen'.trans hlen

theorem nextWhileLeft (remaining curr : ℕ) : Keeps I (nextWhileLeft remaining curr) :=
  .ite (fun _ => h.getNextCluster curr) fun _ => keeps_pure _

theorem readLoop (fuel remaining curr clusterOffset : ℕ)
    (htemp : ∀ buf ∈ temp, buf.length = g.bytesPerCluster) (hdest : remaining ≤ dest.length) :
    Keeps I (readLoop g.bytesPerCluster fuel remaining curr clusterOffset temp dest) := by
  induction fuel generalizing remaining curr clusterOffset temp dest with
  | zero => exact keeps_pure _
  | succ fuel ih =>
    refine .ite (fun _ => keeps_pure _) fun _ => ?_
    have hle : min (g.bytesPerCluster - clusterOffset) remaining ≤ remaining := Nat.min_le_right _ _
    refine .bind_fact (h.readChunk htemp (hle.trans hdest)) fun r hr => ?_
    refine bind_keeps (h.nextWhileLeft _ curr) fun next => ?_
    refine bind_keeps (ih _ next 0 hr.1 ?_) fun _ => keeps_pure _
    rw [length_drop]
    omega

theorem fat32Read (path : List UInt8) (offset : ℕ) {size : ℕ} (hsize : size ≤ buf.length) :
    Keeps I (fat32Read path offset size buf) := by
  refine bind_keeps (h.fat32Stat path) fun e => ?_
  refine .ite (fun _ => keeps_fail) fun _ => ?_
  refine .ite (fun _ => keeps_pure _) fun hrange => ?_
  refine h.bind_volume fun v hv => ?_
  have hbpc : v.bytesPerCluster = g.bytesPerCluster := by rw [← hv]; rfl
  refine bind_keeps (h.skipClusters _ _) fun curr => ?_
  rw [hbpc]
  refine bind_keeps (h.readLoop _ _ _ _ (fun buf hbuf => by cases hbuf) ?_) fun _ => keeps_pure _
  split
  · have := wrap64_le (offset + size)
    omega
  · exact hsize

theorem fat32ReadFile (path : List UInt8) : Keeps I (fat32ReadFile path) := by
  refine bind_keeps (h.fat32Stat path) fun e => ?_
  refine .ite (fun _ => keeps_fail) fun _ => ?_
  refine .ite (fun _ => keeps_pure _) fun _ => ?_
  refine .bind_fact (h.kmalloc _) fun buf hlen => ?_
  refine bind_keeps (h.fat32Read path 0 hlen.ge) fun r => ?_
  exact .ite (fun _ => keeps_fail) fun _ => keeps_pure _

end

end Invariant

/-! ## Runs -/

/-- A use of the driver: an entry of the FAT, a cluster into a buffer of one cluster, a whole
chain, or a call of its interface, where the buffer of `fat32_read` holds the bytes asked for. -/
inductive FatOp where
  | fatEntry (cluster : ℕ)
  | cluster (cluster : ℕ)
  | chain (startCluster : ℕ)
  | stat (path : List UInt8)
  | listDir (path : List UInt8)
  | read (path : List UInt8) (offset : ℕ) (buf : List UInt8)
  | readFile (path : List UInt8)

namespace FatOp

/-- The state after one use. -/
def exec (s : Fat) : FatOp → Fat
  | fatEntry c => (getNextCluster c s).2
  | cluster c => (readCluster c (replicate s.volume.bytesPerCluster 0) s).2
  | chain c => (readClusterChain c s).2
  | stat path => (fat32Stat path s).2
  | listDir path => (fat32ListDir path s).2
  | read path offset buf => (fat32Read path offset buf.length buf s).2
  | readFile path => (fat32ReadFile path s).2

/-- The state after a sequence of uses. -/
def run (s : Fat) (ops : List FatOp) : Fat := ops.foldl exec s

variable {g : Fat32Volume} {I : Fat → Prop} {s : Fat}

theorem exec_keeps (h : Invariant g I) (hs : I s) (op : FatOp) : I (exec s op) := by
  cases op with
  | fatEntry c => exact (h.getNextCluster c).apply hs
  | cluster c =>
    have hbpc : s.volume.bytesPerCluster = g.bytesPerCluster := by rw [← h.geometry s hs]; rfl
    refine (h.read c _ ?_).keeps.apply hs
    rw [length_replicate, hbpc]
  | chain c => exact (h.readClusterChain_inside c).keeps.apply hs
  | stat path => exact (h.fat32Stat path).apply hs
  | listDir path => exact (h.fat32ListDir path).apply hs
  | read path offset buf => exact (h.fat32Read path offset le_rfl).apply hs
  | readFile path => exact (h.fat32ReadFile path).apply hs

/-- An invariant of the driver's accesses holds along every run. -/
theorem run_keeps (h : Invariant g I) (hs : I s) (ops : List FatOp) : I (run s ops) := by
  induction ops generalizing s with
  | nil => exact hs
  | cons op ops ih => exact ih (exec_keeps h hs op)

end FatOp

end NovaOS.Fs
