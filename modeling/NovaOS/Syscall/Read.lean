import NovaOS.Syscall.Files

/-!
# Reading from a descriptor

Reference: `kernel/syscall/sysread.c`.

`sysRead` moves the offset of the handle by all that it is going to read, and only then asks for memory and
transfers the bytes. `sysRead_exact_iff` says when the result, the buffer and the offset agree.
-/

namespace NovaOS.Syscall

open NovaOS.Drivers List

/-- `FILE_IO_CHUNK`. -/
def fileIoChunk : ℕ := 65536

/-- `step`: how much the loop of `sysRead` reads next. -/
def readStep (toRead totalRead : ℕ) : ℕ :=
  if toRead - totalRead > fileIoChunk then fileIoChunk else toRead - totalRead

/-- What the calls inside `sysRead` give: whether the range of the buffer is valid, whether `kmalloc`
succeeds, the bytes that `fs_read` reads of a file at an offset, none if it fails, and whether
`copy_to_user` succeeds at a distance from the start of the buffer. -/
structure ReadCalls where
  validateUserRange : Bool
  kmalloc : Bool
  fsRead : (path : CString) → (offset size : ℕ) → List UInt8
  copyToUser : ℕ → Bool

namespace ReadCalls

/-- The loop of `sysRead` from `currentFileOffset`, and the buffer after it. -/
def readLoop (c : ReadCalls) (path : CString) (currentFileOffset toRead totalRead : ℕ)
    (buf : List UInt8) : ℤ × List UInt8 :=
  if totalRead < toRead then
    match c.fsRead path (currentFileOffset + totalRead) (readStep toRead totalRead) with
    | [] => (if totalRead > 0 then totalRead else -5, buf)
    | b :: bytes =>
      let stepRead := bytes.length + 1
      if !c.copyToUser totalRead then (-14, buf)
      else
        let buf := buf.take totalRead ++ (b :: bytes) ++ buf.drop (totalRead + stepRead)
        if stepRead < readStep toRead totalRead then (totalRead + stepRead, buf)
        else c.readLoop path currentFileOffset toRead (totalRead + stepRead) buf
  else (totalRead, buf)
termination_by toRead - totalRead

/-- `sysRead` of a process with the file table `s`: the result, the buffer and the table. -/
def sysRead (c : ReadCalls) (fd : ℤ) (count : ℕ) (buf : List UInt8) (s : Files) :
    ℤ × List UInt8 × Files :=
  if count = 0 then (0, buf, s)
  else if fd = 0 then (0, buf, s)
  else if fd < 0 ∨ fd = 1 ∨ fd = 2 then (-9, buf, s)
  else if !c.validateUserRange then (-14, buf, s)
  else
    match s.lookup fd.toNat with
    | none => (-9, buf, s)
    | some fh =>
      if fh.isDir then (-21, buf, s)
      else if fh.offset ≥ fh.size then (0, buf, s)
      else
        let available := fh.size - fh.offset
        let toRead := if count < available then count else available
        let s := { s with
          slots := s.slots.set fd.toNat (some { fh with offset := fh.offset + toRead }) }
        if !c.kmalloc then (-12, buf, s)
        else
          let (ret, buf) := c.readLoop fh.name fh.offset toRead 0 buf
          (ret, buf, s)

/-- What a caller can rely on: a result that is no error is the number of bytes that are in the buffer and
that the offset has moved by, and an error leaves the offset. -/
structure Exact (file : List UInt8) (fh : FileHandle) (fd : ℕ) (r : ℤ × List UInt8 × Files) : Prop where
  data : ∀ n : ℕ, r.1 = n → r.2.1.take n = (file.drop fh.offset).take n
  moved : ∀ n : ℕ, r.1 = n → r.2.2.lookup fd = some { fh with offset := fh.offset + n }
  unmoved : r.1 < 0 → r.2.2.lookup fd = some fh

/-- What `fs_read` reads is of the file, but maybe less than was asked for. -/
def Reads (c : ReadCalls) (path : CString) (file : List UInt8) : Prop :=
  ∀ offset size, c.fsRead path offset size <+: (file.drop offset).take size

/-- The pass of the loop at a distance reads all that it asks for and copies it. -/
def Delivers (c : ReadCalls) (path : CString) (offset toRead totalRead : ℕ) : Prop :=
  (c.fsRead path (offset + totalRead) (readStep toRead totalRead)).length = readStep toRead totalRead ∧
    c.copyToUser totalRead = true

/-- No call of the transfer fails or comes up short. -/
def Served (c : ReadCalls) (path : CString) (offset toRead : ℕ) : Prop :=
  c.kmalloc = true ∧ ∀ k, k * fileIoChunk < toRead → c.Delivers path offset toRead (k * fileIoChunk)

variable {c : ReadCalls} {path : CString} {file : List UInt8} {offset toRead total : ℕ}

theorem readStep_pos (h : total < toRead) : 0 < readStep toRead total := by
  unfold readStep fileIoChunk
  split <;> omega

/-- The buffer after one more piece. -/
theorem take_append_piece {buf bytes : List UInt8} (hlen : total ≤ buf.length)
    (hbuf : buf.take total = (file.drop offset).take total)
    (hbytes : bytes <+: file.drop (offset + total)) :
    (buf.take total ++ bytes ++ buf.drop (total + bytes.length)).take (total + bytes.length) =
      (file.drop offset).take (total + bytes.length) := by
  have hfront : (buf.take total ++ bytes).length = total + bytes.length := by
    rw [length_append, length_take, Nat.min_eq_left hlen]
  rw [take_left' hfront, take_add, drop_drop, ← prefix_iff_eq_take.mp hbytes, hbuf]

/-- The passes from a distance on are the pass there and those after its step. -/
theorem forall_delivers (hlt : total < toRead) :
    (∀ k, total + k * fileIoChunk < toRead → c.Delivers path offset toRead (total + k * fileIoChunk)) ↔
      c.Delivers path offset toRead total ∧ ∀ k, total + readStep toRead total + k * fileIoChunk < toRead →
        c.Delivers path offset toRead (total + readStep toRead total + k * fileIoChunk) := by
  have hstep : readStep toRead total = fileIoChunk ∨
      total + readStep toRead total = toRead ∧ toRead ≤ total + fileIoChunk := by
    unfold readStep
    split <;> omega
  have hshift (k : ℕ) : total + (k + 1) * fileIoChunk = total + fileIoChunk + k * fileIoChunk := by
    rw [Nat.succ_mul]
    omega
  constructor
  · refine fun h => ⟨by simpa using h 0 (by simpa using hlt), fun k hk => ?_⟩
    obtain hstep | hstep := hstep
    · rw [hstep, ← hshift] at hk ⊢
      exact h _ hk
    · omega
  · rintro ⟨hhere, hrest⟩ (_ | k) hk
    · simpa using hhere
    · rw [hshift] at hk ⊢
      obtain hstep | hstep := hstep
      · rw [hstep] at hrest
        exact hrest k hk
      · omega

/-- The loop reads all if and only if every pass delivers, and then the buffer holds the file's bytes. -/
theorem readLoop_spec (hfs : c.Reads path file) {buf : List UInt8} (hle : total ≤ toRead)
    (hlen : total ≤ buf.length) (hbuf : buf.take total = (file.drop offset).take total) :
    ((c.readLoop path offset toRead total buf).1 = toRead ↔
      ∀ k, total + k * fileIoChunk < toRead → c.Delivers path offset toRead (total + k * fileIoChunk)) ∧
    ((c.readLoop path offset toRead total buf).1 = toRead →
      (c.readLoop path offset toRead total buf).2.take toRead = (file.drop offset).take toRead) := by
  have hstep {total : ℕ} (hlt : total < toRead) : total + readStep toRead total ≤ toRead := by
    unfold readStep
    split <;> omega
  have hread_le (total : ℕ) :
      (c.fsRead path (offset + total) (readStep toRead total)).length ≤ readStep toRead total := by
    exact Nat.le_trans (hfs _ _).length_le (length_take_le _ _)
  fun_induction readLoop c path offset toRead total buf with
  | case1 total buf hlt hread =>
    have hne : ((if total > 0 then (total : ℤ) else -5) : ℤ) ≠ toRead := by split <;> omega
    refine ⟨iff_of_false hne fun h => ?_, fun h => absurd h hne⟩
    have hfull := ((forall_delivers hlt).mp h).1.1
    rw [hread] at hfull
    exact absurd hfull (Nat.ne_of_lt (readStep_pos hlt))
  | case2 total buf hlt b bytes hread hcopy =>
    have hne : (-14 : ℤ) ≠ toRead := by omega
    refine ⟨iff_of_false hne fun h => ?_, fun h => absurd h hne⟩
    rw [((forall_delivers hlt).mp h).1.2] at hcopy
    cases hcopy
  | case3 total buf hlt b bytes hread stepRead hcopy buf' hshort =>
    have hne : ((total + stepRead : ℕ) : ℤ) ≠ toRead := by
      have := hstep hlt
      omega
    refine ⟨iff_of_false hne fun h => ?_, fun h => absurd h hne⟩
    exact absurd ((congrArg length hread).symm.trans ((forall_delivers hlt).mp h).1.1) (Nat.ne_of_lt hshort)
  | case4 total buf hlt b bytes hread stepRead hcopy buf' hfull ih =>
    have hread' : stepRead = readStep toRead total := by
      have := hread_le total
      rw [hread] at this
      exact Nat.le_antisymm this (Nat.le_of_not_lt hfull)
    have hhere : c.Delivers path offset toRead total :=
      ⟨(congrArg length hread).trans hread', by simpa using hcopy⟩
    have hpiece : b :: bytes <+: file.drop (offset + total) :=
      hread ▸ (hfs _ _).trans ( take_prefix _ _)
    have hlen' : total + stepRead ≤ buf'.length := by
      simp only [buf', stepRead, length_append, length_cons, length_take]
      omega
    obtain ⟨hiff, hdata⟩ := ih (hread' ▸ hstep hlt) hlen' (take_append_piece hlen hbuf hpiece)
    refine ⟨?_, hdata⟩
    rw [hiff, forall_delivers hlt, hread', and_iff_right hhere]
  | case5 total buf hlt =>
    obtain rfl : total = toRead := by omega
    exact ⟨iff_of_true rfl fun k hk => by omega, fun _ => hbuf⟩

section Exact

variable {s : Files} {fd : ℕ} {fh : FileHandle} {buf : List UInt8} {r : ℤ}

/-- A call that gives nothing and leaves the offset is exact. -/
theorem exact_of_nonpos (hopen : s.lookup fd = some fh) (hr : r ≤ 0) : Exact file fh fd (r, buf, s) := by
  refine ⟨fun n hn => ?_, fun n hn => ?_, fun _ => hopen⟩
  all_goals
    obtain rfl : n = 0 := by dsimp only at hn; omega
    first | rfl | exact hopen

/-- Past the move of the offset only the full count is exact. -/
theorem Exact.eq_moved {toRead : ℕ} (h : Exact file fh fd (r, buf, s))
    (hlookup : s.lookup fd = some { fh with offset := fh.offset + toRead }) (hpos : 0 < toRead) :
    r = toRead := by
  cases r with
  | ofNat n =>
    have hoffset := congrArg (·.offset) (Option.some.inj (hlookup.symm.trans (h.moved n rfl)))
    exact congrArg Int.ofNat (Nat.add_left_cancel hoffset).symm
  | negSucc n =>
    have hoffset := congrArg (·.offset)
      (Option.some.inj (hlookup.symm.trans (h.unmoved (Int.negSucc_lt_zero n))))
    dsimp only at hoffset
    omega

end Exact

/-- A read of an open file is exact if and only if it ends before the transfer, or nothing in the transfer
fails or comes up short. -/
theorem sysRead_exact_iff {s : Files} {fd : ℕ} {fh : FileHandle} (hopen : s.lookup fd = some fh)
    (hfile : fh.isDir = false) (hfs : c.Reads fh.name file) (count : ℕ) (buf : List UInt8) :
    Exact file fh fd (c.sysRead fd count buf s) ↔
      (2 < fd → count ≠ 0 → c.validateUserRange = true → fh.offset < fh.size →
        c.Served fh.name fh.offset (min count (fh.size - fh.offset))) := by
  have hslot : fd < s.slots.length := by
    by_contra hge
    rw [Files.lookup, getElem?_eq_none (by omega)] at hopen
    cases hopen
  have htoRead : (if count < fh.size - fh.offset then count else fh.size - fh.offset) =
      min count (fh.size - fh.offset) := by
    split <;> omega
  rw [sysRead, Int.toNat_natCast, hopen]
  dsimp only
  rw [htoRead]
  generalize htr : min count (fh.size - fh.offset) = toRead
  have hlookup : Files.lookup { s with
      slots := s.slots.set fd (some { fh with offset := fh.offset + toRead }) } fd =
        some { fh with offset := fh.offset + toRead } :=
    (Files.lookup_set hslot _ fd).trans (if_pos rfl)
  split_ifs with hcount hin hstd hrange hdir hend hmem
  · exact iff_of_true (exact_of_nonpos hopen (by decide)) fun _ h => absurd hcount h
  · exact iff_of_true (exact_of_nonpos hopen (by decide)) fun h => by omega
  · exact iff_of_true (exact_of_nonpos hopen (by decide)) fun h => by omega
  · exact iff_of_true (exact_of_nonpos hopen (by decide)) fun _ _ h => by simp [h] at hrange
  · simp [hfile] at hdir
  · exact iff_of_true (exact_of_nonpos hopen (by decide)) fun _ _ _ h => by omega
  all_goals
    have hpos : 0 < toRead := by omega
    have hrun : 2 < fd ∧ count ≠ 0 ∧ c.validateUserRange = true ∧ fh.offset < fh.size :=
      ⟨by omega, hcount, by simpa using hrange, by omega⟩
  · refine iff_of_false (fun h => absurd (h.eq_moved hlookup hpos) (by omega)) fun h => ?_
    rw [(h hrun.1 hrun.2.1 hrun.2.2.1 hrun.2.2.2).1] at hmem
    cases hmem
  · obtain ⟨hloop, hdata⟩ := readLoop_spec hfs (Nat.zero_le toRead) (Nat.zero_le buf.length)
      (show buf.take 0 = (file.drop fh.offset).take 0 from rfl)
    simp only [Nat.zero_add] at hloop
    constructor
    · intro h _ _ _ _
      exact ⟨by simpa using hmem, hloop.mp (h.eq_moved hlookup hpos)⟩
    · intro h
      have hall := hloop.mpr (h hrun.1 hrun.2.1 hrun.2.2.1 hrun.2.2.2).2
      refine ⟨fun n hn => ?_, fun n hn => ?_, fun hneg => absurd hneg (by dsimp only; omega)⟩
      all_goals rw [← Int.ofNat.inj (hall.symm.trans hn)]
      · exact hdata hall
      · exact hlookup

/-! ## A file of five bytes -/

/-- A process that has opened the file `a` of five bytes as descriptor 3. -/
def fiveOpen : Files := ⟨some 0, [none, none, none, some ⟨1, 2, [0x61], 0, 5, 0, false⟩], 3, []⟩

/-- Every call succeeds, but for `kmalloc` as given. -/
def fiveCalls (kmalloc : Bool) : ReadCalls :=
  ⟨true, kmalloc, fun _ offset size => ([1, 2, 3, 4, 5].drop offset).take size, fun _ => true⟩

theorem sysRead_exact_iff_five :
    Exact [1, 2, 3, 4, 5] ⟨1, 2, [0x61], 0, 5, 0, false⟩ 3
      ((fiveCalls true).sysRead 3 4 [0, 0, 0, 0] fiveOpen) := by
  refine (sysRead_exact_iff rfl rfl (fun offset size => prefix_refl _) 4 _).mpr fun _ _ _ _ => ⟨rfl, ?_⟩
  intro k hk
  obtain rfl : k = 0 := by
    have : k * 65536 < 4 := hk
    omega
  exact ⟨rfl, rfl⟩

/-- Without memory for the chunk the call fails, and the offset has moved to the end of the file. -/
theorem sysRead_moved_without_memory :
    ((fiveCalls false).sysRead 3 5 [0, 0, 0, 0, 0] fiveOpen).1 = -12 ∧
      (((fiveCalls false).sysRead 3 5 [0, 0, 0, 0, 0] fiveOpen).2.2.lookup 3).map (·.offset) = some 5 ∧
      ¬Exact [1, 2, 3, 4, 5] ⟨1, 2, [0x61], 0, 5, 0, false⟩ 3
        ((fiveCalls false).sysRead 3 5 [0, 0, 0, 0, 0] fiveOpen) := by
  refine ⟨by decide, by decide, fun h => ?_⟩
  have hsame := h.unmoved (by decide)
  exact absurd hsame (by decide)

end ReadCalls

end NovaOS.Syscall
