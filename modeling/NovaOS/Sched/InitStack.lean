import NovaOS.Lib.Stack
import NovaOS.Sched.SpawnRun

/-!
# The initial stack of a process

Reference: `kernel/sched/sched.c` (`schedSpawn`), `lib/ldso/rtld.c` (`ldMain`).

`schedSpawn` fills the top page of the stack of a new process from its end: the strings of `argv` and
`envp`, 16 random bytes, the auxiliary vector and the arrays of pointers. `ldMain` walks over them from the
stack pointer. A byte of the page is named by its user address; the kernel writes it through the direct map.
-/

namespace NovaOS.Sched

open NovaOS.Lib NovaOS.Mem List DownStack

/-! ## The kernel -/

/-- The loop over strings, the last one first, with their addresses. -/
def pushStrings : List (List UInt8) → DownStack → List ℕ × DownStack
  | [], s => ([], s)
  | str :: strs, s =>
    let (ptrs, s) := pushStrings strs s
    let s := s.push (str ++ [0])
    (s.sp :: ptrs, s)

/-- Two numbers at `sp` and `sp + 8`. -/
def pushPair (pair : ℕ × ℕ) (s : DownStack) : DownStack :=
  let sp := sub64 s.sp 16
  ⟨writeBytes (writeBytes s.mem sp (toLe 8 pair.1)) (sp + 8) (toLe 8 pair.2), sp⟩

/-- The random numbers, from the time stamp counter and the process. -/
def randomData (tsc : BitVec 64) (pid : BitVec 32) : ℕ × ℕ :=
  let first := tsc ^^^ 0x9e3779b97f4a7c15#64
  (first.toNat, ((first >>> 17) ^^^ (pid.setWidth 64 <<< 16) ^^^ 0xbf58476d1ce4e5b9#64).toNat)

/-- What `schedSpawn` has found out for the auxiliary vector. -/
structure AuxValues where
  appPhdrUserAddr : BitVec 64
  ePhentsize : BitVec 16
  ePhnum : BitVec 16
  interpBase : BitVec 64
  entry : BitVec 64

/-- The auxiliary vector: `AT_PHDR`, `AT_PHENT`, `AT_PHNUM`, `AT_PAGESZ`, `AT_BASE`, `AT_FLAGS`, `AT_ENTRY`,
`AT_RANDOM` and `AT_NULL`. -/
def AuxValues.auxv (v : AuxValues) (randomPtr : ℕ) : List (ℕ × ℕ) :=
  [(3, v.appPhdrUserAddr.toNat), (4, v.ePhentsize.toNat), (5, v.ePhnum.toNat), (6, pageSize),
    (7, v.interpBase.toNat), (8, 0), (9, v.entry.toNat), (25, randomPtr), (0, 0)]

/-- The part of `schedSpawn` that fills the stack. Where the caller passes no `argv` it is the name of the
process, and no `envp` is the empty one. -/
def initStack (argv envp : List (List UInt8)) (v : AuxValues) (random : ℕ × ℕ) : DownStack :=
  let (userArgvPtrs, s) := pushStrings argv ⟨fun _ => 0, userStackTop⟩
  let (userEnvpPtrs, s) := pushStrings envp s
  let s := pushPair random s
  let auxv := v.auxv s.sp
  let s := { s with sp := s.sp / 16 * 16 }
  let totalQwords := auxv.length * 2 + 1 + envp.length + 1 + argv.length + 1
  let s := if sub64 s.sp (totalQwords * 8) % 16 ≠ 0 then s.push (toLe 8 0) else s
  let s := auxv.foldr pushPair s
  let s := s.push (toLe 8 0)
  let s := pushAll userEnvpPtrs s
  let s := s.push (toLe 8 0)
  let s := pushAll userArgvPtrs s
  s.push (toLe 8 argv.length)

/-! ## The dynamic loader -/

/-- What `ldMain` finds: `argc`, the pointers of `argv` and `envp`, and the auxiliary entries up to
`AT_NULL`. -/
structure StartInfo where
  argc : ℤ
  argv : List ℕ
  envp : List ℕ
  auxv : List (ℕ × ℕ)

/-- The loop over `envp`, with the pointers it passes; it runs out of steps as `none`. -/
def scanPtrs (mem : ℕ → UInt8) : (fuel p : ℕ) → Option (List ℕ)
  | 0, _ => none
  | fuel + 1, p =>
    if le64 mem p = 0 then some [] else (scanPtrs mem fuel (p + 8)).map (le64 mem p :: ·)

/-- The loop over the auxiliary vector, with the entries it passes and the one it stops at. -/
def scanAuxv (mem : ℕ → UInt8) : (fuel p : ℕ) → Option (List (ℕ × ℕ))
  | 0, _ => none
  | fuel + 1, p =>
    let entry := (le64 mem p, le64 mem (p + 8))
    if entry.1 = 0 then some [entry] else (scanAuxv mem fuel (p + 16)).map (entry :: ·)

/-- The walk of `ldMain` over the stack. -/
def ldWalk (mem : ℕ → UInt8) (fuel sp : ℕ) : Option StartInfo := do
  let argc := (BitVec.ofNat 32 (le64 mem sp)).toInt
  let argv := sp + 8
  let envp := ((argv + 8 * (argc + 1)) % 2 ^ 64).toNat
  let envPtrs ← scanPtrs mem fuel envp
  let auxv ← scanAuxv mem fuel (envp + 8 * envPtrs.length + 8)
  return ⟨argc, (range argc.toNat).map fun i => le64 mem (argv + 8 * i), envPtrs, auxv⟩

/-- The string at `p`, up to its end or to `fuel` bytes. -/
def cString (mem : ℕ → UInt8) : (fuel p : ℕ) → List UInt8
  | 0, _ => []
  | fuel + 1, p => if mem p = 0 then [] else mem p :: cString mem fuel (p + 1)

/-! ## The strings -/

/-- The bytes of strings with their ends. -/
def stringBytes (strs : List (List UInt8)) : ℕ := (strs.map (·.length + 1)).sum

variable {strs : List (List UInt8)} {s : DownStack}

theorem pushStrings_spec (hlt : s.sp < 2 ^ 64) (hroom : stringBytes strs ≤ s.sp) :
    (pushStrings strs s).2.sp = s.sp - stringBytes strs ∧ s.Extends (pushStrings strs s).2 ∧
      Forall₂ (fun p str => ((pushStrings strs s).2.sp ≤ p ∧ p < s.sp) ∧
        BytesAt (pushStrings strs s).2.mem p (str ++ [0])) (pushStrings strs s).1 strs := by
  induction strs with
  | nil => exact ⟨rfl, .refl s, .nil⟩
  | cons str strs ih =>
    have hbytes : stringBytes (str :: strs) = str.length + 1 + stringBytes strs := by
      simp [stringBytes]
    obtain ⟨hsp, hext, hptrs⟩ := ih (by omega)
    rw [pushStrings]
    generalize pushStrings strs s = r at *
    obtain ⟨ptrs, s'⟩ := r
    dsimp only at *
    have hlen : (str ++ [0]).length = str.length + 1 := by simp
    have hsp' := push_sp (s := s') (l := str ++ [0]) (by omega) (by omega)
    have hext' := push_extends (s := s') (l := str ++ [0]) (by omega) (by omega)
    refine ⟨by omega, hext.trans hext', .cons ⟨⟨le_rfl, by omega⟩, push_bytesAt _ _⟩ ?_⟩
    exact hptrs.imp fun p str' hp => ⟨⟨by omega, hp.1.2⟩, hext'.bytesAt hp.2 hp.1.1⟩

variable {mem : ℕ → UInt8} {str : List UInt8} {fuel a last : ℕ}

theorem cString_eq (hstr : 0 ∉ str) {p : ℕ} (hfuel : str.length < fuel)
    (h : BytesAt mem p (str ++ [0])) : cString mem fuel p = str := by
  induction str generalizing fuel p with
  | nil =>
    obtain _ | fuel := fuel
    · omega
    have hend : mem p = 0 := h 0 (by simp)
    rw [cString, if_pos hend]
  | cons c str ih =>
    obtain _ | fuel := fuel
    · omega
    obtain ⟨hc, hrest⟩ := bytesAt_append.mp (cons_append ▸ h : BytesAt mem p ([c] ++ (str ++ [0])))
    have hfirst : mem p = c := hc 0 (by simp)
    have hrest : BytesAt mem (p + 1) (str ++ [0]) := hrest
    have hne : c ≠ 0 := fun heq => hstr (heq ▸ (.head _))
    rw [cString, hfirst, if_neg hne, ih (fun hmem => hstr (.tail _ hmem)) _ hrest]
    rw [length_cons] at hfuel
    omega

/-! ## The arrays -/

/-- The numbers of an auxiliary vector. -/
def auxWords (auxv : List (ℕ × ℕ)) : List ℕ := auxv.flatMap fun entry => [entry.1, entry.2]

theorem length_auxWords (auxv : List (ℕ × ℕ)) : (auxWords auxv).length = 2 * auxv.length := by
  rw [auxWords, length_flatMap_of_length (n := 2) fun _ => rfl, mul_comm]

theorem pushPair_eq {pair : ℕ × ℕ} (hlt : s.sp < 2 ^ 64) (hroom : 16 ≤ s.sp) :
    pushPair pair s = pushAll [pair.1, pair.2] s := by
  have hsp : sub64 s.sp 16 = s.sp - 16 := sub64_of_le hroom hlt
  have hsp1 : sub64 s.sp 8 = s.sp - 16 + 8 := by
    rw [sub64_of_le (by omega) hlt]
    omega
  have hsp2 : sub64 (s.sp - 16 + 8) 8 = s.sp - 16 := by
    rw [sub64_of_le (by omega) (by omega)]
    omega
  simp only [pushPair, pushAll, foldr, push, length_toLe, hsp, hsp1, hsp2]
  rw [writeBytes_comm _ (by rw [length_toLe])]

variable {auxv : List (ℕ × ℕ)}

theorem foldr_pushPair (hlt : s.sp < 2 ^ 64) (hroom : 16 * auxv.length ≤ s.sp) :
    auxv.foldr pushPair s = pushAll (auxWords auxv) s := by
  induction auxv with
  | nil => rfl
  | cons entry auxv ih =>
    rw [length_cons] at hroom
    have hlen := length_auxWords auxv
    obtain ⟨hsp, -⟩ : (pushAll (auxWords auxv) s).sp = _ ∧ _ := pushAll_spec hlt (by omega)
    rw [foldr_cons, ih (by omega), pushPair_eq (by omega) (by omega)]
    rfl

variable {ptrs : List ℕ}

/-- The loop over `envp` stops at the null pointer. -/
theorem scanPtrs_eq (hptrs : ∀ p ∈ ptrs, p ≠ 0 ∧ p < 2 ^ 64) (hfuel : ptrs.length < fuel)
    (h : BytesAt mem a ((ptrs ++ [0]).flatMap (toLe 8))) : scanPtrs mem fuel a = some ptrs := by
  induction ptrs generalizing fuel a with
  | nil =>
    obtain _ | fuel := fuel
    · omega
    have hnull : le64 mem a = 0 := by
      apply BytesAt.le64_eq _ (by decide)
      simpa using h
    rw [scanPtrs, if_pos hnull]
  | cons p ptrs ih =>
    rw [length_cons] at hfuel
    obtain _ | fuel := fuel
    · omega
    rw [cons_append, flatMap_cons, bytesAt_append, length_toLe] at h
    obtain ⟨hne, hlt⟩ := hptrs p (.head _)
    rw [scanPtrs, h.1.le64_eq hlt, if_neg hne, ih (fun q hq => hptrs q (.tail _ hq)) (by omega) h.2]
    rfl

/-- The loop over the auxiliary vector stops at `AT_NULL`. -/
theorem scanAuxv_eq (hauxv : ∀ entry ∈ auxv, entry.1 ≠ 0 ∧ entry.1 < 2 ^ 64 ∧ entry.2 < 2 ^ 64)
    (hlast : last < 2 ^ 64) (hfuel : auxv.length < fuel)
    (h : BytesAt mem a ((auxWords (auxv ++ [(0, last)])).flatMap (toLe 8))) :
    scanAuxv mem fuel a = some (auxv ++ [(0, last)]) := by
  have hentry : ∀ (entry : ℕ × ℕ) rest a, entry.1 < 2 ^ 64 → entry.2 < 2 ^ 64 →
      BytesAt mem a ((auxWords (entry :: rest)).flatMap (toLe 8)) →
        (le64 mem a, le64 mem (a + 8)) = entry ∧ BytesAt mem (a + 16) ((auxWords rest).flatMap (toLe 8)) := by
    intro entry rest a h1 h2 h
    change BytesAt mem a ((entry.1 :: entry.2 :: auxWords rest).flatMap (toLe 8)) at h
    rw [flatMap_cons, bytesAt_append, flatMap_cons, bytesAt_append] at h
    obtain ⟨hfirst, hsecond, hrest⟩ := h
    exact ⟨Prod.ext (hfirst.le64_eq h1) (hsecond.le64_eq h2), hrest⟩
  induction auxv generalizing fuel a with
  | nil =>
    obtain _ | fuel := fuel
    · omega
    obtain ⟨heq, -⟩ := hentry (0, last) [] a (by simp) hlast h
    rw [scanAuxv, heq]
    rfl
  | cons entry auxv ih =>
    rw [length_cons] at hfuel
    obtain _ | fuel := fuel
    · omega
    obtain ⟨hne, h1, h2⟩ := hauxv entry (.head _)
    obtain ⟨heq, hrest⟩ := hentry entry _ a h1 h2 h
    rw [scanAuxv, heq, if_neg hne, ih (fun e he => hauxv e (.tail _ he)) (by omega) hrest]
    rfl

/-! ## The whole image -/

/-- The bytes from the initial stack pointer to the end of the page. -/
def imageSize (argv envp : List (List UInt8)) : ℕ :=
  let totalQwords := 21 + argv.length + envp.length
  (stringBytes argv + stringBytes envp + 16 + 15) / 16 * 16 + (totalQwords + 1) / 2 * 16

/-- The arrays of the image. -/
def stackWords (argvPtrs envpPtrs : List ℕ) (auxv : List (ℕ × ℕ)) : List ℕ :=
  argvPtrs.length :: (argvPtrs ++ [0]) ++ (envpPtrs ++ [0]) ++ auxWords auxv

/-- What `schedSpawn` leaves on the stack: strings, random numbers and the arrays with their addresses. -/
theorem initStack_spec {argv envp : List (List UInt8)} (v : AuxValues) (random : ℕ × ℕ)
    (hfit : imageSize argv envp ≤ pageSize) : let s := initStack argv envp v random
    s.sp = userStackTop - imageSize argv envp ∧
      ∃ argvPtrs envpPtrs randomPtr,
        (∀ p ∈ argvPtrs, s.sp ≤ p ∧ p < userStackTop) ∧ (∀ p ∈ envpPtrs, s.sp ≤ p ∧ p < userStackTop) ∧
        Forall₂ (fun p str => BytesAt s.mem p (str ++ [0])) argvPtrs argv ∧
        Forall₂ (fun p str => BytesAt s.mem p (str ++ [0])) envpPtrs envp ∧
        randomPtr < userStackTop ∧ BytesAt s.mem randomPtr (toLe 8 random.1 ++ toLe 8 random.2) ∧
        BytesAt s.mem s.sp ((stackWords argvPtrs envpPtrs (v.auxv randomPtr)).flatMap (toLe 8)) := by
  intro s
  simp only [imageSize, pageSize] at hfit
  obtain ⟨hsp1, hext1, hargv⟩ : (pushStrings argv ⟨fun _ => 0, userStackTop⟩).2.sp = _ ∧ _ ∧ _ :=
    pushStrings_spec (by decide) (by simp only [userStackTop]; omega)
  have hs : s = initStack argv envp v random := rfl
  rw [initStack] at hs
  generalize pushStrings argv ⟨fun _ => 0, userStackTop⟩ = r1 at *
  obtain ⟨argvPtrs, s1⟩ := r1
  dsimp only at *
  have htop : userStackTop = 0x00007FFFFFFFE000 := rfl
  obtain ⟨hsp2, hext2, henvp⟩ : (pushStrings envp s1).2.sp = _ ∧ _ ∧ _ :=
    pushStrings_spec (by omega) (by omega)
  generalize pushStrings envp s1 = r2 at *
  obtain ⟨envpPtrs, s2⟩ := r2
  dsimp only at *
  rw [pushPair_eq (by omega) (by omega)] at hs
  obtain ⟨hsp3, hext3, hrandom⟩ : (pushAll [random.1, random.2] s2).sp = s2.sp - 8 * 2 ∧ _ ∧ _ :=
    pushAll_spec (by omega) (by simp only [length_cons, length_nil]; omega)
  generalize pushAll [random.1, random.2] s2 = s3 at *
  -- the stack pointer is rounded down, and lowered once more where the arrays have an odd length
  have hext4 : s3.Extends { s3 with sp := s3.sp / 16 * 16 } := ⟨Nat.div_mul_le_self _ _, fun _ _ => rfl⟩
  obtain ⟨s5, hpad, hsp5, hext5⟩ : ∃ s5, (if sub64 (s3.sp / 16 * 16)
      (((v.auxv s3.sp).length * 2 + 1 + envp.length + 1 + argv.length + 1) * 8) % 16 ≠ 0 then
        ({ s3 with sp := s3.sp / 16 * 16 } : DownStack).push (toLe 8 0)
      else { s3 with sp := s3.sp / 16 * 16 }) = s5 ∧
      s5.sp = s3.sp / 16 * 16 - (argv.length + envp.length + 1) % 2 * 8 ∧
      Extends { s3 with sp := s3.sp / 16 * 16 } s5 := by
    refine ⟨_, rfl, ?_⟩
    have hlen : (v.auxv s3.sp).length = 9 := rfl
    rw [sub64_of_le (by omega) (by omega)]
    split_ifs with hodd
    · refine ⟨?_, push_extends (by dsimp only; omega) (by rw [length_toLe]; dsimp only; omega)⟩
      rw [push_sp (by dsimp only; omega) (by rw [length_toLe]; dsimp only; omega), length_toLe]
      dsimp only
      omega
    · exact ⟨by dsimp only; omega, .refl _⟩
  rw [hpad] at hs
  have hargc := hargv.length_eq
  have henvc := henvp.length_eq
  have hauxc := length_auxWords (v.auxv s3.sp)
  have hnine : (v.auxv s3.sp).length = 9 := rfl
  have hwords : s = pushAll (stackWords argvPtrs envpPtrs (v.auxv s3.sp)) s5 := by
    rw [hs, foldr_pushPair (by omega) (by omega), ← hargc]
    simp only [stackWords, pushAll_append, pushAll_cons, pushAll_nil]
  have hlen : (stackWords argvPtrs envpPtrs (v.auxv s3.sp)).length = 21 + argv.length + envp.length := by
    simp only [stackWords, length_append, length_cons, length_nil]
    omega
  obtain ⟨hsp, hext, hbytes⟩ := pushAll_spec (s := s5) (by omega) (by rw [hlen]; omega)
  rw [← hwords] at hsp hext hbytes
  have hall3 := (hext4.trans hext5).trans hext
  have hall2 := hext3.trans hall3
  have hall1 := hext2.trans hall2
  obtain ⟨hargvAddr, -⟩ := (forall₂_and_left _ _).mp hargv
  obtain ⟨henvpAddr, -⟩ := (forall₂_and_left _ _).mp henvp
  refine ⟨?_, argvPtrs, envpPtrs, s3.sp, fun p hp => ?_, fun p hp => ?_, ?_, ?_, by omega, ?_, hbytes⟩
  · rw [imageSize]
    omega
  · exact ⟨le_trans hall1.1 (hargvAddr p hp).1, (hargvAddr p hp).2⟩
  · exact ⟨le_trans hall2.1 (henvpAddr p hp).1, lt_of_lt_of_le (henvpAddr p hp).2 (by omega)⟩
  · exact hargv.imp fun p str hp => hall1.bytesAt hp.2 hp.1.1
  · exact henvp.imp fun p str hp => hall2.bytesAt hp.2 hp.1.1
  · simpa using hall3.bytesAt hrandom (le_rfl)

/-! ## The writes -/

/-- The writes of that part of `schedSpawn` in their order, with the address and the length of each: the
strings and the random numbers, then from the rounded stack pointer the padding, the auxiliary vector, the
arrays and `argc`. -/
def initWrites (argv envp : List (List UInt8)) : List (ℕ × ℕ) :=
  let strings := (argv.reverse ++ envp.reverse).map (·.length + 1) ++ [16]
  let sp := strings.foldl sub64 userStackTop / 16 * 16
  let totalQwords := 9 * 2 + 1 + envp.length + 1 + argv.length + 1
  let padding := if sub64 sp (totalQwords * 8) % 16 ≠ 0 then [8] else []
  blocks userStackTop strings ++
    blocks sp (padding ++ replicate 9 16 ++ replicate (envp.length + argv.length + 3) 8)

theorem pushStrings_eq_foldl (strs : List (List UInt8)) (s : DownStack) :
    (pushStrings strs s).2 = (strs.reverse.map (· ++ [0])).foldl push s ∧
      (pushStrings strs s).1.length = strs.length := by
  induction strs with
  | nil => exact ⟨rfl, rfl⟩
  | cons str strs ih =>
    rw [reverse_cons, map_append, foldl_append, ← ih.1]
    exact ⟨rfl, congrArg (· + 1) ih.2⟩

/-- The bytes of a pair of numbers. -/
def pairBytes (pair : ℕ × ℕ) : List UInt8 := toLe 8 pair.1 ++ toLe 8 pair.2

theorem pushPair_eq_push (pair : ℕ × ℕ) (s : DownStack) : pushPair pair s = s.push (pairBytes pair) :=
  congrArg (DownStack.mk · _) (writeBytes_append _ _ _ _)

theorem foldr_pushPair_eq_foldl (auxv : List (ℕ × ℕ)) (s : DownStack) :
    auxv.foldr pushPair s = (auxv.reverse.map pairBytes).foldl push s := by
  rw [foldl_map, foldl_reverse]
  exact congrArg (foldr · s auxv) (funext₂ pushPair_eq_push)

theorem map_length_strings (strings : List (List UInt8)) (random : ℕ × ℕ) :
    (strings.map (· ++ [0]) ++ [pairBytes random]).map length = strings.map (·.length + 1) ++ [16] := by
  simp [pairBytes, Function.comp_def]

theorem map_length_numbers (padding : List (List UInt8)) (auxv : List (ℕ × ℕ)) (words : List ℕ) :
    (padding ++ auxv.map pairBytes ++ words.map (toLe 8)).map length =
      padding.map length ++ replicate auxv.length 16 ++ replicate words.length 8 := by
  simp [pairBytes, Function.comp_def]

/-- The stack is what these writes leave, each with as many bytes as it says. -/
theorem initStack_writes (argv envp : List (List UInt8)) (v : AuxValues) (random : ℕ × ℕ) :
    ∃ data : List (List UInt8), data.map length = (initWrites argv envp).map Prod.snd ∧
      (initStack argv envp v random).mem = writeAll (fun _ => 0) ((initWrites argv envp).zip data) := by
  unfold initStack
  obtain ⟨hargv, hargc⟩ := pushStrings_eq_foldl argv ⟨fun _ => 0, userStackTop⟩
  generalize pushStrings argv ⟨fun _ => 0, userStackTop⟩ = r1 at *
  obtain ⟨argvPtrs, s1⟩ := r1
  dsimp only at *
  obtain ⟨henvp, henvc⟩ := pushStrings_eq_foldl envp s1
  generalize pushStrings envp s1 = r2 at *
  obtain ⟨envpPtrs, s2⟩ := r2
  dsimp only at *
  -- first the strings and the random numbers
  obtain ⟨strings, hstrings⟩ : ∃ strings : List (List UInt8),
    strings = (argv.reverse ++ envp.reverse).map (· ++ [0]) ++ [pairBytes random] := ⟨_, rfl⟩
  have hlens : strings.map length = (argv.reverse ++ envp.reverse).map (·.length + 1) ++ [16] := by
    rw [hstrings, map_length_strings]
  have hs3 : pushPair random s2 = strings.foldl push ⟨fun _ => 0, userStackTop⟩ := by
    simp only [pushPair_eq_push, henvp, hargv, hstrings, map_append, foldl_append, foldl_cons, foldl_nil]
  rw [foldl_push, hlens] at hs3
  generalize pushPair random s2 = s3 at *
  -- then, from the rounded stack pointer, the numbers
  obtain ⟨padding, hpadding⟩ : ∃ padding : List (List UInt8), padding =
    if sub64 (s3.sp / 16 * 16) ((9 * 2 + 1 + envp.length + 1 + argv.length + 1) * 8) % 16 ≠ 0 then [toLe 8 0]
      else [] := ⟨_, rfl⟩
  obtain ⟨words, hwords⟩ : ∃ words : List ℕ,
    words = [0] ++ envpPtrs.reverse ++ [0] ++ argvPtrs.reverse ++ [argv.length] := ⟨_, rfl⟩
  obtain ⟨numbers, hnumbers⟩ : ∃ numbers : List (List UInt8),
    numbers = padding ++ (v.auxv s3.sp).reverse.map pairBytes ++ words.map (toLe 8) := ⟨_, rfl⟩
  have hcount : numbers.map length = padding.map length ++ replicate 9 16 ++
      replicate (envp.length + argv.length + 3) 8 := by
    have hlen : words.length = envp.length + argv.length + 3 := by
      simp only [hwords, length_append, length_cons, length_nil, length_reverse, hargc, henvc]
      omega
    rw [hnumbers, map_length_numbers, hlen]
    rfl
  have hpush : padding.foldl push { s3 with sp := s3.sp / 16 * 16 } =
      if sub64 (s3.sp / 16 * 16) ((9 * 2 + 1 + envp.length + 1 + argv.length + 1) * 8) % 16 ≠ 0 then
        ({ s3 with sp := s3.sp / 16 * 16 } : DownStack).push (toLe 8 0)
      else { s3 with sp := s3.sp / 16 * 16 } := by
    rw [hpadding]
    split <;> rfl
  have hwrites : initWrites argv envp = blocks userStackTop (strings.map length) ++
      blocks (s3.sp / 16 * 16) (numbers.map length) := by
    rw [hcount, hpadding, hlens, hs3]
    dsimp only [initWrites]
    split <;> rfl
  refine ⟨strings ++ numbers, ?_, ?_⟩
  · rw [hwrites, map_append, map_append, map_snd_blocks, map_snd_blocks]
  · have hstack : (numbers.foldl push { s3 with sp := s3.sp / 16 * 16 }).mem =
        writeAll s3.mem ((blocks (s3.sp / 16 * 16) (numbers.map length)).zip numbers) := by rw [foldl_push]
    have hmem : s3.mem = writeAll (fun _ => 0) ((blocks userStackTop (strings.map length)).zip strings) := by
      rw [hs3, hlens]
    rw [hwrites, zip_append (by rw [length_blocks, length_map]), writeAll_append, ← hmem, ← hstack, hnumbers,
      hwords]
    simp only [map_append, foldl_append, hpush, foldr_pushPair_eq_foldl, pushAll_eq_foldl, map_cons, map_nil,
      foldl_cons, foldl_nil]
    rfl

theorem foldl_sub64 {lens : List ℕ} {sp : ℕ} (hsp : sp < 2 ^ 64) (h : lens.sum ≤ sp) :
    lens.foldl sub64 sp = sp - lens.sum := by
  induction lens generalizing sp with
  | nil => rfl
  | cons len lens ih =>
    rw [sum_cons] at h ⊢
    rw [foldl_cons, sub64_of_le (by omega) hsp, ih (by omega) (by omega)]
    omega

/-- All the writes lie in the one page that is mapped exactly if the image fits into it: nothing else limits
the strings. -/
theorem initWrites_inside_iff (argv envp : List (List UInt8)) :
    (∀ w ∈ initWrites argv envp, userStackTop - pageSize ≤ w.1 ∧ w.1 + w.2 ≤ userStackTop) ↔
      imageSize argv envp ≤ pageSize := by
  have htop : userStackTop = 0x00007FFFFFFFE000 := rfl
  have hstrings : ((argv.reverse ++ envp.reverse).map (fun str : List UInt8 => str.length + 1) ++ [16]).sum =
      stringBytes argv + stringBytes envp + 16 := by
    simp [stringBytes, add_assoc]
  simp only [initWrites, forall_mem_append, imageSize, pageSize]
  rw [blocks_inside_iff (by omega) le_rfl (by omega)]
  by_cases hfit : stringBytes argv + stringBytes envp + 16 ≤ 4096
  · rw [foldl_sub64 (by omega) (by omega), hstrings,
      blocks_inside_iff (by omega) (by omega) (by omega)]
    simp only [sum_append_nat, sum_replicate_nat]
    split_ifs with hodd
    · rw [sub64] at hodd
      rw [sum_singleton]
      omega
    · rw [sum_nil]
      omega
  · exact ⟨fun h => absurd h.1 (by omega), fun h => absurd h (by omega)⟩

namespace Spawner

/-- What `schedSpawn` does before it fills the stack, with the entry point. -/
def prepare (i : SpawnInput) : Fallible Spawner ℕ := do
  let exe ← readExecutable i.exe
  (schedCreateProcess i.process).orClean (kfree .rawData)
  (onProcess (loadElfSegments exe (exeBias exe))).orClean dropProcess
  let entryPoint ← loadInterpreter exe i.interp
  (onProcess mapStack).orClean dropProcess
  return entryPoint

theorem schedSpawn_eq (i : SpawnInput) : schedSpawn i = prepare i >>= startProcess i := by
  simp only [schedSpawn, prepare, Fallible.bind_bind]
  rfl

/-- The writes to the stack in a call. The strings of `argv` are written once there is an array for their
addresses, the rest once there is one for `envp`, too. -/
def stackWrites (i : SpawnInput) (argv envp : List (List UInt8)) (s : Spawner) : List (ℕ × ℕ) :=
  if (prepare i s).1.isSome ∧ i.argv then
    if i.envp then initWrites argv envp else blocks userStackTop (argv.reverse.map (·.length + 1))
  else []

/-- A call that returns a process has made all the writes. -/
theorem stackWrites_of_spawned {i : SpawnInput} {s : Spawner} (h : (schedSpawn i s).1 ≠ none)
    (argv envp : List (List UInt8)) : stackWrites i argv envp s = initWrites argv envp := by
  rw [schedSpawn_eq] at h
  rcases hprepare : prepare i s with ⟨_ | entryPoint, s'⟩
  · exact absurd (congrArg Prod.fst (Fallible.bind_none hprepare)) h
  rw [Fallible.bind_some hprepare] at h
  -- without memory for one of the arrays the call fails
  have hserved : i.argv = true ∧ i.envp = true := by
    obtain ⟨_, _, _, argv, envp, _, _⟩ := i
    cases argv with
    | false => exact absurd rfl h
    | true =>
      cases envp with
      | false => exact absurd rfl h
      | true => exact ⟨rfl, rfl⟩
  rw [stackWrites, hprepare, if_pos ⟨rfl, hserved.1⟩, if_pos hserved.2]

/-- The stack is what the writes leave. They all lie in the page that is mapped exactly if the image fits into
it, and a call returns `NULL` or writes to that page only, exactly if it returns `NULL` or the image fits. -/
theorem schedSpawn_writes_inside_iff (argv envp : List (List UInt8)) :
    (∀ v random, ∃ data : List (List UInt8), data.map length = (initWrites argv envp).map Prod.snd ∧
      (initStack argv envp v random).mem = writeAll (fun _ => 0) ((initWrites argv envp).zip data)) ∧
    ((∀ w ∈ initWrites argv envp, userStackTop - pageSize ≤ w.1 ∧ w.1 + w.2 ≤ userStackTop) ↔
      imageSize argv envp ≤ pageSize) ∧
    ∀ (i : SpawnInput) (s : Spawner),
      ((schedSpawn i s).1 = none ∨ ∀ w ∈ stackWrites i argv envp s,
        userStackTop - pageSize ≤ w.1 ∧ w.1 + w.2 ≤ userStackTop) ↔
      (schedSpawn i s).1 = none ∨ imageSize argv envp ≤ pageSize := by
  refine ⟨initStack_writes argv envp, initWrites_inside_iff argv envp, fun i s => ?_⟩
  by_cases hnull : (schedSpawn i s).1 = none
  · exact iff_of_true (.inl hnull) (.inl hnull)
  · rw [stackWrites_of_spawned hnull, initWrites_inside_iff]

/-- A call with one string of 5000 bytes returns a process and has written below the page. -/
theorem schedSpawn_long_string :
    (schedSpawn highInput (start SpaceClient.smallMachine 1 5 [3] [])).1 ≠ none ∧
      ¬∀ w ∈ stackWrites highInput [replicate 5000 97] [] (start SpaceClient.smallMachine 1 5 [3] []),
        userStackTop - pageSize ≤ w.1 ∧ w.1 + w.2 ≤ userStackTop := by
  have hspawned : (schedSpawn highInput (start SpaceClient.smallMachine 1 5 [3] [])).1 ≠ none := by
    decide +kernel
  refine ⟨hspawned, fun h => ?_⟩
  rw [stackWrites_of_spawned hspawned, initWrites_inside_iff] at h
  have hlen : stringBytes [replicate 5000 97] = 5001 := by
    rw [stringBytes, map_singleton, length_replicate]
    rfl
  simp only [imageSize, hlen, pageSize] at h
  omega

end Spawner

/-! ## What the loader reads back -/

theorem length_lt_stringBytes (h : str ∈ strs) : str.length < stringBytes strs := by
  induction strs with
  | nil => cases h
  | cons first strs ih =>
    have hbytes : stringBytes (first :: strs) = first.length + 1 + stringBytes strs := by
      simp [stringBytes]
    rcases mem_cons.mp h with rfl | h
    · omega
    · have := ih h
      omega

/-- The strings at the pointers are the strings that were pushed. -/
theorem map_cString (h : Forall₂ (fun p str => BytesAt mem p (str ++ [0])) ptrs strs)
    (hstrs : ∀ str ∈ strs, 0 ∉ str ∧ str.length < fuel) : ptrs.map (cString mem fuel) = strs := by
  induction h with
  | nil => rfl
  | cons hp _ ih =>
    obtain ⟨hnul, hlen⟩ := hstrs _ (.head _)
    rw [map_cons, cString_eq hnul hlen hp, ih fun str hmem => hstrs str (.tail _ hmem)]

theorem AuxValues.auxv_eq (v : AuxValues) {randomPtr : ℕ} (hrandom : randomPtr < 2 ^ 64) :
    ∃ entries : List (ℕ × ℕ), v.auxv randomPtr = entries ++ [(0, 0)] ∧ entries.length = 8 ∧
      ∀ entry ∈ entries, entry.1 ≠ 0 ∧ entry.1 < 2 ^ 64 ∧ entry.2 < 2 ^ 64 := by
  refine ⟨(v.auxv randomPtr).take 8, rfl, rfl, ?_⟩
  simp only [AuxValues.auxv, take_succ_cons, take_zero, forall_mem_cons, not_mem_nil,
    false_imp_iff, implies_true, and_true, pageSize]
  omega

/-- The walk of `ldMain` over the arrays of an image. -/
theorem ldWalk_eq {sp : ℕ} {argvPtrs envpPtrs : List ℕ} {entries : List (ℕ × ℕ)}
    (h : BytesAt mem sp ((stackWords argvPtrs envpPtrs (entries ++ [(0, last)])).flatMap (toLe 8)))
    (hargc : argvPtrs.length < 2 ^ 31) (hsp : sp + 8 * argvPtrs.length + 16 < 2 ^ 64)
    (hargv : ∀ p ∈ argvPtrs, p < 2 ^ 64) (henvp : ∀ p ∈ envpPtrs, p ≠ 0 ∧ p < 2 ^ 64)
    (hentries : ∀ entry ∈ entries, entry.1 ≠ 0 ∧ entry.1 < 2 ^ 64 ∧ entry.2 < 2 ^ 64)
    (hlast : last < 2 ^ 64) (henvc : envpPtrs.length < fuel) (hauxc : entries.length < fuel) :
    ldWalk mem fuel sp = some ⟨argvPtrs.length, argvPtrs, envpPtrs, entries ++ [(0, last)]⟩ := by
  have hwords : ∀ l : List ℕ, (l.flatMap (toLe 8)).length = l.length * 8 :=
    length_flatMap_of_length fun v => length_toLe 8 v
  rw [stackWords, flatMap_append, flatMap_append, bytesAt_append, bytesAt_append, flatMap_cons,
    bytesAt_append] at h
  obtain ⟨⟨⟨hfirst, hptrs⟩, henvs⟩, haux⟩ := h
  simp only [length_append, hwords, length_toLe, length_cons, length_nil] at hptrs henvs haux
  have hcount : le64 mem sp = argvPtrs.length := hfirst.le64_eq (by omega)
  have hint : (BitVec.ofNat 32 (le64 mem sp)).toInt = argvPtrs.length := by
    have hnat : (BitVec.ofNat 32 argvPtrs.length).toNat = argvPtrs.length := by
      rw [BitVec.toNat_ofNat, Nat.mod_eq_of_lt (by omega)]
    rw [hcount, BitVec.toInt_eq_toNat_of_lt (by omega), hnat]
  have henvStart : (((sp + 8 : ℕ) + 8 * ((argvPtrs.length : ℤ) + 1)) % 2 ^ 64).toNat =
      sp + (8 + (argvPtrs.length + (0 + 1)) * 8) := by
    omega
  have hauxStart : sp + (8 + (argvPtrs.length + (0 + 1)) * 8) + 8 * envpPtrs.length + 8 =
      sp + (8 + (argvPtrs.length + (0 + 1)) * 8 + (envpPtrs.length + (0 + 1)) * 8) := by
    omega
  have hargvList : (range argvPtrs.length).map (fun i => le64 mem (sp + 8 + 8 * i)) = argvPtrs := by
    rw [flatMap_append, bytesAt_append] at hptrs
    refine ext_getElem (by simp) fun i hi hi' => ?_
    rw [getElem_map, getElem_range, hptrs.1.le64_getElem hargv hi']
  rw [ldWalk, hint, henvStart, scanPtrs_eq henvp henvc henvs]
  change (scanAuxv mem fuel _).bind _ = _
  rw [hauxStart, scanAuxv_eq hentries hlast hauxc haux, Int.toNat_natCast, hargvList]
  rfl

/-- From an aligned stack pointer inside the page, the walk of `ldMain` finds the number of arguments, the
strings of `argv` and `envp` in their order, and the auxiliary vector that `schedSpawn` made, in which
`AT_RANDOM` points to the random numbers. -/
theorem initStack_walk {argv envp : List (List UInt8)} (v : AuxValues) (tsc : BitVec 64) (pid : BitVec 32)
    (hargv : ∀ str ∈ argv, 0 ∉ str) (henvp : ∀ str ∈ envp, 0 ∉ str)
    (hfit : imageSize argv envp ≤ pageSize) :
    let s := initStack argv envp v (randomData tsc pid)
    s.sp % 16 = 0 ∧ userStackTop - pageSize ≤ s.sp ∧
      ∃ info randomPtr, ldWalk s.mem pageSize s.sp = some info ∧ info.argc = argv.length ∧
        info.argv.map (cString s.mem pageSize) = argv ∧ info.envp.map (cString s.mem pageSize) = envp ∧
        info.auxv = v.auxv randomPtr ∧
        BytesAt s.mem randomPtr (toLe 8 (randomData tsc pid).1 ++ toLe 8 (randomData tsc pid).2) := by
  have hspec := initStack_spec v (randomData tsc pid) hfit
  generalize initStack argv envp v (randomData tsc pid) = s at hspec
  obtain ⟨hsp, argvPtrs, envpPtrs, randomPtr, hargvAddr, henvpAddr, hargvPtrs, henvpPtrs, hrandom, hbytes,
    hwords⟩ := hspec
  have htop : userStackTop = 0x00007FFFFFFFE000 := rfl
  have hargc := hargvPtrs.length_eq
  have henvc := henvpPtrs.length_eq
  simp only [imageSize, pageSize] at hfit hsp ⊢
  have hargvStrs : ∀ str ∈ argv, 0 ∉ str ∧ str.length < 4096 := fun str hmem => by
    have hlen := length_lt_stringBytes hmem
    exact ⟨hargv str hmem, by omega⟩
  have henvpStrs : ∀ str ∈ envp, 0 ∉ str ∧ str.length < 4096 := fun str hmem => by
    have hlen := length_lt_stringBytes hmem
    exact ⟨henvp str hmem, by omega⟩
  have hrandom64 : randomPtr < 2 ^ 64 := by omega
  obtain ⟨entries, hentries, hcount, hentry⟩ := v.auxv_eq hrandom64
  rw [hentries] at hwords
  have hwalk : ldWalk s.mem 4096 s.sp = _ := ldWalk_eq hwords (by omega) (by omega)
    (fun p hp => lt_trans (hargvAddr p hp).2 (by decide))
    (fun p hp => ⟨by have := henvpAddr p hp; omega, lt_trans (henvpAddr p hp).2 (by decide)⟩)
    hentry (by decide) (by omega) (by omega)
  refine ⟨by omega, by omega, _, randomPtr, hwalk, ?_, map_cString hargvPtrs hargvStrs,
    map_cString henvpPtrs henvpStrs, hentries.symm, hbytes⟩
  simp only [hargc]

theorem initStack_walk_sample :
    imageSize [[97, 98], []] [[99]] ≤ pageSize ∧
      ∃ info, ldWalk (initStack [[97, 98], []] [[99]] ⟨0x400040, 56, 3, 0, 0x400100⟩ (randomData 5 1)).mem
          pageSize (initStack [[97, 98], []] [[99]] ⟨0x400040, 56, 3, 0, 0x400100⟩ (randomData 5 1)).sp =
        some info ∧ info.argc = 2 := by
  have hfit : imageSize [[97, 98], []] [[99]] ≤ pageSize := by decide
  obtain ⟨-, -, info, -, hwalk, hargc, -⟩ :=
    initStack_walk ⟨0x400040, 56, 3, 0, 0x400100⟩ 5 1 (by decide) (by decide) hfit
  exact ⟨hfit, info, hwalk, hargc⟩

end NovaOS.Sched
