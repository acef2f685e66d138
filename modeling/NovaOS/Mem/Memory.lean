import NovaOS.Mem.Pmm

/-!
# Memory behind page tables

Reference: `kernel/string/string.c`.

The processor reaches physical memory through the page tables, so that one byte can have several
addresses: every frame is also found in the kernel's direct map. `frameOf` gives the frame behind each
page of the current address space once page faults have been served. An access to any other page, or to
an address that is not canonical, ends in `default_exception_handler`, which halts; it is `none` here.

`memcpy` goes upwards and so may read what it has just written. With or without whole words it is a copy
of one byte after another (`memcpy_eq`): where it copies words, the two addresses of a word are a
multiple of eight apart.
-/

namespace NovaOS.Mem

open NovaOS.Lib Function

/-- The frames behind the pages, and the bytes at the physical addresses. -/
structure Memory where
  frameOf : ℕ → Option ℕ
  ram : ℕ → UInt8

namespace Memory

/-- The addresses the processor translates at all. -/
def Canonical (a : ℕ) : Prop := a < 2 ^ 47 ∨ 2 ^ 64 - 2 ^ 47 ≤ a

instance (a : ℕ) : Decidable (Canonical a) := inferInstanceAs (Decidable (_ ∨ _))

/-- The physical address behind an address. -/
def translate (m : Memory) (a : ℕ) : Option ℕ :=
  if Canonical a then (m.frameOf (a / pageSize)).map fun f => f * pageSize + a % pageSize else none

/-- The physical address of byte `i` from `a` on. -/
def phys (m : Memory) (a i : ℕ) : Option ℕ := m.translate (wrap64 (a + i))

/-- The same where there is one. -/
def loc (m : Memory) (a i : ℕ) : ℕ := (m.phys a i).getD 0

/-- The `n` bytes from `a` on can be accessed. -/
def Backed (m : Memory) (a n : ℕ) : Prop := ∀ i < n, m.phys a i ≠ none

instance (m : Memory) (a n : ℕ) : Decidable (m.Backed a n) := inferInstanceAs (Decidable (∀ i < n, _))

/-- Byte `i` from `a` on. -/
def byte (m : Memory) (a i : ℕ) : UInt8 := m.ram (m.loc a i)

/-- The memory once the first `n` of the bytes `f` are written from `a` on. -/
def put (m : Memory) (a : ℕ) (f : ℕ → UInt8) : (n : ℕ) → Memory
  | 0 => m
  | i + 1 => { m.put a f i with ram := update (m.put a f i).ram (m.loc a i) (f i) }

/-- A write of `n` bytes. -/
def store (m : Memory) (a n : ℕ) (f : ℕ → UInt8) : Option Memory :=
  if m.Backed a n then some (m.put a f n) else none

/-- Reads `w` bytes at `src`, then writes them at `dst`. -/
def copyChunk (m : Memory) (w dst src : ℕ) : Option Memory :=
  if m.Backed src w then m.store dst w (m.byte src) else none

/-- The first `k` passes of a loop of `memcpy` that copies `w` bytes at a time. -/
def copyUp (m : Memory) (w dst src : ℕ) : (k : ℕ) → Option Memory
  | 0 => some m
  | k + 1 => (m.copyUp w dst src k).bind fun t => t.copyChunk w (dst + k * w) (src + k * w)

/-- `memcpy`. -/
def memcpy (m : Memory) (dst src n : ℕ) : Option Memory :=
  if dst % 8 = 0 ∧ src % 8 = 0 then
    (m.copyUp 8 dst src (n / 8)).bind fun t =>
      t.copyUp 1 (dst + n / 8 * 8) (src + n / 8 * 8) (n % 8)
  else m.copyUp 1 dst src n

/-- The memory once `n` bytes are copied, one after another. -/
def copied (m : Memory) (dst src : ℕ) : (n : ℕ) → Memory
  | 0 => m
  | i + 1 => { m.copied dst src i with
      ram := update (m.copied dst src i).ram (m.loc dst i) ((m.copied dst src i).ram (m.loc src i)) }

/-! ## Writes -/

section Writes

variable {m t : Memory} {a n i x dst src : ℕ} {f : ℕ → UInt8}

theorem phys_congr (h : t.frameOf = m.frameOf) (a i : ℕ) : t.phys a i = m.phys a i := by
  rw [phys, phys, translate, translate, h]

theorem loc_congr (h : t.frameOf = m.frameOf) (a i : ℕ) : t.loc a i = m.loc a i := by
  rw [loc, loc, phys_congr h]

theorem backed_congr (h : t.frameOf = m.frameOf) : t.Backed a n ↔ m.Backed a n := by
  simp only [Backed, phys_congr h]

theorem phys_add (m : Memory) (a i j : ℕ) : m.phys (a + i) j = m.phys a (i + j) := by
  rw [phys, phys, Nat.add_assoc]

theorem loc_add (m : Memory) (a i j : ℕ) : m.loc (a + i) j = m.loc a (i + j) := by
  rw [loc, loc, phys_add]

/-- A range is accessible when its two parts are. -/
theorem backed_add {k : ℕ} : m.Backed a (n + k) ↔ m.Backed a n ∧ m.Backed (a + n) k := by
  constructor
  · exact fun h => ⟨fun i hi => h i (by omega), fun i hi => phys_add m a n i ▸ h (n + i) (by omega)⟩
  · rintro ⟨hlow, hhigh⟩ i hi
    by_cases hlt : i < n
    · exact hlow i hlt
    · have := hhigh (i - n) (by omega)
      rwa [phys_add, Nat.add_sub_cancel' (Nat.le_of_not_lt hlt)] at this

@[simp] theorem frameOf_put : (m.put a f n).frameOf = m.frameOf := by
  induction n with
  | zero => rfl
  | succ n ih => exact ih

@[simp] theorem frameOf_copied : (m.copied dst src n).frameOf = m.frameOf := by
  induction n with
  | zero => rfl
  | succ n ih => exact ih

theorem put_of_ne (h : ∀ i < n, x ≠ m.loc a i) : (m.put a f n).ram x = m.ram x := by
  induction n with
  | zero => rfl
  | succ n ih =>
    rw [put]
    exact (update_of_ne (h n (Nat.lt_succ_self n)) _ _).trans (ih fun i hi => h i (by omega))

theorem copied_of_ne (h : ∀ i < n, x ≠ m.loc dst i) : (m.copied dst src n).ram x = m.ram x := by
  induction n with
  | zero => rfl
  | succ n ih =>
    rw [copied]
    exact (update_of_ne (h n (Nat.lt_succ_self n)) _ _).trans (ih fun i hi => h i (by omega))

/-- A byte keeps the value it is given where no later one has the same place. -/
theorem copied_loc (hinj : ∀ j < n, i < j → m.loc dst j ≠ m.loc dst i) (hi : i < n) :
    (m.copied dst src n).ram (m.loc dst i) = (m.copied dst src i).ram (m.loc src i) := by
  induction n with
  | zero => exact absurd hi (Nat.not_lt_zero i)
  | succ n ih =>
    rw [copied]
    by_cases heq : i = n
    · rw [heq]
      exact update_self _ _ _
    · exact (update_of_ne (hinj n (Nat.lt_succ_self n) (by omega)).symm _ _).trans
        (ih (fun j hj => hinj j (by omega)) (by omega))

/-- A copy that reads nothing it has written gives the bytes of before. -/
theorem copied_eq_put (h : ∀ i < n, ∀ j < i, m.loc src i ≠ m.loc dst j) :
    m.copied dst src n = m.put dst (m.byte src) n := by
  induction n with
  | zero => rfl
  | succ n ih =>
    have hsame := ih fun i hi => h i (by omega)
    rw [copied, put, hsame, put_of_ne (h n (Nat.lt_succ_self n))]
    rfl

/-! ## Copies byte by byte -/

theorem copied_add {k : ℕ} :
    m.copied dst src (n + k) = (m.copied dst src n).copied (dst + n) (src + n) k := by
  induction k with
  | zero => rfl
  | succ k ih =>
    rw [Nat.add_succ, copied, copied, ih]
    simp only [loc_congr frameOf_copied, loc_add]

/-- A copy of one byte at a time. -/
theorem copyUp_one_eq (m : Memory) (dst src n : ℕ) :
    m.copyUp 1 dst src n =
      if m.Backed src n ∧ m.Backed dst n then some (m.copied dst src n) else none := by
  induction n with
  | zero => rw [copyUp, if_pos ⟨nofun, nofun⟩, copied]
  | succ n ih =>
    simp only [copyUp, ih, Nat.mul_one, backed_add]
    by_cases hn : m.Backed src n ∧ m.Backed dst n
    · rw [if_pos hn, Option.bind_some, copyChunk, store, ← copied_eq_put (by omega), ← copied_add]
      simp only [backed_congr frameOf_copied, hn.1, hn.2, true_and]
      split_ifs with hsrc hdst <;> simp_all
    · rw [if_neg hn, Option.bind_none, if_neg fun h => hn ⟨h.1.1, h.2.1⟩]

theorem copyUp_one_add (m : Memory) (dst src n k : ℕ) :
    ((m.copyUp 1 dst src n).bind fun t => t.copyUp 1 (dst + n) (src + n) k) =
      m.copyUp 1 dst src (n + k) := by
  simp only [copyUp_one_eq, backed_add, copied_add]
  by_cases hn : m.Backed src n ∧ m.Backed dst n
  · rw [if_pos hn, Option.bind_some]
    simp only [backed_congr frameOf_copied, hn.1, hn.2, true_and]
  · rw [if_neg hn, Option.bind_none, if_neg fun h => hn ⟨h.1.1, h.2.1⟩]

/-- The bytes of an aligned word lie in one page. -/
theorem translate_word (m : Memory) {b : ℕ} (hb : b % 8 = 0) (hi : i < 8) :
    m.translate (b + i) = (m.translate b).map (· + i) := by
  have hpage : (b + i) / pageSize = b / pageSize ∧ (b + i) % pageSize = b % pageSize + i := by
    rw [pageSize]
    omega
  have hcanon : Canonical (b + i) ↔ Canonical b := by
    rw [Canonical, Canonical]
    omega
  rw [translate, translate, hpage.1, hpage.2]
  simp only [hcanon]
  split
  · simp only [Option.map_map, Function.comp_def, Nat.add_assoc]
  · rfl

theorem loc_word (m : Memory) (ha : a % 8 = 0) (hi : i < 8) (hb : m.Backed a 8) :
    m.loc a i = m.loc a 0 + i ∧ m.loc a 0 % 8 = 0 := by
  have haddr : wrap64 (a + i) = wrap64 (a + 0) + i ∧ wrap64 (a + 0) % 8 = 0 := by
    rw [wrap64, wrap64]
    omega
  obtain ⟨x, hx⟩ := Option.ne_none_iff_exists'.mp (hb 0 (by decide))
  have hi' : m.phys a i = some (x + i) := by
    rw [phys, haddr.1, translate_word m haddr.2 hi, ← phys, hx, Option.map_some]
  rw [loc, loc, hx, hi', Option.getD_some, Option.getD_some]
  refine ⟨rfl, ?_⟩
  rw [phys, translate] at hx
  split at hx
  · obtain ⟨f, -, rfl⟩ := Option.map_eq_some_iff.mp hx
    rw [pageSize]
    omega
  · cases hx

/-- A pass with a whole word. -/
theorem copyChunk_word (m : Memory) (hdst : dst % 8 = 0) (hsrc : src % 8 = 0) :
    m.copyChunk 8 dst src = m.copyUp 1 dst src 8 := by
  rw [copyUp_one_eq, copyChunk, store]
  by_cases hs : m.Backed src 8
  · by_cases hd : m.Backed dst 8
    · rw [if_pos hs, if_pos hd, if_pos ⟨hs, hd⟩, copied_eq_put]
      intro i hi j hj
      obtain ⟨hi1, hi2⟩ := m.loc_word hsrc hi hs
      obtain ⟨hj1, hj2⟩ := m.loc_word hdst (hj.trans hi) hd
      omega
    · rw [if_pos hs, if_neg hd, if_neg fun h => hd h.2]
  · rw [if_neg hs, if_neg fun h => hs h.1]

/-- `memcpy` copies one byte after another. -/
theorem memcpy_eq (m : Memory) (dst src n : ℕ) :
    m.memcpy dst src n =
      if m.Backed src n ∧ m.Backed dst n then some (m.copied dst src n) else none := by
  rw [← copyUp_one_eq, memcpy]
  split
  · rename_i halign
    have hwords : ∀ k, m.copyUp 8 dst src k = m.copyUp 1 dst src (k * 8) := by
      intro k
      induction k with
      | zero => rfl
      | succ k ih =>
        rw [copyUp, ih, Nat.succ_mul, ← copyUp_one_add]
        refine congrArg _ (funext fun t => ?_)
        exact t.copyChunk_word (by omega) (by omega)
    rw [hwords, copyUp_one_add, Nat.div_add_mod']
  · rfl

end Writes

/-! ## The direct map -/

/-- The first `total` frames are mapped one after another from `HHDM_BASE` on. -/
def DirectMap (m : Memory) (total : ℕ) : Prop := ∀ f < total, m.frameOf (hhdmBase / pageSize + f) = some f

section DirectMap

variable {m : Memory} {total x i n : ℕ}

theorem DirectMap.phys_eq (h : m.DirectMap total) (htotal : total ≤ 2 ^ 35)
    (hx : x + i < total * pageSize) : m.phys (x + hhdmBase) i = some (x + i) := by
  have hframe := h ((x + i) / pageSize) (Nat.div_lt_of_lt_mul (Nat.mul_comm _ _ ▸ hx))
  have haddr : wrap64 (x + hhdmBase + i) = hhdmBase + (x + i) := by
    rw [pageSize] at hx
    rw [wrap64, hhdmBase]
    omega
  have hpage : (hhdmBase + (x + i)) / pageSize = hhdmBase / pageSize + (x + i) / pageSize ∧
      (hhdmBase + (x + i)) % pageSize = (x + i) % pageSize := by
    rw [hhdmBase, pageSize]
    omega
  have hcanon : Canonical (hhdmBase + (x + i)) := by
    rw [Canonical, hhdmBase]
    omega
  rw [phys, haddr, translate, if_pos hcanon, hpage.1, hpage.2, hframe, Option.map_some,
    Nat.div_add_mod']

theorem DirectMap.loc_eq (h : m.DirectMap total) (htotal : total ≤ 2 ^ 35)
    (hx : x + i < total * pageSize) : m.loc (x + hhdmBase) i = x + i := by
  rw [loc, h.phys_eq htotal hx, Option.getD_some]

theorem DirectMap.backed (h : m.DirectMap total) (htotal : total ≤ 2 ^ 35)
    (hx : x + n ≤ total * pageSize) : m.Backed (x + hhdmBase) n := by
  intro i hi
  rw [h.phys_eq htotal (by omega)]
  exact Option.some_ne_none _

end DirectMap

/-! ## Two memories -/

/-- The same pages, and the same bytes at the physical addresses in `K`. -/
structure SameOn (K : ℕ → Prop) (m m' : Memory) : Prop where
  frameOf_eq : m'.frameOf = m.frameOf
  ram_eq : ∀ x, K x → m'.ram x = m.ram x

section SameOn

variable {K K' : ℕ → Prop} {m m' : Memory} {dst src a n : ℕ}

theorem SameOn.mono (h : SameOn K m m') (hK : ∀ x, K' x → K x) : SameOn K' m m' :=
  ⟨h.frameOf_eq, fun x hx => h.ram_eq x (hK x hx)⟩

/-- Nothing is written yet. -/
theorem SameOn.start (h : SameOn K m m') (a : ℕ) : SameOn (fun x => K x ∨ ∃ j < 0, x = m.loc a j) m m' :=
  h.mono fun _ hx => hx.resolve_right fun hex => hex.elim fun j hj => Nat.not_lt_zero j hj.1

/-- One more byte is written. -/
theorem SameOn.write {t t' : Memory} (h : SameOn (fun x => K x ∨ ∃ j < n, x = m.loc a j) t t')
    (b : UInt8) :
    SameOn (fun x => K x ∨ ∃ j < n + 1, x = m.loc a j) { t with ram := update t.ram (m.loc a n) b }
      { t' with ram := update t'.ram (m.loc a n) b } := by
  refine ⟨h.frameOf_eq, fun x hx => ?_⟩
  by_cases heq : x = m.loc a n
  · dsimp only
    rw [heq, update_self, update_self]
  · refine (update_of_ne heq _ _).trans
      (.trans (h.ram_eq x (hx.imp_right ?_)) (update_of_ne heq _ _).symm)
    rintro ⟨j, hj, rfl⟩
    exact ⟨j, lt_of_le_of_ne (Nat.le_of_lt_succ hj) fun h => heq (h ▸ rfl), rfl⟩

/-- Bytes that are written in both are the same afterwards. -/
theorem SameOn.put (h : SameOn K m m') (a : ℕ) (f : ℕ → UInt8) (n : ℕ) :
    SameOn (fun x => K x ∨ ∃ j < n, x = m.loc a j) (m.put a f n) (m'.put a f n) := by
  induction n with
  | zero => exact h.start a
  | succ n ih =>
    rw [Memory.put, Memory.put, loc_congr h.frameOf_eq]
    exact ih.write (f n)

/-- A copy whose source is known byte by byte, or was copied before, gives the same in both. -/
theorem SameOn.copied (h : SameOn K m m')
    (hsrc : ∀ i < n, K (m.loc src i) ∨ ∃ j < i, m.loc src i = m.loc dst j) :
    SameOn (fun x => K x ∨ ∃ j < n, x = m.loc dst j) (m.copied dst src n) (m'.copied dst src n) := by
  induction n with
  | zero => exact h.start dst
  | succ n ih =>
    have ih := ih fun i hi => hsrc i (by omega)
    rw [Memory.copied, Memory.copied, loc_congr h.frameOf_eq, loc_congr h.frameOf_eq,
      ih.ram_eq _ (hsrc n (Nat.lt_succ_self n))]
    exact ih.write _

end SameOn

end Memory

end NovaOS.Mem
