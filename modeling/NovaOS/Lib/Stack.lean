import NovaOS.Lib.Bytes
import NovaOS.Lib.Word
import Mathlib.Algebra.GroupWithZero.Nat
import Mathlib.Data.List.Forall2

/-!
# Stacks that grow downward

A memory of bytes and a stack pointer of 64 bits. `push` writes a block of bytes below the stack pointer;
what is above stays. `BytesAt` says that a block stands at an address.
-/

namespace NovaOS.Lib

open List

/-- The bytes `l` stand at `a`. -/
def BytesAt (mem : ℕ → UInt8) (a : ℕ) (l : List UInt8) : Prop := ∀ i (h : i < l.length), mem (a + i) = l[i]

/-- The bytes `l` are written to `a`. -/
def writeBytes (mem : ℕ → UInt8) (a : ℕ) (l : List UInt8) : ℕ → UInt8 := fun x =>
  if a ≤ x then (l[x - a]?).getD (mem x) else mem x

section BytesAt

variable {mem mem' : ℕ → UInt8} {a b : ℕ} {l l' : List UInt8}

theorem bytesAt_append : BytesAt mem a (l ++ l') ↔ BytesAt mem a l ∧ BytesAt mem (a + l.length) l' := by
  constructor
  · intro h
    refine ⟨fun i hi => ?_, fun i hi => ?_⟩
    · rw [h i (by rw [length_append]; omega), getElem_append_left hi]
    · rw [Nat.add_assoc, h (l.length + i) (by rw [length_append]; omega),
        getElem_append_right (Nat.le_add_right _ _)]
      simp
  · rintro ⟨hl, hl'⟩ i hi
    by_cases hil : i < l.length
    · rw [getElem_append_left hil]
      exact hl i hil
    · rw [getElem_append_right (by omega)]
      have h := hl' (i - l.length) (by rw [length_append] at hi; omega)
      rw [← h]
      congr 1
      omega

theorem BytesAt.congr (h : BytesAt mem a l) (hmem : ∀ x, a ≤ x → mem' x = mem x) : BytesAt mem' a l :=
  fun i hi => (hmem _ (Nat.le_add_right a i)).trans (h i hi)

theorem writeBytes_of_ge {x : ℕ} (hx : a + l.length ≤ x) : writeBytes mem a l x = mem x := by
  rw [writeBytes, if_pos (by omega), getElem?_eq_none (by omega)]
  rfl

theorem bytesAt_writeBytes (mem : ℕ → UInt8) (a : ℕ) (l : List UInt8) : BytesAt (writeBytes mem a l) a l := by
  intro i hi
  rw [writeBytes, if_pos (Nat.le_add_right a i), Nat.add_sub_cancel_left, getElem?_eq_getElem hi]
  rfl

/-- Writes to different places commute. -/
theorem writeBytes_comm (mem : ℕ → UInt8) (h : a + l.length ≤ b) :
    writeBytes (writeBytes mem a l) b l' = writeBytes (writeBytes mem b l') a l := by
  funext x
  by_cases hb : b ≤ x
  · have hin : writeBytes mem a l x = mem x := writeBytes_of_ge (by omega)
    have hout : writeBytes (writeBytes mem b l') a l x = writeBytes mem b l' x := writeBytes_of_ge (by omega)
    rw [hout]
    change (if b ≤ x then (l'[x - b]?).getD (writeBytes mem a l x) else writeBytes mem a l x) = _
    rw [hin]
    rfl
  · simp only [writeBytes, if_neg hb]

/-- Two writes side by side are one. -/
theorem writeBytes_append (mem : ℕ → UInt8) (a : ℕ) (l l' : List UInt8) :
    writeBytes (writeBytes mem a l) (a + l.length) l' = writeBytes mem a (l ++ l') := by
  funext x
  unfold writeBytes
  by_cases ha : a ≤ x
  · by_cases hl : a + l.length ≤ x
    · have hnone : l[x - a]? = none := getElem?_eq_none (by omega)
      rw [if_pos hl, if_pos ha, if_pos ha, hnone, getElem?_append_right (by omega), Nat.sub_add_eq]
      rfl
    · rw [if_neg hl, if_pos ha, if_pos ha, getElem?_append_left (by omega)]
  · rw [if_neg (by omega), if_neg ha, if_neg ha]

/-- Reading back a number of 64 bits. -/
theorem BytesAt.le64_eq {v : ℕ} (h : BytesAt mem a (toLe 8 v)) (hv : v < 2 ^ 64) : le64 mem a = v := by
  have h0 := h 0 (by simp)
  have h1 := h 1 (by simp)
  have h2 := h 2 (by simp)
  have h3 := h 3 (by simp)
  have h4 := h 4 (by simp)
  have h5 := h 5 (by simp)
  have h6 := h 6 (by simp)
  have h7 := h 7 (by simp)
  simp only [toLe, getElem_cons_zero, getElem_cons_succ, Nat.add_zero] at h0 h1 h2 h3 h4 h5 h6 h7
  simp only [le64, le32, le16, Nat.add_assoc, Nat.reduceAdd, h0, h1, h2, h3, h4, h5, h6, h7,
    UInt8.toNat_ofNat']
  omega

/-- Reading back an array of them. -/
theorem BytesAt.le64_getElem {vs : List ℕ} (h : BytesAt mem a (vs.flatMap (toLe 8)))
    (hvs : ∀ v ∈ vs, v < 2 ^ 64) {i : ℕ} (hi : i < vs.length) : le64 mem (a + 8 * i) = vs[i] := by
  induction vs generalizing a i with
  | nil => exact absurd hi (Nat.not_lt_zero i)
  | cons v vs ih =>
    obtain ⟨hhead, htail⟩ := bytesAt_append.mp (flatMap_cons ▸ h)
    rw [length_toLe] at htail
    cases i with
    | zero => exact hhead.le64_eq (hvs v (.head _))
    | succ i =>
      rw [getElem_cons_succ, ← ih htail (fun w hw => hvs w (.tail _ hw))]
      congr 1
      omega

end BytesAt

/-- A memory and a stack pointer. -/
structure DownStack where
  mem : ℕ → UInt8
  sp : ℕ

namespace DownStack

/-- A block is put on the stack. -/
def push (s : DownStack) (l : List UInt8) : DownStack :=
  let sp := sub64 s.sp l.length
  ⟨writeBytes s.mem sp l, sp⟩

/-- Numbers of 64 bits are put on the stack, the last one first. -/
def pushAll (vs : List ℕ) (s : DownStack) : DownStack := vs.foldr (fun v s => s.push (toLe 8 v)) s

/-- `s'` has more on the stack than `s`. -/
def Extends (s s' : DownStack) : Prop := s'.sp ≤ s.sp ∧ ∀ x, s.sp ≤ x → s'.mem x = s.mem x

variable {s s' s'' : DownStack}

theorem Extends.refl (s : DownStack) : s.Extends s := ⟨le_rfl, fun _ _ => rfl⟩

theorem Extends.trans (h : s.Extends s') (h' : s'.Extends s'') : s.Extends s'' :=
  ⟨le_trans h'.1 h.1, fun x hx => (h'.2 x (le_trans h.1 hx)).trans (h.2 x hx)⟩

theorem Extends.bytesAt {a : ℕ} {l : List UInt8} (h : s.Extends s') (hl : BytesAt s.mem a l) (ha : s.sp ≤ a) :
    BytesAt s'.mem a l :=
  hl.congr fun x hx => h.2 x (le_trans ha hx)

theorem push_bytesAt (s : DownStack) (l : List UInt8) : BytesAt (s.push l).mem (s.push l).sp l :=
  bytesAt_writeBytes _ _ _

section push

variable {l : List UInt8} (hlt : s.sp < 2 ^ 64) (hl : l.length ≤ s.sp)

include hlt hl

theorem push_sp : (s.push l).sp = s.sp - l.length := sub64_of_le hl hlt

theorem push_extends : s.Extends (s.push l) := by
  refine ⟨?_, fun x hx => ?_⟩
  · rw [push_sp hlt hl]
    omega
  · apply writeBytes_of_ge
    rw [sub64_of_le hl hlt]
    omega

end push

theorem pushAll_nil (s : DownStack) : pushAll [] s = s := rfl

theorem pushAll_cons (v : ℕ) (vs : List ℕ) (s : DownStack) :
    pushAll (v :: vs) s = (pushAll vs s).push (toLe 8 v) := rfl

theorem pushAll_append (vs ws : List ℕ) (s : DownStack) : pushAll (vs ++ ws) s = pushAll vs (pushAll ws s) :=
  foldr_append

/-- Numbers on the stack stand there in their order. -/
theorem pushAll_spec {vs : List ℕ} (hlt : s.sp < 2 ^ 64) (hvs : 8 * vs.length ≤ s.sp) :
    (pushAll vs s).sp = s.sp - 8 * vs.length ∧ s.Extends (pushAll vs s) ∧
      BytesAt (pushAll vs s).mem (pushAll vs s).sp (vs.flatMap (toLe 8)) := by
  induction vs with
  | nil => exact ⟨rfl, .refl s, fun i hi => absurd hi (Nat.not_lt_zero i)⟩
  | cons v vs ih =>
    rw [length_cons] at hvs ⊢
    obtain ⟨hsp, hext, hbytes⟩ := ih (by omega)
    have hroom : (toLe 8 v).length ≤ (pushAll vs s).sp := by
      rw [length_toLe]
      omega
    have hlow : (pushAll vs s).sp < 2 ^ 64 := by omega
    have hsp' := push_sp hlow hroom
    have hext' := push_extends hlow hroom
    rw [length_toLe] at hsp'
    rw [pushAll_cons]
    refine ⟨by omega, hext.trans hext', ?_⟩
    rw [flatMap_cons, bytesAt_append, length_toLe]
    refine ⟨push_bytesAt _ _, ?_⟩
    rw [hsp', Nat.sub_add_cancel (by omega)]
    exact hext'.bytesAt hbytes (le_rfl)

/-- The blocks of the given lengths below a stack pointer: the address and the length of each. -/
def blocks : ℕ → List ℕ → List (ℕ × ℕ)
  | _, [] => []
  | sp, len :: lens => (sub64 sp len, len) :: blocks (sub64 sp len) lens

theorem length_blocks (sp : ℕ) (lens : List ℕ) : (blocks sp lens).length = lens.length := by
  induction lens generalizing sp with
  | nil => rfl
  | cons len lens ih => rw [blocks, length_cons, ih, length_cons]

theorem map_snd_blocks (sp : ℕ) (lens : List ℕ) : (blocks sp lens).map Prod.snd = lens := by
  induction lens generalizing sp with
  | nil => rfl
  | cons len lens ih => rw [blocks, map_cons, ih]

/-- Writes one after another. -/
def writeAll (mem : ℕ → UInt8) (ws : List ((ℕ × ℕ) × List UInt8)) : ℕ → UInt8 :=
  ws.foldl (fun mem w => writeBytes mem w.1.1 w.2) mem

theorem writeAll_append (mem : ℕ → UInt8) (ws ws' : List ((ℕ × ℕ) × List UInt8)) :
    writeAll mem (ws ++ ws') = writeAll (writeAll mem ws) ws' := foldl_append

/-- Pushing blocks of bytes writes each of them to its place. -/
theorem foldl_push (ls : List (List UInt8)) (s : DownStack) : ls.foldl push s =
    ⟨writeAll s.mem ((blocks s.sp (ls.map length)).zip ls), (ls.map length).foldl sub64 s.sp⟩ := by
  induction ls generalizing s with
  | nil => rfl
  | cons l ls ih => exact ih (s.push l)

theorem pushAll_eq_foldl (vs : List ℕ) (s : DownStack) :
    pushAll vs s = (vs.reverse.map (toLe 8)).foldl push s := by
  rw [pushAll, foldl_map, foldl_reverse]

/-- The blocks lie in a range exactly if together they are no larger than what is left of it. -/
theorem blocks_inside_iff {base top sp : ℕ} {lens : List ℕ} (hbase : base ≤ sp) (hsp : sp ≤ top)
    (htop : top < 2 ^ 64) :
    (∀ w ∈ blocks sp lens, base ≤ w.1 ∧ w.1 + w.2 ≤ top) ↔ base + lens.sum ≤ sp := by
  induction lens generalizing sp with
  | nil => simpa [blocks] using hbase
  | cons len lens ih =>
    rw [blocks, forall_mem_cons, sum_cons]
    by_cases hlen : base + len ≤ sp
    · rw [sub64_of_le (by omega) (by omega), ih (by omega) (by omega)]
      omega
    · -- a block that wraps around ends above the range
      have hhead : ¬(base ≤ sub64 sp len ∧ sub64 sp len + len ≤ top) := by
        unfold sub64
        omega
      exact ⟨fun h => absurd h.1 hhead, fun h => absurd h (by omega)⟩

end DownStack

end NovaOS.Lib
