import NovaOS.Lib.Word
import Mathlib.Data.BitVec
import Mathlib.Tactic.IntervalCases

/-!
# Commands to the GSP

Reference: `drivers/nvidia/core/rpc.c`, `drivers/nvidia/core/gsp.c`, `drivers/nvidia/include/nv_gsp.h`.

The memory shared with the GSP is given by its 32-bit words, the first one at offset 0: all fields of the
headers are such words, and messages start at a page. A message is written in one of two ways, by
`nv_gsp_push_preinit_rpc` or by `nv_gsp_rpc_get`, a copy of the payload and `nv_gsp_cmdq_push_inplace`.
-/

namespace NovaOS.Drivers

open NovaOS.Lib Function BitVec List

/-- The shared memory, `*cmdq_wptr` and `cmdq_seq`. The write pointer is a word of the header page of the
command queue; messages start behind that page, so it is kept apart here. -/
structure NvGsp where
  shm : ℕ → BitVec 32
  cmdqWptr : ℕ
  cmdqSeq : BitVec 32

namespace NvGsp

/-- `ALIGN_UP` to a page. -/
def alignUp (x : ℕ) : ℕ := wrap64 (x + 4095) / 4096 * 4096

/-- The first word of a slot of the command queue. -/
def slotWord (wptr : ℕ) : ℕ := (0x1000 + 4096 + wptr * 4096) / 4

/-- `memset` of `size` bytes to 0. -/
def memset (base size : ℕ) (shm : ℕ → BitVec 32) : ℕ → BitVec 32 :=
  fun w => if base ≤ w ∧ w < base + size / 4 then 0#32 else shm w

/-- `memcpy` of the payload; a word that is copied in part keeps its other bytes. -/
def memcpy (base : ℕ) (payload : List (BitVec 8)) (shm : ℕ → BitVec 32) : ℕ → BitVec 32 :=
  fun w =>
    let byte := fun i => payload[4 * (w - base) + i]?.getD ((shm w).extractLsb' (8 * i) 8)
    if base ≤ w ∧ 4 * (w - base) < payload.length then byte 3 ++ byte 2 ++ byte 1 ++ byte 0 else shm w

/-- Fields of the message at `slot`, by their place in words. -/
def setFields (slot : ℕ) (fields : List (ℕ × BitVec 32)) (shm : ℕ → BitVec 32) : ℕ → BitVec 32 :=
  fields.foldl (fun shm field => update shm (slot + field.1) field.2) shm

/-- The exclusive or of `n` 64-bit words. -/
def checksum (shm : ℕ → BitVec 32) (base : ℕ) : ℕ → BitVec 64
  | 0 => 0#64
  | n + 1 => checksum shm base n ^^^ (shm (base + 2 * n + 1) ++ shm (base + 2 * n))

/-- `(uint32_t)(csum >> 32) ^ (uint32_t)(csum & 0xFFFFFFFFU)`. -/
def fold (csum : BitVec 64) : BitVec 32 := (csum >>> 32).setWidth 32 ^^^ (csum &&& 0xFFFFFFFF#64).setWidth 32

/-- The fields of the `NvGspRpcHdr`. -/
def rpcFields (length : ℕ) (fn : BitVec 32) : List (ℕ × BitVec 32) :=
  [(12, 0x03000000#32), (13, 0x43505256#32), (14, BitVec.ofNat 32 length), (15, fn), (16, 0xFFFFFFFF#32),
    (17, 0xFFFFFFFF#32), (18, 0#32), (19, 0#32)]

/-- `nv_gsp_push_preinit_rpc`. -/
def nvGspPushPreinitRpc (fn : BitVec 32) (payload : List (BitVec 8)) (s : NvGsp) : ℤ × NvGsp :=
  if payload.length = 0 then (-1, s)
  else
    let totalPayload := wrap64 (32 + payload.length)
    let alignedSize := alignUp (wrap64 (48 + totalPayload))
    let slot := slotWord s.cmdqWptr
    let shm := memset slot alignedSize s.shm
    let shm := setFields slot
      [(9, s.cmdqSeq), (10, BitVec.ofNat 32 (alignedSize / 4096)), (11, 0#32), (8, 0#32)] shm
    let shm := setFields slot (rpcFields totalPayload fn) shm
    let shm := memcpy (slot + 20) payload shm
    let shm := setFields slot [(8, fold (checksum shm slot (alignedSize / 8)))] shm
    (0, ⟨shm, wrap32 (s.cmdqWptr + (shm (slot + 10)).toNat) % 63, s.cmdqSeq + 1#32⟩)

/-- `nv_gsp_rpc_get`; the payload is at word 20 of the slot. -/
def nvGspRpcGet (fn : BitVec 32) (payloadSize : ℕ) (s : NvGsp) : NvGsp :=
  let rpcLen := wrap32 (32 + payloadSize)
  let alignedSize := alignUp (48 + rpcLen)
  let slot := slotWord s.cmdqWptr
  let shm := memset slot alignedSize s.shm
  let shm := setFields slot [(11, 0#32), (8, 0#32), (10, BitVec.ofNat 32 (alignedSize / 4096))] shm
  { s with shm := setFields slot (rpcFields rpcLen fn) shm }

/-- `nv_gsp_cmdq_push_inplace` of the message at `elem`. -/
def nvGspCmdqPushInplace (elem : ℕ) (s : NvGsp) : NvGsp :=
  let elemCount := s.shm (elem + 10)
  let shm := setFields elem [(11, 0#32), (8, 0#32), (9, s.cmdqSeq), (18, 0#32)] s.shm
  let shm := setFields elem [(8, fold (checksum shm elem (elemCount.toNat * 4096 / 8)))] shm
  ⟨shm, wrap32 (s.cmdqWptr + elemCount.toNat) % 63, s.cmdqSeq + 1#32⟩

/-- A message by `nv_gsp_rpc_get`, a copy of its payload and `nv_gsp_cmdq_push_inplace`. -/
def rpcPush (fn : BitVec 32) (payload : List (BitVec 8)) (s : NvGsp) : NvGsp :=
  let slot := slotWord s.cmdqWptr
  let s := s.nvGspRpcGet fn payload.length
  ({ s with shm := memcpy (slot + 20) payload s.shm }).nvGspCmdqPushInplace slot

/-- The number of slots of a message. -/
def slots (payload : List (BitVec 8)) : ℕ := (80 + payload.length + 4095) / 4096

/-! ## The checksum -/

theorem fold_xor (a b : BitVec 64) : fold (a ^^^ b) = fold a ^^^ fold b := by
  unfold fold
  ext i hi
  simp only [getElem_xor, getElem_setWidth, getLsbD_ushiftRight, getLsbD_xor, getLsbD_and]
  cases a.getLsbD (32 + i) <;> cases b.getLsbD (32 + i) <;> cases a.getLsbD i <;> cases b.getLsbD i <;>
    cases (0xFFFFFFFF#64).getLsbD i <;> rfl

theorem fold_append (hi lo : BitVec 32) : fold (hi ++ lo) = hi ^^^ lo := by
  have hmask : ∀ i < 32, (0xFFFFFFFF#64).getLsbD i = true := by decide
  unfold fold
  ext i hlt
  simp only [getElem_xor, getElem_setWidth, getLsbD_ushiftRight, getLsbD_and,
    hmask i hlt, getLsbD_append, Bool.and_true, hlt]
  have hge : ¬32 + i < 32 := by omega
  have hsub : 32 + i - 32 = i := by omega
  simp only [hge, hsub]
  rfl

/-- What is written to the field of the checksum goes into the checksum. -/
theorem fold_checksum_update {shm : ℕ → BitVec 32} {base n : ℕ} (v : BitVec 32) (hzero : shm (base + 8) = 0#32)
    (hn : 4 < n) :
    fold (checksum (update shm (base + 8) v) base n) = fold (checksum shm base n) ^^^ v := by
  have hne : ∀ i, i ≠ 4 → base + 2 * i + 1 ≠ base + 8 ∧ base + 2 * i ≠ base + 8 := fun i hi => by omega
  have hbefore : ∀ m ≤ 4, checksum (update shm (base + 8) v) base m = checksum shm base m := by
    intro m hm
    induction m with
    | zero => rfl
    | succ m ih =>
      have := hne m (by omega)
      rw [checksum, checksum, ih (by omega), update_of_ne this.1, update_of_ne this.2]
  induction n, hn using Nat.le_induction with
  | base =>
    have hhigh : base + 2 * 4 + 1 ≠ base + 8 := by omega
    have hfive : ∀ m, checksum m base 5 = checksum m base 4 ^^^ (m (base + 2 * 4 + 1) ++ m (base + 2 * 4)) :=
      fun m => rfl
    rw [hfive, hfive, hbefore 4 (Nat.le_refl 4), update_of_ne hhigh, fold_xor, fold_xor,
      fold_append, fold_append]
    rw [update_self, hzero, xor_zero, xor_assoc]
  | succ m hm ih =>
    have := hne m (by omega)
    rw [checksum, checksum, update_of_ne this.1, update_of_ne this.2, fold_xor, ih, fold_xor,
      xor_assoc, BitVec.xor_comm v, ← xor_assoc]

/-! ## Two ways of writing a message -/

variable {s : NvGsp} {payload : List (BitVec 8)}

variable {slot : ℕ} {fields : List (ℕ × BitVec 32)}

/-- The header does not overlap the payload. -/
theorem memcpy_setFields (hfields : ∀ f ∈ fields, f.1 < 20) (shm : ℕ → BitVec 32) :
    memcpy (slot + 20) payload (setFields slot fields shm) =
      setFields slot fields (memcpy (slot + 20) payload shm) := by
  induction fields generalizing shm with
  | nil => rfl
  | cons f fields ih =>
    have hf := hfields f (.head _)
    have hstep : memcpy (slot + 20) payload (update shm (slot + f.1) f.2) =
        update (memcpy (slot + 20) payload shm) (slot + f.1) f.2 := by
      funext w
      by_cases hw : w = slot + f.1
      · have hlt : ¬slot + 20 ≤ slot + f.1 := by omega
        simp only [memcpy, hw, update_self, hlt, false_and, if_false]
      · simp only [memcpy, update_of_ne hw]
    change memcpy _ _ (setFields slot fields (update shm (slot + f.1) f.2)) = _
    rw [ih (fun g hg => hfields g (.tail _ hg)), hstep]
    rfl

/-- Fields outside those that are set. -/
theorem setFields_of_not_mem {w : ℕ} (hw : ∀ f ∈ fields, w ≠ slot + f.1) (shm : ℕ → BitVec 32) :
    setFields slot fields shm w = shm w := by
  induction fields generalizing shm with
  | nil => rfl
  | cons f fields ih =>
    change setFields slot fields (update shm (slot + f.1) f.2) w = _
    rw [ih (fun g hg => hw g (.tail _ hg)), update_of_ne (hw f (.head _))]

/-- The two orders in which the header is written come to the same. -/
theorem header_eq (slot length : ℕ) (fn seq count : BitVec 32) (shm : ℕ → BitVec 32) :
    setFields slot (rpcFields length fn) (setFields slot [(9, seq), (10, count), (11, 0#32), (8, 0#32)] shm) =
      setFields slot [(11, 0#32), (8, 0#32), (9, seq), (18, 0#32)]
        (setFields slot (rpcFields length fn)
          (setFields slot [(11, 0#32), (8, 0#32), (10, count)] shm)) := by
  funext w
  by_cases hw : ∃ k < 20, w = slot + k
  · obtain ⟨k, hk, rfl⟩ := hw
    simp only [setFields, rpcFields, foldl_cons, foldl_nil, Function.update_apply,
      Nat.add_left_cancel_iff]
    interval_cases k <;> rfl
  · have hout : ∀ {fields : List (ℕ × BitVec 32)} {m : ℕ → BitVec 32}, (∀ f ∈ fields, f.1 < 20) →
        setFields slot fields m w = m w := fun hlt =>
      setFields_of_not_mem (fun f hf he => hw ⟨f.1, hlt f hf, he⟩) _
    rw [hout (by simp [rpcFields]), hout (by simp), hout (by simp), hout (by simp [rpcFields]), hout (by simp)]

/-- Words of the header before the `NvGspRpcHdr`. -/
theorem header_word {length k : ℕ} (fn : BitVec 32) (fields : List (ℕ × BitVec 32))
    (shm : ℕ → BitVec 32) (hk : k < 12) :
    memcpy (slot + 20) payload (setFields slot (rpcFields length fn) (setFields slot fields shm)) (slot + k) =
      setFields slot fields shm (slot + k) := by
  have hlt : ¬slot + 20 ≤ slot + k := by omega
  simp only [memcpy, hlt]
  apply setFields_of_not_mem
  simp only [rpcFields, forall_mem_cons]
  exact ⟨by omega, by omega, by omega, by omega, by omega, by omega, by omega, by omega,
    fun f hf => nomatch hf⟩

/-- The memory with a message whose checksum is still 0. -/
def body (fn : BitVec 32) (payload : List (BitVec 8)) (s : NvGsp) : ℕ → BitVec 32 :=
  memcpy (slotWord s.cmdqWptr + 20) payload (setFields (slotWord s.cmdqWptr)
    (rpcFields (32 + payload.length) fn) (setFields (slotWord s.cmdqWptr)
      [(9, s.cmdqSeq), (10, BitVec.ofNat 32 (slots payload)), (11, 0#32), (8, 0#32)]
      (memset (slotWord s.cmdqWptr) (slots payload * 4096) s.shm)))

/-- What is left to do with `body`. -/
def publish (fn : BitVec 32) (payload : List (BitVec 8)) (s : NvGsp) : NvGsp where
  shm := setFields (slotWord s.cmdqWptr)
    [(8, fold (checksum (s.body fn payload) (slotWord s.cmdqWptr) (slots payload * 4096 / 8)))]
    (s.body fn payload)
  cmdqWptr := wrap32 (s.cmdqWptr + slots payload) % 63
  cmdqSeq := s.cmdqSeq + 1#32

/-- The sizes of a message that is not larger than the queue. -/
theorem sizes_eq (hle : slots payload ≤ 63) :
    wrap32 (32 + payload.length) = 32 + payload.length ∧
      wrap64 (32 + payload.length) = 32 + payload.length ∧
      wrap64 (48 + (32 + payload.length)) = 48 + (32 + payload.length) ∧
      alignUp (48 + (32 + payload.length)) = slots payload * 4096 ∧
      slots payload * 4096 / 4096 = slots payload ∧
      (BitVec.ofNat 32 (slots payload)).toNat = slots payload := by
  have hlen : payload.length < 2 ^ 18 := by
    unfold slots at hle
    omega
  refine ⟨wrap32_of_lt (by omega), wrap64_of_lt (by omega), wrap64_of_lt (by omega), ?_,
    Nat.mul_div_cancel _ (by decide), Nat.mod_eq_of_lt (by omega)⟩
  rw [alignUp, wrap64_of_lt (by omega)]
  congr 2
  omega

theorem rpcPush_eq (fn : BitVec 32) (hle : slots payload ≤ 63) :
    s.rpcPush fn payload = s.publish fn payload := by
  obtain ⟨hlen, -, -, hsize, hpages, hcount⟩ := sizes_eq hle
  have hten : ∀ slot, memcpy (slot + 20) payload (setFields slot (rpcFields (32 + payload.length) fn)
      (setFields slot [(11, 0#32), (8, 0#32), (10, BitVec.ofNat 32 (slots payload))]
        (memset slot (slots payload * 4096) s.shm))) (slot + 10) = BitVec.ofNat 32 (slots payload) := by
    intro slot
    rw [header_word fn _ _ (by decide)]
    exact update_self ..
  simp only [rpcPush, nvGspRpcGet, nvGspCmdqPushInplace, hlen, hsize, hpages, hten, hcount]
  rw [← memcpy_setFields (by simp), ← header_eq]
  rfl

/-- The element count of a message, whatever its checksum is. -/
theorem body_count (s : NvGsp) (payload : List (BitVec 8)) (fn c : BitVec 32) :
    setFields (slotWord s.cmdqWptr) [(8, c)] (s.body fn payload) (slotWord s.cmdqWptr + 10) =
      BitVec.ofNat 32 (slots payload) := by
  rw [setFields_of_not_mem (by simp), body, header_word fn _ _ (by decide)]
  simp [setFields]

theorem nvGspPushPreinitRpc_eq (fn : BitVec 32) (hne : payload ≠ []) (hle : slots payload ≤ 63) :
    s.nvGspPushPreinitRpc fn payload = (0, s.publish fn payload) := by
  obtain ⟨-, hlen, htotal, hsize, hpages, hcount⟩ := sizes_eq hle
  have hten := s.body_count payload fn
  unfold body at hten
  rw [nvGspPushPreinitRpc, if_neg (fun h => hne (length_eq_zero_iff.mp h))]
  simp only [hlen, htotal, hsize, hpages, hten, hcount]
  rfl

/-- The 64-bit words of a message have an exclusive or that folds to 0. -/
theorem fold_publish (fn : BitVec 32) :
    fold (checksum (s.publish fn payload).shm (slotWord s.cmdqWptr) (slots payload * 4096 / 8)) = 0#32 := by
  have hzero : s.body fn payload (slotWord s.cmdqWptr + 8) = 0#32 := by
    rw [body, header_word fn _ _ (by decide)]
    exact update_self ..
  have hwords : 4 < slots payload * 4096 / 8 := by
    unfold slots
    omega
  change fold (checksum (update (s.body fn payload) (slotWord s.cmdqWptr + 8) _) _ _) = _
  rw [fold_checksum_update _ hzero hwords, BitVec.xor_self]

/-- A message that is not empty and fits before the end of the queue is written the same way by both: the same
memory, write pointer and sequence number, and a checksum that makes it fold to 0. Without a payload
`nv_gsp_push_preinit_rpc` sends nothing, and the other way sends one slot. -/
theorem encoders_agree (s : NvGsp) (fn : BitVec 32) :
    (∀ payload, payload ≠ [] → s.cmdqWptr + slots payload ≤ 63 →
      s.nvGspPushPreinitRpc fn payload = (0, s.rpcPush fn payload) ∧
        fold (checksum (s.rpcPush fn payload).shm (slotWord s.cmdqWptr) (slots payload * 4096 / 8)) = 0#32) ∧
      s.nvGspPushPreinitRpc fn [] = (-1, s) ∧
      (s.rpcPush fn []).shm (slotWord s.cmdqWptr + 10) = 1#32 ∧
      (s.rpcPush fn []).cmdqWptr = wrap32 (s.cmdqWptr + 1) % 63 ∧
      (s.rpcPush fn []).cmdqSeq = s.cmdqSeq + 1#32 := by
  refine ⟨fun payload hne hfits => ?_, rfl, ?_⟩
  · have hle : slots payload ≤ 63 := by omega
    rw [nvGspPushPreinitRpc_eq fn hne hle, rpcPush_eq fn hle]
    exact ⟨rfl, fold_publish fn⟩
  · rw [rpcPush_eq fn (by decide)]
    exact ⟨s.body_count [] fn _, rfl, rfl⟩

/-- A queue at its start. -/
def sampleGsp : NvGsp := ⟨fun _ => 1#32, 0, 0#32⟩

theorem encoders_agree_sample :
    sampleGsp.cmdqWptr + slots [7#8] ≤ 63 ∧
      sampleGsp.nvGspPushPreinitRpc 72#32 [7#8] = (0, sampleGsp.rpcPush 72#32 [7#8]) :=
  ⟨by decide, ((encoders_agree sampleGsp 72#32).1 _ (cons_ne_nil _ _) (by decide)).1⟩

/-- A message without a payload is sent by one of the two only. -/
theorem empty_payload_refused :
    sampleGsp.cmdqWptr + slots [] ≤ 63 ∧ (sampleGsp.nvGspPushPreinitRpc 72#32 []).1 = -1 ∧
      (sampleGsp.nvGspPushPreinitRpc 72#32 []).2.cmdqWptr = 0 ∧ (sampleGsp.rpcPush 72#32 []).cmdqWptr = 1 := by
  decide +kernel

end NvGsp

end NovaOS.Drivers
