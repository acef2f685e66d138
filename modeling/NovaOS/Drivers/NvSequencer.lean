import NovaOS.Lib.Word
import Mathlib.Logic.Relation
import Mathlib.Order.Nat

/-!
# The CPU sequencer of the GSP

Reference: `turing_execute_cpu_sequencer` of `drivers/nvidia/arch/turing/turing.c`.

A message of the firmware holds a command count and command words. Each pass of the interpreter takes
an opcode and its operands from the words at a 32-bit position. Only the position of the opcode is
compared with the count: an instruction that the count cuts off takes its operands from the words
behind, and the position may step over the count and start again at 0.
-/

namespace NovaOS.Drivers

open NovaOS.Lib

/-- What the interpreter does to the device. The last four are the opcodes 5 to 8, which take no
command words. -/
structure SequencerDevice (σ : Type) where
  rd32 : BitVec 32 → σ → BitVec 32 × σ
  wr32 : BitVec 32 → BitVec 32 → σ → σ
  sleepUs : ℕ → σ → σ
  coreReset : σ → σ
  coreStart : σ → σ
  coreWaitForHalt : σ → σ
  coreResume : σ → σ

/-- The interpreter, with a log of the command words that it has read. -/
structure Sequencer (σ : Type) where
  ptr : ℕ
  regSave : ℕ → BitVec 32
  dev : σ
  reads : List ℕ

namespace Sequencer

variable {σ : Type} (d : SequencerDevice σ) (cmdBuf : ℕ → BitVec 32)

/-- `cmd_buf[ptr++]`. -/
def fetch (s : Sequencer σ) : BitVec 32 × Sequencer σ :=
  (cmdBuf s.ptr, { s with ptr := wrap32 (s.ptr + 1), reads := s.ptr :: s.reads })

/-- The loop of `GSP_SEQ_BUF_OPCODE_REG_POLL`. -/
def regPoll (addr mask val : BitVec 32) (timeoutUs : ℕ) (dev : σ) : σ :=
  if timeoutUs = 0 then dev
  else
    let (x, dev) := d.rd32 addr dev
    if x &&& mask = val then dev
    else
      let dev := d.sleepUs 5 dev
      if timeoutUs ≥ 5 then regPoll addr mask val (timeoutUs - 5) dev else dev
termination_by timeoutUs

/-- One pass of the interpreter. -/
def step (s : Sequencer σ) : Sequencer σ :=
  let (op, s) := s.fetch cmdBuf
  match op.toNat with
  | 0 =>
    let (addr, s) := s.fetch cmdBuf
    let (val, s) := s.fetch cmdBuf
    { s with dev := d.wr32 addr val s.dev }
  | 1 =>
    let (addr, s) := s.fetch cmdBuf
    let (mask, s) := s.fetch cmdBuf
    let (val, s) := s.fetch cmdBuf
    let (x, dev) := d.rd32 addr s.dev
    { s with dev := d.wr32 addr ((x &&& ~~~mask) ||| (val &&& mask)) dev }
  | 2 =>
    let (addr, s) := s.fetch cmdBuf
    let (mask, s) := s.fetch cmdBuf
    let (val, s) := s.fetch cmdBuf
    let (timeoutUs, s) := s.fetch cmdBuf
    let timeoutUs := if timeoutUs = 0 then 4000000 else timeoutUs.toNat
    -- the error field is skipped
    { s with ptr := wrap32 (s.ptr + 1), dev := regPoll d addr mask val timeoutUs s.dev }
  | 3 =>
    let (us, s) := s.fetch cmdBuf
    { s with dev := d.sleepUs us.toNat s.dev }
  | 4 =>
    let (addr, s) := s.fetch cmdBuf
    let (slotIdx, s) := s.fetch cmdBuf
    if slotIdx.toNat < 8 then
      let (x, dev) := d.rd32 addr s.dev
      { s with dev := dev, regSave := fun i => if i = slotIdx.toNat then x else s.regSave i }
    else s
  | 5 => { s with dev := d.coreReset s.dev }
  | 6 => { s with dev := d.coreStart s.dev }
  | 7 => { s with dev := d.coreWaitForHalt s.dev }
  | 8 => { s with dev := d.coreResume s.dev }
  | _ => s

/-- The loop over the commands; `none` if it has not ended after `fuel` passes. -/
def run (cmdIdx : ℕ) : ℕ → Sequencer σ → Option (Sequencer σ)
  | 0, s => if s.ptr < cmdIdx then none else some s
  | fuel + 1, s => if s.ptr < cmdIdx then run cmdIdx fuel (s.step d cmdBuf) else some s

/-- `turing_execute_cpu_sequencer` on a message. -/
def turingExecuteCpuSequencer (seqPayload : ℕ → BitVec 32) (dev : σ) (fuel : ℕ) :
    Option (Sequencer σ) :=
  run d (fun i => seqPayload (i + 10)) (seqPayload 1).toNat fuel
    ⟨0, fun i => seqPayload (i + 2), dev, []⟩

/-- The words of an instruction: the opcode, its operands and the field that is skipped. -/
def instrWords (op : BitVec 32) : ℕ :=
  match op.toNat with
  | 0 => 3
  | 1 => 4
  | 2 => 6
  | 3 => 2
  | 4 => 3
  | _ => 1

/-- The words of an instruction that are read: all but the error field of a register poll. -/
def readWords (op : BitVec 32) : ℕ := if op.toNat = 2 then 5 else instrWords op

/-- The positions of opcodes that the interpreter comes to from position `p`. -/
def Reached (cmdBuf : ℕ → BitVec 32) (cmdIdx p : ℕ) : ℕ → Prop :=
  Relation.ReflTransGen (fun p q => p < cmdIdx ∧ q = p + instrWords (cmdBuf p)) p

/-- The words that the instruction at `p` reads are counted, and the position after it is no multiple
of `2 ^ 32`. -/
def Whole (cmdBuf : ℕ → BitVec 32) (cmdIdx p : ℕ) : Prop :=
  p + readWords (cmdBuf p) ≤ cmdIdx ∧ p + instrWords (cmdBuf p) ≠ 2 ^ 32

variable {d cmdBuf} {cmdIdx : ℕ} {s s' : Sequencer σ}

theorem instrWords_pos (op : BitVec 32) : 0 < instrWords op := by
  unfold instrWords
  split <;> decide

theorem instrWords_le (op : BitVec 32) : instrWords op ≤ readWords op + 1 := by
  unfold readWords instrWords
  split <;> split <;> omega

/-- A pass goes over one instruction and reads its words. -/
theorem step_spec (s : Sequencer σ) (hptr : s.ptr < 2 ^ 32) :
    (s.step d cmdBuf).ptr = wrap32 (s.ptr + instrWords (cmdBuf s.ptr)) ∧
      (s.step d cmdBuf).reads =
        ((List.range (readWords (cmdBuf s.ptr))).map fun k => wrap32 (s.ptr + k)).reverse ++ s.reads := by
  unfold step readWords instrWords
  dsimp only [fetch, wrap32]
  generalize (cmdBuf s.ptr).toNat = op
  have hmod := Nat.mod_eq_of_lt hptr
  rcases op with _ | _ | _ | _ | _ | _ | _ | _ | _ | op
  all_goals
    simp [List.range_succ, Nat.mod_add_mod, Nat.add_assoc, apply_ite ptr, apply_ite reads]
  all_goals exact hmod.symm

/-- The reads of a pass lie below the count if and only if the words of the instruction do. -/
theorem step_inside (hlt : cmdIdx < 2 ^ 32) (hptr : s.ptr < cmdIdx) :
    (∀ i ∈ (s.step d cmdBuf).reads, i < cmdIdx) ↔
      s.ptr + readWords (cmdBuf s.ptr) ≤ cmdIdx ∧ ∀ i ∈ s.reads, i < cmdIdx := by
  rw [(step_spec s (hptr.trans hlt)).2, List.forall_mem_append]
  simp only [List.mem_reverse, List.forall_mem_map, List.mem_range]
  refine and_congr_left fun _ => ⟨fun h => ?_, fun h k hk => ?_⟩
  · by_contra hcut
    -- the word at the count itself would be read
    have := h (cmdIdx - s.ptr) (by omega)
    rw [Nat.add_sub_cancel' hptr.le, wrap32_of_lt hlt] at this
    exact lt_irrefl _ this
  · exact (Nat.mod_le _ _).trans_lt (by omega)

theorem step_ptr (hlt : cmdIdx < 2 ^ 32) (hptr : s.ptr < cmdIdx) (hwhole : Whole cmdBuf cmdIdx s.ptr) :
    (s.step d cmdBuf).ptr = s.ptr + instrWords (cmdBuf s.ptr) := by
  have := instrWords_le (cmdBuf s.ptr)
  rw [(step_spec s (hptr.trans hlt)).1, wrap32_of_lt]
  unfold Whole at hwhole
  omega

/-- Where no instruction is cut off, the loop ends and has read words below the count only. -/
theorem run_inside (hlt : cmdIdx < 2 ^ 32)
    (hwhole : ∀ p, Reached cmdBuf cmdIdx 0 p → p < cmdIdx → Whole cmdBuf cmdIdx p) (fuel : ℕ)
    (hfuel : cmdIdx ≤ s.ptr + fuel) (hs : Reached cmdBuf cmdIdx 0 s.ptr) (hreads : ∀ i ∈ s.reads, i < cmdIdx) :
    ∃ s', run d cmdBuf cmdIdx fuel s = some s' ∧ ∀ i ∈ s'.reads, i < cmdIdx := by
  induction fuel generalizing s with
  | zero => exact ⟨s, if_neg (by omega), hreads⟩
  | succ fuel ih =>
    rw [run]
    split
    · rename_i hptr
      have hw := hwhole _ hs hptr
      have hnext := step_ptr (d := d) hlt hptr hw
      have hpos := instrWords_pos (cmdBuf s.ptr)
      exact ih (by omega) (hnext ▸ hs.tail ⟨hptr, rfl⟩) ((step_inside hlt hptr).mpr ⟨hw.1, hreads⟩)
    · exact ⟨s, rfl, hreads⟩

theorem run_reads (hlt : cmdIdx < 2 ^ 32) {fuel : ℕ} (hrun : run d cmdBuf cmdIdx fuel s = some s') :
    s.reads ⊆ s'.reads := by
  induction fuel generalizing s with
  | zero =>
    rw [run] at hrun
    split at hrun <;> cases hrun
    exact List.Subset.refl _
  | succ fuel ih =>
    rw [run] at hrun
    split at hrun
    · rename_i hptr
      refine List.Subset.trans ?_ (ih hrun)
      rw [(step_spec s (hptr.trans hlt)).2]
      exact List.subset_append_right _ _
    · cases hrun
      exact List.Subset.refl _

theorem Reached.le {p q : ℕ} (h : Reached cmdBuf cmdIdx p q) : p ≤ q := by
  induction h with
  | refl => exact le_rfl
  | tail _ hstep ih => omega

/-- An instruction whose end is position 0 again is interpreted for ever. -/
theorem run_wraps (hlt : cmdIdx < 2 ^ 32) {p : ℕ} (hzero : Reached cmdBuf cmdIdx 0 p) (hp : p < cmdIdx)
    (hend : p + instrWords (cmdBuf p) = 2 ^ 32) (fuel : ℕ) (hs : Reached cmdBuf cmdIdx s.ptr p) :
    run d cmdBuf cmdIdx fuel s = none := by
  have hptr (s : Sequencer σ) (hs : Reached cmdBuf cmdIdx s.ptr p) : s.ptr < cmdIdx := hs.le.trans_lt hp
  induction fuel generalizing s with
  | zero => exact if_pos (hptr s hs)
  | succ fuel ih =>
    rw [run, if_pos (hptr s hs)]
    have hnext : (s.step d cmdBuf).ptr = _ := (step_spec s ((hptr s hs).trans hlt)).1
    apply ih
    obtain he | ⟨q, ⟨-, rfl⟩, hq⟩ := hs.cases_head
    · rw [he, hend] at hnext
      rwa [hnext]
    · rwa [hnext, wrap32_of_lt ((Reached.le hq).trans_lt (hp.trans hlt))]

/-- A run that ends without a read past the count has come to whole instructions only. -/
theorem whole_of_run (hlt : cmdIdx < 2 ^ 32) {fuel p : ℕ} (hrun : run d cmdBuf cmdIdx fuel s = some s')
    (hreads : ∀ i ∈ s'.reads, i < cmdIdx) (hs : Reached cmdBuf cmdIdx 0 s.ptr)
    (hp : Reached cmdBuf cmdIdx s.ptr p) (hpc : p < cmdIdx) : Whole cmdBuf cmdIdx p := by
  induction fuel generalizing s with
  | zero =>
    rw [run, if_pos (hp.le.trans_lt hpc)] at hrun
    cases hrun
  | succ fuel ih =>
    have hptr := hp.le.trans_lt hpc
    have hwhole : Whole cmdBuf cmdIdx s.ptr := by
      refine ⟨?_, fun hend => ?_⟩
      · rw [run, if_pos hptr] at hrun
        exact ((step_inside hlt hptr).mp fun i hi => hreads i (run_reads hlt hrun hi)).1
      · rw [run_wraps hlt hs hptr hend _ .refl] at hrun
        cases hrun
    obtain rfl | ⟨q, ⟨-, rfl⟩, hq⟩ := hp.cases_head
    · exact hwhole
    · rw [run, if_pos hptr] at hrun
      have hnext := step_ptr (d := d) hlt hptr hwhole
      exact ih hrun (hnext ▸ hs.tail ⟨hptr, rfl⟩) (hnext ▸ hq)

/-- The interpreter ends and reads command words below the command count only, if and only if no
instruction that it comes to is cut off by the count or ends at position `2 ^ 32`. -/
theorem sequencer_inside_iff (d : SequencerDevice σ) (seqPayload : ℕ → BitVec 32) (dev : σ) :
    (∃ fuel s, turingExecuteCpuSequencer d seqPayload dev fuel = some s ∧
      ∀ i ∈ s.reads, i < (seqPayload 1).toNat) ↔
    ∀ p, Reached (fun i => seqPayload (i + 10)) (seqPayload 1).toNat 0 p → p < (seqPayload 1).toNat →
      Whole (fun i => seqPayload (i + 10)) (seqPayload 1).toNat p := by
  have hlt := (seqPayload 1).isLt
  constructor
  · rintro ⟨fuel, s, hrun, hreads⟩ p hp hpc
    exact whole_of_run hlt hrun hreads .refl hp hpc
  · intro hwhole
    exact ⟨_, run_inside hlt hwhole _ (Nat.le_add_left _ _) .refl (by simp)⟩

/-- A device without registers. -/
def idleDevice : SequencerDevice Unit :=
  ⟨fun _ _ => (0, ()), fun _ _ _ => (), fun _ _ => (), id, id, id, id⟩

/-- A message with a command count and with all its other words the same. -/
def uniformMessage (cmdIdx word : BitVec 32) : ℕ → BitVec 32
  | 1 => cmdIdx
  | _ => word

/-- A register write of which only the opcode is counted reads two words too many, and a message of
delays with the greatest count is interpreted for ever. -/
theorem sequencer_leaves :
    (turingExecuteCpuSequencer idleDevice (uniformMessage 1 0) () 1).map reads = some [2, 1, 0] ∧
      ∀ fuel, turingExecuteCpuSequencer idleDevice (uniformMessage 0xFFFFFFFF 3) () fuel = none := by
  refine ⟨by decide, fun fuel => ?_⟩
  -- the position stays even, and so below the count
  have hrun : ∀ s : Sequencer Unit, s.ptr % 2 = 0 → s.ptr < 2 ^ 32 →
      run idleDevice (fun _ => 3) 0xFFFFFFFF fuel s = none := by
    induction fuel with
    | zero => exact fun s heven hlt => if_pos (by omega)
    | succ fuel ih =>
      intro s heven hlt
      have hptr : (s.step idleDevice fun _ => 3).ptr = wrap32 (wrap32 (s.ptr + 1) + 1) := rfl
      rw [wrap32, wrap32] at hptr
      rw [run, if_pos (by omega)]
      exact ih _ (by omega) (by omega)
  exact hrun ⟨0, _, _, _⟩ rfl (by decide)

end Sequencer

end NovaOS.Drivers
