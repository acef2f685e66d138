import NovaOS.Lib.Word

/-!
# The HPET clock

Reference: `kernel/ACPI/hpet.c`, and the wait loops of `kernel/krdrivers/nvme/nvme.c`.

A reading is the product of the 64-bit counter and the period, taken on 64 bits and divided by the
unit. It is exact until the product passes `2 ^ 64` femtoseconds, a little over five hours.
-/

namespace NovaOS.Drivers

open NovaOS.Lib

/-- The variables of `hpet.c`: whether `g_hpet_base` is set, and `g_period_fs`. -/
structure Hpet where
  base : Bool
  periodFs : ℕ

def femtosecondsPerNano : ℕ := 1000000
def femtosecondsPerMilli : ℕ := 1000000000000

/-- `hpet_read_counter` when the main counter register holds `reg`. -/
def hpetReadCounter (g : Hpet) (reg : ℕ) : ℕ := if g.base then reg else 0

/-- The body of both clock functions, for a unit of `unit` femtoseconds. -/
def hpetReading (unit : ℕ) (g : Hpet) (reg : ℕ) : ℕ :=
  if g.periodFs = 0 then 0 else wrap64 (hpetReadCounter g reg * g.periodFs) / unit

/-- `hpet_get_nanos`. -/
def hpetGetNanos : Hpet → ℕ → ℕ := hpetReading femtosecondsPerNano

/-- `hpet_get_millis`. -/
def hpetGetMillis : Hpet → ℕ → ℕ := hpetReading femtosecondsPerMilli

/-- One pass of a wait loop of `nvme_submit_io_cmd`: whether the command is done, whether the
controller reports a fatal status, and the counter at the time check. -/
structure WaitPass where
  done : Bool
  fatal : Bool
  counter : ℕ

/-- How a wait loop ends; a time-out comes with the counter it was found at. -/
inductive WaitEnd where
  | done
  | fatal
  | timeout (counter : ℕ)
  | waiting
deriving DecidableEq

/-- The wait loop of `nvme_submit_io_cmd`, which took the reading `start` before it. -/
def waitLoop (g : Hpet) (timeoutMs start : ℕ) : List WaitPass → WaitEnd
  | [] => .waiting
  | p :: passes =>
    if p.done then .done
    else if p.fatal then .fatal
    else if timeoutMs ≤ sub64 (hpetGetMillis g p.counter) start then .timeout p.counter
    else waitLoop g timeoutMs start passes

variable {g : Hpet} {c unit : ℕ}

section

variable (hbase : g.base = true) (hperiod : 1 ≤ g.periodFs)
include hbase hperiod

theorem hpetReading_eq (unit c : ℕ) : hpetReading unit g c = wrap64 (c * g.periodFs) / unit := by
  rw [hpetReading, if_neg (by omega), hpetReadCounter, if_pos hbase]

theorem hpetReading_exact (hc : c * g.periodFs < 2 ^ 64) :
    hpetReading unit g c = c * g.periodFs / unit := by
  rw [hpetReading_eq hbase hperiod, wrap64_of_lt hc]

/-- A product that wraps loses `2 ^ 64`, which is more than one unit. -/
theorem hpetReading_exact_iff (hunit : 0 < unit) (hle : unit ≤ 2 ^ 64) :
    hpetReading unit g c = c * g.periodFs / unit ↔ c * g.periodFs < 2 ^ 64 := by
  refine ⟨fun h => ?_, hpetReading_exact hbase hperiod⟩
  by_contra hwrap
  rw [hpetReading_eq hbase hperiod] at h
  have hlost : wrap64 (c * g.periodFs) + unit ≤ c * g.periodFs := by
    unfold wrap64
    omega
  have hdiv := Nat.div_le_div_right (c := unit) hlost
  rw [Nat.add_div_right _ hunit, h] at hdiv
  omega

/-- A loop that times out has waited for the whole time, by the exact readings. -/
theorem waitLoop_timeout {c0 c1 timeoutMs : ℕ} {passes : List WaitPass}
    (hpasses : ∀ p ∈ passes, c0 ≤ p.counter ∧ p.counter * g.periodFs < 2 ^ 64)
    (h : waitLoop g timeoutMs (hpetGetMillis g c0) passes = .timeout c1) :
    timeoutMs ≤ c1 * g.periodFs / femtosecondsPerMilli - c0 * g.periodFs / femtosecondsPerMilli := by
  induction passes with
  | nil => cases h
  | cons p passes ih =>
    obtain ⟨hle, hlt⟩ := hpasses p List.mem_cons_self
    have hprod : c0 * g.periodFs ≤ p.counter * g.periodFs := Nat.mul_le_mul_right _ hle
    rw [waitLoop] at h
    split_ifs at h with _ _ htime
    · obtain rfl : p.counter = c1 := WaitEnd.timeout.inj h
      rw [hpetGetMillis, hpetReading_exact hbase hperiod hlt,
        hpetReading_exact hbase hperiod (by omega), sub64_of_le (Nat.div_le_div_right hprod)] at htime
      · exact htime
      · exact Nat.lt_of_le_of_lt (Nat.div_le_self _ _) hlt
    · exact ih (fun q hq => hpasses q (List.mem_cons_of_mem _ hq)) h

end

/-- Both readings are exact just while the product fits in 64 bits; over such counters they are
monotone, and a wait loop does not end early. -/
theorem hpet_exact_while_fits (g : Hpet) (hbase : g.base = true) (hperiod : 1 ≤ g.periodFs) :
    (∀ c < 2 ^ 64, (hpetGetNanos g c = c * g.periodFs / femtosecondsPerNano ∧
        hpetGetMillis g c = c * g.periodFs / femtosecondsPerMilli) ↔ c * g.periodFs < 2 ^ 64) ∧
      ∀ c₀ c₁, c₀ ≤ c₁ → c₁ * g.periodFs < 2 ^ 64 →
        hpetGetNanos g c₀ ≤ hpetGetNanos g c₁ ∧ hpetGetMillis g c₀ ≤ hpetGetMillis g c₁ ∧
        ∀ timeoutMs passes, (∀ p ∈ passes, c₀ ≤ p.counter ∧ p.counter ≤ c₁) →
          ∀ c, waitLoop g timeoutMs (hpetGetMillis g c₀) passes = .timeout c →
            timeoutMs ≤
              c * g.periodFs / femtosecondsPerMilli - c₀ * g.periodFs / femtosecondsPerMilli := by
  refine ⟨fun c _ => ⟨fun h => ?_, fun h => ?_⟩, fun c₀ c₁ hle hlt => ?_⟩
  · exact (hpetReading_exact_iff hbase hperiod (by decide) (by decide)).mp h.1
  · exact ⟨hpetReading_exact hbase hperiod h, hpetReading_exact hbase hperiod h⟩
  have hprod : c₀ * g.periodFs ≤ c₁ * g.periodFs := Nat.mul_le_mul_right _ hle
  have hmono : ∀ unit, hpetReading unit g c₀ ≤ hpetReading unit g c₁ := by
    intro unit
    rw [hpetReading_exact hbase hperiod hlt, hpetReading_exact hbase hperiod (by omega)]
    exact Nat.div_le_div_right hprod
  refine ⟨hmono _, hmono _, fun timeoutMs passes hpasses c h => ?_⟩
  refine waitLoop_timeout hbase hperiod (fun p hp => ⟨(hpasses p hp).1, ?_⟩) h
  exact Nat.lt_of_le_of_lt (Nat.mul_le_mul_right _ (hpasses p hp).2) hlt

theorem hpet_exact_while_fits_sample :
    hpetGetMillis ⟨true, 69841279⟩ 14318180 = 14318180 * 69841279 / femtosecondsPerMilli :=
  (((hpet_exact_while_fits ⟨true, 69841279⟩ rfl (by decide)).1 _ (by decide)).mpr
    (by decide)).2

/-- At the longest period the product wraps between two counters one tick apart. The reading falls
to zero, and a wait of thirty seconds ends on its first pass. -/
theorem hpet_wraps :
    hpetGetMillis ⟨true, 100000000⟩ 184467440738 < hpetGetMillis ⟨true, 100000000⟩ 184467440737 ∧
      waitLoop ⟨true, 100000000⟩ 30000 (hpetGetMillis ⟨true, 100000000⟩ 184467440737)
        [⟨false, false, 184467440738⟩] = .timeout 184467440738 := by
  decide

end NovaOS.Drivers
