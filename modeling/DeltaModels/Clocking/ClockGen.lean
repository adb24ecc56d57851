import DeltaModels.Library.Mealy
import Mathlib.Algebra.Order.Field.Basic
import Mathlib.Algebra.Order.Field.Rat
import Mathlib.Data.BitVec
import Mathlib.Tactic.LinearCombination
import Mathlib.Tactic.Positivity

/-!
# `ClockGen<DIV,MULT>`

One thread measures the first high phase of the input clock, in picoseconds, and then sets `locked`; the
other one waits for that and drives the output clock. The half-period it waits is divided before it is
multiplied, so what the division drops counts `DIV` times: `clockGen_produces_iff`.
-/

namespace DeltaModels.Clocking

/-! ## Measuring -/

/-- Where `measure_edges` waits: in the loop for the first edge, or in the one that counts. -/
inductive Pc where
  | outer
  | inner
  | done
  deriving DecidableEq, Repr

/-- The members that the measuring thread uses, and the signal it drives. -/
structure Meter where
  pc : Pc := .outer
  posDuration : BitVec 32 := 0
  unitialized : Bool := true
  locked : Bool := false
  deriving DecidableEq, Repr

/-- The inner loop up to its wait, or up to the wait behind it. -/
def Meter.count (m : Meter) (clkI : Bool) : Meter :=
  if clkI then { m with posDuration := m.posDuration + 1, pc := .inner }
  else { m with unitialized := false, pc := .outer }

/-- `ClockGen::measure_edges` from one wait to the next, which are one picosecond apart. -/
def measureEdges : Mealy Bool Meter Bool where
  step m clkI :=
    let m' := match m.pc with
      | .outer =>
        if m.unitialized then
          if clkI then m.count clkI else m
        else { m with locked := true, pc := .done }
      | .inner => m.count clkI
      | .done => m
    (m', m'.locked)

/-- A clock that starts low, with phases of `H` picoseconds. -/
def wave (H t : Nat) : Bool := t / H % 2 = 1

/-- The thread after the first `n` samples of the clock. -/
def measured (H n : Nat) : Meter := measureEdges.run {} ((List.range n).map (wave H))

/-! ## Generating -/

/-- `pos_duration/MULT*DIV`. -/
def halfPeriod (DIV MULT : Nat) (posDuration : BitVec 32) : BitVec 32 :=
  posDuration.sdiv (BitVec.ofNat 32 MULT) * BitVec.ofNat 32 DIV

/-- The simulated time, and what was written to `clk_o` so far. -/
structure Output where
  now : Int
  clkO : List (Int × Bool)

/-- One round of the loop of `ClockGen::clk_gen`. -/
def clkGen (DIV MULT : Nat) (posDuration : BitVec 32) (o : Output) : Output :=
  let half := (halfPeriod DIV MULT posDuration).toInt
  { now := o.now + half + half
    clkO := o.clkO ++ [(o.now, true), (o.now + half, false)] }

/-- The block locks onto a clock with phases of `H` picoseconds: it has measured `H`, the half-period
that it waits is less than a picosecond off, and unless that is below a picosecond, time advances in each
round of the loop. -/
structure Produces (DIV MULT H : Nat) : Prop where
  locks : ∀ n, 2 * H + 1 < n →
    (measured H n).locked = true ∧ (measured H n).posDuration = BitVec.ofNat 32 H
  close : |((halfPeriod DIV MULT (BitVec.ofNat 32 H)).toInt : ℚ) - H * DIV / MULT| < 1
  advances : MULT ≤ H * DIV → ∀ o, o.now < (clkGen DIV MULT (BitVec.ofNat 32 H) o).now

/-! ## The measurement -/

variable {H : Nat}

theorem measured_succ (H n : Nat) :
    measured H (n + 1) = (measureEdges.step (measured H n) (wave H n)).1 := by
  rw [measured, List.range_succ, List.map_append, List.map_singleton, Mealy.run_concat]
  rfl

theorem wave_low {t : Nat} (ht : t < H) : wave H t = false := by
  rw [wave, Nat.div_eq_of_lt ht]
  rfl

theorem wave_high {t : Nat} (hlo : H ≤ t) (hhi : t < 2 * H) : wave H t = true := by
  have hdiv : t / H = 1 := Nat.div_eq_of_lt_le (by omega) (by omega)
  rw [wave, hdiv]
  rfl

theorem wave_falls (hH : 0 < H) : wave H (2 * H) = false := by
  rw [wave, Nat.mul_div_cancel _ hH]
  rfl

/-- Through the first phase nothing is counted. -/
theorem measured_low {n : Nat} (hn : n ≤ H) : measured H n = {} := by
  induction n with
  | zero => rfl
  | succ n ih =>
    rw [measured_succ, ih (by omega), wave_low (by omega)]
    rfl

/-- Through the second phase every sample is counted. -/
theorem measured_high {k : Nat} (hk : k < H) :
    measured H (H + k + 1) = { pc := .inner, posDuration := BitVec.ofNat 32 (k + 1) } := by
  induction k with
  | zero =>
    rw [measured_succ, Nat.add_zero, measured_low (Nat.le_refl H),
      wave_high (Nat.le_refl H) (by omega)]
    rfl
  | succ k ih =>
    have hnext : BitVec.ofNat 32 (k + 1) + 1 = BitVec.ofNat 32 (k + 1 + 1) :=
      (BitVec.ofNat_add (k + 1) 1).symm
    rw [measured_succ, ← Nat.add_assoc, ih (by omega), wave_high (by omega) (by omega), ← hnext]
    rfl

/-- The clock falls, and the thread waits once more. -/
theorem measured_falls (hH : 0 < H) :
    measured H (2 * H + 1) = { posDuration := BitVec.ofNat 32 H, unitialized := false } := by
  have htwo : 2 * H = H + (H - 1) + 1 := by omega
  have hsucc : H - 1 + 1 = H := by omega
  have hhigh : measured H (2 * H) = { pc := .inner, posDuration := BitVec.ofNat 32 H } := by
    rw [htwo, measured_high (by omega), hsucc]
  rw [measured_succ, hhigh, wave_falls hH]
  rfl

/-- **The measurement ends**, with the length of a phase. -/
theorem measured_locked (hH : 0 < H) {n : Nat} (hn : 2 * H + 1 < n) :
    measured H n
      = { pc := .done, posDuration := BitVec.ofNat 32 H, unitialized := false, locked := true } := by
  induction n with
  | zero => omega
  | succ n ih =>
    rw [measured_succ]
    rcases Nat.eq_or_lt_of_le (Nat.le_of_lt_succ hn) with heq | hlt
    · rw [← heq, measured_falls hH]
      rfl
    · rw [ih hlt]
      rfl

/-! ## The half-period -/

variable {DIV MULT : Nat}

theorem toInt_small {n : Nat} (hn : n < 2 ^ 31) : (BitVec.ofNat 32 n).toInt = n := by
  rw [BitVec.toInt_eq_toNat_cond, BitVec.toNat_ofNat]
  split <;> omega

/-- Without an overflow the half-period is what the numbers give. -/
theorem toInt_halfPeriod (hmult : MULT < 2 ^ 31) (hH : H < 2 ^ 31) (hprod : H / MULT * DIV < 2 ^ 31) :
    (halfPeriod DIV MULT (BitVec.ofNat 32 H)).toInt = (H / MULT * DIV : Nat) := by
  have hquot : H / MULT < 2 ^ 31 := Nat.lt_of_le_of_lt (Nat.div_le_self H MULT) hH
  have hsdiv : (BitVec.ofNat 32 H).sdiv (BitVec.ofNat 32 MULT) = BitVec.ofNat 32 (H / MULT) := by
    have hbmod : ((H / MULT : Nat) : Int).bmod (2 ^ 32) = (H / MULT : Nat) := by
      generalize H / MULT = q at hquot ⊢
      exact Int.bmod_eq_of_le (by omega) (by omega)
    apply BitVec.eq_of_toInt_eq
    rw [BitVec.toInt_sdiv, toInt_small hH, toInt_small hmult, toInt_small hquot, ← Int.ofNat_tdiv, hbmod]
  have hmul : BitVec.ofNat 32 (H / MULT) * BitVec.ofNat 32 DIV = BitVec.ofNat 32 (H / MULT * DIV) :=
    (BitVec.ofNat_mul _ _).symm
  rw [halfPeriod, hsdiv, hmul, toInt_small hprod]

/-- What is lost when the division comes first. -/
theorem exact_sub_half (hmult : 0 < MULT) (H DIV : Nat) :
    (H * DIV / MULT : ℚ) - (H / MULT * DIV : Nat) = (DIV * (H % MULT) : Nat) / MULT := by
  have hpos : (MULT : ℚ) ≠ 0 := by exact_mod_cast Nat.pos_iff_ne_zero.mp hmult
  have hsplit : (H : ℚ) = MULT * (H / MULT : Nat) + (H % MULT : Nat) := by
    exact_mod_cast (Nat.div_add_mod H MULT).symm
  rw [sub_eq_iff_eq_add, div_add' _ _ _ hpos]
  congr 1
  push_cast
  linear_combination (DIV : ℚ) * hsplit

/-- The half-period is less than a picosecond off exactly if less than that is lost. -/
theorem close_iff (hmult : 0 < MULT) (H DIV : Nat) :
    |((H / MULT * DIV : Nat) : ℚ) - H * DIV / MULT| < 1 ↔ DIV * (H % MULT) < MULT := by
  have hpos : (0 : ℚ) < MULT := by exact_mod_cast hmult
  rw [abs_sub_comm, exact_sub_half hmult, abs_of_nonneg (by positivity), div_lt_one hpos, Nat.cast_lt]

/-- Then it is 0 only for frequencies above those of a picosecond. -/
theorem half_pos (hmult : 0 < MULT) (hdiv : 0 < DIV) (hclose : DIV * (H % MULT) < MULT)
    (hle : MULT ≤ H * DIV) : 0 < H / MULT * DIV := by
  refine Nat.mul_pos (Nat.div_pos ?_ hmult) hdiv
  by_contra hlt
  rw [Nat.mod_eq_of_lt (Nat.lt_of_not_le hlt), Nat.mul_comm] at hclose
  omega

/-- **When the requested frequency is produced.** The block locks onto every clock; the half-period that
it waits then is right if and only if `DIV` times the rest of the division by `MULT` is below `MULT`. -/
theorem clockGen_produces_iff (DIV MULT H : Nat) (hH : 1 ≤ H) (hdiv : 1 ≤ DIV) (hmult : 1 ≤ MULT)
    (hint : MULT < 2 ^ 31) (hfit : H * DIV < 2 ^ 31) :
    Produces DIV MULT H ↔ DIV * (H % MULT) < MULT := by
  have hhalf := toInt_halfPeriod hint
    (Nat.lt_of_le_of_lt (Nat.le_mul_of_pos_right H hdiv) hfit)
    (Nat.lt_of_le_of_lt (Nat.mul_le_mul_right DIV (Nat.div_le_self H MULT)) hfit)
  constructor
  · intro h
    have hclose := h.close
    rw [hhalf] at hclose
    exact (close_iff hmult H DIV).mp (by exact_mod_cast hclose)
  · intro hclose
    refine ⟨fun n hn => ?_, ?_, fun hle o => ?_⟩
    · rw [measured_locked hH hn]
      exact ⟨rfl, rfl⟩
    · rw [hhalf]
      exact_mod_cast (close_iff hmult H DIV).mpr hclose
    · have hpos := half_pos hmult hdiv hclose hle
      show o.now < o.now + _ + _
      rw [hhalf]
      omega

/-- A clock of 1 ns and 5/2 of its frequency. -/
theorem clockGen_produces_test : Produces 2 5 500 :=
  (clockGen_produces_iff 2 5 500 (by decide) (by decide) (by decide) (by decide) (by decide)).mpr
    (by decide)

/-- Phases of 3 ps and 4/3 of their frequency: the half-period is 2.25 ps, and the one waited is 0. -/
theorem clockGen_stalls :
    ¬ ∀ DIV MULT H : Nat, 1 ≤ H → 1 ≤ DIV → 1 ≤ MULT → MULT < 2 ^ 31 → H * DIV < 2 ^ 31 →
      Produces DIV MULT H := by
  intro h
  have hadvances := (h 3 4 3 (by decide) (by decide) (by decide) (by decide) (by decide)).advances
    (by decide) ⟨0, []⟩
  revert hadvances
  decide

end DeltaModels.Clocking
