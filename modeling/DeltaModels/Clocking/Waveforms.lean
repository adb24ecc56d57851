import DeltaModels.Clocking.ClockGen
import Mathlib.Tactic.Linarith
import Mathlib.Tactic.Ring

/-!
# `ClockGen` on any waveform

The input of the block need not be a clock: it may start high, and it may have phases of any lengths.
Only its first high phase counts. The block locks when that is over, and then drives a square wave with
the half-period that the length of this phase gives, whatever the input does (`clockGen_any_waveform`).
-/

namespace DeltaModels.Clocking

/-- The measuring thread after the first `n` samples of a waveform. -/
def metered (w : Nat → Bool) (n : Nat) : Meter := measureEdges.run {} ((List.range n).map w)

/-- The first high phase begins at `p` and is `k` picoseconds long. -/
structure FirstHigh (w : Nat → Bool) (p k : Nat) : Prop where
  low : ∀ t < p, w t = false
  high : ∀ t < k, w (p + t) = true
  falls : w (p + k) = false
  pos : 0 < k

/-- The output of `clk_gen` after a number of rounds that begin at `t₀`. -/
def generated (DIV MULT : Nat) (posDuration : BitVec 32) (t₀ : Int) (rounds : Nat) : Output :=
  (clkGen DIV MULT posDuration)^[rounds] ⟨t₀, []⟩

/-- The level of a signal at a time: what was written last. -/
def level (writes : List (Int × Bool)) (t : Int) : Option Bool :=
  ((writes.filter fun x => x.1 ≤ t).getLast?).map Prod.snd

/-! ## The measurement -/

variable {w : Nat → Bool} {p k : Nat}

theorem metered_succ (w : Nat → Bool) (n : Nat) :
    metered w (n + 1) = (measureEdges.step (metered w n) (w n)).1 := by
  rw [metered, List.range_succ, List.map_append, List.map_singleton, Mealy.run_concat]
  rfl

/-- While the input is low, the thread waits. -/
theorem metered_low {n : Nat} (h : ∀ t < n, w t = false) : metered w n = {} := by
  induction n with
  | zero => rfl
  | succ n ih =>
    rw [metered_succ, ih fun t ht => h t (by omega), h n (by omega)]
    rfl

/-- Then it counts, for as long as the input is high. -/
theorem metered_high (hlow : ∀ t < p, w t = false) {j : Nat} (hhigh : ∀ t ≤ j, w (p + t) = true) :
    metered w (p + j + 1) = { pc := .inner, posDuration := BitVec.ofNat 32 (j + 1) } := by
  induction j with
  | zero =>
    have hrise : w p = true := hhigh 0 (Nat.le_refl 0)
    rw [metered_succ, Nat.add_zero, metered_low hlow, hrise]
    rfl
  | succ j ih =>
    have hnext : BitVec.ofNat 32 (j + 1) + 1 = BitVec.ofNat 32 (j + 1 + 1) :=
      (BitVec.ofNat_add (j + 1) 1).symm
    rw [metered_succ, ← Nat.add_assoc, ih fun t ht => hhigh t (by omega), Nat.add_assoc p j 1,
      hhigh (j + 1) (Nat.le_refl _), ← hnext]
    rfl

/-- When the input falls, it waits once more, -/
theorem metered_falls (h : FirstHigh w p k) :
    metered w (p + k + 1) = { posDuration := BitVec.ofNat 32 k, unitialized := false } := by
  obtain ⟨j, rfl⟩ : ∃ j, k = j + 1 := ⟨k - 1, by have := h.pos; omega⟩
  rw [metered_succ, ← Nat.add_assoc, metered_high h.low fun t ht => h.high t (by omega),
    Nat.add_assoc p j 1, h.falls]
  rfl

/-- and then it is done. -/
theorem metered_done (h : FirstHigh w p k) {n : Nat} (hn : p + k + 1 < n) :
    metered w n
      = { pc := .done, posDuration := BitVec.ofNat 32 k, unitialized := false, locked := true } := by
  induction n with
  | zero => omega
  | succ n ih =>
    rw [metered_succ]
    rcases Nat.eq_or_lt_of_le (Nat.le_of_lt_succ hn) with heq | hlt
    · rw [← heq, metered_falls h]
      rfl
    · rw [ih hlt]
      rfl

/-- In its first `n` samples a waveform is low, or it rises and stays high, or it has a first high
phase. -/
theorem waveform_cases (w : Nat → Bool) (n : Nat) :
    (∀ t < n, w t = false) ∨
    (∃ p j, p + j + 1 = n ∧ (∀ t < p, w t = false) ∧ ∀ t ≤ j, w (p + t) = true) ∨
    ∃ p k, FirstHigh w p k ∧ p + k < n := by
  induction n with
  | zero => exact .inl fun t ht => absurd ht (by omega)
  | succ n ih =>
    rcases ih with hlow | ⟨p, j, rfl, hlow, hhigh⟩ | ⟨p, k, h, hlt⟩
    · cases hn : w n with
      | false =>
        refine .inl fun t ht => ?_
        rcases Nat.lt_succ_iff_lt_or_eq.mp ht with ht | rfl
        · exact hlow t ht
        · exact hn
      | true =>
        refine .inr (.inl ⟨n, 0, rfl, hlow, fun t ht => ?_⟩)
        obtain rfl : t = 0 := by omega
        exact hn
    · cases hn : w (p + j + 1) with
      | false =>
        exact .inr (.inr ⟨p, j + 1, ⟨hlow, fun t ht => hhigh t (by omega), hn, by omega⟩, by omega⟩)
      | true =>
        refine .inr (.inl ⟨p, j + 1, rfl, hlow, fun t ht => ?_⟩)
        rcases Nat.eq_or_lt_of_le ht with rfl | ht
        · exact hn
        · exact hhigh t (by omega)
    · exact .inr (.inr ⟨p, k, h, by omega⟩)

/-- **When the block locks**: two samples after the first high phase, and not before. -/
theorem locked_iff (w : Nat → Bool) (n : Nat) :
    (metered w n).locked = true ↔ ∃ p k, FirstHigh w p k ∧ p + k + 1 < n := by
  constructor
  · intro hlocked
    rcases waveform_cases w n with hlow | ⟨p, j, rfl, hlow, hhigh⟩ | ⟨p, k, h, hlt⟩
    · rw [metered_low hlow] at hlocked
      cases hlocked
    · rw [metered_high hlow hhigh] at hlocked
      cases hlocked
    · rcases Nat.eq_or_lt_of_le (Nat.succ_le_of_lt hlt) with heq | hlt
      · rw [← heq, Nat.succ_eq_add_one, metered_falls h] at hlocked
        cases hlocked
      · exact ⟨p, k, h, hlt⟩
  · rintro ⟨p, k, h, hlt⟩
    rw [metered_done h hlt]

/-! ## The output -/

section Output

variable {DIV MULT : Nat} {d : BitVec 32} {h : Nat} {t₀ : Int}

theorem generated_succ (DIV MULT : Nat) (d : BitVec 32) (t₀ : Int) (rounds : Nat) :
    generated DIV MULT d t₀ (rounds + 1) = clkGen DIV MULT d (generated DIV MULT d t₀ rounds) :=
  Function.iterate_succ_apply' _ _ _

/-- Each round takes two half-periods. -/
theorem now_generated (hh : (halfPeriod DIV MULT d).toInt = h) (t₀ : Int) (rounds : Nat) :
    (generated DIV MULT d t₀ rounds).now = t₀ + 2 * h * rounds := by
  induction rounds with
  | zero => simp [generated]
  | succ rounds ih =>
    rw [generated_succ]
    show (generated DIV MULT d t₀ rounds).now + _ + _ = _
    rw [ih, hh]
    push_cast
    ring

/-- What is written later does not count. -/
theorem level_later {writes later : List (Int × Bool)} {t : Int} (h : ∀ x ∈ later, t < x.1) :
    level (writes ++ later) t = level writes t := by
  have hnone : (later.filter fun x => x.1 ≤ t) = [] := by
    refine List.filter_eq_nil_iff.mpr fun x hx => ?_
    have hlt := h x hx
    simpa using hlt
  rw [level, level, List.filter_append, hnone, List.append_nil]

/-- The last write does. -/
theorem level_concat {writes : List (Int × Bool)} {x : Int × Bool} {t : Int} (hx : x.1 ≤ t) :
    level (writes ++ [x]) t = some x.2 := by
  rw [level, List.filter_append, List.filter_cons, if_pos (decide_eq_true hx), List.filter_nil,
    List.getLast?_concat]
  rfl

/-- The half-period that a time lies in. -/
theorem div_half {h t : Int} {n : Nat} (hlo : n * h ≤ t) (hhi : t < (n + 1) * h) : t / h = n := by
  have hpos : 0 < h := by linarith
  exact (Int.ediv_eq_iff_of_pos hpos).mpr ⟨by linarith, by linarith⟩

/-- **The output is a square wave** from `t₀` on, for as long as there are rounds. -/
theorem level_generated (hh : (halfPeriod DIV MULT d).toInt = h) {rounds : Nat} {t : Int}
    (hlo : t₀ ≤ t) (hhi : t < t₀ + 2 * h * rounds) :
    level (generated DIV MULT d t₀ rounds).clkO t = some (decide ((t - t₀) / h % 2 = 0)) := by
  induction rounds with
  | zero =>
    rw [Nat.cast_zero, mul_zero, add_zero] at hhi
    omega
  | succ rounds ih =>
    have hnow := now_generated hh t₀ rounds
    have hround : (generated DIV MULT d t₀ (rounds + 1)).clkO
        = (generated DIV MULT d t₀ rounds).clkO ++ [(t₀ + 2 * h * rounds, true)]
          ++ [(t₀ + 2 * h * rounds + h, false)] := by
      rw [generated_succ, List.append_assoc, ← hnow, ← hh]
      rfl
    rw [hround]
    push_cast at hhi
    by_cases hsecond : t₀ + 2 * h * rounds + h ≤ t
    · -- the low half of the last round
      have hdiv : (t - t₀) / h = (2 * rounds + 1 : Nat) :=
        div_half (by push_cast; linarith) (by push_cast; linarith)
      rw [level_concat hsecond, hdiv]
      simp
    · rw [level_later (by simpa using hsecond)]
      by_cases hfirst : t₀ + 2 * h * rounds ≤ t
      · -- the high half
        have hdiv : (t - t₀) / h = (2 * rounds : Nat) :=
          div_half (by push_cast; linarith) (by push_cast; linarith)
        rw [level_concat hfirst, hdiv]
        simp
      · rw [level_later (by simpa using hfirst)]
        exact ih (by omega)

end Output

/-- **The block on any input.** It locks when its input has had a first high phase and two more
picoseconds have passed, and never otherwise. From then on, whenever the first round begins and for any
number of rounds, its output is a square wave with the length of that phase, divided by `MULT` and
multiplied by `DIV`, for half-period, if both fit an `int`. If the phase is shorter than `MULT` picoseconds, rounds take no
time at all. -/
theorem clockGen_any_waveform (DIV MULT : Nat) (hdiv : 1 ≤ DIV) (hmult : 1 ≤ MULT)
    (hint : MULT < 2 ^ 31) (w : Nat → Bool) (n : Nat) :
    ((metered w n).locked = true ↔ ∃ p k, FirstHigh w p k ∧ p + k + 1 < n) ∧
    ∀ p k, FirstHigh w p k → p + k + 1 < n → k < 2 ^ 31 → k / MULT * DIV < 2 ^ 31 →
    ∀ (t₀ : Int) (rounds : Nat),
      (∀ t, t₀ ≤ t → t < t₀ + 2 * (k / MULT * DIV : Nat) * rounds →
        level (generated DIV MULT (metered w n).posDuration t₀ rounds).clkO t
          = some (decide ((t - t₀) / (k / MULT * DIV : Nat) % 2 = 0))) ∧
      (generated DIV MULT (metered w n).posDuration t₀ rounds).now
        = t₀ + 2 * (k / MULT * DIV : Nat) * rounds ∧
      (rounds ≠ 0 →
        ((generated DIV MULT (metered w n).posDuration t₀ rounds).now = t₀ ↔ k < MULT)) := by
  refine ⟨locked_iff w n, fun p k h hn hphase hfit t₀ rounds => ?_⟩
  have hhalf := toInt_halfPeriod hint hphase hfit
  rw [metered_done h hn]
  have hnow := now_generated hhalf t₀ rounds
  refine ⟨fun t hlo hhi => level_generated hhalf hlo hhi, hnow, fun hrounds => ?_⟩
  rw [hnow]
  constructor
  · intro hstall
    have hzero : k / MULT * DIV = 0 := by
      by_contra hne
      have hpos : 0 < 2 * (k / MULT * DIV) * rounds :=
        Nat.mul_pos (Nat.mul_pos (by decide) (Nat.pos_of_ne_zero hne)) (Nat.pos_of_ne_zero hrounds)
      have hcast : (0 : Int) < 2 * (k / MULT * DIV : Nat) * rounds := by exact_mod_cast hpos
      omega
    by_contra hle
    have hquot : 0 < k / MULT := Nat.div_pos (Nat.le_of_not_lt hle) hmult
    exact absurd hzero (Nat.mul_pos hquot hdiv).ne'
  · intro hlt
    rw [Nat.div_eq_of_lt hlt]
    simp

/-- An input that starts high, falls after 7 ps and has a glitch then. -/
def glitch (t : Nat) : Bool := t < 7 ∨ t = 9

/-- The output has half-periods of 6 ps, for a divider and a multiplier of 2. -/
theorem clockGen_any_waveform_glitch :
    (metered glitch 20).locked = true ∧
      level (generated 2 2 (metered glitch 20).posDuration 100 1000).clkO 113 = some true ∧
      level (generated 2 2 (metered glitch 20).posDuration 100 1000).clkO 111 = some false := by
  have hfirst : FirstHigh glitch 0 7 := ⟨by simp, by decide, rfl, by decide⟩
  obtain ⟨hlocked, hoften⟩ :=
    clockGen_any_waveform 2 2 (by decide) (by decide) (by decide) glitch 20
  obtain ⟨hlevel, -⟩ := hoften 0 7 hfirst (by decide) (by decide) (by decide) 100 1000
  exact ⟨hlocked.mpr ⟨0, 7, hfirst, by decide⟩, hlevel 113 (by decide) (by decide),
    hlevel 111 (by decide) (by decide)⟩

end DeltaModels.Clocking
