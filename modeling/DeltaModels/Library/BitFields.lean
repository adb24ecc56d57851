import Mathlib.Algebra.Order.Ring.Nat
import Mathlib.Tactic.Ring

/-!
# Side-by-side bit fields

`join w hi lo` puts the number `hi` above the `w`-bit number `lo`. As long as `lo` fits its field,
both halves can be read back (`join_div`, `join_mod`), so joining is injective and the result fits
the two fields together.
-/

namespace BitFields

/-- `hi` above the `w`-bit field `lo`. -/
def join (w hi lo : Nat) : Nat := hi * 2 ^ w + lo

variable {v w hi hi' lo lo' : Nat}

theorem join_div (h : lo < 2 ^ w) : join w hi lo / 2 ^ w = hi := by
  rw [join, Nat.add_comm, Nat.add_mul_div_right _ _ (Nat.two_pow_pos w), Nat.div_eq_of_lt h,
    Nat.zero_add]

theorem join_mod (h : lo < 2 ^ w) : join w hi lo % 2 ^ w = lo := by
  rw [join, Nat.mul_add_mod_of_lt h]

theorem join_lt (hhi : hi < 2 ^ v) (hlo : lo < 2 ^ w) : join w hi lo < 2 ^ (v + w) := by
  have hle : (hi + 1) * 2 ^ w ≤ 2 ^ v * 2 ^ w := Nat.mul_le_mul_right _ hhi
  rw [pow_add]
  calc join w hi lo < hi * 2 ^ w + 2 ^ w := Nat.add_lt_add_left hlo _
    _ = (hi + 1) * 2 ^ w := by ring
    _ ≤ 2 ^ v * 2 ^ w := hle

/-- Two neighbouring fields of a number, put together, are the fields they make up. -/
theorem join_fields (n : Nat) :
    join w (n / 2 ^ w % 2 ^ v) (n % 2 ^ w) = n % 2 ^ (v + w) := by
  rw [join, pow_add, Nat.mul_comm (2 ^ v), Nat.mod_mul, Nat.mul_comm, Nat.add_comm]

/-- **Fields do not run into each other**: equal joins have equal fields. -/
theorem join_inj (hlo : lo < 2 ^ w) (hlo' : lo' < 2 ^ w) (h : join w hi lo = join w hi' lo') :
    hi = hi' ∧ lo = lo' := by
  constructor
  · have hdiv : join w hi lo / 2 ^ w = hi := join_div hlo
    rw [← hdiv, h, join_div hlo']
  · have hmod : join w hi lo % 2 ^ w = lo := join_mod hlo
    rw [← hmod, h, join_mod hlo']

end BitFields
