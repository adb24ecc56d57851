import Mathlib.Data.BitVec
import Mathlib.Data.Int.GCD
import Mathlib.Data.Int.ModEq
import Mathlib.Tactic.Common

/-!
# Multiples of a machine word

A counter that is set to `b` and goes down by `a` hits zero exactly when `b` is a multiple of `a`
modulo `2 ^ w`. For words that is a question of divisibility again, but not by `a` itself: every
multiple of `gcd a (2 ^ w)` is one.
-/

namespace Multiples

variable {w : Nat}

/-- `b` is a positive multiple of `a`, modulo `2 ^ w`. -/
def IsMultiple (a b : BitVec w) : Prop := ∃ m : Nat, b = BitVec.ofNat w (m + 1) * a

theorem toNat_ofNat_mul (m : Nat) (a : BitVec w) :
    (BitVec.ofNat w m * a).toNat = m * a.toNat % 2 ^ w := by
  rw [BitVec.toNat_mul, BitVec.toNat_ofNat, Nat.mod_mul_mod]

/-- **The multiples of a word are those of its gcd with the modulus.** -/
theorem isMultiple_iff (a b : BitVec w) : IsMultiple a b ↔ Nat.gcd a.toNat (2 ^ w) ∣ b.toNat := by
  constructor
  · rintro ⟨m, rfl⟩
    rw [toNat_ofNat_mul]
    have hmul : Nat.gcd a.toNat (2 ^ w) ∣ (m + 1) * a.toNat :=
      (Nat.gcd_dvd_left _ _).mul_left _
    exact (Nat.dvd_mod_iff (Nat.gcd_dvd_right _ _)).mpr hmul
  · intro hdvd
    have hint : Int.gcd a.toNat (2 ^ w : Nat) ∣ b.toNat := hdvd
    obtain ⟨x, y, hxy⟩ := Int.gcd_dvd_iff.mp hint
    -- Bezout's factor, made positive
    let m := (x % (2 ^ w : Nat)).toNat
    have hpos : (0 : Int) ≤ x % (2 ^ w : Nat) :=
      Int.emod_nonneg _ (by exact_mod_cast (Nat.two_pow_pos w).ne')
    have hm : (m : Int) = x % (2 ^ w : Nat) := Int.toNat_of_nonneg hpos
    refine ⟨m + 2 ^ w - 1, BitVec.eq_of_toNat_eq ?_⟩
    have hsucc : m + 2 ^ w - 1 + 1 = m + 2 ^ w := by
      have := Nat.two_pow_pos w
      omega
    rw [toNat_ofNat_mul, hsucc]
    have hmod : ((m + 2 ^ w : Nat) * a.toNat : Int) ≡ b.toNat [ZMOD (2 ^ w : Nat)] := by
      have hfactor : ((m + 2 ^ w : Nat) : Int) ≡ x [ZMOD (2 ^ w : Nat)] := by
        rw [Nat.cast_add, hm]
        simp [Int.ModEq]
      calc ((m + 2 ^ w : Nat) * a.toNat : Int)
          ≡ x * a.toNat [ZMOD (2 ^ w : Nat)] := hfactor.mul_right _
        _ ≡ b.toNat [ZMOD (2 ^ w : Nat)] := by
          rw [hxy, Int.mul_comm x]
          simp [Int.ModEq]
    have hnat : (m + 2 ^ w) * a.toNat ≡ b.toNat [MOD 2 ^ w] := by
      exact_mod_cast Int.natCast_modEq_iff.mp (by exact_mod_cast hmod)
    rw [hnat, Nat.mod_eq_of_lt b.isLt]

end Multiples
