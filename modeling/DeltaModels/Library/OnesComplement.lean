import Mathlib.Data.Nat.ModEq
import Mathlib.Tactic.Common

/-!
# One's-complement sums

In one's-complement arithmetic on `w` bits a carry out of the top comes back in at the bottom. `add`
does so for two numbers, `fold` for one of any size: it adds what does not fit to the rest (`wrap`)
until everything fits.

Nothing of this changes a number modulo `2 ^ w - 1`, and only zero becomes zero. These two facts
determine the result (`fold_unique`), so everything else follows from them: a sum may be folded at any
time (`sum_eq_fold`), a number and the complement of its fold make up all ones (`fold_add_compl`), and
twice is enough for numbers of `2 * w` bits (`twice_eq_fold`).
-/

namespace OnesComplement

/-- What does not fit into `w` bits, added to the rest. -/
def wrap (w s : Nat) : Nat := s / 2 ^ w + s % 2 ^ w

theorem wrap_lt {w s : Nat} (hw : 0 < w) (hs : 2 ^ w ≤ s) : wrap w s < s := by
  have hdiv : 0 < s / 2 ^ w := Nat.div_pos hs (Nat.two_pow_pos w)
  have htwo : 2 ≤ 2 ^ w := Nat.le_self_pow (Nat.pos_iff_ne_zero.mp hw) 2
  have hmul : s / 2 ^ w * 2 ≤ s / 2 ^ w * 2 ^ w := Nat.mul_le_mul_left _ htwo
  have hsplit := Nat.div_add_mod' s (2 ^ w)
  rw [wrap]
  omega

/-- Wrapped until it fits. (Nothing fits into no bits.) -/
def fold (w s : Nat) : Nat := if _h : s < 2 ^ w ∨ w = 0 then s else fold w (wrap w s)
termination_by s
decreasing_by exact wrap_lt (by omega) (by omega)

/-- The carry out of the top comes back in at the bottom. -/
def add (w a b : Nat) : Nat := if a + b < 2 ^ w then a + b else a + b + 1 - 2 ^ w

/-- The one's-complement sum of a list. -/
def sum (w : Nat) (as : List Nat) : Nat := as.foldl (add w) 0

variable {w s r : Nat}

theorem fold_of_lt (h : s < 2 ^ w) : fold w s = s := by
  rw [fold, dif_pos (.inl h)]

theorem fold_of_le (hw : 0 < w) (h : 2 ^ w ≤ s) : fold w s = fold w (wrap w s) := by
  rw [fold, dif_neg (by omega)]

/-! ## Residues -/

theorem wrap_modEq (w s : Nat) : wrap w s ≡ s [MOD 2 ^ w - 1] := by
  have hone : 2 ^ w ≡ 1 [MOD 2 ^ w - 1] := Nat.modEq_sub Nat.one_le_two_pow
  have hmul : s / 2 ^ w * 2 ^ w ≡ s / 2 ^ w * 1 [MOD 2 ^ w - 1] := hone.mul_left _
  have hsplit := Nat.div_add_mod' s (2 ^ w)
  calc wrap w s = s / 2 ^ w * 1 + s % 2 ^ w := by rw [wrap, Nat.mul_one]
    _ ≡ s / 2 ^ w * 2 ^ w + s % 2 ^ w [MOD 2 ^ w - 1] := hmul.symm.add_right _
    _ = s := hsplit

theorem wrap_eq_zero_iff : wrap w s = 0 ↔ s = 0 := by
  have hsplit := Nat.div_add_mod' s (2 ^ w)
  rw [wrap]
  constructor
  · intro h
    obtain ⟨hdiv, hmod⟩ := Nat.add_eq_zero_iff.mp h
    rw [hdiv, hmod, Nat.zero_mul] at hsplit
    exact hsplit.symm
  · rintro rfl
    simp

/-- What folding keeps: the residue, and whether the number is zero. -/
structure Folded (w s r : Nat) : Prop where
  fits : r < 2 ^ w
  modEq : r ≡ s [MOD 2 ^ w - 1]
  zero_iff : r = 0 ↔ s = 0

theorem folded_fold (hw : 0 < w) (s : Nat) : Folded w s (fold w s) := by
  induction s using Nat.strongRecOn with
  | _ s ih =>
    by_cases h : s < 2 ^ w
    · rw [fold_of_lt h]
      exact ⟨h, rfl, Iff.rfl⟩
    · rw [fold_of_le hw (by omega)]
      have hwrap := ih (wrap w s) (wrap_lt hw (by omega))
      exact ⟨hwrap.fits, hwrap.modEq.trans (wrap_modEq w s), hwrap.zero_iff.trans wrap_eq_zero_iff⟩

/-- **The result is determined**: from 1 to `2 ^ w - 1` each residue occurs once. -/
theorem fold_unique (hw : 0 < w) (h : Folded w s r) : fold w s = r := by
  have hfold := folded_fold hw s
  have hmod : fold w s ≡ r [MOD 2 ^ w - 1] := hfold.modEq.trans h.modEq.symm
  have hfits := h.fits
  have hfits' := hfold.fits
  by_cases hr : r = 0
  · rw [hr, hfold.zero_iff, ← h.zero_iff, hr]
  · have hs : fold w s ≠ 0 := fun hzero => hr (h.zero_iff.mpr (hfold.zero_iff.mp hzero))
    obtain ⟨a, ha⟩ : ∃ a, fold w s = a + 1 := Nat.exists_eq_succ_of_ne_zero hs
    obtain ⟨b, hb⟩ : ∃ b, r = b + 1 := Nat.exists_eq_succ_of_ne_zero hr
    rw [ha, hb] at hmod
    have hab : a = b := (Nat.ModEq.add_right_cancel' 1 hmod).eq_of_lt_of_lt (by omega) (by omega)
    rw [ha, hb, hab]

/-! ## Sums -/

/-- A summand may be folded first. -/
theorem fold_fold_add (hw : 0 < w) (s t : Nat) : fold w (fold w s + t) = fold w (s + t) := by
  have hs := folded_fold hw s
  have hsum := folded_fold hw (s + t)
  have hzero := hs.zero_iff
  have hzero' := hsum.zero_iff
  exact fold_unique hw ⟨hsum.fits, hsum.modEq.trans (hs.modEq.symm.add_right t), by omega⟩

/-- Two numbers that fit are added by folding their sum. -/
theorem add_eq_fold (hw : 0 < w) {a b : Nat} (ha : a < 2 ^ w) (hb : b < 2 ^ w) :
    add w a b = fold w (a + b) := by
  rw [add]
  split
  · next hfits => rw [fold_of_lt hfits]
  · next hcarry =>
    have hle : 2 ^ w ≤ a + b := by omega
    have hdiv : (a + b) / 2 ^ w = 1 := by
      rw [Nat.div_eq_iff (Nat.two_pow_pos w)]
      omega
    have hmod : (a + b) % 2 ^ w = a + b - 2 ^ w := by
      rw [Nat.mod_eq_sub_mod hle, Nat.mod_eq_of_lt (by omega)]
    have hwrap : wrap w (a + b) = a + b + 1 - 2 ^ w := by
      rw [wrap, hdiv, hmod]
      omega
    rw [fold_of_le hw hle, hwrap, fold_of_lt (by omega)]

/-- **A sum is folded once for all.** -/
theorem sum_eq_fold (hw : 0 < w) {as : List Nat} (h : ∀ a ∈ as, a < 2 ^ w) :
    sum w as = fold w as.sum := by
  have hfold : ∀ s, as.foldl (add w) (fold w s) = fold w (s + as.sum) := by
    induction as with
    | nil => intro s; simp
    | cons a as ih =>
      intro s
      have hadd : add w (fold w s) a = fold w (s + a) := by
        rw [add_eq_fold hw (folded_fold hw s).fits (h a (by simp)), fold_fold_add hw]
      rw [List.foldl_cons, hadd, ih fun b hb => h b (by simp [hb]), List.sum_cons, Nat.add_assoc]
  have hzero : fold w 0 = 0 := fold_of_lt (Nat.two_pow_pos w)
  rw [sum, ← hzero, hfold 0, Nat.zero_add]

/-- **The verification law**: a number and the complement of its fold make up all ones. -/
theorem fold_add_compl (hw : 0 < w) (s : Nat) :
    fold w (s + (2 ^ w - 1 - fold w s)) = 2 ^ w - 1 := by
  have hs := folded_fold hw s
  have hfits := hs.fits
  have hzero := hs.zero_iff
  have htwo : 2 ≤ 2 ^ w := Nat.le_self_pow (Nat.pos_iff_ne_zero.mp hw) 2
  refine fold_unique hw ⟨by omega, ?_, by omega⟩
  calc 2 ^ w - 1 = fold w s + (2 ^ w - 1 - fold w s) := by omega
    _ ≡ s + (2 ^ w - 1 - fold w s) [MOD 2 ^ w - 1] := hs.modEq.add_right _

/-- **Twice is enough** for `2 * w` bits, and what the second time leaves above `w` bits may be cut
off. -/
theorem twice_eq_fold (hw : 0 < w) (h : s < 2 ^ w * 2 ^ w) :
    (wrap w s + wrap w s / 2 ^ w) % 2 ^ w = fold w s := by
  have hdiv : s / 2 ^ w < 2 ^ w := Nat.div_lt_of_lt_mul h
  have hmod : s % 2 ^ w < 2 ^ w := Nat.mod_lt _ (Nat.two_pow_pos w)
  have hwrap : wrap w s = s / 2 ^ w + s % 2 ^ w := rfl
  have hfold : fold w (wrap w s) = fold w s := by
    by_cases hfits : s < 2 ^ w
    · rw [hwrap, Nat.div_eq_of_lt hfits, Nat.mod_eq_of_lt hfits, Nat.zero_add]
    · exact (fold_of_le hw (by omega)).symm
  rw [← hfold, hwrap, ← add_eq_fold hw hdiv hmod, add]
  split
  · next hfits => rw [Nat.div_eq_of_lt hfits, Nat.add_zero, Nat.mod_eq_of_lt hfits]
  · next hcarry =>
    have hone : (s / 2 ^ w + s % 2 ^ w) / 2 ^ w = 1 := by
      rw [Nat.div_eq_iff (Nat.two_pow_pos w)]
      omega
    rw [hone, Nat.mod_eq_sub_mod (by omega), Nat.mod_eq_of_lt (by omega)]

end OnesComplement
