import Mathlib.Data.BitVec

/-!
# Words under masks

`w &&& m` is what is left of a word `w` when all bits but those of the mask `m` are cleared. What is
left of two words is equal exactly when they agree on these bits (`and_eq_and_iff`), and so shifts of
words turn into shifts of masks.

The last section is about entries that match words by a mask and a value. `exists_common_iff` decides
whether two such entries have a word in common.
-/

namespace Masks

variable {n : Nat} {w w' : BitVec n}

/-- Words agree under a mask when they have the same bits there. -/
theorem and_eq_and_iff (m : BitVec n) :
    w &&& m = w' &&& m ↔ ∀ i, m.getLsbD i = true → w.getLsbD i = w'.getLsbD i := by
  constructor
  · intro h i hi
    have hbit := congrArg (fun x => x.getLsbD i) h
    simpa [hi] using hbit
  · intro h
    apply BitVec.eq_of_getLsbD_eq
    intro i _
    rw [BitVec.getLsbD_and, BitVec.getLsbD_and]
    cases hi : m.getLsbD i with
    | false => simp
    | true => rw [h i hi]

theorem and_or_eq_iff (m k : BitVec n) :
    w &&& (m ||| k) = w' &&& (m ||| k) ↔ w &&& m = w' &&& m ∧ w &&& k = w' &&& k := by
  simp only [and_eq_and_iff, BitVec.getLsbD_or, Bool.or_eq_true]
  constructor
  · exact fun h => ⟨fun i hi => h i (.inl hi), fun i hi => h i (.inr hi)⟩
  · rintro ⟨hm, hk⟩ i (hi | hi)
    · exact hm i hi
    · exact hk i hi

/-- Words that agree outside of a mask agree under another one exactly if they do where both select. -/
theorem and_eq_iff_of_outside {m : BitVec n} (h : w &&& ~~~m = w' &&& ~~~m) (k : BitVec n) :
    w &&& k = w' &&& k ↔ w &&& (k &&& m) = w' &&& (k &&& m) := by
  simp only [and_eq_and_iff, BitVec.getLsbD_and, BitVec.getLsbD_not, Bool.and_eq_true] at h ⊢
  constructor
  · exact fun hk i hi => hk i hi.1
  · intro hboth i hi
    by_cases hlt : i < n
    · cases hm : m.getLsbD i with
      | true => exact hboth i ⟨hi, hm⟩
      | false =>
        exact h i ⟨decide_eq_true hlt, by rw [hm]; rfl⟩
    · rw [BitVec.getLsbD_of_ge w _ (by omega), BitVec.getLsbD_of_ge w' _ (by omega)]

/-- A mask after a shift selects what the shifted mask selects before it. -/
theorem ushiftRight_and_eq_iff (s : Nat) (m : BitVec n) :
    (w >>> s) &&& m = (w' >>> s) &&& m ↔ w &&& (m <<< s) = w' &&& (m <<< s) := by
  simp only [and_eq_and_iff, BitVec.getLsbD_ushiftRight, BitVec.getLsbD_shiftLeft]
  constructor
  · intro h i hi
    simp only [Bool.and_eq_true, Bool.not_eq_true', decide_eq_false_iff_not] at hi
    have hbit := h (i - s) hi.2
    rwa [show s + (i - s) = i by omega] at hbit
  · intro h i hi
    by_cases hlt : s + i < n
    · refine h (s + i) ?_
      rw [Nat.add_sub_cancel_left, hi]
      simp [hlt]
    · rw [BitVec.getLsbD_of_ge w _ (by omega), BitVec.getLsbD_of_ge w' _ (by omega)]

/-- Flipping bits that the mask does not select goes unnoticed under it. -/
theorem xor_and_of_disjoint {m x : BitVec n} (h : m &&& x = 0#n) : (w ^^^ x) &&& m = w &&& m := by
  rw [and_eq_and_iff]
  intro i hi
  have hbit : (m &&& x).getLsbD i = false := by rw [h, BitVec.getLsbD_zero]
  rw [BitVec.getLsbD_and, hi, Bool.true_and] at hbit
  rw [BitVec.getLsbD_xor, hbit, Bool.xor_false]

/-- Flipping bits that the mask does select does not. -/
theorem eq_zero_of_xor_and_eq {m x : BitVec n} (hx : x &&& m = x)
    (h : (w ^^^ x) &&& m = w &&& m) : x = 0#n := by
  rw [and_eq_and_iff] at h
  apply BitVec.eq_of_getLsbD_eq
  intro i _
  have hbit : (x.getLsbD i && m.getLsbD i) = x.getLsbD i := by rw [← BitVec.getLsbD_and, hx]
  rw [BitVec.getLsbD_zero]
  cases hi : x.getLsbD i with
  | false => rfl
  | true =>
    rw [hi, Bool.true_and] at hbit
    have hsame := h i hbit
    rw [BitVec.getLsbD_xor, hi] at hsame
    cases hw : w.getLsbD i <;> simp [hw] at hsame

/-- A word whose upper bits are replaced by copies of the highest one that is left shows just the bits
that are left. -/
theorem sshiftRight_shiftLeft_eq_iff (s : Nat) :
    (w <<< s).sshiftRight s = (w' <<< s).sshiftRight s ↔
      w &&& (BitVec.allOnes n >>> s) = w' &&& (BitVec.allOnes n >>> s) := by
  simp only [and_eq_and_iff, BitVec.getLsbD_ushiftRight, BitVec.getLsbD_allOnes, decide_eq_true_eq]
  constructor
  · intro h i hi
    have hbit : ∀ v : BitVec n, ((v <<< s).sshiftRight s).getLsbD i = v.getLsbD i := by
      intro v
      have hn : ¬ n ≤ i := by omega
      rw [BitVec.getLsbD_sshiftRight, if_pos hi, BitVec.getLsbD_shiftLeft]
      simp [hi, hn]
    rw [← hbit w, h, hbit w']
  · intro h
    have hshift : w <<< s = w' <<< s := by
      apply BitVec.eq_of_getLsbD_eq
      intro i hi
      rw [BitVec.getLsbD_shiftLeft, BitVec.getLsbD_shiftLeft]
      by_cases hs : i < s
      · simp [hs]
      · rw [h (i - s) (by omega)]
    rw [hshift]

/-! ## Masks with values -/

variable {m₁ m₂ v₁ v₂ : BitVec n}

/-- If two values agree where both masks select, the bits of both make a word of the first one. -/
theorem or_and_eq_left (h₁ : m₁ &&& v₁ = v₁) (h₂ : m₂ &&& v₂ = v₂)
    (h : (v₁ ^^^ v₂) &&& (m₁ &&& m₂) = 0#n) : (v₁ ||| v₂) &&& m₁ = v₁ := by
  apply BitVec.eq_of_getLsbD_eq
  intro i _
  have hbit₁ : (m₁.getLsbD i && v₁.getLsbD i) = v₁.getLsbD i := by rw [← BitVec.getLsbD_and, h₁]
  have hbit₂ : (m₂.getLsbD i && v₂.getLsbD i) = v₂.getLsbD i := by rw [← BitVec.getLsbD_and, h₂]
  have hbit : ((v₁ ^^^ v₂) &&& (m₁ &&& m₂)).getLsbD i = false := by rw [h, BitVec.getLsbD_zero]
  rw [BitVec.getLsbD_and, BitVec.getLsbD_xor, BitVec.getLsbD_and] at hbit
  rw [BitVec.getLsbD_and, BitVec.getLsbD_or]
  revert hbit hbit₁ hbit₂
  cases v₁.getLsbD i <;> cases v₂.getLsbD i <;> cases m₁.getLsbD i <;> cases m₂.getLsbD i <;> simp

/-- Two values, each within its mask, have a word in common exactly when they agree on the bits that
both masks select. -/
theorem exists_common_iff (h₁ : m₁ &&& v₁ = v₁) (h₂ : m₂ &&& v₂ = v₂) :
    (∃ w, w &&& m₁ = v₁ ∧ w &&& m₂ = v₂) ↔ (v₁ ^^^ v₂) &&& (m₁ &&& m₂) = 0#n := by
  constructor
  · rintro ⟨w, rfl, rfl⟩
    apply BitVec.eq_of_getLsbD_eq
    intro i _
    simp only [BitVec.getLsbD_and, BitVec.getLsbD_xor, BitVec.getLsbD_zero]
    cases w.getLsbD i <;> cases m₁.getLsbD i <;> cases m₂.getLsbD i <;> rfl
  · intro h
    have hswap : (v₂ ^^^ v₁) &&& (m₂ &&& m₁) = 0#n := by
      rw [BitVec.xor_comm v₂ v₁, BitVec.and_comm m₂ m₁, h]
    refine ⟨v₁ ||| v₂, or_and_eq_left h₁ h₂ h, ?_⟩
    rw [BitVec.or_comm]
    exact or_and_eq_left h₂ h₁ hswap

end Masks
