import DeltaModels.Library.Patch

/-!
# Copying in place

`copyUp m src dst n` copies `n` values of the memory `m` one by one, from `src` on to `dst` on, lowest
address first. Each value is read when its turn comes, so one that an earlier round has overwritten is
copied in its new state: if `dst` is above `src`, the copy feeds on itself.

`copyUp_faithful_iff` says when that does no harm: if `dst` is not above `src`, or else if the stretch
that is copied repeats itself with the distance between the two.
-/

namespace InPlace

variable {ν : Type*} (m : Nat → ν) (src dst : Nat)

/-- The memory after `n` rounds of an ascending copy. -/
def copyUp : Nat → Nat → ν
  | 0 => m
  | n + 1 => (Patch.single (dst + n) (copyUp n (src + n))).apply (copyUp n)

variable {m src dst} {n i k : Nat}

theorem copyUp_succ : copyUp m src dst (n + 1)
    = (Patch.single (dst + n) (copyUp m src dst n (src + n))).apply (copyUp m src dst n) := rfl

/-- A copy changes nothing outside of its destination. -/
theorem copyUp_outside (hk : k < dst ∨ dst + n ≤ k) : copyUp m src dst n k = m k := by
  induction n with
  | zero => rfl
  | succ n ih =>
    have hne : k ≠ dst + n := by omega
    rw [copyUp_succ, Patch.apply_of_none _ (Patch.single_of_ne _ hne)]
    exact ih (by omega)

/-- A copy within the first `N` values does not depend on the others. -/
theorem copyUp_congr {m' : Nat → ν} {N : Nat} (h : ∀ k < N, m k = m' k) (hsrc : src + n ≤ N)
    (hk : k < N) : copyUp m src dst n k = copyUp m' src dst n k := by
  induction n generalizing k with
  | zero => exact h k hk
  | succ n ih =>
    rw [copyUp_succ, copyUp_succ, Patch.apply, Patch.apply, ih (by omega) hk,
      ih (by omega) (by omega)]

/-- A round stores what it reads, and later rounds leave it alone. -/
theorem copyUp_inside (hi : i < n) : copyUp m src dst n (dst + i) = copyUp m src dst i (src + i) := by
  induction n with
  | zero => omega
  | succ n ih =>
    rw [copyUp_succ]
    rcases Nat.lt_succ_iff_lt_or_eq.mp hi with hlt | rfl
    · have hne : dst + i ≠ dst + n := by omega
      rw [Patch.apply_of_none _ (Patch.single_of_ne _ hne)]
      exact ih hlt
    · exact Patch.apply_of_some _ (Patch.single_self _ _)

/-- The destination holds what the source held. -/
def Faithful (m : Nat → ν) (src dst n : Nat) : Prop :=
  ∀ i < n, copyUp m src dst n (dst + i) = m (src + i)

/-- The `n` values from `src` on repeat themselves with period `d`. -/
def Periodic (m : Nat → ν) (src d n : Nat) : Prop := ∀ i, i + d < n → m (src + i) = m (src + i + d)

/-- Downwards every value is read before it is overwritten. -/
theorem faithful_of_le (h : dst ≤ src) : Faithful m src dst n := by
  intro i hi
  rw [copyUp_inside hi]
  exact copyUp_outside (Or.inr (by omega))

/-- Upwards, round `i + d` reads what round `i` has stored. -/
theorem copyUp_feeds {d : Nat} (hd : dst = src + d) (hpos : 0 < d) (hi : i + d < n) :
    copyUp m src dst n (dst + (i + d)) = copyUp m src dst n (dst + i) := by
  have hread : src + (i + d) = dst + i := by omega
  have hbefore : i < i + d := by omega
  have hlast : i < n := by omega
  rw [copyUp_inside hi, hread, copyUp_inside hbefore, copyUp_inside hlast]

/-- Upwards, the copy is faithful exactly when the source is periodic. -/
theorem faithful_iff_periodic {d : Nat} (hd : dst = src + d) (hpos : 0 < d) :
    Faithful m src dst n ↔ Periodic m src d n := by
  constructor
  · intro h i hi
    calc m (src + i) = copyUp m src dst n (dst + i) := (h i (by omega)).symm
      _ = copyUp m src dst n (dst + (i + d)) := (copyUp_feeds hd hpos hi).symm
      _ = m (src + (i + d)) := h (i + d) hi
      _ = m (src + i + d) := by rw [Nat.add_assoc]
  · intro h i
    induction i using Nat.strongRecOn with
    | ind i ih =>
      intro hi
      by_cases hfirst : i < d
      -- the first `d` values are still as they were
      · rw [copyUp_inside hi]
        exact copyUp_outside (Or.inl (by omega))
      · obtain ⟨j, rfl⟩ : ∃ j, i = j + d := ⟨i - d, by omega⟩
        rw [copyUp_feeds hd hpos hi, ih j (by omega) (by omega), h j hi, Nat.add_assoc]

/-- **When an ascending copy is a copy**: if the destination does not start above the source, or if the
source repeats itself with the distance between them. -/
theorem copyUp_faithful_iff :
    Faithful m src dst n ↔ dst ≤ src ∨ Periodic m src (dst - src) n := by
  rcases Nat.lt_or_ge src dst with hup | hdown
  · have hd : dst = src + (dst - src) := by omega
    rw [faithful_iff_periodic hd (by omega)]
    exact ⟨Or.inr, fun h => h.resolve_left (by omega)⟩
  · exact iff_of_true (faithful_of_le hdown) (Or.inl hdown)

end InPlace
