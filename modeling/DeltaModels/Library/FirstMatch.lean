import Mathlib.Data.List.Basic
import Mathlib.Tactic.Common

/-!
# First-match tables

A table is searched from the front for an entry that matches. `map_find?_perm` says when the order of
the entries does not matter for what is read off the entry found: all entries that match say the same.
-/

namespace FirstMatch

variable {α β : Type*} {p : α → Bool} {f : α → β} {l l' : List α}

/-- If all entries that match have the same `f`, the search finds the `f` of each of them. -/
theorem map_find?_eq_some (h : ∀ a ∈ l, ∀ b ∈ l, p a = true → p b = true → f a = f b) {a : α}
    (ha : a ∈ l) (hp : p a = true) : (l.find? p).map f = some (f a) := by
  cases hfind : l.find? p with
  | none =>
    have hnone := List.find?_eq_none.mp hfind a ha
    exact absurd hp hnone
  | some b =>
    have hb : b ∈ l := List.mem_of_find?_eq_some hfind
    have hpb : p b = true := List.find?_some hfind
    rw [Option.map_some, h b hb a ha hpb hp]

/-- **The order of the entries does not matter** where all those that match have the same `f`. -/
theorem map_find?_perm (h : ∀ a ∈ l, ∀ b ∈ l, p a = true → p b = true → f a = f b)
    (hperm : l'.Perm l) : (l'.find? p).map f = (l.find? p).map f := by
  have h' : ∀ a ∈ l', ∀ b ∈ l', p a = true → p b = true → f a = f b :=
    fun a ha b hb => h a (hperm.mem_iff.mp ha) b (hperm.mem_iff.mp hb)
  cases hfind : l'.find? p with
  | none =>
    have hnone : l.find? p = none := by
      rw [List.find?_eq_none] at hfind ⊢
      exact fun a ha => hfind a (hperm.mem_iff.mpr ha)
    rw [hnone]
  | some a =>
    have ha : a ∈ l' := List.mem_of_find?_eq_some hfind
    have hpa : p a = true := List.find?_some hfind
    rw [map_find?_eq_some h (hperm.mem_iff.mp ha) hpa, Option.map_some]

end FirstMatch
