import Mathlib.Data.List.Induction
import Mathlib.Tactic.Common

/-!
# Memories as histories of patches

A memory over arbitrary addresses `κ` and values `ν` is a function `κ → ν`. A write may touch one
address, a few lanes of a word or a whole region, so a write is a `Patch`: a partial function,
defined exactly where it stores something.

`latest ps k` is the value of the latest patch in the history `ps` that stores at `k`. The one
fact a client needs is `replay_eq`: applying a history to a memory leaves, at every address, what
the latest patch stored there, or the initial content if none did.

The last section is about memories with numbered addresses, written and read in stretches: `span`
is the patch that stores a list, `load` the list that a memory holds.
-/

/-- A write: the value it stores at each address it touches. -/
abbrev Patch (κ ν : Type*) := κ → Option ν

namespace Patch

variable {κ ν : Type*}

/-- A write of one value at one address. -/
def single [DecidableEq κ] (k : κ) (v : ν) : Patch κ ν := fun k' => if k' = k then some v else none

/-- The write that touches nothing. -/
def empty : Patch κ ν := fun _ => none

/-- Store a patch into a memory. -/
def apply (p : Patch κ ν) (m : κ → ν) : κ → ν := fun k => (p k).getD (m k)

@[simp] theorem single_self [DecidableEq κ] (k : κ) (v : ν) : single k v k = some v := by
  simp [single]

theorem single_of_ne [DecidableEq κ] {k k' : κ} (v : ν) (h : k' ≠ k) : single k v k' = none := by
  simp [single, h]

@[simp] theorem apply_empty (m : κ → ν) : apply empty m = m := rfl

theorem apply_of_none {p : Patch κ ν} {k : κ} (m : κ → ν) (h : p k = none) : p.apply m k = m k := by
  simp [apply, h]

theorem apply_of_some {p : Patch κ ν} {k : κ} {v : ν} (m : κ → ν) (h : p k = some v) :
    p.apply m k = v := by
  simp [apply, h]

/-! ## Histories -/

/-- What the latest patch of the history that touches `k` stores there. -/
def latest (ps : List (Patch κ ν)) (k : κ) : Option ν := ps.reverse.findSome? (· k)

/-- The memory after a history, oldest patch first. -/
def replay (m : κ → ν) (ps : List (Patch κ ν)) : κ → ν := ps.foldl (fun m p => p.apply m) m

@[simp] theorem latest_nil (k : κ) : latest ([] : List (Patch κ ν)) k = none := rfl

/-- The newest patch decides, where it touches the address; elsewhere the older ones do. -/
theorem latest_concat (ps : List (Patch κ ν)) (p : Patch κ ν) (k : κ) :
    latest (ps ++ [p]) k = (p k).or (latest ps k) := by
  cases h : p k <;> simp [latest, h]

theorem replay_concat (m : κ → ν) (ps : List (Patch κ ν)) (p : Patch κ ν) :
    replay m (ps ++ [p]) = p.apply (replay m ps) := by
  simp [replay]

theorem latest_eq_none_iff {ps : List (Patch κ ν)} {k : κ} :
    latest ps k = none ↔ ∀ p ∈ ps, p k = none := by
  simp [latest, List.findSome?_eq_none_iff]

/-- A value that some patch stores and no patch contradicts. -/
theorem latest_of_agree {ps : List (Patch κ ν)} {p : Patch κ ν} {k : κ} {v : ν} (hp : p ∈ ps)
    (hv : p k = some v) (hagree : ∀ q ∈ ps, ∀ v', q k = some v' → v' = v) : latest ps k = some v := by
  cases hlatest : latest ps k with
  | none =>
    rw [latest_eq_none_iff.mp hlatest p hp] at hv
    cases hv
  | some v' =>
    obtain ⟨q, hq, hv'⟩ := List.exists_of_findSome?_eq_some hlatest
    rw [hagree q (List.mem_reverse.mp hq) v' hv']

theorem latest_append (ps qs : List (Patch κ ν)) (k : κ) :
    latest (ps ++ qs) k = (latest qs k).or (latest ps k) := by
  simp [latest, List.findSome?_append]

theorem replay_append (m : κ → ν) (ps qs : List (Patch κ ν)) :
    replay m (ps ++ qs) = replay (replay m ps) qs := by
  simp [replay]

/-- **A memory is its history**: after any history each address holds what the latest patch stored
there, or what it held at the start. -/
theorem replay_eq (m : κ → ν) (ps : List (Patch κ ν)) (k : κ) :
    replay m ps k = (latest ps k).getD (m k) := by
  induction ps using List.reverseRecOn with
  | nil => rfl
  | append_singleton ps p ih =>
    rw [replay_concat, latest_concat, apply, ih]
    cases p k <;> rfl

/-! ## Stretches of a numbered memory -/

/-- The write of consecutive values from address `a` on. -/
def span (a : Nat) (vs : List ν) : Patch Nat ν := fun b => if a ≤ b then vs[b - a]? else none

/-- The `n` consecutive values from address `a` on. -/
def load (m : Nat → ν) (a n : Nat) : List ν := (List.range n).map fun i => m (a + i)

@[simp] theorem length_load (m : Nat → ν) (a n : Nat) : (load m a n).length = n := by simp [load]

/-- Two stretches that are loaded one after the other. -/
theorem load_append (m : Nat → ν) (a n k : Nat) : load m a n ++ load m (a + n) k = load m a (n + k) := by
  simp [load, List.range_add, Nat.add_assoc]

/-- The value stored behind a stretch becomes its last one. -/
theorem load_single_concat (m : Nat → ν) (a n : Nat) (v : ν) :
    load ((single (a + n) v).apply m) a (n + 1) = load m a n ++ [v] := by
  have hbefore : load ((single (a + n) v).apply m) a n = load m a n := by
    refine List.map_congr_left fun i hi => apply_of_none m (single_of_ne v ?_)
    have hi' : i < n := List.mem_range.mp hi
    omega
  rw [← hbefore]
  simp [load, List.range_succ, apply]

theorem span_nil (a : Nat) : span a ([] : List ν) = empty := by
  funext b; simp [span, empty]

theorem span_cons (a b : Nat) (v : ν) (vs : List ν) :
    span a (v :: vs) b = if b = a then some v else span (a + 1) vs b := by
  simp only [span]
  rcases Nat.lt_trichotomy b a with hlt | rfl | hgt
  · have h1 : ¬ a ≤ b := by omega
    have h2 : ¬ a + 1 ≤ b := by omega
    have hne : b ≠ a := by omega
    rw [if_neg h1, if_neg hne, if_neg h2]
  · simp
  · have h1 : a ≤ b := by omega
    have h2 : a + 1 ≤ b := by omega
    have hne : b ≠ a := by omega
    have hsub : b - a = (b - (a + 1)) + 1 := by omega
    rw [if_pos h1, if_neg hne, if_pos h2, hsub, List.getElem?_cons_succ]

/-- A stretch has no value behind its end. -/
theorem span_of_le {a b : Nat} {vs : List ν} (h : a + vs.length ≤ b) : span a vs b = none := by
  rw [span, if_pos (by omega), List.getElem?_eq_none (by omega)]

/-- The first value, then the others one address further. -/
theorem span_cons_apply (a : Nat) (v : ν) (vs : List ν) (m : Nat → ν) :
    (span a (v :: vs)).apply m = (span (a + 1) vs).apply ((single a v).apply m) := by
  funext x
  rw [apply, span_cons, apply]
  by_cases hx : x = a
  · have hnone : span (a + 1) vs x = none := if_neg (by omega)
    rw [if_pos hx, hnone, hx]
    exact (apply_of_some m (single_self a v)).symm
  · rw [if_neg hx, apply_of_none m (single_of_ne v hx)]

/-- The others, then the last value behind them. -/
theorem span_concat_apply (a : Nat) (vs : List ν) (v : ν) (m : Nat → ν) :
    (span a (vs ++ [v])).apply m = (single (a + vs.length) v).apply ((span a vs).apply m) := by
  funext x
  rcases Nat.lt_trichotomy x (a + vs.length) with hlt | rfl | hgt
  · rw [apply_of_none _ (single_of_ne v (Nat.ne_of_lt hlt))]
    simp only [apply, span]
    split
    · rw [List.getElem?_append_left (by omega)]
    · rfl
  · rw [apply_of_some _ (single_self _ v)]
    refine apply_of_some m ?_
    rw [span, if_pos (Nat.le_add_right _ _), Nat.add_sub_cancel_left, List.getElem?_concat_length]
  · have hnone : span a vs x = none := span_of_le (Nat.le_of_lt hgt)
    have hnone' : span a (vs ++ [v]) x = none := by
      refine span_of_le ?_
      rw [List.length_append, List.length_singleton]
      omega
    rw [apply_of_none _ (single_of_ne v (Nat.ne_of_gt hgt)), apply_of_none m hnone,
      apply_of_none m hnone']

/-- Two stretches, the second one right behind the first, are one. -/
theorem span_append_apply (a : Nat) (vs ws : List ν) (m : Nat → ν) :
    (span a (vs ++ ws)).apply m = (span (a + vs.length) ws).apply ((span a vs).apply m) := by
  induction vs generalizing a m with
  | nil => rw [List.nil_append, span_nil, apply_empty, List.length_nil, Nat.add_zero]
  | cons v vs ih =>
    rw [List.cons_append, span_cons_apply, ih, span_cons_apply, List.length_cons]
    congr 2
    omega

/-- What was stored is what is loaded. -/
theorem load_span (m : Nat → ν) (a : Nat) (vs : List ν) :
    load ((span a vs).apply m) a vs.length = vs := by
  refine List.ext_getElem (by simp) fun i _ hi => ?_
  simp [load, apply, span, hi]

/-- What was loaded from elsewhere and stored is what is loaded. -/
theorem load_span_load (m m' : Nat → ν) (a b n : Nat) :
    load ((span a (load m' b n)).apply m) a n = load m' b n := by
  have hload := load_span m a (load m' b n)
  rwa [length_load] at hload

/-- A stretch apart from the stored one is loaded as before. -/
theorem load_span_of_disjoint (m : Nat → ν) {a b n : Nat} {vs : List ν}
    (h : b + n ≤ a ∨ a + vs.length ≤ b) : load ((span a vs).apply m) b n = load m b n := by
  refine List.map_congr_left fun i hi => apply_of_none m ?_
  have hi' : i < n := List.mem_range.mp hi
  simp only [span]
  split
  · exact List.getElem?_eq_none (by omega)
  · rfl

end Patch
