import Mathlib.Tactic.Common
import Std.Data.ExtTreeMap

/-!
# Ordered maps whose subscript inserts

`Std.ExtTreeMap` keeps its keys in order and two of them are equal when they hold the same pairs.
A map indexed with C++'s `operator[]` differs from a lookup in one way: an absent key is inserted
with the default value. `read` is the value that the subscript yields and `subscript` the map that
it leaves behind; `read_subscript` says that no value changes by it. What can change is the set of the
keys, and with it the map: two maps are equal if they have the same keys and read alike (`ext_read`).

The last section is about maps whose keys are machine words: `toList` is in the order of the keys
(`sorted_toList`), and a sorted list of the pairs of such a map is its `toList` (`toList_eq`).
-/

/-- An ordered map from `κ` to `ν`. -/
abbrev OrdMap (κ ν : Type*) [Ord κ] := Std.ExtTreeMap κ ν

namespace OrdMap

/-- Machine words as keys, found in one step. -/
instance instTransOrdWord : Std.TransOrd (BitVec 32) := inferInstance

variable {κ ν : Type*} [Ord κ] [Std.TransOrd κ] [Inhabited ν]

/-- The value under a key, the default when the key is absent. -/
def read (m : OrdMap κ ν) (k : κ) : ν := m.getD k default

/-- The map after `m[k]` was evaluated. -/
def subscript (m : OrdMap κ ν) (k : κ) : OrdMap κ ν := m.insertIfNew k default

@[simp] theorem read_empty (k : κ) : read (∅ : OrdMap κ ν) k = default := by
  simp [read]

variable [Std.LawfulEqOrd κ]

theorem read_insert [DecidableEq κ] (m : OrdMap κ ν) (k k' : κ) (v : ν) :
    read (m.insert k v) k' = if k = k' then v else m.read k' := by
  simp [read, Std.ExtTreeMap.getD_insert]

/-- Evaluating `m[k]` may add a key, but changes no value. -/
@[simp] theorem read_subscript (m : OrdMap κ ν) (k k' : κ) : read (m.subscript k) k' = m.read k' := by
  simp only [read, subscript, Std.ExtTreeMap.getD_insertIfNew]
  split
  · next h =>
    obtain ⟨hk, hmem⟩ := h
    have hk' : k' ∉ m := by simpa [Std.LawfulEqOrd.compare_eq_iff_eq.mp hk] using hmem
    rw [Std.ExtTreeMap.getD_eq_fallback hk']
  · rfl

/-! ## Keys -/

/-- Evaluating `m[k]` adds the key `k`. -/
@[simp] theorem mem_subscript {m : OrdMap κ ν} {k k' : κ} :
    k' ∈ m.subscript k ↔ k = k' ∨ k' ∈ m := by
  rw [subscript, Std.ExtTreeMap.mem_insertIfNew, Std.compare_eq_iff_eq]

/-- Two maps are equal if they have the same keys and read alike. -/
theorem ext_read {m m' : OrdMap κ ν} (hread : ∀ k, m.read k = m'.read k)
    (hmem : ∀ k, k ∈ m ↔ k ∈ m') : m = m' := by
  refine Std.ExtTreeMap.ext_getElem? fun k => ?_
  by_cases h : k ∈ m
  · have hm : m[k]? = some (m.read k) := Std.ExtTreeMap.getElem?_eq_some_getD h
    have hm' : m'[k]? = some (m'.read k) := Std.ExtTreeMap.getElem?_eq_some_getD ((hmem k).mp h)
    rw [hm, hm', hread]
  · have h' : k ∉ m' := mt (hmem k).mpr h
    rw [Std.ExtTreeMap.getElem?_eq_none h, Std.ExtTreeMap.getElem?_eq_none h']

omit [Inhabited ν] [Std.LawfulEqOrd κ] in
/-- A loop in which every round adds the keys `keys i` adds all of them. -/
theorem mem_foldl {σ ι : Type*} {f : σ → ι → σ} (mapOf : σ → OrdMap κ ν) {keys : ι → List κ}
    (hround : ∀ s i k, k ∈ mapOf (f s i) ↔ k ∈ mapOf s ∨ k ∈ keys i) (s : σ) (is : List ι) (k : κ) :
    k ∈ mapOf (is.foldl f s) ↔ k ∈ mapOf s ∨ k ∈ is.flatMap keys := by
  induction is generalizing s with
  | nil => simp
  | cons i is ih => rw [List.foldl_cons, ih, hround, List.flatMap_cons, List.mem_append, or_assoc]

/-! ## Machine words as keys -/

section Words

variable {n : Nat} {ν : Type*}

/-- Pairs in the order of their keys. -/
def Sorted (ps : List (BitVec n × ν)) : Prop := ps.Pairwise fun p q => p.1.toNat < q.1.toNat

theorem Sorted.nodup {ps : List (BitVec n × ν)} (h : Sorted ps) : ps.Nodup := by
  refine h.imp fun hlt heq => ?_
  rw [heq] at hlt
  exact Nat.lt_irrefl _ hlt

theorem sorted_toList (m : OrdMap (BitVec n) ν) : Sorted m.toList := by
  refine m.ordered_keys_toList.imp fun hlt => ?_
  exact BitVec.lt_def.mp (compareOfLessAndEq_eq_lt.mp hlt)

/-- A sorted list of all pairs of a map is the list that the map gives. -/
theorem toList_eq {m : OrdMap (BitVec n) ν} {ps : List (BitVec n × ν)} (hps : Sorted ps)
    (hmem : ∀ k v, (k, v) ∈ ps ↔ m[k]? = some v) : m.toList = ps := by
  have hperm : m.toList.Perm ps := by
    rw [List.perm_ext_iff_of_nodup (sorted_toList m).nodup hps.nodup]
    rintro ⟨k, v⟩
    rw [Std.ExtTreeMap.mem_toList_iff_getElem?_eq_some, hmem]
  refine hperm.eq_of_pairwise (fun p q _ _ hpq hqp => ?_) (sorted_toList m) hps
  exact absurd hqp (Nat.lt_asymm hpq)

end Words

end OrdMap
