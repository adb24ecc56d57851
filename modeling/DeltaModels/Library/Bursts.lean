import Mathlib.Data.List.Basic
import Mathlib.Data.List.DropRight
import Mathlib.Tactic.Common

/-!
# Bursts of a sampled stream

A stream with a valid flag is a list of samples `(valid, value)`. A receiver that collects the
values while the flag is up sees them in bursts, the maximal stretches of valid samples.

`flatten_bursts` is what counting arguments need: all the bursts together are the valid values.

A receiver that follows the stream knows the bursts that have ended, `closed`, and the values of the
one that has not, `pending`; `bursts_eq` puts them together. `Spaced` streams have two invalid
samples at least between two bursts.
-/

namespace Bursts

variable {α : Type*}

/-- A stretch that has just ended; an empty one is no burst. -/
def close (cur : List α) : List (List α) := if cur.isEmpty then [] else [cur]

/-- The bursts of the samples, when `cur` has been collected already. -/
def after (cur : List α) : List (Bool × α) → List (List α)
  | [] => close cur
  | (true, a) :: ss => after (cur ++ [a]) ss
  | (false, _) :: ss => close cur ++ after [] ss

end Bursts

/-- The maximal stretches of valid samples. -/
def bursts {α : Type*} (ss : List (Bool × α)) : List (List α) := Bursts.after [] ss

namespace Bursts

variable {α : Type*}

/-- The values of the valid samples. -/
def valid (ss : List (Bool × α)) : List α := ss.filterMap fun s => if s.1 then some s.2 else none

theorem length_valid_cons (s : Bool × α) (ss : List (Bool × α)) :
    (valid (s :: ss)).length = (if s.1 then 1 else 0) + (valid ss).length := by
  obtain ⟨v, a⟩ := s
  cases v
  · simp [valid]
  · simp [valid, Nat.add_comm]

theorem flatten_close (cur : List α) : (close cur).flatten = cur := by
  cases cur <;> simp [close]

theorem flatten_after (cur : List α) (ss : List (Bool × α)) :
    (after cur ss).flatten = cur ++ valid ss := by
  induction ss generalizing cur with
  | nil => simp [after, valid, flatten_close]
  | cons s ss ih =>
    obtain ⟨v, a⟩ := s
    cases v with
    | true => rw [after, ih]; simp [valid]
    | false => rw [after, List.flatten_append, ih, flatten_close]; simp [valid]

/-- **Nothing is lost by cutting**: the bursts in a row are the valid values. -/
theorem flatten_bursts (ss : List (Bool × α)) : (bursts ss).flatten = valid ss :=
  flatten_after [] ss

theorem bursts_eq_nil {ss : List (Bool × α)} (h : valid ss = []) : bursts ss = [] := by
  induction ss with
  | nil => rfl
  | cons s ss ih =>
    obtain ⟨v, a⟩ := s
    cases v with
    | true => simp [valid] at h
    | false => exact ih (by simpa [valid] using h)

/-! ## Following a stream -/

/-- The bursts that have ended and the values collected since, after one more sample. -/
def follow (st : List (List α) × List α) (s : Bool × α) : List (List α) × List α :=
  if s.1 then (st.1, st.2 ++ [s.2]) else (st.1 ++ close st.2, [])

/-- The bursts that an invalid sample has ended. -/
def closed (ss : List (Bool × α)) : List (List α) := (ss.foldl follow ([], [])).1

/-- The values of the burst that has not ended yet. -/
def pending (ss : List (Bool × α)) : List α := (ss.foldl follow ([], [])).2

@[simp] theorem closed_nil : closed ([] : List (Bool × α)) = [] := rfl

@[simp] theorem pending_nil : pending ([] : List (Bool × α)) = [] := rfl

@[simp] theorem closed_concat_true (ss : List (Bool × α)) (a : α) :
    closed (ss ++ [(true, a)]) = closed ss := by
  simp [closed, follow]

@[simp] theorem pending_concat_true (ss : List (Bool × α)) (a : α) :
    pending (ss ++ [(true, a)]) = pending ss ++ [a] := by
  simp [pending, follow]

@[simp] theorem closed_concat_false (ss : List (Bool × α)) (b : α) :
    closed (ss ++ [(false, b)]) = closed ss ++ close (pending ss) := by
  simp [closed, pending, follow]

@[simp] theorem pending_concat_false (ss : List (Bool × α)) (b : α) :
    pending (ss ++ [(false, b)]) = [] := by
  simp [pending, follow]

/-- The bursts are those that have ended, and the one that has not. -/
theorem bursts_eq (ss : List (Bool × α)) : bursts ss = closed ss ++ close (pending ss) := by
  have hgen : ∀ (st : List (List α) × List α), st.1 ++ after st.2 ss
      = (ss.foldl follow st).1 ++ close (ss.foldl follow st).2 := by
    induction ss with
    | nil => intro st; rfl
    | cons s ss ih =>
      intro st
      obtain ⟨v, a⟩ := s
      rw [List.foldl_cons, ← ih]
      cases v <;> simp [follow, after]
  simpa [bursts, closed, pending] using hgen ([], [])

/-- The samples up to the latest invalid one. -/
def settled (ss : List (Bool × α)) : List (Bool × α) := ss.rdropWhile fun s => s.1

@[simp] theorem settled_concat_true (ss : List (Bool × α)) (a : α) :
    settled (ss ++ [(true, a)]) = settled ss :=
  List.rdropWhile_concat_pos _ _ _ rfl

@[simp] theorem settled_concat_false (ss : List (Bool × α)) (b : α) :
    settled (ss ++ [(false, b)]) = ss ++ [(false, b)] :=
  List.rdropWhile_concat_neg _ _ _ (by simp)

/-- No burst is longer than `n`. -/
def AtMost (n : Nat) (ss : List (Bool × α)) : Prop := ∀ burst ∈ bursts ss, burst.length ≤ n

instance (n : Nat) (ss : List (Bool × α)) : Decidable (AtMost n ss) :=
  inferInstanceAs (Decidable (∀ burst ∈ bursts ss, burst.length ≤ n))

variable {n : Nat} {ss : List (Bool × α)}

theorem mem_close {burst cur : List α} : burst ∈ close cur ↔ burst = cur ∧ cur ≠ [] := by
  cases cur <;> simp [close]

theorem AtMost.length_pending_le (h : AtMost n ss) : (pending ss).length ≤ n := by
  by_cases hempty : pending ss = []
  · simp [hempty]
  · refine h (pending ss) ?_
    rw [bursts_eq, List.mem_append, mem_close]
    exact .inr ⟨rfl, hempty⟩

/-- A burst of the samples so far is at most as long as what becomes of it. -/
theorem AtMost.of_concat {s : Bool × α} (h : AtMost n (ss ++ [s])) : AtMost n ss := by
  intro burst hburst
  rw [bursts_eq, List.mem_append, mem_close] at hburst
  obtain ⟨v, a⟩ := s
  rcases hburst with hclosed | ⟨rfl, hne⟩
  · refine h burst ?_
    rw [bursts_eq]
    cases v <;> simp [hclosed]
  · cases v with
    | true =>
      have hlen := h.length_pending_le
      rw [pending_concat_true, List.length_append, List.length_singleton] at hlen
      omega
    | false =>
      refine h (pending ss) ?_
      rw [bursts_eq, closed_concat_false, List.mem_append, List.mem_append, mem_close]
      exact .inl (.inr ⟨rfl, hne⟩)

theorem AtMost.of_prefix {pre : List (Bool × α)} (h : AtMost n ss) (hpre : pre <+: ss) :
    AtMost n pre := by
  obtain ⟨post, rfl⟩ := hpre
  induction post using List.reverseRecOn with
  | nil => simpa using h
  | append_singleton post s ih =>
    rw [← List.append_assoc] at h
    exact ih h.of_concat

/-! ## Gaps -/

/-- Between two bursts there are two invalid samples at least. -/
def Spaced (ss : List (Bool × α)) : Prop :=
  ∀ a b c, ¬ [(true, a), (false, b), (true, c)] <:+: ss

/-- The latest sample has ended a burst. -/
def JustEnded (ss : List (Bool × α)) : Prop := ∃ a b, [(true, a), (false, b)] <:+ ss

theorem spaced_nil : Spaced ([] : List (Bool × α)) := by simp [Spaced]

theorem Spaced.settled {ss : List (Bool × α)} (h : Spaced ss) : Spaced (settled ss) :=
  fun a b c hin => h a b c (hin.trans (List.rdropWhile_prefix _ _).isInfix)

/-- A burst may not start right after the sample that ended one. -/
theorem spaced_concat_true (ss : List (Bool × α)) (a : α) :
    Spaced (ss ++ [(true, a)]) ↔ Spaced ss ∧ ¬ JustEnded ss := by
  simp only [Spaced, JustEnded, List.infix_concat_iff, List.suffix_concat_iff]
  constructor
  · intro h
    refine ⟨fun x y z hin => h x y z (.inr hin), ?_⟩
    rintro ⟨x, y, hxy⟩
    exact h x y a (.inl (.inr ⟨[(true, x), (false, y)], rfl, hxy⟩))
  · rintro ⟨hss, hend⟩ x y z (hsuff | hin)
    · rcases hsuff with hnil | ⟨t, ht, hsuff⟩
      · cases hnil
      · have hsplit : [(true, x), (false, y)] ++ [(true, z)] = t ++ [(true, a)] := ht
        obtain ⟨rfl, -⟩ := List.append_inj' hsplit rfl
        exact hend ⟨x, y, hsuff⟩
    · exact hss x y z hin

/-- An invalid sample does not end a gap. -/
theorem spaced_concat_false (ss : List (Bool × α)) (b : α) :
    Spaced (ss ++ [(false, b)]) ↔ Spaced ss := by
  simp only [Spaced, List.infix_concat_iff, List.suffix_concat_iff]
  constructor
  · exact fun h x y z hin => h x y z (.inr hin)
  · rintro h x y z (hsuff | hin)
    · rcases hsuff with hnil | ⟨t, ht, -⟩
      · cases hnil
      · have hlast := congrArg List.getLast? ht
        simp at hlast
    · exact h x y z hin

theorem not_justEnded_concat_true (ss : List (Bool × α)) (a : α) :
    ¬ JustEnded (ss ++ [(true, a)]) := by
  rintro ⟨x, y, hsuff⟩
  obtain ⟨t, ht⟩ := hsuff
  have hlast := congrArg List.getLast? ht
  simp at hlast

/-- A sample ends a burst when values are pending. -/
theorem justEnded_concat_false (ss : List (Bool × α)) (b : α) :
    JustEnded (ss ++ [(false, b)]) ↔ pending ss ≠ [] := by
  constructor
  · rintro ⟨x, y, t, ht⟩
    have hsplit : (t ++ [(true, x)]) ++ [(false, y)] = ss ++ [(false, b)] := by simpa using ht
    obtain ⟨rfl, -⟩ := List.append_inj' hsplit rfl
    simp
  · intro h
    cases ss using List.reverseRecOn with
    | nil => exact absurd rfl h
    | append_singleton ss s =>
      obtain ⟨v, a⟩ := s
      cases v with
      | false => simp at h
      | true => exact ⟨a, b, ss, by simp⟩

/-! ## Infinite streams -/

/-- The first `n` samples of a stream. -/
def upTo (s : Nat → Bool × α) (n : Nat) : List (Bool × α) := (List.range n).map s

variable {s : Nat → Bool × α}

theorem upTo_succ (s : Nat → Bool × α) (n : Nat) : upTo s (n + 1) = upTo s n ++ [s n] := by
  simp [upTo, List.range_succ]

/-- A burst that never ended would become too long. -/
theorem exists_invalid (h : ∀ m, AtMost n (upTo s m)) (i : Nat) :
    ∃ j, i ≤ j ∧ (s j).1 = false := by
  by_contra hnot
  have hvalid : ∀ j, i ≤ j → (s j).1 = true := by
    intro j hj
    by_contra hfalse
    exact hnot ⟨j, hj, by simpa using hfalse⟩
  have hlong : ∀ k, k ≤ (pending (upTo s (i + k))).length := by
    intro k
    induction k with
    | zero => exact Nat.zero_le _
    | succ k ih =>
      have hsample : s (i + k) = (true, (s (i + k)).2) :=
        Prod.ext (hvalid (i + k) (by omega)) rfl
      rw [← Nat.add_assoc, upTo_succ, hsample, pending_concat_true, List.length_append,
        List.length_singleton]
      omega
  have hpending := hlong (n + 1)
  have hbound := (h (i + (n + 1))).length_pending_le
  omega

theorem getElem?_upTo (s : Nat → Bool × α) {m i : Nat} (h : i < m) :
    (upTo s m)[i]? = some (s i) := by
  simp [upTo, h]

/-- Among the first samples of a stream, a gap of one sample has its place. -/
theorem spaced_upTo_iff (s : Nat → Bool × α) (m : Nat) : Spaced (upTo s m) ↔
    ∀ i, i + 2 < m → ¬ ((s i).1 = true ∧ (s (i + 1)).1 = false ∧ (s (i + 2)).1 = true) := by
  have hlength : (upTo s m).length = m := by simp [upTo]
  constructor
  · rintro h i hi ⟨h0, h1, h2⟩
    refine h (s i).2 (s (i + 1)).2 (s (i + 2)).2 (List.infix_iff_getElem?.mpr ⟨i, ?_, ?_⟩)
    · simp only [List.length_cons, List.length_nil, hlength]
      omega
    · intro k hk
      have hk' : k = 0 ∨ k = 1 ∨ k = 2 := by
        simp only [List.length_cons, List.length_nil] at hk
        omega
      rw [getElem?_upTo s (by omega)]
      rcases hk' with rfl | rfl | rfl
      · rw [Nat.zero_add]
        exact congrArg some (Prod.ext h0 rfl)
      · rw [Nat.add_comm 1 i]
        exact congrArg some (Prod.ext h1 rfl)
      · rw [Nat.add_comm 2 i]
        exact congrArg some (Prod.ext h2 rfl)
  · intro h a b c hin
    obtain ⟨i, hi, hget⟩ := List.infix_iff_getElem?.mp hin
    simp only [List.length_cons, List.length_nil, hlength] at hi
    have hsample : ∀ k (hk : k < 3),
        s (k + i) = [(true, a), (false, b), (true, c)].get ⟨k, hk⟩ := by
      intro k hk
      have hk' := hget k hk
      rw [getElem?_upTo s (by omega)] at hk'
      exact Option.some.inj hk'
    refine h i (by omega) ⟨?_, ?_, ?_⟩
    · rw [← Nat.zero_add i, hsample 0 (by decide)]
      rfl
    · rw [Nat.add_comm i 1, hsample 1 (by decide)]
      rfl
    · rw [Nat.add_comm i 2, hsample 2 (by decide)]
      rfl

/-- Bursts end, so a gap of one sample is seen sooner or later among the settled samples. -/
theorem spaced_settled_upTo_iff (h : ∀ m, AtMost n (upTo s m)) :
    (∀ m, Spaced (settled (upTo s m))) ↔
      ∀ i, ¬ ((s i).1 = true ∧ (s (i + 1)).1 = false ∧ (s (i + 2)).1 = true) := by
  constructor
  · intro hspaced i
    obtain ⟨j, hij, hj⟩ := exists_invalid h (i + 2)
    have hsettled : settled (upTo s (j + 1)) = upTo s (j + 1) := by
      have hsample : s j = (false, (s j).2) := Prod.ext hj rfl
      rw [upTo_succ, hsample, settled_concat_false]
    have hall := hspaced (j + 1)
    rw [hsettled, spaced_upTo_iff] at hall
    exact hall i (by omega)
  · intro hgap m
    exact ((spaced_upTo_iff s m).mpr fun i _ => hgap i).settled

end Bursts
