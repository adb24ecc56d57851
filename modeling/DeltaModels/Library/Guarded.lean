import Mathlib.Data.List.Chain
import Mathlib.Data.List.Induction
import Mathlib.Tactic.Common

/-!
# Machines with events that may be refused

`Guarded` is a step function `state → event → Option (state × Option entry)`: an event may be refused,
and one that happens may leave an entry in a log. `run` is a list of events together with its log.

`forall_mem_log_iff` reads a property of the log as one of the moments at which its entries are
written. Four ways of arguing about a run, each stated once for what a single event does:

* `run_invariant` — what every event preserves holds after the run;
* `run_forall` — what holds of each entry when it is written holds of all of them;
* `run_isChain` — a relation between each entry and the one before it;
* `run_done` — a rank that every event lowers bounds the length of a run.

`Along` is a condition on each event of a run, on the state that it meets and on the events that come
after it: a promise of the environment to react in time is one. `run_along` carries an invariant through
a run that meets such a condition, and `isSome_run_iff` says under which promise a run goes on to its
end.
-/

/-- A machine whose events may be refused and may be logged. -/
structure Guarded (ε σ ο : Type*) where
  step : σ → ε → Option (σ × Option ο)

namespace Guarded

variable {ε σ ο : Type*} (m : Guarded ε σ ο)

/-- The state after a list of events and what they logged, unless one of them is refused. -/
def run (s : σ) : List ε → Option (σ × List ο)
  | [] => some (s, [])
  | e :: es =>
    (m.step s e).bind fun (s', o) => (run s' es).map fun (t, os) => (t, o.toList ++ os)

variable {m} {s t : σ} {e : ε} {es fs : List ε} {log : List ο}

@[simp] theorem run_nil : m.run s [] = some (t, log) ↔ s = t ∧ log = [] := by
  simp [run, eq_comm]

/-- The first event happens, and then the others do. -/
theorem run_cons : m.run s (e :: es) = some (t, log) ↔
    ∃ s' o os, m.step s e = some (s', o) ∧ m.run s' es = some (t, os) ∧ log = o.toList ++ os := by
  simp only [run, Option.bind_eq_some_iff, Option.map_eq_some_iff, Prod.exists, Prod.mk.injEq]
  constructor
  · rintro ⟨s', o, hstep, t', os, hrun, rfl, rfl⟩
    exact ⟨s', o, os, hstep, hrun, rfl⟩
  · rintro ⟨s', o, os, hstep, hrun, rfl⟩
    exact ⟨s', o, hstep, t, os, hrun, rfl, rfl⟩

theorem run_append : m.run s (es ++ fs) = some (t, log) ↔
    ∃ s' os os', m.run s es = some (s', os) ∧ m.run s' fs = some (t, os') ∧ log = os ++ os' := by
  induction es generalizing s log with
  | nil => simp
  | cons e es ih =>
    simp only [List.cons_append, run_cons, ih]
    constructor
    · rintro ⟨s₁, o, _, hstep, ⟨s', os, os', hrun, hrun', rfl⟩, rfl⟩
      exact ⟨s', o.toList ++ os, os', ⟨s₁, o, os, hstep, hrun, rfl⟩, hrun', by simp⟩
    · rintro ⟨s', _, os', ⟨s₁, o, os, hstep, hrun, rfl⟩, hrun', rfl⟩
      exact ⟨s₁, o, os ++ os', hstep, ⟨s', os, os', hrun, hrun', rfl⟩, by simp⟩

/-- The last event happens after the others. -/
theorem run_concat : m.run s (es ++ [e]) = some (t, log) ↔
    ∃ s' os o, m.run s es = some (s', os) ∧ m.step s' e = some (t, o) ∧ log = os ++ o.toList := by
  simp only [run_append, run_cons, run_nil]
  constructor
  · rintro ⟨s', os, _, hrun, ⟨_, o, _, hstep, ⟨rfl, rfl⟩, rfl⟩, rfl⟩
    exact ⟨s', os, o, hrun, hstep, by simp⟩
  · rintro ⟨s', os, o, hrun, hstep, rfl⟩
    exact ⟨s', os, o.toList, hrun, ⟨t, o, [], hstep, ⟨rfl, rfl⟩, by simp⟩, rfl⟩

/-- Every event of a run has happened, in the state that the events before it have reached. -/
theorem run_prefix {pre : List ε} (hpre : pre ++ [e] <+: es) (hrun : m.run s es = some (t, log)) :
    ∃ s' os t' o, m.run s pre = some (s', os) ∧ m.step s' e = some (t', o) := by
  obtain ⟨post, rfl⟩ := hpre
  obtain ⟨t', os', _, hfirst, -, -⟩ := run_append.mp hrun
  obtain ⟨s', os, o, hrun', hstep, -⟩ := run_concat.mp hfirst
  exact ⟨s', os, t', o, hrun', hstep⟩

/-- All entries have a property exactly when each has it as it is written. -/
theorem forall_mem_log_iff {Q : ο → Prop} (hrun : m.run s es = some (t, log)) :
    (∀ x ∈ log, Q x) ↔ ∀ pre e, pre ++ [e] <+: es → ∀ s' os t' x, m.run s pre = some (s', os) →
      m.step s' e = some (t', some x) → Q x := by
  induction es using List.reverseRecOn generalizing t log with
  | nil =>
    obtain ⟨rfl, rfl⟩ := run_nil.mp hrun
    simp
  | append_singleton es f ih =>
    obtain ⟨s', os, o, hfirst, hlast, rfl⟩ := run_concat.mp hrun
    constructor
    · intro h pre e hpre s₁ os₁ t₁ x hrun₁ hstep₁
      rcases List.prefix_concat_iff.mp hpre with heq | hpre
      · obtain ⟨rfl, he⟩ := List.append_inj' heq rfl
        cases he
        rw [hfirst] at hrun₁
        cases hrun₁
        rw [hlast] at hstep₁
        cases hstep₁
        exact h x (by simp)
      · have hos : ∀ x ∈ os, Q x := fun x hx => h x (by simp [hx])
        exact (ih hfirst).mp hos pre e hpre s₁ os₁ t₁ x hrun₁ hstep₁
    · intro h x hx
      rcases List.mem_append.mp hx with hx | hx
      · refine (ih hfirst).mpr (fun pre e hpre => ?_) x hx
        exact h pre e (hpre.trans (List.prefix_append es [f]))
      · obtain rfl : o = some x := by simpa using hx
        exact h es f (List.prefix_refl _) s' os t x hfirst hlast

/-! ## Rules for runs

`A` says which events are admissible, `P` is an invariant. -/

variable {A : ε → Prop} {P : σ → Prop}

/-- **Invariant rule.** -/
theorem run_invariant (hstep : ∀ s e s' o, A e → P s → m.step s e = some (s', o) → P s')
    (hs : P s) (hok : ∀ e ∈ es, A e) (hrun : m.run s es = some (t, log)) : P t := by
  induction es generalizing s log with
  | nil =>
    obtain ⟨rfl, rfl⟩ := run_nil.mp hrun
    exact hs
  | cons e es ih =>
    obtain ⟨s', o, os, hfirst, hrest, rfl⟩ := run_cons.mp hrun
    exact ih (hstep s e s' o (hok e (by simp)) hs hfirst) (fun f hf => hok f (by simp [hf])) hrest

/-- **Entry rule.** Every entry has the property that entries written under the invariant have. -/
theorem run_forall {Q : ο → Prop}
    (hstep : ∀ s e s' o, A e → P s → m.step s e = some (s', o) → P s' ∧ ∀ x ∈ o, Q x)
    (hs : P s) (hok : ∀ e ∈ es, A e) (hrun : m.run s es = some (t, log)) : ∀ x ∈ log, Q x := by
  induction es generalizing s log with
  | nil =>
    obtain ⟨rfl, rfl⟩ := run_nil.mp hrun
    simp
  | cons e es ih =>
    obtain ⟨s', o, os, hfirst, hrest, rfl⟩ := run_cons.mp hrun
    obtain ⟨hs', ho⟩ := hstep s e s' o (hok e (by simp)) hs hfirst
    intro x hx
    rcases List.mem_append.mp hx with hx | hx
    · exact ho x (by simpa using hx)
    · exact ih hs' (fun f hf => hok f (by simp [hf])) hrest x hx

/-- **Adjacency rule.** `L x s` says that `x` was the latest entry when `s` was reached. If each
new entry is related to the latest one, every entry of the log is related to the next. -/
theorem run_isChain {L : ο → σ → Prop} {R : ο → ο → Prop}
    (hsilent : ∀ s e s', A e → P s → m.step s e = some (s', none) →
      P s' ∧ ∀ x, L x s → L x s')
    (hentry : ∀ s e s' y, A e → P s → m.step s e = some (s', some y) →
      P s' ∧ L y s' ∧ ∀ x, L x s → R x y)
    (hs : P s) (hok : ∀ e ∈ es, A e) (hrun : m.run s es = some (t, log)) :
    log.IsChain R ∧ ∀ x, L x s → (x :: log).IsChain R := by
  induction es generalizing s log with
  | nil =>
    obtain ⟨rfl, rfl⟩ := run_nil.mp hrun
    simp
  | cons e es ih =>
    obtain ⟨s', o, os, hfirst, hrest, rfl⟩ := run_cons.mp hrun
    have hok' : ∀ f ∈ es, A f := fun f hf => hok f (by simp [hf])
    cases o with
    | none =>
      obtain ⟨hs', hlast⟩ := hsilent s e s' (hok e (by simp)) hs hfirst
      obtain ⟨hchain, hnext⟩ := ih hs' hok' hrest
      exact ⟨hchain, fun x hx => hnext x (hlast x hx)⟩
    | some y =>
      obtain ⟨hs', hlast, hR⟩ := hentry s e s' y (hok e (by simp)) hs hfirst
      have hchain : (y :: os).IsChain R := (ih hs' hok' hrest).2 y hlast
      exact ⟨hchain, fun x hx => List.isChain_cons_cons.mpr ⟨hR x hx, hchain⟩⟩

/-- **Rank rule.** `W s n` says that a machine that is busy (`B`) has at most `n` events left. If
every event leaves fewer of them, a run of `n` events ends with the machine not busy. -/
theorem run_done {B : σ → Prop} {W : σ → Nat → Prop}
    (hstep : ∀ s e s' o n, A e → W s n → m.step s e = some (s', o) → B s' →
      ∃ n' < n, W s' n')
    (hidle : ∀ s e s' o, A e → ¬ B s → m.step s e = some (s', o) → ¬ B s')
    (hzero : ∀ s, ¬ W s 0) {n : Nat} (hs : W s n) (hok : ∀ e ∈ es, A e)
    (hlen : n ≤ es.length) (hrun : m.run s es = some (t, log)) : ¬ B t := by
  induction es generalizing s n log with
  | nil =>
    obtain rfl : n = 0 := by simpa using hlen
    exact absurd hs (hzero s)
  | cons e es ih =>
    obtain ⟨s', o, os, hfirst, hrest, rfl⟩ := run_cons.mp hrun
    have hok' : ∀ f ∈ es, A f := fun f hf => hok f (by simp [hf])
    by_cases hbusy : B s'
    · obtain ⟨n', hlt, hs'⟩ := hstep s e s' o n (hok e (by simp)) hs hfirst hbusy
      simp only [List.length_cons] at hlen
      exact ih hs' hok' (by omega) hrest
    -- once it is not busy it stays so
    · exact run_invariant (P := fun s => ¬ B s)
        (fun s e s' o he hs hfirst => hidle s e s' o he hs hfirst) hbusy hok' hrest

/-! ## Conditions on every event of a run -/

section Along

variable (m) in
/-- `P` holds of every event, of the state that the events before it have reached and of the events that
are still to come. After an event that is refused nothing more is asked. -/
def Along (P : σ → ε → List ε → Prop) : σ → List ε → Prop
  | _, [] => True
  | s, e :: es => P s e es ∧ match m.step s e with
    | none => True
    | some (s', _) => Along P s' es

instance (P : σ → ε → List ε → Prop) [∀ s e es, Decidable (P s e es)] :
    ∀ s es, Decidable (m.Along P s es)
  | _, [] => .isTrue trivial
  | s, e :: es =>
    match hstep : m.step s e with
    | none => decidable_of_iff (P s e es) (by simp [Along, hstep])
    | some (s', _) =>
      have := instDecidableAlong P s' es
      decidable_of_iff (P s e es ∧ m.Along P s' es) (by simp [Along, hstep])

variable {Q R : σ → ε → List ε → Prop}

@[simp] theorem along_nil : m.Along R s [] := trivial

theorem along_cons : m.Along R s (e :: es) ↔
    R s e es ∧ ∀ s' o, m.step s e = some (s', o) → m.Along R s' es := by
  rw [Along]
  cases m.step s e with
  | none => simp
  | some r =>
    obtain ⟨t, o⟩ := r
    refine and_congr_right fun _ => ⟨?_, fun h => h t o rfl⟩
    rintro h s' o' ⟨⟩
    exact h

/-- Two conditions at once. -/
theorem along_and : m.Along (fun s e es => Q s e es ∧ R s e es) s es ↔
    m.Along Q s es ∧ m.Along R s es := by
  induction es generalizing s with
  | nil => simp
  | cons e es ih =>
    simp only [along_cons, ih]
    constructor
    · rintro ⟨⟨hQ, hR⟩, h⟩
      exact ⟨⟨hQ, fun s' o hs => (h s' o hs).1⟩, hR, fun s' o hs => (h s' o hs).2⟩
    · rintro ⟨⟨hQ, hQs⟩, hR, hRs⟩
      exact ⟨⟨hQ, hR⟩, fun s' o hs => ⟨hQs s' o hs, hRs s' o hs⟩⟩

/-- A condition that asks nothing of what is to come holds along the run so far. -/
theorem along_append_left {R : σ → ε → Prop} (h : m.Along (fun s e _ => R s e) s (es ++ fs)) :
    m.Along (fun s e _ => R s e) s es := by
  induction es generalizing s with
  | nil => trivial
  | cons e es ih =>
    rw [List.cons_append, along_cons] at h
    exact along_cons.mpr ⟨h.1, fun s' o hs => ih (h.2 s' o hs)⟩

/-- It also holds along what comes after. -/
theorem along_append_right (h : m.Along R s (es ++ fs)) (hrun : m.run s es = some (t, log)) :
    m.Along R t fs := by
  induction es generalizing s log with
  | nil =>
    obtain ⟨rfl, -⟩ := run_nil.mp hrun
    exact h
  | cons e es ih =>
    rw [List.cons_append, along_cons] at h
    obtain ⟨s', o, os, hfirst, hrest, -⟩ := run_cons.mp hrun
    exact ih (h.2 s' o hfirst) hrest

/-- **Assumption rule.** An invariant that every event preserves under the condition. -/
theorem run_along (hstep : ∀ s e es s' o, P s → R s e es → m.step s e = some (s', o) → P s')
    (hs : P s) (h : m.Along R s es) (hrun : m.run s es = some (t, log)) : P t := by
  induction es generalizing s log with
  | nil =>
    obtain ⟨rfl, -⟩ := run_nil.mp hrun
    exact hs
  | cons e es ih =>
    obtain ⟨s', o, os, hfirst, hrest, -⟩ := run_cons.mp hrun
    obtain ⟨hR, h⟩ := along_cons.mp h
    exact ih (hstep s e es s' o hs hR hfirst) (h s' o hfirst) hrest

/-- **Progress rule.** `W s es` says that the events to come redeem what has been promised so far, and
`R` is what each event promises anew. If in each state this is what lets the next event happen, a run
goes on to its end exactly if all promises are kept. -/
theorem isSome_run_iff {W : σ → List ε → Prop} (hnil : ∀ s, P s → W s [])
    (hinv : ∀ s e es s' o, P s → Q s e es → m.step s e = some (s', o) → P s')
    (hstep : ∀ s e es, P s → Q s e es → (W s (e :: es) ∧ R s e es ↔
      ∃ s' o, m.step s e = some (s', o) ∧ W s' es))
    (hs : P s) (h : m.Along Q s es) : (m.run s es).isSome ↔ W s es ∧ m.Along R s es := by
  induction es generalizing s with
  | nil => simp [run, hnil s hs]
  | cons e es ih =>
    obtain ⟨hQ, h⟩ := along_cons.mp h
    rw [along_cons, ← and_assoc, hstep s e es hs hQ]
    constructor
    · intro hrun
      obtain ⟨⟨t, log⟩, hrun⟩ := Option.isSome_iff_exists.mp hrun
      obtain ⟨s', o, os, hfirst, hrest, -⟩ := run_cons.mp hrun
      have hnext := (ih (hinv s e es s' o hs hQ hfirst) (h s' o hfirst)).mp (by rw [hrest]; rfl)
      refine ⟨⟨s', o, hfirst, hnext.1⟩, fun s'' o' hother => ?_⟩
      obtain ⟨rfl, -⟩ := Prod.mk.inj (Option.some.inj (hfirst.symm.trans hother))
      exact hnext.2
    · rintro ⟨⟨s', o, hfirst, hW⟩, hR⟩
      have hrest := (ih (hinv s e es s' o hs hQ hfirst) (h s' o hfirst)).mpr ⟨hW, hR s' o hfirst⟩
      obtain ⟨⟨t, log⟩, hrest⟩ := Option.isSome_iff_exists.mp hrest
      exact Option.isSome_iff_exists.mpr ⟨_, run_cons.mpr ⟨s', o, log, hfirst, hrest, rfl⟩⟩

end Along

end Guarded
