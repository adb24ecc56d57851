import DeltaModels.Library.Patch
import Mathlib.Data.List.Basic
import Mathlib.Data.List.Induction
import Mathlib.Tactic.Common

/-!
# Step functions and their runs

A clocked process, a command handler or a routed bus is one function
`state → input → state × output`, applied again and again. `Mealy` is that function;
`run` and `trace` are the state it ends in and the outputs it gives on a list of inputs.

Six ways of arguing about a whole run are packaged here, so that no client repeats the
induction:

* `run_invariant` — a property that every admissible step preserves holds after every run;
* `phase_run` — the same for a property of the inputs so far, over a limited number of steps whose
  outputs depend on their places only;
* `view_run` — if every step patches what is seen of the state, a run leaves what its latest patches
  stored;
* `Simulation` — two machines whose related states step to related states and give the same
  outputs have the same traces (`Simulation.trace_eq`);
* `Stuttering` — the same where some steps of the first machine are no steps of the second one, and
  nothing is seen of them;
* `Along` — "at every step of this run, `Q state input` holds". `along_iff_prefixes` reads it as a
  statement about all prefixes, and `along_congr` rewrites it under an invariant.
-/

/-- A deterministic machine: one step takes a state and an input to a state and an output. -/
structure Mealy (ι σ ο : Type*) where
  step : σ → ι → σ × ο

namespace Mealy

variable {ι σ τ ο : Type*}

/-! ## Runs and traces -/

section Runs

variable (m : Mealy ι σ ο)

/-- The state after the inputs `is`. -/
def run (s : σ) : List ι → σ
  | [] => s
  | i :: is => run (m.step s i).1 is

/-- The outputs given on the inputs `is`, oldest first. -/
def trace (s : σ) : List ι → List ο
  | [] => []
  | i :: is => (m.step s i).2 :: trace (m.step s i).1 is

@[simp] theorem run_nil (s : σ) : m.run s [] = s := rfl

@[simp] theorem run_cons (s : σ) (i : ι) (is : List ι) :
    m.run s (i :: is) = m.run (m.step s i).1 is := rfl

@[simp] theorem trace_nil (s : σ) : m.trace s [] = [] := rfl

@[simp] theorem trace_cons (s : σ) (i : ι) (is : List ι) :
    m.trace s (i :: is) = (m.step s i).2 :: m.trace (m.step s i).1 is := rfl

theorem run_append (s : σ) (is js : List ι) : m.run s (is ++ js) = m.run (m.run s is) js := by
  induction is generalizing s with
  | nil => rfl
  | cons i is ih => exact ih _

theorem trace_append (s : σ) (is js : List ι) :
    m.trace s (is ++ js) = m.trace s is ++ m.trace (m.run s is) js := by
  induction is generalizing s with
  | nil => rfl
  | cons i is ih => exact congrArg (List.cons _) (ih _)

/-- One more input: the run takes one more step. -/
theorem run_concat (s : σ) (is : List ι) (i : ι) :
    m.run s (is ++ [i]) = (m.step (m.run s is) i).1 := by
  rw [run_append]; rfl

/-- **Phase rule.** If an admissible input with fewer than `n` before it carries on a property of the
inputs so far, and is answered according to its place, the same goes for all of them together. -/
theorem phase_run (P : List ι → σ → Prop) (Ok : ι → Prop) (out : Nat → ο) (n : Nat)
    (hstep : ∀ xs s i, P xs s → xs.length < n → Ok i →
      P (xs ++ [i]) (m.step s i).1 ∧ (m.step s i).2 = out xs.length)
    {s : σ} (xs is : List ι) (hs : P xs s) (hlen : xs.length + is.length ≤ n)
    (hok : ∀ i ∈ is, Ok i) :
    P (xs ++ is) (m.run s is) ∧ m.trace s is = (List.range' xs.length is.length).map out := by
  induction is generalizing s xs with
  | nil => exact ⟨by simpa using hs, rfl⟩
  | cons i is ih =>
    rw [List.length_cons] at hlen
    obtain ⟨hnext, hout⟩ := hstep xs s i hs (by omega) (hok i (by simp))
    obtain ⟨hrun, htrace⟩ := ih _ hnext (by simp; omega) fun j hj => hok j (by simp [hj])
    rw [List.append_assoc] at hrun
    rw [List.length_append, List.length_singleton] at htrace
    exact ⟨hrun, by rw [trace_cons, htrace, hout, List.length_cons, List.range'_succ, List.map_cons]⟩

/-- **Invariant rule.** A property that every admissible step preserves is preserved by every run
of admissible inputs. -/
theorem run_invariant {P : σ → Prop} {Ok : ι → Prop}
    (hstep : ∀ s i, Ok i → P s → P (m.step s i).1) {s : σ} (hs : P s) :
    ∀ {is : List ι}, (∀ i ∈ is, Ok i) → P (m.run s is)
  | [], _ => hs
  | i :: _, hok =>
    run_invariant hstep (hstep s i (hok i (by simp)) hs) fun j hj => hok j (by simp [hj])

/-- **View rule.** If every admissible step keeps the invariant and patches what is seen at the keys of
`K`, a run leaves there what the latest patch stored, or what was seen at the start. -/
theorem view_run {κ ν : Type*} {view : σ → κ → ν} {patch : ι → Patch κ ν} {K : κ → Prop}
    {P : σ → Prop} {Ok : ι → Prop}
    (hstep : ∀ s i, Ok i → P s → P (m.step s i).1 ∧
      ∀ k, K k → view (m.step s i).1 k = (patch i).apply (view s) k)
    {s : σ} (hs : P s) {is : List ι} (hok : ∀ i ∈ is, Ok i) :
    P (m.run s is) ∧
      ∀ k, K k → view (m.run s is) k = (Patch.latest (is.map patch) k).getD (view s k) := by
  simp only [← Patch.replay_eq]
  induction is using List.reverseRecOn with
  | nil => exact ⟨hs, fun _ _ => rfl⟩
  | append_singleton is i ih =>
    obtain ⟨hrun, hview⟩ := ih fun j hj => hok j (by simp [hj])
    obtain ⟨hlast, hpatch⟩ := hstep _ i (hok i (by simp)) hrun
    rw [run_concat]
    refine ⟨hlast, fun k hk => ?_⟩
    rw [hpatch k hk, List.map_append, List.map_singleton, Patch.replay_concat, Patch.apply,
      Patch.apply, hview k hk]

end Runs

/-! ## A property of every step of a run -/

section Along

variable (m : Mealy ι σ ο)

/-- `Q` holds at every step of the run of `is` from `s`, each time of the state the run has
reached and the input it takes there. -/
def Along (Q : σ → ι → Prop) : σ → List ι → Prop
  | _, [] => True
  | s, i :: is => Q s i ∧ Along Q (m.step s i).1 is

@[simp] theorem along_nil (Q : σ → ι → Prop) (s : σ) : m.Along Q s [] := trivial

@[simp] theorem along_cons (Q : σ → ι → Prop) (s : σ) (i : ι) (is : List ι) :
    m.Along Q s (i :: is) ↔ Q s i ∧ m.Along Q (m.step s i).1 is := Iff.rfl

theorem along_append (Q : σ → ι → Prop) (s : σ) (is js : List ι) :
    m.Along Q s (is ++ js) ↔ m.Along Q s is ∧ m.Along Q (m.run s is) js := by
  induction is generalizing s with
  | nil => simp
  | cons i is ih => rw [List.cons_append, along_cons, along_cons, ih, run_cons, and_assoc]

instance (Q : σ → ι → Prop) [∀ s i, Decidable (Q s i)] :
    ∀ (s : σ) (is : List ι), Decidable (m.Along Q s is)
  | _, [] => .isTrue trivial
  | s, i :: is =>
    have := instDecidableAlong Q (m.step s i).1 is
    inferInstanceAs (Decidable (Q s i ∧ m.Along Q (m.step s i).1 is))

/-- "At every step" is "after every prefix, for the input that comes next". -/
theorem along_iff_prefixes (Q : σ → ι → Prop) (s : σ) (is : List ι) :
    m.Along Q s is ↔ ∀ pre i, pre ++ [i] <+: is → Q (m.run s pre) i := by
  induction is generalizing s with
  | nil => simp
  | cons j js ih =>
    rw [along_cons, ih]
    constructor
    · rintro ⟨hj, hjs⟩ pre i hpre
      cases pre with
      | nil =>
        obtain rfl : i = j := by simpa using hpre
        exact hj
      | cons p ps =>
        obtain ⟨rfl, hps⟩ : p = j ∧ ps ++ [i] <+: js := by simpa using hpre
        exact hjs ps i hps
    · intro h
      exact ⟨h [] j (by simp), fun pre i hpre => h (j :: pre) i (by simpa using hpre)⟩

/-- **History rule.** If the empty history is lawful, and one more input keeps a history lawful
exactly when the step it causes satisfies `Q`, then all prefixes of a run are lawful exactly when
all its steps satisfy `Q`. -/
theorem prefixes_iff_steps {H : List ι → Prop} {Q : σ → ι → Prop} {s : σ} (hnil : H [])
    (hstep : ∀ pre i, H pre → (H (pre ++ [i]) ↔ Q (m.run s pre) i)) (is : List ι) :
    (∀ pre, pre <+: is → H pre) ↔ ∀ pre i, pre ++ [i] <+: is → Q (m.run s pre) i := by
  constructor
  · intro h pre i hpre
    exact (hstep pre i (h pre ((List.prefix_append pre [i]).trans hpre))).mp (h _ hpre)
  · intro h pre hpre
    induction pre using List.reverseRecOn with
    | nil => exact hnil
    | append_singleton pre i ih =>
      have hlawful : H pre := ih ((List.prefix_append pre [i]).trans hpre)
      exact (hstep pre i hlawful).mpr (h pre i hpre)

/-- Two step properties that agree wherever the invariant `P` holds, agree along every run that
starts in `P`. -/
theorem along_congr {P : σ → Prop} {Ok : ι → Prop} {Q R : σ → ι → Prop}
    (hstep : ∀ s i, Ok i → P s → P (m.step s i).1)
    (hQR : ∀ s i, Ok i → P s → (Q s i ↔ R s i)) {s : σ} (hs : P s) :
    ∀ {is : List ι}, (∀ i ∈ is, Ok i) → (m.Along Q s is ↔ m.Along R s is)
  | [], _ => Iff.rfl
  | i :: _, hok => by
    have hi : Ok i := hok i (by simp)
    rw [along_cons, along_cons, hQR s i hi hs,
      along_congr hstep hQR (hstep s i hi hs) fun j hj => hok j (by simp [hj])]

/-- Two machines over the same states run alike, prefix by prefix, exactly when they step alike at
every state that the first one reaches. -/
theorem agree_iff_along (n : Mealy ι σ ο) (s : σ) (is : List ι) :
    (∀ pre, pre <+: is → m.run s pre = n.run s pre ∧ m.trace s pre = n.trace s pre) ↔
      m.Along (fun s i => m.step s i = n.step s i) s is := by
  induction is generalizing s with
  | nil => simp
  | cons i is ih =>
    rw [along_cons, ← ih]
    constructor
    · intro h
      have hstep : m.step s i = n.step s i := by
        obtain ⟨hrun, htrace⟩ := h [i] (by simp)
        exact Prod.ext (by simpa using hrun) (by simpa using htrace)
      refine ⟨hstep, fun pre hpre => ?_⟩
      simpa [← hstep] using h (i :: pre) (by simpa using hpre)
    · rintro ⟨hstep, his⟩ pre hpre
      cases pre with
      | nil => simp
      | cons p ps =>
        obtain ⟨rfl, hps⟩ : p = i ∧ ps <+: is := by simpa using hpre
        simpa [← hstep] using his ps hps

end Along

/-! ## Simulation -/

/-- `m` and `n` give the same outputs from related states and step to related states, on every
input that satisfies `Ok`. -/
structure Simulation (m : Mealy ι σ ο) (n : Mealy ι τ ο) (Ok : ι → Prop) where
  Rel : σ → τ → Prop
  step_rel : ∀ s t i, Ok i → Rel s t → Rel (m.step s i).1 (n.step t i).1
  step_out : ∀ s t i, Ok i → Rel s t → (m.step s i).2 = (n.step t i).2

namespace Simulation

variable {m : Mealy ι σ ο} {n : Mealy ι τ ο} {Ok : ι → Prop}

theorem run_rel (sim : Simulation m n Ok) {s : σ} {t : τ} (h : sim.Rel s t) :
    ∀ {is : List ι}, (∀ i ∈ is, Ok i) → sim.Rel (m.run s is) (n.run t is)
  | [], _ => h
  | i :: _, hok =>
    run_rel sim (sim.step_rel s t i (hok i (by simp)) h) fun j hj => hok j (by simp [hj])

/-- **Related states cannot be told apart**: they give the same outputs on every run. -/
theorem trace_eq (sim : Simulation m n Ok) {s : σ} {t : τ} (h : sim.Rel s t) :
    ∀ {is : List ι}, (∀ i ∈ is, Ok i) → m.trace s is = n.trace t is
  | [], _ => rfl
  | i :: _, hok => by
    have hi : Ok i := hok i (by simp)
    rw [trace_cons, trace_cons, sim.step_out s t i hi h,
      trace_eq sim (sim.step_rel s t i hi h) fun j hj => hok j (by simp [hj])]

end Simulation

/-! ## Stuttering simulation -/

/-- Each step of `m` is either a step of `n` on the input `seen s i`, with the same output, or no step of
`n`, with no output. -/
structure Stuttering {κ π : Type*} (m : Mealy ι σ (Option π)) (n : Mealy κ τ π) where
  Rel : σ → τ → Prop
  seen : σ → ι → Option κ
  step_rel : ∀ s t i, Rel s t → Rel (m.step s i).1 ((seen s i).elim t fun k => (n.step t k).1)
  step_out : ∀ s t i, Rel s t → (m.step s i).2 = (seen s i).map fun k => (n.step t k).2

namespace Stuttering

variable {κ π : Type*} {m : Mealy ι σ (Option π)} {n : Mealy κ τ π}

/-- The inputs that the second machine is given in a run of the first one. -/
def inputs (sim : Stuttering m n) (s : σ) : List ι → List κ
  | [] => []
  | i :: is => (sim.seen s i).toList ++ inputs sim (m.step s i).1 is

/-- What holds of every input that the second machine is given, holds at every step that is one of its
steps. -/
theorem forall_mem_inputs (sim : Stuttering m n) (Q : κ → Prop) (s : σ) (is : List ι) :
    (∀ k ∈ sim.inputs s is, Q k) ↔ m.Along (fun s i => ∀ k, sim.seen s i = some k → Q k) s is := by
  induction is generalizing s with
  | nil => simp [inputs]
  | cons i is ih =>
    rw [along_cons, ← ih, inputs, List.forall_mem_append]
    simp only [Option.mem_toList]

/-- **The second machine follows the first one** on the inputs that it is given: the states stay
related, and the outputs are the same. -/
theorem follows (sim : Stuttering m n) {s : σ} {t : τ} (h : sim.Rel s t) (is : List ι) :
    sim.Rel (m.run s is) (n.run t (sim.inputs s is)) ∧
      (m.trace s is).reduceOption = n.trace t (sim.inputs s is) := by
  induction is generalizing s t with
  | nil => exact ⟨h, rfl⟩
  | cons i is ih =>
    have hrel := sim.step_rel s t i h
    have hout := sim.step_out s t i h
    rw [run_cons, trace_cons, inputs, hout]
    cases hseen : sim.seen s i with
    | none =>
      rw [hseen] at hrel
      exact ih hrel
    | some k =>
      rw [hseen] at hrel
      obtain ⟨hrun, htrace⟩ := ih hrel
      exact ⟨hrun, congrArg (List.cons _) htrace⟩

end Stuttering

end Mealy
