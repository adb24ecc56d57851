import DeltaModels.Library.Bursts
import Mathlib.Data.List.Induction

/-!
# A framer that is blind for one sample

`Framer` cuts a sampled stream into packets: it collects the values of a burst, and when the burst
has ended it takes one more sample to hand the packet over, at which it does not look.

A burst that starts in that sample loses its first value. `handed_concat_iff` is the whole story: the
packets handed over are the bursts that have ended exactly when the stream up to there is `Spaced`.
While the framer follows the stream it is in one of three situations: `Exact`, `Late` (it has missed
the start of the burst that is going on) or `Lost` (it has missed values of a burst that is over, and
will never make up for them).

How much it has to hold is told by the stream as well (`held_le_iff`): the longest burst, where the
first sample does not count if the framer is blind there.
-/

/-- What a framer is doing: nothing, collecting a burst, or about to hand over a packet. -/
inductive Framer (α : Type*) where
  | idle
  | collecting (held : List α)
  | ready (packet : List α)

namespace Framer

open Bursts

variable {α : Type*}

/-- One sample; in `ready` it is not looked at. -/
def step : Framer α → Bool × α → Framer α
  | idle, s => if s.1 then collecting [s.2] else idle
  | collecting held, s => if s.1 then collecting (held ++ [s.2]) else ready held
  | ready _, _ => idle

/-- The values collected so far. -/
def held : Framer α → List α
  | collecting held => held
  | _ => []

/-- The packet that the next sample hands over. -/
def outbox : Framer α → List (List α)
  | ready packet => [packet]
  | _ => []

/-- The framer and the packets it has handed over, after one more sample. -/
def feed (st : Framer α × List (List α)) (s : Bool × α) : Framer α × List (List α) :=
  (st.1.step s, st.2 ++ st.1.outbox)

/-- The framer after the samples. -/
def reached (ss : List (Bool × α)) : Framer α := (ss.foldl feed (idle, [])).1

/-- The packets handed over during the samples. -/
def handed (ss : List (Bool × α)) : List (List α) := (ss.foldl feed (idle, [])).2

/-- The packets handed over, and the one that waits for the next sample. -/
def owed (ss : List (Bool × α)) : List (List α) := handed ss ++ (reached ss).outbox

@[simp] theorem reached_nil : reached ([] : List (Bool × α)) = idle := rfl

@[simp] theorem handed_nil : handed ([] : List (Bool × α)) = [] := rfl

@[simp] theorem reached_concat (ss : List (Bool × α)) (s : Bool × α) :
    reached (ss ++ [s]) = (reached ss).step s := by
  simp [reached, feed]

/-- Whatever it is, the next sample hands over what is owed. -/
theorem handed_concat (ss : List (Bool × α)) (s : Bool × α) : handed (ss ++ [s]) = owed ss := by
  simp [handed, owed, reached, feed]

theorem owed_concat (ss : List (Bool × α)) (s : Bool × α) :
    owed (ss ++ [s]) = owed ss ++ ((reached ss).step s).outbox := by
  rw [owed, handed_concat, reached_concat]

@[simp] theorem outbox_step_true (f : Framer α) (a : α) : (f.step (true, a)).outbox = [] := by
  cases f <;> rfl

@[simp] theorem held_step_false (f : Framer α) (b : α) : (f.step (false, b)).held = [] := by
  cases f <;> rfl

/-- An invalid sample makes a packet of what was collected. -/
@[simp] theorem flatten_outbox_step_false (f : Framer α) (b : α) :
    (f.step (false, b)).outbox.flatten = f.held := by
  cases f <;> simp [step, outbox, held]

theorem length_held_step_true (f : Framer α) (a : α) :
    (f.step (true, a)).held.length ≤ f.held.length + 1 := by
  cases f <;> simp [step, held]

/-- There was room for what a valid sample has brought in. -/
theorem length_held_lt {n : Nat} {f : Framer α} {s : Bool × α} (hn : 0 < n) (hs : s.1 = true)
    (h : (f.step s).held.length ≤ n) : f.held.length < n := by
  cases f with
  | idle | ready packet => exact hn
  | collecting vs =>
    have hlen : vs.length + 1 ≤ n := by simpa [step, held, hs] using h
    exact hlen

/-- With room for a valid sample there is room for any. -/
theorem length_held_step_le {n : Nat} {f : Framer α} {s : Bool × α}
    (h : s.1 = true → f.held.length < n) : (f.step s).held.length ≤ n := by
  obtain ⟨v, a⟩ := s
  cases v with
  | true => exact (length_held_step_true f a).trans (h rfl)
  | false => simp

/-! ## Following the stream -/

/-- The framer has everything: the bursts that have ended, and the values of the one that has not. -/
structure Exact (ss : List (Bool × α)) : Prop where
  spaced : Spaced ss
  owed : owed ss = closed ss
  held : (reached ss).held = pending ss
  ready_iff : (∃ packet, reached ss = ready packet) ↔ JustEnded ss
  collecting : ∀ vs, reached ss = .collecting vs → vs ≠ []

/-- The framer has missed the start of the burst that is going on. -/
structure Late (ss : List (Bool × α)) : Prop where
  settled : Spaced (settled ss)
  not_spaced : ¬ Spaced ss
  owed : owed ss = closed ss
  held : (reached ss).held.length < (pending ss).length

/-- The framer has missed values of a burst that has ended. -/
structure Lost (ss : List (Bool × α)) : Prop where
  settled : ¬ Spaced (settled ss)
  owed : (owed ss).flatten.length < (closed ss).flatten.length
  held : (reached ss).held.length ≤ (pending ss).length

theorem exact_nil : Exact ([] : List (Bool × α)) where
  spaced := spaced_nil
  owed := rfl
  held := rfl
  ready_iff := by simp [JustEnded]
  collecting := by simp

/-- A value is collected, unless it comes right after the sample that ended a burst. -/
theorem Exact.concat_true {ss : List (Bool × α)} (h : Exact ss) (a : α) :
    Exact (ss ++ [(true, a)]) ∨ Late (ss ++ [(true, a)]) := by
  have howed : Framer.owed (ss ++ [(true, a)]) = closed (ss ++ [(true, a)]) := by
    rw [owed_concat, outbox_step_true, List.append_nil, closed_concat_true, h.owed]
  by_cases hready : ∃ packet, reached ss = ready packet
  · right
    have hend : JustEnded ss := h.ready_iff.mp hready
    obtain ⟨packet, hpacket⟩ := hready
    exact {
      settled := by rw [settled_concat_true]; exact h.spaced.settled
      not_spaced := fun hspaced => ((spaced_concat_true ss a).mp hspaced).2 hend
      owed := howed
      held := by simp [hpacket, step, Framer.held] }
  · left
    have hend : ¬ JustEnded ss := fun hend => hready (h.ready_iff.mpr hend)
    have hheld := h.held
    exact {
      spaced := (spaced_concat_true ss a).mpr ⟨h.spaced, hend⟩
      owed := howed
      held := by
        rw [reached_concat, pending_concat_true, ← hheld]
        cases hf : reached ss with
        | idle => rfl
        | collecting vs => rfl
        | ready packet => exact absurd ⟨packet, hf⟩ hready
      ready_iff := by
        refine iff_of_false ?_ (not_justEnded_concat_true ss a)
        rintro ⟨packet, hpacket⟩
        rw [reached_concat] at hpacket
        cases hf : reached ss <;> simp [hf, step] at hpacket
      collecting := by
        intro vs hvs
        rw [reached_concat] at hvs
        cases hf : reached ss with
        | idle => simp [hf, step] at hvs; simp [← hvs]
        | collecting ws => simp [hf, step] at hvs; simp [← hvs]
        | ready packet => exact absurd ⟨packet, hf⟩ hready }

/-- Without a value, a burst that was going on has ended and its packet is ready. -/
theorem Exact.concat_false {ss : List (Bool × α)} (h : Exact ss) (b : α) :
    Exact (ss ++ [(false, b)]) := by
  have hheld := h.held
  have hstep : ((reached ss).step (false, b)).outbox = close (pending ss)
      ∧ ((reached ss).step (false, b)).held = []
      ∧ ((∃ packet, (reached ss).step (false, b) = ready packet) ↔ pending ss ≠ [])
      ∧ ∀ vs, (reached ss).step (false, b) ≠ .collecting vs := by
    cases hf : reached ss with
    | idle | ready packet =>
      have hpending : pending ss = [] := by rw [← hheld, hf]; rfl
      simp [step, outbox, Framer.held, hpending, close]
    | collecting vs =>
      have hpending : pending ss = vs := by rw [← hheld, hf]; rfl
      have hvs : vs ≠ [] := h.collecting vs hf
      simp [step, outbox, Framer.held, hpending, close, hvs]
  obtain ⟨hout, hempty, hready, hcollecting⟩ := hstep
  exact {
    spaced := (spaced_concat_false ss b).mpr h.spaced
    owed := by rw [owed_concat, closed_concat_false, hout, h.owed]
    held := by rw [reached_concat, pending_concat_false, hempty]
    ready_iff := by rw [reached_concat, justEnded_concat_false, hready]
    collecting := fun vs hvs => absurd (reached_concat ss _ ▸ hvs) (hcollecting vs) }

/-- The start of the burst stays missed while the burst goes on. -/
theorem Late.concat_true {ss : List (Bool × α)} (h : Late ss) (a : α) :
    Late (ss ++ [(true, a)]) where
  settled := by rw [settled_concat_true]; exact h.settled
  not_spaced := fun hspaced => h.not_spaced ((spaced_concat_true ss a).mp hspaced).1
  owed := by rw [owed_concat, outbox_step_true, List.append_nil, closed_concat_true, h.owed]
  held := by
    have hheld := h.held
    have hstep := length_held_step_true (reached ss) a
    rw [reached_concat, pending_concat_true, List.length_append, List.length_singleton]
    omega

/-- When the burst ends, what was missed is lost. -/
theorem Late.concat_false {ss : List (Bool × α)} (h : Late ss) (b : α) :
    Lost (ss ++ [(false, b)]) where
  settled := by
    rw [settled_concat_false, spaced_concat_false]
    exact h.not_spaced
  owed := by
    have hheld := h.held
    rw [owed_concat, closed_concat_false, h.owed, List.flatten_append, List.flatten_append,
      flatten_close, flatten_outbox_step_false, List.length_append, List.length_append]
    omega
  held := by simp

/-- The framer never makes up for a loss. -/
theorem Lost.concat {ss : List (Bool × α)} (h : Lost ss) (s : Bool × α) : Lost (ss ++ [s]) := by
  obtain ⟨v, a⟩ := s
  have hlost := h.owed
  have hheld := h.held
  cases v with
  | true => exact {
      settled := by rw [settled_concat_true]; exact h.settled
      owed := by
        rw [owed_concat, outbox_step_true, List.append_nil, closed_concat_true]
        exact hlost
      held := by
        have hstep := length_held_step_true (reached ss) a
        rw [reached_concat, pending_concat_true, List.length_append, List.length_singleton]
        omega }
  | false => exact {
      settled := by
        rw [settled_concat_false, spaced_concat_false]
        exact fun hspaced => h.settled hspaced.settled
      owed := by
        rw [owed_concat, closed_concat_false, List.flatten_append, List.flatten_append,
          flatten_close, flatten_outbox_step_false, List.length_append, List.length_append]
        omega
      held := by simp }

/-- There is no fourth situation. -/
theorem exact_or_late_or_lost (ss : List (Bool × α)) : Exact ss ∨ Late ss ∨ Lost ss := by
  induction ss using List.reverseRecOn with
  | nil => exact .inl exact_nil
  | append_singleton ss s ih =>
    obtain ⟨v, a⟩ := s
    rcases ih with hexact | hlate | hlost
    · cases v with
      | true => exact (hexact.concat_true a).imp_right .inl
      | false => exact .inl (hexact.concat_false a)
    · cases v with
      | true => exact .inr (.inl (hlate.concat_true a))
      | false => exact .inr (.inr (hlate.concat_false a))
    · exact .inr (.inr (hlost.concat _))

/-- **What is handed over.** One sample later, the packets are the bursts that have ended exactly
when these had two invalid samples at least between them. -/
theorem handed_concat_iff (ss : List (Bool × α)) (s : Bool × α) :
    handed (ss ++ [s]) = closed ss ↔ Spaced (settled ss) := by
  rw [handed_concat]
  rcases exact_or_late_or_lost ss with h | h | h
  · exact iff_of_true h.owed h.spaced.settled
  · exact iff_of_true h.owed h.settled
  · refine iff_of_false (fun howed => ?_) h.settled
    have hlost := h.owed
    rw [howed] at hlost
    exact lt_irrefl _ hlost

/-- A framer holds no more than there is to hold. -/
theorem length_held_le (ss : List (Bool × α)) :
    (reached ss).held.length ≤ (pending ss).length := by
  rcases exact_or_late_or_lost ss with h | h | h
  · rw [h.held]
  · exact h.held.le
  · exact h.held

/-! ## How much is held -/

/-- The sample after these, the latest of which stands first, is not looked at: a burst has just ended,
and its last sample was. -/
def blind : List (Bool × α) → Bool
  | (false, _) :: (true, _) :: older => !blind older
  | _ => false

/-- The framer that does not look has a packet ready. -/
theorem ready_iff_blind : ∀ rs : List (Bool × α),
    (∃ packet, reached rs.reverse = ready packet) ↔ blind rs = true
  | [] => by simp [blind]
  | [s] => by cases h : s.1 <;> simp [blind, reached, feed, step, h]
  | (true, a) :: s :: older => by
    rw [List.reverse_cons, reached_concat]
    cases reached (s :: older).reverse <;> simp [step, blind]
  | (false, b) :: (false, b') :: older => by
    rw [List.reverse_cons, List.reverse_cons, reached_concat, reached_concat]
    cases reached older.reverse <;> simp [step, blind]
  | (false, b) :: (true, a) :: older => by
    have ih := ready_iff_blind older
    rw [List.reverse_cons, List.reverse_cons, reached_concat, reached_concat, blind]
    cases h : reached older.reverse with
    | idle | collecting held => simpa [step, h] using ih
    | ready packet => simpa [step, h] using ih

variable {ss pre burst : List (Bool × α)}

/-- A burst whose first sample is looked at is collected whole, behind what was held. -/
theorem length_le_held (hpre : ∀ packet, reached pre ≠ ready packet) (hburst : ∀ s ∈ burst, s.1 = true) :
    (∀ packet, reached (pre ++ burst) ≠ ready packet) ∧
      burst.length ≤ (reached (pre ++ burst)).held.length := by
  induction burst using List.reverseRecOn with
  | nil => simpa using hpre
  | append_singleton burst s ih =>
    obtain ⟨hnot, hlen⟩ := ih fun s' hs' => hburst s' (List.mem_append_left [s] hs')
    have hs : s.1 = true := hburst s (by simp)
    rw [← List.append_assoc, reached_concat, List.length_append, List.length_singleton]
    cases h : reached (pre ++ burst) with
    | idle =>
      simp only [h, held, List.length_nil] at hlen
      simp only [step, hs, if_true, held, List.length_singleton]
      exact ⟨by simp, by omega⟩
    | collecting vs =>
      rw [h, held] at hlen
      simp only [step, hs, if_true, held, List.length_append, List.length_singleton]
      exact ⟨by simp, by omega⟩
    | ready packet => exact absurd h (hnot packet)

/-- What is held is a burst that is going on, from a sample on that was looked at. -/
theorem exists_burst {vs : List α} (h : reached ss = collecting vs) :
    ∃ pre burst, pre ++ burst = ss ∧ (∀ packet, reached pre ≠ ready packet) ∧
      (∀ s ∈ burst, s.1 = true) ∧ burst.length = vs.length := by
  induction ss using List.reverseRecOn generalizing vs with
  | nil => simp at h
  | append_singleton ss s ih =>
    rw [reached_concat] at h
    cases hf : reached ss with
    | idle =>
      cases hs : s.1 with
      | true =>
        simp only [hf, step, hs, if_true, collecting.injEq] at h
        exact ⟨ss, [s], rfl, by simp [hf], by simp [hs], by simp [← h]⟩
      | false => simp [hf, step, hs] at h
    | collecting ws =>
      cases hs : s.1 with
      | true =>
        simp only [hf, step, hs, if_true, collecting.injEq] at h
        obtain ⟨pre, burst, rfl, hpre, hburst, hlen⟩ := ih hf
        refine ⟨pre, burst ++ [s], by simp, hpre, ?_, by simp [← h, hlen]⟩
        intro s' hs'
        rcases List.mem_append.mp hs' with hmem | hmem
        · exact hburst s' hmem
        · rw [List.mem_singleton.mp hmem, hs]
      | false => simp [hf, step, hs] at h
    | ready packet => simp [hf, step] at h

/-- **The longest packet.** At no time are more than `n` values held exactly when every burst of more
than `n` samples, wherever it is cut off in front, starts with a sample that is not looked at. -/
theorem held_le_iff {n : Nat} : (∀ pre, pre <+: ss → (reached pre).held.length ≤ n) ↔
    ∀ pre burst, pre ++ burst <+: ss → (∀ s ∈ burst, s.1 = true) → n < burst.length →
      blind pre.reverse = true := by
  constructor
  · intro h pre burst hprefix hburst hlong
    rw [← ready_iff_blind, List.reverse_reverse]
    by_contra hnot
    obtain ⟨-, hlen⟩ := length_le_held (fun packet hready => hnot ⟨packet, hready⟩) hburst
    have hheld := h _ hprefix
    omega
  · intro h pre hprefix
    cases hf : reached pre with
    | idle | ready packet => simp [held]
    | collecting vs =>
      obtain ⟨pre', burst, rfl, hnot, hburst, hlen⟩ := exists_burst hf
      by_contra hlong
      rw [held] at hlong
      have hblind := h pre' burst hprefix hburst (by omega)
      rw [← ready_iff_blind, List.reverse_reverse] at hblind
      obtain ⟨packet, hready⟩ := hblind
      exact hnot packet hready

end Framer
