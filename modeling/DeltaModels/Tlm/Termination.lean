import DeltaModels.Library.Multiples
import DeltaModels.Tlm.InTime

/-!
# Does a call return?

The beat loop of `b_transport` counts `wid` down by `len` and stops at exactly 0, in arithmetic modulo
2^32. So it stops if and only if the streaming width is a multiple of the length in that arithmetic:
if so, `Within` bounds the edges that are left; if not, no beat is the last one (`Endless`).
-/

namespace DeltaModels.Tlm

open Wishbone Multiples

variable {AWIDTH : Nat}

/-- The events of a call under the slave `w`, up to its `n`-th edge. -/
def callEdges (c : Call) (w : Nat → Slave) (n : Nat) : List PortEvent :=
  .call c :: edges ((List.range n).map w)

/-- The slave acknowledges every request of the call before the timeout. -/
def Acknowledges (p : Port AWIDTH) (c : Call) (w : Nat → Slave) : Prop :=
  ∀ n, InTime p (callEdges c w n)

/-- After some number of edges the call is over. -/
def CallEnds (p : Port AWIDTH) (c : Call) (w : Nat → Slave) : Prop :=
  ∃ n q log, (port AWIDTH).run p (callEdges c w n) = some (q, log) ∧ q.caller = none

/-- The number that the beat loop starts to count down from. -/
def countedWidth (trans : Payload) : BitVec 32 :=
  if trans.streamingWidth = 0 then trans.dataLength else trans.streamingWidth

variable {p q : Port AWIDTH} {c : Call} {w : Nat → Slave} {i : Slave} {answer : Option Payload}

/-! ## Calls that go on for ever -/

/-- A call is under way whose count will never be 0. -/
structure Port.Endless (p : Port AWIDTH) : Prop where
  tidy : p.Tidy
  caller : p.caller ≠ none
  wid : ¬ IsMultiple p.adapter.len p.adapter.wid

/-- No edge brings an endless call closer to its end. -/
theorem EdgeOf.endless (he : EdgeOf p i q answer) (h : p.Endless) : q.Endless := by
  have hq := he.tidy h.tidy
  cases he with
  | rest free => exact h
  | issue | stall => exact ⟨hq, h.caller, h.wid⟩
  | next _ _ _ _ more =>
    refine ⟨hq, by simp [Port.advance], ?_⟩
    rintro ⟨m, hm⟩
    have hsub : p.adapter.wid - p.adapter.len = BitVec.ofNat 32 (m + 1) * p.adapter.len := hm
    refine h.wid ⟨m + 1, ?_⟩
    rw [← beats_sub] at hsub
    exact sub_left_inj.mp hsub
  | last _ _ _ _ wid =>
    -- the last beat would make the width one times the length
    exact absurd ⟨0, wid.trans (BitVec.one_mul _).symm⟩ h.wid

theorem Port.Endless.run (h : p.Endless) {is : List Slave} {log : List (Sample AWIDTH)}
    (hrun : (port AWIDTH).run p (edges is) = some (q, log)) : q.Endless := by
  refine Guarded.run_invariant (m := port AWIDTH) (A := fun e => ∃ i, e = .edge i)
    (P := Port.Endless) ?_ h ?_ hrun
  · rintro p _ q entry ⟨i, rfl⟩ hp hstep
    obtain ⟨answer, hedge, -⟩ := event_edge hstep
    exact (hp.tidy.edge hedge).endless hp
  · intro e he
    obtain ⟨i, -, rfl⟩ := List.mem_map.mp he
    exact ⟨i, rfl⟩

/-! ## Calls that return -/

/-- Under such a slave the call goes on, for as many edges as one likes. -/
theorem Acknowledges.run (hw : Acknowledges p c w) (h : p.AtRest) (n : Nat) :
    ∃ q log, (port AWIDTH).run p (callEdges c w n) = some (q, log) :=
  run_of_inTime h (apart_call h.caller c _) (hw n)

/-- A slave under which the call goes on for ever acknowledges every request. -/
theorem acknowledges_of_run (h : p.AtRest)
    (hrun : ∀ n, ((port AWIDTH).run p (callEdges c w n)).isSome) : Acknowledges p c w :=
  fun n => (isSome_run_iff_inTime h (apart_call h.caller c _)).mp (hrun n)

/-- What comes after the start of a call. -/
theorem run_callEdges (hcmd : c.trans.command ≠ .ignore) {n : Nat}
    {log : List (Sample AWIDTH)} (hrun : (port AWIDTH).run p (callEdges c w n) = some (q, log)) :
    (port AWIDTH).run (p.begun c) (edges ((List.range n).map w)) = some (q, log) := by
  obtain ⟨p', o, os, hcall, hedges, rfl⟩ := Guarded.run_cons.mp hrun
  obtain ⟨-, rfl, ⟨rfl, -⟩ | ⟨-, hignore⟩⟩ := event_call hcall
  · exact hedges
  · exact absurd hignore hcmd

/-- A refused command ends the call at once. -/
theorem callEnds_of_ignore (h : p.AtRest) (hw : Acknowledges p c w)
    (hcmd : c.trans.command = .ignore) : CallEnds p c w := by
  obtain ⟨q, log, hrun⟩ := hw.run h 0
  obtain ⟨p', o, os, hcall, hedges, -⟩ := Guarded.run_cons.mp hrun
  obtain ⟨rfl, -⟩ := Guarded.run_nil.mp hedges
  refine ⟨0, p', log, hrun, ?_⟩
  obtain ⟨hfree, -, ⟨-, hknown⟩ | ⟨rfl, -⟩⟩ := event_call hcall
  · exact absurd hcmd hknown
  · exact hfree

/-- With a timeout of 0 or 1 no acknowledge comes in time: the first edge that waits ends in a report. -/
theorem not_acknowledges (h : p.AtRest) (ht : ¬ 1 < p.adapter.timeout)
    (hcmd : c.trans.command ≠ .ignore) : ¬ Acknowledges p c w := by
  intro hw
  obtain ⟨q, log, hrun⟩ := hw.run h 2
  obtain ⟨p', _, _, hissue, hrest, -⟩ := Guarded.run_cons.mp (run_callEdges hcmd hrun)
  obtain ⟨_, _, _, hwait, -, -⟩ := Guarded.run_cons.mp hrest
  obtain ⟨_, hedge, -⟩ := event_edge hissue
  obtain ⟨_, hedge', -⟩ := event_edge hwait
  have hexec : (p.begun c).adapter.state = execState c.trans := rfl
  rw [Port.edge_exec hexec] at hedge
  cases hedge
  exact ht (Port.edge_waiting rfl hedge')

/-- The call ends exactly when its width is a multiple of its length. -/
theorem callEnds_iff_isMultiple (h : p.AtRest) (hw : Acknowledges p c w)
    (hcmd : c.trans.command ≠ .ignore) :
    CallEnds p c w ↔ IsMultiple c.trans.dataLength (countedWidth c.trans) := by
  constructor
  · rintro ⟨n, q, log, hrun, hfree⟩
    by_contra hnot
    have hendless : (p.begun c).Endless := ⟨h.tidy_begun c, by simp [Port.begun], hnot⟩
    exact (hendless.run (run_callEdges hcmd hrun)).caller hfree
  · rintro ⟨m, hm⟩
    have hwithin : (p.begun c).Within ((m + 1) * p.patience) := .issuing rfl rfl hm
    obtain ⟨q, log, hrun⟩ := hw.run h ((m + 1) * p.patience)
    exact ⟨_, q, log, hrun,
      hwithin.run (h.tidy_begun c) (by simp) (run_callEdges hcmd hrun)⟩

/-- **A call returns exactly when its width is a multiple of its length modulo 2^32**: for any
payload, and under any slave that acknowledges every request before the timeout, `b_transport` ends if
and only if the command is refused or `gcd len 2^32` divides the width that is counted down. -/
theorem transport_ends_iff (p : Port AWIDTH) (h : p.AtRest) (c : Call) (w : Nat → Slave)
    (hw : Acknowledges p c w) :
    CallEnds p c w ↔ c.trans.command = .ignore ∨
      Nat.gcd c.trans.dataLength.toNat (2 ^ 32) ∣ (countedWidth c.trans).toNat := by
  rw [← isMultiple_iff]
  by_cases hcmd : c.trans.command = .ignore
  · exact iff_of_true (callEnds_of_ignore h hw hcmd) (.inl hcmd)
  · rw [callEnds_iff_isMultiple h hw hcmd]
    simp [hcmd]

/-! ## A slave that always acknowledges -/

/-- Every acknowledge comes at once. -/
structure Port.Prompt (p : Port AWIDTH) : Prop where
  tidy : p.Tidy
  timeout : 1 < p.adapter.timeout
  elapsed : p.adapter.state = .waitingForAck → p.adapter.elapsed = 0

/-- An edge with an acknowledge is not refused. -/
theorem Port.Prompt.edge (h : p.Prompt) (hi : i.ackI = true) :
    ∃ q answer, p.edge i = .ok (q, answer) ∧ q.Prompt := by
  have hok : ∃ q answer, p.edge i = .ok (q, answer) := by
    cases hcaller : p.caller with
    | none => exact ⟨p, none, by rw [Port.edge, wishboneHandler_idle (h.tidy.idle hcaller)]⟩
    | some trans =>
      rcases h.tidy.busy trans hcaller with hexec | ⟨hwait, -⟩
      · exact ⟨_, _, Port.edge_exec hexec i⟩
      · have ht : p.adapter.elapsed + 1 < p.adapter.timeout := by
          rw [h.elapsed hwait]
          exact h.timeout
        exact ⟨_, _, Port.edge_ack hwait hi ht hcaller⟩
  obtain ⟨q, answer, hedge⟩ := hok
  have hof := h.tidy.edge hedge
  refine ⟨q, answer, hedge, hof.tidy h.tidy, ?_, ?_⟩
  · cases hof <;> exact h.timeout
  · intro hwait
    cases hof with
    | rest => exact h.elapsed hwait
    | issue => rfl
    | stall _ _ quiet => simp [hi] at quiet
    | next => exact absurd hwait (execState_ne _).2
    | last => cases hwait

theorem Port.Prompt.run (h : p.Prompt) {is : List Slave} (his : ∀ i ∈ is, i.ackI = true) :
    ((port AWIDTH).run p (edges is)).isSome := by
  induction is generalizing p with
  | nil => rfl
  | cons i is ih =>
    obtain ⟨q, answer, hedge, hq⟩ := h.edge (his i (by simp))
    obtain ⟨⟨t, log⟩, hrest⟩ := Option.isSome_iff_exists.mp (ih hq fun j hj => his j (by simp [hj]))
    have hstep : p.event (.edge i) = some (q, some ⟨p.adapter.out, i, p.caller,
        issued p.adapter.out q.adapter.out, answer⟩) := by
      simp only [Port.event, hedge]
    exact Option.isSome_iff_exists.mpr ⟨_, Guarded.run_cons.mpr ⟨q, _, log, hstep, hrest, rfl⟩⟩

/-- A slave that always acknowledges does so in time, whatever is called. -/
theorem acknowledges_always (h : p.AtRest) (ht : 1 < p.adapter.timeout) (c : Call)
    (hcmd : c.trans.command ≠ .ignore) (d : BitVec 32) : Acknowledges p c fun _ => ⟨true, d⟩ := by
  refine acknowledges_of_run h fun n => ?_
  have hprompt : (p.begun c).Prompt :=
    ⟨h.tidy_begun c, ht, fun hwait => absurd hwait (execState_ne _).2⟩
  have hacks : ∀ i ∈ (List.range n).map fun _ => (⟨true, d⟩ : Slave), i.ackI = true := by simp
  obtain ⟨⟨t, log⟩, hrun⟩ := Option.isSome_iff_exists.mp (hprompt.run hacks)
  have hstep : p.event (.call c) = some (p.begun c, none) := by
    simp only [Port.event, h.caller, Option.isSome_none, Bool.false_eq_true, if_false]
    rw [Port.call_ok _ hcmd]
    rfl
  exact Option.isSome_iff_exists.mpr ⟨_, Guarded.run_cons.mpr ⟨_, _, log, hstep, hrun, rfl⟩⟩

/-- A read of `len` bytes with streaming width `wid`. -/
def readOf (len wid : BitVec 32) : Call :=
  ⟨⟨.read, 0, 0, len, none, wid, false, .incomplete⟩, 0, 0⟩

/-- Three bytes a beat: after 2^32 / 3 beats or so the count wraps around, and in the end it is 0. -/
theorem transport_ends_wrapping :
    CallEnds (Port.init 0 : Port 32) (readOf 3 4) fun _ => ⟨true, 0⟩ :=
  (transport_ends_iff _ (Port.atRest_init _) _ _
    (acknowledges_always (Port.atRest_init _) (by decide) _ (by decide) _)).mpr (.inr (by decide))

/-- Eight bytes a beat and a width of 4: the count is never 0. -/
theorem transport_never_ends :
    ¬ ∀ (p : Port 32) (c : Call) (w : Nat → Slave), p.AtRest → Acknowledges p c w → CallEnds p c w := by
  intro h
  have hw : Acknowledges (Port.init 0 : Port 32) (readOf 8 4) fun _ => ⟨true, 0⟩ :=
    acknowledges_always (Port.atRest_init _) (by decide) _ (by decide) _
  have hends := h _ _ _ (Port.atRest_init _) hw
  rw [callEnds_iff_isMultiple (Port.atRest_init _) hw (by decide), isMultiple_iff] at hends
  exact absurd hends (by decide)

end DeltaModels.Tlm
