import DeltaModels.Tlm.Waveform

/-!
# Slaves that answer in time

What callers and slaves are asked for is read off the waveform: a call starts when no other one is under
way (`Apart`), and after the edge that raises a request one of the next `timeout - 1` edges has an
acknowledge (`InTime`). Nothing is asked of the requests whose time is not over yet.

`isSome_run_iff_inTime` says that this is exactly what keeps a run going: no edge ends in a report, and
the call under way goes on.
-/

namespace DeltaModels.Tlm

open Wishbone

variable {AWIDTH : Nat}

/-- The acknowledge signal at the edges of a list of events. -/
def acks (es : List PortEvent) : List Bool :=
  es.filterMap fun
    | .edge i => some i.ackI
    | .call _ => none

/-- A call starts when no other one is under way. -/
def Port.Free (p : Port AWIDTH) : PortEvent → Prop
  | .call _ => p.caller = none
  | .edge _ => True

/-- A request that the edge raises is acknowledged in the time that is left to it. -/
def Port.Promises (p : Port AWIDTH) (e : PortEvent) (es : List PortEvent) : Prop :=
  match p.event e with
  | some (_, some x) => x.raised ≠ [] → AnsweredWithin (p.adapter.timeout.toNat - 1) (acks es)
  | _ => True

/-- No two calls overlap. -/
def Apart (p : Port AWIDTH) (es : List PortEvent) : Prop :=
  (port AWIDTH).Along (fun p e _ => p.Free e) p es

/-- The slave acknowledges every request before the edge that would report it. -/
def InTime (p : Port AWIDTH) (es : List PortEvent) : Prop := (port AWIDTH).Along Port.Promises p es

instance Port.Free.decide (p : Port AWIDTH) (e : PortEvent) : Decidable (p.Free e) :=
  match e with
  | .call _ => inferInstanceAs (Decidable (p.caller = none))
  | .edge _ => isTrue trivial

instance Port.Promises.decide (p : Port AWIDTH) (e : PortEvent) (es : List PortEvent) :
    Decidable (p.Promises e es) :=
  match h : p.event e with
  | none => isTrue (by simp [Port.Promises, h])
  | some (_, none) => isTrue (by simp [Port.Promises, h])
  | some (_, some x) =>
    decidable_of_iff (x.raised ≠ [] → AnsweredWithin (p.adapter.timeout.toNat - 1) (acks es))
      (by simp [Port.Promises, h])

instance Apart.decide (p : Port AWIDTH) (es : List PortEvent) : Decidable (Apart p es) :=
  inferInstanceAs (Decidable ((port AWIDTH).Along _ p es))

instance InTime.decide (p : Port AWIDTH) (es : List PortEvent) : Decidable (InTime p es) :=
  inferInstanceAs (Decidable ((port AWIDTH).Along _ p es))

/-! ## One event -/

variable {p q : Port AWIDTH} {i : Slave} {c : Call} {answer : Option Payload} {es : List PortEvent}

theorem event_edge_ok (h : p.edge i = .ok (q, answer)) : p.event (.edge i)
    = some (q, some ⟨p.adapter.out, i, p.caller, issued p.adapter.out q.adapter.out, answer⟩) := by
  simp only [Port.event, h]

/-- What an event leads to. -/
theorem exists_event_iff {e : PortEvent} {entry : Option (Sample AWIDTH)}
    (h : p.event e = some (q, entry)) (R : Port AWIDTH → Prop) :
    (∃ q' entry', p.event e = some (q', entry') ∧ R q') ↔ R q := by
  rw [h]
  constructor
  · rintro ⟨_, _, heq, hR⟩
    cases heq
    exact hR
  · exact fun hR => ⟨q, entry, rfl, hR⟩

/-- A call can always start when nobody else calls. -/
theorem event_call_ok (h : p.caller = none) (c : Call) : ∃ q, p.event (.call c) = some (q, none) := by
  simp only [Port.event, h, Option.isSome_none, Bool.false_eq_true, if_false]
  split
  · exact ⟨_, rfl⟩
  · exact ⟨_, rfl⟩

theorem promises_edge (h : p.edge i = .ok (q, answer)) : p.Promises (.edge i) es ↔
    (issued p.adapter.out q.adapter.out ≠ [] →
      AnsweredWithin (p.adapter.timeout.toNat - 1) (acks es)) := by
  rw [Port.Promises, event_edge_ok h]

/-- Nothing is promised at an edge that raises no request. -/
theorem promises_of_issued (h : p.edge i = .ok (q, answer))
    (hnone : issued p.adapter.out q.adapter.out = []) : p.Promises (.edge i) es :=
  (promises_edge h).mpr fun hsome => absurd hnone hsome

/-- After an acknowledge no request waits. -/
theorem EdgeOf.state_of_ack (he : EdgeOf p i q answer) (hstate : p.adapter.state = .waitingForAck)
    (hack : i.ackI = true) : q.adapter.state ≠ .waitingForAck := by
  cases he with
  | rest _ state => rw [state]; decide
  | issue _ state => exact absurd (state.symm.trans hstate) (execState_ne _).2
  | stall _ _ quiet => simp [hack] at quiet
  | next => exact (execState_ne _).2
  | last => exact WbState.noConfusion

/-- The edge that issues a request promises the time that the request has. -/
theorem Port.Tidy.progress_issue (h : p.Tidy) {trans : Payload}
    (hstate : p.adapter.state = execState trans) :
    p.Promises (.edge i) es ↔ (p.adapter.issue p.host trans.command).Answered (acks es) := by
  have hstb : p.adapter.out.stbO = false := by
    rw [h.stb, hstate]
    exact decide_eq_false (execState_ne _).2
  have hraised : issued p.adapter.out (p.adapter.issue p.host trans.command).out ≠ [] := by
    simp [issued, hstb, Tlm2wb.issue]
  have hwait : (p.adapter.issue p.host trans.command).state = .waitingForAck := rfl
  rw [promises_edge (Port.edge_exec hstate i)]
  exact ⟨fun hpromise _ => hpromise hraised, fun hanswered _ => hanswered hwait⟩

/-- An edge that waits for the acknowledge happens when the time is not over. -/
theorem Port.Tidy.progress_waiting (h : p.Tidy) (hstate : p.adapter.state = .waitingForAck)
    {trans : Payload} (hcaller : p.caller = some trans) :
    p.adapter.Answered (acks (.edge i :: es)) ∧ p.Promises (.edge i) es ↔
      ∃ q o, p.event (.edge i) = some (q, o) ∧ q.adapter.Answered (acks es) := by
  have hstb : p.adapter.out.stbO = true := by rw [h.stb, hstate]; rfl
  have hacks : acks (.edge i :: es) = i.ackI :: acks es := rfl
  rw [hacks, Tlm2wb.answered_cons hstate (h.count hstate)]
  by_cases ht : p.adapter.elapsed + 1 < p.adapter.timeout
  · obtain ⟨q, answer, hedge, hnext⟩ : ∃ q answer, p.edge i = .ok (q, answer) ∧
        (q.adapter.Answered (acks es) ↔ (i.ackI = false →
          Tlm2wb.Answered { p.adapter with elapsed := p.adapter.elapsed + 1 } (acks es))) := by
      cases hi : i.ackI with
      | false => exact ⟨_, _, Port.edge_stall hstate hi ht, by simp⟩
      | true =>
        have hedge := Port.edge_ack hstate hi ht hcaller
        have hidle := (h.edge hedge).state_of_ack hstate hi
        exact ⟨_, _, hedge, iff_of_true (answered_of_state hidle _) (by simp)⟩
    have hpromise : p.Promises (.edge i) es := promises_of_issued hedge (issued_of_stb hstb)
    rw [exists_event_iff (event_edge_ok hedge) fun q => q.adapter.Answered (acks es), hnext]
    exact ⟨fun hleft => hleft.1.2, fun hright => ⟨⟨ht, hright⟩, hpromise⟩⟩
  · refine iff_of_false (fun hleft => ht hleft.1.1) ?_
    rintro ⟨q, o, hevent, -⟩
    obtain ⟨answer, hedge, -⟩ := event_edge hevent
    exact ht (Port.edge_waiting hstate hedge)

/-- **Step lemma**: an event happens exactly when it does not come too late, and leaves the requests with
the time that they need. -/
theorem Port.Tidy.progress (h : p.Tidy) {e : PortEvent} (hfree : p.Free e) :
    p.adapter.Answered (acks (e :: es)) ∧ p.Promises e es ↔
      ∃ q o, p.event e = some (q, o) ∧ q.adapter.Answered (acks es) := by
  cases e with
  | call c =>
    obtain ⟨q, hevent⟩ := event_call_ok hfree c
    have hpromise : p.Promises (.call c) es := by rw [Port.Promises, hevent]; trivial
    have hidle : p.adapter.state ≠ .waitingForAck := by rw [h.idle hfree]; decide
    refine iff_of_true ⟨answered_of_state hidle _, hpromise⟩ ⟨q, none, hevent, answered_of_state ?_ _⟩
    obtain ⟨-, -, ⟨rfl, -⟩ | ⟨rfl, -⟩⟩ := event_call hevent
    · exact (execState_ne _).2
    · exact hidle
  | edge i =>
    cases hcaller : p.caller with
    | none =>
      have hidle := h.idle hcaller
      have hedge : p.edge i = .ok (p, none) := by rw [Port.edge, wishboneHandler_idle hidle]
      have hwait : p.adapter.state ≠ .waitingForAck := by rw [hidle]; decide
      have hstb : p.adapter.out.stbO = false := (h.atRest hcaller).stb
      have hnone : issued p.adapter.out p.adapter.out = [] := by simp [issued, hstb]
      exact iff_of_true ⟨answered_of_state hwait _, promises_of_issued hedge hnone⟩
        ⟨p, _, event_edge_ok hedge, answered_of_state hwait _⟩
    | some trans =>
      rcases h.busy trans hcaller with hexec | ⟨hwait, -⟩
      · have hissue := event_edge_ok (Port.edge_exec hexec i)
        have hlate : p.adapter.Answered (acks (.edge i :: es)) :=
          answered_of_state (by rw [hexec]; exact (execState_ne _).2) _
        rw [exists_event_iff hissue fun q => q.adapter.Answered (acks es), h.progress_issue hexec]
        exact ⟨And.right, fun hanswered => ⟨hlate, hanswered⟩⟩
      · exact h.progress_waiting hwait hcaller

/-! ## Runs -/

/-- **What keeps a run going**: calls that do not overlap reach the end of the waveform exactly if the
slave acknowledges every request in time. -/
theorem isSome_run_iff_inTime (h : p.AtRest) (hes : Apart p es) :
    ((port AWIDTH).run p es).isSome ↔ InTime p es := by
  have hrun := Guarded.isSome_run_iff (m := port AWIDTH) (P := Port.Tidy)
    (W := fun p es => p.adapter.Answered (acks es)) (Q := fun p e _ => p.Free e) (R := Port.Promises)
    (fun _ _ _ => answeredWithin_nil _) (fun _ _ _ _ _ htidy _ hevent => event_tidy htidy hevent)
    (fun _ _ _ htidy hfree => htidy.progress hfree) h.tidy hes
  have hanswered : p.adapter.Answered (acks es) := answered_of_state (by rw [h.state]; decide) _
  exact hrun.trans ⟨And.right, fun htime => ⟨hanswered, htime⟩⟩

/-- A run in which every request is answered in time goes on to its end. -/
theorem run_of_inTime (h : p.AtRest) (hes : Apart p es) (htime : InTime p es) :
    ∃ q log, (port AWIDTH).run p es = some (q, log) := by
  obtain ⟨⟨q, log⟩, hrun⟩ := Option.isSome_iff_exists.mp ((isSome_run_iff_inTime h hes).mpr htime)
  exact ⟨q, log, hrun⟩

/-- Edges start no call. -/
theorem apart_edges (p : Port AWIDTH) (is : List Slave) : Apart p (edges is) := by
  induction is generalizing p with
  | nil => trivial
  | cons i is ih => exact Guarded.along_cons.mpr ⟨trivial, fun q _ _ => ih q⟩

/-- One call overlaps no other one. -/
theorem apart_call (h : p.caller = none) (c : Call) (is : List Slave) :
    Apart p (.call c :: edges is) :=
  Guarded.along_cons.mpr ⟨h, fun q _ _ => apart_edges q is⟩

end DeltaModels.Tlm
