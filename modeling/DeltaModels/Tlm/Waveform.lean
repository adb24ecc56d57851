import DeltaModels.Library.Guarded
import DeltaModels.Tlm.Tlm2wb

/-!
# The adapter under any slave

A run of the adapter is a list of events: a call starts, or a clock edge comes with whatever the slave
drives. An event is refused when a call starts while another one is under way, and when an edge ends
in a report. At every edge the log gets a `Sample`: what the slave sees and drives there, the call
under way, the request that the edge raises and the payload that it returns.

Between events a port is `Tidy`: the caller, the state and the outputs agree about whether a request
is under way. What one edge does to a tidy port is `EdgeOf`, and all facts about runs are read off
that.
-/

namespace DeltaModels.Tlm

open Wishbone

variable {AWIDTH : Nat}

/-- What happens to the adapter from outside. A call brings the memory as its initiator left it. -/
inductive PortEvent where
  | call (c : Call)
  | edge (i : Slave)

/-- One clock edge as it is seen on the bus. -/
structure Sample (AWIDTH : Nat) where
  bus : Master AWIDTH
  slave : Slave
  caller : Option Payload
  raised : List (Request AWIDTH)
  answer : Option Payload
  deriving DecidableEq, Repr

/-- A slave acknowledges the request that it sees. -/
def Sample.acked (x : Sample AWIDTH) : Bool := x.bus.stbO && x.slave.ackI

/-- One event. A call that `b_transport` refuses leaves the adapter as it was. -/
def Port.event (p : Port AWIDTH) : PortEvent → Option (Port AWIDTH × Option (Sample AWIDTH))
  | .call c =>
    if p.caller.isSome then none
    else
      let p := { p with host := c.host }
      match p.call c.trans with
      | .error _ => some (p, none)
      | .ok q => some (q, none)
  | .edge i =>
    match p.edge i with
    | .error _ => none
    | .ok (q, answer) =>
      some (q, some ⟨p.adapter.out, i, p.caller, issued p.adapter.out q.adapter.out, answer⟩)

/-- The adapter as a machine whose events may be refused. -/
def port (AWIDTH : Nat) : Guarded PortEvent (Port AWIDTH) (Sample AWIDTH) where
  step := Port.event

/-- Clock edges only, with these slave inputs. -/
def edges (is : List Slave) : List PortEvent := is.map .edge

/-! ## What one edge does -/

/-- The members, the caller and the outputs agree about the request under way. -/
structure Port.Tidy (p : Port AWIDTH) : Prop where
  idle : p.caller = none → p.adapter.state = .idle
  busy : ∀ trans, p.caller = some trans → p.adapter.state = execState trans ∨
    p.adapter.state = .waitingForAck ∧ p.adapter.wnr = decide (trans.command = .write)
  stb : p.adapter.out.stbO = decide (p.adapter.state = .waitingForAck)
  cyc : p.adapter.out.cycO = p.adapter.out.stbO
  count : p.adapter.state = .waitingForAck → p.adapter.elapsed.toNat + 1 < 2 ^ 32

variable {p q : Port AWIDTH} {i : Slave} {answer : Option Payload} {trans : Payload}

/-- An edge of a tidy port that does not end in a report is one of the five. -/
theorem Port.Tidy.edge (h : p.Tidy) (he : p.edge i = .ok (q, answer)) : EdgeOf p i q answer := by
  cases hcaller : p.caller with
  | none =>
    have hidle := h.idle hcaller
    rw [Port.edge, wishboneHandler_idle hidle] at he
    obtain ⟨rfl, rfl⟩ : p = q ∧ none = answer := by simpa using he
    exact .rest hcaller hidle
  | some trans => exact Port.edgeOf hcaller ((h.busy trans hcaller).imp_right And.left) he

/-- Without a caller nothing happens. -/
theorem EdgeOf.free (he : EdgeOf p i q answer) (hfree : p.caller = none) : q = p ∧ answer = none := by
  cases he with
  | rest => exact ⟨rfl, rfl⟩
  | issue caller | stall caller | next caller | last caller =>
    exact absurd (caller.symm.trans hfree) (by simp)

/-- An edge keeps a port tidy. -/
theorem EdgeOf.tidy (he : EdgeOf p i q answer) (h : p.Tidy) : q.Tidy := by
  cases he with
  | rest => exact h
  | issue caller state =>
    refine ⟨fun hnone => absurd (caller.symm.trans hnone) (by simp), fun t ht => .inr ⟨rfl, ?_⟩,
      rfl, rfl, fun _ => show 0 + 1 < 2 ^ 32 by omega⟩
    obtain rfl := Option.some.inj (caller.symm.trans ht)
    rfl
  | stall caller state quiet time =>
    have hcount := h.count state
    refine ⟨h.idle, h.busy, h.stb, h.cyc, fun _ => ?_⟩
    obtain ⟨hsucc, hintime⟩ := elapsed_succ hcount p.adapter.timeout
    have hlt := hintime.mp time
    have hbound := p.adapter.timeout.isLt
    show (p.adapter.elapsed + 1).toNat + 1 < 2 ^ 32
    omega
  | next caller state =>
    have hexec : decide (execState ‹Payload› = .waitingForAck) = false :=
      decide_eq_false (execState_ne _).2
    refine ⟨fun hnone => absurd hnone (by simp [Port.advance]), fun t ht => .inl ?_, hexec.symm, rfl,
      fun hwait => absurd hwait (execState_ne _).2⟩
    obtain rfl := Option.some.inj ht
    rfl
  | last caller state =>
    exact ⟨fun _ => rfl, fun t ht => absurd ht (by simp [Port.leave]), rfl, rfl, fun hwait => by cases hwait⟩

theorem Port.AtRest.tidy (h : p.AtRest) : p.Tidy where
  idle _ := h.state
  busy t ht := absurd (h.caller.symm.trans ht) (by simp)
  stb := by rw [h.stb, h.state]; rfl
  cyc := h.cyc.trans h.stb.symm
  count hwait := absurd (h.state.symm.trans hwait) (by decide)

/-- A tidy port without a caller is at rest. -/
theorem Port.Tidy.atRest (h : p.Tidy) (hfree : p.caller = none) : p.AtRest where
  caller := hfree
  state := h.idle hfree
  stb := by rw [h.stb, h.idle hfree]; rfl
  cyc := by rw [h.cyc, h.stb, h.idle hfree]; rfl

/-- A call starts from a port at rest. -/
theorem Port.AtRest.tidy_begun (h : p.AtRest) (c : Call) : (p.begun c).Tidy where
  idle hnone := absurd hnone (by simp [Port.begun])
  busy t ht := by
    obtain rfl := Option.some.inj ht
    exact .inl rfl
  stb := by
    have hexec : decide (execState c.trans = .waitingForAck) = false :=
      decide_eq_false (execState_ne _).2
    exact h.stb.trans hexec.symm
  cyc := h.cyc.trans h.stb.symm
  count hwait := absurd hwait (execState_ne _).2

/-! ## What one event does -/

variable {entry : Option (Sample AWIDTH)}

/-- A call is made when nobody else calls. -/
theorem event_call {c : Call} (h : p.event (.call c) = some (q, entry)) :
    p.caller = none ∧ entry = none ∧
      (q = p.begun c ∧ c.trans.command ≠ .ignore ∨
        q = { p with host := c.host } ∧ c.trans.command = .ignore) := by
  simp only [Port.event] at h
  split at h
  · cases h
  · next hfree =>
    have hnone : p.caller = none := by simpa using hfree
    by_cases hcmd : c.trans.command = .ignore
    · have herror : Port.call { p with host := c.host } c.trans
          = .error (.report "TLM-2" "Received an unsupported cmd") := by
        simp [Port.call, Tlm2wb.enter, hcmd, bind, Except.bind]
      rw [herror] at h
      obtain ⟨rfl, rfl⟩ : _ = q ∧ none = entry := by simpa using h
      exact ⟨hnone, rfl, .inr ⟨rfl, hcmd⟩⟩
    · rw [Port.call_ok _ hcmd] at h
      obtain ⟨rfl, rfl⟩ := Prod.mk.inj (Option.some.inj h)
      exact ⟨hnone, rfl, .inl ⟨rfl, hcmd⟩⟩

/-- An edge is logged. -/
theorem event_edge (h : p.event (.edge i) = some (q, entry)) :
    ∃ answer, p.edge i = .ok (q, answer) ∧ entry
      = some ⟨p.adapter.out, i, p.caller, issued p.adapter.out q.adapter.out, answer⟩ := by
  simp only [Port.event] at h
  split at h
  · cases h
  · next q' answer hedge =>
    obtain ⟨rfl, rfl⟩ : q' = q ∧ _ = entry := by simpa using h
    exact ⟨answer, hedge, rfl⟩

/-- Every event keeps a port tidy. -/
theorem event_tidy {e : PortEvent} (h : p.Tidy) (he : p.event e = some (q, entry)) : q.Tidy := by
  cases e with
  | call c =>
    obtain ⟨hfree, -, ⟨rfl, -⟩ | ⟨rfl, -⟩⟩ := event_call he
    · exact (h.atRest hfree).tidy_begun c
    · exact ⟨h.idle, h.busy, h.stb, h.cyc, h.count⟩
  | edge i =>
    obtain ⟨answer, hedge, -⟩ := event_edge he
    exact (h.edge hedge).tidy h

/-- Every run keeps a port tidy. -/
theorem run_tidy {es : List PortEvent} {log : List (Sample AWIDTH)} (h : p.Tidy)
    (hrun : (port AWIDTH).run p es = some (q, log)) : q.Tidy :=
  Guarded.run_invariant (A := fun _ => True) (fun _ _ _ _ _ hs he => event_tidy hs he) h
    (fun _ _ => trivial) hrun

/-- An edge at which nothing is on the bus and nothing happens. -/
structure Sample.Quiet (x : Sample AWIDTH) : Prop where
  stb : x.bus.stbO = false
  raised : x.raised = []
  answer : x.answer = none

/-- Edges alone do nothing to a port at rest. -/
theorem Port.AtRest.run_edges (h : p.AtRest) {is : List Slave} {log : List (Sample AWIDTH)}
    (hrun : (port AWIDTH).run p (edges is) = some (q, log)) : q = p ∧ ∀ x ∈ log, x.Quiet := by
  induction is generalizing log with
  | nil =>
    obtain ⟨rfl, rfl⟩ := Guarded.run_nil.mp hrun
    exact ⟨rfl, by simp⟩
  | cons i is ih =>
    obtain ⟨p', o, os, hstep, hrest, rfl⟩ := Guarded.run_cons.mp hrun
    obtain ⟨answer, hedge, rfl⟩ := event_edge hstep
    obtain ⟨rfl, rfl⟩ := (h.tidy.edge hedge).free h.caller
    obtain ⟨hq, hos⟩ := ih hrest
    refine ⟨hq, fun x hx => ?_⟩
    rcases List.mem_append.mp hx with hx | hx
    · obtain rfl := List.mem_singleton.mp hx
      exact ⟨h.stb, by simp [issued, h.stb], rfl⟩
    · exact hos x hx

/-! ## Calls come to an end

With `m` beats left a call returns within `m * (timeout + 2)` edges, if none of them ends in a
report. -/

/-- The edges that a beat can take. -/
def Port.patience (p : Port AWIDTH) : Nat := p.adapter.timeout.toNat + 2

/-- The call under way has at most `n` edges left. The streaming width counts the beats: it is a
multiple of the length, modulo 2^32. -/
inductive Port.Within (p : Port AWIDTH) : Nat → Prop
  | issuing {trans m} (caller : p.caller = some trans) (state : p.adapter.state = execState trans)
      (wid : p.adapter.wid = BitVec.ofNat 32 (m + 1) * p.adapter.len) :
      Within p ((m + 1) * p.patience)
  | waiting {trans m} (caller : p.caller = some trans) (state : p.adapter.state = .waitingForAck)
      (elapsed : p.adapter.elapsed.toNat + 1 < 2 ^ 32)
      (wid : p.adapter.wid = BitVec.ofNat 32 (m + 1) * p.adapter.len) :
      Within p (m * p.patience + (p.adapter.timeout.toNat - p.adapter.elapsed.toNat) + 1)

/-- Counting down the beats. -/
theorem beats_sub (m : Nat) (len : BitVec 32) :
    BitVec.ofNat 32 (m + 1) * len - len = BitVec.ofNat 32 m * len := by
  have hsucc : BitVec.ofNat 32 (m + 1) * len = BitVec.ofNat 32 m * len + len := by
    rw [BitVec.ofNat_add, BitVec.add_mul]
    exact congrArg (BitVec.ofNat 32 m * len + ·) (BitVec.one_mul len)
  rw [hsucc, BitVec.add_sub_cancel]

theorem Port.not_within_zero (p : Port AWIDTH) : ¬ p.Within 0 := by
  intro h
  generalize hn : 0 = n at h
  cases h with
  | issuing =>
    have hpos : 0 < p.patience := by simp only [Port.patience]; omega
    exact absurd hn (Nat.mul_pos (Nat.succ_pos _) hpos).ne
  | waiting => omega

/-- An edge leaves fewer edges, or no caller. -/
theorem EdgeOf.within (he : EdgeOf p i q answer) {n : Nat} (h : p.Within n)
    (hbusy : q.caller ≠ none) : ∃ n' < n, q.Within n' := by
  cases h with
  | @issuing trans m caller state wid =>
    have hstate := execState_ne trans
    cases he with
    | rest free => exact absurd (caller.symm.trans free) (by simp)
    | issue =>
      refine ⟨_, ?_, .waiting caller rfl (show 0 + 1 < 2 ^ 32 by omega) wid⟩
      show m * p.patience + (p.adapter.timeout.toNat - 0) + 1 < (m + 1) * p.patience
      rw [Nat.add_mul]
      simp only [Port.patience]
      omega
    | stall _ hwait | next _ hwait | last _ hwait => exact absurd (state.symm.trans hwait) hstate.2
  | @waiting trans m caller state elapsed wid =>
    obtain ⟨hsucc, hintime⟩ := elapsed_succ elapsed p.adapter.timeout
    cases he with
    | rest free => exact absurd (caller.symm.trans free) (by simp)
    | issue _ hexec => exact absurd (hexec.symm.trans state) (execState_ne _).2
    | stall _ _ _ time =>
      have hlt := hintime.mp time
      have hbound := p.adapter.timeout.isLt
      refine ⟨_, ?_, .waiting caller state (by rw [hsucc]; omega) wid⟩
      show m * p.patience + (p.adapter.timeout.toNat - (p.adapter.elapsed + 1).toNat) + 1 < _
      omega
    | next _ _ _ time more =>
      have hlt := hintime.mp time
      cases m with
      | zero => exact absurd (wid.trans (BitVec.one_mul _)) more
      | succ m =>
        have hwid : p.adapter.wid - p.adapter.len = BitVec.ofNat 32 (m + 1) * p.adapter.len := by
          rw [wid, beats_sub]
        refine ⟨_, ?_, .issuing rfl rfl hwid⟩
        show (m + 1) * p.patience < _
        omega
    | last => exact absurd rfl hbusy

/-- **Calls come to an end.** -/
theorem Port.Within.run {n : Nat} (hp : p.Within n) (h : p.Tidy) {is : List Slave}
    {log : List (Sample AWIDTH)} (hlen : n ≤ is.length)
    (hrun : (port AWIDTH).run p (edges is) = some (q, log)) : q.caller = none := by
  have hedges : ∀ e ∈ edges is, ∃ i, e = .edge i := by
    intro e he
    obtain ⟨i, -, rfl⟩ := List.mem_map.mp he
    exact ⟨i, rfl⟩
  have hfinal : ¬ (q.Tidy → q.caller ≠ none) :=
    Guarded.run_done (m := port AWIDTH) (A := fun e => ∃ i, e = .edge i)
      (B := fun p => p.Tidy → p.caller ≠ none) (W := fun p n => p.Tidy ∧ p.Within n)
      (by
        rintro p _ q entry n ⟨i, rfl⟩ ⟨htidy, hwithin⟩ hstep hbusy
        obtain ⟨answer, hedge, -⟩ := event_edge hstep
        have hof := htidy.edge hedge
        have hq := hof.tidy htidy
        obtain ⟨n', hlt, hwithin'⟩ := hof.within hwithin (hbusy hq)
        exact ⟨n', hlt, hq, hwithin'⟩)
      (by
        rintro p _ q entry ⟨i, rfl⟩ hidle hstep
        obtain ⟨htidy, hfree⟩ : p.Tidy ∧ p.caller = none := by simpa using hidle
        obtain ⟨answer, hedge, -⟩ := event_edge hstep
        obtain rfl := ((htidy.edge hedge).free hfree).1
        exact hidle)
      (fun p hzero => p.not_within_zero hzero.2) ⟨h, hp⟩ hedges (by simpa [edges] using hlen) hrun
  obtain ⟨-, hfree⟩ : q.Tidy ∧ q.caller = none := by simpa using hfinal
  exact hfree

end DeltaModels.Tlm
