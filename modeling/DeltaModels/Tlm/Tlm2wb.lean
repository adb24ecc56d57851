import DeltaModels.Library.Lanes
import DeltaModels.Tlm.Payload
import DeltaModels.Wishbone.Bus

/-!
# `TLM2WB`

The adapter turns a blocking TLM call into Wishbone requests. Two processes share its members:

* `wishboneHandler` runs at every rising edge. It issues a request (`executingWrite`,
  `executingRead`), waits for the acknowledge, and then notifies `ack_event`.
* `b_transport` runs in the thread of its caller. It loads the members (`enter`) and waits for
  `ack_event`; each time it wakes up (`resume`) it either returns or sets up the next beat.

The handler reads its inputs as they were before the edge, and what it drives is seen after the edge,
so the outputs are simply members of the state here. A notified caller resumes before the next edge.
`Port` is the adapter with at most one caller, and `EdgeOf` is what an edge can do to it, one
constructor for each case; what happens with two callers is the subject of `DeltaModels.Tlm.Sharing`.
-/

namespace DeltaModels.Tlm

open Wishbone

variable {AWIDTH : Nat}

/-- `WB_state_t`. -/
inductive WbState where
  | idle | executingWrite | executingRead | waitingForAck
  deriving DecidableEq, Repr

/-- The mutable members of the adapter. -/
structure Tlm2wb (AWIDTH : Nat) where
  wnr : Bool
  adr : BitVec 64
  ptr : Nat
  len : BitVec 32
  byt : Option Nat
  wid : BitVec 32
  state : WbState
  timeout : BitVec 32
  elapsed : BitVec 32
  bvData : BitVec 32
  bvByteen : BitVec 4
  out : Master AWIDTH
  deriving DecidableEq, Repr

/-- The adapter after construction; a member that the constructor leaves uninitialised is 0 here. -/
def Tlm2wb.init : Tlm2wb AWIDTH where
  wnr := false
  adr := 0
  ptr := 0
  len := 0
  byt := none
  wid := 0
  state := .idle
  timeout := 1000
  elapsed := 0
  bvData := 0
  bvByteen := 0
  out := ⟨0, 0, false, 0, false, false⟩

/-! ## The clocked process -/

/-- What a run of the handler does besides changing the members. -/
structure Reaction (AWIDTH : Nat) where
  adapter : Tlm2wb AWIDTH
  host : Host
  notified : Bool := false
  report : Option Fault := none

/-- The word on `dat_o`: the first byte of the buffer is the most significant one. -/
def datOut (host : Host) (ptr : Nat) : BitVec 32 := Lanes.pack fun i => host (ptr + (3 - i))

/-- Does buffer position `j` take part in a write? -/
def byteEnabled (host : Host) (byt : Option Nat) (j : Nat) : Bool :=
  match byt with
  | some byt => host (byt + j) = 0xff
  | none => true

/-- The mask on `sel_o`: the enable bytes in the same order, or all lanes without them. -/
def selOut (host : Host) (byt : Option Nat) : BitVec 4 :=
  Lanes.packBits fun i => byteEnabled host byt (3 - i)

/-- The loop that stores `dat_i` in the buffer, the most significant byte first. -/
def storeWord (host : Host) (ptr : Nat) (w : BitVec 32) : Host :=
  (Patch.span ptr [Lanes.lane w 3, Lanes.lane w 2, Lanes.lane w 1, Lanes.lane w 0]).apply host

/-- Buffer position `j` goes out on lane `3 - j`. -/
theorem lane_datOut (host : Host) (ptr : Nat) {j : Nat} (hj : j < 4) :
    Lanes.lane (datOut host ptr) (3 - j) = host (ptr + j) := by
  have hback : 3 - (3 - j) = j := by omega
  rw [datOut, Lanes.lane_pack _ (by omega), hback]

/-- The lane of position `j` is selected when the position takes part. -/
theorem getLsbD_selOut (host : Host) (byt : Option Nat) {j : Nat} (hj : j < 4) :
    (selOut host byt).getLsbD (3 - j) = byteEnabled host byt j := by
  have hback : 3 - (3 - j) = j := by omega
  rw [selOut, Lanes.getLsbD_packBits _ (by omega), hback]

/-- Lane `3 - j` comes back to buffer position `j`. -/
theorem storeWord_apply (host : Host) (ptr : Nat) (w : BitVec 32) {j : Nat} (hj : j < 4) :
    storeWord host ptr w (ptr + j) = Lanes.lane w (3 - j) := by
  simp only [storeWord, Patch.apply, Patch.span, Nat.le_add_right, if_true, Nat.add_sub_cancel_left]
  interval_cases j <;> rfl

/-- The report of a request that nobody acknowledged. -/
def ackNotReceived : Fault := .report "TLM2WB" "Acknowledge not received"

/-- `TLM2WB::wishbone_handler`. -/
def wishboneHandler (a : Tlm2wb AWIDTH) (i : Slave) (host : Host) : Reaction AWIDTH :=
  match a.state with
  | .idle => { adapter := a, host := host }
  | .executingWrite =>
    let bvData := datOut host a.ptr
    let bvByteen := selOut host a.byt
    { host := host
      adapter := { a with
        bvData := bvData
        bvByteen := bvByteen
        wnr := true
        state := .waitingForAck
        elapsed := 0
        out := ⟨a.adr.setWidth AWIDTH, bvData, true, bvByteen, true, true⟩ } }
  | .executingRead =>
    { host := host
      adapter := { a with
        wnr := false
        state := .waitingForAck
        elapsed := 0
        out := ⟨a.adr.setWidth AWIDTH, a.out.datO, false, 0, true, true⟩ } }
  | .waitingForAck =>
    -- an acknowledge that comes in the last edge is taken and reported all the same
    let elapsed := a.elapsed + 1
    let report := if elapsed ≥ a.timeout then some ackNotReceived else none
    if i.ackI then
      { host := if a.wnr then host else storeWord host a.ptr i.datI
        notified := true
        report := report
        adapter := { a with
          elapsed := elapsed
          bvData := if a.wnr then a.bvData else i.datI
          state := .idle
          out := { a.out with stbO := false, cycO := false, weO := false, selO := 0 } } }
    else { adapter := { a with elapsed := elapsed }, host := host, report := report }

/-! ## The caller's process -/

/-- The local `_state`, the state in which a call's requests are issued. -/
def execState (trans : Payload) : WbState :=
  if trans.command = .write then .executingWrite else .executingRead

/-- The members that a call sets; a streaming width of 0 stands for the length. -/
def Tlm2wb.load (a : Tlm2wb AWIDTH) (trans : Payload) : Tlm2wb AWIDTH :=
  { a with
    state := execState trans
    adr := trans.address >>> 2
    ptr := trans.dataPtr
    len := trans.dataLength
    byt := trans.byteEnablePtr
    wid := if trans.streamingWidth = 0 then trans.dataLength else trans.streamingWidth }

/-- `TLM2WB::b_transport` up to its first wait. -/
def Tlm2wb.enter (a : Tlm2wb AWIDTH) (trans : Payload) : Except Fault (Tlm2wb AWIDTH) :=
  if trans.command ≠ .write ∧ trans.command ≠ .read then
    .error (.report "TLM-2" "Received an unsupported cmd")
  else .ok (a.load trans)

/-- `TLM2WB::b_transport` after a wait: the payload that it returns, or the next beat. -/
def Tlm2wb.resume (a : Tlm2wb AWIDTH) (trans : Payload) : Tlm2wb AWIDTH × Option Payload :=
  -- `unsigned` subtraction, which wraps around below 0
  let wid := a.wid - a.len
  if wid = 0 then ({ a with wid := wid }, some { trans with responseStatus := .ok })
  else ({ a with
    wid := wid
    state := execState trans
    adr := a.adr + a.len.setWidth 64
    ptr := a.ptr + a.len.toNat
    byt := a.byt.map (· + a.len.toNat) }, none)

/-! ## One caller at a time -/

/-- The adapter, the caller's memory, and the payload of the call under way. -/
structure Port (AWIDTH : Nat) where
  adapter : Tlm2wb AWIDTH
  host : Host
  caller : Option Payload

def Port.init (host : Host) : Port AWIDTH := ⟨.init, host, none⟩

/-- A call starts. -/
def Port.call (p : Port AWIDTH) (trans : Payload) : Except Fault (Port AWIDTH) := do
  let a ← p.adapter.enter trans
  return ⟨a, p.host, some trans⟩

/-- The port at the start of a call. -/
def Port.begun (p : Port AWIDTH) (c : Call) : Port AWIDTH :=
  ⟨p.adapter.load c.trans, c.host, some c.trans⟩

/-- One clock edge: the handler runs, and a notified caller resumes. The payload of a call that
returns is part of the result. -/
def Port.edge (p : Port AWIDTH) (i : Slave) : Except Fault (Port AWIDTH × Option Payload) :=
  let r := wishboneHandler p.adapter i p.host
  match r.report with
  | some fault => .error fault
  | none =>
    match r.notified, p.caller with
    | true, some payload =>
      let (a, done) := r.adapter.resume payload
      .ok (⟨a, r.host, if done.isSome then none else some payload⟩, done)
    | _, _ => .ok (⟨r.adapter, r.host, p.caller⟩, none)

/-- Between calls: the adapter is idle, nobody waits, and no request is on the bus. -/
structure Port.AtRest (p : Port AWIDTH) : Prop where
  caller : p.caller = none
  state : p.adapter.state = .idle
  stb : p.adapter.out.stbO = false
  cyc : p.adapter.out.cycO = false

theorem Port.atRest_init (host : Host) : (Port.init host : Port AWIDTH).AtRest := ⟨rfl, rfl, rfl, rfl⟩

/-! ## What one edge does -/

/-- The adapter after the edge that issues a request. -/
def Tlm2wb.issue (a : Tlm2wb AWIDTH) (host : Host) (command : Command) : Tlm2wb AWIDTH :=
  { a with
    bvData := if command = .write then datOut host a.ptr else a.bvData
    bvByteen := if command = .write then selOut host a.byt else a.bvByteen
    wnr := command = .write
    state := .waitingForAck
    elapsed := 0
    out := {
      adrO := a.adr.setWidth AWIDTH
      datO := if command = .write then datOut host a.ptr else a.out.datO
      weO := command = .write
      selO := if command = .write then selOut host a.byt else 0
      stbO := true
      cycO := true } }

/-- The adapter after the edge that takes an acknowledge. -/
def Tlm2wb.finish (a : Tlm2wb AWIDTH) (i : Slave) : Tlm2wb AWIDTH :=
  { a with
    elapsed := a.elapsed + 1
    bvData := if a.wnr then a.bvData else i.datI
    state := .idle
    out := { a.out with stbO := false, cycO := false, weO := false, selO := 0 } }

variable {a : Tlm2wb AWIDTH} {trans : Payload}

theorem Tlm2wb.enter_ok (a : Tlm2wb AWIDTH) (h : trans.command ≠ .ignore) :
    a.enter trans = .ok (a.load trans) := by
  have hknown : ¬ (trans.command ≠ .write ∧ trans.command ≠ .read) := by
    rintro ⟨hw, hr⟩
    cases hcmd : trans.command <;> simp_all
  simp only [Tlm2wb.enter, if_neg hknown]

/-- A call that does not stream has one beat, a streaming width of 0 included. -/
theorem Tlm2wb.wid_load (a : Tlm2wb AWIDTH)
    (h : trans.streamingWidth = trans.dataLength ∨ trans.streamingWidth = 0) :
    (a.load trans).wid = (a.load trans).len := by
  simp only [Tlm2wb.load]
  split
  · rfl
  · next hne => exact h.resolve_right hne

theorem Tlm2wb.resume_last (h : a.wid = a.len) :
    a.resume trans = ({ a with wid := 0 }, some { trans with responseStatus := .ok }) := by
  have hzero : a.wid - a.len = 0 := by rw [h]; exact BitVec.sub_self _
  simp only [Tlm2wb.resume, hzero, if_true]

theorem Tlm2wb.resume_next (h : a.wid - a.len ≠ 0) :
    a.resume trans = ({ a with
      wid := a.wid - a.len
      state := execState trans
      adr := a.adr + a.len.setWidth 64
      ptr := a.ptr + a.len.toNat
      byt := a.byt.map (· + a.len.toNat) }, none) := by
  simp only [Tlm2wb.resume, if_neg h]

/-- Counting down the streaming width by one beat. -/
theorem wid_sub (n : Nat) : BitVec.ofNat 32 (4 * (n + 1)) - 4 = BitVec.ofNat 32 (4 * n) := by
  have hsum : BitVec.ofNat 32 (4 * (n + 1)) = BitVec.ofNat 32 (4 * n) + 4 := by
    rw [Nat.mul_add, BitVec.ofNat_add]; rfl
  rw [hsum, BitVec.add_sub_cancel]

theorem ofNat_beats_ne_zero {n : Nat} (hn : 4 * (n + 1) < 2 ^ 32) :
    BitVec.ofNat 32 (4 * (n + 1)) ≠ 0 := by
  intro hzero
  have hnat := congrArg BitVec.toNat hzero
  rw [BitVec.toNat_ofNat, Nat.mod_eq_of_lt hn] at hnat
  exact absurd hnat (by simp)

theorem execState_ne (trans : Payload) :
    execState trans ≠ .idle ∧ execState trans ≠ .waitingForAck := by
  unfold execState
  split <;> decide

theorem wishboneHandler_idle (h : a.state = .idle) (i : Slave) (host : Host) :
    wishboneHandler a i host = { adapter := a, host := host } := by
  simp only [wishboneHandler, h]

theorem wishboneHandler_exec (h : a.state = execState trans) (i : Slave) (host : Host) :
    wishboneHandler a i host = { adapter := a.issue host trans.command, host := host } := by
  cases hcmd : trans.command <;> simp [wishboneHandler, h, execState, hcmd, Tlm2wb.issue]

/-- The count goes up by one as long as it has room. -/
theorem elapsed_succ {elapsed : BitVec 32} (h : elapsed.toNat + 1 < 2 ^ 32) (timeout : BitVec 32) :
    (elapsed + 1).toNat = elapsed.toNat + 1 ∧
      (elapsed + 1 < timeout ↔ elapsed.toNat + 1 < timeout.toNat) := by
  have hone : (1 : BitVec 32).toNat = 1 := rfl
  have hsucc : (elapsed + 1).toNat = elapsed.toNat + 1 := by
    rw [BitVec.toNat_add, hone]
    exact Nat.mod_eq_of_lt h
  exact ⟨hsucc, by rw [BitVec.lt_def, hsucc]⟩

theorem wishboneHandler_stall (h : a.state = .waitingForAck) {i : Slave} (hi : i.ackI = false)
    (ht : a.elapsed + 1 < a.timeout) (host : Host) :
    wishboneHandler a i host = { adapter := { a with elapsed := a.elapsed + 1 }, host := host } := by
  have hreport : ¬ a.elapsed + 1 ≥ a.timeout := BitVec.not_le.mpr ht
  simp only [wishboneHandler, h, hi, if_neg hreport, Bool.false_eq_true, if_false]

theorem wishboneHandler_ack (h : a.state = .waitingForAck) {i : Slave} (hi : i.ackI = true)
    (ht : a.elapsed + 1 < a.timeout) (host : Host) :
    wishboneHandler a i host = {
      adapter := a.finish i
      host := if a.wnr then host else storeWord host a.ptr i.datI
      notified := true } := by
  have hreport : ¬ a.elapsed + 1 ≥ a.timeout := BitVec.not_le.mpr ht
  simp only [wishboneHandler, h, hi, if_neg hreport, if_true, Tlm2wb.finish]

/-- Without a report, an edge that waits for the acknowledge is one of the two above. -/
theorem wishboneHandler_waiting (h : a.state = .waitingForAck) (i : Slave) (host : Host)
    (hr : (wishboneHandler a i host).report = none) : a.elapsed + 1 < a.timeout := by
  by_contra hlt
  have hreport : a.elapsed + 1 ≥ a.timeout := BitVec.not_lt.mp hlt
  cases hi : i.ackI <;>
    simp only [wishboneHandler, h, hi, if_pos hreport, Bool.false_eq_true, if_false, if_true,
      reduceCtorEq] at hr

/-! ## Answers in time

The edges that wait for an acknowledge count `elapsed` up from 0, and the one at which it reaches the
timeout reports. So the acknowledge has to come at one of the `timeout - 1` edges after the one that
issues the request. -/

/-- Among the next `n` edges there is an acknowledge, or they are not over yet; `acks` is the acknowledge
signal at the edges to come. -/
def AnsweredWithin (n : Nat) (acks : List Bool) : Prop := acks.length ≤ n ∨ true ∈ acks.take n
  deriving Decidable

theorem answeredWithin_nil (n : Nat) : AnsweredWithin n [] := .inl (Nat.zero_le n)

/-- One edge of the time that is left. -/
theorem answeredWithin_cons {n : Nat} {ack : Bool} {acks : List Bool} :
    AnsweredWithin n (ack :: acks) ↔ 0 < n ∧ (ack = false → AnsweredWithin (n - 1) acks) := by
  cases n with
  | zero => simp [AnsweredWithin]
  | succ n => cases ack <;> simp [AnsweredWithin]

/-- The edges at which an acknowledge still comes in time. -/
def Tlm2wb.edgesLeft (a : Tlm2wb AWIDTH) : Nat := a.timeout.toNat - 1 - a.elapsed.toNat

/-- The request under way, if there is one, will be acknowledged in time. -/
def Tlm2wb.Answered (a : Tlm2wb AWIDTH) (acks : List Bool) : Prop :=
  a.state = .waitingForAck → AnsweredWithin a.edgesLeft acks

/-- Where no request waits there is nothing to answer. -/
theorem answered_of_state (h : a.state ≠ .waitingForAck) (acks : List Bool) : a.Answered acks :=
  fun hwait => absurd hwait h

theorem Tlm2wb.edgesLeft_pos (h : a.elapsed.toNat + 1 < 2 ^ 32) :
    0 < a.edgesLeft ↔ a.elapsed + 1 < a.timeout := by
  rw [(elapsed_succ h a.timeout).2, Tlm2wb.edgesLeft]
  omega

/-- One edge of waiting: it is not the one that reports, and without an acknowledge the time that is left
suffices all the same. -/
theorem Tlm2wb.answered_cons (hstate : a.state = .waitingForAck) (h : a.elapsed.toNat + 1 < 2 ^ 32)
    {ack : Bool} {acks : List Bool} : a.Answered (ack :: acks) ↔ a.elapsed + 1 < a.timeout ∧
      (ack = false → Tlm2wb.Answered { a with elapsed := a.elapsed + 1 } acks) := by
  have hleft : Tlm2wb.edgesLeft { a with elapsed := a.elapsed + 1 } = a.edgesLeft - 1 := by
    simp only [Tlm2wb.edgesLeft, (elapsed_succ h a.timeout).1]
    omega
  have hnext : Tlm2wb.Answered { a with elapsed := a.elapsed + 1 } acks ↔
      AnsweredWithin (a.edgesLeft - 1) acks := by
    rw [Tlm2wb.Answered, hleft]
    exact ⟨fun hanswered => hanswered hstate, fun hanswered _ => hanswered⟩
  rw [hnext, ← Tlm2wb.edgesLeft_pos h, ← answeredWithin_cons]
  exact ⟨fun hanswered => hanswered hstate, fun hanswered _ => hanswered⟩

variable {p : Port AWIDTH}

theorem Port.call_ok (p : Port AWIDTH) (h : trans.command ≠ .ignore) :
    p.call trans = .ok ⟨p.adapter.load trans, p.host, some trans⟩ := by
  rw [Port.call, Tlm2wb.enter_ok _ h]
  rfl

theorem Port.edge_exec (h : p.adapter.state = execState trans) (i : Slave) :
    p.edge i = .ok (⟨p.adapter.issue p.host trans.command, p.host, p.caller⟩, none) := by
  simp only [Port.edge, wishboneHandler_exec h]

theorem Port.edge_stall (h : p.adapter.state = .waitingForAck) {i : Slave} (hi : i.ackI = false)
    (ht : p.adapter.elapsed + 1 < p.adapter.timeout) :
    p.edge i = .ok (⟨{ p.adapter with elapsed := p.adapter.elapsed + 1 }, p.host, p.caller⟩, none) := by
  simp only [Port.edge, wishboneHandler_stall h hi ht]

theorem Port.edge_ack (h : p.adapter.state = .waitingForAck) {i : Slave} (hi : i.ackI = true)
    (ht : p.adapter.elapsed + 1 < p.adapter.timeout) (hcall : p.caller = some trans) :
    p.edge i = .ok
      (⟨((p.adapter.finish i).resume trans).1,
        if p.adapter.wnr then p.host else storeWord p.host p.adapter.ptr i.datI,
        if ((p.adapter.finish i).resume trans).2.isSome then none else some trans⟩,
        ((p.adapter.finish i).resume trans).2) := by
  simp only [Port.edge, wishboneHandler_ack h hi ht, hcall]

theorem Port.edge_waiting (h : p.adapter.state = .waitingForAck) {i : Slave}
    {r : Port AWIDTH × Option Payload} (hr : p.edge i = .ok r) :
    p.adapter.elapsed + 1 < p.adapter.timeout := by
  refine wishboneHandler_waiting h i p.host ?_
  simp only [Port.edge] at hr
  split at hr
  · cases hr
  · next hnone => exact hnone

/-! ## The edges of a call -/

/-- The memory of the caller after an acknowledge. -/
def Port.received (p : Port AWIDTH) (i : Slave) : Host :=
  if p.adapter.wnr then p.host else storeWord p.host p.adapter.ptr i.datI

/-- The port after an acknowledge that starts the next beat. -/
def Port.advance (p : Port AWIDTH) (i : Slave) (trans : Payload) : Port AWIDTH where
  host := p.received i
  caller := some trans
  adapter := { p.adapter.finish i with
    wid := p.adapter.wid - p.adapter.len
    state := execState trans
    adr := p.adapter.adr + p.adapter.len.setWidth 64
    ptr := p.adapter.ptr + p.adapter.len.toNat
    byt := p.adapter.byt.map (· + p.adapter.len.toNat) }

/-- The port after the acknowledge that ends the call. -/
def Port.leave (p : Port AWIDTH) (i : Slave) : Port AWIDTH :=
  ⟨{ p.adapter.finish i with wid := 0 }, p.received i, none⟩

/-- What an edge can do: the port that it leads to and the payload that it returns. -/
inductive EdgeOf (p : Port AWIDTH) (i : Slave) : Port AWIDTH → Option Payload → Prop
  | rest (free : p.caller = none) (state : p.adapter.state = .idle) : EdgeOf p i p none
  | issue {trans : Payload} (caller : p.caller = some trans)
      (state : p.adapter.state = execState trans) :
      EdgeOf p i ⟨p.adapter.issue p.host trans.command, p.host, p.caller⟩ none
  | stall {trans : Payload} (caller : p.caller = some trans) (state : p.adapter.state = .waitingForAck)
      (quiet : i.ackI = false) (time : p.adapter.elapsed + 1 < p.adapter.timeout) :
      EdgeOf p i ⟨{ p.adapter with elapsed := p.adapter.elapsed + 1 }, p.host, p.caller⟩ none
  | next {trans : Payload} (caller : p.caller = some trans) (state : p.adapter.state = .waitingForAck)
      (ack : i.ackI = true) (time : p.adapter.elapsed + 1 < p.adapter.timeout)
      (more : p.adapter.wid ≠ p.adapter.len) : EdgeOf p i (p.advance i trans) none
  | last {trans : Payload} (caller : p.caller = some trans) (state : p.adapter.state = .waitingForAck)
      (ack : i.ackI = true) (time : p.adapter.elapsed + 1 < p.adapter.timeout)
      (wid : p.adapter.wid = p.adapter.len) :
      EdgeOf p i (p.leave i) (some { trans with responseStatus := .ok })

variable {q : Port AWIDTH} {i : Slave} {answer : Option Payload}

/-- **Inversion**: while a call is under way, an edge that does not end in a report issues its request,
waits, or takes the acknowledge, which starts the next beat or ends the call. -/
theorem Port.edgeOf (hcaller : p.caller = some trans)
    (hstate : p.adapter.state = execState trans ∨ p.adapter.state = .waitingForAck)
    (he : p.edge i = .ok (q, answer)) : EdgeOf p i q answer := by
  rcases hstate with hexec | hwait
  · rw [Port.edge_exec hexec] at he
    obtain ⟨rfl, rfl⟩ : _ = q ∧ none = answer := by simpa using he
    exact .issue hcaller hexec
  · have ht := Port.edge_waiting hwait he
    cases hack : i.ackI with
    | false =>
      rw [Port.edge_stall hwait hack ht] at he
      obtain ⟨rfl, rfl⟩ : _ = q ∧ none = answer := by simpa using he
      exact .stall hcaller hwait hack ht
    | true =>
      rw [Port.edge_ack hwait hack ht hcaller] at he
      by_cases hwid : p.adapter.wid = p.adapter.len
      · have hlast : (p.adapter.finish i).wid = (p.adapter.finish i).len := hwid
        rw [Tlm2wb.resume_last hlast] at he
        obtain ⟨rfl, rfl⟩ := Prod.mk.inj (Except.ok.inj he)
        exact .last hcaller hwait hack ht hwid
      · have hmore : (p.adapter.finish i).wid - (p.adapter.finish i).len ≠ 0 :=
          fun hzero => hwid (sub_eq_zero.mp hzero)
        rw [Tlm2wb.resume_next hmore] at he
        obtain ⟨rfl, rfl⟩ := Prod.mk.inj (Except.ok.inj he)
        exact .next hcaller hwait hack ht hwid

end DeltaModels.Tlm
