import DeltaModels.Tlm.Tlm2wb
import DeltaModels.Wishbone.Wbram
import Mathlib.Tactic.FinCases

/-!
# `TLM2WB` in front of a `WBRAM`

Adapter and memory on one clock, wired to each other. A word call takes three edges: one to issue the
request, one for the memory to serve it, and one for the adapter to take the acknowledge while the
memory sees the request a second time and leaves it alone. After that both are as before the call
(`Wired.Quiet`), so calls compose (`transport_served`, `session_holds`).

The abstract memory has one byte for each word and each position in a caller's buffer; a write call is
a patch of it (`bytePatch`). Byte position `j` travels on lane `3 - j` both ways.
-/

namespace DeltaModels.Tlm

open Wishbone

/-- The adapter with its caller, and the memory. -/
structure Wired where
  port : Port 32
  ram : Wbram

/-- Both after construction. -/
def Wired.init (memSize : BitVec 32) : Wired := ⟨Port.init fun _ => 0, Wbram.init memSize⟩

/-- One edge of the common clock; each side reads what the other one drove before it. -/
def Wired.edge (unset : BitVec 32) (s : Wired) : Except Fault (Wired × Option Payload × List Op) := do
  let (port, done) ← s.port.edge ⟨s.ram.ackO, s.ram.datO⟩
  let (ram, op) ← s.ram.handleop unset s.port.adapter.out
  return (⟨port, ram⟩, done, op.toList)

/-- Edges without a call. -/
def Wired.idle (unset : BitVec 32) : Nat → Wired → Option Wired
  | 0, s => some s
  | n + 1, s =>
    match s.edge unset with
    | .error _ => none
    | .ok (s', _, _) => idle unset n s'

/-- At most `fuel` edges, until the call under way returns: the payload returned, and the operations
that the memory performed. -/
def Wired.untilReturn (unset : BitVec 32) : Nat → Wired → Option (Wired × Payload × List Op)
  | 0, _ => none
  | fuel + 1, s =>
    match s.edge unset with
    | .error _ => none
    | .ok (s', some answer, ops) => some (s', answer, ops)
    | .ok (s', none, ops) =>
      (untilReturn unset fuel s').map fun (q, answer, ops') => (q, answer, ops ++ ops')

/-- A call with the memory of its caller, from its start to its return. -/
def Wired.transport (unset : BitVec 32) (fuel : Nat) (s : Wired) (c : Call) :
    Option (Wired × Payload × List Op) :=
  match ({ s.port with host := c.host } : Port 32).call c.trans with
  | .error _ => none
  | .ok port => Wired.untilReturn unset fuel { s with port := port }

/-- Calls one after the other, each after some idle edges. -/
def Wired.session (unset : BitVec 32) (fuel : Nat) (s : Wired) : List (Nat × Call) → Option Wired
  | [] => some s
  | (n, c) :: rest =>
    ((s.idle unset n).bind fun s => s.transport unset fuel c).bind fun r => r.1.session unset fuel rest

/-! ## The abstract memory -/

/-- The word that a call addresses. -/
def wordOf (c : Call) : BitVec 32 := (c.trans.address >>> 2).setWidth 32

/-- A read or write of one word inside the memory. -/
structure WordCall (memSize : BitVec 32) (c : Call) : Prop where
  command : c.trans.command ≠ .ignore
  dataLength : c.trans.dataLength = 4
  streamingWidth : c.trans.streamingWidth = 4 ∨ c.trans.streamingWidth = 0
  inside : c.trans.address >>> 2 < memSize.setWidth 64

/-- Buffer position `j` takes part in a write. -/
def enabled (c : Call) (j : Fin 4) : Bool := byteEnabled c.host c.trans.byteEnablePtr j

/-- What a call writes, as a patch of the abstract memory. -/
def bytePatch (c : Call) : Patch (BitVec 32 × Fin 4) (BitVec 8) := fun (w, j) =>
  if c.trans.command = .write ∧ w = wordOf c ∧ enabled c j then some (c.host (c.trans.dataPtr + j))
  else none

/-- The byte that a word puts in buffer position `j`. -/
def byteOf (w : BitVec 32) (j : Fin 4) : BitVec 8 := Lanes.lane w (3 - j)

/-- The memory holds the abstract one. -/
def HoldsBytes (unset : BitVec 32) (ram : Wbram) (img : BitVec 32 × Fin 4 → BitVec 8) : Prop :=
  ∀ w j, byteOf (ram.wordAt unset w) j = img (w, j)

/-- Nothing is under way on either side. -/
structure Wired.Quiet (memSize : BitVec 32) (s : Wired) : Prop where
  port : s.port.AtRest
  timeout : s.port.adapter.timeout = 1000
  nTran : s.ram.nTran = false
  memSize : s.ram.memSize = memSize

/-! ## Bytes on their lanes -/

/-- A write puts the enabled bytes of the buffer into the word and keeps the others. -/
theorem byteOf_merge (w : BitVec 32) (c : Call) (j : Fin 4) :
    byteOf (Wbram.merge w (datOut c.host c.trans.dataPtr) (selOut c.host c.trans.byteEnablePtr)) j
      = if enabled c j then c.host (c.trans.dataPtr + j) else byteOf w j := by
  have hlane : 3 - j.val < 4 := by omega
  simp only [byteOf, Wbram.merge, Lanes.lane_pack _ hlane, lane_datOut _ _ j.isLt,
    getLsbD_selOut _ _ j.isLt, enabled]
  rfl

/-- A read puts the bytes of the word into the buffer. -/
theorem storeWord_byte (host : Host) (ptr : Nat) (w : BitVec 32) (j : Fin 4) :
    storeWord host ptr w (ptr + j) = byteOf w j :=
  storeWord_apply host ptr w j.isLt

/-! ## One call -/

section Edges

variable {memSize unset : BitVec 32} {s : Wired} {c : Call}

theorem untilReturn_pending {s s' : Wired} {ops : List Op} (h : s.edge unset = .ok (s', none, ops))
    {fuel : Nat} : Wired.untilReturn unset (fuel + 1) s
      = (Wired.untilReturn unset fuel s').map fun r => (r.1, r.2.1, ops ++ r.2.2) := by
  simp only [Wired.untilReturn, h]

theorem untilReturn_returned {s s' : Wired} {answer : Payload} {ops : List Op}
    (h : s.edge unset = .ok (s', some answer, ops)) {fuel : Nat} :
    Wired.untilReturn unset (fuel + 1) s = some (s', answer, ops) := by
  simp only [Wired.untilReturn, h]

/-- First edge: the adapter issues the request, the memory sees nothing yet. -/
theorem edge_issue (unset : BitVec 32) (hs : s.Quiet memSize) (c : Call) :
    Wired.edge unset ⟨s.port.begun c, s.ram⟩
      = .ok (⟨⟨(s.port.adapter.load c.trans).issue c.host c.trans.command, c.host, some c.trans⟩,
          { s.ram with ackO := false }⟩, none, []) := by
  have hstate : (s.port.begun c).adapter.state = execState c.trans := rfl
  have hram : s.ram.handleop unset (s.port.begun c).adapter.out
      = .ok ({ s.ram with ackO := false }, none) := Wbram.handleop_idle hs.port.stb
  simp only [Wired.edge, Port.edge_exec hstate, hram]
  rfl

/-- Second edge: the memory serves the request, the adapter waits. -/
theorem edge_serve {p : Port 32} {ram ram' : Wbram} {op : Op} (hstate : p.adapter.state = .waitingForAck)
    (ht : p.adapter.elapsed + 1 < p.adapter.timeout) (hack : ram.ackO = false)
    (hram : ram.handleop unset p.adapter.out = .ok (ram', some op)) :
    Wired.edge unset ⟨p, ram⟩
      = .ok (⟨⟨{ p.adapter with elapsed := p.adapter.elapsed + 1 }, p.host, p.caller⟩, ram'⟩, none,
          [op]) := by
  simp only [Wired.edge, Port.edge_stall (i := ⟨ram.ackO, ram.datO⟩) hstate hack ht, hram]
  rfl

/-- Third edge: the adapter takes the acknowledge and the call returns, the memory steps back. -/
theorem edge_return {p : Port 32} {ram : Wbram} (hstate : p.adapter.state = .waitingForAck)
    (ht : p.adapter.elapsed + 1 < p.adapter.timeout) (hcaller : p.caller = some c.trans)
    (hwid : p.adapter.wid = p.adapter.len) (hack : ram.ackO = true) (hn : ram.nTran = true)
    (hcyc : p.adapter.out.cycO = true) (hstb : p.adapter.out.stbO = true) :
    Wired.edge unset ⟨p, ram⟩
      = .ok (⟨⟨{ p.adapter.finish ⟨ram.ackO, ram.datO⟩ with wid := 0 },
            if p.adapter.wnr then p.host else storeWord p.host p.adapter.ptr ram.datO, none⟩,
          { ram with ackO := false, nTran := false }⟩,
        some { c.trans with responseStatus := .ok }, []) := by
  have hlast : (p.adapter.finish ⟨ram.ackO, ram.datO⟩).wid
      = (p.adapter.finish ⟨ram.ackO, ram.datO⟩).len := hwid
  have hport := Port.edge_ack (i := ⟨ram.ackO, ram.datO⟩) hstate hack ht hcaller
  rw [Tlm2wb.resume_last hlast] at hport
  simp only [Wired.edge, hport, Wbram.handleop_release hcyc hstb hn]
  rfl

/-- **A word call takes three edges**, in which the memory performs the one operation that it performs
on the adapter's request. -/
theorem transport_served {fuel : Nat} (hfuel : 3 ≤ fuel) (hs : s.Quiet memSize)
    (hc : WordCall memSize c) {ram' : Wbram} {op : Op}
    (hram : ({ s.ram with ackO := false } : Wbram).handleop unset
      ((s.port.adapter.load c.trans).issue c.host c.trans.command).out = .ok (ram', some op))
    (hack : ram'.ackO = true) (hn : ram'.nTran = true) :
    ∃ port answer, s.transport unset fuel c
        = some (⟨port, { ram' with ackO := false, nTran := false }⟩, answer, [op]) ∧
      answer.responseStatus = .ok ∧ port.AtRest ∧ port.adapter.timeout = 1000 ∧
      port.host = if c.trans.command = .write then c.host
        else storeWord c.host c.trans.dataPtr ram'.datO := by
  obtain ⟨k, rfl⟩ : ∃ k, fuel = k + 3 := ⟨fuel - 3, by omega⟩
  have hwid : (s.port.adapter.load c.trans).wid = (s.port.adapter.load c.trans).len :=
    Tlm2wb.wid_load _ (hc.streamingWidth.imp_left fun h => h.trans hc.dataLength.symm)
  -- the adapter after the first edge; the counter `elapsed` goes from 0 to 2
  let issued := (s.port.adapter.load c.trans).issue c.host c.trans.command
  have ht : issued.timeout = 1000 := hs.timeout
  have hserve : Wired.edge unset ⟨⟨issued, c.host, some c.trans⟩, { s.ram with ackO := false }⟩
      = .ok (⟨⟨{ issued with elapsed := 0 + 1 }, c.host, some c.trans⟩, ram'⟩, none, [op]) :=
    edge_serve rfl (show (0 : BitVec 32) + 1 < issued.timeout by rw [ht]; decide) rfl hram
  have hreturn : Wired.edge unset ⟨⟨{ issued with elapsed := 0 + 1 }, c.host, some c.trans⟩, ram'⟩ = _ :=
    edge_return rfl (show (0 : BitVec 32) + 1 + 1 < issued.timeout by rw [ht]; decide) rfl hwid hack hn
      rfl rfl
  have hissue := edge_issue unset hs c
  have hrun : Wired.untilReturn unset (k + 3) ⟨s.port.begun c, s.ram⟩ = _ :=
    untilReturn_pending hissue
  rw [untilReturn_pending hserve, untilReturn_returned hreturn] at hrun
  rw [Wired.transport, Port.call_ok _ hc.command]
  refine ⟨_, _, hrun, rfl, ⟨rfl, rfl, rfl, rfl⟩, hs.timeout, ?_⟩
  simp [issued, Tlm2wb.issue, Tlm2wb.load]

theorem wordOf_lt (hc : WordCall memSize c) : wordOf c < memSize := by
  have hinside := BitVec.lt_def.mp hc.inside
  have hlt := memSize.isLt
  rw [BitVec.toNat_setWidth] at hinside
  rw [BitVec.lt_def, wordOf, BitVec.toNat_setWidth]
  omega

theorem not_wordOf_gt (hc : WordCall memSize c) : ¬ wordOf c > memSize :=
  BitVec.not_lt.mpr (BitVec.le_of_lt (wordOf_lt hc))

/-- The next state of both sides is quiet again. -/
theorem quiet_served {port : Port 32} {ram' : Wbram} (hport : port.AtRest)
    (ht : port.adapter.timeout = 1000) (hsize : ram'.memSize = memSize) :
    Wired.Quiet memSize ⟨port, { ram' with ackO := false, nTran := false }⟩ :=
  ⟨hport, ht, rfl, hsize⟩

/-- **A write call**: one write, of the enabled bytes of the addressed word. -/
theorem transport_write {fuel : Nat} (hfuel : 3 ≤ fuel) (unset : BitVec 32) (hs : s.Quiet memSize)
    (hc : WordCall memSize c) (hcmd : c.trans.command = .write) :
    ∃ s' answer, s.transport unset fuel c = some (s', answer, [⟨true, wordOf c⟩]) ∧
      answer.responseStatus = .ok ∧ s'.Quiet memSize ∧
      s'.ram.dbWrOps = s.ram.dbWrOps + 1 ∧ s'.ram.dbRdOps = s.ram.dbRdOps ∧
      ∀ w, s'.ram.wordAt unset w = if wordOf c = w then
          Wbram.merge (s.ram.wordAt unset w) (datOut c.host c.trans.dataPtr)
            (selOut c.host c.trans.byteEnablePtr)
        else s.ram.wordAt unset w := by
  let out := ((s.port.adapter.load c.trans).issue c.host c.trans.command).out
  have hout : out = ⟨wordOf c, datOut c.host c.trans.dataPtr, true,
      selOut c.host c.trans.byteEnablePtr, true, true⟩ := by
    simp [out, Tlm2wb.issue, Tlm2wb.load, hcmd, wordOf]
  have hram := Wbram.handleop_write unset (r := { s.ram with ackO := false }) (m := out)
    (by rw [hout]) (by rw [hout]) hs.nTran (by rw [hout])
    (by rw [hout]; exact hs.memSize ▸ not_wordOf_gt hc)
  obtain ⟨port, answer, hrun, hok, hrest, ht, -⟩ := transport_served hfuel hs hc hram rfl rfl
  rw [hout] at hrun
  refine ⟨_, answer, hrun, hok, quiet_served hrest ht hs.memSize, rfl, rfl, fun w => ?_⟩
  simp only [Wbram.wordAt, Std.ExtTreeMap.getD_insert, Std.compare_eq_iff_eq]
  split
  · next h => rw [h]
  · rfl

/-- **A read call**: one read, of the addressed word, into the caller's buffer. -/
theorem transport_read {fuel : Nat} (hfuel : 3 ≤ fuel) (unset : BitVec 32) (hs : s.Quiet memSize)
    (hc : WordCall memSize c) (hcmd : c.trans.command = .read) :
    ∃ s' answer, s.transport unset fuel c = some (s', answer, [⟨false, wordOf c⟩]) ∧
      answer.responseStatus = .ok ∧ s'.Quiet memSize ∧
      s'.ram.dbWrOps = s.ram.dbWrOps ∧ s'.ram.dbRdOps = s.ram.dbRdOps + 1 ∧
      s'.ram.memory = s.ram.memory ∧
      s'.port.host = storeWord c.host c.trans.dataPtr (s.ram.wordAt unset (wordOf c)) := by
  let out := ((s.port.adapter.load c.trans).issue c.host c.trans.command).out
  have hout : out = ⟨wordOf c, s.port.adapter.out.datO, false, 0, true, true⟩ := by
    simp [out, Tlm2wb.issue, Tlm2wb.load, hcmd, wordOf]
  have hram := Wbram.handleop_read unset (r := { s.ram with ackO := false }) (m := out)
    (by rw [hout]) (by rw [hout]) hs.nTran (by rw [hout])
    (by rw [hout]; exact hs.memSize ▸ not_wordOf_gt hc)
  obtain ⟨port, answer, hrun, hok, hrest, ht, hhost⟩ := transport_served hfuel hs hc hram rfl rfl
  rw [hout] at hrun hhost
  refine ⟨_, answer, hrun, hok, quiet_served hrest ht hs.memSize, rfl, rfl, rfl, ?_⟩
  rw [hhost, if_neg (by simp [hcmd])]
  rfl

/-- Idle edges change nothing that matters. -/
theorem idle_quiet (unset : BitVec 32) (hs : s.Quiet memSize) (n : Nat) :
    ∃ s', s.idle unset n = some s' ∧ s'.Quiet memSize ∧ s'.ram.memory = s.ram.memory := by
  induction n generalizing s with
  | zero => exact ⟨s, rfl, hs, rfl⟩
  | succ n ih =>
    have hport : s.port.edge ⟨s.ram.ackO, s.ram.datO⟩ = .ok (s.port, none) := by
      simp only [Port.edge, wishboneHandler_idle hs.port.state]
    have hedge : s.edge unset = .ok (⟨s.port, { s.ram with ackO := false }⟩, none, []) := by
      simp only [Wired.edge, hport, Wbram.handleop_idle hs.port.stb]
      rfl
    obtain ⟨s', hidle, hs', hmem⟩ := ih (s := ⟨s.port, { s.ram with ackO := false }⟩)
      ⟨hs.port, hs.timeout, hs.nTran, hs.memSize⟩
    refine ⟨s', ?_, hs', hmem⟩
    simp only [Wired.idle, hedge, hidle]

/-- **Step lemma**: a word call patches the abstract memory. -/
theorem transport_holds {fuel : Nat} (hfuel : 3 ≤ fuel) (hs : s.Quiet memSize)
    (hc : WordCall memSize c) {img : BitVec 32 × Fin 4 → BitVec 8} (himg : HoldsBytes unset s.ram img) :
    ∃ s' answer ops, s.transport unset fuel c = some (s', answer, ops) ∧ s'.Quiet memSize ∧
      HoldsBytes unset s'.ram ((bytePatch c).apply img) := by
  cases hcmd : c.trans.command with
  | write =>
    obtain ⟨s', answer, hrun, -, hs', -, -, hword⟩ := transport_write hfuel unset hs hc hcmd
    refine ⟨s', answer, _, hrun, hs', fun w j => ?_⟩
    rw [hword w]
    simp only [Patch.apply, bytePatch, hcmd, true_and]
    by_cases hw : w = wordOf c
    -- the addressed word changes where the call enables it
    · subst hw
      rw [if_pos rfl, byteOf_merge, himg (wordOf c) j]
      cases enabled c j <;> simp
    · rw [if_neg (Ne.symm hw), himg w j]
      simp [hw]
  | read =>
    obtain ⟨s', answer, hrun, -, hs', -, -, hmem, -⟩ := transport_read hfuel unset hs hc hcmd
    refine ⟨s', answer, _, hrun, hs', fun w j => ?_⟩
    simp only [Wbram.wordAt, hmem, Patch.apply, bytePatch, hcmd, reduceCtorEq, false_and, if_false,
      Option.getD_none]
    exact himg w j
  | ignore => exact absurd hcmd hc.command

/-- **Run lemma**: after any word calls the memory holds the abstract one, patched by all of them. -/
theorem session_holds {fuel : Nat} (hfuel : 3 ≤ fuel) (hs : s.Quiet memSize)
    {hist : List (Nat × Call)} (hhist : ∀ e ∈ hist, WordCall memSize e.2)
    {img : BitVec 32 × Fin 4 → BitVec 8} (himg : HoldsBytes unset s.ram img) :
    ∃ s', s.session unset fuel hist = some s' ∧ s'.Quiet memSize ∧
      HoldsBytes unset s'.ram (Patch.replay img (hist.map (bytePatch ·.2))) := by
  induction hist generalizing s img with
  | nil => exact ⟨s, rfl, hs, himg⟩
  | cons e rest ih =>
    obtain ⟨n, c⟩ := e
    obtain ⟨s₁, hidle, hs₁, hmem⟩ := idle_quiet unset hs n
    have himg₁ : HoldsBytes unset s₁.ram img := by
      intro w j
      rw [Wbram.wordAt, hmem]
      exact himg w j
    obtain ⟨s₂, answer, ops, hrun, hs₂, himg₂⟩ :=
      transport_holds hfuel hs₁ (hhist (n, c) (by simp)) himg₁
    obtain ⟨s', hsession, hs', himg'⟩ := ih hs₂ (fun e he => hhist e (by simp [he])) himg₂
    refine ⟨s', ?_, hs', himg'⟩
    rw [Wired.session, hidle, Option.bind_some, hrun, Option.bind_some]
    exact hsession

end Edges

/-! ## The word memory -/

theorem quiet_init (memSize : BitVec 32) : (Wired.init memSize).Quiet memSize :=
  ⟨Port.atRest_init _, rfl, rfl, rfl⟩

/-- **`TLM2WB` and `WBRAM` together are a byte-enabled word memory.** From any quiet state, after any
word calls and any number of idle edges, the next word call returns with an OK response, and the
memory performs exactly one operation for it, of its kind and at its word. A read puts in each buffer
position the byte that the latest write enabled for that position of the word, or the initial one; a
write changes no other word. -/
theorem wbram_wordMemory (unset memSize : BitVec 32) {fuel : Nat} (hfuel : 3 ≤ fuel) (s₀ : Wired)
    (hs₀ : s₀.Quiet memSize) (hist : List (Nat × Call)) (hhist : ∀ e ∈ hist, WordCall memSize e.2)
    (idle : Nat) (c : Call) (hc : WordCall memSize c) :
    ∃ before after answer,
      (s₀.session unset fuel hist).bind (·.idle unset idle) = some before ∧
      before.transport unset fuel c
        = some (after, answer, [⟨decide (c.trans.command = .write), wordOf c⟩]) ∧
      answer.responseStatus = .ok ∧
      (c.trans.command = .write →
        after.ram.dbWrOps = before.ram.dbWrOps + 1 ∧ after.ram.dbRdOps = before.ram.dbRdOps ∧
        ∀ w, w ≠ wordOf c → after.ram.wordAt unset w = before.ram.wordAt unset w) ∧
      (c.trans.command = .read →
        after.ram.dbRdOps = before.ram.dbRdOps + 1 ∧ after.ram.dbWrOps = before.ram.dbWrOps ∧
        (∀ w, after.ram.wordAt unset w = before.ram.wordAt unset w) ∧
        ∀ j : Fin 4, after.port.host (c.trans.dataPtr + j)
          = (Patch.latest (hist.map (bytePatch ·.2)) (wordOf c, j)).getD
              (byteOf (s₀.ram.wordAt unset (wordOf c)) j)) := by
  obtain ⟨s, hsession, hs, himg⟩ := session_holds hfuel hs₀ hhist
    (show HoldsBytes unset s₀.ram fun k => byteOf (s₀.ram.wordAt unset k.1) k.2 from fun _ _ => rfl)
  obtain ⟨before, hidle, hbefore, hmem⟩ := idle_quiet unset hs idle
  have hrun : (s₀.session unset fuel hist).bind (·.idle unset idle) = some before := by
    rw [hsession, Option.bind_some, hidle]
  cases hcmd : c.trans.command with
  | write =>
    obtain ⟨after, answer, hcall, hok, -, hwr, hrd, hword⟩ := transport_write hfuel unset hbefore hc hcmd
    refine ⟨before, after, answer, hrun, hcall, hok, fun _ => ⟨hwr, hrd, fun w hw => ?_⟩,
      fun hread => absurd hread (by decide)⟩
    rw [hword w, if_neg (Ne.symm hw)]
  | read =>
    obtain ⟨after, answer, hcall, hok, -, hwr, hrd, hsame, hhost⟩ :=
      transport_read hfuel unset hbefore hc hcmd
    refine ⟨before, after, answer, hrun, hcall, hok, fun hwrite => absurd hwrite (by decide),
      fun _ => ⟨hrd, hwr, fun w => ?_, fun j => ?_⟩⟩
    · rw [Wbram.wordAt, hsame]
      rfl
    · rw [hhost, storeWord_byte, Wbram.wordAt, hmem]
      exact (himg (wordOf c) j).trans (Patch.replay_eq _ _ _)
  | ignore => exact absurd hcmd hc.command

/-- A call on word 0, with four data bytes at address 0 and four enable bytes behind them. -/
def callZero (command : Command) (byt : Option Nat) (bytes : List (BitVec 8)) : Call where
  trans := ⟨command, 0, 0, 4, byt, 0, false, .incomplete⟩
  host := fun x => bytes.getD x 0

theorem callZero_wordCall {command : Command} (h : command ≠ .ignore) (byt : Option Nat)
    (bytes : List (BitVec 8)) : WordCall 0x100 (callZero command byt bytes) :=
  ⟨h, rfl, .inr rfl, by simp [callZero]⟩

/-- A word is cleared, its outer bytes are written, and it is read back. -/
theorem wbram_wordMemory_outer_bytes :
    ∃ before after answer,
      ((Wired.init 0x100).session 0 3
        [(0, callZero .write none [0, 0, 0, 0]),
          (2, callZero .write (some 4) [0xfe, 0xca, 0xbe, 0xba, 0xff, 0, 0, 0xff])]).bind (·.idle 0 1)
        = some before ∧
      before.transport 0 3 (callZero .read none []) = some (after, answer, [⟨false, 0⟩]) ∧
      (List.range 4).map after.port.host = [0xfe, 0, 0, 0xba] := by
  obtain ⟨before, after, answer, hrun, hcall, -, -, hread⟩ := wbram_wordMemory 0 0x100
    (Nat.le_refl 3) (Wired.init 0x100) (quiet_init _)
    [(0, callZero .write none [0, 0, 0, 0]),
      (2, callZero .write (some 4) [0xfe, 0xca, 0xbe, 0xba, 0xff, 0, 0, 0xff])]
    (by simpa using ⟨callZero_wordCall (by decide) _ _, callZero_wordCall (by decide) _ _⟩)
    1 (callZero .read none []) (callZero_wordCall (by decide) _ _)
  obtain ⟨-, -, -, hbytes⟩ := hread rfl
  refine ⟨before, after, answer, hrun, hcall, ?_⟩
  have h0 := hbytes 0
  have h1 := hbytes 1
  have h2 := hbytes 2
  have h3 := hbytes 3
  exact List.cons_eq_cons.mpr ⟨h0, List.cons_eq_cons.mpr ⟨h1, List.cons_eq_cons.mpr ⟨h2,
    List.cons_eq_cons.mpr ⟨h3, rfl⟩⟩⟩⟩

end DeltaModels.Tlm
