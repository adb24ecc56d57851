import DeltaModels.Tlm.Payload

/-!
# `TLM_ROM`

The test of a call looks at its first byte only, and after it every command that does not throw ends
with the answer OK: a write that is only logged, and an ignored call, too. `bTransport_answers_iff` says
which calls are answered as they should be.

`SC_REPORT_ERROR` throws unless its action was set to log only; `throws` says which. A call that is
left that way keeps the payload that it has then.
-/

namespace DeltaModels.Tlm

/-- `TLM_ROM`. No vector has 2^63 bytes or more. -/
structure TlmRom where
  baseaddr : BitVec 64
  ROM : List (BitVec 8)
  size_lt : ROM.length < 2 ^ 63

namespace TlmRom

/-- What a call leaves: the ROM, the payload and its memory, what was reported, and whether the call
returned. -/
structure Outcome where
  rom : TlmRom
  call : Call
  report : Option Fault := none
  returned : Bool := true

/-- `ROM[i]`. -/
def at? (rom : TlmRom) (i : BitVec 64) : Except Fault (BitVec 8) :=
  match rom.ROM[i.toNat]? with
  | some b => .ok b
  | none => .error .outOfRange

/-- The loop that copies to `ptr`. -/
def copy (rom : TlmRom) (addr : BitVec 64) (ptr len : Nat) (host : Host) : Except Fault Host :=
  (List.range len).foldlM (fun (host : Host) i => do
    let b ← rom.at? (addr + BitVec.ofNat 64 i)
    return (Patch.single (ptr + i) b).apply host) host

/-- The size follows the address, in hexadecimal too. -/
def outsideMemory (rom : TlmRom) (addr : BitVec 64) : Fault :=
  .report "TLM_ROM" ("TLM_ROM: relative address " ++ hex addr ++ " is outside memory [Memory size is "
    ++ hex (BitVec.ofNat 64 rom.ROM.length) ++ "]")

def writeNotAllowed : Fault := .report "TLM_ROM" "TLM_ROM: write not allowed on ROMs"

/-- `TLM_ROM::b_transport`. -/
def bTransport (throws : Bool) (rom : TlmRom) (c : Call) : Except Fault Outcome :=
  let addr := c.trans.address - rom.baseaddr
  let ptr := c.trans.dataPtr
  let len := c.trans.dataLength
  if addr.toNat ≥ rom.ROM.length then
    let report := some (rom.outsideMemory addr)
    if throws then .ok { rom := rom, call := c, report := report, returned := false }
    else .ok { rom := rom, call := c.setResponseStatus .addressError, report := report }
  else
    match c.trans.command with
    | .read => do
      let host ← rom.copy addr ptr len.toNat c.host
      return { rom := rom, call := Call.setResponseStatus { c with host := host } .ok }
    | .write =>
      let c := c.setResponseStatus .addressError
      let report := some writeNotAllowed
      if throws then .ok { rom := rom, call := c, report := report, returned := false }
      -- the status that was set is overwritten
      else .ok { rom := rom, call := c.setResponseStatus .ok, report := report }
    | .ignore => return { rom := rom, call := c.setResponseStatus .ok }

/-! ## The copy -/

variable {throws : Bool} {rom : TlmRom} {c : Call} {addr : BitVec 64}

theorem copy_succ (rom : TlmRom) (addr : BitVec 64) (ptr n : Nat) (host : Host) :
    rom.copy addr ptr (n + 1) host = (rom.copy addr ptr n host).bind fun host =>
      (rom.at? (addr + BitVec.ofNat 64 n)).bind fun b => .ok ((Patch.single (ptr + n) b).apply host) := by
  unfold copy
  rw [List.range_succ, List.foldlM_append]
  congr 1
  funext host
  rw [List.foldlM_cons]
  cases rom.at? (addr + BitVec.ofNat 64 n) <;> rfl

theorem toNat_index (haddr : addr.toNat < rom.ROM.length) {n : Nat} (hn : n < 2 ^ 32) :
    (addr + BitVec.ofNat 64 n).toNat = addr.toNat + n := by
  have hsize := rom.size_lt
  rw [BitVec.toNat_add, BitVec.toNat_ofNat]
  omega

/-- Inside the vector the loop copies what is there. -/
theorem copy_ok (haddr : addr.toNat < rom.ROM.length) (ptr : Nat) {n : Nat} (hn : n < 2 ^ 32)
    (host : Host) (hin : addr.toNat + n ≤ rom.ROM.length) :
    rom.copy addr ptr n host
      = .ok ((Patch.span ptr ((rom.ROM.drop addr.toNat).take n)).apply host) := by
  induction n with
  | zero =>
    rw [List.take_zero, Patch.span_nil, Patch.apply_empty]
    rfl
  | succ n ih =>
    have hlt : addr.toNat + n < rom.ROM.length := by omega
    have hat : rom.at? (addr + BitVec.ofNat 64 n) = .ok rom.ROM[addr.toNat + n] := by
      rw [at?, toNat_index haddr (by omega), List.getElem?_eq_getElem hlt]
    have htake : (rom.ROM.drop addr.toNat).take (n + 1)
        = (rom.ROM.drop addr.toNat).take n ++ [rom.ROM[addr.toNat + n]] := by
      rw [List.take_add_one, List.getElem?_drop, List.getElem?_eq_getElem hlt]
      rfl
    have hlength : ((rom.ROM.drop addr.toNat).take n).length = n := by
      rw [List.length_take, List.length_drop]
      omega
    rw [copy_succ, ih (by omega) (by omega), hat, htake, Patch.span_concat_apply, hlength]
    rfl

/-- Past its end the loop faults. -/
theorem copy_error (haddr : addr.toNat < rom.ROM.length) (ptr : Nat) {n : Nat} (hn : n < 2 ^ 32)
    (host : Host) (hout : rom.ROM.length < addr.toNat + n) :
    rom.copy addr ptr n host = .error .outOfRange := by
  induction n with
  | zero => omega
  | succ n ih =>
    rw [copy_succ]
    by_cases hin : addr.toNat + n ≤ rom.ROM.length
    · have hat : rom.at? (addr + BitVec.ofNat 64 n) = .error .outOfRange := by
        rw [at?, toNat_index haddr (by omega), List.getElem?_eq_none (by omega)]
      rw [copy_ok haddr ptr (by omega) host hin, hat]
      rfl
    · rw [ih (by omega) (by omega)]
      rfl

/-! ## Answers -/

/-- A read that lies in the ROM. -/
structure Within (rom : TlmRom) (c : Call) : Prop where
  command : c.trans.command = .read
  base : rom.baseaddr.toNat ≤ c.trans.address.toNat
  top : (c.trans.address.toNat - rom.baseaddr.toNat) + c.trans.dataLength.toNat ≤ rom.ROM.length

/-- The bytes that such a read asks for. -/
def bytesAt (rom : TlmRom) (c : Call) : List (BitVec 8) :=
  (rom.ROM.drop (c.trans.address.toNat - rom.baseaddr.toNat)).take c.trans.dataLength.toNat

/-- The call touches no byte outside the vector and leaves the ROM as it is. It is answered with OK and
the bytes if it is a read that lies in the ROM, and otherwise with another status and no data. -/
def Answers (throws : Bool) (rom : TlmRom) (c : Call) : Prop :=
  ∃ o, bTransport throws rom c = .ok o ∧ o.rom = rom ∧
    (o.call.trans.responseStatus = .ok ↔ rom.Within c) ∧
    (rom.Within c → o.call.host = (Patch.span c.trans.dataPtr (rom.bytesAt c)).apply c.host) ∧
    (¬ rom.Within c → o.call.host = c.host)

/-- A call whose first byte is in the vector is answered right if it is a read that lies in the ROM, or
a write and reports throw. Any other call must not be an empty read at the end of the ROM. If reports
throw, it keeps the status that it came with, and that one must not be OK unless it is such a read. -/
def Answerable (throws : Bool) (rom : TlmRom) (c : Call) : Prop :=
  if (c.trans.address - rom.baseaddr).toNat < rom.ROM.length then
    rom.Within c ∨ (c.trans.command = .write ∧ throws = true)
  else rom.Within c ↔ throws = true ∧ c.trans.responseStatus = .ok

/-- From the base upward the subtraction does not wrap. -/
theorem toNat_relative (hbase : rom.baseaddr.toNat ≤ c.trans.address.toNat) :
    (c.trans.address - rom.baseaddr).toNat = c.trans.address.toNat - rom.baseaddr.toNat :=
  BitVec.toNat_sub_of_le (BitVec.le_def.mpr hbase)

/-- What has to be seen of a call that left no fault. -/
theorem answers_iff {o : Outcome} (h : bTransport throws rom c = .ok o) (hrom : o.rom = rom) :
    Answers throws rom c ↔ (o.call.trans.responseStatus = .ok ↔ rom.Within c) ∧
      (rom.Within c → o.call.host = (Patch.span c.trans.dataPtr (rom.bytesAt c)).apply c.host) ∧
      (¬ rom.Within c → o.call.host = c.host) := by
  rw [Answers, h]
  constructor
  · rintro ⟨o', ho, -, hanswer⟩
    cases ho
    exact hanswer
  · exact fun hanswer => ⟨o, rfl, hrom, hanswer⟩

/-- If no data were asked for and none moved, the status is all. -/
theorem answers_unmoved {o : Outcome} (h : bTransport throws rom c = .ok o) (hrom : o.rom = rom)
    (hhost : o.call.host = c.host) (hempty : rom.Within c → c.trans.dataLength.toNat = 0) :
    Answers throws rom c ↔ (o.call.trans.responseStatus = .ok ↔ rom.Within c) := by
  rw [answers_iff h hrom, hhost]
  refine and_iff_left ⟨fun hwithin => ?_, fun _ => rfl⟩
  rw [bytesAt, hempty hwithin, List.take_zero, Patch.span_nil, Patch.apply_empty]

/-- A call with its first byte outside the vector. -/
theorem answers_outside (hout : ¬ (c.trans.address - rom.baseaddr).toNat < rom.ROM.length) :
    Answers throws rom c ↔ (rom.Within c ↔ throws = true ∧ c.trans.responseStatus = .ok) := by
  have hempty : rom.Within c → c.trans.dataLength.toNat = 0 := by
    intro hwithin
    have hrelative := toNat_relative hwithin.base
    have htop := hwithin.top
    omega
  have hcall : bTransport throws rom c = .ok
      { rom := rom
        call := if throws then c else c.setResponseStatus .addressError
        report := some (rom.outsideMemory (c.trans.address - rom.baseaddr))
        returned := !throws } := by
    unfold bTransport
    rw [if_pos (Nat.le_of_not_lt hout)]
    cases throws <;> rfl
  rw [answers_unmoved hcall rfl (by cases throws <;> rfl) hempty]
  cases throws with
  | false => simp [Call.setResponseStatus]
  | true =>
    show (c.trans.responseStatus = .ok ↔ rom.Within c) ↔ _
    rw [eq_self, true_and]
    exact iff_comm

/-- A read with its first byte in the vector. -/
theorem answers_read (hin : (c.trans.address - rom.baseaddr).toNat < rom.ROM.length)
    (hcmd : c.trans.command = .read) : Answers throws rom c ↔ rom.Within c := by
  have hlen := c.trans.dataLength.isLt
  have hcall : bTransport throws rom c = (rom.copy (c.trans.address - rom.baseaddr) c.trans.dataPtr
      c.trans.dataLength.toNat c.host).bind fun host =>
        .ok { rom := rom, call := Call.setResponseStatus { c with host := host } .ok } := by
    unfold bTransport
    rw [if_neg (Nat.not_le.mpr hin), hcmd]
    rfl
  by_cases htop : (c.trans.address - rom.baseaddr).toNat + c.trans.dataLength.toNat ≤ rom.ROM.length
  · rw [copy_ok hin c.trans.dataPtr hlen c.host htop] at hcall
    rw [answers_iff hcall rfl]
    constructor
    · exact fun hanswer => hanswer.1.mp rfl
    · intro hwithin
      refine ⟨iff_of_true rfl hwithin, fun _ => ?_, fun hnot => absurd hwithin hnot⟩
      rw [bytesAt, ← toNat_relative hwithin.base]
      rfl
  · rw [copy_error hin c.trans.dataPtr hlen c.host (Nat.lt_of_not_le htop)] at hcall
    refine iff_of_false ?_ fun hwithin => htop ?_
    · rintro ⟨o, ho, -⟩
      rw [hcall] at ho
      cases ho
    · rw [toNat_relative hwithin.base]
      exact hwithin.top

/-- A call with its first byte in the vector. -/
theorem answers_inside (hin : (c.trans.address - rom.baseaddr).toNat < rom.ROM.length) :
    Answers throws rom c ↔ rom.Within c ∨ (c.trans.command = .write ∧ throws = true) := by
  have hnot : ¬ (c.trans.address - rom.baseaddr).toNat ≥ rom.ROM.length := Nat.not_le.mpr hin
  cases hcmd : c.trans.command with
  | read =>
    have hread : ¬ (Command.read = .write ∧ throws = true) := fun h => Command.noConfusion h.1
    rw [answers_read hin hcmd, or_iff_left hread]
  | write =>
    have hwithin : ¬ rom.Within c := fun h => Command.noConfusion (hcmd.symm.trans h.command)
    have hcall : bTransport throws rom c = .ok
        { rom := rom
          call := c.setResponseStatus (if throws then .addressError else .ok)
          report := some writeNotAllowed
          returned := !throws } := by
      unfold bTransport
      rw [if_neg hnot, hcmd]
      cases throws <;> rfl
    rw [answers_unmoved hcall rfl rfl fun h => absurd h hwithin]
    cases throws <;> simp [hwithin, Call.setResponseStatus]
  | ignore =>
    have hwithin : ¬ rom.Within c := fun h => Command.noConfusion (hcmd.symm.trans h.command)
    have hcall : bTransport throws rom c = .ok { rom := rom, call := c.setResponseStatus .ok } := by
      unfold bTransport
      rw [if_neg hnot, hcmd]
      rfl
    rw [answers_unmoved hcall rfl rfl fun h => absurd h hwithin]
    simp [hwithin, Call.setResponseStatus]

/-- **Which calls are answered right.** -/
theorem bTransport_answers_iff (throws : Bool) (rom : TlmRom) (c : Call) :
    Answers throws rom c ↔ Answerable throws rom c := by
  unfold Answerable
  split
  · next hin => exact answers_inside hin
  · next hout => exact answers_outside hout

/-- A ROM of four bytes. -/
def fourBytes : TlmRom := ⟨0x100, [0xca, 0xfe, 0xba, 0xbe], by decide⟩

/-- A call to byte `a`, as an initiator makes it. -/
def callAt (command : Command) (a : BitVec 64) (len : BitVec 32) : Call :=
  ⟨⟨command, a, 0, len, none, len, false, .incomplete⟩, 0, fun _ => 0⟩

/-- A read of the last two bytes and the two behind them indexes the vector past its end. -/
theorem bTransport_overruns :
    ¬ ∀ (throws : Bool) (rom : TlmRom) (c : Call), c.trans.responseStatus = .incomplete →
      Answers throws rom c := by
  intro h
  obtain ⟨o, ho, -⟩ := h true fourBytes (callAt .read 0x102 4) rfl
  have hfault : bTransport true fourBytes (callAt .read 0x102 4) = .error .outOfRange := rfl
  rw [hfault] at ho
  cases ho

/-- A write that is only logged is answered with OK. -/
example : (bTransport false fourBytes (callAt .write 0x100 4)).map (·.call.trans.responseStatus)
    = .ok .ok := rfl

end TlmRom

end DeltaModels.Tlm
