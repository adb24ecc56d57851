import DeltaModels.Library.Mealy
import DeltaModels.Library.OrdMap
import Mathlib.Data.BitVec

/-!
# The simplified SDRAM: state and command handler

`GENERIC_SDRAM<A_SIZE, BA_SIZE>` keeps one word map for the whole device and, for every bank, the
row that the latest ACTIVATE opened. A command selects a bank and a column; together with the
bank's open row they are packed into one word address.

* `handleCmd` is the command handler, one branch for each case label of its `switch`.
* `sdramHandler` is the pin sampler in front of it: it packs the control pins and `A[10]` into a
  command code and casts that code to the enumeration. A code with no case label does nothing.

Everything a command makes visible besides the state is its `Effect`: the word it drives on `dq`,
if any, and the lines it writes to the CSV log (without their time stamps).

`std::map<uint32_t, uint32_t>` is an `OrdMap`, whose `toList` is in key order; `operator[]` is its
`read` and `subscript`.
-/

namespace DeltaModels.Sdram

/-- `SDRAM_GEOM`: how many address bits select the row, the bank and the column. -/
structure SdramGeom where
  rowBits : Nat := 0
  bankBits : Nat := 0
  colBits : Nat := 0
  deriving DecidableEq, Repr

/-- What the constructor fixes. -/
structure Config where
  geometry : SdramGeom
  OFFSET : BitVec 32 := 0x40000000

/-- The mutable members of the module. `bank_addr` indexes `row_addr`, an array of
`1 << BA_SIZE` entries; the last field keeps it inside. -/
structure State (BA_SIZE : Nat) where
  mem : OrdMap (BitVec 32) (BitVec 32)
  readBuf : List (BitVec 32)
  bankAddr : BitVec 32
  colAddr : BitVec 32
  rowAddr : Vector (BitVec 32) (2 ^ BA_SIZE)
  bankAddr_lt : bankAddr.toNat < 2 ^ BA_SIZE

variable {A_SIZE BA_SIZE : Nat}

/-- The members as the constructor leaves them. -/
def State.init : State BA_SIZE where
  mem := ∅
  readBuf := []
  bankAddr := 0
  colAddr := 0
  rowAddr := Vector.replicate _ 0
  bankAddr_lt := Nat.two_pow_pos _

/-! ## Addressing -/

/-- `to_word_address`: row, bank and column side by side, the row in the top bits. -/
def toWordAddress (geometry : SdramGeom) (row bank col : BitVec 32) : BitVec 32 :=
  (row <<< (geometry.bankBits + geometry.colBits)) + (bank <<< geometry.colBits) + col

def toWishbone (cfg : Config) (addr : BitVec 32) : BitVec 32 := (addr <<< 2) + cfg.OFFSET

/-- `update_address`: the word the registers currently point at. -/
def State.updateAddress (cfg : Config) (s : State BA_SIZE) : BitVec 32 :=
  toWordAddress cfg.geometry (s.rowAddr.get ⟨s.bankAddr.toNat, s.bankAddr_lt⟩) s.bankAddr s.colAddr

/-! ## Commands -/

/-- The `switch` labels of `CMD_T`. -/
inductive CmdT where
  | nop0 | nop1 | activate | read | write | precharge | prechargeAll | refresh | loadMemReg
  deriving DecidableEq, Repr

/-- The lines written to the log, one constructor for each format string. -/
inductive LogLine where
  | readReturned (value : BitVec 32)
  | activate
  | readRequested (address value : BitVec 32)
  | write (address value : BitVec 32)
  | precharge
  | prechargeAll
  | refresh
  | loadMemReg
  deriving DecidableEq, Repr

/-- What a step shows outside: the word driven on `dq` and the log lines written. -/
structure Effect where
  dq : Option (BitVec 32) := none
  log : List LogLine := []
  deriving DecidableEq, Repr

/-- The pins that `handle_cmd` reads. -/
structure Bus (A_SIZE BA_SIZE : Nat) where
  a : BitVec A_SIZE
  ba : BitVec BA_SIZE
  dq : BitVec 32 := 0
  dm : BitVec 4 := 0
  deriving DecidableEq, Repr

/-- `ba.read().to_uint()`. -/
def Bus.bank (p : Bus A_SIZE BA_SIZE) : BitVec 32 := p.ba.setWidth 32

theorem Bus.bank_lt (p : Bus A_SIZE BA_SIZE) : p.bank.toNat < 2 ^ BA_SIZE := by
  have h := p.ba.isLt
  simp only [Bus.bank, BitVec.toNat_setWidth]
  exact Nat.lt_of_le_of_lt (Nat.mod_le _ _) h

/-- `a.read().to_uint()`. -/
def Bus.addr (p : Bus A_SIZE BA_SIZE) : BitVec 32 := p.a.setWidth 32

/-- The bytes a WRITE leaves alone, as the loop over `byte_disable` builds them. -/
def byteMask (byteDisable : BitVec 32) : BitVec 32 :=
  (List.range 4).foldl
    (fun mask i => if (byteDisable <<< i) &&& 1#32 ≠ 0 then mask + (0xff#32 <<< (i * 8)) else mask)
    0#32

/-- `bank_addr = ba; col_addr = a`, how READ and WRITE begin. -/
def State.select (s : State BA_SIZE) (p : Bus A_SIZE BA_SIZE) : State BA_SIZE :=
  { s with bankAddr := p.bank, colAddr := p.addr, bankAddr_lt := p.bank_lt }

/-- `bank_addr = ba; row_addr[bank_addr] = row`, how ACTIVATE and PRECHARGE work. -/
def State.openRow (s : State BA_SIZE) (p : Bus A_SIZE BA_SIZE) (row : BitVec 32) : State BA_SIZE :=
  { s with
    bankAddr := p.bank
    rowAddr := s.rowAddr.set p.bank.toNat row p.bank_lt
    bankAddr_lt := p.bank_lt }

/-- `GENERIC_SDRAM::handle_cmd`. -/
def handleCmd (cfg : Config) (s : State BA_SIZE) (cmd : CmdT) (p : Bus A_SIZE BA_SIZE) :
    State BA_SIZE × Effect :=
  match cmd with
  | .nop0 | .nop1 =>
    match s.readBuf.getLast? with
    | some v => ({ s with readBuf := s.readBuf.dropLast }, { dq := some v, log := [.readReturned v] })
    | none => (s, {})
  | .activate => (s.openRow p p.addr, { log := [.activate] })
  | .read =>
    let s := s.select p
    let address := s.updateAddress cfg
    let value := s.mem.read address
    -- the log line evaluates `mem[address]`, which stores a zero under an absent key
    ({ s with readBuf := s.readBuf ++ [value], mem := s.mem.subscript address },
      { log := [.readRequested (toWishbone cfg address) value] })
  | .write =>
    let s := s.select p
    let address := s.updateAddress cfg
    let prevData := s.mem.read address
    let mask := byteMask (p.dm.setWidth 32)
    let data := (p.dq &&& ~~~mask) ||| (prevData &&& mask)
    ({ s with mem := s.mem.insert address data },
      { log := [.write (toWishbone cfg address) data] })
  | .precharge => (s.openRow p 0, { log := [.precharge] })
  | .prechargeAll => ({ s with rowAddr := Vector.replicate _ 0 }, { log := [.prechargeAll] })
  | .refresh => (s, { log := [.refresh] })
  | .loadMemReg => (s, { log := [.loadMemReg] })

/-- A command and the pins it comes with. -/
structure Command (A_SIZE BA_SIZE : Nat) extends Bus A_SIZE BA_SIZE where
  cmd : CmdT
  deriving DecidableEq, Repr

/-- The device at command level: one `handle_cmd` call for each input. -/
def commands (A_SIZE : Nat) {BA_SIZE : Nat} (cfg : Config) :
    Mealy (Command A_SIZE BA_SIZE) (State BA_SIZE) Effect where
  step s c := handleCmd cfg s c.cmd c.toBus

/-! ## Pins -/

/-- One sample of all the input pins. -/
structure Pins (A_SIZE BA_SIZE : Nat) extends Bus A_SIZE BA_SIZE where
  ck : BitVec 1 := 1
  cke : BitVec 1 := 1
  csN : BitVec 1
  rasN : BitVec 1
  casN : BitVec 1
  weN : BitVec 1
  deriving DecidableEq, Repr

/-- The enumerators of `CMD_T`, built from the same summands. -/
def CmdT.code : CmdT → BitVec 8
  | .nop0 => 0x10
  | .nop1 => 0x08 + 0x04 + 0x02
  | .activate => 0x04 + 0x02
  | .read => 0x08 + 0x02
  | .write => 0x08
  | .precharge => 0x04
  | .prechargeAll => 0x04 + 0x01
  | .refresh => 0x02
  | .loadMemReg => 0

/-- The case label that a value of `CMD_T` reaches. The cast `CMD_T{agg}` accepts any byte, and
most bytes reach none. -/
def CmdT.ofCode (agg : BitVec 8) : Option CmdT :=
  [nop0, nop1, activate, read, write, precharge, prechargeAll, refresh, loadMemReg].find?
    (·.code == agg)

/-- The byte that `sdram_handler` packs from the control pins and `A[10]`, which it reads with
`get_bit(10)`: a device has at least eleven address pins. -/
def Pins.agg (p : Pins A_SIZE BA_SIZE) : BitVec 8 :=
  if p.csN = 1 then 0x10
  else (p.rasN.setWidth 8 <<< 3) + (p.casN.setWidth 8 <<< 2) + (p.weN.setWidth 8 <<< 1)
    + (BitVec.ofBool (p.a.getLsbD 10)).setWidth 8

/-- The `switch` of `handle_cmd` entered with any byte: without a case label nothing happens. -/
def dispatch (cfg : Config) (s : State BA_SIZE) (cmd : Option CmdT) (p : Bus A_SIZE BA_SIZE) :
    State BA_SIZE × Effect :=
  match cmd with
  | some cmd => handleCmd cfg s cmd p
  | none => (s, {})

/-- `GENERIC_SDRAM::sdram_handler`. -/
def sdramHandler (cfg : Config) (s : State BA_SIZE) (p : Pins A_SIZE BA_SIZE) :
    State BA_SIZE × Effect :=
  if (p.ck &&& p.cke) = 1 then dispatch cfg s (CmdT.ofCode p.agg) p.toBus
  else (s, {})

/-- The device at pin level: one `sdram_handler` call for each sample. -/
def pins (A_SIZE : Nat) {BA_SIZE : Nat} (cfg : Config) :
    Mealy (Pins A_SIZE BA_SIZE) (State BA_SIZE) Effect where
  step := sdramHandler cfg

end DeltaModels.Sdram
