import DeltaModels.Library.Mealy
import DeltaModels.Library.OrdMap
import Mathlib.Data.BitVec

/-!
# The quad-SPI flash: state and clock handler

`N25QX<IF_WIDTH>` answers one command, the quad read `0xeb`. `flashHandler` is run on both edges of
the clock. The rising edges walk through five phases that share one counter; the falling edges
repeat the response nibble and write it to the log.

The image is kept in a map from half-byte addresses to half-bytes, filled by `configureRegion`.
The members `cmd`, `cnt` and `addr` are not initialised: a fresh model has arbitrary values in
them (`State.fresh`).
-/

namespace DeltaModels.Flash

variable {IF_WIDTH : Nat}

/-- `PHASE_T`. -/
inductive PhaseT where
  | idlePhase | cmdPhase | quadReadAddrPhase | quadReadDummyPhase | quadReadRespPhase
  deriving DecidableEq, Repr

/-- The mutable members of the module. -/
structure State where
  phase : PhaseT
  cmd : BitVec 8
  cnt : BitVec 32
  addr : BitVec 32
  confMemory : OrdMap (BitVec 32) (BitVec 8)
  idx : BitVec 32
  word : BitVec 8

/-- A constructed model: whatever the constructor leaves uninitialised, and no image. -/
def State.fresh (cmd : BitVec 8) (cnt addr : BitVec 32) : State where
  phase := .idlePhase
  cmd := cmd
  cnt := cnt
  addr := addr
  confMemory := ∅
  idx := 0
  word := 0

/-- A clock edge; the handler reads the other pins only on rising ones. -/
inductive Edge (IF_WIDTH : Nat) where
  | rise (csN : BitVec 1) (dq : BitVec IF_WIDTH)
  | fall
  deriving DecidableEq, Repr

/-- The line written to the log in the response phase, without its time stamp. -/
structure LogLine where
  addr : BitVec 32
  idx : BitVec 32
  word : BitVec 8
  deriving DecidableEq, Repr

/-- What an edge shows outside: the value driven on `dq` and the log line written. -/
structure Effect (IF_WIDTH : Nat) where
  dq : Option (BitVec IF_WIDTH) := none
  log : Option LogLine := none
  deriving DecidableEq, Repr

/-- `CMD_QUAD_READ`, the one supported command. -/
def CMD_QUAD_READ : BitVec 8 := 0xeb

/-- `(uint8_t) dq.read().get_bit(0)`. -/
def bit0 (dq : BitVec IF_WIDTH) : BitVec 8 := (BitVec.ofBool (dq.getLsbD 0)).setWidth 8

/-- `N25QX::flash_handler`. -/
def flashHandler (dummyCycles : BitVec 32) (s : State) : Edge IF_WIDTH → State × Effect IF_WIDTH
  | .rise csN dq =>
    match s.phase with
    | .idlePhase =>
      if csN = 0 then ({ s with cnt := 1, phase := .cmdPhase, cmd := bit0 dq }, {}) else (s, {})
    | .cmdPhase =>
      if s.cnt < 8 then ({ s with cnt := s.cnt + 1, cmd := bit0 dq ||| (s.cmd <<< 1) }, {})
      else if s.cmd = CMD_QUAD_READ then
        ({ s with phase := .quadReadAddrPhase, cnt := 1, addr := dq.setWidth 32 }, {})
      else ({ s with cnt := s.cnt + 1 }, {})
    | .quadReadAddrPhase =>
      if s.cnt < BitVec.ofNat 32 (24 / IF_WIDTH) then
        ({ s with cnt := s.cnt + 1, addr := (s.addr <<< IF_WIDTH) ||| dq.setWidth 32 }, {})
      else ({ s with cnt := 2, phase := .quadReadDummyPhase }, { dq := some 0 })
    | .quadReadDummyPhase =>
      if s.cnt + 1 ≥ dummyCycles then
        ({ s with phase := .quadReadRespPhase, cnt := 0, idx := 0, word := 0 }, { dq := some 0 })
      else ({ s with cnt := s.cnt + 1 }, { dq := some 0 })
    | .quadReadRespPhase =>
      if csN = 0 then
        let idx := s.addr * 2 + s.cnt
        let word := s.confMemory.read idx
        ({ s with idx := idx, word := word, cnt := s.cnt + 1, confMemory := s.confMemory.subscript idx },
          { dq := some (word.setWidth IF_WIDTH) })
      else ({ s with phase := .idlePhase }, {})
  | .fall =>
    if s.phase = .quadReadRespPhase then
      (s, { dq := some (s.word.setWidth IF_WIDTH), log := some ⟨s.addr + s.cnt / 2, s.idx, s.word⟩ })
    else (s, {})

/-- The flash as a machine on clock edges. -/
def flash (IF_WIDTH : Nat) (dummyCycles : BitVec 32) :
    Mealy (Edge IF_WIDTH) State (Effect IF_WIDTH) where
  step := flashHandler dummyCycles

/-- The falling edge changes no member. -/
@[simp] theorem flashHandler_fall_fst (dummyCycles : BitVec 32) (s : State) :
    (flashHandler dummyCycles s (.fall : Edge IF_WIDTH)).1 = s := by
  simp only [flashHandler]
  split <;> rfl

/-! ## The image -/

/-- The loading loop: each byte is split into its two half-bytes, the high one first. -/
def loadBytes (mem : OrdMap (BitVec 32) (BitVec 8)) (address : BitVec 32) :
    List (BitVec 8) → OrdMap (BitVec 32) (BitVec 8)
  | [] => mem
  | b :: bs =>
    loadBytes ((mem.insert address ((b >>> 4) &&& 0xf)).insert (address + 1) (b &&& 0xf))
      (address + 2) bs

/-- `N25QX::configure_region` on the contents of the file, `none` if it cannot be opened. The length
is kept in an `int`; `new char[length]` throws when that is negative, and then there is no result. -/
def configureRegion (s : State) (confFile : Option (List (BitVec 8))) (confAddr : BitVec 32) :
    Option State :=
  match confFile with
  | none => some s
  | some bytes =>
    let length := (BitVec.ofNat 32 bytes.length).toInt
    if length < 0 then none
    else some { s with confMemory := loadBytes s.confMemory (confAddr <<< 1) (bytes.take length.toNat) }

/-- One `configure_region` call. -/
structure Region where
  confFile : Option (List (BitVec 8))
  confAddr : BitVec 32

/-- A sequence of `configure_region` calls, given up at the first one that throws. -/
def configure (s : State) : List Region → Option State
  | [] => some s
  | r :: rs => (configureRegion s r.confFile r.confAddr).bind fun s => configure s rs

end DeltaModels.Flash
