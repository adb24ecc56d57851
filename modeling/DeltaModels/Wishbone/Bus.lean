import Mathlib.Data.BitVec

/-!
# The Wishbone signals

What the two sides of a classic Wishbone bus drive, with a 32-bit data bus and a select line for each
byte lane.
-/

namespace DeltaModels.Wishbone

variable {AWIDTH : Nat}

/-- What a master drives. -/
structure Master (AWIDTH : Nat) where
  adrO : BitVec AWIDTH
  datO : BitVec 32
  weO : Bool
  selO : BitVec 4
  stbO : Bool
  cycO : Bool
  deriving DecidableEq, Repr

/-- What a slave drives. -/
structure Slave where
  ackI : Bool
  datI : BitVec 32
  deriving DecidableEq, Repr

/-- A request as the bus shows it. -/
structure Request (AWIDTH : Nat) where
  adrO : BitVec AWIDTH
  weO : Bool
  datO : BitVec 32
  selO : BitVec 4
  deriving DecidableEq, Repr

def Master.request (m : Master AWIDTH) : Request AWIDTH := ⟨m.adrO, m.weO, m.datO, m.selO⟩

/-- The request that a rising strobe issues. -/
def issued (before after : Master AWIDTH) : List (Request AWIDTH) :=
  if before.stbO = false ∧ after.stbO = true then [after.request] else []

theorem issued_of_stb {before after : Master AWIDTH} (h : before.stbO = true) :
    issued before after = [] := by
  simp [issued, h]

end DeltaModels.Wishbone
