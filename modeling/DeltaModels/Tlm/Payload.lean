import DeltaModels.Library.Patch
import DeltaModels.SystemC
import Mathlib.Data.BitVec

/-!
# Generic payloads

The part of `tlm_generic_payload` that the blocks of this repository read and write. The data and
byte-enable pointers point into the memory of the initiators, which is part of every call.
-/

namespace DeltaModels.Tlm

/-- `tlm_command`. -/
inductive Command where
  | read | write | ignore
  deriving DecidableEq, Repr

/-- `tlm_response_status`. -/
inductive ResponseStatus where
  | ok | incomplete | genericError | addressError | commandError | burstError | byteEnableError
  deriving DecidableEq, Repr

/-- The memory that the initiators' pointers point into. -/
abbrev Host := Nat → BitVec 8

/-- `tlm_generic_payload`; a null byte-enable pointer is `none`. -/
structure Payload where
  command : Command
  address : BitVec 64
  dataPtr : Nat
  dataLength : BitVec 32
  byteEnablePtr : Option Nat
  streamingWidth : BitVec 32
  dmiAllowed : Bool := false
  responseStatus : ResponseStatus := .incomplete
  deriving DecidableEq, Repr

/-- What a `b_transport` call passes by reference: the payload, the annotated delay in nanoseconds,
and the memory behind the payload's pointers. -/
structure Call where
  trans : Payload
  delay : Nat := 0
  host : Host

def Call.setResponseStatus (c : Call) (status : ResponseStatus) : Call :=
  { c with trans := { c.trans with responseStatus := status } }

/-- `hex << address`. -/
def hex (address : BitVec 64) : String := String.ofList (Nat.toDigits 16 address.toNat)

end DeltaModels.Tlm
