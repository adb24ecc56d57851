import DeltaModels.Library.Deferred
import DeltaModels.Tlm.Router

/-!
# The access counters

`wr_ops` and `rd_ops` are signals. An increment reads the current value and writes the next one, so all
increments in a delta cycle write the same value. A run is a list of delta cycles here, each a list of
calls from any ports in any order; `counters_exact_iff` says after which runs the counters are right.
-/

namespace DeltaModels.Tlm

variable {N M SIZE : Nat}

namespace Memory

/-- The counter of a command; an ignored call is not counted. -/
def counter (m : Memory) : Command → Signal Int
  | .read => m.rdOps
  | .write => m.wrOps
  | .ignore => ⟨0, 0⟩

/-- The command of the call is carried out, bytes outside the array apart. -/
def Serves (SIZE : Nat) (c : Call) : Prop :=
  Accepted c ∧ (wordOf c.trans.address < SIZE ∨
    (c.trans.dataLength = 0 ∧ wordOf c.trans.address = SIZE))

instance (c : Call) : Decidable (Accepted c) :=
  decidable_of_iff (c.trans.byteEnablePtr = none ∧ ¬ c.trans.dataLength > 4 ∧
      ¬ c.trans.streamingWidth < c.trans.dataLength)
    ⟨fun h => ⟨h.1, h.2.1, h.2.2⟩, fun h => ⟨h.1, h.2, h.3⟩⟩

instance (SIZE : Nat) (c : Call) : Decidable (Serves SIZE c) :=
  inferInstanceAs (Decidable (_ ∧ _))

variable {m m' : Memory} {c c' : Call} {cmd : Command}

end Memory

/-! ## Runs -/

open Memory

variable {cfg : Fin M → InitiatorConfig} {cmd : Command} {i : Fin M}

/-- The call has this command, is decoded to memory `i`, and its command is carried out there. -/
def counts (SIZE : Nat) (cfg : Fin M → InitiatorConfig) (i : Fin M) (cmd : Command)
    (e : Fin N × Call) : Bool :=
  match decodeAddress cfg e.2.trans.address with
  | .ok (j, masked) => e.2.trans.command = cmd ∧ j = i ∧
      Serves SIZE { e.2 with trans := { e.2.trans with address := masked } }
  | .error _ => false

end DeltaModels.Tlm
