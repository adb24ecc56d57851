import DeltaModels.Library.Lanes
import DeltaModels.Library.OrdMap
import DeltaModels.SystemC
import DeltaModels.Wishbone.Bus

/-!
# `WBRAM`

A memory behind a 32-bit Wishbone bus. `handleop` runs at every rising edge; it serves a request at
the first edge that shows it and spends the next edge waiting for the master to withdraw it
(`n_tran`).

A word that was never written reads as whatever `set_bit(i, 'X')` makes of a bit vector: one fixed
word, a parameter `unset` here.
-/

namespace DeltaModels.Wishbone

/-- The members of `WBRAM<32>` and the signals it drives. -/
structure Wbram where
  memory : OrdMap (BitVec 32) (BitVec 32)
  word : BitVec 32
  nTran : Bool
  memSize : BitVec 32
  dbWrOps : Nat
  dbRdOps : Nat
  ackO : Bool
  datO : BitVec 32

/-- An operation that `handleop` performs. -/
structure Op where
  write : Bool
  address : BitVec 32
  deriving DecidableEq, Repr

namespace Wbram

/-- The memory after construction. -/
def init (memSize : BitVec 32) : Wbram := ⟨∅, 0, false, memSize, 0, 0, false, 0⟩

def outOfBound : Fault := .report "TLM-ROUTER" "Out of bound access to WBRAM"

variable (unset : BitVec 32) (r : Wbram)

/-- The word at an address, written or not. -/
def wordAt (address : BitVec 32) : BitVec 32 := r.memory.getD address unset

/-- `retrieve_word`. -/
def retrieveWord (address : BitVec 32) : Except Fault (BitVec 32) :=
  if address > r.memSize then .error outOfBound else .ok (r.wordAt unset address)

/-- The lanes of `value` that `sel` selects, the others from `w`. -/
def merge (w value : BitVec 32) (sel : BitVec 4) : BitVec 32 :=
  Lanes.pack fun i => if sel.getLsbD i then Lanes.lane value i else Lanes.lane w i

/-- `set_word`. -/
def setWord (address value : BitVec 32) (sel : BitVec 4) : Except Fault (BitVec 32) :=
  if address > r.memSize then .error outOfBound
  else do
    let w ← r.retrieveWord unset address
    return merge w value sel

/-- `WBRAM::handleop`. -/
def handleop (m : Master 32) : Except Fault (Wbram × Option Op) :=
  let r := { r with ackO := false }
  if m.cycO && m.stbO then
    if !r.nTran then
      if m.weO then do
        let word ← r.setWord unset m.adrO m.datO m.selO
        return ({ r with
          word := word
          dbWrOps := r.dbWrOps + 1
          memory := r.memory.insert m.adrO word
          nTran := true
          ackO := true
          datO := word }, some ⟨true, m.adrO⟩)
      else do
        let word ← r.retrieveWord unset m.adrO
        return ({ r with
          word := word
          dbRdOps := r.dbRdOps + 1
          nTran := true
          ackO := true
          datO := word }, some ⟨false, m.adrO⟩)
    -- the request that was served at the edge before
    else .ok ({ r with nTran := false }, none)
  else .ok (r, none)

variable {unset r} {m : Master 32}

theorem handleop_idle (h : m.stbO = false) : r.handleop unset m = .ok ({ r with ackO := false }, none) := by
  simp only [handleop, h, Bool.and_false, Bool.false_eq_true, if_false]

theorem handleop_release (hc : m.cycO = true) (hs : m.stbO = true) (hn : r.nTran = true) :
    r.handleop unset m = .ok ({ r with ackO := false, nTran := false }, none) := by
  simp only [handleop, hc, hs, hn, Bool.and_self, if_true, Bool.not_true, Bool.false_eq_true, if_false]

theorem handleop_write (unset : BitVec 32) (hc : m.cycO = true) (hs : m.stbO = true) (hn : r.nTran = false)
    (hw : m.weO = true) (hsize : ¬ m.adrO > r.memSize) :
    r.handleop unset m = .ok ({ r with
      word := merge (r.wordAt unset m.adrO) m.datO m.selO
      dbWrOps := r.dbWrOps + 1
      memory := r.memory.insert m.adrO (merge (r.wordAt unset m.adrO) m.datO m.selO)
      nTran := true
      ackO := true
      datO := merge (r.wordAt unset m.adrO) m.datO m.selO }, some ⟨true, m.adrO⟩) := by
  simp only [handleop, hc, hs, hn, hw, Bool.and_self, if_true, Bool.not_false, setWord, retrieveWord,
    if_neg hsize]
  rfl

theorem handleop_read (unset : BitVec 32) (hc : m.cycO = true) (hs : m.stbO = true) (hn : r.nTran = false)
    (hw : m.weO = false) (hsize : ¬ m.adrO > r.memSize) :
    r.handleop unset m = .ok ({ r with
      word := r.wordAt unset m.adrO
      dbRdOps := r.dbRdOps + 1
      nTran := true
      ackO := true
      datO := r.wordAt unset m.adrO }, some ⟨false, m.adrO⟩) := by
  simp only [handleop, hc, hs, hn, hw, Bool.and_self, if_true, Bool.not_false, retrieveWord,
    if_neg hsize, Bool.false_eq_true, if_false]
  rfl

theorem handleop_refuse (unset : BitVec 32) (hc : m.cycO = true) (hs : m.stbO = true)
    (hn : r.nTran = false) (hsize : m.adrO > r.memSize) : r.handleop unset m = .error outOfBound := by
  cases hw : m.weO <;>
    simp only [handleop, hc, hs, hn, hw, Bool.and_self, if_true, Bool.not_false, setWord, retrieveWord,
      if_pos hsize, Bool.false_eq_true, if_false] <;> rfl

end Wbram

end DeltaModels.Wishbone
