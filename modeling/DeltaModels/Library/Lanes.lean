import Mathlib.Data.BitVec
import Mathlib.Tactic.Common
import Mathlib.Tactic.IntervalCases

/-!
# Byte lanes

A 32-bit word is four byte lanes, lane 0 the least significant one, and a select mask has one bit for
each lane. `pack` and `packBits` build a word and a mask from their lanes; two words are equal when
their lanes are.
-/

namespace Lanes

/-- The word with byte `f i` in lane `i`. -/
def pack (f : Nat → BitVec 8) : BitVec 32 := f 3 ++ f 2 ++ f 1 ++ f 0

/-- Lane `i` of a word. -/
def lane (w : BitVec 32) (i : Nat) : BitVec 8 := (w >>> (8 * i)).setWidth 8

/-- The mask with bit `f i` for lane `i`. -/
def packBits (f : Nat → Bool) : BitVec 4 :=
  BitVec.ofBool (f 3) ++ BitVec.ofBool (f 2) ++ BitVec.ofBool (f 1) ++ BitVec.ofBool (f 0)

theorem lane_pack (f : Nat → BitVec 8) {i : Nat} (hi : i < 4) : lane (pack f) i = f i := by
  interval_cases i <;>
  · ext j hj
    simp only [lane, pack, BitVec.getElem_setWidth, BitVec.getLsbD_ushiftRight,
      BitVec.getLsbD_append]
    grind

/-- A word is made of its lanes. -/
theorem pack_lane (w : BitVec 32) : pack (lane w) = w := by
  ext j hj
  simp only [pack, lane]
  grind

/-- Merging two words through a mask merges them lane by lane. -/
theorem lane_merge (new old mask : BitVec 32) (i : Nat) :
    lane ((new &&& ~~~mask) ||| (old &&& mask)) i
      = (lane new i &&& ~~~lane mask i) ||| (lane old i &&& lane mask i) := by
  ext j hj
  simp only [lane, BitVec.getElem_setWidth, BitVec.getLsbD_ushiftRight, BitVec.getLsbD_or,
    BitVec.getLsbD_and, BitVec.getLsbD_not, BitVec.getElem_or, BitVec.getElem_and,
    BitVec.getElem_not]
  by_cases hb : 8 * i + j < 32
  · simp [hb]
  -- outside the word every bit is 0
  · simp [hb, BitVec.getLsbD_of_ge _ _ (Nat.le_of_not_lt hb)]

theorem getLsbD_packBits (f : Nat → Bool) {i : Nat} (hi : i < 4) :
    (packBits f).getLsbD i = f i := by
  interval_cases i <;>
  · simp only [packBits, BitVec.getLsbD_append]
    simp

end Lanes
