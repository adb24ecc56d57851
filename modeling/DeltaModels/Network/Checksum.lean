import DeltaModels.Library.OnesComplement
import DeltaModels.Network.Packet
import Mathlib.Algebra.Order.BigOperators.Group.List
import Mathlib.Algebra.Order.Ring.Nat

/-!
# The Internet checksum

`checksum` adds up the 16-bit words of a header in an `unsigned long` of 64 bits and folds the sum
twice, the second time without clearing what it has folded in. For any IP packet that is the
one's-complement sum, because the sum has 32 bits at most and two folds are enough for those
(`OnesComplement.twice_eq_fold`).
-/

namespace DeltaModels.Network

/-- One round of the loop of `checksum`. -/
def addWord (sum : BitVec 64) (word : BitVec 16) : BitVec 64 := sum + (htons word).setWidth 64

/-- `checksum`, of all the words that `buff` points at. -/
def checksum (buff : List (BitVec 16)) : BitVec 16 :=
  let sum := buff.foldl addWord 0
  let sum := (sum >>> 16) + (sum &&& 0xFFFF)
  let sum := sum + (sum >>> 16)
  (~~~sum).setWidth 16

/-- The words in network byte order, as numbers. -/
def netWords (words : List (BitVec 16)) : List Nat := words.map fun word => (htons word).toNat

theorem htons_htons (word : BitVec 16) : htons (htons word) = word := by
  rw [htons, htons, BitVec.extractLsb'_append_eq_right, BitVec.extractLsb'_append_eq_left]
  exact BitVec.extractLsb'_append_extractLsb'

theorem netWords_lt {words : List (BitVec 16)} : ∀ a ∈ netWords words, a < 2 ^ 16 := by
  intro a ha
  obtain ⟨word, -, rfl⟩ := List.mem_map.mp ha
  exact (htons word).isLt

theorem sum_netWords_le (words : List (BitVec 16)) :
    (netWords words).sum ≤ words.length * (2 ^ 16 - 1) := by
  have hle := List.sum_le_card_nsmul (netWords words) (2 ^ 16 - 1) fun a ha =>
    Nat.le_sub_one_of_lt (netWords_lt a ha)
  simpa [netWords] using hle

/-- The loop adds the words up, as long as 64 bits are enough. -/
theorem toNat_addWords {words : List (BitVec 16)} (h : (netWords words).sum < 2 ^ 64) :
    (words.foldl addWord 0).toNat = (netWords words).sum := by
  induction words using List.reverseRecOn with
  | nil => rfl
  | append_singleton words word ih =>
    have hsum : (netWords (words ++ [word])).sum = (netWords words).sum + (htons word).toNat := by
      simp [netWords]
    have hword : ((htons word).setWidth 64).toNat = (htons word).toNat :=
      BitVec.toNat_setWidth_of_le (by omega)
    rw [hsum] at h ⊢
    rw [List.foldl_append, List.foldl_cons, List.foldl_nil, addWord, BitVec.toNat_add, hword,
      ih (by omega), Nat.mod_eq_of_lt h]

/-- **Two folds are enough** for a sum of 32 bits. -/
theorem checksum_eq_fold {words : List (BitVec 16)} (h : (netWords words).sum < 2 ^ 32) :
    checksum words = ~~~BitVec.ofNat 16 (OnesComplement.fold 16 (netWords words).sum) := by
  have hfits := (OnesComplement.folded_fold (by decide : 0 < 16) (netWords words).sum).fits
  have htwice : _ = OnesComplement.fold 16 (netWords words).sum :=
    OnesComplement.twice_eq_fold (by decide) h
  have hloop := toNat_addWords (Nat.lt_trans h (by decide))
  rw [checksum]
  generalize words.foldl addWord 0 = sum at hloop
  rw [← hloop] at h htwice hfits ⊢
  -- the first fold, and the second
  have hfirst : ((sum >>> 16) + (sum &&& 0xFFFF)).toNat = OnesComplement.wrap 16 sum.toNat := by
    have hmask : (0xFFFF : BitVec 64).toNat = 2 ^ 16 - 1 := rfl
    rw [BitVec.toNat_add, BitVec.toNat_ushiftRight, BitVec.toNat_and, hmask,
      Nat.and_two_pow_sub_one_eq_mod, Nat.shiftRight_eq_div_pow, OnesComplement.wrap]
    omega
  generalize (sum >>> 16) + (sum &&& 0xFFFF) = first at hfirst
  have hsecond : (first + (first >>> 16)).toNat % 2 ^ 16 = OnesComplement.fold 16 sum.toNat := by
    rw [← htwice, ← hfirst, BitVec.toNat_add, BitVec.toNat_ushiftRight, Nat.shiftRight_eq_div_pow]
    omega
  rw [BitVec.setWidth_not (by omega)]
  refine congrArg (~~~·) (BitVec.eq_of_toNat_eq ?_)
  rw [BitVec.toNat_setWidth, hsecond, BitVec.toNat_ofNat, Nat.mod_eq_of_lt hfits]

/-- The complement of a number of 16 bits is what it lacks of all ones. -/
theorem toNat_not_ofNat {n : Nat} (h : n < 2 ^ 16) : (~~~BitVec.ofNat 16 n).toNat = 2 ^ 16 - 1 - n := by
  rw [BitVec.toNat_not, BitVec.toNat_ofNat, Nat.mod_eq_of_lt h]

/-- **`checksum` computes the Internet checksum.** Of the words of a packet it returns the complement of
the one's-complement sum, which is their sum folded until it fits; and of the words with this value
behind them, in network byte order, it returns 0. -/
theorem checksum_internet (words : List (BitVec 16)) (h : words.length ≤ 32767) :
    checksum words = ~~~BitVec.ofNat 16 (OnesComplement.fold 16 (netWords words).sum) ∧
    checksum words = ~~~BitVec.ofNat 16 (OnesComplement.sum 16 (netWords words)) ∧
    checksum (words ++ [htons (checksum words)]) = 0 := by
  have hbound := sum_netWords_le words
  have hmul : words.length * (2 ^ 16 - 1) ≤ 32767 * (2 ^ 16 - 1) := Nat.mul_le_mul_right _ h
  have hfold : checksum words = ~~~BitVec.ofNat 16 (OnesComplement.fold 16 (netWords words).sum) :=
    checksum_eq_fold (by omega)
  have hsum : OnesComplement.sum 16 (netWords words) = OnesComplement.fold 16 (netWords words).sum :=
    OnesComplement.sum_eq_fold (by decide) netWords_lt
  have hfits := (OnesComplement.folded_fold (by decide : 0 < 16) (netWords words).sum).fits
  refine ⟨hfold, by rw [hsum]; exact hfold, ?_⟩
  -- the value makes up all ones with the sum
  have happend : (netWords (words ++ [htons (checksum words)])).sum = (netWords words).sum
      + (2 ^ 16 - 1 - OnesComplement.fold 16 (netWords words).sum) := by
    rw [← toNat_not_ofNat hfits, ← hfold]
    simp [netWords, htons_htons]
  rw [checksum_eq_fold (by rw [happend]; omega), happend, OnesComplement.fold_add_compl (by decide)]
  rfl

/-- The header of a UDP packet of 115 bytes. -/
theorem checksum_internet_header :
    checksum ([0x0045, 0x7300, 0x0000, 0x0040, 0x1140, 0xa8c0, 0x0100, 0xa8c0, 0xc700]
      ++ [htons (checksum
        [0x0045, 0x7300, 0x0000, 0x0040, 0x1140, 0xa8c0, 0x0100, 0xa8c0, 0xc700])]) = 0 :=
  (checksum_internet [0x0045, 0x7300, 0x0000, 0x0040, 0x1140, 0xa8c0, 0x0100, 0xa8c0, 0xc700]
    (by decide)).2.2

end DeltaModels.Network
