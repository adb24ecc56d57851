import DeltaModels.Library.InPlace
import DeltaModels.Sdram.Addressing

/-!
# The backdoor of the SDRAM

Besides the pins the device has request signals: `backdoor_copy` moves a region word by word, and
`backdoor_clear` overwrites one with zeros. `backdoorHandler` is their handler.

The copy goes upwards and in place, so on the word map it is `InPlace.copyUp`
(`wordAt_copyLoop`). A region that is moved up by less than its size is therefore copied wrongly,
unless its words happen to repeat themselves: `backdoorHandler_copies_iff`.
-/

namespace DeltaModels.Sdram

variable {A_SIZE BA_SIZE : Nat} {cfg : Config}

/-- The backdoor's signals: the requests and their operands. -/
structure Backdoor where
  copyFrom : BitVec 32 := 0
  copyTo : BitVec 32 := 0
  copySize : BitVec 32 := 0
  copy : BitVec 1
  clearFrom : BitVec 32 := 0
  clearTo : BitVec 32 := 0
  clear : BitVec 1
  deriving DecidableEq, Repr

/-- `tsize`: how many words a copy is to move. -/
def Backdoor.tsize (b : Backdoor) : Nat := (b.copySize >>> 2).toNat

/-- The lines that the backdoor writes to the log, without their time stamps. -/
inductive BackdoorLine where
  | copy (address value : BitVec 32)
  | clear (address : BitVec 32)
  deriving DecidableEq, Repr

/-- The word map, and the lines written so far. -/
abbrev Logged := OrdMap (BitVec 32) (BitVec 32) × List BackdoorLine

/-- One round of the copying loop. Looking up the source may add it to the map. -/
def copyWord (cfg : Config) (startAdd endAdd : BitVec 32) (s : Logged) (i : Nat) : Logged :=
  let src := startAdd + BitVec.ofNat 32 i
  let dst := endAdd + BitVec.ofNat 32 i
  ((s.1.subscript src).insert dst (s.1.read src),
    s.2 ++ [.copy (toWishbone cfg dst) (s.1.read src)])

/-- The branch of `backdoor_handler` for a copy. -/
def backdoorCopy (cfg : Config) (b : Backdoor) (s : Logged) : Logged :=
  let startAdd := fromWishbone cfg b.copyFrom
  let endAdd := fromWishbone cfg b.copyTo
  (List.range b.tsize).foldl (copyWord cfg startAdd endAdd) s

/-- One round of the clearing loop. -/
def clearWord (cfg : Config) (s : Logged) (i : Nat) : Logged :=
  (s.1.insert (BitVec.ofNat 32 i) 0, s.2 ++ [.clear (toWishbone cfg (BitVec.ofNat 32 i))])

/-- The branch of `backdoor_handler` for a clear. -/
def backdoorClear (cfg : Config) (b : Backdoor) (s : Logged) : Logged :=
  let startAdd := fromWishbone cfg b.clearFrom
  let endAdd := fromWishbone cfg b.clearTo
  (List.range' startAdd.toNat (endAdd.toNat - startAdd.toNat)).foldl (clearWord cfg) s

/-- `GENERIC_SDRAM::backdoor_handler`. -/
def backdoorHandler (cfg : Config) (s : State BA_SIZE) (b : Backdoor) :
    State BA_SIZE × List BackdoorLine :=
  let copied := if b.copy = 1 then backdoorCopy cfg b (s.mem, []) else (s.mem, [])
  let cleared := if b.clear = 1 then backdoorClear cfg b copied else copied
  ({ s with mem := cleared.1 }, cleared.2)

/-! ## The copy -/

/-- The words of the map as a numbered memory. -/
def wordAt (mem : OrdMap (BitVec 32) (BitVec 32)) (k : Nat) : BitVec 32 :=
  mem.read (BitVec.ofNat 32 k)

theorem wordAt_toNat (mem : OrdMap (BitVec 32) (BitVec 32)) (k : BitVec 32) :
    wordAt mem k.toNat = mem.read k := by
  rw [wordAt, BitVec.ofNat_toNat, BitVec.setWidth_eq]

/-- One round stores the word that it reads. -/
theorem wordAt_copyWord {startAdd endAdd : BitVec 32} (s : Logged) {i : Nat}
    (hend : endAdd.toNat + i < 2 ^ 32) {k : Nat} (hk : k < 2 ^ 32) :
    wordAt (copyWord cfg startAdd endAdd s i).1 k
      = (Patch.single (endAdd.toNat + i) (wordAt s.1 (startAdd.toNat + i))).apply (wordAt s.1) k := by
  have hsrc : startAdd + BitVec.ofNat 32 i = BitVec.ofNat 32 (startAdd.toNat + i) := by
    rw [BitVec.ofNat_add, BitVec.ofNat_toNat, BitVec.setWidth_eq]
  have hdst : endAdd + BitVec.ofNat 32 i = BitVec.ofNat 32 k ↔ k = endAdd.toNat + i := by
    rw [← BitVec.toNat_inj, BitVec.toNat_add, BitVec.toNat_ofNat, BitVec.toNat_ofNat]
    omega
  simp only [copyWord, wordAt, OrdMap.read_insert, OrdMap.read_subscript, hsrc]
  by_cases h : k = endAdd.toNat + i
  · rw [if_pos (hdst.mpr h), h]
    exact (Patch.apply_of_some _ (Patch.single_self _ _)).symm
  · rw [if_neg (mt hdst.mp h), Patch.apply_of_none _ (Patch.single_of_ne _ h)]
    rfl

/-- **The loop copies in place**, as long as neither region runs past the end of the words. -/
theorem wordAt_copyLoop {startAdd endAdd : BitVec 32} (s : Logged) {n : Nat}
    (hstart : startAdd.toNat + n ≤ 2 ^ 30) (hend : endAdd.toNat + n ≤ 2 ^ 30) {k : Nat}
    (hk : k < 2 ^ 32) :
    wordAt ((List.range n).foldl (copyWord cfg startAdd endAdd) s).1 k
      = InPlace.copyUp (wordAt s.1) startAdd.toNat endAdd.toNat n k := by
  induction n generalizing k with
  | zero => rfl
  | succ n ih =>
    have hread : wordAt ((List.range n).foldl (copyWord cfg startAdd endAdd) s).1
        (startAdd.toNat + n)
        = InPlace.copyUp (wordAt s.1) startAdd.toNat endAdd.toNat n (startAdd.toNat + n) :=
      ih (by omega) (by omega) (by omega)
    rw [List.range_succ, List.foldl_append, List.foldl_cons, List.foldl_nil,
      wordAt_copyWord _ (by omega) hk, InPlace.copyUp_succ, hread]
    simp only [Patch.apply]
    rw [ih (by omega) (by omega) hk]

/-- What a copy request is to do: each word of the destination reads as the word of the source that
belongs to it did before, and the words outside of the destination read as before. -/
def CopiesRegion (cfg : Config) (s : State BA_SIZE) (b : Backdoor) : Prop :=
  let src := fromWishbone cfg b.copyFrom
  let dst := fromWishbone cfg b.copyTo
  let s' := (backdoorHandler cfg s b).1
  (∀ i < b.tsize, s'.mem.read (dst + BitVec.ofNat 32 i) = s.mem.read (src + BitVec.ofNat 32 i)) ∧
  ∀ k, (∀ i < b.tsize, k ≠ dst + BitVec.ofNat 32 i) → s'.mem.read k = s.mem.read k

/-- The words of the source repeat themselves with period `d`. -/
def RepeatsEvery (cfg : Config) (s : State BA_SIZE) (b : Backdoor) (d : Nat) : Prop :=
  let src := fromWishbone cfg b.copyFrom
  ∀ i, i + d < b.tsize →
    s.mem.read (src + BitVec.ofNat 32 i) = s.mem.read (src + BitVec.ofNat 32 (i + d))

/-- **When the backdoor copies a region faithfully**: if the destination does not start above the
source, or else if the source repeats itself with the distance between the two. (If they do not
overlap, this asks nothing of the source.) -/
theorem backdoorHandler_copies_iff (cfg : Config) (s : State BA_SIZE) (b : Backdoor)
    (hcopy : b.copy = 1) (hclear : b.clear = 0)
    (hfrom : (fromWishbone cfg b.copyFrom).toNat + b.tsize ≤ 2 ^ 30)
    (hto : (fromWishbone cfg b.copyTo).toNat + b.tsize ≤ 2 ^ 30) :
    CopiesRegion cfg s b ↔
      fromWishbone cfg b.copyTo ≤ fromWishbone cfg b.copyFrom ∨
        RepeatsEvery cfg s b
          ((fromWishbone cfg b.copyTo).toNat - (fromWishbone cfg b.copyFrom).toNat) := by
  have hmem : (backdoorHandler cfg s b).1.mem = (backdoorCopy cfg b (s.mem, [])).1 := by
    have hno : ¬ b.clear = 1 := by
      rw [hclear]
      decide
    simp only [backdoorHandler, if_pos hcopy, if_neg hno]
  unfold CopiesRegion RepeatsEvery
  simp only [hmem, backdoorCopy]
  generalize fromWishbone cfg b.copyFrom = src at hfrom ⊢
  generalize fromWishbone cfg b.copyTo = dst at hto ⊢
  have hword : ∀ (mem : OrdMap (BitVec 32) (BitVec 32)) (a : BitVec 32) (i : Nat),
      mem.read (a + BitVec.ofNat 32 i) = wordAt mem (a.toNat + i) := by
    intro mem a i
    rw [wordAt, BitVec.ofNat_add, BitVec.ofNat_toNat, BitVec.setWidth_eq]
  have hloop : ∀ k < 2 ^ 32, wordAt ((List.range b.tsize).foldl (copyWord cfg src dst)
      (s.mem, [])).1 k = InPlace.copyUp (wordAt s.mem) src.toNat dst.toNat b.tsize k :=
    fun k hk => wordAt_copyLoop (s.mem, []) hfrom hto hk
  have hinside : (∀ i < b.tsize, ((List.range b.tsize).foldl (copyWord cfg src dst)
        (s.mem, [])).1.read (dst + BitVec.ofNat 32 i) = s.mem.read (src + BitVec.ofNat 32 i)) ↔
      InPlace.Faithful (wordAt s.mem) src.toNat dst.toNat b.tsize := by
    refine forall₂_congr fun i hi => ?_
    rw [hword, hword, hloop _ (by omega)]
  have houtside : ∀ k, (∀ i < b.tsize, k ≠ dst + BitVec.ofNat 32 i) →
      ((List.range b.tsize).foldl (copyWord cfg src dst) (s.mem, [])).1.read k
        = s.mem.read k := by
    intro k hk
    rw [← wordAt_toNat, ← wordAt_toNat, hloop _ k.isLt]
    apply InPlace.copyUp_outside
    by_contra hnot
    refine hk (k.toNat - dst.toNat) (by omega) (BitVec.eq_of_toNat_eq ?_)
    rw [BitVec.toNat_add, BitVec.toNat_ofNat]
    omega
  have hperiod : InPlace.Periodic (wordAt s.mem) src.toNat (dst.toNat - src.toNat) b.tsize ↔
      ∀ i, i + (dst.toNat - src.toNat) < b.tsize →
        s.mem.read (src + BitVec.ofNat 32 i)
          = s.mem.read (src + BitVec.ofNat 32 (i + (dst.toNat - src.toNat))) := by
    refine forall₂_congr fun i hi => ?_
    rw [hword, hword, Nat.add_assoc]
  rw [hinside, and_iff_left houtside, InPlace.copyUp_faithful_iff, hperiod]
  rfl

/-- A request to move the first `n` words up by one. -/
def moveUp (n : Nat) : Backdoor where
  copyFrom := 0x40000000
  copyTo := 0x40000004
  copySize := BitVec.ofNat 32 (4 * n)
  copy := 1
  clear := 0

/-- The configuration of a device of 16 MiB. -/
def sixteenMiB : Config := { geometry := { rowBits := 12, bankBits := 2, colBits := 8 } }

/-- A device whose first words are 1 and 2. -/
def oneTwo : State 2 :=
  { State.init with mem := ((∅ : OrdMap (BitVec 32) (BitVec 32)).insert 0 1).insert 1 2 }

/-- A single word can be moved up. -/
theorem backdoorHandler_copies_one : CopiesRegion sixteenMiB oneTwo (moveUp 1) :=
  (backdoorHandler_copies_iff sixteenMiB oneTwo (moveUp 1) rfl rfl (by decide) (by decide)).mpr
    (.inr fun i hi => by
      have hone : (moveUp 1).tsize = 1 := by decide
      have hdist : (fromWishbone sixteenMiB (moveUp 1).copyTo).toNat
          - (fromWishbone sixteenMiB (moveUp 1).copyFrom).toNat = 1 := by decide
      omega)

/-- Of two words moved up by one, the second becomes the first. -/
theorem backdoorHandler_smears :
    ¬ ∀ (cfg : Config) (s : State 2) (b : Backdoor), b.copy = 1 → b.clear = 0 →
      b.copyFrom.toNat % 4 = 0 → b.copyTo.toNat % 4 = 0 → b.copySize.toNat % 4 = 0 →
      (fromWishbone cfg b.copyFrom).toNat + b.tsize ≤ 2 ^ 30 →
      (fromWishbone cfg b.copyTo).toNat + b.tsize ≤ 2 ^ 30 → CopiesRegion cfg s b := by
  intro h
  have hcopied := h sixteenMiB oneTwo (moveUp 2) rfl rfl (by decide) (by decide) (by decide)
    (by decide) (by decide)
  have hsecond := hcopied.1 1 (by decide)
  revert hsecond
  decide

end DeltaModels.Sdram
