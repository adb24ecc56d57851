import DeltaModels.Flash.Basic
import DeltaModels.Library.Patch

/-!
# The image that `configure_region` loads

Seen by a reader the flash holds one byte for every byte address. A `configure_region` call is a
patch of that image (`Region.patch`), and the half-byte map that the loading loop builds holds the
patched image (`configure_holds`), as long as the region does not run past the 32-bit half-byte
address space and the file is short enough for its length to fit an `int`.
-/

namespace DeltaModels.Flash

/-- The half-byte at half-byte address `i`: the high half of a byte comes first. -/
def nibble (img : Nat → BitVec 8) (i : Nat) : BitVec 4 :=
  if i % 2 = 0 then (img (i / 2)).extractLsb' 4 4 else (img (i / 2)).extractLsb' 0 4

/-- What a region stores, as a patch of the byte image. -/
def Region.patch (r : Region) : Patch Nat (BitVec 8) :=
  match r.confFile with
  | none => .empty
  | some bytes => Patch.span r.confAddr.toNat bytes

/-- The byte image after a sequence of `configure_region` calls: at each address the byte stored by
the latest call that covers it, 0 if none does. -/
def image (rs : List Region) (b : Nat) : BitVec 8 :=
  (Patch.latest (rs.map Region.patch) b).getD 0

/-- The region ends inside the half-byte address space. -/
def Region.Fits (r : Region) : Prop :=
  ∀ bytes, r.confFile = some bytes → r.confAddr.toNat + bytes.length ≤ 2 ^ 31

/-- The length of the file fits an `int`. -/
def Region.Short (r : Region) : Prop := ∀ bytes, r.confFile = some bytes → bytes.length < 2 ^ 31

/-- The map holds the image. -/
def Holds (mem : OrdMap (BitVec 32) (BitVec 8)) (img : Nat → BitVec 8) : Prop :=
  ∀ i : BitVec 32, mem.read i = (nibble img i.toNat).setWidth 8

theorem holds_empty : Holds ∅ fun _ => 0 := by
  intro i
  have hzero : nibble (fun _ => 0) i.toNat = 0 := by simp [nibble]
  rw [OrdMap.read_empty, hzero]
  rfl

/-! ## The loading loop -/

/-- The two half-bytes that the loop stores for a byte. -/
theorem high_half : ∀ b : BitVec 8, (b >>> 4) &&& 0xf = (b.extractLsb' 4 4).setWidth 8 := by decide

theorem low_half : ∀ b : BitVec 8, b &&& 0xf = (b.extractLsb' 0 4).setWidth 8 := by decide

/-- One round of the loop stores one byte of the image. -/
theorem Holds.insert_byte {mem : OrdMap (BitVec 32) (BitVec 8)} {img : Nat → BitVec 8}
    (h : Holds mem img) {a : Nat} (ha : a < 2 ^ 31) (b : BitVec 8) :
    Holds ((mem.insert (BitVec.ofNat 32 (2 * a)) ((b >>> 4) &&& 0xf)).insert
      (BitVec.ofNat 32 (2 * a) + 1) (b &&& 0xf)) ((Patch.single a b).apply img) := by
  intro i
  have hi := i.isLt
  have hhigh : BitVec.ofNat 32 (2 * a) = i ↔ i.toNat = 2 * a := by
    rw [← BitVec.toNat_inj, BitVec.toNat_ofNat]; omega
  have hlow : BitVec.ofNat 32 (2 * a) + 1 = i ↔ i.toNat = 2 * a + 1 := by
    have hone : (1 : BitVec 32).toNat = 1 := rfl
    rw [← BitVec.toNat_inj, BitVec.toNat_add, BitVec.toNat_ofNat, hone]; omega
  rw [OrdMap.read_insert, OrdMap.read_insert, h i]
  -- the low half, the high half, or another byte
  by_cases hl : i.toNat = 2 * a + 1
  · have hhalf : i.toNat / 2 = a := by omega
    have hodd : i.toNat % 2 ≠ 0 := by omega
    rw [if_pos (hlow.mpr hl), low_half, nibble, if_neg hodd, hhalf]
    simp [Patch.apply]
  · rw [if_neg (mt hlow.mp hl)]
    by_cases hh : i.toNat = 2 * a
    · have hhalf : i.toNat / 2 = a := by omega
      have heven : i.toNat % 2 = 0 := by omega
      rw [if_pos (hhigh.mpr hh), high_half, nibble, if_pos heven, hhalf]
      simp [Patch.apply]
    · have hhalf : i.toNat / 2 ≠ a := by omega
      rw [if_neg (mt hhigh.mp hh)]
      simp only [nibble, Patch.apply, Patch.single_of_ne b hhalf, Option.getD_none]

/-- **The loop stores its bytes**, the first at byte address `a`. -/
theorem loadBytes_holds {mem : OrdMap (BitVec 32) (BitVec 8)} {img : Nat → BitVec 8}
    (h : Holds mem img) (a : Nat) (bytes : List (BitVec 8)) (hfit : a + bytes.length ≤ 2 ^ 31) :
    Holds (loadBytes mem (BitVec.ofNat 32 (2 * a)) bytes) ((Patch.span a bytes).apply img) := by
  induction bytes generalizing mem img a with
  | nil =>
    rw [Patch.span_nil, Patch.apply_empty]
    exact h
  | cons b bs ih =>
    rw [List.length_cons] at hfit
    have hnext : BitVec.ofNat 32 (2 * a) + 2 = BitVec.ofNat 32 (2 * (a + 1)) := by
      rw [Nat.mul_add, BitVec.ofNat_add]; rfl
    rw [loadBytes, Patch.span_cons_apply, hnext]
    exact ih (h.insert_byte (by omega) b) (a + 1) (by omega)

/-! ## Calls -/

/-- A call on a file shorter than 2 GiB changes only the map, and stores its patch. -/
theorem configureRegion_holds {s : State} {img : Nat → BitVec 8} (h : Holds s.confMemory img)
    {r : Region} (hfit : r.Fits) (hshort : r.Short) :
    ∃ mem, configureRegion s r.confFile r.confAddr = some { s with confMemory := mem } ∧
      Holds mem (r.patch.apply img) := by
  obtain ⟨file, addr⟩ := r
  cases file with
  | none => exact ⟨s.confMemory, rfl, h⟩
  | some bytes =>
    have hlen : bytes.length < 2 ^ 31 := hshort bytes rfl
    have hint : (BitVec.ofNat 32 bytes.length).toInt = bytes.length := by
      rw [BitVec.toInt_ofNat']
      exact Int.bmod_eq_of_le (by omega) (by omega)
    have hshift : addr <<< 1 = BitVec.ofNat 32 (2 * addr.toNat) := by
      apply BitVec.eq_of_toNat_eq
      rw [BitVec.toNat_shiftLeft, Nat.shiftLeft_eq, BitVec.toNat_ofNat, Nat.pow_one, Nat.mul_comm]
    refine ⟨_, ?_, loadBytes_holds h addr.toNat bytes (hfit bytes rfl)⟩
    have hnonneg : ¬ ((bytes.length : Int) < 0) := by omega
    simp only [configureRegion, hint, if_neg hnonneg, Int.toNat_natCast, List.take_length, hshift]

/-- **Run lemma for the image**: any sequence of such calls succeeds, changes only the map, and
leaves the patched image in it. -/
theorem configure_holds {s : State} {img : Nat → BitVec 8} (h : Holds s.confMemory img)
    {rs : List Region} (hfit : ∀ r ∈ rs, r.Fits) (hshort : ∀ r ∈ rs, r.Short) :
    ∃ mem, configure s rs = some { s with confMemory := mem } ∧
      Holds mem (Patch.replay img (rs.map Region.patch)) := by
  induction rs generalizing s img with
  | nil => exact ⟨s.confMemory, rfl, h⟩
  | cons r rs ih =>
    obtain ⟨mem, hcall, hmem⟩ := configureRegion_holds h (hfit r (by simp)) (hshort r (by simp))
    obtain ⟨mem', hcalls, hmem'⟩ := ih (s := { s with confMemory := mem }) hmem
      (fun q hq => hfit q (by simp [hq])) (fun q hq => hshort q (by simp [hq]))
    refine ⟨mem', ?_, hmem'⟩
    rw [configure, hcall, Option.bind_some, hcalls]

/-- From an empty map the calls lead to the image. -/
theorem configure_image {s : State} (h : s.confMemory = ∅) {rs : List Region}
    (hfit : ∀ r ∈ rs, r.Fits) (hshort : ∀ r ∈ rs, r.Short) :
    ∃ mem, configure s rs = some { s with confMemory := mem } ∧ Holds mem (image rs) := by
  have himg : Patch.replay (fun _ => 0) (rs.map Region.patch) = image rs :=
    funext fun b => Patch.replay_eq _ _ b
  rw [← himg]
  exact configure_holds (h ▸ holds_empty) hfit hshort

/-- A file of exactly 2 GiB makes the length negative, and the allocation throws. -/
theorem configureRegion_throws (s : State) {bytes : List (BitVec 8)} (addr : BitVec 32)
    (h : bytes.length = 2 ^ 31) : configureRegion s (some bytes) addr = none := by
  have hint : (BitVec.ofNat 32 bytes.length).toInt < 0 := by rw [h]; decide
  simp only [configureRegion, if_pos hint]

end DeltaModels.Flash
