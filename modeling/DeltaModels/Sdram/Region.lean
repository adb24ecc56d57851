import DeltaModels.Sdram.Image

/-!
# Loading a part of a file

The loader is run here on tags: an `Origin` says where a byte comes from, and `origins` of each stored
byte whether it is from the file, and which one it is.

The length of the buffer is taken from a seek to `first_byte` bytes behind the end of the file. So it is
too large by twice `first_byte`, and unless that is a multiple of 2^32, the loader stores bytes of the
buffer that were never read: `configureRegion_loads_iff`.
-/

namespace DeltaModels.Sdram

variable {s : Nat} {firstByte confAddr : BitVec 32} {msb : Bool}

/-! ## Where the stored bytes come from -/

/-- Where a byte comes from: it is the initial 0 of `val`, byte `j` of the file, or byte `k` of the
buffer, which was never read. -/
inductive Origin where
  | zero
  | file (j : Nat)
  | unread (k : Nat)
  deriving DecidableEq, Repr

/-- The byte that comes from there. -/
def Origin.value (bytes : List (BitVec 8)) (unread : Nat → BitVec 8) : Origin → BitVec 8
  | .zero => 0
  | .file j => bytes[j]?.getD 0
  | .unread k => unread k

/-- The loader on a file of `s` bytes, run on their origins. -/
def origins (s : Nat) (firstByte : BitVec 32) (msb : Bool) : Option (List (Bytes Origin)) :=
  regionWords .zero ((List.range s).map .file) .unread firstByte msb

/-- The bytes stored are those that the origins name. -/
theorem regionWords_eq (bytes : List (BitVec 8)) (unread : Nat → BitVec 8) (firstByte : BitVec 32)
    (msb : Bool) :
    regionWords 0 bytes unread firstByte msb
      = (origins bytes.length firstByte msb).map (List.map (Origin.value bytes unread ∘ ·)) := by
  rw [origins, ← regionWords_map]
  have hfile : ((List.range bytes.length).map Origin.file).map (Origin.value bytes unread) = bytes := by
    rw [List.map_map]
    refine List.ext_getElem (by simp) fun j _ hj => ?_
    simp [Origin.value, hj]
  rw [hfile]
  rfl

/-! ## Loading the requested part -/

/-- The words `ws` are as many as it takes for the bytes of the file from `first_byte` on, hold each of
them once (the padding of the last word apart), and nothing that was not read. -/
structure HoldsRest (s : Nat) (firstByte : BitVec 32) (ws : List (Bytes Origin)) : Prop where
  length : ws.length = (s - firstByte.toNat + 3) / 4
  once : ((stored ws).take (s - firstByte.toNat)).Perm
    ((List.range' firstByte.toNat (s - firstByte.toNat)).map .file)
  read : ∀ k, .unread k ∉ stored ws

/-- `configure_region` stores the bytes of a file of `s` bytes from `first_byte` on, and changes no
other words than those that hold them. -/
def LoadsRegion (s : Nat) (firstByte confAddr : BitVec 32) (msb : Bool) : Prop :=
  ∃ ws, origins s firstByte msb = some ws ∧ HoldsRest s firstByte ws ∧
    ∀ (bytes : List (BitVec 8)) (unread : Nat → BitVec 8) (mem : OrdMap (BitVec 32) (BitVec 32)),
      bytes.length = s →
      ∃ mem', configureRegion mem (some bytes) confAddr firstByte msb unread = some mem' ∧
        ∀ k : BitVec 32, mem'[k]? = (Patch.span (confAddr >>> 2).toNat
          (ws.map fun v => toWord (Origin.value bytes unread ∘ v)) k.toNat).or mem[k]?

/-- The padding of the last word is 0. -/
def PaddingBlank (s : Nat) (firstByte : BitVec 32) (msb : Bool) : Prop :=
  ∀ ws, origins s firstByte msb = some ws → ∀ x ∈ (stored ws).drop (s - firstByte.toNat), x = .zero

/-- The length that the loader works with is the number of bytes to be loaded. -/
def LengthRight (s : Nat) (firstByte : BitVec 32) : Prop :=
  (firstByte = 0 ∨ firstByte = 0x80000000) ∧ s - firstByte.toNat < 2 ^ 31

/-- The length after the seek behind the end of the file. -/
def regionLength (s : Nat) (firstByte : BitVec 32) : Int := (BitVec.ofNat 32 (s + firstByte.toNat)).toInt

theorem regionLength_eq_iff {s : Nat} {firstByte : BitVec 32} (hfirst : firstByte.toNat ≤ s) :
    regionLength s firstByte = (s - firstByte.toNat : Nat) ↔ LengthRight s firstByte := by
  have hzero : firstByte = 0 ↔ firstByte.toNat = 0 := by rw [← BitVec.toNat_inj]; rfl
  have hhalf : firstByte = 0x80000000 ↔ firstByte.toNat = 2 ^ 31 := by rw [← BitVec.toNat_inj]; rfl
  have hbound := firstByte.isLt
  rw [LengthRight, hzero, hhalf, regionLength, BitVec.toInt_eq_toNat_cond, BitVec.toNat_ofNat]
  split <;> omega

/-- The buffer after the file has been read from `first_byte` on. -/
def originAt (s : Nat) (firstByte : BitVec 32) (k : Nat) : Origin :=
  if firstByte.toNat + k < s then .file (firstByte.toNat + k) else .unread k

theorem origins_eq_some {s : Nat} {firstByte : BitVec 32} {msb : Bool} {ws : List (Bytes Origin)} :
    origins s firstByte msb = some ws ↔ 0 ≤ regionLength s firstByte ∧
      loadWords .zero (originAt s firstByte) (regionLength s firstByte).toNat msb = ws := by
  have hbuffer : (fun k => (((List.range s).map Origin.file)[firstByte.toNat + k]?).getD (.unread k))
      = originAt s firstByte := by
    funext k
    rw [List.getElem?_map, originAt]
    split
    · next h => rw [List.getElem?_range h]; rfl
    · next h => rw [List.getElem?_eq_none (by simpa using h)]; rfl
  simp only [origins, regionWords, List.length_map, List.length_range, hbuffer]
  rw [← regionLength]
  split
  · next h => simp [Int.not_le.mpr h]
  · next h => simp [Int.not_lt.mp h]

/-- Up to the end of the file the buffer holds the file from `first_byte` on. -/
theorem map_originAt (s : Nat) (firstByte : BitVec 32) :
    (List.range (s - firstByte.toNat)).map (originAt s firstByte)
      = (List.range' firstByte.toNat (s - firstByte.toNat)).map .file := by
  rw [List.range'_eq_map_range, List.map_map]
  refine List.map_congr_left fun k hk => if_pos ?_
  have := List.mem_range.mp hk
  omega

/-- The words hold the rest of the file exactly if the length is right. -/
theorem holdsRest_iff (hfirst : firstByte.toNat ≤ s) (length : Nat) :
    HoldsRest s firstByte (loadWords .zero (originAt s firstByte) length msb) ↔
      length = s - firstByte.toNat := by
  constructor
  · intro h
    rcases Nat.lt_trichotomy length (s - firstByte.toNat) with hlt | heq | hgt
    -- too short: the last byte of the file is not stored
    · have hlast : Origin.file (s - 1) ∈ stored (loadWords .zero (originAt s firstByte) length msb) := by
        refine List.mem_of_mem_take (h.once.mem_iff.mpr (List.mem_map_of_mem ?_))
        rw [List.mem_range'_1]
        omega
      rcases mem_stored hlast with hzero | ⟨k, hk, hbyte⟩
      · cases hzero
      · have hin : firstByte.toNat + k < s := by omega
        rw [originAt, if_pos hin, Origin.file.injEq] at hbyte
        omega
    · exact heq
    -- too long: the first byte behind the file is stored
    · have hunread : originAt s firstByte (s - firstByte.toNat) = .unread (s - firstByte.toNat) :=
        if_neg (by omega)
      have hstored := buffer_mem_stored .zero (originAt s firstByte) msb hgt
      rw [hunread] at hstored
      exact absurd hstored (h.read _)
  · rintro rfl
    refine ⟨length_loadWords _ _ _ _, ?_, fun k hk => ?_⟩
    · rw [← map_originAt]
      exact take_stored ..
    · rcases mem_stored hk with hzero | ⟨j, hj, hbyte⟩
      · cases hzero
      · rw [originAt, if_pos (by omega)] at hbyte
        cases hbyte

/-- The padding is blank if there is none, or if there is no word before it. -/
theorem paddingBlank_iff (h : regionLength s firstByte = (s - firstByte.toNat : Nat)) :
    PaddingBlank s firstByte msb ↔ (s - firstByte.toNat) % 4 = 0 ∨ s - firstByte.toNat < 4 := by
  have hws : origins s firstByte msb
      = some (loadWords .zero (originAt s firstByte) (s - firstByte.toNat) msb) := by
    rw [origins_eq_some, h, Int.toNat_natCast]
    exact ⟨Int.natCast_nonneg _, rfl⟩
  have hblank : PaddingBlank s firstByte msb ↔
      ∀ x ∈ padding .zero (originAt s firstByte) (s - firstByte.toNat), x = .zero := by
    simp only [PaddingBlank, hws, Option.some.injEq, forall_eq']
    rw [drop_stored]
  rw [hblank]
  constructor
  · intro hzero
    by_contra hnot
    obtain ⟨hrem, hfull⟩ := not_or.mp hnot
    -- the last byte of the word before
    have hlast := hzero _ (mem_padding_iff.mpr ⟨hrem, .inr
      ⟨4 * ((s - firstByte.toNat) / 4) - 1, by omega, by omega, rfl⟩⟩)
    rw [originAt, if_pos (by omega)] at hlast
    cases hlast
  · intro hcase x hx
    obtain ⟨hrem, ⟨-, hzero⟩ | ⟨k, hk, -, -⟩⟩ := mem_padding_iff.mp hx
    · exact hzero
    · omega

/-- What a loaded region changes. -/
theorem configureRegion_frame {ws : List (Bytes Origin)} (hws : origins s firstByte msb = some ws)
    (hsmall : ws.length < 2 ^ 31) (confAddr : BitVec 32) {bytes : List (BitVec 8)}
    (unread : Nat → BitVec 8) (mem : OrdMap (BitVec 32) (BitVec 32)) (hbytes : bytes.length = s) :
    ∃ mem', configureRegion mem (some bytes) confAddr firstByte msb unread = some mem' ∧
      ∀ k : BitVec 32, mem'[k]? = (Patch.span (confAddr >>> 2).toNat
        (ws.map fun v => toWord (Origin.value bytes unread ∘ v)) k.toNat).or mem[k]? := by
  refine ⟨_, ?_, fun k => getElem?_storeWords mem ?_ k⟩
  · rw [configureRegion, regionWords_eq, hbytes, hws, Option.map_some, Option.map_some, List.map_map]
    rfl
  · have hbound := confAddr.isLt
    rw [toNat_confAddr, List.length_map]
    omega

/-- **When a region is loaded exactly.** Of a file of `s` bytes, `configure_region` loads the part from
`first_byte` on, all of it and nothing else, if and only if `first_byte` is 0 or 2^31 and the part is
shorter than 2 GiB. If no byte of the file is to be repeated in the padding of the last word either, the
part has to be a number of words, or shorter than one. -/
theorem configureRegion_loads_iff (s : Nat) (firstByte confAddr : BitVec 32) (msb : Bool)
    (hfirst : firstByte.toNat ≤ s) :
    (LoadsRegion s firstByte confAddr msb ↔ LengthRight s firstByte) ∧
    (LoadsRegion s firstByte confAddr msb ∧ PaddingBlank s firstByte msb ↔
      LengthRight s firstByte ∧
        ((s - firstByte.toNat) % 4 = 0 ∨ s - firstByte.toNat < 4)) := by
  have hloads : LoadsRegion s firstByte confAddr msb ↔ LengthRight s firstByte := by
    rw [← regionLength_eq_iff hfirst]
    constructor
    · rintro ⟨ws, hws, hholds, -⟩
      obtain ⟨hpos, rfl⟩ := origins_eq_some.mp hws
      have hlength := (holdsRest_iff hfirst _).mp hholds
      omega
    · intro hlength
      have hws : origins s firstByte msb
          = some (loadWords .zero (originAt s firstByte) (s - firstByte.toNat) msb) := by
        rw [origins_eq_some, hlength, Int.toNat_natCast]
        exact ⟨Int.natCast_nonneg _, rfl⟩
      have hright := (regionLength_eq_iff hfirst).mp hlength
      have hsmall : (loadWords .zero (originAt s firstByte) (s - firstByte.toNat) msb).length
          < 2 ^ 31 := by
        have hshort := hright.2
        rw [length_loadWords]
        omega
      exact ⟨_, hws, (holdsRest_iff hfirst _).mpr rfl, fun bytes unread mem hbytes =>
        configureRegion_frame hws hsmall confAddr unread mem hbytes⟩
  refine ⟨hloads, ?_⟩
  rw [hloads]
  apply and_congr_right
  intro hright
  exact paddingBlank_iff ((regionLength_eq_iff hfirst).mpr hright)

/-- A whole file of seven bytes is loaded. -/
theorem configureRegion_loads_whole : LoadsRegion 7 0 0x400000 false :=
  (configureRegion_loads_iff 7 0 0x400000 false (by decide)).1.mpr ⟨.inl rfl, by decide⟩

/-- Of a file of four bytes, the three from the second one on are a word; two are stored. -/
theorem configureRegion_stores_unread :
    ¬ ∀ (s : Nat) (firstByte confAddr : BitVec 32) (msb : Bool), firstByte.toNat ≤ s →
      confAddr.toNat + (s - firstByte.toNat) ≤ 2 ^ 32 → LoadsRegion s firstByte confAddr msb := by
  intro h
  obtain ⟨ws, hws, hholds, -⟩ := h 4 1 0x400000 false (by decide) (by decide)
  have htwo : (origins 4 1 false).map List.length = some 2 := by decide
  rw [hws, Option.map_some, Option.some.injEq, hholds.length] at htwo
  revert htwo
  decide

end DeltaModels.Sdram
