import DeltaModels.Sdram.FlatMemory

/-!
# Addresses of the SDRAM

A word can be named in three ways: by its cell (row, bank and column), by the byte address that a
controller translates to a cell, and by its Wishbone address, which starts at `OFFSET`. This file has
the translations and `addressing_bijective`, which says that they agree.

All of them are packings of the same three fields, so the proofs are about `BitFields.join`: a
translation reads the fields of a number (`address_toRowBankColumn`), or puts them together again.
-/

namespace DeltaModels.Sdram

variable {A_SIZE BA_SIZE : Nat} {cfg : Config} {g : SdramGeom}

/-- `to_address`. -/
def toAddress (geometry : SdramGeom) (row bank col : BitVec 32) : BitVec 32 :=
  toWordAddress geometry row bank col <<< 2

/-- `to_row_bank_column`. -/
def toRowBankColumn (geometry : SdramGeom) (addr : BitVec 32) : Cell :=
  let addr := addr >>> 2
  { row := (addr >>> (geometry.bankBits + geometry.colBits)) &&& ((1#32 <<< geometry.rowBits) - 1)
    bank := (addr >>> geometry.colBits) &&& ((1#32 <<< geometry.bankBits) - 1)
    col := addr &&& ((1#32 <<< geometry.colBits) - 1) }

/-- `fromWishbone`. -/
def fromWishbone (cfg : Config) (addr : BitVec 32) : BitVec 32 := (addr - cfg.OFFSET) >>> 2

/-! ## Reading the fields -/

/-- The mask `(1 << w) - 1` takes the low `w` bits. -/
theorem toNat_and_mask (x : BitVec 32) {w : Nat} (hw : w < 32) :
    (x &&& ((1#32 <<< w) - 1)).toNat = x.toNat % 2 ^ w := by
  have hpow : 2 ^ w < 2 ^ 32 := Nat.pow_lt_pow_right (by omega) hw
  have hpos : 0 < 2 ^ w := Nat.two_pow_pos w
  have hone : (1#32 <<< w).toNat = 2 ^ w := by
    rw [BitVec.toNat_shiftLeft, BitVec.toNat_ofNat, Nat.shiftLeft_eq]
    omega
  have hmask : ((1#32 <<< w) - 1).toNat = 2 ^ w - 1 := by
    have h1 : (1 : BitVec 32).toNat = 1 := rfl
    rw [BitVec.toNat_sub, hone, h1]
    omega
  rw [BitVec.toNat_and, hmask, Nat.and_two_pow_sub_one_eq_mod]

/-- The fields of a byte address are those of its word. -/
theorem toNat_toRowBankColumn (hg : g.rowBits + g.bankBits + g.colBits ≤ 30) (addr : BitVec 32) :
    (toRowBankColumn g addr).row.toNat
        = addr.toNat / 4 / 2 ^ g.colBits / 2 ^ g.bankBits % 2 ^ g.rowBits ∧
      (toRowBankColumn g addr).bank.toNat = addr.toNat / 4 / 2 ^ g.colBits % 2 ^ g.bankBits ∧
      (toRowBankColumn g addr).col.toNat = addr.toNat / 4 % 2 ^ g.colBits := by
  have hword : (addr >>> 2).toNat = addr.toNat / 4 := by
    rw [BitVec.toNat_ushiftRight, Nat.shiftRight_eq_div_pow]
  refine ⟨?_, ?_, ?_⟩
  · rw [toRowBankColumn, toNat_and_mask _ (by omega), BitVec.toNat_ushiftRight, hword,
      Nat.shiftRight_eq_div_pow, Nat.add_comm g.bankBits, pow_add, ← Nat.div_div_eq_div_mul]
  · rw [toRowBankColumn, toNat_and_mask _ (by omega), BitVec.toNat_ushiftRight, hword,
      Nat.shiftRight_eq_div_pow]
  · rw [toRowBankColumn, toNat_and_mask _ (by omega), hword]

theorem toRowBankColumn_inRange (hg : g.rowBits + g.bankBits + g.colBits ≤ 30) (addr : BitVec 32) :
    (toRowBankColumn g addr).InRange g := by
  obtain ⟨hrow, hbank, hcol⟩ := toNat_toRowBankColumn hg addr
  constructor
  · rw [hrow]
    exact Nat.mod_lt _ (Nat.two_pow_pos _)
  · rw [hbank]
    exact Nat.mod_lt _ (Nat.two_pow_pos _)
  · rw [hcol]
    exact Nat.mod_lt _ (Nat.two_pow_pos _)

/-- Putting the fields of an address together gives its word, as far as the geometry reaches. -/
theorem address_toRowBankColumn (hg : g.rowBits + g.bankBits + g.colBits ≤ 30) (addr : BitVec 32) :
    ((toRowBankColumn g addr).address g).toNat
      = addr.toNat / 4 % 2 ^ (g.rowBits + g.bankBits + g.colBits) := by
  obtain ⟨hrow, hbank, hcol⟩ := toNat_toRowBankColumn hg addr
  rw [Cell.toNat_address hg (toRowBankColumn_inRange hg addr), hrow, hbank, hcol,
    BitFields.join_fields, BitFields.join_fields]

/-- A cell of the geometry can be read from the byte address of its word. -/
theorem toRowBankColumn_toAddress (hg : g.rowBits + g.bankBits + g.colBits ≤ 28) {t : Cell}
    (ht : t.InRange g) : toRowBankColumn g (toAddress g t.row t.bank t.col) = t := by
  have hg' : g.rowBits + g.bankBits + g.colBits ≤ 30 := by omega
  have hword : (toAddress g t.row t.bank t.col).toNat / 4
      = BitFields.join g.colBits (BitFields.join g.bankBits t.row.toNat t.bank.toNat)
          t.col.toNat := by
    have haddress := Cell.toNat_address hg' ht
    have hlt := BitFields.join_lt (BitFields.join_lt ht.row_lt ht.bank_lt) ht.col_lt
    have hpow : 2 ^ (g.rowBits + g.bankBits + g.colBits) ≤ 2 ^ 28 :=
      Nat.pow_le_pow_right (by omega) hg
    rw [Cell.address] at haddress
    rw [toAddress, BitVec.toNat_shiftLeft, haddress, Nat.shiftLeft_eq]
    omega
  obtain ⟨hrow, hbank, hcol⟩ := toNat_toRowBankColumn hg' (toAddress g t.row t.bank t.col)
  rw [hword, BitFields.join_div ht.col_lt] at hrow hbank
  rw [hword, BitFields.join_mod ht.col_lt] at hcol
  rw [BitFields.join_div ht.bank_lt, Nat.mod_eq_of_lt ht.row_lt] at hrow
  rw [BitFields.join_mod ht.bank_lt] at hbank
  generalize toRowBankColumn g (toAddress g t.row t.bank t.col) = u at hrow hbank hcol
  obtain ⟨row, bank, col⟩ := t
  obtain ⟨row', bank', col'⟩ := u
  simp only [Cell.mk.injEq]
  exact ⟨BitVec.eq_of_toNat_eq hrow, BitVec.eq_of_toNat_eq hbank, BitVec.eq_of_toNat_eq hcol⟩

/-! ## Wishbone addresses -/

/-- Inside the window of the device, an address and its distance from `OFFSET` have the same fields. -/
theorem address_of_window (hg : g.rowBits + g.bankBits + g.colBits ≤ 28) {offset addr : BitVec 32}
    (hoffset : 2 ^ (g.rowBits + g.bankBits + g.colBits + 2) ∣ offset.toNat)
    (hle : offset.toNat ≤ addr.toNat)
    (hlt : addr.toNat < offset.toNat + 2 ^ (g.rowBits + g.bankBits + g.colBits + 2)) :
    ((toRowBankColumn g addr).address g).toNat = (addr.toNat - offset.toNat) / 4 := by
  obtain ⟨k, hk⟩ := hoffset
  rw [address_toRowBankColumn (by omega)]
  generalize g.rowBits + g.bankBits + g.colBits = B at hk hlt ⊢
  have hpow : 2 ^ (B + 2) = 4 * 2 ^ B := by
    rw [pow_add, Nat.mul_comm]
    rfl
  have hword : addr.toNat / 4 = 2 ^ B * k + (addr.toNat - offset.toNat) / 4 := by
    rw [hpow, Nat.mul_assoc] at hk
    omega
  rw [hword, Nat.mul_add_mod]
  exact Nat.mod_eq_of_lt (by omega)

theorem toNat_fromWishbone {addr : BitVec 32} (hle : cfg.OFFSET.toNat ≤ addr.toNat) :
    (fromWishbone cfg addr).toNat = (addr.toNat - cfg.OFFSET.toNat) / 4 := by
  rw [fromWishbone, BitVec.toNat_ushiftRight, Nat.shiftRight_eq_div_pow,
    BitVec.toNat_sub_of_le (BitVec.le_def.mpr hle)]

/-- There and back gives the address of the word. -/
theorem toNat_toWishbone_fromWishbone {addr : BitVec 32} (hoffset : 4 ∣ cfg.OFFSET.toNat)
    (hle : cfg.OFFSET.toNat ≤ addr.toNat) :
    (toWishbone cfg (fromWishbone cfg addr)).toNat = addr.toNat / 4 * 4 := by
  have hlt := addr.isLt
  obtain ⟨k, hk⟩ := hoffset
  rw [toWishbone, BitVec.toNat_add, BitVec.toNat_shiftLeft, toNat_fromWishbone hle,
    Nat.shiftLeft_eq]
  omega

/-- An ACTIVATE of its row makes a bank's columns name the cells of that row. -/
theorem updateAddress_activate (cfg : Config) (s : State BA_SIZE) {p q : Bus A_SIZE BA_SIZE}
    {t : Cell} (hbank : p.bank = t.bank) (hrow : p.addr = t.row) (hbank' : q.bank = t.bank)
    (hcol : q.addr = t.col) :
    ((handleCmd cfg s .activate p).1.select q).updateAddress cfg = t.address cfg.geometry := by
  have hlt : q.bank.toNat < 2 ^ BA_SIZE := q.bank_lt
  have hopen : (s.openRow p p.addr).rowAddr[q.bank.toNat] = t.row := by
    simp [State.openRow, hbank, hbank', hrow]
  show toWordAddress cfg.geometry (s.openRow p p.addr).rowAddr[q.bank.toNat] q.bank q.addr = _
  rw [hopen, hbank', hcol]
  rfl

/-- **The address translations agree.** Byte addresses of the geometry and its cells are translated
into each other without loss. And if `OFFSET` is a multiple of the size of the device, its Wishbone
window is the device: the front door, opened at the row and bank of a Wishbone address and asked for
its column, reaches the word that the backdoor gives this address, which can be read from that word. -/
theorem addressing_bijective (cfg : Config)
    (hg : cfg.geometry.rowBits + cfg.geometry.bankBits + cfg.geometry.colBits ≤ 28) :
    let g := cfg.geometry
    let size := 2 ^ (g.rowBits + g.bankBits + g.colBits + 2)
    (∀ a : BitVec 32, a.toNat % 4 = 0 → a.toNat < size →
      let t := toRowBankColumn g a
      t.InRange g ∧ toAddress g t.row t.bank t.col = a) ∧
    (∀ t : Cell, t.InRange g → toRowBankColumn g (toAddress g t.row t.bank t.col) = t) ∧
    (size ∣ cfg.OFFSET.toNat → ∀ a : BitVec 32, cfg.OFFSET.toNat ≤ a.toNat →
      a.toNat < cfg.OFFSET.toNat + size →
      let t := toRowBankColumn g a
      toWordAddress g t.row t.bank t.col = fromWishbone cfg a ∧
      (∀ (s : State BA_SIZE) (p q : Bus A_SIZE BA_SIZE), p.bank = t.bank → p.addr = t.row →
        q.bank = t.bank → q.addr = t.col →
        ((handleCmd cfg s .activate p).1.select q).updateAddress cfg = fromWishbone cfg a) ∧
      (toWishbone cfg (fromWishbone cfg a)).toNat = a.toNat / 4 * 4) := by
  have hg' : cfg.geometry.rowBits + cfg.geometry.bankBits + cfg.geometry.colBits ≤ 30 := by omega
  refine ⟨fun a haligned hlt => ?_, fun t ht => toRowBankColumn_toAddress hg ht,
    fun hoffset a hle hlt => ?_⟩
  · refine ⟨toRowBankColumn_inRange hg' a, ?_⟩
    have haddress := address_toRowBankColumn hg' a
    have hword : a.toNat / 4 % 2 ^ (cfg.geometry.rowBits + cfg.geometry.bankBits
        + cfg.geometry.colBits) = a.toNat / 4 := by
      rw [pow_add] at hlt
      exact Nat.mod_eq_of_lt (by omega)
    rw [hword, Cell.address] at haddress
    apply BitVec.eq_of_toNat_eq
    have hbound := a.isLt
    rw [toAddress, BitVec.toNat_shiftLeft, haddress, Nat.shiftLeft_eq]
    omega
  · have haddress : (toRowBankColumn cfg.geometry a).address cfg.geometry = fromWishbone cfg a := by
      apply BitVec.eq_of_toNat_eq
      rw [address_of_window hg hoffset hle hlt, toNat_fromWishbone hle]
    refine ⟨haddress, fun s p q hbank hrow hbank' hcol => ?_, ?_⟩
    · rw [updateAddress_activate cfg s hbank hrow hbank' hcol, haddress]
    · refine toNat_toWishbone_fromWishbone (dvd_trans ?_ hoffset) hle
      exact pow_dvd_pow 2 (Nat.le_add_left 2 _)

/-- A device of 16 MiB at the default offset: a byte address, and a Wishbone address inside a word. -/
theorem addressing_bijective_default :
    let cfg : Config := { geometry := { rowBits := 12, bankBits := 2, colBits := 8 } }
    let t := toRowBankColumn cfg.geometry 0xfff0
    toAddress cfg.geometry t.row t.bank t.col = 0xfff0 ∧
      (toWishbone cfg (fromWishbone cfg 0x40000302)).toNat = 0x40000300 := by
  have h := @addressing_bijective 12 2
    { geometry := { rowBits := 12, bankBits := 2, colBits := 8 } } (by decide)
  exact ⟨(h.1 0xfff0 (by decide) (by decide)).2,
    (h.2.2 (by decide) 0x40000302 (by decide) (by decide)).2.2⟩

end DeltaModels.Sdram
