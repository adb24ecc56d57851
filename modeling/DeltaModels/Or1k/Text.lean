import DeltaModels.Library.BitFields
import DeltaModels.Library.Masks
import DeltaModels.Library.Text
import DeltaModels.Or1k.Defs

/-!
# What the disassembly shows

The operands of a word lie in fields of bits. `field` says where; `lost` are the bits of a field that
`to_string` does not write: it takes four of the five bits of a register number, four and ten of the
five and eleven of `imm_k2`, and does not know `imm_i2` at all.

A text shows the other bits and no more (`toString_eq_iff`), so it tells two words apart unless they
differ in lost bits alone.
-/

namespace DeltaModels.Or1k

/-! ## Fields -/

/-- The bits `hi..lo`. -/
def bits (hi lo : Nat) : BitVec 32 := ((1#32 <<< (hi - lo + 1)) - 1#32) <<< lo

/-- Where the operand lies in a word. -/
def field (r : String) : BitVec 32 :=
  if r = "reg_d" then bits 25 21
  else if r = "reg_a" then bits 20 16
  else if r = "reg_b" then bits 15 11
  else if r = "imm_i" ∨ r = "imm_k" then bits 15 0
  else if r = "imm_k2" ∨ r = "imm_i2" then bits 25 21 ||| bits 10 0
  else if r = "imm_l" then bits 5 0
  else if r = "imm_n" then bits 25 0
  else 0

/-- The bits of the field that are not written. -/
def lost (r : String) : BitVec 32 :=
  if r = "reg_d" then bits 25 25
  else if r = "reg_a" then bits 20 20
  else if r = "reg_b" then bits 15 15
  else if r = "imm_k2" then bits 25 25 ||| bits 10 10
  else if r = "imm_i2" then bits 25 21 ||| bits 10 0
  else 0

/-- The bits of the field that are. -/
def shown (r : String) : BitVec 32 := field r &&& ~~~lost r

variable {w w' : BitVec 32}

/-! ## Rendering -/

theorem toList_hex (n : Nat) : (hex n).toList = Nat.toDigits 16 n := String.toList_ofList

theorem toList_toString_neg {a : Int} (h : a < 0) :
    (toString a).toList = '-' :: Nat.toDigits 10 a.natAbs := by
  obtain ⟨n, rfl⟩ := Int.eq_negSucc_of_lt_zero h
  show ("-" ++ Nat.repr (n + 1)).toList = _
  rw [String.toList_append, Nat.toList_repr]
  rfl

/-- A register is named by its number. -/
theorem reg_eq_iff (shift : Nat) :
    reg shift w = reg shift w' ↔ w &&& (0xf#32 <<< shift) = w' &&& (0xf#32 <<< shift) := by
  rw [← Masks.ushiftRight_and_eq_iff]
  constructor
  · intro h
    have hdigits := congrArg String.toList h
    simp only [reg, String.toList_append, List.append_cancel_left_eq, Nat.toString_eq_repr,
      Nat.toList_repr] at hdigits
    exact BitVec.eq_of_toNat_eq (Text.toDigits_injective (by omega) (by omega) hdigits)
  · intro h
    rw [reg, reg, h]

theorem unsigned_inj {imm imm' : BitVec 32} : unsigned imm = unsigned imm' ↔ imm = imm' := by
  refine ⟨fun h => ?_, fun h => h ▸ rfl⟩
  have htext := congrArg String.toList h
  simp only [unsigned] at htext
  split at htext
  · next hzero =>
    split at htext
    · next hzero' => rw [hzero, hzero']
    · simp [toList_hex] at htext
  · split at htext
    · simp [toList_hex] at htext
    · simp only [String.toList_append, List.append_cancel_left_eq, toList_hex] at htext
      exact BitVec.eq_of_toNat_eq (Text.toDigits_injective (by omega) (by omega) htext)

theorem signed_eq_iff (i : Nat) :
    signed i w = signed i w' ↔
      w &&& (BitVec.allOnes 32 >>> (31 - i)) = w' &&& (BitVec.allOnes 32 >>> (31 - i)) := by
  rw [← Masks.sshiftRight_shiftLeft_eq_iff]
  refine ⟨fun h => ?_, fun h => ?_⟩
  · have htext := congrArg String.toList h
    refine BitVec.eq_of_toInt_eq ?_
    show (extendSign w i).toInt = (extendSign w' i).toInt
    simp only [signed] at htext
    split at htext
    · next hpos =>
      split at htext
      · next hpos' =>
        simp only [String.toList_append, List.append_cancel_left_eq, toList_hex] at htext
        have hnat := Text.toDigits_injective (by omega) (by omega) htext
        omega
      · next hneg' =>
        rw [toList_toString_neg (by omega)] at htext
        simp at htext
    · next hneg =>
      rw [toList_toString_neg (by omega)] at htext
      split at htext
      · simp at htext
      · next hneg' =>
        rw [toList_toString_neg (by omega), List.cons.injEq] at htext
        have hnat := Text.toDigits_injective (by omega) (by omega) htext.2
        omega
  · rw [signed, signed, extendSign, extendSign, h]

/-! ## Operands -/

theorem comma_notMem_toDigits {b : Nat} (hb : 1 < b) (hb' : b ≤ 16) (n : Nat) :
    ',' ∉ Nat.toDigits b n := by
  intro hmem
  obtain ⟨d, hd, hcomma⟩ := Text.mem_toDigits hb n hmem
  have hdigits : ∀ d < 16, ',' ≠ Nat.digitChar d := by decide
  exact hdigits d (by omega) hcomma

/-- A rendering shows the bits of a mask and writes no comma. -/
structure Renders (render : BitVec 32 → String) (m : BitVec 32) : Prop where
  eq_iff : ∀ w w', render w = render w' ↔ w &&& m = w' &&& m
  no_comma : ∀ w, ',' ∉ (render w).toList

theorem renders_reg (shift : Nat) : Renders (reg shift) (0xf#32 <<< shift) where
  eq_iff _ _ := reg_eq_iff shift
  no_comma w := by
    have hdigits := comma_notMem_toDigits (b := 10) (by omega) (by omega)
      ((w >>> shift) &&& 0xf#32).toNat
    simp only [reg, String.toList_append, Nat.toString_eq_repr, Nat.toList_repr, List.mem_append,
      not_or]
    exact ⟨by decide, hdigits⟩

theorem comma_notMem_unsigned (imm : BitVec 32) : ',' ∉ (unsigned imm).toList := by
  have hdigits := comma_notMem_toDigits (b := 16) (by omega) (by omega) imm.toNat
  rw [unsigned]
  split
  · simp
  · simp [toList_hex, hdigits]

theorem renders_unsigned (m : BitVec 32) : Renders (fun w => unsigned (w &&& m)) m where
  eq_iff _ _ := unsigned_inj
  no_comma _ := comma_notMem_unsigned _

theorem renders_signed (i : Nat) :
    Renders (signed i) (BitVec.allOnes 32 >>> (31 - i)) where
  eq_iff _ _ := signed_eq_iff i
  no_comma w := by
    simp only [signed]
    split
    · have hdigits := comma_notMem_toDigits (b := 16) (by omega) (by omega)
        (extendSign w i).toInt.toNat
      simp [toList_hex, hdigits]
    · have hdigits := comma_notMem_toDigits (b := 10) (by omega) (by omega)
        (extendSign w i).toInt.natAbs
      rw [toList_toString_neg (by omega)]
      simp [hdigits]

theorem toNat_and_le (x m : BitVec 32) : (x &&& m).toNat ≤ m.toNat := by
  rw [BitVec.toNat_and]
  exact Nat.and_le_right

/-- Four bits above ten others, as `imm_k2` puts them together. -/
theorem toNat_immK2 (hi lo : BitVec 32) :
    (((hi &&& 0xf#32) <<< 11) ||| (lo &&& 0x3ff#32)).toNat
      = BitFields.join 11 (hi &&& 0xf#32).toNat (lo &&& 0x3ff#32).toNat := by
  have hhi : (hi &&& 0xf#32).toNat ≤ 0xf := toNat_and_le hi _
  have hlo : (lo &&& 0x3ff#32).toNat ≤ 0x3ff := toNat_and_le lo _
  have hfits : (hi &&& 0xf#32).toNat <<< 11 < 2 ^ 32 := by
    rw [Nat.shiftLeft_eq]
    omega
  rw [BitVec.toNat_or, BitVec.toNat_shiftLeft, Nat.mod_eq_of_lt hfits,
    ← Nat.shiftLeft_add_eq_or_of_lt (by omega), Nat.shiftLeft_eq, BitFields.join]

theorem renders_immK2 : Renders immK2 (0xf#32 <<< 21 ||| 0x3ff#32) where
  eq_iff w w' := by
    rw [immK2, immK2, unsigned_inj, Masks.and_or_eq_iff, ← Masks.ushiftRight_and_eq_iff]
    constructor
    · intro h
      have hjoin := congrArg BitVec.toNat h
      rw [toNat_immK2, toNat_immK2] at hjoin
      have hfits : ∀ v : BitVec 32, (v &&& 0x3ff#32).toNat < 2 ^ 11 :=
        fun v => Nat.lt_of_le_of_lt (toNat_and_le v _) (by decide)
      obtain ⟨hhi, hlo⟩ := BitFields.join_inj (hfits w) (hfits w') hjoin
      exact ⟨BitVec.eq_of_toNat_eq hhi, BitVec.eq_of_toNat_eq hlo⟩
    · rintro ⟨hhi, hlo⟩
      rw [hhi, hlo]
  no_comma _ := comma_notMem_unsigned _

/-- An operand that `to_string` knows shows its bits; of the others nothing is shown. -/
theorem operand_cases (r : String) :
    (∃ render, Renders render (shown r) ∧ ∀ w, operand r w = some (render w)) ∨
      (∀ w, operand r w = none) ∧ shown r = 0 := by
  by_cases hd : r = "reg_d"
  · subst hd
    exact .inl ⟨regD, renders_reg 21, fun _ => rfl⟩
  by_cases ha : r = "reg_a"
  · subst ha
    exact .inl ⟨regA, renders_reg 16, fun _ => rfl⟩
  by_cases hb : r = "reg_b"
  · subst hb
    exact .inl ⟨regB, renders_reg 11, fun _ => rfl⟩
  by_cases hi : r = "imm_i"
  · subst hi
    exact .inl ⟨immI, renders_signed 15, fun _ => rfl⟩
  by_cases hk : r = "imm_k"
  · subst hk
    exact .inl ⟨immK, renders_unsigned 0xffff, fun _ => rfl⟩
  by_cases hk2 : r = "imm_k2"
  · subst hk2
    exact .inl ⟨immK2, renders_immK2, fun _ => rfl⟩
  by_cases hl : r = "imm_l"
  · subst hl
    exact .inl ⟨immL, renders_unsigned 0x3f, fun _ => rfl⟩
  by_cases hn : r = "imm_n"
  · subst hn
    exact .inl ⟨immN, renders_signed 25, fun _ => rfl⟩
  right
  by_cases hi2 : r = "imm_i2"
  · subst hi2
    exact ⟨fun _ => rfl, rfl⟩
  · simp [operand, shown, field, hd, ha, hb, hi, hk, hk2, hi2, hl, hn]

/-- Texts of an operand differ exactly in the bits that it shows. -/
theorem operand_eq_iff (r : String) :
    operand r w = operand r w' ↔ w &&& shown r = w' &&& shown r := by
  rcases operand_cases r with ⟨render, hrender, heq⟩ | ⟨heq, hshown⟩
  · rw [heq, heq, Option.some.injEq, hrender.eq_iff]
  · rw [heq, heq, hshown]
    simp

theorem isSome_operand_eq (r : String) (w w' : BitVec 32) :
    (operand r w).isSome = (operand r w').isSome := by
  rcases operand_cases r with ⟨render, -, heq⟩ | ⟨heq, -⟩
  · rw [heq, heq]
    rfl
  · rw [heq, heq]

theorem comma_notMem_operand {r text : String} (h : operand r w = some text) :
    ',' ∉ text.toList := by
  rcases operand_cases r with ⟨render, hrender, heq⟩ | ⟨heq, -⟩
  · rw [heq, Option.some.injEq] at h
    rw [← h]
    exact hrender.no_comma w
  · rw [heq] at h
    cases h

/-! ## Lines -/

/-- The operands that are written. -/
def operands (regs : List String) (w : BitVec 32) : List String :=
  regs.filterMap fun r => operand r w

/-- A line is the mnemonic, a space and the operands, each followed by a comma and a space. -/
theorem toList_toString (d : Or1kDescriptor) (w : BitVec 32) :
    (d.toString w).toList = (d.rep.toList ++ [' '])
      ++ ((operands d.regs w).map String.toList).flatMap (· ++ ',' :: [' ']) := by
  have hfold : ∀ (regs : List String) (tmp : String), (regs.foldl (appendOperand w) tmp).toList
      = tmp.toList ++ ((operands regs w).map String.toList).flatMap (· ++ ',' :: [' ']) := by
    intro regs
    induction regs with
    | nil => intro tmp; simp [operands]
    | cons r regs ih =>
      intro tmp
      rw [List.foldl_cons, ih]
      cases hr : operand r w with
      | none => simp [operands, appendOperand, hr]
      | some text => simp [operands, appendOperand, hr]
  rw [Or1kDescriptor.toString, String.toList_append, String.toList_append, hfold]
  rfl

/-- Two words have the same operands written exactly when each of them is. -/
theorem operands_eq_iff (regs : List String) :
    operands regs w = operands regs w' ↔ ∀ r ∈ regs, operand r w = operand r w' := by
  induction regs with
  | nil => simp [operands]
  | cons r regs ih =>
    rw [List.forall_mem_cons, ← ih]
    have hsome := isSome_operand_eq r w w'
    cases hw : operand r w with
    | none =>
      cases hw' : operand r w' with
      | none => simp [operands, hw, hw']
      | some text => simp [hw, hw'] at hsome
    | some text =>
      cases hw' : operand r w' with
      | none => simp [hw, hw'] at hsome
      | some text' => simp [operands, hw, hw']

/-- **What a text shows.** Two words have the same text exactly when they agree on the bits that are
shown of their operands. -/
theorem toString_eq_iff (d : Or1kDescriptor) : d.toString w = d.toString w' ↔
    ∀ r ∈ d.regs, w &&& shown r = w' &&& shown r := by
  have hoperands : d.toString w = d.toString w' ↔ operands d.regs w = operands d.regs w' := by
    constructor
    · intro h
      have htext := congrArg String.toList h
      rw [toList_toString, toList_toString, List.append_cancel_left_eq] at htext
      have hcomma : ∀ v, ∀ f ∈ (operands d.regs v).map String.toList, ',' ∉ f := by
        intro v f hf
        obtain ⟨text, htext, rfl⟩ := List.mem_map.mp hf
        obtain ⟨r, -, hr⟩ := List.mem_filterMap.mp htext
        exact comma_notMem_operand hr
      have hmap := Text.terminated_injective (hcomma w) (hcomma w') htext
      exact List.map_injective_iff.mpr (fun _ _ => String.toList_inj.mp) hmap
    · intro h
      rw [← String.toList_inj, toList_toString, toList_toString, h]
  rw [hoperands, operands_eq_iff]
  exact forall₂_congr fun r _ => operand_eq_iff r

/-! ## What is lost -/

/-- The words agree on the bits that `m` gives for each operand. -/
def Agree (m : String → BitVec 32) (regs : List String) (w w' : BitVec 32) : Prop :=
  ∀ r ∈ regs, w &&& m r = w' &&& m r

theorem field_eq (r : String) : field r = shown r ||| lost r := by
  unfold shown field lost
  split_ifs <;> first | rfl | simp_all

theorem agree_field_iff (regs : List String) :
    Agree field regs w w' ↔ Agree shown regs w w' ∧ Agree lost regs w w' := by
  simp only [Agree, field_eq, Masks.and_or_eq_iff]
  constructor
  · exact fun h => ⟨fun r hr => (h r hr).1, fun r hr => (h r hr).2⟩
  · exact fun h r hr => ⟨h.1 r hr, h.2 r hr⟩

/-- Disassembly loses no operand: words have equal texts exactly when they agree on all the fields,
and each entry of the list contributes one operand. -/
structure Lossless (d : Or1kDescriptor) : Prop where
  text_eq_iff : ∀ w w', d.matchesWord w = true → d.matchesWord w' = true →
    (d.toString w = d.toString w' ↔ Agree field d.regs w w')
  rendered : ∀ w, d.matchesWord w = true → (operands d.regs w).length = d.regs.length

/-- Of two words the text tells the truth unless they differ in lost bits alone. -/
theorem text_eq_iff_agree_iff (d : Or1kDescriptor) (w w' : BitVec 32) :
    (d.toString w = d.toString w' ↔ Agree field d.regs w w') ↔
      (Agree shown d.regs w w' → Agree lost d.regs w w') := by
  have htext : d.toString w = d.toString w' ↔ Agree shown d.regs w w' := toString_eq_iff d
  rw [htext, agree_field_iff]
  constructor
  · exact fun h hshown => (h.mp hshown).2
  · exact fun h => ⟨fun hshown => ⟨hshown, h hshown⟩, fun hboth => hboth.1⟩

/-- The operands of which nothing is lost. -/
def wholeOperands : List String := ["imm_i", "imm_k", "imm_l", "imm_n"]

theorem lost_eq_zero {r : String} (h : r ∈ wholeOperands) : lost r = 0#32 := by
  simp only [wholeOperands, List.mem_cons, List.not_mem_nil, or_false] at h
  rcases h with rfl | rfl | rfl | rfl <;> rfl

theorem isSome_operand {r : String} (h : r ∈ wholeOperands) (w : BitVec 32) :
    (operand r w).isSome = true := by
  simp only [wholeOperands, List.mem_cons, List.not_mem_nil, or_false] at h
  rcases h with rfl | rfl | rfl | rfl <;> rfl

/-- The bits that are shown of some operand. -/
def shownAll (regs : List String) : BitVec 32 := regs.foldr (fun r m => shown r ||| m) 0#32

/-- The bits of an operand that are neither shown, for it or another one, nor fixed. -/
def hidden (d : Or1kDescriptor) (r : String) : BitVec 32 :=
  lost r &&& ~~~(d.mask ||| shownAll d.regs)

/-- In the table, every operand that is not whole has hidden bits. -/
theorem whole_of_hidden_eq_zero :
    ∀ d ∈ getOpcodes, ∀ r ∈ d.regs, hidden d r = 0 → r ∈ wholeOperands := by
  decide +kernel

theorem getLsbD_shownAll (regs : List String) (i : Nat) :
    (shownAll regs).getLsbD i = regs.any fun r => (shown r).getLsbD i := by
  induction regs with
  | nil => simp [shownAll]
  | cons r regs ih =>
    rw [List.any_cons, ← ih]
    exact BitVec.getLsbD_or

theorem mask_and_hidden (d : Or1kDescriptor) (r : String) : d.mask &&& hidden d r = 0#32 := by
  apply BitVec.eq_of_getLsbD_eq
  intro i hi
  simp only [hidden, BitVec.getLsbD_and, BitVec.getLsbD_not, BitVec.getLsbD_or,
    BitVec.getLsbD_zero, hi, decide_true, Bool.true_and]
  cases d.mask.getLsbD i <;> simp

theorem shown_and_hidden {d : Or1kDescriptor} {s : String} (hs : s ∈ d.regs) (r : String) :
    shown s &&& hidden d r = 0#32 := by
  apply BitVec.eq_of_getLsbD_eq
  intro i hi
  simp only [hidden, BitVec.getLsbD_and, BitVec.getLsbD_not, BitVec.getLsbD_or,
    BitVec.getLsbD_zero, getLsbD_shownAll, hi, decide_true, Bool.true_and]
  cases hbit : (shown s).getLsbD i with
  | false => rfl
  | true =>
    have hany : (d.regs.any fun r => (shown r).getLsbD i) = true :=
      List.any_eq_true.mpr ⟨s, hs, hbit⟩
    rw [hany]
    simp

theorem hidden_and_lost (d : Or1kDescriptor) (r : String) : hidden d r &&& lost r = hidden d r := by
  rw [hidden, BitVec.and_comm, ← BitVec.and_assoc, BitVec.and_self]

/-- A descriptor of the table whose disassembly is lossless has whole operands only. -/
theorem Lossless.whole {d : Or1kDescriptor} (h : Lossless d) (hd : d ∈ getOpcodes) :
    ∀ r ∈ d.regs, r ∈ wholeOperands := by
  intro r hr
  refine whole_of_hidden_eq_zero d hd r hr ?_
  -- two words of the instruction, apart in hidden bits only
  have hmatch : d.matchesWord d.matcher = true := matchesWord_matcher (getOpcodes_checked d hd)
  have hmatch' : d.matchesWord (d.matcher ^^^ hidden d r) = true := by
    rw [matchesWord_iff, Masks.xor_and_of_disjoint (mask_and_hidden d r), ← matchesWord_iff]
    exact hmatch
  have hshown : Agree shown d.regs (d.matcher ^^^ hidden d r) d.matcher :=
    fun s hs => Masks.xor_and_of_disjoint (shown_and_hidden hs r)
  have hfield := (h.text_eq_iff _ _ hmatch' hmatch).mp ((toString_eq_iff d).mpr hshown)
  have hlost := ((agree_field_iff d.regs).mp hfield).2 r hr
  exact Masks.eq_zero_of_xor_and_eq (hidden_and_lost d r) hlost

/-- Whole operands lose nothing, in whatever descriptor. -/
theorem lossless_of_whole {d : Or1kDescriptor} (h : ∀ r ∈ d.regs, r ∈ wholeOperands) :
    Lossless d where
  text_eq_iff w w' _ _ := by
    refine (text_eq_iff_agree_iff d w w').mpr fun _ r hr => ?_
    rw [lost_eq_zero (h r hr), BitVec.and_zero, BitVec.and_zero]
  rendered w _ := List.filterMap_length_eq_length.mpr fun r hr => isSome_operand (h r hr) w

/-- **When no operand is lost.** The text of a word of the table tells it from another one exactly
unless the two differ in lost bits alone; and a descriptor of the table is lossless for all its words
exactly when nothing is lost of any of its operands. -/
theorem lossless_iff {d : Or1kDescriptor} (hd : d ∈ getOpcodes) :
    (∀ w w', d.matchesWord w = true → d.matchesWord w' = true →
      ((d.toString w = d.toString w' ↔ Agree field d.regs w w') ↔
        (Agree shown d.regs w w' → Agree lost d.regs w w'))) ∧
    (Lossless d ↔ ∀ r ∈ d.regs, r ∈ wholeOperands) :=
  ⟨fun w w' _ _ => text_eq_iff_agree_iff d w w', fun h => h.whole hd, lossless_of_whole⟩

/-- Jumps are disassembled without loss. -/
theorem lossless_jump : Lossless ⟨"l.j", MASK_6BITS, 0#32 <<< SHIFT_6BITS, ["imm_n"]⟩ :=
  (lossless_iff (by simp [getOpcodes])).2.mpr (by decide)

/-- The register `r16` is written as `r0`. -/
theorem getOpcodes_loses_register : ¬ ∀ d ∈ getOpcodes, Lossless d := by
  intro h
  have hmovhi := h ⟨"l.movhi", MASK_6BITS, 0x6#32 <<< SHIFT_6BITS, ["reg_d", "imm_k"]⟩
    (by simp [getOpcodes])
  have hagree := (hmovhi.text_eq_iff 0x18000000 0x1a000000 (by decide) (by decide)).mp (by decide)
  have hregD := hagree "reg_d" (by decide)
  revert hregD
  decide

end DeltaModels.Or1k
