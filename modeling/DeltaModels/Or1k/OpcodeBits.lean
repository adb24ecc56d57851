import DeltaModels.Or1k.Text

/-!
# Opcode bits in the text

The mask of a descriptor selects the bits that tell its instruction from the others. They are no part
of an operand, so a text should not depend on them.

Which bits a text depends on is known (`toString_eq_iff`), and `leaked` are those of them that the mask
selects. In the table there are some in three entries only. `l.srli`, `l.srai` and `l.rori` write their
shift amount as `imm_i`, 16 bits from the bottom, where `l.slli` has `imm_l`; and so the two bits that
tell these four instructions apart are written as part of the amount (`opcodeFree_iff`).
-/

namespace DeltaModels.Or1k

/-- The text is the same for words that differ in opcode bits only. -/
def OpcodeFree (d : Or1kDescriptor) : Prop :=
  ∀ w w', w &&& ~~~d.mask = w' &&& ~~~d.mask → d.toString w = d.toString w'

/-- The opcode bits that are shown. -/
def leaked (d : Or1kDescriptor) : BitVec 32 := shownAll d.regs &&& d.mask

variable {d : Or1kDescriptor} {w w' : BitVec 32}

theorem agree_shown_iff (regs : List String) :
    Agree shown regs w w' ↔ w &&& shownAll regs = w' &&& shownAll regs := by
  induction regs with
  | nil => simp [Agree, shownAll]
  | cons r regs ih =>
    have hcons : shownAll (r :: regs) = shown r ||| shownAll regs := rfl
    rw [Agree, List.forall_mem_cons, ← Agree, ih, hcons, Masks.and_or_eq_iff]

/-- **What a text tells of the opcode**: of two words that differ in opcode bits only, it tells those
that are shown. -/
theorem toString_eq_iff_leaked (h : w &&& ~~~d.mask = w' &&& ~~~d.mask) :
    d.toString w = d.toString w' ↔ w &&& leaked d = w' &&& leaked d := by
  rw [toString_eq_iff, ← Agree, agree_shown_iff]
  exact Masks.and_eq_iff_of_outside h _

/-- A text is free of opcode bits exactly if none is shown. -/
theorem opcodeFree_iff_leaked : OpcodeFree d ↔ leaked d = 0#32 := by
  constructor
  · intro h
    have hmask : d.mask &&& leaked d = leaked d := by
      rw [leaked, BitVec.and_comm, BitVec.and_assoc, BitVec.and_self]
    have hself : leaked d &&& leaked d = leaked d := BitVec.and_self
    -- two words that differ in the leaked bits and no others
    have houtside : (0 ^^^ leaked d) &&& ~~~d.mask = 0 &&& ~~~d.mask := by
      refine Masks.xor_and_of_disjoint ?_
      rw [leaked, BitVec.and_comm, BitVec.and_assoc]
      simp
    exact Masks.eq_zero_of_xor_and_eq hself ((toString_eq_iff_leaked houtside).mp (h _ _ houtside))
  · intro h w w' houtside
    rw [toString_eq_iff_leaked houtside, h, BitVec.and_zero, BitVec.and_zero]

/-! ## The table -/

/-- The shifts by an immediate amount whose amount is written as `imm_i`. -/
def wideShifts : List String := ["l.srli", "l.srai", "l.rori"]

/-- The two bits that tell the shifts by an immediate amount apart. -/
def shiftBits : BitVec 32 := bits 7 6

theorem leaked_eq : ∀ d ∈ getOpcodes, leaked d = if d.rep ∈ wideShifts then shiftBits else 0#32 := by
  decide +kernel

/-- **When operands are free of opcode bits**: in every entry of the table but three. In those, of words
that agree outside of the mask, exactly those have the same text that are of the same shift. -/
theorem opcodeFree_iff (hd : d ∈ getOpcodes) :
    (OpcodeFree d ↔ d.rep ∉ wideShifts) ∧
    ∀ w w', w &&& ~~~d.mask = w' &&& ~~~d.mask →
      (d.toString w = d.toString w' ↔
        d.rep ∉ wideShifts ∨ w &&& shiftBits = w' &&& shiftBits) := by
  have hleaked := leaked_eq d hd
  by_cases hrep : d.rep ∈ wideShifts
  · rw [if_pos hrep] at hleaked
    refine ⟨?_, fun w w' h => ?_⟩
    · rw [opcodeFree_iff_leaked, hleaked]
      exact iff_of_false (by decide) fun hnot => hnot hrep
    · rw [toString_eq_iff_leaked h, hleaked, or_iff_right fun hnot => hnot hrep]
  · rw [if_neg hrep] at hleaked
    have hfree : OpcodeFree d := opcodeFree_iff_leaked.mpr hleaked
    exact ⟨iff_of_true hfree hrep, fun w w' h => iff_of_true (hfree w w' h) (.inl hrep)⟩

/-- The shift to the left writes its amount and nothing else. -/
theorem opcodeFree_slli :
    OpcodeFree ⟨"l.slli", SHIFTER_MASK, SHIFTER_MATCHER, ["reg_d", "reg_a", "imm_l"]⟩ :=
  (opcodeFree_iff (by simp [getOpcodes])).1.mpr (by decide)

/-- A logical shift to the right by 1 is written with the amount 0x41. -/
theorem opcodeFree_not_srli : ¬ ∀ d ∈ getOpcodes, OpcodeFree d := by
  intro h
  have hsrli := h ⟨"l.srli", SHIFTER_MASK, SHIFTER_MATCHER + (0x1#32 <<< 6), ["reg_d", "reg_a", "imm_i"]⟩
    (by simp [getOpcodes])
  have htext := hsrli 0xb8000041 0xb8000001 (by decide)
  revert htext
  decide

end DeltaModels.Or1k
