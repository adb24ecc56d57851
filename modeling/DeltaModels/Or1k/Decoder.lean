import DeltaModels.Library.FirstMatch
import DeltaModels.Library.Masks
import DeltaModels.Or1k.Defs

/-!
# `Or1kDecoder`

`parse` searches a table of descriptors for the first that matches a word. Whether the order of the
table matters is decided by the pairs of descriptors that `Clash`, those with a word in common:
`orderFree_iff` asks that they have one mnemonic. `check_opcodes` compares the values alone, and so
sees only the clashes of descriptors that match the same words.
-/

namespace DeltaModels.Or1k

/-- The descriptor that `Or1kDecoder::parse` finds. -/
def decode (descriptors : List Or1kDescriptor) (word : BitVec 32) : Option Or1kDescriptor :=
  descriptors.find? fun d => d.matchesWord word

/-- `Or1kDecoder::parse`. -/
def parse (descriptors : List Or1kDescriptor) (word : BitVec 32) : Option String :=
  (decode descriptors word).map fun d => d.toString word

/-- `Or1kDecoder::check_opcodes`. -/
def checkOpcodes (descriptors : List Or1kDescriptor) : Bool :=
  descriptors.all fun d => descriptors.all fun k => !(d.rep != k.rep && d.matcher == k.matcher)

/-- The mnemonic that `parse` yields. -/
def mnemonic (descriptors : List Or1kDescriptor) (word : BitVec 32) : Option String :=
  (decode descriptors word).map fun d => d.rep

/-- The text begins with the mnemonic. -/
theorem parse_eq_some {descriptors : List Or1kDescriptor} {word : BitVec 32} {text : String}
    (h : parse descriptors word = some text) :
    ∃ rep operands, mnemonic descriptors word = some rep ∧ text = rep ++ " " ++ operands := by
  obtain ⟨d, hd, rfl⟩ := Option.map_eq_some_iff.mp h
  exact ⟨d.rep, _, Option.map_eq_some_iff.mpr ⟨d, hd, rfl⟩, rfl⟩

/-- What the check says, in the order in which it is quick to find out. -/
theorem checkOpcodes_iff (descriptors : List Or1kDescriptor) : checkOpcodes descriptors = true ↔
    ∀ d ∈ descriptors, ∀ k ∈ descriptors, d.matcher = k.matcher → d.rep = k.rep := by
  simp only [checkOpcodes, List.all_eq_true, Bool.not_eq_true', Bool.and_eq_false_iff,
    bne_eq_false_iff_eq, beq_eq_false_iff_ne]
  refine forall₄_congr fun d _ k _ => ?_
  constructor
  · rintro (hrep | hmatcher) heq
    · exact hrep
    · exact absurd heq hmatcher
  · intro h
    by_cases hmatcher : d.matcher = k.matcher
    · exact .inl (h hmatcher)
    · exact .inr hmatcher

/-! ## Order -/

/-- Decoding does not depend on the order of the table: all descriptors that match a word have one
mnemonic, `parse` yields the same one for every order, and yields each one for some word. -/
structure OrderFree (descriptors : List Or1kDescriptor) : Prop where
  agree : ∀ word, ∀ d ∈ descriptors, ∀ k ∈ descriptors, d.matchesWord word = true →
    k.matchesWord word = true → d.rep = k.rep
  perm : ∀ word order, order.Perm descriptors → mnemonic order word = mnemonic descriptors word
  produced : ∀ d ∈ descriptors, ∃ word, mnemonic descriptors word = some d.rep

/-- The values of the descriptors agree on the bits that both masks select. -/
def Clash (d k : Or1kDescriptor) : Prop := (d.matcher ^^^ k.matcher) &&& (d.mask &&& k.mask) = 0#32

instance (d k : Or1kDescriptor) : Decidable (Clash d k) :=
  inferInstanceAs (Decidable ((d.matcher ^^^ k.matcher) &&& (d.mask &&& k.mask) = 0#32))

/-- Descriptors clash when they have a word in common. -/
theorem clash_iff {d k : Or1kDescriptor} (hd : d.Checked) (hk : k.Checked) :
    Clash d k ↔ ∃ word, d.matchesWord word = true ∧ k.matchesWord word = true := by
  simp only [matchesWord_iff]
  exact (Masks.exists_common_iff hd hk).symm

/-- **When the order does not matter.** Of a table of descriptors that pass the check of the
constructor, decoding is independent of the order exactly when descriptors with different mnemonics
differ in a bit that both masks select. -/
theorem orderFree_iff {descriptors : List Or1kDescriptor} (hchecked : ∀ d ∈ descriptors, d.Checked) :
    OrderFree descriptors ↔
      ∀ d ∈ descriptors, ∀ k ∈ descriptors, Clash d k → d.rep = k.rep := by
  constructor
  · intro h d hd k hk hclash
    obtain ⟨word, hword⟩ := (clash_iff (hchecked d hd) (hchecked k hk)).mp hclash
    exact h.agree word d hd k hk hword.1 hword.2
  · intro h
    have hagree : ∀ word, ∀ d ∈ descriptors, ∀ k ∈ descriptors, d.matchesWord word = true →
        k.matchesWord word = true → d.rep = k.rep := by
      intro word d hd k hk hdword hkword
      exact h d hd k hk ((clash_iff (hchecked d hd) (hchecked k hk)).mpr ⟨word, hdword, hkword⟩)
    exact {
      agree := hagree
      perm := fun word order hperm => FirstMatch.map_find?_perm (hagree word) hperm
      produced := fun d hd => ⟨d.matcher,
        FirstMatch.map_find?_eq_some (hagree d.matcher) hd (matchesWord_matcher (hchecked d hd))⟩ }

/-! ## The table of the instruction set -/

/-- The table passes `check_opcodes`. -/
theorem checkOpcodes_getOpcodes : checkOpcodes getOpcodes = true := by
  rw [checkOpcodes_iff]
  decide +kernel

/-- The two instructions of the table whose words another one matches as well: `l.maci`, whose value
is shifted too little, those of `l.j`, and `l.macrc` those of `l.movhi`. -/
theorem getOpcodes_clash : ∀ d ∈ getOpcodes, ∀ k ∈ getOpcodes, Clash d k →
    d.rep = k.rep ∨ d.rep ∈ ["l.maci", "l.macrc"] ∨ k.rep ∈ ["l.maci", "l.macrc"] := by
  decide +kernel

/-- Without these two, the order of the table would not matter. -/
theorem orderFree_rest :
    OrderFree (getOpcodes.filter fun d => d.rep ∉ ["l.maci", "l.macrc"]) :=
  (orderFree_iff fun d hd => getOpcodes_checked d (List.mem_of_mem_filter hd)).mpr (by
    intro d hd k hk hclash
    obtain ⟨hd, hdrep⟩ := List.mem_filter.mp hd
    obtain ⟨hk, hkrep⟩ := List.mem_filter.mp hk
    rcases getOpcodes_clash d hd k hk hclash with h | h | h
    · exact h
    · exact absurd h (of_decide_eq_true hdrep)
    · exact absurd h (of_decide_eq_true hkrep))

/-- The table of the instruction set passes both checks, and yet its order matters. -/
theorem getOpcodes_order_matters :
    ¬ ∀ descriptors : List Or1kDescriptor, (∀ d ∈ descriptors, d.Checked) →
      checkOpcodes descriptors = true → OrderFree descriptors := by
  intro h
  have hfree := h getOpcodes getOpcodes_checked checkOpcodes_getOpcodes
  have hboth : ∃ d ∈ getOpcodes, ∃ k ∈ getOpcodes, d.matchesWord 0x02600000 = true ∧
      k.matchesWord 0x02600000 = true ∧ d.rep ≠ k.rep := by
    decide +kernel
  obtain ⟨d, hd, k, hk, hdword, hkword, hrep⟩ := hboth
  exact hrep (hfree.agree 0x02600000 d hd k hk hdword hkword)

end DeltaModels.Or1k
