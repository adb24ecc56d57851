import Mathlib.Data.BitVec
import Mathlib.Tactic.Common

/-!
# The OR1K instruction set

An `Or1kDescriptor` recognises the words of one instruction by a mask and a value, and writes such a
word as text. `getOpcodes` is the table of the instruction set, in the order in which it is searched.
-/

namespace DeltaModels.Or1k

/-- `Or1kDescriptor`: the mnemonic, what its words look like and the operands to write. -/
structure Or1kDescriptor where
  rep : String
  mask : BitVec 32
  matcher : BitVec 32
  regs : List String
  deriving DecidableEq, Repr

/-- What the constructor of `Or1kDescriptor` checks, `(mask & matcher) == matcher`. -/
def Or1kDescriptor.Checked (d : Or1kDescriptor) : Prop := d.mask &&& d.matcher = d.matcher

instance (d : Or1kDescriptor) : Decidable d.Checked :=
  inferInstanceAs (Decidable (d.mask &&& d.matcher = d.matcher))

/-- `Or1kDescriptor::matches`. -/
def Or1kDescriptor.matchesWord (d : Or1kDescriptor) (word : BitVec 32) : Bool :=
  word &&& d.mask = d.matcher

theorem matchesWord_iff (d : Or1kDescriptor) (word : BitVec 32) :
    d.matchesWord word = true ↔ word &&& d.mask = d.matcher := by
  simp [Or1kDescriptor.matchesWord]

/-- A checked descriptor matches its own value. -/
theorem matchesWord_matcher {d : Or1kDescriptor} (hd : d.Checked) :
    d.matchesWord d.matcher = true := by
  rw [matchesWord_iff, BitVec.and_comm]
  exact hd

/-! ## Operands as text -/

/-- What `std::hex` prints. -/
def hex (n : Nat) : String := String.ofList (Nat.toDigits 16 n)

/-- `extend_sign`: the bits `i..0` as a signed number. -/
def extendSign (dat : BitVec 32) (i : Nat) : BitVec 32 := (dat <<< (31 - i)).sshiftRight (31 - i)

/-- The register numbered by four bits from `shift` on. -/
def reg (shift : Nat) (word : BitVec 32) : String :=
  "r" ++ toString ((word >>> shift) &&& 0xf#32).toNat

def regD (word : BitVec 32) : String := reg 21 word

def regA (word : BitVec 32) : String := reg 16 word

def regB (word : BitVec 32) : String := reg 11 word

/-- A signed immediate with sign bit `i`: hexadecimal unless negative. -/
def signed (i : Nat) (word : BitVec 32) : String :=
  let imm := (extendSign word i).toInt
  if 0 ≤ imm then "0x" ++ hex imm.toNat else toString imm

/-- An unsigned immediate; zero has no prefix. -/
def unsigned (imm : BitVec 32) : String :=
  if imm = 0 then "0" else "0x" ++ hex imm.toNat

def immI (word : BitVec 32) : String := signed 15 word

def immK (word : BitVec 32) : String := unsigned (word &&& 0xffff#32)

def immK2 (word : BitVec 32) : String :=
  unsigned ((((word >>> 21) &&& 0xf#32) <<< 11) ||| (word &&& 0x3ff#32))

def immL (word : BitVec 32) : String := unsigned (word &&& 0x3f#32)

def immN (word : BitVec 32) : String := signed 25 word

/-- The operand that `Or1kDescriptor::to_string` writes for a name; it does not know all names. -/
def operand (r : String) (word : BitVec 32) : Option String :=
  if r = "reg_d" then some (regD word)
  else if r = "reg_a" then some (regA word)
  else if r = "reg_b" then some (regB word)
  else if r = "imm_i" then some (immI word)
  else if r = "imm_k" then some (immK word)
  else if r = "imm_k2" then some (immK2 word)
  else if r = "imm_l" then some (immL word)
  else if r = "imm_n" then some (immN word)
  else none

/-- One round of the loop in `Or1kDescriptor::to_string`. -/
def appendOperand (word : BitVec 32) (tmp r : String) : String :=
  match operand r word with
  | some text => tmp ++ text ++ ", "
  | none => tmp

/-- `Or1kDescriptor::to_string`. -/
def Or1kDescriptor.toString (d : Or1kDescriptor) (word : BitVec 32) : String :=
  d.rep ++ " " ++ d.regs.foldl (appendOperand word) ""

/-! ## The table -/

def SHIFT_6BITS : Nat := 26
def MASK_6BITS : BitVec 32 := 0x3F#32 <<< SHIFT_6BITS
def SHIFT_8BITS : Nat := 24
def MASK_8BITS : BitVec 32 := 0xFF#32 <<< SHIFT_8BITS
def SHIFT_11BITS : Nat := 21
def MASK_11BITS : BitVec 32 := 0x7FF#32 <<< SHIFT_11BITS
def SHIFT_16BITS : Nat := 16
def MASK_16BITS : BitVec 32 := 0xFFFF#32 <<< SHIFT_16BITS
def ALU_MATCHER : BitVec 32 := 0x38#32 <<< SHIFT_6BITS
def ALU_MASK_ARITH : BitVec 32 := MASK_6BITS + (0x3#32 <<< 8) + 0xF
def ALU_MASK_LOGIC : BitVec 32 := MASK_6BITS + (0xF#32 <<< 6) + 0xF
def SHIFTER_MATCHER : BitVec 32 := 0x2e#32 <<< SHIFT_6BITS
def SHIFTER_MASK : BitVec 32 := MASK_6BITS + (0x3#32 <<< 6)
def MAC_MATCHER : BitVec 32 := 0x31#32 <<< SHIFT_6BITS
def MAC_MASK : BitVec 32 := MASK_6BITS + 0xF
def MASK_32BITS : BitVec 32 := 0xFFFFFFFF

/-- `Or1kDefs::get_opcodes`. -/
def getOpcodes : List Or1kDescriptor := [
  -- ORBIS32
  ⟨"l.nop", MASK_8BITS, 0x15#32 <<< SHIFT_8BITS, ["imm_k"]⟩,
  ⟨"l.mfspr", MASK_6BITS, 0x2d#32 <<< SHIFT_6BITS, ["reg_d", "reg_a", "imm_k"]⟩,
  ⟨"l.mtspr", MASK_6BITS, 0x30#32 <<< SHIFT_6BITS, ["reg_a", "reg_b", "imm_k2"]⟩,
  ⟨"l.movhi", MASK_6BITS, 0x6#32 <<< SHIFT_6BITS, ["reg_d", "imm_k"]⟩,
  -- Control
  ⟨"l.j", MASK_6BITS, 0#32 <<< SHIFT_6BITS, ["imm_n"]⟩,
  ⟨"l.jr", MASK_6BITS, 0x11#32 <<< SHIFT_6BITS, ["reg_b"]⟩,
  ⟨"l.jal", MASK_6BITS, 0x1#32 <<< SHIFT_6BITS, ["imm_n"]⟩,
  ⟨"l.jalr", MASK_6BITS, 0x12#32 <<< SHIFT_6BITS, ["reg_b"]⟩,
  ⟨"l.bf", MASK_6BITS, 0x4#32 <<< SHIFT_6BITS, ["imm_n"]⟩,
  ⟨"l.bnf", MASK_6BITS, 0x3#32 <<< SHIFT_6BITS, ["imm_n"]⟩,
  -- Load & Store
  ⟨"l.lwa", MASK_6BITS, 0x1b#32 <<< SHIFT_6BITS, []⟩,
  ⟨"l.lwz", MASK_6BITS, 0x21#32 <<< SHIFT_6BITS, ["reg_d", "imm_i", "reg_a"]⟩,
  ⟨"l.lws", MASK_6BITS, 0x22#32 <<< SHIFT_6BITS, ["reg_d", "imm_i", "reg_a"]⟩,
  ⟨"l.lhz", MASK_6BITS, 0x25#32 <<< SHIFT_6BITS, ["reg_d", "imm_i", "reg_a"]⟩,
  ⟨"l.lhs", MASK_6BITS, 0x26#32 <<< SHIFT_6BITS, ["reg_d", "imm_i", "reg_a"]⟩,
  ⟨"l.lbz", MASK_6BITS, 0x23#32 <<< SHIFT_6BITS, ["reg_d", "imm_i", "reg_a"]⟩,
  ⟨"l.lbs", MASK_6BITS, 0x24#32 <<< SHIFT_6BITS, ["reg_d", "imm_i", "reg_a"]⟩,
  ⟨"l.swa", MASK_6BITS, 0x33#32 <<< SHIFT_6BITS, []⟩,
  ⟨"l.sw", MASK_6BITS, 0x35#32 <<< SHIFT_6BITS, ["imm_i2", "reg_a", "reg_b"]⟩,
  ⟨"l.sh", MASK_6BITS, 0x37#32 <<< SHIFT_6BITS, ["imm_i2", "reg_a", "reg_b"]⟩,
  ⟨"l.sb", MASK_6BITS, 0x36#32 <<< SHIFT_6BITS, ["imm_i2", "reg_a", "reg_b"]⟩,
  -- Sign/Zero Extend
  ⟨"l.extwz", ALU_MASK_LOGIC, ALU_MATCHER + (0x1#32 <<< 6) + 0xd, ["reg_d", "reg_a"]⟩,
  ⟨"l.extws", ALU_MASK_LOGIC, ALU_MATCHER + 0xd, ["reg_d", "reg_a"]⟩,
  ⟨"l.exthz", ALU_MASK_LOGIC, ALU_MATCHER + (0x2#32 <<< 6) + 0xc, ["reg_d", "reg_a"]⟩,
  ⟨"l.exths", ALU_MASK_LOGIC, ALU_MATCHER + 0xc, ["reg_d", "reg_a"]⟩,
  ⟨"l.extbz", ALU_MASK_LOGIC, ALU_MATCHER + (0x3#32 <<< 6) + 0xc, ["reg_d", "reg_a"]⟩,
  ⟨"l.extbs", ALU_MASK_LOGIC, ALU_MATCHER + (0x1#32 <<< 6) + 0xc, ["reg_d", "reg_a"]⟩,
  -- ALU (reg, reg)
  ⟨"l.add", ALU_MASK_ARITH, ALU_MATCHER + 0x0, ["reg_d", "reg_a", "reg_b"]⟩,
  ⟨"l.addc", ALU_MASK_ARITH, ALU_MATCHER + 0x1, ["reg_d", "reg_a", "reg_b"]⟩,
  ⟨"l.sub", ALU_MASK_ARITH, ALU_MATCHER + 0x2, ["reg_d", "reg_a", "reg_b"]⟩,
  ⟨"l.and", ALU_MASK_ARITH, ALU_MATCHER + 0x3, ["reg_d", "reg_a", "reg_b"]⟩,
  ⟨"l.or", ALU_MASK_ARITH, ALU_MATCHER + 0x4, ["reg_d", "reg_a", "reg_b"]⟩,
  ⟨"l.xor", ALU_MASK_ARITH, ALU_MATCHER + 0x5, ["reg_d", "reg_a", "reg_b"]⟩,
  ⟨"l.cmov", ALU_MASK_ARITH, ALU_MATCHER + 0xe, ["reg_d", "reg_a", "reg_b"]⟩,
  ⟨"l.ff1", ALU_MASK_ARITH, ALU_MATCHER + 0xf, ["reg_d", "reg_a", "reg_b"]⟩,
  ⟨"l.cmov", ALU_MASK_ARITH, ALU_MATCHER + 0xe, ["reg_d", "reg_a", "reg_b"]⟩,
  ⟨"l.ff1", ALU_MASK_ARITH, ALU_MATCHER + 0xf, []⟩,
  ⟨"l.fl1", ALU_MASK_ARITH, ALU_MATCHER + (0x1#32 <<< 8) + 0xf, ["reg_d", "reg_a", "reg_b"]⟩,
  ⟨"l.sll", ALU_MASK_LOGIC, ALU_MATCHER + 0x8, ["reg_d", "reg_a", "reg_b"]⟩,
  ⟨"l.srl", ALU_MASK_LOGIC, ALU_MATCHER + (0x1#32 <<< 8) + 0x8, ["reg_d", "reg_a", "reg_b"]⟩,
  ⟨"l.sra", ALU_MASK_LOGIC, ALU_MATCHER + (0x2#32 <<< 8) + 0x8, ["reg_d", "reg_a", "reg_b"]⟩,
  ⟨"l.ror", ALU_MASK_LOGIC, ALU_MATCHER + (0x3#32 <<< 8) + 0x8, ["reg_d", "reg_a", "reg_b"]⟩,
  ⟨"l.mul", ALU_MASK_ARITH, ALU_MATCHER + (0x3#32 <<< 8) + 0x6, ["reg_d", "reg_a", "reg_b"]⟩,
  ⟨"l.mulu", ALU_MASK_ARITH, ALU_MATCHER + (0x3#32 <<< 8) + 0xb, ["reg_d", "reg_a", "reg_b"]⟩,
  ⟨"l.muld", ALU_MASK_ARITH, ALU_MATCHER + (0x3#32 <<< 8) + 0x7, ["reg_d", "reg_a", "reg_b"]⟩,
  ⟨"l.muldu", ALU_MASK_ARITH, ALU_MATCHER + (0x3#32 <<< 8) + 0xc, ["reg_d", "reg_a", "reg_b"]⟩,
  ⟨"l.div", ALU_MASK_ARITH, ALU_MATCHER + (0x3#32 <<< 8) + 0x9, ["reg_d", "reg_a", "reg_b"]⟩,
  ⟨"l.divu", ALU_MASK_ARITH, ALU_MATCHER + (0x3#32 <<< 8) + 0xa, ["reg_d", "reg_a", "reg_b"]⟩,
  -- ALU (reg, imm)
  ⟨"l.addi", MASK_6BITS, 0x27#32 <<< SHIFT_6BITS, ["reg_d", "reg_a", "imm_i"]⟩,
  ⟨"l.addic", MASK_6BITS, 0x28#32 <<< SHIFT_6BITS, ["reg_d", "reg_a", "imm_i"]⟩,
  ⟨"l.andi", MASK_6BITS, 0x29#32 <<< SHIFT_6BITS, ["reg_d", "reg_a", "imm_k"]⟩,
  ⟨"l.ori", MASK_6BITS, 0x2a#32 <<< SHIFT_6BITS, ["reg_d", "reg_a", "imm_k"]⟩,
  ⟨"l.xori", MASK_6BITS, 0x2b#32 <<< SHIFT_6BITS, ["reg_d", "reg_a", "imm_i"]⟩,
  ⟨"l.muli", MASK_6BITS, 0x2c#32 <<< SHIFT_6BITS, ["reg_d", "reg_a", "imm_i"]⟩,
  ⟨"l.slli", SHIFTER_MASK, SHIFTER_MATCHER, ["reg_d", "reg_a", "imm_l"]⟩,
  ⟨"l.srli", SHIFTER_MASK, SHIFTER_MATCHER + (0x1#32 <<< 6), ["reg_d", "reg_a", "imm_i"]⟩,
  ⟨"l.srai", SHIFTER_MASK, SHIFTER_MATCHER + (0x2#32 <<< 6), ["reg_d", "reg_a", "imm_i"]⟩,
  ⟨"l.rori", SHIFTER_MASK, SHIFTER_MATCHER + (0x3#32 <<< 6), ["reg_d", "reg_a", "imm_i"]⟩,
  -- Comparison (reg, reg)
  ⟨"l.sfeq", MASK_11BITS, 0x720#32 <<< SHIFT_11BITS, ["reg_a", "reg_b"]⟩,
  ⟨"l.sfne", MASK_11BITS, 0x721#32 <<< SHIFT_11BITS, ["reg_a", "reg_b"]⟩,
  ⟨"l.sfgtu", MASK_11BITS, 0x722#32 <<< SHIFT_11BITS, ["reg_a", "reg_b"]⟩,
  ⟨"l.sfgeu", MASK_11BITS, 0x723#32 <<< SHIFT_11BITS, ["reg_a", "reg_b"]⟩,
  ⟨"l.sfltu", MASK_11BITS, 0x724#32 <<< SHIFT_11BITS, ["reg_a", "reg_b"]⟩,
  ⟨"l.sfleu", MASK_11BITS, 0x725#32 <<< SHIFT_11BITS, ["reg_a", "reg_b"]⟩,
  ⟨"l.sfgts", MASK_11BITS, 0x72a#32 <<< SHIFT_11BITS, ["reg_a", "reg_b"]⟩,
  ⟨"l.sfges", MASK_11BITS, 0x72b#32 <<< SHIFT_11BITS, ["reg_a", "reg_b"]⟩,
  ⟨"l.sflts", MASK_11BITS, 0x72c#32 <<< SHIFT_11BITS, ["reg_a", "reg_b"]⟩,
  ⟨"l.sfles", MASK_11BITS, 0x72d#32 <<< SHIFT_11BITS, ["reg_a", "reg_b"]⟩,
  -- Comparison (reg, imm)
  ⟨"l.sfeqi", MASK_11BITS, 0x5e0#32 <<< SHIFT_11BITS, ["reg_a", "imm_i"]⟩,
  ⟨"l.sfnei", MASK_11BITS, 0x5e1#32 <<< SHIFT_11BITS, ["reg_a", "imm_i"]⟩,
  ⟨"l.sfgtui", MASK_11BITS, 0x5e2#32 <<< SHIFT_11BITS, ["reg_a", "imm_i"]⟩,
  ⟨"l.sfgeui", MASK_11BITS, 0x5e3#32 <<< SHIFT_11BITS, ["reg_a", "imm_i"]⟩,
  ⟨"l.sfltui", MASK_11BITS, 0x5e4#32 <<< SHIFT_11BITS, ["reg_a", "imm_i"]⟩,
  ⟨"l.sfleui", MASK_11BITS, 0x5e5#32 <<< SHIFT_11BITS, ["reg_a", "imm_i"]⟩,
  ⟨"l.sfgtsi", MASK_11BITS, 0x5ea#32 <<< SHIFT_11BITS, ["reg_a", "imm_i"]⟩,
  ⟨"l.sfgesi", MASK_11BITS, 0x5eb#32 <<< SHIFT_11BITS, ["reg_a", "imm_i"]⟩,
  ⟨"l.sfltsi", MASK_11BITS, 0x5ec#32 <<< SHIFT_11BITS, ["reg_a", "imm_i"]⟩,
  ⟨"l.sflesi", MASK_11BITS, 0x5ed#32 <<< SHIFT_11BITS, ["reg_a", "imm_i"]⟩,
  -- Multiply Accumulate
  ⟨"l.mac", MAC_MASK, MAC_MATCHER + 0x1, []⟩,
  ⟨"l.macu", MAC_MASK, MAC_MATCHER + 0x3, []⟩,
  ⟨"l.msb", MAC_MASK, MAC_MATCHER + 0x2, []⟩,
  ⟨"l.msbu", MAC_MASK, MAC_MATCHER + 0x4, []⟩,
  ⟨"l.maci", MASK_11BITS, 0x13#32 <<< SHIFT_11BITS, []⟩,
  ⟨"l.macrc", MASK_6BITS + 0x1FFFF, (0x6#32 <<< SHIFT_6BITS) + 0x10000, []⟩,
  -- System Interface
  ⟨"l.sys", MASK_16BITS, 0x2000#32 <<< SHIFT_16BITS, []⟩,
  ⟨"l.trap", MASK_16BITS, 0x2001#32 <<< SHIFT_16BITS, []⟩,
  ⟨"l.msync", MASK_32BITS, 0x22000000, []⟩,
  ⟨"l.psync", MASK_32BITS, 0x22800000, []⟩,
  ⟨"l.csync", MASK_32BITS, 0x23000000, []⟩,
  ⟨"l.rfe", MASK_6BITS, 0x9#32 <<< SHIFT_6BITS, []⟩]

/-- The constructor has nothing to report. -/
theorem getOpcodes_checked : ∀ d ∈ getOpcodes, d.Checked := by decide +kernel

end DeltaModels.Or1k
