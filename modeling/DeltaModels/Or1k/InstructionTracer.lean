import DeltaModels.Library.Text
import DeltaModels.Or1k.Decoder
import DeltaModels.Or1k.Text

/-!
# `Or1kInstructionTracer`

The tracer looks at the instruction bus at every change of its clock and writes a line for each word
that is acknowledged while the clock is up: the time, the address, the four bytes of the word and its
disassembly. A disassembly leaves bits out, and a word that matches no descriptor has none; but the
bytes are there, so the file tells of every fetch what was fetched, when and from where
(`instruction_file_read`). If the tracer stops on invalid words, the file tells all of it up to the
first of these.
-/

namespace DeltaModels.Or1k

variable {AWIDTH DWIDTH : Nat}

/-- What `sc_time::to_string` writes: a number, a blank and a unit. -/
structure Stamp where
  number : List Char
  unit : List Char
  number_plain : ∀ c ∈ number, c ≠ ' ' ∧ c ≠ '\n'
  unit_plain : ∀ c ∈ unit, c ≠ ' ' ∧ c ≠ '\n'

def Stamp.text (time : Stamp) : List Char := time.number ++ ' ' :: time.unit

/-- The pins at a change of the clock. -/
structure Fetch (AWIDTH DWIDTH : Nat) where
  time : Stamp
  clk : BitVec 1
  ibusAdr : BitVec AWIDTH
  ibusDat : BitVec DWIDTH
  ibusAck : BitVec 1

/-- `SC_REPORT_ERROR`, which throws. -/
structure Report where
  msgType : String
  msg : String
  deriving DecidableEq, Repr

structure Or1kInstructionTracer where
  or1k : List Or1kDescriptor
  stopOnInvalid : Bool

/-- `"@{:12s} {:08x} {:02x} {:02x} {:02x} {:02x} "` and the text. -/
def fetchLine (time : Stamp) (adr data : BitVec 32) (text : List Char) : List Char :=
  '@' :: Text.padRight 12 time.text
    ++ ' ' :: Text.padHex 8 adr.toNat
    ++ ' ' :: Text.padHex 2 ((data >>> 24) &&& 0xff).toNat
    ++ ' ' :: Text.padHex 2 ((data >>> 16) &&& 0xff).toNat
    ++ ' ' :: Text.padHex 2 ((data >>> 8) &&& 0xff).toNat
    ++ ' ' :: Text.padHex 2 (data &&& 0xff).toNat
    ++ ' ' :: text

/-- The report of a word that matches no descriptor. -/
def noInstruction (data : BitVec 32) : Report where
  msgType := "TLM-ROUTER"
  msg := "OR1K_DEBUGGER: command 0x" ++ hex data.toNat ++ " does not match any defined instruction"

namespace Or1kInstructionTracer

/-- `Or1kInstructionTracer::parse`: the line that it writes, if it writes one. -/
def parse (tracer : Or1kInstructionTracer) (f : Fetch AWIDTH DWIDTH) :
    Except Report (Option (List Char)) :=
  if f.clk = 1 then
    if f.ibusAck = 1 then
      let data := f.ibusDat.setWidth 32
      match Or1k.parse tracer.or1k data with
      | some st => .ok (some (fetchLine f.time (f.ibusAdr.setWidth 32) data st.toList))
      | none =>
        if tracer.stopOnInvalid then .error (noInstruction data)
        else
          .ok (some (fetchLine f.time (f.ibusAdr.setWidth 32) data "invalid-instruction".toList))
    else .ok none
  else .ok none

/-- The file that a run writes, a line at a time, and the report that ends it. -/
def logFile (tracer : Or1kInstructionTracer) : List (Fetch AWIDTH DWIDTH) → List Char × Option Report
  | [] => ([], none)
  | f :: fs =>
    match tracer.parse f with
    | .ok (some line) => (line ++ ['\n'] ++ (logFile tracer fs).1, (logFile tracer fs).2)
    | .ok none => logFile tracer fs
    | .error report => ([], some report)

end Or1kInstructionTracer

/-! ## Reading the file -/

/-- What a line tells. -/
structure FetchEntry where
  number : List Char
  unit : List Char
  address : BitVec 32
  word : BitVec 32
  text : List Char
  deriving DecidableEq, Repr

/-- A number of `width` digits behind a blank. -/
def readField (width : Nat) : List Char → Option (Nat × List Char)
  | ' ' :: cs => Text.takeHex width cs
  | _ => none

/-- Reads a line. There is one blank or more behind the time. -/
def readLine : List Char → Option FetchEntry
  | '@' :: cs => do
    let (number, cs) := Text.takeWord cs
    let (unit, cs) := Text.takeWord cs
    let (address, cs) ← Text.takeHex 8 (cs.dropWhile (· = ' '))
    let (b3, cs) ← readField 2 cs
    let (b2, cs) ← readField 2 cs
    let (b1, cs) ← readField 2 cs
    let (b0, cs) ← readField 2 cs
    return {
      number := number
      unit := unit
      address := BitVec.ofNat 32 address
      word := BitVec.ofNat 32 (((b3 * 256 + b2) * 256 + b1) * 256 + b0)
      text := cs.tail }
  | _ => none

/-- Reads a file; each line ends with a newline. -/
def readFile (file : List Char) : Option (List FetchEntry) :=
  (file.splitOn '\n').dropLast.mapM readLine

/-! ## One line -/

theorem readField_padHex {width n : Nat} (hpos : 0 < width) (h : n < 16 ^ width) (cs : List Char) :
    readField width (' ' :: (Text.padHex width n ++ cs)) = some (n, cs) :=
  Text.takeHex_padHex hpos h cs

/-- A byte of a word. -/
theorem toNat_byte (data : BitVec 32) (i : Nat) :
    ((data >>> i) &&& 0xff).toNat = data.toNat / 2 ^ i % 256 := by
  rw [BitVec.toNat_and, BitVec.toNat_ushiftRight, Nat.shiftRight_eq_div_pow]
  exact Nat.and_two_pow_sub_one_eq_mod _ 8

theorem toNat_byte_lt (data : BitVec 32) (i : Nat) : ((data >>> i) &&& 0xff).toNat < 16 ^ 2 := by
  rw [toNat_byte]
  exact Nat.mod_lt _ (by decide)

/-- The bytes make up the word. -/
theorem ofNat_bytes (data : BitVec 32) :
    BitVec.ofNat 32 ((((((data >>> 24) &&& 0xff).toNat * 256 + ((data >>> 16) &&& 0xff).toNat) * 256
      + ((data >>> 8) &&& 0xff).toNat) * 256 + (data &&& 0xff).toNat)) = data := by
  have hlow := toNat_byte data 0
  rw [BitVec.ushiftRight_zero] at hlow
  refine BitVec.eq_of_toNat_eq ?_
  have hlt := data.isLt
  rw [BitVec.toNat_ofNat, toNat_byte, toNat_byte, toNat_byte, hlow]
  omega

theorem replicate_append_cons (k : Nat) (cs : List Char) :
    List.replicate k ' ' ++ ' ' :: cs = ' ' :: (List.replicate k ' ' ++ cs) := by
  rw [← List.singleton_append, ← List.append_assoc, ← List.replicate_succ', List.replicate_succ]
  rfl

/-- **A line can be read.** -/
theorem readLine_fetchLine (time : Stamp) (adr data : BitVec 32) (text : List Char) :
    readLine (fetchLine time adr data text)
      = some ⟨time.number, time.unit, adr, data, text⟩ := by
  have hnumber : ' ' ∉ time.number := fun h => (time.number_plain _ h).1 rfl
  have hunit : ' ' ∉ time.unit := fun h => (time.unit_plain _ h).1 rfl
  have hadr : adr.toNat < 16 ^ 8 := adr.isLt
  have hlow := toNat_byte_lt data 0
  rw [BitVec.ushiftRight_zero] at hlow
  simp only [fetchLine, Text.padRight, Stamp.text, List.cons_append, List.append_assoc,
    replicate_append_cons, readLine, Text.takeWord_append hnumber, Text.takeWord_append hunit,
    Text.dropBlanks_padHex, Text.takeHex_padHex (by decide : 0 < 8) hadr,
    readField_padHex (by decide : 0 < 2) (toNat_byte_lt data _),
    readField_padHex (by decide : 0 < 2) hlow, Option.bind_eq_bind, Option.bind_some,
    List.tail_cons, ofNat_bytes, BitVec.ofNat_toNat, BitVec.setWidth_eq]
  rfl

/-- A line is one line. -/
theorem newline_notMem_fetchLine (time : Stamp) (adr data : BitVec 32) {text : List Char}
    (htext : '\n' ∉ text) : '\n' ∉ fetchLine time adr data text := by
  have hnumber : '\n' ∉ time.number := fun h => (time.number_plain _ h).2 rfl
  have hunit : '\n' ∉ time.unit := fun h => (time.unit_plain _ h).2 rfl
  have hblanks : ∀ k, '\n' ∉ List.replicate k ' ' := fun k h =>
    absurd (List.eq_of_mem_replicate h) (by decide)
  have hdigits : ∀ width n, '\n' ∉ Text.padHex width n := Text.notMem_padHex (by decide)
  simp [fetchLine, Text.padRight, Stamp.text, hnumber, hunit, hblanks, hdigits, htext]

/-! ## Disassemblies are of one line -/

/-- A character that no operand is written with. -/
structure Foreign (c : Char) : Prop where
  letters : c ≠ 'r' ∧ c ≠ 'x' ∧ c ≠ '-'
  digits : ∀ d < 16, c ≠ Nat.digitChar d

namespace Foreign

variable {c : Char}

theorem notMem_toDigits (hc : Foreign c) {b : Nat} (hb : 1 < b) (hb' : b ≤ 16) (n : Nat) :
    c ∉ Nat.toDigits b n := by
  intro hmem
  obtain ⟨d, hd, hdigit⟩ := Text.mem_toDigits hb n hmem
  exact hc.digits d (by omega) hdigit

theorem notMem_reg (hc : Foreign c) (shift : Nat) (word : BitVec 32) :
    c ∉ (reg shift word).toList := by
  simp only [reg, String.toList_append, List.mem_append, not_or, Nat.toString_eq_repr,
    Nat.toList_repr]
  exact ⟨by simp [hc.letters], hc.notMem_toDigits (by decide) (by decide) _⟩

theorem notMem_hex (hc : Foreign c) (n : Nat) : c ∉ ("0x" ++ hex n).toList := by
  have hzero : c ≠ '0' := hc.digits 0 (by decide)
  have hdigits := hc.notMem_toDigits (b := 16) (by decide) (by decide) n
  simp [toList_hex, hzero, hc.letters, hdigits]

theorem notMem_unsigned (hc : Foreign c) (imm : BitVec 32) : c ∉ (unsigned imm).toList := by
  rw [unsigned]
  split
  · have hzero : c ≠ '0' := hc.digits 0 (by decide)
    simpa using hzero
  · exact hc.notMem_hex _

theorem notMem_signed (hc : Foreign c) (i : Nat) (word : BitVec 32) :
    c ∉ (signed i word).toList := by
  simp only [signed]
  split
  · exact hc.notMem_hex _
  · have hdigits := hc.notMem_toDigits (b := 10) (by decide) (by decide)
      (extendSign word i).toInt.natAbs
    rw [toList_toString_neg (by omega)]
    simp [hdigits, hc.letters]

theorem notMem_operand (hc : Foreign c) {r text : String} {word : BitVec 32}
    (h : operand r word = some text) : c ∉ text.toList := by
  unfold operand at h
  split at h
  · exact Option.some.inj h ▸ hc.notMem_reg 21 word
  split at h
  · exact Option.some.inj h ▸ hc.notMem_reg 16 word
  split at h
  · exact Option.some.inj h ▸ hc.notMem_reg 11 word
  split at h
  · exact Option.some.inj h ▸ hc.notMem_signed 15 word
  split at h
  · exact Option.some.inj h ▸ hc.notMem_unsigned _
  split at h
  · exact Option.some.inj h ▸ hc.notMem_unsigned _
  split at h
  · exact Option.some.inj h ▸ hc.notMem_unsigned _
  split at h
  · exact Option.some.inj h ▸ hc.notMem_signed 25 word
  cases h

end Foreign

theorem newline_foreign : Foreign '\n' := ⟨by decide, by decide⟩

/-- A disassembly is of one line if the mnemonics are. -/
theorem newline_notMem_parse {descriptors : List Or1kDescriptor}
    (hrep : ∀ d ∈ descriptors, '\n' ∉ d.rep.toList) {word : BitVec 32} {text : String}
    (h : parse descriptors word = some text) : '\n' ∉ text.toList := by
  obtain ⟨d, hd, rfl⟩ := Option.map_eq_some_iff.mp h
  have hmem : d ∈ descriptors := List.mem_of_find?_eq_some hd
  have hoperands : ∀ f ∈ (operands d.regs word).map String.toList, '\n' ∉ f := by
    intro f hf
    obtain ⟨text, htext, rfl⟩ := List.mem_map.mp hf
    obtain ⟨r, -, hr⟩ := List.mem_filterMap.mp htext
    exact newline_foreign.notMem_operand hr
  rw [toList_toString]
  simp only [List.mem_append, not_or, List.mem_flatMap, not_exists, not_and]
  refine ⟨⟨hrep d hmem, by decide⟩, fun f hf => ⟨hoperands f hf, by decide⟩⟩

theorem newline_notMem_rep : ∀ d ∈ getOpcodes, '\n' ∉ d.rep.toList := by decide +kernel

/-! ## The file -/

/-- A word is acknowledged. -/
def Fetch.acked (f : Fetch AWIDTH DWIDTH) : Bool := f.clk = 1 ∧ f.ibusAck = 1

/-- The word on the bus. -/
def Fetch.word (f : Fetch AWIDTH DWIDTH) : BitVec 32 := f.ibusDat.setWidth 32

/-- What there is to tell of it. -/
def Fetch.entry (descriptors : List Or1kDescriptor) (f : Fetch AWIDTH DWIDTH) : FetchEntry where
  number := f.time.number
  unit := f.time.unit
  address := f.ibusAdr.setWidth 32
  word := f.word
  text := ((parse descriptors f.word).getD "invalid-instruction").toList

/-- Its line. -/
def Fetch.line (descriptors : List Or1kDescriptor) (f : Fetch AWIDTH DWIDTH) : List Char :=
  fetchLine f.time (f.ibusAdr.setWidth 32) f.word (f.entry descriptors).text

namespace Or1kInstructionTracer

/-- The tracer as it is constructed. -/
def init (stopOnInvalid : Bool) : Or1kInstructionTracer := ⟨getOpcodes, stopOnInvalid⟩

/-- The word ends the run. -/
def stops (tracer : Or1kInstructionTracer) (f : Fetch AWIDTH DWIDTH) : Bool :=
  f.acked && tracer.stopOnInvalid && (Or1k.parse tracer.or1k f.word).isNone

variable {tracer : Or1kInstructionTracer}

theorem parse_eq (f : Fetch AWIDTH DWIDTH) : tracer.parse f =
    if tracer.stops f then .error (noInstruction f.word)
    else .ok (if f.acked then some (f.line tracer.or1k) else none) := by
  have hacked : f.acked = true ↔ f.clk = 1 ∧ f.ibusAck = 1 := decide_eq_true_iff
  by_cases hf : f.acked
  · obtain ⟨hclk, hack⟩ := hacked.mp hf
    have hparse : tracer.parse f = match Or1k.parse tracer.or1k f.word with
        | some st => .ok (some (fetchLine f.time (f.ibusAdr.setWidth 32) f.word st.toList))
        | none =>
          if tracer.stopOnInvalid then .error (noInstruction f.word)
          else .ok (some (fetchLine f.time (f.ibusAdr.setWidth 32) f.word
            "invalid-instruction".toList)) := by
      rw [parse, if_pos hclk, if_pos hack]
      rfl
    have hline : f.line tracer.or1k = fetchLine f.time (f.ibusAdr.setWidth 32) f.word
        ((Or1k.parse tracer.or1k f.word).getD "invalid-instruction").toList := rfl
    rw [hparse, stops, hf, hline]
    generalize Or1k.parse tracer.or1k f.word = disassembly
    cases disassembly with
    | some st => simp
    | none => cases tracer.stopOnInvalid <;> simp
  · have hnone : tracer.parse f = .ok none := by
      rw [parse]
      split
      · next hclk => rw [if_neg fun hack => hf (hacked.mpr ⟨hclk, hack⟩)]
      · rfl
    rw [hnone, stops, Bool.eq_false_of_not_eq_true hf]
    rfl

/-- **The file** has a line for each acknowledged word up to the one that ends the run. -/
theorem logFile_eq (fs : List (Fetch AWIDTH DWIDTH)) : tracer.logFile fs =
    (((fs.takeWhile fun f => !tracer.stops f).filter Fetch.acked).flatMap
        fun f => f.line tracer.or1k ++ ['\n'],
      (fs.find? tracer.stops).map fun f => noInstruction f.word) := by
  induction fs with
  | nil => rfl
  | cons f fs ih =>
    have hparse := @parse_eq AWIDTH DWIDTH tracer f
    cases hstops : tracer.stops f with
    | true =>
      rw [hstops, if_pos rfl] at hparse
      simp [logFile, hparse, hstops]
    | false =>
      rw [hstops, if_neg Bool.false_ne_true] at hparse
      cases hf : f.acked with
      | true =>
        rw [hf, if_pos rfl] at hparse
        simp [logFile, hparse, hstops, hf, ih]
      | false =>
        rw [hf, if_neg Bool.false_ne_true] at hparse
        simp [logFile, hparse, hstops, hf, ih]

end Or1kInstructionTracer

/-- Lines that can be read one by one can be read from a file. -/
theorem readFile_lines {descriptors : List Or1kDescriptor}
    (hrep : ∀ d ∈ descriptors, '\n' ∉ d.rep.toList) (fs : List (Fetch AWIDTH DWIDTH)) :
    readFile (fs.flatMap fun f => f.line descriptors ++ ['\n'])
      = some (fs.map (Fetch.entry descriptors)) := by
  have hline : ∀ f : Fetch AWIDTH DWIDTH, '\n' ∉ f.line descriptors := by
    intro f
    refine newline_notMem_fetchLine _ _ _ ?_
    show '\n' ∉ ((parse descriptors f.word).getD "invalid-instruction").toList
    cases htext : parse descriptors f.word with
    | some text => exact newline_notMem_parse hrep htext
    | none => decide
  have hlines : ∀ l ∈ fs.map (Fetch.line descriptors), '\n' ∉ l := by
    intro l hl
    obtain ⟨f, -, rfl⟩ := List.mem_map.mp hl
    exact hline f
  have hsplit := Text.splitOn_terminated hlines (by simp : '\n' ∉ ([] : List Char))
  rw [List.flatMap_map, List.append_nil] at hsplit
  rw [readFile, hsplit, List.dropLast_concat]
  clear hsplit hlines
  induction fs with
  | nil => rfl
  | cons f fs ih =>
    have hread : readLine (f.line descriptors) = some (f.entry descriptors) :=
      readLine_fetchLine f.time _ _ _
    rw [List.map_cons, List.mapM_cons, hread, ih]
    rfl

/-- A word without an instruction can be told from one that has one: a disassembly has a blank. -/
theorem text_eq_invalid_iff (descriptors : List Or1kDescriptor) (f : Fetch AWIDTH DWIDTH) :
    (f.entry descriptors).text = "invalid-instruction".toList
      ↔ parse descriptors f.word = none := by
  show ((parse descriptors f.word).getD "invalid-instruction").toList = _ ↔ _
  cases htext : parse descriptors f.word with
  | none => simp
  | some text =>
    obtain ⟨rep, operands, -, rfl⟩ := parse_eq_some htext
    refine iff_of_false (fun h => ?_) (by simp)
    have hblank : ' ' ∈ "invalid-instruction".toList := by
      rw [← h]
      simp
    revert hblank
    decide

/-- **What the file tells.** From the file that a run has written, every acknowledged word can be read
up to the one that ends the run: in order, with the time, the address and all the bits of the word, and
with its disassembly, or that it has none. The run is ended by the first acknowledged word that has
none, if the tracer was told to stop there, and it is reported. -/
theorem instruction_file_read (stopOnInvalid : Bool) (fs : List (Fetch AWIDTH DWIDTH)) :
    readFile ((Or1kInstructionTracer.init stopOnInvalid).logFile fs).1
        = some (((fs.takeWhile fun f => !(Or1kInstructionTracer.init stopOnInvalid).stops f).filter
            Fetch.acked).map (Fetch.entry getOpcodes)) ∧
      ((Or1kInstructionTracer.init stopOnInvalid).logFile fs).2
        = (fs.find? (Or1kInstructionTracer.init stopOnInvalid).stops).map
            (fun f => noInstruction f.word) ∧
      ∀ f : Fetch AWIDTH DWIDTH, (f.entry getOpcodes).text = "invalid-instruction".toList
        ↔ ∀ d ∈ getOpcodes, d.matchesWord f.word = false := by
  rw [Or1kInstructionTracer.logFile_eq]
  refine ⟨readFile_lines newline_notMem_rep _, rfl, fun f => ?_⟩
  rw [text_eq_invalid_iff]
  simp [parse, decode]

end DeltaModels.Or1k
