import DeltaModels.Flash.Log
import DeltaModels.Library.Csv

/-!
# The log file of the flash

A row of the file has four cells: the time, the address, the index in decimal, and the value behind a
blank. The header of `setup_logger` is given to the default logger, so it is not in this file. What
`readFlashFile` gets from the file is every line with its time, and of a session these are the lines that
open the transactions and those of the nibbles that have been served (`quadReads_file_read`).
-/

namespace DeltaModels.Flash

variable {D : BitVec 32}

/-- `"{},0x{:x},{}, 0x{:x}"`. -/
def LogLine.text (time : List Char) (line : LogLine) : List Char :=
  time ++ ',' :: "0x".toList ++ Nat.toDigits 16 line.addr.toNat
    ++ ',' :: Nat.toDigits 10 line.idx.toNat
    ++ ',' :: " 0x".toList ++ Nat.toDigits 16 line.word.toNat

/-- The file. -/
def flashFile (lines : List (Csv.Cell × LogLine)) : List Char :=
  lines.flatMap fun x => x.2.text x.1.text ++ ['\n']

/-- The lines of a run, each with the time of its period. -/
def recorded {T : Type} (D : BitVec 32) : State → List (T × Sample) → List (T × LogLine)
  | _, [] => []
  | s, (time, p) :: ps =>
    ((period D s p).2.1.log.toList ++ (period D s p).2.2.log.toList).map (time, ·)
      ++ recorded D (period D s p).1 ps

/-! ## Reading the file -/

/-- Reads a number of `w` bits. -/
def readBits (w b : Nat) (lead cell : List Char) : Option (BitVec w) :=
  (Csv.readNumber b lead cell).map (BitVec.ofNat w)

/-- Reads a row. -/
def readFlashRow : List (List Char) → Option (List Char × LogLine)
  | [time, addr, idx, word] => do
    let addr ← readBits 32 16 "0x".toList addr
    let idx ← readBits 32 10 [] idx
    let word ← readBits 8 16 " 0x".toList word
    return (time, ⟨addr, idx, word⟩)
  | _ => none

/-- Reads a file. -/
def readFlashFile (file : List Char) : Option (List (List Char × LogLine)) :=
  (Csv.read file).mapM readFlashRow

/-! ## Rows -/

/-- The cells of a line. -/
def LogLine.row (time : List Char) (line : LogLine) : List (List Char) :=
  [time, Csv.number 16 "0x".toList line.addr.toNat, Csv.number 10 [] line.idx.toNat,
    Csv.number 16 " 0x".toList line.word.toNat]

theorem logText_eq_writeRow (time : List Char) (line : LogLine) :
    line.text time = Csv.writeRow (line.row time) := by
  simp only [LogLine.text, LogLine.row, Csv.writeRow, Csv.number, List.append_assoc, List.cons_append,
    List.nil_append]

theorem readBits_number {w b : Nat} (hb : 1 < b) (hb' : b ≤ 16) (lead : List Char) (value : BitVec w) :
    readBits w b lead (Csv.number b lead value.toNat) = some value := by
  rw [readBits, Csv.readNumber_number hb hb', Option.map_some, BitVec.ofNat_toNat, BitVec.setWidth_eq]

/-- **A line can be read.** -/
theorem readFlashRow_row (time : List Char) (line : LogLine) :
    readFlashRow (line.row time) = some (time, line) := by
  have haddr := readBits_number (b := 16) (by decide) (by decide) "0x".toList line.addr
  have hidx := readBits_number (b := 10) (by decide) (by decide) [] line.idx
  have hword := readBits_number (b := 16) (by decide) (by decide) " 0x".toList line.word
  simp only [LogLine.row, readFlashRow, haddr, hidx, hword]
  rfl

/-- No cell of a line holds a separator. -/
theorem clear_logRow (time : Csv.Cell) (line : LogLine) : ∀ c ∈ line.row time.text, Csv.Clear c := by
  have haddr : ∀ n, Csv.Clear (Csv.number 16 "0x".toList n) :=
    Csv.clear_number (by decide) (by decide) (by decide)
  have hidx : ∀ n, Csv.Clear (Csv.number 10 [] n) :=
    Csv.clear_number (by decide) (by decide) (by decide)
  have hword : ∀ n, Csv.Clear (Csv.number 16 " 0x".toList n) :=
    Csv.clear_number (by decide) (by decide) (by decide)
  simp only [LogLine.row, List.forall_mem_cons]
  exact ⟨time.clear, haddr _, hidx _, hword _, by simp⟩

/-! ## The file -/

/-- **The file can be read.** -/
theorem readFlashFile_flashFile (lines : List (Csv.Cell × LogLine)) :
    readFlashFile (flashFile lines) = some (lines.map fun x => (x.1.text, x.2)) := by
  have hfile : flashFile lines = Csv.write (lines.map fun x => x.2.row x.1.text) := by
    simp only [flashFile, logText_eq_writeRow, Csv.write, List.flatMap_map]
  rw [readFlashFile, hfile]
  exact Csv.read_rows (fun x _ => readFlashRow_row x.1.text x.2) (fun _ _ => List.cons_ne_nil _ _)
    fun x _ => clear_logRow x.1 x.2

theorem recorded_snd {T : Type} (s : State) (ps : List (T × Sample)) :
    (recorded D s ps).map Prod.snd = logged D s (ps.map Prod.snd) := by
  induction ps generalizing s with
  | nil => rfl
  | cons p ps ih =>
    rw [recorded, List.map_append, ih, List.map_map]
    exact congrArg (· ++ _) (List.map_id _)

/-- **The log file of a session.** After any `configure_region` calls on files shorter than 2 GiB that fit
the half-byte address space, let the samples be those of any complete transactions, one after the other,
at any times. Then the file is read as the lines of the run with their times: for each transaction one
with its address, index 0 and value 0, and then one for each nibble that it has been served, with the
index and the value of the nibble in the image that the calls stored. The address of such a line is that
of the nibble's byte for a high half, and of the byte after it for a low half. -/
theorem quadReads_file_read (cmd : BitVec 8) (cnt addr : BitVec 32) (rs : List Region)
    (hfit : ∀ r ∈ rs, r.Fits) (hshort : ∀ r ∈ rs, r.Short) (ts : List (QuadRead D))
    (hts : ∀ t ∈ ts, 2 * t.addr.toNat + t.resp.length ≤ 2 ^ 32) (ps : List (Csv.Cell × Sample))
    (hps : ps.map Prod.snd = ts.flatMap QuadRead.samples) :
    ∃ s, configure (State.fresh cmd cnt addr) rs = some s ∧
      ∃ lines, readFlashFile (flashFile (recorded D s ps)) = some lines ∧
        lines = (recorded D s ps).map (fun x => (x.1.text, x.2)) ∧
        lines.map Prod.snd = ts.flatMap (QuadRead.lines (image rs)) := by
  obtain ⟨s, hconf, hlogged⟩ := quadReads_logged (D := D) cmd cnt addr rs hfit hshort ts hts
  refine ⟨s, hconf, _, readFlashFile_flashFile _, rfl, ?_⟩
  rw [← hlogged, ← hps, ← recorded_snd, List.map_map]
  rfl

/-- Three nibbles from the middle of an image, and then two from its beginning. -/
theorem quadReads_file_read_five_nibbles :
    let ts : List (QuadRead 11) :=
      [⟨0x11, fun _ => 0, List.replicate 10 0, [0, 0, 0], [0], rfl, by decide⟩,
        ⟨0x10, fun _ => 0, List.replicate 10 0, [0, 0], [0, 0], rfl, by decide⟩]
    let ps : List (Csv.Cell × Sample) :=
      (ts.flatMap QuadRead.samples).map fun p => (⟨"5 ns".toList, by decide⟩, p)
    ∃ s, configure (State.fresh 0 0 0) [⟨some [0xab, 0xcd], 0x10⟩] = some s ∧
      ∃ lines, readFlashFile (flashFile (recorded 11 s ps)) = some lines ∧
        lines.map Prod.snd
          = [⟨0x11, 0, 0⟩, ⟨0x11, 0x22, 0xc⟩, ⟨0x12, 0x23, 0xd⟩, ⟨0x12, 0x24, 0⟩,
            ⟨0x10, 0, 0⟩, ⟨0x10, 0x20, 0xa⟩, ⟨0x11, 0x21, 0xb⟩] := by
  intro ts ps
  have hregion : ∀ r ∈ [Region.mk (some [0xab, 0xcd]) 0x10], r.Fits ∧ r.Short := by
    intro r hr
    obtain rfl : r = ⟨some [0xab, 0xcd], 0x10⟩ := by simpa using hr
    constructor <;> intro bytes hbytes <;> obtain rfl := Option.some.inj hbytes <;> decide
  have hps : ps.map Prod.snd = ts.flatMap QuadRead.samples := by
    rw [List.map_map]
    exact List.map_id _
  obtain ⟨s, hconf, lines, hread, -, hlines⟩ := quadReads_file_read (D := 11) 0 0 0
    [⟨some [0xab, 0xcd], 0x10⟩] (fun r hr => (hregion r hr).1) (fun r hr => (hregion r hr).2) ts
    (by simp [ts]) ps hps
  exact ⟨s, hconf, lines, hread, hlines.trans (by decide)⟩

end DeltaModels.Flash
