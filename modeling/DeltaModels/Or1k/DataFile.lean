import DeltaModels.Library.Csv
import DeltaModels.Or1k.DataTracer

/-!
# The file of the data trace

`Or1kDataTracer` writes its lines as rows of four cells: the time behind an `@` and padded to twelve
characters, two numbers of eight hexadecimal digits, and the kind of the access. Below the header, the
file is read as the acknowledged samples, in order (`data_file_read`). For a READ, the number in the third
cell is what `dbus_dat_w` showed.
-/

namespace DeltaModels.Or1k

variable {AWIDTH DWIDTH : Nat}

/-- `"@{:12s}, {:08x}, {:08x}, WRITE"`, or the same with `READ`. -/
def dataLine (time : List Char) (line : Line) : List Char :=
  '@' :: Text.padRight 12 time
    ++ ',' :: ' ' :: Text.padHex 8 line.addr.toNat
    ++ ',' :: ' ' :: Text.padHex 8 line.data.toNat
    ++ ',' :: ' ' :: if line.write then "WRITE".toList else "READ".toList

/-- The file: the line of `setup_logger`, and then a line for each sample that `trace` logs. -/
def dataFile (samples : List (Csv.Cell × Sample AWIDTH DWIDTH)) : List Char :=
  "TimeStamp, Address, Data(read or written), operation\n".toList
    ++ samples.flatMap fun x => ((trace x.2).elim [] fun line => dataLine x.1.text line ++ ['\n'])

/-! ## Reading the file -/

/-- Reads a number behind a blank. -/
def readWord (cell : List Char) : Option (BitVec 32) :=
  (Text.readHex (cell.drop 1)).map (BitVec.ofNat 32)

/-- Reads a row. -/
def readDataRow : List (List Char) → Option (List Char × Line)
  | [time, address, data, operation] => do
    let address ← readWord address
    let data ← readWord data
    return (time.drop 1, ⟨address, data, operation = ' ' :: "WRITE".toList⟩)
  | _ => none

/-- Reads a file; the first row is the header. -/
def readDataFile (file : List Char) : Option (List (List Char × Line)) :=
  (Csv.read file).tail.mapM readDataRow

/-! ## Rows -/

/-- The cells of a line. -/
def dataRow (time : List Char) (line : Line) : List (List Char) :=
  ['@' :: Text.padRight 12 time, ' ' :: Text.padHex 8 line.addr.toNat,
    ' ' :: Text.padHex 8 line.data.toNat,
    ' ' :: if line.write then "WRITE".toList else "READ".toList]

theorem dataLine_eq_writeRow (time : List Char) (line : Line) :
    dataLine time line = Csv.writeRow (dataRow time line) := by
  simp only [dataLine, dataRow, Csv.writeRow, List.append_assoc, List.cons_append]

theorem readWord_padHex (value : BitVec 32) :
    readWord (' ' :: Text.padHex 8 value.toNat) = some value := by
  rw [readWord, List.drop_one, List.tail_cons, Text.readHex_padHex, Option.map_some, BitVec.ofNat_toNat,
    BitVec.setWidth_eq]

/-- **A line can be read.** -/
theorem readDataRow_dataRow (time : List Char) (line : Line) :
    readDataRow (dataRow time line) = some (Text.padRight 12 time, line) := by
  have hoperation : decide ((' ' :: if line.write then "WRITE".toList else "READ".toList)
      = ' ' :: "WRITE".toList) = line.write := by
    cases line.write <;> decide
  simp only [readDataRow, dataRow, readWord_padHex, hoperation, List.drop_one, List.tail_cons]
  rfl

/-- A cell behind a character that is no separator. -/
theorem clear_cons {c : Char} (hc : c ≠ ',' ∧ c ≠ '\n') {text : List Char} (h : Csv.Clear text) :
    Csv.Clear (c :: text) where
  comma := by simp [h.comma, hc.1.symm]
  newline := by simp [h.newline, hc.2.symm]

theorem clear_padHex (width n : Nat) : Csv.Clear (Text.padHex width n) where
  comma := Text.notMem_padHex (by decide) width n
  newline := Text.notMem_padHex (by decide) width n

theorem clear_padRight (width : Nat) {text : List Char} (h : Csv.Clear text) :
    Csv.Clear (Text.padRight width text) :=
  h.append ⟨fun hmem => absurd (List.eq_of_mem_replicate hmem) (by decide),
    fun hmem => absurd (List.eq_of_mem_replicate hmem) (by decide)⟩

/-- No cell of a line holds a separator. -/
theorem clear_dataRow (time : Csv.Cell) (line : Line) : ∀ c ∈ dataRow time.text line, Csv.Clear c := by
  have htime := @clear_cons '@' (by decide) _ (clear_padRight 12 time.clear)
  have hnumber := fun n => @clear_cons ' ' (by decide) _ (clear_padHex 8 n)
  have hoperation : Csv.Clear (' ' :: if line.write then "WRITE".toList else "READ".toList) := by
    cases line.write <;> decide
  simp only [dataRow, List.forall_mem_cons]
  exact ⟨htime, hnumber _, hnumber _, hoperation, by simp⟩

/-! ## The file -/

/-- The row of the header. -/
def dataHeader : List (List Char) :=
  ["TimeStamp".toList, " Address".toList, " Data(read or written)".toList, " operation".toList]

theorem dataHeader_eq_writeRow :
    "TimeStamp, Address, Data(read or written), operation\n".toList
      = Csv.writeRow dataHeader ++ ['\n'] := by
  decide +kernel

/-- The acknowledged samples. -/
def ackedSamples (samples : List (Csv.Cell × Sample AWIDTH DWIDTH)) :
    List (Csv.Cell × Sample AWIDTH DWIDTH) :=
  samples.filter fun x => x.2.acked

theorem dataFile_eq_write (samples : List (Csv.Cell × Sample AWIDTH DWIDTH)) :
    dataFile samples
      = Csv.write (dataHeader :: (ackedSamples samples).map fun x => dataRow x.1.text x.2.line) := by
  unfold dataFile
  rw [dataHeader_eq_writeRow, Csv.write, List.flatMap_cons, List.append_cancel_left_eq]
  induction samples with
  | nil => rfl
  | cons x samples ih =>
    have hacked : ackedSamples (x :: samples)
        = if x.2.acked then x :: ackedSamples samples else ackedSamples samples := List.filter_cons
    rw [List.flatMap_cons, ih, trace_eq, hacked]
    cases x.2.acked with
    | false => rfl
    | true =>
      rw [if_pos rfl, if_pos rfl, Option.elim_some, dataLine_eq_writeRow]
      rfl

/-- **The file of the data trace can be read**: it tells of each acknowledged sample, in order, the time,
the address, what `dbus_dat_w` showed, and whether it was a write. -/
theorem data_file_read (samples : List (Csv.Cell × Sample AWIDTH DWIDTH)) :
    readDataFile (dataFile samples)
      = some ((ackedSamples samples).map fun x => (Text.padRight 12 x.1.text, x.2.line)) := by
  have hrow : ∀ x : Csv.Cell × Sample AWIDTH DWIDTH, readDataRow (dataRow x.1.text x.2.line)
      = some (Text.padRight 12 x.1.text, x.2.line) := fun x => readDataRow_dataRow x.1.text x.2.line
  have hheader : dataHeader ≠ [] := List.cons_ne_nil _ _
  have hclear : ∀ c ∈ dataHeader, Csv.Clear c := by decide
  rw [readDataFile, dataFile_eq_write]
  exact Csv.read_table (fun x _ => hrow x) (fun _ _ => List.cons_ne_nil _ _)
    (fun x _ => clear_dataRow x.1 x.2.line) hheader hclear

end DeltaModels.Or1k
