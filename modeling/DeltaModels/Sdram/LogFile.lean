import DeltaModels.Library.Csv
import DeltaModels.Sdram.LogReplay

/-!
# The log file of the SDRAM

The log is a file of comma-separated rows: the time, the command, an address and a value, where the
command has them. `readLog` reads such a file, and what it gets is every line with its time, in order
(`readLog_logFile`). With what the lines tell of the memory (`device_run_replays`) the file alone is
enough to follow every word through the run: `device_file_replays`.
-/

namespace DeltaModels.Sdram

open Access (Replays)

variable {A_SIZE BA_SIZE : Nat} {cfg : Config}

/-- A line of the log, of a command or of the backdoor. -/
abbrev Record := LogLine ⊕ BackdoorLine

/-- A number as `{:x}`. -/
def hexText (value : BitVec 32) : List Char := Nat.toDigits 16 value.toNat

/-- A line of a command, behind its time. -/
def LogLine.text : LogLine → List Char
  | .readReturned value =>
    ',' :: "READ[RETURNED]".toList ++ ',' :: "-".toList ++ ',' :: "0x".toList ++ hexText value
  | .activate => ',' :: "ACTIVATE".toList ++ ',' :: "-".toList ++ ',' :: "-".toList
  | .readRequested address value =>
    ',' :: "READ[REQUESTED]".toList ++ ',' :: "0x".toList ++ hexText address
      ++ ',' :: "[0x".toList ++ hexText value ++ [']']
  | .write address value =>
    ',' :: "WRITE".toList ++ ',' :: "0x".toList ++ hexText address ++ ',' :: "0x".toList ++ hexText value
  | .precharge => ',' :: "PRECHARGE".toList ++ ',' :: "-".toList ++ ',' :: "-".toList
  | .prechargeAll => ',' :: "PRECHARGE_ALL".toList ++ ',' :: "-".toList ++ ',' :: "-".toList
  | .refresh => ',' :: "REFRESH".toList ++ ',' :: "-".toList ++ ',' :: "-".toList
  | .loadMemReg => ',' :: "LOAD_MEM_REG".toList ++ ',' :: "x".toList ++ ',' :: "x".toList

/-- A line of the backdoor, behind its time. -/
def BackdoorLine.text : BackdoorLine → List Char
  | .copy address value =>
    ',' :: "BACKDOOR_COPY".toList ++ ',' :: "0x".toList ++ hexText address
      ++ ',' :: " 0x".toList ++ hexText value
  | .clear address =>
    ',' :: "BACKDOOR_CLEAR".toList ++ ',' :: "0x".toList ++ hexText address ++ ',' :: " 0".toList

def Record.text : Record → List Char := Sum.elim LogLine.text BackdoorLine.text

/-- The file: the line of `setup_logger`, and then a line for each record, with its time. -/
def logFile (records : List (Csv.Cell × Record)) : List Char :=
  "TimeStamp, CMD, Address, Value\n".toList
    ++ records.flatMap fun r => r.1.text ++ r.2.text ++ ['\n']

/-! ## Reading the file -/

/-- A number behind a few characters. -/
def readNumber (skip : Nat) (cell : List Char) : Option (BitVec 32) :=
  (Text.readHex (cell.drop skip)).map (BitVec.ofNat 32)

/-- Reads the cells behind the time. -/
def readRecord (cmd address value : List Char) : Option Record :=
  match String.ofList cmd with
  | "READ[RETURNED]" => (readNumber 2 value).map (.inl ∘ .readReturned)
  | "ACTIVATE" => some (.inl .activate)
  | "READ[REQUESTED]" => do
    let address ← readNumber 2 address
    let value ← readNumber 3 value.dropLast
    return .inl (.readRequested address value)
  | "WRITE" => do
    let address ← readNumber 2 address
    let value ← readNumber 2 value
    return .inl (.write address value)
  | "PRECHARGE" => some (.inl .precharge)
  | "PRECHARGE_ALL" => some (.inl .prechargeAll)
  | "REFRESH" => some (.inl .refresh)
  | "LOAD_MEM_REG" => some (.inl .loadMemReg)
  | "BACKDOOR_COPY" => do
    let address ← readNumber 2 address
    let value ← readNumber 3 value
    return .inr (.copy address value)
  | "BACKDOOR_CLEAR" => (readNumber 2 address).map (.inr ∘ .clear)
  | _ => none

/-- Reads a row. -/
def readRow : List (List Char) → Option (List Char × Record)
  | [time, cmd, address, value] => (readRecord cmd address value).map (time, ·)
  | _ => none

/-- Reads a file; the first row is the header. -/
def readLog (file : List Char) : Option (List (List Char × Record)) := (Csv.read file).tail.mapM readRow

/-! ## Cells -/

/-- The cells of a line behind its time. -/
def Record.cells : Record → String × List Char × List Char
  | .inl (.readReturned value) => ("READ[RETURNED]", "-".toList, "0x".toList ++ hexText value)
  | .inl .activate => ("ACTIVATE", "-".toList, "-".toList)
  | .inl (.readRequested address value) =>
    ("READ[REQUESTED]", "0x".toList ++ hexText address, "[0x".toList ++ hexText value ++ [']'])
  | .inl (.write address value) =>
    ("WRITE", "0x".toList ++ hexText address, "0x".toList ++ hexText value)
  | .inl .precharge => ("PRECHARGE", "-".toList, "-".toList)
  | .inl .prechargeAll => ("PRECHARGE_ALL", "-".toList, "-".toList)
  | .inl .refresh => ("REFRESH", "-".toList, "-".toList)
  | .inl .loadMemReg => ("LOAD_MEM_REG", "x".toList, "x".toList)
  | .inr (.copy address value) =>
    ("BACKDOOR_COPY", "0x".toList ++ hexText address, " 0x".toList ++ hexText value)
  | .inr (.clear address) => ("BACKDOOR_CLEAR", "0x".toList ++ hexText address, " 0".toList)

/-- The row of a line. -/
def Record.row (time : List Char) (r : Record) : List (List Char) :=
  [time, r.cells.1.toList, r.cells.2.1, r.cells.2.2]

/-- A line is a row. -/
theorem text_eq_writeRow (time : List Char) (r : Record) :
    time ++ r.text = Csv.writeRow (r.row time) := by
  rcases r with (_ | _ | _ | _ | _ | _ | _ | _) | (_ | _) <;>
    simp only [Record.text, Sum.elim_inl, Sum.elim_inr, LogLine.text, BackdoorLine.text, Record.row,
      Record.cells, Csv.writeRow, List.append_assoc, List.cons_append]

theorem readNumber_hexText (skip : Nat) {lead : List Char} (hlead : lead.length = skip)
    (value : BitVec 32) : readNumber skip (lead ++ hexText value) = some value := by
  rw [readNumber, List.drop_left' hlead, hexText, Text.readHex_toDigits, Option.map_some,
    BitVec.ofNat_toNat, BitVec.setWidth_eq]

theorem readNumber_zero_x (value : BitVec 32) :
    readNumber 2 ("0x".toList ++ hexText value) = some value := readNumber_hexText 2 rfl value

/-- **A line can be read.** -/
theorem readRecord_cells (r : Record) :
    readRecord r.cells.1.toList r.cells.2.1 r.cells.2.2 = some r := by
  have hbracket : ∀ value : BitVec 32,
      readNumber 3 ("[0x".toList ++ hexText value ++ [']']).dropLast = some value := by
    intro value
    rw [List.dropLast_concat]
    exact readNumber_hexText 3 rfl value
  have hblank : ∀ value : BitVec 32, readNumber 3 (" 0x".toList ++ hexText value) = some value :=
    readNumber_hexText 3 rfl
  rcases r with (_ | _ | _ | _ | _ | _ | _ | _) | (_ | _) <;>
    simp only [Record.cells, readRecord, String.ofList_toList, readNumber_zero_x, hbracket, hblank] <;>
    rfl

theorem clear_hexText (value : BitVec 32) : Csv.Clear (hexText value) :=
  Csv.clear_toDigits (by decide) (by decide) _

/-- A number behind a fixed text. -/
theorem clear_number {lead : List Char} (hlead : Csv.Clear lead) (value : BitVec 32) :
    Csv.Clear (lead ++ hexText value) :=
  hlead.append (clear_hexText value)

/-- No cell of a line holds a separator. -/
theorem clear_cells : ∀ r : Record,
    Csv.Clear r.cells.1.toList ∧ Csv.Clear r.cells.2.1 ∧ Csv.Clear r.cells.2.2
  | .inl (.readReturned value) =>
    have hcmd : Csv.Clear "READ[RETURNED]".toList := by decide
    have haddress : Csv.Clear "-".toList := by decide
    ⟨hcmd, haddress, clear_number (by decide) value⟩
  | .inl (.readRequested address value) =>
    have hcmd : Csv.Clear "READ[REQUESTED]".toList := by decide
    ⟨hcmd, clear_number (by decide) address, (clear_number (by decide) value).append (by decide)⟩
  | .inl (.write address value) =>
    have hcmd : Csv.Clear "WRITE".toList := by decide
    ⟨hcmd, clear_number (by decide) address, clear_number (by decide) value⟩
  | .inl .activate | .inl .precharge | .inl .prechargeAll | .inl .refresh | .inl .loadMemReg => by decide
  | .inr (.copy address value) =>
    have hcmd : Csv.Clear "BACKDOOR_COPY".toList := by decide
    ⟨hcmd, clear_number (by decide) address, clear_number (by decide) value⟩
  | .inr (.clear address) =>
    have hcmd : Csv.Clear "BACKDOOR_CLEAR".toList := by decide
    have hvalue : Csv.Clear " 0".toList := by decide
    ⟨hcmd, clear_number (by decide) address, hvalue⟩

theorem clear_row (time : Csv.Cell) (r : Record) : ∀ c ∈ r.row time.text, Csv.Clear c := by
  obtain ⟨hcmd, haddress, hvalue⟩ := clear_cells r
  simp [Record.row, time.clear, hcmd, haddress, hvalue]

/-- The row of the header. -/
def header : List (List Char) := ["TimeStamp".toList, " CMD".toList, " Address".toList, " Value".toList]

theorem header_eq_writeRow : "TimeStamp, CMD, Address, Value\n".toList = Csv.writeRow header ++ ['\n'] := by
  decide +kernel

theorem logFile_eq_write (records : List (Csv.Cell × Record)) :
    logFile records = Csv.write (header :: records.map fun r => r.2.row r.1.text) := by
  have hrow : (fun r : Csv.Cell × Record => r.1.text ++ r.2.text ++ ['\n'])
      = fun r => Csv.writeRow (r.2.row r.1.text) ++ ['\n'] :=
    funext fun r => congrArg (· ++ ['\n']) (text_eq_writeRow r.1.text r.2)
  unfold logFile
  rw [hrow, header_eq_writeRow, Csv.write, List.flatMap_cons, List.flatMap_map]

/-- **The file can be read.** -/
theorem readLog_logFile (records : List (Csv.Cell × Record)) :
    readLog (logFile records) = some (records.map fun r => (r.1.text, r.2)) := by
  have hrow : ∀ r : Csv.Cell × Record, readRow (r.2.row r.1.text) = some (r.1.text, r.2) := by
    intro r
    rw [Record.row, readRow, readRecord_cells, Option.map_some]
  have hheader : header ≠ [] := List.cons_ne_nil _ _
  have hclear : ∀ c ∈ header, Csv.Clear c := by decide
  rw [readLog, logFile_eq_write]
  exact Csv.read_table (fun r _ => hrow r) (fun _ _ => List.cons_ne_nil _ _)
    (fun r _ => clear_row r.1 r.2) hheader hclear

/-! ## The file of a run -/

/-- The lines of one step. -/
def recordsOf (out : Effect × List BackdoorLine) : List Record := out.1.log.map .inl ++ out.2.map .inr

/-- The access that a line tells of. -/
def Record.access (cfg : Config) : Record → Option (Access (BitVec 32) (BitVec 32)) :=
  Sum.elim (LogLine.access cfg) fun line => some (line.access cfg)

/-- The lines of a run, with the time of each. -/
def recorded (cfg : Config) :
    Device BA_SIZE → List (Csv.Cell × Event A_SIZE BA_SIZE) → List (Csv.Cell × Record)
  | _, [] => []
  | d, (time, e) :: es =>
    (recordsOf ((device A_SIZE cfg).step d e).2).map (time, ·)
      ++ recorded cfg ((device A_SIZE cfg).step d e).1 es

theorem filterMap_recordsOf (out : Effect × List BackdoorLine) :
    (recordsOf out).filterMap (Record.access cfg) = loggedAccesses cfg out := by
  rw [recordsOf, List.filterMap_append, List.filterMap_map, List.filterMap_map, loggedAccesses]
  refine congrArg (_ ++ ·) ?_
  show out.2.filterMap (some ∘ BackdoorLine.access cfg) = _
  rw [List.filterMap_eq_map]

/-- The accesses that the lines of a run tell of. -/
theorem filterMap_recorded (d : Device BA_SIZE) (es : List (Csv.Cell × Event A_SIZE BA_SIZE)) :
    (recorded cfg d es).filterMap (fun r => r.2.access cfg)
      = ((device A_SIZE cfg).trace d (es.map Prod.snd)).flatMap (loggedAccesses cfg) := by
  induction es generalizing d with
  | nil => rfl
  | cons e es ih =>
    rw [recorded, List.filterMap_append, ih, List.filterMap_map, List.map_cons, Mealy.trace_cons,
      List.flatMap_cons, ← filterMap_recordsOf]
    rfl

/-- **The file tells what the memory holds.** In every run of the device, by commands and requests to the
backdoor, the file is read as the lines of the run with their times. The value in each line of a READ is
what the lines before it have left at its address, or what the device held there at the start; and each
word of the device at the end is what the lines have left of it. -/
theorem device_file_replays
    (hg : cfg.geometry.rowBits + cfg.geometry.bankBits + cfg.geometry.colBits ≤ 30)
    (d₀ : Device BA_SIZE) (hrows : RowsInRange cfg.geometry d₀.state)
    (es : List (Csv.Cell × Event A_SIZE BA_SIZE)) (hes : ∀ e ∈ es, e.2.Addressed cfg) :
    ∃ lines, readLog (logFile (recorded cfg d₀ es)) = some lines ∧
      lines = (recorded cfg d₀ es).map (fun r => (r.1.text, r.2)) ∧
      Replays d₀.state.mem.read (lines.filterMap fun line => line.2.access cfg)
        ((device A_SIZE cfg).run d₀ (es.map Prod.snd)).state.mem.read := by
  refine ⟨_, readLog_logFile _, rfl, ?_⟩
  rw [List.filterMap_map]
  show Replays _ ((recorded cfg d₀ es).filterMap fun r => r.2.access cfg) _
  rw [filterMap_recorded]
  exact device_run_replays hg d₀ hrows _ (by simpa using fun e time he => hes (time, e) he)

/-- A masked WRITE, a copy of its word, and a READ of the copy: three lines. -/
theorem device_file_replays_copied :
    let es : List (Csv.Cell × Event 12 2) :=
      [(⟨"1 ns".toList, by decide⟩,
          .command { a := 7, ba := 0, dq := 0xbabecafe, dm := 1, cmd := .write }),
        (⟨"2 ns".toList, by decide⟩,
          .signals { copyFrom := 0x4000001c, copyTo := 0x40000024, copySize := 4, copy := 1, clear := 0 }),
        (⟨"3 ns".toList, by decide⟩, .command { a := 9, ba := 0, cmd := .read })]
    let d : Device 2 := ⟨State.init, (0, 0)⟩
    ∃ lines, readLog (logFile (recorded sixteenMiB d es)) = some lines ∧
      lines.map Prod.snd = [.inl (.write 0x4000001c 0xbabeca00), .inr (.copy 0x40000024 0xbabeca00),
        .inl (.readRequested 0x40000024 0xbabeca00)] ∧
      Replays d.state.mem.read [⟨7, 0xbabeca00, true⟩, ⟨9, 0xbabeca00, true⟩, ⟨9, 0xbabeca00, false⟩]
        ((device 12 sixteenMiB).run d (es.map Prod.snd)).state.mem.read := by
  intro es d
  obtain ⟨lines, hread, rfl, hreplays⟩ := device_file_replays (by decide) d
    (rowsInRange_init sixteenMiB.geometry) es (by decide)
  refine ⟨_, hread, ?_, ?_⟩
  · rw [List.map_map]
    decide
  · rw [List.filterMap_map] at hreplays
    have hlog : (recorded sixteenMiB d es).filterMap (fun r => r.2.access sixteenMiB)
        = [⟨7, 0xbabeca00, true⟩, ⟨9, 0xbabeca00, true⟩, ⟨9, 0xbabeca00, false⟩] := by decide
    rw [← hlog]
    exact hreplays

end DeltaModels.Sdram
