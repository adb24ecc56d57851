import DeltaModels.Library.Csv
import DeltaModels.Tlm.RouterLog

/-!
# The log file of a router

A line has nine cells: the time, the numbers of the two sockets, the address before masking, the kind of
the call, the length, the streaming width, the byte enables and the word. The header names ten, with a
`Value` between the kind and the length that no line has. So a reader has to know the cells by their
places; `readRouterFile` does, and gets every line of a run with its time. By `routerLog_replays` the file
alone then tells what every word behind the router holds (`router_file_replays`).
-/

namespace DeltaModels.Tlm

open Access (Replays)

variable {M N : Nat}

/-- `"{},{},{},0x{:x},{},{},{},0x{:x},0x{:x}"`. -/
def TraceLine.text (time : List Char) (line : TraceLine N M) : List Char :=
  time ++ ',' :: Nat.toDigits 10 line.target ++ ',' :: Nat.toDigits 10 line.initiator
    ++ ',' :: "0x".toList ++ Nat.toDigits 16 line.address.toNat ++ ',' :: line.cmd.toList
    ++ ',' :: Nat.toDigits 10 line.len.toNat ++ ',' :: Nat.toDigits 10 line.wid.toNat
    ++ ',' :: "0x".toList ++ Nat.toDigits 16 line.byt.toNat
    ++ ',' :: "0x".toList ++ Nat.toDigits 16 line.data.toNat

/-- The file: the line of `setup_logger`, and then the lines of a run. -/
def routerFile (lines : List (Csv.Cell × TraceLine N M)) : List Char :=
  "TimeStamp, Target, Initiator, Address, Cmd, Value, Len, Wid, Byt, Data\n".toList
    ++ lines.flatMap fun x => x.2.text x.1.text ++ ['\n']

/-! ## Reading the file -/

/-- Reads the number of a socket. -/
def readSocket (N : Nat) (cell : List Char) : Option (Fin N) :=
  (Csv.readNumber 10 [] cell).bind fun n => if h : n < N then some ⟨n, h⟩ else none

/-- Reads a hexadecimal number. -/
def readHexCell (w : Nat) (cell : List Char) : Option (BitVec w) :=
  (Csv.readNumber 16 "0x".toList cell).map (BitVec.ofNat w)

/-- Reads a decimal number. -/
def readDecCell (w : Nat) (cell : List Char) : Option (BitVec w) :=
  (Csv.readNumber 10 [] cell).map (BitVec.ofNat w)

/-- Reads a row. -/
def readTraceRow : List (List Char) → Option (List Char × TraceLine N M)
  | [time, target, initiator, address, cmd, len, wid, byt, data] => do
    let target ← readSocket N target
    let initiator ← readSocket M initiator
    let address ← readHexCell 64 address
    let len ← readDecCell 32 len
    let wid ← readDecCell 32 wid
    let byt ← readHexCell 32 byt
    let data ← readHexCell 32 data
    return (time, ⟨target, initiator, address, String.ofList cmd, len, wid, byt, data⟩)
  | _ => none

/-- Reads a file; the first row is the header. -/
def readRouterFile (file : List Char) : Option (List (List Char × TraceLine N M)) :=
  (Csv.read file).tail.mapM readTraceRow

/-! ## Rows -/

/-- The cells of a line. -/
def TraceLine.row (time : List Char) (line : TraceLine N M) : List (List Char) :=
  [time, Csv.number 10 [] line.target, Csv.number 10 [] line.initiator,
    Csv.number 16 "0x".toList line.address.toNat, line.cmd.toList, Csv.number 10 [] line.len.toNat,
    Csv.number 10 [] line.wid.toNat, Csv.number 16 "0x".toList line.byt.toNat,
    Csv.number 16 "0x".toList line.data.toNat]

theorem traceText_eq_writeRow (time : List Char) (line : TraceLine N M) :
    line.text time = Csv.writeRow (line.row time) := by
  simp only [TraceLine.text, TraceLine.row, Csv.writeRow, Csv.number, List.append_assoc,
    List.cons_append, List.nil_append]

theorem readSocket_number (i : Fin N) : readSocket N (Csv.number 10 [] i) = some i := by
  rw [readSocket, Csv.readNumber_number (by decide) (by decide)]
  exact dif_pos i.isLt

theorem readHexCell_number {w : Nat} (value : BitVec w) :
    readHexCell w (Csv.number 16 "0x".toList value.toNat) = some value := by
  rw [readHexCell, Csv.readNumber_number (by decide) (by decide), Option.map_some,
    BitVec.ofNat_toNat, BitVec.setWidth_eq]

theorem readDecCell_number {w : Nat} (value : BitVec w) :
    readDecCell w (Csv.number 10 [] value.toNat) = some value := by
  rw [readDecCell, Csv.readNumber_number (by decide) (by decide), Option.map_some,
    BitVec.ofNat_toNat, BitVec.setWidth_eq]

/-- **A line can be read.** -/
theorem readTraceRow_row (time : List Char) (line : TraceLine N M) :
    readTraceRow (line.row time) = some (time, line) := by
  simp only [TraceLine.row, readTraceRow, readSocket_number, readHexCell_number, readDecCell_number,
    String.ofList_toList]
  rfl

/-- What the router writes for the kind of a call. -/
def TraceLine.Kind (line : TraceLine N M) : Prop := line.cmd = "write" ∨ line.cmd = "read"

/-- No cell of a line holds a separator. -/
theorem clear_traceRow (time : Csv.Cell) {line : TraceLine N M} (h : line.Kind) :
    ∀ c ∈ line.row time.text, Csv.Clear c := by
  have hdec : ∀ n, Csv.Clear (Csv.number 10 [] n) :=
    Csv.clear_number (by decide) (by decide) (by decide)
  have hhex : ∀ n, Csv.Clear (Csv.number 16 "0x".toList n) :=
    Csv.clear_number (by decide) (by decide) (by decide)
  have hcmd : Csv.Clear line.cmd.toList := by
    rcases h with h | h <;> rw [h] <;> decide
  simp only [TraceLine.row, List.forall_mem_cons]
  exact ⟨time.clear, hdec _, hdec _, hhex _, hcmd, hdec _, hdec _, hhex _, hhex _, by simp⟩

/-! ## The file -/

/-- The row of the header. -/
def traceHeader : List (List Char) :=
  ["TimeStamp".toList, " Target".toList, " Initiator".toList, " Address".toList, " Cmd".toList,
    " Value".toList, " Len".toList, " Wid".toList, " Byt".toList, " Data".toList]

theorem traceHeader_eq_writeRow :
    "TimeStamp, Target, Initiator, Address, Cmd, Value, Len, Wid, Byt, Data\n".toList
      = Csv.writeRow traceHeader ++ ['\n'] := by
  decide +kernel

theorem routerFile_eq_write (lines : List (Csv.Cell × TraceLine N M)) :
    routerFile lines = Csv.write (traceHeader :: lines.map fun x => x.2.row x.1.text) := by
  have hrow : (fun x : Csv.Cell × TraceLine N M => x.2.text x.1.text ++ ['\n'])
      = fun x => Csv.writeRow (x.2.row x.1.text) ++ ['\n'] :=
    funext fun x => congrArg (· ++ ['\n']) (traceText_eq_writeRow x.1.text x.2)
  unfold routerFile
  rw [hrow, traceHeader_eq_writeRow, Csv.write, List.flatMap_cons, List.flatMap_map]

/-- **The file can be read.** -/
theorem readRouterFile_routerFile {lines : List (Csv.Cell × TraceLine N M)}
    (h : ∀ x ∈ lines, x.2.Kind) :
    readRouterFile (routerFile lines) = some (lines.map fun x => (x.1.text, x.2)) := by
  have hheader : traceHeader ≠ [] := List.cons_ne_nil _ _
  have hclear : ∀ c ∈ traceHeader, Csv.Clear c := by decide
  have hrows : ∀ x ∈ lines, ∀ c ∈ x.2.row x.1.text, Csv.Clear c := fun x hx =>
    clear_traceRow x.1 (h x hx)
  rw [readRouterFile, routerFile_eq_write]
  exact Csv.read_table (fun x _ => readTraceRow_row x.1.text x.2) (fun _ _ => List.cons_ne_nil _ _)
    hrows hheader hclear

/-! ## The file of a run -/

section Run

variable {cfg : Fin M → InitiatorConfig} {blocks : Fin M → Block}

theorem kind_traceLine (port : Fin N) (i : Fin M) (c : Call) (host : Host) :
    (traceLine port i c host).Kind := by
  by_cases h : c.trans.command = .write
  · exact .inl (if_pos h)
  · exact .inr (if_neg h)

/-- A call that comes back writes a line of one of the two kinds. -/
theorem kind_of_answered {s : (i : Fin M) → (blocks i).State} {e : Event N} {line : TraceLine N M}
    (h : lineOf ((interconnect cfg blocks).step s e).2 = some line) : line.Kind := by
  cases e with
  | delta => cases h
  | access port c =>
    cases hdec : decodeAddress cfg c.trans.address with
    | error fault =>
      simp only [interconnect, bTransport_undecoded hdec] at h
      cases h
    | ok decoded =>
      simp only [interconnect, bTransport_decoded hdec] at h
      cases hblock : (blocks decoded.1).bTransport (s decoded.1)
          { c with trans := { c.trans with address := decoded.2 } } with
      | error fault =>
        rw [hblock] at h
        cases h
      | ok answer =>
        rw [hblock] at h
        obtain rfl := Option.some.inj h
        exact kind_traceLine port _ c _

end Run

section Targets

variable {cfg : Fin M → InitiatorConfig} {targets : Fin M → Target}

theorem kind_of_logged (s : (i : Fin M) → (targets i).block.State) (es : List (Csv.Cell × Event N)) :
    ∀ x ∈ routerLog cfg targets s es, x.2.Kind := by
  induction es generalizing s with
  | nil => simp [routerLog]
  | cons e es ih =>
    intro x hx
    rw [routerLog, List.mem_append] at hx
    rcases hx with hx | hx
    · obtain ⟨line, hline, rfl⟩ := Option.map_eq_some_iff.mp (Option.mem_toList.mp hx)
      exact kind_of_answered hline
    · exact ih _ x hx

/-- **The file of a router tells what the words hold.** Let a router in front of targets keep the words
apart that can be written, and let every word access be served or never come back. Then the file is read
as one line for each access that is served, in order, with its time, its address and its kind; the word
in each line of a read is what the lines before it have left at its address, or what was there at the
start; and each word that can be read at the end is what the lines have left of it. -/
theorem router_file_replays (hno : (Block.router M cfg fun i => (targets i).block).NoAlias)
    (s₀ : (i : Fin M) → (targets i).block.State)
    (hs₀ : (Block.router M cfg fun i => (targets i).block).Quiet s₀)
    (es : List (Csv.Cell × Event N)) (hes : ∀ e ∈ es, e.2.Settled cfg fun i => (targets i).block) :
    let blocks := fun i => (targets i).block
    ∃ lines : List (List Char × TraceLine N M),
      readRouterFile (routerFile (routerLog cfg targets s₀ es)) = some lines ∧
      lines.map (fun x => (x.1, x.2.access.addr, x.2.access.write))
        = es.filterMap (fun e => (e.2.served cfg blocks).map (e.1.text, ·)) ∧
      Replays (wordsOf cfg blocks s₀) (lines.map fun x => x.2.access)
        (wordsOf cfg blocks ((interconnect cfg blocks).run s₀ (es.map Prod.snd))) := by
  obtain ⟨hreplays, hserved⟩ := routerLog_replays targets hno s₀ hs₀ es hes
  refine ⟨_, readRouterFile_routerFile (kind_of_logged s₀ es), ?_, ?_⟩
  · have htexts := congrArg (List.map fun x : Csv.Cell × BitVec 64 × Bool => (x.1.text, x.2)) hserved
    rw [List.map_map, List.map_filterMap] at htexts
    rw [List.map_map]
    refine htexts.trans (List.filterMap_congr fun e _ => ?_)
    rw [Option.map_map]
    rfl
  · rw [List.map_map]
    exact hreplays

end Targets

/-! ## A router in front of three targets -/

/-- Two words from `0x1000` on, two more behind them, and one at `0x2100`. -/
def targetWindows : Fin 3 → InitiatorConfig
  | 0 => ⟨0x1000, 0x1008, 7⟩
  | 1 => ⟨0x1008, 0x1010, 7⟩
  | 2 => ⟨0x2100, 0x2104, 0x1ff⟩

/-- A memory, a `WBRAM` and a ROM. -/
def threeTargets : Fin 3 → Target
  | 0 => ⟨.memory 2, trivial⟩
  | 1 => ⟨.wbram 0 2, trivial⟩
  | 2 => ⟨.rom true TlmRom.fourBytes, trivial⟩

theorem noAlias_targets :
    (Block.router 3 targetWindows fun i => (threeTargets i).block).NoAlias := by
  refine noAlias_of_fits (fun i => ?_) fun i => ?_
  · fin_cases i
    · exact ⟨3, by decide, by decide, by decide⟩
    · exact ⟨3, by decide, by decide, by decide⟩
    · exact ⟨9, by decide, by decide, by decide⟩
  · fin_cases i <;> trivial

def targetsInit : (i : Fin 3) → (threeTargets i).block.State
  | 0 => (⟨fun _ => 0, ⟨0, 0⟩, ⟨0, 0⟩⟩ : Memory)
  | 1 => Wired.init 2
  | 2 => ()

theorem quiet_targetsInit :
    (Block.router 3 targetWindows fun i => (threeTargets i).block).Quiet targetsInit := by
  intro i
  fin_cases i
  · trivial
  · exact quiet_init 2
  · trivial

/-- A word that one port writes to the `WBRAM` and another port reads, a write to the ROM, and a read of
the ROM: three lines. -/
theorem router_file_replays_rom :
    let blocks := fun i => (threeTargets i).block
    let es : List (Csv.Cell × Event 2) :=
      [(⟨"20 ns".toList, by decide⟩, .access 0 (accessAt .write 0x100c (BitVec.ofNat 8))),
        (⟨"20 ns".toList, by decide⟩, .delta),
        (⟨"25 ns".toList, by decide⟩, .access 1 (accessAt .write 0x2100 fun _ => 0)),
        (⟨"30 ns".toList, by decide⟩, .access 1 (accessAt .read 0x100c fun _ => 0)),
        (⟨"40 ns".toList, by decide⟩, .access 0 (accessAt .read 0x2100 fun _ => 0))]
    ∃ lines : List (List Char × TraceLine 2 3),
      readRouterFile (routerFile (routerLog targetWindows threeTargets targetsInit es)) = some lines ∧
      lines.map (fun x => (x.1, x.2.access.addr, x.2.access.write))
        = [("20 ns".toList, 0x100c, true), ("30 ns".toList, 0x100c, false),
          ("40 ns".toList, 0x2100, false)] ∧
      Replays (wordsOf targetWindows blocks targetsInit) (lines.map fun x => x.2.access)
        (wordsOf targetWindows blocks
          ((interconnect targetWindows blocks).run targetsInit (es.map Prod.snd))) := by
  intro blocks es
  have hes : ∀ e ∈ es, e.2.Settled targetWindows blocks := by
    simp only [es, List.mem_cons, List.not_mem_nil, or_false, forall_eq_or_imp, forall_eq]
    exact ⟨⟨accessAt_wordAccess (by decide) rfl _, .inl rfl⟩, trivial,
      ⟨accessAt_wordAccess (by decide) rfl _, .inr rfl⟩,
      ⟨accessAt_wordAccess (by decide) rfl _, .inl rfl⟩,
      ⟨accessAt_wordAccess (by decide) rfl _, .inl rfl⟩⟩
  obtain ⟨lines, hread, hserved, hreplays⟩ :=
    router_file_replays noAlias_targets targetsInit quiet_targetsInit es hes
  exact ⟨lines, hread, hserved.trans (by decide), hreplays⟩

end DeltaModels.Tlm
