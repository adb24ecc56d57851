import DeltaModels.Library.Text

/-!
# Files of comma-separated rows

Each row ends with a newline, and there is a comma between two cells of it. If neither occurs inside of a
cell, the rows can be read back from the file (`read_write`). `read_rows` is about a file with a row for
each of some entries, and `read_table` about one that has a header above them: if each entry can be read
from its row, the entries can be read from the file. `readNumber_number` reads a number from its cell.
-/

namespace Csv

/-- The text keeps clear of the separators. -/
structure Clear (text : List Char) : Prop where
  comma : ',' ∉ text
  newline : '\n' ∉ text

instance (text : List Char) : Decidable (Clear text) :=
  decidable_of_iff (_ ∧ _) ⟨fun h => ⟨h.1, h.2⟩, fun h => ⟨h.comma, h.newline⟩⟩

theorem Clear.append {text text' : List Char} (h : Clear text) (h' : Clear text') :
    Clear (text ++ text') where
  comma := by simp [h.comma, h'.comma]
  newline := by simp [h.newline, h'.newline]

/-- Digits are clear. -/
theorem clear_toDigits {b : Nat} (hb : 1 < b) (hb' : b ≤ 16) (n : Nat) : Clear (Nat.toDigits b n) := by
  have hdigit : ∀ d < 16, ',' ≠ Nat.digitChar d ∧ '\n' ≠ Nat.digitChar d := by decide
  constructor <;>
  · intro hmem
    obtain ⟨d, hd, hchar⟩ := Text.mem_toDigits hb n hmem
    have hne := hdigit d (by omega)
    simp [← hchar] at hne

/-- A text that can stand in a cell. -/
structure Cell where
  text : List Char
  clear : Clear text

/-- The text of a row. -/
def writeRow : List (List Char) → List Char
  | [] => []
  | [c] => c
  | c :: cs => c ++ ',' :: writeRow cs

/-- The text of a file. -/
def write (rows : List (List (List Char))) : List Char := rows.flatMap fun row => writeRow row ++ ['\n']

/-- The rows of a file. -/
def read (file : List Char) : List (List (List Char)) :=
  (file.splitOn '\n').dropLast.map fun row => row.splitOn ','

/-- A row is one line. -/
theorem newline_notMem_writeRow {cells : List (List Char)} (h : ∀ c ∈ cells, '\n' ∉ c) :
    '\n' ∉ writeRow cells := by
  fun_induction writeRow cells with
  | case1 => simp
  | case2 c => exact h c (by simp)
  | case3 c cs _ ih =>
    simp only [List.mem_append, List.mem_cons, not_or]
    exact ⟨h c (by simp), by decide, ih fun c' hc' => h c' (by simp [hc'])⟩

/-- The cells of a row. -/
theorem splitOn_writeRow {cells : List (List Char)} (hne : cells ≠ []) (h : ∀ c ∈ cells, ',' ∉ c) :
    (writeRow cells).splitOn ',' = cells := by
  fun_induction writeRow cells with
  | case1 => exact absurd rfl hne
  | case2 c => exact List.splitOn_eq_singleton (h c (by simp))
  | case3 c cs hcs ih =>
    have hc : c.splitOn ',' = [c] := List.splitOn_eq_singleton (h c (by simp))
    rw [List.splitOn_append_cons_self, hc, ih (fun hnil => hcs hnil) fun c' hc' => h c' (by simp [hc'])]
    rfl

/-- **A file can be read back.** -/
theorem read_write {rows : List (List (List Char))} (hne : ∀ row ∈ rows, row ≠ [])
    (h : ∀ row ∈ rows, ∀ c ∈ row, Clear c) : read (write rows) = rows := by
  have hlines : (write rows).splitOn '\n' = rows.map writeRow ++ [[]] := by
    have hterminated := @Text.splitOn_terminated Char '\n' _ _ (rows.map writeRow) []
      (by simpa using fun row hrow => newline_notMem_writeRow fun c hc => (h row hrow c hc).newline)
      (by simp)
    rwa [List.append_nil, List.flatMap_map] at hterminated
  rw [read, hlines, List.dropLast_concat, List.map_map]
  refine (List.map_congr_left fun row hrow => ?_).trans (List.map_id rows)
  exact splitOn_writeRow (hne row hrow) fun c hc => (h row hrow c hc).comma

/-- **Rows can be read back**, entry by entry. -/
theorem read_rows {α β : Type*} {row : α → List (List Char)} {readRow : List (List Char) → Option β}
    {entry : α → β} {as : List α} (hrow : ∀ a ∈ as, readRow (row a) = some (entry a))
    (hne : ∀ a ∈ as, row a ≠ []) (hclear : ∀ a ∈ as, ∀ c ∈ row a, Clear c) :
    (read (write (as.map row))).mapM readRow = some (as.map entry) := by
  have hread : read (write (as.map row)) = as.map row := by
    refine read_write ?_ ?_ <;> rw [List.forall_mem_map] <;> assumption
  rw [hread]
  clear hread hne hclear
  induction as with
  | nil => rfl
  | cons a as ih =>
    rw [List.forall_mem_cons] at hrow
    rw [List.map_cons, List.mapM_cons, hrow.1, ih hrow.2]
    rfl

/-- **A table can be read back**, entry by entry. -/
theorem read_table {α β : Type*} {row : α → List (List Char)} {readRow : List (List Char) → Option β}
    {entry : α → β} {as : List α} (hrow : ∀ a ∈ as, readRow (row a) = some (entry a))
    (hne : ∀ a ∈ as, row a ≠ []) (hclear : ∀ a ∈ as, ∀ c ∈ row a, Clear c)
    {header : List (List Char)} (hheader : header ≠ []) (hheaderClear : ∀ c ∈ header, Clear c) :
    (read (write (header :: as.map row))).tail.mapM readRow = some (as.map entry) := by
  have hread : read (write (header :: as.map row)) = header :: read (write (as.map row)) := by
    rw [read_write, read_write] <;> simp only [List.forall_mem_cons, List.forall_mem_map] <;>
      first | assumption | exact ⟨‹_›, ‹_›⟩
  rw [hread, List.tail_cons]
  exact read_rows hrow hne hclear

/-! ## Numbers in cells -/

/-- A number in base `b` behind a fixed text. -/
def number (b : Nat) (lead : List Char) (n : Nat) : List Char := lead ++ Nat.toDigits b n

/-- Reads a number behind a fixed text. -/
def readNumber (b : Nat) (lead cell : List Char) : Option Nat :=
  Text.readDigits b (cell.drop lead.length)

theorem readNumber_number {b : Nat} (hb : 1 < b) (hb' : b ≤ 16) (lead : List Char) (n : Nat) :
    readNumber b lead (number b lead n) = some n := by
  rw [readNumber, number, List.drop_left, Text.readDigits_toDigits hb hb']

theorem clear_number {b : Nat} (hb : 1 < b) (hb' : b ≤ 16) {lead : List Char} (hlead : Clear lead)
    (n : Nat) : Clear (number b lead n) :=
  hlead.append (clear_toDigits hb hb' n)

end Csv
