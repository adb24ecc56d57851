import DeltaModels.Library.Lanes
import DeltaModels.Library.Text
import DeltaModels.Sdram.Basic

/-!
# The dump of the memory

`hexdump` writes the words of the map in the order of their keys, four to a line behind the address of
the first. `readDump` is the other direction, for anyone who knows the format.

While the dump is written, the file is a list of complete lines and one that is still open
(`Dumped`). A line is closed after four words or before a gap, so it only holds words with consecutive
keys, and the address in front of it says which ones. So a dump can be read: `readDump_hexdump`.
-/

namespace DeltaModels.Sdram

open Text

/-! ## Writing -/

/-- The file, and the variables of the loop. -/
structure Dumper where
  myfile : List Char
  cnt : Nat
  lastAddress : BitVec 32

/-- `myfile << text`. -/
def Dumper.print (d : Dumper) (text : List Char) : Dumper := { d with myfile := d.myfile ++ text }

/-- The bytes of a word, each behind a blank. -/
def wordText (val : BitVec 32) : List Char :=
  (List.range 4).flatMap fun i => ' ' :: padHex 2 ((val >>> ((3 - i) * 8)) &&& 0xff).toNat

/-- A word, behind its address if it is the first of a line. -/
def Dumper.word (d : Dumper) (address val : BitVec 32) : Dumper :=
  let d := if d.cnt % 4 = 0 then d.print (padHex 8 address.toNat) else d
  let d := d.print (wordText val)
  let d := if d.cnt % 4 = 3 then d.print ['\n'] else d
  { d with cnt := d.cnt + 1, lastAddress := address }

/-- A new line, because there was a jump in the map. -/
def Dumper.jump (d : Dumper) : Dumper := { d.print ['\n'] with cnt := 0 }

/-- One round of the loop over the map. -/
def Dumper.entry (d : Dumper) (key val : BitVec 32) : Dumper :=
  let address := key * 4
  let d := if address > d.lastAddress + 4 then d.jump else d
  d.word address val

/-- `GENERIC_SDRAM::hexdump`: the text that is written. -/
def hexdump (mem : OrdMap (BitVec 32) (BitVec 32)) : List Char :=
  (mem.toList.foldl (fun (d : Dumper) e => d.entry e.1 e.2)
    { myfile := [], cnt := 0, lastAddress := 0 }).myfile

example : hexdump ((∅ : OrdMap (BitVec 32) (BitVec 32)).insert 5 0xcafe |>.insert 0 1) =
    "00000000 00 00 00 01\n00000014 00 00 ca fe".toList := by
  decide +kernel

/-! ## Reading -/

/-- Bytes of two digits, each behind a blank. -/
def readBytes : List Char → Option (List (BitVec 8))
  | [] => some []
  | ' ' :: a :: b :: cs => do
    let n ← readHex [a, b]
    let bytes ← readBytes cs
    return BitVec.ofNat 8 n :: bytes
  | _ => none

/-- The words that bytes make up, the most significant byte of each first. -/
def toWords : List (BitVec 8) → Option (List (BitVec 32))
  | [] => some []
  | a :: b :: c :: d :: bytes => (toWords bytes).map ((a ++ b ++ c ++ d) :: ·)
  | _ => none

/-- The words of a line, with their keys: in front stands the address of the first. -/
def readLine (line : List Char) : Option (List (BitVec 32 × BitVec 32)) := do
  let address ← readHex (line.take 8)
  let words ← (readBytes (line.drop 8)).bind toWords
  return words.zipIdx.map fun (word, k) => (BitVec.ofNat 32 ((address + 4 * k) / 4), word)

/-- The words of lines, of which some may be blank. -/
def readLines (lines : List (List Char)) : Option (List (BitVec 32 × BitVec 32)) :=
  ((lines.filter (· ≠ [])).mapM readLine).map List.flatten

/-- The words of a dump. -/
def readDump (text : List Char) : Option (List (BitVec 32 × BitVec 32)) :=
  readLines (text.splitOn '\n')

/-! ## Lines -/

/-- The words of a line. -/
def entries (key : Nat) (ws : List (BitVec 32)) : List (BitVec 32 × BitVec 32) :=
  ws.zipIdx.map fun (word, k) => (BitVec.ofNat 32 (key + k), word)

/-- The text of a line. -/
def lineText (key : Nat) (ws : List (BitVec 32)) : List Char :=
  padHex 8 (4 * key) ++ ws.flatMap wordText

theorem entries_concat (key : Nat) (ws : List (BitVec 32)) (w : BitVec 32) :
    entries key (ws ++ [w]) = entries key ws ++ [(BitVec.ofNat 32 (key + ws.length), w)] := by
  simp [entries, List.zipIdx_append]

theorem lineText_concat (key : Nat) (ws : List (BitVec 32)) (w : BitVec 32) :
    lineText key (ws ++ [w]) = lineText key ws ++ wordText w := by
  simp [lineText]

/-- The byte that two digits show. -/
theorem toNat_byte (val : BitVec 32) (i : Nat) :
    ((val >>> (i * 8)) &&& 0xff).toNat = (Lanes.lane val i).toNat := by
  have hmask : (0xff : BitVec 32).toNat = 2 ^ 8 - 1 := rfl
  rw [BitVec.toNat_and, hmask, Nat.and_two_pow_sub_one_eq_mod, Lanes.lane, BitVec.toNat_setWidth,
    Nat.mul_comm]

/-- Two digits are read as the byte that they show. -/
theorem readBytes_byte (b : BitVec 8) (cs : List Char) :
    readBytes (' ' :: padHex 2 b.toNat ++ cs) = (readBytes cs).map (b :: ·) := by
  have hread := readHex_padHex 2 b.toNat
  have hlength : (padHex 2 b.toNat).length = 2 := length_padHex (by decide) b.isLt
  obtain ⟨c, c', hdigits⟩ := List.length_eq_two.mp hlength
  rw [hdigits] at hread ⊢
  have hb : BitVec.ofNat 8 b.toNat = b := by rw [BitVec.ofNat_toNat, BitVec.setWidth_eq]
  show (readHex [c, c']).bind (fun n => (readBytes cs).bind fun bytes =>
    some (BitVec.ofNat 8 n :: bytes)) = _
  rw [hread, Option.bind_some, hb]
  cases readBytes cs <;> rfl

/-- The bytes of a word, the most significant one first. -/
def bytesOf (val : BitVec 32) : List (BitVec 8) :=
  [Lanes.lane val 3, Lanes.lane val 2, Lanes.lane val 1, Lanes.lane val 0]

theorem wordText_eq (val : BitVec 32) :
    wordText val = (bytesOf val).flatMap fun b => ' ' :: padHex 2 b.toNat := by
  have h0 := toNat_byte val 0
  have h1 := toNat_byte val 1
  have h2 := toNat_byte val 2
  have h3 := toNat_byte val 3
  simp only [wordText, bytesOf, List.range_succ, List.range_zero, List.nil_append, List.flatMap_append,
    List.flatMap_cons, List.flatMap_nil, List.append_nil, List.append_assoc, h0, h1, h2, h3,
    Nat.sub_zero, Nat.reduceSub]

theorem readBytes_words (ws : List (BitVec 32)) :
    readBytes (ws.flatMap wordText) = some (ws.flatMap bytesOf) := by
  induction ws with
  | nil => rfl
  | cons w ws ih =>
    simp only [List.flatMap_cons, wordText_eq w, bytesOf, List.flatMap_nil, List.append_nil,
      List.append_assoc, readBytes_byte, ih]
    rfl

theorem toWords_bytes (ws : List (BitVec 32)) : toWords (ws.flatMap bytesOf) = some ws := by
  induction ws with
  | nil => rfl
  | cons w ws ih =>
    have hw : Lanes.lane w 3 ++ Lanes.lane w 2 ++ Lanes.lane w 1 ++ Lanes.lane w 0 = w :=
      Lanes.pack_lane w
    rw [List.flatMap_cons, bytesOf]
    show (toWords (ws.flatMap bytesOf)).map _ = _
    rw [ih, Option.map_some, hw]

/-- **A line can be read.** -/
theorem readLine_lineText {key : Nat} (hkey : key < 2 ^ 30) (ws : List (BitVec 32)) :
    readLine (lineText key ws) = some (entries key ws) := by
  have hlength : (padHex 8 (4 * key)).length = 8 := length_padHex (by decide) (by omega)
  have haddress : ∀ k, (4 * key + 4 * k) / 4 = key + k := by omega
  rw [readLine, lineText, List.take_left' hlength, List.drop_left' hlength, readHex_padHex,
    readBytes_words, Option.bind_some, toWords_bytes]
  simp [entries, haddress]

theorem newline_notMem_padHex (width n : Nat) : '\n' ∉ padHex width n := by
  intro h
  obtain ⟨d, hd, hc⟩ := mem_padHex h
  revert hc
  interval_cases d <;> decide

theorem newline_notMem_lineText (key : Nat) (ws : List (BitVec 32)) : '\n' ∉ lineText key ws := by
  have hword : ∀ w, '\n' ∉ wordText w := by
    intro w h
    obtain ⟨i, -, hi⟩ := List.mem_flatMap.mp h
    rcases List.mem_cons.mp hi with hblank | hdigit
    · revert hblank
      decide
    · exact newline_notMem_padHex _ _ hdigit
  intro h
  rcases List.mem_append.mp h with h | h
  · exact newline_notMem_padHex _ _ h
  · obtain ⟨w, -, hw⟩ := List.mem_flatMap.mp h
    exact hword w hw

theorem readLines_append {ls ls' : List (List Char)} {es es' : List (BitVec 32 × BitVec 32)}
    (h : readLines ls = some es) (h' : readLines ls' = some es') :
    readLines (ls ++ ls') = some (es ++ es') := by
  simp only [readLines, Option.map_eq_some_iff] at h h' ⊢
  obtain ⟨x, hx, rfl⟩ := h
  obtain ⟨y, hy, rfl⟩ := h'
  refine ⟨x ++ y, ?_, List.flatten_append⟩
  rw [List.filter_append, List.mapM_append, hx, hy]
  rfl

theorem readLines_blank : readLines [[]] = some [] := rfl

theorem readLines_line {key : Nat} (hkey : key < 2 ^ 30) (ws : List (BitVec 32)) :
    readLines [lineText key ws] = some (entries key ws) := by
  have hlength : (padHex 8 (4 * key)).length = 8 := length_padHex (by decide) (by omega)
  have hne : lineText key ws ≠ [] := by
    intro h
    have := congrArg List.length h
    rw [lineText, List.length_append, hlength] at this
    simp at this
  simp only [readLines, List.filter_cons, hne, ne_eq, not_false_eq_true, decide_true, if_true,
    List.filter_nil, List.mapM_cons, List.mapM_nil, readLine_lineText hkey]
  simp

/-! ## While the dump is written -/

/-- The line that is still open: there is none, or it is short of four words and the last of them is the
word that was written last. -/
inductive OpenLine (d : Dumper) : List Char → List (BitVec 32 × BitVec 32) → Prop
  | closed (hcnt : d.cnt % 4 = 0) : OpenLine d [] []
  | pending {key : Nat} {ws : List (BitVec 32)} (hcnt : d.cnt % 4 ≠ 0)
      (hlength : ws.length = d.cnt % 4)
      (hlast : d.lastAddress.toNat + 4 = 4 * (key + ws.length)) :
      OpenLine d (lineText key ws) (entries key ws)

/-- The file holds the words `es`: on complete lines, and on the line that is open. -/
structure Dumped (d : Dumper) (lines : List (List Char)) (line : List Char)
    (es es' : List (BitVec 32 × BitVec 32)) : Prop where
  file : d.myfile = lines.flatMap (· ++ ['\n']) ++ line
  complete : readLines lines = some es
  newline : ∀ l ∈ lines, '\n' ∉ l
  line : OpenLine d line es'

variable {d : Dumper} {lines : List (List Char)} {line : List Char}
  {es es' : List (BitVec 32 × BitVec 32)} {key : BitVec 32}

theorem OpenLine.newline (h : OpenLine d line es') : '\n' ∉ line := by
  cases h with
  | closed => exact List.not_mem_nil
  | pending => exact newline_notMem_lineText _ _

theorem OpenLine.read (h : OpenLine d line es') : readLines [line] = some es' := by
  cases h with
  | closed => exact readLines_blank
  | @pending key ws hcnt hlength hlast =>
    have hbound := d.lastAddress.isLt
    exact readLines_line (by omega) ws

/-- At any time the file can be read. -/
theorem Dumped.read (h : Dumped d lines line es es') : readDump d.myfile = some (es ++ es') := by
  rw [readDump, h.file, splitOn_terminated h.newline h.line.newline]
  exact readLines_append h.complete h.line.read

/-- Lines are completed by their last one. -/
theorem newline_append (h : ∀ l ∈ lines, '\n' ∉ l) (hline : '\n' ∉ line) :
    ∀ l ∈ lines ++ [line], '\n' ∉ l := by
  intro l hl
  rcases List.mem_append.mp hl with hl | hl
  · exact h l hl
  · rw [List.mem_singleton.mp hl]
    exact hline

/-- A jump completes the open line. -/
theorem Dumped.jump (h : Dumped d lines line es es') :
    Dumped d.jump (lines ++ [line]) [] (es ++ es') [] where
  file := by
    show d.myfile ++ ['\n'] = _
    rw [h.file]
    simp
  complete := readLines_append h.complete h.line.read
  newline := newline_append h.newline h.line.newline
  line := .closed rfl

@[simp] theorem Dumper.word_cnt (d : Dumper) (address val : BitVec 32) :
    (d.word address val).cnt = d.cnt + 1 := by
  simp only [Dumper.word, Dumper.print]
  split_ifs <;> rfl

@[simp] theorem Dumper.word_lastAddress (d : Dumper) (address val : BitVec 32) :
    (d.word address val).lastAddress = address := rfl

theorem Dumper.word_myfile (d : Dumper) (address val : BitVec 32) :
    (d.word address val).myfile =
      d.myfile ++ ((if d.cnt % 4 = 0 then padHex 8 address.toNat else []) ++ wordText val) ++
        if d.cnt % 4 = 3 then ['\n'] else [] := by
  simp only [Dumper.word, Dumper.print]
  split_ifs <;> simp_all

/-- A word completes its line or leaves it open. -/
theorem Dumped.line_word (n : Nat) (ws : List (BitVec 32)) {address val : BitVec 32}
    (hlines : readLines lines = some es) (hnewline : ∀ l ∈ lines, '\n' ∉ l)
    (hfile : (d.word address val).myfile =
      lines.flatMap (· ++ ['\n']) ++ lineText n ws ++ if d.cnt % 4 = 3 then ['\n'] else [])
    (hlength : ws.length = d.cnt % 4 + 1) (haddress : address.toNat + 4 = 4 * (n + ws.length)) :
    ∃ lines' line' es₁ es₂, Dumped (d.word address val) lines' line' es₁ es₂ ∧
      es₁ ++ es₂ = es ++ entries n ws := by
  have hbound := address.isLt
  by_cases hcnt : d.cnt % 4 = 3
  · refine ⟨lines ++ [lineText n ws], [], es ++ entries n ws, [], ⟨?_, ?_, ?_, ?_⟩, List.append_nil _⟩
    · rw [hfile, if_pos hcnt]
      simp
    · exact readLines_append hlines (readLines_line (by omega) ws)
    · exact newline_append hnewline (newline_notMem_lineText n ws)
    · exact .closed (by rw [Dumper.word_cnt]; omega)
  · refine ⟨lines, lineText n ws, es, entries n ws, ⟨?_, hlines, hnewline, ?_⟩, rfl⟩
    · rw [hfile, if_neg hcnt, List.append_nil]
    · exact .pending (by rw [Dumper.word_cnt]; omega) (by rw [Dumper.word_cnt]; omega)
        (by rw [Dumper.word_lastAddress]; omega)

/-- A word that continues the open line, or starts a line if none is open. -/
theorem Dumped.word (h : Dumped d lines line es es') (val : BitVec 32) (hkey : key.toNat < 2 ^ 30)
    (hnext : d.cnt % 4 ≠ 0 → d.lastAddress.toNat + 4 = 4 * key.toNat) :
    ∃ lines' line' es₁ es₂, Dumped (d.word (key * 4) val) lines' line' es₁ es₂ ∧
      es₁ ++ es₂ = es ++ es' ++ [(key, val)] := by
  have haddress : (key * 4).toNat = 4 * key.toNat := by
    rw [BitVec.toNat_mul]
    show key.toNat * 4 % 2 ^ 32 = _
    omega
  have hofNat : BitVec.ofNat 32 key.toNat = key := by rw [BitVec.ofNat_toNat, BitVec.setWidth_eq]
  have hfile := Dumper.word_myfile d (key * 4) val
  have hline := h.line
  have hmyfile := h.file
  cases hline with
  | closed hcnt =>
    obtain ⟨lines', line', es₁, es₂, hd, hes⟩ :=
      Dumped.line_word key.toNat [val] h.complete h.newline
        (by rw [hfile, hmyfile, if_pos hcnt, haddress]; simp [lineText])
        (by simp [hcnt]) (by rw [haddress, List.length_singleton]; omega)
    refine ⟨lines', line', es₁, es₂, hd, hes.trans ?_⟩
    simp [entries, hofNat]
  | @pending n ws hcnt hlength hlast =>
    have hn : n + ws.length = key.toNat := by
      have := hnext hcnt
      omega
    obtain ⟨lines', line', es₁, es₂, hd, hes⟩ :=
      Dumped.line_word n (ws ++ [val]) h.complete h.newline
        (by rw [hfile, hmyfile, if_neg hcnt, lineText_concat]; simp)
        (by simp [hlength]) (by rw [haddress, List.length_append, List.length_singleton]; omega)
    refine ⟨lines', line', es₁, es₂, hd, hes.trans ?_⟩
    rw [entries_concat, hn, hofNat, List.append_assoc]

/-- The word that was written last is on the open line. -/
theorem OpenLine.last_mem (h : OpenLine d line es') (hcnt : d.cnt % 4 ≠ 0) :
    ∃ e ∈ es', d.lastAddress.toNat = 4 * e.1.toNat := by
  have hbound := d.lastAddress.isLt
  cases h with
  | closed hclosed => exact absurd hclosed hcnt
  | @pending n ws _ hlength hlast =>
    rcases List.eq_nil_or_concat ws with rfl | ⟨init, w, rfl⟩
    · exact absurd hlength.symm hcnt
    · refine ⟨(BitVec.ofNat 32 (n + init.length), w), ?_, ?_⟩
      · rw [List.concat_eq_append, entries_concat]
        exact List.mem_append_right _ (List.mem_singleton_self _)
      · rw [List.length_concat] at hlast
        show _ = 4 * (BitVec.ofNat 32 (n + init.length)).toNat
        rw [BitVec.toNat_ofNat, Nat.mod_eq_of_lt (by omega)]
        omega

/-- **A round of the loop adds a word**, whose key is above all those on the open line. -/
theorem Dumped.entry (h : Dumped d lines line es es') (val : BitVec 32) (hkey : key.toNat < 2 ^ 30)
    (habove : ∀ e ∈ es', e.1.toNat < key.toNat) :
    ∃ lines' line' es₁ es₂, Dumped (d.entry key val) lines' line' es₁ es₂ ∧
      es₁ ++ es₂ = es ++ es' ++ [(key, val)] := by
  simp only [Dumper.entry]
  split
  · obtain ⟨lines', line', es₁, es₂, hd, hes⟩ :=
      h.jump.word val hkey fun hcnt => absurd rfl hcnt
    exact ⟨lines', line', es₁, es₂, hd, by rw [hes, List.append_nil]⟩
  · next hjump =>
    -- without a jump the word follows the one before it, which has a smaller key
    refine h.word val hkey fun hcnt => ?_
    obtain ⟨e, he, hlast⟩ := h.line.last_mem hcnt
    have hlt := habove e he
    have haddress : ((key * 4).toNat : Nat) ≤ (d.lastAddress + 4).toNat := by
      simpa [BitVec.lt_def] using hjump
    rw [BitVec.toNat_mul, BitVec.toNat_add, hlast] at haddress
    have hnum : (4 : BitVec 32).toNat = 4 := rfl
    rw [hnum] at haddress
    omega

/-- The file after the words of a list, from an empty file on. -/
theorem dumped_foldl (es : List (BitVec 32 × BitVec 32)) (hsorted : OrdMap.Sorted es)
    (hkeys : ∀ e ∈ es, e.1.toNat < 2 ^ 30) :
    ∃ lines line es₁ es₂, Dumped (es.foldl (fun d e => d.entry e.1 e.2)
      { myfile := [], cnt := 0, lastAddress := 0 }) lines line es₁ es₂ ∧ es₁ ++ es₂ = es := by
  induction es using List.reverseRecOn with
  | nil => exact ⟨[], [], [], [], ⟨rfl, rfl, by simp, .closed rfl⟩, rfl⟩
  | append_singleton es e ih =>
    obtain ⟨hes, -, habove⟩ := List.pairwise_append.mp hsorted
    obtain ⟨lines, line, es₁, es₂, hd, rfl⟩ := ih hes fun f hf => hkeys f (List.mem_append_left _ hf)
    rw [List.foldl_append, List.foldl_cons, List.foldl_nil]
    refine hd.entry e.2 (hkeys e (List.mem_append_right _ (List.mem_singleton_self _))) fun f hf => ?_
    exact habove f (List.mem_append_right _ hf) e (List.mem_singleton_self _)

/-! ## The dump -/

/-- What is read back from a dump. -/
theorem readDump_eq {mem : OrdMap (BitVec 32) (BitVec 32)} (h : ∀ e ∈ mem.toList, e.1.toNat < 2 ^ 30) :
    readDump (hexdump mem) = some mem.toList := by
  obtain ⟨lines, line, es₁, es₂, hd, hes⟩ := dumped_foldl mem.toList (OrdMap.sorted_toList mem) h
  rw [hexdump, hd.read, hes]

/-- **A dump holds the words of the memory**: the same keys with the same values, each of them once. -/
theorem readDump_hexdump (mem : OrdMap (BitVec 32) (BitVec 32)) (h : ∀ key ∈ mem, key.toNat < 2 ^ 30) :
    readDump (hexdump mem) = some mem.toList := by
  refine readDump_eq fun e he => h e.1 ?_
  have hget := Std.ExtTreeMap.mem_toList_iff_getElem?_eq_some.mp he
  exact Std.ExtTreeMap.mem_iff_isSome_getElem?.mpr (by rw [hget]; rfl)

/-- A gap in the map. -/
theorem readDump_hexdump_gap :
    readDump (hexdump ((∅ : OrdMap (BitVec 32) (BitVec 32)).insert 5 0xcafe |>.insert 0 1)) =
      some [(0, 1), (5, 0xcafe)] := by
  have hkeys : ∀ key ∈ (∅ : OrdMap (BitVec 32) (BitVec 32)).insert 5 0xcafe |>.insert 0 1,
      key.toNat < 2 ^ 30 := by
    intro key h
    rw [Std.ExtTreeMap.mem_insert, Std.ExtTreeMap.mem_insert] at h
    rcases h with h | h | h
    · rw [← Std.LawfulEqOrd.compare_eq_iff_eq.mp h]
      decide
    · rw [← Std.LawfulEqOrd.compare_eq_iff_eq.mp h]
      decide
    · exact absurd h Std.ExtTreeMap.not_mem_empty
  rw [readDump_hexdump _ hkeys]
  decide +kernel

end DeltaModels.Sdram
