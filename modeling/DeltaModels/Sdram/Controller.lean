import DeltaModels.Sdram.Backdoor
import DeltaModels.Sdram.CommandTable

/-!
# A controller in front of the SDRAM

`MockDDRController` serves requests for single words: it splits a byte address, activates the row in
its bank, and then writes or reads the column. Each command is one sample of the pins, with a NOP
behind it; the NOP behind a READ is the one that returns the word.

With the backdoor beside it, the device is then an array of words (`words`): the requests write and
read single ones, a copy moves a stretch upwards and in place, and a clear overwrites one with zeros.
`controlled_words` says so for every sequence of requests. What it takes is that no row and no column
asked for has the bit set that goes out on `A[10]`.
-/

namespace DeltaModels.Sdram

variable {A_SIZE BA_SIZE : Nat} {cfg : Config} {s : State BA_SIZE}

/-! ## The controller -/

/-- `do_nop`. -/
def doNop : Pins A_SIZE BA_SIZE where
  csN := 1
  a := 0
  ba := 0
  rasN := 0
  casN := 0
  weN := 0

/-- The sample that activates a row. -/
def activatePins (bank row : BitVec 32) : Pins A_SIZE BA_SIZE where
  csN := 0
  a := row.setWidth _
  ba := bank.setWidth _
  rasN := 0
  casN := 1
  weN := 1

/-- The sample that writes a column. -/
def writePins (bank col data : BitVec 32) : Pins A_SIZE BA_SIZE where
  csN := 0
  a := col.setWidth _
  ba := bank.setWidth _
  dq := data
  rasN := 1
  casN := 0
  weN := 0

/-- The sample that reads a column; the data pins are as the NOP before it has left them. -/
def readPins (bank col : BitVec 32) : Pins A_SIZE BA_SIZE where
  csN := 0
  a := col.setWidth _
  ba := bank.setWidth _
  rasN := 1
  casN := 0
  weN := 1

/-- `activate_bank`. -/
def activateBank (bank row : BitVec 32) : List (Pins A_SIZE BA_SIZE) := [activatePins bank row, doNop]

/-- `do_write`. -/
def doWrite (bank col data : BitVec 32) : List (Pins A_SIZE BA_SIZE) := [writePins bank col data, doNop]

/-- `do_read`. -/
def doRead (bank col : BitVec 32) : List (Pins A_SIZE BA_SIZE) := [readPins bank col, doNop]

/-- The samples of `_write`. -/
def writeSamples (geometry : SdramGeom) (addr data : BitVec 32) : List (Pins A_SIZE BA_SIZE) :=
  let t := toRowBankColumn geometry addr
  activateBank t.bank t.row ++ doWrite t.bank t.col data

/-- The samples of `_read`. -/
def readSamples (geometry : SdramGeom) (addr : BitVec 32) : List (Pins A_SIZE BA_SIZE) :=
  let t := toRowBankColumn geometry addr
  activateBank t.bank t.row ++ doRead t.bank t.col

/-- What `do_read` finds on `dq`: the word driven at the last sample, else the 0 of `do_nop`. -/
def returned (effects : List Effect) : BitVec 32 := (effects.getLast?.bind Effect.dq).getD 0

/-- What is asked of the device: a word written or read by the controller, some clock cycles of nothing,
or a run of the backdoor. -/
inductive Request where
  | write (addr data : BitVec 32)
  | read (addr : BitVec 32)
  | wait (n : Nat)
  | backdoor (b : Backdoor)

/-- The device behind the controller, one request after the other. -/
def controlled (A_SIZE : Nat) {BA_SIZE : Nat} (cfg : Config) :
    Mealy Request (State BA_SIZE) (Option (BitVec 32)) where
  step s
    | .write addr data => ((pins A_SIZE cfg).run s (writeSamples cfg.geometry addr data), none)
    | .read addr =>
      let samples := readSamples cfg.geometry addr
      ((pins A_SIZE cfg).run s samples, some (returned ((pins A_SIZE cfg).trace s samples)))
    | .wait n => ((pins A_SIZE cfg).run s (List.replicate n doNop), none)
    | .backdoor b => ((backdoorHandler cfg s b).1, none)

/-! ## The array of words -/

/-- The word of a byte address. -/
def wordIndex (g : SdramGeom) (addr : BitVec 32) : Nat :=
  addr.toNat / 4 % 2 ^ (g.rowBits + g.bankBits + g.colBits)

/-- What a copy request makes of the words. -/
def Backdoor.copied (cfg : Config) (b : Backdoor) (m : Nat → BitVec 32) : Nat → BitVec 32 :=
  if b.copy = 1 then
    InPlace.copyUp m (fromWishbone cfg b.copyFrom).toNat (fromWishbone cfg b.copyTo).toNat b.tsize
  else m

/-- What a clear request makes of the words. -/
def Backdoor.cleared (cfg : Config) (b : Backdoor) (m : Nat → BitVec 32) : Nat → BitVec 32 := fun k =>
  if b.clear = 1 ∧ (fromWishbone cfg b.clearFrom).toNat ≤ k ∧ k < (fromWishbone cfg b.clearTo).toNat
  then 0 else m k

/-- The array of words. -/
def words (cfg : Config) : Mealy Request (Nat → BitVec 32) (Option (BitVec 32)) where
  step m
    | .write addr data => ((Patch.single (wordIndex cfg.geometry addr) data).apply m, none)
    | .read addr => (m, some (m (wordIndex cfg.geometry addr)))
    | .wait _ => (m, none)
    | .backdoor b => (b.cleared cfg (b.copied cfg m), none)

/-- The row and the column of an address leave `A[10]` low. -/
structure LowBits (g : SdramGeom) (addr : BitVec 32) : Prop where
  row : (toRowBankColumn g addr).row.getLsbD 10 = false
  col : (toRowBankColumn g addr).col.getLsbD 10 = false

instance (g : SdramGeom) (addr : BitVec 32) : Decidable (LowBits g addr) :=
  decidable_of_iff (_ ∧ _) ⟨fun h => ⟨h.1, h.2⟩, fun h => ⟨h.row, h.col⟩⟩

/-- The requests that the array of words understands: addresses that leave `A[10]` low, and regions that
do not run past the end of the words. -/
def Request.Ok (cfg : Config) : Request → Prop
  | .write addr _ | .read addr => LowBits cfg.geometry addr
  | .wait _ => True
  | .backdoor b => b.copy = 1 → (fromWishbone cfg b.copyFrom).toNat + b.tsize ≤ 2 ^ 30 ∧
      (fromWishbone cfg b.copyTo).toNat + b.tsize ≤ 2 ^ 30

instance (cfg : Config) : ∀ r : Request, Decidable (r.Ok cfg)
  | .write addr _ | .read addr => inferInstanceAs (Decidable (LowBits cfg.geometry addr))
  | .wait _ => inferInstanceAs (Decidable True)
  | .backdoor _ => inferInstanceAs (Decidable (_ → _))

/-- The pins are wide enough for the geometry, and for the handler, which reads `A[10]`. -/
structure Fits (A_SIZE BA_SIZE : Nat) (g : SdramGeom) : Prop where
  decoder : 11 ≤ A_SIZE
  words : g.rowBits + g.bankBits + g.colBits ≤ 30
  row : g.rowBits ≤ A_SIZE
  col : g.colBits ≤ A_SIZE
  bank : g.bankBits ≤ BA_SIZE

/-- No read is pending, and the device holds the words. -/
structure HoldsWords (s : State BA_SIZE) (m : Nat → BitVec 32) : Prop where
  buffer : s.readBuf = []
  words : ∀ k < 2 ^ 32, wordAt s.mem k = m k

/-! ## Samples -/

/-- A word that fits on the pins comes back from them. -/
theorem setWidth_setWidth_of_lt {x : BitVec 32} {w : Nat} (h : x.toNat < 2 ^ w) :
    (x.setWidth w).setWidth 32 = x := by
  apply BitVec.eq_of_toNat_eq
  rw [BitVec.toNat_setWidth, BitVec.toNat_setWidth, Nat.mod_eq_of_lt h, Nat.mod_eq_of_lt x.isLt]

/-- A sample with `A[10]` low is decoded as the command table says. -/
theorem sdramHandler_low {p : Pins A_SIZE BA_SIZE} (hck : p.ck = 1 ∧ p.cke = 1)
    (ha : p.a.getLsbD 10 = false) :
    sdramHandler cfg s p = dispatch cfg s p.tableCommand p.toBus := by
  have hclk : (p.ck &&& p.cke) = 1 := by rw [hck.1, hck.2]; rfl
  simp only [sdramHandler, hclk, if_true, ofCode_agg_low ha]

theorem getLsbD_setWidth_ten {x : BitVec 32} (h : x.getLsbD 10 = false) :
    (x.setWidth A_SIZE).getLsbD 10 = false := by
  rw [BitVec.getLsbD_setWidth, h, Bool.and_false]

/-- A NOP without a read pending does nothing. -/
theorem sdramHandler_doNop (h : s.readBuf = []) :
    sdramHandler cfg s (doNop : Pins A_SIZE BA_SIZE) = (s, {}) := by
  have hcmd : (doNop : Pins A_SIZE BA_SIZE).tableCommand = some .nop0 := by
    simp [Pins.tableCommand, doNop]
  rw [sdramHandler_low ⟨rfl, rfl⟩ (by simp [doNop]), hcmd, dispatch]
  simp only [handleCmd, h, List.getLast?_nil]

/-- A NOP behind a READ returns the word. -/
theorem sdramHandler_doNop_read {v : BitVec 32} (h : s.readBuf = [v]) :
    sdramHandler cfg s (doNop : Pins A_SIZE BA_SIZE)
      = ({ s with readBuf := [] }, { dq := some v, log := [.readReturned v] }) := by
  have hcmd : (doNop : Pins A_SIZE BA_SIZE).tableCommand = some .nop0 := by
    simp [Pins.tableCommand, doNop]
  rw [sdramHandler_low ⟨rfl, rfl⟩ (by simp [doNop]), hcmd, dispatch]
  simp only [handleCmd, h, List.getLast?_singleton, List.dropLast_singleton]

section Samples

variable {bank row col data : BitVec 32}

theorem sdramHandler_activatePins (hrow : row.getLsbD 10 = false) :
    sdramHandler cfg s (activatePins bank row : Pins A_SIZE BA_SIZE)
      = handleCmd cfg s .activate (activatePins bank row : Pins A_SIZE BA_SIZE).toBus := by
  have hcmd : (activatePins bank row : Pins A_SIZE BA_SIZE).tableCommand = some .activate := by
    simp [Pins.tableCommand, activatePins]
  rw [sdramHandler_low (p := activatePins bank row) ⟨rfl, rfl⟩ (getLsbD_setWidth_ten hrow), hcmd, dispatch]

theorem sdramHandler_writePins (hcol : col.getLsbD 10 = false) :
    sdramHandler cfg s (writePins bank col data : Pins A_SIZE BA_SIZE)
      = handleCmd cfg s .write (writePins bank col data : Pins A_SIZE BA_SIZE).toBus := by
  have hcmd : (writePins bank col data : Pins A_SIZE BA_SIZE).tableCommand = some .write := by
    simp [Pins.tableCommand, writePins]
  rw [sdramHandler_low (p := writePins bank col data) ⟨rfl, rfl⟩ (getLsbD_setWidth_ten hcol), hcmd, dispatch]

theorem sdramHandler_readPins (hcol : col.getLsbD 10 = false) :
    sdramHandler cfg s (readPins bank col : Pins A_SIZE BA_SIZE)
      = handleCmd cfg s .read (readPins bank col : Pins A_SIZE BA_SIZE).toBus := by
  have hcmd : (readPins bank col : Pins A_SIZE BA_SIZE).tableCommand = some .read := by
    simp [Pins.tableCommand, readPins]
  rw [sdramHandler_low (p := readPins bank col) ⟨rfl, rfl⟩ (getLsbD_setWidth_ten hcol), hcmd, dispatch]

/-- An activation and its NOP. -/
theorem run_activateBank (h : s.readBuf = []) (hrow : row.getLsbD 10 = false)
    (rest : List (Pins A_SIZE BA_SIZE)) :
    (pins A_SIZE cfg).run s (activateBank bank row ++ rest)
      = (pins A_SIZE cfg).run
          (handleCmd cfg s .activate (activatePins bank row : Pins A_SIZE BA_SIZE).toBus).1 rest := by
  have hnop : sdramHandler cfg
      (handleCmd cfg s .activate (activatePins bank row : Pins A_SIZE BA_SIZE).toBus).1
      (doNop : Pins A_SIZE BA_SIZE) = (_, {}) := sdramHandler_doNop h
  simp only [activateBank, List.cons_append, List.nil_append, Mealy.run_cons, pins,
    sdramHandler_activatePins hrow, hnop]

end Samples

/-! ## Requests -/

section Requests

variable {addr data : BitVec 32}

/-- The pins of the three commands name the row, the bank and the column of the address. -/
theorem Fits.pins (hfit : Fits A_SIZE BA_SIZE cfg.geometry) (addr : BitVec 32) :
    let t := toRowBankColumn cfg.geometry addr
    ((t.bank.setWidth BA_SIZE).setWidth 32 = t.bank ∧ (t.row.setWidth A_SIZE).setWidth 32 = t.row) ∧
      (t.col.setWidth A_SIZE).setWidth 32 = t.col := by
  intro t
  have ht : t.InRange cfg.geometry := toRowBankColumn_inRange hfit.words addr
  have hpow : ∀ {v w : Nat}, v ≤ w → 2 ^ v ≤ 2 ^ w := fun h => Nat.pow_le_pow_right (by omega) h
  exact ⟨⟨setWidth_setWidth_of_lt (Nat.lt_of_lt_of_le ht.bank_lt (hpow hfit.bank)),
    setWidth_setWidth_of_lt (Nat.lt_of_lt_of_le ht.row_lt (hpow hfit.row))⟩,
    setWidth_setWidth_of_lt (Nat.lt_of_lt_of_le ht.col_lt (hpow hfit.col))⟩

/-- An unmasked WRITE stores its word. -/
theorem mem_handleCmd_write {p : Bus A_SIZE BA_SIZE} (hdm : p.dm = 0) :
    (handleCmd cfg s .write p).1.mem = s.mem.insert ((s.select p).updateAddress cfg) p.dq := by
  have hzero : byteMask (p.dm.setWidth 32) = 0 := by rw [hdm]; exact byteMask_zero
  simp only [handleCmd, hzero, merge_unmasked]
  rfl

/-- **A write request** stores its word and leaves no read pending. -/
theorem run_writeSamples (hfit : Fits A_SIZE BA_SIZE cfg.geometry) (h : s.readBuf = [])
    (hlow : LowBits cfg.geometry addr) (data : BitVec 32) :
    ((pins A_SIZE cfg).run s (writeSamples cfg.geometry addr data)).readBuf = [] ∧
      ((pins A_SIZE cfg).run s (writeSamples cfg.geometry addr data)).mem
        = s.mem.insert ((toRowBankColumn cfg.geometry addr).address cfg.geometry) data := by
  obtain ⟨⟨hbank, hrow⟩, hcol⟩ := hfit.pins addr
  have hlowCol := hlow.col
  rw [writeSamples, run_activateBank h hlow.row]
  generalize toRowBankColumn cfg.geometry addr = t at hbank hrow hcol hlowCol ⊢
  let opened := (handleCmd cfg s .activate (activatePins t.bank t.row : Pins A_SIZE BA_SIZE).toBus).1
  let write : Pins A_SIZE BA_SIZE := writePins t.bank t.col data
  have haddress : (opened.select write.toBus).updateAddress cfg = t.address cfg.geometry :=
    updateAddress_activate cfg s hbank hrow hbank hcol
  have hnop : sdramHandler cfg (handleCmd cfg opened .write write.toBus).1
      (doNop : Pins A_SIZE BA_SIZE) = (_, {}) := sdramHandler_doNop h
  have hrun : (pins A_SIZE cfg).run opened (doWrite t.bank t.col data)
      = (handleCmd cfg opened .write write.toBus).1 := by
    simp only [doWrite, Mealy.run_cons, Mealy.run_nil, pins, sdramHandler_writePins hlowCol]
    rw [hnop]
  rw [hrun]
  refine ⟨h, ?_⟩
  rw [mem_handleCmd_write rfl, haddress]
  rfl

/-- **A read request** returns the word, changes no word, and leaves no read pending. -/
theorem run_readSamples (hfit : Fits A_SIZE BA_SIZE cfg.geometry) (h : s.readBuf = [])
    (hlow : LowBits cfg.geometry addr) :
    ((pins A_SIZE cfg).run s (readSamples cfg.geometry addr)).readBuf = [] ∧
      ((pins A_SIZE cfg).run s (readSamples cfg.geometry addr)).mem
        = s.mem.subscript ((toRowBankColumn cfg.geometry addr).address cfg.geometry) ∧
      returned ((pins A_SIZE cfg).trace s (readSamples cfg.geometry addr))
        = s.mem.read ((toRowBankColumn cfg.geometry addr).address cfg.geometry) := by
  obtain ⟨⟨hbank, hrow⟩, hcol⟩ := hfit.pins addr
  have hlowCol := hlow.col
  have hlowRow := hlow.row
  simp only [readSamples]
  generalize toRowBankColumn cfg.geometry addr = t at hbank hrow hcol hlowCol hlowRow ⊢
  let opened := (handleCmd cfg s .activate (activatePins t.bank t.row : Pins A_SIZE BA_SIZE).toBus).1
  let read : Pins A_SIZE BA_SIZE := readPins t.bank t.col
  have haddress : (opened.select read.toBus).updateAddress cfg = t.address cfg.geometry :=
    updateAddress_activate cfg s hbank hrow hbank hcol
  have hbuf : (handleCmd cfg opened .read read.toBus).1.readBuf
      = [s.mem.read (t.address cfg.geometry)] := by
    show s.readBuf ++ [s.mem.read ((opened.select read.toBus).updateAddress cfg)] = _
    rw [h, haddress, List.nil_append]
  have hmem : (handleCmd cfg opened .read read.toBus).1.mem
      = s.mem.subscript (t.address cfg.geometry) := congrArg s.mem.subscript haddress
  have hactivate : sdramHandler cfg s (activatePins t.bank t.row : Pins A_SIZE BA_SIZE) = (opened, _) :=
    sdramHandler_activatePins hlowRow
  have hfirst : sdramHandler cfg opened (doNop : Pins A_SIZE BA_SIZE) = (opened, {}) :=
    sdramHandler_doNop h
  have hread : sdramHandler cfg opened (readPins t.bank t.col : Pins A_SIZE BA_SIZE)
      = handleCmd cfg opened .read read.toBus := sdramHandler_readPins hlowCol
  have hlast : sdramHandler cfg (handleCmd cfg opened .read read.toBus).1 (doNop : Pins A_SIZE BA_SIZE)
      = _ := sdramHandler_doNop_read hbuf
  have hrun : (pins A_SIZE cfg).run s (activateBank t.bank t.row ++ doRead t.bank t.col)
      = { (handleCmd cfg opened .read read.toBus).1 with readBuf := [] } := by
    simp only [activateBank, doRead, List.cons_append, List.nil_append, Mealy.run_cons,
      Mealy.run_nil, pins, hactivate]
    rw [hfirst, hread, hlast]
  have htrace : returned ((pins A_SIZE cfg).trace s (activateBank t.bank t.row ++ doRead t.bank t.col))
      = s.mem.read (t.address cfg.geometry) := by
    simp only [activateBank, doRead, List.cons_append, List.nil_append, Mealy.trace_cons,
      Mealy.trace_nil, pins, hactivate]
    rw [hfirst, hread, hlast]
    rfl
  rw [hrun]
  exact ⟨rfl, hmem, htrace⟩

/-- Cycles of nothing do nothing. -/
theorem run_wait (h : s.readBuf = []) (n : Nat) :
    (pins A_SIZE cfg).run s (List.replicate n doNop) = s := by
  induction n with
  | zero => rfl
  | succ n ih =>
    have hnop : sdramHandler cfg s (doNop : Pins A_SIZE BA_SIZE) = (s, {}) := sdramHandler_doNop h
    rw [List.replicate_succ, Mealy.run_cons]
    show (pins A_SIZE cfg).run (sdramHandler cfg s doNop).1 _ = s
    rw [hnop, ih]

end Requests

/-! ## The backdoor -/

theorem wordAt_insert (mem : OrdMap (BitVec 32) (BitVec 32)) (key v : BitVec 32) {k : Nat}
    (hk : k < 2 ^ 32) :
    wordAt (mem.insert key v) k = (Patch.single key.toNat v).apply (wordAt mem) k := by
  have hkey : key = BitVec.ofNat 32 k ↔ k = key.toNat := by
    rw [← BitVec.toNat_inj, BitVec.toNat_ofNat, Nat.mod_eq_of_lt hk]
    exact eq_comm
  rw [wordAt, OrdMap.read_insert]
  by_cases h : k = key.toNat
  · rw [if_pos (hkey.mpr h), h]
    exact (Patch.apply_of_some _ (Patch.single_self _ _)).symm
  · rw [if_neg (mt hkey.mp h), Patch.apply_of_none _ (Patch.single_of_ne _ h)]
    rfl

/-- One round clears one word. -/
theorem wordAt_clearWord (s : Logged) {i k : Nat} (hi : i < 2 ^ 32) (hk : k < 2 ^ 32) :
    wordAt (clearWord cfg s i).1 k = if k = i then 0 else wordAt s.1 k := by
  have hword : (BitVec.ofNat 32 i).toNat = i := by rw [BitVec.toNat_ofNat, Nat.mod_eq_of_lt hi]
  rw [clearWord, wordAt_insert _ _ _ hk, hword, Patch.apply, Patch.single]
  split <;> rfl

/-- **The loop clears a stretch.** -/
theorem wordAt_clearLoop (s : Logged) {start n : Nat} (hend : start + n ≤ 2 ^ 32) {k : Nat}
    (hk : k < 2 ^ 32) :
    wordAt ((List.range' start n).foldl (clearWord cfg) s).1 k
      = if start ≤ k ∧ k < start + n then 0 else wordAt s.1 k := by
  induction n with
  | zero => grind
  | succ n ih =>
    rw [List.range'_1_concat, List.foldl_append, List.foldl_cons, List.foldl_nil,
      wordAt_clearWord _ (by omega) hk, ih (by omega)]
    grind

/-- **The backdoor on the array of words**: the copy first, then the clear. -/
theorem wordAt_backdoorHandler (s : State BA_SIZE) {b : Backdoor}
    (hok : (Request.backdoor b).Ok cfg) {k : Nat} (hk : k < 2 ^ 32) :
    wordAt (backdoorHandler cfg s b).1.mem k = b.cleared cfg (b.copied cfg (wordAt s.mem)) k := by
  have hcopied : ∀ {k : Nat}, k < 2 ^ 32 → wordAt
      (if b.copy = 1 then backdoorCopy cfg b (s.mem, []) else (s.mem, [])).1 k
        = b.copied cfg (wordAt s.mem) k := by
    intro k hk
    rw [Backdoor.copied]
    split
    · next hcopy => exact wordAt_copyLoop (s.mem, []) (hok hcopy).1 (hok hcopy).2 hk
    · rfl
  have hto := (fromWishbone cfg b.clearTo).isLt
  simp only [backdoorHandler, Backdoor.cleared]
  by_cases hclear : b.clear = 1
  · rw [if_pos hclear, backdoorClear, wordAt_clearLoop _ (by omega) hk, hcopied hk]
    grind
  · rw [if_neg hclear, hcopied hk]
    exact (if_neg fun h => hclear h.1).symm

/-- What the backdoor makes of a word depends on words alone. -/
theorem Backdoor.cleared_copied_congr {b : Backdoor} (hok : (Request.backdoor b).Ok cfg)
    {m m' : Nat → BitVec 32} (h : ∀ k < 2 ^ 32, m k = m' k) {k : Nat} (hk : k < 2 ^ 32) :
    b.cleared cfg (b.copied cfg m) k = b.cleared cfg (b.copied cfg m') k := by
  have hcopied : b.copied cfg m k = b.copied cfg m' k := by
    rw [Backdoor.copied, Backdoor.copied]
    split
    · next hcopy =>
      have hsrc := (hok hcopy).1
      exact InPlace.copyUp_congr h (by omega) hk
    · exact h k hk
  rw [Backdoor.cleared, Backdoor.cleared, hcopied]

/-! ## The simulation -/

/-- A stored word is a word of the array. -/
theorem HoldsWords.insert {m : Nat → BitVec 32} (h : HoldsWords s m) {s' : State BA_SIZE}
    {key data : BitVec 32} (hbuf : s'.readBuf = []) (hmem : s'.mem = s.mem.insert key data) :
    HoldsWords s' ((Patch.single key.toNat data).apply m) where
  buffer := hbuf
  words k hk := by
    rw [hmem, wordAt_insert _ _ _ hk, Patch.apply, Patch.apply, h.words k hk]

theorem HoldsWords.read {m : Nat → BitVec 32} (h : HoldsWords s m) (key : BitVec 32) :
    s.mem.read key = m key.toNat := by
  rw [← wordAt_toNat, h.words _ key.isLt]

/-- **The device behind the controller simulates the array of words.** -/
def controlledSimulation (hfit : Fits A_SIZE BA_SIZE cfg.geometry) :
    Mealy.Simulation (controlled A_SIZE cfg : Mealy Request (State BA_SIZE) _) (words cfg)
      (Request.Ok cfg) where
  Rel := HoldsWords
  step_rel s m r hr h := by
    cases r with
    | write addr data =>
      obtain ⟨hbuf, hmem⟩ := run_writeSamples hfit h.buffer hr data
      have hinsert := h.insert hbuf hmem
      rwa [address_toRowBankColumn hfit.words] at hinsert
    | read addr =>
      obtain ⟨hbuf, hmem, -⟩ := run_readSamples hfit h.buffer hr
      refine ⟨hbuf, fun k hk => ?_⟩
      show wordAt ((pins A_SIZE cfg).run s (readSamples cfg.geometry addr)).mem k = m k
      rw [hmem, wordAt, OrdMap.read_subscript]
      exact h.words k hk
    | wait n =>
      show HoldsWords ((pins A_SIZE cfg).run s (List.replicate n doNop)) m
      rw [run_wait h.buffer]
      exact h
    | backdoor b =>
      refine ⟨h.buffer, fun k hk => ?_⟩
      show wordAt (backdoorHandler cfg s b).1.mem k = _
      rw [wordAt_backdoorHandler s hr hk]
      exact Backdoor.cleared_copied_congr hr h.words hk
  step_out s m r hr h := by
    cases r with
    | write addr data => rfl
    | read addr =>
      obtain ⟨-, -, hans⟩ := run_readSamples hfit h.buffer hr
      show some (returned ((pins A_SIZE cfg).trace s (readSamples cfg.geometry addr))) = _
      rw [hans, h.read, address_toRowBankColumn hfit.words]
      rfl
    | wait n => rfl
    | backdoor b => rfl

/-- **The device behind the controller is an array of words.** From a state without a pending read, after
every sequence of word requests, pauses, copies and clears, each read request has returned the word that
the array holds then, and the device holds the words of the array. -/
theorem controlled_words (hfit : Fits A_SIZE BA_SIZE cfg.geometry) (s₀ : State BA_SIZE)
    (hbuf : s₀.readBuf = []) (rs : List Request) (hok : ∀ r ∈ rs, r.Ok cfg) :
    (controlled A_SIZE cfg).trace s₀ rs = (words cfg).trace (wordAt s₀.mem) rs ∧
      ((controlled A_SIZE cfg).run s₀ rs).readBuf = [] ∧
      ∀ k < 2 ^ 32, wordAt ((controlled A_SIZE cfg).run s₀ rs).mem k
        = (words cfg).run (wordAt s₀.mem) rs k := by
  have hrel : (controlledSimulation hfit).Rel s₀ (wordAt s₀.mem) := ⟨hbuf, fun _ _ => rfl⟩
  have hrun : HoldsWords _ _ := (controlledSimulation hfit).run_rel hrel hok
  exact ⟨(controlledSimulation hfit).trace_eq hrel hok, hrun.buffer, hrun.words⟩

/-- Two words are written, moved up by the backdoor, and read where they are now; the first one is then
cleared. -/
theorem controlled_words_moved :
    ((controlled 12 sixteenMiB).trace (State.init : State 2)
      [.write 0x300 0xbabecafe, .write 0x304 0xfefefefe, .wait 5,
        .backdoor { copyFrom := 0x40000300, copyTo := 0x40010000, copySize := 8, copy := 1, clear := 0 },
        .read 0x10004,
        .backdoor { copy := 0, clearFrom := 0x40010000, clearTo := 0x40010004, clear := 1 },
        .read 0x10000, .read 0x300]).reduceOption = [0xfefefefe, 0, 0xbabecafe] := by
  have h := @controlled_words 12 2 sixteenMiB ⟨by decide, by decide, by decide, by decide, by decide⟩ State.init rfl
    [.write 0x300 0xbabecafe, .write 0x304 0xfefefefe, .wait 5,
      .backdoor { copyFrom := 0x40000300, copyTo := 0x40010000, copySize := 8, copy := 1, clear := 0 },
      .read 0x10004,
      .backdoor { copy := 0, clearFrom := 0x40010000, clearTo := 0x40010004, clear := 1 },
      .read 0x10000, .read 0x300] (by decide)
  rw [h.1]
  decide

end DeltaModels.Sdram
