import DeltaModels.Library.BitFields
import DeltaModels.Library.Patch
import DeltaModels.Sdram.Basic

/-!
# The SDRAM as a flat memory

What a controller wants from the device is one word for every (row, bank, column). This file says
so abstractly and connects it to `handleCmd`.

* `Flat` is the abstract device: an open row for every bank and a word for every `Cell`. A command
  is two patches, one of the open rows and one of the cells (`Flat.step`).
* `Refines` relates it to the module's members: `row_addr` holds the open rows, and the word map,
  read at the packed address of a cell, holds the cell. Packing is injective on the cells of the
  geometry (`Cell.address_inj`), which is what keeps a WRITE from reaching a second cell.
* `refines_step` is the step lemma and `refines_run` the run lemma.

Read through the history of commands (`openRow`, `latestWrite`), that is `handleCmd_flat`.
-/

namespace DeltaModels.Sdram

variable {A_SIZE BA_SIZE : Nat} {cfg : Config} {g : SdramGeom}

/-! ## Cells -/

/-- A storage location as the controller addresses it. -/
structure Cell where
  row : BitVec 32
  bank : BitVec 32
  col : BitVec 32
  deriving DecidableEq, Repr

/-- The cells that a geometry has. -/
structure Cell.InRange (g : SdramGeom) (t : Cell) : Prop where
  row_lt : t.row.toNat < 2 ^ g.rowBits
  bank_lt : t.bank.toNat < 2 ^ g.bankBits
  col_lt : t.col.toNat < 2 ^ g.colBits

/-- The key of the word map that a cell is stored under. -/
def Cell.address (g : SdramGeom) (t : Cell) : BitVec 32 := toWordAddress g t.row t.bank t.col

/-- Packing does not overflow: the address is row, bank and column side by side. -/
theorem Cell.toNat_address (hg : g.rowBits + g.bankBits + g.colBits ≤ 30) {t : Cell}
    (ht : t.InRange g) :
    (t.address g).toNat
      = BitFields.join g.colBits (BitFields.join g.bankBits t.row.toNat t.bank.toNat)
          t.col.toNat := by
  have hrb := BitFields.join_lt ht.row_lt ht.bank_lt
  have hrbc := BitFields.join_lt hrb ht.col_lt
  have hpow : 2 ^ (g.rowBits + g.bankBits + g.colBits) ≤ 2 ^ 30 :=
    Nat.pow_le_pow_right (by omega) hg
  have hsplit : t.row.toNat * 2 ^ (g.bankBits + g.colBits) + t.bank.toNat * 2 ^ g.colBits
      + t.col.toNat
      = BitFields.join g.colBits (BitFields.join g.bankBits t.row.toNat t.bank.toNat)
          t.col.toNat := by
    simp only [BitFields.join, pow_add]; ring
  have hlt : t.row.toNat * 2 ^ (g.bankBits + g.colBits) + t.bank.toNat * 2 ^ g.colBits
      + t.col.toNat < 2 ^ 32 := by rw [hsplit]; omega
  simp only [address, toWordAddress, BitVec.toNat_add, BitVec.toNat_shiftLeft, Nat.shiftLeft_eq]
  rw [← hsplit]
  generalize t.row.toNat * 2 ^ (g.bankBits + g.colBits) = r at hlt ⊢
  generalize t.bank.toNat * 2 ^ g.colBits = b at hlt ⊢
  omega

/-- **Cells do not alias.** -/
theorem Cell.address_inj (hg : g.rowBits + g.bankBits + g.colBits ≤ 30) {t t' : Cell}
    (ht : t.InRange g) (ht' : t'.InRange g) (h : t.address g = t'.address g) : t = t' := by
  have h' := congrArg BitVec.toNat h
  rw [toNat_address hg ht, toNat_address hg ht'] at h'
  obtain ⟨hrb, hc⟩ := BitFields.join_inj ht.col_lt ht'.col_lt h'
  obtain ⟨hr, hb⟩ := BitFields.join_inj ht.bank_lt ht'.bank_lt hrb
  obtain ⟨row, bank, col⟩ := t
  obtain ⟨row', bank', col'⟩ := t'
  simp only [Cell.mk.injEq]
  exact ⟨BitVec.eq_of_toNat_eq hr, BitVec.eq_of_toNat_eq hb, BitVec.eq_of_toNat_eq hc⟩

/-- The word stored for a cell, 0 when nothing is. -/
def State.stored (cfg : Config) (s : State BA_SIZE) (t : Cell) : BitVec 32 :=
  s.mem.read (t.address cfg.geometry)

/-! ## The abstract device -/

/-- What a command does to the open rows: ACTIVATE opens one, the precharges close with 0. -/
def Command.rowPatch (c : Command A_SIZE BA_SIZE) : Patch (BitVec 32) (BitVec 32) :=
  match c.cmd with
  | .activate => .single c.bank c.addr
  | .precharge => .single c.bank 0
  | .prechargeAll => fun _ => some 0
  | _ => .empty

/-- The cell that a READ or WRITE addresses, given the open rows. -/
def Command.cell (rows : BitVec 32 → BitVec 32) (c : Command A_SIZE BA_SIZE) : Cell :=
  ⟨rows c.bank, c.bank, c.addr⟩

/-- What a command does to the cells: only WRITE stores, and only in the addressed cell. -/
def Command.cellPatch (rows : BitVec 32 → BitVec 32) (c : Command A_SIZE BA_SIZE) :
    Patch Cell (BitVec 32) :=
  if c.cmd = .write then .single (c.cell rows) c.dq else .empty

/-- The abstract device: an open row for each bank, a word for each cell. -/
structure Flat where
  openRow : BitVec 32 → BitVec 32
  cells : Cell → BitVec 32

/-- One command on the abstract device. -/
def Flat.step (f : Flat) (c : Command A_SIZE BA_SIZE) : Flat where
  openRow := c.rowPatch.apply f.openRow
  cells := (c.cellPatch f.openRow).apply f.cells

/-- The pins of a command are in range for the geometry, and a WRITE masks no byte. -/
def Command.InRange (g : SdramGeom) (c : Command A_SIZE BA_SIZE) : Prop :=
  match c.cmd with
  | .activate => c.bank.toNat < 2 ^ g.bankBits ∧ c.addr.toNat < 2 ^ g.rowBits
  | .read => c.bank.toNat < 2 ^ g.bankBits ∧ c.addr.toNat < 2 ^ g.colBits
  | .write => c.bank.toNat < 2 ^ g.bankBits ∧ c.addr.toNat < 2 ^ g.colBits ∧ c.dm = 0
  | .precharge => c.bank.toNat < 2 ^ g.bankBits
  | _ => True

instance (g : SdramGeom) (c : Command A_SIZE BA_SIZE) : Decidable (c.InRange g) := by
  unfold Command.InRange; split <;> infer_instance

/-- The members of the module hold the abstract device. -/
structure Refines (cfg : Config) (s : State BA_SIZE) (f : Flat) : Prop where
  rows : ∀ (b : BitVec 32) (hb : b.toNat < 2 ^ BA_SIZE), s.rowAddr[b.toNat] = f.openRow b
  cells : ∀ t : Cell, t.InRange cfg.geometry → s.stored cfg t = f.cells t
  row_lt : ∀ b, (f.openRow b).toNat < 2 ^ cfg.geometry.rowBits

/-- READ and WRITE address the abstract cell. -/
theorem Refines.updateAddress_select {s : State BA_SIZE} {f : Flat} (h : Refines cfg s f)
    (c : Command A_SIZE BA_SIZE) :
    (s.select c.toBus).updateAddress cfg = (c.cell f.openRow).address cfg.geometry := by
  simp only [State.updateAddress, State.select, Cell.address, Command.cell]
  exact congrArg (toWordAddress cfg.geometry · c.bank c.addr) (h.rows c.bank c.bank_lt)

/-- The addressed cell is one of the geometry's. -/
theorem Refines.cell_inRange {s : State BA_SIZE} {f : Flat} (h : Refines cfg s f)
    {c : Command A_SIZE BA_SIZE} (hb : c.bank.toNat < 2 ^ cfg.geometry.bankBits)
    (hcol : c.addr.toNat < 2 ^ cfg.geometry.colBits) : (c.cell f.openRow).InRange cfg.geometry :=
  ⟨h.row_lt _, hb, hcol⟩

/-- Setting one bank's row is a patch of that bank. -/
theorem Refines.openRow {s : State BA_SIZE} {f : Flat} (h : Refines cfg s f)
    (p : Bus A_SIZE BA_SIZE) {row : BitVec 32} (hrow : row.toNat < 2 ^ cfg.geometry.rowBits) :
    Refines cfg (s.openRow p row) ⟨(Patch.single p.bank row).apply f.openRow, f.cells⟩ where
  rows b hb := by
    by_cases hbp : b = p.bank
    · subst hbp; simp [State.openRow, Patch.apply]
    -- another bank keeps its row
    · have hne : p.bank.toNat ≠ b.toNat := fun he => hbp (BitVec.eq_of_toNat_eq he.symm)
      simp only [State.openRow, Patch.apply, Patch.single_of_ne _ hbp, Option.getD_none]
      rw [Vector.getElem_set_ne _ _ hne, h.rows b hb]
  cells := h.cells
  row_lt b := by
    by_cases hbp : b = p.bank
    · subst hbp; simpa [Patch.apply] using hrow
    · simpa [Patch.apply, Patch.single_of_ne _ hbp] using h.row_lt b

/-- `dm = 0` masks nothing. -/
theorem byteMask_zero : byteMask 0 = 0 := by decide

/-- With nothing masked the new data goes in whole. -/
theorem merge_unmasked (data prevData : BitVec 32) :
    (data &&& ~~~(0 : BitVec 32)) ||| (prevData &&& 0) = data := by
  have hones : (~~~(0 : BitVec 32)) = BitVec.allOnes 32 := by decide
  rw [hones, BitVec.and_allOnes]
  simp

/-- A WRITE stores the word on `dq` in the addressed cell and in no other. -/
theorem Refines.write (hg : cfg.geometry.rowBits + cfg.geometry.bankBits + cfg.geometry.colBits ≤ 30)
    {s : State BA_SIZE} {f : Flat} (h : Refines cfg s f) {c : Command A_SIZE BA_SIZE}
    (hcell : (c.cell f.openRow).InRange cfg.geometry) (hdm : c.dm = 0) :
    Refines cfg (handleCmd cfg s .write c.toBus).1
      ⟨f.openRow, (Patch.single (c.cell f.openRow) c.dq).apply f.cells⟩ where
  rows := h.rows
  cells t ht := by
    have hzero : byteMask (c.dm.setWidth 32) = 0 := by rw [hdm]; exact byteMask_zero
    have hdata : (handleCmd cfg s .write c.toBus).1.mem
        = s.mem.insert ((c.cell f.openRow).address cfg.geometry) c.dq := by
      simp only [handleCmd, h.updateAddress_select, hzero, merge_unmasked]
      rfl
    simp only [State.stored, hdata, OrdMap.read_insert]
    by_cases htc : t = c.cell f.openRow
    · subst htc; simp [Patch.apply]
    -- another cell is stored under another key
    · have hne : (c.cell f.openRow).address cfg.geometry ≠ t.address cfg.geometry :=
        fun he => htc (Cell.address_inj hg hcell ht he).symm
      rw [if_neg hne, Patch.apply, Patch.single_of_ne _ htc]
      exact h.cells t ht
  row_lt := h.row_lt

/-- **Step lemma**: every in-range command does to the members what it does to the abstract
device. -/
theorem refines_step
    (hg : cfg.geometry.rowBits + cfg.geometry.bankBits + cfg.geometry.colBits ≤ 30)
    {s : State BA_SIZE} {f : Flat} (h : Refines cfg s f) {c : Command A_SIZE BA_SIZE}
    (hc : c.InRange cfg.geometry) : Refines cfg ((commands A_SIZE cfg).step s c).1 (f.step c) := by
  obtain ⟨p, cmd⟩ := c
  cases cmd with
  | nop0 | nop1 =>
    show Refines cfg (handleCmd cfg s _ p).1 _
    simp only [handleCmd]
    split <;> exact ⟨h.rows, h.cells, h.row_lt⟩
  | activate => exact h.openRow p hc.2
  | read =>
    -- the log line may add a key, but no value changes
    refine ⟨h.rows, fun t ht => ?_, h.row_lt⟩
    show OrdMap.read (OrdMap.subscript s.mem _) _ = _
    rw [OrdMap.read_subscript]
    exact h.cells t ht
  | write => exact Refines.write hg h (h.cell_inRange hc.1 hc.2.1) hc.2.2
  | precharge => exact h.openRow p (show (0 : BitVec 32).toNat < _ from Nat.two_pow_pos _)
  | prechargeAll =>
    refine ⟨fun b hb => ?_, h.cells, fun b => Nat.two_pow_pos _⟩
    show (Vector.replicate _ (0 : BitVec 32))[b.toNat] = 0
    simp
  | refresh | loadMemReg => exact ⟨h.rows, h.cells, h.row_lt⟩

/-! ## Histories

The abstract device after a history of commands, read off the history itself. -/

/-- The row of the latest ACTIVATE of a bank, 0 if it was precharged since or never activated. -/
def openRow (hist : List (Command A_SIZE BA_SIZE)) (bank : BitVec 32) : BitVec 32 :=
  (Patch.latest (hist.map Command.rowPatch) bank).getD 0

/-- The patches that the commands `cs` store, after the commands `past`. -/
def cellPatches (past : List (Command A_SIZE BA_SIZE)) :
    List (Command A_SIZE BA_SIZE) → List (Patch Cell (BitVec 32))
  | [] => []
  | c :: cs => c.cellPatch (openRow past) :: cellPatches (past ++ [c]) cs

/-- The data of the latest WRITE made with this open row, bank and column. -/
def latestWrite (hist : List (Command A_SIZE BA_SIZE)) (t : Cell) : Option (BitVec 32) :=
  Patch.latest (cellPatches [] hist) t

theorem cellPatches_concat (past cs : List (Command A_SIZE BA_SIZE)) (c : Command A_SIZE BA_SIZE) :
    cellPatches past (cs ++ [c]) = cellPatches past cs ++ [c.cellPatch (openRow (past ++ cs))] := by
  induction cs generalizing past with
  | nil => simp [cellPatches]
  | cons d cs ih => simp [cellPatches, ih]

/-- The abstract device that a history leaves. -/
def flat (hist : List (Command A_SIZE BA_SIZE)) : Flat where
  openRow := openRow hist
  cells t := (latestWrite hist t).getD 0

/-- One more command is one more step of the abstract device. -/
theorem flat_concat (hist : List (Command A_SIZE BA_SIZE)) (c : Command A_SIZE BA_SIZE) :
    flat (hist ++ [c]) = (flat hist).step c := by
  have hrow : openRow (hist ++ [c]) = c.rowPatch.apply (openRow hist) := by
    funext b
    simp only [openRow, List.map_append, List.map_cons, List.map_nil, Patch.latest_concat,
      Patch.apply]
    cases c.rowPatch b <;> rfl
  have hcell : (fun t => (latestWrite (hist ++ [c]) t).getD 0)
      = (c.cellPatch (openRow hist)).apply fun t => (latestWrite hist t).getD 0 := by
    funext t
    simp only [latestWrite, cellPatches_concat, List.nil_append, Patch.latest_concat, Patch.apply]
    cases c.cellPatch (openRow hist) t <;> rfl
  simp only [flat, Flat.step, hrow, hcell]

/-- **Run lemma**: after any history of in-range commands the members hold the abstract device of
that history. -/
theorem refines_run
    (hg : cfg.geometry.rowBits + cfg.geometry.bankBits + cfg.geometry.colBits ≤ 30)
    {hist : List (Command A_SIZE BA_SIZE)} (hin : ∀ c ∈ hist, c.InRange cfg.geometry) :
    Refines cfg ((commands A_SIZE cfg).run State.init hist) (flat hist) := by
  induction hist using List.reverseRecOn with
  | nil =>
    refine ⟨fun b hb => ?_, fun t _ => ?_, fun _ => Nat.two_pow_pos _⟩
    · show (Vector.replicate _ (0 : BitVec 32))[b.toNat] = 0
      simp
    · exact OrdMap.read_empty _
  | append_singleton hist c ih =>
    rw [Mealy.run_concat, flat_concat]
    exact refines_step hg (ih fun d hd => hin d (by simp [hd])) (hin c (by simp))

/-- The cell that a command addresses after a history. -/
def Command.cellAt (hist : List (Command A_SIZE BA_SIZE)) (c : Command A_SIZE BA_SIZE) : Cell :=
  c.cell (openRow hist)

/-- **At command level the SDRAM is a flat memory.** After any history of in-range commands, READ
appends the data of the latest WRITE to the same (open row, bank, column), a command other than
WRITE changes the word stored for no cell, and WRITE stores its data and changes no other cell. -/
theorem handleCmd_flat (cfg : Config)
    (hg : cfg.geometry.rowBits + cfg.geometry.bankBits + cfg.geometry.colBits ≤ 30)
    (hist : List (Command A_SIZE BA_SIZE)) (hin : ∀ c ∈ hist, c.InRange cfg.geometry)
    (c : Command A_SIZE BA_SIZE) (hc : c.InRange cfg.geometry) :
    let s := (commands A_SIZE cfg).run State.init hist
    let s' := ((commands A_SIZE cfg).step s c).1
    (c.cmd = .read → s'.readBuf = s.readBuf ++ [(latestWrite hist (c.cellAt hist)).getD 0]) ∧
    (c.cmd ≠ .write → ∀ t : Cell, t.InRange cfg.geometry → s'.stored cfg t = s.stored cfg t) ∧
    (c.cmd = .write → s'.stored cfg (c.cellAt hist) = c.dq ∧
      ∀ t : Cell, t.InRange cfg.geometry → t ≠ c.cellAt hist →
        s'.stored cfg t = s.stored cfg t) := by
  intro s s'
  have h : Refines cfg s (flat hist) := refines_run hg hin
  have h' : Refines cfg s' ((flat hist).step c) := refines_step hg h hc
  have hframe : ∀ t : Cell, t.InRange cfg.geometry → c.cellPatch (openRow hist) t = none →
      s'.stored cfg t = s.stored cfg t := by
    intro t ht hnone
    rw [h'.cells t ht, h.cells t ht]
    exact Patch.apply_of_none _ hnone
  refine ⟨fun hcmd => ?_, fun hcmd t ht => hframe t ht ?_,
    fun hcmd => ⟨?_, fun t ht hne => hframe t ht ?_⟩⟩
  · obtain ⟨p, cmd⟩ := c
    obtain rfl : cmd = .read := hcmd
    show s.readBuf ++ [s.mem.read ((s.select p).updateAddress cfg)] = _
    rw [h.updateAddress_select ⟨p, .read⟩]
    exact congrArg (s.readBuf ++ [·]) (h.cells _ (h.cell_inRange hc.1 hc.2))
  · simp [Command.cellPatch, hcmd, Patch.empty]
  · have hin : (c.cellAt hist).InRange cfg.geometry := by
      obtain ⟨p, cmd⟩ := c
      obtain rfl : cmd = .write := hcmd
      exact h.cell_inRange hc.1 hc.2.1
    rw [h'.cells _ hin]
    exact Patch.apply_of_some _ (by simp [Command.cellPatch, hcmd, Command.cellAt, flat])
  · simp only [Command.cellPatch, hcmd, if_true]
    exact Patch.single_of_ne _ hne

/-- Two banks with different open rows, written at the same column: each READ gets its own bank's
word. -/
theorem handleCmd_flat_two_banks :
    let cfg : Config := { geometry := { rowBits := 4, bankBits := 2, colBits := 3 } }
    let hist : List (Command 12 2) :=
      [{ a := 5, ba := 1, cmd := .activate }, { a := 6, ba := 2, cmd := .activate },
       { a := 7, ba := 1, dq := 0xcafe, cmd := .write },
       { a := 7, ba := 2, dq := 0xbabe, cmd := .write }]
    let s := (commands 12 cfg).run State.init hist
    ((commands 12 cfg).step s { a := 7, ba := 1, cmd := .read }).1.readBuf = s.readBuf ++ [0xcafe] := by
  have h := handleCmd_flat { geometry := { rowBits := 4, bankBits := 2, colBits := 3 } } (by decide)
    [{ a := 5, ba := 1, cmd := .activate }, { a := 6, ba := 2, cmd := .activate },
     { a := 7, ba := 1, dq := 0xcafe, cmd := .write },
     { a := 7, ba := 2, dq := 0xbabe, cmd := .write }]
    (by decide) ({ a := 7, ba := 1, cmd := .read } : Command 12 2) (by decide)
  exact h.1 rfl

end DeltaModels.Sdram
