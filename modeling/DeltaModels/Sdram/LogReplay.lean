import DeltaModels.Library.AccessLog
import DeltaModels.Sdram.Requests

/-!
# The log of the SDRAM

Of the lines that the device writes to its log, four kinds carry an address: a READ shows the word that
it fetches, a WRITE the word as it is stored, and the backdoor each word that it copies or clears. The
addresses are Wishbone addresses, and `fromWishbone` gets back the word.

The log is complete: `device_run_replays` says that, for every run of the device, its reads show what
the writes before them have left, and that the lines alone tell what the memory holds.
-/

namespace DeltaModels.Sdram

open Access (Replays)

variable {A_SIZE BA_SIZE : Nat} {cfg : Config}

/-- The access that a line tells of, by word. -/
def LogLine.access (cfg : Config) : LogLine → Option (Access (BitVec 32) (BitVec 32))
  | .readRequested address value => some ⟨fromWishbone cfg address, value, false⟩
  | .write address value => some ⟨fromWishbone cfg address, value, true⟩
  | _ => none

/-- The access that a line of the backdoor tells of; what is cleared is 0. -/
def BackdoorLine.access (cfg : Config) : BackdoorLine → Access (BitVec 32) (BitVec 32)
  | .copy address value => ⟨fromWishbone cfg address, value, true⟩
  | .clear address => ⟨fromWishbone cfg address, 0, true⟩

/-- The accesses that the lines of one step tell of. -/
def loggedAccesses (cfg : Config) (out : Effect × List BackdoorLine) :
    List (Access (BitVec 32) (BitVec 32)) :=
  out.1.log.filterMap (LogLine.access cfg) ++ out.2.map (BackdoorLine.access cfg)

/-- The pins of a command are in range for the geometry; a WRITE may mask bytes. -/
def Command.Addressed (g : SdramGeom) (c : Command A_SIZE BA_SIZE) : Prop :=
  (c.cmd = .activate → c.addr.toNat < 2 ^ g.rowBits) ∧
    (c.cmd = .read ∨ c.cmd = .write → c.bank.toNat < 2 ^ g.bankBits ∧ c.addr.toNat < 2 ^ g.colBits)

instance (g : SdramGeom) (c : Command A_SIZE BA_SIZE) : Decidable (c.Addressed g) :=
  inferInstanceAs (Decidable (_ ∧ _))

/-- Commands in range, and copies that do not run past the last word. -/
def Event.Addressed (cfg : Config) : Event A_SIZE BA_SIZE → Prop
  | .command c => c.Addressed cfg.geometry
  | .signals b => b.copy = 1 → (fromWishbone cfg b.copyTo).toNat + b.tsize ≤ 2 ^ 30

instance (cfg : Config) : ∀ e : Event A_SIZE BA_SIZE, Decidable (e.Addressed cfg)
  | .command c => inferInstanceAs (Decidable (c.Addressed cfg.geometry))
  | .signals _ => inferInstanceAs (Decidable (_ → _))

/-- The open rows are rows of the geometry. -/
def RowsInRange (g : SdramGeom) (s : State BA_SIZE) : Prop :=
  ∀ i (h : i < 2 ^ BA_SIZE), s.rowAddr[i].toNat < 2 ^ g.rowBits

/-! ## Commands -/

section Commands

variable {s : State BA_SIZE} {m : BitVec 32 → BitVec 32} {log : List (Access (BitVec 32) (BitVec 32))}

theorem rowsInRange_init (g : SdramGeom) : RowsInRange g (State.init : State BA_SIZE) := by
  intro i h
  show (Vector.replicate _ (0 : BitVec 32))[i].toNat < _
  rw [Vector.getElem_replicate]
  exact Nat.two_pow_pos _

/-- An addressed word is below the end of the words. -/
theorem updateAddress_lt
    (hg : cfg.geometry.rowBits + cfg.geometry.bankBits + cfg.geometry.colBits ≤ 30)
    (hrows : RowsInRange cfg.geometry s) {p : Bus A_SIZE BA_SIZE}
    (hp : p.bank.toNat < 2 ^ cfg.geometry.bankBits ∧ p.addr.toNat < 2 ^ cfg.geometry.colBits) :
    ((s.select p).updateAddress cfg).toNat < 2 ^ 30 := by
  let t : Cell := ⟨s.rowAddr.get ⟨p.bank.toNat, p.bank_lt⟩, p.bank, p.addr⟩
  have ht : t.InRange cfg.geometry := ⟨hrows _ p.bank_lt, hp.1, hp.2⟩
  have haddress : (s.select p).updateAddress cfg = t.address cfg.geometry := rfl
  have hlt := BitFields.join_lt (BitFields.join_lt ht.row_lt ht.bank_lt) ht.col_lt
  rw [haddress, Cell.toNat_address hg ht]
  exact Nat.lt_of_lt_of_le hlt (Nat.pow_le_pow_right (by omega) hg)

/-- An activation of a row of the geometry keeps the rows in range. -/
theorem RowsInRange.openRow {g : SdramGeom} (h : RowsInRange g s) (p : Bus A_SIZE BA_SIZE)
    {row : BitVec 32} (hrow : row.toNat < 2 ^ g.rowBits) : RowsInRange g (s.openRow p row) := by
  intro i hi
  show (s.rowAddr.set p.bank.toNat row p.bank_lt)[i].toNat < _
  rw [Vector.getElem_set]
  split
  · exact hrow
  · exact h i hi

theorem RowsInRange.handleCmd {c : Command A_SIZE BA_SIZE} (h : RowsInRange cfg.geometry s)
    (hc : c.Addressed cfg.geometry) :
    RowsInRange cfg.geometry (handleCmd cfg s c.cmd c.toBus).1 := by
  obtain ⟨p, cmd⟩ := c
  cases cmd with
  | nop0 | nop1 =>
    simp only [Sdram.handleCmd]
    split <;> exact h
  | activate => exact h.openRow p (hc.1 rfl)
  | precharge => exact h.openRow p (Nat.two_pow_pos _)
  | prechargeAll => exact rowsInRange_init _
  | read | write | refresh | loadMemReg => exact h

/-- **A command logs what it does to the memory.** -/
theorem handleCmd_replays
    (hg : cfg.geometry.rowBits + cfg.geometry.bankBits + cfg.geometry.colBits ≤ 30)
    (hrows : RowsInRange cfg.geometry s) (h : Replays m log s.mem.read) {c : Command A_SIZE BA_SIZE}
    (hc : c.Addressed cfg.geometry) :
    Replays m (log ++ (handleCmd cfg s c.cmd c.toBus).2.log.filterMap (LogLine.access cfg))
      (handleCmd cfg s c.cmd c.toBus).1.mem.read := by
  -- the other lines tell of no access
  have hnone : Replays m (log ++ []) s.mem.read := by rwa [List.append_nil]
  obtain ⟨p, cmd⟩ := c
  cases cmd with
  | nop0 | nop1 =>
    simp only [Sdram.handleCmd]
    split <;> exact hnone
  | read =>
    have hkey : fromWishbone cfg (toWishbone cfg ((s.select p).updateAddress cfg)) = _ :=
      fromWishbone_toWishbone (updateAddress_lt hg hrows (hc.2 (.inl rfl)))
    have hsame : (Sdram.handleCmd cfg s .read p).1.mem.read = s.mem.read :=
      funext fun k => OrdMap.read_subscript _ _ _
    rw [hsame]
    exact h.read rfl (congrArg s.mem.read hkey.symm)
  | write =>
    have hkey : fromWishbone cfg (toWishbone cfg ((s.select p).updateAddress cfg)) = _ :=
      fromWishbone_toWishbone (updateAddress_lt hg hrows (hc.2 (.inr rfl)))
    refine h.write rfl fun k => ?_
    rw [hkey]
    refine (OrdMap.read_insert _ _ _ _).trans ?_
    simp only [eq_comm]
    rfl
  | activate | precharge | prechargeAll | refresh | loadMemReg => exact hnone

end Commands

/-! ## The backdoor -/

section Backdoor

variable {m : BitVec 32 → BitVec 32} {log : List (Access (BitVec 32) (BitVec 32))} {s : Logged}

/-- The lines that the backdoor has written so far, after a log, lead to its word map. -/
def LoggedReplays (cfg : Config) (m : BitVec 32 → BitVec 32)
    (log : List (Access (BitVec 32) (BitVec 32))) (s : Logged) : Prop :=
  Replays m (log ++ s.2.map (BackdoorLine.access cfg)) s.1.read

/-- A round that stores a word and logs it. -/
theorem LoggedReplays.store (h : LoggedReplays cfg m log s) {mem : OrdMap (BitVec 32) (BitVec 32)}
    (hmem : mem.read = s.1.read) {key v : BitVec 32} (hkey : key.toNat < 2 ^ 30) {line : BackdoorLine}
    (hline : line.access cfg = ⟨fromWishbone cfg (toWishbone cfg key), v, true⟩) :
    LoggedReplays cfg m log (mem.insert key v, s.2 ++ [line]) := by
  rw [LoggedReplays, List.map_append, List.map_singleton, ← List.append_assoc, hline,
    fromWishbone_toWishbone hkey]
  refine Replays.write h rfl fun k => ?_
  rw [OrdMap.read_insert, hmem]
  simp only [eq_comm]

theorem loggedReplays_backdoorCopy {b : Backdoor} (h : LoggedReplays cfg m log s)
    (hto : (fromWishbone cfg b.copyTo).toNat + b.tsize ≤ 2 ^ 30) :
    LoggedReplays cfg m log (backdoorCopy cfg b s) := by
  rw [backdoorCopy]
  generalize b.tsize = n at hto
  induction n with
  | zero => exact h
  | succ n ih =>
    have hkey : (fromWishbone cfg b.copyTo + BitVec.ofNat 32 n).toNat < 2 ^ 30 := by
      rw [BitVec.toNat_add, BitVec.toNat_ofNat]
      omega
    rw [List.range_succ, List.foldl_append, List.foldl_cons, List.foldl_nil]
    exact (ih (by omega)).store (funext fun k => OrdMap.read_subscript _ _ _) hkey rfl

theorem loggedReplays_backdoorClear {b : Backdoor} (h : LoggedReplays cfg m log s) :
    LoggedReplays cfg m log (backdoorClear cfg b s) := by
  have hto : (fromWishbone cfg b.clearTo).toNat ≤ 2 ^ 30 := by
    have hlt := (b.clearTo - cfg.OFFSET).isLt
    rw [fromWishbone, BitVec.toNat_ushiftRight, Nat.shiftRight_eq_div_pow]
    omega
  rw [backdoorClear]
  generalize (fromWishbone cfg b.clearFrom).toNat = start
  have hend : start + ((fromWishbone cfg b.clearTo).toNat - start) ≤ 2 ^ 30 ∨
      (fromWishbone cfg b.clearTo).toNat - start = 0 := by omega
  generalize (fromWishbone cfg b.clearTo).toNat - start = n at hend
  induction n with
  | zero => exact h
  | succ n ih =>
    have hkey : (BitVec.ofNat 32 (start + n)).toNat < 2 ^ 30 := by
      rw [BitVec.toNat_ofNat]
      omega
    rw [List.range'_1_concat, List.foldl_append, List.foldl_cons, List.foldl_nil]
    exact (ih (by omega)).store rfl hkey rfl

/-- **The backdoor logs what it does to the memory.** -/
theorem backdoorHandler_replays {s : State BA_SIZE} {b : Backdoor} (h : Replays m log s.mem.read)
    (hb : b.copy = 1 → (fromWishbone cfg b.copyTo).toNat + b.tsize ≤ 2 ^ 30) :
    Replays m (log ++ (backdoorHandler cfg s b).2.map (BackdoorLine.access cfg))
      (backdoorHandler cfg s b).1.mem.read := by
  have hstart : LoggedReplays cfg m log (s.mem, []) := by
    rw [LoggedReplays, List.map_nil, List.append_nil]
    exact h
  have hcopied : LoggedReplays cfg m log
      (if b.copy = 1 then backdoorCopy cfg b (s.mem, []) else (s.mem, [])) := by
    split
    · next hcopy => exact loggedReplays_backdoorCopy hstart (hb hcopy)
    · exact hstart
  show LoggedReplays cfg m log (if b.clear = 1 then backdoorClear cfg b _ else _)
  split
  · exact loggedReplays_backdoorClear hcopied
  · exact hcopied

end Backdoor

/-! ## The device -/

section Device

variable {m : BitVec 32 → BitVec 32} {log : List (Access (BitVec 32) (BitVec 32))}

/-- **Step lemma**: an event logs what it does to the memory. -/
theorem device_step_replays
    (hg : cfg.geometry.rowBits + cfg.geometry.bankBits + cfg.geometry.colBits ≤ 30)
    {d : Device BA_SIZE} (hrows : RowsInRange cfg.geometry d.state)
    (h : Replays m log d.state.mem.read) {e : Event A_SIZE BA_SIZE} (he : e.Addressed cfg) :
    Replays m (log ++ loggedAccesses cfg ((device A_SIZE cfg).step d e).2)
        ((device A_SIZE cfg).step d e).1.state.mem.read ∧
      RowsInRange cfg.geometry ((device A_SIZE cfg).step d e).1.state := by
  cases e with
  | command c =>
    refine ⟨?_, hrows.handleCmd he⟩
    show Replays m (log ++ ((handleCmd cfg d.state c.cmd c.toBus).2.log.filterMap
      (LogLine.access cfg) ++ [])) (handleCmd cfg d.state c.cmd c.toBus).1.mem.read
    rw [List.append_nil]
    exact handleCmd_replays hg hrows h he
  | signals b =>
    show Replays m (log ++ ((sensitive cfg d b).2.map (BackdoorLine.access cfg)))
      (sensitive cfg d b).1.mem.read ∧ RowsInRange cfg.geometry (sensitive cfg d b).1
    unfold sensitive
    split
    · exact ⟨backdoorHandler_replays h he, hrows⟩
    · exact ⟨by simpa using h, hrows⟩

/-- **The log tells what the memory holds.** In every run of the device, by commands and requests to the
backdoor, the value in each line of a READ is what the lines before it have left at its address, or what
the device held there at the start; and each word of the device at the end is what the lines have left of
it. -/
theorem device_run_replays
    (hg : cfg.geometry.rowBits + cfg.geometry.bankBits + cfg.geometry.colBits ≤ 30)
    (d₀ : Device BA_SIZE) (hrows : RowsInRange cfg.geometry d₀.state)
    (es : List (Event A_SIZE BA_SIZE)) (hes : ∀ e ∈ es, e.Addressed cfg) :
    Replays d₀.state.mem.read (((device A_SIZE cfg).trace d₀ es).flatMap (loggedAccesses cfg))
      ((device A_SIZE cfg).run d₀ es).state.mem.read := by
  suffices hrun : ∀ (d : Device BA_SIZE) log, RowsInRange cfg.geometry d.state →
      Replays d₀.state.mem.read log d.state.mem.read →
      Replays d₀.state.mem.read
        (log ++ ((device A_SIZE cfg).trace d es).flatMap (loggedAccesses cfg))
        ((device A_SIZE cfg).run d es).state.mem.read by
    exact hrun d₀ [] hrows (Replays.nil _)
  induction es with
  | nil =>
    intro d log _ h
    simpa using h
  | cons e es ih =>
    intro d log hd h
    obtain ⟨hstep, hd'⟩ := device_step_replays hg hd h (hes e (by simp))
    have hrest := ih (fun e' he' => hes e' (by simp [he'])) _ _ hd' hstep
    rwa [List.append_assoc] at hrest

end Device

end DeltaModels.Sdram
