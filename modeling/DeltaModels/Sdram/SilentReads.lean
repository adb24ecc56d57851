import DeltaModels.Sdram.Hexdump
import DeltaModels.Sdram.ReadOrder
import DeltaModels.Sdram.Requests

/-!
# What reading leaves behind

READ asks the map for the `count` of the address before it subscripts it, so that the value of an absent
word is returned without an entry for it. But among the arguments of its log line is `mem[address]`, and
that subscript is evaluated in either case.

`calls` is the device with one call of a handler for each event, and `withoutReads` takes the READs, and
the NOPs that return their data, out of a sequence of events. The two runs cannot be told apart by the
words that they read (`Alike`), only by the keys of the map: those of a run are the ones that it
subscripts (`mem_run`), and without the READs those of the READs are missing (`mem_run_withoutReads`).
-/

namespace DeltaModels.Sdram

variable {A_SIZE BA_SIZE : Nat} {cfg : Config}

/-- The device, one call of `handle_cmd` or of `backdoor_handler` at a time. -/
def calls (A_SIZE : Nat) {BA_SIZE : Nat} (cfg : Config) :
    Mealy (Event A_SIZE BA_SIZE) (State BA_SIZE) (Effect × List BackdoorLine) where
  step s
    | .command c => ((handleCmd cfg s c.cmd c.toBus).1, (handleCmd cfg s c.cmd c.toBus).2, [])
    | .signals b => ((backdoorHandler cfg s b).1, {}, (backdoorHandler cfg s b).2)

/-! ## A sequence without its READs -/

def Event.isRead : Event A_SIZE BA_SIZE → Bool
  | .command c => c.cmd = .read
  | .signals _ => false

/-- A READ, or a NOP that returns the data of one. -/
def Event.serves (s : State BA_SIZE) : Event A_SIZE BA_SIZE → Bool
  | .command c => c.cmd = .read || (c.cmd.isNop && !s.readBuf.isEmpty)
  | .signals _ => false

theorem Event.serves_of_isRead {s : State BA_SIZE} {e : Event A_SIZE BA_SIZE} (h : e.isRead) :
    e.serves s := by
  cases e with
  | command c => exact Bool.or_eq_true_iff.mpr (.inl h)
  | signals b => cases h

/-- The events without the READs and the NOPs that return their data. -/
def withoutReads (cfg : Config) :
    State BA_SIZE → List (Event A_SIZE BA_SIZE) → List (Event A_SIZE BA_SIZE)
  | _, [] => []
  | s, e :: es =>
    let rest := withoutReads cfg ((calls A_SIZE cfg).step s e).1 es
    if e.serves s then rest else e :: rest

/-- Reading is not observable: without it the map is the same, and so is the dump. -/
def ReadsUnseen (cfg : Config) (s : State BA_SIZE) (es : List (Event A_SIZE BA_SIZE)) : Prop :=
  let mem := ((calls A_SIZE cfg).run s es).mem
  let mem' := ((calls A_SIZE cfg).run s (withoutReads cfg s es)).mem
  mem = mem' ∧ hexdump mem = hexdump mem'

/-! ## The keys of a run -/

/-- The keys that one round of the copying loop subscripts. -/
def Backdoor.copyKeys (cfg : Config) (b : Backdoor) (i : Nat) : List (BitVec 32) :=
  [fromWishbone cfg b.copyFrom + BitVec.ofNat 32 i, fromWishbone cfg b.copyTo + BitVec.ofNat 32 i]

/-- The rounds of the clearing loop. -/
def Backdoor.clearRange (cfg : Config) (b : Backdoor) : List Nat :=
  List.range' (fromWishbone cfg b.clearFrom).toNat
    ((fromWishbone cfg b.clearTo).toNat - (fromWishbone cfg b.clearFrom).toNat)

/-- The keys that an event subscripts: the address of a READ or WRITE, the words that the backdoor
copies from, copies to or clears. -/
def Event.keys (cfg : Config) (s : State BA_SIZE) : Event A_SIZE BA_SIZE → List (BitVec 32)
  | .command c =>
    if c.cmd = .read ∨ c.cmd = .write then [(s.select c.toBus).updateAddress cfg] else []
  | .signals b =>
    (if b.copy = 1 then (List.range b.tsize).flatMap (b.copyKeys cfg) else []) ++
      if b.clear = 1 then (b.clearRange cfg).map (BitVec.ofNat 32) else []

/-- The keys that the events with `p` subscript in a run. -/
def keysOf (cfg : Config) (p : Event A_SIZE BA_SIZE → Bool) :
    State BA_SIZE → List (Event A_SIZE BA_SIZE) → List (BitVec 32)
  | _, [] => []
  | s, e :: es =>
    (if p e then e.keys cfg s else []) ++ keysOf cfg p ((calls A_SIZE cfg).step s e).1 es

/-- The keys that the READs of a run subscript. -/
def readKeys (cfg : Config) : State BA_SIZE → List (Event A_SIZE BA_SIZE) → List (BitVec 32) :=
  keysOf cfg Event.isRead

/-- The keys that the other events of a run subscript. -/
def storedKeys (cfg : Config) : State BA_SIZE → List (Event A_SIZE BA_SIZE) → List (BitVec 32) :=
  keysOf cfg fun e => !e.isRead

theorem mem_backdoorCopy {b : Backdoor} {s : Logged} {k : BitVec 32} :
    k ∈ (backdoorCopy cfg b s).1 ↔ k ∈ s.1 ∨ k ∈ (List.range b.tsize).flatMap (b.copyKeys cfg) := by
  refine OrdMap.mem_foldl Prod.fst (fun s i k => ?_) s _ k
  simp only [copyWord, Std.ExtTreeMap.mem_insert, Std.compare_eq_iff_eq, OrdMap.mem_subscript,
    Backdoor.copyKeys, List.mem_cons, List.not_mem_nil, or_false, @eq_comm _ k]
  tauto

theorem mem_backdoorClear {b : Backdoor} {s : Logged} {k : BitVec 32} :
    k ∈ (backdoorClear cfg b s).1 ↔ k ∈ s.1 ∨ k ∈ (b.clearRange cfg).map (BitVec.ofNat 32) := by
  rw [← List.flatMap_pure_eq_map]
  refine OrdMap.mem_foldl Prod.fst (fun s i k => ?_) s (b.clearRange cfg) k
  simp [clearWord, or_comm, @eq_comm _ k]

theorem mem_backdoorHandler {s : State BA_SIZE} {b : Backdoor} {k : BitVec 32} :
    k ∈ (backdoorHandler cfg s b).1.mem ↔
      k ∈ s.mem ∨ k ∈ (Event.signals b : Event A_SIZE BA_SIZE).keys cfg s := by
  simp only [backdoorHandler, Event.keys, List.mem_append]
  split <;> split <;>
    simp only [mem_backdoorClear, mem_backdoorCopy, List.not_mem_nil, or_false, false_or, or_assoc]

/-- **Step lemma**: an event adds to the map the keys that it subscripts. -/
theorem mem_step {s : State BA_SIZE} {e : Event A_SIZE BA_SIZE} {k : BitVec 32} :
    k ∈ ((calls A_SIZE cfg).step s e).1.mem ↔ k ∈ s.mem ∨ k ∈ e.keys cfg s := by
  cases e with
  | signals b => exact mem_backdoorHandler
  | command c =>
    obtain ⟨p, cmd⟩ := c
    show k ∈ (handleCmd cfg s cmd p).1.mem ↔ _
    cases cmd with
    | read | write => simp [handleCmd, Event.keys, State.select, or_comm, @eq_comm _ k]
    | nop0 | nop1 => simp only [handleCmd, Event.keys]; split <;> simp
    | activate | precharge | prechargeAll | refresh | loadMemReg =>
      simp [handleCmd, Event.keys, State.openRow]

/-- **Run lemma**: the keys at the end are those at the start, those that the READs subscript and those
that the other events do. -/
theorem mem_run {s : State BA_SIZE} {es : List (Event A_SIZE BA_SIZE)} {k : BitVec 32} :
    k ∈ ((calls A_SIZE cfg).run s es).mem ↔
      k ∈ s.mem ∨ k ∈ readKeys cfg s es ∨ k ∈ storedKeys cfg s es := by
  induction es generalizing s with
  | nil => simp [readKeys, storedKeys, keysOf]
  | cons e es ih =>
    rw [Mealy.run_cons, ih, mem_step]
    simp only [readKeys, storedKeys, keysOf, List.mem_append]
    by_cases hread : e.isRead <;> simp [hread, or_assoc, or_left_comm]

/-! ## Both runs -/

/-- States with the same rows open, and whose memories read alike. -/
structure Alike (s t : State BA_SIZE) : Prop where
  rowAddr : s.rowAddr = t.rowAddr
  read : ∀ k, s.mem.read k = t.mem.read k

variable {s t u : State BA_SIZE} {e : Event A_SIZE BA_SIZE}

theorem Alike.symm (h : Alike s t) : Alike t s := ⟨h.rowAddr.symm, fun k => (h.read k).symm⟩

theorem Alike.trans (h : Alike s t) (h' : Alike t u) : Alike s u :=
  ⟨h.rowAddr.trans h'.rowAddr, fun k => (h.read k).trans (h'.read k)⟩

theorem updateAddress_congr (h : s.rowAddr = t.rowAddr) (p : Bus A_SIZE BA_SIZE) :
    (s.select p).updateAddress cfg = (t.select p).updateAddress cfg := by
  simp only [State.updateAddress, State.select, h]

theorem Event.keys_congr (h : s.rowAddr = t.rowAddr) : e.keys cfg s = e.keys cfg t := by
  cases e with
  | command c => simp only [Event.keys, updateAddress_congr h]
  | signals b => rfl

theorem read_backdoorCopy {b : Backdoor} {s t : Logged} (h : ∀ k, s.1.read k = t.1.read k) :
    ∀ k, (backdoorCopy cfg b s).1.read k = (backdoorCopy cfg b t).1.read k := by
  refine List.foldl_rel (r := fun s t : Logged => ∀ k, s.1.read k = t.1.read k) h ?_
  intro i _ s t h k
  simp only [copyWord, OrdMap.read_insert, OrdMap.read_subscript, h]

theorem read_backdoorClear {b : Backdoor} {s t : Logged} (h : ∀ k, s.1.read k = t.1.read k) :
    ∀ k, (backdoorClear cfg b s).1.read k = (backdoorClear cfg b t).1.read k := by
  refine List.foldl_rel (r := fun s t : Logged => ∀ k, s.1.read k = t.1.read k) h ?_
  intro i _ s t h k
  simp only [clearWord, OrdMap.read_insert, h]

theorem read_backdoorHandler {b : Backdoor} (h : ∀ k, s.mem.read k = t.mem.read k) :
    ∀ k, (backdoorHandler cfg s b).1.mem.read k = (backdoorHandler cfg t b).1.mem.read k := by
  have hmem : ∀ k, ((s.mem, []) : Logged).1.read k = ((t.mem, []) : Logged).1.read k := h
  simp only [backdoorHandler]
  split <;> split
  · exact read_backdoorClear (read_backdoorCopy hmem)
  · exact read_backdoorClear hmem
  · exact read_backdoorCopy hmem
  · exact hmem

/-- A READ or a NOP changes no word. -/
theorem alike_reading (cfg : Config) {cmd : CmdT} (hcmd : cmd = .read ∨ cmd.isNop = true)
    (s : State BA_SIZE) (p : Bus A_SIZE BA_SIZE) : Alike (handleCmd cfg s cmd p).1 s := by
  cases cmd with
  | nop0 | nop1 =>
    simp only [handleCmd]
    split <;> exact ⟨rfl, fun _ => rfl⟩
  | read => exact ⟨rfl, fun k => OrdMap.read_subscript ..⟩
  | activate | write | precharge | prechargeAll | refresh | loadMemReg =>
    exact absurd hcmd (by decide)

/-- **Step lemma** for an event that stays: it does not tell the states apart. -/
theorem Alike.step (h : Alike s t) (e : Event A_SIZE BA_SIZE) :
    Alike ((calls A_SIZE cfg).step s e).1 ((calls A_SIZE cfg).step t e).1 := by
  cases e with
  | signals b => exact ⟨h.rowAddr, read_backdoorHandler h.read⟩
  | command c =>
    obtain ⟨p, cmd⟩ := c
    show Alike (handleCmd cfg s cmd p).1 (handleCmd cfg t cmd p).1
    by_cases hcmd : cmd = .read ∨ cmd.isNop = true
    · exact (alike_reading cfg hcmd s p).trans (h.trans (alike_reading cfg hcmd t p).symm)
    cases cmd with
    | nop0 | nop1 | read => exact absurd (by decide) hcmd
    | activate | precharge =>
      exact ⟨by simp only [handleCmd, State.openRow, h.rowAddr], h.read⟩
    | write =>
      refine ⟨h.rowAddr, fun k => ?_⟩
      have hread : ∀ k, (s.select p).mem.read k = (t.select p).mem.read k := h.read
      simp only [handleCmd, OrdMap.read_insert, updateAddress_congr h.rowAddr, hread]
    | prechargeAll => exact ⟨rfl, h.read⟩
    | refresh | loadMemReg => exact h

/-- **Step lemma** for an event that is taken out: it changes no word. -/
theorem Alike.serve (h : Alike s t) (hserves : e.serves s) :
    Alike ((calls A_SIZE cfg).step s e).1 t := by
  cases e with
  | signals b => cases hserves
  | command c =>
    have hcmd : c.cmd = .read ∨ c.cmd.isNop = true := by
      rw [Event.serves, Bool.or_eq_true, decide_eq_true_eq, Bool.and_eq_true] at hserves
      exact hserves.imp_right And.left
    exact (alike_reading cfg hcmd s c.toBus).trans h

/-- Only READs subscript keys among the events that are taken out. -/
theorem Event.storedKeys_of_serves (hserves : e.serves s) :
    (if !e.isRead then e.keys cfg s else []) = [] := by
  cases e with
  | signals b => cases hserves
  | command c =>
    obtain ⟨p, cmd⟩ := c
    cases cmd with
    | nop0 | nop1 | read => simp [Event.isRead, Event.keys]
    | activate | write | precharge | prechargeAll | refresh | loadMemReg => cases hserves

/-- **Run lemma**: the words are the same without the READs. -/
theorem Alike.run (h : Alike s t) (es : List (Event A_SIZE BA_SIZE)) :
    Alike ((calls A_SIZE cfg).run s es) ((calls A_SIZE cfg).run t (withoutReads cfg s es)) := by
  induction es generalizing s t with
  | nil => exact h
  | cons e es ih =>
    rw [withoutReads, Mealy.run_cons]
    split
    · next hserves => exact ih (h.serve hserves)
    · exact ih (h.step e)

/-- **Run lemma**: without the READs, the keys at the end are those at the start and those that the
other events subscript. -/
theorem mem_run_withoutReads (h : Alike s t) {es : List (Event A_SIZE BA_SIZE)} {k : BitVec 32} :
    k ∈ ((calls A_SIZE cfg).run t (withoutReads cfg s es)).mem ↔
      k ∈ t.mem ∨ k ∈ storedKeys cfg s es := by
  induction es generalizing s t with
  | nil => simp [withoutReads, storedKeys, keysOf]
  | cons e es ih =>
    rw [withoutReads, storedKeys, keysOf]
    split
    · next hserves =>
      rw [Event.storedKeys_of_serves hserves, List.nil_append]
      exact ih (h.serve hserves)
    · next hstays =>
      have hkeys : (if !e.isRead then e.keys cfg s else []) = e.keys cfg t := by
        rw [Event.keys_congr h.rowAddr]
        exact if_pos (by simpa using fun hread => hstays (Event.serves_of_isRead hread))
      rw [Mealy.run_cons, ih (h.step e), mem_step, hkeys, List.mem_append, or_assoc]
      rfl

/-- **When reading is not observable in the image**: if every address that a READ of the sequence reads
is in the map at the start, or is subscripted by another event of the sequence. -/
theorem readsUnseen_iff (cfg : Config) (s : State BA_SIZE) (es : List (Event A_SIZE BA_SIZE)) :
    ReadsUnseen cfg s es ↔ ∀ k ∈ readKeys cfg s es, k ∈ s.mem ∨ k ∈ storedKeys cfg s es := by
  have hrefl : Alike s s := ⟨rfl, fun _ => rfl⟩
  constructor
  · rintro ⟨hmem, -⟩ k hk
    rw [← mem_run_withoutReads hrefl, ← hmem, mem_run]
    exact .inr (.inl hk)
  · intro h
    have hmem : ((calls A_SIZE cfg).run s es).mem
        = ((calls A_SIZE cfg).run s (withoutReads cfg s es)).mem := by
      refine OrdMap.ext_read (hrefl.run es).read fun k => ?_
      rw [mem_run, mem_run_withoutReads hrefl]
      constructor
      · rintro (hstart | hread | hstored)
        · exact .inl hstart
        · exact h k hread
        · exact .inr hstored
      · exact Or.imp_right Or.inr
    exact ⟨hmem, congrArg hexdump hmem⟩

/-- A READ of an empty memory shows in the dump. -/
theorem readsUnseen_not_empty :
    ¬ ∀ (cfg : Config) (es : List (Event 12 2)), ReadsUnseen cfg (State.init : State 2) es := by
  intro h
  have hdump := (h sixteenMiB [.command { a := 0, ba := 0, cmd := .read }]).2
  revert hdump
  decide +kernel

end DeltaModels.Sdram
