import DeltaModels.Sdram.FlatMemory
import Mathlib.Data.Multiset.Basic

/-!
# The pin decoder against the command table

The comment at the head of the class lists the commands by their control pins. Only PRECHARGE and
PRECHARGE_ALL look at `A[10]`; for every other command the address pins carry an operand or
nothing. `Pins.tableCommand` is that table.

What its commands do is said of what can be seen of a device (`View`): the open row of each bank, the
word at each address, the reads that have not come back. `TableRow` has one clause for each of them, and
`Obeys` is a step that does what the table asks. `handleCmd_tableRow` says that the handler does, if only
it is given the right command.

But `sdram_handler` packs `A[10]` into the code of *every* command, so a command whose address happens
to have that bit set is cast to a code without a case label and is lost. `Decoded` is the exact
condition under which a sample is not lost, and `sdramHandler_table_iff` says so for whole runs.
-/

namespace DeltaModels.Sdram

variable {A_SIZE BA_SIZE : Nat} {cfg : Config}

/-! ## The table -/

/-- The row of the command table that a sample selects. Burst terminate (L H H L) is not in it. -/
def Pins.tableCommand (p : Pins A_SIZE BA_SIZE) : Option CmdT :=
  if p.csN = 1 then some .nop0
  else
    match p.rasN.getLsbD 0, p.casN.getLsbD 0, p.weN.getLsbD 0 with
    | true, true, true => some .nop1
    | false, true, true => some .activate
    | true, false, true => some .read
    | true, false, false => some .write
    | false, true, false => some (if p.a.getLsbD 10 then .prechargeAll else .precharge)
    | false, false, true => some .refresh
    | false, false, false => some .loadMemReg
    | true, true, false => none

/-- What can be seen of a device: the open row of each bank, the word at each address, and the reads that
have not come back yet. -/
structure View (BA_SIZE : Nat) where
  row : Fin (2 ^ BA_SIZE) → BitVec 32
  word : BitVec 32 → BitVec 32
  pending : Multiset (BitVec 32)

/-- What can be seen of the module. -/
def State.view (s : State BA_SIZE) : View BA_SIZE := ⟨fun b => s.rowAddr[b], s.mem.read, s.readBuf⟩

/-- The bank on the pins. -/
def Bus.bankIndex (p : Bus A_SIZE BA_SIZE) : Fin (2 ^ BA_SIZE) := ⟨p.bank.toNat, p.bank_lt⟩

/-- The address of the word that a READ or WRITE is for: the open row of its bank, the bank and the
column on the pins. -/
def View.address (cfg : Config) (v : View BA_SIZE) (p : Bus A_SIZE BA_SIZE) : BitVec 32 :=
  toWordAddress cfg.geometry (v.row p.bankIndex) p.bank p.addr

/-- What each command does when no byte is masked, and the line that it leaves in the log. A NOP returns
one of the pending reads, if there are any. -/
inductive TableRow (cfg : Config) (p : Bus A_SIZE BA_SIZE) (v : View BA_SIZE) :
    CmdT → View BA_SIZE → Effect → Prop
  | nop {cmd} (isNop : cmd = .nop0 ∨ cmd = .nop1) (none : v.pending = 0) : TableRow cfg p v cmd v {}
  | nopReturn {cmd value pending} (isNop : cmd = .nop0 ∨ cmd = .nop1)
      (some : v.pending = value ::ₘ pending) :
      TableRow cfg p v cmd { v with pending := pending }
        { dq := .some value, log := [.readReturned value] }
  | activate : TableRow cfg p v .activate { v with row := Function.update v.row p.bankIndex p.addr }
      { log := [.activate] }
  | read : TableRow cfg p v .read { v with pending := v.word (v.address cfg p) ::ₘ v.pending }
      { log := [.readRequested (toWishbone cfg (v.address cfg p)) (v.word (v.address cfg p))] }
  | write : TableRow cfg p v .write { v with word := Function.update v.word (v.address cfg p) p.dq }
      { log := [.write (toWishbone cfg (v.address cfg p)) p.dq] }
  | precharge : TableRow cfg p v .precharge { v with row := Function.update v.row p.bankIndex 0 }
      { log := [.precharge] }
  | prechargeAll : TableRow cfg p v .prechargeAll { v with row := fun _ => 0 } { log := [.prechargeAll] }
  | refresh : TableRow cfg p v .refresh v { log := [.refresh] }
  | loadMemReg : TableRow cfg p v .loadMemReg v { log := [.loadMemReg] }

/-- A step from `v` to `v'` that shows `effect` does what the table asks of the sample. -/
def Obeys (cfg : Config) (p : Pins A_SIZE BA_SIZE) (v v' : View BA_SIZE) (effect : Effect) : Prop :=
  match p.tableCommand with
  | some cmd => TableRow cfg p.toBus v cmd v' effect
  | none => v' = v ∧ effect = {}

/-- The step of the module at a sample does. -/
def StepObeys (cfg : Config) (s : State BA_SIZE) (p : Pins A_SIZE BA_SIZE) : Prop :=
  Obeys cfg p s.view (sdramHandler cfg s p).1.view (sdramHandler cfg s p).2

/-- The sample opens or closes a row of the bank `b`. -/
def Pins.Touches (p : Pins A_SIZE BA_SIZE) (b : Fin (2 ^ BA_SIZE)) : Prop :=
  ((p.tableCommand = some .activate ∨ p.tableCommand = some .precharge) ∧ p.bankIndex = b) ∨
    p.tableCommand = some .prechargeAll

instance (p : Pins A_SIZE BA_SIZE) (b : Fin (2 ^ BA_SIZE)) : Decidable (p.Touches b) :=
  inferInstanceAs (Decidable (_ ∨ _))

/-- The samples that the packed code does not lose: `A[10]` is low, or the chip is deselected, or
the command is one of the two precharges, or there is nothing to do (a NOP with no read pending,
pins that select no command). -/
def Decoded (s : State BA_SIZE) (p : Pins A_SIZE BA_SIZE) : Prop :=
  p.a.getLsbD 10 = false ∨ p.csN = 1 ∨ p.tableCommand = some .prechargeAll ∨
    p.tableCommand = none ∨ (p.tableCommand = some .nop1 ∧ s.readBuf = [])

instance (s : State BA_SIZE) (p : Pins A_SIZE BA_SIZE) : Decidable (Decoded s p) :=
  inferInstanceAs (Decidable (_ ∨ _))

/-! ## The handler does what the table asks -/

variable {s : State BA_SIZE}

/-- Opening a row. -/
theorem view_openRow (s : State BA_SIZE) (p : Bus A_SIZE BA_SIZE) (row : BitVec 32) :
    (s.openRow p row).view = { s.view with row := Function.update s.view.row p.bankIndex row } := by
  have hrow : (fun b : Fin (2 ^ BA_SIZE) => (s.rowAddr.set p.bank.toNat row p.bank_lt)[b])
      = Function.update (fun b => s.rowAddr[b]) p.bankIndex row := by
    funext b
    by_cases hb : b = p.bankIndex
    · subst hb
      simp [Bus.bankIndex]
    · have hne : p.bank.toNat ≠ b.val := fun heq => hb (Fin.ext heq.symm)
      rw [Function.update_of_ne hb]
      exact Vector.getElem_set_ne _ _ hne
  simp only [State.view, State.openRow, hrow]

/-- A NOP returns the latest of the pending reads. -/
theorem handleCmd_nop (cfg : Config) (s : State BA_SIZE) {cmd : CmdT} (p : Bus A_SIZE BA_SIZE)
    (hcmd : cmd = .nop0 ∨ cmd = .nop1) :
    TableRow cfg p s.view cmd (handleCmd cfg s cmd p).1.view (handleCmd cfg s cmd p).2 := by
  have heq : handleCmd cfg s cmd p = handleCmd cfg s .nop0 p := by
    rcases hcmd with rfl | rfl <;> rfl
  rw [heq]
  rcases List.eq_nil_or_concat' s.readBuf with hnil | ⟨buf, value, hbuf⟩
  · simp only [handleCmd, hnil, List.getLast?_nil]
    exact .nop hcmd (by simp [State.view, hnil])
  · have hpending : s.view.pending = value ::ₘ (buf : Multiset (BitVec 32)) := by
      rw [State.view, hbuf]
      exact Multiset.coe_eq_coe.mpr (List.perm_append_singleton value buf)
    simp only [handleCmd, hbuf, List.getLast?_concat, List.dropLast_concat]
    exact .nopReturn hcmd hpending

/-- A READ asks for the word at its address; the key that the log line may add changes no word. -/
theorem handleCmd_read (cfg : Config) (s : State BA_SIZE) (p : Bus A_SIZE BA_SIZE) :
    TableRow cfg p s.view .read (handleCmd cfg s .read p).1.view (handleCmd cfg s .read p).2 := by
  have hview : (handleCmd cfg s .read p).1.view
      = { s.view with pending := s.view.word (s.view.address cfg p) ::ₘ s.view.pending } := by
    have hword : OrdMap.read (s.mem.subscript (s.view.address cfg p)) = s.mem.read :=
      funext fun k => OrdMap.read_subscript s.mem _ k
    have hpending : ((s.readBuf ++ [s.mem.read (s.view.address cfg p)] : List (BitVec 32))
        : Multiset (BitVec 32)) = s.mem.read (s.view.address cfg p) ::ₘ (s.readBuf : Multiset _) :=
      Multiset.coe_eq_coe.mpr (List.perm_append_singleton _ _)
    exact congrArg₂ (View.mk fun b => s.rowAddr[b]) hword hpending
  rw [hview]
  exact .read

/-- A WRITE that masks no byte stores the word on `dq`. -/
theorem handleCmd_write (cfg : Config) (s : State BA_SIZE) {p : Bus A_SIZE BA_SIZE} (hdm : p.dm = 0) :
    TableRow cfg p s.view .write (handleCmd cfg s .write p).1.view (handleCmd cfg s .write p).2 := by
  have hzero : byteMask (p.dm.setWidth 32) = 0 := by rw [hdm]; exact byteMask_zero
  have hwrite : handleCmd cfg s .write p
      = ({ s.select p with mem := s.mem.insert (s.view.address cfg p) p.dq },
        { log := [.write (toWishbone cfg (s.view.address cfg p)) p.dq] }) := by
    simp only [handleCmd, hzero, merge_unmasked]
    rfl
  have hword : OrdMap.read (s.mem.insert (s.view.address cfg p) p.dq)
      = Function.update s.mem.read (s.view.address cfg p) p.dq := by
    funext k
    rw [OrdMap.read_insert, Function.update_apply]
    exact if_congr eq_comm rfl rfl
  rw [hwrite]
  have hview : ({ s.select p with mem := s.mem.insert (s.view.address cfg p) p.dq } :
      State BA_SIZE).view
        = { s.view with word := Function.update s.view.word (s.view.address cfg p) p.dq } :=
    congrArg (View.mk (fun b => s.rowAddr[b]) · s.readBuf) hword
  rw [hview]
  exact .write

/-- **The command handler does what the table asks**, command by command. -/
theorem handleCmd_tableRow (cfg : Config) (s : State BA_SIZE) (cmd : CmdT) {p : Bus A_SIZE BA_SIZE}
    (hdm : p.dm = 0) :
    TableRow cfg p s.view cmd (handleCmd cfg s cmd p).1.view (handleCmd cfg s cmd p).2 := by
  cases cmd with
  | nop0 => exact handleCmd_nop cfg s p (.inl rfl)
  | nop1 => exact handleCmd_nop cfg s p (.inr rfl)
  | activate =>
    have hview := view_openRow s p p.addr
    rw [show (handleCmd cfg s .activate p).1.view = _ from hview]
    exact .activate
  | read => exact handleCmd_read cfg s p
  | write => exact handleCmd_write cfg s hdm
  | precharge =>
    have hview := view_openRow s p 0
    rw [show (handleCmd cfg s .precharge p).1.view = _ from hview]
    exact .precharge
  | prechargeAll =>
    have hview : (handleCmd cfg s .prechargeAll p).1.view = { s.view with row := fun _ => 0 } := by
      have hrow : (fun b : Fin (2 ^ BA_SIZE) => (Vector.replicate (2 ^ BA_SIZE) (0 : BitVec 32))[b])
          = fun _ => 0 := by
        funext b
        simp
      exact congrArg (View.mk · s.mem.read s.readBuf) hrow
    rw [hview]
    exact .prechargeAll
  | refresh => exact .refresh
  | loadMemReg => exact .loadMemReg

/-! ## One sample -/

/-- With `A[10]` high the code reaches a case label only for a deselected chip and for
PRECHARGE_ALL. -/
theorem ofCode_agg_high {p : Pins A_SIZE BA_SIZE} (h : p.a.getLsbD 10 = true) :
    CmdT.ofCode p.agg
      = if p.csN = 1 ∨ p.tableCommand = some .prechargeAll then p.tableCommand else none := by
  obtain ⟨⟨a, ba, dq, dm⟩, ck, cke, csN, rasN, casN, weN⟩ := p
  simp only at h
  simp only [Pins.agg, Pins.tableCommand, h]
  revert csN rasN casN weN
  decide

/-- With `A[10]` low the code reaches exactly the command that the table names. -/
theorem ofCode_agg_low {p : Pins A_SIZE BA_SIZE} (h : p.a.getLsbD 10 = false) :
    CmdT.ofCode p.agg = p.tableCommand := by
  obtain ⟨⟨a, ba, dq, dm⟩, ck, cke, csN, rasN, casN, weN⟩ := p
  simp only at h
  simp only [Pins.agg, Pins.tableCommand, h]
  revert csN rasN casN weN
  decide

/-- A command that the table asks for shows, unless it is a NOP with nothing to return. -/
theorem TableRow.shows {p : Bus A_SIZE BA_SIZE} {v v' : View BA_SIZE} {cmd : CmdT} {effect : Effect}
    (h : TableRow cfg p v cmd v' effect) (hnone : effect = {}) :
    (cmd = .nop0 ∨ cmd = .nop1) ∧ v.pending = 0 := by
  cases h with
  | nop isNop none => exact ⟨isNop, none⟩
  | nopReturn | activate | read | write | precharge | prechargeAll | refresh | loadMemReg =>
    simp at hnone

/-- NOP on a selected chip is the other one of the two NOPs. -/
theorem tableCommand_ne_nop0 {p : Pins A_SIZE BA_SIZE} (hcs : p.csN ≠ 1) :
    p.tableCommand ≠ some .nop0 := by
  simp only [Pins.tableCommand, if_neg hcs]
  split <;> simp
  split <;> simp

/-- A sample that the code loses is one that the table obeys visibly, and conversely. -/
theorem stepObeys_iff (s : State BA_SIZE) {p : Pins A_SIZE BA_SIZE}
    (hp : p.ck = 1 ∧ p.cke = 1 ∧ p.dm = 0) : StepObeys cfg s p ↔ Decoded s p := by
  have hclk : (p.ck &&& p.cke) = 1 := by rw [hp.1, hp.2.1]; rfl
  have hstep : sdramHandler cfg s p = dispatch cfg s (CmdT.ofCode p.agg) p.toBus := by
    simp only [sdramHandler, hclk, if_true]
  -- a code that is the table's command does what the table asks
  have hobeys : CmdT.ofCode p.agg = p.tableCommand → StepObeys cfg s p := by
    intro hcode
    rw [StepObeys, hstep, hcode, Obeys]
    cases p.tableCommand with
    | none => exact ⟨rfl, rfl⟩
    | some cmd => exact handleCmd_tableRow cfg s cmd hp.2.2
  cases ha : p.a.getLsbD 10 with
  | false => exact iff_of_true (hobeys (ofCode_agg_low ha)) (.inl ha)
  | true =>
    by_cases hsel : p.csN = 1 ∨ p.tableCommand = some .prechargeAll
    · refine iff_of_true (hobeys ?_) (.inr (hsel.imp_right .inl))
      rw [ofCode_agg_high ha, if_pos hsel]
    -- the code is lost: the table must ask for nothing that can be seen
    · have hlost : sdramHandler cfg s p = (s, {}) := by
        rw [hstep, ofCode_agg_high ha, if_neg hsel]
        rfl
      obtain ⟨hcs, hpre⟩ := not_or.mp hsel
      simp only [StepObeys, Obeys, hlost, Decoded, ha, hcs, hpre, Bool.true_eq_false, false_or]
      cases ht : p.tableCommand with
      | none => simp
      | some cmd =>
        simp only [reduceCtorEq, false_or, Option.some.injEq]
        constructor
        · intro hrow
          obtain ⟨hnop, hnone⟩ := hrow.shows rfl
          refine ⟨hnop.resolve_left fun h0 => tableCommand_ne_nop0 hcs (h0 ▸ ht), ?_⟩
          simpa [State.view] using hnone
        · rintro ⟨h1, hnil⟩
          exact .nop (.inr h1) (by simp [State.view, hnil])

/-! ## Runs -/

/-- Along a run, obeying the table and taking `Decoded` samples are the same. -/
theorem along_table_iff (cfg : Config) (s₀ : State BA_SIZE) (samples : List (Pins A_SIZE BA_SIZE))
    (hck : ∀ p ∈ samples, p.ck = 1 ∧ p.cke = 1 ∧ p.dm = 0) :
    (pins A_SIZE cfg).Along (StepObeys cfg) s₀ samples ↔ (pins A_SIZE cfg).Along Decoded s₀ samples :=
  (pins A_SIZE cfg).along_congr (P := fun _ => True) (Q := StepObeys cfg) (R := Decoded)
    (fun _ _ _ _ => trivial) (fun s _ hp _ => stepObeys_iff s hp) trivial hck

/-- A sample that the table obeys and that is not about the bank leaves its row open. -/
theorem Obeys.row_eq {p : Pins A_SIZE BA_SIZE} {v v' : View BA_SIZE} {effect : Effect}
    (h : Obeys cfg p v v' effect) {b : Fin (2 ^ BA_SIZE)} (hb : ¬ p.Touches b) : v'.row b = v.row b := by
  rw [Obeys] at h
  rw [Pins.Touches] at hb
  cases hcmd : p.tableCommand with
  | none =>
    rw [hcmd] at h
    rw [h.1]
  | some cmd =>
    rw [hcmd] at h hb
    cases h with
    | nop | nopReturn | read | write | refresh | loadMemReg => rfl
    | activate => exact Function.update_of_ne (fun heq => hb (.inl ⟨.inl rfl, heq.symm⟩)) ..
    | precharge => exact Function.update_of_ne (fun heq => hb (.inl ⟨.inr rfl, heq.symm⟩)) ..
    | prechargeAll => exact absurd (.inr rfl) hb

/-- An ACTIVATE that the table obeys opens the row on the pins. -/
theorem Obeys.row_activate {p : Pins A_SIZE BA_SIZE} {v v' : View BA_SIZE} {effect : Effect}
    (h : Obeys cfg p v v' effect) (hp : p.tableCommand = some .activate) :
    v'.row p.bankIndex = p.addr := by
  rw [Obeys, hp] at h
  cases h with
  | nop isNop | nopReturn isNop => simp at isNop
  | activate => exact Function.update_self ..

/-- **Run lemma**: a row stays open until the next ACTIVATE or PRECHARGE of its bank. -/
theorem row_of_along {s : State BA_SIZE} {b : Fin (2 ^ BA_SIZE)} {mid : List (Pins A_SIZE BA_SIZE)}
    (h : (pins A_SIZE cfg).Along (StepObeys cfg) s mid) (hmid : ∀ q ∈ mid, ¬ q.Touches b) :
    ((pins A_SIZE cfg).run s mid).view.row b = s.view.row b := by
  induction mid generalizing s with
  | nil => rfl
  | cons q mid ih =>
    have hstep : ((pins A_SIZE cfg).step s q).1.view.row b = s.view.row b :=
      h.1.row_eq (hmid q (by simp))
    rw [Mealy.run_cons, ih h.2 fun r hr => hmid r (by simp [hr]), hstep]

/-- **The decoder obeys the command table exactly on the samples that are `Decoded`.** In any run,
every step does what the table asks if and only if no step of the run takes a sample that the packed
code loses. And then the row of an ACTIVATE stays open until the next ACTIVATE or PRECHARGE of its bank.
The handler reads `A[10]`, so there are at least eleven address pins. -/
theorem sdramHandler_table_iff (cfg : Config) (_hA : 11 ≤ A_SIZE) (s₀ : State BA_SIZE)
    (samples : List (Pins A_SIZE BA_SIZE)) (hck : ∀ p ∈ samples, p.ck = 1 ∧ p.cke = 1 ∧ p.dm = 0) :
    ((∀ pre p, pre ++ [p] <+: samples → StepObeys cfg ((pins A_SIZE cfg).run s₀ pre) p) ↔
      ∀ pre p, pre ++ [p] <+: samples → Decoded ((pins A_SIZE cfg).run s₀ pre) p) ∧
    ((∀ pre p, pre ++ [p] <+: samples → Decoded ((pins A_SIZE cfg).run s₀ pre) p) →
      ∀ pre p mid, pre ++ p :: mid <+: samples → p.tableCommand = some .activate →
        (∀ q ∈ mid, ¬ q.Touches p.bankIndex) →
        ((pins A_SIZE cfg).run s₀ (pre ++ p :: mid)).rowAddr[p.bankIndex] = p.addr) := by
  have halong := along_table_iff cfg s₀ samples hck
  refine ⟨by rwa [Mealy.along_iff_prefixes, Mealy.along_iff_prefixes] at halong, ?_⟩
  intro hdec pre p mid hpre hactivate hmid
  rw [← Mealy.along_iff_prefixes] at hdec
  -- the run up to the ACTIVATE, the ACTIVATE, and the samples after it
  obtain ⟨post, rfl⟩ := hpre
  have hobeys := halong.mpr hdec
  rw [List.append_assoc, Mealy.along_append, List.cons_append, Mealy.along_cons,
    Mealy.along_append] at hobeys
  obtain ⟨-, hopens, hstays, -⟩ := hobeys
  rw [Mealy.run_append, Mealy.run_cons]
  exact (row_of_along hstays hmid).trans (hopens.row_activate hactivate)

/-- A row below `A[10]` opens as the table says, and stays open while another bank is read. -/
theorem sdramHandler_table_low_row :
    let cfg : Config := { geometry := { rowBits := 12, bankBits := 2, colBits := 8 } }
    let activate : Pins 12 2 := { a := 0x3ff, ba := 1, csN := 0, rasN := 0, casN := 1, weN := 1 }
    let read : Pins 12 2 := { a := 7, ba := 2, csN := 0, rasN := 1, casN := 0, weN := 1 }
    let nop : Pins 12 2 := { a := 7, ba := 1, csN := 0, rasN := 1, casN := 1, weN := 1 }
    StepObeys cfg State.init activate ∧
      ((pins 12 cfg).run State.init [activate, read, nop]).rowAddr[activate.bankIndex] = 0x3ff := by
  intro cfg activate read nop
  obtain ⟨hiff, hrow⟩ := sdramHandler_table_iff cfg (by decide) (State.init : State 2)
    [activate, read, nop] (by decide)
  have hdec := ((pins 12 cfg).along_iff_prefixes Decoded State.init [activate, read, nop]).mp
    ⟨.inl (by decide), .inl (by decide), .inl (by decide), trivial⟩
  exact ⟨hiff.mpr hdec [] activate (by simp),
    hrow hdec [] activate [read, nop] (List.prefix_refl _) (by decide) (by decide)⟩

/-- A row with `A[10]` set does not open: the device keeps row 0 where the table opens `0x400`. -/
theorem sdramHandler_drops_row :
    ¬ ∀ (cfg : Config) (samples : List (Pins 12 2)),
      (∀ p ∈ samples, p.ck = 1 ∧ p.cke = 1 ∧ p.dm = 0) →
      ∀ pre p, pre ++ [p] <+: samples → StepObeys cfg ((pins 12 cfg).run State.init pre) p := by
  intro h
  have hstep := h { geometry := { rowBits := 12, bankBits := 2, colBits := 8 } }
    [{ a := 0x400, ba := 1, csN := 0, rasN := 0, casN := 1, weN := 1 }] (by decide)
    [] _ (List.prefix_refl _)
  have hrow := Obeys.row_activate hstep (by decide)
  revert hrow
  decide

end DeltaModels.Sdram
