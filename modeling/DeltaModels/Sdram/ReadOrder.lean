import DeltaModels.Library.Stack
import DeltaModels.Sdram.Basic

/-!
# The order in which read data comes back

READ appends the word it fetches to `read_buf`, and NOP returns `read_buf.back()`: the buffer is a
stack. The run of the device, seen from the buffer, is the run of `Stack.stack` on the operations
that the commands stand for (`stackOps`), so the general fact about stacks used as queues applies:
reads come back in request order exactly as long as every NOP finds only equal words pending.
-/

namespace DeltaModels.Sdram

open Stack (Constant)

variable {A_SIZE BA_SIZE : Nat} {cfg : Config}

/-- The word that a READ fetches: what it appends to `read_buf`. -/
def fetch (cfg : Config) (s : State BA_SIZE) (p : Bus A_SIZE BA_SIZE) : BitVec 32 :=
  s.mem.read ((s.select p).updateAddress cfg)

/-- The words fetched by the READs of a run, in the order the READs were issued. -/
def fetched (cfg : Config) : State BA_SIZE → List (Command A_SIZE BA_SIZE) → List (BitVec 32)
  | _, [] => []
  | s, c :: cs =>
    let rest := fetched cfg ((commands A_SIZE cfg).step s c).1 cs
    if c.cmd = .read then fetch cfg s c.toBus :: rest else rest

/-- The words driven on `dq` in a run, in order. -/
def driven (cfg : Config) (s : State BA_SIZE) (cs : List (Command A_SIZE BA_SIZE)) :
    List (BitVec 32) :=
  (((commands A_SIZE cfg).trace s cs).map Effect.dq).reduceOption

/-- Both NOP labels return a pending read. -/
def CmdT.isNop (cmd : CmdT) : Bool := cmd = .nop0 || cmd = .nop1

/-- What a command does to `read_buf`. -/
def Command.stackOp (cfg : Config) (s : State BA_SIZE) (c : Command A_SIZE BA_SIZE) :
    Stack.Op (BitVec 32) :=
  if c.cmd = .read then .push (fetch cfg s c.toBus) else if c.cmd.isNop then .pop else .skip

/-- The operations on `read_buf` along a run. -/
def stackOps (cfg : Config) :
    State BA_SIZE → List (Command A_SIZE BA_SIZE) → List (Stack.Op (BitVec 32))
  | _, [] => []
  | s, c :: cs => c.stackOp cfg s :: stackOps cfg ((commands A_SIZE cfg).step s c).1 cs

/-! ## The device as a stack -/

/-- **Step lemma**: a command does to `read_buf` and `dq` what its stack operation does. -/
theorem handleCmd_stack (cfg : Config) (s : State BA_SIZE) (c : Command A_SIZE BA_SIZE) :
    Stack.step s.readBuf (c.stackOp cfg s)
      = (((commands A_SIZE cfg).step s c).1.readBuf, ((commands A_SIZE cfg).step s c).2.dq) := by
  obtain ⟨p, cmd⟩ := c
  cases cmd with
  | nop0 | nop1 =>
    show (s.readBuf.dropLast, s.readBuf.getLast?)
      = ((handleCmd cfg s _ p).1.readBuf, (handleCmd cfg s _ p).2.dq)
    simp only [handleCmd]
    cases h : s.readBuf.getLast? with
    | none =>
      have hnil : s.readBuf = [] := by simpa using h
      simp [hnil]
    | some v => rfl
  | activate | read | write | precharge | prechargeAll | refresh | loadMemReg => rfl

/-- **Run lemma**: `read_buf`, the words driven and the words fetched are those of the stack. -/
theorem run_stack (cfg : Config) (s : State BA_SIZE) (cs : List (Command A_SIZE BA_SIZE)) :
    (Stack.stack _).run s.readBuf (stackOps cfg s cs) = ((commands A_SIZE cfg).run s cs).readBuf ∧
    Stack.popped s.readBuf (stackOps cfg s cs) = driven cfg s cs ∧
    Stack.pushed (stackOps cfg s cs) = fetched cfg s cs := by
  induction cs generalizing s with
  | nil => exact ⟨rfl, rfl, rfl⟩
  | cons c cs ih =>
    obtain ⟨hrun, hpop, hpush⟩ := ih ((commands A_SIZE cfg).step s c).1
    have hstep := handleCmd_stack cfg s c
    have hbuf : ((Stack.stack _).step s.readBuf (c.stackOp cfg s)).1
        = ((commands A_SIZE cfg).step s c).1.readBuf := congrArg Prod.fst hstep
    have hdq : ((Stack.stack _).step s.readBuf (c.stackOp cfg s)).2
        = ((commands A_SIZE cfg).step s c).2.dq := congrArg Prod.snd hstep
    refine ⟨?_, ?_, ?_⟩
    · simp only [stackOps, Mealy.run_cons, hbuf, hrun]
    · simp only [stackOps, Stack.popped, driven, Mealy.trace_cons, List.map_cons, hbuf, hdq]
      cases ((commands A_SIZE cfg).step s c).2.dq with
      | none => exact hpop
      | some v => exact congrArg (v :: ·) hpop
    · simp only [stackOps, fetched, ← hpush]
      by_cases hread : c.cmd = .read
      · simp [Command.stackOp, hread, Stack.pushed]
      · by_cases hnop : c.cmd.isNop <;> simp [Command.stackOp, hread, hnop, Stack.pushed]

/-- Prefixes of the commands are prefixes of the operations, and all of those. -/
theorem stackOps_prefixes (s : State BA_SIZE) (cs : List (Command A_SIZE BA_SIZE))
    (P : List (Stack.Op (BitVec 32)) → Prop) :
    (∀ pre, pre <+: cs → P (stackOps cfg s pre)) ↔ ∀ ops, ops <+: stackOps cfg s cs → P ops := by
  induction cs generalizing s P with
  | nil => simp [stackOps]
  | cons c cs ih =>
    have htail := ih ((commands A_SIZE cfg).step s c).1 fun ops => P (c.stackOp cfg s :: ops)
    constructor
    · intro h ops hops
      cases ops with
      | nil => exact h [] (by simp)
      | cons o os =>
        obtain ⟨rfl, hos⟩ : o = c.stackOp cfg s ∧
            os <+: stackOps cfg ((commands A_SIZE cfg).step s c).1 cs := by
          simpa [stackOps] using hops
        exact htail.mp (fun pre hpre => h (c :: pre) (by simpa using hpre)) os hos
    · intro h pre hpre
      cases pre with
      | nil => exact h [] (by simp)
      | cons d ds =>
        obtain ⟨rfl, hds⟩ : d = c ∧ ds <+: cs := by simpa using hpre
        exact htail.mpr (fun os hos => h (_ :: os) (by simpa [stackOps] using hos)) ds hds

/-- The stack's step condition, read along the run of the device. -/
theorem along_popsConstant (s : State BA_SIZE) (cs : List (Command A_SIZE BA_SIZE)) :
    (Stack.stack _).Along Stack.PopsConstant s.readBuf (stackOps cfg s cs) ↔
      (commands A_SIZE cfg).Along (fun s c => c.cmd.isNop → Constant s.readBuf) s cs := by
  induction cs generalizing s with
  | nil => simp [stackOps]
  | cons c cs ih =>
    have hbuf : ((Stack.stack _).step s.readBuf (c.stackOp cfg s)).1
        = ((commands A_SIZE cfg).step s c).1.readBuf := congrArg Prod.fst (handleCmd_stack cfg s c)
    have hpop : c.stackOp cfg s = .pop ↔ c.cmd.isNop = true := by
      by_cases hread : c.cmd = .read
      · simp [Command.stackOp, hread, CmdT.isNop]
      · by_cases hnop : c.cmd.isNop <;> simp [Command.stackOp, hread, hnop]
    simp only [stackOps, Mealy.along_cons, hbuf, ih, Stack.PopsConstant, hpop]

/-- **Read data comes back in request order exactly when no NOP has to choose.** In every run, the
words driven on `dq` followed by the words still pending are, after every prefix, the words that
were pending at the start and those fetched since, in order, if and only if every NOP of the run
finds only equal words pending. -/
theorem reads_inOrder_iff (cfg : Config) (s₀ : State BA_SIZE) (cs : List (Command A_SIZE BA_SIZE)) :
    (∀ pre, pre <+: cs →
      driven cfg s₀ pre ++ ((commands A_SIZE cfg).run s₀ pre).readBuf
        = s₀.readBuf ++ fetched cfg s₀ pre) ↔
    (∀ pre c, pre ++ [c] <+: cs → c.cmd.isNop →
      Constant ((commands A_SIZE cfg).run s₀ pre).readBuf) := by
  have hinit : ∀ pre : List (Command A_SIZE BA_SIZE),
      (driven cfg s₀ pre ++ ((commands A_SIZE cfg).run s₀ pre).readBuf
          = s₀.readBuf ++ fetched cfg s₀ pre) ↔
        Stack.InOrder s₀.readBuf (stackOps cfg s₀ pre) := by
    intro pre
    obtain ⟨hrun, hpop, hpush⟩ := run_stack cfg s₀ pre
    rw [Stack.InOrder, ← hrun, ← hpop, ← hpush]
  simp only [hinit]
  rw [stackOps_prefixes s₀ cs (Stack.InOrder s₀.readBuf), Stack.inOrder_prefixes_iff,
    along_popsConstant, Mealy.along_iff_prefixes]

/-- Two words written, both read before the first NOP: the NOP returns the second one. -/
theorem reads_out_of_order :
    ¬ ∀ (cfg : Config) (cs : List (Command 12 2)),
      driven cfg (State.init : State 2) cs ++ ((commands 12 cfg).run State.init cs).readBuf
        = fetched cfg State.init cs := by
  intro h
  have hcs := h { geometry := { rowBits := 12, bankBits := 2, colBits := 8 } }
    [{ a := 0, ba := 0, dq := 1, cmd := .write }, { a := 1, ba := 0, dq := 2, cmd := .write },
     { a := 0, ba := 0, cmd := .read }, { a := 1, ba := 0, cmd := .read },
     { a := 0, ba := 0, cmd := .nop0 }]
  revert hcs
  decide

end DeltaModels.Sdram
