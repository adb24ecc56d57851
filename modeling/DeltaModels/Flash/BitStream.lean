import DeltaModels.Flash.QuadRead
import Mathlib.Data.List.TakeWhile

/-!
# What the flash makes of a bit stream

Nothing keeps a host to complete transactions. Whatever it sends, the flash cuts the stream into
pieces (`cut`): pauses, quad reads, and commands that it does not know. Only an idle or an answering
flash looks at `cs_n`: a quad read is over when the chip is deselected in its response phase and not
before, and after an unknown command the flash ignores its pins until its 32-bit counter has come
round. Then it takes the next eight bits for a command, selected or not.

Each piece has its own effects (`Piece.shows`), of which only the responses depend on the image, and
the effects of a stream are those of its pieces (`stream_shown`). The last piece may be cut short
anywhere.
-/

namespace DeltaModels.Flash

/-! ## Pieces -/

/-- What is seen of a period: on the rising edge and on the falling edge. -/
abbrev Shown := Effect 4 × Effect 4

/-- Nothing driven and nothing written. -/
def quiet : Shown := ({}, {})

/-- The command byte after some more samples, the first bit on top. -/
def commandOf (c : BitVec 8) (ps : List Sample) : BitVec 8 :=
  ps.foldl (fun c p => bit0 p.dq ||| (c <<< 1)) c

/-- The address in some samples, the first nibble on top. -/
def addressOf (ps : List Sample) : Nat :=
  ps.foldl (fun a p => BitFields.join 4 a p.dq.toNat) 0

/-- The periods until a counter that has come to 8 is at 0 again. -/
def lockout : Nat := 2 ^ 32 - 8

/-- A piece of a stream, in the samples of its phases. -/
inductive Piece where
  | pause (p : Sample)
  | read (cmd addr dummies resp stop : List Sample)
  | unknown (cmd ignored : List Sample)

def Piece.samples : Piece → List Sample
  | .pause p => [p]
  | .read cmd addr dummies resp stop => cmd ++ addr ++ dummies ++ resp ++ stop
  | .unknown cmd ignored => cmd ++ ignored

/-- After an unknown command the flash does not go back to idle. -/
def Piece.listens : Piece → Bool
  | .unknown _ _ => true
  | _ => false

/-- Whether the chip is selected. -/
def Sample.selected (p : Sample) : Bool := p.csN = 0

/-- The first piece of a stream `p :: ps`. -/
def firstPiece (D : BitVec 32) (listening : Bool) (p : Sample) (ps : List Sample) : Piece :=
  if listening || p.selected then
    let cmd := (p :: ps).take 8
    let rest := (p :: ps).drop 8
    if commandOf 0 cmd = CMD_QUAD_READ then
      let served := (rest.drop 6).drop (dummyEdges D)
      .read cmd (rest.take 6) ((rest.drop 6).take (dummyEdges D))
        (served.takeWhile Sample.selected) ((served.dropWhile Sample.selected).take 1)
    else .unknown cmd (rest.take lockout)
  else .pause p

theorem firstPiece_pos (D : BitVec 32) (listening : Bool) (p : Sample) (ps : List Sample) :
    0 < (firstPiece D listening p ps).samples.length := by
  unfold firstPiece
  split
  · dsimp only
    split <;> simp [Piece.samples]
  · simp [Piece.samples]

/-- The pieces of a stream; a flash that is `listening` waits for a command without a selection. -/
def cut (D : BitVec 32) (listening : Bool) : List Sample → List Piece
  | [] => []
  | p :: ps =>
    firstPiece D listening p ps :: cut D (firstPiece D listening p ps).listens
      ((p :: ps).drop (firstPiece D listening p ps).samples.length)
termination_by ps => ps.length
decreasing_by
  have hpos := firstPiece_pos D listening p ps
  simp only [List.length_drop, List.length_cons]
  omega

/-- Dummy period `n`: the one that ends the phase writes the line that opens the response. -/
def dummyShown (D : BitVec 32) (a n : Nat) : Shown :=
  ({ dq := some 0 },
    if n + 1 = dummyEdges D then { dq := some 0, log := some ⟨BitVec.ofNat 32 a, 0, 0⟩ } else {})

/-- Response period `k`: the half-byte addresses come round too. -/
def nibbleShown (img : Nat → BitVec 8) (a k : Nat) : Shown :=
  let half := nibble img ((2 * a + k) % 2 ^ 32)
  ({ dq := some half },
    { dq := some half
      log := some ⟨BitVec.ofNat 32 a + BitVec.ofNat 32 (k + 1) / 2, BitVec.ofNat 32 (2 * a + k),
        half.setWidth 8⟩ })

/-- What is seen of a piece. -/
def Piece.shows (D : BitVec 32) (img : Nat → BitVec 8) : Piece → List Shown
  | .pause _ => [quiet]
  | .read cmd addr dummies resp stop =>
    List.replicate cmd.length quiet ++ List.replicate addr.length quiet
      ++ (List.range dummies.length).map (dummyShown D (addressOf addr))
      ++ (List.range resp.length).map (nibbleShown img (addressOf addr))
      ++ List.replicate stop.length quiet
  | .unknown cmd ignored => List.replicate cmd.length quiet ++ List.replicate ignored.length quiet

/-! ## Periods -/

variable {D : BitVec 32} {img : Nat → BitVec 8} {s t : State} {p : Sample}

/-- A rising edge that does not lead to the response phase is followed by a falling one that shows
nothing. -/
theorem period_of_ne {e : Effect 4} (h : flashHandler D s (.rise p.csN p.dq) = (t, e))
    (ht : t.phase ≠ .quadReadRespPhase) : period D s p = (t, (e, {})) := by
  rw [period, h]
  simp only [flashHandler, if_neg ht]

/-- In the response phase the falling edge repeats the half-byte and writes its line. -/
theorem period_of_resp {e : Effect 4} (h : flashHandler D s (.rise p.csN p.dq) = (t, e))
    (ht : t.phase = .quadReadRespPhase) :
    period D s p
      = (t, (e, { dq := some (t.word.setWidth 4), log := some ⟨t.addr + t.cnt / 2, t.idx, t.word⟩ })) := by
  rw [period, h]
  simp only [flashHandler, if_pos ht]

/-- **Quiet phases**: a phase of up to `n` periods of which nothing is seen. -/
theorem quiet_run {P : List Sample → State → Prop} {n : Nat}
    (hstep : ∀ xs s p, P xs s → xs.length < n →
      P (xs ++ [p]) (period D s p).1 ∧ (period D s p).2 = quiet)
    (xs ps : List Sample) (hs : P xs s) (hlen : xs.length + ps.length ≤ n) :
    P (xs ++ ps) ((periods D).run s ps) ∧ (periods D).trace s ps = List.replicate ps.length quiet := by
  obtain ⟨hrun, htrace⟩ := (periods D).phase_run P (fun _ => True) (fun _ => quiet) n
    (fun xs s p hxs hlt _ => hstep xs s p hxs hlt) xs ps hs hlen fun _ _ => trivial
  rw [List.map_const', List.length_range'] at htrace
  exact ⟨hrun, htrace⟩

/-! ### Commands -/

/-- Where a piece begins. -/
structure Ready (img : Nat → BitVec 8) (listening : Bool) (s : State) : Prop where
  phase : s.phase = if listening then .cmdPhase else .idlePhase
  cnt : listening → s.cnt = 0
  holds : Holds s.confMemory img

/-- The samples `xs` have been taken for command bits, after the bits `c`. -/
structure Commanded (img : Nat → BitVec 8) (c : BitVec 8) (xs : List Sample) (s : State) : Prop where
  phase : s.phase = .cmdPhase
  cnt : s.cnt = BitVec.ofNat 32 xs.length
  cmd : s.cmd = commandOf c xs
  holds : Holds s.confMemory img

theorem commandOf_concat (c : BitVec 8) (xs : List Sample) (p : Sample) :
    commandOf c (xs ++ [p]) = bit0 p.dq ||| (commandOf c xs <<< 1) := by
  rw [commandOf, List.foldl_append]
  rfl

/-- Bits that were there before are shifted up. -/
theorem commandOf_eq (c : BitVec 8) (xs : List Sample) :
    commandOf c xs = commandOf 0 xs ||| (c <<< xs.length) := by
  induction xs using List.reverseRecOn with
  | nil => simp [commandOf]
  | append_singleton xs p ih =>
    rw [commandOf_concat, commandOf_concat, ih, BitVec.shiftLeft_or_distrib, List.length_append,
      List.length_singleton, BitVec.shiftLeft_add, BitVec.or_assoc]

/-- After eight samples they are gone. -/
theorem commandOf_eight (c : BitVec 8) {xs : List Sample} (h : xs.length = 8) :
    commandOf c xs = commandOf 0 xs := by
  have hgone : c <<< 8 = 0 := by simp
  rw [commandOf_eq, h, hgone]
  exact BitVec.or_zero

theorem Commanded.next {c : BitVec 8} {xs : List Sample} (h : Commanded img c xs s)
    (hlen : xs.length < 8) (p : Sample) :
    Commanded img c (xs ++ [p]) (period D s p).1 ∧ (period D s p).2 = quiet := by
  have hlt : s.cnt < 8 := by
    rw [h.cnt, BitVec.lt_def, BitVec.toNat_ofNat]
    exact Nat.lt_of_le_of_lt (Nat.mod_le _ _) hlen
  have hrise : flashHandler D s (.rise p.csN p.dq)
      = ({ s with cnt := s.cnt + 1, cmd := bit0 p.dq ||| (s.cmd <<< 1) }, {}) := by
    simp only [flashHandler, h.phase, if_pos hlt]
  rw [period_of_ne hrise (by simp [h.phase])]
  refine ⟨⟨h.phase, ?_, ?_, h.holds⟩, rfl⟩
  · show s.cnt + 1 = _
    rw [h.cnt, List.length_append, List.length_singleton, BitVec.ofNat_add]
    rfl
  · show bit0 p.dq ||| (s.cmd <<< 1) = _
    rw [h.cmd, commandOf_concat]

/-- The first bit is taken by the idle phase if the chip is selected. -/
theorem Ready.command {listening : Bool} (h : Ready img listening s)
    (hsel : (listening || p.selected) = true) :
    ∃ c, Commanded img c [p] (period D s p).1 ∧ (period D s p).2 = quiet := by
  cases listening with
  | true =>
    have hnone : Commanded img s.cmd [] s := ⟨h.phase, h.cnt rfl, rfl, h.holds⟩
    exact ⟨s.cmd, hnone.next (by simp) p⟩
  | false =>
    have hcs : p.csN = 0 := by simpa [Sample.selected] using hsel
    have hphase : s.phase = .idlePhase := h.phase
    have hrise : flashHandler D s (.rise p.csN p.dq)
        = ({ s with cnt := 1, phase := .cmdPhase, cmd := bit0 p.dq }, {}) := by
      simp only [flashHandler, hphase, if_pos hcs]
    rw [period_of_ne hrise (by simp)]
    exact ⟨0, ⟨rfl, rfl, by simp [commandOf], h.holds⟩, rfl⟩

/-- **Command phase**: up to eight samples are taken for command bits. -/
theorem shown_command {listening : Bool} (h : Ready img listening s)
    (hsel : (listening || p.selected) = true) (ps : List Sample) (hlen : (p :: ps).length ≤ 8) :
    ∃ c, Commanded img c (p :: ps) ((periods D).run s (p :: ps)) ∧
      (periods D).trace s (p :: ps) = List.replicate (p :: ps).length quiet := by
  obtain ⟨c, hfirst, hquiet⟩ := h.command (D := D) hsel
  obtain ⟨hrun, htrace⟩ := quiet_run (D := D) (fun _ _ q hxs hlt => hxs.next hlt q) [p] ps hfirst
    (by simpa [Nat.add_comm] using hlen)
  exact ⟨c, hrun, congrArg₂ List.cons hquiet htrace⟩

/-! ### Unknown commands -/

/-- The command is not known and `n` periods have been ignored. -/
structure Locked (img : Nat → BitVec 8) (n : Nat) (s : State) : Prop where
  phase : s.phase = .cmdPhase
  cnt : s.cnt = BitVec.ofNat 32 (8 + n)
  cmd : s.cmd ≠ CMD_QUAD_READ
  holds : Holds s.confMemory img

theorem Locked.next {n : Nat} (h : Locked img n s) (hn : n < lockout) (p : Sample) :
    Locked img (n + 1) (period D s p).1 ∧ (period D s p).2 = quiet := by
  have hge : ¬ s.cnt < 8 := by
    rw [h.cnt, BitVec.lt_def, BitVec.toNat_ofNat]
    have hmod : (8 + n) % 2 ^ 32 = 8 + n := Nat.mod_eq_of_lt (by rw [lockout] at hn; omega)
    rw [hmod]
    exact Nat.not_lt.mpr (Nat.le_add_right 8 n)
  have hrise : flashHandler D s (.rise p.csN p.dq) = ({ s with cnt := s.cnt + 1 }, {}) := by
    simp only [flashHandler, h.phase, if_neg hge, if_neg h.cmd]
  rw [period_of_ne hrise (by simp [h.phase])]
  refine ⟨⟨h.phase, ?_, h.cmd, h.holds⟩, rfl⟩
  show s.cnt + 1 = _
  rw [h.cnt, ← Nat.add_assoc, BitVec.ofNat_add (8 + n)]
  rfl

/-- **Lockout**: the pins are ignored until the counter is at 0 again. -/
theorem shown_ignored (h : Locked img 0 s) {ps : List Sample} (hlen : ps.length ≤ lockout) :
    (periods D).trace s ps = List.replicate ps.length quiet ∧
      (ps.length = lockout → Ready img true ((periods D).run s ps)) := by
  obtain ⟨hrun, htrace⟩ := quiet_run (D := D) (P := fun xs => Locked img xs.length)
    (fun xs _ q hxs hlt => by
      rw [List.length_append, List.length_singleton]
      exact hxs.next hlt q)
    [] ps h (by simpa using hlen)
  refine ⟨htrace, fun hfull => ⟨hrun.phase, fun _ => ?_, hrun.holds⟩⟩
  rw [hrun.cnt, List.nil_append, hfull]
  decide

/-! ### Addresses -/

/-- The samples `xs` have been taken for address nibbles. -/
structure AddressTaken (img : Nat → BitVec 8) (xs : List Sample) (s : State) : Prop where
  phase : s.phase = .quadReadAddrPhase
  cnt : s.cnt = BitVec.ofNat 32 xs.length
  addr : s.addr.toNat = addressOf xs
  holds : Holds s.confMemory img

theorem addressOf_concat (xs : List Sample) (p : Sample) :
    addressOf (xs ++ [p]) = BitFields.join 4 (addressOf xs) p.dq.toNat := by
  rw [addressOf, List.foldl_append]
  rfl

theorem addressOf_lt (xs : List Sample) : addressOf xs < 2 ^ (4 * xs.length) := by
  induction xs using List.reverseRecOn with
  | nil => simp [addressOf]
  | append_singleton xs p ih =>
    rw [addressOf_concat, List.length_append, List.length_singleton, Nat.mul_add]
    exact BitFields.join_lt ih p.dq.isLt

/-- The command phase takes the first nibble, one period after the last bit. -/
theorem Commanded.address {c : BitVec 8} {xs : List Sample} (h : Commanded img c xs s)
    (hlen : xs.length = 8) (hcmd : commandOf 0 xs = CMD_QUAD_READ) (p : Sample) :
    AddressTaken img [p] (period D s p).1 ∧ (period D s p).2 = quiet := by
  have hge : ¬ s.cnt < 8 := by
    rw [h.cnt, hlen]
    decide
  have hread : s.cmd = CMD_QUAD_READ := by rw [h.cmd, commandOf_eight c hlen, hcmd]
  have hrise : flashHandler D s (.rise p.csN p.dq)
      = ({ s with phase := .quadReadAddrPhase, cnt := 1, addr := p.dq.setWidth 32 }, {}) := by
    simp only [flashHandler, h.phase, if_neg hge, if_pos hread]
  rw [period_of_ne hrise (by simp)]
  refine ⟨⟨rfl, rfl, ?_, h.holds⟩, rfl⟩
  have hdq := p.dq.isLt
  simp [addressOf, BitFields.join]
  omega

theorem AddressTaken.next {xs : List Sample} (h : AddressTaken img xs s) (hlen : xs.length < 6)
    (p : Sample) : AddressTaken img (xs ++ [p]) (period D s p).1 ∧ (period D s p).2 = quiet := by
  have hlt : s.cnt < BitVec.ofNat 32 (24 / 4) := by
    rw [h.cnt, BitVec.lt_def, BitVec.toNat_ofNat]
    exact Nat.lt_of_le_of_lt (Nat.mod_le _ _) hlen
  have hsmall : s.addr.toNat < 2 ^ 28 := by
    rw [h.addr]
    exact Nat.lt_of_lt_of_le (addressOf_lt xs) (Nat.pow_le_pow_right (by omega) (by omega))
  have hrise : flashHandler D s (.rise p.csN p.dq)
      = ({ s with cnt := s.cnt + 1, addr := (s.addr <<< 4) ||| p.dq.setWidth 32 }, {}) := by
    simp only [flashHandler, h.phase, if_pos hlt]
  rw [period_of_ne hrise (by simp [h.phase])]
  refine ⟨⟨h.phase, ?_, ?_, h.holds⟩, rfl⟩
  · show s.cnt + 1 = _
    rw [h.cnt, List.length_append, List.length_singleton, BitVec.ofNat_add]
    rfl
  · show ((s.addr <<< 4) ||| p.dq.setWidth 32).toNat = _
    rw [toNat_shiftIn _ hsmall, h.addr, addressOf_concat]

/-- **Address phase**: up to six samples after a known command are taken for nibbles. -/
theorem shown_address {c : BitVec 8} {xs : List Sample} (h : Commanded img c xs s)
    (hlen : xs.length = 8) (hcmd : commandOf 0 xs = CMD_QUAD_READ) {ps : List Sample}
    (hps : (p :: ps).length ≤ 6) :
    AddressTaken img (p :: ps) ((periods D).run s (p :: ps)) ∧
      (periods D).trace s (p :: ps) = List.replicate (p :: ps).length quiet := by
  obtain ⟨hfirst, hquiet⟩ := h.address (D := D) hlen hcmd p
  obtain ⟨hrun, htrace⟩ := quiet_run (D := D) (fun _ _ q hxs hlt => hxs.next hlt q) [p] ps hfirst
    (by simpa [Nat.add_comm] using hps)
  exact ⟨hrun, congrArg₂ List.cons hquiet htrace⟩

/-! ### Dummy periods -/

/-- `n` dummy periods have gone by. -/
inductive Dummied (D : BitVec 32) (img : Nat → BitVec 8) (a : BitVec 24) (n : Nat) (s : State) : Prop
    where
  | waiting {mem} (hpos : 0 < n) (hlt : n < dummyEdges D) (h : Waiting mem a (n + 1) s)
    (holds : Holds mem img)
  | answering (hn : n = dummyEdges D) (h : Answering img a 0 s)

variable {a : BitVec 24}

/-- The address phase takes the first dummy period. -/
theorem AddressTaken.dummy {xs : List Sample} (h : AddressTaken img xs s) (hlen : xs.length = 6)
    (ha : addressOf xs = a.toNat) (p : Sample) :
    Dummied D img a 1 (period D s p).1 ∧ (period D s p).2 = dummyShown D a.toNat 0 := by
  have hge : ¬ s.cnt < BitVec.ofNat 32 (24 / 4) := by
    rw [h.cnt, hlen]
    decide
  have hrise : flashHandler D s (.rise p.csN p.dq)
      = ({ s with cnt := 2, phase := .quadReadDummyPhase }, { dq := some 0 }) := by
    simp only [flashHandler, h.phase, if_neg hge]
  have hmore : 1 < dummyEdges D := by rw [dummyEdges]; omega
  rw [period_of_ne hrise (by simp)]
  refine ⟨.waiting Nat.one_pos hmore ⟨rfl, rfl, ?_, rfl⟩ h.holds, ?_⟩
  · exact h.addr.trans ha
  · rw [dummyShown, if_neg (by omega)]

/-- The dummy phase takes the others. -/
theorem Dummied.next {n : Nat} (h : Dummied D img a n s) (hn : n < dummyEdges D) (p : Sample) :
    Dummied D img a (n + 1) (period D s p).1 ∧ (period D s p).2 = dummyShown D a.toNat n := by
  cases h with
  | answering hfull => omega
  | waiting hpos hlt hwait hmem =>
    have hD := D.isLt
    have hedges : dummyEdges D = max 2 (D.toNat - 1) := rfl
    have hcnt := waiting_cnt hwait (by omega)
    by_cases hlast : n + 1 = dummyEdges D
    · -- the counter comes up to `D`
      have hge : s.cnt + 1 ≥ D := by
        rw [ge_iff_le, BitVec.le_def, hcnt]
        omega
      have hrise : flashHandler D s (.rise p.csN p.dq)
          = ({ s with phase := .quadReadRespPhase, cnt := 0, idx := 0, word := 0 }, { dq := some 0 }) := by
        simp only [flashHandler, hwait.phase, if_pos hge]
      have haddr : s.addr = BitVec.ofNat 32 a.toNat := by
        rw [← hwait.addr, BitVec.ofNat_toNat, BitVec.setWidth_eq]
      rw [period_of_resp hrise rfl]
      refine ⟨.answering hlast ⟨rfl, rfl, hwait.addr, hwait.mem ▸ hmem⟩, ?_⟩
      rw [dummyShown, if_pos hlast, ← haddr]
      simp
    · have hlt : ¬ s.cnt + 1 ≥ D := by
        rw [ge_iff_le, BitVec.le_def, hcnt]
        omega
      have hrise : flashHandler D s (.rise p.csN p.dq)
          = ({ s with cnt := s.cnt + 1 }, { dq := some 0 }) := by
        simp only [flashHandler, hwait.phase, if_neg hlt]
      rw [period_of_ne hrise (by simp [hwait.phase])]
      refine ⟨.waiting (by omega) (by omega) ⟨hwait.phase, hcnt, hwait.addr, hwait.mem⟩ hmem, ?_⟩
      rw [dummyShown, if_neg hlast]

/-- **Dummy phase**: up to `dummyEdges` samples after an address are not looked at. -/
theorem shown_dummies {xs : List Sample} (h : AddressTaken img xs s) (hlen : xs.length = 6)
    (ha : addressOf xs = a.toNat) {ps : List Sample} (hps : (p :: ps).length ≤ dummyEdges D) :
    Dummied D img a (p :: ps).length ((periods D).run s (p :: ps)) ∧
      (periods D).trace s (p :: ps)
        = (List.range (p :: ps).length).map (dummyShown D a.toNat) := by
  obtain ⟨hfirst, hshown⟩ := h.dummy (D := D) hlen ha p
  obtain ⟨hrun, htrace⟩ := (periods D).phase_run (fun xs => Dummied D img a xs.length)
    (fun _ => True) (dummyShown D a.toNat) (dummyEdges D)
    (fun xs _ q hxs hlt _ => by
      rw [List.length_append, List.length_singleton]
      exact hxs.next hlt q)
    [p] ps hfirst (by simpa [Nat.add_comm] using hps) fun _ _ => trivial
  refine ⟨hrun, ?_⟩
  rw [List.range_eq_range', List.length_cons, List.range'_succ, List.map_cons, ← hshown]
  exact congrArg _ htrace

/-! ### Responses -/

/-- A response period shows its nibble and writes its line. -/
theorem Answering.next {k : Nat} (h : Answering img a k s) (hp : p.csN = 0) :
    Answering img a (k + 1) (period D s p).1 ∧ (period D s p).2 = nibbleShown img a.toNat k := by
  have hserving : Serving s.confMemory a k s := ⟨h.phase, h.cnt, h.addr, fun _ => rfl⟩
  have hidx := serving_idx hserving
  have hword : s.confMemory.read (BitVec.ofNat 32 (2 * a.toNat + k))
      = (nibble img ((2 * a.toNat + k) % 2 ^ 32)).setWidth 8 := by
    rw [h.holds, BitVec.toNat_ofNat]
  have hcnt : s.cnt + 1 = BitVec.ofNat 32 (k + 1) := by
    rw [h.cnt, BitVec.ofNat_add]
    rfl
  have haddr : s.addr = BitVec.ofNat 32 a.toNat := by
    rw [← h.addr, BitVec.ofNat_toNat, BitVec.setWidth_eq]
  have hrise : flashHandler D s (.rise p.csN p.dq)
      = ({ s with
            idx := BitVec.ofNat 32 (2 * a.toNat + k)
            word := (nibble img ((2 * a.toNat + k) % 2 ^ 32)).setWidth 8
            cnt := BitVec.ofNat 32 (k + 1)
            confMemory := s.confMemory.subscript (BitVec.ofNat 32 (2 * a.toNat + k)) },
          { dq := some (nibble img ((2 * a.toNat + k) % 2 ^ 32)) }) := by
    simp only [flashHandler, h.phase, if_pos hp, hidx, hword, hcnt]
    simp
  rw [period_of_resp hrise h.phase]
  refine ⟨⟨h.phase, rfl, h.addr, fun i => ?_⟩, ?_⟩
  · exact (OrdMap.read_subscript _ _ _).trans (h.holds i)
  · simp [nibbleShown, haddr]

/-- **Response phase**: it goes on as long as the chip is selected. -/
theorem shown_responses (h : Answering img a 0 s) {ps : List Sample} (hsel : ∀ p ∈ ps, p.csN = 0) :
    Answering img a ps.length ((periods D).run s ps) ∧
      (periods D).trace s ps = (List.range ps.length).map (nibbleShown img a.toNat) := by
  rw [List.range_eq_range']
  exact (periods D).phase_run (fun xs => Answering img a xs.length) (fun p => p.csN = 0)
    (nibbleShown img a.toNat) ps.length
    (fun xs _ q hxs _ hq => by
      rw [List.length_append, List.length_singleton]
      exact hxs.next hq)
    [] ps h (by simp) hsel

/-- Deselected, it is over. -/
theorem shown_stop {k : Nat} (h : Answering img a k s) (hp : p.csN ≠ 0) :
    Ready img false (period D s p).1 ∧ (period D s p).2 = quiet := by
  have hrise : flashHandler D s (.rise p.csN p.dq) = ({ s with phase := .idlePhase }, {}) := by
    simp only [flashHandler, h.phase, if_neg hp]
  rw [period_of_ne hrise (by simp)]
  exact ⟨⟨rfl, by simp, h.holds⟩, rfl⟩

/-- A pause leaves an idle flash idle. -/
theorem shown_pause (h : Ready img false s) (hp : p.csN ≠ 0) :
    Ready img false (period D s p).1 ∧ (period D s p).2 = quiet := by
  have hphase : s.phase = .idlePhase := h.phase
  have hrise : flashHandler D s (.rise p.csN p.dq) = (s, {}) := by
    simp only [flashHandler, hphase, if_neg hp]
  rw [period_of_ne hrise (by simp [hphase])]
  exact ⟨h, rfl⟩

/-! ## Quad reads -/

/-- The phases of a quad read, of which each but the last one is complete if there is a next one. -/
structure Phases (D : BitVec 32) (cmd addr dummies resp stop : List Sample) : Prop where
  cmd_whole : addr ≠ [] → cmd.length = 8
  addr_le : addr.length ≤ 6
  addr_whole : dummies ≠ [] → addr.length = 6
  dummies_le : dummies.length ≤ dummyEdges D
  dummies_whole : resp ++ stop ≠ [] → dummies.length = dummyEdges D
  resp_selected : ∀ p ∈ resp, p.csN = 0
  stop_deselected : ∀ p ∈ stop, p.csN ≠ 0
  stop_le : stop.length ≤ 1

section Phases

variable {cmd addr dummies resp stop : List Sample}

/-- From the response phase on. -/
theorem Phases.shown_answer (hp : Phases D cmd addr dummies resp stop)
    (h : Dummied D img a dummies.length s) :
    (periods D).trace s (resp ++ stop)
        = (List.range resp.length).map (nibbleShown img a.toNat) ++ List.replicate stop.length quiet ∧
      (stop ≠ [] → Ready img false ((periods D).run s (resp ++ stop))) := by
  by_cases hnil : resp ++ stop = []
  · obtain ⟨rfl, rfl⟩ := List.append_eq_nil_iff.mp hnil
    exact ⟨rfl, fun hne => absurd rfl hne⟩
  · have hfull := hp.dummies_whole hnil
    cases h with
    | waiting _ hlt => omega
    | answering _ hanswer =>
      obtain ⟨hrun, htrace⟩ := shown_responses (D := D) hanswer hp.resp_selected
      rw [Mealy.trace_append, Mealy.run_append, htrace]
      have hone := hp.stop_le
      match stop, hone, hp.stop_deselected with
      | [], _, _ => exact ⟨rfl, fun hne => absurd rfl hne⟩
      | [p], _, hdes =>
        obtain ⟨hready, hquiet⟩ := shown_stop (D := D) hrun (hdes p (by simp))
        exact ⟨congrArg _ (congrArg (fun e => [e]) hquiet), fun _ => hready⟩

/-- From the dummy phase on. -/
theorem Phases.shown_wait (hp : Phases D cmd addr dummies resp stop) (h : AddressTaken img addr s) :
    (periods D).trace s (dummies ++ (resp ++ stop))
        = (List.range dummies.length).map (dummyShown D (addressOf addr))
          ++ ((List.range resp.length).map (nibbleShown img (addressOf addr))
          ++ List.replicate stop.length quiet) ∧
      (stop ≠ [] → Ready img false ((periods D).run s (dummies ++ (resp ++ stop)))) := by
  cases dummies with
  | nil =>
    have hnil : resp ++ stop = [] := by
      by_contra hne
      have hfull := hp.dummies_whole hne
      rw [List.length_nil, dummyEdges] at hfull
      omega
    obtain ⟨rfl, rfl⟩ := List.append_eq_nil_iff.mp hnil
    exact ⟨rfl, fun hne => absurd rfl hne⟩
  | cons q qs =>
    have hlen := hp.addr_whole (by simp)
    have hlt : addressOf addr < 2 ^ 24 := by simpa [hlen] using addressOf_lt addr
    have ha : addressOf addr = (BitVec.ofNat 24 (addressOf addr)).toNat := by
      rw [BitVec.toNat_ofNat, Nat.mod_eq_of_lt hlt]
    obtain ⟨hrun, htrace⟩ := shown_dummies (D := D) h hlen ha hp.dummies_le
    obtain ⟨hanswer, hready⟩ := hp.shown_answer hrun
    rw [Mealy.trace_append, Mealy.run_append, htrace, hanswer, ← ha]
    exact ⟨rfl, hready⟩

/-- From the address phase on. -/
theorem Phases.shown_addressed (hp : Phases D cmd addr dummies resp stop) {c : BitVec 8}
    (h : Commanded img c cmd s) (hcmd : commandOf 0 cmd = CMD_QUAD_READ) :
    (periods D).trace s (addr ++ (dummies ++ (resp ++ stop)))
        = List.replicate addr.length quiet
          ++ ((List.range dummies.length).map (dummyShown D (addressOf addr))
          ++ ((List.range resp.length).map (nibbleShown img (addressOf addr))
          ++ List.replicate stop.length quiet)) ∧
      (stop ≠ [] → Ready img false ((periods D).run s (addr ++ (dummies ++ (resp ++ stop))))) := by
  cases addr with
  | nil =>
    have hdummies : dummies = [] := by
      by_contra hne
      exact absurd (hp.addr_whole hne) (by simp)
    have hnil : resp ++ stop = [] := by
      by_contra hne
      have hfull := hp.dummies_whole hne
      rw [hdummies, List.length_nil, dummyEdges] at hfull
      omega
    obtain ⟨rfl, rfl⟩ := List.append_eq_nil_iff.mp hnil
    rw [hdummies]
    exact ⟨rfl, fun hne => absurd rfl hne⟩
  | cons q qs =>
    obtain ⟨hrun, htrace⟩ :=
      shown_address (D := D) h (hp.cmd_whole (by simp)) hcmd hp.addr_le
    obtain ⟨hwait, hready⟩ := hp.shown_wait hrun
    rw [Mealy.trace_append, Mealy.run_append, htrace, hwait]
    exact ⟨rfl, hready⟩

end Phases

/-! ## Streams -/

/-- A piece that is not cut short. -/
def Piece.Whole : Piece → Prop
  | .pause _ => True
  | .read _ _ _ _ stop => stop ≠ []
  | .unknown _ ignored => ignored.length = lockout

/-- The piece and the rest make up the stream, and there is only a rest behind a whole piece. -/
theorem firstPiece_append (D : BitVec 32) (listening : Bool) (p : Sample) (ps : List Sample) :
    let piece := firstPiece D listening p ps
    let rest := (p :: ps).drop piece.samples.length
    piece.samples ++ rest = p :: ps ∧ (rest ≠ [] → piece.Whole) := by
  suffices h : ∃ rest, (firstPiece D listening p ps).samples ++ rest = p :: ps ∧
      (rest ≠ [] → (firstPiece D listening p ps).Whole) by
    obtain ⟨rest, happend, hwhole⟩ := h
    have hrest : (p :: ps).drop (firstPiece D listening p ps).samples.length = rest := by
      rw [← happend, List.drop_left]
    exact ⟨by rw [hrest, happend], hrest ▸ hwhole⟩
  unfold firstPiece
  split
  · dsimp only
    split
    · refine ⟨((((p :: ps).drop 8).drop 6).drop (dummyEdges D)).dropWhile Sample.selected |>.drop 1,
        ?_, ?_⟩
      · simp only [Piece.samples, List.append_assoc, List.take_append_drop,
          List.takeWhile_append_dropWhile]
      · intro hne hnil
        have hdone := (List.take_eq_nil_iff.mp hnil).resolve_left Nat.one_ne_zero
        exact hne (by rw [hdone, List.drop_nil])
    · refine ⟨((p :: ps).drop 8).drop lockout, ?_, fun hne => ?_⟩
      · simp only [Piece.samples, List.append_assoc, List.take_append_drop]
      · have hlt : lockout < ((p :: ps).drop 8).length := by
          by_contra hle
          exact hne (List.drop_eq_nil_of_le (by omega))
        simp only [Piece.Whole, List.length_take]
        omega
  · exact ⟨ps, rfl, fun _ => trivial⟩

theorem length_take_eq {l : List Sample} {n : Nat} (h : l.drop n ≠ []) : (l.take n).length = n := by
  rw [List.length_take, Nat.min_eq_left]
  by_contra hle
  exact h (List.drop_eq_nil_of_le (by omega))

/-- The phases of a quad read are cut one after the other. -/
theorem phases_cut (D : BitVec 32) (ps : List Sample) :
    let rest := ps.drop 8
    let served := (rest.drop 6).drop (dummyEdges D)
    Phases D (ps.take 8) (rest.take 6) ((rest.drop 6).take (dummyEdges D))
      (served.takeWhile Sample.selected) ((served.dropWhile Sample.selected).take 1) where
  cmd_whole h := length_take_eq fun hnil => h (by rw [hnil, List.take_nil])
  addr_le := List.length_take_le _ _
  addr_whole h := length_take_eq fun hnil => h (by rw [hnil, List.take_nil])
  dummies_le := List.length_take_le _ _
  dummies_whole h := length_take_eq fun hnil => h (by rw [hnil]; rfl)
  resp_selected p hp := by simpa [Sample.selected] using List.mem_takeWhile_imp hp
  stop_deselected p hp := by
    have hhead := List.head?_dropWhile_not Sample.selected (((ps.drop 8).drop 6).drop (dummyEdges D))
    cases hserved : (((ps.drop 8).drop 6).drop (dummyEdges D)).dropWhile Sample.selected with
    | nil => rw [hserved] at hp; cases hp
    | cons q qs =>
      rw [hserved] at hp hhead
      obtain rfl : p = q := by simpa using hp
      simpa [Sample.selected] using hhead
  stop_le := List.length_take_le _ _

/-- **One piece**: a flash that is ready for it shows what the piece shows, and is ready for the next one
if it is whole. -/
theorem shown_piece {listening : Bool} (h : Ready img listening s) (p : Sample) (ps : List Sample) :
    (periods D).trace s (firstPiece D listening p ps).samples
        = (firstPiece D listening p ps).shows D img ∧
      ((firstPiece D listening p ps).Whole →
        Ready img (firstPiece D listening p ps).listens
          ((periods D).run s (firstPiece D listening p ps).samples)) := by
  unfold firstPiece
  split
  case isFalse hsel =>
    obtain ⟨rfl, hp⟩ : listening = false ∧ p.csN ≠ 0 := by
      simpa [Sample.selected] using hsel
    obtain ⟨hready, hquiet⟩ := shown_pause (D := D) h hp
    exact ⟨congrArg (fun e => [e]) hquiet, fun _ => hready⟩
  case isTrue hsel =>
    dsimp only
    have hcons : (p :: ps).take 8 = p :: ps.take 7 := rfl
    obtain ⟨c, hcmd, htrace⟩ := shown_command (D := D) h hsel (ps.take 7) (by simp)
    rw [← hcons] at hcmd htrace
    split
    case isTrue hread =>
      obtain ⟨haddressed, hready⟩ := (phases_cut D (p :: ps)).shown_addressed hcmd hread
      simp only [Piece.samples, Piece.shows, List.append_assoc]
      rw [Mealy.trace_append, Mealy.run_append, htrace, haddressed]
      exact ⟨rfl, hready⟩
    case isFalse hunknown =>
      simp only [Piece.samples, Piece.shows]
      rw [Mealy.trace_append, Mealy.run_append, htrace]
      by_cases hnil : (p :: ps).drop 8 = []
      · rw [hnil, List.take_nil]
        exact ⟨rfl, fun h => absurd h (by simp [Piece.Whole, lockout])⟩
      · have hlen := length_take_eq hnil
        have hlocked : Locked img 0 ((periods D).run s ((p :: ps).take 8)) :=
          ⟨hcmd.phase, by rw [hcmd.cnt, hlen], by rwa [hcmd.cmd, commandOf_eight c hlen], hcmd.holds⟩
        obtain ⟨hquiet, hready⟩ := shown_ignored (D := D) hlocked (List.length_take_le lockout _)
        rw [hquiet]
        exact ⟨rfl, hready⟩

/-- The pieces make up the stream. -/
theorem cut_samples (D : BitVec 32) (listening : Bool) (ps : List Sample) :
    (cut D listening ps).flatMap Piece.samples = ps := by
  induction listening, ps using cut.induct D with
  | case1 listening => rw [cut, List.flatMap_nil]
  | case2 listening p ps ih => rw [cut, List.flatMap_cons, ih, (firstPiece_append D listening p ps).1]

/-- **Any stream**, from any state in which a piece can begin: its effects are those of its pieces. -/
theorem shown_stream {listening : Bool} (h : Ready img listening s) (ps : List Sample) :
    (periods D).trace s ps = (cut D listening ps).flatMap (Piece.shows D img) := by
  induction listening, ps using cut.induct D generalizing s with
  | case1 listening => rw [cut]; rfl
  | case2 listening p ps ih =>
    obtain ⟨hshown, hready⟩ := shown_piece (D := D) h p ps
    obtain ⟨happend, hwhole⟩ := firstPiece_append D listening p ps
    rw [cut, List.flatMap_cons, ← hshown]
    conv_lhs => rw [← happend, Mealy.trace_append]
    congr 1
    by_cases hnil : (p :: ps).drop (firstPiece D listening p ps).samples.length = []
    · rw [hnil, cut]
      rfl
    · exact ih (hready (hwhole hnil))

/-- **What the flash makes of any bit stream.** After any `configure_region` calls on files shorter
than 2 GiB that fit the half-byte address space, and whatever is on the pins: the stream falls into
pauses, quad reads and unknown commands, and what is seen of the flash is what these show, one after
the other. -/
theorem stream_shown (cmd : BitVec 8) (cnt addr : BitVec 32) (rs : List Region)
    (hfit : ∀ r ∈ rs, r.Fits) (hshort : ∀ r ∈ rs, r.Short) :
    ∃ s, configure (State.fresh cmd cnt addr) rs = some s ∧ ∀ ps,
      (cut D false ps).flatMap Piece.samples = ps ∧
      (periods D).trace s ps = (cut D false ps).flatMap (Piece.shows D (image rs)) := by
  obtain ⟨mem, hconf, hmem⟩ := configure_image (s := State.fresh cmd cnt addr) rfl hfit hshort
  exact ⟨_, hconf, fun ps => ⟨cut_samples D false ps, shown_stream ⟨rfl, by simp, hmem⟩ ps⟩⟩

/-- A read whose address is sent to a chip that is deselected, of two nibbles, a pause, and a command
that is cut short: the read is served all the same. -/
theorem stream_shown_deselected_address :
    ∃ s, configure (State.fresh 0 0 0) [⟨some [0xab, 0xcd], 0x10⟩] = some s ∧
      (periods 11).trace s
          ([1, 1, 1, 0, 1, 0, 1, 1].map (fun b => ⟨0, b⟩)
            ++ [0, 0, 0, 0, 1, 1].map (fun n => ⟨1, n⟩) ++ List.replicate 12 ⟨0, 0⟩
            ++ [⟨1, 0⟩, ⟨1, 0⟩, ⟨0, 1⟩])
        = List.replicate 14 quiet ++ List.replicate 9 (⟨some 0, none⟩, ⟨none, none⟩)
            ++ [(⟨some 0, none⟩, ⟨some 0, some ⟨0x11, 0, 0⟩⟩),
              (⟨some 0xc, none⟩, ⟨some 0xc, some ⟨0x11, 0x22, 0xc⟩⟩),
              (⟨some 0xd, none⟩, ⟨some 0xd, some ⟨0x12, 0x23, 0xd⟩⟩),
              quiet, quiet, quiet] := by
  have hregion : ∀ r ∈ [Region.mk (some [0xab, 0xcd]) 0x10], r.Fits ∧ r.Short := by
    intro r hr
    obtain rfl : r = ⟨some [0xab, 0xcd], 0x10⟩ := by simpa using hr
    constructor <;> intro bytes hbytes <;> obtain rfl := Option.some.inj hbytes <;> decide
  obtain ⟨s, hconf, hshown⟩ := stream_shown (D := 11) 0 0 0 [⟨some [0xab, 0xcd], 0x10⟩]
    (fun r hr => (hregion r hr).1) (fun r hr => (hregion r hr).2)
  exact ⟨s, hconf, (hshown _).2.trans (by decide +kernel)⟩

end DeltaModels.Flash
