import DeltaModels.Flash.Image
import DeltaModels.Library.BitFields

/-!
# Quad reads

A `QuadRead` is a complete transaction as a host drives it: eight command bits on `dq[0]`, six
address nibbles, the dummy cycles, any number of response cycles, and at least one cycle with the
chip deselected. The proof follows the five phases; each has an invariant that says how much of
the transaction has gone by (`Sent`, `Addressed`, `Waiting`, `Answering`), a step lemma for one clock
period, and a run lemma for the whole phase.

The first command bit is taken by the idle phase, the first address nibble by the command phase,
and the first dummy cycle by the address phase: each phase notices one edge late that it is over.
-/

namespace DeltaModels.Flash

/-- The pins at a rising edge. -/
structure Sample where
  csN : BitVec 1
  dq : BitVec 4
  deriving DecidableEq, Repr

/-- One clock period: the handler runs on the rising edge and again on the falling edge. -/
def period (D : BitVec 32) (s : State) (p : Sample) : State × (Effect 4 × Effect 4) :=
  let up := flashHandler D s (.rise p.csN p.dq)
  let down := flashHandler D up.1 .fall
  (down.1, (up.2, down.2))

/-- The flash as a machine on clock periods. -/
def periods (D : BitVec 32) : Mealy Sample State (Effect 4 × Effect 4) where
  step := period D

/-- Chip selected, with these pins. -/
def selected (dqs : List (BitVec 4)) : List Sample := dqs.map (⟨0, ·⟩)

/-- Chip deselected, with these pins. -/
def deselected (dqs : List (BitVec 4)) : List Sample := dqs.map (⟨1, ·⟩)

/-- The clock periods between the last address nibble and the first response nibble. -/
def dummyEdges (D : BitVec 32) : Nat := max 2 (D.toNat - 1)

/-- A complete quad read. The pins that the host does not drive, or that the phase does not look
at, are arbitrary. -/
structure QuadRead (D : BitVec 32) where
  addr : BitVec 24
  cmdPins : Nat → BitVec 3
  dummies : List (BitVec 4)
  resp : List (BitVec 4)
  idle : List (BitVec 4)
  dummies_length : dummies.length = dummyEdges D
  idle_ne_nil : idle ≠ []

variable {D : BitVec 32}

/-- Bit `7 - k` of the command on `dq[0]`. -/
def QuadRead.cmdSample (t : QuadRead D) (k : Nat) : BitVec 4 :=
  (t.cmdPins k).concat (CMD_QUAD_READ.getLsbD (7 - k))

/-- The address nibbles, most significant first. -/
def QuadRead.addrSample (t : QuadRead D) (k : Nat) : BitVec 4 :=
  (t.addr >>> (4 * (5 - k))).setWidth 4

/-- Everything up to the response phase. -/
def QuadRead.request (t : QuadRead D) : List Sample :=
  selected ((List.range 8).map t.cmdSample) ++ selected ((List.range 6).map t.addrSample)
    ++ selected t.dummies

def QuadRead.samples (t : QuadRead D) : List Sample :=
  t.request ++ selected t.resp ++ deselected t.idle

/-- What the flash drives on `dq` in each response period, after the rising and after the falling
edge. -/
def QuadRead.responses (s : State) (t : QuadRead D) :
    List (Option (BitVec 4) × Option (BitVec 4)) :=
  ((periods D).trace ((periods D).run s t.request) (selected t.resp)).map
    fun e => (e.1.dq, e.2.dq)

/-- The responses of one transaction after the other. -/
def session (s : State) : List (QuadRead D) → List (List (Option (BitVec 4) × Option (BitVec 4)))
  | [] => []
  | t :: ts => t.responses s :: session ((periods D).run s t.samples) ts

theorem run_selected_cons (s : State) (dq : BitVec 4) (dqs : List (BitVec 4)) :
    (periods D).run s (selected (dq :: dqs))
      = (periods D).run (period D s ⟨0, dq⟩).1 (selected dqs) := rfl

/-- One more period at the end. -/
theorem run_selected_concat (s : State) (dqs : List (BitVec 4)) (dq : BitVec 4) :
    (periods D).run s (selected (dqs ++ [dq]))
      = (period D ((periods D).run s (selected dqs)) ⟨0, dq⟩).1 := by
  rw [selected, List.map_append, List.map_singleton, Mealy.run_concat]
  rfl

/-! ## Command phase -/

/-- A period leaves the members as its rising edge does. -/
theorem period_fst (s : State) (p : Sample) :
    (period D s p).1 = (flashHandler D s (.rise p.csN p.dq)).1 := by
  simp only [period, flashHandler_fall_fst]

/-- `k` command bits have been taken. -/
structure Sent (mem : OrdMap (BitVec 32) (BitVec 8)) (k : Nat) (s : State) : Prop where
  phase : s.phase = .cmdPhase
  cnt : s.cnt = BitVec.ofNat 32 k
  cmd : s.cmd = CMD_QUAD_READ >>> (8 - k)
  mem : s.confMemory = mem

theorem bit0_concat (hi : BitVec 3) (b : Bool) :
    bit0 (hi.concat b : BitVec 4) = (BitVec.ofBool b).setWidth 8 := by
  simp [bit0]

/-- The idle phase takes the first bit. -/
theorem sent_first {s : State} (h : s.phase = .idlePhase) (t : QuadRead D) :
    Sent s.confMemory 1 (period D s ⟨0, t.cmdSample 0⟩).1 := by
  rw [period_fst]
  simp only [flashHandler, h, if_true]
  refine ⟨rfl, rfl, ?_, rfl⟩
  show bit0 (t.cmdSample 0) = _
  rw [QuadRead.cmdSample, bit0_concat]
  decide

/-- The command phase takes the others. -/
theorem sent_next {mem : OrdMap (BitVec 32) (BitVec 8)} {k : Nat} {s : State} (h : Sent mem k s)
    (hk : 0 < k) (hk8 : k < 8) (t : QuadRead D) :
    Sent mem (k + 1) (period D s ⟨0, t.cmdSample k⟩).1 := by
  have hlt : BitVec.ofNat 32 k < 8 := by
    rw [BitVec.lt_def, BitVec.toNat_ofNat]
    exact Nat.lt_of_le_of_lt (Nat.mod_le _ _) hk8
  have hbit : (BitVec.ofBool (CMD_QUAD_READ.getLsbD (7 - k))).setWidth 8
      ||| (CMD_QUAD_READ >>> (8 - k)) <<< 1 = CMD_QUAD_READ >>> (8 - (k + 1)) := by
    have hall : ∀ k < 8, 0 < k → (BitVec.ofBool (CMD_QUAD_READ.getLsbD (7 - k))).setWidth 8
        ||| (CMD_QUAD_READ >>> (8 - k)) <<< 1 = CMD_QUAD_READ >>> (8 - (k + 1)) := by decide
    exact hall k hk8 hk
  rw [period_fst]
  simp only [flashHandler, h.phase, h.cnt, if_pos hlt]
  exact ⟨rfl, (BitVec.ofNat_add k 1).symm, by rw [QuadRead.cmdSample, bit0_concat, h.cmd, hbit], h.mem⟩

/-- **Command phase**: eight periods after a selection the whole command is in. -/
theorem run_command {s : State} (h : s.phase = .idlePhase) (t : QuadRead D) :
    Sent s.confMemory 8 ((periods D).run s (selected ((List.range 8).map t.cmdSample))) := by
  have hall : ∀ n, n ≤ 7 → Sent s.confMemory (n + 1)
      ((periods D).run s (selected ((List.range (n + 1)).map t.cmdSample))) := by
    intro n
    induction n with
    | zero => exact fun _ => sent_first h t
    | succ n ih =>
      intro hn
      rw [List.range_succ, List.map_append, List.map_singleton, run_selected_concat]
      exact sent_next (ih (by omega)) (by omega) (by omega) t
  exact hall 7 (Nat.le_refl _)

/-! ## Address phase -/

/-- `k` address nibbles have been taken. -/
structure Addressed (mem : OrdMap (BitVec 32) (BitVec 8)) (a : BitVec 24) (k : Nat) (s : State) :
    Prop where
  phase : s.phase = .quadReadAddrPhase
  cnt : s.cnt = BitVec.ofNat 32 k
  addr : s.addr.toNat = a.toNat / 16 ^ (6 - k)
  mem : s.confMemory = mem

/-- Shifting a nibble in puts it below the ones before. -/
theorem toNat_shiftIn {x : BitVec 32} (n : BitVec 4) (h : x.toNat < 2 ^ 28) :
    ((x <<< 4) ||| n.setWidth 32).toNat = BitFields.join 4 x.toNat n.toNat := by
  have hn : n.toNat < 2 ^ 4 := n.isLt
  have hmod : n.toNat % 2 ^ 32 = n.toNat := Nat.mod_eq_of_lt (by omega)
  have hshift : x.toNat <<< 4 % 2 ^ 32 = x.toNat <<< 4 := by
    rw [Nat.shiftLeft_eq]; exact Nat.mod_eq_of_lt (by omega)
  rw [BitVec.toNat_or, BitVec.toNat_shiftLeft, BitVec.toNat_setWidth, hmod, hshift,
    ← Nat.shiftLeft_add_eq_or_of_lt hn, Nat.shiftLeft_eq, BitFields.join]

theorem toNat_addrSample (t : QuadRead D) (k : Nat) :
    (t.addrSample k).toNat = t.addr.toNat / 16 ^ (5 - k) % 16 := by
  rw [QuadRead.addrSample, BitVec.toNat_setWidth, BitVec.toNat_ushiftRight,
    Nat.shiftRight_eq_div_pow, Nat.pow_mul]

/-- The command phase takes the first nibble. -/
theorem addressed_first {mem : OrdMap (BitVec 32) (BitVec 8)} {s : State} (h : Sent mem 8 s)
    (t : QuadRead D) : Addressed mem t.addr 1 (period D s ⟨0, t.addrSample 0⟩).1 := by
  have hcnt : ¬ BitVec.ofNat 32 8 < 8 := by decide
  have hcmd : CMD_QUAD_READ >>> (8 - 8) = CMD_QUAD_READ := rfl
  have ha := t.addr.isLt
  rw [period_fst]
  simp only [flashHandler, h.phase, h.cnt, if_neg hcnt, h.cmd, hcmd, if_true]
  refine ⟨rfl, rfl, ?_, h.mem⟩
  show ((t.addrSample 0).setWidth 32).toNat = _
  rw [BitVec.toNat_setWidth, toNat_addrSample]
  omega

/-- The address phase takes the others. -/
theorem addressed_next {mem : OrdMap (BitVec 32) (BitVec 8)} {t : QuadRead D} {k : Nat} {s : State}
    (h : Addressed mem t.addr k s) (hk : 0 < k) (hk6 : k < 6) :
    Addressed mem t.addr (k + 1) (period D s ⟨0, t.addrSample k⟩).1 := by
  have hlt : BitVec.ofNat 32 k < BitVec.ofNat 32 (24 / 4) := by
    rw [BitVec.lt_def, BitVec.toNat_ofNat]
    exact Nat.lt_of_le_of_lt (Nat.mod_le _ _) hk6
  have ha := t.addr.isLt
  have hsmall : s.addr.toNat < 2 ^ 28 := by
    rw [h.addr]
    exact Nat.lt_of_le_of_lt (Nat.div_le_self _ _) (by omega)
  rw [period_fst]
  simp only [flashHandler, h.phase, h.cnt, if_pos hlt]
  refine ⟨rfl, (BitVec.ofNat_add k 1).symm, ?_, h.mem⟩
  show ((s.addr <<< 4) ||| (t.addrSample k).setWidth 32).toNat = _
  rw [toNat_shiftIn _ hsmall, h.addr, toNat_addrSample, BitFields.join]
  -- one nibble less to come
  have hpow : 16 ^ (6 - k) = 16 ^ (5 - k) * 16 := by rw [← pow_succ]; congr 1; omega
  rw [hpow, ← Nat.div_div_eq_div_mul]
  have hexp : 6 - (k + 1) = 5 - k := by omega
  rw [hexp]
  omega

/-- **Address phase**: six periods later the whole address is in. -/
theorem run_address {mem : OrdMap (BitVec 32) (BitVec 8)} {s : State} (h : Sent mem 8 s)
    (t : QuadRead D) :
    Addressed mem t.addr 6 ((periods D).run s (selected ((List.range 6).map t.addrSample))) := by
  have hall : ∀ n, n ≤ 5 → Addressed mem t.addr (n + 1)
      ((periods D).run s (selected ((List.range (n + 1)).map t.addrSample))) := by
    intro n
    induction n with
    | zero => exact fun _ => addressed_first h t
    | succ n ih =>
      intro hn
      rw [List.range_succ, List.map_append, List.map_singleton, run_selected_concat]
      exact addressed_next (ih (by omega)) (by omega) (by omega)
  exact hall 5 (Nat.le_refl _)

/-! ## Dummy phase -/

/-- The address is in and the dummy counter stands at `k`. -/
structure Waiting (mem : OrdMap (BitVec 32) (BitVec 8)) (a : BitVec 24) (k : Nat) (s : State) :
    Prop where
  phase : s.phase = .quadReadDummyPhase
  cnt : s.cnt.toNat = k
  addr : s.addr.toNat = a.toNat
  mem : s.confMemory = mem

/-- `k` nibbles have been answered from the memory `mem`. -/
structure Serving (mem : OrdMap (BitVec 32) (BitVec 8)) (a : BitVec 24) (k : Nat) (s : State) :
    Prop where
  phase : s.phase = .quadReadRespPhase
  cnt : s.cnt = BitVec.ofNat 32 k
  addr : s.addr.toNat = a.toNat
  reads : ∀ i, s.confMemory.read i = mem.read i

/-- `k` nibbles have been answered; the image is still there. -/
structure Answering (img : Nat → BitVec 8) (a : BitVec 24) (k : Nat) (s : State) : Prop where
  phase : s.phase = .quadReadRespPhase
  cnt : s.cnt = BitVec.ofNat 32 k
  addr : s.addr.toNat = a.toNat
  holds : Holds s.confMemory img

/-- The address phase takes the first dummy period, and the counter starts at 2. -/
theorem waiting_first {mem : OrdMap (BitVec 32) (BitVec 8)} {a : BitVec 24} {s : State}
    (h : Addressed mem a 6 s) (dq : BitVec 4) : Waiting mem a 2 (period D s ⟨0, dq⟩).1 := by
  have hcnt : ¬ BitVec.ofNat 32 6 < BitVec.ofNat 32 (24 / 4) := by decide
  rw [period_fst]
  simp only [flashHandler, h.phase, h.cnt, if_neg hcnt]
  exact ⟨rfl, rfl, by simpa using h.addr, h.mem⟩

section Clocks

variable {mem : OrdMap (BitVec 32) (BitVec 8)} {img : Nat → BitVec 8} {a : BitVec 24} {k : Nat}
  {s : State}

theorem Serving.answering (h : Serving mem a k s) (hmem : Holds mem img) : Answering img a k s :=
  ⟨h.phase, h.cnt, h.addr, fun i => (h.reads i).trans (hmem i)⟩

/-- A dummy period counts, before it compares. -/
theorem waiting_cnt (h : Waiting mem a k s) (hk : k + 1 < 2 ^ 32) : (s.cnt + 1).toNat = k + 1 := by
  have hone : (1 : BitVec 32).toNat = 1 := rfl
  rw [BitVec.toNat_add, h.cnt, hone]
  exact Nat.mod_eq_of_lt hk

/-- A dummy period that does not bring the counter up to `D` is followed by another one. -/
theorem waiting_next (h : Waiting mem a k s) (hk : k + 1 < D.toNat) (dq : BitVec 4) :
    Waiting mem a (k + 1) (period D s ⟨0, dq⟩).1 := by
  have hD := D.isLt
  have hcnt := waiting_cnt h (by omega)
  have hlt : ¬ s.cnt + 1 ≥ D := by
    rw [ge_iff_le, BitVec.le_def, hcnt]
    omega
  rw [period_fst]
  simp only [flashHandler, h.phase, if_neg hlt]
  exact ⟨rfl, hcnt, h.addr, h.mem⟩

/-- One that does is the last. -/
theorem serving_first (h : Waiting mem a k s) (hk : k + 1 < 2 ^ 32) (hD : D.toNat ≤ k + 1)
    (dq : BitVec 4) : Serving mem a 0 (period D s ⟨0, dq⟩).1 := by
  have hge : s.cnt + 1 ≥ D := by
    rw [ge_iff_le, BitVec.le_def, waiting_cnt h hk]
    exact hD
  rw [period_fst]
  simp only [flashHandler, h.phase, if_pos hge]
  exact ⟨rfl, rfl, h.addr, fun i => by rw [h.mem]⟩

/-- **Dummy phase**: the periods that bring the counter up to `D` bring the flash to the response
phase. -/
theorem run_dummies (hmem : Holds mem img) {dqs : List (BitVec 4)} (h : Waiting mem a k s)
    (hk : k + 1 < 2 ^ 32) (hne : dqs ≠ []) (hlen : k + dqs.length = max (k + 1) D.toNat) :
    Answering img a 0 ((periods D).run s (selected dqs)) := by
  induction dqs generalizing k s with
  | nil => exact absurd rfl hne
  | cons dq dqs ih =>
    have hD := D.isLt
    rw [List.length_cons] at hlen
    rw [run_selected_cons]
    by_cases hlast : dqs = []
    · -- the counter reaches `D`
      subst hlast
      rw [List.length_nil] at hlen
      exact (serving_first h hk (by omega) dq).answering hmem
    · have hpos : 0 < dqs.length := List.length_pos_of_ne_nil hlast
      exact ih (waiting_next h (by omega) dq) (by omega) hlast (by omega)

/-- **The request phase as a whole**: after command, address and dummy periods the flash is about
to answer. -/
theorem run_request {img : Nat → BitVec 8} {s : State} (h : s.phase = .idlePhase)
    (hmem : Holds s.confMemory img) (t : QuadRead D) :
    Answering img t.addr 0 ((periods D).run s t.request) := by
  have haddr := run_address (run_command h t) t
  rw [QuadRead.request, Mealy.run_append, Mealy.run_append]
  have hlen := t.dummies_length
  rw [dummyEdges] at hlen
  cases hd : t.dummies with
  | nil => rw [hd, List.length_nil] at hlen; omega
  | cons dq dqs =>
    rw [hd, List.length_cons] at hlen
    have hne : dqs ≠ [] := by rintro rfl; rw [List.length_nil] at hlen; omega
    rw [run_selected_cons]
    exact run_dummies hmem (waiting_first haddr dq) (by omega) hne (by omega)

/-! ## Response phase -/

/-- The half-byte address of the next nibble. -/
theorem serving_idx (h : Serving mem a k s) :
    s.addr * 2 + s.cnt = BitVec.ofNat 32 (2 * a.toNat + k) := by
  have htwo : (2 : BitVec 32).toNat = 2 := rfl
  apply BitVec.eq_of_toNat_eq
  rw [BitVec.toNat_add, BitVec.toNat_mul, h.addr, h.cnt, BitVec.toNat_ofNat, BitVec.toNat_ofNat, htwo]
  omega

/-- A response period drives the next nibble, on both edges, and changes no value of the memory. -/
theorem serving_next (h : Serving mem a k s) (dq : BitVec 4) :
    Serving mem a (k + 1) (period D s ⟨0, dq⟩).1 ∧
      (period D s ⟨0, dq⟩).2.1.dq
        = some ((mem.read (BitVec.ofNat 32 (2 * a.toNat + k))).setWidth 4) ∧
      (period D s ⟨0, dq⟩).2.2.dq
        = some ((mem.read (BitVec.ofNat 32 (2 * a.toNat + k))).setWidth 4) := by
  simp only [period, flashHandler, h.phase, if_true, serving_idx h, h.reads]
  refine ⟨⟨rfl, ?_, h.addr, fun i => ?_⟩, trivial, trivial⟩
  · show s.cnt + 1 = _
    rw [h.cnt, BitVec.ofNat_add]
    rfl
  · rw [OrdMap.read_subscript]
    exact h.reads i

end Clocks

/-- Each response period answers with the next nibble of the image. -/
theorem answering_step {img : Nat → BitVec 8} {a : BitVec 24} {k : Nat} {s : State}
    (h : Answering img a k s) (hk : 2 * a.toNat + k < 2 ^ 32) (dq : BitVec 4) :
    Answering img a (k + 1) (period D s ⟨0, dq⟩).1 ∧
      (period D s ⟨0, dq⟩).2.1.dq = some (nibble img (2 * a.toNat + k)) ∧
      (period D s ⟨0, dq⟩).2.2.dq = some (nibble img (2 * a.toNat + k)) := by
  have hserving : Serving s.confMemory a k s := ⟨h.phase, h.cnt, h.addr, fun _ => rfl⟩
  obtain ⟨hnext, hup, hdown⟩ := serving_next (D := D) hserving dq
  have hword : (s.confMemory.read (BitVec.ofNat 32 (2 * a.toNat + k))).setWidth 4
      = nibble img (2 * a.toNat + k) := by
    rw [h.holds, BitVec.toNat_ofNat, Nat.mod_eq_of_lt hk, BitVec.setWidth_setWidth_of_le _ (by omega),
      BitVec.setWidth_eq]
  rw [hword] at hup hdown
  exact ⟨hnext.answering h.holds, hup, hdown⟩

/-- **Response phase**: the nibbles come in order. -/
theorem trace_responses {img : Nat → BitVec 8} {a : BitVec 24} {dqs : List (BitVec 4)} {k : Nat}
    {s : State} (h : Answering img a k s) (hk : 2 * a.toNat + k + dqs.length ≤ 2 ^ 32) :
    ((periods D).trace s (selected dqs)).map (fun e => (e.1.dq, e.2.dq))
        = (List.range' k dqs.length).map
            (fun j => (some (nibble img (2 * a.toNat + j)), some (nibble img (2 * a.toNat + j)))) ∧
      Answering img a (k + dqs.length) ((periods D).run s (selected dqs)) := by
  induction dqs generalizing k s with
  | nil => exact ⟨rfl, h⟩
  | cons dq dqs ih =>
    rw [List.length_cons] at hk
    obtain ⟨hnext, hup, hdown⟩ := answering_step (D := D) h (by omega) dq
    obtain ⟨htrace, hrun⟩ := ih hnext (by omega)
    constructor
    · simp only [selected, List.map_cons, Mealy.trace_cons, List.length_cons, List.range'_succ]
      exact congrArg₂ List.cons (congrArg₂ Prod.mk hup hdown) htrace
    · rw [List.length_cons, Nat.add_comm dqs.length 1, ← Nat.add_assoc]
      exact hrun

/-! ## Whole transactions -/

/-- Deselected, an answering flash goes back to idle and stays there. -/
theorem run_deselected {img : Nat → BitVec 8} {s : State} (hmem : Holds s.confMemory img)
    (h : s.phase = .idlePhase ∨ s.phase = .quadReadRespPhase) {dqs : List (BitVec 4)}
    (hne : s.phase = .idlePhase ∨ dqs ≠ []) :
    ((periods D).run s (deselected dqs)).phase = .idlePhase ∧
      Holds ((periods D).run s (deselected dqs)).confMemory img := by
  induction dqs generalizing s with
  | nil => exact ⟨hne.resolve_right fun hnil => hnil rfl, hmem⟩
  | cons dq dqs ih =>
    have hstep : (period D s ⟨1, dq⟩).1.phase = .idlePhase ∧
        (period D s ⟨1, dq⟩).1.confMemory = s.confMemory := by
      rw [period_fst]
      rcases h with h | h <;> simp [flashHandler, h]
    exact ih (s := (period D s ⟨1, dq⟩).1) (by rw [hstep.2]; exact hmem) (.inl hstep.1) (.inl hstep.1)

/-- The nibbles that a quad read should get: at each byte the high half first. -/
def QuadRead.expected (img : Nat → BitVec 8) (t : QuadRead D) :
    List (Option (BitVec 4) × Option (BitVec 4)) :=
  (List.range t.resp.length).map fun k =>
    let byte := img (t.addr.toNat + k / 2)
    let half := if k % 2 = 0 then byte.extractLsb' 4 4 else byte.extractLsb' 0 4
    (some half, some half)

/-- **One transaction**: an idle flash answers a quad read from the image and is idle again. -/
theorem run_quadRead {img : Nat → BitVec 8} {s : State} (h : s.phase = .idlePhase)
    (hmem : Holds s.confMemory img) (t : QuadRead D)
    (ht : 2 * t.addr.toNat + t.resp.length ≤ 2 ^ 32) :
    t.responses s = t.expected img ∧ ((periods D).run s t.samples).phase = .idlePhase ∧
      Holds ((periods D).run s t.samples).confMemory img := by
  have hreq := run_request h hmem t
  obtain ⟨htrace, hrun⟩ := trace_responses (D := D) hreq (by simpa using ht)
  refine ⟨?_, ?_⟩
  · rw [QuadRead.responses, htrace, QuadRead.expected, List.range_eq_range']
    refine List.map_congr_left fun k _ => ?_
    have hparity : (2 * t.addr.toNat + k) % 2 = k % 2 := by omega
    have hbyte : (2 * t.addr.toNat + k) / 2 = t.addr.toNat + k / 2 := by omega
    simp only [nibble, hparity, hbyte]
  · rw [QuadRead.samples, Mealy.run_append, Mealy.run_append]
    exact run_deselected hrun.holds (.inr hrun.phase) (.inr t.idle_ne_nil)

/-- **Any number of transactions**: each is answered from the image, whatever came before. -/
theorem session_expected {img : Nat → BitVec 8} {s : State} (h : s.phase = .idlePhase)
    (hmem : Holds s.confMemory img) (ts : List (QuadRead D))
    (hts : ∀ t ∈ ts, 2 * t.addr.toNat + t.resp.length ≤ 2 ^ 32) :
    session s ts = ts.map (·.expected img) := by
  induction ts generalizing s with
  | nil => rfl
  | cons t ts ih =>
    obtain ⟨hresp, hidle, hmem'⟩ := run_quadRead h hmem t (hts t (by simp))
    rw [session, List.map_cons, hresp, ih hidle hmem' fun u hu => hts u (by simp [hu])]

/-- **The flash serves quad reads from its image.** After any `configure_region` calls on files
shorter than 2 GiB that fit the half-byte address space, every sequence of complete transactions
is answered, nibble by nibble, from the image that the calls stored. -/
theorem quadReads_served (cmd : BitVec 8) (cnt addr : BitVec 32) (rs : List Region)
    (hfit : ∀ r ∈ rs, r.Fits) (hshort : ∀ r ∈ rs, r.Short) (ts : List (QuadRead D))
    (hts : ∀ t ∈ ts, 2 * t.addr.toNat + t.resp.length ≤ 2 ^ 32) :
    ∃ s, configure (State.fresh cmd cnt addr) rs = some s ∧
      session s ts = ts.map (·.expected (image rs)) := by
  obtain ⟨mem, hconf, hmem⟩ :=
    configure_holds (s := State.fresh cmd cnt addr) holds_empty hfit hshort
  have himg : Patch.replay (fun _ => 0) (rs.map Region.patch) = image rs := by
    funext b; exact Patch.replay_eq _ _ b
  exact ⟨_, hconf, session_expected rfl (himg ▸ hmem) ts hts⟩

/-- Three nibbles from the middle of an image, with the default number of dummy cycles. -/
theorem quadReads_served_three_nibbles :
    ∃ s, configure (State.fresh 0 0 0) [⟨some [0xab, 0xcd], 0x10⟩] = some s ∧
      session s [(⟨0x10, fun _ => 0, List.replicate 10 0, [0, 0, 0], [0], rfl, by decide⟩ : QuadRead 11)]
        = [[(some 0xa, some 0xa), (some 0xb, some 0xb), (some 0xc, some 0xc)]] := by
  have hregion : ∀ r ∈ [Region.mk (some [0xab, 0xcd]) 0x10], r.Fits ∧ r.Short := by
    intro r hr
    obtain rfl : r = ⟨some [0xab, 0xcd], 0x10⟩ := by simpa using hr
    constructor <;> intro bytes hbytes <;> obtain rfl := Option.some.inj hbytes <;> decide
  obtain ⟨s, hconf, hsession⟩ := quadReads_served (D := 11) 0 0 0 [⟨some [0xab, 0xcd], 0x10⟩]
    (fun r hr => (hregion r hr).1) (fun r hr => (hregion r hr).2)
    [⟨0x10, fun _ => 0, List.replicate 10 0, [0, 0, 0], [0], rfl, by decide⟩]
    (by simp)
  refine ⟨s, hconf, hsession.trans ?_⟩
  decide

/-- A file of exactly 2 GiB at address 0 fits the address space, but its length is negative as an
`int`: the call throws and no transaction follows. -/
theorem configureRegion_two_gib :
    ¬ ∀ (D : BitVec 32) (cmd : BitVec 8) (cnt addr : BitVec 32) (rs : List Region),
      (∀ r ∈ rs, r.Fits) → ∀ ts : List (QuadRead D),
      (∀ t ∈ ts, 2 * t.addr.toNat + t.resp.length ≤ 2 ^ 32) →
      ∃ s, configure (State.fresh cmd cnt addr) rs = some s ∧
        session s ts = ts.map (·.expected (image rs)) := by
  intro h
  -- the list is never evaluated: all that matters is its length
  obtain ⟨bytes, hlen⟩ : ∃ bytes : List (BitVec 8), bytes.length = 2 ^ 31 :=
    ⟨List.replicate (2 ^ 31) 0, List.length_replicate⟩
  have hfit : ∀ r ∈ [Region.mk (some bytes) 0], r.Fits := by
    intro r hr bytes' hbytes
    obtain rfl : r = ⟨some bytes, 0⟩ := by simpa using hr
    obtain rfl : bytes = bytes' := Option.some.inj hbytes
    rw [hlen]
    exact Nat.le_of_eq (Nat.zero_add _)
  obtain ⟨s, hs, -⟩ := h 11 0 0 0 _ hfit [] (by simp)
  rw [configure, configureRegion_throws _ _ hlen] at hs
  exact absurd hs (by simp)

end DeltaModels.Flash
