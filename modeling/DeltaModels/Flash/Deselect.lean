import DeltaModels.Flash.Basic

/-!
# Deselecting the flash

A host ends a transaction by raising `cs_n`. The response phase looks at the pin and goes back to
idle; the command, address and dummy phases do not, so a transaction that is cut short, or an
unsupported command byte, leaves the flash in the middle of something.

`Aborted` is what a host relies on after a deselected rising edge: the phase is idle, and from here
on nothing distinguishes the model from a freshly constructed one with the same memory. The second
half holds of every idle state (`idle_eq_fresh`, by simulation), so what decides is the phase
(`deselected_idle_iff`).
-/

namespace DeltaModels.Flash

variable {IF_WIDTH : Nat} {D : BitVec 32}

/-- A constructed model with this memory. -/
def State.freshWith (cmd : BitVec 8) (cnt addr : BitVec 32) (mem : OrdMap (BitVec 32) (BitVec 8)) :
    State :=
  { State.fresh cmd cnt addr with confMemory := mem }

/-- The model is idle and answers every continuation as a fresh one with its memory does. -/
def Aborted (IF_WIDTH : Nat) (D : BitVec 32) (s : State) : Prop :=
  s.phase = .idlePhase ∧ ∀ cmd cnt addr (es : List (Edge IF_WIDTH)),
    (flash IF_WIDTH D).trace s es
      = (flash IF_WIDTH D).trace (State.freshWith cmd cnt addr s.confMemory) es

/-! ## Idle states are fresh -/

/-- The two states agree on the members that their phase still reads. -/
structure SameFrom (s t : State) : Prop where
  phase : s.phase = t.phase
  mem : s.confMemory = t.confMemory
  cnt : s.phase ≠ .idlePhase → s.cnt = t.cnt
  cmd : s.phase = .cmdPhase → s.cmd = t.cmd
  addr : s.phase ≠ .idlePhase → s.phase ≠ .cmdPhase → s.addr = t.addr
  resp : s.phase = .quadReadRespPhase → s.idx = t.idx ∧ s.word = t.word

variable {s t : State}

theorem SameFrom.ofIdle (hs : s.phase = .idlePhase) (phase : s.phase = t.phase)
    (mem : s.confMemory = t.confMemory) : SameFrom s t :=
  ⟨phase, mem, fun hn => absurd hs hn, by simp [hs], fun hn => absurd hs hn, by simp [hs]⟩

theorem SameFrom.ofCmd (hs : s.phase = .cmdPhase) (phase : s.phase = t.phase)
    (mem : s.confMemory = t.confMemory) (cnt : s.cnt = t.cnt) (cmd : s.cmd = t.cmd) : SameFrom s t :=
  ⟨phase, mem, fun _ => cnt, fun _ => cmd, fun _ hn => absurd hs hn, by simp [hs]⟩

theorem SameFrom.ofAddressed (hs : s.phase ≠ .cmdPhase) (phase : s.phase = t.phase)
    (mem : s.confMemory = t.confMemory) (cnt : s.cnt = t.cnt) (addr : s.addr = t.addr)
    (resp : s.phase = .quadReadRespPhase → s.idx = t.idx ∧ s.word = t.word) : SameFrom s t :=
  ⟨phase, mem, fun _ => cnt, fun hc => absurd hc hs, fun _ _ => addr, resp⟩

/-- **Step lemma**: on any edge such states do the same and go on agreeing. -/
theorem SameFrom.step (h : SameFrom s t) (e : Edge IF_WIDTH) :
    SameFrom (flashHandler D s e).1 (flashHandler D t e).1 ∧
      (flashHandler D s e).2 = (flashHandler D t e).2 := by
  obtain ⟨phase, cmd, cnt, addr, mem, idx, word⟩ := s
  obtain ⟨phase', cmd', cnt', addr', mem', idx', word'⟩ := t
  obtain ⟨rfl, rfl, hcnt, hcmd, haddr, hresp⟩ := h
  simp only at hcnt hcmd haddr hresp
  cases e with
  | fall =>
    -- only the response phase drives anything, and there the two states agree
    cases phase with
    | quadReadRespPhase =>
      obtain ⟨rfl, rfl⟩ := hresp rfl
      obtain rfl := hcnt (by decide)
      obtain rfl := haddr (by decide) (by decide)
      exact ⟨.ofAddressed (by simp [flashHandler]) rfl rfl rfl rfl fun _ => ⟨rfl, rfl⟩, rfl⟩
    | idlePhase | cmdPhase | quadReadAddrPhase | quadReadDummyPhase =>
      exact ⟨⟨rfl, rfl, hcnt, hcmd, haddr, hresp⟩, rfl⟩
  | rise csN dq =>
    cases phase with
    | idlePhase =>
      simp only [flashHandler]
      split
      · exact ⟨.ofCmd rfl rfl rfl rfl rfl, rfl⟩
      · exact ⟨.ofIdle rfl rfl rfl, rfl⟩
    | cmdPhase =>
      obtain rfl := hcnt (by decide)
      obtain rfl := hcmd rfl
      simp only [flashHandler]
      split
      · exact ⟨.ofCmd rfl rfl rfl rfl rfl, rfl⟩
      · split
        · exact ⟨.ofAddressed (by simp) rfl rfl rfl rfl (by simp), rfl⟩
        · exact ⟨.ofCmd rfl rfl rfl rfl rfl, rfl⟩
    | quadReadAddrPhase =>
      obtain rfl := hcnt (by decide)
      obtain rfl := haddr (by decide) (by decide)
      simp only [flashHandler]
      split <;> exact ⟨.ofAddressed (by simp) rfl rfl rfl rfl (by simp), rfl⟩
    | quadReadDummyPhase =>
      obtain rfl := hcnt (by decide)
      obtain rfl := haddr (by decide) (by decide)
      simp only [flashHandler]
      split
      · exact ⟨.ofAddressed (by simp) rfl rfl rfl rfl fun _ => ⟨rfl, rfl⟩, rfl⟩
      · exact ⟨.ofAddressed (by simp) rfl rfl rfl rfl (by simp), rfl⟩
    | quadReadRespPhase =>
      obtain rfl := hcnt (by decide)
      obtain rfl := haddr (by decide) (by decide)
      simp only [flashHandler]
      split
      · exact ⟨.ofAddressed (by simp) rfl rfl rfl rfl fun _ => ⟨rfl, rfl⟩, rfl⟩
      · exact ⟨.ofIdle rfl rfl rfl, rfl⟩

/-- The simulation of the flash by itself that `SameFrom` is. -/
def sameFrom (IF_WIDTH : Nat) (D : BitVec 32) :
    Mealy.Simulation (flash IF_WIDTH D) (flash IF_WIDTH D) fun _ => True where
  Rel := SameFrom
  step_rel _ _ e _ h := (h.step e).1
  step_out _ _ e _ h := (h.step e).2

/-- **An idle model is as good as new**: it answers every continuation as a fresh one does. -/
theorem idle_eq_fresh (h : s.phase = .idlePhase) (cmd : BitVec 8)
    (cnt addr : BitVec 32) (es : List (Edge IF_WIDTH)) :
    (flash IF_WIDTH D).trace s es
      = (flash IF_WIDTH D).trace (State.freshWith cmd cnt addr s.confMemory) es := by
  have hsame : SameFrom s (State.freshWith cmd cnt addr s.confMemory) := .ofIdle h h rfl
  exact (sameFrom IF_WIDTH D).trace_eq hsame fun _ _ => trivial

/-! ## Deselected edges -/

/-- Only the idle and the response phase obey a deselected rising edge. -/
theorem deselected_idle_iff (s : State) (dq : BitVec IF_WIDTH) :
    (flashHandler D s (.rise 1 dq)).1.phase = .idlePhase ↔
      s.phase = .idlePhase ∨ s.phase = .quadReadRespPhase := by
  simp only [flashHandler]
  split
  · next h => simp [h]
  · next h => repeat' split
              all_goals simp [h]
  · next h => split <;> simp [h]
  · next h => split <;> simp [h]
  · next h => simp [h]

/-- **Deselecting aborts exactly the idle and the response phase.** In every run of a model with any
memory, every deselected rising edge leaves the model idle and as good as new if and only if every
one of them comes in the idle or the response phase. -/
theorem deselect_aborts_iff (D : BitVec 32) (cmd : BitVec 8) (cnt addr : BitVec 32)
    (mem : OrdMap (BitVec 32) (BitVec 8)) (es : List (Edge IF_WIDTH)) :
    let s₀ := State.freshWith cmd cnt addr mem
    (∀ pre dq, pre ++ [.rise 1 dq] <+: es →
      Aborted IF_WIDTH D ((flash IF_WIDTH D).run s₀ (pre ++ [.rise 1 dq]))) ↔
    (∀ pre dq, pre ++ [.rise 1 dq] <+: es →
      ((flash IF_WIDTH D).run s₀ pre).phase = .idlePhase ∨
        ((flash IF_WIDTH D).run s₀ pre).phase = .quadReadRespPhase) := by
  intro s₀
  refine forall_congr' fun pre => forall_congr' fun dq => imp_congr_right fun _ => ?_
  rw [Mealy.run_concat, ← deselected_idle_iff (D := D) _ dq]
  exact ⟨fun h => h.1, fun h => ⟨h, idle_eq_fresh h⟩⟩

/-- A host that deselects after the first command bit finds the flash still in the command
phase. -/
theorem deselect_ignored :
    ¬ ∀ (D : BitVec 32) (cmd : BitVec 8) (cnt addr : BitVec 32)
      (mem : OrdMap (BitVec 32) (BitVec 8)) (es : List (Edge 4)),
      ∀ pre dq, pre ++ [.rise 1 dq] <+: es →
        Aborted 4 D ((flash 4 D).run (State.freshWith cmd cnt addr mem) (pre ++ [.rise 1 dq])) := by
  intro h
  have hphase := (h 11 0 0 0 ∅ [.rise 0 1, .fall, .rise 1 0] [.rise 0 1, .fall] 0
    (List.prefix_refl _)).1
  revert hphase
  decide

end DeltaModels.Flash
