import DeltaModels.Network.Transmit

/-!
# The bounds of `tx_buffer`

`pack` stores every byte that it is offered at `tx_idx` and never compares the index with the size of
the buffer. How far the index goes is therefore up to the MAC: `inside_iff` says that it stays inside
exactly when `tx_new_pkt` is never up for too long, which `FitsBuffer` reads off the samples.

One sample more is allowed to a packet that follows its predecessor too closely, since the first byte
of such a packet is not stored.
-/

namespace DeltaModels.Network

/-- Every store of the run was inside the buffer, `tx_idx` is not past its end, and nothing was sent from
beyond it. -/
def Inside (samples : List (Bool × BitVec 8)) : Prop :=
  ∃ t log, packer.run Tx.init samples = some (t, log) ∧ t.txIdx ≤ MAX_BUF_SIZE ∧
    ∀ packet ∈ log, packet.length ≤ MAX_BUF_SIZE

/-- Where `tx_new_pkt` is up for more samples than the buffer has places, the first of them comes while
`pack` spawns `transmit`. -/
def FitsBuffer (samples : List (Bool × BitVec 8)) : Prop :=
  ∀ pre burst, pre ++ burst <+: samples → (∀ s ∈ burst, s.1 = true) →
    MAX_BUF_SIZE < burst.length → Framer.blind pre.reverse = true

/-! ## What a step that succeeds has done -/

variable {s t : Tx}

/-- A sample that the bridge survives has found room for its byte. -/
theorem packer_step_room {sample : Bool × BitVec 8} {o : Option (List (BitVec 8))}
    (h : packer.step s sample = some (t, o)) (hvalid : sample.1 = true) :
    s.framer.held.length < MAX_BUF_SIZE := by
  by_contra hfull
  simp only [packer, hvalid, pack_eq_error (Nat.le_of_not_lt hfull)] at h
  cases h

/-- What is ready is as long as the index says. -/
theorem length_outbox {packet : List (BitVec 8)} (h : packet ∈ s.framer.outbox) :
    packet.length = s.txIdx := by
  cases hstate : s.txState with
  | idle | processing => simp [Tx.framer, hstate, Framer.outbox] at h
  | finalizing =>
    obtain rfl : packet = s.packet := by simpa [Tx.framer, hstate, Framer.outbox] using h
    exact length_packet s

/-- **Step lemma**: a sample that the bridge survives leaves the index inside, and the packet that it
sends, if any, is too. -/
theorem packer_step_inside {sample : Bool × BitVec 8} {o : Option (List (BitVec 8))}
    (h : packer.step s sample = some (t, o)) (hs : s.txIdx ≤ MAX_BUF_SIZE) :
    t.txIdx ≤ MAX_BUF_SIZE ∧ ∀ packet ∈ o, packet.length ≤ MAX_BUF_SIZE := by
  obtain ⟨t', o', hstep, ho, -, hidx⟩ := packer_step (packer_step_room h)
  obtain ⟨rfl, rfl⟩ := Prod.mk.inj (Option.some.inj (hstep.symm.trans h))
  refine ⟨hidx hs, fun packet hpacket => ?_⟩
  have houtbox : packet ∈ s.framer.outbox := by
    rw [← ho]
    exact Option.mem_toList.mpr hpacket
  rw [length_outbox houtbox]
  exact hs

/-! ## Runs -/

/-- **Run lemma**: a run that succeeds has stayed inside. -/
theorem inside_of_run {samples : List (Bool × BitVec 8)} {log : List (List (BitVec 8))}
    (h : packer.run Tx.init samples = some (t, log)) : Inside samples := by
  have hstep : ∀ s sample s' o, True → s.txIdx ≤ MAX_BUF_SIZE → packer.step s sample = some (s', o) →
      s'.txIdx ≤ MAX_BUF_SIZE ∧ ∀ packet ∈ o, packet.length ≤ MAX_BUF_SIZE :=
    fun s sample s' o _ hs hfirst => packer_step_inside hfirst hs
  have hinit : Tx.init.txIdx ≤ MAX_BUF_SIZE := Nat.zero_le _
  refine ⟨t, log, h, ?_, ?_⟩
  · exact Guarded.run_invariant (P := fun s : Tx => s.txIdx ≤ MAX_BUF_SIZE) (A := fun _ => True)
      (fun s sample s' o hok hs hfirst => (hstep s sample s' o hok hs hfirst).1) hinit
      (fun _ _ => trivial) h
  · exact Guarded.run_forall (A := fun _ => True) hstep hinit (fun _ _ => trivial) h

/-- A run that succeeds has followed the framer, which never held too much. -/
theorem held_of_run {samples : List (Bool × BitVec 8)} {log : List (List (BitVec 8))}
    (h : packer.run Tx.init samples = some (t, log)) :
    t.framer = Framer.reached samples ∧
      ∀ pre, pre <+: samples → (Framer.reached pre).held.length ≤ MAX_BUF_SIZE := by
  induction samples using List.reverseRecOn generalizing t log with
  | nil =>
    obtain ⟨rfl, -⟩ := Guarded.run_nil.mp h
    refine ⟨rfl, fun pre hpre => ?_⟩
    rw [List.prefix_nil.mp hpre]
    exact Nat.zero_le _
  | append_singleton samples sample ih =>
    obtain ⟨s, os, o, hfirst, hlast, -⟩ := Guarded.run_concat.mp h
    obtain ⟨hframer, hheld⟩ := ih hfirst
    have hroom := packer_step_room hlast
    obtain ⟨t', o', hstep, -, ht', -⟩ := packer_step hroom
    obtain ⟨rfl, -⟩ := Prod.mk.inj (Option.some.inj (hstep.symm.trans hlast))
    rw [hframer, ← Framer.reached_concat] at ht'
    refine ⟨ht', fun pre hpre => ?_⟩
    rcases List.prefix_concat_iff.mp hpre with rfl | hpre
    · rw [Framer.reached_concat, ← hframer]
      exact Framer.length_held_step_le hroom
    · exact hheld pre hpre

/-- **When the index stays inside**: at every time of a run exactly if no burst of `tx_new_pkt` is too
long for the buffer. -/
theorem inside_iff (samples : List (Bool × BitVec 8)) :
    (∀ pre, pre <+: samples → Inside pre) ↔ FitsBuffer samples := by
  rw [FitsBuffer, ← Framer.held_le_iff]
  constructor
  · intro h
    obtain ⟨t, log, hrun, -⟩ := h samples (List.prefix_refl _)
    exact (held_of_run hrun).2
  · intro h pre hpre
    obtain ⟨t, hrun, -⟩ := packer_follows fun pre' hpre' => h pre' (hpre'.trans hpre)
    exact inside_of_run hrun

/-- A packet of 1025 bytes does not stay inside. -/
theorem inside_not_1025 : ¬ ∀ samples, ∀ pre, pre <+: samples → Inside pre := by
  intro h
  let burst : List (Bool × BitVec 8) := List.replicate 1025 (true, 0)
  have hburst : ∀ s ∈ burst, s.1 = true := fun s hs => by rw [List.eq_of_mem_replicate hs]
  obtain ⟨t, log, hrun, -⟩ := h burst burst (List.prefix_refl _)
  have hheld := (held_of_run hrun).2 burst (List.prefix_refl _)
  have hidle : ∀ packet, Framer.reached ([] : List (Bool × BitVec 8)) ≠ .ready packet := by simp
  have hlong := (Framer.length_le_held hidle hburst).2
  rw [List.nil_append] at hlong
  have hlength : burst.length = MAX_BUF_SIZE + 1 := List.length_replicate
  omega

end DeltaModels.Network
