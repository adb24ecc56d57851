import DeltaModels.Library.Framer
import DeltaModels.Library.Guarded
import DeltaModels.Network.Receive

/-!
# `EthBridge::pack`

The MAC offers its bytes one by one, a byte at each rising edge of the clock at which `tx_new_pkt` is
up. `pack` runs at every edge: it stores the bytes in `tx_buffer`, and when the flag has gone down it
spawns `transmit`, which sends what the buffer holds.

Spawning takes an edge of its own, at which `pack` does not look at the flag. So the bridge is a
`Framer` with a buffer (`packer_run`): with one edge between two packets the second loses its first
byte, and `pack_frames_iff` says that nothing else goes wrong.
-/

namespace DeltaModels.Network

open Bursts

/-- `state_t`. -/
inductive TxState where
  | idle
  | processing
  | finalizing
  deriving DecidableEq, Repr

/-- The members that `pack` and `transmit` use. -/
structure Tx where
  txBuffer : Nat → BitVec 8
  txPktCnt : Nat
  txState : TxState
  txIdx : Nat

/-- The bridge after construction. -/
def Tx.init : Tx where
  txBuffer := fun _ => 0
  txPktCnt := 0
  txState := .idle
  txIdx := 0

/-- `tx_buffer[tx_idx++] = (char) tx_pkt.read().to_int()`. -/
def Tx.store (s : Tx) (byte : BitVec 8) : Except Fault Tx :=
  if s.txIdx < MAX_BUF_SIZE then
    .ok { s with
      txBuffer := (Patch.single s.txIdx byte).apply s.txBuffer
      txIdx := s.txIdx + 1 }
  else .error .outOfRange

/-- `EthBridge::pack`. Beside the state it says whether it has spawned `transmit`. -/
def pack (s : Tx) (txNewPkt : Bool) (txPkt : BitVec 8) : Except Fault (Tx × Bool) :=
  match s.txState with
  | .idle =>
    if txNewPkt then
      (({ s with txIdx := 0 } : Tx).store txPkt).map fun s =>
        ({ s with txState := .processing }, false)
    else .ok (s, false)
  | .processing =>
    if txNewPkt then (s.store txPkt).map fun s => (s, false)
    else .ok ({ s with txState := .finalizing }, false)
  -- the flag is not read here
  | .finalizing => .ok ({ s with txState := .idle }, true)

/-- The packet that `transmit` gives to `sendto`: the first `tx_idx` bytes of the buffer. -/
def Tx.packet (s : Tx) : List (BitVec 8) := Patch.load s.txBuffer 0 s.txIdx

/-- The bridge from edge to edge; a spawned `transmit` runs before the next one. The log is what is
sent, and a store outside the buffer stops the run. -/
def packer : Guarded (Bool × BitVec 8) Tx (List (BitVec 8)) where
  step s sample :=
    match pack s sample.1 sample.2 with
    | .ok (s', spawned) => some (s', if spawned then some s'.packet else none)
    | .error _ => none

/-- The packets that are sent during the samples, from construction on. -/
def sent (samples : List (Bool × BitVec 8)) : Option (List (List (BitVec 8))) :=
  (packer.run Tx.init samples).map Prod.snd

/-! ## The bridge is a framer -/

/-- What the framer would be doing. -/
def Tx.framer (s : Tx) : Framer (BitVec 8) :=
  match s.txState with
  | .idle => .idle
  | .processing => .collecting s.packet
  | .finalizing => .ready s.packet

@[simp] theorem length_packet (s : Tx) : s.packet.length = s.txIdx := Patch.length_load _ _ _

/-- A byte that fits goes to the end of the packet. -/
theorem store_eq {s : Tx} (h : s.txIdx < MAX_BUF_SIZE) (byte : BitVec 8) :
    ∃ t, s.store byte = .ok t ∧ t.packet = s.packet ++ [byte] := by
  refine ⟨_, if_pos h, ?_⟩
  have hconcat := Patch.load_single_concat s.txBuffer 0 s.txIdx byte
  rw [Nat.zero_add] at hconcat
  exact hconcat

/-- One more byte is one more place. -/
theorem txIdx_of_packet {s t : Tx} {byte : BitVec 8} (h : t.packet = s.packet ++ [byte]) :
    t.txIdx = s.txIdx + 1 := by
  have hlength := congrArg List.length h
  rwa [List.length_append, length_packet, length_packet] at hlength

/-- What `pack` does, in each state, where a byte that is offered fits. -/
theorem pack_eq {s : Tx} {txNewPkt : Bool} {txPkt : BitVec 8}
    (h : txNewPkt = true → s.framer.held.length < MAX_BUF_SIZE) :
    ∃ t, pack s txNewPkt txPkt = .ok (t, s.txState = .finalizing) ∧
      t.framer = s.framer.step (txNewPkt, txPkt) ∧
      (s.txState = .finalizing → t.packet = s.packet) ∧
      (s.txIdx ≤ MAX_BUF_SIZE → t.txIdx ≤ MAX_BUF_SIZE) := by
  unfold pack
  split
  · next hstate =>
    have hframer : s.framer = .idle := by simp only [Tx.framer, hstate]
    cases txNewPkt with
    | false =>
      refine ⟨s, ?_, ?_, fun _ => rfl, id⟩
      · simp [hstate]
      · rw [hframer]
        rfl
    | true =>
      -- the index starts at 0
      have hempty : ({ s with txIdx := 0 } : Tx).txIdx < MAX_BUF_SIZE := Nat.zero_lt_succ _
      obtain ⟨t, hstore, hpacket⟩ := store_eq hempty txPkt
      have hidx : t.txIdx = 1 := txIdx_of_packet hpacket
      refine ⟨{ t with txState := .processing }, ?_, ?_, by simp [hstate], fun _ => ?_⟩
      · rw [if_pos rfl, hstore, hstate]
        rfl
      · rw [hframer]
        show Framer.collecting t.packet = .collecting [txPkt]
        rw [hpacket]
        rfl
      · show t.txIdx ≤ MAX_BUF_SIZE
        rw [hidx]
        decide
  · next hstate =>
    have hframer : s.framer = .collecting s.packet := by simp only [Tx.framer, hstate]
    cases txNewPkt with
    | false =>
      refine ⟨{ s with txState := .finalizing }, ?_, ?_, fun _ => rfl, id⟩
      · simp [hstate]
      · rw [hframer]
        rfl
    | true =>
      have hfits : s.txIdx < MAX_BUF_SIZE := by
        have hheld := h rfl
        rwa [hframer, Framer.held, length_packet] at hheld
      obtain ⟨t, hstore, hpacket⟩ := store_eq hfits txPkt
      have ht : t.txState = .processing := by
        rw [Tx.store, if_pos hfits] at hstore
        cases hstore
        exact hstate
      refine ⟨t, ?_, ?_, by simp [hstate], fun _ => ?_⟩
      · rw [if_pos rfl, hstore, hstate]
        rfl
      · rw [hframer, Framer.step, if_pos rfl, ← hpacket]
        simp only [Tx.framer, ht]
      · rw [txIdx_of_packet hpacket]
        exact hfits
  · next hstate =>
    refine ⟨{ s with txState := .idle }, ?_, ?_, fun _ => rfl, id⟩
    · simp [hstate]
    · simp only [Tx.framer, hstate]
      rfl

/-- A byte that does not fit is a store outside the buffer. -/
theorem pack_eq_error {s : Tx} {txPkt : BitVec 8} (h : MAX_BUF_SIZE ≤ s.framer.held.length) :
    pack s true txPkt = .error .outOfRange := by
  cases hstate : s.txState with
  | idle | finalizing =>
    simp only [Tx.framer, hstate, Framer.held] at h
    exact absurd h (by decide)
  | processing =>
    have hfull : ¬ s.txIdx < MAX_BUF_SIZE := by
      rw [Tx.framer, hstate] at h
      simpa [Framer.held] using h
    have hstore : s.store txPkt = .error .outOfRange := if_neg hfull
    rw [pack, hstate]
    show Except.map _ (s.store txPkt) = _
    rw [hstore]
    rfl

/-- **Step lemma**: where a byte that is offered fits, the bridge does what the framer does. -/
theorem packer_step {s : Tx} {sample : Bool × BitVec 8}
    (h : sample.1 = true → s.framer.held.length < MAX_BUF_SIZE) :
    ∃ t o, packer.step s sample = some (t, o) ∧ o.toList = s.framer.outbox ∧
      t.framer = s.framer.step sample ∧ (s.txIdx ≤ MAX_BUF_SIZE → t.txIdx ≤ MAX_BUF_SIZE) := by
  obtain ⟨txNewPkt, txPkt⟩ := sample
  obtain ⟨t, hpack, hframer, hpacket, hidx⟩ := pack_eq h
  refine ⟨t, if s.txState = .finalizing then some t.packet else none, ?_, ?_, hframer, hidx⟩
  · simp [packer, hpack]
  · cases hstate : s.txState with
    | finalizing => simp [Tx.framer, hstate, Framer.outbox, hpacket hstate]
    | idle | processing => simp [Tx.framer, hstate, Framer.outbox]

/-- **Run lemma**: while what the framer holds fits the buffer, the bridge follows it and sends what it
hands over. -/
theorem packer_follows {samples : List (Bool × BitVec 8)}
    (h : ∀ pre, pre <+: samples → (Framer.reached pre).held.length ≤ MAX_BUF_SIZE) :
    ∃ t, packer.run Tx.init samples = some (t, Framer.handed samples) ∧
      t.framer = Framer.reached samples := by
  induction samples using List.reverseRecOn with
  | nil => exact ⟨Tx.init, rfl, rfl⟩
  | append_singleton samples sample ih =>
    obtain ⟨s, hrun, hframer⟩ := ih fun pre hpre => h pre (hpre.trans (List.prefix_append _ _))
    have hfits : sample.1 = true → s.framer.held.length < MAX_BUF_SIZE := by
      intro hvalid
      have hheld := h _ (List.prefix_refl _)
      rw [Framer.reached_concat, ← hframer] at hheld
      exact Framer.length_held_lt (by decide) hvalid hheld
    obtain ⟨t, o, hstep, ho, ht, -⟩ := packer_step hfits
    refine ⟨t, Guarded.run_concat.mpr ⟨s, _, o, hrun, hstep, ?_⟩, ?_⟩
    · rw [ho, hframer, Framer.handed_concat, Framer.owed]
    · rw [ht, hframer, Framer.reached_concat]

/-- No more is held than the burst that is going on. -/
theorem packer_run {samples : List (Bool × BitVec 8)} (h : AtMost MAX_BUF_SIZE samples) :
    ∃ t, packer.run Tx.init samples = some (t, Framer.handed samples) ∧
      t.framer = Framer.reached samples :=
  packer_follows fun pre hpre =>
    (Framer.length_held_le pre).trans (h.of_prefix hpre).length_pending_le

theorem sent_eq {samples : List (Bool × BitVec 8)} (h : AtMost MAX_BUF_SIZE samples) :
    sent samples = some (Framer.handed samples) := by
  obtain ⟨t, hrun, -⟩ := packer_run h
  rw [sent, hrun, Option.map_some]

/-! ## What is sent -/

/-- **When the packets are the runs.** If no run of `tx_new_pkt = 1` is too long for the buffer, one
clock after a finite sequence the packets sent are the runs that it has closed exactly when these had
two samples at least between them; and they are so at every clock of an infinite sequence exactly
when no two runs have a single sample between them. -/
theorem pack_frames_iff (samples : List (Bool × BitVec 8)) (sample : Bool × BitVec 8)
    (stream : Nat → Bool × BitVec 8) :
    (AtMost MAX_BUF_SIZE (samples ++ [sample]) →
      (sent (samples ++ [sample]) = some (closed samples) ↔ Spaced (settled samples))) ∧
    ((∀ n, AtMost MAX_BUF_SIZE (upTo stream n)) →
      ((∀ n, sent (upTo stream (n + 1)) = some (closed (upTo stream n))) ↔
        ∀ i, ¬ ((stream i).1 = true ∧ (stream (i + 1)).1 = false ∧
          (stream (i + 2)).1 = true))) := by
  have hfinite : ∀ (samples : List (Bool × BitVec 8)) (sample : Bool × BitVec 8),
      AtMost MAX_BUF_SIZE (samples ++ [sample]) →
      (sent (samples ++ [sample]) = some (closed samples) ↔ Spaced (settled samples)) := by
    intro samples sample h
    rw [sent_eq h, Option.some.injEq, Framer.handed_concat_iff]
  refine ⟨hfinite samples sample, fun h => ?_⟩
  rw [← spaced_settled_upTo_iff h]
  apply forall_congr'
  intro n
  have hbound := h (n + 1)
  rw [upTo_succ] at hbound ⊢
  exact hfinite (upTo stream n) (stream n) hbound

/-- Two runs with two samples between them: both packets are sent whole. -/
theorem pack_frames_two_runs :
    sent [(true, 1), (true, 2), (false, 0), (false, 0), (true, 3), (false, 0), (false, 0)]
      = some [[1, 2], [3]] := by
  have hspaced : Spaced
      (settled [(true, 1#8), (true, 2), (false, 0), (false, 0), (true, 3), (false, 0)]) := by
    show Spaced [(true, 1#8), (true, 2), (false, 0), (false, 0), (true, 3), (false, 0)]
    simp [Spaced, List.infix_cons_iff, List.cons_prefix_cons]
  exact ((pack_frames_iff [(true, 1), (true, 2), (false, 0), (false, 0), (true, 3), (false, 0)]
    (false, 0) fun _ => (false, 0)).1 (by decide)).mpr hspaced

/-- With a single sample between them the second packet loses its first byte, however long the flag
stays down after it. -/
theorem pack_drops_byte :
    ¬ ∀ (samples : List (Bool × BitVec 8)) (sample : Bool × BitVec 8),
      AtMost MAX_BUF_SIZE (samples ++ [sample]) →
      sent (samples ++ [sample]) = some (closed samples) := by
  intro h
  have hsent := h [(true, 1), (false, 0), (true, 2), (true, 3), (false, 0), (false, 0), (false, 0)]
    (false, 0) (by decide)
  revert hsent
  decide

end DeltaModels.Network
