import DeltaModels.Network.Bridge

/-!
# The two directions of `EthBridge`

The processes of the bridge share its members, but a spawned `transmit` that runs before the next edge
finds the buffer as `pack` has left it. Then the directions do not see each other: however the turns are
interleaved, the packets that are sent are those that `pack` makes of its own samples, the receiving
thread is where its own answers have brought it, and of the other direction a packet that is sent has its
address only (`bridge_duplex`).
-/

namespace DeltaModels.Network

/-! ## One direction of a run -/

/-- What `pack` samples in its turn. -/
def Turn.sample : Turn → Option (Bool × BitVec 8)
  | .pack txNewPkt txPkt => some (txNewPkt, txPkt)
  | _ => none

/-- What the socket answers to the receiving thread in its turn. -/
def Turn.answer : Turn → Option (Option Received)
  | .receive answer => some answer
  | _ => none

/-- Where the packets of a run go: each to the sender of the latest packet that was taken before. -/
def destinations (sockstr : SockAddr) : List Turn → List SockAddr
  | [] => []
  | .receive answer :: turns => destinations ((answer.map (·.sender)).getD sockstr) turns
  | .pack _ _ :: turns => destinations sockstr turns
  | .transmit _ _ :: turns => sockstr :: destinations sockstr turns

/-- The packet of a `transmit` that has been spawned. -/
def EthBridge.unsent (s : EthBridge) : List (List (BitVec 8)) :=
  if s.spawned = 0 then [] else [s.tx.packet]

/-- What has been spawned runs before the next edge. -/
def Prompt (config : Configuration) (s : EthBridge) (turns : List Turn) : Prop :=
  ∀ pre txNewPkt txPkt, pre ++ [.pack txNewPkt txPkt] <+: turns →
    ∀ s' log, (bridge config).run s pre = some (s', log) → s'.spawned = 0

/-- The members of the transmitting side, with another count of packets. -/
def Tx.counted (s : Tx) (txPktCnt : Nat) : Tx := { s with txPktCnt := txPktCnt }

variable {config : Configuration} {s₀ s s' : EthBridge} {turns : List Turn} {turn : Turn}
  {o : Option SendTo} {log : List SendTo}

/-- Storing a byte does not look at the count, -/
theorem store_counted (p : Tx) (n : Nat) (byte : BitVec 8) :
    (p.counted n).store byte = (p.store byte).map fun q => q.counted n := by
  unfold Tx.store
  by_cases hroom : p.txIdx < MAX_BUF_SIZE
  · rw [if_pos hroom, if_pos (show (p.counted n).txIdx < MAX_BUF_SIZE from hroom)]
    rfl
  · rw [if_neg hroom, if_neg (show ¬ (p.counted n).txIdx < MAX_BUF_SIZE from hroom)]
    rfl

/-- and neither does packing. -/
theorem pack_counted (p : Tx) (n : Nat) (txNewPkt : Bool) (txPkt : BitVec 8) :
    pack (p.counted n) txNewPkt txPkt
      = (pack p txNewPkt txPkt).map fun r => (r.1.counted n, r.2) := by
  have hstate : (p.counted n).txState = p.txState := rfl
  unfold pack
  rw [hstate]
  cases p.txState with
  | idle =>
    cases txNewPkt with
    | false => rfl
    | true =>
      have hstore := store_counted { p with txState := .idle, txIdx := 0 } n txPkt
      simp only [Tx.counted, if_true] at hstore ⊢
      rw [hstore]
      cases ({ p with txState := .idle, txIdx := 0 } : Tx).store txPkt <;> rfl
  | processing =>
    cases txNewPkt with
    | false => rfl
    | true =>
      show Except.map _ ((p.counted n).store txPkt) = _
      rw [store_counted]
      cases p.store txPkt <;> rfl
  | finalizing => rfl

theorem latestTaken_cons (turn : Turn) (turns : List Turn) :
    latestTaken (turn :: turns) = (latestTaken turns).or turn.taken := by
  rw [latestTaken, List.reverse_cons, List.findSome?_append, List.findSome?_singleton]
  rfl

theorem destinations_concat (sockstr : SockAddr) (turns : List Turn) (turn : Turn) :
    destinations sockstr (turns ++ [turn]) = destinations sockstr turns ++ match turn with
      | .transmit _ _ => [((latestTaken turns).map (·.sender)).getD sockstr]
      | _ => [] := by
  induction turns generalizing sockstr with
  | nil => cases turn <;> rfl
  | cons first turns ih =>
    cases first with
    | receive answer =>
      rw [List.cons_append, destinations, ih, destinations, latestTaken_cons]
      cases turn with
      | transmit sendLen errno =>
        cases latestTaken turns <;> rfl
      | receive answer' => rfl
      | pack txNewPkt txPkt => rfl
    | pack txNewPkt txPkt =>
      rw [List.cons_append, destinations, ih, destinations, latestTaken_cons]
      cases latestTaken turns <;> rfl
    | transmit sendLen errno =>
      rw [List.cons_append, destinations, ih, destinations, latestTaken_cons]
      cases latestTaken turns <;> rfl

/-- What a turn does that leaves no fault. -/
theorem bridge_alive (h : (bridge config).step s turn = some (s', o)) (hfault : s'.fault = none) :
    (∃ answer, turn = .receive answer ∧ o = none ∧
      s' = { s with rx := ((receiver config.bridgePort).step s.rx answer).1 }) ∨
    (∃ txNewPkt txPkt tx spawned, turn = .pack txNewPkt txPkt ∧ o = none ∧
      pack s.tx txNewPkt txPkt = .ok (tx, spawned) ∧
      s' = { s with tx := tx, spawned := s.spawned + if spawned then 1 else 0 }) ∨
    ∃ sendLen errno, turn = .transmit sendLen errno ∧ o = some s.sendto ∧ 0 < s.spawned ∧
      s' = { s with tx := s.tx.counted (s.tx.txPktCnt + 1), spawned := s.spawned - 1 } := by
  simp only [bridge] at h
  split at h
  · cases h
  · cases turn with
    | receive answer =>
      simp only at h
      split at h
      · cases h
        exact .inl ⟨answer, rfl, rfl, rfl⟩
      · cases h
    | pack txNewPkt txPkt =>
      simp only at h
      split at h
      · next tx spawned hpack =>
        cases h
        exact .inr (.inl ⟨txNewPkt, txPkt, tx, spawned, rfl, rfl, hpack, rfl⟩)
      · cases h
        cases hfault
    | transmit sendLen errno =>
      simp only at h
      split at h
      · next hspawned =>
        split at h
        · next tx htransmit =>
          cases h
          unfold transmit at htransmit
          split at htransmit
          · cases htransmit
          · cases htransmit
            exact .inr (.inr ⟨sendLen, errno, rfl, rfl, hspawned, rfl⟩)
        · cases h
          cases hfault
      · cases h

/-! ## Both directions -/

/-- The transmitting side is where its samples have brought it, with a `transmit` still to run or not;
the receiving side is where its answers have brought it. -/
structure Apart (config : Configuration) (s₀ : EthBridge) (turns : List Turn) (s : EthBridge)
    (log : List SendTo) : Prop where
  tx : ∃ p, packer.run Tx.init (turns.filterMap Turn.sample)
      = some (p, log.map SendTo.bytes ++ s.unsent) ∧ s.tx = p.counted log.length
  spawned : s.spawned ≤ 1
  rx : s.rx = (receiver config.bridgePort).run s₀.rx (turns.filterMap Turn.answer)
  dest : log.map SendTo.dest = destinations s₀.rx.sockstr turns

theorem filterMap_concat_none {α β : Type} {f : α → Option β} {a : α} (h : f a = none) (l : List α) :
    (l ++ [a]).filterMap f = l.filterMap f := by
  rw [List.filterMap_append, List.filterMap_cons_none h, List.filterMap_nil, List.append_nil]

/-- A packet that `pack` hands over is sent by the `transmit` that it has spawned. -/
theorem packer_step_counted {p q : Tx} {txNewPkt : Bool} {txPkt : BitVec 8} {spawned : Bool}
    (h : pack p txNewPkt txPkt = .ok (q, spawned)) :
    packer.step p (txNewPkt, txPkt) = some (q, if spawned then some q.packet else none) := by
  simp only [packer, h]

/-- **Step lemma**: a turn of one process leaves the other direction where it is. -/
theorem apart_step (h : Apart config s₀ turns s log)
    (hrun : (bridge config).run s₀ turns = some (s, log))
    (hprompt : ∀ txNewPkt txPkt, turn = .pack txNewPkt txPkt → s.spawned = 0)
    (hstep : (bridge config).step s turn = some (s', o)) (hfault : s'.fault = none) :
    Apart config s₀ (turns ++ [turn]) s' (log ++ o.toList) := by
  obtain ⟨p, hpacker, hp⟩ := h.tx
  have hdest := destinations_concat s₀.rx.sockstr turns turn
  rcases bridge_alive hstep hfault with ⟨answer, rfl, rfl, rfl⟩ |
    ⟨txNewPkt, txPkt, tx, spawned, rfl, rfl, hpack, rfl⟩ | ⟨sendLen, errno, rfl, rfl, hspawned, rfl⟩
  · -- the receiving thread
    rw [Option.toList_none, List.append_nil]
    refine ⟨⟨p, ?_, hp⟩, h.spawned, ?_, ?_⟩
    · rw [filterMap_concat_none rfl]
      exact hpacker
    · have hanswers : (turns ++ [Turn.receive answer]).filterMap Turn.answer
          = turns.filterMap Turn.answer ++ [answer] := List.filterMap_append
      rw [hanswers, Mealy.run_concat, ← h.rx]
    · rw [hdest, List.append_nil, h.dest]
  · -- `pack`
    have hnone : s.spawned = 0 := hprompt _ _ rfl
    rw [hp, pack_counted] at hpack
    cases hq : pack p txNewPkt txPkt with
    | error fault =>
      rw [hq] at hpack
      cases hpack
    | ok r =>
      obtain ⟨q, spawned'⟩ := r
      rw [hq] at hpack
      cases hpack
      rw [Option.toList_none, List.append_nil]
      refine ⟨⟨q, ?_, rfl⟩, ?_, ?_, ?_⟩
      · have hsamples : (turns ++ [Turn.pack txNewPkt txPkt]).filterMap Turn.sample
            = turns.filterMap Turn.sample ++ [(txNewPkt, txPkt)] := List.filterMap_append
        rw [hsamples]
        refine Guarded.run_concat.mpr ⟨p, _, _, hpacker, packer_step_counted hq, ?_⟩
        rw [EthBridge.unsent, EthBridge.unsent, if_pos hnone, hnone, List.append_nil]
        cases spawned' with
        | false => simp
        | true => rfl
      · show s.spawned + _ ≤ 1
        rw [hnone]
        split <;> decide
      · rw [filterMap_concat_none rfl]
        exact h.rx
      · rw [hdest, List.append_nil, h.dest]
  · -- `transmit`
    have hone : s.spawned = 1 := by
      have hle := h.spawned
      omega
    refine ⟨⟨p, ?_, ?_⟩, ?_, ?_, ?_⟩
    · rw [filterMap_concat_none rfl, hpacker, EthBridge.unsent, EthBridge.unsent, hone]
      simp [EthBridge.sendto]
    · rw [hp]
      simp [Tx.counted]
    · show s.spawned - 1 ≤ 1
      omega
    · rw [filterMap_concat_none rfl]
      exact h.rx
    · rw [hdest, List.map_append, h.dest, ← sockstr_run hrun]
      rfl

/-- **Run lemma**: the directions stay apart. -/
theorem apart_run (htx : s₀.tx = Tx.init) (hspawned : s₀.spawned = 0) (hprompt : Prompt config s₀ turns)
    (hrun : (bridge config).run s₀ turns = some (s, log)) (hfault : s.fault = none) :
    Apart config s₀ turns s log := by
  induction turns using List.reverseRecOn generalizing s log with
  | nil =>
    obtain ⟨rfl, rfl⟩ := Guarded.run_nil.mp hrun
    refine ⟨⟨Tx.init, ?_, ?_⟩, ?_, rfl, rfl⟩
    · rw [EthBridge.unsent, if_pos hspawned]
      rfl
    · rw [htx]
      rfl
    · rw [hspawned]
      decide
  | append_singleton turns turn ih =>
    obtain ⟨t, os, o, hfirst, hlast, rfl⟩ := Guarded.run_concat.mp hrun
    have halive : t.fault = none := by
      by_contra hne
      simp [bridge, Option.isSome_iff_ne_none.mpr hne] at hlast
    have hbefore : Prompt config s₀ turns := fun pre txNewPkt txPkt hpre =>
      hprompt pre txNewPkt txPkt (hpre.trans (List.prefix_append turns [turn]))
    refine apart_step (ih hbefore hfirst halive) hfirst (fun txNewPkt txPkt hturn => ?_) hlast hfault
    subst hturn
    exact hprompt turns txNewPkt txPkt (List.prefix_refl _) t os hfirst

/-- **The directions of the bridge do not see each other.** Let what `pack` spawns run before the next edge.
In every run without a fault, however receiving turns come in between, the packets sent, and one that
may be spawned, are those that `pack` makes of its samples alone; the receiving thread, and with it what
the MAC is offered, is where the socket's answers alone have brought it; each packet goes to the sender
of the latest packet taken before it; and the packets sent are counted. -/
theorem bridge_duplex (config : Configuration) {s₀ s : EthBridge} (htx : s₀.tx = Tx.init)
    (hspawned : s₀.spawned = 0) {turns : List Turn} {log : List SendTo}
    (hprompt : Prompt config s₀ turns) (hrun : (bridge config).run s₀ turns = some (s, log))
    (hfault : s.fault = none) :
    sent (turns.filterMap Turn.sample) = some (log.map SendTo.bytes ++ s.unsent) ∧
      s.rx = (receiver config.bridgePort).run s₀.rx (turns.filterMap Turn.answer) ∧
      log.map SendTo.dest = destinations s₀.rx.sockstr turns ∧
      s.tx.txPktCnt = log.length := by
  have h := apart_run htx hspawned hprompt hrun hfault
  obtain ⟨p, hpacker, hp⟩ := h.tx
  refine ⟨?_, h.rx, h.dest, ?_⟩
  · rw [sent, hpacker, Option.map_some]
  · rw [hp]
    rfl

/-- The condition, edge by edge. -/
theorem prompt_of_take (h : ∀ k < turns.length, ((turns[k]?).bind Turn.sample).isSome = true →
    ∀ r ∈ (bridge config).run s (turns.take k), r.1.spawned = 0) : Prompt config s turns := by
  intro pre txNewPkt txPkt hpre s' log hrun
  obtain ⟨post, rfl⟩ := hpre
  have htake : (pre ++ [Turn.pack txNewPkt txPkt] ++ post).take pre.length = pre := by simp
  have hlength : pre.length < (pre ++ [Turn.pack txNewPkt txPkt] ++ post).length := by simp
  refine h pre.length hlength (by simp [Turn.sample]) (s', log) ?_
  rw [htake]
  exact hrun

/-- A packet comes in between the two bytes of one that goes out; that one goes to its sender. -/
theorem bridge_duplex_exchange :
    ∃ s log, (bridge { protocol := .udp }).run linked
        [.pack true 1, .receive (some { udpPacket 5000 5002 with sender := ⟨0x0900000a, 0⟩ }),
          .pack true 2, .pack false 0, .pack false 0, .receive none, .transmit 2 0, .pack true 3]
        = some (s, log) ∧
      sent [(true, 1), (true, 2), (false, 0), (false, 0), (true, 3)]
        = some (log.map SendTo.bytes ++ s.unsent) ∧
      log.map SendTo.dest = [⟨0x0900000a, 0⟩] ∧ s.tx.txPktCnt = log.length := by
  let turns : List Turn :=
    [.pack true 1, .receive (some { udpPacket 5000 5002 with sender := ⟨0x0900000a, 0⟩ }),
      .pack true 2, .pack false 0, .pack false 0, .receive none, .transmit 2 0, .pack true 3]
  have hruns : ((bridge { protocol := .udp }).run linked turns).map (fun r => r.1.fault)
      = some none := rfl
  obtain ⟨⟨s, log⟩, hrun, hfault⟩ := Option.map_eq_some_iff.mp hruns
  have hprompt : Prompt { protocol := .udp } linked turns := prompt_of_take (by decide)
  obtain ⟨hsent, -, hdest, hcount⟩ :=
    bridge_duplex { protocol := .udp } rfl rfl hprompt hrun hfault
  exact ⟨s, log, hrun, hsent, hdest, hcount⟩

end DeltaModels.Network
