import DeltaModels.Network.Transmit

/-!
# The processes of `EthBridge`

`linkup` opens the socket, `receive` and `pack` run at the edges of the clock, and `pack` spawns
`transmit`. They share the members of the bridge; a `Turn` is one process running from one wait to
the next, and turns may come in any order.

`sockstr` is shared too: `linkup` stores the other side's address there, `transmit` sends to it, and
`receive` hands it to `recvfrom`, which stores the sender's address. A packet is therefore sent to
whoever the latest packet came from, and `sendto_remote_iff` says when that is the remote.
-/

namespace DeltaModels.Network

/-- `PROTOCOL_TYPE`. -/
inductive ProtocolType where
  | udp
  | tcp
  deriving DecidableEq, Repr

/-- `EthBridge::Configuration` with `trace_on` false, its default. With it `receive` and `transmit` would
print each packet first, and `printIPPacket` throws on one without room for both headers. -/
structure Configuration where
  protocol : ProtocolType
  remoteIp : String := "127.0.0.1"
  bridgePort : BitVec 16 := 5002
  remotePort : BitVec 16 := 5000

/-- The members that the processes share, what `pack` has spawned and what has stopped them. -/
structure EthBridge where
  rx : Rx
  tx : Tx
  spawned : Nat
  fault : Option Fault

/-- The bridge after construction. -/
def EthBridge.init (sockstr : SockAddr) : EthBridge where
  rx := Rx.init sockstr
  tx := Tx.init
  spawned := 0
  fault := none

section Link

variable (inetAddr : String → BitVec 32) (socket : ProtocolType → Int) (config : Configuration)

/-- The address of the other side. `inetAddr` is the `inet_addr` of the system. -/
def Configuration.remote : SockAddr where
  sinAddr := inetAddr config.remoteIp
  sinPort := htons config.remotePort

/-- `EthBridge::linkup`. `socket` is what the system answers to the request for a raw socket. -/
def linkup (s : EthBridge) : Except Fault EthBridge :=
  if socket config.protocol < 0 then .error (.report "ETHBRIDGE" "Error in socket creation")
  else .ok { s with rx := { s.rx with sockstr := config.remote inetAddr } }

end Link

/-- A call of `sendto`: the packet and where to. -/
structure SendTo where
  bytes : List (BitVec 8)
  dest : SockAddr
  deriving DecidableEq, Repr

/-- The call that `EthBridge::transmit` makes. -/
def EthBridge.sendto (s : EthBridge) : SendTo := ⟨s.tx.packet, s.rx.sockstr⟩

/-- `EthBridge::transmit` after the call, which has returned `sendLen`; nothing is traced. -/
def transmit (s : Tx) (sendLen errno : Int) : Except Fault Tx :=
  if sendLen < 0 then
    .error (.report "ETHBRIDGE" ("Error in tx transmit - errno: " ++ toString errno))
  else .ok { s with txPktCnt := s.txPktCnt + 1 }

/-- A process runs from one wait to the next; the socket answers when it is asked. -/
inductive Turn where
  | receive (answer : Option Received)
  | pack (txNewPkt : Bool) (txPkt : BitVec 8)
  | transmit (sendLen errno : Int)

/-- The bridge, process by process. A packet is taken only by a thread that asks for one, `transmit`
runs only when spawned, and after a fault nothing runs. -/
def bridge (config : Configuration) : Guarded Turn EthBridge SendTo where
  step s turn :=
    if s.fault.isSome then none
    else match turn with
    | .receive answer =>
      if s.rx.pc = .poll ∨ answer = none then
        some ({ s with rx := (receive config.bridgePort s.rx answer).update }, none)
      else none
    | .pack txNewPkt txPkt =>
      match pack s.tx txNewPkt txPkt with
      | .ok (tx, spawned) =>
        some ({ s with tx := tx, spawned := s.spawned + if spawned then 1 else 0 }, none)
      | .error fault => some ({ s with fault := some fault }, none)
    | .transmit sendLen errno =>
      if 0 < s.spawned then
        match transmit s.tx sendLen errno with
        | .ok tx => some ({ s with tx := tx, spawned := s.spawned - 1 }, some s.sendto)
        | .error fault =>
          some ({ s with fault := some fault, spawned := s.spawned - 1 }, some s.sendto)
      else none

/-! ## Whose address it is -/

/-- The packet that a turn takes from the socket. -/
def Turn.taken : Turn → Option Received
  | .receive answer => answer
  | _ => none

/-- The latest packet that has been taken from the socket. -/
def latestTaken (turns : List Turn) : Option Received := turns.reverse.findSome? Turn.taken

theorem latestTaken_concat (turns : List Turn) (turn : Turn) :
    latestTaken (turns ++ [turn]) = turn.taken.or (latestTaken turns) := by
  cases h : turn.taken <;> simp [latestTaken, h]

/-- `recvfrom` stores the address of the sender, and nothing else does. -/
theorem receive_sockstr (bridgePort : BitVec 16) {s : Rx} {answer : Option Received}
    (h : s.pc = .poll ∨ answer = none) :
    (receive bridgePort s answer).sockstr = (answer.map (·.sender)).getD s.sockstr := by
  cases hpc : s.pc with
  | poll =>
    have hrecvfrom : (s.recvfrom answer).sockstr = (answer.map (·.sender)).getD s.sockstr := by
      cases answer <;> rfl
    rw [← hrecvfrom]
    simp only [receive, hpc]
    split
    · split <;> rfl
    · rfl
  | deliver rem pos =>
    obtain rfl : answer = none := h.resolve_left (by rw [hpc]; exact Pc.noConfusion)
    simp only [receive, hpc]
    split <;> rfl

variable {config : Configuration} {s s' : EthBridge} {turn : Turn} {o : Option SendTo}

/-- What a turn can do to the address, and what it can send. -/
theorem bridge_step (h : (bridge config).step s turn = some (s', o)) :
    s'.rx.sockstr = (turn.taken.map (·.sender)).getD s.rx.sockstr ∧
      o = match turn with
        | .transmit _ _ => some s.sendto
        | _ => none := by
  simp only [bridge] at h
  split at h
  · cases h
  · cases turn with
    | receive answer =>
      simp only at h
      split at h
      · next hasked =>
        cases h
        exact ⟨receive_sockstr config.bridgePort hasked, rfl⟩
      · cases h
    | pack txNewPkt txPkt =>
      simp only at h
      split at h <;> cases h <;> exact ⟨rfl, rfl⟩
    | transmit sendLen errno =>
      simp only at h
      split at h
      · split at h <;> cases h <;> exact ⟨rfl, rfl⟩
      · cases h

/-- **Run lemma**: the address is that of the sender of the latest packet taken, and before the
first one what it was. -/
theorem sockstr_run {turns : List Turn} {log : List SendTo}
    (hrun : (bridge config).run s turns = some (s', log)) :
    s'.rx.sockstr = ((latestTaken turns).map (·.sender)).getD s.rx.sockstr := by
  induction turns using List.reverseRecOn generalizing s' log with
  | nil =>
    obtain ⟨rfl, -⟩ := Guarded.run_nil.mp hrun
    rfl
  | append_singleton turns turn ih =>
    obtain ⟨t, os, o, hfirst, hlast, -⟩ := Guarded.run_concat.mp hrun
    rw [(bridge_step hlast).1, ih hfirst, latestTaken_concat]
    cases turn.taken <;> rfl

/-- **Where packets go.** After `linkup`, all packets of a run are sent to the remote exactly when,
each time `transmit` runs, the latest packet taken from the socket (if any) has come from the
remote. -/
theorem sendto_remote_iff (inetAddr : String → BitVec 32) (socket : ProtocolType → Int)
    (config : Configuration) {s₀ s t : EthBridge} {turns : List Turn} {log : List SendTo}
    (hlink : linkup inetAddr socket config s₀ = .ok s)
    (hrun : (bridge config).run s turns = some (t, log)) :
    (∀ call ∈ log, call.dest = config.remote inetAddr) ↔
      ∀ before sendLen errno, before ++ [.transmit sendLen errno] <+: turns →
        ∀ r ∈ latestTaken before, r.sender = config.remote inetAddr := by
  have hlinked : s.rx.sockstr = config.remote inetAddr := by
    unfold linkup at hlink
    split at hlink
    · cases hlink
    · cases hlink
      rfl
  rw [Guarded.forall_mem_log_iff hrun]
  constructor
  · intro h before sendLen errno hbefore r hr
    obtain ⟨s', os, t', o, hreach, hstep⟩ := Guarded.run_prefix hbefore hrun
    obtain rfl : o = some s'.sendto := (bridge_step hstep).2
    have hdest : s'.rx.sockstr = config.remote inetAddr :=
      h before _ hbefore s' os t' s'.sendto hreach hstep
    rwa [sockstr_run hreach, hr] at hdest
  · intro h before turn hbefore s' os t' call hreach hstep
    have hcall := (bridge_step hstep).2
    cases turn with
    | receive answer => cases hcall
    | pack txNewPkt txPkt => cases hcall
    | transmit sendLen errno =>
      cases hcall
      show s'.rx.sockstr = config.remote inetAddr
      rw [sockstr_run hreach]
      cases hlatest : latestTaken before with
      | none => exact hlinked
      | some r => exact h before sendLen errno hbefore r hlatest

/-- `inet_addr` of the two addresses below. -/
def hostAddr (ip : String) : BitVec 32 :=
  if ip = "127.0.0.1" then 0x0100007f else 0xffffffff

/-- A packet that is not an echo comes from `sender`, and then a byte is sent. -/
def exchange (sender : SockAddr) : List Turn :=
  [.receive (some { udpPacket 5000 5002 with sender := sender }),
    .pack true 0x48, .pack false 0, .pack false 0, .transmit 1 0]

/-- A bridge with the default remote, linked up. -/
def linked : EthBridge :=
  { EthBridge.init ⟨0, 0⟩ with rx := Rx.init (Configuration.remote hostAddr { protocol := .udp }) }

/-- After a packet from the remote the byte goes to the remote. -/
theorem sendto_remote_reply :
    ∃ s t log, linkup hostAddr (fun _ => 3) { protocol := .udp } (EthBridge.init ⟨0, 0⟩) = .ok s ∧
      (bridge { protocol := .udp }).run s (exchange ⟨0x0100007f, 0x8813⟩) = some (t, log) ∧
      log.map (·.bytes) = [[0x48]] ∧
      ∀ call ∈ log, call.dest = Configuration.remote hostAddr { protocol := .udp } := by
  have hlink : linkup hostAddr (fun _ => 3) { protocol := .udp } (EthBridge.init ⟨0, 0⟩)
      = .ok linked := rfl
  have hruns : ((bridge { protocol := .udp }).run linked (exchange ⟨0x0100007f, 0x8813⟩)).map
      (fun r => r.2.map (·.bytes)) = some [[0x48]] := rfl
  obtain ⟨⟨t, log⟩, hrun, hbytes⟩ := Option.map_eq_some_iff.mp hruns
  refine ⟨linked, t, log, hlink, hrun, hbytes,
    (sendto_remote_iff hostAddr (fun _ => 3) { protocol := .udp } hlink hrun).mpr ?_⟩
  intro before sendLen errno hbefore r hr
  -- the only packet taken is the remote's
  obtain ⟨turn, hturn, htaken⟩ := List.exists_of_findSome?_eq_some hr
  have hmem : turn ∈ exchange ⟨0x0100007f, 0x8813⟩ :=
    hbefore.subset (List.mem_append_left _ (List.mem_reverse.mp hturn))
  simp only [exchange, List.mem_cons, List.not_mem_nil, or_false] at hmem
  rcases hmem with rfl | rfl | rfl | rfl | rfl <;> cases htaken
  rfl

/-- After a packet from someone else the byte goes there. -/
theorem sendto_goes_to_sender :
    ¬ ∀ (inetAddr : String → BitVec 32) (socket : ProtocolType → Int) (config : Configuration)
      (s₀ s t : EthBridge) (turns : List Turn) (log : List SendTo),
      linkup inetAddr socket config s₀ = .ok s → (bridge config).run s turns = some (t, log) →
      ∀ call ∈ log, call.dest = config.remote inetAddr := by
  intro h
  have hdest := h hostAddr (fun _ => 3) { protocol := .udp } (EthBridge.init ⟨0, 0⟩) _ _
    (exchange ⟨0x0900000a, 0⟩) _ rfl rfl ⟨[0x48], ⟨0x0900000a, 0⟩⟩
  revert hdest
  decide

end DeltaModels.Network
