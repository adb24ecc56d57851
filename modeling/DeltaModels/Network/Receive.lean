import DeltaModels.Library.Bursts
import DeltaModels.Library.Mealy
import DeltaModels.Library.Patch
import DeltaModels.Network.Packet
import DeltaModels.SystemC

/-!
# `EthBridge::receive`

The receiving thread asks the socket for a packet and, unless it is an echo, offers it to the MAC
byte by byte, one byte for each clock edge. `receive` is what it does between two waits; where it
waits is `Pc`.

The loop counts `rem` down from the length to 1 and indexes the buffer with it, and the flag is
cleared in the same stretch that raises it for the last byte. Of the two writes only the second is
seen, so a packet of `n` bytes is offered for `n - 1` samples (`count_run`), and no packet that is
accepted can arrive whole (`receive_faithful_iff`).
-/

namespace DeltaModels.Network

/-- `MAX_BUF_SIZE`. -/
def MAX_BUF_SIZE : Nat := 1024

/-- The address and the port of a `sockaddr_in`. -/
structure SockAddr where
  sinAddr : BitVec 32
  sinPort : BitVec 16
  deriving DecidableEq, Repr

/-- A successful `recvfrom`: what it stores in the buffer and in `sockstr`. -/
structure Received where
  bytes : List (BitVec 8)
  sender : SockAddr
  fits : bytes.length ≤ MAX_BUF_SIZE
  deriving DecidableEq, Repr

/-- Where the thread waits: in the outer loop, or in the delivery loop with `rem` bytes to go. -/
inductive Pc where
  | poll
  | deliver (rem : Nat) (pos : 0 < rem)
  deriving DecidableEq, Repr

/-- The members that the receiving thread uses, and the two signals it drives. A byte read outside
the buffer is unknown. -/
structure Rx where
  pc : Pc
  rxBuffer : Nat → BitVec 8
  recLen : Int
  rxPktCnt : Nat
  sockstr : SockAddr
  rxNewPkt : Signal (BitVec 1)
  rxPkt : Signal (Option (BitVec 8))

/-- The bridge after construction. -/
def Rx.init (sockstr : SockAddr) : Rx where
  pc := .poll
  rxBuffer := fun _ => 0
  recLen := 0
  rxPktCnt := 0
  sockstr := sockstr
  rxNewPkt := ⟨0, 0⟩
  rxPkt := ⟨some 0, some 0⟩

/-- `rx_buffer[i]`. -/
def Rx.byteAt (s : Rx) (i : Nat) : Option (BitVec 8) :=
  if i < MAX_BUF_SIZE then some (s.rxBuffer i) else none

/-- `recvfrom` with `MSG_DONTWAIT`; without a packet it returns -1 and stores nothing. -/
def Rx.recvfrom (s : Rx) : Option Received → Rx
  | none => { s with recLen := -1 }
  | some r => { s with
      rxBuffer := (Patch.span 0 r.bytes).apply s.rxBuffer
      recLen := r.bytes.length
      sockstr := r.sender }

/-- `EthBridge::receive` from one wait to the next, with `trace_on` false. `answer` is what the socket
has to give, if it is asked. -/
def receive (bridgePort : BitVec 16) (s : Rx) (answer : Option Received) : Rx :=
  match s.pc with
  | .poll =>
    let s := s.recvfrom answer
    if h : 0 < s.recLen.toNat then
      if !isEcho s.rxBuffer s.recLen.toNat bridgePort then
        { s with rxNewPkt := s.rxNewPkt.write 0, pc := .deliver s.recLen.toNat h }
      else s
    else s
  | .deliver rem _ =>
    -- `rem` runs from the length down to 1, and so does the index
    let s := { s with rxNewPkt := s.rxNewPkt.write 1, rxPkt := s.rxPkt.write (s.byteAt rem) }
    if h : 0 < rem - 1 then { s with pc := .deliver (rem - 1) h }
    -- no wait since the flag was raised: this write is the one that is seen
    else { s with rxPktCnt := s.rxPktCnt + 1, rxNewPkt := s.rxNewPkt.write 0, pc := .poll }

/-- The update phase of the kernel. -/
def Rx.update (s : Rx) : Rx := { s with rxNewPkt := s.rxNewPkt.update, rxPkt := s.rxPkt.update }

/-- What the MAC samples at an edge: is a byte offered, and the byte. -/
def Rx.sample (s : Rx) : Bool × Option (BitVec 8) := (s.rxNewPkt.read = 1, s.rxPkt.read)

/-- The thread as a machine. It runs once at the start and then at every rising edge; the output is
what the MAC samples at the edge that follows. -/
def receiver (bridgePort : BitVec 16) : Mealy (Option Received) Rx (Bool × Option (BitVec 8)) where
  step s answer :=
    let s' := (receive bridgePort s answer).update
    (s', s'.sample)

/-! ## Accepted packets -/

/-- The packet that this stretch takes from the socket and does not drop. -/
def accepted (bridgePort : BitVec 16) (s : Rx) (answer : Option Received) : Option Received :=
  match s.pc, answer with
  | .poll, some r =>
    if 0 < r.bytes.length ∧
        isEcho ((Patch.span 0 r.bytes).apply s.rxBuffer) r.bytes.length bridgePort = false then some r
    else none
  | _, _ => none

/-- The packets that a run accepts. -/
def packets (bridgePort : BitVec 16) : Rx → List (Option Received) → List Received
  | _, [] => []
  | s, answer :: rest =>
    (accepted bridgePort s answer).toList
      ++ packets bridgePort ((receiver bridgePort).step s answer).1 rest

/-- The MAC gets each accepted packet as one burst of its bytes, all of them forward or all of them
backward, and the flag is down in the end. -/
def Faithful (bridgePort : BitVec 16) (s : Rx) (answers : List (Option Received)) : Prop :=
  let seen := bursts ((receiver bridgePort).trace s answers)
  let sent := packets bridgePort s answers
  (seen = sent.map (fun r => r.bytes.map some) ∨ seen = sent.map fun r => (r.bytes.map some).reverse) ∧
    ((receiver bridgePort).run s answers).rxNewPkt.read = 0

/-! ## Counting samples -/

/-- The flag is down whenever the thread is about to ask for a packet. -/
def Quiet (s : Rx) : Prop := s.pc = .poll → s.rxNewPkt = ⟨0, 0⟩

/-- The valid samples that the packet under delivery still gets. -/
def due (s : Rx) : Nat :=
  match s.pc with
  | .poll => 0
  | .deliver rem _ => rem - 1

variable {bridgePort : BitVec 16}

/-- **Step lemma**: a sample is valid at the expense of the packet under delivery, and an accepted
packet of `n` bytes brings in `n - 1` valid samples. -/
theorem step_due (bridgePort : BitVec 16) {s : Rx} (h : Quiet s) (answer : Option Received) :
    let s' := ((receiver bridgePort).step s answer).1
    Quiet s' ∧ (if s'.rxNewPkt.read = 1 then 1 else 0) + due s'
      = due s + ((accepted bridgePort s answer).toList.map (·.bytes.length - 1)).sum := by
  intro s'
  have hs' : s' = (receive bridgePort s answer).update := rfl
  clear_value s'
  subst hs'
  cases hpc : s.pc with
  | poll =>
    -- nothing comes, an empty packet, an echo, or a packet that is accepted
    have hflag := h hpc
    cases answer with
    | none => simp [receive, accepted, hpc, Rx.recvfrom, Rx.update, Quiet, due, hflag, Signal.update,
        Signal.read]
    | some r =>
      by_cases hlen : 0 < r.bytes.length
      · cases hecho : isEcho ((Patch.span 0 r.bytes).apply s.rxBuffer) r.bytes.length bridgePort with
        | true => simp [receive, accepted, hpc, Rx.recvfrom, Rx.update, Quiet, due, hflag, hecho, hlen,
            Signal.update, Signal.read]
        | false => simp [receive, accepted, hpc, Rx.recvfrom, Rx.update, Quiet, due, hecho, hlen,
            Signal.update, Signal.read, Signal.write]
      · simp [receive, accepted, hpc, Rx.recvfrom, Rx.update, Quiet, due, hflag, hlen, Signal.update,
          Signal.read]
  | deliver rem pos =>
    by_cases hlast : 0 < rem - 1
    · simp only [receive, accepted, hpc, Rx.update, Quiet, due, hlast, Signal.update, Signal.read,
        Signal.write, dif_pos]
      simp
      omega
    · simp only [receive, accepted, hpc, Rx.update, Quiet, due, hlast, Signal.update, Signal.read,
        Signal.write, dif_neg, not_false_iff]
      simp
      omega

/-- **Run lemma**: a run that leaves no packet under delivery offers `n - 1` bytes for each accepted
packet of `n` bytes. -/
theorem count_run {s : Rx} (h : Quiet s) (answers : List (Option Received))
    (hend : ((receiver bridgePort).run s answers).pc = .poll) :
    (Bursts.valid ((receiver bridgePort).trace s answers)).length
      = due s + ((packets bridgePort s answers).map (·.bytes.length - 1)).sum := by
  induction answers generalizing s with
  | nil =>
    have hdue : due s = 0 := by
      have hpc : s.pc = .poll := hend
      simp only [due, hpc]
    simp [packets, Bursts.valid, hdue]
  | cons answer rest ih =>
    obtain ⟨hquiet, hcount⟩ := step_due bridgePort h answer
    have hrest := ih hquiet hend
    have hvalid : (Bursts.valid ((receiver bridgePort).trace s (answer :: rest))).length
        = (if ((receiver bridgePort).step s answer).1.rxNewPkt.read = 1 then 1 else 0)
          + (Bursts.valid ((receiver bridgePort).trace ((receiver bridgePort).step s answer).1
              rest)).length := by
      have hsample : ((receiver bridgePort).step s answer).2
          = ((receiver bridgePort).step s answer).1.sample := rfl
      rw [Mealy.trace_cons, Bursts.length_valid_cons, hsample]
      simp only [Rx.sample, decide_eq_true_eq]
    rw [hvalid, hrest, packets, List.map_append, List.sum_append]
    omega

/-- Only packets with bytes are accepted. -/
theorem accepted_length_pos {s : Rx} {answer : Option Received} {r : Received}
    (h : accepted bridgePort s answer = some r) : 0 < r.bytes.length := by
  unfold accepted at h
  split at h
  · split at h
    · next hr =>
      cases h
      exact hr.1
    · cases h
  · cases h

theorem packets_length_pos {s : Rx} {answers : List (Option Received)} {r : Received}
    (h : r ∈ packets bridgePort s answers) : 0 < r.bytes.length := by
  induction answers generalizing s with
  | nil => simp [packets] at h
  | cons answer rest ih =>
    rw [packets, List.mem_append, Option.mem_toList] at h
    rcases h with h | h
    · exact accepted_length_pos h
    · exact ih h

/-- The flag is down after a run that leaves no packet under delivery. -/
theorem quiet_run {s : Rx} (h : Quiet s) (answers : List (Option Received)) :
    Quiet ((receiver bridgePort).run s answers) :=
  (receiver bridgePort).run_invariant (P := Quiet)
    (fun _ answer (_ : True) hs => (step_due bridgePort hs answer).1) h fun _ _ => trivial

/-- One sample less for each packet leaves no packet whole. -/
theorem eq_nil_of_sum_eq {rs : List Received} (hpos : ∀ r ∈ rs, 0 < r.bytes.length)
    (h : (rs.map (·.bytes.length - 1)).sum = (rs.map (·.bytes.length)).sum) : rs = [] := by
  have hsum : (rs.map (·.bytes.length)).sum = (rs.map (·.bytes.length - 1)).sum + rs.length := by
    clear h
    induction rs with
    | nil => rfl
    | cons r rs ih =>
      have hr := hpos r (by simp)
      have hrs := ih fun q hq => hpos q (by simp [hq])
      simp only [List.map_cons, List.sum_cons, List.length_cons]
      omega
  exact List.length_eq_zero_iff.mp (by omega)

/-- **No accepted packet arrives whole.** In every run of a constructed bridge that leaves no packet
under delivery, the MAC gets exactly the accepted packets if and only if none was accepted. -/
theorem receive_faithful_iff (bridgePort : BitVec 16) (sockstr : SockAddr)
    (answers : List (Option Received))
    (hend : ((receiver bridgePort).run (Rx.init sockstr) answers).pc = .poll) :
    Faithful bridgePort (Rx.init sockstr) answers ↔
      packets bridgePort (Rx.init sockstr) answers = [] := by
  have hquiet : Quiet (Rx.init sockstr) := fun _ => rfl
  have hcount := count_run hquiet answers hend
  have hdue : due (Rx.init sockstr) = 0 := rfl
  rw [hdue, Nat.zero_add] at hcount
  constructor
  · rintro ⟨hseen, -⟩
    refine eq_nil_of_sum_eq (fun r => packets_length_pos) (hcount.symm.trans ?_)
    -- together the bursts are as long as the accepted packets
    rw [← Bursts.flatten_bursts]
    rcases hseen with hseen | hseen <;>
      simp [hseen, List.length_flatten, List.map_map, Function.comp_def]
  · intro hnone
    rw [hnone, List.map_nil, List.sum_nil, List.length_eq_zero_iff] at hcount
    refine ⟨.inl ?_, ?_⟩
    · rw [hnone, List.map_nil, Bursts.bursts_eq_nil hcount]
    · rw [quiet_run hquiet answers hend]
      rfl

/-- A UDP packet with one byte of payload. -/
def udpPacket (source dest : BitVec 16) : Received where
  bytes := [0x45, 16, 0, 29, 0x27, 0xe4, 0x40, 0, 64, 17, 0, 0, 127, 0, 0, 1, 127, 0, 0, 1,
    source.extractLsb' 8 8, source.extractLsb' 0 8, dest.extractLsb' 8 8, dest.extractLsb' 0 8,
    0, 9, 0, 0, 0x48]
  sender := ⟨0x7f000001, 0⟩
  fits := by simp [MAX_BUF_SIZE]

/-- An echo is dropped, and the MAC sees nothing. -/
theorem receive_faithful_echo : Faithful 5002 (Rx.init ⟨0, 0⟩) [some (udpPacket 5002 5000), none] :=
  (receive_faithful_iff 5002 ⟨0, 0⟩ [some (udpPacket 5002 5000), none] (by decide)).mpr (by decide)

/-- A packet of 29 bytes arrives as a burst of 28: its first byte never comes, and the burst starts
with the byte of the buffer behind the packet. -/
theorem receive_drops_first_byte :
    ¬ ∀ (bridgePort : BitVec 16) (sockstr : SockAddr) (answers : List (Option Received)),
      ((receiver bridgePort).run (Rx.init sockstr) answers).pc = .poll →
      Faithful bridgePort (Rx.init sockstr) answers := by
  intro h
  have hburst := h 5002 ⟨0, 0⟩ (some (udpPacket 5000 5002) :: List.replicate 29 none) (by decide)
  revert hburst
  unfold Faithful
  decide

end DeltaModels.Network
