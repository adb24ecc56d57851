import DeltaModels.Network.Receive

/-!
# What the MAC gets of a packet

No accepted packet arrives whole, and this file says what arrives instead. Taken from the index of the
delivery loop, a packet of `n` bytes is offered as `rx_buffer[n], rx_buffer[n - 1], .., rx_buffer[2]`: its
bytes backward without the first two, and in front of them the byte of the buffer behind the packet.
That byte is what an earlier packet has left there, an echo as well as one that was accepted.

So the bursts of a whole run are a function of the packets that were taken from the socket
(`mac_sees`). The state of the run is given by three things: the packets taken so far, which make up
the buffer, the burst that the MAC has collected, and the bytes it is still to be offered.
-/

namespace DeltaModels.Network

open Bursts

/-! ## The bursts as a function of the packets -/

/-- The packets that a run takes from the socket, in order. -/
def fetched (bridgePort : BitVec 16) : Rx → List (Option Received) → List Received
  | _, [] => []
  | s, answer :: rest =>
    (if s.pc = .poll then answer.toList else [])
      ++ fetched bridgePort ((receiver bridgePort).step s answer).1 rest

/-- What is stored in `rx_buffer` when these packets have been taken. -/
def stored (rs : List Received) : List (Patch Nat (BitVec 8)) := rs.map fun r => Patch.span 0 r.bytes

/-- `rx_buffer` after these packets. -/
def bufferAfter (rs : List Received) : Nat → BitVec 8 := Patch.replay (fun _ => 0) (stored rs)

/-- The byte behind a packet: of the latest longer packet before it, and 0 if there is none. Behind
the buffer it is unknown. -/
def behind (past : List Received) (r : Received) : Option (BitVec 8) :=
  if r.bytes.length < MAX_BUF_SIZE then
    some ((Patch.latest (stored past) r.bytes.length).getD 0)
  else none

/-- What the MAC is offered of a packet: the byte behind it, and its bytes backward without the first
two. -/
def offered (past : List Received) (r : Received) : List (Option (BitVec 8)) :=
  behind past r :: (r.bytes.drop 2).reverse.map some

/-- Something of the packet reaches the MAC: it is no echo and has two bytes at least. -/
def Offers (bridgePort : BitVec 16) (past : List Received) (r : Received) : Prop :=
  2 ≤ r.bytes.length ∧ isEcho (bufferAfter (past ++ [r])) r.bytes.length bridgePort = false

instance (bridgePort : BitVec 16) (past : List Received) (r : Received) :
    Decidable (Offers bridgePort past r) :=
  inferInstanceAs (Decidable (_ ∧ _))

/-- The bursts that the packets give, when `past` have been taken before. -/
def deliveries (bridgePort : BitVec 16) (past : List Received) :
    List Received → List (List (Option (BitVec 8)))
  | [] => []
  | r :: rs =>
    (if Offers bridgePort past r then [offered past r] else [])
      ++ deliveries bridgePort (past ++ [r]) rs

variable {bridgePort : BitVec 16} {past : List Received} {r : Received} {s : Rx}

theorem bufferAfter_concat (past : List Received) (r : Received) :
    bufferAfter (past ++ [r]) = (Patch.span 0 r.bytes).apply (bufferAfter past) := by
  rw [bufferAfter, stored, List.map_append, List.map_singleton, Patch.replay_concat]
  rfl

/-- Inside the packet the buffer holds the packet. -/
theorem bufferAfter_inside {i : Nat} (h : i < r.bytes.length) :
    bufferAfter (past ++ [r]) i = r.bytes[i] := by
  rw [bufferAfter_concat]
  refine Patch.apply_of_some _ ?_
  rw [Patch.span, if_pos (Nat.zero_le i), Nat.sub_zero, List.getElem?_eq_getElem h]

/-- Behind the packet it holds what the packets before have left. -/
theorem bufferAfter_behind (past : List Received) (r : Received) :
    bufferAfter (past ++ [r]) r.bytes.length
      = (Patch.latest (stored past) r.bytes.length).getD 0 := by
  rw [bufferAfter_concat, Patch.apply_of_none, bufferAfter, Patch.replay_eq]
  rw [Patch.span, if_pos (Nat.zero_le _), List.getElem?_eq_none (by omega)]

/-! ## The bytes still to come -/

/-- The bytes that the thread offers from now on of the packet under delivery: those with the indices
from `rem` down to 2. -/
def toCome (s : Rx) : List (Option (BitVec 8)) :=
  match s.pc with
  | .poll => []
  | .deliver rem _ => (List.range' 2 (rem - 1)).reverse.map s.byteAt

theorem toCome_poll (h : s.pc = .poll) : toCome s = [] := by simp only [toCome, h]

theorem toCome_deliver {rem : Nat} {pos : 0 < rem} (h : s.pc = .deliver rem pos) :
    toCome s = (List.range' 2 (rem - 1)).reverse.map s.byteAt := by simp only [toCome, h]

/-- When a packet has just been accepted, what is to come of it is what the MAC is offered. -/
theorem toCome_accepted {pos : 0 < r.bytes.length} (hpc : s.pc = .deliver r.bytes.length pos)
    (hbuffer : s.rxBuffer = bufferAfter (past ++ [r])) :
    close (toCome s) = if 2 ≤ r.bytes.length then [offered past r] else [] := by
  rw [toCome_deliver hpc]
  by_cases hlen : 2 ≤ r.bytes.length
  · rw [if_pos hlen]
    obtain ⟨n, hn⟩ : ∃ n, r.bytes.length = n + 2 := ⟨r.bytes.length - 2, by omega⟩
    have hbehind : s.byteAt r.bytes.length = behind past r := by
      rw [Rx.byteAt, behind, hbuffer, bufferAfter_behind]
    have hinside : (List.range' 2 n).map s.byteAt = (r.bytes.drop 2).map some := by
      refine List.ext_getElem (by simp [hn]) fun i hi _ => ?_
      have hi' : i < n := by simpa using hi
      have hfits := r.fits
      simp only [List.getElem_map, List.getElem_range', List.getElem_drop, Nat.one_mul]
      rw [Rx.byteAt, if_pos (by omega), hbuffer, bufferAfter_inside (by omega)]
    have hsplit : List.range' 2 (r.bytes.length - 1) = List.range' 2 n ++ [r.bytes.length] := by
      have hpred : r.bytes.length - 1 = n + 1 := by omega
      rw [hpred, List.range'_1_concat, hn, Nat.add_comm 2 n]
    rw [hsplit, List.map_reverse, List.map_append, List.reverse_append, hinside, List.map_singleton,
      hbehind, offered, List.map_reverse]
    rfl
  · have hone : r.bytes.length - 1 = 0 := by omega
    rw [if_neg hlen, hone]
    rfl

/-! ## One stretch of the thread -/

/-- What a stretch leads to: a packet that is taken goes into the buffer, a byte that is offered is no
longer to come, and without one the burst is over. -/
structure Follows (bridgePort : BitVec 16) (past : List Received) (s s' : Rx)
    (answer : Option Received) : Prop where
  quiet : Quiet s'
  buffer : s'.rxBuffer = bufferAfter (past ++ if s.pc = .poll then answer.toList else [])
  count : s'.rxPktCnt + (if s'.pc = .poll then 0 else 1)
    = s.rxPktCnt + (if s.pc = .poll then 0 else 1) + (accepted bridgePort s answer).toList.length
  sample : s'.rxNewPkt.read = 1 ∧ toCome s = s'.rxPkt.read :: toCome s' ∧ s'.pc ≠ .poll ∨
    s'.rxNewPkt.read = 0 ∧ toCome s = [] ∧
      close (toCome s') = deliveries bridgePort past (if s.pc = .poll then answer.toList else [])

theorem accepted_some_iff (hpc : s.pc = .poll) : accepted bridgePort s (some r) = some r ↔
    0 < r.bytes.length ∧
      isEcho ((Patch.span 0 r.bytes).apply s.rxBuffer) r.bytes.length bridgePort = false := by
  simp [accepted, hpc]

/-- A packet that is not accepted goes into the buffer, and that is all. -/
theorem receive_skips (hpc : s.pc = .poll) {answer : Option Received}
    (h : accepted bridgePort s answer = none) : receive bridgePort s answer = s.recvfrom answer := by
  have hpc' : (s.recvfrom answer).pc = .poll := by cases answer <;> exact hpc
  cases answer with
  | none => simp [receive, hpc, Rx.recvfrom]
  | some r =>
    have hnot : ¬ (0 < r.bytes.length ∧
        isEcho ((Patch.span 0 r.bytes).apply s.rxBuffer) r.bytes.length bridgePort = false) := by
      rw [← accepted_some_iff hpc, h]
      exact fun hnone => Option.some_ne_none r hnone.symm
    simp only [receive, hpc, Rx.recvfrom, Int.toNat_natCast]
    split
    · next hlen =>
      split
      · next hecho => exact absurd ⟨hlen, by simpa using hecho⟩ hnot
      · rfl
    · rfl

/-- One that is accepted is delivered from here on. -/
theorem receive_accepts (hpc : s.pc = .poll) (h : accepted bridgePort s (some r) = some r) :
    ∃ pos, receive bridgePort s (some r)
      = { s.recvfrom (some r) with
          rxNewPkt := s.rxNewPkt.write 0
          pc := .deliver r.bytes.length pos } := by
  obtain ⟨hlen, hecho⟩ := (accepted_some_iff hpc).mp h
  refine ⟨hlen, ?_⟩
  simp [receive, hpc, Rx.recvfrom, hlen, hecho]

/-- **Step lemma**, where the thread asks for a packet. -/
theorem receiver_follows_poll (hpc : s.pc = .poll) (hquiet : Quiet s)
    (hbuffer : s.rxBuffer = bufferAfter past) (answer : Option Received) :
    Follows bridgePort past s (receive bridgePort s answer).update answer := by
  have hquiet' := (step_due bridgePort hquiet answer).1
  have hstored : (s.recvfrom answer).rxBuffer = bufferAfter (past ++ answer.toList) := by
    cases answer with
    | none => rw [Option.toList_none, List.append_nil, ← hbuffer]; rfl
    | some r => rw [Option.toList_some, bufferAfter_concat, ← hbuffer]; rfl
  cases haccepted : accepted bridgePort s answer with
  | none =>
    have hreceive := receive_skips hpc haccepted
    have hpc' : (s.recvfrom answer).update.pc = .poll := by cases answer <;> exact hpc
    have hflag : (s.recvfrom answer).update.rxNewPkt.read = 0 := by
      cases answer <;> exact congrArg Signal.next (hquiet hpc)
    have hcount : (s.recvfrom answer).update.rxPktCnt = s.rxPktCnt := by cases answer <;> rfl
    have hnone : deliveries bridgePort past answer.toList = [] := by
      cases answer with
      | none => rfl
      | some r =>
        have hskip : ¬ Offers bridgePort past r := by
          rintro ⟨hlen, hecho⟩
          rw [bufferAfter_concat, ← hbuffer] at hecho
          have hsome := (accepted_some_iff hpc).mpr ⟨by omega, hecho⟩
          rw [haccepted] at hsome
          cases hsome
        simp [deliveries, hskip]
    rw [hreceive]
    refine ⟨hreceive ▸ hquiet', ?_, ?_, .inr ⟨hflag, toCome_poll hpc, ?_⟩⟩
    · rw [if_pos hpc]
      exact hstored
    · rw [hcount, if_pos hpc, if_pos hpc', haccepted]
      rfl
    · rw [toCome_poll hpc', if_pos hpc, hnone]
      rfl
  | some r =>
    obtain rfl : answer = some r := by
      simp only [accepted, hpc] at haccepted
      split at haccepted <;> simp_all
    obtain ⟨hlen, hecho⟩ := (accepted_some_iff hpc).mp haccepted
    obtain ⟨pos, hreceive⟩ := receive_accepts hpc haccepted
    rw [hbuffer, ← bufferAfter_concat] at hecho
    have hpc' : (receive bridgePort s (some r)).update.pc = .deliver r.bytes.length pos := by
      rw [hreceive]
      rfl
    have hbuffer' : (receive bridgePort s (some r)).update.rxBuffer = bufferAfter (past ++ [r]) := by
      rw [hreceive]
      exact hstored
    refine ⟨hquiet', ?_, ?_, .inr ⟨?_, toCome_poll hpc, ?_⟩⟩
    · rw [if_pos hpc]
      exact hbuffer'
    · rw [if_pos hpc, haccepted, hreceive]
      rfl
    · rw [hreceive]
      rfl
    · rw [if_pos hpc, toCome_accepted hpc' hbuffer']
      simp [deliveries, Offers, hecho]

/-- **Step lemma**, where a packet is under delivery. -/
theorem receiver_follows_deliver {rem : Nat} {pos : 0 < rem} (hpc : s.pc = .deliver rem pos)
    (hquiet : Quiet s) (hbuffer : s.rxBuffer = bufferAfter past) (answer : Option Received) :
    Follows bridgePort past s (receive bridgePort s answer).update answer := by
  have hquiet' := (step_due bridgePort hquiet answer).1
  have hasks : ¬ s.pc = .poll := by simp [hpc]
  by_cases hlast : 0 < rem - 1
  · obtain ⟨n, rfl⟩ : ∃ n, rem = n + 2 := ⟨rem - 2, by omega⟩
    have hpc' : (receive bridgePort s answer).update.pc = .deliver (n + 1) (Nat.succ_pos n) := by
      simp [receive, hpc, Rx.update]
    have hbyte : (receive bridgePort s answer).update.byteAt = s.byteAt := by
      funext i
      simp [receive, hpc, Rx.update, Rx.byteAt]
    have hcome : toCome s
        = s.byteAt (n + 2) :: toCome (receive bridgePort s answer).update := by
      have hpred : n + 2 - 1 = n + 1 := rfl
      rw [toCome_deliver hpc, toCome_deliver hpc', hbyte, hpred, Nat.add_sub_cancel,
        List.range'_1_concat, List.reverse_concat, List.map_cons, Nat.add_comm 2 n]
    refine ⟨hquiet', ?_, ?_, .inl ⟨?_, ?_, ?_⟩⟩
    · simp [receive, hpc, Rx.update, hbuffer]
    · simp [receive, accepted, hpc, Rx.update]
    · simp [receive, hpc, Rx.update, Signal.update, Signal.read, Signal.write]
    · rw [hcome]
      simp [receive, hpc, Rx.update, Signal.update, Signal.read, Signal.write]
    · simp [hpc']
  · obtain rfl : rem = 1 := by omega
    refine ⟨hquiet', ?_, ?_, .inr ⟨?_, toCome_deliver hpc, ?_⟩⟩
    all_goals simp [receive, accepted, hpc, Rx.update, hbuffer, toCome, close, deliveries,
      Signal.update, Signal.read, Signal.write]

/-- **Step lemma.** -/
theorem receiver_follows (bridgePort : BitVec 16) (hquiet : Quiet s)
    (hbuffer : s.rxBuffer = bufferAfter past) (answer : Option Received) :
    Follows bridgePort past s ((receiver bridgePort).step s answer).1 answer := by
  cases hpc : s.pc with
  | poll => exact receiver_follows_poll hpc hquiet hbuffer answer
  | deliver rem pos => exact receiver_follows_deliver hpc hquiet hbuffer answer

/-! ## A whole run -/

theorem deliveries_append (past rs qs : List Received) : deliveries bridgePort past (rs ++ qs)
    = deliveries bridgePort past rs ++ deliveries bridgePort (past ++ rs) qs := by
  induction rs generalizing past with
  | nil => simp [deliveries]
  | cons r rs ih => simp [deliveries, ih]

/-- **Run lemma**: the burst that is going on is completed by the bytes still to come, and then the
packets that are taken give theirs. -/
theorem receiver_run (hquiet : Quiet s) (hbuffer : s.rxBuffer = bufferAfter past)
    (answers : List (Option Received)) (hend : ((receiver bridgePort).run s answers).pc = .poll)
    (cur : List (Option (BitVec 8))) (hcur : s.pc = .poll → cur = []) :
    after cur ((receiver bridgePort).trace s answers)
        = close (cur ++ toCome s) ++ deliveries bridgePort past (fetched bridgePort s answers) ∧
      ((receiver bridgePort).run s answers).rxBuffer
        = bufferAfter (past ++ fetched bridgePort s answers) ∧
      ((receiver bridgePort).run s answers).rxPktCnt
        = s.rxPktCnt + (if s.pc = .poll then 0 else 1) + (packets bridgePort s answers).length := by
  induction answers generalizing s past cur with
  | nil =>
    have hpc : s.pc = .poll := hend
    refine ⟨?_, ?_, ?_⟩
    · rw [hcur hpc, toCome_poll hpc]
      rfl
    · rw [fetched, List.append_nil]
      exact hbuffer
    · rw [if_pos hpc]
      rfl
  | cons answer answers ih =>
    have hstep := receiver_follows bridgePort hquiet hbuffer answer
    have hsample : ((receiver bridgePort).step s answer).2
        = ((receiver bridgePort).step s answer).1.sample := rfl
    rw [Mealy.trace_cons, hsample, Mealy.run_cons, fetched, packets]
    rw [Mealy.run_cons] at hend
    generalize ((receiver bridgePort).step s answer).1 = s' at hstep hend ⊢
    rcases hstep.sample with ⟨hflag, hcome, hbusy⟩ | ⟨hflag, hcome, hnew⟩
    · -- one more byte of the burst that is going on
      have hasks : ¬ s.pc = .poll := by
        intro hpc
        rw [toCome_poll hpc] at hcome
        cases hcome
      obtain ⟨hbursts, hend', hcount⟩ :=
        ih hstep.quiet hstep.buffer hend (cur ++ [s'.rxPkt.read]) fun hpc => absurd hpc hbusy
      have hsplit : s'.sample = (true, s'.rxPkt.read) := by simp [Rx.sample, hflag]
      rw [if_neg hasks, List.append_nil] at hbursts hend'
      rw [if_neg hasks, List.nil_append, hsplit, after, hbursts, hcome, hcount, List.append_assoc]
      refine ⟨rfl, hend', ?_⟩
      rw [hstep.count, if_neg hasks, List.length_append, Nat.add_assoc]
    · obtain ⟨hbursts, hend', hcount⟩ := ih hstep.quiet hstep.buffer hend [] fun _ => rfl
      have hsplit : s'.sample = (false, s'.rxPkt.read) := by simp [Rx.sample, hflag]
      rw [hsplit, after, hbursts, hcome, List.append_nil, List.nil_append, hnew, deliveries_append,
        ← List.append_assoc, hcount, hstep.count, List.length_append, ← Nat.add_assoc]
      exact ⟨rfl, hend'.trans (by rw [List.append_assoc]), rfl⟩

/-- **What the MAC sees.** In every run of a constructed bridge that leaves no packet under delivery,
each packet taken from the socket that is no echo and has two bytes at least gives one burst, in
order: the byte of the buffer behind it and its bytes backward without the first two. The bridge counts
the packets that are no echo, and the buffer is what all of them have left. -/
theorem mac_sees (bridgePort : BitVec 16) (sockstr : SockAddr) (answers : List (Option Received))
    (hend : ((receiver bridgePort).run (Rx.init sockstr) answers).pc = .poll) :
    bursts ((receiver bridgePort).trace (Rx.init sockstr) answers)
        = deliveries bridgePort [] (fetched bridgePort (Rx.init sockstr) answers) ∧
      ((receiver bridgePort).run (Rx.init sockstr) answers).rxBuffer
        = bufferAfter (fetched bridgePort (Rx.init sockstr) answers) ∧
      ((receiver bridgePort).run (Rx.init sockstr) answers).rxPktCnt
        = (packets bridgePort (Rx.init sockstr) answers).length := by
  obtain ⟨hbursts, hbuffer, hcount⟩ :=
    @receiver_run bridgePort [] (Rx.init sockstr) (fun _ => rfl) rfl answers hend [] fun _ => rfl
  refine ⟨hbursts, hbuffer, ?_⟩
  exact hcount.trans (Nat.zero_add _)

/-- An echo that is a byte longer than the packets of `udpPacket`. -/
def longerEcho : Received where
  bytes := (udpPacket 5002 5000).bytes ++ [0x77]
  sender := ⟨0x7f000001, 0⟩
  fits := by simp [MAX_BUF_SIZE, udpPacket]

/-- The last byte of the echo comes in front of the packet that follows it. -/
theorem mac_sees_stale_byte :
    bursts ((receiver 5002).trace (Rx.init ⟨0, 0⟩)
        (some longerEcho :: some (udpPacket 5000 5002) :: List.replicate 29 none))
      = [some 0x77 :: ((udpPacket 5000 5002).bytes.drop 2).reverse.map some] :=
  (mac_sees 5002 ⟨0, 0⟩ (some longerEcho :: some (udpPacket 5000 5002) :: List.replicate 29 none)
    (by decide)).1.trans (by decide)

end DeltaModels.Network
