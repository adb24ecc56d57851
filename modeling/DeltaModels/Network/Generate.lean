import DeltaModels.Network.Delivery
import DeltaModels.Network.Helpers
import Mathlib.Tactic.IntervalCases

/-!
# `generateIPPacket`

The packets that the test benches send are written by `generateIPPacket`: an IP header of five words, a
UDP header and the payload. It stores field by field, the bit fields of the first byte into what is
there already, and the lengths last. In the end no byte of the packet is left over from the buffer
(`generateIPPacket_eq`), so `printIPPacket` reads back what was put in (`printIPPacket_generate`).

The source port is that of a bridge with the default configuration, which takes such a packet for an
echo. `loopback_length` follows it through the receiving thread.
-/

namespace DeltaModels.Network

/-- `sizeof(struct iphdr)`. -/
def ipHdrSize : Nat := 20

/-- A field that is stored with `htons`. -/
def netField (i : Nat) (v : BitVec 16) : Patch Nat (BitVec 8) :=
  Patch.span i [v.extractLsb' 8 8, v.extractLsb' 0 8]

/-- The bytes of an address; `inet_addr` answers in network order, and the host is little-endian. -/
def addrBytes (addr : BitVec 32) : List (BitVec 8) :=
  [addr.extractLsb' 0 8, addr.extractLsb' 8 8, addr.extractLsb' 16 8, addr.extractLsb' 24 8]

section Generate

variable (inetAddr : String → BitVec 32)

/-- `generateIPPacket`: the buffer afterwards and `buffsize`. `inetAddr` is the `inet_addr` of the
system. -/
def generateIPPacket (sendbuff : Nat → BitVec 8) (payload : List (BitVec 8)) :
    (Nat → BitVec 8) × BitVec 32 :=
  -- `ihl` and `version` are the two halves of a byte
  let buf := (Patch.single 0 ((sendbuff 0).extractLsb' 4 4 ++ 5#4)).apply sendbuff
  let buf := (Patch.single 0 (4#4 ++ (buf 0).extractLsb' 0 4)).apply buf
  let buf := (Patch.single 1 16).apply buf
  let buf := (netField 4 10212).apply buf
  let buf := (Patch.single 8 64).apply buf
  let buf := (Patch.single 9 17).apply buf
  let buf := (Patch.span 12 (addrBytes (inetAddr "127.0.0.1"))).apply buf
  let buf := (Patch.span 16 (addrBytes (inetAddr "127.0.0.1"))).apply buf
  let buf := (netField 6 0x4000).apply buf
  let buf := (netField ipHdrSize 5002).apply buf
  let buf := (netField (ipHdrSize + 2) 5000).apply buf
  let buf := (Patch.span (ipHdrSize + 6) [0, 0]).apply buf
  let buf := (Patch.span (ipHdrSize + udpHdrSize) payload).apply buf
  let totalLen := BitVec.ofNat 32 (ipHdrSize + udpHdrSize + payload.length)
  let buf := (netField (ipHdrSize + 4)
    ((totalLen.signExtend 64 - BitVec.ofNat 64 ipHdrSize).setWidth 16)).apply buf
  -- the system fills these
  let buf := (Patch.span 2 [0, 0]).apply buf
  let buf := (Patch.span 10 [0, 0]).apply buf
  (buf, totalLen)

/-- The two headers of a packet whose payload has `n` bytes. -/
def headers (n : Nat) : List (BitVec 8) :=
  let udpLen := BitVec.ofNat 16 (udpHdrSize + n)
  [0x45, 16, 0, 0, 0x27, 0xe4, 0x40, 0, 64, 17, 0, 0] ++ addrBytes (inetAddr "127.0.0.1")
    ++ addrBytes (inetAddr "127.0.0.1")
    ++ [0x13, 0x8a, 0x13, 0x88, udpLen.extractLsb' 8 8, udpLen.extractLsb' 0 8, 0, 0]

variable {inetAddr} {sendbuff : Nat → BitVec 8} {payload : List (BitVec 8)}

@[simp] theorem length_headers (n : Nat) : (headers inetAddr n).length = 28 := rfl

/-- The subtraction is made in `size_t` and cut to 16 bits. -/
theorem udpLen_eq (n : Nat) :
    ((BitVec.ofNat 32 (ipHdrSize + udpHdrSize + n)).signExtend 64
      - BitVec.ofNat 64 ipHdrSize).setWidth 16 = BitVec.ofNat 16 (udpHdrSize + n) := by
  refine BitVec.eq_of_toNat_eq ?_
  rw [BitVec.toNat_setWidth, BitVec.toNat_sub, BitVec.toNat_signExtend, BitVec.toNat_setWidth,
    BitVec.toNat_ofNat, BitVec.toNat_ofNat, BitVec.toNat_ofNat]
  have hip : ipHdrSize = 20 := rfl
  have hudp : udpHdrSize = 8 := rfl
  split <;> omega

/-- **No byte of the packet is left over**: the headers and the payload, whatever was in the buffer,
and behind them the buffer as it was. -/
theorem generateIPPacket_eq (sendbuff : Nat → BitVec 8) (payload : List (BitVec 8)) :
    generateIPPacket inetAddr sendbuff payload
      = ((Patch.span 0 (headers inetAddr payload.length ++ payload)).apply sendbuff,
          BitVec.ofNat 32 (28 + payload.length)) := by
  refine Prod.ext ?_ rfl
  rw [Patch.span_append_apply, length_headers, Nat.zero_add]
  funext i
  simp only [generateIPPacket, udpLen_eq]
  have hcases : i = 0 ∨ (1 ≤ i ∧ i < 28) ∨ 28 ≤ i := by omega
  rcases hcases with rfl | ⟨hpos, hi⟩ | hi
  · show 4#4 ++ ((sendbuff 0).extractLsb' 4 4 ++ 5#4).extractLsb' 0 4 = 0x45#8
    rw [BitVec.extractLsb'_append_eq_right]
    rfl
  · interval_cases i <;> rfl
  · -- of all that is stored only the payload lies here
    have hsingle : ∀ k v (buf : Nat → BitVec 8), k < 28 → (Patch.single k v).apply buf i = buf i :=
      fun k v buf hk => Patch.apply_of_none buf (Patch.single_of_ne v (by omega))
    have hspan : ∀ k vs (buf : Nat → BitVec 8), k + vs.length ≤ 28 →
        (Patch.span k vs).apply buf i = buf i :=
      fun k vs buf hk => Patch.apply_of_none buf (Patch.span_of_le (by omega))
    have hnet : ∀ k v (buf : Nat → BitVec 8), k + 2 ≤ 28 → (netField k v).apply buf i = buf i :=
      fun k v buf hk => hspan k _ buf hk
    have hpayload : ∀ buf buf' : Nat → BitVec 8, buf i = buf' i →
        (Patch.span 28 payload).apply buf i = (Patch.span 28 payload).apply buf' i := by
      intro buf buf' h
      rw [Patch.apply, Patch.apply, h]
    rw [hspan 10 _ _ (by decide), hspan 2 _ _ (by decide), hnet (ipHdrSize + 4) _ _ (by decide)]
    refine hpayload _ _ ?_
    rw [hspan 0 _ _ (by rw [length_headers]), hspan (ipHdrSize + 6) _ _ (by decide),
      hnet (ipHdrSize + 2) _ _ (by decide), hnet ipHdrSize _ _ (by decide), hnet 6 _ _ (by decide),
      hspan 16 _ _ (Nat.le_of_ble_eq_true rfl), hspan 12 _ _ (Nat.le_of_ble_eq_true rfl),
      hsingle 9 _ _ (by decide), hsingle 8 _ _ (by decide), hnet 4 _ _ (by decide),
      hsingle 1 _ _ (by decide), hsingle 0 _ _ (by decide), hsingle 0 _ _ (by decide)]

/-! ## Reading it back -/

section Bytes

variable {pkt : Nat → BitVec 8}

theorem ipHdrLen_of_head (h : pkt 0 = 0x45) : ipHdrLen pkt = ipHdrSize := by
  rw [ipHdrLen, h]
  rfl

/-- A word is known by its two bytes. -/
theorem netWord_of {i : Nat} {v : BitVec 16} (hhi : pkt i = v.extractLsb' 8 8)
    (hlo : pkt (i + 1) = v.extractLsb' 0 8) : netWord pkt i = v := by
  rw [netWord, hhi, hlo]
  exact BitVec.extractLsb'_append_extractLsb'

/-- The verdict on a packet that shows the header length and the source port of `generateIPPacket`. -/
theorem isEcho_of_bytes {pktlen : Nat} {port : BitVec 16} (hlen : pkt 0 = 0x45)
    (hhi : pkt ipHdrSize = 0x13) (hlo : pkt (ipHdrSize + 1) = 0x8a) :
    isEcho pkt pktlen port = true ↔ port = 5002 := by
  have hsource : udpSource pkt ipHdrSize = 5002 := netWord_of hhi hlo
  rw [isEcho, ipHdrLen_of_head hlen, hsource, decide_eq_true_eq]
  exact eq_comm

end Bytes

/-- The packet has been written by `generateIPPacket`. -/
def Generated (inetAddr : String → BitVec 32) (r : Received) : Prop :=
  ∃ sendbuff payload, r.bytes
    = Patch.load (generateIPPacket inetAddr sendbuff payload).1 0 (28 + payload.length)

theorem Generated.bytes_eq {r : Received} (h : Generated inetAddr r) :
    ∃ payload, r.bytes = headers inetAddr payload.length ++ payload := by
  obtain ⟨sendbuff, payload, hr⟩ := h
  have hlength : 28 + payload.length = (headers inetAddr payload.length ++ payload).length := by
    rw [List.length_append, length_headers]
  refine ⟨payload, ?_⟩
  rw [hr, generateIPPacket_eq, hlength]
  exact Patch.load_span sendbuff 0 _

/-- Of a generated packet the MAC is offered something unless the bridge has its source port. -/
theorem Generated.offers_iff {r : Received} (h : Generated inetAddr r) (bridgePort : BitVec 16)
    (past : List Received) : Offers bridgePort past r ↔ bridgePort ≠ 5002 := by
  obtain ⟨payload, hr⟩ := h.bytes_eq
  have hlength : r.bytes.length = 28 + payload.length := by
    rw [hr, List.length_append, length_headers]
  have hecho : isEcho (bufferAfter (past ++ [r])) r.bytes.length bridgePort = true
      ↔ bridgePort = 5002 := by
    rw [bufferAfter_concat, hr]
    exact isEcho_of_bytes rfl rfl rfl
  rw [Offers, ← Bool.not_eq_true, hecho]
  exact and_iff_right (by omega)

theorem length_deliveries (bridgePort : BitVec 16) (past : List Received) {rs : List Received}
    (h : ∀ r ∈ rs, Generated inetAddr r) :
    (deliveries bridgePort past rs).length = if bridgePort = 5002 then 0 else rs.length := by
  induction rs generalizing past with
  | nil => simp [deliveries]
  | cons r rs ih =>
    have hrs := ih (past ++ [r]) fun q hq => h q (List.mem_cons_of_mem r hq)
    have hr := (h r List.mem_cons_self).offers_iff bridgePort past
    rw [deliveries, List.length_append, hrs]
    by_cases hport : bridgePort = 5002
    · rw [if_neg (fun hoffers => hr.mp hoffers hport), if_pos hport, if_pos hport]
      rfl
    · rw [if_pos (hr.mpr hport), if_neg hport, if_neg hport, List.length_cons]
      exact Nat.add_comm 1 rs.length

/-- **Loopback.** In every run in which all packets taken from the socket are generated ones, a bridge
with their source port gives the MAC none of them, and a bridge with another port all of them. -/
theorem loopback_length (inetAddr : String → BitVec 32) (bridgePort : BitVec 16)
    (sockstr : SockAddr) (answers : List (Option Received))
    (hend : ((receiver bridgePort).run (Rx.init sockstr) answers).pc = .poll)
    (hgenerated : ∀ r ∈ fetched bridgePort (Rx.init sockstr) answers, Generated inetAddr r) :
    (bursts ((receiver bridgePort).trace (Rx.init sockstr) answers)).length
      = if bridgePort = 5002 then 0
        else (fetched bridgePort (Rx.init sockstr) answers).length := by
  have hbursts := @receiver_run bridgePort [] (Rx.init sockstr) (fun _ => rfl) rfl answers hend []
    fun _ => rfl
  rw [bursts, hbursts.1]
  exact length_deliveries bridgePort [] hgenerated

/-- "H", as it comes back. -/
def generatedH : Received where
  bytes := headers (fun _ => 0x0100007f) 1 ++ [0x48]
  sender := ⟨0x0100007f, 0x8a13⟩
  fits := by simp [MAX_BUF_SIZE]

theorem generated_generatedH : Generated (fun _ => 0x0100007f) generatedH := by
  refine ⟨fun _ => 0, [0x48], ?_⟩
  rw [generateIPPacket_eq]
  rfl

/-- On port 5002 the MAC sees nothing of it, on port 5003 one burst. -/
theorem loopback_length_two_ports :
    (bursts ((receiver 5002).trace (Rx.init ⟨0, 0⟩) [some generatedH, some generatedH])).length = 0 ∧
      (bursts ((receiver 5003).trace (Rx.init ⟨0, 0⟩)
        (some generatedH :: List.replicate 29 none))).length = 1 := by
  have hall : ∀ {bridgePort answers}, fetched bridgePort (Rx.init ⟨0, 0⟩) answers
      = List.replicate (fetched bridgePort (Rx.init ⟨0, 0⟩) answers).length generatedH →
      ∀ r ∈ fetched bridgePort (Rx.init ⟨0, 0⟩) answers,
        Generated (fun _ => 0x0100007f) r := by
    intro bridgePort answers hsame r hr
    rw [hsame] at hr
    rw [List.eq_of_mem_replicate hr]
    exact generated_generatedH
  exact ⟨loopback_length _ 5002 ⟨0, 0⟩ [some generatedH, some generatedH] (by decide)
      (hall (by decide)),
    loopback_length _ 5003 ⟨0, 0⟩ (some generatedH :: List.replicate 29 none) (by decide)
      (hall (by decide))⟩

end Generate

end DeltaModels.Network
