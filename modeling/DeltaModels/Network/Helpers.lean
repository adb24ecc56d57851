import DeltaModels.Library.Patch
import DeltaModels.Network.Packet

/-!
# What the packet helpers look at

`isEcho` and `printIPPacket` get a buffer and the length of the packet in it. Behind the packet the
buffer holds what older packets have left there.

Both find the UDP header at the place that the IP header claims. `isEcho` does not compare that place
with the length, and `printIPPacket` subtracts it from the length in `size_t` and keeps the difference
in an `int`. So they look only at the packet exactly when its own two headers fit it
(`looksOnlyAtPacket_iff`).
-/

namespace DeltaModels.Network

/-- `sizeof(struct udphdr)`. -/
def udpHdrSize : Nat := 8

/-- `remaining_data`: `pktlen - (iphdrlen + sizeof(struct udphdr))`, as an `int`. -/
def remainingData (pkt : Nat → BitVec 8) (pktlen : BitVec 32) : Int :=
  ((pktlen.signExtend 64 - BitVec.ofNat 64 (ipHdrLen pkt + udpHdrSize)).setWidth 32).toInt

/-- A part of a buffer. -/
structure Slice where
  start : Nat
  length : Int
  deriving DecidableEq, Repr

/-- The part of the buffer that `printIPPacket` takes for the payload. -/
def payloadSlice (pkt : Nat → BitVec 8) (pktlen : BitVec 32) : Slice :=
  ⟨ipHdrLen pkt + udpHdrSize, remainingData pkt pktlen⟩

/-- `std::string(&pkt[start], length)`; a negative length is a huge `size_t`, and the constructor
throws. -/
def Slice.read (pkt : Nat → BitVec 8) (s : Slice) : Option (List (BitVec 8)) :=
  if s.length < 0 then none else some (Patch.load pkt s.start s.length.toNat)

/-- `ntohs` of the two bytes at `i`. -/
def netWord (pkt : Nat → BitVec 8) (i : Nat) : BitVec 16 := pkt i ++ pkt (i + 1)

/-- The verdict is the same in every buffer that holds the packet. -/
def VerdictDetermined (pkt : Nat → BitVec 8) (pktlen : Nat) (port : BitVec 16) : Prop :=
  ∀ pkt', (∀ i < pktlen, pkt' i = pkt i) → isEcho pkt' pktlen port = isEcho pkt pktlen port

variable {pkt pkt' : Nat → BitVec 8} {port : BitVec 16} {pktlen : Nat}

theorem ipHdrLen_congr (h : pkt' 0 = pkt 0) : ipHdrLen pkt' = ipHdrLen pkt := by
  rw [ipHdrLen, ipHdrLen, h]

/-- An echo shows the port in the two bytes of the source port. -/
theorem isEcho_iff : isEcho pkt pktlen port = true ↔
    pkt (ipHdrLen pkt) = port.extractLsb' 8 8 ∧ pkt (ipHdrLen pkt + 1) = port.extractLsb' 0 8 := by
  rw [isEcho, decide_eq_true_eq, udpSource]
  constructor
  · rintro rfl
    rw [BitVec.extractLsb'_append_eq_left, BitVec.extractLsb'_append_eq_right]
    exact ⟨rfl, rfl⟩
  · rintro ⟨hhi, hlo⟩
    rw [hhi, hlo]
    exact BitVec.extractLsb'_append_extractLsb'

/-- The packet, and behind it the first byte of the port wherever it is missing and `b` for the
second. -/
def completed (pkt : Nat → BitVec 8) (pktlen : Nat) (port : BitVec 16) (b : BitVec 8) :
    Nat → BitVec 8 := fun i =>
  if i < pktlen then pkt i else if i = ipHdrLen pkt + 1 then b else port.extractLsb' 8 8

/-- If the second byte of the source port is not in the packet, and the first is not or speaks for the
port, the verdict is left to what lies behind the packet. -/
theorem isEcho_completed (hpos : 0 < pktlen) (hshort : pktlen ≤ ipHdrLen pkt + 1)
    (hfirst : ipHdrLen pkt < pktlen → pkt (ipHdrLen pkt) = port.extractLsb' 8 8) (b : BitVec 8) :
    isEcho (completed pkt pktlen port b) pktlen port = true ↔ b = port.extractLsb' 0 8 := by
  have hlen : ipHdrLen (completed pkt pktlen port b) = ipHdrLen pkt :=
    ipHdrLen_congr (if_pos hpos)
  have hhi : completed pkt pktlen port b (ipHdrLen pkt) = port.extractLsb' 8 8 := by
    by_cases hin : ipHdrLen pkt < pktlen
    · rw [completed, if_pos hin, hfirst hin]
    · rw [completed, if_neg hin, if_neg (by omega)]
  have hlo : completed pkt pktlen port b (ipHdrLen pkt + 1) = b := by
    rw [completed, if_neg (by omega), if_pos rfl]
  rw [isEcho_iff, hlen, hhi, hlo]
  exact and_iff_right rfl

/-- **When the verdict is about the packet**: the source port lies in it, or half of it does and is
not that of the port. -/
theorem verdictDetermined_iff (hpos : 0 < pktlen) : VerdictDetermined pkt pktlen port ↔
    ipHdrLen pkt + 2 ≤ pktlen ∨
      ipHdrLen pkt + 1 = pktlen ∧ pkt (ipHdrLen pkt) ≠ port.extractLsb' 8 8 := by
  constructor
  · intro h
    by_contra hout
    simp only [not_or, not_and, not_not] at hout
    have hverdict : ∀ b, isEcho (completed pkt pktlen port b) pktlen port = true ↔
        b = port.extractLsb' 0 8 := isEcho_completed hpos (by omega) fun hin => hout.2 (by omega)
    have hagree : ∀ b, ∀ i < pktlen, completed pkt pktlen port b i = pkt i :=
      fun b i hi => if_pos hi
    -- an echo and a packet that is none, with nothing in between them
    have hecho : isEcho pkt pktlen port = true := by
      rw [← h _ (hagree (port.extractLsb' 0 8)), hverdict]
    have hnone := (hverdict (port.extractLsb' 0 8 + 1)).mp ((h _ (hagree _)).trans hecho)
    exact absurd hnone (by simp)
  · intro hin pkt' hagree
    have hlen : ipHdrLen pkt' = ipHdrLen pkt := ipHdrLen_congr (hagree 0 hpos)
    rw [Bool.eq_iff_iff, isEcho_iff, isEcho_iff, hlen]
    rcases hin with hin | ⟨hin, hne⟩
    · rw [hagree _ (by omega), hagree _ (by omega)]
    · rw [hagree _ (by omega)]
      exact iff_of_false (fun hecho => hne hecho.1) fun hecho => hne hecho.1

/-! ## The payload of `printIPPacket` -/

theorem ipHdrLen_le (pkt : Nat → BitVec 8) : ipHdrLen pkt ≤ 60 := by
  have hlt := ((pkt 0).extractLsb' 0 4).isLt
  rw [ipHdrLen]
  omega

/-- The length of a packet is positive as an `int`. -/
theorem toInt_eq_toNat {pktlen : BitVec 32} (hpos : 1 ≤ pktlen.toInt) :
    pktlen.msb = false ∧ pktlen.toInt = pktlen.toNat ∧ pktlen.toNat < 2 ^ 31 := by
  have hlt := pktlen.isLt
  have hint := BitVec.toInt_eq_toNat_cond pktlen
  by_cases h : 2 * pktlen.toNat < 2 ^ 32
  · rw [if_pos h] at hint
    refine ⟨BitVec.msb_eq_false_iff_two_mul_lt.mpr h, hint, by omega⟩
  · rw [if_neg h] at hint
    omega

/-- For such a length the conversions are harmless: what remains is the difference. -/
theorem remainingData_eq {pktlen : BitVec 32} (hpos : 1 ≤ pktlen.toInt) :
    remainingData pkt pktlen = pktlen.toInt - (ipHdrLen pkt + udpHdrSize : Nat) := by
  obtain ⟨hmsb, hint, hlt⟩ := toInt_eq_toNat hpos
  have hhdr := ipHdrLen_le pkt
  have hsize : udpHdrSize = 8 := rfl
  rw [remainingData, BitVec.signExtend_eq_setWidth_of_msb_false hmsb, BitVec.toInt_setWidth,
    BitVec.toNat_sub, BitVec.toNat_setWidth, BitVec.toNat_ofNat, hint, Int.bmod_def]
  omega

/-- The payload lies inside the packet, and its length is not negative. -/
def PayloadInside (pkt : Nat → BitVec 8) (pktlen : BitVec 32) : Prop :=
  let payload := payloadSlice pkt pktlen
  0 ≤ payload.length ∧ payload.start + payload.length ≤ pktlen.toInt

/-- **When the payload is inside**: if the two headers are. -/
theorem payloadInside_iff {pktlen : BitVec 32} (hpos : 1 ≤ pktlen.toInt) :
    PayloadInside pkt pktlen ↔ ipHdrLen pkt + udpHdrSize ≤ pktlen.toNat := by
  obtain ⟨-, hint, -⟩ := toInt_eq_toNat hpos
  simp only [PayloadInside, payloadSlice]
  rw [remainingData_eq hpos, hint]
  omega

/-! ## Both helpers -/

/-- **When the helpers look only at the packet.** The verdict of `isEcho` is about the packet if the
source port lies in it (or half of it does and is not that of the port), and the payload that
`printIPPacket` takes is inside if both headers are. -/
theorem looksOnlyAtPacket_iff (pkt : Nat → BitVec 8) (pktlen : BitVec 32) (port : BitVec 16)
    (hpos : 1 ≤ pktlen.toInt) :
    (VerdictDetermined pkt pktlen.toNat port ↔
      ipHdrLen pkt + 2 ≤ pktlen.toNat ∨
        ipHdrLen pkt + 1 = pktlen.toNat ∧ pkt (ipHdrLen pkt) ≠ port.extractLsb' 8 8) ∧
    (PayloadInside pkt pktlen ↔ ipHdrLen pkt + udpHdrSize ≤ pktlen.toNat) := by
  obtain ⟨-, hint, -⟩ := toInt_eq_toNat hpos
  exact ⟨verdictDetermined_iff (by omega), payloadInside_iff hpos⟩

/-- A packet with an IP header of five words and a byte of payload. -/
def shortHeader : Nat → BitVec 8 := fun i => if i = 0 then 0x45 else 0

theorem looksOnlyAtPacket_29 :
    VerdictDetermined shortHeader 29 5002 ∧ PayloadInside shortHeader 29 := by
  obtain ⟨hverdict, hpayload⟩ := looksOnlyAtPacket_iff shortHeader 29 5002 (by decide)
  exact ⟨hverdict.mpr (by decide), hpayload.mpr (by decide)⟩

/-- A bare IP header: the verdict comes from the two bytes behind it, and the payload has length -8. -/
theorem looksOnlyAtPacket_bare_header :
    ¬ ∀ (pkt : Nat → BitVec 8) (pktlen : BitVec 32) (port : BitVec 16), 1 ≤ pktlen.toInt →
      VerdictDetermined pkt pktlen.toNat port ∧ PayloadInside pkt pktlen := by
  intro h
  obtain ⟨hverdict, -⟩ := h shortHeader 20 0 (by decide)
  have hstale := hverdict ((Patch.single 20 1).apply shortHeader)
    fun i hi => Patch.apply_of_none _ (Patch.single_of_ne _ (Nat.ne_of_lt hi))
  revert hstale
  decide

end DeltaModels.Network
