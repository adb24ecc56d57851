import Mathlib.Data.BitVec

/-!
# Packet headers

The fields of the IPv4 and UDP headers that the network helpers look at, read from a buffer. The
host is little-endian: the header length is the low half of the first byte, and `ntohs` swaps the two
bytes of a port.
-/

namespace DeltaModels.Network

/-- `htons`: the host is little-endian, the network is not. -/
def htons (port : BitVec 16) : BitVec 16 := port.extractLsb' 0 8 ++ port.extractLsb' 8 8

/-- `ip->ihl * 4`, the length of the IP header in bytes. -/
def ipHdrLen (pkt : Nat → BitVec 8) : Nat := ((pkt 0).extractLsb' 0 4).toNat * 4

/-- `ntohs(udp->source)` of the UDP header at `udp`. -/
def udpSource (pkt : Nat → BitVec 8) (udp : Nat) : BitVec 16 := pkt udp ++ pkt (udp + 1)

/-- `isEcho`; the packet's length is not looked at. -/
def isEcho (pkt : Nat → BitVec 8) (_pktlen : Nat) (port : BitVec 16) : Bool :=
  udpSource pkt (ipHdrLen pkt) = port

end DeltaModels.Network
