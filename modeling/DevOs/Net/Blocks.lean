import DevOs.Net.Echo

/-!
How `eth_tx`, `arp_rx`, `arp_resolve`, `ipv4_send` and `icmp_rx` build what they send,
write by write, in memory that nobody has cleared.
-/

namespace DevOs

open ByteMem

/-- The frame of `eth_tx` in the block `frame`, and `total`. -/
def ethFrameBlock (frame : Mem) (dst src : Mac) (ethertype : Nat) (payload : Mem)
    (payloadLen : Nat) : Mem × Nat :=
  let total := ethHeaderLen + payloadLen
  let frame := put frame 0 dst.toList
  let frame := put frame 6 src.toList
  let frame := store 2 frame 12 (htons ethertype)
  let frame := put frame ethHeaderLen (slice payloadLen payload 0)
  if total < 60 then (fill frame total (60 - total) 0, 60) else (frame, total)

/-- The `arp_packet_t` that `arp_rx` and `arp_resolve` fill, field by field. -/
def arpPacketBlock (packet : Mem) (operation : Nat) (senderMac : Mac) (senderIp : Nat)
    (targetMac : Mac) (targetIp : Nat) : Mem :=
  let packet := store 2 packet 0 (htons arpHwEth)
  let packet := store 2 packet 2 (htons arpProtoIpv4)
  let packet := store 1 packet 4 6
  let packet := store 1 packet 5 4
  let packet := store 2 packet 6 (htons operation)
  let packet := put packet 8 senderMac.toList
  let packet := store 4 packet 14 senderIp
  let packet := put packet 18 targetMac.toList
  store 4 packet 24 targetIp

def ipv4HeaderBlock (pkt : Mem) (total id proto src dst : Nat) : Mem :=
  let pkt := store 1 pkt 0 0x45
  let pkt := store 1 pkt 1 0
  let pkt := store 2 pkt 2 (htons (total % 2 ^ 16))
  let pkt := store 2 pkt 4 (htons id)
  let pkt := store 2 pkt 6 0
  let pkt := store 1 pkt 8 64
  let pkt := store 1 pkt 9 proto
  let pkt := store 2 pkt 10 0
  let pkt := store 4 pkt 12 (htonl src)
  store 4 pkt 16 (htonl dst)

def ipv4PacketBlock (pkt : Mem) (id proto src dst : Nat) (payload : Mem) (payloadLen : Nat) : Mem :=
  let pkt := ipv4HeaderBlock pkt (ipv4HeaderSize + payloadLen) id proto src dst
  let pkt := store 2 pkt 10 ((ipv4Checksum 0 ipv4HeaderSize).value pkt)
  put pkt ipv4HeaderSize (slice payloadLen payload 0)

/-- The reply of `icmp_rx` to the `len` bytes at `data`, in the block `reply`. -/
def echoReplyBlock (reply : Mem) (m : Mem) (data len : Nat) : Mem :=
  let reply := put reply 0 (slice len m data)
  let reply := store 1 reply 0 icmpEchoReply.toNat
  let reply := store 2 reply 2 0
  store 2 reply 2 ((ipv4Checksum 0 len).value reply)

variable (old payload : Mem) (payloadLen : Nat)

theorem slice_arpPacketBlock (operation senderIp targetIp : Nat) (senderMac targetMac : Mac) :
    slice arpPacketSize (arpPacketBlock old operation senderMac senderIp targetMac targetIp) 0 =
      arpPacket operation senderMac senderIp targetMac targetIp := by
  have hholds : Holds (arpPacketBlock old operation senderMac senderIp targetMac targetIp) 0
      (arpPacket operation senderMac senderIp targetMac targetIp) := by
    rw [arpPacket, show ([6, 4] : List UInt8) = encode 1 6 ++ encode 1 4 from rfl]
    simp only [holds_append, List.length_append, length_encode, Vector.length_toList, Nat.zero_add,
      Nat.reduceAdd]
    simp (disch := simp) [arpPacketBlock, holds_store_of_disjoint, holds_put_of_disjoint]
  rwa [Holds, length_arpPacket] at hholds

theorem holds_ipv4HeaderBlock (total id proto src dst : Nat) :
    Holds (ipv4HeaderBlock old total id proto src dst) 0
      (ipv4Header total id proto src dst 0) := by
  rw [ipv4Header, show ([0x45, 0] : List UInt8) = encode 1 0x45 ++ encode 1 0 from rfl,
    show [64, UInt8.ofNat proto] = encode 1 64 ++ encode 1 proto from rfl]
  simp only [holds_append, List.length_append, length_encode, Nat.zero_add, Nat.reduceAdd]
  simp (disch := simp) [ipv4HeaderBlock, holds_store_of_disjoint]

theorem holds_header_checksum {m : Mem} {total id proto src dst : Nat} (checksum : Nat)
    (h : Holds m 0 (ipv4Header total id proto src dst 0)) :
    Holds (store 2 m 10 checksum) 0 (ipv4Header total id proto src dst checksum) := by
  simp only [ipv4Header, holds_append, List.length_append, length_encode, List.length_cons,
    List.length_nil, Nat.zero_add, Nat.reduceAdd] at h ⊢
  simp (disch := simp) only [holds_store_of_disjoint, holds_store_self, h, and_self]

theorem slice_ipv4PacketBlock (h : NetHost) (proto dst : Nat) : slice (ipv4HeaderSize + payloadLen)
        (ipv4PacketBlock old h.gIpId proto h.gMyIp dst payload payloadLen) 0 =
      ipv4Packet h dst proto (slice payloadLen payload 0) := by
  have hheader := holds_ipv4HeaderBlock old (ipv4HeaderSize + payloadLen) h.gIpId proto h.gMyIp dst
  have hlen : ∀ checksum, (ipv4Header (ipv4HeaderSize + payloadLen) h.gIpId proto h.gMyIp dst
      checksum).length = ipv4HeaderSize := fun checksum => by simp [ipv4Header, ipv4HeaderSize]
  have hchecksum : (ipv4Checksum 0 ipv4HeaderSize).value
      (ipv4HeaderBlock old (ipv4HeaderSize + payloadLen) h.gIpId proto h.gMyIp dst) =
        (ipv4Checksum 0 ipv4HeaderSize).value
          (ofList (ipv4Header (ipv4HeaderSize + payloadLen) h.gIpId proto h.gMyIp dst 0)) := by
    refine value_ipv4Checksum_congr ?_
    rw [← hlen 0]
    exact eq_of_holds hheader (holds_ofList _)
  have hholds : Holds (ipv4PacketBlock old h.gIpId proto h.gMyIp dst payload payloadLen) 0
      (ipv4Packet h dst proto (slice payloadLen payload 0)) := by
    simp only [ipv4Packet, length_slice, ← hchecksum, ipv4PacketBlock]
    refine holds_append.mpr ⟨?_, ?_⟩
    · rw [holds_put_of_disjoint (.inl (by rw [hlen, Nat.zero_add]))]
      exact holds_header_checksum _ hheader
    · rw [hlen, Nat.zero_add]
      exact holds_put_self
  rwa [Holds, length_ipv4Packet, length_slice] at hholds

theorem slice_echoReplyBlock (m : Mem) (data len : Nat) :
    slice len (echoReplyBlock old m data len) 0 = echoReply (slice len m data) := by
  have hcopied : Holds (put old 0 (slice len m data)) 0 (slice len m data) := holds_put_self
  have hcleared : Holds
      (store 2 (store 1 (put old 0 (slice len m data)) 0 icmpEchoReply.toNat) 2 0) 0
      ((((slice len m data).set 0 icmpEchoReply).set 2 0).set 3 0) := by
    rw [store_two]
    exact holds_store_one 3 (holds_store_one 2 (holds_store_one 0 hcopied))
  have hchecksum := value_ipv4Checksum_congr (eq_of_holds hcleared (holds_ofList _))
  have hholds : Holds (echoReplyBlock old m data len) 0 (echoReply (slice len m data)) := by
    simp only [List.length_set, length_slice] at hchecksum
    simp only [echoReplyBlock, echoReply, List.length_set, length_slice, ← hchecksum]
    rw [store_two _ 2]
    exact holds_store_one 3 (holds_store_one 2 hcleared)
  rwa [Holds, length_echoReply, length_slice] at hholds

theorem snd_ethFrameBlock (dst src : Mac) (ethertype : Nat) :
    (ethFrameBlock old dst src ethertype payload payloadLen).2 =
      max 60 (ethHeaderLen + payloadLen) := by
  simp only [ethFrameBlock]
  split
  case isTrue hshort => exact (Nat.max_eq_left (Nat.le_of_lt hshort)).symm
  case isFalse hlong => exact (Nat.max_eq_right (Nat.le_of_not_lt hlong)).symm

theorem slice_ethFrameBlock (dst src : Mac) (ethertype : Nat) :
    slice (ethFrameBlock old dst src ethertype payload payloadLen).2
        (ethFrameBlock old dst src ethertype payload payloadLen).1 0 =
      ethFrame dst src ethertype (slice payloadLen payload 0) := by
  have hframe : Holds
      (put (store 2 (put (put old 0 dst.toList) 6 src.toList) 12 (htons ethertype)) ethHeaderLen
        (slice payloadLen payload 0)) 0
      (dst.toList ++ src.toList ++ encode 2 (htons ethertype) ++ slice payloadLen payload 0) := by
    simp only [holds_append, List.length_append, length_encode, Vector.length_toList, Nat.zero_add,
      Nat.reduceAdd]
    simp (disch := simp) [holds_store_of_disjoint, holds_put_of_disjoint, ethHeaderLen]
  have hlen : (dst.toList ++ src.toList ++ encode 2 (htons ethertype) ++
      slice payloadLen payload 0).length = ethHeaderLen + payloadLen := by
    simp only [List.length_append, Vector.length_toList, length_encode, length_slice]
    rfl
  simp only [ethFrameBlock, ethFrame, length_slice]
  by_cases hshort : ethHeaderLen + payloadLen < 60
  · rw [if_pos hshort, if_pos hshort]
    have hdisjoint : 0 + (dst.toList ++ src.toList ++ encode 2 (htons ethertype) ++
        slice payloadLen payload 0).length ≤ ethHeaderLen + payloadLen := by
      rw [hlen, Nat.zero_add]
    have hpadded := holds_append.mpr ⟨(holds_fill_of_disjoint (.inl hdisjoint)).mpr hframe, by
        rw [hlen, Nat.zero_add]
        exact @holds_fill_self _ _ (60 - (ethHeaderLen + payloadLen)) 0⟩
    rwa [Holds, List.length_append, hlen, List.length_replicate,
      Nat.add_sub_cancel' (Nat.le_of_lt hshort)] at hpadded
  · rw [if_neg hshort, if_neg hshort]
    rwa [Holds, hlen] at hframe

end DevOs
