import DevOs.Net.Checksum
import DevOs.Net.Exchange

/-!
The answer to an echo request, from `icmp_rx` through `ipv4_send` and `eth_tx` to
the frame that is handed to the device.
-/

namespace DevOs

open ByteMem Buffer

/-- A frame in `m'` that answers the request in `m`: the addresses, the checksum
of the IP header, and the ICMP message behind it. -/
structure EchoReplyIn (h : NetHost) (mac : Mac) (m : Mem) (c : IcmpCall) (m' : Mem) : Prop where
  dstMac : Holds m' 0 mac.toList
  srcMac : Holds m' 6 h.mac.toList
  ethertype : ntohs (load 2 m' 12) = ethTypeIpv4
  version : m' ethHeaderLen = 0x45
  total : ntohs (load 2 m' (ethHeaderLen + 2)) = ipv4HeaderSize + c.len
  proto : (m' (ethHeaderLen + 9)).toNat = ipProtoIcmp
  src : load 4 m' (ethHeaderLen + 12) = htonl h.gMyIp
  dst : load 4 m' (ethHeaderLen + 16) = load 4 m (c.ipHdr + 12)
  ipChecksum : (ipv4Checksum ethHeaderLen ipv4HeaderSize).value m' = 0
  type : m' (ethHeaderLen + ipv4HeaderSize) = icmpEchoReply
  message : ∀ i < c.len, i ≠ 0 → i ≠ 2 → i ≠ 3 →
    m' (ethHeaderLen + ipv4HeaderSize + i) = m (c.data + i)
  icmpChecksum : (ipv4Checksum (ethHeaderLen + ipv4HeaderSize) c.len).value m' = 0

variable {h : NetHost} {mac : Mac} {m m' : Mem} {c : IcmpCall} {a i : Nat} {msg : List UInt8}
  {payload : List UInt8}

@[simp] theorem length_echoReply (msg : List UInt8) : (echoReply msg).length = msg.length := by
  simp [echoReply]

theorem getElem?_echoReply_zero (hlen : 0 < msg.length) :
    (echoReply msg)[0]? = some icmpEchoReply := by
  simp [echoReply, hlen]

theorem getElem?_echoReply (h0 : i ≠ 0) (h2 : i ≠ 2) (h3 : i ≠ 3) :
    (echoReply msg)[i]? = msg[i]? := by
  simp [echoReply, List.getElem?_set_ne, h0.symm, h2.symm, h3.symm]

theorem holds_macs {dst src : Mac} {ethertype : Nat}
    (hm : Holds m' 0 (ethFrame dst src ethertype payload)) :
    Holds m' 0 dst.toList ∧ Holds m' 6 src.toList := by
  simp only [ethFrame] at hm
  split at hm <;> simp at hm <;> tauto

theorem load_four_of_halves {v : Nat} (hlow : load 2 m a = v % 2 ^ 16)
    (hhigh : load 2 m (a + 2) = v / 2 ^ 16) : load 4 m a = v := by
  rw [load_add 2 2 m a, hlow, hhigh]
  exact Nat.mod_add_div v (2 ^ 16)

/-- The frame with the reply to the request at `c`. -/
def echoFrame (h : NetHost) (mac : Mac) (m : Mem) (c : IcmpCall) : List UInt8 :=
  ethFrame mac h.mac ethTypeIpv4 (ipv4Packet h (ntohl (load 4 m (c.ipHdr + 12))) ipProtoIcmp
    (echoReply (slice c.len m c.data)))

theorem length_echoFrame :
    (echoFrame h mac m c).length = max 60 (ethHeaderLen + ipv4HeaderSize + c.len) := by
  rw [echoFrame, length_ethFrame, length_ipv4Packet, length_echoReply, length_slice, Nat.add_assoc]

theorem echoReplyIn_echoFrame (hmin : icmpHeaderSize ≤ c.len) (hmax : c.len ≤ 1480)
    (hm : Holds m' 0 (echoFrame h mac m c)) : EchoReplyIn h mac m c m' := by
  have hlen : (echoReply (slice c.len m c.data)).length = c.len := by simp
  obtain ⟨hdstMac, hsrcMac⟩ := holds_macs hm
  obtain ⟨htype, hpacket⟩ := holds_ethFrame hm
  obtain ⟨checksum, hwords, hsum, hmessage⟩ := packet_received hpacket
  rw [hlen] at hwords
  have hsource : htonl (ntohl (load 4 m (c.ipHdr + 12))) = load 4 m (c.ipHdr + 12) :=
    htonl_htonl (load_lt 4 m (c.ipHdr + 12))
  have hbyte : ∀ i < c.len, (echoReply (slice c.len m c.data))[i]? =
      some (m' (ethHeaderLen + ipv4HeaderSize + i)) :=
    fun i hi => getElem?_of_holds hmessage (hi.trans_eq hlen.symm)
  unfold icmpHeaderSize at hmin
  refine ⟨hdstMac, hsrcMac, ?_, hwords.version.1, ?_, ?_, ?_, ?_, hsum, ?_, ?_, ?_⟩
  · rw [load_of_holds_of_lt htype (htons_lt _), ntohs, htons_htons (by decide)]
  · rw [hwords.total, ntohs, htons_htons (Nat.mod_lt _ (by decide))]
    unfold ipv4HeaderSize
    omega
  · rw [hwords.proto]
    decide
  · exact load_four_of_halves hwords.src.1 hwords.src.2
  · rw [← hsource]
    exact load_four_of_halves hwords.dst.1 hwords.dst.2
  · have hfirst := hbyte 0 (by omega)
    rw [getElem?_echoReply_zero (by rw [length_slice]; omega)] at hfirst
    exact (Option.some.inj hfirst).symm
  · intro i hi h0 h2 h3
    have hsame := hbyte i hi
    rw [getElem?_echoReply h0 h2 h3, getElem?_slice hi] at hsame
    exact (Option.some.inj hsame).symm
  · have hset : ((slice c.len m c.data).set 0 icmpEchoReply).length = c.len := by simp
    rw [echoReply_eq] at hmessage
    conv_lhs => rw [← hset]
    exact value_ipv4Checksum_storeChecksum (by decide) (by rw [hset]; omega) (by rw [hset]; omega)
      hmessage

theorem value_icmpRx_drop
    (hbad : m c.data ≠ icmpEchoRequest ∨ (ipv4Checksum c.data c.len).value m ≠ 0) :
    (icmpRx h c).value m = h := by
  simp only [icmpRx, Probe.value_ite, Probe.value_bind, Probe.value_pure, Probe.value_byte]
  grind

theorem sent_ipv4Send {dstIp proto : Nat}
    (hpkt : h.kmalloc (ipv4HeaderSize + payload.length) = true)
    (hframe : h.kmalloc (max 64 (ethHeaderLen + ipv4HeaderSize + payload.length)) = true)
    (hcached : arpLookup h.arpCache dstIp = some mac) : (ipv4Send h dstIp proto payload).2.sent =
      h.sent ++ [ethFrame mac h.mac ethTypeIpv4 (ipv4Packet h dstIp proto payload)] := by
  have hsize : (if ethHeaderLen + (ipv4HeaderSize + payload.length) < 64 then 64
      else ethHeaderLen + (ipv4HeaderSize + payload.length)) =
      max 64 (ethHeaderLen + ipv4HeaderSize + payload.length) := by
    split <;> omega
  simp only [ipv4Send, hpkt, arpResolve, hcached, ethTx, length_ipv4Packet, hsize, hframe,
    Bool.true_eq_false, if_false]

theorem sent_icmpRx_echo (hmin : icmpHeaderSize ≤ c.len)
    (hsum : (ipv4Checksum c.data c.len).value m = 0) (htype : m c.data = icmpEchoRequest)
    (hreply : h.kmalloc c.len = true) (hpkt : h.kmalloc (ipv4HeaderSize + c.len) = true)
    (hframe : h.kmalloc (max 64 (ethHeaderLen + ipv4HeaderSize + c.len)) = true)
    (hcached : arpLookup h.arpCache (ntohl (load 4 m (c.ipHdr + 12))) = some mac) :
    ((icmpRx h c).value m).sent = h.sent ++ [echoFrame h mac m c] := by
  have hlen : (echoReply (slice c.len m c.data)).length = c.len := by simp
  have hvalue : (icmpRx h c).value m = (ipv4Send h (ntohl (load 4 m (c.ipHdr + 12))) ipProtoIcmp
      (echoReply (slice c.len m c.data))).2 := by
    simp [icmpRx, Nat.not_lt_of_le hmin, hsum, htype, hreply]
  rw [hvalue, sent_ipv4Send (by rwa [hlen]) (by rwa [hlen]) hcached, echoFrame]

/-- **An echo request is answered with one frame.** -/
theorem icmpRx_echo (h : NetHost) (mac : Mac) (m : Mem) (c : IcmpCall) :
    (icmpHeaderSize ≤ c.len ∧ c.len ≤ 1480 → (ipv4Checksum c.data c.len).value m = 0 →
      m c.data = icmpEchoRequest →
      (h.kmalloc c.len = true ∧ h.kmalloc (ipv4HeaderSize + c.len) = true ∧
        h.kmalloc (max 64 (ethHeaderLen + ipv4HeaderSize + c.len)) = true) →
      arpLookup h.arpCache (ntohl (load 4 m (c.ipHdr + 12))) = some mac →
      ∃ frame, ((icmpRx h c).value m).sent = h.sent ++ [frame] ∧
        frame.length = max 60 (ethHeaderLen + ipv4HeaderSize + c.len) ∧
        ∀ m', Holds m' 0 frame → EchoReplyIn h mac m c m') ∧
    (m c.data ≠ icmpEchoRequest ∨ (ipv4Checksum c.data c.len).value m ≠ 0 →
      ((icmpRx h c).value m).sent = h.sent) := by
  refine ⟨fun hlen hsum htype hheap hcached => ?_, fun hbad => ?_⟩
  · obtain ⟨hreply, hpkt, hframe⟩ := hheap
    exact ⟨echoFrame h mac m c, sent_icmpRx_echo hlen.1 hsum htype hreply hpkt hframe hcached,
      length_echoFrame, fun m' hm' => echoReplyIn_echoFrame hlen.1 hlen.2 hm'⟩
  · rw [value_icmpRx_drop hbad]

/-- A request of 10 bytes from 10.0.0.2 to `exampleSender`. -/
def examplePing : List UInt8 :=
  ethFrame (Vector.replicate 6 1) (Vector.replicate 6 2) ethTypeIpv4
    (ipv4Packet (freshHost (Vector.replicate 6 2) 0x0A000002) 0x0A000001 ipProtoIcmp
      (storeChecksum [icmpEchoRequest, 0, 0, 0, 0x12, 0x34, 0, 1, 0x61, 0x62] 2))

theorem icmpRx_examplePing :
    ∃ frame, ((icmpRx exampleSender ⟨14, 34, 10⟩).value (ofList examplePing)).sent = [frame] ∧
      frame.length = 60 ∧
      ∀ m', Holds m' 0 frame →
        EchoReplyIn exampleSender (Vector.replicate 6 2) (ofList examplePing) ⟨14, 34, 10⟩ m' :=
  (icmpRx_echo exampleSender (Vector.replicate 6 2) (ofList examplePing) ⟨14, 34, 10⟩).1
    (by decide) (by decide +kernel) (by decide +kernel) ⟨rfl, rfl, rfl⟩ (by decide +kernel)

end DevOs
