import DevOs.Net.Ipv4

/-!
What `ipv4_send` encodes, `eth_rx` and `ipv4_rx` decode, for the sizes that
`ipv4_rx` lets through.
-/

namespace DevOs

open ByteMem Buffer Probe

/-- Received by `h`, the frame makes `ipv4_rx` call `icmp_rx` with the message,
whatever follows the frame in memory. -/
def DeliversTo (h : NetHost) (frame message : List UInt8) : Prop :=
  ∀ m, Holds m 0 frame →
    ∃ c, (icmpCall h frame.length).value m = some c ∧ slice c.len m c.data = message

section

variable {m : Mem} {a total id proto src dst checksum : Nat} {sum : Nat}

theorem encode_four (v : Nat) : encode 4 v = encode 2 v ++ encode 2 (v / 65536) := by
  simp [encode, Nat.div_div_eq_div_mul]

structure HeaderWords (m : Mem) (a total id proto src dst checksum : Nat) : Prop where
  version : m a = 0x45 ∧ m (a + 1) = 0
  total : load 2 m (a + 2) = htons (total % 2 ^ 16)
  id : load 2 m (a + 4) = htons id
  flags : load 2 m (a + 6) = 0
  ttl : m (a + 8) = 64
  proto : m (a + 9) = UInt8.ofNat proto
  checksum : load 2 m (a + 10) = checksum % 2 ^ 16
  src : load 2 m (a + 12) = htonl src % 2 ^ 16 ∧ load 2 m (a + 14) = htonl src / 2 ^ 16
  dst : load 2 m (a + 16) = htonl dst % 2 ^ 16 ∧ load 2 m (a + 18) = htonl dst / 2 ^ 16

theorem headerWords (h : Holds m a (ipv4Header total id proto src dst checksum)) :
    HeaderWords m a total id proto src dst checksum := by
  simp only [ipv4Header, encode_four, holds_append, holds_cons, holds_nil, length_encode,
    List.length_append, List.length_cons, List.length_nil, Nat.add_assoc, Nat.reduceAdd,
    and_true] at h
  obtain ⟨⟨⟨⟨⟨⟨⟨hversion, htotal⟩, hid⟩, hflags⟩, httl, hproto⟩, hchecksum⟩, hsrc, hsrc'⟩, hdst,
    hdst'⟩ := h
  have hs := htonl_lt src
  have hd := htonl_lt dst
  exact {
    version := hversion
    total := load_of_holds_of_lt htotal (htons_lt _)
    id := load_of_holds_of_lt hid (htons_lt _)
    flags := load_of_holds hflags
    ttl := httl
    proto := hproto
    checksum := load_of_holds hchecksum
    src := ⟨load_of_holds hsrc, load_of_holds_of_lt hsrc' (by omega)⟩
    dst := ⟨load_of_holds hdst, load_of_holds_of_lt hdst' (by omega)⟩ }

def headerSum (total id proto src dst : Nat) : Nat :=
  0x45 + htons (total % 2 ^ 16) + htons id + (64 + 256 * (UInt8.ofNat proto).toNat) +
    htonl src % 2 ^ 16 + htonl src / 2 ^ 16 + htonl dst % 2 ^ 16 + htonl dst / 2 ^ 16

theorem headerSum_lt : headerSum total id proto src dst < 9 * 2 ^ 16 := by
  have h1 := htons_lt (total % 2 ^ 16)
  have h2 := htons_lt id
  have h3 := htonl_lt src
  have h4 := htonl_lt dst
  have h5 := (UInt8.ofNat proto).toNat_lt
  unfold headerSum
  omega

def wordSum : Nat → Mem → Nat → Nat
  | 0, _, _ => 0
  | k + 1, m, a => load 2 m a + wordSum k m (a + 2)

theorem value_sumWords (k : Nat) (hsum : sum < 2 ^ 32) :
    (sumWords (2 * k) a sum).value m = (sum + wordSum k m a) % 2 ^ 32 := by
  induction k generalizing a sum with
  | zero => exact (Nat.mod_eq_of_lt hsum).symm
  | succ k ih =>
    rw [Nat.mul_succ, sumWords, value_bind, value_bind, value_word,
      ih (Nat.mod_lt _ (by decide)), wordSum, Nat.mod_add_mod, Nat.add_assoc]

theorem wordSum_header (h : HeaderWords m a total id proto src dst checksum) :
    wordSum 10 m a = headerSum total id proto src dst + checksum % 2 ^ 16 := by
  have hfirst : load 2 m a = 0x45 := by simp [load, h.version.1, h.version.2]
  have hninth : load 2 m (a + 8) = 64 + 256 * (UInt8.ofNat proto).toNat := by
    simp [load, h.ttl, h.proto]
  simp only [wordSum, Nat.add_assoc, Nat.reduceAdd, hfirst, hninth, h.total, h.id, h.flags,
    h.checksum, h.src.1, h.src.2, h.dst.1, h.dst.2, headerSum]
  omega

theorem value_ipv4Checksum_header (h : HeaderWords m a total id proto src dst checksum) :
    (ipv4Checksum a ipv4HeaderSize).value m = (2 ^ 32 - 1 -
      foldCarry 2 (headerSum total id proto src dst + checksum % 2 ^ 16)) % 2 ^ 16 := by
  have hlt : headerSum total id proto src dst < 9 * 2 ^ 16 := headerSum_lt
  have hsum : (sumWords ipv4HeaderSize a 0).value m =
      headerSum total id proto src dst + checksum % 2 ^ 16 := by
    rw [show ipv4HeaderSize = 2 * 10 from rfl, value_sumWords 10 (by decide), wordSum_header h]
    omega
  rw [ipv4Checksum, value_bind, hsum, value_pure]

theorem foldCarry_mod (n sum : Nat) : foldCarry n sum % 65535 = sum % 65535 := by
  induction n generalizing sum with
  | zero => rfl
  | succ n ih =>
    rw [foldCarry_succ]
    split
    · rw [ih]
      omega
    · rfl

theorem foldCarry_pos (n : Nat) (h : 0 < sum) : 0 < foldCarry n sum := by
  induction n generalizing sum with
  | zero => exact h
  | succ n ih =>
    rw [foldCarry_succ]
    split
    · exact ih (by omega)
    · exact h

theorem checksum_complement (hlt : sum < 2 ^ 31) :
    (2 ^ 32 - 1 - foldCarry 2 (sum + (2 ^ 32 - 1 - foldCarry 2 sum) % 2 ^ 16)) % 2 ^ 16 = 0 := by
  have hfold : foldCarry 2 sum < 2 ^ 16 := foldCarry_lt (by omega)
  have hmod := foldCarry_mod 2 sum
  have hzero : sum = 0 → foldCarry 2 sum = 0 := by
    rintro rfl
    rfl
  have hcompl : (2 ^ 32 - 1 - foldCarry 2 sum) % 2 ^ 16 = 65535 - foldCarry 2 sum := by omega
  rw [hcompl]
  generalize foldCarry 2 sum = f at hfold hmod hzero ⊢
  have hfold' : foldCarry 2 (sum + (65535 - f)) < 2 ^ 16 := foldCarry_lt (by omega)
  have hpos' : 0 < foldCarry 2 (sum + (65535 - f)) := foldCarry_pos 2 (by omega)
  have hmod' := foldCarry_mod 2 (sum + (65535 - f))
  omega

end

variable {sender receiver : NetHost} {m : Mem} {a len dstIp proto : Nat} {payload : List UInt8}

@[simp] theorem length_ipv4Packet :
    (ipv4Packet sender dstIp proto payload).length = ipv4HeaderSize + payload.length := by
  simp [ipv4Packet, ipv4Header, ipv4HeaderSize]
  omega

theorem packet_received (h : Holds m a (ipv4Packet sender dstIp proto payload)) :
    ∃ checksum, HeaderWords m a (ipv4HeaderSize + payload.length) sender.gIpId proto sender.gMyIp
        dstIp checksum ∧
      (ipv4Checksum a ipv4HeaderSize).value m = 0 ∧ Holds m (a + ipv4HeaderSize) payload := by
  simp only [ipv4Packet] at h
  rw [holds_append] at h
  have hwords := headerWords h.1
  have hzero := headerWords (holds_ofList (ipv4Header (ipv4HeaderSize + payload.length)
    sender.gIpId proto sender.gMyIp dstIp 0))
  refine ⟨_, hwords, ?_, by simpa [ipv4Header, ipv4HeaderSize] using h.2⟩
  have hlt : headerSum (ipv4HeaderSize + payload.length) sender.gIpId proto sender.gMyIp
      dstIp < 9 * 2 ^ 16 := headerSum_lt
  rw [value_ipv4Checksum_header hwords, value_ipv4Checksum_header hzero, Nat.mod_mod,
    Nat.zero_mod, Nat.add_zero]
  exact checksum_complement (by omega)

theorem ipv4Passes_packet_iff (h : Holds m a (ipv4Packet sender dstIp proto payload))
    (hdst : receiver.gMyIp = dstIp) (hip : dstIp < 2 ^ 32) (hlen : ipv4HeaderSize ≤ len) :
    Ipv4Passes receiver m a len ↔ 20 ≤ len % 2 ^ 8 := by
  obtain ⟨checksum, hwords, hsum, -⟩ := packet_received h
  have hihl : ihlAt m a = ipv4HeaderSize := by
    rw [ihlAt, hwords.version.1]
    decide
  have haddr : ntohl (load 4 m (a + 16)) = receiver.gMyIp := by
    have hsplit : load 4 m (a + 16) = load 2 m (a + 16) + 2 ^ 16 * load 2 m (a + 18) := by
      simp only [load, Nat.add_assoc, Nat.reduceAdd]
      omega
    rw [hsplit, hwords.dst.1, hwords.dst.2, Nat.mod_add_div, ntohl, htonl_htonl hip, hdst]
  have hmin : 20 ≤ ipv4HeaderSize := Nat.le_refl _
  rw [Ipv4Passes, hihl, and_iff_right hlen, and_iff_right hmin, hsum, haddr]
  simp [ipv4HeaderSize]

theorem icmpCall_packet {dst src : Mac} (hdst : receiver.gMyIp = dstIp) (hip : dstIp < 2 ^ 32)
    (hlen : payload.length ≤ 1480)
    (h : Holds m 0 (ethFrame dst src ethTypeIpv4 (ipv4Packet sender dstIp ipProtoIcmp payload))) :
    (icmpCall receiver (ethFrame dst src ethTypeIpv4
        (ipv4Packet sender dstIp ipProtoIcmp payload)).length).value m =
      if payload.length % 256 < 236 then
        some ⟨ethHeaderLen, ethHeaderLen + ipv4HeaderSize, payload.length⟩ else none := by
  obtain ⟨htype, hpacket⟩ := holds_ethFrame h
  have hethertype : ntohs (load 2 m 12) = ethTypeIpv4 := by
    rw [load_of_holds_of_lt htype (htons_lt _), ntohs, htons_htons (by decide)]
  have hethlen : (ethFrame dst src ethTypeIpv4
      (ipv4Packet sender dstIp ipProtoIcmp payload)).length = max 60 (34 + payload.length) := by
    rw [length_ethFrame, length_ipv4Packet, ethHeaderLen, ipv4HeaderSize]
    omega
  obtain ⟨checksum, hwords, -, -⟩ := packet_received hpacket
  have hihl : ihlAt m ethHeaderLen = ipv4HeaderSize := by
    rw [ihlAt, hwords.version.1]
    decide
  have htotal : totalLengthAt m ethHeaderLen = ipv4HeaderSize + payload.length := by
    rw [totalLengthAt, hwords.total, ntohs, htons_htons (Nat.mod_lt _ (by decide))]
    unfold ipv4HeaderSize
    omega
  rw [icmpCall, value_bind, hethlen, value_ethUpcall (by unfold ethHeaderLen; omega),
    hethertype, if_neg (by decide), if_pos rfl]
  dsimp only
  have hlow : (Ipv4Passes receiver m ethHeaderLen (max 60 (34 + payload.length) - ethHeaderLen) ∧
      (m (ethHeaderLen + 9)).toNat = ipProtoIcmp) ↔ payload.length % 256 < 236 := by
    rw [hwords.proto, and_iff_left (by decide),
      ipv4Passes_packet_iff hpacket hdst hip (by unfold ethHeaderLen ipv4HeaderSize; omega)]
    unfold ethHeaderLen
    omega
  have hpayload : (((totalLengthAt m ethHeaderLen : Int) - ihlAt m ethHeaderLen) % 2 ^ 64).toNat =
      payload.length := by
    rw [payloadLen_eq (by omega), htotal, hihl, Nat.add_sub_cancel_left]
  rw [value_ipv4Upcall, hpayload, hihl]
  simp only [hlow]

theorem frame_of_ipv4Send {mac : Mac} {frame : List UInt8}
    (hcached : arpLookup sender.arpCache dstIp = some mac)
    (hsent : (ipv4Send sender dstIp proto payload).2.sent = sender.sent ++ [frame]) :
    frame = ethFrame mac sender.mac ethTypeIpv4 (ipv4Packet sender dstIp proto payload) := by
  unfold ipv4Send at hsent
  split at hsent
  · simp at hsent
  · simp only [arpResolve, hcached] at hsent
    obtain hnone | hframe := sent_ethTx { sender with gIpId := (sender.gIpId + 1) % 2 ^ 16 } mac
      ethTypeIpv4 (ipv4Packet sender dstIp proto payload)
    · rw [hnone] at hsent
      simp at hsent
    · rw [hframe] at hsent
      simpa using hsent.symm

/-- **An ICMP message arrives** exactly if its length is below 236 modulo 256:
otherwise `ipv4_rx` drops it. -/
theorem deliversTo_iff {mac : Mac} {frame : List UInt8}
    (hcached : arpLookup sender.arpCache dstIp = some mac)
    (hsent : (ipv4Send sender dstIp ipProtoIcmp payload).2.sent = sender.sent ++ [frame])
    (hdst : receiver.gMyIp = dstIp) (hip : dstIp < 2 ^ 32)
    (hlen : 8 ≤ payload.length ∧ payload.length ≤ 1480) :
    DeliversTo receiver frame payload ↔ payload.length % 256 < 236 := by
  rw [frame_of_ipv4Send hcached hsent]
  constructor
  · intro hdeliver
    obtain ⟨c, hc, -⟩ := hdeliver _ (holds_ofList _)
    rw [icmpCall_packet hdst hip hlen.2 (holds_ofList _)] at hc
    split at hc
    · assumption
    · cases hc
  · intro hlow m hm
    refine ⟨_, by rw [icmpCall_packet hdst hip hlen.2 hm, if_pos hlow], ?_⟩
    obtain ⟨_, _, _, hpayload⟩ := packet_received (holds_ethFrame hm).2
    exact hpayload

def exampleSender : NetHost :=
  { freshHost (Vector.replicate 6 1) 0x0A000001 with
    arpCache := [⟨0x0A000002, Vector.replicate 6 2, true⟩] }

theorem deliversTo_ping :
    ∃ frame, (ipv4Send exampleSender 0x0A000002 ipProtoIcmp (List.replicate 64 7)).2.sent =
        exampleSender.sent ++ [frame] ∧
      DeliversTo (freshHost (Vector.replicate 6 2) 0x0A000002) frame (List.replicate 64 7) := by
  have hcached : arpLookup exampleSender.arpCache 0x0A000002 = some (Vector.replicate 6 2) := by
    decide
  exact ⟨_, rfl, (deliversTo_iff hcached rfl rfl (by decide) (by decide)).mpr (by decide)⟩

theorem icmpCall_none_of_236 :
    ∃ frame, (ipv4Send exampleSender 0x0A000002 ipProtoIcmp (List.replicate 236 7)).2.sent =
        [frame] ∧
      (icmpCall (freshHost (Vector.replicate 6 2) 0x0A000002) frame.length).value
        (ofList frame) = none :=
  ⟨_, rfl, by decide +kernel⟩

end DevOs
