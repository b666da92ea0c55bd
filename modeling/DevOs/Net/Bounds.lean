import DevOs.Net.Ipv4

/-!
Which bytes of a received frame the network code reads.
-/

namespace DevOs

open ByteMem Buffer

def IsIpv4 (m : Mem) (len : Nat) : Prop :=
  ethHeaderLen + ipv4HeaderSize ≤ len ∧ ntohs (load 2 m 12) = ethTypeIpv4

/-- `total_length` is not below the header length, the payload is not longer
than the frame, and an ICMP message of at least a header ends where the frame
does or before. -/
structure LengthsFit (m : Mem) (len : Nat) : Prop where
  header : ihlAt m ethHeaderLen ≤ totalLengthAt m ethHeaderLen
  payload : totalLengthAt m ethHeaderLen ≤ ihlAt m ethHeaderLen + len
  icmp : (m (ethHeaderLen + 9)).toNat = ipProtoIcmp →
    ihlAt m ethHeaderLen + icmpHeaderSize ≤ totalLengthAt m ethHeaderLen →
    ethHeaderLen + totalLengthAt m ethHeaderLen ≤ len

variable {h : NetHost} {m : Mem} {n data len : Nat}

theorem safe_arpRx (hlen : data + len ≤ n) : (arpRx h data len).Safe n m := by
  simp [arpRx, arpPacketSize]
  omega

theorem safe_icmpRx_iff {c : IcmpCall} (hip : c.ipHdr + 16 ≤ n) :
    (icmpRx h c).Safe n m ↔ (icmpHeaderSize ≤ c.len → c.data + c.len ≤ n) := by
  unfold icmpHeaderSize
  by_cases hlen : c.len < 8
  · simp [icmpRx, icmpHeaderSize, hlen]
  · constructor
    · intro hs _
      rw [icmpRx, icmpHeaderSize, if_neg hlen, Probe.safe_bind, safe_ipv4Checksum] at hs
      omega
    · intro hfit
      -- the checksum has read the whole message already
      have hdata : c.data + c.len ≤ n := hfit (by omega)
      simp [icmpRx, icmpHeaderSize, hlen]
      grind

theorem safe_ipv4Rx_iff (hlen : ethHeaderLen + len = n) : (ipv4Rx h ethHeaderLen len).Safe n m ↔
      (ipv4HeaderSize ≤ len → ihlAt m ethHeaderLen ≤ n) ∧
      (Ipv4Passes h m ethHeaderLen len → LengthsFit m n) := by
  rw [ipv4Rx, Probe.safe_bind, safe_ipv4Upcall_iff (by omega), value_ipv4Upcall]
  by_cases hpass : Ipv4Passes h m ethHeaderLen len
  · by_cases hicmp : (m (ethHeaderLen + 9)).toNat = ipProtoIcmp
    · have hip : ethHeaderLen + 16 ≤ n := by
        have hlong := hpass.1
        simp only [ipv4HeaderSize] at hlong
        omega
      rw [if_pos ⟨hpass, hicmp⟩]
      dsimp only
      rw [safe_icmpRx_iff hip]
      dsimp only
      constructor
      · intro hsafe
        obtain ⟨⟨hihl, hown⟩, hmsg⟩ := hsafe
        obtain ⟨hheader, hpayload⟩ := hown hpass
        refine ⟨hihl, fun _ => ⟨hheader, hpayload, fun _ hlong => ?_⟩⟩
        rw [payloadLen_eq hheader] at hmsg
        omega
      · intro hfits
        obtain ⟨hihl, hfit⟩ := hfits
        obtain ⟨hheader, hpayload, hmsg⟩ := hfit hpass
        refine ⟨⟨hihl, fun _ => ⟨hheader, hpayload⟩⟩, ?_⟩
        rw [payloadLen_eq hheader]
        have hmsg := hmsg hicmp
        omega
    · rw [if_neg fun hc => hicmp hc.2]
      simp only [Probe.safe_pure, and_true]
      refine and_congr_right fun _ => forall_congr' fun _ => ?_
      exact ⟨fun hown => ⟨hown.1, hown.2, fun hc => absurd hc hicmp⟩,
        fun hfit => ⟨hfit.header, hfit.payload⟩⟩
  · simp [hpass]

/-- **The reads and lengths of `eth_rx`** stay within the frame exactly if the
lengths of its IP header fit. -/
theorem safe_ethRx_iff (h : NetHost) (m : Mem) (len : Nat) :
    (ethRx h len).Safe len m ↔ (IsIpv4 m len → ihlAt m ethHeaderLen ≤ len ∧
      (Ipv4Passes h m ethHeaderLen (len - ethHeaderLen) → LengthsFit m len)) := by
  rw [ethRx, Probe.safe_bind, and_iff_right safe_ethUpcall]
  unfold IsIpv4
  by_cases hshort : len < ethHeaderLen
  · have hno : ¬ ethHeaderLen + ipv4HeaderSize ≤ len := by omega
    simp [ethUpcall, hshort, hno]
  rw [value_ethUpcall (Nat.le_of_not_lt hshort)]
  by_cases harp : ntohs (load 2 m 12) = ethTypeArp
  · have hno : ¬ ntohs (load 2 m 12) = ethTypeIpv4 := by rw [harp]; decide
    rw [if_pos harp]
    exact iff_of_true (safe_arpRx (by omega)) fun hc => absurd hc.2 hno
  rw [if_neg harp]
  by_cases hip : ntohs (load 2 m 12) = ethTypeIpv4
  · rw [if_pos hip]
    dsimp only
    rw [safe_ipv4Rx_iff (by omega)]
    have hlong : ipv4HeaderSize ≤ len - ethHeaderLen ↔ ethHeaderLen + ipv4HeaderSize ≤ len := by
      omega
    have hpass : Ipv4Passes h m ethHeaderLen (len - ethHeaderLen) →
        ethHeaderLen + ipv4HeaderSize ≤ len := fun hc => hlong.mp hc.1
    rw [hlong]
    tauto
  · rw [if_neg hip]
    simp [hip]

def longDatagram : List UInt8 :=
  ethFrame (Vector.replicate 6 2) (Vector.replicate 6 1) ethTypeIpv4
    ([0x45, 0, 0, 100, 0, 1, 0, 0, 64, 1, 0x66, 0x96, 10, 0, 0, 1, 10, 0, 0, 2] ++
      List.replicate 26 0)

/-- **The checksum of `icmp_rx` reads on behind the frame.** -/
theorem ethRx_reads_behind_frame :
    longDatagram.length = 60 ∧
      .byte 113 ∈ (ethRx (freshHost (Vector.replicate 6 2) 0x0A000002) 60).trace
        (ofList longDatagram) := by
  decide +kernel

end DevOs
