import DevOs.Net.Transmit

/-!
The stack on top of the RTL8139 does what the hosts of the other modules do.
-/

namespace DevOs

open ByteMem Buffer Device Dialog

def RtlWrite.frame? : RtlWrite → Option (List UInt8)
  | .tsad _ _ => none
  | .tsd _ _ frame => some frame

def rtlReady : Answers := fun _ => 1 <<< 13

def fitting (frames : List (List UInt8)) : List (List UInt8) :=
  frames.filter fun frame => frame.length ≤ rtlTxBufSize

/-- A host is a kernel without the memory: they have the same variables, and the heap
has room for the same sizes. -/
structure Models (e : NetEnv) (k : NetKernel) (h : NetHost) : Prop where
  mac : h.mac = e.mac
  gMyIp : h.gMyIp = k.gMyIp
  gIpId : h.gIpId = k.gIpId
  myIp : h.myIp = k.myIp
  arpCache : h.arpCache = k.arpCache
  room : ∀ request size, e.room request size = h.kmalloc size

/-- A program does what a host does that had `sent` in its log before: it ends in a
kernel for the host, and the device is given the frames that were added to the log. -/
structure SendsAs {α : Type} (e : NetEnv) (p : RtlIo α) (kernel : α → NetKernel)
    (sent : List (List UInt8)) (h : NetHost) : Prop where
  models : Models e (kernel (p.value rtlReady)) h
  frames : ∃ frames, h.sent = sent ++ frames ∧
    (p.writes rtlReady).filterMap RtlWrite.frame? = fitting frames

variable {α β : Type} {e : NetEnv} {k : NetKernel} {h h1 h2 : NetHost} {p : RtlIo α}
  {sent : List (List UInt8)}
  {f : α → RtlIo β} {kernel : α → NetKernel} {kernel' : β → NetKernel} {payload : Mem} {len : Nat}

theorem Models.request (hm : Models e k h) : Models e k.request h :=
  ⟨hm.mac, hm.gMyIp, hm.gIpId, hm.myIp, hm.arpCache, hm.room⟩

theorem sendsAs_pure {a : α} (hm : Models e (kernel a) h) : SendsAs e (pure a) kernel h.sent h :=
  ⟨hm, [], (List.append_nil _).symm, rfl⟩

theorem SendsAs.bind (hp : SendsAs e p kernel sent h1)
    (hf : SendsAs e (f (p.value rtlReady)) kernel' h1.sent h2) :
    SendsAs e (p >>= f) kernel' sent h2 := by
  have hrest : p.rest rtlReady = rtlReady := rest_const p (1 <<< 13)
  obtain ⟨hmodels, frames, hsent, hwrites⟩ := hf
  obtain ⟨-, before, hbefore, hwrites'⟩ := hp
  constructor
  · rwa [value_bind, hrest]
  · refine ⟨before ++ frames, by rw [hsent, hbefore, List.append_assoc], ?_⟩
    rw [writes_bind, hrest, List.filterMap_append, hwrites', hwrites, fitting, fitting,
      fitting, List.filter_append]

theorem rtl8139Send_ready (rtl : RtlTx) (data : Mem) (hlen : 60 ≤ len) :
    ((rtl8139Send rtl data len).writes rtlReady).filterMap RtlWrite.frame? =
      fitting [slice len data 0] := by
  have hspin : (spin 32 (RtlReg.tsd (rtl.txCur % rtlTxDescs))
      (fun v => v &&& 1 <<< 13 != 0) 1000000 : RtlIo Nat).value rtlReady = 1000000 :=
    (spin_of_first (Nat.zero_le _) (fun i hi => absurd hi (Nat.not_lt_zero i)) rfl).1
  unfold rtl8139Send
  by_cases hlong : rtlTxBufSize < len
  · rw [if_pos hlong]
    simp [fitting, Nat.not_le_of_lt hlong]
  · have hfit : len ≤ rtlTxBufSize := Nat.le_of_not_lt hlong
    have hsize : len &&& 0x1FFF = len := by
      rw [Nat.and_two_pow_sub_one_eq_mod len 13]
      exact Nat.mod_eq_of_lt (Nat.lt_of_le_of_lt hfit (by decide))
    rw [if_neg hlong, if_neg (Nat.not_lt_of_le hlen), hsize]
    simp only [writes_bind, writes_spin, hspin, writes_ite,
      writes_write, writes_pure, slice_copyFrom (Nat.le_refl len)]
    rw [fitting, List.filter_cons_of_pos (by simpa using hfit)]
    rfl

section

variable (hm : Models e k h)
include hm

theorem sendsAs_ethTxOn (dst : Mac) (ethertype : Nat) :
    SendsAs e (ethTxOn e k dst ethertype payload len) Prod.snd h.sent
      (ethTx h dst ethertype (slice len payload 0)).2 := by
  have hframe := slice_ethFrameBlock (e.old k.requests) payload len dst e.mac ethertype
  rw [snd_ethFrameBlock] at hframe
  have hroom := hm.room k.requests (if ethHeaderLen + len < 64 then 64 else ethHeaderLen + len)
  simp only [ethTxOn, ethTx, length_slice, ← hroom, snd_ethFrameBlock]
  by_cases hheap : e.room k.requests (if ethHeaderLen + len < 64 then 64 else ethHeaderLen + len)
  · rw [if_pos hheap, if_neg (by simp [hheap]), hm.mac]
    refine ⟨?_, [_], rfl, ?_⟩
    · simp only [value_bind, value_pure]
      exact ⟨rfl, hm.gMyIp, hm.gIpId, hm.myIp, hm.arpCache, hm.room⟩
    · rw [writes_bind, writes_pure, List.append_nil,
        rtl8139Send_ready _ _ (Nat.le_max_left 60 _), hframe]
  · rw [if_neg hheap, if_pos (by simpa using hheap)]
    exact sendsAs_pure hm.request

theorem sendsAs_arpSendOn (dst : Mac) (operation : Nat) (targetMac : Mac)
    (targetIp : Nat) : SendsAs e (arpSendOn e k dst operation targetMac targetIp) id h.sent
      (ethTx h dst ethTypeArp (arpPacket operation h.mac h.myIp targetMac targetIp)).2 := by
  have hpacket := slice_arpPacketBlock (e.old k.requests) operation k.myIp targetIp e.mac targetMac
  rw [hm.mac, hm.myIp, ← hpacket]
  have hsent := @sendsAs_ethTxOn _ _ _ (arpPacketBlock (e.old k.requests) operation e.mac k.myIp
    targetMac targetIp) arpPacketSize hm.request dst ethTypeArp
  exact hsent.bind (sendsAs_pure hsent.models)

theorem sendsAs_arpResolveOn (ip : Nat) :
    ((arpResolveOn e k ip).value rtlReady).1 = (arpResolve h ip).1 ∧
      SendsAs e (arpResolveOn e k ip) Prod.snd h.sent (arpResolve h ip).2 := by
  unfold arpResolveOn arpResolve
  rw [hm.arpCache]
  cases arpLookup k.arpCache ip with
  | some mac => exact ⟨rfl, sendsAs_pure hm⟩
  | none =>
    have hsent := sendsAs_arpSendOn hm ethBroadcast arpRequest zeroMac (htonl ip)
    exact ⟨congrArg Prod.fst value_bind, hsent.bind (sendsAs_pure hsent.models)⟩

theorem sendsAs_ipv4SendOn (dstIp proto : Nat) :
    SendsAs e (ipv4SendOn e k dstIp proto payload len) Prod.snd h.sent
      (ipv4Send h dstIp proto (slice len payload 0)).2 := by
  have hpkt := slice_ipv4PacketBlock (e.old k.requests) payload len h proto dstIp
  have hroom := hm.room k.requests (ipv4HeaderSize + len)
  rw [hm.gIpId, hm.gMyIp] at hpkt
  simp only [ipv4SendOn, ipv4Send, length_slice, ← hroom]
  by_cases hheap : e.room k.requests (ipv4HeaderSize + len)
  · rw [if_pos hheap, if_neg (by simp [hheap])]
    have hm' : Models e { k.request with gIpId := (k.gIpId + 1) % 2 ^ 16 }
        { h with gIpId := (h.gIpId + 1) % 2 ^ 16 } :=
      ⟨hm.mac, hm.gMyIp, by rw [hm.gIpId], hm.myIp, hm.arpCache, hm.room⟩
    obtain ⟨hmac, hsent⟩ := sendsAs_arpResolveOn hm' dstIp
    generalize arpResolve { h with gIpId := (h.gIpId + 1) % 2 ^ 16 } dstIp = r at hmac hsent ⊢
    obtain ⟨mac, h1⟩ := r
    refine SendsAs.bind hsent ?_
    rw [hmac]
    cases mac with
    | none => exact sendsAs_pure hsent.models
    | some mac =>
      rw [← hpkt]
      exact sendsAs_ethTxOn hsent.models mac ethTypeIpv4
  · rw [if_neg hheap, if_pos (by simpa using hheap)]
    exact sendsAs_pure hm.request

theorem sendsAs_arpRxOn (m : Mem) (data : Nat) :
    SendsAs e (arpRxOn e k m data len) id h.sent ((arpRx h data len).value m) := by
  unfold arpRxOn
  by_cases hlen : len < arpPacketSize
  · rw [if_pos hlen, arpRx, if_pos hlen]
    exact sendsAs_pure hm
  · have hm' : Models e { k with
          arpCache := arpCacheUpdate k.arpCache (ntohl (load 4 m (data + 14)))
            ((macAt (data + 8)).value m) }
        { h with
          arpCache := arpCacheUpdate h.arpCache (ntohl (load 4 m (data + 14)))
            ((macAt (data + 8)).value m) } :=
      ⟨hm.mac, hm.gMyIp, hm.gIpId, hm.myIp, by rw [hm.arpCache], hm.room⟩
    rw [if_neg hlen, value_arpRx (Nat.le_of_not_lt hlen), arpReceived]
    by_cases hreply : ntohs (load 2 m (data + 6)) = arpRequest ∧
        ntohl (load 4 m (data + 24)) = ntohl h.myIp
    · have hreply' := hreply
      rw [hm.myIp] at hreply'
      rw [if_pos hreply, if_pos hreply']
      exact sendsAs_arpSendOn hm' _ _ _ _
    · have hreply' := hreply
      rw [hm.myIp] at hreply'
      rw [if_neg hreply, if_neg hreply']
      exact @sendsAs_pure NetKernel e _ id _ hm'

theorem sendsAs_icmpRxOn (m : Mem) (c : IcmpCall) :
    SendsAs e (icmpRxOn e k m c) id h.sent ((icmpRx h c).value m) := by
  have hreply := slice_echoReplyBlock (e.old k.requests) m c.data c.len
  have hroom := hm.room k.requests c.len
  simp only [icmpRxOn, icmpRx, Probe.value_ite, Probe.value_bind, Probe.value_pure,
    Probe.value_byte, Probe.value_word, Probe.value_bytes, ← hroom]
  split
  · exact sendsAs_pure hm
  split
  · exact sendsAs_pure hm
  split
  · by_cases hheap : e.room k.requests c.len
    · rw [if_pos hheap, if_neg (by simp [hheap]), ← hreply]
      have hsent := @sendsAs_ipv4SendOn _ _ _
        (echoReplyBlock (e.old k.requests) m c.data c.len) c.len hm.request
        (ntohl (load 4 m (c.ipHdr + 12))) ipProtoIcmp
      exact hsent.bind (sendsAs_pure hsent.models)
    · rw [if_neg hheap, if_pos (by simpa using hheap)]
      exact sendsAs_pure hm.request
  · exact sendsAs_pure hm

end

def hostCall (h : NetHost) : NetCall → NetHost
  | .arpRx m data len => (arpRx h data len).value m
  | .arpResolve ip => (arpResolve h ip).2
  | .icmpRx m c => (icmpRx h c).value m
  | .ipv4Send dstIp proto payload payloadLen =>
    (ipv4Send h dstIp proto (slice payloadLen payload 0)).2

theorem sendsAs_netCall {e : NetEnv} {k : NetKernel} {h : NetHost} (hm : Models e k h)
    (c : NetCall) : SendsAs e (netCall e k c) id h.sent (hostCall h c) := by
  cases c with
  | arpRx m data len => exact sendsAs_arpRxOn hm m data
  | arpResolve ip =>
    have hsent := (sendsAs_arpResolveOn hm ip).2
    exact hsent.bind (sendsAs_pure hsent.models)
  | icmpRx m c => exact sendsAs_icmpRxOn hm m c
  | ipv4Send dstIp proto payload payloadLen =>
    have hsent := @sendsAs_ipv4SendOn e k h payload payloadLen hm dstIp proto
    exact hsent.bind (sendsAs_pure hsent.models)

/-- **The driver sends what the stack sends.** Whatever calls are made, and whatever is in the
blocks and transmit buffers before: the device is given the frames that the abstract host sends,
in their order and with their bytes, except those too long for it. -/
theorem sendsAs_netRun {e : NetEnv} {k : NetKernel} {h : NetHost} (hm : Models e k h)
    (cs : List NetCall) : SendsAs e (netRun e k cs) id h.sent (cs.foldl hostCall h) := by
  induction cs generalizing k h with
  | nil => exact sendsAs_pure hm
  | cons c cs ih =>
    have hsent := sendsAs_netCall hm c
    exact hsent.bind (ih hsent.models)

def exampleHost : NetHost :=
  ⟨zeroMac, 0x0A00020F, 1, 0x0A00020F, exampleKernel.arpCache, fun _ => true, 0, []⟩

theorem sendsAs_netRun_arpResolve :
    let e : NetEnv := ⟨zeroMac, fun _ _ => true, fun _ _ => 0x55⟩
    let c := NetCall.arpResolve 0x0A000203
    (hostCall exampleHost c).sent ≠ [] ∧
      SendsAs e (netRun e exampleKernel [c]) id exampleHost.sent (hostCall exampleHost c) :=
  ⟨by decide +kernel, sendsAs_netRun ⟨rfl, rfl, rfl, rfl, rfl, fun _ _ => rfl⟩ [_]⟩

end DevOs
