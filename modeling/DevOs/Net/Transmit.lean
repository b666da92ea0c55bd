import DevOs.Drivers.Rtl8139
import DevOs.Net.Blocks

/-!
The stack on top of the RTL8139, with the memory that it builds its packets in, down to what
`rtl8139_send` tells the device.
-/

namespace DevOs

open ByteMem Buffer Device Dialog

/-- What a run does not choose itself: the hardware address of the device, whether
the heap has room for a request, and what was in the memory before. Requests are
numbered; the packets of `arp.c` are on the stack, and count as requests that are
always granted. -/
structure NetEnv where
  mac : Mac
  room : (request size : Nat) → Bool
  old : (request : Nat) → Mem

/-- The static variables of `ipv4.c`, `arp.c` and `rtl8139.c`, and the number of
requests so far. -/
structure NetKernel where
  gMyIp : Nat
  gIpId : Nat
  myIp : Nat
  arpCache : List ArpEntry
  rtl : RtlTx
  requests : Nat

def NetKernel.request (k : NetKernel) : NetKernel := { k with requests := k.requests + 1 }

def ethTxOn (e : NetEnv) (k : NetKernel) (dst : Mac) (ethertype : Nat) (payload : Mem)
    (payloadLen : Nat) : RtlIo (Int × NetKernel) :=
  let total := ethHeaderLen + payloadLen
  if e.room k.requests (if total < 64 then 64 else total) then do
    let frame := ethFrameBlock (e.old k.requests) dst e.mac ethertype payload payloadLen
    let r ← rtl8139Send k.rtl frame.1 frame.2
    pure (r.1, { k.request with rtl := r.2 })
  else pure (-1, k.request)

/-- The packet of `arp_rx` or `arp_resolve`, and its way to the device. -/
def arpSendOn (e : NetEnv) (k : NetKernel) (dst : Mac) (operation : Nat) (targetMac : Mac)
    (targetIp : Nat) : RtlIo NetKernel := do
  let packet := arpPacketBlock (e.old k.requests) operation e.mac k.myIp targetMac targetIp
  let r ← ethTxOn e k.request dst ethTypeArp packet arpPacketSize
  pure r.2

def arpResolveOn (e : NetEnv) (k : NetKernel) (ip : Nat) : RtlIo (Option Mac × NetKernel) :=
  match arpLookup k.arpCache ip with
  | some mac => pure (some mac, k)
  | none => do
    let k ← arpSendOn e k ethBroadcast arpRequest zeroMac (htonl ip)
    pure (none, k)

def ipv4SendOn (e : NetEnv) (k : NetKernel) (dstIp proto : Nat) (payload : Mem)
    (payloadLen : Nat) : RtlIo (Int × NetKernel) :=
  let total := ipv4HeaderSize + payloadLen
  if e.room k.requests total then do
    let pkt := ipv4PacketBlock (e.old k.requests) k.gIpId proto k.gMyIp dstIp payload payloadLen
    let r ← arpResolveOn e { k.request with gIpId := (k.gIpId + 1) % 2 ^ 16 } dstIp
    match r.1 with
    | none => pure (-1, r.2)
    | some mac => ethTxOn e r.2 mac ethTypeIpv4 pkt total
  else pure (-1, k.request)

def arpRxOn (e : NetEnv) (k : NetKernel) (m : Mem) (data len : Nat) : RtlIo NetKernel :=
  if len < arpPacketSize then pure k
  else
    let senderMac := (macAt (data + 8)).value m
    let senderIp := load 4 m (data + 14)
    let k := { k with arpCache := arpCacheUpdate k.arpCache (ntohl senderIp) senderMac }
    if ntohs (load 2 m (data + 6)) = arpRequest ∧
        ntohl (load 4 m (data + 24)) = ntohl k.myIp then
      arpSendOn e k senderMac arpReply senderMac senderIp
    else pure k

def icmpRxOn (e : NetEnv) (k : NetKernel) (m : Mem) (c : IcmpCall) : RtlIo NetKernel :=
  if c.len < icmpHeaderSize then pure k
  else if (ipv4Checksum c.data c.len).value m ≠ 0 then pure k
  else if m c.data = icmpEchoRequest then
    if e.room k.requests c.len then do
      let reply := echoReplyBlock (e.old k.requests) m c.data c.len
      let src := load 4 m (c.ipHdr + 12)
      let r ← ipv4SendOn e k.request (ntohl src) ipProtoIcmp reply c.len
      pure r.2
    else pure k.request
  else pure k

inductive NetCall where
  | arpRx (m : Mem) (data len : Nat)
  | arpResolve (ip : Nat)
  | icmpRx (m : Mem) (c : IcmpCall)
  | ipv4Send (dstIp proto : Nat) (payload : Mem) (payloadLen : Nat)

def netCall (e : NetEnv) (k : NetKernel) : NetCall → RtlIo NetKernel
  | .arpRx m data len => arpRxOn e k m data len
  | .arpResolve ip => do
    let r ← arpResolveOn e k ip
    pure r.2
  | .icmpRx m c => icmpRxOn e k m c
  | .ipv4Send dstIp proto payload payloadLen => do
    let r ← ipv4SendOn e k dstIp proto payload payloadLen
    pure r.2

def netRun (e : NetEnv) : NetKernel → List NetCall → RtlIo NetKernel
  | k, [] => pure k
  | k, c :: cs => do
    let k ← netCall e k c
    netRun e k cs

/-- Two calls with the same arguments for one received frame, which is at the start of the
memory that `arp_rx` and `icmp_rx` are given: the `frame` bytes are the same, what lies behind
them need not be. -/
inductive NetCall.Same (frame : Nat) : NetCall → NetCall → Prop where
  | arpRx {m m' data len} (hlen : data + len ≤ frame) (h : ∀ x < frame, m x = m' x) :
      Same frame (.arpRx m data len) (.arpRx m' data len)
  | arpResolve (ip) : Same frame (.arpResolve ip) (.arpResolve ip)
  | icmpRx {m m' c} (hdr : c.ipHdr + ipv4HeaderSize ≤ frame) (h : ∀ x < frame, m x = m' x) :
      Same frame (.icmpRx m c) (.icmpRx m' c)
  | ipv4Send {dstIp proto payload payload' payloadLen}
      (h : ∀ x < payloadLen, payload x = payload' x) :
      Same frame (.ipv4Send dstIp proto payload payloadLen)
        (.ipv4Send dstIp proto payload' payloadLen)

/-- A message that `icmp_rx` looks at ends within the received frame. `ipv4_rx` takes its
length from the IP header and does not compare it with that of the frame. -/
def NetCall.InFrame (frame : Nat) : NetCall → Prop
  | .icmpRx _ c => icmpHeaderSize ≤ c.len → c.data + c.len ≤ frame
  | _ => True

/-- The calls that two runs make for the same reason. -/
structure NetPair where
  frame : Nat
  call : NetCall
  call' : NetCall
  same : call.Same frame call'

def NetKernel.withTx (k : NetKernel) (txMem : Nat → Mem) : NetKernel :=
  { k with rtl := { k.rtl with txMem := txMem } }

def NetKernel.Same (k k' : NetKernel) : Prop := ∃ txMem, k' = k.withTx txMem

def NetEnv.withOld (e : NetEnv) (old : Nat → Mem) : NetEnv := { e with old := old }

variable {e : NetEnv} {old' : Nat → Mem} {k k' : NetKernel} {rtl : RtlTx} {txMem : Nat → Mem}
  {data data' payload payload' : Mem} {len : Nat} {m m' : Mem}

theorem slice_copyFrom {m : Mem} {n : Nat} (h : n ≤ len) :
    slice n (copyFrom m data len) 0 = slice n data 0 :=
  slice_eq_iff.mpr fun x _ hx => if_pos (by omega)

theorem rel_rtl8139Send (hlen : 60 ≤ len) (hdata : slice len data 0 = slice len data' 0) :
    Dialog.Rel (fun r r' => r.1 = r'.1 ∧ ∃ t, r'.2 = { r.2 with txMem := t })
      (rtl8139Send rtl data len) (rtl8139Send { rtl with txMem := txMem } data' len) := by
  have hsize : (if len < 60 then 60 else len) &&& 0x1FFF ≤ len := by
    rw [if_neg (Nat.not_lt_of_le hlen)]
    exact Nat.and_le_left
  have hframe : slice ((if len < 60 then 60 else len) &&& 0x1FFF) data 0 =
      slice ((if len < 60 then 60 else len) &&& 0x1FFF) data' 0 :=
    slice_eq_iff.mpr fun x hlo hx => slice_eq_iff.mp hdata x hlo (by omega)
  unfold rtl8139Send
  refine rel_ite (fun _ => rel_pure ⟨rfl, txMem, rfl⟩) fun _ => ?_
  refine rel_bind_left _ fun timeout => ?_
  refine rel_ite (fun _ => rel_pure ⟨rfl, txMem, rfl⟩) fun _ => ?_
  simp only [slice_copyFrom hsize, hframe]
  refine rel_bind_left _ fun _ => rel_bind_left _ fun _ => ?_
  exact rel_pure ⟨rfl, _, rfl⟩

theorem rel_ethTxOn (hk : k.Same k') (dst : Mac) (ethertype : Nat)
    (hpayload : slice len payload 0 = slice len payload' 0) :
    Dialog.Rel (fun r r' => r.1 = r'.1 ∧ r.2.Same r'.2) (ethTxOn e k dst ethertype payload len)
      (ethTxOn (e.withOld old') k' dst ethertype payload' len) := by
  obtain ⟨txMem, rfl⟩ := hk
  have hframe : slice (max 60 (ethHeaderLen + len))
        (ethFrameBlock (e.old k.requests) dst e.mac ethertype payload len).1 0 =
      slice (max 60 (ethHeaderLen + len))
        (ethFrameBlock (old' k.requests) dst e.mac ethertype payload' len).1 0 := by
    have h := slice_ethFrameBlock (e.old k.requests) payload len dst e.mac ethertype
    have h' := slice_ethFrameBlock (old' k.requests) payload' len dst e.mac ethertype
    rw [snd_ethFrameBlock] at h h'
    rw [h, h', hpayload]
  unfold ethTxOn
  simp only [snd_ethFrameBlock]
  refine rel_ite (fun _ => ?_) fun _ => rel_pure ⟨rfl, txMem, rfl⟩
  refine (rel_rtl8139Send (Nat.le_max_left 60 _) hframe).bind fun r r' hr => ?_
  obtain ⟨hstatus, t, ht⟩ := hr
  exact rel_pure ⟨hstatus, t, by rw [ht]; rfl⟩

theorem rel_arpSendOn (hk : k.Same k') (dst : Mac) (operation : Nat) (targetMac : Mac)
    (targetIp : Nat) : Dialog.Rel NetKernel.Same (arpSendOn e k dst operation targetMac targetIp)
      (arpSendOn (e.withOld old') k' dst operation targetMac targetIp) := by
  obtain ⟨txMem, rfl⟩ := hk
  have hpacket : ∀ old, slice arpPacketSize
      (arpPacketBlock old operation e.mac k.myIp targetMac targetIp) 0 = _ := fun old =>
    slice_arpPacketBlock old operation k.myIp targetIp e.mac targetMac
  refine (rel_ethTxOn ⟨txMem, rfl⟩ dst ethTypeArp ((hpacket _).trans (hpacket _).symm)).bind
    fun r r' hr => ?_
  exact rel_pure hr.2

theorem rel_arpResolveOn (hk : k.Same k') (ip : Nat) :
    Dialog.Rel (fun r r' => r.1 = r'.1 ∧ r.2.Same r'.2) (arpResolveOn e k ip)
      (arpResolveOn (e.withOld old') k' ip) := by
  have hcache : k'.arpCache = k.arpCache := by
    obtain ⟨txMem, rfl⟩ := hk
    rfl
  unfold arpResolveOn
  rw [hcache]
  cases arpLookup k.arpCache ip with
  | some mac => exact rel_pure ⟨rfl, hk⟩
  | none => exact (rel_arpSendOn hk _ _ _ _).bind fun r r' hr => rel_pure ⟨rfl, hr⟩

theorem rel_ipv4SendOn (hk : k.Same k') (dstIp proto : Nat)
    (hpayload : slice len payload 0 = slice len payload' 0) :
    Dialog.Rel (fun r r' => r.1 = r'.1 ∧ r.2.Same r'.2) (ipv4SendOn e k dstIp proto payload len)
      (ipv4SendOn (e.withOld old') k' dstIp proto payload' len) := by
  obtain ⟨txMem, rfl⟩ := hk
  have hpkt : ∀ old payload, slice (ipv4HeaderSize + len)
      (ipv4PacketBlock old k.gIpId proto k.gMyIp dstIp payload len) 0 = _ := fun old payload =>
    slice_ipv4PacketBlock old payload len
      ⟨e.mac, k.gMyIp, k.gIpId, k.myIp, k.arpCache, fun _ => true, 0, []⟩ proto dstIp
  unfold ipv4SendOn
  refine rel_ite (fun _ => ?_) fun _ => rel_pure ⟨rfl, txMem, rfl⟩
  refine (rel_arpResolveOn ⟨txMem, rfl⟩ dstIp).bind fun r r' hr => ?_
  obtain ⟨hmac, hk⟩ := hr
  rw [← hmac]
  cases r.1 with
  | none => exact rel_pure ⟨rfl, hk⟩
  | some mac =>
    refine rel_ethTxOn hk mac ethTypeIpv4 ?_
    exact (hpkt _ _).trans ((congrArg _ hpayload).trans (hpkt _ _).symm)

theorem rel_arpRxOn {data : Nat} (hk : k.Same k')
    (hm : ∀ x, data ≤ x → x < data + len → m x = m' x) :
    Dialog.Rel NetKernel.Same (arpRxOn e k m data len)
      (arpRxOn (e.withOld old') k' m' data len) := by
  obtain ⟨txMem, rfl⟩ := hk
  unfold arpRxOn
  refine rel_ite (fun _ => rel_pure ⟨txMem, rfl⟩) fun hlen => ?_
  have hroom : data + arpPacketSize ≤ data + len := by omega
  have hload : ∀ n a, a + n ≤ arpPacketSize → load n m (data + a) = load n m' (data + a) :=
    fun n a ha => load_congr fun x hlo hhi => hm x (by omega) (by omega)
  have hmac : (macAt (data + 8)).value m = (macAt (data + 8)).value m' := by
    refine Vector.toList_inj.mp ?_
    rw [toList_value_macAt, toList_value_macAt]
    unfold arpPacketSize at hroom
    exact slice_eq_iff.mpr fun x hlo hhi => hm x (by omega) (by omega)
  simp only [hload 4 14 (by decide), hload 2 6 (by decide), hload 4 24 (by decide), hmac]
  refine rel_ite (fun _ => ?_) fun _ => rel_pure ⟨txMem, rfl⟩
  exact rel_arpSendOn ⟨txMem, rfl⟩ _ _ _ _

theorem rel_icmpRxOn {c : IcmpCall} (hk : k.Same k')
    (hdr : ∀ x, c.ipHdr ≤ x → x < c.ipHdr + ipv4HeaderSize → m x = m' x)
    (hmsg : icmpHeaderSize ≤ c.len → ∀ x, c.data ≤ x → x < c.data + c.len → m x = m' x) :
    Dialog.Rel NetKernel.Same (icmpRxOn e k m c) (icmpRxOn (e.withOld old') k' m' c) := by
  obtain ⟨txMem, rfl⟩ := hk
  unfold icmpRxOn
  refine rel_ite (fun _ => rel_pure ⟨txMem, rfl⟩) fun hlen => ?_
  have hm := hmsg (Nat.le_of_not_lt hlen)
  rw [value_ipv4Checksum_congr hm]
  refine rel_ite (fun _ => rel_pure ⟨txMem, rfl⟩) fun _ => ?_
  have hpos : 0 < c.len := Nat.lt_of_lt_of_le (by decide) (Nat.le_of_not_lt hlen)
  have htype : m c.data = m' c.data := hm c.data (Nat.le_refl _) (Nat.lt_add_of_pos_right hpos)
  have hsrc : load 4 m (c.ipHdr + 12) = load 4 m' (c.ipHdr + 12) :=
    load_congr fun x hlo hhi => hdr x (by omega) (by unfold ipv4HeaderSize; omega)
  have hreply : ∀ old m, slice c.len (echoReplyBlock old m c.data c.len) 0 = _ := fun old m =>
    slice_echoReplyBlock old m c.data c.len
  rw [htype, hsrc]
  refine rel_ite (fun _ => ?_) fun _ => rel_pure ⟨txMem, rfl⟩
  refine rel_ite (fun _ => ?_) fun _ => rel_pure ⟨txMem, rfl⟩
  refine (rel_ipv4SendOn ⟨txMem, rfl⟩ _ _ ?_).bind fun r r' hr => rel_pure hr.2
  exact (hreply _ _).trans ((congrArg _ (slice_eq_iff.mpr hm)).trans (hreply _ _).symm)

theorem rel_netCall (hk : k.Same k') {p : NetPair} (hfit : p.call.InFrame p.frame) :
    Dialog.Rel NetKernel.Same (netCall e k p.call) (netCall (e.withOld old') k' p.call') := by
  obtain ⟨frame, call, call', hsame⟩ := p
  cases hsame with
  | arpRx hlen h => exact rel_arpRxOn hk fun x _ hx => h x (by omega)
  | arpResolve ip =>
    exact (rel_arpResolveOn hk ip).bind fun r r' hr => rel_pure hr.2
  | icmpRx hdr h =>
    refine rel_icmpRxOn hk (fun x _ hx => h x (by omega)) fun hlen x _ hx => h x ?_
    exact Nat.lt_of_lt_of_le hx (hfit hlen)
  | ipv4Send h =>
    refine (rel_ipv4SendOn hk _ _ ?_).bind fun r r' hr => rel_pure hr.2
    exact slice_eq_iff.mpr fun x _ hx => h x (by omega)

theorem rel_netRun (hk : k.Same k') (ps : List NetPair)
    (hfit : ∀ p ∈ ps, p.call.InFrame p.frame) :
    Dialog.Rel NetKernel.Same (netRun e k (ps.map NetPair.call))
      (netRun (e.withOld old') k' (ps.map NetPair.call')) := by
  induction ps generalizing k k' with
  | nil => exact rel_pure hk
  | cons p ps ih =>
    obtain ⟨hp, hps⟩ := List.forall_mem_cons.mp hfit
    exact (rel_netCall hk hp).bind fun r r' hr => ih hr hps

/-- **Nothing that was in memory before is sent**, if the messages lie in the frames that were
received. Two runs make the same calls for the same frames, and differ in the previous contents
of all blocks that are handed out, in the transmit buffers, and in the memory behind the frames.
The device is told the same in both: the same frames, with the same lengths and the same
bytes. -/
theorem trace_netRun (e : NetEnv) (old' : Nat → Mem) (k : NetKernel) (txMem' : Nat → Mem)
    (ps : List NetPair) (hfit : ∀ p ∈ ps, p.call.InFrame p.frame) (s : Answers) :
    (netRun (e.withOld old') (k.withTx txMem') (ps.map NetPair.call')).trace s =
      (netRun e k (ps.map NetPair.call)).trace s :=
  (rel_netRun ⟨txMem', rfl⟩ ps hfit).trace_eq.symm

def exampleKernel : NetKernel where
  gMyIp := 0x0A00020F
  gIpId := 1
  myIp := 0x0A00020F
  arpCache := [⟨0x0A000202, #v[2, 2, 2, 2, 2, 2], true⟩]
  rtl := ⟨0, fun _ => 0, fun _ _ => 0⟩
  requests := 0

/-- A frame of 60 bytes with an echo request whose IP header counts two bytes more, and two
bytes `b` behind it. Its checksum is right for 0 and for 0xFF. -/
def cutPing (b : UInt8) : List UInt8 :=
  ethFrame zeroMac (Vector.replicate 6 2) ethTypeIpv4
    ([0x45, 0, 0, 48, 0, 1, 0, 0, 64, 1, 0x62, 0xBC, 10, 0, 2, 2, 10, 0, 2, 15] ++
      [8, 0, 0xF7, 0xFD, 0, 1, 0, 1] ++ List.replicate 18 0) ++ [b, b]

/-- A run with a payload of three bytes and a ping that is received whole. -/
def twoCalls : List NetPair :=
  [⟨0, .ipv4Send 0x0A000202 17 (ofList [1, 2, 3]) 3,
      .ipv4Send 0x0A000202 17 (put (fun _ => 0x55) 0 [1, 2, 3]) 3, .ipv4Send (by decide)⟩,
    ⟨62, .icmpRx (ofList (cutPing 0)) ⟨14, 34, 28⟩,
      .icmpRx (put (fun _ => 0x55) 0 (cutPing 0)) ⟨14, 34, 28⟩,
      .icmpRx (by decide) (by decide +kernel)⟩]

theorem trace_netRun_twoCalls :
    (netRun ⟨zeroMac, fun _ _ => true, fun _ _ => 0x55⟩ (exampleKernel.withTx fun _ _ => 0x55)
        (twoCalls.map NetPair.call')).trace (fun _ => 0x2000) =
      (netRun ⟨zeroMac, fun _ _ => true, fun _ _ => 0⟩ exampleKernel
        (twoCalls.map NetPair.call)).trace (fun _ => 0x2000) ∧
    ((netRun ⟨zeroMac, fun _ _ => true, fun _ _ => 0⟩ exampleKernel
        (twoCalls.map NetPair.call)).writes fun _ => 0x2000).length = 4 := by
  refine ⟨trace_netRun ⟨zeroMac, fun _ _ => true, fun _ _ => 0⟩ _ exampleKernel _ twoCalls ?_ _,
    by decide +kernel⟩
  simp [twoCalls, NetCall.InFrame]

/-- **Two bytes behind the frame are sent.** The 60 bytes that are received are the same, and
`ipv4_rx` calls `icmp_rx` with the same arguments; the replies differ in what lay behind. -/
theorem icmpRx_sends_behind_frame :
    (cutPing 0).take 60 = (cutPing 0xFF).take 60 ∧
      (∀ b ∈ [0, 0xFF], (icmpCall (freshHost zeroMac 0x0A00020F) 60).value (ofList (cutPing b)) =
        some ⟨14, 34, 28⟩) ∧
      (netRun ⟨zeroMac, fun _ _ => true, fun _ _ => 0⟩ exampleKernel
          [.icmpRx (ofList (cutPing 0)) ⟨14, 34, 28⟩]).trace (fun _ => 0x2000) ≠
        (netRun ⟨zeroMac, fun _ _ => true, fun _ _ => 0⟩ exampleKernel
          [.icmpRx (ofList (cutPing 0xFF)) ⟨14, 34, 28⟩]).trace (fun _ => 0x2000) := by
  decide +kernel

end DevOs
