import DevOs.Net.Ipv4

/-!
An ARP exchange between two hosts that both run this stack.
-/

namespace DevOs

open ByteMem Buffer

/-- `h` becomes `h'` when it receives the frame, whatever follows the frame in
memory. -/
def Receives (h : NetHost) (frame : List UInt8) (h' : NetHost) : Prop :=
  ∀ m, Holds m 0 frame → (ethRx h frame.length).value m = h'

def IsArp (operation : Nat) (frame : List UInt8) : Prop :=
  ∃ dst src senderMac senderIp targetMac targetIp, frame = ethFrame dst src ethTypeArp
    (arpPacket operation senderMac senderIp targetMac targetIp)

/-- Host `A` asks for the address `b` of `B`: its request makes `B` send exactly
one reply, and afterwards each of them knows the other, `A` by the address `a`. -/
def ArpExchange (A B : NetHost) (a b : Nat) : Prop :=
  ∃ request reply A' B',
    (arpResolve A b).2.sent = A.sent ++ [request] ∧
    Receives B request B' ∧ B'.sent = B.sent ++ [reply] ∧ IsArp arpReply reply ∧
    Receives (arpResolve A b).2 reply A' ∧
    (arpResolve A' b).1 = some B.mac ∧ (arpResolve B' a).1 = some A.mac

/-- `h` answers ARP requests for `ip` only, the address for which `ipv4_rx` accepts
datagrams. -/
def AnswersOnly (h : NetHost) (ip : Nat) : Prop :=
  (∀ m len, ntohs (load 2 m 12) = ethTypeArp → ((ethRx h len).value m).sent ≠ h.sent →
    ntohl (load 4 m (ethHeaderLen + 24)) = ip) ∧
  ∀ m data len, Ipv4Passes h m data len → ntohl (load 4 m (data + 16)) = ip

variable {h A B : NetHost} {m : Mem} {a b len operation senderIp targetIp : Nat}
  {dst src senderMac targetMac : Mac}

/-- What `arp_rx` does with the fields of a packet. -/
def arpReceived (h : NetHost) (operation : Nat) (senderMac : Mac) (senderIp targetIp : Nat) :
    NetHost :=
  let h := { h with arpCache := arpCacheUpdate h.arpCache (ntohl senderIp) senderMac }
  if operation = arpRequest ∧ ntohl targetIp = ntohl h.myIp then
    (ethTx h senderMac ethTypeArp (arpPacket arpReply h.mac h.myIp senderMac senderIp)).2
  else h

theorem value_arpRx (hlen : arpPacketSize ≤ len) (data : Nat) :
    (arpRx h data len).value m = arpReceived h (ntohs (load 2 m (data + 6)))
      ((macAt (data + 8)).value m) (load 4 m (data + 14)) (load 4 m (data + 24)) := by
  simp [arpRx, arpReceived, Nat.not_lt_of_le hlen]

theorem receives_arpPacket (hop : operation < 2 ^ 16) (hs : senderIp < 2 ^ 32)
    (ht : targetIp < 2 ^ 32) : Receives h (ethFrame dst src ethTypeArp
        (arpPacket operation senderMac senderIp targetMac targetIp))
      (arpReceived h operation senderMac senderIp targetIp) := by
  intro m hm
  obtain ⟨htype, hpacket⟩ := holds_ethFrame hm
  have hethertype : ntohs (load 2 m 12) = ethTypeArp := by
    rw [load_of_holds_of_lt htype (htons_lt _), ntohs, htons_htons (by decide)]
  simp only [arpPacket, holds_append, length_encode, List.length_append, List.length_cons,
    List.length_nil, Vector.length_toList, Nat.reduceAdd] at hpacket
  obtain ⟨⟨⟨⟨-, hoper⟩, hsmac⟩, hsip⟩, -⟩ := hpacket.1
  rw [ethRx, Probe.value_bind, length_ethFrame, length_arpPacket, value_ethUpcall (by decide),
    if_pos hethertype]
  dsimp only
  rw [value_arpRx (by decide), load_of_holds_of_lt hoper (htons_lt _), ntohs, htons_htons hop,
    value_macAt hsmac, load_of_holds_of_lt hsip hs, load_of_holds_of_lt hpacket.2 ht]

theorem receives_unique {frame : List UInt8} {h1 h2 : NetHost} (hr1 : Receives h frame h1)
    (hr2 : Receives h frame h2) : h1 = h2 :=
  (hr1 _ (holds_ofList frame)).symm.trans (hr2 _ (holds_ofList frame))

@[simp] theorem arpResolve_fst (h : NetHost) (ip : Nat) :
    (arpResolve h ip).1 = arpLookup h.arpCache ip := by
  unfold arpResolve
  split <;> simp [*]

theorem ethTx_arpPacket (hheap : h.kmalloc 64 = true) :
    (ethTx h dst ethTypeArp (arpPacket operation senderMac senderIp targetMac targetIp)).2 =
      { h with sent := h.sent ++ [ethFrame dst h.mac ethTypeArp
        (arpPacket operation senderMac senderIp targetMac targetIp)] } := by
  simp [ethTx, hheap, ethHeaderLen, arpPacketSize]

def requestOf (h : NetHost) (ip : Nat) : List UInt8 :=
  ethFrame ethBroadcast h.mac ethTypeArp (arpPacket arpRequest h.mac h.myIp zeroMac (htonl ip))

theorem arpResolve_unknown (hheap : A.kmalloc 64 = true) (hnew : arpLookup A.arpCache b = none) :
    (arpResolve A b).2 = { A with sent := A.sent ++ [requestOf A b] } := by
  simp only [arpResolve, hnew, ethTx_arpPacket hheap, requestOf]

theorem arpLookup_arpReceived (hfree : ∃ e ∈ h.arpCache, e.valid = false) (ip : Nat) :
    arpLookup (arpReceived h operation senderMac senderIp targetIp).arpCache ip =
      if ip = ntohl senderIp then some senderMac else arpLookup h.arpCache ip := by
  have hcache : (arpReceived h operation senderMac senderIp targetIp).arpCache =
      arpCacheUpdate h.arpCache (ntohl senderIp) senderMac := by
    simp only [arpReceived]
    split <;> simp
  rw [hcache, arpLookup_update (.inr hfree)]

def replyOf (h : NetHost) (senderMac : Mac) (senderIp : Nat) : List UInt8 :=
  ethFrame senderMac h.mac ethTypeArp (arpPacket arpReply h.mac h.myIp senderMac senderIp)

theorem sent_arpReceived (hheap : h.kmalloc 64 = true) :
    (arpReceived h operation senderMac senderIp targetIp).sent =
      if operation = arpRequest ∧ ntohl targetIp = ntohl h.myIp then
        h.sent ++ [replyOf h senderMac senderIp] else h.sent := by
  simp only [arpReceived, replyOf]
  split
  · rw [ethTx_arpPacket]
    exact hheap
  · rfl

theorem answersOnly_of_palindrome (hB : B.myIp = b ∧ B.gMyIp = b) (hb : htonl b = b)
    (hheap : B.kmalloc 64 = true) : AnswersOnly B b := by
  refine ⟨fun m len htype hsent => ?_, fun m data len hpass => hpass.2.2.2.2.trans hB.2⟩
  by_contra hne
  refine hsent ?_
  by_cases hlen : len < ethHeaderLen
  · simp [ethRx, ethUpcall, hlen]
  rw [ethRx, Probe.value_bind, value_ethUpcall (Nat.le_of_not_lt hlen), if_pos htype]
  dsimp only
  by_cases hshort : len - ethHeaderLen < arpPacketSize
  · simp [arpRx, hshort]
  · rw [value_arpRx (Nat.le_of_not_lt hshort), sent_arpReceived hheap, if_neg]
    rw [hB.1, ntohl, ntohl, hb]
    exact fun hc => hne hc.2

/-- **The exchange works** exactly if the target's address reads the same
backwards, and the sender's does or was known before. -/
theorem arpWorks_iff (hA : A.myIp = a) (hB : B.myIp = b ∧ B.gMyIp = b)
    (ha : a < 2 ^ 32) (hb : b < 2 ^ 32) (hnew : arpLookup A.arpCache b = none)
    (hfreeA : ∃ e ∈ A.arpCache, e.valid = false) (hfreeB : ∃ e ∈ B.arpCache, e.valid = false)
    (hheapA : A.kmalloc 64 = true) (hheapB : B.kmalloc 64 = true) :
    ArpExchange A B a b ∧ AnswersOnly B b ↔
      htonl b = b ∧ (htonl a = a ∨ arpLookup B.arpCache a = some A.mac) := by
  have hrequest := arpResolve_unknown hheapA hnew
  have hreceived : Receives B (requestOf A b) (arpReceived B arpRequest A.mac a (htonl b)) := by
    rw [requestOf, hA]
    exact receives_arpPacket (by decide) ha (htonl_lt b)
  have hsent : (arpReceived B arpRequest A.mac a (htonl b)).sent =
      if b = htonl b then B.sent ++ [replyOf B A.mac a] else B.sent := by
    rw [sent_arpReceived hheapB, ntohl, htonl_htonl hb, hB.1, ntohl]
    simp
  have hknows : arpLookup (arpReceived B arpRequest A.mac a (htonl b)).arpCache a = some A.mac ↔
      htonl a = a ∨ arpLookup B.arpCache a = some A.mac := by
    rw [arpLookup_arpReceived hfreeB, ntohl]
    grind
  constructor
  · intro ⟨⟨request, reply, A', B', hreq, hrecv, hreply, _, _, _, hback⟩, _⟩
    rw [hrequest] at hreq
    obtain rfl : requestOf A b = request := by simpa using hreq
    obtain rfl := receives_unique hrecv hreceived
    rw [hsent] at hreply
    rw [arpResolve_fst, hknows] at hback
    refine ⟨?_, hback⟩
    by_contra hne
    rw [if_neg fun hc => hne hc.symm] at hreply
    simp at hreply
  · intro ⟨hpal, hback⟩
    rw [if_pos hpal.symm] at hsent
    refine ⟨⟨requestOf A b, replyOf B A.mac a, arpReceived (arpResolve A b).2 arpReply B.mac b a, _,
      by rw [hrequest], hreceived, hsent, ⟨_, _, _, _, _, _, rfl⟩, ?_, ?_, ?_⟩,
      answersOnly_of_palindrome hB hpal hheapB⟩
    · rw [replyOf, hB.1]
      exact receives_arpPacket (by decide) hb ha
    · rw [arpResolve_fst, arpLookup_arpReceived (by rw [hrequest]; exact hfreeA), ntohl, hpal,
        if_pos rfl]
    · rw [arpResolve_fst, hknows]
      exact hback

theorem arpWorks_palindromes :
    ArpExchange (freshHost (Vector.replicate 6 1) 0x0A01010A)
        (freshHost (Vector.replicate 6 2) 0x0A02020A) 0x0A01010A 0x0A02020A ∧
      AnswersOnly (freshHost (Vector.replicate 6 2) 0x0A02020A) 0x0A02020A :=
  (arpWorks_iff rfl ⟨rfl, rfl⟩ (by decide) (by decide) (by decide)
    ⟨⟨0, zeroMac, false⟩, by decide, rfl⟩ ⟨⟨0, zeroMac, false⟩, by decide, rfl⟩ rfl rfl).mpr
    (by decide)

/-- 10.0.0.1 asks for 10.0.0.2 and gets no answer; 10.0.0.2 has it in its cache
as 1.0.0.10, and answers a request for 2.0.0.10. -/
theorem arp_unanswered :
    let A := freshHost (Vector.replicate 6 1) 0x0A000001
    let B := freshHost (Vector.replicate 6 2) 0x0A000002
    let B' := (ethRx B 60).value (ofList (requestOf A 0x0A000002))
    (arpResolve A 0x0A000002).2.sent = [requestOf A 0x0A000002] ∧ B'.sent = [] ∧
      arpLookup B'.arpCache 0x0A000001 = none ∧
      arpLookup B'.arpCache 0x0100000A = some A.mac ∧
      ((ethRx B 60).value (ofList (requestOf A 0x0200000A))).sent.length = 1 := by
  decide +kernel

end DevOs
