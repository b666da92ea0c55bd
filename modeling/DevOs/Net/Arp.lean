import DevOs.Net.Ethernet

/-!
`kernel/drivers/net/arp.c`: the cache, `arp_resolve` and `arp_rx`.
-/

namespace DevOs

open ByteMem Buffer Probe

def arpHwEth : Nat := 1

def arpProtoIpv4 : Nat := 0x0800

def arpRequest : Nat := 1

def arpReply : Nat := 2

def arpCacheSize : Nat := 32

/-- `sizeof(arp_packet_t)`. -/
def arpPacketSize : Nat := 28

/-- An `arp_packet_t`; `senderIp` and `targetIp` are the values of its fields. -/
def arpPacket (operation : Nat) (senderMac : Mac) (senderIp : Nat) (targetMac : Mac)
    (targetIp : Nat) : List UInt8 :=
  encode 2 (htons arpHwEth) ++ encode 2 (htons arpProtoIpv4) ++ [6, 4] ++
    encode 2 (htons operation) ++ senderMac.toList ++ encode 4 senderIp ++ targetMac.toList ++
    encode 4 targetIp

def zeroMac : Mac := Vector.replicate 6 0

def arpInit (h : NetHost) (ip : Nat) : NetHost :=
  { h with
    myIp := ip
    arpCache := List.replicate arpCacheSize ⟨0, zeroMac, false⟩ }

def ArpEntry.isFor (ip : Nat) (e : ArpEntry) : Bool := e.valid && e.ip == ip

def arpLookup (cache : List ArpEntry) (ip : Nat) : Option Mac :=
  (cache.find? (ArpEntry.isFor ip)).map ArpEntry.mac

/-- `arp_cache_update`: the slot of `ip`, else the first free one, else
nothing. -/
def arpCacheUpdate (cache : List ArpEntry) (ip : Nat) (mac : Mac) : List ArpEntry :=
  match cache.findIdx? (ArpEntry.isFor ip) with
  | some i => cache.modify i fun e => { e with mac := mac }
  | none =>
    match cache.findIdx? fun e => !e.valid with
    | some i => cache.set i ⟨ip, mac, true⟩
    | none => cache

/-- `arp_resolve`: the address, if it is known; else a request is sent. -/
def arpResolve (h : NetHost) (ip : Nat) : Option Mac × NetHost :=
  match arpLookup h.arpCache ip with
  | some mac => (some mac, h)
  | none =>
    let req := arpPacket arpRequest h.mac h.myIp zeroMac (htonl ip)
    (none, (ethTx h ethBroadcast ethTypeArp req).2)

def macAt (a : Nat) : Probe Mac := do
  let b0 ← byte a
  let b1 ← byte (a + 1)
  let b2 ← byte (a + 2)
  let b3 ← byte (a + 3)
  let b4 ← byte (a + 4)
  let b5 ← byte (a + 5)
  pure #v[b0, b1, b2, b3, b4, b5]

/-- `arp_rx`, for a packet at offset `data` of the frame. -/
def arpRx (h : NetHost) (data len : Nat) : Probe NetHost :=
  if len < arpPacketSize then pure h
  else do
    let op ← word 2 (data + 6)
    let senderIp ← word 4 (data + 14)
    let targetIp ← word 4 (data + 24)
    let senderMac ← macAt (data + 8)
    let h := { h with arpCache := arpCacheUpdate h.arpCache (ntohl senderIp) senderMac }
    if ntohs op = arpRequest ∧ ntohl targetIp = ntohl h.myIp then do
      -- the reply copies both fields from the packet
      let targetMac ← macAt (data + 8)
      let targetIp ← word 4 (data + 14)
      pure (ethTx h targetMac ethTypeArp
        (arpPacket arpReply h.mac h.myIp targetMac targetIp)).2
    else pure h

variable {m : Mem} {cache : List ArpEntry} {ip ip' : Nat} {mac : Mac}

@[simp] theorem length_arpPacket (operation senderIp targetIp : Nat) (senderMac targetMac : Mac) :
    (arpPacket operation senderMac senderIp targetMac targetIp).length = arpPacketSize := by
  simp [arpPacket, arpPacketSize]

@[simp] theorem safe_macAt (n a : Nat) : (macAt a).Safe n m ↔ a + 5 < n := by
  simp only [macAt, safe_bind, safe_byte, safe_pure, and_true]
  omega

theorem toList_value_macAt (m : Mem) (a : Nat) : ((macAt a).value m).toList = slice 6 m a := by
  simp [macAt, slice, Nat.add_assoc]

theorem value_macAt {a : Nat} (h : Holds m a mac.toList) : (macAt a).value m = mac := by
  rw [Holds, Vector.length_toList] at h
  exact Vector.toList_inj.mp ((toList_value_macAt m a).trans h)

theorem arpLookup_cons (e : ArpEntry) :
    arpLookup (e :: cache) ip = if e.isFor ip then some e.mac else arpLookup cache ip := by
  rw [arpLookup, List.find?_cons]
  cases e.isFor ip <;> rfl

theorem arpLookup_modify {i : Nat} (h : cache.findIdx? (ArpEntry.isFor ip) = some i) :
    arpLookup (cache.modify i fun e => { e with mac := mac }) ip' =
      if ip' = ip then some mac else arpLookup cache ip' := by
  induction cache generalizing i with
  | nil => simp at h
  | cons e cache ih =>
    rw [List.findIdx?_cons] at h
    split at h
    · next hfor =>
        cases h
        rw [List.modify_zero_cons, arpLookup_cons, arpLookup_cons]
        simp only [ArpEntry.isFor, Bool.and_eq_true, beq_iff_eq] at hfor ⊢
        grind
    · next hfor =>
        obtain ⟨j, hj, rfl⟩ := Option.map_eq_some_iff.mp h
        rw [List.modify_succ_cons, arpLookup_cons, arpLookup_cons, ih hj]
        grind

theorem arpLookup_set {i : Nat} (h : cache.findIdx? (ArpEntry.isFor ip) = none)
    (hi : cache.findIdx? (fun e => !e.valid) = some i) :
    arpLookup (cache.set i ⟨ip, mac, true⟩) ip' =
      if ip' = ip then some mac else arpLookup cache ip' := by
  induction cache generalizing i with
  | nil => simp at hi
  | cons e cache ih =>
    rw [List.findIdx?_cons] at h hi
    split at h
    · simp at h
    next hfor =>
    have hrest : cache.findIdx? (ArpEntry.isFor ip) = none := by simpa using h
    split at hi
    · next hfree =>
        cases hi
        rw [List.set_cons_zero, arpLookup_cons, arpLookup_cons]
        simp only [ArpEntry.isFor, Bool.and_eq_true, beq_iff_eq, Bool.not_eq_true'] at hfree ⊢
        grind
    · obtain ⟨j, hj, rfl⟩ := Option.map_eq_some_iff.mp hi
      rw [List.set_cons_succ, arpLookup_cons, arpLookup_cons, ih hrest hj]
      grind

theorem arpLookup_update (h : (arpLookup cache ip).isSome ∨ ∃ e ∈ cache, e.valid = false) :
    arpLookup (arpCacheUpdate cache ip mac) ip' =
      if ip' = ip then some mac else arpLookup cache ip' := by
  unfold arpCacheUpdate
  split
  · next hi => exact arpLookup_modify hi
  · next hnone =>
      split
      · next hi => exact arpLookup_set hnone hi
      · next hfull =>
          -- neither: there would have been room
          exfalso
          rw [List.findIdx?_eq_none_iff] at hnone hfull
          obtain hsome | ⟨e, he, hfree⟩ := h
          · rw [arpLookup, Option.isSome_map, List.find?_isSome] at hsome
            obtain ⟨e, he, hfor⟩ := hsome
            simp [hnone e he] at hfor
          · simpa [hfree] using hfull e he

end DevOs
