import DevOs.Net.Arp

/-!
`kernel/drivers/net/ipv4.c` and `icmp.c`, and the receiving half of
`ethernet.c`: the checksum, `ipv4_send`, and the way of a frame from `eth_rx`
through `ipv4_rx` to `icmp_rx`.
-/

namespace DevOs

open ByteMem Buffer Probe

/-- The two loops of `ipv4_checksum` that add up `len` bytes from `a` on. -/
def sumWords : (len a sum : Nat) → Probe Nat
  | len + 2, a, sum => do
    let w ← word 2 a
    length len
    sumWords len (a + 2) ((sum + w) % 2 ^ 32)
  | 1, a, sum => do
    let b ← byte a
    pure ((sum + b.toNat) % 2 ^ 32)
  | 0, _, sum => pure sum

/-- The loop that folds the carries back in. Two turns are enough for 32 bits
(`foldCarry_lt`). -/
def foldCarry : Nat → Nat → Nat
  | 0, sum => sum
  | n + 1, sum => if sum >>> 16 ≠ 0 then foldCarry n ((sum &&& 0xFFFF) + sum >>> 16) else sum

def ipv4Checksum (a len : Nat) : Probe Nat := do
  let sum ← sumWords len a 0
  pure ((2 ^ 32 - 1 - foldCarry 2 sum) % 2 ^ 16)

def ipProtoIcmp : Nat := 1

/-- `sizeof(ipv4_header_t)`. -/
def ipv4HeaderSize : Nat := 20

/-- The header that `ipv4_send` builds, with a given checksum. -/
def ipv4Header (total id proto src dst checksum : Nat) : List UInt8 :=
  [0x45, 0] ++ encode 2 (htons (total % 2 ^ 16)) ++ encode 2 (htons id) ++ encode 2 0 ++
    [64, UInt8.ofNat proto] ++ encode 2 checksum ++ encode 4 (htonl src) ++ encode 4 (htonl dst)

/-- The packet that `ipv4_send` builds: the checksum is computed with its own
field zero. -/
def ipv4Packet (h : NetHost) (dstIp proto : Nat) (payload : List UInt8) : List UInt8 :=
  let total := ipv4HeaderSize + payload.length
  let header := ipv4Header total h.gIpId proto h.gMyIp dstIp
  let checksum := (ipv4Checksum 0 ipv4HeaderSize).value (ofList (header 0))
  header checksum ++ payload

def ipv4Send (h : NetHost) (dstIp proto : Nat) (payload : List UInt8) : Int × NetHost :=
  if h.kmalloc (ipv4HeaderSize + payload.length) = false then (-1, h)
  else
    let pkt := ipv4Packet h dstIp proto payload
    let h := { h with gIpId := (h.gIpId + 1) % 2 ^ 16 }
    match arpResolve h dstIp with
    | (none, h) => (-1, h)
    | (some mac, h) => ethTx h mac ethTypeIpv4 pkt

/-- `sizeof(icmp_header_t)`. -/
def icmpHeaderSize : Nat := 8

def icmpEchoRequest : UInt8 := 8

def icmpEchoReply : UInt8 := 0

def echoReply (message : List UInt8) : List UInt8 :=
  let reply := ((message.set 0 icmpEchoReply).set 2 0).set 3 0
  let checksum := (ipv4Checksum 0 reply.length).value (ofList reply)
  (reply.set 2 (UInt8.ofNat checksum)).set 3 (UInt8.ofNat (checksum / 256))

/-- The arguments of a call of `icmp_rx`: where the IP header and the message
are in the frame, and the length of the message. -/
structure IcmpCall where
  ipHdr : Nat
  data : Nat
  len : Nat
  deriving DecidableEq, Repr

def icmpRx (h : NetHost) (c : IcmpCall) : Probe NetHost :=
  if c.len < icmpHeaderSize then pure h
  else do
    let checksum ← ipv4Checksum c.data c.len
    if checksum ≠ 0 then pure h
    else do
      let type ← byte c.data
      if type = icmpEchoRequest then do
        -- the log line
        let _ ← word 4 (c.ipHdr + 12)
        let _ ← word 2 (c.data + 6)
        length c.len
        if h.kmalloc c.len = false then pure h
        else do
          let message ← bytes c.len c.data
          let src ← word 4 (c.ipHdr + 12)
          pure (ipv4Send h (ntohl src) ipProtoIcmp (echoReply message)).2
      else pure h

/-- `ipv4_rx` up to the call of `icmp_rx`. The length of the payload is the
difference of two `int`s, converted to `size_t` for the call. -/
def ipv4Upcall (h : NetHost) (data len : Nat) : Probe (Option IcmpCall) :=
  if len < ipv4HeaderSize then pure none
  else do
    let versionIhl ← byte data
    let ihl : Nat := (versionIhl.toNat &&& 0xF) * 4 % 2 ^ 8
    length ihl
    if ihl < 20 ∨ len % 2 ^ 8 < ihl then pure none
    else do
      let checksum ← ipv4Checksum data ihl
      if checksum ≠ 0 then pure none
      else do
        let dst ← word 4 (data + 16)
        if ntohl dst ≠ h.gMyIp then pure none
        else do
          let totalLength ← word 2 (data + 2)
          let payloadLen : Int := (ntohs totalLength : Int) - ihl
          length payloadLen
          let protocol ← byte (data + 9)
          if protocol.toNat = ipProtoIcmp then
            pure (some ⟨data, data + ihl, (payloadLen % 2 ^ 64).toNat⟩)
          else pure none

def ipv4Rx (h : NetHost) (data len : Nat) : Probe NetHost := do
  match ← ipv4Upcall h data len with
  | none => pure h
  | some c => icmpRx h c

inductive EthUpcall where
  | arp (data len : Nat)
  | ipv4 (data len : Nat)
  | drop
  deriving DecidableEq, Repr

def ethUpcall (len : Nat) : Probe EthUpcall :=
  if len < ethHeaderLen then pure .drop
  else do
    let ethertype ← word 2 12
    if ntohs ethertype = ethTypeArp then do
      length ((len : Int) - ethHeaderLen)
      pure (.arp ethHeaderLen (len - ethHeaderLen))
    else if ntohs ethertype = ethTypeIpv4 then do
      length ((len : Int) - ethHeaderLen)
      pure (.ipv4 ethHeaderLen (len - ethHeaderLen))
    else pure .drop

def ethRx (h : NetHost) (len : Nat) : Probe NetHost := do
  match ← ethUpcall len with
  | .arp data len => arpRx h data len
  | .ipv4 data len => ipv4Rx h data len
  | .drop => pure h

/-- The call of `icmp_rx` that `eth_rx` of a frame leads to. -/
def icmpCall (h : NetHost) (len : Nat) : Probe (Option IcmpCall) := do
  match ← ethUpcall len with
  | .ipv4 data len => ipv4Upcall h data len
  | _ => pure none

def ipv4Init (h : NetHost) (ip : Nat) : NetHost := arpInit { h with gMyIp := ip } ip

def freshHost (mac : Mac) (ip : Nat) : NetHost :=
  ipv4Init ⟨mac, 0, 1, 0, [], fun _ => true, 0, []⟩ ip

section

variable {m : Mem} {n a len sum : Nat}

theorem safe_sumWords : (sumWords len a sum).Safe n m ↔ len = 0 ∨ a + len ≤ n := by
  fun_induction sumWords len a sum with
  | case1 len a sum ih =>
    simp only [safe_bind, safe_word, safe_length, ih]
    omega
  | case2 a sum =>
    simp only [safe_bind, safe_byte, safe_pure, and_true]
    omega
  | case3 a sum => simp

@[simp] theorem safe_ipv4Checksum :
    (ipv4Checksum a len).Safe n m ↔ len = 0 ∨ a + len ≤ n := by
  simp [ipv4Checksum, safe_sumWords]

theorem value_sumWords_congr {m' : Mem} (h : ∀ x, a ≤ x → x < a + len → m x = m' x) :
    (sumWords len a sum).value m = (sumWords len a sum).value m' := by
  fun_induction sumWords len a sum with
  | case1 len a sum ih =>
    have hword : load 2 m a = load 2 m' a :=
      load_congr fun x hlo hhi => h x hlo (by omega)
    simp only [value_bind, value_word, hword]
    exact ih _ fun x hlo hhi => h x (by omega) (by omega)
  | case2 a sum => simp [h a (Nat.le_refl a) (by omega)]
  | case3 a sum => rfl

theorem value_ipv4Checksum_congr {m' : Mem} (h : ∀ x, a ≤ x → x < a + len → m x = m' x) :
    (ipv4Checksum a len).value m = (ipv4Checksum a len).value m' := by
  simp only [ipv4Checksum, value_bind, value_pure, value_sumWords_congr h]

theorem foldCarry_succ (n sum : Nat) : foldCarry (n + 1) sum =
      if 2 ^ 16 ≤ sum then foldCarry n (sum % 2 ^ 16 + sum / 2 ^ 16) else sum := by
  have hlow : sum &&& 0xFFFF = sum % 2 ^ 16 := Nat.and_two_pow_sub_one_eq_mod sum 16
  rw [foldCarry, hlow, Nat.shiftRight_eq_div_pow]
  by_cases h : 2 ^ 16 ≤ sum
  · rw [if_pos h, if_pos (by omega)]
  · rw [if_neg h, if_neg (by omega)]

theorem foldCarry_two (sum : Nat) : foldCarry 2 sum = if 2 ^ 16 ≤ sum then
        if 2 ^ 16 ≤ sum % 2 ^ 16 + sum / 2 ^ 16 then
          (sum % 2 ^ 16 + sum / 2 ^ 16) % 2 ^ 16 + (sum % 2 ^ 16 + sum / 2 ^ 16) / 2 ^ 16
        else sum % 2 ^ 16 + sum / 2 ^ 16 else sum := by
  rw [foldCarry_succ, foldCarry_succ]
  rfl

theorem foldCarry_lt (h : sum < 2 ^ 32) : foldCarry 2 sum < 2 ^ 16 := by
  rw [foldCarry_two]
  split
  · split <;> omega
  · omega

end

def ihlAt (m : Mem) (data : Nat) : Nat := ((m data).toNat &&& 0xF) * 4 % 2 ^ 8

def totalLengthAt (m : Mem) (data : Nat) : Nat := ntohs (load 2 m (data + 2))

/-- The checks of `ipv4_rx` on `len` bytes at `data`. -/
def Ipv4Passes (h : NetHost) (m : Mem) (data len : Nat) : Prop :=
  ipv4HeaderSize ≤ len ∧ 20 ≤ ihlAt m data ∧ ihlAt m data ≤ len % 2 ^ 8 ∧
    (ipv4Checksum data (ihlAt m data)).value m = 0 ∧ ntohl (load 4 m (data + 16)) = h.gMyIp

instance (h : NetHost) (m : Mem) (data len : Nat) : Decidable (Ipv4Passes h m data len) :=
  inferInstanceAs (Decidable (_ ∧ _))

variable {h : NetHost} {m : Mem} {n data len : Nat}

theorem value_ethUpcall (hlen : ethHeaderLen ≤ len) : (ethUpcall len).value m =
      if ntohs (load 2 m 12) = ethTypeArp then .arp ethHeaderLen (len - ethHeaderLen)
      else if ntohs (load 2 m 12) = ethTypeIpv4 then .ipv4 ethHeaderLen (len - ethHeaderLen)
      else .drop := by
  simp [ethUpcall, Nat.not_lt_of_le hlen]

theorem safe_ethUpcall : (ethUpcall len).Safe len m := by
  rw [ethUpcall, safe_ite]
  refine ⟨fun _ => by simp, fun hlen => ?_⟩
  have hread : 12 + 1 < len := by unfold ethHeaderLen at hlen; omega
  have hrest : ethHeaderLen ≤ len := Nat.le_of_not_lt hlen
  simp [hread, hrest]

theorem value_ipv4Upcall : (ipv4Upcall h data len).value m =
      if Ipv4Passes h m data len ∧ (m (data + 9)).toNat = ipProtoIcmp then
        some ⟨data, data + ihlAt m data,
          (((totalLengthAt m data : Int) - ihlAt m data) % 2 ^ 64).toNat⟩ else none := by
  simp only [ipv4Upcall, Ipv4Passes, ihlAt, totalLengthAt, value_ite, value_bind,
    value_pure, value_byte, value_word]
  grind

theorem payloadLen_eq (hle : ihlAt m data ≤ totalLengthAt m data) :
    (((totalLengthAt m data : Int) - ihlAt m data) % 2 ^ 64).toNat =
      totalLengthAt m data - ihlAt m data := by
  have hlt : totalLengthAt m data < 2 ^ 16 := htons_lt _
  omega

theorem safe_ipv4Upcall_iff (hlen : data + len ≤ n) :
    (ipv4Upcall h data len).Safe n m ↔ (ipv4HeaderSize ≤ len → ihlAt m data ≤ n) ∧
      (Ipv4Passes h m data len → ihlAt m data ≤ totalLengthAt m data ∧
        totalLengthAt m data ≤ ihlAt m data + n) := by
  have hihl : ((m data).toNat &&& 0xF) * 4 % 2 ^ 8 = ihlAt m data := rfl
  have htotal : ntohs (load 2 m (data + 2)) = totalLengthAt m data := rfl
  have hmod : len % 2 ^ 8 ≤ len := Nat.mod_le _ _
  simp only [ipv4Upcall, Ipv4Passes, ipv4HeaderSize, safe_ite, safe_bind,
    safe_pure, safe_byte, safe_length, safe_word, safe_ipv4Checksum,
    value_byte, value_word, hihl, htotal]
  generalize ihlAt m data = ihl, totalLengthAt m data = total
  generalize (ipv4Checksum data ihl).value m = checksum, len % 2 ^ 8 = low at hmod ⊢
  by_cases hlong : len < 20
  · simp [hlong, Nat.not_le_of_lt hlong]
  · by_cases hpass : (20 ≤ ihl ∧ ihl ≤ low) ∧ checksum = 0 ∧ ntohl (load 4 m (data + 16)) = h.gMyIp
    · simp [hpass, hlong]
      omega
    · simp [hlong]
      omega

end DevOs
