import DevOs.Lib.Probe
import Mathlib.Tactic.Ring

/-!
The byte-order helpers of `kernel/drivers/net/ethernet.h`, the state of a host,
and the sending half of `kernel/drivers/net/ethernet.c`.
-/

namespace DevOs

open ByteMem

def htons (v : Nat) : Nat := (v >>> 8 ||| v <<< 8) % 2 ^ 16

def ntohs (v : Nat) : Nat := htons v

def htonl (v : Nat) : Nat :=
  (v &&& 0xFF) <<< 24 ||| (v >>> 8 &&& 0xFF) <<< 16 ||| (v >>> 16 &&& 0xFF) <<< 8 |||
    (v >>> 24 &&& 0xFF)

def ntohl (v : Nat) : Nat := htonl v

variable {v : Nat}

theorem htons_eq (hv : v < 2 ^ 16) : htons v = v % 256 * 256 + v / 256 := by
  have hlow : v >>> 8 < 2 ^ 8 := by rw [Nat.shiftRight_eq_div_pow]; omega
  rw [htons, Nat.or_comm, ← Nat.shiftLeft_add_eq_or_of_lt hlow, Nat.shiftLeft_eq,
    Nat.shiftRight_eq_div_pow]
  omega

theorem htons_htons (hv : v < 2 ^ 16) : htons (htons v) = v := by
  have h := htons_eq hv
  rw [htons_eq (v := htons v) (by omega)]
  omega

theorem htons_lt (v : Nat) : htons v < 2 ^ 16 := Nat.mod_lt _ (by decide)

theorem shiftLeft_byte_or {a b : Nat} (hb : b < 2 ^ 8) : a <<< 8 ||| b = a * 256 + b := by
  rw [← Nat.shiftLeft_add_eq_or_of_lt hb, Nat.shiftLeft_eq]

theorem htonl_eq (v : Nat) :
    htonl v = ((v % 256 * 256 + v / 2 ^ 8 % 256) * 256 + v / 2 ^ 16 % 256) * 256 +
      v / 2 ^ 24 % 256 := by
  have hbyte : ∀ x, x &&& 0xFF = x % 256 := fun x => Nat.and_two_pow_sub_one_eq_mod x 8
  have hlt : ∀ x, x % 256 < 2 ^ 8 := fun x => Nat.mod_lt x (by decide)
  have h1 : (v % 256) <<< 24 ||| (v / 2 ^ 8 % 256) <<< 16 =
      (v % 256 * 256 + v / 2 ^ 8 % 256) <<< 16 := by
    rw [Nat.shiftLeft_add _ 8 16, ← Nat.shiftLeft_or_distrib, shiftLeft_byte_or (hlt _)]
  have h2 : (v % 256 * 256 + v / 2 ^ 8 % 256) <<< 16 ||| (v / 2 ^ 16 % 256) <<< 8 =
      ((v % 256 * 256 + v / 2 ^ 8 % 256) * 256 + v / 2 ^ 16 % 256) <<< 8 := by
    rw [Nat.shiftLeft_add _ 8 8, ← Nat.shiftLeft_or_distrib, shiftLeft_byte_or (hlt _)]
  simp only [htonl, hbyte, Nat.shiftRight_eq_div_pow]
  rw [h1, h2, shiftLeft_byte_or (hlt _)]

theorem htonl_bytes {a b c d : Nat} (ha : a < 256) (hb : b < 256) (hc : c < 256) (hd : d < 256) :
    htonl (a + 256 * (b + 256 * (c + 256 * d))) = d + 256 * (c + 256 * (b + 256 * a)) := by
  have h0 : (a + 256 * (b + 256 * (c + 256 * d))) % 256 = a := by omega
  have h1 : (a + 256 * (b + 256 * (c + 256 * d))) / 2 ^ 8 = b + 256 * (c + 256 * d) := by omega
  have h2 : (a + 256 * (b + 256 * (c + 256 * d))) / 2 ^ 16 = c + 256 * d := by omega
  have h3 : (a + 256 * (b + 256 * (c + 256 * d))) / 2 ^ 24 = d := by omega
  have h4 : (b + 256 * (c + 256 * d)) % 256 = b := by omega
  have h5 : (c + 256 * d) % 256 = c := by omega
  rw [htonl_eq, h0, h1, h2, h3, h4, h5, Nat.mod_eq_of_lt hd]
  ring

theorem htonl_lt (v : Nat) : htonl v < 2 ^ 32 := by
  rw [htonl_eq]
  omega

theorem htonl_htonl (hv : v < 2 ^ 32) : htonl (htonl v) = v := by
  have hbytes : v = v % 256 + 256 * (v / 256 % 256 + 256 * (v / 65536 % 256 +
      256 * (v / 16777216))) := by omega
  rw [hbytes, htonl_bytes, htonl_bytes] <;> omega

/-- A hardware address, `uint8_t mac[6]`. -/
abbrev Mac := Vector UInt8 6

structure ArpEntry where
  ip : Nat
  mac : Mac
  valid : Bool
  deriving DecidableEq, Repr

/-- A host: the device it sends through, the static variables of `ipv4.c`
(`gMyIp`, `gIpId`) and of `arp.c` (`myIp`, `arpCache`), and the frames handed to
`dev->send` so far. `kmalloc` says for which sizes the heap has a block, and
`sendStatus` is what `dev->send` returns. -/
structure NetHost where
  mac : Mac
  gMyIp : Nat
  gIpId : Nat
  myIp : Nat
  arpCache : List ArpEntry
  kmalloc : Nat → Bool
  sendStatus : Int
  sent : List (List UInt8)

def ethTypeArp : Nat := 0x0806

def ethTypeIpv4 : Nat := 0x0800

def ethHeaderLen : Nat := 14

def ethBroadcast : Mac := Vector.replicate 6 0xFF

/-- The frame that `eth_tx` builds: header, payload, and zeros up to 60
bytes. -/
def ethFrame (dst src : Mac) (ethertype : Nat) (payload : List UInt8) : List UInt8 :=
  let total := ethHeaderLen + payload.length
  let frame := dst.toList ++ src.toList ++ encode 2 (htons ethertype) ++ payload
  if total < 60 then frame ++ List.replicate (60 - total) 0 else frame

def ethTx (h : NetHost) (dst : Mac) (ethertype : Nat) (payload : List UInt8) : Int × NetHost :=
  let total := ethHeaderLen + payload.length
  if h.kmalloc (if total < 64 then 64 else total) = false then (-1, h)
  else (h.sendStatus, { h with sent := h.sent ++ [ethFrame dst h.mac ethertype payload] })

theorem sent_ethTx (h : NetHost) (dst : Mac) (ethertype : Nat) (payload : List UInt8) :
    (ethTx h dst ethertype payload).2.sent = h.sent ∨ (ethTx h dst ethertype payload).2.sent =
        h.sent ++ [ethFrame dst h.mac ethertype payload] := by
  simp only [ethTx]
  generalize h.kmalloc _ = room
  cases room <;> simp

@[simp] theorem arpCache_ethTx (h : NetHost) (dst : Mac) (ethertype : Nat) (payload : List UInt8) :
    (ethTx h dst ethertype payload).2.arpCache = h.arpCache := by
  simp only [ethTx]
  generalize h.kmalloc _ = room
  cases room <;> simp

theorem length_ethFrame (dst src : Mac) (ethertype : Nat) (payload : List UInt8) :
    (ethFrame dst src ethertype payload).length = max 60 (ethHeaderLen + payload.length) := by
  simp only [ethFrame]
  split <;> simp [ethHeaderLen] at * <;> omega

theorem holds_ethFrame {m : Mem} {dst src : Mac} {ethertype : Nat} {payload : List UInt8}
    (h : Holds m 0 (ethFrame dst src ethertype payload)) :
    Holds m 12 (encode 2 (htons ethertype)) ∧ Holds m ethHeaderLen payload := by
  simp only [ethFrame] at h
  split at h <;> simp [ethHeaderLen] at h ⊢ <;> tauto

end DevOs
