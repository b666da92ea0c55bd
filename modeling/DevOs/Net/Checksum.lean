import DevOs.Net.RoundTrip

/-!
A buffer that contains its own checksum.
-/

namespace DevOs

open ByteMem Buffer Probe

/-- The buffer with its checksum at `k`, computed while that word is zero. -/
def storeChecksum (buf : List UInt8) (k : Nat) : List UInt8 :=
  let zeroed := (buf.set k 0).set (k + 1) 0
  let checksum := (ipv4Checksum 0 zeroed.length).value (ofList zeroed)
  (zeroed.set k (UInt8.ofNat checksum)).set (k + 1) (UInt8.ofNat (checksum / 256))

theorem echoReply_eq (message : List UInt8) :
    echoReply message = storeChecksum (message.set 0 icmpEchoReply) 2 := rfl

def wordTotal : List UInt8 → Nat
  | b :: c :: bs => b.toNat + 256 * c.toNat + wordTotal bs
  | [b] => b.toNat
  | [] => 0

variable {m : Mem} {a k sum : Nat} {bs cs : List UInt8}

theorem wordTotal_le (bs : List UInt8) : wordTotal bs ≤ 65535 * ((bs.length + 1) / 2) := by
  fun_induction wordTotal bs with
  | case1 b c bs ih =>
    have hb := b.toNat_lt
    have hc := c.toNat_lt
    simp only [List.length_cons]
    omega
  | case2 b =>
    have hb := b.toNat_lt
    simp only [List.length_singleton]
    omega
  | case3 => exact Nat.zero_le _

theorem wordTotal_append (h : bs.length % 2 = 0) :
    wordTotal (bs ++ cs) = wordTotal bs + wordTotal cs := by
  fun_induction wordTotal bs with
  | case1 b c bs ih =>
    simp only [List.length_cons] at h
    rw [List.cons_append, List.cons_append, wordTotal, ih (by omega), ← Nat.add_assoc]
  | case2 b => simp at h
  | case3 => rw [List.nil_append, Nat.zero_add]

theorem value_sumWords_of_holds (h : Holds m a bs) (hsum : sum < 2 ^ 32) :
    (sumWords bs.length a sum).value m = (sum + wordTotal bs) % 2 ^ 32 := by
  fun_induction wordTotal bs generalizing a sum with
  | case1 b c bs ih =>
    simp only [holds_cons] at h
    obtain ⟨hb, hc, hrest⟩ := h
    have hword : load 2 m a = b.toNat + 256 * c.toNat := by
      simp [load, hb, hc]
    rw [List.length_cons, List.length_cons, sumWords, value_bind, value_bind,
      value_word, hword, ih hrest (Nat.mod_lt _ (by decide)), Nat.mod_add_mod,
      Nat.add_assoc]
  | case2 b =>
    simp only [holds_cons] at h
    rw [List.length_singleton, sumWords, value_bind, value_byte, value_pure, h.1]
  | case3 => exact (Nat.mod_eq_of_lt hsum).symm

theorem value_ipv4Checksum_of_holds (h : Holds m a bs) (hlen : bs.length ≤ 65535) :
    (ipv4Checksum a bs.length).value m = (2 ^ 32 - 1 - foldCarry 2 (wordTotal bs)) % 2 ^ 16 := by
  have hle := wordTotal_le bs
  have hlt : wordTotal bs < 2 ^ 32 := by omega
  rw [ipv4Checksum, value_bind, value_sumWords_of_holds h (by decide), value_pure,
    Nat.zero_add, Nat.mod_eq_of_lt hlt]

theorem set_set_eq (h : k + 2 ≤ bs.length) (x y : UInt8) :
    (bs.set k x).set (k + 1) y = bs.take k ++ ([x, y] ++ bs.drop (k + 2)) := by
  induction bs generalizing k with
  | nil => simp at h
  | cons b bs ih =>
    cases k with
    | zero =>
      cases bs with
      | nil => simp at h
      | cons c bs => rfl
    | succ k =>
      rw [List.set_cons_succ, List.set_cons_succ, ih (by simpa using h)]
      rfl

theorem wordTotal_set_set (h : k + 2 ≤ bs.length) (hk : k % 2 = 0) (x y : UInt8) :
    wordTotal ((bs.set k x).set (k + 1) y) =
      wordTotal ((bs.set k 0).set (k + 1) 0) + (x.toNat + 256 * y.toNat) := by
  have heven : (bs.take k).length % 2 = 0 := by
    rw [List.length_take]
    omega
  rw [set_set_eq h, set_set_eq h, wordTotal_append heven, wordTotal_append heven,
    List.cons_append, List.cons_append, List.cons_append, List.cons_append, wordTotal, wordTotal]
  simp only [UInt8.toNat_zero]
  omega

theorem value_ipv4Checksum_storeChecksum (hk : k % 2 = 0) (hroom : k + 2 ≤ bs.length)
    (hlen : bs.length ≤ 65535) (h : Holds m a (storeChecksum bs k)) :
    (ipv4Checksum a bs.length).value m = 0 := by
  have hzeroed : ((bs.set k 0).set (k + 1) 0).length = bs.length := by
    rw [List.length_set, List.length_set]
  have hle := wordTotal_le ((bs.set k 0).set (k + 1) 0)
  have hstored : (storeChecksum bs k).length = bs.length := by
    rw [storeChecksum, List.length_set, List.length_set, hzeroed]
  have hchecksum := value_ipv4Checksum_of_holds (holds_ofList ((bs.set k 0).set (k + 1) 0))
    (hzeroed.trans_le hlen)
  generalize hc : (2 ^ 32 - 1 - foldCarry 2 (wordTotal ((bs.set k 0).set (k + 1) 0))) % 2 ^ 16 = c
    at hchecksum
  have htotal : wordTotal (storeChecksum bs k) = wordTotal ((bs.set k 0).set (k + 1) 0) + c := by
    have hfield : ((((bs.set k 0).set (k + 1) 0).set k (UInt8.ofNat c)).set (k + 1)
        (UInt8.ofNat (c / 256))) =
        (bs.set k (UInt8.ofNat c)).set (k + 1) (UInt8.ofNat (c / 256)) := by
      rw [List.set_comm _ _ (Nat.succ_ne_self k), List.set_set, List.set_set]
    rw [storeChecksum, hchecksum, hfield, wordTotal_set_set hroom hk, UInt8.toNat_ofNat',
      UInt8.toNat_ofNat']
    omega
  rw [← hstored, value_ipv4Checksum_of_holds h (hstored.trans_le hlen), htotal, ← hc]
  exact checksum_complement (by omega)

/-- **Every checksum that is stored passes the check of the receiver.** -/
theorem checksums_pass :
    (∀ (bs : List UInt8) (k : Nat), 2 ≤ bs.length → bs.length ≤ 65535 → k % 2 = 0 →
      k + 2 ≤ bs.length → ∀ m a, Holds m a (storeChecksum bs k) →
        (ipv4Checksum a bs.length).value m = 0) ∧
    (∀ (sender : NetHost) (dstIp proto : Nat) (payload : List UInt8) (m : Mem) (a : Nat),
      Holds m a (ipv4Packet sender dstIp proto payload) →
        (ipv4Checksum a ipv4HeaderSize).value m = 0) ∧
    ∀ message : List UInt8, icmpHeaderSize ≤ message.length → message.length ≤ 65535 →
      ∀ m a, Holds m a (echoReply message) →
        (ipv4Checksum a message.length).value m = 0 := by
  refine ⟨?_, ?_, ?_⟩
  · intro bs k _ hlen hk hroom m a h
    exact value_ipv4Checksum_storeChecksum hk hroom hlen h
  · intro sender dstIp proto payload m a h
    obtain ⟨_, _, hsum, _⟩ := packet_received h
    exact hsum
  · intro message hmin hlen m a h
    have hset : (message.set 0 icmpEchoReply).length = message.length := List.length_set
    rw [echoReply_eq] at h
    rw [← hset] at hmin hlen ⊢
    refine value_ipv4Checksum_storeChecksum (by decide) ?_ hlen h
    unfold icmpHeaderSize at hmin
    omega

theorem checksum_of_three :
    storeChecksum [0, 0, 7] 0 = [0xF8, 0xFF, 7] ∧
      (ipv4Checksum 0 3).value (ofList (storeChecksum [0, 0, 7] 0)) = 0 :=
  ⟨by decide +kernel, checksums_pass.1 [0, 0, 7] 0 (by decide) (by decide) (by decide) (by decide)
    _ 0 (holds_ofList _)⟩

end DevOs
