import DevOs.Lib.Directory
import DevOs.Net.Exchange

/-!
The ARP cache over sequences of packets.
-/

namespace DevOs

open ByteMem

def slotOf (p : Nat × Mac) : ArpEntry := ⟨p.1, p.2, true⟩

def freeSlot : ArpEntry := ⟨0, zeroMac, false⟩

def slotsOf (d : Directory arpCacheSize Nat Mac) : List ArpEntry :=
  d.entries.map slotOf ++ List.replicate (arpCacheSize - d.entries.length) freeSlot

variable {ip : Nat} {mac : Mac} {es : List (Nat × Mac)} {free : List ArpEntry}
  {d : Directory arpCacheSize Nat Mac} {k : Nat}

@[simp] theorem isFor_slotOf (p : Nat × Mac) : (slotOf p).isFor ip = (p.1 == ip) := by
  simp [slotOf, ArpEntry.isFor]

theorem isFor_replicate_freeSlot :
    ∀ e ∈ List.replicate k freeSlot, e.isFor ip = false := by
  intro e he
  rw [List.eq_of_mem_replicate he]
  rfl

theorem arpLookup_slotsOf (d : Directory arpCacheSize Nat Mac) (ip : Nat) :
    arpLookup (slotsOf d) ip = d.get ip := by
  rw [slotsOf, Directory.get]
  generalize arpCacheSize - d.entries.length = k
  induction d.entries with
  | nil =>
    have hnone : (List.replicate k freeSlot).find? (ArpEntry.isFor ip) = none :=
      List.find?_eq_none.mpr fun e he => by simp [isFor_replicate_freeSlot e he]
    rw [List.map_nil, List.nil_append, arpLookup, hnone]
    rfl
  | cons p es ih =>
    obtain ⟨k, v⟩ := p
    rw [List.map_cons, List.cons_append, arpLookup_cons, ih, Directory.lookup_cons_eq, isFor_slotOf]
    exact if_congr (by rw [beq_iff_eq, eq_comm]) rfl rfl

theorem count_slotsOf_le (d : Directory arpCacheSize Nat Mac) (ip : Nat) :
    (slotsOf d).countP (ArpEntry.isFor ip) ≤ 1 := by
  have hfree : (List.replicate (arpCacheSize - d.entries.length) freeSlot).countP
      (ArpEntry.isFor ip) = 0 :=
    List.countP_eq_zero.mpr fun e he => by simp [isFor_replicate_freeSlot e he]
  have hkeys : (d.entries.map slotOf).countP (ArpEntry.isFor ip) = d.keys.count ip := by
    rw [Directory.keys, List.count, List.countP_map, List.countP_map]
    exact List.countP_congr fun p _ => by simp
  rw [slotsOf, List.countP_append, hfree, hkeys]
  exact List.nodup_iff_count_le_one.mp d.nodup ip

theorem modify_slots (hnodup : (es.map Prod.fst).Nodup) (hmem : ip ∈ es.map Prod.fst) :
    ∃ i, (es.map slotOf ++ free).findIdx? (ArpEntry.isFor ip) = some i ∧
      (es.map slotOf ++ free).modify i (fun e => { e with mac := mac }) =
        (Directory.replace ip mac es).map slotOf ++ free := by
  induction es with
  | nil => simp at hmem
  | cons p es ih =>
    rw [List.map_cons, List.nodup_cons] at hnodup
    rw [List.map_cons, List.cons_append, List.findIdx?_cons, isFor_slotOf]
    by_cases hp : p.1 = ip
    · refine ⟨0, by simp [hp], ?_⟩
      have hrest := Directory.replace_eq_self (hp ▸ hnodup.1) mac
      rw [List.modify_zero_cons, Directory.replace, List.map_cons, if_pos hp, ← Directory.replace,
        hrest, List.map_cons, List.cons_append]
      simp [slotOf, hp]
    · have htail : ip ∈ es.map Prod.fst := by
        rw [List.map_cons, List.mem_cons] at hmem
        exact hmem.resolve_left fun heq => hp heq.symm
      obtain ⟨i, hfind, hmodify⟩ := ih hnodup.2 htail
      refine ⟨i + 1, by simp [hp, hfind], ?_⟩
      rw [List.modify_succ_cons, hmodify, Directory.replace, Directory.replace, List.map_cons,
        if_neg hp, List.map_cons, List.cons_append]

theorem findIdx?_isFor_slots (h : ip ∉ es.map Prod.fst) :
    (es.map slotOf ++ List.replicate k freeSlot).findIdx? (ArpEntry.isFor ip) = none := by
  rw [List.findIdx?_eq_none_iff]
  intro e he
  rcases List.mem_append.mp he with hused | hfree
  · obtain ⟨p, hp, rfl⟩ := List.mem_map.mp hused
    rw [isFor_slotOf]
    exact beq_false_of_ne fun heq => h (heq ▸ List.mem_map_of_mem hp)
  · exact isFor_replicate_freeSlot e hfree

theorem findIdx?_free_slots :
    (es.map slotOf ++ List.replicate k freeSlot).findIdx? (fun e => !e.valid) =
      if k = 0 then none else some es.length := by
  have hused : (es.map slotOf).findIdx? (fun e => !e.valid) = none := by
    rw [List.findIdx?_eq_none_iff]
    intro e he
    obtain ⟨p, -, rfl⟩ := List.mem_map.mp he
    rfl
  rw [List.findIdx?_append, hused]
  cases k with
  | zero => rfl
  | succ k => simp [List.replicate_succ, List.findIdx?_cons, freeSlot]

theorem arpCacheUpdate_slotsOf (d : Directory arpCacheSize Nat Mac) (ip : Nat) (mac : Mac) :
    arpCacheUpdate (slotsOf d) ip mac = slotsOf (d.record ip mac) := by
  by_cases hk : ip ∈ d.keys
  · obtain ⟨i, hfind, hmodify⟩ := @modify_slots ip mac d.entries _ d.nodup hk
    have hlen : (Directory.replace ip mac d.entries).length = d.entries.length := List.length_map _
    rw [slotsOf, slotsOf, Directory.entries_record_of_mem hk, arpCacheUpdate, hfind, hlen]
    exact hmodify
  · rw [slotsOf, arpCacheUpdate, findIdx?_isFor_slots hk, findIdx?_free_slots]
    by_cases hroom : d.entries.length < arpCacheSize
    · obtain ⟨k, hsize⟩ := Nat.exists_eq_add_of_lt hroom
      have hfree : arpCacheSize - d.entries.length = k + 1 := by omega
      have hfree' : arpCacheSize - (d.entries ++ [(ip, mac)]).length = k := by
        rw [List.length_append, List.length_singleton]
        omega
      have hlen : (d.entries.map slotOf).length = d.entries.length := List.length_map _
      rw [slotsOf, Directory.entries_record_of_lt hk hroom, hfree, hfree',
        if_neg (Nat.succ_ne_zero k)]
      dsimp only
      rw [List.set_append_right _ _ hlen.le, hlen, Nat.sub_self, List.replicate_succ,
        List.set_cons_zero, List.map_append, List.append_assoc]
      rfl
    · rw [Directory.record_of_full hk hroom, if_pos (by omega), slotsOf]

/-- What `arp_rx` is called with, and what the heap and the device answer during
the call. -/
structure ArpInput where
  mem : Mem
  data : Nat
  len : Nat
  kmalloc : Nat → Bool
  sendStatus : Int

def arpReceive (h : NetHost) (i : ArpInput) : NetHost :=
  (arpRx { h with kmalloc := i.kmalloc, sendStatus := i.sendStatus } i.data i.len).value i.mem

def ArpInput.sender? (i : ArpInput) : Option (Nat × Mac) :=
  if i.len < arpPacketSize then none
  else some (ntohl (load 4 i.mem (i.data + 14)), (macAt (i.data + 8)).value i.mem)

theorem arpCache_arpReceive (h : NetHost) (i : ArpInput) : (arpReceive h i).arpCache =
      i.sender?.elim h.arpCache fun p => arpCacheUpdate h.arpCache p.1 p.2 := by
  unfold arpReceive ArpInput.sender?
  by_cases hlen : i.len < arpPacketSize
  · simp [arpRx, hlen]
  · rw [value_arpRx (Nat.le_of_not_lt hlen), if_neg hlen, arpReceived]
    dsimp only
    split <;> simp

theorem arpCache_foldl (is : List ArpInput) (h : NetHost) {ps : List (Nat × Mac)}
    (hh : h.arpCache = slotsOf (.recordAll ps)) : (is.foldl arpReceive h).arpCache =
      slotsOf (.recordAll (ps ++ is.filterMap ArpInput.sender?)) := by
  induction is generalizing h ps with
  | nil => rw [List.foldl_nil, List.filterMap_nil, List.append_nil, hh]
  | cons i is ih =>
    have hstep := arpCache_arpReceive h i
    rw [List.foldl_cons]
    cases hs : i.sender? with
    | none =>
      rw [hs, hh] at hstep
      rw [List.filterMap_cons_none hs]
      exact ih _ hstep
    | some p =>
      rw [hs, hh] at hstep
      rw [List.filterMap_cons_some hs, List.append_cons]
      refine ih _ ?_
      rw [hstep, Directory.recordAll_concat]
      exact arpCacheUpdate_slotsOf _ p.1 p.2

/-- **The cache after any packets since `arp_init`** has at most one slot for an
address. The addresses that `arp_resolve` knows are the first 32 distinct senders,
with the hardware address of the last packet from each. -/
theorem arpCache_of_packets (h : NetHost) (myIp : Nat) (is : List ArpInput) :
    let h' := is.foldl arpReceive (arpInit h myIp)
    let senders := is.filterMap ArpInput.sender?
    (∀ ip, h'.arpCache.countP (ArpEntry.isFor ip) ≤ 1) ∧
    (∀ ip, (arpResolve h' ip).1.isSome ↔ ip ∈ (senders.map Prod.fst).eraseDups.take 32) ∧
    ∀ ip mac, (arpResolve h' ip).1 = some mac → senders.reverse.lookup ip = some mac := by
  have hinit : (arpInit h myIp).arpCache = slotsOf (.recordAll []) := rfl
  have hcache := arpCache_foldl is (arpInit h myIp) hinit
  rw [List.nil_append] at hcache
  have hresolve : ∀ ip, (arpResolve (is.foldl arpReceive (arpInit h myIp)) ip).1 =
      if ip ∈ Directory.firstKeys 32 (is.filterMap ArpInput.sender?) then
        Directory.latest (is.filterMap ArpInput.sender?) ip else none := by
    intro ip
    rw [arpResolve_fst, hcache, arpLookup_slotsOf]
    exact Directory.get_recordAll _ ip
  refine ⟨fun ip => ?_, fun ip => ?_, fun ip mac hmac => ?_⟩
  · rw [hcache]
    exact count_slotsOf_le _ ip
  · rw [hresolve]
    by_cases hip : ip ∈ Directory.firstKeys 32 (is.filterMap ArpInput.sender?)
    · rw [if_pos hip]
      exact iff_of_true (Directory.isSome_latest hip) hip
    · rw [if_neg hip]
      exact iff_of_false Bool.false_ne_true hip
  · rw [hresolve] at hmac
    split at hmac
    · exact hmac
    · cases hmac

end DevOs
