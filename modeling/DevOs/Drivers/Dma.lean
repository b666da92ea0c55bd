import DevOs.Elf
import DevOs.Mm.Heap.Run
import DevOs.Mm.Vmm.Init

/-!
The addresses that drivers give to their devices, after
`drivers/storage/ahci.c`, `drivers/storage/nvme.c` and `drivers/net/rtl8139.c`.
-/

namespace DevOs

open ByteMem

inductive DmaDriver where
  | ahci
  | nvme
  | rtl8139
  deriving DecidableEq, Repr

/-- An address in two registers of 32 bits: `clb` and `clbu`, `fb` and `fbu`,
`ctba` and `ctbau`, `dba` and `dbau`, or words 6 and 7 of an NVMe command. -/
structure AddrRegs where
  low : BitVec 32
  high : BitVec 32
  deriving DecidableEq, Repr

/-- `(uint32_t)(phys & 0xFFFFFFFF)` and `(uint32_t)(phys >> 32)`. -/
def AddrRegs.ofPhys (phys : BitVec 64) : AddrRegs :=
  ⟨(phys &&& 0xFFFFFFFF#64).setWidth 32, (phys >>> 32).setWidth 32⟩

def AddrRegs.addr (r : AddrRegs) : BitVec 64 := r.high ++ r.low

def busAddr : DmaDriver → BitVec 64 → BitVec 64
  | .ahci, buf | .nvme, buf => (AddrRegs.ofPhys (buf - kernelVirtBase)).addr
  | .rtl8139, buf => ((buf &&& 0xFFFFFFFF#64).setWidth 32).setWidth 64

def DmaOk (m : Mem) (kernelPml4 buf size : Nat) : Prop :=
  ∀ d : DmaDriver, ∀ o < size, busAddr d (BitVec.ofNat 64 buf) + BitVec.ofNat 64 o =
    vmmTranslate m kernelPml4 (BitVec.ofNat 64 (buf + o))

theorem toNat_low (v : BitVec 64) :
    ((v &&& 0xFFFFFFFF#64).setWidth 32).toNat = v.toNat % 2 ^ 32 := by
  rw [BitVec.toNat_setWidth, BitVec.toNat_and]
  have hmask : v.toNat &&& 0xFFFFFFFF = v.toNat % 2 ^ 32 :=
    Nat.and_two_pow_sub_one_eq_mod v.toNat 32
  change (v.toNat &&& 0xFFFFFFFF) % 2 ^ 32 = _
  rw [hmask, Nat.mod_mod]

theorem AddrRegs.addr_ofPhys (phys : BitVec 64) : (AddrRegs.ofPhys phys).addr = phys := by
  apply BitVec.eq_of_toNat_eq
  have hlt := phys.isLt
  simp only [addr, ofPhys]
  rw [BitVec.toNat_append, toNat_low, BitVec.toNat_setWidth, BitVec.toNat_ushiftRight,
    Nat.shiftRight_eq_div_pow, ← Nat.shiftLeft_add_eq_or_of_lt (Nat.mod_lt _ (by decide)),
    Nat.shiftLeft_eq]
  omega

theorem vmmTranslate_lt (m : Mem) (pml4 : Nat) (v : BitVec 64) :
    (vmmTranslate m pml4 v).toNat < 2 ^ 52 := by
  have hor : ∀ e f g h : BitVec 64, f.toNat < 2 ^ 52 → h.toNat < 2 ^ 52 →
      ((e &&& f) ||| (g &&& h)).toNat < 2 ^ 52 := by
    intro e f g h hf hh
    rw [BitVec.toNat_or, BitVec.toNat_and, BitVec.toNat_and]
    exact Nat.or_lt_two_pow (Nat.lt_of_le_of_lt Nat.and_le_right hf)
      (Nat.lt_of_le_of_lt Nat.and_le_right hh)
  unfold vmmTranslate
  dsimp only
  split
  · decide
  split
  · decide
  split
  · exact hor _ _ _ _ (by decide) (by decide)
  split
  · decide
  split
  · exact hor _ _ _ _ (by decide) (by decide)
  split
  · decide
  · exact hor _ _ _ _ (by decide) (by decide)

section

variable {buf o : Nat}

theorem busAddr_storage (hlo : heapVirtBase ≤ buf) (hhi : buf + o < kernelVirtBase.toNat)
    {d : DmaDriver} (hd : d ≠ .rtl8139) :
    (busAddr d (BitVec.ofNat 64 buf) + BitVec.ofNat 64 o).toNat = buf + o + 2 ^ 31 := by
  have hbase : kernelVirtBase.toNat = 0xFFFFFFFF80000000 := rfl
  have hsub : busAddr d (BitVec.ofNat 64 buf) = BitVec.ofNat 64 buf - kernelVirtBase := by
    cases d with
    | ahci => exact AddrRegs.addr_ofPhys _
    | nvme => exact AddrRegs.addr_ofPhys _
    | rtl8139 => exact absurd rfl hd
  rw [hsub, BitVec.toNat_add, BitVec.toNat_sub, BitVec.toNat_ofNat, BitVec.toNat_ofNat]
  omega

theorem busAddr_rtl8139 (hlo : heapVirtBase ≤ buf) (hhi : buf < heapVirtBase + 2 ^ 32) :
    busAddr .rtl8139 (BitVec.ofNat 64 buf) + BitVec.ofNat 64 o =
      BitVec.ofNat 64 (buf + o - heapVirtBase) := by
  have hbase : heapVirtBase = 0xFFFFFF8000000000 := rfl
  apply BitVec.eq_of_toNat_eq
  rw [busAddr, BitVec.toNat_add, BitVec.toNat_setWidth, toNat_low, BitVec.toNat_ofNat,
    BitVec.toNat_ofNat, BitVec.toNat_ofNat]
  omega

end

variable {h h' : Heap} {L : HeapLayout} {live : List Live} {size ptr : Nat} {growth : Option Mem}

theorem HeapInv.tile_window (hi : HeapInv h L live []) {b n : Nat} {k : TileKind}
    (hL : L b = some (k, n)) : heapVirtBase ≤ b ∧ b + n ≤ heapVirtBase + heapMaxSize := by
  obtain ⟨hlo, hhi⟩ := hi.tiling.inside b k n hL
  exact ⟨hlo, hhi.trans hi.cursor.2.1⟩

theorem largeAlloc_window (hi : HeapInv h L live [])
    (ha : largeAlloc h size growth = some (ptr, h')) (hne : ptr ≠ 0) :
    heapVirtBase ≤ ptr ∧ ptr ≤ heapVirtBase + heapMaxSize + largeHdrSize := by
  obtain ⟨l, hd, hnd, hmem⟩ := hi.freeList
  have hfuel := hi.length_lt hnd hmem
  obtain ⟨best, hbest, hfit⟩ :=
    @bestFit_spec h.mem (alignUp (size + largeHdrSize) pageSize) l heapFuel h.largeFreeList 0
      hd.path hfuel
  unfold largeAlloc at ha
  simp only [hbest] at ha
  split at ha
  · -- a new span at the cursor
    have hmap : (heapMapPages h (alignUp (size + largeHdrSize) pageSize / pageSize) growth).1 = 0 ∨
        (heapMapPages h (alignUp (size + largeHdrSize) pageSize / pageSize) growth).1 =
          h.heapCursor := by
      unfold heapMapPages
      dsimp only
      split
      · exact .inl rfl
      · split
        · exact .inl rfl
        · exact .inr rfl
    split at ha
    · cases ha
      exact absurd rfl hne
    · next hz =>
        have hptr := congrArg Prod.fst (Option.some.inj ha)
        rw [hmap.resolve_left hz] at hptr
        change h.heapCursor + largeHdrSize = ptr at hptr
        have hcur := hi.cursor
        omega
  · next hz =>
      obtain ⟨n, hL⟩ := (hmem best).mp (hfit.1.resolve_left hz).1
      have hptr : best + largeHdrSize = ptr := congrArg Prod.fst (Option.some.inj ha)
      have hwin := hi.tile_window hL
      omega

theorem kmalloc_window (hi : HeapInv h L live []) (ha : kmalloc h size growth = some (ptr, h'))
    (hne : ptr ≠ 0) :
    0 < size ∧ heapVirtBase ≤ ptr ∧ ptr ≤ heapVirtBase + heapMaxSize + largeHdrSize := by
  unfold kmalloc at ha
  split at ha
  · cases ha
    exact absurd rfl hne
  · next hz =>
      refine ⟨Nat.pos_of_ne_zero hz, ?_⟩
      split at ha
      · next hsmall =>
          obtain ⟨ho, hfit⟩ := sizeOrder_spec hsmall.2
          obtain ⟨r, heq, hr⟩ := slabAlloc_spec hi ho (Nat.pos_of_ne_zero hz) hfit growth
          rw [ha] at heq
          cases heq
          cases hr with
          | refused => exact absurd rfl hne
          | served hL' hidx hleave hi' =>
            obtain ⟨b, k, n, hL, hmeta, hroom, -⟩ := hi'.tile_of_live List.mem_cons_self
            have hwin := hi'.tile_window hL
            dsimp only at hmeta hroom
            omega
      · exact largeAlloc_window hi ha hne

theorem kmalloc_of_kzalloc (ha : kzalloc h size growth = some (ptr, h')) (hne : ptr ≠ 0) :
    ∃ h'', kmalloc h size growth = some (ptr, h'') := by
  unfold kzalloc at ha
  split at ha
  · cases ha
  · next p h'' heq =>
      split at ha
      · cases ha
        exact absurd rfl hne
      · cases ha
        exact ⟨h'', heq⟩

/-- **No heap buffer has the right bus address in all drivers.** -/
theorem not_dmaOk_of_kmalloc {m fresh : Mem} {s : HeapState} (h : HeapReachable m fresh s)
    {size ptr : Nat} {growth : Option Mem} {h' : Heap}
    (ha : kmalloc s.heap size growth = some (ptr, h') ∨ kzalloc s.heap size growth = some (ptr, h'))
    (hne : ptr ≠ 0) (mem : Mem) (kernelPml4 : Nat) :
    ¬ DmaOk mem kernelPml4 ptr size ∧
      (∀ d, d ≠ DmaDriver.rtl8139 → ∀ o, ptr + o < kernelVirtBase.toNat →
        busAddr d (BitVec.ofNat 64 ptr) + BitVec.ofNat 64 o ≠
          vmmTranslate mem kernelPml4 (BitVec.ofNat 64 (ptr + o))) ∧
      ∀ o, busAddr .rtl8139 (BitVec.ofNat 64 ptr) + BitVec.ofNat 64 o =
          vmmTranslate mem kernelPml4 (BitVec.ofNat 64 (ptr + o)) ↔
        vmmTranslate mem kernelPml4 (BitVec.ofNat 64 (ptr + o)) =
          BitVec.ofNat 64 (ptr + o - heapVirtBase) := by
  obtain ⟨L, hi⟩ := heapInv_of_reachable h
  obtain ⟨h'', hk⟩ : ∃ h'', kmalloc s.heap size growth = some (ptr, h'') :=
    ha.elim (fun hk => ⟨h', hk⟩) fun hz => kmalloc_of_kzalloc hz hne
  obtain ⟨hpos, hlo, hhi⟩ := kmalloc_window hi hk hne
  have hroom : heapVirtBase + heapMaxSize + largeHdrSize < kernelVirtBase.toNat := by decide
  have hmax : heapMaxSize + largeHdrSize < 2 ^ 32 := by decide
  have hbase : 2 ^ 52 ≤ heapVirtBase := by decide
  have hstorage : ∀ d, d ≠ DmaDriver.rtl8139 → ∀ o, ptr + o < kernelVirtBase.toNat →
      busAddr d (BitVec.ofNat 64 ptr) + BitVec.ofNat 64 o ≠
        vmmTranslate mem kernelPml4 (BitVec.ofNat 64 (ptr + o)) := by
    intro d hd o ho heq
    -- the bus address is at the top of the address space, no frame is
    have hlt := vmmTranslate_lt mem kernelPml4 (BitVec.ofNat 64 (ptr + o))
    rw [← heq, busAddr_storage hlo ho hd] at hlt
    omega
  refine ⟨fun hok => ?_, hstorage, fun o => ?_⟩
  · exact hstorage .ahci (by decide) 0 (by omega) (hok .ahci 0 hpos)
  · rw [busAddr_rtl8139 hlo (by omega), eq_comm]

theorem kmalloc_first_object :
    ∃ h', kmalloc (heapInit (fun _ => 0) (some fun _ => 0)) 24 (some fun _ => 0) =
      some (heapVirtBase + 0x4040, h') := by
  have hrun : (kmalloc (heapInit (fun _ => 0) (some fun _ => 0)) 24
      (some fun _ => 0)).map Prod.fst = some (heapVirtBase + 0x4040) := by decide +kernel
  obtain ⟨⟨ptr, h'⟩, hk, hptr⟩ := Option.map_eq_some_iff.mp hrun
  obtain rfl : ptr = heapVirtBase + 0x4040 := hptr
  exact ⟨h', hk⟩

theorem not_dmaOk_unmapped :
    (∃ h', kmalloc (heapInit (fun _ => 0) (some fun _ => 0)) 24 (some fun _ => 0) =
        some (heapVirtBase + 0x4040, h')) ∧
      ¬ DmaOk (fun _ => 0) 0x1000 (heapVirtBase + 0x4040) 24 := by
  obtain ⟨h', hk⟩ := kmalloc_first_object
  have hr : HeapReachable (fun _ => 0) (fun _ => 0)
      ⟨heapInit (fun _ => 0) (some fun _ => 0), []⟩ := .refl
  exact ⟨⟨h', hk⟩, (not_dmaOk_of_kmalloc hr (.inl hk) (by decide) _ _).1⟩

/-- The five pages of the heap behind that object, mapped by `heap_map_pages`
with the frames from `0x2000` on. -/
def heapPages : Phys (List Nat) :=
  growHeap 0x1000 5 0xFFFFFF8000000000#64
    ⟨fun _ => 0, [0x2000, 0x3000, 0x4000, 0x5000, 0x6000, 0x7000, 0x8000, 0x9000]⟩

/-- The object is in the frame at `0x9000`; the devices look for it elsewhere. -/
theorem busAddr_elsewhere :
    (∃ h', kmalloc (heapInit (fun _ => 0) (some fun _ => 0)) 24 (some fun _ => 0) =
        some (heapVirtBase + 0x4040, h')) ∧
      vmmTranslate heapPages.mem 0x1000 (BitVec.ofNat 64 (heapVirtBase + 0x4040)) = 0x9040 ∧
      busAddr .ahci (BitVec.ofNat 64 (heapVirtBase + 0x4040)) = 0xFFFFFF8080004040 ∧
      busAddr .nvme (BitVec.ofNat 64 (heapVirtBase + 0x4040)) = 0xFFFFFF8080004040 ∧
      busAddr .rtl8139 (BitVec.ofNat 64 (heapVirtBase + 0x4040)) = 0x4040 ∧
      ¬ DmaOk heapPages.mem 0x1000 (heapVirtBase + 0x4040) 24 := by
  have hphys : vmmTranslate heapPages.mem 0x1000 (BitVec.ofNat 64 (heapVirtBase + 0x4040)) =
      0x9040 := by decide +kernel
  refine ⟨kmalloc_first_object, hphys, by decide, by decide, by decide, fun hok => ?_⟩
  have hwrong := hok .ahci 0 (by decide)
  rw [Nat.add_zero, hphys] at hwrong
  exact absurd hwrong (by decide)

end DevOs
