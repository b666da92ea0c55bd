import DevOs.Acpi

/-!
The I/O APIC driver, after `arch/x86_64/ioapic.c`.
-/

namespace DevOs

structure IoapicChip where
  regsel : UInt8
  regs : UInt8 → BitVec 32

abbrev IoapicChips := UInt64 → IoapicChip

def ioapicVerReg : UInt8 := 0x01

def ioapicRteBase : UInt8 := 0x10

/-- The bits of a register that a write leaves alone: the version, and the delivery status
and the remote IRR of a redirection entry. -/
def ioapicReadOnly (reg : UInt8) : BitVec 32 :=
  if reg = ioapicVerReg then BitVec.allOnes 32
  else if ioapicRteBase ≤ reg ∧ reg.toNat % 2 = 0 then 0x5000
  else 0

/-- A register with the value `old` after a write of `v`. -/
def ioapicMerge (reg : UInt8) (old v : BitVec 32) : BitVec 32 :=
  old &&& ioapicReadOnly reg ||| v &&& ~~~ioapicReadOnly reg

def selectReg (chips : IoapicChips) (base : UInt64) (reg : UInt8) : IoapicChips :=
  Function.update chips base { chips base with regsel := reg }

def writeWin (chips : IoapicChips) (base : UInt64) (v : BitVec 32) : IoapicChips :=
  let chip := chips base
  let new := ioapicMerge chip.regsel (chip.regs chip.regsel) v
  Function.update chips base { chip with regs := Function.update chip.regs chip.regsel new }

structure Ioapic where
  base : UInt64
  gsiBase : UInt32
  maxRte : UInt8
  valid : Bool
  deriving DecidableEq, Repr

def ioapicRead (io : Ioapic) (reg : UInt8) (chips : IoapicChips) : BitVec 32 × IoapicChips :=
  let chips := selectReg chips io.base reg
  ((chips io.base).regs (chips io.base).regsel, chips)

def ioapicWrite (io : Ioapic) (reg : UInt8) (v : BitVec 32) (chips : IoapicChips) : IoapicChips :=
  writeWin (selectReg chips io.base reg) io.base v

/-- `(uint8_t)(IOAPIC_RTE_BASE + 2 * irq)`. -/
def rteReg (irq : UInt8) : UInt8 := ioapicRteBase + 2 * irq

def ioapicWriteRte (io : Ioapic) (irq : UInt8) (rte : BitVec 64) (chips : IoapicChips) :
    IoapicChips :=
  let reg := rteReg irq
  ioapicWrite io (reg + 1) ((rte >>> 32).setWidth 32) (ioapicWrite io reg (rte.setWidth 32) chips)

def ioapicReadRte (io : Ioapic) (irq : UInt8) (chips : IoapicChips) : BitVec 64 × IoapicChips :=
  let reg := rteReg irq
  let (lo, chips) := ioapicRead io reg chips
  let (hi, chips) := ioapicRead io (reg + 1) chips
  (lo.setWidth 64 ||| hi.setWidth 64 <<< 32, chips)

/-- `ioapic_for_gsi`: the I/O APIC and `local_irq`. The end of its range is a `uint32_t`. -/
def ioapicForGsi (ioapics : List Ioapic) (gsi : UInt32) : Option (Ioapic × UInt8) :=
  (ioapics.find? fun io =>
    io.valid && io.gsiBase ≤ gsi && gsi < io.gsiBase + io.maxRte.toUInt32).map fun io =>
      (io, (gsi - io.gsiBase).toUInt8)

def rteMask : BitVec 64 := 1#64 <<< 16

/-- `rte |= (1ULL << 16)` on one entry. -/
def maskRte (io : Ioapic) (irq : UInt8) (chips : IoapicChips) : IoapicChips :=
  let (rte, chips) := ioapicReadRte io irq chips
  ioapicWriteRte io irq (rte ||| rteMask) chips

/-- `rte &= ~(1ULL << 16)` on one entry. -/
def unmaskRte (io : Ioapic) (irq : UInt8) (chips : IoapicChips) : IoapicChips :=
  let (rte, chips) := ioapicReadRte io irq chips
  ioapicWriteRte io irq (rte &&& ~~~rteMask) chips

/-- A pass of the loop of `ioapic_init`: the registers are mapped at `KERNEL_VIRT_BASE`. -/
def ioapicInitOne (st : List Ioapic × IoapicChips) (a : IoApic) : List Ioapic × IoapicChips :=
  let io : Ioapic := ⟨.ofNat kernelVirtBase.toNat + a.phys.toUInt64, a.gsiBase, 0, true⟩
  let (ver, chips) := ioapicRead io ioapicVerReg st.2
  let io := { io with maxRte := .ofNat (((ver >>> 16) &&& 0xFF) + 1).toNat }
  (st.1 ++ [io], (List.range io.maxRte.toNat).foldl (fun c j => maskRte io (.ofNat j) c) chips)

/-- `ioapic_init`: `ioapics` and the chips, `none` where it returns `false`. -/
def ioapicInit (g : AcpiInfo) (chips : IoapicChips) : Option (List Ioapic × IoapicChips) :=
  if g.ioapic.count = 0 then none else some (g.ioapic.toList.foldl ioapicInitOne ([], chips))

def isoFor (g : AcpiInfo) (irq : UInt8) : Option Iso := g.iso.toList.find? fun iso => iso.irq == irq

/-- The global interrupt that `ioapic_set_irq` uses. -/
def gsiOf (g : AcpiInfo) (irq : UInt8) : UInt32 :=
  match isoFor g irq with
  | some iso => iso.gsi
  | none => irq.toUInt32

/-- The entry that `ioapic_set_irq` writes, with the polarity and the trigger mode of the
override, if there is one. -/
def rteOf (iso : Option Iso) (vector destApicId : UInt8) (level activeLow : Bool) : BitVec 64 :=
  let activeLow := activeLow || iso.any fun o => o.flags &&& 0x3 == 3
  let level := level || iso.any fun o => (o.flags &&& 0xC).shiftRight 2 == 3
  let rte := vector.toBitVec.setWidth 64
  let rte := if activeLow then rte ||| 1#64 <<< 13 else rte
  let rte := if level then rte ||| 1#64 <<< 15 else rte
  (rte ||| destApicId.toBitVec.setWidth 64 <<< 56) &&& ~~~rteMask

def ioapicSetIrq (g : AcpiInfo) (ioapics : List Ioapic) (irq vector destApicId : UInt8)
    (level activeLow : Bool) (chips : IoapicChips) : IoapicChips :=
  match ioapicForGsi ioapics (gsiOf g irq) with
  | none => chips
  | some (io, localIrq) =>
    ioapicWriteRte io localIrq (rteOf (isoFor g irq) vector destApicId level activeLow) chips

def ioapicMaskIrq (ioapics : List Ioapic) (irq : UInt8) (chips : IoapicChips) : IoapicChips :=
  match ioapicForGsi ioapics irq.toUInt32 with
  | none => chips
  | some (io, localIrq) => maskRte io localIrq chips

def ioapicUnmaskIrq (ioapics : List Ioapic) (irq : UInt8) (chips : IoapicChips) : IoapicChips :=
  match ioapicForGsi ioapics irq.toUInt32 with
  | none => chips
  | some (io, localIrq) => unmaskRte io localIrq chips

section

variable {chips : IoapicChips} {io : Ioapic} {b : UInt64} {reg r : UInt8}

def regsOf (chips : IoapicChips) (b : UInt64) (r : UInt8) : BitVec 32 := (chips b).regs r

@[simp] theorem regsOf_selectReg (chips : IoapicChips) (base : UInt64) (reg : UInt8) :
    regsOf (selectReg chips base reg) = regsOf chips := by
  funext b r
  simp only [regsOf, selectReg, Function.update_apply]
  split
  · rename_i h
    rw [h]
  · rfl

theorem regsOf_ioapicWrite (v : BitVec 32) : regsOf (ioapicWrite io reg v chips) b r =
      if b = io.base ∧ r = reg then ioapicMerge reg (regsOf chips b r) v else regsOf chips b r := by
  by_cases hb : b = io.base
  · by_cases hr : r = reg
    · simp [regsOf, ioapicWrite, writeWin, selectReg, hb, hr]
    · simp [regsOf, ioapicWrite, writeWin, selectReg, hb, hr]
  · simp [regsOf, ioapicWrite, writeWin, selectReg, hb]

@[simp] theorem fst_ioapicRead (io : Ioapic) (reg : UInt8) (chips : IoapicChips) :
    (ioapicRead io reg chips).1 = regsOf chips io.base reg := by
  simp [ioapicRead, regsOf, selectReg]

@[simp] theorem regsOf_ioapicRead (io : Ioapic) (reg : UInt8) (chips : IoapicChips) :
    regsOf (ioapicRead io reg chips).2 = regsOf chips := by
  simp [ioapicRead]

end

def rteMaskLo : BitVec 32 := 1#32 <<< 16

theorem rteReg_even (irq : UInt8) : (rteReg irq).toNat % 2 = 0 := by
  simp only [rteReg, ioapicRteBase, UInt8.toNat_add, UInt8.toNat_mul, UInt8.reduceToNat]
  omega

theorem rteReg_succ_ne (irq irq' : UInt8) : rteReg irq ≠ rteReg irq' + 1 := by
  intro h
  have h0 := rteReg_even irq
  have h1 := rteReg_even irq'
  simp only [h, UInt8.toNat_add, UInt8.reduceToNat] at h0
  omega

theorem ioapicMerge_self (reg : UInt8) (v : BitVec 32) : ioapicMerge reg v v = v := by
  unfold ioapicMerge
  generalize ioapicReadOnly reg = ro
  ext i hi
  simp only [BitVec.getElem_or, BitVec.getElem_and, BitVec.getElem_not]
  cases v[i] <;> cases ro[i] <;> rfl

theorem readOnly_rteReg (irq : UInt8) : ioapicReadOnly (rteReg irq) &&& rteMaskLo = 0#32 := by
  have hver : rteReg irq ≠ ioapicVerReg := fun h => by
    have heven := rteReg_even irq
    rw [h] at heven
    exact absurd heven (by decide)
  rw [ioapicReadOnly, if_neg hver]
  split <;> decide

theorem ioapicMerge_eq {reg : UInt8} {old v m : BitVec 32} (hm : ioapicReadOnly reg &&& m = 0#32)
    (hv : old &&& ~~~m = v &&& ~~~m) : ioapicMerge reg old v = v := by
  unfold ioapicMerge
  generalize ioapicReadOnly reg = ro at *
  ext i hi
  have hmi := congrArg (fun x : BitVec 32 => x[i]) hm
  have hvi := congrArg (fun x : BitVec 32 => x[i]) hv
  simp only [BitVec.getElem_or, BitVec.getElem_and, BitVec.getElem_not] at hmi hvi ⊢
  cases hr : ro[i] <;> simp_all

section

variable {chips : IoapicChips} {io : Ioapic} {irq : UInt8} {b : UInt64} {r : UInt8}

theorem regsOf_ioapicWriteRte (rte : BitVec 64) : regsOf (ioapicWriteRte io irq rte chips) b r =
      if b = io.base ∧ r = rteReg irq then ioapicMerge r (regsOf chips b r) (rte.setWidth 32)
      else if b = io.base ∧ r = rteReg irq + 1 then
        ioapicMerge r (regsOf chips b r) ((rte >>> 32).setWidth 32) else regsOf chips b r := by
  simp only [ioapicWriteRte, regsOf_ioapicWrite]
  have hne := rteReg_succ_ne irq irq
  by_cases hb : b = io.base
  · by_cases hr : r = rteReg irq
    · simp [hb, hr, hne]
    · by_cases hr' : r = rteReg irq + 1
      · simp [hb, hr', hne.symm]
      · simp [hr, hr']
  · simp [hb]

@[simp] theorem regsOf_ioapicReadRte (io : Ioapic) (irq : UInt8) (chips : IoapicChips) :
    regsOf (ioapicReadRte io irq chips).2 = regsOf chips := by
  simp [ioapicReadRte]

theorem fst_ioapicReadRte (io : Ioapic) (irq : UInt8) (chips : IoapicChips) :
    (ioapicReadRte io irq chips).1 = (regsOf chips io.base (rteReg irq)).setWidth 64 |||
        (regsOf chips io.base (rteReg irq + 1)).setWidth 64 <<< 32 := by
  simp [ioapicReadRte]

theorem setWidth_pair (lo hi : BitVec 32) :
    (lo.setWidth 64 ||| hi.setWidth 64 <<< 32).setWidth 32 = lo := by
  simp

theorem setWidth_pair_shiftRight (lo hi : BitVec 32) :
    ((lo.setWidth 64 ||| hi.setWidth 64 <<< 32) >>> 32).setWidth 32 = hi := by
  ext i h
  have h1 : 32 + i < 64 := by omega
  have h2 : ¬ 32 + i < 32 := by omega
  have h3 : i < 64 := by omega
  simp [h1, h2, h3, BitVec.getLsbD_eq_getElem h]

theorem regsOf_rewriteRte {rte : BitVec 64}
    (hlo : regsOf chips io.base (rteReg irq) &&& ~~~rteMaskLo = rte.setWidth 32 &&& ~~~rteMaskLo)
    (hhi : (rte >>> 32).setWidth 32 = regsOf chips io.base (rteReg irq + 1)) :
    regsOf (ioapicWriteRte io irq rte (ioapicReadRte io irq chips).2) b r =
      if b = io.base ∧ r = rteReg irq then rte.setWidth 32 else regsOf chips b r := by
  rw [regsOf_ioapicWriteRte, regsOf_ioapicReadRte]
  split
  · rename_i h
    obtain ⟨rfl, rfl⟩ := h
    exact ioapicMerge_eq (readOnly_rteReg irq) hlo
  · split
    · rename_i h
      obtain ⟨rfl, rfl⟩ := h
      rw [hhi, ioapicMerge_self]
    · rfl

theorem regsOf_maskRte : regsOf (maskRte io irq chips) b r =
      if b = io.base ∧ r = rteReg irq then regsOf chips b r ||| rteMaskLo
      else regsOf chips b r := by
  have hmask : (rteMask.setWidth 32 : BitVec 32) = rteMaskLo := by decide
  have hmaskHi : ((rteMask >>> 32).setWidth 32 : BitVec 32) = 0#32 := by decide
  have hlo (v : BitVec 32) : v &&& ~~~rteMaskLo = (v ||| rteMaskLo) &&& ~~~rteMaskLo := by
    simp [BitVec.and_or_distrib_right]
  simp only [maskRte]
  rw [regsOf_rewriteRte]
  · rw [fst_ioapicReadRte, BitVec.setWidth_or, setWidth_pair, hmask]
    split
    · rename_i h
      rw [h.1, h.2]
    · rfl
  · rw [fst_ioapicReadRte, BitVec.setWidth_or, setWidth_pair, hmask, ← hlo]
  · rw [fst_ioapicReadRte, BitVec.ushiftRight_or_distrib, BitVec.setWidth_or,
      setWidth_pair_shiftRight, hmaskHi, BitVec.or_zero]

theorem regsOf_unmaskRte : regsOf (unmaskRte io irq chips) b r =
      if b = io.base ∧ r = rteReg irq then regsOf chips b r &&& ~~~rteMaskLo
      else regsOf chips b r := by
  have hmask : ((~~~rteMask).setWidth 32 : BitVec 32) = ~~~rteMaskLo := by decide
  have hmaskHi : ((~~~rteMask >>> 32).setWidth 32 : BitVec 32) = BitVec.allOnes 32 := by decide
  simp only [unmaskRte]
  rw [regsOf_rewriteRte]
  · rw [fst_ioapicReadRte, BitVec.setWidth_and, setWidth_pair, hmask]
    split
    · rename_i h
      rw [h.1, h.2]
    · rfl
  · rw [fst_ioapicReadRte, BitVec.setWidth_and, setWidth_pair, hmask, BitVec.and_assoc,
      BitVec.and_self]
  · rw [fst_ioapicReadRte, BitVec.ushiftRight_and_distrib, BitVec.setWidth_and,
      setWidth_pair_shiftRight, hmaskHi, BitVec.and_allOnes]

end

structure RteAddr where
  base : UInt64
  reg : UInt8
  deriving DecidableEq, Repr

/-- The entry of a global interrupt, by `ioapic_for_gsi`. -/
def rteFor (ioapics : List Ioapic) (gsi : UInt32) : Option RteAddr :=
  (ioapicForGsi ioapics gsi).map fun t => ⟨t.1.base, rteReg t.2⟩

/-- Masking `irq` sets the mask bit of the entry `e` and changes no other register or bit,
and unmasking it then restores all registers. -/
def MasksEntry (ioapics : List Ioapic) (irq : UInt8) (e : RteAddr) (chips : IoapicChips) : Prop :=
  (∀ b r, regsOf (ioapicMaskIrq ioapics irq chips) b r =
    if b = e.base ∧ r = e.reg then regsOf chips b r ||| rteMaskLo else regsOf chips b r) ∧
  ∀ b r, regsOf (ioapicUnmaskIrq ioapics irq (ioapicMaskIrq ioapics irq chips)) b r =
    regsOf chips b r

variable {g : AcpiInfo} {ioapics : List Ioapic} {irq vector destApicId : UInt8}
  {level activeLow : Bool} {chips : IoapicChips} {e : RteAddr}

theorem unmasked_ioapicSetIrq (he : rteFor ioapics (gsiOf g irq) = some e) :
    regsOf (ioapicSetIrq g ioapics irq vector destApicId level activeLow chips) e.base e.reg &&&
      rteMaskLo = 0#32 := by
  obtain ⟨⟨io, localIrq⟩, hio, rfl⟩ := Option.map_eq_some_iff.mp he
  simp only [ioapicSetIrq, hio, regsOf_ioapicWriteRte, true_and, if_true]
  have hro := readOnly_rteReg localIrq
  have hlo : ((~~~rteMask).setWidth 32 : BitVec 32) = ~~~rteMaskLo := by decide
  have hrte : ((rteOf (isoFor g irq) vector destApicId level activeLow).setWidth 32 : BitVec 32) &&&
      rteMaskLo = 0#32 := by
    simp [rteOf, hlo, BitVec.and_assoc]
  rw [ioapicMerge, BitVec.and_or_distrib_right, BitVec.and_assoc, hro, BitVec.and_zero,
    BitVec.zero_or, BitVec.and_assoc, BitVec.and_comm _ rteMaskLo, ← BitVec.and_assoc, hrte,
    BitVec.zero_and]

theorem regsOf_ioapicMaskIrq (he : rteFor ioapics irq.toUInt32 = some e) (b : UInt64) (r : UInt8) :
    regsOf (ioapicMaskIrq ioapics irq chips) b r =
      if b = e.base ∧ r = e.reg then regsOf chips b r ||| rteMaskLo else regsOf chips b r := by
  obtain ⟨⟨io, localIrq⟩, hio, rfl⟩ := Option.map_eq_some_iff.mp he
  simp only [ioapicMaskIrq, hio, regsOf_maskRte]

theorem regsOf_ioapicUnmaskIrq (he : rteFor ioapics irq.toUInt32 = some e) (b : UInt64)
    (r : UInt8) : regsOf (ioapicUnmaskIrq ioapics irq chips) b r =
      if b = e.base ∧ r = e.reg then regsOf chips b r &&& ~~~rteMaskLo else regsOf chips b r := by
  obtain ⟨⟨io, localIrq⟩, hio, rfl⟩ := Option.map_eq_some_iff.mp he
  simp only [ioapicUnmaskIrq, hio, regsOf_unmaskRte]

theorem regsOf_ioapicMaskIrq_of_ne (he : rteFor ioapics irq.toUInt32 ≠ some e) :
    regsOf (ioapicMaskIrq ioapics irq chips) e.base e.reg = regsOf chips e.base e.reg := by
  cases hfor : rteFor ioapics irq.toUInt32 with
  | none =>
    have hnone : ioapicForGsi ioapics irq.toUInt32 = none := Option.map_eq_none_iff.mp hfor
    simp only [ioapicMaskIrq, hnone]
  | some e' =>
    rw [regsOf_ioapicMaskIrq hfor, if_neg]
    intro h
    have heq : e' = e := by
      cases e
      cases e'
      rw [RteAddr.mk.injEq]
      exact ⟨h.1.symm, h.2.symm⟩
    exact he (heq ▸ hfor)

theorem rteFor_eq_of_masksEntry (hclear : regsOf chips e.base e.reg &&& rteMaskLo = 0#32)
    (hmasks : MasksEntry ioapics irq e chips) : rteFor ioapics irq.toUInt32 = some e := by
  by_contra hne
  have hset := hmasks.1 e.base e.reg
  rw [regsOf_ioapicMaskIrq_of_ne hne, if_pos ⟨rfl, rfl⟩] at hset
  have hbit : rteMaskLo &&& rteMaskLo = 0#32 := by
    calc rteMaskLo &&& rteMaskLo
        = (regsOf chips e.base e.reg ||| rteMaskLo) &&& rteMaskLo := by
          rw [BitVec.and_or_distrib_right, hclear, BitVec.zero_or]
      _ = 0#32 := by rw [← hset, hclear]
  exact absurd hbit (by decide)

theorem or_and_not_of_and_eq_zero {v m : BitVec 32} (h : v &&& m = 0#32) :
    (v ||| m) &&& ~~~m = v := by
  ext i hi
  have hbit := congrArg (fun x : BitVec 32 => x[i]) h
  simp only [BitVec.getElem_or, BitVec.getElem_and, BitVec.getElem_not] at hbit ⊢
  cases hm : m[i] <;> simp_all

/-- **Masking reaches the entry that was programmed** exactly if the number of the
interrupt leads to it without the override as well. -/
theorem masksEntry_iff (g : AcpiInfo) (ioapics : List Ioapic) (irq vector destApicId : UInt8)
    (level activeLow : Bool) (chips : IoapicChips) (e : RteAddr)
    (he : rteFor ioapics (gsiOf g irq) = some e) :
    MasksEntry ioapics irq e (ioapicSetIrq g ioapics irq vector destApicId level activeLow chips) ↔
      rteFor ioapics irq.toUInt32 = some e := by
  have hclear : regsOf (ioapicSetIrq g ioapics irq vector destApicId level activeLow chips)
      e.base e.reg &&& rteMaskLo = 0#32 := unmasked_ioapicSetIrq he
  constructor
  · exact rteFor_eq_of_masksEntry hclear
  · intro hsame
    refine ⟨fun b r => regsOf_ioapicMaskIrq hsame b r, fun b r => ?_⟩
    rw [regsOf_ioapicUnmaskIrq hsame, regsOf_ioapicMaskIrq hsame]
    split
    · rename_i h
      rw [h.1, h.2, or_and_not_of_and_eq_zero hclear]
    · rfl

def exampleAcpi : AcpiInfo where
  ioapic := Capped.empty.push ⟨0, 0xFEC00000, 0⟩
  iso := Capped.empty.push ⟨0, 0, 2, 0⟩

def exampleChips : IoapicChips := fun _ => ⟨0, fun r => if r = ioapicVerReg then 0x170011 else 0⟩

def exampleIoapic : Ioapic := ⟨0xFFFFFFFF80000000 + 0xFEC00000, 0, 24, true⟩

theorem masksEntry_keyboard :
    rteFor [exampleIoapic] (gsiOf exampleAcpi 1) = some ⟨exampleIoapic.base, 0x12⟩ ∧
      MasksEntry [exampleIoapic] 1 ⟨exampleIoapic.base, 0x12⟩
        (ioapicSetIrq exampleAcpi [exampleIoapic] 1 0x21 0 false false exampleChips) := by
  refine ⟨?entry, (masksEntry_iff _ _ _ _ _ _ _ _ _ ?entry).mpr (by decide)⟩
  decide

theorem timer_not_masked :
    ∃ ioapics chips e, ioapicInit exampleAcpi exampleChips = some (ioapics, chips) ∧
      rteFor ioapics (gsiOf exampleAcpi 0) = some e ∧
      ¬ MasksEntry ioapics 0 e
        (ioapicSetIrq exampleAcpi ioapics 0 0x20 0 false false chips) := by
  have he : rteFor [exampleIoapic] (gsiOf exampleAcpi 0) = some ⟨exampleIoapic.base, 0x14⟩ := by
    decide
  refine ⟨[exampleIoapic], _, _, rfl, he, fun hmasks => ?_⟩
  exact absurd (rteFor_eq_of_masksEntry (unmasked_ioapicSetIrq he) hmasks) (by decide)

end DevOs
