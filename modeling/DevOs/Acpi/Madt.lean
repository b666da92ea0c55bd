import DevOs.Acpi

/-!
`parse_madt` as a decoder.
-/

namespace DevOs

open ByteMem Buffer Probe

inductive MadtEntry where
  | lapic (acpiCpuUid apicId : UInt8) (flags : UInt32)
  | ioapic (a : IoApic) (reserved : UInt8)
  | iso (o : Iso)
  | other (type : UInt8) (payload : List UInt8) (htype : madtIso < type)
      (hlen : payload.length ≤ 253)

namespace MadtEntry

def encode : MadtEntry → List UInt8
  | lapic acpiCpuUid apicId flags =>
    [madtLapic, 8, acpiCpuUid, apicId] ++ ByteMem.encode 4 flags.toNat
  | ioapic a reserved =>
    [madtIoapic, 12, a.id, reserved] ++
      (ByteMem.encode 4 a.phys.toNat ++ ByteMem.encode 4 a.gsiBase.toNat)
  | iso o =>
    [madtIso, 10, o.bus, o.irq] ++
      (ByteMem.encode 4 o.gsi.toNat ++ ByteMem.encode 2 o.flags.toNat)
  | other type payload _ _ => type :: .ofNat (payload.length + 2) :: payload

def enabledId? : MadtEntry → Option UInt8
  | lapic _ apicId flags => if flags &&& 1 ≠ 0 then some apicId else none
  | _ => none

def ioapic? : MadtEntry → Option IoApic
  | ioapic a _ => some a
  | _ => none

def iso? : MadtEntry → Option Iso
  | iso o => some o
  | _ => none

end MadtEntry

def AcpiInfo.record (g : AcpiInfo) : MadtEntry → AcpiInfo
  | .lapic _ apicId flags =>
    if flags &&& 1 ≠ 0 then { g with cpuLapicId := g.cpuLapicId.push apicId } else g
  | .ioapic a _ => { g with ioapic := g.ioapic.push a }
  | .iso o => { g with iso := g.iso.push o }
  | .other .. => g

variable {m : Mem} {p fuel : Nat} {g : AcpiInfo} {e : MadtEntry}

theorem toNat_u32 (m : Mem) (a : Nat) : (UInt32.ofNat (load 4 m a)).toNat = load 4 m a := by
  rw [UInt32.toNat_ofNat']
  exact Nat.mod_eq_of_lt (load_lt 4 m a)

theorem u32_of_holds {v : UInt32} (h : ByteMem.Holds m p (encode 4 v.toNat)) :
    UInt32.ofNat (load 4 m p) = v := by
  rw [load_of_holds_of_lt h v.toNat_lt, UInt32.ofNat_toNat]

theorem u16_of_holds {v : UInt16} (h : ByteMem.Holds m p (encode 2 v.toNat)) :
    UInt16.ofNat (load 2 m p) = v := by
  rw [load_of_holds_of_lt h v.toNat_lt, UInt16.ofNat_toNat]

theorem length_of_holds (h : ByteMem.Holds m p e.encode) :
    (m (p + 1)).toNat = e.encode.length ∧ m (p + 1) ≠ 0 := by
  cases e with
  | lapic uid id flags =>
    simp only [MadtEntry.encode, List.cons_append, holds_cons] at h
    rw [h.2.1]
    exact ⟨by simp [MadtEntry.encode], by decide⟩
  | ioapic a reserved =>
    simp only [MadtEntry.encode, List.cons_append, holds_cons] at h
    rw [h.2.1]
    exact ⟨by simp [MadtEntry.encode], by decide⟩
  | iso o =>
    simp only [MadtEntry.encode, List.cons_append, holds_cons] at h
    rw [h.2.1]
    exact ⟨by simp [MadtEntry.encode], by decide⟩
  | other type payload htype hlen =>
    simp only [MadtEntry.encode, holds_cons] at h
    have hval : (m (p + 1)).toNat = payload.length + 2 := by
      rw [h.2.1, UInt8.toNat_ofNat', Nat.mod_eq_of_lt (by omega)]
    refine ⟨by simp [MadtEntry.encode, hval], fun h0 => ?_⟩
    rw [h0] at hval
    simp at hval

theorem value_madtEntry (h : ByteMem.Holds m p e.encode) :
    (madtEntry g p).value m = g.record e := by
  cases e with
  | lapic uid id flags =>
    simp only [MadtEntry.encode, List.cons_append, List.nil_append, holds_cons] at h
    obtain ⟨htype, -, -, hid, hflags⟩ := h
    simp only [madtEntry, value_bind, value_byte, htype, if_true, value_u32,
      u32_of_holds hflags, value_ite, value_pure, AcpiInfo.record]
    by_cases hen : flags &&& 1 ≠ 0
    · by_cases hroom : g.cpuLapicId.count < 64
      · rw [if_pos ⟨hen, hroom⟩, if_pos hen]
        simp [hid]
      · rw [if_neg fun hc => hroom hc.2, if_pos hen, g.cpuLapicId.push_eq_self hroom]
    · rw [if_neg fun hc => hen hc.1, if_neg hen]
  | ioapic a reserved =>
    simp only [MadtEntry.encode, List.cons_append, List.nil_append, holds_cons, holds_append,
      length_encode] at h
    obtain ⟨htype, -, hid, -, hphys, hgsi⟩ := h
    have hne : ¬ madtIoapic = madtLapic := by decide
    simp only [madtEntry, value_bind, value_byte, htype, if_neg hne, if_true,
      hid, value_u32, u32_of_holds hphys, u32_of_holds hgsi, value_ite, value_pure,
      AcpiInfo.record]
    by_cases hroom : g.ioapic.count < 16
    · rw [if_pos hroom]
    · rw [if_neg hroom, g.ioapic.push_eq_self hroom]
  | iso o =>
    simp only [MadtEntry.encode, List.cons_append, List.nil_append, holds_cons, holds_append,
      length_encode] at h
    obtain ⟨htype, -, hbus, hirq, hgsi, hflags⟩ := h
    have hne : ¬ madtIso = madtLapic ∧ ¬ madtIso = madtIoapic := by decide
    simp only [madtEntry, value_bind, value_byte, htype, if_neg hne.1, if_neg hne.2,
      if_true, hbus, hirq, value_u32, value_u16, u32_of_holds hgsi, u16_of_holds hflags,
      value_ite, value_pure, AcpiInfo.record]
    by_cases hroom : g.iso.count < 32
    · rw [if_pos hroom]
    · rw [if_neg hroom, g.iso.push_eq_self hroom]
  | other type payload htype hlen =>
    simp only [MadtEntry.encode, holds_cons] at h
    have hne : ¬ type = madtLapic ∧ ¬ type = madtIoapic ∧ ¬ type = madtIso := by
      refine ⟨?_, ?_, ?_⟩ <;> intro heq <;> rw [heq] at htype <;> exact absurd htype (by decide)
    simp only [madtEntry, value_bind, value_byte, h.1, if_neg hne.1, if_neg hne.2.1,
      if_neg hne.2.2, value_pure, AcpiInfo.record]

theorem value_parseMadtLoop {es : List MadtEntry} (h : ByteMem.Holds m p (es.flatMap (·.encode)))
    (hfuel : (es.flatMap (·.encode)).length < fuel) :
    (parseMadtLoop (p + (es.flatMap (·.encode)).length) fuel p g).value m =
      some (es.foldl AcpiInfo.record g) := by
  induction es generalizing p fuel g with
  | nil =>
    obtain ⟨fuel, rfl⟩ := Nat.exists_eq_succ_of_ne_zero (Nat.ne_of_gt (Nat.zero_lt_of_lt hfuel))
    exact value_parseMadtLoop_end (Nat.le_refl p)
  | cons e es ih =>
    rw [List.flatMap_cons, holds_append] at h
    rw [List.flatMap_cons, List.length_append] at hfuel ⊢
    obtain ⟨hlen, hne⟩ := length_of_holds h.1
    have hpos := toNat_pos_of_ne_zero hne
    obtain ⟨fuel, rfl⟩ := Nat.exists_eq_succ_of_ne_zero (Nat.ne_of_gt (Nat.zero_lt_of_lt hfuel))
    rw [value_parseMadtLoop_step (by omega) hne, value_madtEntry h.1, hlen, ← Nat.add_assoc,
      ih h.2 (by omega), List.foldl_cons]

theorem foldl_record {n : Nat} {α : Type} {list : AcpiInfo → Capped n α}
    {part : MadtEntry → Option α}
    (hstep : ∀ g e, list (g.record e) = (part e).toList.foldl Capped.push (list g))
    (es : List MadtEntry) (g : AcpiInfo) :
    list (es.foldl AcpiInfo.record g) = (es.filterMap part).foldl Capped.push (list g) := by
  induction es generalizing g with
  | nil => rfl
  | cons e es ih =>
    rw [List.foldl_cons, ih, hstep, ← List.foldl_append]
    cases hpart : part e <;> simp [hpart]

theorem cpuLapicId_foldl_record (es : List MadtEntry) (g : AcpiInfo) :
    (es.foldl AcpiInfo.record g).cpuLapicId =
      (es.filterMap MadtEntry.enabledId?).foldl Capped.push g.cpuLapicId := by
  refine foldl_record (fun g e => ?_) es g
  cases e with
  | lapic uid id flags =>
    simp only [AcpiInfo.record, MadtEntry.enabledId?]
    split <;> rfl
  | ioapic | iso | other => rfl

theorem ioapic_foldl_record (es : List MadtEntry) (g : AcpiInfo) :
    (es.foldl AcpiInfo.record g).ioapic =
      (es.filterMap MadtEntry.ioapic?).foldl Capped.push g.ioapic := by
  refine foldl_record (fun g e => ?_) es g
  cases e with
  | lapic uid id flags =>
    simp only [AcpiInfo.record, MadtEntry.ioapic?]
    split <;> rfl
  | ioapic | iso | other => rfl

theorem iso_foldl_record (es : List MadtEntry) (g : AcpiInfo) : (es.foldl AcpiInfo.record g).iso =
      (es.filterMap MadtEntry.iso?).foldl Capped.push g.iso := by
  refine foldl_record (fun g e => ?_) es g
  cases e with
  | lapic uid id flags =>
    simp only [AcpiInfo.record, MadtEntry.iso?]
    split <;> rfl
  | ioapic | iso | other => rfl

theorem header_foldl_record (es : List MadtEntry) (g : AcpiInfo) :
    (es.foldl AcpiInfo.record g).lapicPhys = g.lapicPhys ∧
      (es.foldl AcpiInfo.record g).has8259 = g.has8259 := by
  induction es generalizing g with
  | nil => exact ⟨rfl, rfl⟩
  | cons e es ih =>
    obtain ⟨hphys, hpic⟩ := ih (g.record e)
    rw [List.foldl_cons, hphys, hpic]
    cases e with
    | lapic uid id flags =>
      simp only [AcpiInfo.record]
      split <;> exact ⟨rfl, rfl⟩
    | ioapic | iso | other => exact ⟨rfl, rfl⟩

/-- **`parse_madt` on a zeroed `g_acpi`** records the enabled local APICs, the
I/O APICs and the overrides of the table, as many as there is room for. -/
theorem parseMadt_encoded (m : Mem) (es : List MadtEntry) (fuel : Nat)
    (hlength : load 4 m 4 = madtHeaderSize + (es.flatMap (·.encode)).length)
    (hes : ByteMem.Holds m madtHeaderSize (es.flatMap (·.encode)))
    (hfuel : load 4 m 4 < fuel) :
    ∃ g, (parseMadt fuel {}).value m = some g ∧
      g.cpuLapicId.toList = (es.filterMap MadtEntry.enabledId?).take 64 ∧
      g.ioapic.toList = (es.filterMap MadtEntry.ioapic?).take 16 ∧
      g.iso.toList = (es.filterMap MadtEntry.iso?).take 32 ∧
      g.lapicPhys.toNat = load 4 m 36 ∧ (g.has8259 ↔ load 4 m 40 % 2 = 1) := by
  let g0 : AcpiInfo :=
    { lapicPhys := .ofNat (load 4 m 36), has8259 := UInt32.ofNat (load 4 m 40) &&& 1 ≠ 0 }
  have hvalue : (parseMadt fuel {}).value m = some (es.foldl AcpiInfo.record g0) := by
    have hloop := @value_parseMadtLoop m madtHeaderSize fuel g0 es hes (by omega)
    rw [← hlength] at hloop
    exact hloop
  obtain ⟨hphys, hpic⟩ := header_foldl_record es g0
  refine ⟨_, hvalue, ?_, ?_, ?_, ?_, ?_⟩
  · rw [cpuLapicId_foldl_record, Capped.toList_foldl_push]
    rfl
  · rw [ioapic_foldl_record, Capped.toList_foldl_push]
    rfl
  · rw [iso_foldl_record, Capped.toList_foldl_push]
    rfl
  · rw [hphys, toNat_u32]
  · have hbit : (UInt32.ofNat (load 4 m 40) &&& 1).toNat = load 4 m 40 % 2 := by
      rw [UInt32.toNat_and, toNat_u32]
      exact Nat.and_one_is_mod _
    rw [hpic, decide_eq_true_iff, ne_eq, ← UInt32.toNat_inj, hbit]
    simp

/-- A MADT with a processor that is enabled and one that is not, an I/O APIC, an
override of IRQ 0 and an entry of type 4. -/
def exampleMadt : List UInt8 :=
  madtSignature ++ encode 4 88 ++ List.replicate 28 0 ++ encode 4 0xFEE00000 ++ encode 4 1 ++
    [0, 8, 0, 5, 1, 0, 0, 0, 0, 8, 1, 6, 0, 0, 0, 0,
     1, 12, 2, 0, 0, 0, 0xC0, 0xFE, 0, 0, 0, 0, 2, 10, 0, 0, 2, 0, 0, 0, 0, 0,
     4, 6, 0xFF, 0, 0, 1]

def exampleEntries : List MadtEntry :=
  [.lapic 0 5 1, .lapic 1 6 0, .ioapic ⟨2, 0xFEC00000, 0⟩ 0, .iso ⟨0, 0, 2, 0⟩,
   .other 4 [0xFF, 0, 0, 1] (by decide) (by decide)]

theorem parseMadt_exampleMadt :
    ∃ g, (parseMadt 89 {}).value (ofList exampleMadt) = some g ∧
      g.cpuLapicId.toList = [5] ∧ g.ioapic.toList = [⟨2, 0xFEC00000, 0⟩] ∧
      g.iso.toList = [⟨0, 0, 2, 0⟩] ∧ g.lapicPhys.toNat = 0xFEE00000 ∧ g.has8259 := by
  obtain ⟨g, hvalue, hcpus, hioapics, hisos, hphys, hpic⟩ :=
    parseMadt_encoded (ofList exampleMadt) exampleEntries 89 (by decide +kernel)
      (by unfold ByteMem.Holds; decide +kernel) (by decide +kernel)
  exact ⟨g, hvalue, hcpus, hioapics, hisos, hphys.trans (by decide +kernel),
    hpic.mpr (by decide +kernel)⟩

end DevOs
