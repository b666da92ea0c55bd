import DevOs.Acpi

/-!
Which bytes of a MADT `parse_madt` reads.
-/

namespace DevOs

open ByteMem Buffer Probe

/-- The offsets of the entries, from the one at `p` on: each length byte leads to
the next entry, up to the end of the table or to a length of 0. -/
def entryOffsets (m : Mem) (limit : Nat) : Nat → Nat → List Nat
  | 0, _ => []
  | fuel + 1, p =>
    if p < limit then
      p :: if m (p + 1) = 0 then [] else entryOffsets m limit fuel (p + (m (p + 1)).toNat)
    else []

def entriesOf (m : Mem) (type : UInt8) (ps : List Nat) : Nat :=
  ps.countP fun p => m p = type

/-- The entry at `p` ends in time: its two first bytes, and the structure that
is read for its type. An I/O APIC or an override is not read when the list for
it is full, after `ioapics` or `isos` others. -/
structure EntryFits (m : Mem) (limit ioapics isos p : Nat) : Prop where
  header : p + 2 ≤ limit
  lapic : m (p + 1) ≠ 0 → m p = madtLapic → p + 8 ≤ limit
  ioapic : m (p + 1) ≠ 0 → m p = madtIoapic → ioapics < 16 → p + 12 ≤ limit
  iso : m (p + 1) ≠ 0 → m p = madtIso → isos < 32 → p + 10 ≤ limit

def EntriesFit (m : Mem) (limit ioapics isos : Nat) (ps : List Nat) : Prop :=
  ∀ before p after, ps = before ++ p :: after →
    EntryFits m limit (ioapics + entriesOf m madtIoapic before)
      (isos + entriesOf m madtIso before) p

variable {m : Mem} {limit fuel ioapics isos p : Nat} {g : AcpiInfo} {ps : List Nat}

theorem entriesFit_nil : EntriesFit m limit ioapics isos [] := by
  intro before p after h
  simp at h

theorem entriesFit_cons : EntriesFit m limit ioapics isos (p :: ps) ↔
      EntryFits m limit ioapics isos p ∧ EntriesFit m limit (ioapics + entriesOf m madtIoapic [p])
        (isos + entriesOf m madtIso [p]) ps := by
  constructor
  · intro h
    refine ⟨by simpa [entriesOf] using h [] p ps rfl, fun before q after hps => ?_⟩
    have hq := h (p :: before) q after (by rw [hps, List.cons_append])
    rwa [entriesOf, entriesOf, ← List.singleton_append, List.countP_append, List.countP_append,
      ← Nat.add_assoc, ← Nat.add_assoc] at hq
  · intro h before q after hps
    cases before with
    | nil =>
      obtain ⟨rfl, rfl⟩ := List.cons.inj hps
      simpa [entriesOf] using h.1
    | cons p' before =>
      obtain ⟨rfl, rfl⟩ := List.cons.inj hps
      have hq := h.2 before q after rfl
      rw [entriesOf, entriesOf, ← List.singleton_append, List.countP_append, List.countP_append,
        ← Nat.add_assoc, ← Nat.add_assoc]
      exact hq

theorem safe_madtEntry_iff :
    (madtEntry g p).Safe limit m ↔ p < limit ∧ (m p = madtLapic → p + 8 ≤ limit) ∧
      (m p = madtIoapic → g.ioapic.count < 16 → p + 12 ≤ limit) ∧
      (m p = madtIso → g.iso.count < 32 → p + 10 ≤ limit) := by
  have hne : madtIoapic ≠ madtLapic ∧ madtIso ≠ madtLapic ∧ madtIso ≠ madtIoapic := by decide
  simp only [madtEntry, safe_bind, safe_byte, value_byte, safe_ite,
    safe_u32, safe_u16, safe_pure, and_true, implies_true]
  by_cases h0 : m p = madtLapic
  · grind
  by_cases h1 : m p = madtIoapic
  · grind
  by_cases h2 : m p = madtIso
  · grind
  · simp [h0, h1, h2]

theorem count_madtEntry (hioapics : g.ioapic.count = min ioapics 16)
    (hisos : g.iso.count = min isos 32) :
    ((madtEntry g p).value m).ioapic.count = min (ioapics + entriesOf m madtIoapic [p]) 16 ∧
      ((madtEntry g p).value m).iso.count = min (isos + entriesOf m madtIso [p]) 32 := by
  have hne : madtIoapic ≠ madtLapic ∧ madtIso ≠ madtLapic ∧ madtIso ≠ madtIoapic := by decide
  simp only [madtEntry, value_bind, value_byte, value_ite, value_pure,
    entriesOf, List.countP_singleton]
  by_cases h0 : m p = madtLapic
  · grind
  by_cases h1 : m p = madtIoapic
  · grind [Capped.count_push]
  by_cases h2 : m p = madtIso
  · grind [Capped.count_push]
  · simp [h0, h1, h2, hioapics, hisos]

theorem safe_parseMadtLoop_iff (hioapics : g.ioapic.count = min ioapics 16)
    (hisos : g.iso.count = min isos 32) : (parseMadtLoop limit fuel p g).Safe limit m ↔
      EntriesFit m limit ioapics isos (entryOffsets m limit fuel p) := by
  induction fuel generalizing p g ioapics isos with
  | zero => simp [parseMadtLoop, entryOffsets, entriesFit_nil]
  | succ fuel ih =>
    by_cases hp : p < limit
    · rw [parseMadtLoop, entryOffsets, if_pos hp, if_pos hp, entriesFit_cons, safe_bind,
        safe_byte, value_byte]
      by_cases hlen : m (p + 1) = 0
      · rw [if_pos hlen, if_pos hlen, safe_pure, and_true]
        refine ⟨fun h => ⟨⟨h, ?_, ?_, ?_⟩, entriesFit_nil⟩, fun h => h.1.header⟩ <;>
          exact fun hc => absurd hlen hc
      · obtain ⟨hioapics', hisos'⟩ := count_madtEntry (m := m) (p := p) hioapics hisos
        rw [if_neg hlen, if_neg hlen, safe_bind, safe_madtEntry_iff, ih hioapics' hisos',
          ← and_assoc]
        refine and_congr_left fun _ => ⟨fun h => ?_, fun h => ?_⟩
        · obtain ⟨hheader, -, hlapic, hioapic, hiso⟩ := h
          exact ⟨hheader, fun _ => hlapic, fun _ ht _ => hioapic ht (by omega),
            fun _ ht _ => hiso ht (by omega)⟩
        · exact ⟨h.header, hp, h.lapic hlen, fun ht _ => h.ioapic hlen ht (by omega),
            fun ht _ => h.iso hlen ht (by omega)⟩
    · simp [parseMadtLoop, entryOffsets, hp, entriesFit_nil]

theorem entryOffsets_enough {k : Nat} (h : limit - p < fuel) :
    entryOffsets m limit (fuel + k) p = entryOffsets m limit fuel p := by
  induction fuel generalizing p with
  | zero => omega
  | succ fuel ih =>
    rw [Nat.succ_add, entryOffsets, entryOffsets]
    by_cases hp : p < limit
    · rw [if_pos hp, if_pos hp]
      by_cases hlen : m (p + 1) = 0
      · rw [if_pos hlen, if_pos hlen]
      · have hpos := toNat_pos_of_ne_zero hlen
        rw [if_neg hlen, if_neg hlen, ih (by omega)]
    · rw [if_neg hp, if_neg hp]

/-- The header and every entry end before `hdr.length`. -/
structure MadtFits (m : Mem) (g : AcpiInfo) : Prop where
  header : madtHeaderSize ≤ load 4 m 4
  entries : EntriesFit m (load 4 m 4) g.ioapic.count g.iso.count
    (entryOffsets m (load 4 m 4) (load 4 m 4 + 1) madtHeaderSize)

/-- **`parse_madt` ends on every table, and reads only below `hdr.length` exactly
if all entries fit.** -/
theorem safe_parseMadt_iff (m : Mem) (t : Nat) (g : AcpiInfo) (fuel : Nat)
    (hfuel : load 4 (tableAt m t) 4 < fuel) :
    ((parseMadt fuel g).value (tableAt m t)).isSome ∧
      ((parseMadt fuel g).Safe (load 4 (tableAt m t) 4) (tableAt m t) ↔
        MadtFits (tableAt m t) g) := by
  generalize tableAt m t = m at hfuel ⊢
  refine ⟨parseMadt_terminates hfuel, ?_⟩
  obtain ⟨k, rfl⟩ := Nat.exists_eq_add_of_le hfuel
  simp only [parseMadt, safe_bind, safe_u32, safe_word, value_word,
    acpiHeaderSize]
  rw [safe_parseMadtLoop_iff (Capped.count_eq_min _) (Capped.count_eq_min _),
    entryOffsets_enough (by omega)]
  constructor
  · intro h
    exact ⟨by unfold madtHeaderSize; omega, h.2.2.2⟩
  · intro h
    have hheader := h.header
    unfold madtHeaderSize at hheader
    exact ⟨by omega, by omega, by omega, h.entries⟩

def exampleShortMadt : List UInt8 :=
  madtSignature ++ encode 4 46 ++ [1, 0xB2] ++ List.replicate 34 0 ++ [0, 2]

def exampleTables (madt : List UInt8) : Mem := fun a =>
  if a < 0x2000 then ofList (encode 4 0x2000) (a - (0x1000 + acpiHeaderSize))
  else ofList madt (a - physToVirt 0x2000)

/-- **A table that `acpi_find_table` accepts and `parse_madt` reads behind.** -/
theorem parseMadt_reads_behind_table :
    let m := exampleTables exampleShortMadt
    acpiFindTable ⟨0x1000, 4, 1⟩ m madtSignature = physToVirt 0x2000 ∧
      load 4 (tableAt m (physToVirt 0x2000)) 4 = 46 ∧
      .byte 48 ∈ (parseMadt 47 {}).trace (tableAt m (physToVirt 0x2000)) := by
  decide +kernel

theorem not_madtFits_exampleShortMadt :
    ¬ MadtFits (tableAt (exampleTables exampleShortMadt) (physToVirt 0x2000)) {} := by
  obtain ⟨-, hiff⟩ := safe_parseMadt_iff (exampleTables exampleShortMadt) (physToVirt 0x2000) {} 47
    (by decide +kernel)
  exact fun hfits => absurd (hiff.mpr hfits) (by decide +kernel)

end DevOs
