import DevOs.Lib.Capped
import DevOs.Lib.Probe
import DevOs.Mm.Vmm.Init

/-!
The ACPI tables, after `acpi/acpi.c`: `acpi_find_table` walks the root table for
a signature and a valid checksum, and `parse_madt` collects processors and
interrupt controllers from the MADT.
-/

namespace DevOs

open ByteMem Buffer Probe

/-- `sizeof(acpi_header_t)`. -/
def acpiHeaderSize : Nat := 36

/-- `phys_to_virt`: the sum of 64 bits wraps around. -/
def physToVirt (phys : Nat) : Nat :=
  if phys < 0x100000000 then (phys + kernelVirtBase.toNat) % 2 ^ 64 else phys

/-- `checksum_valid`: the sum of the bytes, as a `uint8_t`, is zero. -/
def checksumValid (m : Mem) (p len : Nat) : Bool := (slice len m p).foldl (· + ·) 0 == 0

/-- `g_root_table` (0 for `NULL`), `g_root_entry_size` and `g_root_entry_count`. -/
structure AcpiRoot where
  table : Nat
  entrySize : Nat
  entryCount : Nat
  deriving DecidableEq, Repr

/-- The physical address in entry `i`; the product `i * 4` or `i * 8` is a `uint32_t`. -/
def AcpiRoot.entry (r : AcpiRoot) (m : Mem) (i : Nat) : Nat :=
  let entries := r.table + acpiHeaderSize
  if r.entrySize = 4 then load 4 m (entries + i * 4 % 2 ^ 32)
  else load 8 m (entries + i * 8 % 2 ^ 32)

/-- The table at `t` has the signature and a valid checksum over its length. -/
def tableMatches (m : Mem) (sig : List UInt8) (t : Nat) : Bool :=
  slice 4 m t == sig && checksumValid m t (load 4 m (t + 4))

/-- `acpi_find_table`: the address of the first table that matches, 0 for `NULL`. -/
def acpiFindTable (r : AcpiRoot) (m : Mem) (sig : List UInt8) : Nat :=
  if r.table = 0 then 0
  else
    (((List.range r.entryCount).map fun i => physToVirt (r.entry m i)).find?
      (tableMatches m sig)).getD 0

def tableAt (m : Mem) (t : Nat) : Mem := fun i => m (t + i)

/-- `"APIC"`, the signature of the MADT. -/
def madtSignature : List UInt8 := [0x41, 0x50, 0x49, 0x43]

structure IoApic where
  id : UInt8
  phys : UInt32
  gsiBase : UInt32
  deriving DecidableEq, Repr

/-- An element of `g_acpi.iso`, an interrupt source override. -/
structure Iso where
  bus : UInt8
  irq : UInt8
  gsi : UInt32
  flags : UInt16
  deriving DecidableEq, Repr

/-- `acpi_info_t`: each array with its counter is a list with a capacity. -/
structure AcpiInfo where
  lapicPhys : UInt32 := 0
  has8259 : Bool := false
  ioapic : Capped 16 IoApic := .empty
  iso : Capped 32 Iso := .empty
  cpuLapicId : Capped 64 UInt8 := .empty
  deriving DecidableEq, Repr

/-- `sizeof(madt_t)`. -/
def madtHeaderSize : Nat := 44

def madtLapic : UInt8 := 0

def madtIoapic : UInt8 := 1

def madtIso : UInt8 := 2

def u32 (a : Nat) : Probe UInt32 := do
  let w ← word 4 a
  pure (.ofNat w)

def u16 (a : Nat) : Probe UInt16 := do
  let w ← word 2 a
  pure (.ofNat w)

def madtEntry (g : AcpiInfo) (p : Nat) : Probe AcpiInfo := do
  let type ← byte p
  if type = madtLapic then do
    let flags ← u32 (p + 4)
    if flags &&& 1 ≠ 0 ∧ g.cpuLapicId.count < 64 then do
      let apicId ← byte (p + 3)
      pure { g with cpuLapicId := g.cpuLapicId.push apicId }
    else pure g
  else if type = madtIoapic then
    if g.ioapic.count < 16 then do
      let id ← byte (p + 2)
      let phys ← u32 (p + 4)
      let gsiBase ← u32 (p + 8)
      pure { g with ioapic := g.ioapic.push ⟨id, phys, gsiBase⟩ }
    else pure g
  else if type = madtIso then
    if g.iso.count < 32 then do
      let bus ← byte (p + 2)
      let irq ← byte (p + 3)
      let gsi ← u32 (p + 4)
      let flags ← u16 (p + 8)
      pure { g with iso := g.iso.push ⟨bus, irq, gsi, flags⟩ }
    else pure g
  else pure g

/-- The loop of `parse_madt` from the entry at `p` on; `none` if it has not ended
after the given number of passes. -/
def parseMadtLoop (limit : Nat) : Nat → Nat → AcpiInfo → Probe (Option AcpiInfo)
  | 0, _, _ => pure none
  | fuel + 1, p, g =>
    if p < limit then do
      let length ← byte (p + 1)
      if length = 0 then pure (some g)
      else do
        let g' ← madtEntry g p
        parseMadtLoop limit fuel (p + length.toNat) g'
    else pure (some g)

/-- `parse_madt` on the table that the memory starts with. -/
def parseMadt (fuel : Nat) (g : AcpiInfo) : Probe (Option AcpiInfo) := do
  let lapicAddr ← u32 acpiHeaderSize
  let flags ← u32 (acpiHeaderSize + 4)
  let length ← word 4 4
  parseMadtLoop length fuel madtHeaderSize
    { g with lapicPhys := lapicAddr, has8259 := flags &&& 1 ≠ 0 }

variable {m : Mem} {n p limit fuel : Nat} {g : AcpiInfo}

@[simp] theorem value_u32 (a : Nat) : (u32 a).value m = .ofNat (load 4 m a) := by simp [u32]

@[simp] theorem value_u16 (a : Nat) : (u16 a).value m = .ofNat (load 2 m a) := by simp [u16]

@[simp] theorem safe_u32 (a : Nat) : (u32 a).Safe n m ↔ a + 3 < n := by simp [u32]

@[simp] theorem safe_u16 (a : Nat) : (u16 a).Safe n m ↔ a + 1 < n := by simp [u16]

theorem value_parseMadtLoop_end (h : limit ≤ p) :
    (parseMadtLoop limit (fuel + 1) p g).value m = some g := by
  rw [parseMadtLoop, if_neg (Nat.not_lt.mpr h), value_pure]

theorem value_parseMadtLoop_step (h : p < limit) (hlen : m (p + 1) ≠ 0) :
    (parseMadtLoop limit (fuel + 1) p g).value m =
      (parseMadtLoop limit fuel (p + (m (p + 1)).toNat) ((madtEntry g p).value m)).value m := by
  rw [parseMadtLoop, if_pos h, value_bind, value_byte, if_neg hlen, value_bind]

theorem toNat_pos_of_ne_zero {b : UInt8} (h : b ≠ 0) : 0 < b.toNat :=
  Nat.pos_of_ne_zero fun h0 => h (UInt8.toNat_inj.mp h0)

theorem parseMadtLoop_isSome (h : limit - p < fuel) :
    ((parseMadtLoop limit fuel p g).value m).isSome := by
  induction fuel generalizing p g with
  | zero => omega
  | succ fuel ih =>
    by_cases hp : p < limit
    · by_cases hlen : m (p + 1) = 0
      · simp [parseMadtLoop, hp, hlen]
      · have hpos := toNat_pos_of_ne_zero hlen
        rw [value_parseMadtLoop_step hp hlen]
        exact ih (by omega)
    · rw [value_parseMadtLoop_end (Nat.le_of_not_lt hp)]
      rfl

theorem parseMadt_terminates (h : load 4 m 4 < fuel) : ((parseMadt fuel g).value m).isSome := by
  simp only [parseMadt, value_bind, value_word]
  exact parseMadtLoop_isSome (by omega)

end DevOs
