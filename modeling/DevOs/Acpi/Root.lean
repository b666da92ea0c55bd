import DevOs.Acpi

/-!
The root table, after `find_rsdp` and `acpi_init` of `acpi/acpi.c`.
-/

namespace DevOs

open ByteMem Buffer Probe

/-- `"RSD PTR "`. -/
def rsdpSignature : List UInt8 := [0x52, 0x53, 0x44, 0x20, 0x50, 0x54, 0x52, 0x20]

/-- The addresses from `first` on in steps of 16, that many of them. -/
def paragraphs (first count : Nat) : List Nat := (List.range count).map fun i => first + 16 * i

def rsdpMatches (m : Mem) (r : Nat) : Bool := slice 8 m r == rsdpSignature && checksumValid m r 20

/-- `find_rsdp`: 1 KB from the EBDA on, then the BIOS ROM area. -/
def findRsdp (m : Mem) : Option Nat :=
  let ebdaPhys := load 2 m (physToVirt 0x40E) <<< 4
  ((paragraphs ebdaPhys 64 ++ paragraphs 0xE0000 0x2000).map physToVirt).find? (rsdpMatches m)

/-- `g_root_table` and its companions before `acpi_init`. -/
def noRoot : AcpiRoot := ⟨0, 4, 0⟩

def tableLength (m : Mem) (t : Nat) : Nat := load 4 m (t + 4)

/-- The table at `t` as root table. The difference is a `size_t`, the quotient is kept
in a `uint32_t`. -/
def rootAt (m : Mem) (t entrySize : Nat) : AcpiRoot where
  table := t
  entrySize := entrySize
  entryCount := (tableLength m t + (2 ^ 64 - acpiHeaderSize)) % 2 ^ 64 / entrySize % 2 ^ 32

/-- `if (rsdp->revision >= 2 && rsdp->xsdt_address)`: the XSDT, with 64-bit pointers. -/
def tryXsdt (m : Mem) (rsdp : Nat) (root : AcpiRoot) : AcpiRoot :=
  if 2 ≤ (m (rsdp + 15)).toNat ∧ load 8 m (rsdp + 24) ≠ 0 then
    let xsdt := physToVirt (load 8 m (rsdp + 24))
    if checksumValid m xsdt (tableLength m xsdt) then rootAt m xsdt 8 else root
  else root

/-- `if (!g_root_table)`: the RSDT, with 32-bit pointers; `none` if its checksum is wrong. -/
def tryRsdt (m : Mem) (rsdp : Nat) (root : AcpiRoot) : Option AcpiRoot :=
  if root.table = 0 then
    let rsdt := physToVirt (load 4 m (rsdp + 16))
    if checksumValid m rsdt (tableLength m rsdt) then some (rootAt m rsdt 4) else none
  else some root

/-- `acpi_init` up to the root table; `none` where it returns `false`. -/
def acpiInitRoot (m : Mem) : Option AcpiRoot := do
  let rsdp ← findRsdp m
  tryRsdt m rsdp (tryXsdt m rsdp noRoot)

/-- `acpi_init`: the root table and `g_acpi`. The MADT is parsed with as many passes as it
has bytes and one. -/
def acpiInit (m : Mem) : Option (AcpiRoot × AcpiInfo) := do
  let root ← acpiInitRoot m
  let madt := acpiFindTable root m madtSignature
  if madt = 0 then pure (root, { lapicPhys := 0xFEE00000, has8259 := true })
  else do
    let g ← (parseMadt (tableLength m madt + 1) {}).value (tableAt m madt)
    pure (root, g)

/-- The read of entry `i`, at its offset in the root table. -/
def readEntry (r : AcpiRoot) (i : Nat) : Probe Nat :=
  if r.entrySize = 4 then word 4 (acpiHeaderSize + i * 4 % 2 ^ 32)
  else word 8 (acpiHeaderSize + i * 8 % 2 ^ 32)

/-- The loop of `acpi_find_table` from entry `i` on, as a `Probe` on the root table: the
entries are read from it, the tables that they lead to are not recorded. -/
def scanRoot (m : Mem) (r : AcpiRoot) (sig : List UInt8) : Nat → Nat → Probe Nat
  | 0, _ => pure 0
  | n + 1, i => do
    let phys ← readEntry r i
    if tableMatches m sig (physToVirt phys) then pure (physToVirt phys)
    else scanRoot m r sig n (i + 1)

variable {m : Mem} {r : AcpiRoot} {sig : List UInt8} {t size n i : Nat} {limit : Nat}

theorem load_tableAt (k t a : Nat) : load k (tableAt m t) a = load k m (t + a) := by
  induction k generalizing a with
  | zero => rfl
  | succ k ih => rw [load, load, ih, tableAt, Nat.add_assoc]

theorem value_readEntry (i : Nat) : (readEntry r i).value (tableAt m r.table) = r.entry m i := by
  simp only [readEntry, value_ite, value_word, load_tableAt, AcpiRoot.entry, Nat.add_assoc]

theorem value_scanRoot (n i : Nat) : (scanRoot m r sig n i).value (tableAt m r.table) =
      (((List.range' i n).map fun j => physToVirt (r.entry m j)).find? (tableMatches m sig)).getD
        0 := by
  induction n generalizing i with
  | zero => rfl
  | succ n ih =>
    rw [scanRoot, value_bind, value_readEntry, value_ite, value_pure, ih,
      List.range'_succ, List.map_cons, List.find?_cons]
    cases tableMatches m sig (physToVirt (r.entry m i)) with
    | false => rfl
    | true => rfl

theorem acpiFindTable_eq_scanRoot (h : r.table ≠ 0) :
    acpiFindTable r m sig = (scanRoot m r sig r.entryCount 0).value (tableAt m r.table) := by
  rw [value_scanRoot, acpiFindTable, if_neg h, List.range_eq_range']

theorem safe_readEntry (hsize : r.entrySize = 4 ∨ r.entrySize = 8)
    (hlimit : limit ≤ 2 ^ 32) (h : acpiHeaderSize + (i + 1) * r.entrySize ≤ limit) (mt : Mem) :
    (readEntry r i).Safe limit mt := by
  unfold readEntry
  obtain h4 | h8 := hsize
  · rw [h4] at h
    have hmod : i * 4 % 2 ^ 32 = i * 4 := Nat.mod_eq_of_lt (by omega)
    rw [if_pos h4, safe_word, hmod]
    omega
  · rw [h8] at h
    have hmod : i * 8 % 2 ^ 32 = i * 8 := Nat.mod_eq_of_lt (by omega)
    rw [if_neg (by rw [h8]; decide), safe_word, hmod]
    omega

theorem safe_scanRoot (hsize : r.entrySize = 4 ∨ r.entrySize = 8)
    (hlimit : limit ≤ 2 ^ 32) (h : acpiHeaderSize + (i + n) * r.entrySize ≤ limit) (mt : Mem) :
    (scanRoot m r sig n i).Safe limit mt := by
  induction n generalizing i with
  | zero => exact (safe_pure 0).mpr trivial
  | succ n ih =>
    have hfirst : acpiHeaderSize + (i + 1) * r.entrySize ≤ limit :=
      (Nat.add_le_add_left (Nat.mul_le_mul_right _ (by omega)) _).trans h
    have hrest : acpiHeaderSize + (i + 1 + n) * r.entrySize ≤ limit := by
      rw [Nat.add_right_comm]
      exact h
    rw [scanRoot, safe_bind, safe_ite]
    exact ⟨safe_readEntry hsize hlimit hfirst mt, fun _ => (safe_pure _).mpr trivial,
      fun _ => ih hrest⟩

theorem tableLength_lt (m : Mem) (t : Nat) : tableLength m t < 2 ^ 32 := load_lt 4 m _

theorem rootAt_inside_iff (hsize : size = 4 ∨ size = 8) :
    acpiHeaderSize + (rootAt m t size).entryCount * size ≤ tableLength m t ↔
      acpiHeaderSize ≤ tableLength m t := by
  have hlt := tableLength_lt m t
  simp only [rootAt, acpiHeaderSize]
  obtain rfl | rfl := hsize <;> omega

theorem acpiInitRoot_eq_some (h : acpiInitRoot m = some r) :
    ∃ t size, (size = 4 ∨ size = 8) ∧ checksumValid m t (tableLength m t) ∧
      r = rootAt m t size := by
  simp only [acpiInitRoot, Option.bind_eq_bind, Option.bind_eq_some_iff] at h
  obtain ⟨rsdp, -, h⟩ := h
  unfold tryRsdt at h
  split at h
  · rename_i hnull
    dsimp only at h
    split at h
    · rename_i hsum
      exact ⟨_, 4, .inl rfl, hsum, (Option.some.inj h).symm⟩
    · cases h
  · -- the XSDT was taken, for without it there is no root table yet
    rename_i hroot
    cases h
    unfold tryXsdt at hroot ⊢
    dsimp only at hroot ⊢
    split at hroot <;> rename_i hxsdt
    · rw [if_pos hxsdt] at ⊢
      split at hroot <;> rename_i hsum
      · rw [if_pos hsum]
        exact ⟨_, 8, .inr rfl, hsum, rfl⟩
      · exact absurd rfl hroot
    · exact absurd rfl hroot

/-- **The entries of the root table lie in it** exactly if its length covers the header;
then `acpi_find_table` reads no pointer from behind it. -/
theorem rootInside_iff (m : Mem) (r : AcpiRoot) (h : acpiInitRoot m = some r) :
    (acpiHeaderSize + r.entryCount * r.entrySize ≤ tableLength m r.table ∧
      ∀ sig, (scanRoot m r sig r.entryCount 0).Safe (tableLength m r.table)
        (tableAt m r.table)) ↔
      acpiHeaderSize ≤ tableLength m r.table := by
  obtain ⟨t, size, hsize, -, rfl⟩ := acpiInitRoot_eq_some h
  have hinside : _ ↔ acpiHeaderSize ≤ tableLength m t := rootAt_inside_iff hsize
  refine ⟨fun h => hinside.mp h.1, fun h => ⟨hinside.mpr h, fun sig => ?_⟩⟩
  refine safe_scanRoot hsize (Nat.le_of_lt (tableLength_lt m t)) ?_ _
  rw [Nat.zero_add]
  exact hinside.mpr h

def exampleRsdp (xsdt : List UInt8) : Mem := fun a =>
  if a < physToVirt 0x1000 then 0
  else if a < physToVirt 0xE0000 then ofList xsdt (a - physToVirt 0x1000)
  else ofList (rsdpSignature ++ [0xDF] ++ List.replicate 6 0 ++ [2] ++ encode 4 0 ++ encode 4 36 ++
    encode 8 0x1000) (a - physToVirt 0xE0000)

def exampleXsdt : List UInt8 :=
  [0x58, 0x53, 0x44, 0x54] ++ encode 4 44 ++ [1, 0x70] ++ List.replicate 26 0 ++ encode 8 0x2000

theorem rootInside_exampleXsdt :
    acpiInitRoot (exampleRsdp exampleXsdt) = some ⟨physToVirt 0x1000, 8, 1⟩ ∧
      acpiHeaderSize + 1 * 8 ≤ tableLength (exampleRsdp exampleXsdt) (physToVirt 0x1000) := by
  refine ⟨?root, ((rootInside_iff _ _ ?root).mpr (by decide +kernel)).1⟩
  decide +kernel

theorem acpiInitRoot_length_zero :
    let m := exampleRsdp []
    let r : AcpiRoot := ⟨physToVirt 0x1000, 8, 2 ^ 32 - 5⟩
    acpiInitRoot m = some r ∧ tableLength m r.table = 0 ∧
      ¬ acpiHeaderSize + r.entryCount * r.entrySize ≤ tableLength m r.table := by
  decide +kernel

end DevOs
