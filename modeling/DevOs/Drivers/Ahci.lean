import DevOs.Drivers.Dma
import DevOs.Drivers.Ident
import DevOs.Lib.Chunks

/-!
The AHCI driver, `kernel/drivers/storage/ahci.c`: a command and the wait for its end
in `ahci_issue`, the size of a disk in `ahci_identify_port`, and the block device.
-/

namespace DevOs

open ByteMem Device Dialog

/-- The fields of `ahci_fis_h2d_t` that are not zero. -/
structure AhciFis where
  fisType : Nat
  c : Bool
  command : Nat
  lba0 : Nat := 0
  lba1 : Nat := 0
  lba2 : Nat := 0
  device : Nat
  lba3 : Nat := 0
  lba4 : Nat := 0
  lba5 : Nat := 0
  count : Nat := 0
  deriving DecidableEq, Repr

/-- Slot 0 as the driver sets it up: the command FIS, the one PRD (its address, the
byte count less one, and the interrupt flag), and the flag `w` of the header. -/
structure AhciCommand where
  fis : AhciFis
  dba : AddrRegs
  dbc : Nat
  i : Bool
  w : Bool
  deriving DecidableEq, Repr

def fisTypeRegH2d : Nat := 0x27

def ataCmdDmaRead : Nat := 0xC8

def ataCmdDmaWrite : Nat := 0xCA

def ahciCommand (write : Bool) (lba sectors buf : Nat) : AhciCommand where
  fis :=
    { fisType := fisTypeRegH2d
      c := true
      command := if write then ataCmdDmaWrite else ataCmdDmaRead
      lba0 := lba &&& 0xFF
      lba1 := lba >>> 8 &&& 0xFF
      lba2 := lba >>> 16 &&& 0xFF
      device := 1 <<< 6
      lba3 := lba >>> 24 &&& 0xFF
      lba4 := lba >>> 32 &&& 0xFF
      lba5 := lba >>> 40 &&& 0xFF
      count := sectors % 2 ^ 16 }
  dba := .ofPhys (BitVec.ofNat 64 buf - kernelVirtBase)
  dbc := (sectors * 512 - 1) % 2 ^ 22
  i := true
  w := write

def ahciIdentifyCommand (satapi : Bool) (buf : Nat) : AhciCommand where
  fis :=
    { fisType := fisTypeRegH2d
      c := true
      command := if satapi then 0xA1 else 0xEC
      device := 0 }
  dba := .ofPhys (BitVec.ofNat 64 buf - kernelVirtBase)
  dbc := 511
  i := true
  w := false

inductive AhciReg where
  | is
  | tfd
  | sig
  | ci
  deriving DecidableEq, Repr

/-- What is written: the command in memory, and the registers `is` and `ci`. -/
inductive AhciWrite where
  | command (c : AhciCommand)
  | is (v : Nat)
  | ci (v : Nat)
  deriving DecidableEq, Repr

abbrev AhciIo := Dialog AhciReg AhciWrite

/-- `AHCI_TFD_ERR | AHCI_TFD_BSY`. -/
def ahciTfdErrBsy : Nat := 1 ||| 1 <<< 7

/-- The loop of `ahci_issue`: `none` for a task file error, else the value of
`timeout` after it. The counter wraps around when the condition fails. -/
def ahciPoll : Nat → AhciIo (Option Nat)
  | 0 => pure (some (2 ^ 32 - 1))
  | timeout + 1 => do
    let ci ← .read 32 .ci
    if ci &&& 1 = 0 then pure (some timeout)
    else do
      let is ← .read 32 .is
      if is &&& 1 <<< 30 ≠ 0 then pure none else ahciPoll timeout

/-- The wait of `ahci_issue` for the end of the command. -/
def ahciWait : AhciIo Int := do
  match ← ahciPoll 1000000 with
  | none => pure (-1)
  | some timeout =>
    if timeout = 0 then pure (-1)
    else do
      let tfd ← .read 32 .tfd
      pure (if tfd &&& ahciTfdErrBsy ≠ 0 then -1 else 0)

def ahciIssue (write : Bool) (lba sectors buf : Nat) : AhciIo Int := do
  .write (.command (ahciCommand write lba sectors buf))
  .write (.is 0xFFFFFFFF)
  .write (.ci 1)
  ahciWait

def ahciSectorCount (ident : Mem) : Nat :=
  let word := fun i => load 2 ident (2 * i)
  if hasLba48 word then lba48Of word else lba28Of word

/-- `ahci_identify_port` and the registration in `ahci_init`: the size of the disk,
if it is registered. `ident` is the buffer at `buf` after the wait; there is none
if the heap is full. -/
def ahciProbe (buf : Nat) (ident : Option Mem) : AhciIo (Option Nat) :=
  match ident with
  | none => pure none
  | some ident => do
    let sig ← .read 32 .sig
    let satapi := sig == 0xEB140101
    .write (.command (ahciIdentifyCommand satapi buf))
    .write (.is 0xFFFFFFFF)
    .write (.ci 1)
    let _ ← .spin 32 .ci (fun ci => ci &&& 1 == 0) 1000000
    let sectorCount := ahciSectorCount ident
    pure (if ¬ satapi ∧ 0 < sectorCount then some sectorCount else none)

/-- The variables of the loop in `ahci_blk_read` and `ahci_blk_write`, apart from
`count`. -/
structure AhciXfer where
  lba : Nat
  buf : Nat

def ahciPass (write : Bool) (x : AhciXfer) (n : Nat) : AhciIo (Option AhciXfer) := do
  let r ← ahciIssue write x.lba n x.buf
  pure (if r ≠ 0 then none
    else some ⟨(x.lba + n) % 2 ^ 64, (x.buf + n * 512) % 2 ^ 64⟩)

/-- `ahci_blk_read` or `ahci_blk_write`; `none` for -1. -/
def ahciBlk (write : Bool) (lba count buf : Nat) : AhciIo (Option AhciXfer) :=
  inChunks 127 (ahciPass write) count ⟨lba, buf⟩ count

def ahciBlkRead : Nat → Nat → Nat → AhciIo (Option AhciXfer) := ahciBlk false

def ahciBlkWrite : Nat → Nat → Nat → AhciIo (Option AhciXfer) := ahciBlk true

def AhciFis.lba (f : AhciFis) : Nat :=
  f.lba0 + 2 ^ 8 * f.lba1 + 2 ^ 16 * f.lba2 + 2 ^ 24 * (f.device % 2 ^ 4)

def AhciFis.sectorCount (f : AhciFis) : Nat :=
  if f.count % 2 ^ 8 = 0 then 256 else f.count % 2 ^ 8

def AhciCommand.sectors (c : AhciCommand) : List Nat :=
  if c.fis.command = ataCmdDmaRead ∨ c.fis.command = ataCmdDmaWrite then
    List.range' c.fis.lba c.fis.sectorCount
  else []

/-- What the controller makes of a write: the command in slot 0 is issued by a 1 in
`ci`. -/
def ahciStep (slot : AhciCommand) : AhciWrite → AhciCommand × List Nat
  | .command c => (c, [])
  | .is _ => (slot, [])
  | .ci v => (slot, if v % 2 = 1 then slot.sectors else [])

/-- The commands of a request address its sectors, each once and in order, all of
them if it succeeds and the first ones in any case; and the PRD of each is for
512 bytes a sector. -/
def AhciExact (blk : Nat → Nat → Nat → AhciIo (Option AhciXfer)) (lba count : Nat) : Prop :=
  ∀ buf,
    (∀ s slot, heard ahciStep slot ((blk lba count buf).writes s) <+: List.range' lba count ∧
      (((blk lba count buf).value s).isSome →
        heard ahciStep slot ((blk lba count buf).writes s) = List.range' lba count)) ∧
    ∀ s c, .command c ∈ (blk lba count buf).writes s → c.dbc + 1 = 512 * c.fis.sectorCount

variable {write : Bool} {lba count buf n : Nat} {s : Answers}

theorem writes_ahciPoll (timeout : Nat) : (ahciPoll timeout).writes s = [] := by
  induction timeout generalizing s with
  | zero => rfl
  | succ timeout ih =>
    simp only [ahciPoll, writes_bind, writes_read, writes_ite,
      writes_pure, ih, ite_self, List.append_nil]

theorem writes_ahciWait : ahciWait.writes s = [] := by
  rw [ahciWait, writes_bind, writes_ahciPoll, List.nil_append]
  cases (ahciPoll 1000000).value s with
  | none => rfl
  | some timeout => simp

theorem writes_ahciIssue : (ahciIssue write lba n buf).writes s =
      [.command (ahciCommand write lba n buf), .is 0xFFFFFFFF, .ci 1] := by
  simp only [ahciIssue, writes_bind, writes_write, writes_ahciWait,
    List.append_nil, List.cons_append, List.nil_append]

theorem sectorCount_ahciCommand (hpos : 0 < n) (hn : n < 256) :
    (ahciCommand write lba n buf).fis.sectorCount = n := by
  have hcount : n % 2 ^ 16 % 2 ^ 8 = n := by omega
  simp only [ahciCommand, AhciFis.sectorCount, hcount]
  exact if_neg (Nat.ne_of_gt hpos)

theorem sectors_ahciCommand (hpos : 0 < n) (hn : n < 256) :
    (ahciCommand write lba n buf).sectors = List.range' (lba % 2 ^ 24) n := by
  have hbyte : ∀ x, x &&& 0xFF = x % 2 ^ 8 := fun x => Nat.and_two_pow_sub_one_eq_mod x 8
  have hlba : (ahciCommand write lba n buf).fis.lba = lba % 2 ^ 24 := by
    simp only [ahciCommand, AhciFis.lba, hbyte, Nat.shiftRight_eq_div_pow]
    omega
  rw [AhciCommand.sectors, hlba, sectorCount_ahciCommand hpos hn]
  refine if_pos ?_
  cases write
  · exact .inl rfl
  · exact .inr rfl

theorem heard_ahciPass (x : AhciXfer) (hpos : 0 < n) (hn : n < 256) (slot : AhciCommand) :
    heard ahciStep slot ((ahciPass write x n).writes s) = List.range' (x.lba % 2 ^ 24) n := by
  rw [ahciPass, writes_bind, writes_ahciIssue]
  exact (List.append_nil _).trans (sectors_ahciCommand hpos hn)

theorem dbc_ahciPass (x : AhciXfer) (hpos : 0 < n) (hn : n ≤ 127) :
    ∀ w ∈ (ahciPass write x n).writes s, ∀ c, w = .command c →
      c.dbc + 1 = 512 * c.fis.sectorCount := by
  intro w hw c hc
  rw [ahciPass, writes_bind, writes_ahciIssue, writes_pure, List.append_nil] at hw
  subst hc
  obtain rfl : c = ahciCommand write x.lba n x.buf := by simpa using hw
  rw [sectorCount_ahciCommand hpos (by omega)]
  change (n * 512 - 1) % 2 ^ 22 + 1 = 512 * n
  omega

theorem passOk_ahciPass {stop : Nat} (hstop : stop < 2 ^ 64) :
    PassOk ahciStep (fun x p => x.lba = p) (fun p n => List.range' (p % 2 ^ 24) n) 127 stop
      (ahciPass write) where
  done x p n hx hpos hn hend s x' hvalue := by
    subst hx
    rw [ahciPass, value_bind, value_pure, Option.ite_none_left_eq_some] at hvalue
    rw [← Option.some.inj hvalue.2]
    exact ⟨Nat.mod_eq_of_lt (by omega), heard_ahciPass x hpos (by omega)⟩
  failed x p n hx hpos hn hend s _ slot := by
    subst hx
    rw [heard_ahciPass x hpos (by omega)]

theorem isSome_ahciPass (x : AhciXfer) (n : Nat) :
    ((ahciPass write x n).value fun _ => 0).isSome := rfl

theorem ahciExact_of_lt (hpos : 0 < count) (hend : lba + count < 2 ^ 64) :
    AhciExact (ahciBlk write) lba count ↔ lba + 127 * ((count - 1) / 127) < 2 ^ 24 := by
  have hiff : ∀ buf, _ := fun buf =>
    @exact_inChunks_iff _ _ _ _ 127 count lba count (lba + count) ⟨lba, buf⟩ (ahciPass write) _ _
      (2 ^ 24) 0 (by decide) (by decide) (passOk_ahciPass hend)
      (fun x n _ _ => isSome_ahciPass x n) rfl hpos (Nat.le_refl count) (Nat.le_refl _)
      (ahciIdentifyCommand false 0)
  have hprd : ∀ buf s c, .command c ∈ (ahciBlk write lba count buf).writes s →
      c.dbc + 1 = 512 * c.fis.sectorCount := fun buf s c hc =>
    mem_writes_inChunks (by decide) (fun x n hpos hn s => dbc_ahciPass x hpos hn) s _ hc c rfl
  exact ⟨fun h => (hiff 0).mp (h 0).1, fun h buf => ⟨(hiff buf).mpr h, hprd buf⟩⟩

theorem ahciSectorCount_lt (ident : Mem) : ahciSectorCount ident < 2 ^ 64 := by
  have hword : ∀ i, load 2 ident (2 * i) < 2 ^ 16 := fun i => load_lt 2 ident (2 * i)
  simp only [ahciSectorCount]
  split
  · exact lba48Of_lt hword
  · exact lba28Of_lt hword

theorem sectorCount_ahciProbe {buf sectorCount : Nat} {ident : Option Mem} {s : Answers}
    (h : (ahciProbe buf ident).value s = some sectorCount) : sectorCount < 2 ^ 64 := by
  cases ident with
  | none => cases h
  | some ident =>
    simp only [ahciProbe, value_bind, value_pure, Option.ite_none_right_eq_some] at h
    rw [← Option.some.inj h.2]
    exact ahciSectorCount_lt ident

/-- **The commands of a request address its sectors.** -/
theorem ahciExact_iff (identBuf : Nat) (ident : Option Mem) (s : Answers) (sectorCount : Nat)
    (hdisk : (ahciProbe identBuf ident).value s = some sectorCount) (lba count : Nat)
    (hpos : 1 ≤ count) (hfits : lba + count ≤ sectorCount) :
    (AhciExact ahciBlkRead lba count ↔ lba + 127 * ((count - 1) / 127) < 2 ^ 24) ∧
      (AhciExact ahciBlkWrite lba count ↔ lba + 127 * ((count - 1) / 127) < 2 ^ 24) := by
  have hend : lba + count < 2 ^ 64 := Nat.lt_of_le_of_lt hfits (sectorCount_ahciProbe hdisk)
  exact ⟨ahciExact_of_lt hpos hend, ahciExact_of_lt hpos hend⟩

/-- The identify data of a disk with `2 ^ 24 + 1` sectors. -/
def bigDisk : Mem := ofList (List.replicate 120 0 ++ encode 2 1 ++ encode 2 0x100)

theorem ahciExact_bigDisk : AhciExact ahciBlkRead (2 ^ 24 - 200) 200 :=
  (ahciExact_iff 0 (some bigDisk) (fun _ => 0) (2 ^ 24 + 1) (by decide +kernel) _ _ (by decide)
    (by decide)).1.mpr (by decide)

/-- **The last sector of such a disk** is not: the command for it addresses
sector 0. -/
theorem ahci_aliases :
    (ahciProbe 0 (some bigDisk)).value (fun _ => 0) = some (2 ^ 24 + 1) ∧
      heard ahciStep (ahciIdentifyCommand false 0)
        ((ahciBlkWrite (2 ^ 24) 1 0).writes fun _ => 0) = [0] := by
  decide +kernel

end DevOs
