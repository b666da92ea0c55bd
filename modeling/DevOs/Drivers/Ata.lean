import DevOs.Drivers.Ident
import DevOs.Lib.ByteMem
import DevOs.Lib.Chunks

/-!
The ATA driver, `kernel/drivers/storage/ata.c`: `ata_identify` and `ata_init`, the
commands of `ata_do_read` and `ata_do_write`, and the block device on top of them.
-/

namespace DevOs

open ByteMem Device

inductive AtaWrite where
  | outb (port value : Nat)
  | outw (port value : Nat)
  deriving DecidableEq, Repr

abbrev AtaIo := Dialog Nat AtaWrite

def inb (port : Nat) : AtaIo Nat := .read 8 port

def inw (port : Nat) : AtaIo Nat := .read 16 port

def outb (port value : Nat) : AtaIo Unit := .write (.outb port (value % 2 ^ 8))

def outw (port value : Nat) : AtaIo Unit := .write (.outw port (value % 2 ^ 16))

/-- A channel: `ata_base[chan]` and `ata_ctrl[chan]`. -/
inductive AtaChan where
  | primary
  | secondary
  deriving DecidableEq, Repr

def AtaChan.base : AtaChan → Nat
  | primary => 0x1F0
  | secondary => 0x170

def AtaChan.ctrl : AtaChan → Nat
  | primary => 0x3F6
  | secondary => 0x376

-- register offsets and status bits

def ataSectCnt : Nat := 2

def ataLbaLo : Nat := 3

def ataLbaMid : Nat := 4

def ataLbaHi : Nat := 5

def ataDriveSel : Nat := 6

def ataStatus : Nat := 7

def ataSrBsy : Nat := 0x80

def ataSrDrq : Nat := 0x08

def ataSrErr : Nat := 0x01

def ataCmdIdentify : Nat := 0xEC

def ataCmdRead28 : Nat := 0x20

def ataCmdWrite28 : Nat := 0x30

def ataCmdCacheFlush : Nat := 0xE7

def ataDelay (ctrl : Nat) : AtaIo Unit := do
  let _ ← inb ctrl
  let _ ← inb ctrl
  let _ ← inb ctrl
  let _ ← inb ctrl

def ataWaitNotBusy (base timeoutMs : Nat) : AtaIo Int := do
  let r ← .poll 8 (base + ataStatus) (fun st => if st &&& ataSrBsy = 0 then some () else none)
    (timeoutMs * 10000 % 2 ^ 32)
  pure (if r.isSome then 1 else 0)

/-- `ata_wait_drq`: -1 for an error, 0 on timeout. -/
def ataWaitDrq (base timeoutMs : Nat) : AtaIo Int := do
  let r ← .poll 8 (base + ataStatus) (fun st =>
      if st &&& ataSrErr ≠ 0 then some (-1) else if st &&& ataSrDrq ≠ 0 then some 1 else none)
    (timeoutMs * 10000 % 2 ^ 32)
  pure (r.getD 0)

structure AtaDrive where
  present : Bool := false
  isAtapi : Bool := false
  lba48 : Bool := false
  model : List Nat := []
  lba28Sectors : Nat := 0
  lba48Sectors : Nat := 0
  deriving DecidableEq, Repr

def readWords (base : Nat) : Nat → AtaIo (List Nat)
  | 0 => pure []
  | n + 1 => do
    let w ← inw base
    let ws ← readWords base n
    pure (w :: ws)

def AtaDrive.ofIdent (d : AtaDrive) (ident : List Nat) : AtaDrive :=
  let word := fun i => ident.getD i 0
  { d with
    model := modelOf word
    lba28Sectors := lba28Of word
    lba48 := hasLba48 word
    lba48Sectors := if hasLba48 word then lba48Of word else d.lba48Sectors
    present := true }

/-- `"ATAPI device"`. -/
def atapiModel : List Nat :=
  [0x41, 0x54, 0x41, 0x50, 0x49, 0x20, 0x64, 0x65, 0x76, 0x69, 0x63, 0x65]

/-- What `ata_identify` does once the drive is not busy: it looks for an error, and
reads the identify data. -/
def ataIdentifyData (d : AtaDrive) (base : Nat) : AtaIo AtaDrive := do
  let st ← inb (base + ataStatus)
  if st &&& ataSrErr ≠ 0 then do
    let mid ← inb (base + ataLbaMid)
    let hi ← inb (base + ataLbaHi)
    if mid = 0x14 ∧ hi = 0xEB then
      pure { d with present := true, isAtapi := true, model := atapiModel }
    else pure d
  else do
    let drq ← ataWaitDrq base 5000
    -- the result is -1 for an error, which is not zero either
    if drq = 0 then pure d
    else do
      let ident ← readWords base 256
      pure (d.ofIdent ident)

def ataIdentify (d : AtaDrive) (chan : AtaChan) (sel : Bool) : AtaIo AtaDrive := do
  let d := { d with present := false }
  outb (chan.base + ataDriveSel) (if sel then 0xB0 else 0xA0)
  ataDelay chan.ctrl
  outb (chan.base + ataStatus) ataCmdIdentify
  ataDelay chan.ctrl
  let st ← inb (chan.base + ataStatus)
  if st = 0 then pure d
  else do
    let r ← ataWaitNotBusy chan.base 5000
    if r = 0 then pure d
    else ataIdentifyData d chan.base

structure AtaBlk where
  chan : AtaChan
  sel : Bool
  sectorCount : Nat
  deriving DecidableEq, Repr

/-- The pass of `ata_init` for one drive: the device that it registers. -/
def ataProbe (chan : AtaChan) (sel : Bool) : AtaIo (Option AtaBlk) := do
  let d ← ataIdentify {} chan sel
  pure (if d.present ∧ ¬ d.isAtapi then
    some ⟨chan, sel, if d.lba48 then d.lba48Sectors else d.lba28Sectors⟩ else none)

def ataInit : AtaIo (List AtaBlk) := do
  let b0 ← ataProbe .primary false
  let b1 ← ataProbe .primary true
  let b2 ← ataProbe .secondary false
  let b3 ← ataProbe .secondary true
  pure ([b0, b1, b2, b3].filterMap id)

def ataCommand (chan : AtaChan) (sel : Bool) (lba count cmd : Nat) : AtaIo Unit := do
  outb (chan.base + ataDriveSel) (0xE0 ||| sel.toNat <<< 4 ||| (lba >>> 24 &&& 0x0F))
  outb (chan.base + ataSectCnt) count
  outb (chan.base + ataLbaLo) (lba &&& 0xFF)
  outb (chan.base + ataLbaMid) (lba >>> 8 &&& 0xFF)
  outb (chan.base + ataLbaHi) (lba >>> 16 &&& 0xFF)
  outb (chan.base + ataStatus) cmd
  ataDelay chan.ctrl

def ataSectorReady (base : Nat) : AtaIo Bool := do
  let r ← ataWaitNotBusy base 5000
  if r = 0 then pure false
  else do
    let r ← ataWaitDrq base 5000
    pure (0 < r)

def inWords (base : Nat) : Nat → Nat → Mem → AtaIo Mem
  | 0, _, m => pure m
  | n + 1, p, m => do
    let w ← inw base
    inWords base n (p + 2) (store 2 m p w)

def outWords (base : Nat) (m : Mem) : Nat → Nat → AtaIo Unit
  | 0, _ => pure ()
  | n + 1, p => do
    outw base (load 2 m p)
    outWords base m n (p + 2)

def ataReadSectors (base : Nat) : Nat → Nat → Mem → AtaIo (Option Mem)
  | 0, _, m => pure (some m)
  | n + 1, p, m => do
    let ready ← ataSectorReady base
    if ready then do
      let m ← inWords base 256 p m
      ataReadSectors base n (p + 512) m
    else pure none

def ataWriteSectors (base : Nat) (m : Mem) : Nat → Nat → AtaIo Bool
  | 0, _ => pure true
  | n + 1, p => do
    let ready ← ataSectorReady base
    if ready then do
      outWords base m 256 p
      ataWriteSectors base m n (p + 512)
    else pure false

/-- `ata_do_read`: the memory afterwards, or `none` for -1. -/
def ataDoRead (chan : AtaChan) (sel : Bool) (lba count buf : Nat) (m : Mem) :
    AtaIo (Option Mem) := do
  let r ← ataWaitNotBusy chan.base 5000
  if r = 0 then pure none
  else do
    ataCommand chan sel lba count ataCmdRead28
    ataReadSectors chan.base count buf m

/-- `ata_do_write`; the memory is not changed. -/
def ataDoWrite (chan : AtaChan) (sel : Bool) (lba count buf : Nat) (m : Mem) :
    AtaIo (Option Mem) := do
  let r ← ataWaitNotBusy chan.base 5000
  if r = 0 then pure none
  else do
    ataCommand chan sel lba count ataCmdWrite28
    let ok ← ataWriteSectors chan.base m count buf
    if ok then do
      outb (chan.base + ataStatus) ataCmdCacheFlush
      let _ ← ataWaitNotBusy chan.base 5000
      pure (some m)
    else pure none

/-- The variables of the loop in `ata_blk_read` and `ata_blk_write`, apart from
`count`, and the memory. -/
structure AtaXfer where
  lba : Nat
  buf : Nat
  mem : Mem

def ataPass (io : AtaChan → Bool → Nat → Nat → Nat → Mem → AtaIo (Option Mem)) (bd : AtaBlk)
    (x : AtaXfer) (n : Nat) : AtaIo (Option AtaXfer) := do
  let r ← io bd.chan bd.sel (x.lba % 2 ^ 32) n x.buf x.mem
  pure (r.map fun m => ⟨(x.lba + n) % 2 ^ 64, (x.buf + n * 512) % 2 ^ 64, m⟩)

/-- `ata_blk_read`; `none` for -1. -/
def ataBlkRead (bd : AtaBlk) (lba count buf : Nat) (m : Mem) : AtaIo (Option AtaXfer) :=
  inChunks 255 (ataPass ataDoRead bd) count ⟨lba, buf, m⟩ count

/-- `ata_blk_write`; `none` for -1. -/
def ataBlkWrite (bd : AtaBlk) (lba count buf : Nat) (m : Mem) : AtaIo (Option AtaXfer) :=
  inChunks 255 (ataPass ataDoWrite bd) count ⟨lba, buf, m⟩ count

structure AtaRegs where
  sectCnt : Nat
  lbaLo : Nat
  lbaMid : Nat
  lbaHi : Nat
  driveSel : Nat
  deriving DecidableEq, Repr

def AtaRegs.lba (r : AtaRegs) : Nat :=
  r.lbaLo + 2 ^ 8 * r.lbaMid + 2 ^ 16 * r.lbaHi + 2 ^ 24 * (r.driveSel % 2 ^ 4)

def AtaRegs.sectors (r : AtaRegs) : List Nat :=
  List.range' r.lba (if r.sectCnt = 0 then 256 else r.sectCnt)

/-- What the drive `sel` at `base` makes of a write: the sectors that it addresses,
if it is a read or write command for this drive. -/
def ataStep (base : Nat) (sel : Bool) (r : AtaRegs) : AtaWrite → AtaRegs × List Nat
  | .outw _ _ => (r, [])
  | .outb port v =>
    if port = base + ataSectCnt then ({ r with sectCnt := v }, [])
    else if port = base + ataLbaLo then ({ r with lbaLo := v }, [])
    else if port = base + ataLbaMid then ({ r with lbaMid := v }, [])
    else if port = base + ataLbaHi then ({ r with lbaHi := v }, [])
    else if port = base + ataDriveSel then ({ r with driveSel := v }, [])
    else if port = base + ataStatus ∧ (v = ataCmdRead28 ∨ v = ataCmdWrite28) ∧
        r.driveSel.testBit 4 = sel then (r, r.sectors)
    else (r, [])

/-- The commands of a request address its sectors, each once and in order: all of
them if the request succeeds, and the first ones in any case. -/
def AtaExact (blk : AtaBlk → Nat → Nat → Nat → Mem → AtaIo (Option AtaXfer)) (bd : AtaBlk)
    (lba count : Nat) : Prop :=
  ∀ buf m s t,
    heard (ataStep bd.chan.base bd.sel) t ((blk bd lba count buf m).writes s) <+:
        List.range' lba count ∧
      (((blk bd lba count buf m).value s).isSome →
        heard (ataStep bd.chan.base bd.sel) t ((blk bd lba count buf m).writes s) =
          List.range' lba count)

end DevOs
