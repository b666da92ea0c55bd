import DevOs.Drivers.Ata

/-!
Which sectors the commands of `ata_blk_read` and `ata_blk_write` address.
-/

namespace DevOs

open ByteMem Device Dialog

section

variable {chan : AtaChan} {sel : Bool} {base lba count buf cmd : Nat} {m : Mem} {s : Answers}
  {t : AtaRegs}

@[simp] theorem writes_ataDelay (ctrl : Nat) : (ataDelay ctrl).writes s = [] := rfl

@[simp] theorem writes_ataWaitNotBusy (base timeoutMs : Nat) :
    (ataWaitNotBusy base timeoutMs).writes s = [] := by
  simp [ataWaitNotBusy]

@[simp] theorem writes_ataWaitDrq (base timeoutMs : Nat) :
    (ataWaitDrq base timeoutMs).writes s = [] := by
  simp [ataWaitDrq]

@[simp] theorem writes_ataSectorReady (base : Nat) : (ataSectorReady base).writes s = [] := by
  simp [ataSectorReady]

theorem writes_inWords (n p : Nat) (m : Mem) : (inWords base n p m).writes s = [] := by
  induction n generalizing p m s with
  | zero => rfl
  | succ n ih =>
    rw [inWords, writes_bind, ih]
    rfl

theorem writes_ataReadSectors (n p : Nat) (m : Mem) :
    (ataReadSectors base n p m).writes s = [] := by
  induction n generalizing p m s with
  | zero => rfl
  | succ n ih =>
    rw [ataReadSectors, writes_bind, writes_ataSectorReady, writes_ite,
      writes_bind, writes_inWords, ih]
    simp

theorem heard_outw {ws : List AtaWrite} (h : ∀ w ∈ ws, ∃ port v, w = .outw port v) :
    heard (ataStep base sel) t ws = [] := by
  induction ws generalizing t with
  | nil => rfl
  | cons w ws ih =>
    obtain ⟨hw, hws⟩ := List.forall_mem_cons.mp h
    obtain ⟨port, v, rfl⟩ := hw
    exact ih hws

theorem mem_writes_outWords (n p : Nat) :
    ∀ w ∈ (outWords base m n p).writes s, ∃ port v, w = .outw port v := by
  induction n generalizing p s with
  | zero => exact List.forall_mem_nil _
  | succ n ih =>
    rw [outWords, writes_bind, List.forall_mem_append]
    exact ⟨List.forall_mem_singleton.mpr ⟨_, _, rfl⟩, ih _⟩

theorem mem_writes_ataWriteSectors (n p : Nat) :
    ∀ w ∈ (ataWriteSectors base m n p).writes s, ∃ port v, w = .outw port v := by
  induction n generalizing p s with
  | zero => exact List.forall_mem_nil _
  | succ n ih =>
    rw [ataWriteSectors, writes_bind, writes_ataSectorReady, List.nil_append, writes_ite]
    split
    · rw [writes_bind, List.forall_mem_append]
      exact ⟨mem_writes_outWords 256 p, ih _⟩
    · exact List.forall_mem_nil _

theorem driveSel_bits (sel : Bool) (high : Nat) (h : high < 16) :
    (0xE0 ||| sel.toNat <<< 4 ||| high) % 2 ^ 8 % 2 ^ 4 = high ∧
      ((0xE0 ||| sel.toNat <<< 4 ||| high) % 2 ^ 8).testBit 4 = sel := by
  have hall : ∀ (sel : Bool) (high : Fin 16),
      (0xE0 ||| sel.toNat <<< 4 ||| high.val) % 2 ^ 8 % 2 ^ 4 = high.val ∧
        ((0xE0 ||| sel.toNat <<< 4 ||| high.val) % 2 ^ 8).testBit 4 = sel := by decide
  exact hall sel ⟨high, h⟩

theorem heard_ataCommand (hcmd : cmd = ataCmdRead28 ∨ cmd = ataCmdWrite28) (hpos : 0 < count)
    (hcount : count < 256) :
    heard (ataStep chan.base sel) t ((ataCommand chan sel lba count cmd).writes s) =
      List.range' (lba % 2 ^ 28) count := by
  have hbyte : ∀ x, (x &&& 0xFF) % 2 ^ 8 = x % 2 ^ 8 := fun x => by
    rw [show x &&& 0xFF = x % 2 ^ 8 from Nat.and_two_pow_sub_one_eq_mod x 8, Nat.mod_mod]
  have hnibble : lba / 2 ^ 24 &&& 0x0F = lba / 2 ^ 24 % 2 ^ 4 :=
    Nat.and_two_pow_sub_one_eq_mod _ 4
  obtain ⟨hhigh, hsel⟩ := driveSel_bits sel (lba / 2 ^ 24 % 2 ^ 4) (Nat.mod_lt _ (by decide))
  have hcmd' : cmd % 2 ^ 8 = ataCmdRead28 ∨ cmd % 2 ^ 8 = ataCmdWrite28 := by
    obtain rfl | rfl := hcmd
    · exact .inl rfl
    · exact .inr rfl
  have hcount' : count % 2 ^ 8 = count := Nat.mod_eq_of_lt hcount
  have hlba : lba % 2 ^ 8 + 2 ^ 8 * (lba / 2 ^ 8 % 2 ^ 8) + 2 ^ 16 * (lba / 2 ^ 16 % 2 ^ 8) +
      2 ^ 24 * (lba / 2 ^ 24 % 2 ^ 4) = lba % 2 ^ 28 := by omega
  simp only [ataCommand, outb, writes_bind, writes_write, writes_ataDelay,
    List.append_nil, List.singleton_append, hbyte, hnibble, hcount', Nat.shiftRight_eq_div_pow]
  simp only [heard, ataStep, ataSectCnt, ataLbaLo, ataLbaMid, ataLbaHi, ataDriveSel, ataStatus,
    Nat.add_left_cancel_iff, Nat.reduceEqDiff, if_true, if_false, hcmd', hsel, true_and,
    List.nil_append, List.append_nil, AtaRegs.sectors, AtaRegs.lba, hhigh, hlba]
  rw [if_neg (Nat.ne_of_gt hpos)]

theorem value_ataSectorReady (base : Nat) : ((ataSectorReady base).value fun _ => 0x48) = true :=
  rfl

theorem isSome_ataReadSectors (n p : Nat) (m : Mem) :
    ((ataReadSectors base n p m).value fun _ => 0x48).isSome := by
  induction n generalizing p m with
  | zero => rfl
  | succ n ih =>
    rw [ataReadSectors, value_bind, value_ataSectorReady, if_pos rfl, value_bind,
      rest_const, rest_const]
    exact ih _ _

theorem value_ataWriteSectors (n p : Nat) :
    ((ataWriteSectors base m n p).value fun _ => 0x48) = true := by
  induction n generalizing p with
  | zero => rfl
  | succ n ih =>
    rw [ataWriteSectors, value_bind, value_ataSectorReady, if_pos rfl, value_bind,
      rest_const, rest_const]
    exact ih _

theorem heard_ataDoRead (hpos : 0 < count) (hcount : count < 256) (t : AtaRegs) :
    heard (ataStep chan.base sel) t ((ataDoRead chan sel lba count buf m).writes s) =
      if (ataWaitNotBusy chan.base 5000).value s = 0 then []
      else List.range' (lba % 2 ^ 28) count := by
  rw [ataDoRead, writes_bind, writes_ataWaitNotBusy, List.nil_append, writes_ite]
  split
  · rfl
  · rw [writes_bind, writes_ataReadSectors, List.append_nil]
    exact heard_ataCommand (.inl rfl) hpos hcount

theorem heard_ataDoWrite (hpos : 0 < count) (hcount : count < 256) (t : AtaRegs) :
    heard (ataStep chan.base sel) t ((ataDoWrite chan sel lba count buf m).writes s) =
      if (ataWaitNotBusy chan.base 5000).value s = 0 then []
      else List.range' (lba % 2 ^ 28) count := by
  rw [ataDoWrite, writes_bind, writes_ataWaitNotBusy, List.nil_append, writes_ite]
  split
  · rfl
  · rw [writes_bind, heard_append, heard_ataCommand (.inr rfl) hpos hcount,
      writes_bind, heard_append, heard_outw (mem_writes_ataWriteSectors count buf),
      List.nil_append, writes_ite]
    -- the flush addresses no sector
    have hflush : ∀ t s', heard (ataStep chan.base sel) t ((do
        outb (chan.base + ataStatus) ataCmdCacheFlush
        let _ ← ataWaitNotBusy chan.base 5000
        pure (some m) : AtaIo (Option Mem)).writes s') = [] := by
      intro t s'
      simp [outb, heard, ataStep, ataSectCnt, ataLbaLo, ataLbaMid, ataLbaHi, ataDriveSel,
        ataStatus, ataCmdCacheFlush, ataCmdRead28, ataCmdWrite28]
    split
    · rw [hflush, List.append_nil]
    · exact List.append_nil _

/-- A read or write of up to 255 sectors: the drive hears of its sectors, or of
nothing if it stays busy and the call fails. A drive that is always ready makes
it succeed. -/
structure SectorIo (io : AtaChan → Bool → Nat → Nat → Nat → Mem → AtaIo (Option Mem)) : Prop where
  heard : ∀ {chan sel lba count buf m s}, 0 < count → count < 256 → ∀ t,
    heard (ataStep chan.base sel) t ((io chan sel lba count buf m).writes s) =
      if (ataWaitNotBusy chan.base 5000).value s = 0 then []
      else List.range' (lba % 2 ^ 28) count
  busy : ∀ {chan sel lba count buf m s}, (ataWaitNotBusy chan.base 5000).value s = 0 →
    (io chan sel lba count buf m).value s = none
  ready : ∀ {chan sel lba count buf m},
    ((io chan sel lba count buf m).value fun _ => 0x48).isSome

theorem sectorIo_ataDoRead : SectorIo ataDoRead where
  heard := heard_ataDoRead
  busy hbusy := by simp [ataDoRead, hbusy]
  ready {chan sel lba count buf m} := by
    rw [ataDoRead, value_bind, rest_const, if_neg (by exact Int.one_ne_zero),
      value_bind, rest_const]
    exact isSome_ataReadSectors count buf m

theorem sectorIo_ataDoWrite : SectorIo ataDoWrite where
  heard := heard_ataDoWrite
  busy hbusy := by simp [ataDoWrite, hbusy]
  ready {chan sel lba count buf m} := by
    rw [ataDoWrite, value_bind, rest_const, if_neg (by exact Int.one_ne_zero),
      value_bind, rest_const, value_bind, value_ataWriteSectors, if_pos rfl,
      value_bind, value_bind, value_pure]
    rfl

variable {io : AtaChan → Bool → Nat → Nat → Nat → Mem → AtaIo (Option Mem)} {bd : AtaBlk}

theorem passOk_ataPass (hio : SectorIo io) {stop : Nat} (hstop : stop < 2 ^ 64) :
    PassOk (ataStep bd.chan.base bd.sel) (fun x p => x.lba = p)
      (fun p n => List.range' (p % 2 ^ 28) n) 255 stop (ataPass io bd) where
  done x p n hx hpos hn hend s x' hvalue := by
    subst hx
    rw [ataPass, value_bind, value_pure, Option.map_eq_some_iff] at hvalue
    obtain ⟨m', hm', rfl⟩ := hvalue
    have hready : ¬ (ataWaitNotBusy bd.chan.base 5000).value s = 0 := by
      intro hzero
      rw [hio.busy hzero] at hm'
      cases hm'
    refine ⟨Nat.mod_eq_of_lt (by omega), fun t => ?_⟩
    rw [ataPass, writes_bind, writes_pure, List.append_nil,
      hio.heard hpos (by omega), if_neg hready, Nat.mod_mod_of_dvd _ (by decide)]
  failed x p n hx hpos hn hend s hvalue t := by
    subst hx
    rw [ataPass, writes_bind, writes_pure, List.append_nil,
      hio.heard hpos (by omega), Nat.mod_mod_of_dvd _ (by decide)]
    split
    · exact List.nil_prefix
    · exact List.prefix_refl _

theorem isSome_ataPass (hio : SectorIo io) (x : AtaXfer) (n : Nat) :
    ((ataPass io bd x n).value fun _ => 0x48).isSome := by
  rw [ataPass, value_bind, value_pure, Option.isSome_map]
  exact hio.ready

theorem ataExact_of_sectorIo (hio : SectorIo io) {lba count : Nat} (hpos : 0 < count)
    (hend : lba + count < 2 ^ 64) :
    AtaExact (fun bd lba count buf m => inChunks 255 (ataPass io bd) count ⟨lba, buf, m⟩ count) bd
        lba count ↔ lba + 255 * ((count - 1) / 255) < 2 ^ 28 := by
  have hiff : ∀ buf m, _ := fun buf m =>
    @exact_inChunks_iff _ _ _ _ 255 count lba count (lba + count) ⟨lba, buf, m⟩ (ataPass io bd) _ _
      (2 ^ 28) 0x48 (by decide) (by decide) (passOk_ataPass hio hend)
      (fun x n _ _ => isSome_ataPass hio x n) rfl hpos (Nat.le_refl count) (Nat.le_refl _)
      ⟨0, 0, 0, 0, 0⟩
  exact ⟨fun h => (hiff 0 fun _ => 0).mp (h 0 fun _ => 0), fun h buf m => (hiff buf m).mpr h⟩

end

variable {s : Answers} {base : Nat} {d : AtaDrive}

theorem readWords_lt (n : Nat) : ∀ w ∈ (readWords base n).value s, w < 2 ^ 16 := by
  induction n generalizing s with
  | zero => exact List.forall_mem_nil _
  | succ n ih =>
    rw [readWords, value_bind, value_bind, value_pure, List.forall_mem_cons]
    exact ⟨Nat.mod_lt _ (by decide), ih⟩

def AtaDrive.SizesFit (d : AtaDrive) : Prop := d.lba28Sectors < 2 ^ 64 ∧ d.lba48Sectors < 2 ^ 64

theorem sizesFit_ofIdent (hd : d.SizesFit) {ident : List Nat} (h : ∀ w ∈ ident, w < 2 ^ 16) :
    (d.ofIdent ident).SizesFit := by
  have hword : ∀ i, ident.getD i 0 < 2 ^ 16 := by
    intro i
    rw [List.getD_eq_getElem?_getD]
    cases hi : ident[i]? with
    | none => exact Nat.two_pow_pos 16
    | some w => exact h w (List.mem_of_getElem? hi)
  have h28 : lba28Of (fun i => ident.getD i 0) < 2 ^ 64 := lba28Of_lt hword
  have h48 : lba48Of (fun i => ident.getD i 0) < 2 ^ 64 := lba48Of_lt hword
  have hold : d.lba48Sectors < 2 ^ 64 := hd.2
  unfold AtaDrive.SizesFit AtaDrive.ofIdent
  refine ⟨h28, ?_⟩
  dsimp only
  split
  · exact h48
  · exact hold

theorem sizesFit_ataIdentify (chan : AtaChan) (sel : Bool) :
    ((ataIdentify {} chan sel).value s).SizesFit := by
  have hzero : AtaDrive.SizesFit {} := ⟨by decide, by decide⟩
  have hdata : ∀ s', ((ataIdentifyData {} chan.base).value s').SizesFit := by
    intro s'
    simp only [ataIdentifyData, value_bind, value_ite, value_pure]
    repeat' split
    · exact hzero
    · exact hzero
    · exact hzero
    · exact sizesFit_ofIdent hzero (readWords_lt 256)
  simp only [ataIdentify, outb, value_bind, rest_write, value_ite, value_pure]
  repeat' split
  · exact hzero
  · exact hzero
  · exact hdata _

theorem sectorCount_lt {bd : AtaBlk} (h : bd ∈ ataInit.value s) : bd.sectorCount < 2 ^ 64 := by
  have hprobe : ∀ chan sel s', (ataProbe chan sel).value s' = some bd →
      bd.sectorCount < 2 ^ 64 := by
    intro chan sel s' hbd
    have hfit := sizesFit_ataIdentify (s := s') chan sel
    rw [ataProbe, value_bind, value_pure, Option.ite_none_right_eq_some] at hbd
    obtain ⟨-, hbd⟩ := hbd
    rw [← Option.some.inj hbd]
    dsimp only
    split
    · exact hfit.2
    · exact hfit.1
  simp only [ataInit, value_bind, value_pure, List.mem_filterMap, List.mem_cons,
    List.not_mem_nil, or_false, id] at h
  obtain ⟨o, ho, rfl⟩ := h
  obtain h0 | h1 | h2 | h3 := ho
  · exact hprobe _ _ _ h0.symm
  · exact hprobe _ _ _ h1.symm
  · exact hprobe _ _ _ h2.symm
  · exact hprobe _ _ _ h3.symm

/-- **The commands of a request address its sectors.** -/
theorem ataExact_iff (s : Answers) (bd : AtaBlk) (hbd : bd ∈ ataInit.value s) (lba count : Nat)
    (hpos : 1 ≤ count) (hfits : lba + count ≤ bd.sectorCount) :
    (AtaExact ataBlkRead bd lba count ↔ lba + 255 * ((count - 1) / 255) < 2 ^ 28) ∧
      (AtaExact ataBlkWrite bd lba count ↔ lba + 255 * ((count - 1) / 255) < 2 ^ 28) := by
  have hend : lba + count < 2 ^ 64 := Nat.lt_of_le_of_lt hfits (sectorCount_lt hbd)
  exact ⟨ataExact_of_sectorIo sectorIo_ataDoRead hpos hend,
    ataExact_of_sectorIo sectorIo_ataDoWrite hpos hend⟩

/-- The answers of a primary master with `2 ^ 28 + 1` sectors, and no other drive. -/
def bigDrive : Answers := fun i =>
  if i < 12 then 0x48 else if i = 95 then 0x400 else if i = 112 then 1
  else if i = 113 then 0x1000 else 0

theorem mem_ataInit_bigDrive : ⟨.primary, false, 2 ^ 28 + 1⟩ ∈ ataInit.value bigDrive := by
  decide +kernel

theorem ataExact_bigDrive :
    AtaExact ataBlkRead ⟨.primary, false, 2 ^ 28 + 1⟩ (2 ^ 28 - 300) 300 :=
  (ataExact_iff bigDrive ⟨.primary, false, 2 ^ 28 + 1⟩ mem_ataInit_bigDrive _ _ (by decide)
    (by decide)).1.mpr (by decide)

theorem ata_aliases :
    let bd : AtaBlk := ⟨.primary, false, 2 ^ 28 + 1⟩
    bd ∈ ataInit.value bigDrive ∧ 2 ^ 28 + 1 ≤ bd.sectorCount ∧
      heard (ataStep bd.chan.base bd.sel) ⟨0, 0, 0, 0, 0⟩
        ((ataBlkWrite bd (2 ^ 28) 1 0 fun _ => 0).writes fun _ => 0x48) = [0] :=
  ⟨mem_ataInit_bigDrive, by decide, by decide +kernel⟩

end DevOs
