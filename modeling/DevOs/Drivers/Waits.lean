import DevOs.Drivers.Ahci
import DevOs.Drivers.Ata
import DevOs.Drivers.Rtl8139

/-!
What the drivers know after they have waited for a device.
-/

namespace DevOs

open ByteMem Device Dialog

inductive NvmeCtrlReg where
  | cap
  | csts
  deriving DecidableEq, Repr

inductive NvmeCtrlWrite where
  | cc (v : Nat)
  | aqa (v : Nat)
  | asq (v : BitVec 64)
  | acq (v : BitVec 64)
  deriving DecidableEq, Repr

abbrev NvmeCtrlIo := Dialog NvmeCtrlReg NvmeCtrlWrite

/-- The first wait of `nvme_init`: whether it goes on. -/
def nvmeDisable : NvmeCtrlIo Bool := do
  .write (.cc 0)
  let t ← .spin 32 .csts (fun csts => csts &&& 1 == 0) 2000000
  pure (t != 0)

/-- The second wait of `nvme_init`; `EN`, the sizes of queue entries, and the defaults. -/
def nvmeEnable : NvmeCtrlIo Bool := do
  .write (.cc (1 ||| 6 <<< 16 ||| 4 <<< 20))
  let t ← .spin 32 .csts (fun csts => csts &&& 1 != 0) 2000000
  pure (t != 0)

/-- `nvme_init` up to the first admin command, with the admin queues if the heap has
room for them. -/
def nvmeInitCtrl (queues : Option (BitVec 64 × BitVec 64)) : NvmeCtrlIo Bool := do
  let _ ← .read 64 .cap
  let disabled ← nvmeDisable
  if disabled then
    match queues with
    | none => pure false
    | some (asq, acq) => do
      .write (.aqa (63 <<< 16 ||| 63))
      .write (.asq (asq - kernelVirtBase))
      .write (.acq (acq - kernelVirtBase))
      nvmeEnable
  else pure false

def AhciBusy (s : Answers) (k : Nat) : Prop :=
  s (2 * k) % 2 ^ 32 &&& 1 ≠ 0 ∧ s (2 * k + 1) % 2 ^ 32 &&& 1 <<< 30 = 0

section

variable {s : Answers} {timeout : Nat}

theorem ahciPoll_of_busy (h : ∀ k < timeout, AhciBusy s k) :
    (ahciPoll timeout).value s = some (2 ^ 32 - 1) ∧
      (∀ v, .read .ci v ∈ (ahciPoll timeout).trace s → v &&& 1 ≠ 0) ∧
      (ahciPoll timeout).rest s = fun i => s (i + 2 * timeout) := by
  induction timeout generalizing s with
  | zero => exact ⟨rfl, fun v hv => absurd hv List.not_mem_nil, rfl⟩
  | succ timeout ih =>
    obtain ⟨hci, his⟩ : AhciBusy s 0 := h 0 (Nat.succ_pos timeout)
    obtain ⟨hvalue, htrace, hrest⟩ := @ih (fun i => s (i + 1 + 1)) fun k hk =>
      h (k + 1) (Nat.succ_lt_succ hk)
    have his' : ¬ s (0 + 1) % 2 ^ 32 &&& 1 <<< 30 ≠ 0 := fun hne => hne his
    simp only [ahciPoll, value_bind, trace_bind, rest_bind,
      value_read, trace_read, rest_read, if_neg hci, if_neg his']
    refine ⟨hvalue, fun v hv => ?_, hrest⟩
    simp only [List.cons_append, List.nil_append, List.mem_cons, Event.read.injEq, true_and,
      reduceCtorEq, false_and, false_or] at hv
    obtain rfl | hv := hv
    · exact hci
    · exact htrace v hv

theorem ahciPoll_of_not_busy (h : ∃ k < timeout, ¬ AhciBusy s k) :
    (ahciPoll timeout).value s = none ∨
      ∃ v, .read .ci v ∈ (ahciPoll timeout).trace s ∧ v &&& 1 = 0 := by
  induction timeout generalizing s with
  | zero =>
    obtain ⟨k, hk, _⟩ := h
    exact absurd hk (Nat.not_lt_zero k)
  | succ timeout ih =>
    simp only [ahciPoll, value_bind, trace_bind, value_read,
      trace_read, rest_read, value_ite, trace_ite]
    by_cases hci : s 0 % 2 ^ 32 &&& 1 = 0
    · exact .inr ⟨_, List.mem_append_left _ (List.mem_singleton.mpr rfl), hci⟩
    by_cases his : s (0 + 1) % 2 ^ 32 &&& 1 <<< 30 = 0
    · obtain ⟨k, hk, hfree⟩ := h
      -- pass 0 is a busy one, so the rest of the loop has the other
      cases k with
      | zero => exact absurd ⟨hci, his⟩ hfree
      | succ k =>
        have his' : ¬ s (0 + 1) % 2 ^ 32 &&& 1 <<< 30 ≠ 0 := fun hne => hne his
        rw [if_neg hci, if_neg hci, if_neg his', if_neg his']
        refine (@ih (fun i => s (i + 1 + 1)) ⟨k, Nat.lt_of_succ_lt_succ hk, hfree⟩).imp_right
          fun hread => ?_
        obtain ⟨v, hv, hclear⟩ := hread
        exact ⟨v, List.mem_append_right _ (List.mem_append_right _ hv), hclear⟩
    · rw [if_neg hci, if_pos his]
      exact .inl rfl

end

def AtaDrive.Identified (d : AtaDrive) : Prop := d.present ∧ ¬ d.isAtapi

def busyStop (st : Nat) : Option Unit := if st &&& ataSrBsy = 0 then some () else none

def drqStop (st : Nat) : Option Int :=
  if st &&& ataSrErr ≠ 0 then some (-1) else if st &&& ataSrDrq ≠ 0 then some 1 else none

/-- The answers to `ata_identify` for which the wait for data ends with a read: the
drive is there, it is busy for `j` reads of the status and then has no error, and
after `k` reads more it signals an error or asks for the transfer. -/
structure AtaEnded (s : Answers) (j k : Nat) : Prop where
  present : s 8 % 2 ^ 8 ≠ 0
  j_lt : j < 50000000
  busy : ∀ i < j, s (i + 9) % 2 ^ 8 &&& ataSrBsy ≠ 0
  free : s (j + 9) % 2 ^ 8 &&& ataSrBsy = 0
  no_err : s (j + 10) % 2 ^ 8 &&& ataSrErr = 0
  k_lt : k < 50000000
  idle : ∀ i < k, s (i + j + 11) % 2 ^ 8 &&& ataSrErr = 0 ∧ s (i + j + 11) % 2 ^ 8 &&& ataSrDrq = 0
  ended : s (k + j + 11) % 2 ^ 8 &&& ataSrErr ≠ 0 ∨ s (k + j + 11) % 2 ^ 8 &&& ataSrDrq ≠ 0

section

variable {s : Answers} {base timeoutMs j k : Nat}

theorem drqStop_eq_none_iff {st : Nat} :
    drqStop st = none ↔ st &&& ataSrErr = 0 ∧ st &&& ataSrDrq = 0 := by
  unfold drqStop
  split
  case isTrue herr => simp [herr]
  case isFalse herr =>
    split
    case isTrue hdrq => simp [hdrq]
    case isFalse hdrq => simp [not_not.mp herr, not_not.mp hdrq]

theorem exists_drqStop {st : Nat} (h : st &&& ataSrErr ≠ 0 ∨ st &&& ataSrDrq ≠ 0) :
    ∃ b ≠ 0, drqStop st = some b := by
  by_cases herr : st &&& ataSrErr = 0
  · have hdrq : st &&& ataSrDrq ≠ 0 := h.resolve_left (not_not.mpr herr)
    exact ⟨1, by decide, by rw [drqStop, if_neg (not_not.mpr herr), if_pos hdrq]⟩
  · exact ⟨-1, by decide, if_pos herr⟩

theorem ataWaitNotBusy_eq : ataWaitNotBusy base timeoutMs = (do
    let r ← .poll 8 (base + ataStatus) busyStop (timeoutMs * 10000 % 2 ^ 32)
    pure (if r.isSome then 1 else 0) : AtaIo Int) := (rfl)

theorem ataWaitDrq_eq : ataWaitDrq base timeoutMs = (do
    let r ← .poll 8 (base + ataStatus) drqStop (timeoutMs * 10000 % 2 ^ 32)
    pure (r.getD 0) : AtaIo Int) := (rfl)

theorem ataWaitNotBusy_of_first (hj : j < timeoutMs * 10000 % 2 ^ 32)
    (hbusy : ∀ i < j, s i % 2 ^ 8 &&& ataSrBsy ≠ 0) (hfree : s j % 2 ^ 8 &&& ataSrBsy = 0) :
    (ataWaitNotBusy base timeoutMs).value s = 1 ∧
      (ataWaitNotBusy base timeoutMs).rest s = fun i => s (i + (j + 1)) := by
  have hnone : ∀ i < j, busyStop (s i % 2 ^ 8) = none := fun i hi => if_neg (hbusy i hi)
  have hstop : busyStop (s j % 2 ^ 8) = some () := if_pos hfree
  rw [ataWaitNotBusy_eq, value_bind, rest_bind,
    (poll_of_first hj hnone hstop).1, (poll_of_first hj hnone hstop).2.2]
  exact ⟨rfl, rfl⟩

theorem ataWaitNotBusy_of_forall
    (hbusy : ∀ i < timeoutMs * 10000 % 2 ^ 32, s i % 2 ^ 8 &&& ataSrBsy ≠ 0) :
    (ataWaitNotBusy base timeoutMs).value s = 0 := by
  have hnone : ∀ i < timeoutMs * 10000 % 2 ^ 32, busyStop (s i % 2 ^ 8) = none :=
    fun i hi => if_neg (hbusy i hi)
  rw [ataWaitNotBusy_eq, value_bind, (poll_of_forall hnone).1]
  rfl

theorem ataWaitDrq_of_first (hk : k < timeoutMs * 10000 % 2 ^ 32)
    (hidle : ∀ i < k, s i % 2 ^ 8 &&& ataSrErr = 0 ∧ s i % 2 ^ 8 &&& ataSrDrq = 0)
    (hended : s k % 2 ^ 8 &&& ataSrErr ≠ 0 ∨ s k % 2 ^ 8 &&& ataSrDrq ≠ 0) :
    (ataWaitDrq base timeoutMs).value s ≠ 0 ∧ (ataWaitDrq base timeoutMs).trace s =
        readEvents 8 (base + ataStatus) s (k + 1) := by
  have hnone : ∀ i < k, drqStop (s i % 2 ^ 8) = none :=
    fun i hi => drqStop_eq_none_iff.mpr (hidle i hi)
  obtain ⟨b, hb, hstop⟩ := exists_drqStop hended
  rw [ataWaitDrq_eq, value_bind, trace_bind,
    (poll_of_first hk hnone hstop).1, (poll_of_first hk hnone hstop).2.1]
  exact ⟨hb, List.append_nil _⟩

theorem ataWaitDrq_of_forall (hidle : ∀ i < timeoutMs * 10000 % 2 ^ 32,
      s i % 2 ^ 8 &&& ataSrErr = 0 ∧ s i % 2 ^ 8 &&& ataSrDrq = 0) :
    (ataWaitDrq base timeoutMs).value s = 0 := by
  have hnone : ∀ i < timeoutMs * 10000 % 2 ^ 32, drqStop (s i % 2 ^ 8) = none :=
    fun i hi => drqStop_eq_none_iff.mpr (hidle i hi)
  rw [ataWaitDrq_eq, value_bind, (poll_of_forall hnone).1]
  rfl

theorem lastRead_readWords (base n : Nat) :
    lastRead (base + ataStatus) ((readWords base n).trace s) = none := by
  induction n generalizing s with
  | zero => rfl
  | succ n ih =>
    have hport : base ≠ base + ataStatus := by simp [ataStatus]
    simp only [readWords, trace_bind, inw, trace_read, trace_pure,
      List.append_nil, List.singleton_append]
    rw [lastRead_cons_of_ne hport]
    exact ih

theorem ataIdentifyData_of_ended (herr : s 0 % 2 ^ 8 &&& ataSrErr = 0) (hk : k < 50000000)
    (hidle : ∀ i < k, s (i + 1) % 2 ^ 8 &&& ataSrErr = 0 ∧ s (i + 1) % 2 ^ 8 &&& ataSrDrq = 0)
    (hended : s (k + 1) % 2 ^ 8 &&& ataSrErr ≠ 0 ∨ s (k + 1) % 2 ^ 8 &&& ataSrDrq ≠ 0) :
    ((ataIdentifyData {} base).value s).Identified ∧
      lastRead (base + ataStatus) ((ataIdentifyData {} base).trace s) =
        some (s (k + 1) % 2 ^ 8) := by
  obtain ⟨hvalue, htrace⟩ := @ataWaitDrq_of_first (fun i => s (i + 1)) base 5000 k hk hidle hended
  have herr' : ¬ s 0 % 2 ^ 8 &&& ataSrErr ≠ 0 := not_not.mpr herr
  simp only [ataIdentifyData, inb, value_bind, trace_bind, value_read,
    trace_read, rest_read, if_neg herr', if_neg hvalue, htrace, trace_pure,
    value_pure, List.append_nil]
  refine ⟨⟨rfl, Bool.false_ne_true⟩, lastRead_append_right ?_⟩
  rw [lastRead_append_left (lastRead_readWords _ _), lastRead_readEvents]

theorem ataIdentifyData_of_err (herr : s 0 % 2 ^ 8 &&& ataSrErr ≠ 0) :
    ¬ ((ataIdentifyData {} base).value s).Identified := by
  simp only [ataIdentifyData, inb, value_bind, value_read, rest_read,
    if_pos herr, value_ite, value_pure]
  intro hident
  split at hident
  · exact hident.2 rfl
  · exact Bool.false_ne_true hident.1

theorem ataIdentifyData_of_idle (hidle : ∀ i < 50000000,
      s (i + 1) % 2 ^ 8 &&& ataSrErr = 0 ∧ s (i + 1) % 2 ^ 8 &&& ataSrDrq = 0) :
    ¬ ((ataIdentifyData {} base).value s).Identified := by
  by_cases herr : s 0 % 2 ^ 8 &&& ataSrErr ≠ 0
  · exact ataIdentifyData_of_err herr
  · have hvalue : (ataWaitDrq base 5000).value (fun i => s (i + 1)) = 0 :=
      ataWaitDrq_of_forall hidle
    simp only [ataIdentifyData, inb, value_bind, value_read, rest_read,
      if_neg herr, hvalue, if_true, value_pure]
    exact fun hident => Bool.false_ne_true hident.1

theorem rest_ataDelay (ctrl : Nat) : (ataDelay ctrl).rest s = fun i => s (i + 4) := (rfl)

theorem value_ataIdentify (chan : AtaChan) (sel : Bool) : (ataIdentify {} chan sel).value s =
      if s 8 % 2 ^ 8 = 0 then {}
      else if (ataWaitNotBusy chan.base 5000).value (fun i => s (i + 9)) = 0 then {}
      else (ataIdentifyData {} chan.base).value
        ((ataWaitNotBusy chan.base 5000).rest fun i => s (i + 9)) := by
  simp only [ataIdentify, inb, outb, value_bind, rest_write, rest_ataDelay,
    rest_read, value_read, value_ite, value_pure, Nat.zero_add,
    Nat.add_assoc, Nat.reduceAdd]

theorem trace_ataIdentify (chan : AtaChan) (sel : Bool) (hpresent : s 8 % 2 ^ 8 ≠ 0)
    (hready : (ataWaitNotBusy chan.base 5000).value (fun i => s (i + 9)) ≠ 0) :
    ∃ before, (ataIdentify {} chan sel).trace s = before ++ (ataIdentifyData {} chan.base).trace
        ((ataWaitNotBusy chan.base 5000).rest fun i => s (i + 9)) := by
  simp only [ataIdentify, inb, outb, trace_bind, rest_write, rest_ataDelay,
    rest_read, value_read, Nat.zero_add, Nat.add_assoc, Nat.reduceAdd,
    if_neg hpresent, if_neg hready]
  simp only [← List.append_assoc]
  exact ⟨_, rfl⟩

theorem ataIdentify_of_ended (chan : AtaChan) (sel : Bool) (h : AtaEnded s j k) :
    ((ataIdentify {} chan sel).value s).Identified ∧
      lastRead (chan.base + ataStatus) ((ataIdentify {} chan sel).trace s) =
        some (s (k + j + 11) % 2 ^ 8) := by
  obtain ⟨hvalue, hrest⟩ := @ataWaitNotBusy_of_first (fun i => s (i + 9)) chan.base 5000 j
    h.j_lt h.busy h.free
  have hready : (ataWaitNotBusy chan.base 5000).value (fun i => s (i + 9)) ≠ 0 := by
    rw [hvalue]
    decide
  have hat : ∀ i, s (i + 1 + (j + 1) + 9) = s (i + j + 11) := fun i => congrArg s (by omega)
  obtain ⟨hident, hlast⟩ := @ataIdentifyData_of_ended (fun i => s (i + (j + 1) + 9)) chan.base k
    (by simpa only [Nat.zero_add, Nat.add_assoc, Nat.reduceAdd] using h.no_err) h.k_lt
    (by simpa only [hat] using h.idle) (by simpa only [hat] using h.ended)
  obtain ⟨before, htrace⟩ := trace_ataIdentify chan sel h.present hready
  rw [value_ataIdentify, if_neg h.present, if_neg hready, htrace, hrest, ← hat]
  exact ⟨hident, lastRead_append_right hlast⟩

theorem ataIdentify_of_not_ended (chan : AtaChan) (sel : Bool) (h : ¬ ∃ j k, AtaEnded s j k) :
    ¬ ((ataIdentify {} chan sel).value s).Identified := by
  have hempty : ¬ ({} : AtaDrive).Identified := fun hident => Bool.false_ne_true hident.1
  rw [value_ataIdentify]
  by_cases hpresent : s 8 % 2 ^ 8 = 0
  · rwa [if_pos hpresent]
  obtain ⟨j, hj, hbusy, hfree⟩ | hbusy :=
    first_or_forall (fun j => s (j + 9) % 2 ^ 8 &&& ataSrBsy = 0) 50000000
  · obtain ⟨hvalue, hrest⟩ := @ataWaitNotBusy_of_first (fun i => s (i + 9)) chan.base 5000 j
      hj hbusy hfree
    rw [if_neg hpresent, hvalue, if_neg (by decide), hrest]
    by_cases herr : s (j + 10) % 2 ^ 8 &&& ataSrErr = 0
    · obtain ⟨k, hk, hidle, hended⟩ | hidle := first_or_forall (fun k =>
        s (k + j + 11) % 2 ^ 8 &&& ataSrErr ≠ 0 ∨ s (k + j + 11) % 2 ^ 8 &&& ataSrDrq ≠ 0) 50000000
      · refine absurd ⟨j, k, hpresent, hj, hbusy, hfree, herr, hk, fun i hi => ?_, hended⟩ h
        simpa only [not_or, not_not] using hidle i hi
      · refine ataIdentifyData_of_idle fun i hi => ?_
        rw [show i + 1 + (j + 1) + 9 = i + j + 11 by omega]
        simpa only [not_or, not_not] using hidle i hi
    · refine ataIdentifyData_of_err ?_
      simpa only [Nat.zero_add, Nat.add_assoc, Nat.reduceAdd] using herr
  · rwa [if_neg hpresent, ataWaitNotBusy_of_forall hbusy, if_pos rfl]

theorem AtaEnded.unique {j' k' : Nat} (h : AtaEnded s j k) (h' : AtaEnded s j' k') :
    j = j' ∧ k = k' := by
  have hj : j = j' := by
    obtain hlt | heq | hgt := Nat.lt_trichotomy j j'
    · exact absurd h.free (h'.busy j hlt)
    · exact heq
    · exact absurd h'.free (h.busy j' hgt)
  subst hj
  have hnot : ∀ {i}, s (i + j + 11) % 2 ^ 8 &&& ataSrErr = 0 ∧
      s (i + j + 11) % 2 ^ 8 &&& ataSrDrq = 0 → ¬ (s (i + j + 11) % 2 ^ 8 &&& ataSrErr ≠ 0 ∨
        s (i + j + 11) % 2 ^ 8 &&& ataSrDrq ≠ 0) := fun hidle hended =>
    hended.elim (fun herr => herr hidle.1) fun hdrq => hdrq hidle.2
  obtain hlt | heq | hgt := Nat.lt_trichotomy k k'
  · exact absurd h.ended (hnot (h'.idle k hlt))
  · exact ⟨rfl, heq⟩
  · exact absurd h'.ended (hnot (h.idle k' hgt))

end

inductive Wait where
  | ahciIssue (write : Bool) (lba sectors buf : Nat)
  | rtl8139Send (rtl : RtlTx) (data : Mem) (len : Nat)
  | nvmeDisable
  | nvmeEnable
  | ataIdentify (chan : AtaChan) (sel : Bool)

/-- If a wait is reported as satisfied, its condition was read. For `ata_identify` it
was read last, for the status is read before the wait as well. -/
def Wait.Honest (s : Answers) : Wait → Prop
  | .ahciIssue write lba sectors buf =>
    (DevOs.ahciIssue write lba sectors buf).value s = 0 →
      ∃ v, .read .ci v ∈ (DevOs.ahciIssue write lba sectors buf).trace s ∧ v &&& 1 = 0
  | .rtl8139Send rtl data len =>
    ((DevOs.rtl8139Send rtl data len).value s).1 = 0 →
      ∃ v, .read (.tsd (rtl.txCur % rtlTxDescs)) v ∈ (DevOs.rtl8139Send rtl data len).trace s ∧
        v &&& 1 <<< 13 ≠ 0
  | .nvmeDisable =>
    DevOs.nvmeDisable.value s = true →
      ∃ v, .read .csts v ∈ DevOs.nvmeDisable.trace s ∧ v &&& 1 = 0
  | .nvmeEnable =>
    DevOs.nvmeEnable.value s = true →
      ∃ v, .read .csts v ∈ DevOs.nvmeEnable.trace s ∧ v &&& 1 ≠ 0
  | .ataIdentify chan sel =>
    ((DevOs.ataIdentify {} chan sel).value s).Identified →
      ∃ v, lastRead (chan.base + ataStatus) ((DevOs.ataIdentify {} chan sel).trace s) = some v ∧
        v &&& ataSrDrq ≠ 0 ∧ v &&& ataSrErr = 0

def Wait.Answered (s : Answers) : Wait → Prop
  | .ahciIssue _ _ _ _ =>
    (∃ k < 1000000, ¬ AhciBusy s k) ∨ s 2000000 % 2 ^ 32 &&& ahciTfdErrBsy ≠ 0
  | .rtl8139Send _ _ len =>
    rtlTxBufSize < len ∨ ∃ k ≤ 1000000, s k % 2 ^ 32 &&& 1 <<< 13 ≠ 0
  | .nvmeDisable => ∃ k ≤ 2000000, s k % 2 ^ 32 &&& 1 = 0
  | .nvmeEnable => ∃ k ≤ 2000000, s k % 2 ^ 32 &&& 1 ≠ 0
  | .ataIdentify _ _ =>
    ∀ j k, AtaEnded s j k → s (k + j + 11) % 2 ^ 8 &&& ataSrErr = 0

variable {s : Answers}

theorem ahciWait_of_busy (h : ∀ k < 1000000, AhciBusy s k) :
    ahciWait.value s = (if s 2000000 % 2 ^ 32 &&& ahciTfdErrBsy ≠ 0 then -1 else 0) ∧
      ∀ v, .read .ci v ∈ ahciWait.trace s → v &&& 1 ≠ 0 := by
  obtain ⟨hvalue, htrace, hrest⟩ := ahciPoll_of_busy h
  rw [ahciWait, value_bind, trace_bind, hvalue, hrest]
  refine ⟨rfl, fun v hv => (List.mem_append.mp hv).elim (htrace v) fun htfd => ?_⟩
  exact absurd (List.mem_singleton.mp htfd) (by simp)

theorem ahciWait_of_not_busy (h : ∃ k < 1000000, ¬ AhciBusy s k) (hzero : ahciWait.value s = 0) :
    ∃ v, .read .ci v ∈ ahciWait.trace s ∧ v &&& 1 = 0 := by
  rw [ahciWait, value_bind] at hzero
  rw [ahciWait, trace_bind]
  obtain hnone | ⟨v, hv, hclear⟩ := ahciPoll_of_not_busy h
  · rw [hnone] at hzero
    exact absurd hzero (by simp)
  · exact ⟨v, List.mem_append_left _ hv, hclear⟩

theorem honest_ahciIssue_iff (write : Bool) (lba sectors buf : Nat) :
    (Wait.ahciIssue write lba sectors buf).Honest s ↔
      (Wait.ahciIssue write lba sectors buf).Answered s := by
  have hvalue : (ahciIssue write lba sectors buf).value s = ahciWait.value s := by
    simp only [ahciIssue, value_bind, rest_write]
  have htrace : ∀ v, .read .ci v ∈ (ahciIssue write lba sectors buf).trace s ↔
      .read .ci v ∈ ahciWait.trace s := by
    simp [ahciIssue]
  simp only [Wait.Honest, Wait.Answered, hvalue, htrace]
  by_cases hbusy : ∀ k < 1000000, AhciBusy s k
  · obtain ⟨hvalue, htrace⟩ := ahciWait_of_busy hbusy
    have hfree : ¬ ∃ k < 1000000, ¬ AhciBusy s k := by simpa only [not_exists, not_and, not_not]
    rw [hvalue, or_iff_right hfree]
    constructor
    · intro h htfd
      rw [if_neg (not_not.mpr htfd)] at h
      obtain ⟨v, hv, hclear⟩ := h rfl
      exact htrace v hv hclear
    · intro htfd hzero
      rw [if_pos htfd] at hzero
      exact absurd hzero (by decide)
  · have hfree : ∃ k < 1000000, ¬ AhciBusy s k := by
      simpa only [not_forall, exists_prop] using hbusy
    exact iff_of_true (ahciWait_of_not_busy hfree) (.inl hfree)

theorem honest_rtl8139Send_iff (rtl : RtlTx) (data : Mem) (len : Nat) :
    (Wait.rtl8139Send rtl data len).Honest s ↔ (Wait.rtl8139Send rtl data len).Answered s := by
  simp only [Wait.Honest, Wait.Answered]
  by_cases hlen : rtlTxBufSize < len
  · refine iff_of_true (fun hzero => ?_) (.inl hlen)
    rw [rtl8139Send, if_pos hlen] at hzero
    exact absurd hzero (by simp)
  · have hspin := @spin_honest_iff _ RtlWrite 32 1000000
      (RtlReg.tsd (rtl.txCur % rtlTxDescs)) (fun v => v &&& 1 <<< 13 != 0) s
    simp only [bne_iff_ne] at hspin
    rw [or_iff_right hlen, ← hspin]
    simp only [rtl8139Send, if_neg hlen, value_bind, trace_bind]
    generalize (spin 32 (RtlReg.tsd (rtl.txCur % rtlTxDescs))
      (fun v => v &&& 1 <<< 13 != 0) 1000000 : RtlIo Nat) = p
    by_cases hzero : p.value s = 0
    · simp [hzero]
    · simp [hzero]

theorem honest_nvmeDisable_iff : Wait.nvmeDisable.Honest s ↔ Wait.nvmeDisable.Answered s := by
  simpa [Wait.Honest, Wait.Answered, nvmeDisable] using
    @spin_honest_iff _ NvmeCtrlWrite 32 2000000 NvmeCtrlReg.csts
      (fun csts => csts &&& 1 == 0) s

theorem honest_nvmeEnable_iff : Wait.nvmeEnable.Honest s ↔ Wait.nvmeEnable.Answered s := by
  simpa [Wait.Honest, Wait.Answered, nvmeEnable] using
    @spin_honest_iff _ NvmeCtrlWrite 32 2000000 NvmeCtrlReg.csts
      (fun csts => csts &&& 1 != 0) s

theorem honest_ataIdentify_iff (chan : AtaChan) (sel : Bool) :
    (Wait.ataIdentify chan sel).Honest s ↔ (Wait.ataIdentify chan sel).Answered s := by
  simp only [Wait.Honest, Wait.Answered]
  by_cases hex : ∃ j k, AtaEnded s j k
  · obtain ⟨j, k, hended⟩ := hex
    obtain ⟨hident, hlast⟩ := ataIdentify_of_ended chan sel hended
    rw [hlast]
    constructor
    · intro h j' k' hended'
      obtain ⟨rfl, rfl⟩ := hended.unique hended'
      obtain ⟨v, hv, _, herr⟩ := h hident
      rwa [Option.some.inj hv]
    · intro h _
      have herr := h j k hended
      exact ⟨_, rfl, hended.ended.resolve_left (not_not.mpr herr), herr⟩
  · exact iff_of_true (fun hident => absurd hident (ataIdentify_of_not_ended chan sel hex))
      fun j k hended => absurd ⟨j, k, hended⟩ hex

/-- **Every wait of the drivers.** -/
theorem honest_iff_answered (w : Wait) (s : Answers) : w.Honest s ↔ w.Answered s := by
  cases w with
  | ahciIssue write lba sectors buf => exact honest_ahciIssue_iff write lba sectors buf
  | rtl8139Send rtl data len => exact honest_rtl8139Send_iff rtl data len
  | nvmeDisable => exact honest_nvmeDisable_iff
  | nvmeEnable => exact honest_nvmeEnable_iff
  | ataIdentify chan sel => exact honest_ataIdentify_iff chan sel

/-- A device that is never ready deceives the waits with a counter of the form `t--`, and
one that signals an error after it was ready deceives `ata_identify`. -/
theorem waits_deceived :
    ¬ (Wait.ahciIssue false 0 1 0).Honest (fun i => if i = 2000000 then 0 else 1) ∧
      ¬ (Wait.rtl8139Send ⟨0, fun _ => 0, fun _ _ => 0⟩ (fun _ => 0) 60).Honest (fun _ => 0) ∧
      ¬ Wait.nvmeDisable.Honest (fun _ => 1) ∧
      ¬ Wait.nvmeEnable.Honest (fun _ => 0) ∧
      ¬ (Wait.ataIdentify .primary false).Honest (fun i => if i < 11 then 0x40 else 0x01) := by
  refine ⟨?_, ?_, ?_, ?_, ?_⟩
  · rw [honest_ahciIssue_iff]
    intro h
    obtain ⟨k, hk, hfree⟩ | htfd := h
    · have heven : 2 * k ≠ 2000000 := by omega
      have hodd : 2 * k + 1 ≠ 2000000 := by omega
      exact hfree ⟨by simp [heven], by simp [hodd]⟩
    · exact htfd rfl
  · rw [honest_rtl8139Send_iff]
    intro h
    obtain hlen | ⟨k, _, hready⟩ := h
    · exact absurd hlen (by decide)
    · exact hready (by simp)
  · rw [honest_nvmeDisable_iff]
    intro h
    obtain ⟨k, _, hclear⟩ := h
    exact absurd hclear (by simp)
  · rw [honest_nvmeEnable_iff]
    intro h
    obtain ⟨k, _, hset⟩ := h
    exact hset (by simp)
  · rw [honest_ataIdentify_iff]
    intro h
    have hended : AtaEnded (fun i => if i < 11 then 0x40 else 0x01) 0 0 := by
      constructor <;> decide
    exact absurd (h 0 0 hended) (by decide)

end DevOs
