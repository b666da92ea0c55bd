import DevOs.Syscall.Entry

/-!
The way from SYSCALL to a handler.
-/

namespace DevOs

def syscallMax : Nat := 256

def Syscall.number : Syscall → Nat
  | .read => 0
  | .write => 1
  | .open => 2
  | .close => 3
  | .lseek => 8
  | .mmap => 9
  | .munmap => 11
  | .exit => 60
  | .getpid => 39
  | .yield => 24
  | .nanosleep => 35
  | .mkdir => 83
  | .gettime => 228

/-- The stores of `syscall_init`, where `words i` is the word at `syscall_table + 8 * i` and
`addr` gives the address of a handler. -/
def syscallInitTable (addr : Syscall → Nat) (words : Nat → Nat) : Nat → Nat :=
  [.read, .write, .open, .close, .lseek, .mmap, .munmap, .exit, .getpid, .yield, .nanosleep,
    .mkdir, .gettime].foldl (fun words h => Function.update words (Syscall.number h) (addr h)) words

structure SyscallRegs where
  cpu : Cpu
  rdi : Nat
  rsi : Nat
  rdx : Nat

/-- Where `syscall_entry` goes: into a function, with the registers that hold its arguments, or
back to ring 3, with a result. -/
inductive Transfer where
  | call (target : Nat) (args : List Nat)
  | sysret (rax : Nat)
  deriving DecidableEq, Repr

/-- `syscall_entry` up to the call, or to SYSRET if there is none. -/
def syscallTransfer (words : Nat → Nat) (syscallKernelRsp : Nat) (r : SyscallRegs) : Transfer :=
  let c := syscallEntry syscallKernelRsp r.cpu
  if 512 ≤ c.rax then .sysret (syscallDone { c with rax := enosys }).rax
  else
    let c := { c with r11 := words c.rax }
    if c.r11 = 0 then .sysret (syscallDone { c with rax := enosys }).rax
    else
      let c := { c with rcx := c.r10 }
      .call c.r11 [r.rdi, r.rsi, r.rdx, c.rcx, c.r8, c.r9]

/-- **What SYSCALL has to do**: call the handler that `syscall_init` has entered for the
number, with the six arguments of the caller, or answer `-ENOSYS`. -/
def DispatchRight (addr : Syscall → Nat) (r : SyscallRegs) (t : Transfer) : Prop :=
  match syscallTable r.cpu.rax with
  | some h => t = .call (addr h) [r.rdi, r.rsi, r.rdx, r.cpu.r10, r.cpu.r8, r.cpu.r9]
  | none => t = .sysret enosys

variable {addr : Syscall → Nat} {words : Nat → Nat} {i : Nat}

theorem syscallInitTable_apply (addr : Syscall → Nat) (words : Nat → Nat) (i : Nat) :
    syscallInitTable addr words i = (syscallTable i).elim (words i) addr := by
  unfold syscallTable
  split
  all_goals try rfl
  simp_all [syscallInitTable, Syscall.number]

theorem lt_syscallMax_of_syscallTable {h : Syscall} (hi : syscallTable i = some h) :
    i < syscallMax := by
  unfold syscallTable at hi
  split at hi
  all_goals first | decide | cases hi

theorem syscallEntry_regs (rsp : Nat) (c : Cpu) :
    (syscallEntry rsp c).rax = c.rax ∧ (syscallEntry rsp c).r10 = c.r10 ∧
      (syscallEntry rsp c).r8 = c.r8 ∧ (syscallEntry rsp c).r9 = c.r9 := by
  simp [syscallEntry, Cpu.push]

theorem syscallDone_rax (c : Cpu) : (syscallDone c).rax = c.rax := by
  simp [syscallDone, Cpu.drop]

theorem syscallTransfer_eq (words : Nat → Nat) (rsp : Nat) (r : SyscallRegs) :
    syscallTransfer words rsp r = if 512 ≤ r.cpu.rax ∨ words r.cpu.rax = 0 then .sysret enosys
      else .call (words r.cpu.rax) [r.rdi, r.rsi, r.rdx, r.cpu.r10, r.cpu.r8, r.cpu.r9] := by
  obtain ⟨hrax, hr10, hr8, hr9⟩ := syscallEntry_regs rsp r.cpu
  unfold syscallTransfer
  simp only [syscallDone_rax, hrax, hr10, hr8, hr9]
  by_cases hbig : 512 ≤ r.cpu.rax
  · rw [if_pos hbig, if_pos (.inl hbig)]
  · by_cases hword : words r.cpu.rax = 0
    · rw [if_neg hbig, if_pos hword, if_pos (.inr hword)]
    · rw [if_neg hbig, if_neg hword, if_neg fun h => h.elim hbig hword]

/-- **A system call is dispatched right** exactly if its number is inside the table, or not
below 512, or the word that lies there behind the table is zero. -/
theorem dispatch_iff (haddr : ∀ h, addr h ≠ 0) (hzero : ∀ i < syscallMax, words i = 0)
    (rsp : Nat) (r : SyscallRegs) :
    DispatchRight addr r (syscallTransfer (syscallInitTable addr words) rsp r) ↔
      r.cpu.rax < syscallMax ∨ 512 ≤ r.cpu.rax ∨ words r.cpu.rax = 0 := by
  have hload := syscallInitTable_apply addr words r.cpu.rax
  unfold DispatchRight
  rw [syscallTransfer_eq]
  cases htable : syscallTable r.cpu.rax with
  | some h =>
    have hlt := lt_syscallMax_of_syscallTable htable
    have hsmall : r.cpu.rax < 512 := hlt.trans (by decide)
    rw [htable, Option.elim_some] at hload
    rw [hload]
    refine iff_of_true ?_ (.inl hlt)
    exact if_neg fun hno => hno.elim (Nat.not_le_of_lt hsmall) (haddr h)
  | none =>
    -- no handler: whatever the word is, it must not be called
    rw [htable, Option.elim_none] at hload
    rw [hload]
    by_cases hinvalid : 512 ≤ r.cpu.rax ∨ words r.cpu.rax = 0
    · rw [if_pos hinvalid]
      exact iff_of_true rfl (.inr hinvalid)
    · rw [if_neg hinvalid]
      refine iff_of_false Transfer.noConfusion ?_
      rintro (hlt | hother)
      · exact hinvalid (.inr (hzero _ hlt))
      · exact hinvalid hother

def exampleAddr (h : Syscall) : Nat := 0xFFFFFFFF80100000 + 16 * h.number

def exampleRegs (rax : Nat) : SyscallRegs :=
  ⟨⟨rax, 0x400000, 5, 6, 4, 0x202, 0x7000, fun _ => 0, 0⟩, 1, 2, 3⟩

theorem dispatch_write :
    DispatchRight exampleAddr (exampleRegs 1) (syscallTransfer
      (syscallInitTable exampleAddr fun i => if i < syscallMax then 0 else 0xBAD) 0x9000
      (exampleRegs 1)) := by
  refine (dispatch_iff (fun h => ?_) (fun i hi => if_pos hi) _ _).mpr (.inl (by decide))
  exact Nat.ne_of_gt (Nat.add_pos_left (by decide) _)

theorem dispatch_behind_table :
    syscallTransfer (syscallInitTable exampleAddr fun i => if i < syscallMax then 0 else 0xBAD)
        0x9000 (exampleRegs 256) = .call 0xBAD [1, 2, 3, 4, 5, 6] ∧
      ¬ DispatchRight exampleAddr (exampleRegs 256) (.call 0xBAD [1, 2, 3, 4, 5, 6]) :=
  ⟨by decide +kernel, Transfer.noConfusion⟩

end DevOs
