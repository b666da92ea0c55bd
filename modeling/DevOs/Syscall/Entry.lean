import DevOs.Lib.Run
import DevOs.Sched.Switch

/-!
`syscall_entry` of `kernel/arch/x86_64/syscall_entry.asm`, instruction by
instruction, and the interleavings of system calls that the scheduler makes.
-/

namespace DevOs

open Function

/-- What `syscall_entry` works on: the registers it names, the stack memory
(one word per address that is a multiple of 8) and `syscall_user_rsp`. -/
structure Cpu where
  rax : Nat
  rcx : Nat
  r8 : Nat
  r9 : Nat
  r10 : Nat
  r11 : Nat
  rsp : Nat
  stack : Nat → Nat
  syscallUserRsp : Nat

namespace Cpu

def push (c : Cpu) (v : Nat) : Cpu :=
  { c with rsp := c.rsp - 8, stack := update c.stack (c.rsp - 8) v }

def top (c : Cpu) : Nat := c.stack c.rsp

def drop (c : Cpu) : Cpu := { c with rsp := c.rsp + 8 }

end Cpu

def syscallEntry (syscallKernelRsp : Nat) (c : Cpu) : Cpu :=
  let c := { c with syscallUserRsp := c.rsp }
  let c := { c with rsp := syscallKernelRsp }
  let c := c.push c.rcx
  let c := c.push c.r11
  let c := c.push c.syscallUserRsp
  let c := c.push c.r10
  let c := c.push c.r9
  c.push c.r8

def syscallDone (c : Cpu) : Cpu :=
  let c := { c with r8 := c.top }.drop
  let c := { c with r9 := c.top }.drop
  let c := { c with r10 := c.top }.drop
  let c := { c with rcx := c.top }.drop
  let c := { c with r11 := c.top }.drop
  let c := { c with rcx := c.top }.drop
  { c with rsp := c.syscallUserRsp }

/-- The handlers that `syscall_init` enters into `syscall_table`. -/
inductive Syscall where
  | read | write | open | close | lseek | mmap | munmap
  | exit | getpid | yield | nanosleep | mkdir | gettime
  deriving DecidableEq, Repr

/-- `syscall_table`, by the numbers of `syscall.h`. -/
def syscallTable : Nat → Option Syscall
  | 0 => some .read
  | 1 => some .write
  | 2 => some .open
  | 3 => some .close
  | 8 => some .lseek
  | 9 => some .mmap
  | 11 => some .munmap
  | 24 => some .yield
  | 35 => some .nanosleep
  | 39 => some .getpid
  | 60 => some .exit
  | 83 => some .mkdir
  | 228 => some .gettime
  | _ => none

/-- The bounds check and the table lookup between the pushes and the call, where the words
behind the table are zero. -/
def syscallDispatch (rax : Nat) : Option Syscall :=
  if 512 ≤ rax then none else syscallTable rax

/-- `-38`, the answer when there is no handler. -/
def enosys : Nat := 2 ^ 64 - 38

structure UserContext where
  rsp : Nat
  rip : Nat
  rflags : Nat
  deriving DecidableEq, Repr

def Cpu.sysret (c : Cpu) : UserContext := ⟨c.rsp, c.rcx, c.r11⟩

def kstackSize : Nat := 16 * 1024

/-! ## Calls of several tasks -/

/-- A task between its SYSCALL and its SYSRET: what it had in ring 3 and the
handler that runs for it. -/
structure Call where
  user : UserContext
  handler : Option Syscall
  deriving DecidableEq, Repr

/-- The kernel as far as system calls can see it. `kernelRsp t` is the RSP of
a task in the kernel: the register while it runs, `cpu.rsp` of its record
while it does not. -/
structure SyscallState where
  sched : Sched
  stack : Nat → Nat
  syscallUserRsp : Nat
  kernelRsp : TaskId → Nat
  user : TaskId → Bool
  calls : TaskId → Option Call

namespace SyscallState

def current (s : SyscallState) : TaskId := s.sched.currentTask

/-- `t->kernel_stack`. -/
def stackTop (s : SyscallState) (t : TaskId) : Nat := (s.sched.tasks t).kernelStack

end SyscallState

inductive SyscallEvent where
  /-- `sched_create_user_task`, with the stack that `kmalloc` returned. -/
  | createUser (kernelStack : Nat)
  /-- A scheduler call by a handler, a kernel task or the timer interrupt. -/
  | sched (op : SchedOp)
  /-- A store of the running task to its kernel stack, below what it has
  pushed: the frames of C functions and of interrupts. -/
  | store (addr value : Nat)
  /-- SYSCALL in ring 3, with the number and the three scratch arguments. -/
  | syscall (user : UserContext) (rax r8 r9 r10 : Nat)
  /-- The handler of the running task is done and its call returns. -/
  | sysret
  deriving DecidableEq, Repr

/-- The kernel stack that ends at `top` lies apart from those of all tasks, as
the blocks of `kmalloc` do, and is as aligned as they are. -/
def FreshStack (s : SyscallState) (top : Nat) : Prop :=
  kstackSize ≤ top ∧ top % 16 = 0 ∧
    ∀ t < s.sched.nextPid, top + kstackSize ≤ s.stackTop t ∨ s.stackTop t + kstackSize ≤ top

def SyscallState.inUse (s : SyscallState) : Nat :=
  if (s.calls s.current).isSome then s.kernelRsp s.current else s.stackTop s.current

def SchedOp.newStack? : SchedOp → Option Nat
  | .create kernelStack => some kernelStack
  | _ => none

def SyscallEvent.Allowed (s : SyscallState) : SyscallEvent → Prop
  | .createUser kernelStack => FreshStack s kernelStack
  | .sched op => (∀ kernelStack ∈ op.newStack?, FreshStack s kernelStack) ∧
      ∀ t ∈ op.target?, t < s.sched.nextPid
  | .store addr _ => addr % 8 = 0 ∧ s.stackTop s.current ≤ addr + kstackSize ∧ addr + 8 ≤ s.inUse
  | .syscall .. => s.user s.current = true ∧ s.calls s.current = none
  | .sysret => (s.calls s.current).isSome = true

instance (s : SyscallState) (top : Nat) : Decidable (FreshStack s top) :=
  inferInstanceAs (Decidable (_ ∧ _ ∧ _))

instance (s : SyscallState) : (e : SyscallEvent) → Decidable (e.Allowed s)
  | .createUser kernelStack => inferInstanceAs (Decidable (FreshStack s kernelStack))
  | .sched op => inferInstanceAs
      (Decidable ((∀ k ∈ op.newStack?, FreshStack s k) ∧ ∀ t ∈ op.target?, t < s.sched.nextPid))
  | .store .. => inferInstanceAs (Decidable (_ ∧ _ ∧ _))
  | .syscall .. => inferInstanceAs (Decidable (_ ∧ _))
  | .sysret => inferInstanceAs (Decidable (_ = true))

/-- The CPU at the first instruction of `syscall_entry`. -/
def atEntry (s : SyscallState) (u : UserContext) (rax r8 r9 r10 : Nat) : Cpu where
  rax := rax
  rcx := u.rip
  r8 := r8
  r9 := r9
  r10 := r10
  r11 := u.rflags
  rsp := u.rsp
  stack := s.stack
  syscallUserRsp := s.syscallUserRsp

/-- The CPU at `.done` in the call of the running task: calls are balanced, so
RSP is where the pushes left it; the scratch registers hold anything. -/
structure AtDone (s : SyscallState) (c : Cpu) : Prop where
  rsp : c.rsp = s.kernelRsp s.current
  stack : c.stack = s.stack
  slot : c.syscallUserRsp = s.syscallUserRsp
  rax : ∀ k ∈ s.calls s.current, k.handler = none → c.rax = enosys

def syscallStep (s : SyscallState) : SyscallEvent → Option SyscallState
  | .createUser kernelStack => some
      { s with
        sched := schedCreateTask s.sched kernelStack
        user := update s.user s.sched.nextPid true }
  | .sched op => (schedStep s.sched op).map fun sched => { s with sched := sched }
  | .store addr value => some { s with stack := update s.stack addr value }
  | .syscall u rax r8 r9 r10 =>
    let c := syscallEntry s.sched.syscallKernelRsp (atEntry s u rax r8 r9 r10)
    some
      { s with
        stack := c.stack
        syscallUserRsp := c.syscallUserRsp
        kernelRsp := update s.kernelRsp s.current c.rsp
        calls := update s.calls s.current (some ⟨u, syscallDispatch c.rax⟩) }
  | .sysret => some { s with calls := update s.calls s.current none }

def syscallRun (s : SyscallState) (e : SyscallEvent) : Option SyscallState :=
  if e.Allowed s then syscallStep s e else none

/-- The kernel after `sched_init`, before the first user task. -/
def syscallInit (bootStack idleStack : Nat) (stack : Nat → Nat) : SyscallState where
  sched := schedInit bootStack idleStack
  stack := stack
  syscallUserRsp := 0
  kernelRsp _ := 0
  user _ := false
  calls _ := none

def SyscallEvent.rsp? : SyscallEvent → Option Nat
  | .syscall u .. => some u.rsp
  | _ => none

def lastSyscallRsp (es : List SyscallEvent) : Option Nat := (es.filterMap (·.rsp?)).getLast?

section

variable {top : Nat} (c : Cpu)

theorem syscallEntry_rip (h : kstackSize ≤ top) : (syscallEntry top c).stack (top - 8) = c.rcx := by
  unfold kstackSize at h
  simp only [syscallEntry, Cpu.push]
  repeat rw [update_of_ne (by omega)]
  exact update_self ..

theorem syscallEntry_rflags (h : kstackSize ≤ top) :
    (syscallEntry top c).stack (top - 16) = c.r11 := by
  unfold kstackSize at h
  simp only [syscallEntry, Cpu.push]
  repeat rw [update_of_ne (by omega)]
  exact update_self ..

theorem syscallEntry_other {a : Nat} (h : a + 48 < top ∨ top ≤ a) (hk : kstackSize ≤ top) :
    (syscallEntry top c).stack a = c.stack a := by
  unfold kstackSize at hk
  simp only [syscallEntry, Cpu.push]
  repeat rw [update_of_ne (by omega)]

@[simp] theorem syscallEntry_rsp : (syscallEntry top c).rsp = top - 48 := by
  simp only [syscallEntry, Cpu.push]
  omega

theorem sysret_syscallDone :
    (syscallDone c).sysret = ⟨c.syscallUserRsp, c.stack (c.rsp + 40), c.stack (c.rsp + 32)⟩ := rfl

end

def Apart (top top' : Nat) : Prop := top + kstackSize ≤ top' ∨ top' + kstackSize ≤ top

theorem Apart.symm {top top' : Nat} (h : Apart top top') : Apart top' top := Or.symm h

/-! ## The saved contexts -/

/-- What holds after the events `es`: every pending call finds the RIP and the
RFLAGS it came with on the stack of its task, and the variable holds the RSP
of the latest SYSCALL. -/
structure CallsInv (es : List SyscallEvent) (s : SyscallState) : Prop where
  pointers : Known s.sched
  known : ∀ t, s.user t = true → t < s.sched.nextPid
  room : ∀ t, s.user t = true → kstackSize ≤ s.stackTop t
  apart : ∀ t u, s.user t = true → u < s.sched.nextPid → u ≠ t →
    Apart (s.stackTop t) (s.stackTop u)
  running : s.user s.current = true → s.sched.syscallKernelRsp = s.stackTop s.current
  slot : ∀ r, lastSyscallRsp es = some r → s.syscallUserRsp = r
  caller : ∀ t k, s.calls t = some k → s.user t = true ∧ (lastSyscallRsp es).isSome = true
  frame : ∀ t k, s.calls t = some k → s.kernelRsp t = s.stackTop t - 48 ∧
    s.stack (s.stackTop t - 8) = k.user.rip ∧ s.stack (s.stackTop t - 16) = k.user.rflags

theorem lastSyscallRsp_concat (es : List SyscallEvent) (e : SyscallEvent) :
    lastSyscallRsp (es ++ [e]) = e.rsp?.or (lastSyscallRsp es) := by
  unfold lastSyscallRsp
  rw [List.filterMap_append, List.getLast?_append]
  cases h : e.rsp? <;> simp [h]

theorem callsInv_init (bootStack idleStack : Nat) (stack : Nat → Nat) :
    CallsInv [] (syscallInit bootStack idleStack stack) := by
  constructor
  · exact known_schedInit bootStack idleStack
  all_goals simp [syscallInit, lastSyscallRsp]

variable {es : List SyscallEvent} {s : SyscallState} {sched : Sched} {e : SyscallEvent}
  {s' : SyscallState}

section

variable (h : CallsInv es s)
include h

theorem CallsInv.create (he : e.rsp? = none)
    {kernelStack : Nat} (hf : FreshStack s kernelStack) (isUser : Bool) : CallsInv (es ++ [e])
      { s with
        sched := schedCreateTask s.sched kernelStack
        user := if isUser then update s.user s.sched.nextPid true else s.user } := by
  obtain ⟨hroom, -, hapart⟩ := hf
  -- an old user task keeps its stack; the new task has the new one
  have hold : ∀ t, t ≠ s.sched.nextPid →
      ((schedCreateTask s.sched kernelStack).tasks t).kernelStack = s.stackTop t := fun t ht => by
    simp [schedCreateTask, Sched.modify, SyscallState.stackTop, ht]
  have hnew : ((schedCreateTask s.sched kernelStack).tasks s.sched.nextPid).kernelStack =
      kernelStack := by
    simp [schedCreateTask, Sched.modify]
  have huser : ∀ t, (if isUser then update s.user s.sched.nextPid true else s.user) t =
      true → t = s.sched.nextPid ∨ (t ≠ s.sched.nextPid ∧ s.user t = true) := fun t ht => by
    by_cases hn : t = s.sched.nextPid
    · exact .inl hn
    · refine .inr ⟨hn, ?_⟩
      cases isUser <;> simpa [hn] using ht
  have hne : ∀ t, s.user t = true → t ≠ s.sched.nextPid := fun t ht => (h.known t ht).ne
  have hlast : lastSyscallRsp (es ++ [e]) = lastSyscallRsp es := by
    simp [lastSyscallRsp_concat, he]
  constructor
  · exact known_schedCreateTask h.pointers kernelStack
  · intro t ht
    rcases huser t ht with rfl | ⟨-, ht⟩
    · exact Nat.lt_succ_self _
    · exact Nat.lt_succ_of_lt (h.known t ht)
  · intro t ht
    change kstackSize ≤ ((schedCreateTask s.sched kernelStack).tasks t).kernelStack
    rcases huser t ht with rfl | ⟨hn, ht⟩
    · rw [hnew]
      exact hroom
    · rw [hold t hn]
      exact h.room t ht
  · intro t u ht hu hut
    change Apart ((schedCreateTask s.sched kernelStack).tasks t).kernelStack
      ((schedCreateTask s.sched kernelStack).tasks u).kernelStack
    change u < s.sched.nextPid + 1 at hu
    rcases huser t ht with rfl | ⟨hn, ht⟩
    · rw [hnew, hold u hut]
      exact hapart u (by omega)
    · rw [hold t hn]
      by_cases hun : u = s.sched.nextPid
      · rw [hun, hnew]
        exact Apart.symm (hapart t (h.known t ht))
      · rw [hold u hun]
        exact h.apart t u ht (by omega) hut
  · intro ht
    have hc : s.current ≠ s.sched.nextPid := h.pointers.current.ne
    rcases huser s.current ht with hn | ⟨-, ht⟩
    · exact absurd hn hc
    · exact (h.running ht).trans (hold s.current hc).symm
  · rw [hlast]
    exact h.slot
  · intro t k hk
    obtain ⟨ht, hl⟩ := h.caller t k hk
    rw [hlast]
    refine ⟨?_, hl⟩
    cases isUser <;> simp [ht, hne t ht]
  · intro t k hk
    have htop := hold t (hne t (h.caller t k hk).1)
    simp only [SyscallState.stackTop, htop]
    exact h.frame t k hk

theorem CallsInv.handover (he : e.rsp? = none)
    (hs : Handover s.sched sched) : CallsInv (es ++ [e]) { s with sched := sched } := by
  have htop : ∀ t, SyscallState.stackTop { s with sched := sched } t = s.stackTop t :=
    hs.kernelStack
  have hlast : lastSyscallRsp (es ++ [e]) = lastSyscallRsp es := by
    simp [lastSyscallRsp_concat, he]
  constructor
  · exact hs.known
  · simp only [hs.nextPid]
    exact h.known
  · simp only [htop]
    exact h.room
  · simp only [htop, hs.nextPid]
    exact h.apart
  · intro hu
    rcases hs.stack with ⟨hc, hk⟩ | hk
    · have hcur : SyscallState.current { s with sched := sched } = s.current := hc
      rw [hcur] at hu ⊢
      rw [htop]
      exact hk.trans (h.running hu)
    · exact hk
  · rw [hlast]
    exact h.slot
  · rw [hlast]
    exact h.caller
  · simp only [htop]
    exact h.frame

theorem CallsInv.inUse_of_call {k : Call} (hk : s.calls s.current = some k) :
    s.inUse = s.stackTop s.current - 48 := by
  rw [SyscallState.inUse, hk]
  exact (h.frame _ k hk).1

theorem CallsInv.inUse_le : s.inUse ≤ s.stackTop s.current := by
  cases hk : s.calls s.current with
  | none => simp [SyscallState.inUse, hk]
  | some k =>
    rw [h.inUse_of_call hk]
    omega

theorem CallsInv.store {addr value : Nat}
    (hlow : s.stackTop s.current ≤ addr + kstackSize) (hhigh : addr + 8 ≤ s.inUse) :
    CallsInv (es ++ [.store addr value]) { s with stack := update s.stack addr value } := by
  have hlast : lastSyscallRsp (es ++ [.store addr value]) = lastSyscallRsp es := by
    simp [lastSyscallRsp_concat, SyscallEvent.rsp?]
  -- the frame of a pending call is above the store, or on another stack
  have hne : ∀ t k, s.calls t = some k →
      addr ≠ s.stackTop t - 8 ∧ addr ≠ s.stackTop t - 16 := fun t k hk => by
    have hu := (h.caller t k hk).1
    have hroom := h.room t hu
    unfold kstackSize at hroom hlow
    by_cases hc : s.current = t
    · subst hc
      rw [h.inUse_of_call hk] at hhigh
      omega
    · have hle := h.inUse_le
      have hapart := h.apart t s.current hu h.pointers.current hc
      unfold Apart kstackSize at hapart
      omega
  refine ⟨h.pointers, h.known, h.room, h.apart, h.running, hlast ▸ h.slot, hlast ▸ h.caller, ?_⟩
  intro t k hk
  obtain ⟨hrsp, hrip, hrflags⟩ := h.frame t k hk
  obtain ⟨hne1, hne2⟩ := hne t k hk
  refine ⟨hrsp, ?_, ?_⟩
  · exact (update_of_ne hne1.symm ..).trans hrip
  · exact (update_of_ne hne2.symm ..).trans hrflags

theorem CallsInv.syscall {u : UserContext} {rax r8 r9 r10 : Nat} (hu : s.user s.current = true)
    (hs : syscallStep s (.syscall u rax r8 r9 r10) = some s') :
    CallsInv (es ++ [.syscall u rax r8 r9 r10]) s' := by
  have hlast : lastSyscallRsp (es ++ [.syscall u rax r8 r9 r10]) = some u.rsp := by
    simp [lastSyscallRsp_concat, SyscallEvent.rsp?]
  have hroom := h.room s.current hu
  simp only [syscallStep, h.running hu, Option.some.injEq] at hs
  subst hs
  refine ⟨h.pointers, h.known, h.room, h.apart, h.running, ?_, ?_, ?_⟩
  · intro r hr
    rw [hlast] at hr
    exact Option.some.inj hr
  · intro t k hk
    refine ⟨?_, by rw [hlast]; rfl⟩
    by_cases hc : t = s.current
    · exact hc ▸ hu
    · exact (h.caller t k ((update_of_ne hc ..).symm.trans hk)).1
  · intro t k hk
    change update s.calls s.current (some ⟨u, _⟩) t = some k at hk
    change update s.kernelRsp s.current _ t = s.stackTop t - 48 ∧
      (syscallEntry _ (atEntry s u rax r8 r9 r10)).stack (s.stackTop t - 8) = _ ∧
      (syscallEntry _ (atEntry s u rax r8 r9 r10)).stack (s.stackTop t - 16) = _
    by_cases hc : t = s.current
    · subst hc
      rw [update_self] at hk
      obtain rfl := Option.some.inj hk
      rw [update_self, syscallEntry_rsp]
      exact ⟨rfl, syscallEntry_rip _ hroom, syscallEntry_rflags _ hroom⟩
    · -- the frame of another task is on another stack
      rw [update_of_ne hc] at hk ⊢
      obtain ⟨hrsp, hrip, hrflags⟩ := h.frame t k hk
      have hut := (h.caller t k hk).1
      have hroom' := h.room t hut
      have hapart := h.apart t s.current hut h.pointers.current (Ne.symm hc)
      unfold Apart at hapart
      unfold kstackSize at hapart hroom'
      refine ⟨hrsp, ?_, ?_⟩
      · exact (syscallEntry_other _ (by omega) hroom).trans hrip
      · exact (syscallEntry_other _ (by omega) hroom).trans hrflags

theorem CallsInv.sysret :
    CallsInv (es ++ [.sysret]) { s with calls := update s.calls s.current none } := by
  have hlast : lastSyscallRsp (es ++ [.sysret]) = lastSyscallRsp es := by
    simp [lastSyscallRsp_concat, SyscallEvent.rsp?]
  have hold : ∀ t k, update s.calls s.current none t = some k → s.calls t = some k :=
    fun t k hk => by
      by_cases hc : t = s.current
      · simp [hc] at hk
      · simpa [hc] using hk
  refine ⟨h.pointers, h.known, h.room, h.apart, h.running, hlast ▸ h.slot, ?_, ?_⟩
  · rw [hlast]
    exact fun t k hk => h.caller t k (hold t k hk)
  · exact fun t k hk => h.frame t k (hold t k hk)

theorem callsInv_step (hs : syscallRun s e = some s') : CallsInv (es ++ [e]) s' := by
  unfold syscallRun at hs
  split at hs
  case isFalse => cases hs
  rename_i hok
  cases e with
  | createUser kernelStack =>
    cases hs
    exact h.create rfl hok true
  | sched op =>
    obtain ⟨sched, hop, rfl⟩ := Option.map_eq_some_iff.1 hs
    obtain ⟨hfresh, hknown⟩ := hok
    by_cases hc : ∃ kernelStack, op = .create kernelStack
    · obtain ⟨kernelStack, rfl⟩ := hc
      cases hop
      exact h.create rfl (hfresh kernelStack rfl) false
    · exact h.handover rfl (handover_schedStep h.pointers (fun k hk => hc ⟨k, hk⟩) hknown hop)
  | store addr value =>
    cases hs
    exact h.store hok.2.1 hok.2.2
  | syscall u rax r8 r9 r10 => exact h.syscall hok.1 hs
  | sysret =>
    cases hs
    exact h.sysret

end

/-! ## Whole runs -/

theorem callsInv_run {bootStack idleStack : Nat} {stack : Nat → Nat} {es : List SyscallEvent}
    {s : SyscallState}
    (hrun : es.foldlM syscallRun (syscallInit bootStack idleStack stack) = some s) :
    CallsInv es s :=
  Machine.trace_invariant (callsInv_init bootStack idleStack stack)
    (fun _ _ _ _ h hs => callsInv_step h hs) hrun

/-- **When a system call returns to where it came from.** In every
interleaving of system calls and switches, the task that returns has its own
RIP and RFLAGS again; it has its own RSP again exactly if the latest SYSCALL
of the run, by whichever task, was made with that RSP. -/
theorem sysret_eq_iff {bootStack idleStack : Nat} {stack : Nat → Nat} {es : List SyscallEvent}
    {s : SyscallState} {k : Call} {c : Cpu}
    (hrun : es.foldlM syscallRun (syscallInit bootStack idleStack stack) = some s)
    (hk : s.calls s.current = some k) (hc : AtDone s c) :
    (syscallDone c).sysret.rip = k.user.rip ∧ (syscallDone c).sysret.rflags = k.user.rflags ∧
      ((syscallDone c).sysret = k.user ↔ lastSyscallRsp es = some k.user.rsp) := by
  have h := callsInv_run hrun
  obtain ⟨hrsp, hrip, hrflags⟩ := h.frame s.current k hk
  obtain ⟨huser, hsome⟩ := h.caller s.current k hk
  obtain ⟨r, hr⟩ := Option.isSome_iff_exists.1 hsome
  have hroom := h.room s.current huser
  unfold kstackSize at hroom
  have hret : (syscallDone c).sysret = ⟨r, k.user.rip, k.user.rflags⟩ := by
    have h40 : s.kernelRsp s.current + 40 = s.stackTop s.current - 8 := by omega
    have h32 : s.kernelRsp s.current + 32 = s.stackTop s.current - 16 := by omega
    rw [sysret_syscallDone, hc.slot, hc.stack, hc.rsp, h.slot r hr, h40, h32, hrip, hrflags]
  rw [hret, hr]
  refine ⟨rfl, rfl, ?_⟩
  constructor
  · intro heq
    rw [← heq]
  · intro heq
    obtain rfl := Option.some.inj heq
    rfl

/-- The CPU at `.done` with scratch registers that hold zero. -/
def leaving (s : SyscallState) : Cpu where
  rax := if ((s.calls s.current).bind Call.handler).isSome then 0 else enosys
  rcx := 0
  r8 := 0
  r9 := 0
  r10 := 0
  r11 := 0
  rsp := s.kernelRsp s.current
  stack := s.stack
  syscallUserRsp := s.syscallUserRsp

theorem atDone_leaving (s : SyscallState) : AtDone s (leaving s) where
  rsp := rfl
  stack := rfl
  slot := rfl
  rax k hk hn := by
    have hk : s.calls s.current = some k := hk
    simp [leaving, hk, hn]

/-- User tasks 2 and 3 are created; the boot task yields to the idle task, and
when that has used up its slice task 2 runs. -/
def twoTasks : List SyscallEvent :=
  [.createUser 0x100000, .createUser 0x200000, .sched (.enqueue 2), .sched (.enqueue 3),
    .sched .yield] ++ List.replicate 20 (.sched .tick)

/-- Task 2 calls `sys_yield` with RSP `0x7000`; task 3 calls `sys_getpid` with
RSP `0x9000`. -/
def yieldThenGetpid : List SyscallEvent :=
  twoTasks ++ [.syscall ⟨0x7000, 0x400000, 0x202⟩ 24 0 0 0, .sched .yield,
    .syscall ⟨0x9000, 0x500000, 0x202⟩ 39 0 0 0]

theorem sysret_eq_getpid :
    ∃ s, yieldThenGetpid.foldlM syscallRun (syscallInit 0x400000 0x300000 fun _ => 0) = some s ∧
      s.current = 3 ∧ (syscallDone (leaving s)).sysret = ⟨0x9000, 0x500000, 0x202⟩ := by
  have hsome : (yieldThenGetpid.foldlM syscallRun
      (syscallInit 0x400000 0x300000 fun _ => 0)).isSome = true := by decide +kernel
  obtain ⟨s, hs⟩ := Option.isSome_iff_exists.1 hsome
  have hcur : (yieldThenGetpid.foldlM syscallRun
      (syscallInit 0x400000 0x300000 fun _ => 0)).map
        (fun s => (s.current, s.calls s.current)) =
      some (3, some ⟨⟨0x9000, 0x500000, 0x202⟩, some .getpid⟩) := by decide +kernel
  rw [hs] at hcur
  obtain ⟨hcur, hcall⟩ := Prod.mk.inj (Option.some.inj hcur)
  exact ⟨s, hs, hcur,
    (sysret_eq_iff hs hcall (atDone_leaving s)).2.2.2 (by decide)⟩

def backToFirst : List SyscallEvent :=
  yieldThenGetpid ++ [.sysret, .syscall ⟨0x9000, 0x500002, 0x202⟩ 24 0 0 0, .sched .yield,
    .sched .yield]

theorem sysret_wrong_after_overlap :
    (backToFirst.foldlM syscallRun (syscallInit 0x400000 0x300000 fun _ => 0)).map
      (fun s => (s.current, (s.calls s.current).map Call.user, (syscallDone (leaving s)).sysret)) =
    some (2, some ⟨0x7000, 0x400000, 0x202⟩, ⟨0x9000, 0x400000, 0x202⟩) := by
  decide +kernel

end DevOs
