import DevOs.Lib.ByteMem
import Mathlib.Data.BitVec

/-!
`sched_switch` of `kernel/arch/x86_64/sched_switch.asm`, instruction by
instruction, over a memory of bytes that holds the records of the tasks.
-/

namespace DevOs

inductive TaskField where
  | pid | ppid | name | cpu | kernelStack | userStack | ripEntry | cr3 | state | priority
  | timeSlice | totalTicks | wakeTick | mmapCursor | aiWeight | tensorMem | numaNode
  | next | prev | fds
  deriving DecidableEq, Repr

def taskFields : List (TaskField × Nat × Nat) :=
  [(.pid, 4, 4), (.ppid, 4, 4), (.name, 32, 1), (.cpu, 7 * 8, 8), (.kernelStack, 8, 8),
    (.userStack, 8, 8), (.ripEntry, 8, 8), (.cr3, 8, 8), (.state, 4, 4), (.priority, 4, 4),
    (.timeSlice, 8, 8), (.totalTicks, 8, 8), (.wakeTick, 8, 8), (.mmapCursor, 8, 8),
    (.aiWeight, 8, 8), (.tensorMem, 8, 8), (.numaNode, 4, 4), (.next, 8, 8), (.prev, 8, 8),
    (.fds, 64 * 8, 8)]

/-- Where a field of this alignment goes, after `n` bytes. -/
def padTo (n align : Nat) : Nat := (n + align - 1) / align * align

/-- `offsetof`: each field at the next multiple of its alignment. -/
def offsetIn (f : TaskField) : Nat → List (TaskField × Nat × Nat) → Nat
  | n, [] => n
  | n, (g, size, align) :: fields =>
    if g = f then padTo n align else offsetIn f (padTo n align + size) fields

/-- `offsetof(task_t, f)`. -/
def offsetOf (f : TaskField) : Nat := offsetIn f 0 taskFields

/-- `sizeof(task_t)`; `fds` comes last and ends on a multiple of 8. -/
def sizeofTask : Nat := offsetOf .fds + 64 * 8

inductive SavedReg where
  | r15 | r14 | r13 | r12 | rbx | rbp | rsp
  deriving DecidableEq, Repr

def SavedReg.offset : SavedReg → Nat
  | .r15 => 0
  | .r14 => 8
  | .r13 => 16
  | .r12 => 24
  | .rbx => 32
  | .rbp => 40
  | .rsp => 48

/-- The records of a set of tasks in memory: none reaches over the end, and no
two share a byte. -/
structure TaskLayout (ι : Type*) where
  base : ι → Nat
  fits : ∀ t, base t + sizeofTask ≤ 2 ^ 64
  apart : ∀ t u, t ≠ u → base t + sizeofTask ≤ base u ∨ base u + sizeofTask ≤ base t

section

variable {ι : Type*} (L : TaskLayout ι)

/-- `t->cpu`. -/
def TaskLayout.cpu (m : ByteMem.Mem) (t : ι) (r : SavedReg) : BitVec 64 :=
  BitVec.ofNat 64 (ByteMem.load 8 m (L.base t + offsetOf .cpu + r.offset))

/-- `t->cr3`. -/
def TaskLayout.cr3 (m : ByteMem.Mem) (t : ι) : BitVec 64 :=
  BitVec.ofNat 64 (ByteMem.load 8 m (L.base t + offsetOf .cr3))

end

inductive Reg where
  | rax | rcx | rbx | rbp | rsp | rdi | rsi | r12 | r13 | r14 | r15
  deriving DecidableEq, Repr

def SavedReg.reg : SavedReg → Reg
  | .r15 => .r15
  | .r14 => .r14
  | .r13 => .r13
  | .r12 => .r12
  | .rbx => .rbx
  | .rbp => .rbp
  | .rsp => .rsp

structure SwitchCpu where
  reg : Reg → BitVec 64
  rip : BitVec 64
  cr3 : BitVec 64
  mem : ByteMem.Mem

namespace SwitchCpu

def set (c : SwitchCpu) (r : Reg) (v : BitVec 64) : SwitchCpu :=
  { c with reg := Function.update c.reg r v }

/-- The address `[base + off]`. -/
def addr (c : SwitchCpu) (base : Reg) (off : Nat) : Nat := (c.reg base + BitVec.ofNat 64 off).toNat

def word (c : SwitchCpu) (a : Nat) : BitVec 64 := BitVec.ofNat 64 (ByteMem.load 8 c.mem a)

/-- `mov [base + off], src`. -/
def store (c : SwitchCpu) (base : Reg) (off : Nat) (src : Reg) : SwitchCpu :=
  { c with mem := ByteMem.store 8 c.mem (c.addr base off) (c.reg src).toNat }

/-- `mov dst, [base + off]`. -/
def load (c : SwitchCpu) (dst base : Reg) (off : Nat) : SwitchCpu :=
  c.set dst (c.word (c.addr base off))

def ret (c : SwitchCpu) : SwitchCpu :=
  { c.set .rsp (c.reg .rsp + 8) with rip := c.word (c.reg .rsp).toNat }

end SwitchCpu

/-- Save callee-saved regs into `from->cpu`. -/
def saveRegs (c : SwitchCpu) : SwitchCpu :=
  let c := c.store .rdi 40 .r15
  let c := c.store .rdi 48 .r14
  let c := c.store .rdi 56 .r13
  let c := c.store .rdi 64 .r12
  let c := c.store .rdi 72 .rbx
  let c := c.store .rdi 80 .rbp
  c.store .rdi 88 .rsp

def switchCr3 (c : SwitchCpu) : SwitchCpu :=
  let c := c.load .rax .rdi 120
  let c := c.load .rcx .rsi 120
  if c.reg .rax = c.reg .rcx then c else { c with cr3 := c.reg .rcx }

/-- Restore from `to->cpu`. -/
def restoreRegs (c : SwitchCpu) : SwitchCpu :=
  let c := c.load .r15 .rsi 40
  let c := c.load .r14 .rsi 48
  let c := c.load .r13 .rsi 56
  let c := c.load .r12 .rsi 64
  let c := c.load .rbx .rsi 72
  let c := c.load .rbp .rsi 80
  c.load .rsp .rsi 88

/-- `sched_switch`, from its first instruction to its `ret`. -/
def schedSwitch (c : SwitchCpu) : SwitchCpu := (restoreRegs (switchCr3 (saveRegs c))).ret

theorem offsetOf_cpu : offsetOf .cpu = 40 := rfl

theorem offsetOf_cr3 : offsetOf .cr3 = 120 := rfl

theorem sizeofTask_eq : sizeofTask = 720 := rfl

section

variable {c : SwitchCpu} {a b : Nat}

namespace SwitchCpu

@[simp] theorem mem_set (c : SwitchCpu) (r : Reg) (v : BitVec 64) : (c.set r v).mem = c.mem := rfl

@[simp] theorem cr3_set (c : SwitchCpu) (r : Reg) (v : BitVec 64) : (c.set r v).cr3 = c.cr3 := rfl

@[simp] theorem reg_set (c : SwitchCpu) (r q : Reg) (v : BitVec 64) :
    (c.set r v).reg q = if q = r then v else c.reg q := Function.update_apply _ _ _ _

@[simp] theorem reg_store (c : SwitchCpu) (base src : Reg) (off : Nat) :
    (c.store base off src).reg = c.reg := rfl

@[simp] theorem cr3_store (c : SwitchCpu) (base src : Reg) (off : Nat) :
    (c.store base off src).cr3 = c.cr3 := rfl

theorem mem_ret (c : SwitchCpu) : c.ret.mem = c.mem := rfl

theorem cr3_ret (c : SwitchCpu) : c.ret.cr3 = c.cr3 := rfl

theorem reg_ret (c : SwitchCpu) (q : Reg) :
    c.ret.reg q = if q = .rsp then c.reg .rsp + 8 else c.reg q := by
  rw [ret, ← reg_set]

theorem addr_eq {base : Reg} {off : Nat} (hb : c.reg base = BitVec.ofNat 64 b)
    (hlt : b + off < 2 ^ 64) : c.addr base off = b + off := by
  rw [addr, hb, ← BitVec.ofNat_add, BitVec.toNat_ofNat, Nat.mod_eq_of_lt hlt]

end SwitchCpu

theorem reg_saveRegs (c : SwitchCpu) : (saveRegs c).reg = c.reg := by
  simp only [saveRegs, SwitchCpu.reg_store]

theorem cr3_saveRegs (c : SwitchCpu) : (saveRegs c).cr3 = c.cr3 := by
  simp only [saveRegs, SwitchCpu.cr3_store]

section

variable (hb : c.reg .rdi = BitVec.ofNat 64 b)
include hb

theorem mem_saveRegs (hfit : b + sizeofTask ≤ 2 ^ 64) : (saveRegs c).mem =
      ByteMem.store 8 (ByteMem.store 8 (ByteMem.store 8 (ByteMem.store 8 (ByteMem.store 8
        (ByteMem.store 8 (ByteMem.store 8 c.mem (b + 40) (c.reg .r15).toNat)
          (b + 48) (c.reg .r14).toNat) (b + 56) (c.reg .r13).toNat) (b + 64) (c.reg .r12).toNat)
          (b + 72) (c.reg .rbx).toNat) (b + 80) (c.reg .rbp).toNat)
          (b + 88) (c.reg .rsp).toNat := by
  rw [sizeofTask_eq] at hfit
  have hstore : ∀ (c' : SwitchCpu) (off : Nat) (src : Reg), c'.reg = c.reg → off < 720 →
      (c'.store .rdi off src).mem = ByteMem.store 8 c'.mem (b + off) (c.reg src).toNat := by
    intro c' off src hsame hoff
    rw [SwitchCpu.store, SwitchCpu.addr_eq (by rw [hsame, hb]) (by omega), hsame]
  unfold saveRegs
  dsimp only
  repeat rw [hstore _ _ _ (by simp only [SwitchCpu.reg_store]) (by decide)]

theorem load_saveRegs (hfit : b + sizeofTask ≤ 2 ^ 64) (r : SavedReg) :
    ByteMem.load 8 (saveRegs c).mem (b + offsetOf .cpu + r.offset) = (c.reg r.reg).toNat := by
  have hlt : ∀ v : BitVec 64, v.toNat < 256 ^ 8 := fun v => v.isLt
  rw [mem_saveRegs hb hfit, offsetOf_cpu]
  cases r <;>
  · simp only [SavedReg.offset, SavedReg.reg, Nat.add_assoc, Nat.reduceAdd]
    -- the later stores go elsewhere
    repeat rw [ByteMem.load_store_of_disjoint (by omega)]
    exact ByteMem.load_store_of_lt (hlt _)

theorem load_saveRegs_of_outside (hfit : b + sizeofTask ≤ 2 ^ 64)
    (ha : a + 8 ≤ b + 40 ∨ b + 96 ≤ a) :
    ByteMem.load 8 (saveRegs c).mem a = ByteMem.load 8 c.mem a := by
  rw [mem_saveRegs hb hfit]
  repeat rw [ByteMem.load_store_of_disjoint (by omega)]

end

theorem mem_switchCr3 (c : SwitchCpu) : (switchCr3 c).mem = c.mem := by
  unfold switchCr3
  dsimp only
  split <;> rfl

theorem reg_switchCr3 {r : Reg} (hax : r ≠ .rax) (hcx : r ≠ .rcx) :
    (switchCr3 c).reg r = c.reg r := by
  unfold switchCr3
  dsimp only
  split <;> simp [SwitchCpu.load, hax, hcx]

theorem cr3_switchCr3 (ha : c.reg .rdi = BitVec.ofNat 64 a) (hb : c.reg .rsi = BitVec.ofNat 64 b)
    (hfit : a + sizeofTask ≤ 2 ^ 64) (hfit' : b + sizeofTask ≤ 2 ^ 64) : (switchCr3 c).cr3 =
      if c.word (a + 120) = c.word (b + 120) then c.cr3 else c.word (b + 120) := by
  rw [sizeofTask_eq] at hfit hfit'
  have hfrom : c.addr .rdi 120 = a + 120 := SwitchCpu.addr_eq ha (by omega)
  have hto : (c.load .rax .rdi 120).addr .rsi 120 = b + 120 := SwitchCpu.addr_eq hb (by omega)
  have hax : ((c.load .rax .rdi 120).load .rcx .rsi 120).reg .rax = c.word (a + 120) := by
    simp [SwitchCpu.load, hfrom]
  have hcx : ((c.load .rax .rdi 120).load .rcx .rsi 120).reg .rcx = c.word (b + 120) := by
    rw [SwitchCpu.load, hto]
    simp [SwitchCpu.load, SwitchCpu.word]
  unfold switchCr3
  dsimp only
  rw [hax, hcx]
  split <;> rfl

theorem mem_restoreRegs (c : SwitchCpu) : (restoreRegs c).mem = c.mem := by
  simp only [restoreRegs, SwitchCpu.load, SwitchCpu.mem_set]

theorem cr3_restoreRegs (c : SwitchCpu) : (restoreRegs c).cr3 = c.cr3 := by
  simp only [restoreRegs, SwitchCpu.load, SwitchCpu.cr3_set]

theorem reg_restoreRegs (hb : c.reg .rsi = BitVec.ofNat 64 b) (hfit : b + sizeofTask ≤ 2 ^ 64)
    (r : SavedReg) : (restoreRegs c).reg r.reg = c.word (b + offsetOf .cpu + r.offset) := by
  rw [sizeofTask_eq] at hfit
  -- no load changes RSI
  have haddr : ∀ (c' : SwitchCpu) off, c'.reg .rsi = c.reg .rsi → off < 720 →
      c'.addr .rsi off = b + off :=
    fun c' off hsame hoff => SwitchCpu.addr_eq (hsame.trans hb) (by omega)
  unfold restoreRegs
  cases r <;>
  · simp only [SavedReg.reg, SavedReg.offset, SwitchCpu.load, SwitchCpu.reg_set, offsetOf_cpu,
      SwitchCpu.word, SwitchCpu.mem_set, reduceIte, reduceCtorEq, Nat.add_assoc]
    rw [haddr _ _ (by simp) (by decide)]

end

def aboveReturn (regs : SavedReg → BitVec 64) : SavedReg → BitVec 64 := fun r =>
  if r = .rsp then regs r + 8 else regs r

/-- The registers that the caller of `sched_switch` had at its `call`, which has
pushed the return address since. -/
def callerRegs (c : SwitchCpu) : SavedReg → BitVec 64 := aboveReturn fun r => c.reg r.reg

section

variable {ι : Type*} (L : TaskLayout ι)

/-- The first instruction of `sched_switch(prev, next)`. -/
def atSwitch (c : SwitchCpu) (prev next : ι) : SwitchCpu :=
  (c.set .rdi (BitVec.ofNat 64 (L.base prev))).set .rsi (BitVec.ofNat 64 (L.base next))

variable {L} {c : SwitchCpu} {t prev next : ι}

theorem rdi_atSwitch : (atSwitch L c prev next).reg .rdi = BitVec.ofNat 64 (L.base prev) := by
  simp [atSwitch]

theorem rsi_atSwitch : (atSwitch L c prev next).reg .rsi = BitVec.ofNat 64 (L.base next) := by
  simp [atSwitch]

theorem mem_atSwitch : (atSwitch L c prev next).mem = c.mem := rfl

theorem mem_schedSwitch (c : SwitchCpu) : (schedSwitch c).mem = (saveRegs c).mem := by
  rw [schedSwitch, SwitchCpu.mem_ret, mem_restoreRegs, mem_switchCr3]

theorem cpu_schedSwitch_self :
    L.cpu (schedSwitch (atSwitch L c prev next)).mem prev = fun r => c.reg r.reg := by
  funext r
  rw [mem_schedSwitch, TaskLayout.cpu, load_saveRegs rdi_atSwitch (L.fits prev),
    BitVec.ofNat_toNat, BitVec.setWidth_eq]
  cases r <;> simp [atSwitch, SavedReg.reg]

theorem cpu_schedSwitch_of_ne (h : t ≠ prev) :
    L.cpu (schedSwitch (atSwitch L c prev next)).mem t = L.cpu c.mem t := by
  have hsep := L.apart t prev h
  rw [sizeofTask_eq] at hsep
  funext r
  have hoff : r.offset + 8 ≤ 56 := by cases r <;> decide
  rw [mem_schedSwitch, TaskLayout.cpu, TaskLayout.cpu, offsetOf_cpu,
    load_saveRegs_of_outside rdi_atSwitch (L.fits prev) (by omega), mem_atSwitch]

theorem cr3Field_schedSwitch (t : ι) :
    L.cr3 (schedSwitch (atSwitch L c prev next)).mem t = L.cr3 c.mem t := by
  have houtside : L.base t + 120 + 8 ≤ L.base prev + 40 ∨ L.base prev + 96 ≤ L.base t + 120 := by
    by_cases hprev : t = prev
    · rw [hprev]
      omega
    · have hsep := L.apart t prev hprev
      rw [sizeofTask_eq] at hsep
      omega
  rw [mem_schedSwitch, TaskLayout.cr3, TaskLayout.cr3, offsetOf_cr3,
    load_saveRegs_of_outside rdi_atSwitch (L.fits prev) houtside, mem_atSwitch]

theorem reg_schedSwitch (r : SavedReg) : (schedSwitch (atSwitch L c prev next)).reg r.reg =
      aboveReturn (L.cpu (schedSwitch (atSwitch L c prev next)).mem next) r := by
  have hrsi : (switchCr3 (saveRegs (atSwitch L c prev next))).reg .rsi =
      BitVec.ofNat 64 (L.base next) := by
    rw [reg_switchCr3 (by decide) (by decide), reg_saveRegs, rsi_atSwitch]
  have hword : ∀ q : SavedReg,
      (restoreRegs (switchCr3 (saveRegs (atSwitch L c prev next)))).reg q.reg =
        L.cpu (saveRegs (atSwitch L c prev next)).mem next q := by
    intro q
    rw [reg_restoreRegs hrsi (L.fits next), SwitchCpu.word, mem_switchCr3, TaskLayout.cpu]
  have hrsp := hword .rsp
  have hr := hword r
  rw [mem_schedSwitch, schedSwitch, SwitchCpu.reg_ret, hr, show Reg.rsp = SavedReg.rsp.reg from rfl,
    hrsp]
  cases r <;> rfl

theorem cr3_schedSwitch (h : c.cr3 = L.cr3 c.mem prev) :
    (schedSwitch (atSwitch L c prev next)).cr3 = L.cr3 c.mem next := by
  have hword : ∀ t, (saveRegs (atSwitch L c prev next)).word (L.base t + 120) = L.cr3 c.mem t := by
    intro t
    rw [← @cr3Field_schedSwitch ι L c prev next t, mem_schedSwitch, SwitchCpu.word,
      TaskLayout.cr3, offsetOf_cr3]
  have hrdi : (saveRegs (atSwitch L c prev next)).reg .rdi = BitVec.ofNat 64 (L.base prev) := by
    rw [reg_saveRegs, rdi_atSwitch]
  have hrsi : (saveRegs (atSwitch L c prev next)).reg .rsi = BitVec.ofNat 64 (L.base next) := by
    rw [reg_saveRegs, rsi_atSwitch]
  rw [schedSwitch, SwitchCpu.cr3_ret, cr3_restoreRegs,
    cr3_switchCr3 hrdi hrsi (L.fits prev) (L.fits next), hword, hword, cr3_saveRegs]
  split
  · next heq => exact h.trans heq
  · rfl

end

/-- A CPU and the task that it executes. `left t` are the registers that `t` had
at its latest call of `sched_switch`. -/
structure SwitchState (ι : Type*) where
  cpu : SwitchCpu
  running : ι
  left : ι → Option (SavedReg → BitVec 64)

section

variable {ι : Type*} [DecidableEq ι] (L : TaskLayout ι)

/-- `sched_switch(current_task, next)`. -/
def SwitchState.switchTo (s : SwitchState ι) (next : ι) : SwitchState ι where
  cpu := schedSwitch (atSwitch L s.cpu s.running next)
  running := next
  left := Function.update s.left s.running (some (callerRegs s.cpu))

/-- What the running task leaves alone in memory: `cpu` of the tasks that were
switched out, and its own `cr3`. -/
structure KeepsSaved (s : SwitchState ι) (m : ByteMem.Mem) : Prop where
  cpu : ∀ t, t ≠ s.running → s.left t ≠ none → L.cpu m t = L.cpu s.cpu.mem t
  cr3 : L.cr3 m s.running = L.cr3 s.cpu.mem s.running

/-- The states that can be reached: the running task changes registers and memory
at will, and calls `sched_switch`. -/
inductive SwitchRun (s0 : SwitchState ι) : SwitchState ι → Prop
  | start : SwitchRun s0 s0
  | work {s : SwitchState ι} (reg : Reg → BitVec 64) (rip : BitVec 64) (m : ByteMem.Mem) :
      SwitchRun s0 s → KeepsSaved L s m →
      SwitchRun s0 { s with cpu := { s.cpu with reg := reg, rip := rip, mem := m } }
  | switch {s : SwitchState ι} (next : ι) : SwitchRun s0 s → SwitchRun s0 (s.switchTo L next)

structure SwitchInv (s : SwitchState ι) : Prop where
  cr3 : s.cpu.cr3 = L.cr3 s.cpu.mem s.running
  saved : ∀ t, t ≠ s.running → ∀ regs, s.left t = some regs →
    aboveReturn (L.cpu s.cpu.mem t) = regs

variable {L} {s s0 : SwitchState ι}

theorem SwitchInv.switchTo (h : SwitchInv L s) (next : ι) : SwitchInv L (s.switchTo L next) where
  cr3 := by
    show (schedSwitch _).cr3 = L.cr3 (schedSwitch _).mem next
    rw [cr3_schedSwitch h.cr3, cr3Field_schedSwitch]
  saved := by
    intro t ht regs hregs
    show aboveReturn (L.cpu (schedSwitch _).mem t) = regs
    by_cases hrun : t = s.running
    · subst hrun
      obtain rfl : callerRegs s.cpu = regs := by simpa [SwitchState.switchTo] using hregs
      rw [cpu_schedSwitch_self]
      rfl
    · rw [cpu_schedSwitch_of_ne hrun]
      exact h.saved t hrun regs (by simpa [SwitchState.switchTo, hrun] using hregs)

theorem SwitchInv.run (h0 : SwitchInv L s0) (hrun : SwitchRun L s0 s) : SwitchInv L s := by
  induction hrun with
  | start => exact h0
  | work reg rip m _ hkeep ih =>
    refine ⟨ih.cr3.trans hkeep.cr3.symm, fun t ht regs hregs => ?_⟩
    have hleft : _ ≠ none := fun hnone => nomatch hregs.symm.trans hnone
    rw [← ih.saved t ht regs hregs]
    exact congrArg aboveReturn (hkeep.cpu t ht hleft)
  | switch next _ ih => exact ih.switchTo next

/-- **A task resumes as it left.** After any history, a switch to a task that was
switched out before gives it the registers that it had at its `call`, and CR3
is that of the task which now executes. -/
theorem switch_resumes (hleft : ∀ t, s0.left t = none)
    (hcr3 : s0.cpu.cr3 = L.cr3 s0.cpu.mem s0.running) (hrun : SwitchRun L s0 s) (next : ι) :
    (∀ regs, (s.switchTo L next).left next = some regs →
      ∀ r : SavedReg, (s.switchTo L next).cpu.reg r.reg = regs r) ∧
    (s.switchTo L next).cpu.cr3 = L.cr3 (s.switchTo L next).cpu.mem next := by
  have h0 : SwitchInv L s0 := ⟨hcr3, fun t _ regs hregs => nomatch (hleft t).symm.trans hregs⟩
  have h := h0.run hrun
  refine ⟨fun regs hregs r => (reg_schedSwitch r).trans (congrFun ?_ r), (h.switchTo next).cr3⟩
  by_cases hto : next = s.running
  · -- the task that runs is switched to itself
    subst hto
    obtain rfl : callerRegs s.cpu = regs := by simpa [SwitchState.switchTo] using hregs
    rw [cpu_schedSwitch_self]
    rfl
  · rw [cpu_schedSwitch_of_ne hto]
    exact h.saved next hto regs (by simpa [SwitchState.switchTo, hto] using hregs)

end

def twoRecords : TaskLayout Bool where
  base t := if t then 8192 else 4096
  fits := by decide
  apart := by decide

def firstRuns : SwitchState Bool where
  cpu := ⟨fun _ => 7, 0, 0, fun _ => 0⟩
  running := false
  left _ := none

def secondRuns : SwitchState Bool :=
  let s := firstRuns.switchTo twoRecords true
  { s with cpu := { s.cpu with reg := fun _ => 9, rip := 0 } }

theorem switch_resumes_first :
    (∀ r : SavedReg, (secondRuns.switchTo twoRecords false).cpu.reg r.reg =
      callerRegs firstRuns.cpu r) ∧ callerRegs firstRuns.cpu .rbx = 7 := by
  have hcr3 : firstRuns.cpu.cr3 = twoRecords.cr3 firstRuns.cpu.mem firstRuns.running := by
    have hzero : ∀ a, ByteMem.load 8 firstRuns.cpu.mem a = 0 :=
      fun _ => ByteMem.load_eq_zero fun _ _ _ => rfl
    rw [TaskLayout.cr3, hzero]
    rfl
  have hkeep : KeepsSaved twoRecords (firstRuns.switchTo twoRecords true)
      (firstRuns.switchTo twoRecords true).cpu.mem := ⟨fun _ _ _ => rfl, rfl⟩
  have hrun : SwitchRun twoRecords firstRuns secondRuns :=
    .work (fun _ => 9) 0 _ (.switch true .start) hkeep
  refine ⟨(switch_resumes (fun _ => rfl) hcr3 hrun false).1 _ ?_, rfl⟩
  rfl

end DevOs
