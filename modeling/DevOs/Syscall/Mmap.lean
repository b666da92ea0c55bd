import DevOs.Elf

/-!
`sys_mmap` and `sys_munmap` of `kernel/syscall/syscall.c`, and the user
address spaces that they work on: tasks come from `elf_load`, and each task
maps and unmaps pages of its own address space.
-/

namespace DevOs

/-- `(uint64_t)-EINVAL`. -/
def einval : BitVec 64 := -22#64

/-- `(uint64_t)-ENOMEM`. -/
def enomem : BitVec 64 := -12#64

/-- `(uint64_t)-ESRCH`. -/
def esrch : BitVec 64 := -3#64

section

variable {σ : Type} [FrameSource σ]

def mmapBase (t : UserTask) (addr : BitVec 64) : BitVec 64 :=
  if addr ≠ 0 then BitVec.ofNat 64 (alignDown addr.toNat pageSize) else t.mmapCursor

/-- `sys_mmap`: the result, the current task and the memory. -/
def sysMmap (s : Phys σ) (current : Option UserTask) (addr length : BitVec 64) :
    BitVec 64 × Option UserTask × Phys σ :=
  if length = 0 then (einval, current, s)
  else match current with
    | none => (esrch, none, s)
    | some t =>
      let va := mmapBase t addr
      let nbytes := alignUp length.toNat pageSize
      let (ok, s) := vmmAllocRange s t.cr3 va nbytes (vmmUserRw ||| vmmNoExec)
      if ok = false then (enomem, some t, s)
      else
        let t := if addr = 0 then { t with mmapCursor := va + BitVec.ofNat 64 nbytes } else t
        (va, some t, s)

def sysMunmap (s : Phys σ) (t : UserTask) (addr length : BitVec 64) : BitVec 64 × Phys σ :=
  if addr = 0 ∨ length = 0 then (einval, s)
  else (0, vmmFreeRange s t.cr3 addr length.toNat)

end

structure UserSpace where
  phys : Phys Pmm
  kernelPml4 : Nat
  tasks : List UserTask

inductive UserOp where
  | elfLoad (img : ElfImage) (heap : HeapNeed)
  | mmap (task : Nat) (addr length : BitVec 64)
  | munmap (task : Nat) (addr length : BitVec 64)

def userStep (u : UserSpace) : UserOp → UserSpace
  | .elfLoad img heap =>
    let (t, s) := elfLoad u.phys u.kernelPml4 img heap
    { u with phys := s, tasks := u.tasks ++ t.toList }
  | .mmap task addr length =>
    match u.tasks[task]? with
    | none => u
    | some t =>
      let (_, t, s) := sysMmap u.phys (some t) addr length
      { u with phys := s, tasks := (t.map (u.tasks.set task)).getD u.tasks }
  | .munmap task addr length =>
    match u.tasks[task]? with
    | none => u
    | some t => { u with phys := (sysMunmap u.phys t addr length).2 }

end DevOs
