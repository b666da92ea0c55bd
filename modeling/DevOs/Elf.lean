import DevOs.Mm.Vmm

/-!
The ELF64 loader of `kernel/elf/elf.c`: header checks, the mapping of the
`PT_LOAD` segments into a new address space, the user stack, and the task.
-/

namespace DevOs

open ByteMem

structure ElfImage where
  data : Mem
  size : Nat

def elfMagic : Nat := 0x464C457F

def etExec : Nat := 2

def emX86x64 : Nat := 62

def evCurrent : Nat := 1

def elfClass64 : Nat := 2

def elfData2Lsb : Nat := 1

def ptLoad : Nat := 1

/-- `sizeof(elf64_hdr_t)`. -/
def elfHdrSize : Nat := 64

/-- `sizeof(elf64_phdr_t)`. -/
def elfPhdrSize : Nat := 56

namespace ElfImage

variable (img : ElfImage)

def type : Nat := load 2 img.data 16

def machine : Nat := load 2 img.data 18

def version : Nat := load 4 img.data 20

def entryPoint : Nat := load 8 img.data 24

def phoff : Nat := load 8 img.data 32

def phentsize : Nat := load 2 img.data 54

def phnum : Nat := load 2 img.data 56

end ElfImage

structure ElfPhdr where
  type : Nat
  flags : Nat
  offset : Nat
  vaddr : Nat
  filesz : Nat
  memsz : Nat

def ElfImage.phdr (img : ElfImage) (i : Nat) : ElfPhdr :=
  let a := (img.phoff + i * img.phentsize) % 2 ^ 64
  { type := load 4 img.data a
    flags := load 4 img.data (a + 4)
    offset := load 8 img.data (a + 8)
    vaddr := load 8 img.data (a + 16)
    filesz := load 8 img.data (a + 32)
    memsz := load 8 img.data (a + 40) }

def elfValidate (img : ElfImage) : Bool :=
  if img.size < elfHdrSize then false
  else if load 4 img.data 0 ≠ elfMagic then false
  else if load 1 img.data 4 ≠ elfClass64 then false
  else if load 1 img.data 5 ≠ elfData2Lsb then false
  else if img.type ≠ etExec then false
  else if img.machine ≠ emX86x64 then false
  else if img.version ≠ evCurrent then false
  else if img.phentsize < elfPhdrSize then false
  else if img.phnum = 0 then false
  else if img.entryPoint = 0 then false
  else true

def elfFlagsToVmm (pf : Nat) : BitVec 64 :=
  let flags := vmmPresent ||| vmmUser
  let flags := if pf.testBit 1 then flags ||| vmmWritable else flags
  if pf.testBit 0 then flags else flags ||| vmmNoExec

theorem elfFlagsToVmm_and_mask (pf : Nat) : elfFlagsToVmm pf &&& vmmPhysMask = 0 := by
  unfold elfFlagsToVmm
  cases pf.testBit 1 <;> cases pf.testBit 0 <;> decide

theorem elfFlagsToVmm_present (pf : Nat) : elfFlagsToVmm pf &&& vmmPresent ≠ 0 := by
  unfold elfFlagsToVmm
  cases pf.testBit 1 <;> cases pf.testBit 0 <;> decide

section

variable {σ : Type} [FrameSource σ]

def ElfPhdr.vaStart (ph : ElfPhdr) : Nat := alignDown ph.vaddr pageSize

def ElfPhdr.numPages (ph : ElfPhdr) : Nat :=
  let vaEnd := alignUp ((ph.vaddr + ph.memsz) % 2 ^ 64) pageSize
  (vaEnd + (2 ^ 64 - ph.vaStart)) % 2 ^ 64 / pageSize

/-- The bytes of the file that belong into the page at `pageVa`, written to
its frame. -/
def copyFileData (img : ElfImage) (ph : ElfPhdr) (m : Mem) (page pageVa : Nat) : Mem :=
  let pageEnd := (pageVa + pageSize) % 2 ^ 64
  let segFend := (ph.vaddr + ph.filesz) % 2 ^ 64
  let copyStart := if pageVa < ph.vaddr then ph.vaddr else pageVa
  let copyEnd := if segFend < pageEnd then segFend else pageEnd
  if copyStart < copyEnd ∧ copyStart < segFend then
    let dst := page + (copyStart - pageVa)
    fun x =>
      if dst ≤ x ∧ x < dst + (copyEnd - copyStart) then
        img.data ((ph.offset + (copyStart - ph.vaddr) + (x - dst)) % 2 ^ 64)
      else m x
  else m

/-- The loop of `elf_map_segment` from the page at `pageVa` on, `n` pages. -/
def mapSegmentLoop (pml4 : Nat) (img : ElfImage) (ph : ElfPhdr) :
    Nat → Nat → Phys σ → Bool × Phys σ
  | 0, _, s => (true, s)
  | n + 1, pageVa, s =>
    match allocPage s with
    | none => (false, s)
    | some (page, s) =>
      let s := vmmMap s pml4 (BitVec.ofNat 64 pageVa) (BitVec.ofNat 64 page)
        (elfFlagsToVmm ph.flags)
      mapSegmentLoop pml4 img ph n ((pageVa + pageSize) % 2 ^ 64)
        { s with mem := copyFileData img ph s.mem page pageVa }

/-- `elf_map_segment`; `false` is the result -1. -/
def elfMapSegment (s : Phys σ) (pml4 : Nat) (img : ElfImage) (ph : ElfPhdr) : Bool × Phys σ :=
  if ph.memsz = 0 then (true, s)
  else if 0 < ph.filesz ∧ img.size < (ph.offset + ph.filesz) % 2 ^ 64 then (false, s)
  else mapSegmentLoop pml4 img ph ph.numPages ph.vaStart s

/-- The loop over the program headers from `i` on, `n` of them. -/
def mapSegments (pml4 : Nat) (img : ElfImage) : Nat → Nat → Phys σ → Bool × Phys σ
  | 0, _, s => (true, s)
  | n + 1, i, s =>
    if (img.phdr i).type ≠ ptLoad then mapSegments pml4 img n (i + 1) s
    else
      let (ok, s) := elfMapSegment s pml4 img (img.phdr i)
      if ok then mapSegments pml4 img n (i + 1) s else (false, s)

end

def userStackTop : BitVec 64 := 0x00007FFFFFFF0000#64

def userStackSize : Nat := 64 * 1024

structure UserTask where
  cr3 : Nat
  mmapCursor : BitVec 64
  deriving DecidableEq, Repr

/-- What the heap does for the record and the kernel stack of a task: it maps
`pages` pages from `cursor` on, and hands out both blocks or not. -/
structure HeapNeed where
  cursor : BitVec 64
  pages : Nat
  served : Bool

variable {σ : Type} [FrameSource σ]

/-- `VMM_KERNEL_RW | VMM_NO_EXEC`. -/
def heapFlags : BitVec 64 := vmmPresent ||| vmmWritable ||| (1#64 <<< 8) ||| vmmNoExec

/-- The loop of `heap_map_pages`: pages of the kernel's own address space. -/
def growHeap (kernelPml4 : Nat) : Nat → BitVec 64 → Phys σ → Phys σ
  | 0, _, s => s
  | n + 1, va, s =>
    match allocPage s with
    | none => s
    | some (page, s) =>
      growHeap kernelPml4 n (va + pageBytes)
        (vmmMap s kernelPml4 va (BitVec.ofNat 64 page) heapFlags)

def schedCreateUserTask (s : Phys σ) (kernelPml4 pml4 : Nat) (heap : HeapNeed) :
    Option UserTask × Phys σ :=
  let s := growHeap kernelPml4 heap.pages heap.cursor s
  (if heap.served then some ⟨pml4, 0x0000500000000000#64⟩ else none, s)

/-- The null return address at the top of the user stack. The translation of
`user_rsp` already contains its offset in the page, and the source adds it
once more. -/
def writeNullRet (s : Phys σ) (pml4 : Nat) : Phys σ :=
  let userRsp := userStackTop - 8#64
  let rspPhys := vmmTranslate s.mem pml4 (userRsp &&& ~~~7#64)
  if rspPhys ≠ 0 then
    { s with mem := store 8 s.mem (rspPhys + (userRsp &&& 0xFFF#64)).toNat 0 }
  else s

def elfLoad (s : Phys σ) (kernelPml4 : Nat) (img : ElfImage) (heap : HeapNeed) :
    Option UserTask × Phys σ :=
  if elfValidate img = false then (none, s)
  else
    let (pml4, s) := vmmCreateAddressSpace s kernelPml4
    if pml4 = 0 then (none, s)
    else
      let (ok, s) := mapSegments pml4 img img.phnum 0 s
      if ok = false then (none, s)
      else
        let (ok, s) := vmmAllocRange s pml4 (userStackTop - BitVec.ofNat 64 userStackSize)
          userStackSize (vmmUserRw ||| vmmNoExec)
        if ok = false then (none, s)
        else schedCreateUserTask (writeNullRet s pml4) kernelPml4 pml4 heap

end DevOs
