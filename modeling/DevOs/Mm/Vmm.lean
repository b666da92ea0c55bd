import DevOs.Lib.ByteMem
import DevOs.Mm.Pmm

/-!
Four-level page tables in physical memory, after `kernel/mm/vmm.c` and
`kernel/mm/vmm_ext.c`.
-/

namespace DevOs

open ByteMem

/-- What hands out frames and takes them back. -/
class FrameSource (σ : Type) where
  alloc : σ → Option (Nat × σ)
  freePage : σ → Nat → σ

instance : FrameSource Pmm where
  alloc := pmmAlloc
  freePage := pmmFreePage

instance : FrameSource (List Nat) where
  alloc
    | [] => none
    | frame :: rest => some (frame, rest)
  freePage rest _ := rest

structure Phys (σ : Type) where
  mem : Mem
  frames : σ

variable {σ : Type} [FrameSource σ]

def allocPage (s : Phys σ) : Option (Nat × Phys σ) :=
  match FrameSource.alloc s.frames with
  | none => none
  | some (page, frames) => some (page, ⟨fill s.mem page pageSize 0, frames⟩)

def freePage (s : Phys σ) (phys : Nat) : Phys σ :=
  { s with frames := FrameSource.freePage s.frames phys }

def vmmPresent : BitVec 64 := 1#64 <<< 0

def vmmWritable : BitVec 64 := 1#64 <<< 1

def vmmUser : BitVec 64 := 1#64 <<< 2

def vmmHuge : BitVec 64 := 1#64 <<< 7

def vmmNoExec : BitVec 64 := 1#64 <<< 63

def vmmUserRw : BitVec 64 := vmmPresent ||| vmmWritable ||| vmmUser

def vmmPhysMask : BitVec 64 := 0x000FFFFFFFFFF000#64

def tableIdx (x : BitVec 64) : Fin 512 :=
  ⟨(x &&& 0x1FF#64).toNat, by
    rw [BitVec.toNat_and]
    exact Nat.lt_of_le_of_lt Nat.and_le_right (by decide)⟩

def pml4Idx (v : BitVec 64) : Fin 512 := tableIdx (v >>> 39)

def pdptIdx (v : BitVec 64) : Fin 512 := tableIdx (v >>> 30)

def pdIdx (v : BitVec 64) : Fin 512 := tableIdx (v >>> 21)

def ptIdx (v : BitVec 64) : Fin 512 := tableIdx (v >>> 12)

/-- `table[i]`. -/
def entry (m : Mem) (table : Nat) (i : Fin 512) : BitVec 64 :=
  BitVec.ofNat 64 (load 8 m (table + 8 * i))

/-- `table[i] = e`. -/
def setEntry (m : Mem) (table : Nat) (i : Fin 512) (e : BitVec 64) : Mem :=
  store 8 m (table + 8 * i) e.toNat

def physToPt (e : BitVec 64) : Nat := (e &&& vmmPhysMask).toNat

/-- `get_or_create`; the null pointer is 0. -/
def getOrCreate (s : Phys σ) (table : Nat) (idx : Fin 512) (flags : BitVec 64) : Nat × Phys σ :=
  if entry s.mem table idx &&& vmmPresent = 0 then
    match allocPage s with
    | none => (0, s)
    | some (page, s) =>
      let s := { s with mem := setEntry s.mem table idx (BitVec.ofNat 64 page ||| flags) }
      (physToPt (entry s.mem table idx), s)
  else (physToPt (entry s.mem table idx), s)

def midFlags (flags : BitVec 64) : BitVec 64 := vmmPresent ||| vmmWritable ||| (flags &&& vmmUser)

def vmmMap (s : Phys σ) (pml4 : Nat) (virt phys flags : BitVec 64) : Phys σ :=
  let (pdpt, s) := getOrCreate s pml4 (pml4Idx virt) (midFlags flags)
  if pdpt = 0 then s
  else
    let (pd, s) := getOrCreate s pdpt (pdptIdx virt) (midFlags flags)
    if pd = 0 then s
    else
      let (pt, s) := getOrCreate s pd (pdIdx virt) (midFlags flags)
      if pt = 0 then s
      else { s with mem := setEntry s.mem pt (ptIdx virt) ((phys &&& vmmPhysMask) ||| flags) }

def vmmUnmap (s : Phys σ) (pml4 : Nat) (virt : BitVec 64) : Phys σ :=
  if entry s.mem pml4 (pml4Idx virt) &&& vmmPresent = 0 then s
  else
    let pdpt := physToPt (entry s.mem pml4 (pml4Idx virt))
    if entry s.mem pdpt (pdptIdx virt) &&& vmmPresent = 0 then s
    else
      let pd := physToPt (entry s.mem pdpt (pdptIdx virt))
      if entry s.mem pd (pdIdx virt) &&& vmmPresent = 0 then s
      else
        let pt := physToPt (entry s.mem pd (pdIdx virt))
        { s with mem := setEntry s.mem pt (ptIdx virt) 0 }

/-- `vmm_translate`; 0 stands for an unmapped address. -/
def vmmTranslate (m : Mem) (pml4 : Nat) (virt : BitVec 64) : BitVec 64 :=
  if entry m pml4 (pml4Idx virt) &&& vmmPresent = 0 then 0
  else
    let pdpt := physToPt (entry m pml4 (pml4Idx virt))
    if entry m pdpt (pdptIdx virt) &&& vmmPresent = 0 then 0
    else if entry m pdpt (pdptIdx virt) &&& vmmHuge ≠ 0 then
      (entry m pdpt (pdptIdx virt) &&& 0x000FFFFFC0000000#64) ||| (virt &&& 0x3FFFFFFF#64)
    else
      let pd := physToPt (entry m pdpt (pdptIdx virt))
      if entry m pd (pdIdx virt) &&& vmmPresent = 0 then 0
      else if entry m pd (pdIdx virt) &&& vmmHuge ≠ 0 then
        (entry m pd (pdIdx virt) &&& 0x000FFFFFFFE00000#64) ||| (virt &&& 0x1FFFFF#64)
      else
        let pt := physToPt (entry m pd (pdIdx virt))
        if entry m pt (ptIdx virt) &&& vmmPresent = 0 then 0
        else (entry m pt (ptIdx virt) &&& vmmPhysMask) ||| (virt &&& 0xFFF#64)

/-- `vmm_alloc_map`; 0 when there is no frame. -/
def vmmAllocMap (s : Phys σ) (pml4 : Nat) (virt flags : BitVec 64) : Nat × Phys σ :=
  match allocPage s with
  | none => (0, s)
  | some (page, s) => (page, vmmMap s pml4 virt (BitVec.ofNat 64 page) flags)

/-- `ALIGN_UP(size, PAGE_SIZE) / PAGE_SIZE`. -/
def pageCount (size : Nat) : Nat := alignUp size pageSize / pageSize

def pageBytes : BitVec 64 := 4096#64

/-- The loop of `vmm_alloc_range` from address `va` on, `n` pages. -/
def allocRangeLoop (pml4 : Nat) (flags : BitVec 64) :
    Nat → BitVec 64 → Phys σ → Bool × Phys σ
  | 0, _, s => (true, s)
  | n + 1, va, s =>
    let (page, s) := vmmAllocMap s pml4 va flags
    if page = 0 then (false, s) else allocRangeLoop pml4 flags n (va + pageBytes) s

/-- `vmm_alloc_range`; `false` is the result -1. -/
def vmmAllocRange (s : Phys σ) (pml4 : Nat) (virt : BitVec 64) (size : Nat) (flags : BitVec 64) :
    Bool × Phys σ :=
  allocRangeLoop pml4 flags (pageCount size) virt s

/-- The loop of `vmm_free_range` from address `va` on, `n` pages. -/
def freeRangeLoop (pml4 : Nat) : Nat → BitVec 64 → Phys σ → Phys σ
  | 0, _, s => s
  | n + 1, va, s =>
    let phys := vmmTranslate s.mem pml4 va
    let s := if phys ≠ 0 then freePage (vmmUnmap s pml4 va) phys.toNat else s
    freeRangeLoop pml4 n (va + pageBytes) s

def vmmFreeRange (s : Phys σ) (pml4 : Nat) (virt : BitVec 64) (size : Nat) : Phys σ :=
  freeRangeLoop pml4 (pageCount size) virt s

/-- The upper half of a table: `pml4[i] = kernel_pml4[i]` for `i` from 256 to
511. The kernel's table is another page, which the loop does not write. -/
def copyUpperHalf (m : Mem) (kernelPml4 pml4 : Nat) : Mem :=
  (List.finRange 512).foldl
    (fun m' i => if 256 ≤ i.val then setEntry m' pml4 i (entry m kernelPml4 i) else m') m

/-- `vmm_create_address_space`; 0 when there is no frame. -/
def vmmCreateAddressSpace (s : Phys σ) (kernelPml4 : Nat) : Nat × Phys σ :=
  match allocPage s with
  | none => (0, s)
  | some (page, s) => (page, { s with mem := copyUpperHalf s.mem kernelPml4 page })

end DevOs
