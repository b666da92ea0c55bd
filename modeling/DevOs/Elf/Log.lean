import DevOs.Elf.Reads
import DevOs.Mm.Vmm.Log

/-!
What `elf_load` writes to physical memory.
-/

namespace DevOs

open ByteMem FrameSupply

section

variable {σ : Type} [FrameSource σ]

def allocRangeLoopEvents (pml4 : Nat) (flags : BitVec 64) :
    Nat → BitVec 64 → Phys σ → List PhysEvent
  | 0, _, _ => []
  | n + 1, va, s =>
    match allocPage s with
    | none => []
    | some (page, s1) =>
      allocEvents s ++ vmmMapEvents s1 pml4 va flags ++
        if page = 0 then []
        else allocRangeLoopEvents pml4 flags n (va + pageBytes)
          (vmmMap s1 pml4 va (BitVec.ofNat 64 page) flags)

def writeNullRetEvents (s : Phys σ) (pml4 : Nat) : List PhysEvent :=
  let userRsp := userStackTop - 8#64
  let rspPhys := vmmTranslate s.mem pml4 (userRsp &&& ~~~7#64)
  if rspPhys ≠ 0 then [.write (rspPhys + (userRsp &&& 0xFFF#64)).toNat 8] else []

/-- `USER_STACK_TOP - USER_STACK_SIZE`. -/
def userStackBottom : BitVec 64 := userStackTop - BitVec.ofNat 64 userStackSize

def stackFlags : BitVec 64 := vmmUserRw ||| vmmNoExec

end

section

variable {σ : Type} [FrameSource σ] {s s1 : Phys σ} {pml4 page n : Nat} {va flags : BitVec 64}

theorem allocRangeLoop_of_none (ha : allocPage s = none) :
    allocRangeLoopEvents pml4 flags (n + 1) va s = [] ∧
      allocRangeLoop pml4 flags (n + 1) va s = (false, s) := by
  unfold allocRangeLoopEvents allocRangeLoop vmmAllocMap
  rw [ha]
  exact ⟨rfl, if_pos rfl⟩

end

variable {σ : Type} [FrameSource σ] [FrameSupply σ]

theorem copyFileData_eq (img : ElfImage) (ph : ElfPhdr) (m : Mem) (page pageVa : Nat) :
    copyFileData img ph m page pageVa = if ph.copyStart pageVa < ph.copyEnd pageVa ∧
          ph.copyStart pageVa < (ph.vaddr + ph.filesz) % 2 ^ 64 then
        fun x => if page + (ph.copyStart pageVa - pageVa) ≤ x ∧
            x < page + (ph.copyStart pageVa - pageVa) +
              (ph.copyEnd pageVa - ph.copyStart pageVa) then
          img.data ((ph.offset + (ph.copyStart pageVa - ph.vaddr) +
            (x - (page + (ph.copyStart pageVa - pageVa)))) % 2 ^ 64) else m x else m := by
  unfold copyFileData
  dsimp only
  exact if_congr Iff.rfl (funext fun x => if_congr Iff.rfl rfl rfl) rfl

theorem ElfPhdr.copy_bounds (ph : ElfPhdr) (pageVa : Nat) :
    pageVa ≤ ph.copyStart pageVa ∧ ph.copyEnd pageVa ≤ pageVa + pageSize := by
  have hmod := Nat.mod_le (pageVa + pageSize) (2 ^ 64)
  unfold ElfPhdr.copyStart ElfPhdr.copyEnd
  dsimp only
  constructor
  · split <;> omega
  · split <;> omega

theorem copyFileData_apply_of_outside (img : ElfImage) (ph : ElfPhdr) (m : Mem)
    {page pageVa x : Nat} (hx : x < page ∨ page + pageSize ≤ x) :
    copyFileData img ph m page pageVa x = m x := by
  obtain ⟨hstart, hend⟩ := ph.copy_bounds pageVa
  rw [copyFileData_eq]
  split
  · exact if_neg (by omega)
  · rfl

theorem toNat_nullRet {fr : BitVec 64} (hal : pageSize ∣ fr.toNat) (hlt : fr.toNat < 2 ^ 52) :
    ((fr ||| ((userStackTop - 8#64 &&& ~~~7#64) &&& 0xFFF#64)) +
        (userStackTop - 8#64 &&& 0xFFF#64)).toNat =
      fr.toNat + pageSize + 8 * (510 : Fin 512).val := by
  have hoff : ((userStackTop - 8#64 &&& ~~~7#64) &&& 0xFFF#64).toNat = 0xFF8 := by decide
  have hrsp : (userStackTop - 8#64 &&& 0xFFF#64).toNat = 0xFF8 := by decide
  rw [BitVec.toNat_add, toNat_frame_or hal (toNat_offset_lt _), hoff, hrsp,
    pageSize_eq, show (510 : Fin 512).val = 510 from rfl,
    Nat.mod_eq_of_lt (by omega)]

end DevOs
