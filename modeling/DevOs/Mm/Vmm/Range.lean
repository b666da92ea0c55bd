import DevOs.Mm.Vmm.Space

/-!
The pages of a range, and the turns of the loop of `vmm_alloc_range`: each page is mapped
with a frame from `pmm_alloc`, and the loop ends when there is none.
-/

namespace DevOs

variable {n : Nat}

theorem alignUp_of_lt (h : n + 4095 < 2 ^ 64) :
    alignUp n pageSize = (n + 4095) / 4096 * 4096 := by
  rw [alignUp, alignDown, pageSize_eq, Nat.mod_eq_of_lt h]

theorem pageCount_of_lt (h : n + 4095 < 2 ^ 64) : pageCount n = (n + 4095) / 4096 := by
  rw [pageCount, alignUp_of_lt h]
  exact Nat.mul_div_cancel _ (by decide)

def pagesFrom : BitVec 64 → Nat → List (BitVec 64)
  | _, 0 => []
  | va, n + 1 => va :: pagesFrom (va + pageBytes) n

theorem pagesFrom_eq_map (va : BitVec 64) (n : Nat) :
    pagesFrom va n = (List.range n).map fun i => va + BitVec.ofNat 64 (i * pageSize) := by
  induction n generalizing va with
  | zero => rfl
  | succ n ih =>
    have hnext : ∀ i, va + pageBytes + BitVec.ofNat 64 (i * pageSize) =
        va + BitVec.ofNat 64 ((i + 1) * pageSize) := by
      intro i
      rw [Nat.succ_mul, Nat.add_comm (i * pageSize), BitVec.ofNat_add, BitVec.add_assoc]
      rfl
    rw [pagesFrom, ih, List.range_succ_eq_map, List.map_cons, List.map_map, Nat.zero_mul,
      show va + BitVec.ofNat 64 0 = va from BitVec.add_zero va]
    exact congrArg (va :: ·) (List.map_congr_left fun i _ => hnext i)

theorem mem_pagesFrom {va v : BitVec 64} :
    v ∈ pagesFrom va n ↔ ∃ i < n, v = va + BitVec.ofNat 64 (i * pageSize) := by
  simp [pagesFrom_eq_map, eq_comm]

theorem length_pagesFrom (va : BitVec 64) (n : Nat) : (pagesFrom va n).length = n := by
  simp [pagesFrom_eq_map]

theorem toNat_page {va : BitVec 64} {n i : Nat} (hend : va.toNat + n * pageSize ≤ 2 ^ 47)
    (hi : i < n) : (va + BitVec.ofNat 64 (i * pageSize)).toNat = va.toNat + i * pageSize := by
  rw [pageSize_eq] at *
  rw [BitVec.toNat_add, BitVec.toNat_ofNat]
  omega

theorem toNat_of_mem_pagesFrom {va v : BitVec 64}
    (hend : va.toNat + n * pageSize ≤ 2 ^ 47) (hv : v ∈ pagesFrom va n) :
    ∃ i < n, v.toNat = va.toNat + i * pageSize := by
  obtain ⟨i, hi, rfl⟩ := mem_pagesFrom.mp hv
  exact ⟨i, hi, toNat_page hend hi⟩

/-- The frames that the loop of `vmm_alloc_range` takes for its pages. -/
def allocRangeFrames {σ : Type} [FrameSource σ] (pml4 : Nat) (flags : BitVec 64) :
    Nat → BitVec 64 → Phys σ → List Nat
  | 0, _, _ => []
  | n + 1, va, s =>
    match allocPage s with
    | none => []
    | some (page, s) =>
      page :: allocRangeFrames pml4 flags n (va + pageBytes)
        (vmmMap s pml4 va (BitVec.ofNat 64 page) flags)

variable {pml4 page : Nat} {s s1 : Phys Pmm} {va flags : BitVec 64}

theorem allocRangeLoop_of_empty (h : clearFrames s.frames.bitmap = ∅) (n : Nat) :
    allocRangeLoop pml4 flags (n + 1) va s = (false, s) ∧
      allocRangeFrames pml4 flags (n + 1) va s = [] := by
  have hnone : allocPage s = none := allocPage_of_none (clearFrames_eq_empty_iff.mp h)
  rw [allocRangeLoop, vmmAllocMap, allocRangeFrames, hnone]
  exact ⟨if_pos rfl, rfl⟩

theorem allocRangeLoop_of_some (ha : allocPage s = some (page, s1)) (hnz : page ≠ 0) (n : Nat) :
    allocRangeLoop pml4 flags (n + 1) va s = allocRangeLoop pml4 flags n (va + pageBytes)
        (vmmMap s1 pml4 va (BitVec.ofNat 64 page) flags) ∧
      allocRangeFrames pml4 flags (n + 1) va s = page :: allocRangeFrames pml4 flags n
        (va + pageBytes) (vmmMap s1 pml4 va (BitVec.ofNat 64 page) flags) := by
  rw [allocRangeLoop, vmmAllocMap, allocRangeFrames, ha]
  exact ⟨if_neg hnz, rfl⟩

end DevOs
