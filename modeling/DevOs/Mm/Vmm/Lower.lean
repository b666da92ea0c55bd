import DevOs.Mm.Vmm.Confine
import DevOs.Mm.Vmm.Init

/-!
The lower half of an address space, which is the user's.
-/

namespace DevOs

open ByteMem FrameSupply Radix

def LowerHalf (v : BitVec 64) : Prop := (pml4Idx v).val < 256

theorem lowerHalf_iff {v : BitVec 64} : LowerHalf v ↔ v.toNat % 2 ^ 48 < 2 ^ 47 := by
  rw [LowerHalf, pml4Idx, toNat_tableIdx, BitVec.toNat_ushiftRight, Nat.shiftRight_eq_div_pow]
  omega

theorem lowerHalf_of_lt {v : BitVec 64} (h : v.toNat < 2 ^ 47) : LowerHalf v :=
  lowerHalf_iff.mpr (by omega)

/-- Memory without the upper half of the table at `pml4`. -/
def lowerMem (m : Mem) (pml4 : Nat) : Mem := fill m (pml4 + 8 * 256) (8 * 256) 0

def lower {σ : Type} (pml4 : Nat) (s : Phys σ) : Phys σ := { s with mem := lowerMem s.mem pml4 }

section

variable {m : Mem} {pml4 t page : Nat} {i : Fin 512}

theorem lowerMem_apply {x : Nat} (h : x < pml4 ∨ pml4 + pageSize ≤ x) :
    lowerMem m pml4 x = m x := by
  rw [pageSize_eq] at h
  exact fill_apply_of_disjoint (by omega)

theorem lowerMem_congr {m' : Mem} {x : Nat} (h : m' x = m x) :
    lowerMem m' pml4 x = lowerMem m pml4 x := by
  unfold lowerMem fill
  rw [h]

theorem entry_lowerMem (hp : pageSize ∣ pml4) (ht : pageSize ∣ t) (h : t ≠ pml4 ∨ i.val < 256) :
    entry (lowerMem m pml4) t i = entry m t i := by
  obtain ⟨a, rfl⟩ := hp
  obtain ⟨b, rfl⟩ := ht
  have hi := i.isLt
  have hne : b ≠ a ∨ i.val < 256 := h.imp_left fun hc hba => hc (by rw [hba])
  rw [entry, entry, lowerMem, load_fill_of_disjoint]
  rw [pageSize_eq]
  omega

theorem entry_lowerMem_upper (hi : 256 ≤ i.val) : entry (lowerMem m pml4) pml4 i = 0 := by
  have hlt := i.isLt
  rw [entry, lowerMem, load_fill_zero (by omega)]
  rfl

theorem lowerMem_fill (hp : pageSize ∣ pml4) (hpage : pageSize ∣ page) (h : page ≠ pml4) :
    lowerMem (fill m page pageSize 0) pml4 = fill (lowerMem m pml4) page pageSize 0 := by
  obtain ⟨a, rfl⟩ := hp
  obtain ⟨b, rfl⟩ := hpage
  have hne : b ≠ a := fun hc => h (by rw [hc])
  refine fill_fill_comm ?_
  rw [pageSize_eq]
  omega

theorem lowerMem_setEntry (hp : pageSize ∣ pml4) (ht : pageSize ∣ t) (h : t ≠ pml4 ∨ i.val < 256)
    (e : BitVec 64) : lowerMem (setEntry m t i e) pml4 = setEntry (lowerMem m pml4) t i e := by
  obtain ⟨a, rfl⟩ := hp
  obtain ⟨b, rfl⟩ := ht
  have hi := i.isLt
  have hne : b ≠ a ∨ i.val < 256 := h.imp_left fun hc hba => hc (by rw [hba])
  refine fill_store_comm ?_
  rw [pageSize_eq]
  omega

theorem lowerMem_setEntry_upper (hi : 256 ≤ i.val) (e : BitVec 64) :
    lowerMem (setEntry m pml4 i e) pml4 = lowerMem m pml4 := by
  have hlt := i.isLt
  funext x
  by_cases hx : pml4 + 8 * 256 ≤ x ∧ x < pml4 + 8 * 256 + 8 * 256
  · rw [lowerMem, lowerMem, fill_apply_of_mem hx, fill_apply_of_mem hx]
  · rw [lowerMem, lowerMem, fill_apply_of_disjoint (by omega), fill_apply_of_disjoint (by omega)]
    exact store_apply_of_disjoint (by omega)

theorem lowerMem_copyUpperHalf (m : Mem) (k page : Nat) :
    lowerMem (copyUpperHalf (fill m page pageSize 0) k page) page = fill m page pageSize 0 := by
  have hps : pageSize = 4096 := rfl
  funext x
  by_cases hx : page + 8 * 256 ≤ x ∧ x < page + 8 * 256 + 8 * 256
  · rw [lowerMem, fill_apply_of_mem hx, fill_apply_of_mem (by omega)]
  · rw [lowerMem, fill_apply_of_disjoint (by omega), copyUpperHalf_apply (by omega)]

theorem lower_setEntry {σ : Type} {s : Phys σ} (hp : pageSize ∣ pml4) (ht : pageSize ∣ t)
    (h : t ≠ pml4 ∨ i.val < 256) (e : BitVec 64) :
    lower pml4 { s with mem := setEntry s.mem t i e } =
      { lower pml4 s with mem := setEntry (lower pml4 s).mem t i e } :=
  congrArg (Phys.mk · s.frames) (lowerMem_setEntry hp ht h e)

end

namespace TreeOk

variable {σ : Type} [FrameSource σ] [FrameSupply σ] {used : Nat → Prop} {pml4 t page : Nat}
  {s s1 : Phys σ} {v : BitVec 64} {p : List (Fin 512)} {i : Fin 512}

theorem root (h : TreeOk used pml4 s) : used pml4 := h.tree.used [] pml4 (by simp) rfl

section

variable (h : TreeOk used pml4 (lower pml4 s))
include h

section

variable (hv : LowerHalf v)
include hv

theorem passes_lower (hp : p ++ [i] <+: tablePath v ++ [ptIdx v])
    (hw : walk childTable (entry (lowerMem s.mem pml4)) pml4 p = some t) :
    pageSize ∣ t ∧ (t ≠ pml4 ∨ i.val < 256) := by
  have hlen := hp.length_le
  simp only [List.length_append, List.length_singleton, length_tablePath] at hlen
  refine ⟨(h.table t (h.tree.used p t (by omega) hw)).1.aligned, ?_⟩
  by_cases ht : t = pml4
  · -- the root is reached along the empty path only
    obtain rfl : p = [] := h.tree.inj p [] t (by omega) (by simp) hw (by rw [ht]; rfl)
    obtain ⟨q, hq⟩ := hp
    obtain rfl : i = pml4Idx v := (List.cons.inj hq).1
    exact .inr hv
  · exact .inl ht

theorem entry_lower (hp : p ++ [i] <+: tablePath v ++ [ptIdx v])
    (hw : walk childTable (entry (lowerMem s.mem pml4)) pml4 p = some t) :
    entry s.mem t i = entry (lowerMem s.mem pml4) t i := by
  obtain ⟨ht, hi⟩ := h.passes_lower hv hp hw
  exact (entry_lowerMem (h.table pml4 h.root).1.aligned ht hi).symm

theorem walk_lower (hp : p <+: tablePath v) :
    walk childTable (entry s.mem) pml4 p = walk childTable (entry (lowerMem s.mem pml4)) pml4 p :=
  walk_congr fun _ _ _ hr hw => by
    rw [h.entry_lower hv ((hr.trans hp).trans (List.prefix_append _ _)) hw]

theorem pageTable_lower : pageTable s.mem pml4 v = pageTable (lowerMem s.mem pml4) pml4 v :=
  h.walk_lower hv List.prefix_rfl

theorem vmmTranslate_lower :
    vmmTranslate s.mem pml4 v = vmmTranslate (lowerMem s.mem pml4) pml4 v :=
  vmmTranslate_congr fun _ _ _ hp hw => h.entry_lower hv hp hw

theorem vmmUnmap_lower : lower pml4 (vmmUnmap s pml4 v) = vmmUnmap (lower pml4 s) pml4 v := by
  rw [vmmUnmap_eq, vmmUnmap_eq, h.pageTable_lower hv,
    show (lower pml4 s).mem = lowerMem s.mem pml4 from rfl]
  cases hpt : pageTable (lowerMem s.mem pml4) pml4 v with
  | none => rfl
  | some pt =>
    obtain ⟨hal, hne⟩ := h.passes_lower hv List.prefix_rfl hpt
    exact lower_setEntry (h.table pml4 h.root).1.aligned hal hne 0

end

theorem alloc_lower (ha : allocPage s = some (page, s1)) :
    allocPage (lower pml4 s) = some (page, lower pml4 s1) := by
  obtain ⟨frames, hs, rfl⟩ := allocPage_eq_some ha
  obtain ⟨-, hfree, -⟩ := alloc_some h.supply hs
  have hne : page ≠ pml4 := by
    rintro rfl
    exact (h.table page h.root).2 hfree
  rw [allocPage, show (lower pml4 s).frames = s.frames from rfl, hs]
  simp only [lower, lowerMem_fill (h.table pml4 h.root).1.aligned
    (tableFrame h.supply hfree).aligned hne]

theorem getOrCreate_lower (ht : pageSize ∣ t)
    (hi : t ≠ pml4 ∨ i.val < 256) (flags : BitVec 64) : getOrCreate (lower pml4 s) t i flags =
      ((getOrCreate s t i flags).1, lower pml4 (getOrCreate s t i flags).2) := by
  have hp := (h.table pml4 h.root).1.aligned
  unfold getOrCreate
  rw [show entry (lower pml4 s).mem t i = entry s.mem t i from entry_lowerMem hp ht hi]
  split
  · cases ha : allocPage s with
    | none =>
      have hnone : FrameSource.alloc s.frames = none := allocPage_eq_none ha
      rw [allocPage_of_none (s := lower pml4 s) hnone]
    | some r =>
      rw [h.alloc_lower ha]
      simp only [lower, entry_setEntry_self, lowerMem_setEntry hp ht hi]
  · rfl

end

theorem Mapping.stage {used' : Nat → Prop} {s2 : Phys σ} {u : Nat} {flags : BitVec 64}
    (h : Mapping used pml4 v (lower pml4 s) used' (lower pml4 s1)) (hv : LowerHalf v)
    (hp : p ++ [i] <+: tablePath v)
    (hw : walk childTable (entry (lower pml4 s1).mem) pml4 p = some t)
    (hr : getOrCreate s1 t i (midFlags flags) = (u, s2)) :
    getOrCreate (lower pml4 s1) t i (midFlags flags) = (u, lower pml4 s2) ∧
      (u ≠ 0 → ∃ used', Mapping used pml4 v (lower pml4 s) used' (lower pml4 s2) ∧
        walk childTable (entry (lower pml4 s2).mem) pml4 (p ++ [i]) = some u) := by
  obtain ⟨ht, hi⟩ := h.tree.passes_lower hv (hp.trans (List.prefix_append _ _)) hw
  have heq := h.tree.getOrCreate_lower ht hi (midFlags flags)
  rw [hr] at heq
  refine ⟨heq, fun hz => ?_⟩
  obtain ⟨hzero, -⟩ | ⟨u', s', hnext, -, ⟨used2, h2⟩, hw2⟩ :=
    @getOrCreate_rule σ _ pml4 v flags _ (lower pml4 s1) []
      (mapInv used pml4 v flags (lower pml4 s)) ⟨used', h⟩ p t i hp hw
  · exact absurd (Prod.mk.inj (heq.symm.trans hzero)).1 hz
  · obtain ⟨rfl, rfl⟩ := Prod.mk.inj (heq.symm.trans hnext)
    exact ⟨used2, h2, hw2⟩

theorem vmmMap_lower (h : TreeOk used pml4 (lower pml4 s)) (hv : LowerHalf v)
    (phys flags : BitVec 64) : lower pml4 (DevOs.vmmMap s pml4 v phys flags) =
      DevOs.vmmMap (lower pml4 s) pml4 v phys flags := by
  have hp1 : [] ++ [pml4Idx v] <+: tablePath v := ⟨[pdptIdx v, pdIdx v], rfl⟩
  have hp2 : [pml4Idx v] ++ [pdptIdx v] <+: tablePath v := ⟨[pdIdx v], rfl⟩
  have hp3 : [pml4Idx v, pdptIdx v] ++ [pdIdx v] <+: tablePath v := List.prefix_rfl
  unfold DevOs.vmmMap
  rcases hr1 : getOrCreate s pml4 (pml4Idx v) (midFlags flags) with ⟨pdpt, s1⟩
  obtain ⟨e1, hnext⟩ := (h.mappingStart v).stage hv hp1 rfl hr1
  by_cases hz1 : pdpt = 0
  · simp [e1, hz1]
  obtain ⟨used1, h1, hw1⟩ := hnext hz1
  rcases hr2 : getOrCreate s1 pdpt (pdptIdx v) (midFlags flags) with ⟨pd, s2⟩
  obtain ⟨e2, hnext⟩ := h1.stage hv hp2 hw1 hr2
  by_cases hz2 : pd = 0
  · simp [e1, hz1, hr2, e2, hz2]
  obtain ⟨used2, h2, hw2⟩ := hnext hz2
  rcases hr3 : getOrCreate s2 pd (pdIdx v) (midFlags flags) with ⟨pt, s3⟩
  obtain ⟨e3, hnext⟩ := h2.stage hv hp3 hw2 hr3
  by_cases hz3 : pt = 0
  · simp [e1, hz1, hr2, e2, hz2, hr3, e3, hz3]
  obtain ⟨used3, h3, hw3⟩ := hnext hz3
  obtain ⟨hal, hne⟩ := h3.tree.passes_lower hv List.prefix_rfl hw3
  have hp := (h.table pml4 h.root).1.aligned
  simp [e1, hz1, hr2, e2, hz2, hr3, e3, hz3, lower_setEntry hp hal hne]

end TreeOk

end DevOs
