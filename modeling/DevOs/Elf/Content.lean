import DevOs.Elf.Log
import DevOs.Mm.Vmm.AllocRange
import DevOs.Mm.Vmm.Contents

/-!
The bytes of a segment, as the program sees them.
-/

namespace DevOs

open ByteMem

/-- What the loader puts at address `a` of a page of the segment. -/
def putByte (img : ElfImage) (ph : ElfPhdr) (a : Nat) : UInt8 :=
  if ph.vaddr ≤ a ∧ a < (ph.vaddr + ph.filesz) % 2 ^ 64 then
    img.data ((ph.offset + (a - ph.vaddr)) % 2 ^ 64)
  else 0

theorem copyFileData_putByte (img : ElfImage) (ph : ElfPhdr) {m : Mem} {page pageVa x : Nat}
    (hva : pageVa + pageSize < 2 ^ 64) (hx : x < pageSize) (hzero : m (page + x) = 0) :
    copyFileData img ph m page pageVa (page + x) = putByte img ph (pageVa + x) := by
  have hstart : ph.copyStart pageVa = max ph.vaddr pageVa := by
    unfold ElfPhdr.copyStart
    split <;> omega
  have hend : ph.copyEnd pageVa = min ((ph.vaddr + ph.filesz) % 2 ^ 64) (pageVa + pageSize) := by
    unfold ElfPhdr.copyEnd
    dsimp only
    rw [Nat.mod_eq_of_lt hva]
    split <;> omega
  rw [copyFileData_eq, hstart, hend, putByte]
  generalize (ph.vaddr + ph.filesz) % 2 ^ 64 = segFend
  by_cases hfile : ph.vaddr ≤ pageVa + x ∧ pageVa + x < segFend
  · -- the address is in the part that is copied
    rw [if_pos hfile, if_pos (by omega), if_pos (by omega)]
    exact congrArg (fun y => img.data (y % 2 ^ 64)) (by omega)
  · rw [if_neg hfile]
    split
    · exact (if_neg (by omega)).trans hzero
    · exact hzero

theorem userFlags_elf (pf : Nat) : UserFlags (elfFlagsToVmm pf) where
  present := elfFlagsToVmm_present pf
  mask := elfFlagsToVmm_and_mask pf
  mid := by
    unfold elfFlagsToVmm
    cases pf.testBit 1 <;> cases pf.testBit 0 <;> decide

variable {region : Nat → Prop} {link : BitVec 64 → Prop} {used : Nat → Prop} {pml4 page : Nat}
  {V : View} {s s1 s' s0 : Phys Pmm} {img : ElfImage} {ph : ElfPhdr}

theorem mapSegmentLoop_of_some (ha : allocPage s = some (page, s1)) {n lo : Nat}
    (hend : lo + (n + 1) ≤ 2 ^ 35) :
    mapSegmentLoop pml4 img ph (n + 1) (lo * pageSize) s =
      mapSegmentLoop pml4 img ph n ((lo + 1) * pageSize)
        ⟨copyFileData img ph (vmmMap s1 pml4 (BitVec.ofNat 64 (lo * pageSize))
            (BitVec.ofNat 64 page) (elfFlagsToVmm ph.flags)).mem page (lo * pageSize),
          (vmmMap s1 pml4 (BitVec.ofNat 64 (lo * pageSize)) (BitVec.ofNat 64 page)
            (elfFlagsToVmm ph.flags)).frames⟩ := by
  have hnext : (lo * pageSize + pageSize) % 2 ^ 64 = (lo + 1) * pageSize := by
    rw [Nat.succ_mul, pageSize_eq, Nat.mod_eq_of_lt (by omega)]
  rw [mapSegmentLoop, ha]
  dsimp only
  rw [hnext]

theorem mapSegmentLoop_of_none {σ : Type} [FrameSource σ] {s s' : Phys σ} {n pageVa : Nat}
    {ok : Bool} (h : FrameSource.alloc s.frames = none)
    (hr : mapSegmentLoop pml4 img ph n pageVa s = (ok, s')) : s' = s := by
  cases n with
  | zero => exact (Prod.mk.inj hr).2.symm
  | succ n =>
    rw [mapSegmentLoop, allocPage_of_none h] at hr
    exact (Prod.mk.inj hr).2.symm

/-- **The loop of `elf_map_segment`** maps all its pages; or there are too few frames for
them and their tables, and then it fails or leaves none. -/
theorem Lays.mapSegmentLoop (h : Lays region link s0 used pml4 V s) (n : Nat) {lo : Nat}
    (hend : lo + n ≤ 2 ^ 35) :
    (∃ s' used', mapSegmentLoop pml4 img ph n (lo * pageSize) s = (true, s') ∧
        Lays region link s0 used' pml4
          (showPages lo n (elfFlagsToVmm ph.flags) (putByte img ph) V) s' ∧
        Spent pml4 (pagesFrom (BitVec.ofNat 64 (lo * pageSize)) n) s s') ∨
      (clearFrames s.frames.bitmap).card < n + (missingTables (lowerMem s.mem pml4) pml4
          (pagesFrom (BitVec.ofNat 64 (lo * pageSize)) n)).card ∧
        ∀ s', mapSegmentLoop pml4 img ph n (lo * pageSize) s = (true, s') →
          FrameSource.alloc s'.frames = none := by
  induction n generalizing used V s lo with
  | zero =>
    refine .inl ⟨s, used, rfl, ?_, .refl pml4 s⟩
    rw [showPages_zero]
    exact h
  | succ n ih =>
    have hva : lo * pageSize + pageSize ≤ 2 ^ 47 := by
      rw [pageSize_eq]
      omega
    cases ha : allocPage s with
    | none =>
      have hnone := allocPage_eq_none ha
      rw [clearFrames_eq_empty_iff.mpr hnone, Finset.card_empty]
      refine .inr ⟨by omega, fun s' hs' => ?_⟩
      rw [mapSegmentLoop_of_none hnone hs']
      exact hnone
    | some r =>
      obtain ⟨page, s1⟩ := r
      rw [mapSegmentLoop_of_some ha hend]
      generalize hs2 : vmmMap s1 pml4 (BitVec.ofNat 64 (lo * pageSize)) (BitVec.ofNat 64 page)
        (elfFlagsToVmm ph.flags) = s2
      have hlow : LowerHalf (BitVec.ofNat 64 (lo * pageSize)) :=
        lowerHalf_ofNat (Nat.lt_of_lt_of_le (Nat.lt_add_of_pos_right (by decide)) hva)
      obtain ⟨used', hpop, hcount, hend'⟩ := @Lays.turn region link used pml4 page V
        ⟨elfFlagsToVmm ph.flags, fun x => putByte img ph (lo * pageSize + x)⟩ s s1 s2 s0 _ h
        hlow (userFlags_elf ph.flags) ha hs2 (copyFileData img ph s2.mem page (lo * pageSize))
        (fun x hx => copyFileData_apply_of_outside img ph s2.mem hx)
        fun hzero x hx => copyFileData_putByte img ph (by omega) hx (hzero x hx)
      generalize copyFileData img ph s2.mem page (lo * pageSize) = m' at *
      have hspent := hcount (pagesFrom (BitVec.ofNat 64 (lo * pageSize)) (n + 1))
        (List.cons_subset_cons _ (List.nil_subset _))
      rw [List.length_singleton] at hspent
      dsimp only at hspent
      obtain ⟨hnone, htable⟩ | ⟨-, h'⟩ := hend'
      · have hclear : clearFrames s2.frames.bitmap = ∅ := clearFrames_eq_empty_iff.mpr hnone
        have hmem : BitVec.ofNat 64 (lo * pageSize) ∈
            pagesFrom (BitVec.ofNat 64 (lo * pageSize)) (n + 1) := List.mem_cons_self
        have hpos := missingTables_pos hmem htable
        rw [hclear, Finset.card_empty] at hspent
        refine .inr ⟨by omega, fun s' hs' => ?_⟩
        rw [mapSegmentLoop_of_none (s := ⟨m', s2.frames⟩) hnone hs']
        exact hnone
      · rw [pageNumber_page (by omega)] at h'
        have hnext := @ih _ _ ⟨m', s2.frames⟩ h' (lo + 1) (by omega)
        rw [← showPages_succ (by omega)] at hnext
        obtain ⟨s', used'', hr, hl, hrest⟩ | ⟨hfew, hnone⟩ := hnext
        · rw [pagesFrom_ofNat_succ]
          exact .inl ⟨s', used'', hr, hl, hcount.append hrest⟩
        refine .inr ⟨?_, hnone⟩
        have hsub := Finset.card_le_card (@missingTables_mono pml4 (lowerMem m' pml4) _ _
          (List.subset_cons_self (BitVec.ofNat 64 (lo * pageSize))
            (pagesFrom (BitVec.ofNat 64 ((lo + 1) * pageSize)) n)))
        rw [← pagesFrom_ofNat_succ] at hsub
        dsimp only at hfew
        omega

section

variable (h : ph.vaddr + ph.memsz ≤ 2 ^ 47)
include h

theorem ElfPhdr.numPages_eq :
    ph.numPages = (ph.vaddr + ph.memsz + 4095) / 4096 - ph.vaddr / 4096 := by
  have hsum : (ph.vaddr + ph.memsz) % 2 ^ 64 = ph.vaddr + ph.memsz := Nat.mod_eq_of_lt (by omega)
  unfold ElfPhdr.numPages ElfPhdr.vaStart
  dsimp only
  rw [hsum, alignUp_of_lt (by omega), alignDown, pageSize_eq]
  omega

theorem ElfPhdr.toNat_of_mem {v : BitVec 64}
    (hv : v ∈ pagesFrom (BitVec.ofNat 64 ph.vaStart) ph.numPages) :
    ∃ i < ph.numPages, v.toNat = (ph.vaddr / 4096 + i) * 4096 := by
  have hpages := ph.numPages_eq h
  have hva : ph.vaStart = ph.vaddr / 4096 * 4096 := rfl
  have hto : (BitVec.ofNat 64 ph.vaStart).toNat = ph.vaStart := by
    rw [BitVec.toNat_ofNat, hva, Nat.mod_eq_of_lt (by omega)]
  obtain ⟨i, hi, hv⟩ := toNat_of_mem_pagesFrom (n := ph.numPages)
    (by rw [hto, hva, hpages, pageSize_eq]; omega) hv
  exact ⟨i, hi, by rw [hv, hto, hva, pageSize_eq]; omega⟩

theorem ElfPhdr.lowerHalf :
    ∀ v ∈ pagesFrom (BitVec.ofNat 64 ph.vaStart) ph.numPages, LowerHalf v := by
  intro v hv
  have hpages := ph.numPages_eq h
  obtain ⟨i, hi, hto⟩ := ph.toNat_of_mem h hv
  refine lowerHalf_of_lt ?_
  omega

end

def showSegment (img : ElfImage) (ph : ElfPhdr) (V : View) : View :=
  showPages (ph.vaddr / pageSize) ph.numPages (elfFlagsToVmm ph.flags) (putByte img ph) V

theorem Lays.elfMapSegment (h : Lays region link s0 used pml4 V s)
    (hend : ph.vaddr + ph.memsz ≤ 2 ^ 47) (hmem : ph.memsz ≠ 0)
    (hr : elfMapSegment s pml4 img ph = (true, s')) :
    FrameSource.alloc s'.frames = none ∨
      ∃ used', Lays region link s0 used' pml4 (showSegment img ph V) s' ∧
        Spent pml4 (pagesFrom (BitVec.ofNat 64 ph.vaStart) ph.numPages) s s' := by
  have hpages := ph.numPages_eq hend
  rw [DevOs.elfMapSegment, if_neg hmem] at hr
  split at hr
  · cases hr
  obtain ⟨s2, used', hloop, h', hspent⟩ | ⟨-, hnone⟩ :=
    @Lays.mapSegmentLoop region link used pml4 V s s0 img ph h ph.numPages (ph.vaddr / pageSize)
      (by rw [hpages, pageSize_eq]; omega)
  · obtain rfl : s2 = s' := (Prod.mk.inj (hloop.symm.trans hr)).2
    exact .inr ⟨used', h', hspent⟩
  · exact .inl (hnone s' hr)

theorem Shows.userByte_segment (h : Shows region link used pml4 (showSegment img ph V) s)
    (hend : ph.vaddr + ph.memsz ≤ 2 ^ 47) {a : Nat} (hlo : ph.vaStart ≤ a)
    (hhi : a < ph.vaStart + ph.numPages * pageSize) :
    DevOs.userByte s.mem pml4 (BitVec.ofNat 64 a) = some (putByte img ph a) := by
  have hpages := ph.numPages_eq hend
  rw [ElfPhdr.vaStart, alignDown, pageSize_eq] at hlo hhi
  refine h.userByte (by omega) (@viewByte_of_page _ _ (elfFlagsToVmm ph.flags) _ ?_)
  rw [showSegment, showPages_at (by omega), if_pos]
  rw [pageSize_eq]
  omega

theorem ElfPhdr.mem_pages (h : ph.vaddr + ph.memsz ≤ 2 ^ 47) {i : Nat} (hi : i < ph.memsz) :
    ph.vaStart ≤ ph.vaddr + i ∧ ph.vaddr + i < ph.vaStart + ph.numPages * pageSize := by
  rw [ph.numPages_eq h, ElfPhdr.vaStart, alignDown, pageSize_eq]
  omega

theorem putByte_of_file (hend : ph.vaddr + ph.filesz < 2 ^ 64)
    (hoff : ph.offset + ph.filesz < 2 ^ 64) {i : Nat} (hi : i < ph.filesz) :
    putByte img ph (ph.vaddr + i) = img.data (ph.offset + i) := by
  rw [putByte, Nat.mod_eq_of_lt hend, if_pos (by omega), Nat.add_sub_cancel_left,
    Nat.mod_eq_of_lt (by omega)]

theorem putByte_of_outside (hend : ph.vaddr + ph.filesz < 2 ^ 64) {a : Nat}
    (ha : a < ph.vaddr ∨ ph.vaddr + ph.filesz ≤ a) : putByte img ph a = 0 := by
  rw [putByte, Nat.mod_eq_of_lt hend, if_neg (by omega)]

theorem TreeOk.lays (h : TreeOk used pml4 (lower pml4 s)) :
    Lays (fun _ => True) (fun _ => True) s used pml4 (fun _ => none) s where
  tree := h
  tables _ _ := trivial
  links _ _ _ _ _ _ := trivial
  pages _ _ hw := by cases hw
  start := ⟨h.supply, fun _ _ => trivial, fun _ _ => trivial⟩
  took := .refl _
  mem _ _ := rfl

/-- **`elf_map_segment`** with frames enough for the pages and their tables: the program
sees the file's bytes at the address of the segment, and zeros in the rest of its
pages. -/
theorem elfMapSegment_shows (h : TreeOk used pml4 (lower pml4 s)) (hmem : 0 < ph.memsz)
    (hfile : ph.filesz ≤ ph.memsz) (hsize : ph.offset + ph.filesz ≤ img.size)
    (himg : img.size < 2 ^ 64) (hend : ph.vaddr + ph.memsz ≤ 2 ^ 47 - 4096)
    (hfree : ph.numPages + (missingTables s.mem pml4
        (pagesFrom (BitVec.ofNat 64 ph.vaStart) ph.numPages)).card ≤
      (clearFrames s.frames.bitmap).card) :
    ∃ s', elfMapSegment s pml4 img ph = (true, s') ∧
      (∀ i < ph.filesz, userByte s'.mem pml4 (BitVec.ofNat 64 (ph.vaddr + i)) =
        some (img.data (ph.offset + i))) ∧
      (∀ i, ph.filesz ≤ i → i < ph.memsz →
        userByte s'.mem pml4 (BitVec.ofNat 64 (ph.vaddr + i)) = some 0) ∧
      ∀ a, ph.vaStart ≤ a → a < ph.vaStart + ph.numPages * pageSize →
        a < ph.vaddr ∨ ph.vaddr + ph.memsz ≤ a →
        userByte s'.mem pml4 (BitVec.ofNat 64 a) = some 0 := by
  have hhalf : ph.vaddr + ph.memsz ≤ 2 ^ 47 := by omega
  have hpages := ph.numPages_eq hhalf
  have hva : ph.vaStart = ph.vaddr / pageSize * pageSize := rfl
  rw [← missingTables_lower h (ph.lowerHalf hhalf), hva] at hfree
  obtain ⟨s', used', hloop, h', -⟩ | ⟨hfew, -⟩ :=
    @Lays.mapSegmentLoop _ _ used pml4 _ s s img ph h.lays ph.numPages (ph.vaddr / pageSize)
      (by rw [hpages, pageSize_eq]; omega)
  · have hbytes := fun {a} => @Shows.userByte_segment _ _ used' pml4 _ s' img ph h'.toShows hhalf a
    refine ⟨s', ?_, fun i hi => ?_, fun i hlo hhi => ?_, fun a hlo hhi ha => ?_⟩
    · rw [elfMapSegment, if_neg (by omega), if_neg]
      · exact hloop
      · rw [Nat.mod_eq_of_lt (by omega)]
        omega
    · obtain ⟨hlo, hhi⟩ := ph.mem_pages hhalf (Nat.lt_of_lt_of_le hi hfile)
      rw [hbytes hlo hhi, putByte_of_file (by omega) (by omega) hi]
    · obtain ⟨hlo', hhi'⟩ := ph.mem_pages hhalf hhi
      rw [hbytes hlo' hhi', putByte_of_outside (by omega) (by omega)]
    · rw [hbytes hlo hhi, putByte_of_outside (by omega) (by omega)]
  · exact absurd hfree (Nat.not_le.mpr hfew)

theorem lower_emptyMachine (n pml4 : Nat) : lower pml4 (emptyMachine n) = emptyMachine n := by
  refine congrArg (Phys.mk · (emptyMachine n).frames) (funext fun x => ?_)
  exact ite_self 0

theorem elfMapSegment_shows_smallElf :
    ∃ s', elfMapSegment (emptyMachine 8) 0x200000 (smallElf 64)
        ⟨ptLoad, 6, 120, 0x400FFC, 8, 0x20⟩ = (true, s') ∧
      (∀ i < 8, userByte s'.mem 0x200000 (BitVec.ofNat 64 (0x400FFC + i)) = some 0x90) ∧
      userByte s'.mem 0x200000 0x401004#64 = some 0 ∧
      userByte s'.mem 0x200000 0x400FFB#64 = some 0 := by
  have hpages : ElfPhdr.numPages ⟨ptLoad, 6, 120, 0x400FFC, 8, 0x20⟩ = 2 := by decide
  have hva : ElfPhdr.vaStart ⟨ptLoad, 6, 120, 0x400FFC, 8, 0x20⟩ = 0x400000 := by decide
  have htree : TreeOk (· = 0x200000) 0x200000 (lower 0x200000 (emptyMachine 8)) := by
    rw [lower_emptyMachine]
    exact treeOk_emptyMachine (by decide)
  have htables := card_missingTables_le_three (emptyMachine 8).mem 0x200000
    (pagesFrom 0x400000#64 2)
  obtain ⟨s', hr, hfile, hzero, hrest⟩ := @elfMapSegment_shows _ 0x200000 (emptyMachine 8)
    (smallElf 64) ⟨ptLoad, 6, 120, 0x400FFC, 8, 0x20⟩ htree (by decide) (by decide) (by decide)
    (by decide) (by decide) (by
      rw [hpages, hva, card_clearFrames_emptyMachine (by decide)]
      exact Nat.add_le_add_left htables 2)
  refine ⟨s', hr, fun i hi => ?_, hzero 8 (by decide) (by decide), ?_⟩
  · rw [hfile i hi]
    revert i
    decide
  · exact hrest 0x400FFB (by rw [hva]; decide) (by rw [hva, hpages]; decide) (by decide)

end DevOs
