import DevOs.Elf.Loaded

/-!
# Where `elf_load` writes

For the null return address the offset in the page is added twice, so that it is written to
the frame *behind* the top of the stack. `elfWritesOk_iff` says when that is a frame of the
call: a program takes a known number of frames (`ElfImage.loadFrames`), the one at the top of
the stack is the last, and only the first, the new PML4, can lie behind it.
-/

namespace DevOs

open ByteMem FrameSupply

/-! ## The property and its condition -/

/-- The pages of a program, in the order in which they are mapped. -/
def ElfImage.loadPages (img : ElfImage) : List (BitVec 64) :=
  img.segmentPages img.phnum ++ pagesFrom userStackBottom 16

/-- The frames of a program: one for each page and one for each table. -/
def ElfImage.loadFrames (img : ElfImage) : Nat :=
  img.loadPages.length + (tablePaths img.loadPages).card

variable {used used' used'' : Nat → Prop} {pml4 page k d : Nat} {s s1 s2 s' s'' : Phys Pmm}
  {es es' : List PhysEvent} {v va flags : BitVec 64} {img : ElfImage} {ph : ElfPhdr}
  {usedK : Nat → Prop} {V : View} {region : Nat → Prop} {link : BitVec 64 → Prop}

/-- The tables `used`, and the frames that have been handed out in `es`. -/
def Had (used : Nat → Prop) (es : List PhysEvent) (f : Nat) : Prop := used f ∨ .alloc f ∈ es

/-- A part of the loader writes to the tables that were there and to frames that it was
given; these are its tables from then on. -/
structure Part (used : Nat → Prop) (pml4 : Nat) (es : List PhysEvent) (s' : Phys Pmm)
    (used' : Nat → Prop) : Prop where
  tree : TreeOk used' pml4 (lower pml4 s')
  tables : ∀ t, used' t → Had used es t
  covered : Covered (Had used es) es

theorem Had.append {f : Nat} (h : Had used es f) (es' : List PhysEvent) :
    Had used (es ++ es') f :=
  h.imp_right (List.mem_append_left es')

theorem Part.nil (h : TreeOk used pml4 (lower pml4 s)) : Part used pml4 [] s used :=
  ⟨h, fun _ ht => .inl ht, covered_nil⟩

theorem Part.append (h : Part used pml4 es s1 used') (h' : Part used' pml4 es' s' used'') :
    Part used pml4 (es ++ es') s' used'' := by
  have hlift : ∀ f, Had used' es' f → Had used (es ++ es') f := by
    rintro f (hf | hf)
    · exact (h.tables f hf).append es'
    · exact .inr (List.mem_append_right es hf)
  refine ⟨h'.tree, fun t ht => hlift t (h'.tables t ht), covered_append.mpr ⟨?_, ?_⟩⟩
  · exact h.covered.mono fun f hf => hf.append es'
  · exact h'.covered.mono hlift

theorem ElfImage.length_loadPages (img : ElfImage) :
    img.loadPages.length = (img.segmentPages img.phnum).length + 16 := by
  rw [ElfImage.loadPages, List.length_append, length_pagesFrom]

theorem showPages_ne_none {lo n : Nat} {g : Nat → UInt8} {x : BitVec 36}
    (h : V x ≠ none ∨ lo ≤ x.toNat ∧ x.toNat < lo + n) : showPages lo n flags g V x ≠ none := by
  unfold showPages
  split
  · simp
  · next hout => exact h.resolve_right hout

theorem showSegments_ne_none (hhalf : img.UserHalf) {n : Nat} (hn : n ≤ img.phnum)
    (hv : v ∈ img.segmentPages n) : showSegments img n (pageNumber v) ≠ none := by
  induction n with
  | zero => cases hv
  | succ n ih =>
    rw [ElfImage.segmentPages] at hv
    rw [showSegments]
    by_cases hl : img.Loads n
    · rw [if_pos hl, List.mem_append] at hv
      rw [if_pos hl, showSegment]
      refine showPages_ne_none (hv.imp (ih (by omega)) fun hmem => ?_)
      have hend := hhalf n hn hl
      have hpages := (img.phdr n).numPages_eq hend
      obtain ⟨j, hj, hto⟩ := (img.phdr n).toNat_of_mem hend hmem
      rw [toNat_pageNumber, hto, pageSize_eq]
      omega
    · rw [if_neg hl, List.append_nil] at hv
      rw [if_neg hl]
      exact ih (by omega) hv

theorem showStack_ne_none (hhalf : img.UserHalf) (hv : v ∈ img.loadPages) :
    showStack (showSegments img img.phnum) (pageNumber v) ≠ none := by
  refine showPages_ne_none ((List.mem_append.mp hv).imp ?_ fun hmem => ?_)
  · exact showSegments_ne_none hhalf le_rfl
  · have hto : userStackBottom.toNat = stackFirst * pageSize := by decide
    obtain ⟨i, hi, hv⟩ := toNat_of_mem_pagesFrom (n := 16) (by rw [hto]; decide) hmem
    rw [toNat_pageNumber, hv, hto, stackFirst, pageSize_eq]
    omega

/-- The states that a load goes through, up to the null return address. -/
structure LoadStates (s : Phys Pmm) (k : Nat) (img : ElfImage) (pml4 : Nat)
    (s1 s2 s3 : Phys Pmm) : Prop where
  create : vmmCreateAddressSpace s k = (pml4, s1)
  nonzero : pml4 ≠ 0
  segments : mapSegments pml4 img img.phnum 0 s1 = (true, s2)
  stack : allocRangeLoop pml4 stackFlags 16 userStackBottom s2 = (true, s3)

/-- The frames of a program, counted when its PML4 is there. -/
theorem loadFrames_create (hk : TreeOk usedK k s)
    (hcreate : vmmCreateAddressSpace s k = (pml4, s1)) (hne : pml4 ≠ 0) :
    img.loadFrames = img.loadPages.length +
        (missingTables (lowerMem s1.mem pml4) pml4 img.loadPages).card + 1 ∧
      (clearFrames s1.frames.bitmap).card + 1 = (clearFrames s.frames.bitmap).card := by
  have hpages : img.loadPages ≠ [] := List.append_ne_nil_of_right_ne_nil _ (by decide)
  have htables := (Beside.create hk hcreate hne).user.tree.card_missingTables hpages
  obtain ⟨frames, hs, rfl⟩ := vmmCreateAddressSpace_of_ne hcreate hne
  rw [ElfImage.loadFrames, ← htables]
  exact ⟨rfl, card_clearFrames_alloc hs⟩

/-- **The frame at the top of the stack** is the last one that the program takes. -/
theorem LoadStates.top {s3 : Phys Pmm} (hk : TreeOk usedK k s) (hhalf : img.UserHalf)
    (h : LoadStates s k img pml4 s1 s2 s3) :
    img.loadFrames ≤ (clearFrames s.frames.bitmap).card ∧
      ∃ d, nthFrame (img.loadFrames - 1) s.frames = some d ∧ pageSize ∣ d ∧
        writeNullRetEvents s3 pml4 = [.write (d + pageSize + 8 * (510 : Fin 512)) 8] ∧
        (FreeFrame s1.frames (d + pageSize) → FreeFrame s3.frames (d + pageSize)) := by
  have htree := (Beside.create hk h.create h.nonzero).user.tree
  obtain ⟨used2, h2, hspent2⟩ := (htree.laysNew.mapSegments hhalf le_rfl h.segments).resolve_left
    fun hnone => by
      have hstack := h.stack
      rw [(allocRangeLoop_of_none (allocPage_of_none hnone)).2] at hstack
      cases hstack
  obtain ⟨used3, d, h3, hspent3, hbehind, hfree, hnth⟩ :=
    h2.stack (hintSet_of_create h.create h.nonzero) h.stack
  have hcount := hspent2.append hspent3 img.loadPages (List.Subset.refl _)
  have hmapped : ∀ v ∈ img.loadPages, ∃ pt, pageTable (lowerMem s3.mem pml4) pml4 v = some pt := by
    intro v hv
    obtain ⟨w, hw⟩ := Option.ne_none_iff_exists'.mp (showStack_ne_none hhalf hv)
    obtain ⟨d, -, hd⟩ := h3.pages v w hw
    obtain ⟨-, pt, hpt, -⟩ := mappedEntry_eq_some hd.entry
    exact ⟨pt, hpt⟩
  rw [missingTables_eq_empty hmapped, Finset.card_empty] at hcount
  change _ = _ + img.loadPages.length + _ at hcount
  obtain ⟨hframes, hfirst⟩ := @loadFrames_create pml4 k s s1 img _ hk h.create h.nonzero
  refine ⟨by omega, d, ?_, hbehind.data.aligned, (hbehind.writeNullRet h3.tree).1, hfree⟩
  have hnumber : img.loadFrames - 1 = (clearFrames s1.frames.bitmap).card -
      ((clearFrames s3.frames.bitmap).card + 1) + 1 := by
    have hlen := img.length_loadPages
    omega
  obtain ⟨frames, hs, rfl⟩ := vmmCreateAddressSpace_of_ne h.create h.nonzero
  rw [hnumber, nthFrame_succ hs, hnth]

end DevOs
