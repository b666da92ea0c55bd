import DevOs.Elf
import DevOs.Lib.Probe

/-!
Which bytes of an image `elf_load` reads.
-/

namespace DevOs

open ByteMem Buffer Probe

def elfValidateReads (size : Nat) : Probe Bool :=
  if size < elfHdrSize then pure false
  else do
    let magic ← word 4 0
    if magic ≠ elfMagic then pure false
    else do
      let cls ← word 1 4
      if cls ≠ elfClass64 then pure false
      else do
        let encoding ← word 1 5
        if encoding ≠ elfData2Lsb then pure false
        else do
          let type ← word 2 16
          if type ≠ etExec then pure false
          else do
            let machine ← word 2 18
            if machine ≠ emX86x64 then pure false
            else do
              let version ← word 4 20
              if version ≠ evCurrent then pure false
              else do
                let phentsize ← word 2 54
                if phentsize < elfPhdrSize then pure false
                else do
                  let phnum ← word 2 56
                  if phnum = 0 then pure false
                  else do
                    let entryPoint ← word 8 24
                    if entryPoint = 0 then pure false else pure true

/-- Where the file data of the page at `pageVa` starts and ends. -/
def ElfPhdr.copyStart (ph : ElfPhdr) (pageVa : Nat) : Nat :=
  if pageVa < ph.vaddr then ph.vaddr else pageVa

@[inherit_doc ElfPhdr.copyStart]
def ElfPhdr.copyEnd (ph : ElfPhdr) (pageVa : Nat) : Nat :=
  let pageEnd := (pageVa + pageSize) % 2 ^ 64
  let segFend := (ph.vaddr + ph.filesz) % 2 ^ 64
  if segFend < pageEnd then segFend else pageEnd

/-- The `memcpy` into the frame of the page at `pageVa`. -/
def copyFileDataReads (ph : ElfPhdr) (m : Mem) (page pageVa : Nat) : Probe Mem :=
  let copyStart := ph.copyStart pageVa
  let copyEnd := ph.copyEnd pageVa
  if copyStart < copyEnd ∧ copyStart < (ph.vaddr + ph.filesz) % 2 ^ 64 then do
    let dst := page + (copyStart - pageVa)
    let bytes ← gather (fun j => (ph.offset + (copyStart - ph.vaddr) + j) % 2 ^ 64)
      (copyEnd - copyStart)
    pure fun x =>
      if dst ≤ x ∧ x < dst + (copyEnd - copyStart) then bytes.getD (x - dst) 0 else m x
  else pure m

section

variable {σ : Type} [FrameSource σ] {img : ElfImage} {pml4 : Nat} {ph : ElfPhdr} {P : Nat → Prop}

def mapSegmentLoopReads (pml4 : Nat) (ph : ElfPhdr) :
    Nat → Nat → Phys σ → Probe (Bool × Phys σ)
  | 0, _, s => pure (true, s)
  | n + 1, pageVa, s =>
    match allocPage s with
    | none => pure (false, s)
    | some (page, s) => do
      let s := vmmMap s pml4 (BitVec.ofNat 64 pageVa) (BitVec.ofNat 64 page)
        (elfFlagsToVmm ph.flags)
      let mem ← copyFileDataReads ph s.mem page pageVa
      mapSegmentLoopReads pml4 ph n ((pageVa + pageSize) % 2 ^ 64) { s with mem := mem }

/-- `elf_map_segment` for the program header at `a`, of type `type`. -/
def elfMapSegmentReads (s : Phys σ) (pml4 size a type : Nat) : Probe (Bool × Phys σ) := do
  let memsz ← word 8 (a + 40)
  if memsz = 0 then pure (true, s)
  else do
    let filesz ← word 8 (a + 32)
    let offset ← word 8 (a + 8)
    if 0 < filesz ∧ size < (offset + filesz) % 2 ^ 64 then pure (false, s)
    else do
      let vaddr ← word 8 (a + 16)
      let flags ← word 4 (a + 4)
      let ph : ElfPhdr := ⟨type, flags, offset, vaddr, filesz, memsz⟩
      mapSegmentLoopReads pml4 ph ph.numPages ph.vaStart s

def mapSegmentsReads (pml4 size : Nat) : Nat → Nat → Phys σ → Probe (Bool × Phys σ)
  | 0, _, s => pure (true, s)
  | n + 1, i, s => do
    let phoff ← word 8 32
    let phentsize ← word 2 54
    let a := (phoff + i * phentsize) % 2 ^ 64
    let type ← word 4 a
    if type ≠ ptLoad then mapSegmentsReads pml4 size n (i + 1) s
    else do
      let mapped ← elfMapSegmentReads s pml4 size a type
      if mapped.1 then mapSegmentsReads pml4 size n (i + 1) mapped.2 else pure (false, mapped.2)

def elfLoadReads (s : Phys σ) (kernelPml4 size : Nat) (heap : HeapNeed) :
    Probe (Option UserTask × Phys σ) := do
  let valid ← elfValidateReads size
  if valid = false then pure (none, s)
  else do
    let (pml4, s) := vmmCreateAddressSpace s kernelPml4
    if pml4 = 0 then pure (none, s)
    else do
      let phnum ← word 2 56
      let mapped ← mapSegmentsReads pml4 size phnum 0 s
      if mapped.1 = false then pure (none, mapped.2)
      else
        let (ok, s) := vmmAllocRange mapped.2 pml4 (userStackTop - BitVec.ofNat 64 userStackSize)
          userStackSize (vmmUserRw ||| vmmNoExec)
        if ok = false then pure (none, s)
        else do
          let _ ← word 8 24
          pure (schedCreateUserTask (writeNullRet s pml4) kernelPml4 pml4 heap)

theorem value_elfValidateReads (img : ElfImage) :
    (elfValidateReads img.size).value img.data = elfValidate img := by
  simp only [elfValidateReads, elfValidate, value_ite, value_bind, value_word,
    value_pure, ElfImage.type, ElfImage.machine, ElfImage.version, ElfImage.phentsize,
    ElfImage.phnum, ElfImage.entryPoint]
  rfl

theorem value_copyFileDataReads (img : ElfImage) (ph : ElfPhdr) (m : Mem) (page pageVa : Nat) :
    (copyFileDataReads ph m page pageVa).value img.data = copyFileData img ph m page pageVa := by
  unfold copyFileDataReads copyFileData
  dsimp only
  rw [value_ite, value_bind, value_gather, value_pure, value_pure]
  refine if_congr Iff.rfl (funext fun x => if_ctx_congr Iff.rfl (fun hx => ?_) fun _ => rfl) rfl
  have hlt : x - (page + (ph.copyStart pageVa - pageVa)) <
      ph.copyEnd pageVa - ph.copyStart pageVa := Nat.sub_lt_left_of_lt_add hx.1 hx.2
  simp only [List.getD_eq_getElem?_getD, List.getElem?_map, List.getElem?_range hlt,
    Option.map_some, Option.getD_some]
  rfl

theorem value_mapSegmentLoopReads (pml4 : Nat) (img : ElfImage) (ph : ElfPhdr) :
    ∀ (n pageVa : Nat) (s : Phys σ), (mapSegmentLoopReads pml4 ph n pageVa s).value img.data =
        mapSegmentLoop pml4 img ph n pageVa s
  | 0, _, _ => rfl
  | n + 1, pageVa, s => by
    rw [mapSegmentLoopReads, mapSegmentLoop]
    cases allocPage s with
    | none => rfl
    | some p =>
      dsimp only
      rw [value_bind, value_copyFileDataReads, value_mapSegmentLoopReads]

theorem value_elfMapSegmentReads (s : Phys σ) (pml4 : Nat) (img : ElfImage) (i : Nat) :
    (elfMapSegmentReads s pml4 img.size ((img.phoff + i * img.phentsize) % 2 ^ 64)
      (img.phdr i).type).value img.data = elfMapSegment s pml4 img (img.phdr i) := by
  simp only [elfMapSegmentReads, elfMapSegment, value_bind, value_ite, value_word,
    value_pure, value_mapSegmentLoopReads, ElfImage.phdr]
  rfl

theorem value_mapSegmentsReads (pml4 : Nat) (img : ElfImage) : ∀ (n i : Nat) (s : Phys σ),
      (mapSegmentsReads pml4 img.size n i s).value img.data = mapSegments pml4 img n i s
  | 0, _, _ => rfl
  | n + 1, i, s => by
    simp only [mapSegmentsReads, mapSegments, value_bind, value_ite, value_word,
      value_pure, value_mapSegmentsReads pml4 img n]
    have hseg := value_elfMapSegmentReads s pml4 img i
    simp only [ElfImage.phdr, ElfImage.phoff, ElfImage.phentsize] at hseg ⊢
    rw [hseg]
    rfl

theorem value_elfLoadReads (s : Phys σ) (kernelPml4 : Nat) (img : ElfImage) (heap : HeapNeed) :
    (elfLoadReads s kernelPml4 img.size heap).value img.data = elfLoad s kernelPml4 img heap := by
  simp only [elfLoadReads, elfLoad, value_bind, value_ite, value_word,
    value_pure, value_elfValidateReads, value_mapSegmentsReads]
  rfl

/-- The number of bytes of the file that go into the first `k` pages. Nothing
is copied if the end of the data or of the page wraps around. -/
def ElfPhdr.copied (ph : ElfPhdr) (k : Nat) : Nat :=
  if ph.vaddr + ph.filesz < 2 ^ 64 then
    min (ph.vaddr + ph.filesz) (min (ph.vaStart + k * pageSize) (2 ^ 64 - pageSize)) - ph.vaddr
  else 0

/-- The fields that are read of program header `i` lie in the image. -/
structure HeaderFits (img : ElfImage) (i : Nat) : Prop where
  type : (img.phoff + i * img.phentsize) % 2 ^ 64 + 4 ≤ img.size
  load : (img.phdr i).type = ptLoad → (img.phoff + i * img.phentsize) % 2 ^ 64 + 48 ≤ img.size

/-- The bytes that a segment gets from the file lie in the image: those for the
first `k` pages, whenever there are frames for so many. -/
def SegmentFits (s : Phys σ) (pml4 : Nat) (img : ElfImage) (ph : ElfPhdr) : Prop :=
  ph.memsz ≠ 0 → ¬ (0 < ph.filesz ∧ img.size < (ph.offset + ph.filesz) % 2 ^ 64) →
    ∀ k ≤ ph.numPages, (mapSegmentLoop pml4 img ph k ph.vaStart s).1 = true →
      ph.copied k = 0 ∨ ph.offset + ph.copied k ≤ img.size

/-- Of the `n` headers from `i` on, those that the loop reaches fit, and so do
their segments. -/
def HeadersFit (s : Phys σ) (pml4 : Nat) (img : ElfImage) (n i : Nat) : Prop :=
  ∀ j < n, (mapSegments pml4 img j i s).1 = true → HeaderFits img (i + j) ∧
    ((img.phdr (i + j)).type = ptLoad →
      SegmentFits (mapSegments pml4 img j i s).2 pml4 img (img.phdr (i + j)))

def ReadsFit (s : Phys σ) (kernelPml4 : Nat) (img : ElfImage) : Prop :=
  elfValidate img = true →
    let (pml4, s) := vmmCreateAddressSpace s kernelPml4
    pml4 ≠ 0 → HeadersFit s pml4 img img.phnum 0

theorem safe_copyFileDataReads {m data : Mem} {page pageVa size : Nat}
    (hva : pageVa < 2 ^ 64) (hvaddr : ph.vaddr < 2 ^ 64) (hfilesz : ph.filesz < 2 ^ 64) :
    (copyFileDataReads ph m page pageVa).Safe size data ↔
      ∀ o, pageVa ≤ ph.vaddr + o → ph.vaddr + o < pageVa + pageSize → o < ph.filesz →
        ph.vaddr + ph.filesz < 2 ^ 64 → pageVa + pageSize < 2 ^ 64 →
          (ph.offset + o) % 2 ^ 64 < size := by
  simp only [copyFileDataReads, safe_ite, safe_bind, safe_gather, safe_pure, and_true, implies_true]
  have hend : ph.copyEnd pageVa =
      min ((ph.vaddr + ph.filesz) % 2 ^ 64) ((pageVa + pageSize) % 2 ^ 64) := by
    simp only [ElfPhdr.copyEnd]
    split <;> omega
  have hstart : ph.copyStart pageVa = max ph.vaddr pageVa := by
    simp only [ElfPhdr.copyStart]
    split <;> omega
  rw [hend, hstart]
  unfold pageSize
  constructor
  · intro h o hlo hhi ho hnowrap hpage
    have hread := h ⟨by omega, by omega⟩ (ph.vaddr + o - max ph.vaddr pageVa) (by omega)
    rwa [show ph.offset + (max ph.vaddr pageVa - ph.vaddr) +
      (ph.vaddr + o - max ph.vaddr pageVa) = ph.offset + o by omega] at hread
  · intro h hcopy j hj
    have hread := h (max ph.vaddr pageVa - ph.vaddr + j) (by omega) (by omega) (by omega) (by omega)
      (by omega)
    rwa [← Nat.add_assoc] at hread

theorem numPages_mul_lt (ph : ElfPhdr) : ph.numPages * pageSize < 2 ^ 64 := by
  unfold ElfPhdr.numPages
  dsimp only
  generalize alignUp ((ph.vaddr + ph.memsz) % 2 ^ 64) pageSize + (2 ^ 64 - ph.vaStart) = x
  unfold pageSize
  omega

def ElfPhdr.pageAt (ph : ElfPhdr) (i : Nat) : Nat := (ph.vaStart + i * pageSize) % 2 ^ 64

theorem forall_page_iff {k : Nat} (hvaddr : ph.vaddr < 2 ^ 64)
    (hk : k ≤ ph.numPages) :
    (∀ i < k, ∀ o, ph.pageAt i ≤ ph.vaddr + o → ph.vaddr + o < ph.pageAt i + pageSize →
        o < ph.filesz → ph.vaddr + ph.filesz < 2 ^ 64 → ph.pageAt i + pageSize < 2 ^ 64 → P o) ↔
      ∀ o < ph.copied k, P o := by
  have hpages : k * pageSize < 2 ^ 64 :=
    Nat.lt_of_le_of_lt (Nat.mul_le_mul_right _ hk) (numPages_mul_lt ph)
  have hle : ph.vaStart ≤ ph.vaddr := alignDown_le _ _
  have hlt : ph.vaddr < ph.vaStart + pageSize := lt_alignDown_add (by decide)
  obtain ⟨q, hq⟩ : pageSize ∣ ph.vaStart := dvd_alignDown _ _
  simp only [ElfPhdr.copied, ElfPhdr.pageAt, pageSize] at hpages hlt hq ⊢
  constructor
  · intro h o ho
    split at ho
    · refine h ((ph.vaddr + o - ph.vaStart) / 4096) (by omega) o (by omega) (by omega) (by omega)
        (by omega) (by omega)
    · omega
  · intro h i hi o hlo hhi hfile hnowrap hpage
    refine h o ?_
    rw [if_pos hnowrap]
    -- a page behind the end of the address space is one before the segment
    omega

theorem forall_index_iff {offset c size : Nat} (hoffset : offset < 2 ^ 64) (hsize : size < 2 ^ 64) :
    (∀ o < c, (offset + o) % 2 ^ 64 < size) ↔ c = 0 ∨ offset + c ≤ size := by
  constructor
  · intro h
    by_cases hc : c = 0
    · exact .inl hc
    · have hlast := h (c - 1) (by omega)
      have hwrap : 2 ^ 64 - 1 - offset < c → 2 ^ 64 - 1 < size := by
        intro hlong
        have hread := h (2 ^ 64 - 1 - offset) hlong
        rwa [show offset + (2 ^ 64 - 1 - offset) = 2 ^ 64 - 1 by omega] at hread
      omega
  · omega

theorem safe_mapSegmentLoopReads
    (hP : ∀ pageVa < 2 ^ 64, ∀ m page,
      (copyFileDataReads ph m page pageVa).Safe img.size img.data ↔ P pageVa) :
    ∀ (n pageVa : Nat) (s : Phys σ), pageVa < 2 ^ 64 →
      ((mapSegmentLoopReads pml4 ph n pageVa s).Safe img.size img.data ↔
        ∀ k ≤ n, (mapSegmentLoop pml4 img ph k pageVa s).1 = true →
          ∀ i < k, P ((pageVa + i * pageSize) % 2 ^ 64))
  | 0, pageVa, s, hva => by
    simp [mapSegmentLoopReads]
  | n + 1, pageVa, s, hva => by
    have hnext : ∀ i, ((pageVa + pageSize) % 2 ^ 64 + i * pageSize) % 2 ^ 64 =
        (pageVa + (i + 1) * pageSize) % 2 ^ 64 := by
      intro i
      unfold pageSize
      omega
    have hsucc : ∀ Q : Nat → Prop, (∀ k ≤ n + 1, Q k) ↔ Q 0 ∧ ∀ k ≤ n, Q (k + 1) := by
      intro Q
      simpa [Nat.lt_succ_iff] using (Nat.forall_lt_succ_left (p := Q) (n := n + 1))
    rw [hsucc]
    simp only [mapSegmentLoopReads, mapSegmentLoop, Nat.not_lt_zero, false_implies, implies_true,
      true_and]
    cases allocPage s with
    | none => simp
    | some p =>
      dsimp only
      rw [safe_bind, value_copyFileDataReads, hP pageVa hva,
        safe_mapSegmentLoopReads hP n _ _ (Nat.mod_lt _ (by decide))]
      have hfirst : (pageVa + 0 * pageSize) % 2 ^ 64 = pageVa := by omega
      simp only [hnext, Nat.forall_lt_succ_left, hfirst]
      constructor
      · intro ⟨hpage, hrest⟩ k hk hok
        exact ⟨hpage, hrest k hk hok⟩
      · intro h
        exact ⟨(h 0 (Nat.zero_le n) rfl).1, fun k hk hok => (h k hk hok).2⟩

theorem safe_elfMapSegmentReads {s : Phys σ} {i : Nat}
    (hsize : img.size < 2 ^ 64) :
    (elfMapSegmentReads s pml4 img.size ((img.phoff + i * img.phentsize) % 2 ^ 64)
        (img.phdr i).type).Safe img.size img.data ↔
      (img.phoff + i * img.phentsize) % 2 ^ 64 + 48 ≤ img.size ∧
        SegmentFits s pml4 img (img.phdr i) := by
  have hvaddr : (img.phdr i).vaddr < 2 ^ 64 := load_lt 8 _ _
  have hfilesz : (img.phdr i).filesz < 2 ^ 64 := load_lt 8 _ _
  have hoffset : (img.phdr i).offset < 2 ^ 64 := load_lt 8 _ _
  have hstart : (img.phdr i).vaStart < 2 ^ 64 := Nat.lt_of_le_of_lt (alignDown_le _ _) hvaddr
  -- the loop reads the bytes that go into the pages it maps
  have hloop : (mapSegmentLoopReads pml4 (img.phdr i) (img.phdr i).numPages (img.phdr i).vaStart
      s).Safe img.size img.data ↔ ∀ k ≤ (img.phdr i).numPages,
        (mapSegmentLoop pml4 img (img.phdr i) k (img.phdr i).vaStart s).1 = true →
          (img.phdr i).copied k = 0 ∨ (img.phdr i).offset + (img.phdr i).copied k ≤ img.size := by
    rw [safe_mapSegmentLoopReads (fun _ hva _ _ => safe_copyFileDataReads hva hvaddr hfilesz) _ _ _
      hstart]
    refine forall₃_congr fun k hk _ => ?_
    rw [← forall_index_iff hoffset hsize]
    exact forall_page_iff hvaddr hk
  unfold SegmentFits
  rw [← hloop]
  simp only [elfMapSegmentReads, safe_bind, safe_ite, safe_word, safe_pure,
    value_word, implies_true, true_and]
  change _ + 40 + 7 < _ ∧ (¬ (img.phdr i).memsz = 0 → _ + 32 + 7 < _ ∧ _ + 8 + 7 < _ ∧
    (¬ (0 < (img.phdr i).filesz ∧ _ < ((img.phdr i).offset + (img.phdr i).filesz) % 2 ^ 64) →
      _ + 16 + 7 < _ ∧ _ + 4 + 3 < _ ∧
        (mapSegmentLoopReads pml4 (img.phdr i) (img.phdr i).numPages (img.phdr i).vaStart s).Safe
          img.size img.data)) ↔ _
  generalize (img.phoff + i * img.phentsize) % 2 ^ 64 = a
  constructor
  · intro hsafe
    obtain ⟨hlast, hrest⟩ := hsafe
    exact ⟨by omega, fun hmem hfits => ((hrest hmem).2.2 hfits).2.2⟩
  · intro hfit
    obtain ⟨hlast, hrest⟩ := hfit
    exact ⟨by omega, fun hmem => ⟨by omega, by omega, fun hfits =>
      ⟨by omega, by omega, hrest hmem hfits⟩⟩⟩

theorem headersFit_succ {s : Phys σ} {n i : Nat} :
    HeadersFit s pml4 img (n + 1) i ↔
      (HeaderFits img i ∧ ((img.phdr i).type = ptLoad → SegmentFits s pml4 img (img.phdr i))) ∧
      ((img.phdr i).type ≠ ptLoad → HeadersFit s pml4 img n (i + 1)) ∧
      ((img.phdr i).type = ptLoad → (elfMapSegment s pml4 img (img.phdr i)).1 = true →
        HeadersFit (elfMapSegment s pml4 img (img.phdr i)).2 pml4 img n (i + 1)) := by
  have hnext : ∀ j, i + 1 + j = i + (j + 1) := by omega
  unfold HeadersFit
  rw [Nat.forall_lt_succ_left]
  refine and_congr (by simp [mapSegments]) ?_
  simp only [mapSegments, hnext]
  by_cases hload : (img.phdr i).type = ptLoad
  · by_cases hok : (elfMapSegment s pml4 img (img.phdr i)).1 = true
    · simp [hload, hok]
    · simp [hload, hok]
  · simp [hload]

theorem safe_mapSegmentsReads (hhdr : elfHdrSize ≤ img.size)
    (hsize : img.size < 2 ^ 64) : ∀ (n i : Nat) (s : Phys σ),
      (mapSegmentsReads pml4 img.size n i s).Safe img.size img.data ↔ HeadersFit s pml4 img n i
  | 0, i, s => by
    simp [mapSegmentsReads, HeadersFit]
  | n + 1, i, s => by
    have hphoff : load 8 img.data 32 = img.phoff := rfl
    have hphentsize : load 2 img.data 54 = img.phentsize := rfl
    have htype : load 4 img.data ((img.phoff + i * img.phentsize) % 2 ^ 64) =
        (img.phdr i).type := rfl
    unfold elfHdrSize at hhdr
    rw [headersFit_succ]
    simp only [mapSegmentsReads, safe_bind, safe_word, safe_ite,
      value_word, safe_pure, hphoff, hphentsize, htype, value_elfMapSegmentReads,
      safe_elfMapSegmentReads hsize, safe_mapSegmentsReads hhdr hsize n]
    constructor
    · intro hsafe
      obtain ⟨_, _, hread, hother, hload⟩ := hsafe
      refine ⟨⟨⟨by omega, fun h => ?_⟩, fun h => ?_⟩, hother, fun h => ?_⟩
      · exact (hload (not_not_intro h)).1.1
      · exact (hload (not_not_intro h)).1.2
      · exact (hload (not_not_intro h)).2.1
    · intro hfit
      obtain ⟨⟨⟨hread, hfields⟩, hseg⟩, hother, hload⟩ := hfit
      refine ⟨by omega, by omega, by omega, hother, fun h => ?_⟩
      have h := not_not.mp h
      exact ⟨⟨hfields h, hseg h⟩, hload h, fun _ => trivial⟩

theorem safe_elfValidateReads (img : ElfImage) :
    (elfValidateReads img.size).Safe img.size img.data := by
  by_cases hsize : img.size < elfHdrSize
  · simp [elfValidateReads, hsize]
  · unfold elfHdrSize at hsize
    simp [elfValidateReads]
    omega

theorem elfHdrSize_le_of_elfValidate (h : elfValidate img = true) :
    elfHdrSize ≤ img.size := by
  by_contra hsize
  simp [elfValidate, Nat.lt_of_not_le hsize] at h

/-- **The reads of `elf_load`** stay within the image exactly if the program
headers that the loop reaches do, and the bytes that their segments get from
the file. -/
theorem safe_elfLoadReads_iff (s : Phys σ) (kernelPml4 : Nat) {img : ElfImage} (heap : HeapNeed)
    (hsize : img.size < 2 ^ 64) :
    (elfLoadReads s kernelPml4 img.size heap).Safe img.size img.data ↔
      ReadsFit s kernelPml4 img := by
  unfold elfLoadReads ReadsFit
  rw [safe_bind, and_iff_right (safe_elfValidateReads img), value_elfValidateReads]
  cases hvalid : elfValidate img with
  | false => simp
  | true =>
    have hhdr := elfHdrSize_le_of_elfValidate hvalid
    have hphnum : load 2 img.data 56 = img.phnum := rfl
    rw [if_neg (by decide)]
    generalize vmmCreateAddressSpace s kernelPml4 = created
    obtain ⟨pml4, s⟩ := created
    dsimp only
    by_cases hpml4 : pml4 = 0
    · simp [hpml4]
    · rw [if_neg hpml4, safe_bind, safe_bind, value_word, hphnum,
        safe_mapSegmentsReads hhdr hsize]
      unfold elfHdrSize at hhdr
      simp only [safe_word, hpml4, ne_eq, not_false_eq_true, forall_true_left]
      constructor
      · intro h
        exact h.2.1
      · intro hfit
        refine ⟨by omega, hfit, ?_⟩
        -- what is left to read is `e_entry`
        simp [safe_ite]
        omega

end

/-- A file of 128 bytes: the header, which says that the program headers are at
`phoff`, one program header behind it, and 8 bytes for 4 MB. -/
def smallElf (phoff : Nat) : ElfImage where
  data := ofList <|
    encode 4 elfMagic ++ [2, 1] ++ List.replicate 10 0 ++ encode 2 etExec ++ encode 2 emX86x64 ++
    encode 4 evCurrent ++ encode 8 0x400000 ++ encode 8 phoff ++ List.replicate 14 0 ++
    encode 2 elfPhdrSize ++ encode 2 1 ++ List.replicate 6 0 ++
    encode 4 ptLoad ++ encode 4 5 ++ encode 8 120 ++ encode 8 0x400000 ++ encode 8 0 ++
    encode 8 8 ++ encode 8 8 ++ encode 8 pageSize ++
    List.replicate 8 0x90
  size := 128

def spareFrames : Phys (List Nat) :=
  ⟨fun _ => 0, (List.range 32).map fun i => 0x200000 + i * pageSize⟩

theorem safe_smallElf :
    (elfLoadReads spareFrames 0x100000 (smallElf 64).size ⟨0, 0, true⟩).Safe (smallElf 64).size
      (smallElf 64).data := by
  refine (safe_elfLoadReads_iff spareFrames 0x100000 ⟨0, 0, true⟩ (by decide)).mpr ?_
  intro _ _ j hj _
  have hphnum : (smallElf 64).phnum = 1 := by decide +kernel
  obtain rfl : j = 0 := by omega
  refine ⟨⟨by decide +kernel, fun _ => by decide +kernel⟩, fun _ _ _ k hk _ => ?_⟩
  have hpages : ((smallElf 64).phdr 0).numPages = 1 := by decide +kernel
  have hcopied : ∀ k ≤ 1,
      ((smallElf 64).phdr 0).offset + ((smallElf 64).phdr 0).copied k ≤ (smallElf 64).size := by
    decide +kernel
  exact .inr (hcopied k (hk.trans hpages.le))

theorem elfLoad_reads_behind_image :
    elfValidate (smallElf 128) = true ∧
      .byte 128 ∈ (elfLoadReads spareFrames 0x100000 (smallElf 128).size ⟨0, 0, true⟩).trace
        (smallElf 128).data := by
  decide +kernel

end DevOs
