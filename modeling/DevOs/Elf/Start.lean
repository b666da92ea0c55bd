import DevOs.Elf.Log
import DevOs.Mm.Vmm.LowerRange
import DevOs.Mm.Vmm.Order

/-!
The address space with which `elf_load` starts a task.
-/

namespace DevOs

open ByteMem FrameSupply

/-- `USER_STACK_TOP - 8`. -/
def userRsp : BitVec 64 := userStackTop - 8#64

def stackPage (j : Nat) : BitVec 64 := userStackBottom + BitVec.ofNat 64 (j * pageSize)

theorem tablePath_stackPage {j : Nat} (hj : j < 16) :
    tablePath (stackPage j) = tablePath userRsp := by
  have hall : ∀ j : Fin 16, tablePath (stackPage j) = tablePath userRsp := by decide
  exact hall ⟨j, hj⟩

theorem lowerHalf_stack : ∀ v ∈ pagesFrom userStackBottom 16, LowerHalf v := by
  intro v hv
  obtain ⟨j, hj, rfl⟩ := mem_pagesFrom.mp hv
  have hslot := (List.cons.inj (tablePath_stackPage hj)).1
  unfold stackPage at hslot
  rw [LowerHalf, hslot]
  decide

theorem elfLoad_eq_task {σ : Type} [FrameSource σ] {s s' : Phys σ} {k : Nat} {img : ElfImage}
    {heap : HeapNeed} {task : UserTask} (h : elfLoad s k img heap = (some task, s')) :
    ∃ pml4 s1 s2 s3, elfValidate img = true ∧ vmmCreateAddressSpace s k = (pml4, s1) ∧ pml4 ≠ 0 ∧
      mapSegments pml4 img img.phnum 0 s1 = (true, s2) ∧
      vmmAllocRange s2 pml4 userStackBottom userStackSize stackFlags = (true, s3) ∧
      task = ⟨pml4, 0x0000500000000000#64⟩ ∧
      s' = growHeap k heap.pages heap.cursor (writeNullRet s3 pml4) := by
  unfold elfLoad at h
  split at h
  · cases h
  next hvalid =>
  rcases e1 : vmmCreateAddressSpace s k with ⟨pml4, s1⟩
  rw [e1] at h
  dsimp only at h
  split at h
  · cases h
  next hz =>
  rcases e2 : mapSegments pml4 img img.phnum 0 s1 with ⟨ok2, s2⟩
  rw [e2] at h
  dsimp only at h
  split at h
  · cases h
  next hok2 =>
  rcases e3 : vmmAllocRange s2 pml4 userStackBottom userStackSize stackFlags with ⟨ok3, s3⟩
  rw [← userStackBottom, ← stackFlags, e3] at h
  dsimp only at h
  split at h
  · cases h
  next hok3 =>
  obtain ⟨htask, rfl⟩ := Prod.mk.inj h
  rw [Bool.not_eq_false] at hok2 hok3 hvalid
  refine ⟨pml4, s1, s2, s3, hvalid, rfl, hz, by rw [e2, hok2], by rw [e3, hok3], ?_, rfl⟩
  split at htask
  · cases htask
    rfl
  · cases htask

def ElfImage.SegmentPage (img : ElfImage) (v : BitVec 64) : Prop :=
  ∃ i < img.phnum, (img.phdr i).type = ptLoad ∧ (img.phdr i).memsz ≠ 0 ∧
    v ∈ pagesFrom (BitVec.ofNat 64 (img.phdr i).vaStart) (img.phdr i).numPages

/-- The tables of the kernel, and beside them an address space whose lower half
maps the pages of `f`. -/
structure Beside (usedK : Nat → Prop) (k : Nat) (used : Nat → Prop) (pml4 : Nat) (f : PageMap)
    (s : Phys Pmm) : Prop where
  kernel : TreeOk usedK k s
  user : Space used pml4 f (lower pml4 s)
  apart : ∀ t, usedK t → ¬ used t

namespace Beside

variable {usedK usedK' used used' : Nat → Prop} {k pml4 page : Nat} {f : PageMap}
  {s s' : Phys Pmm} {flags : BitVec 64} {vs : List (BitVec 64)} {ds : List Nat}

section

variable (h : Beside usedK k used pml4 f s)
include h

theorem populate (hmask : flags &&& vmmPhysMask = 0)
    (hpop : Populates flags used used' pml4 vs ds (lower pml4 s) (lower pml4 s')) :
    ∃ f', Beside usedK k used' pml4 f' s' ∧ ∀ x, x ∉ vs.map pageNumber → f' x = f x := by
  obtain ⟨f', h', hother⟩ := h.user.populate hpop hmask
  have hnew : ∀ u, used' u ∨ u ∈ ds → pageSize ∣ u ∧ ¬ usedK u := by
    rintro u (hu | hu)
    · exact ⟨(h'.tree.table u hu).1.aligned, fun hk =>
        (hpop.fresh u hu).elim (h.apart u hk) (h.kernel.table u hk).2⟩
    · have hfree := (hpop.data u hu).1
      exact ⟨hfree.1, fun hk => (h.kernel.table u hk).2 hfree⟩
  have hok : Ok s'.frames := h'.tree.supply
  refine ⟨f', ⟨(h.kernel.frame (fun t i ht => ?_) hok fun t ht hf =>
    (h.kernel.table t ht).2 (hpop.free t hf)).1, h', fun t ht hu => (hnew t (.inl hu)).2 ht⟩,
    hother⟩
  refine entry_of_pages (h.kernel.table t ht).1.aligned (T := fun u => used' u ∨ u ∈ ds)
    (fun u hu => ⟨(hnew u hu).1, fun hut => (hnew u hu).2 (hut ▸ ht)⟩) fun x hx => ?_
  -- outside the PML4 the lower half is all there is
  have hout := hx pml4 (.inl (hpop.mono _ h.user.tree.root))
  have hkept : lowerMem s'.mem pml4 x = lowerMem s.mem pml4 x := hpop.mem x hx
  rwa [lowerMem_apply hout, lowerMem_apply hout] at hkept

theorem populateKernel (hpop : Populates flags usedK usedK' k vs ds s s') :
    Beside usedK' k used pml4 f s' := by
  have hnew : ∀ u, usedK' u ∨ u ∈ ds → pageSize ∣ u ∧ ¬ used u := by
    rintro u (hu | hu)
    · exact ⟨(hpop.tree.table u hu).1.aligned, fun hk =>
        (hpop.fresh u hu).elim (fun hold => h.apart u hold hk) (h.user.tree.table u hk).2⟩
    · have hfree := (hpop.data u hu).1
      exact ⟨hfree.1, fun hk => (h.user.tree.table u hk).2 hfree⟩
  refine ⟨hpop.tree, h.user.frame (fun t i ht => ?_) hpop.tree.supply hpop.free,
    fun t ht => (hnew t (.inl ht)).2⟩
  exact entry_of_pages (h.user.tree.table t ht).1.aligned (T := fun u => usedK' u ∨ u ∈ ds)
    (fun u hu => ⟨(hnew u hu).1, fun hut => (hnew u hu).2 (hut ▸ ht)⟩) fun x hx =>
      lowerMem_congr (hpop.mem x hx)

theorem write (hpage : pageSize ∣ page) (hk : ¬ usedK page)
    (hu : ¬ used page) {m' : Mem} (hm : ∀ x, x < page ∨ page + pageSize ≤ x → m' x = s.mem x) :
    Beside usedK k used pml4 f { s with mem := m' } := by
  have hkernel : ∀ t i, usedK t → entry m' t i = entry s.mem t i := by
    intro t i ht
    refine entry_of_outside hpage (h.kernel.table t ht).1.aligned ?_ hm
    rintro rfl
    exact hk ht
  have huser : ∀ t i, used t → entry (lowerMem m' pml4) t i = entry (lowerMem s.mem pml4) t i := by
    intro t i ht
    refine entry_of_outside hpage (h.user.tree.table t ht).1.aligned ?_ fun x hx =>
      lowerMem_congr (hm x hx)
    rintro rfl
    exact hu ht
  refine ⟨?_, h.user.frame huser h.user.tree.supply fun t ht => ht, h.apart⟩
  exact (@TreeOk.frame _ _ _ usedK k s { s with mem := m' } h.kernel hkernel h.kernel.supply
    fun t ht => (h.kernel.table t ht).2).1

theorem clear {t : Nat} (ht : pageSize ∣ t) (i : Fin 512) :
    ∃ f', Beside usedK k used pml4 f' { s with mem := setEntry s.mem t i 0 } ∧
      ∀ n fr, f' n = some fr → f n = some fr := by
  have hkernel := (h.kernel.clear ht i).1
  have hp := (h.user.tree.table pml4 h.user.tree.root).1.aligned
  by_cases hup : t = pml4 ∧ 256 ≤ i.val
  · -- in the upper half of the PML4 nothing is lost
    have hsame : lower pml4 { s with mem := setEntry s.mem t i 0 } = lower pml4 s :=
      congrArg (Phys.mk · s.frames) (by rw [hup.1]; exact lowerMem_setEntry_upper hup.2 0)
    exact ⟨f, ⟨hkernel, by rw [hsame]; exact h.user, h.apart⟩, fun n fr hn => hn⟩
  · obtain ⟨f', h', hsub⟩ := h.user.clear ht i
    rw [← lower_setEntry hp ht (by omega) 0] at h'
    exact ⟨f', ⟨hkernel, h', h.apart⟩, hsub⟩

end

theorem create (h : TreeOk usedK k s) (hc : vmmCreateAddressSpace s k = (pml4, s'))
    (hne : pml4 ≠ 0) : Beside usedK k (· = pml4) pml4 (fun _ => none) s' := by
  obtain ⟨frames, hs, rfl⟩ := vmmCreateAddressSpace_of_ne hc hne
  obtain ⟨htree, hmaps⟩ := TreeOk.empty h.supply hs
  obtain ⟨hok, hfree, hiff⟩ := alloc_some h.supply hs
  have hnot : ∀ t, usedK t → t ≠ pml4 := by
    rintro t ht rfl
    exact (h.table t ht).2 hfree
  have hlow : lower pml4 ⟨copyUpperHalf (fill s.mem pml4 pageSize 0) k pml4, frames⟩ =
      ⟨fill s.mem pml4 pageSize 0, frames⟩ := by
    simp only [lower, lowerMem_copyUpperHalf]
  have hentry : ∀ t i, usedK t →
      entry (copyUpperHalf (fill s.mem pml4 pageSize 0) k pml4) t i = entry s.mem t i := by
    intro t i ht
    refine entry_of_outside (tableFrame h.supply hfree).aligned (h.table t ht).1.aligned
      (hnot t ht) fun x hx => ?_
    rw [copyUpperHalf_apply_of_outside hx, fill_apply_of_disjoint hx]
  have hspace : Space (· = pml4) pml4 (fun _ => none) ⟨fill s.mem pml4 pageSize 0, frames⟩ :=
    ⟨htree, hmaps, fun n fr hn => (by cases hn), fun n n' fr hn => (by cases hn)⟩
  generalize copyUpperHalf (fill s.mem pml4 pageSize 0) k pml4 = m' at hlow hentry ⊢
  rw [← hlow] at hspace
  refine ⟨?_, hspace, hnot⟩
  exact (@TreeOk.frame _ _ _ usedK k s ⟨m', frames⟩ h hentry hok
    fun t ht hf => (h.table t ht).2 ((hiff t).mp hf).1).1

theorem mapSegmentLoop (img : ElfImage) (ph : ElfPhdr) (n pageVa : Nat)
    (h : Beside usedK k used pml4 f s)
    (hlow : ∀ v ∈ pagesFrom (BitVec.ofNat 64 pageVa) n, LowerHalf v) :
    ∃ used' f', Beside usedK k used' pml4 f' (mapSegmentLoop pml4 img ph n pageVa s).2 ∧
      ∀ x, x ∉ (pagesFrom (BitVec.ofNat 64 pageVa) n).map pageNumber → f' x = f x := by
  induction n generalizing used f s pageVa with
  | zero => exact ⟨used, f, h, fun _ _ => rfl⟩
  | succ n ih =>
    obtain ⟨hva, hlow⟩ := List.forall_mem_cons.mp hlow
    unfold DevOs.mapSegmentLoop
    cases ha : allocPage s with
    | none => exact ⟨used, f, h, fun _ _ => rfl⟩
    | some r =>
      obtain ⟨page, s1⟩ := r
      obtain ⟨used1, hpop, -⟩ := h.user.tree.populates_lower hva (elfFlagsToVmm ph.flags) ha rfl
      obtain ⟨f1, h1, hf1⟩ := h.populate (elfFlagsToVmm_and_mask ph.flags) hpop
      obtain ⟨hfree, -, hpage⟩ := hpop.data page (List.mem_singleton_self page)
      dsimp only
      generalize vmmMap s1 pml4 (BitVec.ofNat 64 pageVa) (BitVec.ofNat 64 page)
        (elfFlagsToVmm ph.flags) = s2 at h1 ⊢
      have h2 := h1.write hfree.1 (fun hk => (h.kernel.table page hk).2 hfree) hpage
        fun x hx => @copyFileData_apply_of_outside img ph s2.mem page pageVa x hx
      rw [← ofNat_nextPage] at hlow
      obtain ⟨used3, f3, h3, hf3⟩ := ih _ h2 hlow
      refine ⟨used3, f3, h3, fun x hx => ?_⟩
      rw [pagesFrom, List.map_cons, List.mem_cons, not_or, ← ofNat_nextPage] at hx
      rw [hf3 x hx.2, hf1 x (by simpa using hx.1)]

theorem mapSegments (img : ElfImage) (hlow : ∀ v, img.SegmentPage v → LowerHalf v) (n i : Nat)
    (hn : i + n ≤ img.phnum) (h : Beside usedK k used pml4 f s) :
    ∃ used' f', Beside usedK k used' pml4 f' (mapSegments pml4 img n i s).2 ∧
      ∀ x, (∀ v, img.SegmentPage v → pageNumber v ≠ x) → f' x = f x := by
  induction n generalizing used f s i with
  | zero => exact ⟨used, f, h, fun _ _ => rfl⟩
  | succ n ih =>
    unfold DevOs.mapSegments
    split
    · exact ih (i + 1) (by omega) h
    next hload =>
    obtain ⟨used1, f1, h1, hf1⟩ : ∃ used1 f1,
        Beside usedK k used1 pml4 f1 (elfMapSegment s pml4 img (img.phdr i)).2 ∧
        ∀ x, (∀ v, img.SegmentPage v → pageNumber v ≠ x) → f1 x = f x := by
      unfold elfMapSegment
      split
      · exact ⟨used, f, h, fun _ _ => rfl⟩
      next hsz =>
      split
      · exact ⟨used, f, h, fun _ _ => rfl⟩
      have hpage : ∀ v ∈ pagesFrom (BitVec.ofNat 64 (img.phdr i).vaStart) (img.phdr i).numPages,
          img.SegmentPage v := fun v hv => ⟨i, by omega, not_not.mp hload, hsz, hv⟩
      obtain ⟨used1, f1, h1, hf1⟩ := h.mapSegmentLoop img (img.phdr i) (img.phdr i).numPages
        (img.phdr i).vaStart fun v hv => hlow v (hpage v hv)
      refine ⟨used1, f1, h1, fun x hx => hf1 x fun hmem => ?_⟩
      obtain ⟨v, hv, hvx⟩ := List.mem_map.mp hmem
      exact hx v (hpage v hv) hvx
    rcases hr : elfMapSegment s pml4 img (img.phdr i) with ⟨ok, s1⟩
    rw [hr] at h1
    dsimp only
    split
    · obtain ⟨used2, f2, h2, hf2⟩ := ih (i + 1) (by omega) h1
      exact ⟨used2, f2, h2, fun x hx => (hf2 x hx).trans (hf1 x hx)⟩
    · exact ⟨used1, f1, h1, hf1⟩

theorem writeNullRet (h : Beside usedK k used pml4 f s) :
    ∃ f', Beside usedK k used pml4 f' (writeNullRet s pml4) ∧
      ∀ n fr, f' n = some fr → f n = some fr := by
  have hv : LowerHalf (userStackTop - 8#64 &&& ~~~7#64) := by
    unfold LowerHalf
    decide
  have htr : vmmTranslate s.mem pml4 (userStackTop - 8#64 &&& ~~~7#64) =
      specTranslate f (userStackTop - 8#64 &&& ~~~7#64) :=
    (h.user.tree.vmmTranslate_lower hv).trans (h.user.translate _)
  unfold DevOs.writeNullRet
  dsimp only
  rw [htr]
  split
  · next hnz =>
      unfold specTranslate at hnz ⊢
      cases hf : f (pageNumber (userStackTop - 8#64 &&& ~~~7#64)) with
      | none =>
        rw [hf] at hnz
        exact absurd rfl hnz
      | some fr =>
        have hd := h.user.page _ fr hf
        dsimp only
        rw [toNat_nullRet hd.aligned hd.inRange.lt]
        exact h.clear (Nat.dvd_add hd.aligned (Nat.dvd_refl _)) 510
  · exact ⟨f, h, fun n fr hn => hn⟩

end Beside

theorem growHeap_eq {s : Phys Pmm} (hok : Ok s.frames) (k n : Nat) (va : BitVec 64) :
    growHeap k n va s = (allocRangeLoop k heapFlags n va s).2 := by
  induction n generalizing s va with
  | zero => rfl
  | succ n ih =>
    rw [growHeap]
    cases ha : allocPage s with
    | none => rw [(allocRangeLoop_of_none ha).2]
    | some r =>
      obtain ⟨page, s1⟩ := r
      have htakes := (takes_allocPage ha).trans
        (takes_vmmMap s1 k va (BitVec.ofNat 64 page) heapFlags)
      rw [(allocRangeLoop_of_some ha (allocPage_tableFrame hok ha).nonzero n).1]
      exact ih (htakes.free hok).1 (va + pageBytes)

theorem elfLoad_space {usedK : Nat → Prop} {k : Nat} {s s' : Phys Pmm} {img : ElfImage}
    {heap : HeapNeed} {task : UserTask} (hk : TreeOk usedK k s)
    (hlow : ∀ v, img.SegmentPage v → LowerHalf v) (h : elfLoad s k img heap = (some task, s')) :
    task.mmapCursor = 0x0000500000000000#64 ∧
      ∃ used f, Space used task.cr3 f (lower task.cr3 s') ∧ ∀ x fr, f x = some fr →
        (∃ v, img.SegmentPage v ∧ pageNumber v = x) ∨
          x ∈ (pagesFrom userStackBottom (pageCount userStackSize)).map pageNumber := by
  obtain ⟨pml4, s1, s2, s3, -, e1, hz, e2, e3, rfl, rfl⟩ := elfLoad_eq_task h
  have h1 := Beside.create hk e1 hz
  obtain ⟨used2, f2, h2, hf2⟩ := h1.mapSegments img hlow img.phnum 0 (by omega)
  rw [e2] at h2
  obtain ⟨used3, hpop⟩ := h2.user.tree.populates_range_lower (vmmUserRw ||| vmmNoExec)
    (pageCount userStackSize) lowerHalf_stack
  rw [show allocRangeLoop pml4 (vmmUserRw ||| vmmNoExec) (pageCount userStackSize)
    userStackBottom s2 = (true, s3) from e3] at hpop
  obtain ⟨f3, h3, hf3⟩ := h2.populate userFlags_and_mask hpop
  obtain ⟨f4, h4, hf4⟩ := h3.writeNullRet
  obtain ⟨usedK', hpopK⟩ := h4.kernel.populates_range heapFlags heap.cursor heap.pages
  rw [← growHeap_eq h4.kernel.supply] at hpopK
  refine ⟨rfl, used3, f4, (h4.populateKernel hpopK).user, fun x fr hx => ?_⟩
  by_contra hnew
  rw [not_or, not_exists] at hnew
  have hold := hf4 x fr hx
  rw [hf3 x hnew.2, hf2 x fun v hv hvx => hnew.1 v ⟨hv, hvx⟩] at hold
  cases hold

end DevOs
