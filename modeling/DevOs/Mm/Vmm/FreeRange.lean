import DevOs.Mm.Vmm.AllocRange

/-!
`vmm_free_range` in a whole address space, and after `vmm_alloc_range`.
-/

namespace DevOs

open ByteMem FrameSupply

/-- From `s` to `s'` the pages of `vs` have been unmapped, and their frames are free. -/
structure Releases (used : Nat → Prop) (pml4 : Nat) (vs : List (BitVec 64)) (s s' : Phys Pmm) :
    Prop where
  tree : TreeOk used pml4 s'
  walk : ∀ q : List (Fin 512), q.length ≤ 3 → Radix.walk childTable (entry s'.mem) pml4 q =
    Radix.walk childTable (entry s.mem) pml4 q
  gone : ∀ w, pageNumber w ∈ vs.map pageNumber → mappedEntry s'.mem pml4 w = none
  other : ∀ w, pageNumber w ∉ vs.map pageNumber →
    mappedEntry s'.mem pml4 w = mappedEntry s.mem pml4 w
  free : ∀ t, FreeFrame s'.frames t ↔ FreeFrame s.frames t ∨
    ∃ v ∈ vs, ∃ e, mappedEntry s.mem pml4 v = some e ∧ entryFrame e = t

variable {used : Nat → Prop} {pml4 : Nat} {P : BitVec 36 → Prop} {s s' s'' : Phys Pmm}
  {v va : BitVec 64} {vs vs' : List (BitVec 64)} {used' : Nat → Prop}

namespace Releases

theorem refl (h : TreeOk used pml4 s) : Releases used pml4 [] s s where
  tree := h
  walk _ _ := rfl
  gone _ hw := absurd hw List.not_mem_nil
  other _ _ := rfl
  free t := by simp

variable (h : Releases used pml4 vs s s')
include h

theorem of_mapped {w e : BitVec 64} (he : mappedEntry s'.mem pml4 w = some e) :
    pageNumber w ∉ vs.map pageNumber ∧ mappedEntry s.mem pml4 w = some e := by
  by_cases hw : pageNumber w ∈ vs.map pageNumber
  · rw [h.gone w hw] at he
    cases he
  · exact ⟨hw, h.other w hw ▸ he⟩

theorem trans (h' : Releases used pml4 vs' s' s'') : Releases used pml4 (vs ++ vs') s s'' where
  tree := h'.tree
  walk q hq := (h'.walk q hq).trans (h.walk q hq)
  gone w hw := by
    rw [List.map_append, List.mem_append] at hw
    by_cases hw' : pageNumber w ∈ vs'.map pageNumber
    · exact h'.gone w hw'
    · rw [h'.other w hw', h.gone w (hw.resolve_right hw')]
  other w hw := by
    rw [List.map_append, List.mem_append, not_or] at hw
    exact (h'.other w hw.2).trans (h.other w hw.1)
  free t := by
    rw [h'.free, h.free]
    constructor
    · rintro ((hf | ⟨v, hv, hp⟩) | ⟨v, hv, e, he, hto⟩)
      · exact .inl hf
      · exact .inr ⟨v, List.mem_append_left vs' hv, hp⟩
      · exact .inr ⟨v, List.mem_append_right vs hv, e, (h.of_mapped he).2, hto⟩
    · rintro (hf | ⟨v, hv, e, he, hto⟩)
      · exact .inl (.inl hf)
      · by_cases hin : pageNumber v ∈ vs.map pageNumber
        · -- the first has taken it already
          obtain ⟨u, hu, hpage⟩ := List.mem_map.mp hin
          rw [← mappedEntry_congr hpage] at he
          exact .inl (.inr ⟨u, hu, e, he, hto⟩)
        · refine .inr ⟨v, (List.mem_append.mp hv).resolve_left fun hc => ?_, e, ?_, hto⟩
          · exact hin (List.mem_map_of_mem hc)
          · rw [h.other v hin, he]

theorem ownFrames (ho : OwnFrames used pml4 P s)
    (hvs : ∀ v ∈ vs, P (pageNumber v)) : OwnFrames used pml4 P s' where
  data w e hw he := by
    obtain ⟨hout, he⟩ := h.of_mapped he
    have hd := ho.data w e hw he
    refine ⟨hd.aligned, hd.inRange, fun hc => ?_, hd.notTable⟩
    obtain hc | ⟨v, hv, e', he', hto⟩ := (h.free _).mp hc
    · exact hd.notFree hc
    · rw [← ho.inj v w e' e (hvs v hv) hw he' he hto] at hout
      exact hout (List.mem_map_of_mem hv)
  inj v w e e' hv hw he he' := ho.inj v w e e' hv hw (h.of_mapped he).2 (h.of_mapped he').2

end Releases

theorem TreeOk.releases_page (h : TreeOk used pml4 s) (ho : OwnFrames used pml4 P s)
    (hv : P (pageNumber v)) (hs' : (if vmmTranslate s.mem pml4 v ≠ 0 then
      freePage (vmmUnmap s pml4 v) (vmmTranslate s.mem pml4 v).toNat else s) = s') :
    Releases used pml4 [v] s s' := by
  obtain ⟨htree, hwalk, hlook, hfree⟩ := h.freeTurn (fun e he => ho.data v e hv he) hs'
  refine ⟨htree, hwalk, fun w hw => ?_, fun w hw => ?_, fun t => ?_⟩
  · rw [hlook w, if_pos (List.mem_singleton.mp hw)]
  · rw [hlook w, if_neg fun hc => hw (List.mem_singleton.mpr hc)]
  · rw [hfree t]
    simp

theorem TreeOk.releases_range (h : TreeOk used pml4 s) (ho : OwnFrames used pml4 P s) (n : Nat)
    (hP : ∀ v ∈ pagesFrom va n, P (pageNumber v)) :
    Releases used pml4 (pagesFrom va n) s (freeRangeLoop pml4 n va s) := by
  induction n generalizing s va with
  | zero => exact .refl h
  | succ n ih =>
    obtain ⟨hva, hP⟩ := List.forall_mem_cons.mp hP
    unfold freeRangeLoop
    dsimp only
    generalize hs' : (if vmmTranslate s.mem pml4 va ≠ 0 then
      freePage (vmmUnmap s pml4 va) (vmmTranslate s.mem pml4 va).toNat else s) = s'
    have h1 := h.releases_page ho hva hs'
    exact h1.trans (ih h1.tree (h1.ownFrames ho (by simpa using hva)) hP)

/-- The addresses that the loop of `vmm_free_range` passes to `pmm_free_page`. -/
def freeRangeCalls (pml4 : Nat) : Nat → BitVec 64 → Phys Pmm → List Nat
  | 0, _, _ => []
  | n + 1, va, s =>
    let phys := vmmTranslate s.mem pml4 va
    if phys ≠ 0 then
      phys.toNat :: freeRangeCalls pml4 n (va + pageBytes)
        (freePage (vmmUnmap s pml4 va) phys.toNat)
    else freeRangeCalls pml4 n (va + pageBytes) s

def pageFrameNumber (m : Mem) (pml4 : Nat) (v : BitVec 64) : Option Nat :=
  (mappedEntry m pml4 v).map fun e => entryFrame e / pageSize

theorem TreeOk.freeRangeCalls_eq (h : TreeOk used pml4 s) (ho : OwnFrames used pml4 P s) (n : Nat)
    (hP : ∀ v ∈ pagesFrom va n, P (pageNumber v))
    (hnodup : ((pagesFrom va n).map pageNumber).Nodup) :
    (freeRangeCalls pml4 n va s).map (· / pageSize) =
      (pagesFrom va n).filterMap (pageFrameNumber s.mem pml4) := by
  induction n generalizing s va with
  | zero => rfl
  | succ n ih =>
    obtain ⟨hva, hP⟩ := List.forall_mem_cons.mp hP
    rw [pagesFrom, List.map_cons, List.nodup_cons] at hnodup
    unfold freeRangeCalls
    dsimp only
    generalize hs' : (if vmmTranslate s.mem pml4 va ≠ 0 then
      freePage (vmmUnmap s pml4 va) (vmmTranslate s.mem pml4 va).toNat else s) = s'
    have h1 := h.releases_page ho hva hs'
    have hrest := ih h1.tree (h1.ownFrames ho (by simpa using hva)) hP hnodup.2
    have hsame : (pagesFrom (va + pageBytes) n).filterMap (pageFrameNumber s'.mem pml4) =
        (pagesFrom (va + pageBytes) n).filterMap (pageFrameNumber s.mem pml4) := by
      refine List.filterMap_congr fun v hv => ?_
      rw [pageFrameNumber, pageFrameNumber, h1.other v fun hc => ?_]
      rw [List.map_singleton, List.mem_singleton] at hc
      exact hnodup.1 (hc ▸ List.mem_map_of_mem hv)
    rw [hsame] at hrest
    cases he : mappedEntry s.mem pml4 va with
    | none =>
      have hz : vmmTranslate s.mem pml4 va = 0 := by
        rw [h.translate_entry, he, Option.elim_none]
      have hnone : pageFrameNumber s.mem pml4 va = none := by
        rw [pageFrameNumber, he, Option.map_none]
      rw [if_neg (not_not.mpr hz)] at hs' ⊢
      rw [← hs'] at hrest
      rw [hrest, pagesFrom, List.filterMap_cons_none hnone]
    | some e =>
      obtain ⟨hnz, hphys⟩ := h.translate_dataFrame he (ho.data va e hva he)
      have hsome : pageFrameNumber s.mem pml4 va = some (entryFrame e / pageSize) := by
        rw [pageFrameNumber, he, Option.map_some]
      rw [if_pos hnz] at hs' ⊢
      rw [hs', List.map_cons, hrest, hphys, pagesFrom, List.filterMap_cons_some hsome]

theorem Populates.frames_iff {flags : BitVec 64} {ds : List Nat}
    (h : Populates flags used used' pml4 vs ds s s') (hok : Ok s.frames)
    (hp : flags &&& vmmPresent ≠ 0) (hmask : flags &&& vmmPhysMask = 0)
    (hmaps : List.Forall₂ (fun v d => mappedEntry s'.mem pml4 v =
      leafEntry (BitVec.ofNat 64 d ||| flags)) vs ds) (t : Nat) :
    (∃ v ∈ vs, ∃ e, mappedEntry s'.mem pml4 v = some e ∧ entryFrame e = t) ↔ t ∈ ds := by
  obtain ⟨hlen, hget⟩ := List.forall₂_iff_get.mp hmaps
  have hat : ∀ i (hi : i < vs.length) (hi' : i < ds.length),
      mappedEntry s'.mem pml4 vs[i] = some (BitVec.ofNat 64 ds[i] ||| flags) ∧
        entryFrame (BitVec.ofNat 64 ds[i] ||| flags) = ds[i] := fun i hi hi' =>
    have hd := tableFrame hok (h.data ds[i] (List.getElem_mem hi')).1
    ⟨(hget i hi hi').trans (leafEntry_map hp), entryFrame_map hd.aligned hd.small hmask⟩
  constructor
  · rintro ⟨v, hv, e, he, rfl⟩
    obtain ⟨i, hi, rfl⟩ := List.mem_iff_getElem.mp hv
    obtain ⟨hmap, hframe⟩ := hat i hi (hlen ▸ hi)
    rw [← Option.some.inj (hmap.symm.trans he), hframe]
    exact List.getElem_mem _
  · intro ht
    obtain ⟨i, hi, rfl⟩ := List.mem_iff_getElem.mp ht
    obtain ⟨hmap, hframe⟩ := hat i (hlen ▸ hi) hi
    exact ⟨_, List.getElem_mem _, _, hmap, hframe⟩

/-- One call on the address space at `pml4`, with frames from the PMM. -/
def spaceStep (pml4 : Nat) (s : Phys Pmm) : VmmOp → Phys Pmm
  | .map virt phys flags => vmmMap s pml4 virt phys flags
  | .unmap virt => vmmUnmap s pml4 virt

theorem TreeOk.run (h : TreeOk used pml4 s) (ops : List VmmOp) :
    ∃ used', TreeOk used' pml4 (ops.foldl (spaceStep pml4) s) := by
  induction ops generalizing used s with
  | nil => exact ⟨used, h⟩
  | cons op ops ih =>
    cases op with
    | map virt phys flags =>
      obtain ⟨used', htree, -⟩ := h.growth_entries (v := virt) rfl
      exact ih htree
    | unmap virt => exact ih (h.unmap_entries virt).1

theorem TreeOk.translate_congr (h : TreeOk used pml4 s)
    (h' : TreeOk used' pml4 s') (he : mappedEntry s'.mem pml4 v = mappedEntry s.mem pml4 v) :
    vmmTranslate s'.mem pml4 v = vmmTranslate s.mem pml4 v := by
  rw [h'.translate_entry, h.translate_entry, he]

/-- **`vmm_alloc_range` and `vmm_free_range`** of pages that are not mapped, with frames
enough: every address translates as before, and the frames that are gone are tables that
were not there. -/
theorem allocRange_freeRange {s0 : Phys Pmm} (h : TreeOk used pml4 s0) (ops : List VmmOp)
    (virt : BitVec 64) (size : Nat) (flags : BitVec 64) (hs : ops.foldl (spaceStep pml4) s0 = s)
    (hp : flags &&& vmmPresent ≠ 0) (hmask : flags &&& vmmPhysMask = 0)
    (hnew : ∀ x < size, mappedEntry s.mem pml4 (virt + BitVec.ofNat 64 x) = none)
    (hfour : 4 * ((size + 4095) / 4096) ≤ (clearFrames s.frames.bitmap).card)
    (hs' : (vmmAllocRange s pml4 virt size flags).2 = s')
    (hs'' : vmmFreeRange s' pml4 virt size = s'') :
    (vmmAllocRange s pml4 virt size flags).1 = true ∧
      (∀ x < size, mappedEntry s''.mem pml4 (virt + BitVec.ofNat 64 x) = none) ∧
      (∀ w, (∀ x < size, pageNumber w ≠ pageNumber (virt + BitVec.ofNat 64 x)) →
        vmmTranslate s'.mem pml4 w = vmmTranslate s.mem pml4 w) ∧
      (∀ w, vmmTranslate s''.mem pml4 w = vmmTranslate s.mem pml4 w) ∧
      (∀ t, FreeFrame s''.frames t → FreeFrame s.frames t) ∧
      (∀ t, FreeFrame s.frames t → FreeFrame s''.frames t ∨
        TableOf s''.mem pml4 t ∧ ¬ TableOf s.mem pml4 t) ∧
      ∀ d ∈ allocRangeFrames pml4 flags (pageCount size) virt s, FreeFrame s''.frames d := by
  obtain ⟨used1, h1⟩ := h.run ops
  rw [hs] at h1
  have htree := h1.reached
  have hcard := card_clearFrames_le s.frames.bitmap
  rw [show pmmMaxFrames = 1048576 by decide] at hcard
  have hn : pageCount size = (size + 4095) / 4096 := pageCount_of_lt (by omega)
  have hmissing := card_missingTables_le_three s.mem pml4 (pagesFrom virt (pageCount size))
  rw [length_pagesFrom] at hmissing
  obtain ⟨used', hpop⟩ := htree.populates_range flags virt (pageCount size)
  obtain ⟨hok, hmaps⟩ :=
    htree.allocRange_maps flags (nodup_pageNumbers virt (n := pageCount size) (by omega)) (by omega)
  rw [show allocRangeLoop pml4 flags (pageCount size) virt s = vmmAllocRange s pml4 virt size flags
    from rfl] at hpop hmaps
  rw [hs'] at hpop hmaps
  have hds := hpop.frames_iff htree.supply hp hmask hmaps
  have hown : OwnFrames used' pml4 (· ∈ (pagesFrom virt (pageCount size)).map pageNumber) s' := by
    refine hpop.own hmask _ (.of_none fun v hv => ?_)
    rw [hn] at hv
    obtain ⟨x, hx, hpage⟩ := exists_of_mem_pages hv
    rw [← mappedEntry_congr hpage, hnew x hx]
  have hrel := hpop.tree.releases_range hown (pageCount size) fun v hv => List.mem_map_of_mem hv
  rw [show freeRangeLoop pml4 (pageCount size) virt s' = vmmFreeRange s' pml4 virt size from rfl,
    hs''] at hrel
  have hsame : ∀ w, mappedEntry s''.mem pml4 w = mappedEntry s.mem pml4 w := by
    intro w
    by_cases hw : pageNumber w ∈ (pagesFrom virt (pageCount size)).map pageNumber
    · rw [hrel.gone w hw]
      rw [hn] at hw
      obtain ⟨x, hx, hpage⟩ := exists_of_mem_pages hw
      rw [← mappedEntry_congr hpage, hnew x hx]
    · rw [hrel.other w hw, hpop.other w hw]
  refine ⟨hok, fun x hx => (hsame _).trans (hnew x hx), fun w hw => ?_,
    fun w => htree.translate_congr hrel.tree (hsame w), fun t ht => ?_, fun t ht => ?_,
    fun d hd => ?_⟩
  · refine htree.translate_congr hpop.tree (hpop.other w fun hc => ?_)
    rw [hn] at hc
    obtain ⟨x, hx, hpage⟩ := exists_of_mem_pages hc
    exact hw x hx hpage.symm
  · obtain ht | ht := (hrel.free t).mp ht
    · exact hpop.free t ht
    · exact (hpop.data t ((hds t).mp ht)).1
  · obtain hf | hd | ⟨v, -, p, hp, hw⟩ := hpop.took t ht
    · exact .inl ((hrel.free t).mpr (.inl hf))
    · exact .inl ((hrel.free t).mpr (.inr ((hds t).mpr hd)))
    · rw [← hrel.walk p hp.length_le] at hw
      exact .inr ⟨⟨p, hp.length_le, hw⟩, fun hc => (htree.table t hc).2 ht⟩
  · exact (hrel.free d).mpr (.inr ((hds d).mpr hd))

theorem allocRange_freeRange_emptyMachine :
    (∀ w, vmmTranslate (vmmFreeRange (vmmAllocRange (emptyMachine 8) 0x200000 0x400000#64 0x1800
        vmmUserRw).2 0x200000 0x400000#64 0x1800).mem 0x200000 w =
      vmmTranslate (emptyMachine 8).mem 0x200000 w) ∧
      allocRangeFrames 0x200000 vmmUserRw (pageCount 0x1800) 0x400000#64 (emptyMachine 8) =
        [0x201000, 0x205000] := by
  have hround := allocRange_freeRange (treeOk_emptyMachine (n := 8) (by decide)) [] 0x400000#64
    0x1800 vmmUserRw rfl (by decide) (by decide) (fun x _ => mappedEntry_emptyMachine 8 _)
    (by rw [List.foldl_nil, card_clearFrames_emptyMachine (by decide)]) rfl rfl
  exact ⟨hround.2.2.2.1, by decide +kernel⟩

end DevOs
