import DevOs.Mm.Vmm.FreeRange

/-!
`vmm_alloc_range` and `vmm_free_range` in the user's half of an address space.
-/

namespace DevOs

open FrameSupply

def pageAddr (n : BitVec 36) : BitVec 64 := n.setWidth 64 <<< 12

theorem toNat_pageAddr (n : BitVec 36) : (pageAddr n).toNat = n.toNat * 4096 := by
  have hn := n.isLt
  rw [pageAddr, BitVec.toNat_shiftLeft, BitVec.toNat_setWidth, Nat.shiftLeft_eq]
  omega

theorem pageNumber_pageAddr (n : BitVec 36) : pageNumber (pageAddr n) = n := by
  have hn := n.isLt
  apply BitVec.eq_of_toNat_eq
  rw [toNat_pageNumber, toNat_pageAddr]
  omega

theorem pageAddr_and_offset (n : BitVec 36) : pageAddr n &&& 0xFFF#64 = 0 := by
  apply BitVec.eq_of_toNat_eq
  have hmask := Nat.and_two_pow_sub_one_eq_mod (n.toNat * 4096) 12
  rw [BitVec.toNat_and, toNat_pageAddr, show (0xFFF#64).toNat = 2 ^ 12 - 1 from rfl, hmask]
  exact Nat.mul_mod_left _ _

/-- The address space at `pml4` maps the pages of `f`, each to a frame of its
own. -/
structure Space (used : Nat → Prop) (pml4 : Nat) (f : PageMap) (s : Phys Pmm) : Prop where
  tree : TreeOk used pml4 s
  maps : MapsAs s.mem pml4 f
  page : ∀ n fr, f n = some fr → DataFrame used s.frames fr.toNat
  inj : ∀ n n' fr, f n = some fr → f n' = some fr → n = n'

variable {used used' : Nat → Prop} {pml4 page : Nat} {f : PageMap} {s s' : Phys Pmm}
  {v va e flags : BitVec 64} {vs : List (BitVec 64)} {ds : List Nat}

namespace Space

theorem apply (h : Space used pml4 f s) (n : BitVec 36) :
    f n = (mappedEntry s.mem pml4 (pageAddr n)).map (· &&& vmmPhysMask) := by
  rw [← pageFrame_eq, h.maps, pageNumber_pageAddr]

theorem of_mapped (h : Space used pml4 f s) (he : mappedEntry s.mem pml4 v = some e) :
    f (pageNumber v) = some (e &&& vmmPhysMask) := by
  rw [← h.maps v, pageFrame_eq, he, Option.map_some]

theorem own (h : Space used pml4 f s) : OwnFrames used pml4 (fun _ => True) s where
  data _ _ _ he := h.page _ _ (h.of_mapped he)
  inj v w e e' _ _ he he' hto := by
    have hw := h.of_mapped he'
    rw [← BitVec.eq_of_toNat_eq hto] at hw
    exact h.inj _ _ _ (h.of_mapped he) hw

theorem of_own (h : TreeOk used pml4 s) (ho : OwnFrames used pml4 (fun _ => True) s) :
    Space used pml4 (fun n => (mappedEntry s.mem pml4 (pageAddr n)).map (· &&& vmmPhysMask)) s := by
  refine ⟨h, fun v => ?_, fun n fr hn => ?_, fun n n' fr hn hn' => ?_⟩
  · rw [pageFrame_eq, mappedEntry_congr (pageNumber_pageAddr _).symm]
  · obtain ⟨e, he, rfl⟩ := Option.map_eq_some_iff.mp hn
    exact ho.data _ e trivial he
  · obtain ⟨e, he, rfl⟩ := Option.map_eq_some_iff.mp hn
    obtain ⟨e', he', hto⟩ := Option.map_eq_some_iff.mp hn'
    have hnum := ho.inj _ _ e e' trivial trivial he he' (congrArg BitVec.toNat hto.symm)
    rwa [pageNumber_pageAddr, pageNumber_pageAddr] at hnum

theorem translate (h : Space used pml4 f s) (v : BitVec 64) :
    vmmTranslate s.mem pml4 v = specTranslate f v := by
  rw [vmmTranslate_eq h.tree.tree, h.maps v]
  rfl

theorem translate_eq_zero_iff (h : Space used pml4 f s) (v : BitVec 64) :
    vmmTranslate s.mem pml4 v = 0 ↔ f (pageNumber v) = none := by
  cases he : mappedEntry s.mem pml4 v with
  | none =>
    have hf : f (pageNumber v) = none := by rw [← h.maps v, pageFrame_eq, he, Option.map_none]
    rw [h.translate, specTranslate, hf]
    exact iff_of_true rfl rfl
  | some e =>
    have hnz := (h.tree.translate_dataFrame he (h.own.data v e trivial he)).1
    rw [h.of_mapped he]
    exact iff_of_false hnz (by simp)

theorem lowerHalf (h : Space used pml4 f (lower pml4 s)) {n : BitVec 36} {fr : BitVec 64}
    (hn : f n = some fr) : LowerHalf (pageAddr n) := by
  by_contra hup
  have hframe := h.maps (pageAddr n)
  rw [pageNumber_pageAddr, hn, pageFrame, Radix.lookup, tablePath, Radix.walk,
    show (lower pml4 s).mem = lowerMem s.mem pml4 from rfl,
    entry_lowerMem_upper (Nat.le_of_not_lt hup), childTable_zero] at hframe
  cases hframe

variable (h : Space used pml4 f s)
include h

theorem frame (hm : ∀ t i, used t → entry s'.mem t i = entry s.mem t i) (hok : Ok s'.frames)
    (hfree : ∀ t, FreeFrame s'.frames t → FreeFrame s.frames t) : Space used pml4 f s' := by
  obtain ⟨htree, hlook⟩ :=
    h.tree.frame hm hok fun t ht hf => (h.tree.table t ht).2 (hfree t hf)
  refine ⟨htree, fun v => ?_, fun n fr hn => ?_, h.inj⟩
  · rw [pageFrame, hlook _ _ (length_tablePath v)]
    exact h.maps v
  · exact (h.page n fr hn).mono hfree fun t ht => .inl ht

theorem clear {t : Nat} (ht : pageSize ∣ t) (i : Fin 512) :
    ∃ f', Space used pml4 f' { s with mem := setEntry s.mem t i 0 } ∧
      ∀ n fr, f' n = some fr → f n = some fr := by
  obtain ⟨htree, hlook⟩ := h.tree.clear ht i
  have hown : OwnFrames used pml4 (fun _ => True) { s with mem := setEntry s.mem t i 0 } :=
    ⟨fun v e hv he => h.own.data v e hv (hlook v e he),
      fun v w e e' hv hw he he' => h.own.inj v w e e' hv hw (hlook v e he) (hlook w e' he')⟩
  refine ⟨_, .of_own htree hown, fun n fr hn => ?_⟩
  obtain ⟨e, he, rfl⟩ := Option.map_eq_some_iff.mp hn
  rw [h.apply, hlook _ e he, Option.map_some]

theorem populate (hpop : Populates flags used used' pml4 vs ds s s')
    (hmask : flags &&& vmmPhysMask = 0) :
    ∃ f', Space used' pml4 f' s' ∧ ∀ x, x ∉ vs.map pageNumber → f' x = f x := by
  refine ⟨_, .of_own hpop.tree (hpop.own hmask _ h.own), fun x hx => ?_⟩
  rw [h.apply, hpop.other _ (by rwa [pageNumber_pageAddr])]

end Space

theorem TreeOk.allocRangeLoop_lower (h : TreeOk used pml4 (lower pml4 s)) (flags : BitVec 64)
    (n : Nat) (hlow : ∀ v ∈ pagesFrom va n, LowerHalf v) :
    allocRangeLoop pml4 flags n va (lower pml4 s) = ((allocRangeLoop pml4 flags n va s).1,
        lower pml4 (allocRangeLoop pml4 flags n va s).2) ∧
      allocRangeFrames pml4 flags n va (lower pml4 s) = allocRangeFrames pml4 flags n va s := by
  induction n generalizing used s va with
  | zero => exact ⟨rfl, rfl⟩
  | succ n ih =>
    obtain ⟨hva, hlow⟩ := List.forall_mem_cons.mp hlow
    cases ha : allocPage s with
    | none =>
      have hempty := clearFrames_eq_empty_iff.mpr (allocPage_eq_none ha)
      obtain ⟨hloop, hlist⟩ :=
        @allocRangeLoop_of_empty pml4 (lower pml4 s) va flags hempty n
      rw [hloop, hlist, (allocRangeLoop_of_empty hempty n).1, (allocRangeLoop_of_empty hempty n).2]
      exact ⟨rfl, rfl⟩
    | some r =>
      obtain ⟨page, s1⟩ := r
      have hlowa := h.alloc_lower ha
      have hnz := (allocPage_tableFrame h.supply hlowa).nonzero
      obtain ⟨used', hpop, -⟩ := h.populates_lower hva flags ha rfl
      rw [(allocRangeLoop_of_some hlowa hnz n).1, (allocRangeLoop_of_some hlowa hnz n).2,
        (allocRangeLoop_of_some ha hnz n).1, (allocRangeLoop_of_some ha hnz n).2,
        ← (h.alloc hlowa).1.vmmMap_lower hva]
      obtain ⟨hloop, hlist⟩ := ih hpop.tree hlow
      exact ⟨hloop, congrArg (page :: ·) hlist⟩

theorem TreeOk.populates_range_lower (h : TreeOk used pml4 (lower pml4 s)) (flags : BitVec 64)
    (n : Nat) (hlow : ∀ v ∈ pagesFrom va n, LowerHalf v) :
    ∃ used', Populates flags used used' pml4 (pagesFrom va n) (allocRangeFrames pml4 flags n va s)
      (lower pml4 s) (lower pml4 (allocRangeLoop pml4 flags n va s).2) := by
  obtain ⟨used', hpop⟩ := h.populates_range flags va n
  obtain ⟨hloop, hframes⟩ := h.allocRangeLoop_lower flags n hlow
  rw [hloop, hframes] at hpop
  exact ⟨used', hpop⟩

theorem Space.allocRange_maps (hpres : flags &&& vmmPresent ≠ 0)
    (hmask : flags &&& vmmPhysMask = 0) (n : Nat) (h : Space used pml4 f (lower pml4 s))
    (hlow : ∀ v ∈ pagesFrom va n, LowerHalf v) (hnodup : ((pagesFrom va n).map pageNumber).Nodup)
    (hcount : n + (missingTables (lowerMem s.mem pml4) pml4 (pagesFrom va n)).card ≤
      (clearFrames s.frames.bitmap).card) : (allocRangeLoop pml4 flags n va s).1 = true ∧
      ∃ used' f', Space used' pml4 f' (lower pml4 (allocRangeLoop pml4 flags n va s).2) ∧
        (∀ x, x ∉ (pagesFrom va n).map pageNumber → f' x = f x) ∧
        ∀ q ∈ allocRangeFrames pml4 flags n va s, ∃ x fr, f' x = some fr ∧ fr.toNat = q := by
  obtain ⟨used', hpop⟩ := h.tree.populates_range_lower flags n hlow
  obtain ⟨hok, hmaps⟩ := h.tree.allocRange_maps flags hnodup hcount
  obtain ⟨hloop, hframes⟩ := h.tree.allocRangeLoop_lower flags n hlow
  rw [hloop] at hok hmaps
  rw [hframes] at hmaps
  obtain ⟨f', h', hother⟩ := h.populate hpop hmask
  refine ⟨hok, used', f', h', hother, fun q hq => ?_⟩
  obtain ⟨v, -, e, he, hto⟩ := (hpop.frames_iff h.tree.supply hpres hmask hmaps q).mpr hq
  exact ⟨pageNumber v, _, h'.of_mapped he, hto⟩

theorem TreeOk.freeRangeLoop_lower (h : TreeOk used pml4 (lower pml4 s))
    (ho : OwnFrames used pml4 (fun _ => True) (lower pml4 s)) (n : Nat)
    (hlow : ∀ v ∈ pagesFrom va n, LowerHalf v) :
    freeRangeLoop pml4 n va (lower pml4 s) = lower pml4 (freeRangeLoop pml4 n va s) := by
  induction n generalizing s va with
  | zero => rfl
  | succ n ih =>
    obtain ⟨hva, hlow⟩ := List.forall_mem_cons.mp hlow
    have hturn : (if vmmTranslate (lower pml4 s).mem pml4 va ≠ 0 then
        freePage (DevOs.vmmUnmap (lower pml4 s) pml4 va)
          (vmmTranslate (lower pml4 s).mem pml4 va).toNat else lower pml4 s) =
        lower pml4 (if vmmTranslate s.mem pml4 va ≠ 0 then
          freePage (DevOs.vmmUnmap s pml4 va) (vmmTranslate s.mem pml4 va).toNat else s) := by
      rw [← h.vmmUnmap_lower hva, apply_ite (lower pml4), h.vmmTranslate_lower hva]
      rfl
    have h1 := h.releases_page ho trivial hturn
    unfold freeRangeLoop
    dsimp only
    rw [hturn]
    exact ih h1.tree (h1.ownFrames ho fun _ _ => trivial) hlow

theorem Space.freeRange (n : Nat) (h : Space used pml4 f (lower pml4 s))
    (hlow : ∀ v ∈ pagesFrom va n, LowerHalf v) :
    ∃ f', Space used pml4 f' (lower pml4 (freeRangeLoop pml4 n va s)) ∧
      (∀ x fr, f' x = some fr → f x = some fr) ∧ ∀ x fr, f x = some fr →
        f' x = some fr ∨ FreeFrame (freeRangeLoop pml4 n va s).frames fr.toNat := by
  have hrel := h.tree.releases_range h.own n fun v (_ : v ∈ pagesFrom va n) => trivial
  rw [h.tree.freeRangeLoop_lower h.own n hlow] at hrel
  refine ⟨_, .of_own hrel.tree (hrel.ownFrames h.own fun _ _ => trivial), fun x fr hx => ?_,
    fun x fr hx => ?_⟩
  · obtain ⟨e, he, rfl⟩ := Option.map_eq_some_iff.mp hx
    rw [h.apply, (hrel.of_mapped he).2, Option.map_some]
  · rw [h.apply] at hx
    by_cases hin : pageNumber (pageAddr x) ∈ (pagesFrom va n).map pageNumber
    · obtain ⟨v, hv, hpage⟩ := List.mem_map.mp hin
      obtain ⟨e, he, rfl⟩ := Option.map_eq_some_iff.mp hx
      rw [← mappedEntry_congr hpage] at he
      exact .inr ((hrel.free _).mpr (.inr ⟨v, hv, e, he, rfl⟩))
    · rw [hrel.other _ hin]
      exact .inl hx

end DevOs
