import DevOs.Mm.Vmm.Range

/-!
`vmm_alloc_range` in a whole address space, whatever else is mapped there.
-/

namespace DevOs

open ByteMem FrameSupply Radix

theorem toNat_pageNumber_add (va : BitVec 64) (x : Nat) :
    (pageNumber (va + BitVec.ofNat 64 x)).toNat = (va.toNat + x) / 4096 % 2 ^ 36 := by
  rw [toNat_pageNumber, BitVec.toNat_add, BitVec.toNat_ofNat]
  omega

theorem nodup_pageNumbers (va : BitVec 64) {n : Nat} (hn : n ≤ 2 ^ 36) :
    ((pagesFrom va n).map pageNumber).Nodup := by
  rw [pagesFrom_eq_map, List.map_map]
  refine List.Nodup.map_on (fun i hi j hj heq => ?_) List.nodup_range
  have hnum := congrArg BitVec.toNat heq
  rw [Function.comp_apply, Function.comp_apply, toNat_pageNumber_add, toNat_pageNumber_add,
    pageSize_eq] at hnum
  rw [List.mem_range] at hi hj
  omega

/-- From `s` to `s'` the frames `ds` have been taken for pages and others for tables on
the way to the addresses `vs`. -/
structure Populates (flags : BitVec 64) (used used' : Nat → Prop) (pml4 : Nat)
    (vs : List (BitVec 64)) (ds : List Nat) (s s' : Phys Pmm) : Prop where
  tree : TreeOk used' pml4 s'
  mono : ∀ t, used t → used' t
  fresh : ∀ t, used' t → used t ∨ FreeFrame s.frames t
  free : ∀ t, FreeFrame s'.frames t → FreeFrame s.frames t
  mid : MidKept flags pml4 s.mem s'.mem
  nodup : ds.Nodup
  data : ∀ d ∈ ds, FreeFrame s.frames d ∧ ¬ FreeFrame s'.frames d ∧ ¬ used' d
  took : ∀ t, FreeFrame s.frames t → FreeFrame s'.frames t ∨ t ∈ ds ∨
    ∃ v ∈ vs, ∃ p, p <+: tablePath v ∧ walk childTable (entry s'.mem) pml4 p = some t
  other : ∀ w, pageNumber w ∉ vs.map pageNumber →
    mappedEntry s'.mem pml4 w = mappedEntry s.mem pml4 w
  mem : ∀ x, (∀ t, used' t ∨ t ∈ ds → x < t ∨ t + pageSize ≤ x) → s'.mem x = s.mem x
  zero : ∀ d ∈ ds, ∀ x, d ≤ x → x < d + pageSize → s'.mem x = 0
  own : flags &&& vmmPhysMask = 0 → ∀ P, OwnFrames used pml4 P s → OwnFrames used' pml4 P s'

variable {flags v va : BitVec 64} {used used' used'' : Nat → Prop} {pml4 page : Nat}
  {vs vs' : List (BitVec 64)} {ds ds' : List Nat} {s s1 s' s'' : Phys Pmm}

namespace Populates

theorem refl (h : TreeOk used pml4 s) (flags : BitVec 64) (vs : List (BitVec 64)) :
    Populates flags used used pml4 vs [] s s where
  tree := h
  mono _ ht := ht
  fresh _ ht := .inl ht
  free _ ht := ht
  mid := .refl flags pml4 s.mem
  nodup := List.nodup_nil
  data _ hd := absurd hd List.not_mem_nil
  took _ ht := .inl ht
  other _ _ := rfl
  mem _ _ := rfl
  zero _ hd := absurd hd List.not_mem_nil
  own _ _ ho := ho

theorem trans (h : Populates flags used used' pml4 vs ds s s')
    (h' : Populates flags used' used'' pml4 vs' ds' s' s'') :
    Populates flags used used'' pml4 (vs ++ vs') (ds ++ ds') s s'' where
  tree := h'.tree
  mono t ht := h'.mono t (h.mono t ht)
  fresh t ht := (h'.fresh t ht).elim (h.fresh t) fun hf => .inr (h.free t hf)
  free t ht := h.free t (h'.free t ht)
  mid := h.mid.trans h'.mid
  nodup := by
    refine List.nodup_append.mpr ⟨h.nodup, h'.nodup, fun d hd d' hd' heq => ?_⟩
    exact (h.data d hd).2.1 (heq ▸ (h'.data d' hd').1)
  data d hd := by
    obtain hd | hd := List.mem_append.mp hd
    · obtain ⟨hf, hnf, hnu⟩ := h.data d hd
      exact ⟨hf, fun hc => hnf (h'.free d hc), fun hu => (h'.fresh d hu).elim hnu hnf⟩
    · obtain ⟨hf, hnf, hnu⟩ := h'.data d hd
      exact ⟨h.free d hf, hnf, hnu⟩
  took t ht := by
    obtain ht | ht | ⟨v, hv, p, hp, hw⟩ := h.took t ht
    · obtain ht | ht | ⟨v, hv, hp⟩ := h'.took t ht
      · exact .inl ht
      · exact .inr (.inl (List.mem_append_right ds ht))
      · exact .inr (.inr ⟨v, List.mem_append_right vs hv, hp⟩)
    · exact .inr (.inl (List.mem_append_left ds' ht))
    · exact .inr (.inr ⟨v, List.mem_append_left vs' hv, p, hp, h'.mid.walk hp.length_le hw⟩)
  other w hw := by
    rw [List.map_append, List.mem_append, not_or] at hw
    exact (h'.other w hw.2).trans (h.other w hw.1)
  mem x hx := by
    rw [h'.mem x fun t ht => hx t (ht.imp_right (List.mem_append_right ds)),
      h.mem x fun t ht => hx t (ht.imp (h'.mono t) (List.mem_append_left ds'))]
  zero d hd x hlo hhi := by
    obtain hd | hd := List.mem_append.mp hd
    · -- the page is neither a table nor among the pages that come later
      obtain ⟨hf, hnf, hnu⟩ := h.data d hd
      rw [h'.mem x, h.zero d hd x hlo hhi]
      rintro t (ht | ht)
      · refine page_disjoint (h'.tree.table t ht).1.aligned hf.1 ?_ hlo hhi
        rintro rfl
        exact (h'.fresh t ht).elim hnu hnf
      · refine page_disjoint (h'.data t ht).1.1 hf.1 ?_ hlo hhi
        rintro rfl
        exact hnf (h'.data t ht).1
    · exact h'.zero d hd x hlo hhi
  own hmask P ho := h'.own hmask P (h.own hmask P ho)

end Populates

theorem TreeOk.populates_page (h : TreeOk used pml4 s) (v flags : BitVec 64)
    (ha : allocPage s = some (page, s1))
    (hs' : DevOs.vmmMap s1 pml4 v (BitVec.ofNat 64 page) flags = s') :
    ∃ used', Populates flags used used' pml4 [v] [page] s s' ∧
      (∀ vs, v ∈ vs → (clearFrames s.frames.bitmap).card + (missingTables s'.mem pml4 vs).card =
        (clearFrames s'.frames.bitmap).card + 1 + (missingTables s.mem pml4 vs).card) ∧
      (FrameSource.alloc s'.frames = none ∧ pageTable s'.mem pml4 v = none ∧
          mappedEntry s'.mem pml4 v = mappedEntry s.mem pml4 v ∨
        mappedEntry s'.mem pml4 v = leafEntry (BitVec.ofNat 64 page ||| flags)) := by
  obtain ⟨h1, ⟨hfree, hnot⟩, hiff, hentry⟩ := h.alloc ha
  obtain ⟨frames, hs, rfl⟩ := allocPage_eq_some ha
  have hpage := tableFrame h.supply hfree
  have hwalk : ∀ q : List (Fin 512), q.length ≤ 3 →
      walk childTable (entry (fill s.mem page pageSize 0)) pml4 q =
        walk childTable (entry s.mem) pml4 q := fun q hq => h.walk_frame hentry hq
  have hlook : ∀ w, mappedEntry (fill s.mem page pageSize 0) pml4 w = mappedEntry s.mem pml4 w :=
    fun w => h.lookup_frame hentry leafEntry (length_tablePath w)
  obtain ⟨used', htree, hg, hmid, hend⟩ := h1.growth_entries hs'
  have hfree' : ∀ t, FreeFrame s'.frames t → FreeFrame s.frames t ∧ t ≠ page := fun t ht =>
    (hiff t).mp (hg.free t ht)
  have hfresh : ∀ t, used' t → used t ∨ FreeFrame s.frames t := fun t ht =>
    (hg.fresh t ht).imp_right fun hf => ((hiff t).mp hf).1
  have hdata : DataFrame used' s'.frames page :=
    ⟨hpage.aligned, ⟨hpage.nonzero, hfree.2.1⟩, fun hf => (hfree' page hf).2 rfl, fun hu =>
      (hg.fresh page hu).elim (fun hc => hnot page hc rfl) fun hf => ((hiff page).mp hf).2 rfl⟩
  have hother : ∀ w, pageNumber w ∉ [v].map pageNumber →
      mappedEntry s'.mem pml4 w = mappedEntry s.mem pml4 w := by
    intro w hw
    rw [List.map_singleton, List.mem_singleton] at hw
    rw [← hlook w]
    obtain ⟨-, -, hsame⟩ | hone := hend
    · exact hsame _ _ (length_tablePath w)
    · refine (hone _ _ (length_tablePath w)).trans (if_neg fun hc => hw ?_)
      exact (tablePath_eq_iff w v).mp hc
  have hthis : FrameSource.alloc s'.frames = none ∧ pageTable s'.mem pml4 v = none ∧
        mappedEntry s'.mem pml4 v = mappedEntry s.mem pml4 v ∨
      mappedEntry s'.mem pml4 v = leafEntry (BitVec.ofNat 64 page ||| flags) := by
    have hand : BitVec.ofNat 64 page &&& vmmPhysMask = BitVec.ofNat 64 page :=
      frame_and_mask hpage.aligned hpage.small
    rw [← hlook v, ← hand]
    refine hend.imp (fun hgave => ⟨hgave.1, hgave.2.1, ?_⟩) fun hone => ?_
    · exact hgave.2.2 _ _ (length_tablePath v)
    · exact (hone _ _ (length_tablePath v)).trans (if_pos ⟨rfl, rfl⟩)
  refine ⟨used', ⟨htree, hg.mono, hfresh, fun t ht => (hfree' t ht).1, ?_,
    List.nodup_singleton page, ?_, fun t ht => ?_, hother, fun x hx => ?_, ?_,
    fun hmask P ho => ?_⟩,
    fun vs hv => ?_, hthis⟩
  · refine (MidKept.of_walk hwalk fun p t i hp hw => ?_).trans hmid
    exact hentry t i (h.tree.used p t hp.le hw)
  · intro d hd
    rw [List.mem_singleton.mp hd]
    exact ⟨hfree, hdata.notFree, hdata.notTable⟩
  · by_cases hne : t = page
    · exact .inr (.inl (List.mem_singleton.mpr hne))
    · refine (hg.took t ((hiff t).mpr ⟨ht, hne⟩)).imp_right fun hp => .inr ?_
      exact ⟨v, List.mem_singleton_self v, hp⟩
  · rw [hg.mem x fun t ht => hx t (.inl ht)]
    exact fill_apply_of_disjoint (hx page (.inr (List.mem_singleton_self page)))
  · intro d hd x hlo hhi
    rw [List.mem_singleton.mp hd] at hlo hhi
    rw [hg.mem x fun t ht => ?_]
    · exact fill_apply_of_mem ⟨hlo, hhi⟩
    · refine page_disjoint (htree.table t ht).1.aligned hpage.aligned ?_ hlo hhi
      rintro rfl
      exact hdata.notTable ht
  · refine ho.add (fun t ht => (hfree' t ht).1) hfresh hfree hdata (v := v) fun w e he => ?_
    by_cases hw : pageNumber w = pageNumber v
    · rw [mappedEntry_congr hw] at he ⊢
      obtain ⟨-, -, hsame⟩ | hone := hthis
      · exact .inl (hsame.symm.trans he)
      · rw [hone] at he
        rw [← (present_of_leafEntry he).1]
        exact .inr ⟨hw, entryFrame_map hpage.aligned hpage.small hmask⟩
    · rw [hother w (by simpa using hw)] at he
      exact .inl he
  · have hcard := card_clearFrames_alloc hs
    have hsame : missingTables (fill s.mem page pageSize 0) pml4 vs =
        missingTables s.mem pml4 vs := missingTables_congr hwalk
    obtain ⟨used2, htree2, hg2, -⟩ := h1.reached.growth_entries hs'
    have htables := hg2.card_eq h1 htree2 hv
    rw [hsame] at htables
    dsimp only at htables
    omega

theorem TreeOk.populates_lower (h : TreeOk used pml4 (lower pml4 s)) (hv : LowerHalf v)
    (flags : BitVec 64) (ha : allocPage s = some (page, s1))
    (hs' : DevOs.vmmMap s1 pml4 v (BitVec.ofNat 64 page) flags = s') :
    ∃ used', Populates flags used used' pml4 [v] [page] (lower pml4 s) (lower pml4 s') ∧
      (∀ vs, v ∈ vs → (clearFrames s.frames.bitmap).card +
          (missingTables (lowerMem s'.mem pml4) pml4 vs).card =
        (clearFrames s'.frames.bitmap).card + 1 +
          (missingTables (lowerMem s.mem pml4) pml4 vs).card) ∧
      (FrameSource.alloc s'.frames = none ∧ pageTable (lowerMem s'.mem pml4) pml4 v = none ∧
          mappedEntry (lowerMem s'.mem pml4) pml4 v = mappedEntry (lowerMem s.mem pml4) pml4 v ∨
        mappedEntry (lowerMem s'.mem pml4) pml4 v =
          leafEntry (BitVec.ofNat 64 page ||| flags)) := by
  have hlow := h.alloc_lower ha
  refine h.populates_page v flags hlow ?_
  rw [← hs', (h.alloc hlow).1.vmmMap_lower hv]

theorem TreeOk.populates_range (h : TreeOk used pml4 s) (flags va : BitVec 64) (n : Nat) :
    ∃ used', Populates flags used used' pml4 (pagesFrom va n) (allocRangeFrames pml4 flags n va s)
      s (allocRangeLoop pml4 flags n va s).2 := by
  induction n generalizing used s va with
  | zero => exact ⟨used, .refl h flags _⟩
  | succ n ih =>
    cases ha : allocPage s with
    | none =>
      obtain ⟨hloop, hlist⟩ :=
        allocRangeLoop_of_empty (clearFrames_eq_empty_iff.mpr (allocPage_eq_none ha)) n
      rw [hloop, hlist]
      exact ⟨used, .refl h flags _⟩
    | some r =>
      obtain ⟨page, s1⟩ := r
      obtain ⟨used1, h1, -⟩ := h.populates_page va flags ha rfl
      obtain ⟨used2, h2⟩ := ih h1.tree (va + pageBytes)
      have hnz : page ≠ 0 :=
        (tableFrame h.supply (h1.data page (List.mem_singleton_self page)).1).nonzero
      rw [(allocRangeLoop_of_some ha hnz n).1, (allocRangeLoop_of_some ha hnz n).2]
      exact ⟨used2, h1.trans h2⟩

theorem TreeOk.populates_page_maps (h : TreeOk used pml4 s) (flags : BitVec 64) {k : Nat}
    (hk : k + 1 + (missingTables s.mem pml4 (v :: vs)).card ≤ (clearFrames s.frames.bitmap).card) :
    ∃ page s1 s' used', allocPage s = some (page, s1) ∧
      DevOs.vmmMap s1 pml4 v (BitVec.ofNat 64 page) flags = s' ∧
      Populates flags used used' pml4 [v] [page] s s' ∧
      mappedEntry s'.mem pml4 v = leafEntry (BitVec.ofNat 64 page ||| flags) ∧
      k + (missingTables s'.mem pml4 vs).card ≤ (clearFrames s'.frames.bitmap).card := by
  cases ha : allocPage s with
  | none =>
    rw [clearFrames_eq_empty_iff.mpr (allocPage_eq_none ha), Finset.card_empty] at hk
    omega
  | some r =>
    obtain ⟨page, s1⟩ := r
    obtain ⟨s', hs'⟩ : ∃ s', DevOs.vmmMap s1 pml4 v (BitVec.ofNat 64 page) flags = s' := ⟨_, rfl⟩
    obtain ⟨used', hpop, hcount, hend⟩ := h.populates_page v flags ha hs'
    have hspent := hcount (v :: vs) List.mem_cons_self
    have hleft : k + (missingTables s'.mem pml4 (v :: vs)).card ≤
        (clearFrames s'.frames.bitmap).card := by omega
    refine ⟨page, s1, s', used', rfl, hs', hpop, hend.resolve_left ?_,
      le_trans (Nat.add_le_add_left (Finset.card_le_card ?_) k) hleft⟩
    · rintro ⟨hnone, htable, -⟩
      -- no frame is left, so no table is missing
      rw [clearFrames_eq_empty_iff.mpr hnone, Finset.card_empty] at hleft
      have hpos := missingTables_pos (@List.mem_cons_self _ v vs) htable
      omega
    · exact missingTables_mono fun w hw => List.mem_cons_of_mem v hw

/-- **`vmm_alloc_range`** with frames enough for the pages and for the tables that are
missing: it takes a frame for each page, and the entry of the page names it. -/
theorem TreeOk.allocRange_maps (h : TreeOk used pml4 s) (flags : BitVec 64) {n : Nat}
    (hnodup : ((pagesFrom va n).map pageNumber).Nodup)
    (hcount : n + (missingTables s.mem pml4 (pagesFrom va n)).card ≤
      (clearFrames s.frames.bitmap).card) : (allocRangeLoop pml4 flags n va s).1 = true ∧
      List.Forall₂ (fun v d => mappedEntry (allocRangeLoop pml4 flags n va s).2.mem pml4 v =
        leafEntry (BitVec.ofNat 64 d ||| flags)) (pagesFrom va n)
        (allocRangeFrames pml4 flags n va s) := by
  induction n generalizing used s va with
  | zero => exact ⟨rfl, .nil⟩
  | succ n ih =>
    rw [pagesFrom, List.map_cons, List.nodup_cons] at hnodup
    obtain ⟨page, s1, s', used1, ha, hs', hpop, hmaps, hleft⟩ :=
      h.populates_page_maps flags hcount
    have hnz : page ≠ 0 :=
      (tableFrame h.supply (hpop.data page (List.mem_singleton_self page)).1).nonzero
    obtain ⟨hok, hrest⟩ := ih hpop.tree hnodup.2 hleft
    obtain ⟨used2, hpop2⟩ := hpop.tree.populates_range flags (va + pageBytes) n
    rw [(allocRangeLoop_of_some ha hnz n).1, (allocRangeLoop_of_some ha hnz n).2, hs']
    refine ⟨hok, .cons ?_ hrest⟩
    rw [hpop2.other va hnodup.1]
    exact hmaps

theorem length_allocRangeFrames {n : Nat} (h : (allocRangeLoop pml4 flags n va s).1 = true) :
    (allocRangeFrames pml4 flags n va s).length = n := by
  induction n generalizing s va with
  | zero => rfl
  | succ n ih =>
    unfold allocRangeLoop vmmAllocMap at h
    unfold allocRangeFrames
    cases ha : allocPage s with
    | none =>
      rw [ha] at h
      cases h
    | some r =>
      rw [ha] at h
      dsimp only at h ⊢
      split at h
      · cases h
      · rw [List.length_cons, ih h]

theorem card_missingTables_le_three (m : Mem) (pml4 : Nat) (vs : List (BitVec 64)) :
    (missingTables m pml4 vs).card ≤ 3 * vs.length := by
  have hsub : missingTables m pml4 vs ⊆
      (vs.flatMap fun v => [1, 2, 3].map fun k => (tablePath v).take k).toFinset := by
    intro p hp
    obtain ⟨⟨v, hv, hpre⟩, hnone⟩ := mem_missingTables.mp hp
    have hlen := hpre.length_le
    rw [length_tablePath] at hlen
    have hpos : p.length ≠ 0 := fun hz => by
      rw [List.eq_nil_of_length_eq_zero hz, walk_nil] at hnone
      cases hnone
    rw [List.mem_toFinset, List.mem_flatMap]
    refine ⟨v, hv, List.mem_map.mpr ⟨p.length, ?_, (List.prefix_iff_eq_take.mp hpre).symm⟩⟩
    simp only [List.mem_cons, List.not_mem_nil, or_false]
    omega
  refine (Finset.card_le_card hsub).trans ((List.toFinset_card_le _).trans ?_)
  simp [Nat.mul_comm]

def frameNumbers (ds : List Nat) : Finset Nat := ds.toFinset.image (· / pageSize)

theorem Populates.card_frameNumbers (h : Populates flags used used' pml4 vs ds s s') :
    (frameNumbers ds).card = ds.length := by
  rw [frameNumbers, Finset.card_image_of_injOn, List.toFinset_card_of_nodup h.nodup]
  intro a ha b hb hab
  exact eq_of_frameNumber (h.data a (List.mem_toFinset.mp ha)).1.1
    (h.data b (List.mem_toFinset.mp hb)).1.1 hab

theorem Populates.frameNumbers_subset (h : Populates flags used used' pml4 vs ds s s') :
    frameNumbers ds ⊆ clearFrames s.frames.bitmap := by
  intro g hg
  obtain ⟨d, hd, rfl⟩ := Finset.mem_image.mp hg
  have hfree := (h.data d (List.mem_toFinset.mp hd)).1
  rw [mem_clearFrames_iff, Nat.div_mul_cancel hfree.1]
  exact hfree

theorem Populates.card_le (h : Populates flags (TableOf s.mem pml4) used' pml4 vs ds s s')
    (htable : ∀ v ∈ vs, pageTable s'.mem pml4 v ≠ none) :
    ds.length + (missingTables s.mem pml4 vs).card ≤ (clearFrames s.frames.bitmap).card := by
  have hmade : ∀ p ∈ missingTables s.mem pml4 vs, ∃ t, p.length ≤ 3 ∧
      walk childTable (entry s'.mem) pml4 p = some t ∧ FreeFrame s.frames t := by
    intro p hp
    obtain ⟨⟨v, hv, hpre⟩, hnone⟩ := mem_missingTables.mp hp
    obtain ⟨u, hu⟩ := Option.ne_none_iff_exists'.mp (htable v hv)
    obtain ⟨t, ht⟩ := walk_left hpre hu
    refine ⟨t, hpre.length_le, ht, ?_⟩
    obtain ⟨q, hq, hwq⟩ | hfree := h.fresh t (h.tree.tree.used p t hpre.length_le ht)
    · -- a table that was there is not reached on a second way
      have hsame := h.tree.tree.inj p q t hpre.length_le hq ht (h.mid.walk hq hwq)
      rw [hsame, hwq] at hnone
      cases hnone
    · exact hfree
  have hdisj : Disjoint (frameNumbers ds)
      ((missingTables s.mem pml4 vs).image (tableNumber s'.mem pml4)) := by
    rw [Finset.disjoint_left]
    intro g hgd hgp
    obtain ⟨d, hd, rfl⟩ := Finset.mem_image.mp hgd
    obtain ⟨p, hp, hg⟩ := Finset.mem_image.mp hgp
    obtain ⟨t, hlen, hw, hfree⟩ := hmade p hp
    obtain ⟨hfd, -, hnot⟩ := h.data d (List.mem_toFinset.mp hd)
    rw [tableNumber, hw, Option.getD_some] at hg
    exact hnot (eq_of_frameNumber hfree.1 hfd.1 hg ▸ h.tree.tree.used p t hlen hw)
  have hsub : frameNumbers ds ∪ (missingTables s.mem pml4 vs).image (tableNumber s'.mem pml4) ⊆
      clearFrames s.frames.bitmap := by
    refine Finset.union_subset h.frameNumbers_subset fun g hg => ?_
    obtain ⟨p, hp, rfl⟩ := Finset.mem_image.mp hg
    obtain ⟨t, -, hw, hfree⟩ := hmade p hp
    rw [mem_clearFrames_iff, tableNumber, hw, Option.getD_some, Nat.div_mul_cancel hfree.1]
    exact hfree
  have hps : ((missingTables s.mem pml4 vs).image (tableNumber s'.mem pml4)).card =
      (missingTables s.mem pml4 vs).card := by
    refine Finset.card_image_of_injOn fun p hp q hq hpq => ?_
    obtain ⟨t, hplen, hwp, hft⟩ := hmade p hp
    obtain ⟨u, hqlen, hwq, hfu⟩ := hmade q hq
    rw [tableNumber, tableNumber, hwp, hwq, Option.getD_some, Option.getD_some] at hpq
    rw [← eq_of_frameNumber hft.1 hfu.1 hpq] at hwq
    exact h.tree.tree.inj p q t hplen hqlen hwp hwq
  rw [← h.card_frameNumbers, ← hps, ← Finset.card_union_of_disjoint hdisj]
  exact Finset.card_le_card hsub

end DevOs
