import DevOs.Mm.Heap.Spans
import DevOs.Mm.Pmm
import Mathlib.Data.List.Perm.Subperm

/-!
# The large allocator keeps the heap invariant

A span taken off the free list or newly mapped is a hole, which is cut to size and handed
out (`HeapInv.serve`); so go `large_alloc` and `large_free` (`largeAlloc_spec`,
`largeFree_spec`).
-/

namespace DevOs

open ByteMem Intrusive Tiling Function

theorem objectAt_range {sp o idx : Nat} (ho : IsOrder o) (hidx : idx < slabCap o) :
    sp + slabData o ≤ objectAt sp o idx ∧ objectAt sp o idx + 2 ^ o ≤ sp + pageSize ∧
      0 < 2 ^ o := by
  have hg := slab_geometry ho
  have hpow := Nat.two_pow_pos o
  have hle : (idx + 1) * 2 ^ o ≤ slabCap o * 2 ^ o := Nat.mul_le_mul_right _ hidx
  rw [Nat.succ_mul] at hle
  unfold objectAt
  omega

namespace HeapInv

variable {h : Heap} {L : HeapLayout} {live : List Live} {holes : List Nat} {b n : Nat}

theorem slab_ptr_ne (hi : HeapInv h L live holes) (hL : L b = some (.alloc, n)) {x : Live}
    (hx : x ∈ live) (htier : x.tier = .slab) : x.ptr ≠ b + largeHdrSize := by
  intro hptr
  have hps : largeHdrSize < pageSize := by decide
  obtain ⟨sp, o, idx, hLsp, ho, hidx, hobj, -⟩ := hi.slab_placed hx htier
  have hr := @objectAt_range sp o idx ho hidx
  have hn := hi.page_le hL
  exact ne_of_kind hLsp hL (by simp)
    (hi.tiling.eq_of_mem (x := x.ptr) hLsp hL (by omega) (by omega))

theorem ptr_ne_hole (hi : HeapInv h L live (b :: holes)) (hL : L b = some (.alloc, n)) {x : Live}
    (hx : x ∈ live) : x.ptr ≠ b + largeHdrSize := by
  intro hptr
  cases htier : x.tier with
  | slab => exact hi.slab_ptr_ne hL hx htier hptr
  | large => exact (hi.owned b n hL).mpr ⟨x, hx, htier, hptr⟩ List.mem_cons_self

theorem finishAlloc_header (h : Heap) (b : Nat) :
    load 8 (finishAlloc h b).2.mem b = heapMagicAlloc ∧
      largeSize (finishAlloc h b).2.mem b = largeSize h.mem b := by
  unfold finishAlloc largeSize
  constructor
  · rw [load_store_of_disjoint (by omega), load_store_of_disjoint (by omega),
      load_store_of_lt (by decide)]
  · repeat rw [load_store_of_disjoint (by omega)]

/-- A hole is handed out to a caller. -/
theorem handOut (hi : HeapInv h L live (b :: holes)) (hnot : b ∉ holes)
    (hL : L b = some (.alloc, n)) {size : Nat} (hpos : 0 < size)
    (hsize : size + largeHdrSize ≤ n) :
    HeapInv (finishAlloc h b).2 L (⟨b + largeHdrSize, size, .large⟩ :: live) holes := by
  have hps : 32 ≤ pageSize := by decide
  have hsame : ∀ {c k m}, L c = some (k, m) → c ≠ b →
      SameMeta h.mem (finishAlloc h b).2.mem c k := fun hc hcb =>
    ((hi.sameMeta_store_apart hc hL hcb (by omega) (by omega)).trans
      (hi.sameMeta_store_apart hc hL hcb (by omega) (by omega))).trans
      (hi.sameMeta_store_apart hc hL hcb (by omega) (by omega))
  have hhead := finishAlloc_header h b
  have hfree : ∀ c m, L c = some (.free, m) → SameMeta h.mem (finishAlloc h b).2.mem c .free :=
    fun c m hc => hsame hc (ne_of_kind hc hL (by simp))
  refine hi.respan hi.tiling hi.cursor rfl (fun _ _ _ => Iff.rfl)
    (fun c o m hc => hsame hc (ne_of_kind hc hL (by simp)))
    (fun c m hc => hi.header_frame hc (hi.not_hole hc (by simp)) (hfree c m hc)) ?_ ?_
    (hi.freeList_frame hfree) ?_ (fun _ hx _ => List.mem_cons_of_mem _ hx) ?_ ?_
  · intro c m hc hcn
    by_cases hcb : c = b
    · subst hcb
      obtain ⟨m', hc', hsz⟩ := hi.hole c List.mem_cons_self
      rw [hc] at hc'
      cases hc'
      exact ⟨hhead.1, hhead.2.trans hsz⟩
    · exact hi.header_frame hc (by simp [hcb, hcn]) (hsame hc hcb)
  · intro c hc
    obtain ⟨m, hLc, hsz⟩ := hi.hole c (List.mem_cons_of_mem b hc)
    have hcb : c ≠ b := by
      rintro rfl
      exact hnot hc
    exact ⟨m, hLc, (hsame hLc hcb).largeSize.trans hsz⟩
  · intro x hx
    obtain rfl | hx := List.mem_cons.mp hx
    · exact .inr ⟨rfl, hpos, b, n, hL, rfl, hsize⟩
    · exact hi.replace _ (fun _ _ hc _ => hc) hx
  · rw [List.map_cons, List.nodup_cons]
    refine ⟨?_, hi.distinct⟩
    rw [List.mem_map]
    rintro ⟨x, hx, hptr⟩
    exact hi.ptr_ne_hole hL hx hptr
  · intro c m hc
    by_cases hcb : c = b
    · subst hcb
      exact iff_of_true hnot ⟨_, List.mem_cons_self, rfl, rfl⟩
    · have hown := hi.owned c m hc
      rw [List.mem_cons, not_or, and_iff_right hcb] at hown
      rw [hown]
      constructor
      · rintro ⟨x, hx, hrest⟩
        exact ⟨x, List.mem_cons_of_mem _ hx, hrest⟩
      · rintro ⟨x, hx, htier, hptr⟩
        obtain rfl | hx := List.mem_cons.mp hx
        · dsimp only at hptr
          omega
        · exact ⟨x, hx, htier, hptr⟩

/-- A live span becomes a hole. -/
theorem takeBack (hi : HeapInv h L live holes) (hL : L b = some (.alloc, n)) (hnot : b ∉ holes) :
    HeapInv h L (live.filter fun y => y.ptr ≠ b + largeHdrSize) (b :: holes) where
  tiling := hi.tiling
  cursor := hi.cursor
  slabs := hi.slabs
  header c t hc hcn := hi.header c t hc fun hmem => hcn (List.mem_cons_of_mem b hmem)
  hole c hc := by
    obtain rfl | hc := List.mem_cons.mp hc
    · exact ⟨n, hL, (hi.header c _ hL hnot).2⟩
    · exact hi.hole c hc
  freeList := hi.freeList
  classes := hi.classes
  counts sp o m hsp := by
    refine SameMeta.pageCount (fun _ _ _ => rfl) (hi.slabs sp o m hsp).2
      (fun _ _ x hx htier _ => ?_) (hi.counts sp o m hsp)
    refine ⟨x, List.mem_filter.mpr ⟨hx, decide_eq_true fun hptr => ?_⟩, htier, rfl⟩
    exact hi.slab_ptr_ne hL hx htier hptr
  placed x hx := hi.placed x (List.mem_of_mem_filter hx)
  distinct := hi.distinct.sublist (List.filter_sublist.map Live.ptr)
  owned c m hc := by
    by_cases hcb : c = b
    · subst hcb
      refine iff_of_false (fun hcn => hcn List.mem_cons_self) ?_
      rintro ⟨x, hx, -, hptr⟩
      exact of_decide_eq_true (List.mem_filter.mp hx).2 hptr
    · rw [List.mem_cons, not_or, and_iff_right hcb, hi.owned c m hc]
      constructor
      · rintro ⟨x, hx, htier, hptr⟩
        exact ⟨x, List.mem_filter.mpr ⟨hx, decide_eq_true (by omega)⟩, htier, hptr⟩
      · rintro ⟨x, hx, hrest⟩
        exact ⟨x, List.mem_of_mem_filter hx, hrest⟩

/-- The pages mapped at the cursor are a new hole. -/
theorem growSpan (h' : Heap) (hi : HeapInv h L live holes)
    (hcls : h'.slabClasses = h.slabClasses) (hlist : h'.largeFreeList = h.largeFreeList)
    (hcur : h'.heapCursor = h.heapCursor + n)
    (hmax : h.heapCursor + n ≤ heapVirtBase + heapMaxSize) (hn : pageSize ∣ n) (hpos : 0 < n)
    (hmem : ∀ x, x < h.heapCursor → h'.mem x = h.mem x)
    (hsz : largeSize h'.mem h.heapCursor = n) :
    HeapInv h' (update L h.heapCursor (some (.alloc, n))) live
      (h.heapCursor :: holes) := by
  have hold : ∀ {c k m}, update L h.heapCursor (some (.alloc, n)) c = some (k, m) →
      c ≠ h.heapCursor ∨ k ≠ .alloc → L c = some (k, m) := by
    intro c k m hc hor
    obtain ⟨hcb, heq⟩ | ⟨-, hc⟩ := update_cases hc
    · cases heq
      exact absurd rfl (hor.resolve_left (not_not.mpr hcb))
    · exact hc
  have hsame : ∀ {c k m}, L c = some (k, m) → SameMeta h.mem h'.mem c k :=
    fun hc => hi.sameMeta_below hc hmem
  refine hi.respan ?_ ?_ hcls ?_ (fun c o m hc => hsame hc) ?_ ?_ ?_ ?_
    (fun x hx => hi.replace _ (fun c m hc _ => hi.keep_below hc) hx) (fun _ hx _ => hx)
    hi.distinct ?_
  · rw [hcur]
    exact hi.tiling.grow hi.cursor.1 hi.cursor.2.2 hn hpos
  · rw [hcur]
    exact ⟨by have := hi.cursor.1; omega, hmax, Nat.dvd_add hi.cursor.2.2 hn⟩
  · exact fun c o m => ⟨fun hc => hold hc (.inr (by simp)), hi.keep_below⟩
  · intro c m hc
    have hLc := hold hc (.inr (by simp))
    exact hi.header_frame hLc (hi.not_hole hLc (by simp)) (hsame hLc)
  · intro c m hc hcn
    rw [List.mem_cons, not_or] at hcn
    have hLc := hold hc (.inl hcn.1)
    exact hi.header_frame hLc hcn.2 (hsame hLc)
  · intro c hc
    obtain rfl | hc := List.mem_cons.mp hc
    · exact ⟨n, update_self _ _ _, hsz⟩
    · obtain ⟨m, hLc, hszc⟩ := hi.hole c hc
      exact ⟨m, hi.keep_below hLc, (hsame hLc).largeSize.trans hszc⟩
  · obtain ⟨l, hd, hnd, hmeml⟩ := hi.freeList_frame fun c m hc => hsame hc
    rw [hlist]
    refine ⟨l, hd, hnd, fun c => (hmeml c).trans (exists_congr fun m => ?_)⟩
    exact ⟨hi.keep_below, fun hc => hold hc (.inr (by simp))⟩
  · intro c m hc
    by_cases hcb : c = h.heapCursor
    · subst hcb
      refine iff_of_false (fun hcn => hcn List.mem_cons_self) ?_
      rintro ⟨x, hx, htier, hptr⟩
      obtain ⟨c', m', hc', hptr', -⟩ := hi.large_placed hx htier
      have hcc : c' = h.heapCursor := by omega
      rw [hcc, hi.tiling.hi_eq_none] at hc'
      cases hc'
    · rw [List.mem_cons, not_or, and_iff_right hcb, hi.owned c m (hold hc (.inl hcb))]

/-- A hole is cut in two. -/
theorem cut {total rest : Nat} (hi : HeapInv h L live (b :: holes)) (hnot : b ∉ holes)
    (hL : L b = some (.alloc, total + rest)) (hdvd : pageSize ∣ total) (hpos : 0 < total)
    (hrest : pageSize ≤ rest) :
    HeapInv { h with mem := store 8 (store 8 h.mem (b + total + 8) rest) (b + 8) total }
      (update (update L b (some (.alloc, total))) (b + total)
        (some (.alloc, rest))) live ((b + total) :: b :: holes) := by
  have hps : 32 ≤ pageSize := by decide
  have hin := hi.tiling.inside b _ _ hL
  have hcur := hi.cursor
  have hmax : heapVirtBase + heapMaxSize < 2 ^ 64 := by decide
  have hpage : pageSize ≤ total := Nat.le_of_dvd hpos hdvd
  -- other tiles keep clear of both halves
  have hclear : ∀ {c k m}, L c = some (k, m) → c ≠ b →
      c + pageSize ≤ b ∨ b + (total + rest) ≤ c := by
    intro c k m hc hcb
    have hd := hi.tiling.disjoint c k m b _ _ hc hL hcb
    have hm := hi.page_le hc
    omega
  have hkeep : ∀ {c k m}, L c = some (k, m) → c ≠ b →
      update (update L b (some (.alloc, total))) (b + total)
        (some (.alloc, rest)) c = some (k, m) := by
    intro c k m hc hcb
    have hne : c ≠ b + total := by
      have := hclear hc hcb
      omega
    rwa [update_of_ne hne, update_of_ne hcb]
  have hold : ∀ {c k m}, update (update L b (some (.alloc, total))) (b + total)
      (some (.alloc, rest)) c = some (k, m) → c ≠ b ∧ c ≠ b + total ∨ k ≠ .alloc →
      L c = some (k, m) ∧ c ≠ b := by
    intro c k m hc hor
    obtain ⟨hc2, heq⟩ | ⟨-, hc⟩ := update_cases hc
    · cases heq
      exact absurd rfl (hor.resolve_left fun hand => hand.2 hc2)
    · obtain ⟨hcb, heq⟩ | ⟨hcb, hc⟩ := update_cases hc
      · cases heq
        exact absurd rfl (hor.resolve_left fun hand => hand.1 hcb)
      · exact ⟨hc, hcb⟩
  have hsame : ∀ {c k m}, L c = some (k, m) → c ≠ b → SameMeta h.mem
      (store 8 (store 8 h.mem (b + total + 8) rest) (b + 8) total) c k := by
    intro c k m hc hcb
    have hcl := hclear hc hcb
    have hmeta := hi.meta_le hc
    exact (sameMeta_store (by omega)).trans (sameMeta_store (by omega))
  have hhole : ∀ {c}, c ∈ holes → c ≠ b := by
    rintro c hc rfl
    exact hnot hc
  have hkind : ∀ {c k m}, L c = some (k, m) → k ≠ .alloc → c ≠ b := fun hc => ne_of_kind hc hL
  refine hi.respan (hi.tiling.split hL hdvd hpos (by omega) .alloc .alloc) hcur rfl ?_
    (fun c o m hc => hsame hc (hkind hc (by simp))) ?_ ?_ ?_ ?_
    (fun x hx => hi.replace _ (fun c m hc hcn =>
      hkeep hc fun hcb => hcn (hcb ▸ List.mem_cons_self)) hx) (fun _ hx _ => hx) hi.distinct ?_
  · exact fun c o m => ⟨fun hc => (hold hc (.inr (by simp))).1,
      fun hc => hkeep hc (hkind hc (by simp))⟩
  · intro c m hc
    obtain ⟨hLc, hcb⟩ := hold hc (.inr (by simp))
    exact hi.header_frame hLc (hi.not_hole hLc (by simp)) (hsame hLc hcb)
  · intro c m hc hcn
    simp only [List.mem_cons, not_or] at hcn
    obtain ⟨hLc, hcb⟩ := hold hc (.inl ⟨hcn.2.1, hcn.1⟩)
    exact hi.header_frame hLc (by simp [hcn]) (hsame hLc hcb)
  · intro c hc
    obtain rfl | hc := List.mem_cons.mp hc
    · refine ⟨rest, update_self _ _ _, ?_⟩
      unfold largeSize
      rw [load_store_of_disjoint (by omega), load_store_of_lt (by omega)]
    · obtain rfl | hc := List.mem_cons.mp hc
      · have hne : c ≠ c + total := by omega
        refine ⟨total, by rw [update_of_ne hne, update_self], ?_⟩
        unfold largeSize
        rw [load_store_of_lt (by omega)]
      · obtain ⟨m, hLc, hsz⟩ := hi.hole c (List.mem_cons_of_mem b hc)
        exact ⟨m, hkeep hLc (hhole hc), (hsame hLc (hhole hc)).largeSize.trans hsz⟩
  · obtain ⟨l, hd, hnd, hmem⟩ := hi.freeList_frame fun c m hc => hsame hc (hkind hc (by simp))
    refine ⟨l, hd, hnd, fun c => (hmem c).trans (exists_congr fun m => ?_)⟩
    exact ⟨fun hc => hkeep hc (hkind hc (by simp)), fun hc => (hold hc (.inr (by simp))).1⟩
  · intro c m hc
    by_cases hhalf : c = b + total ∨ c = b
    · refine iff_of_false (fun hcn => hcn (by simp only [List.mem_cons]; tauto)) ?_
      rintro ⟨x, hx, htier, hptr⟩
      obtain ⟨c', m', hc', hptr', -, hcn'⟩ := hi.large_placed hx htier
      have hcc : c' = c := by omega
      subst hcc
      obtain hc2 | hcb := hhalf
      · have hcb : c' ≠ b := by omega
        have := hclear hc' hcb
        omega
      · exact hcn' (hcb ▸ List.mem_cons_self)
    · rw [not_or] at hhalf
      obtain ⟨hLc, hcb⟩ := hold hc (.inl hhalf.symm)
      rw [← hi.owned c m hLc]
      simp [hhalf.1]

/-- The list of the tiles of one kind is shorter than the fuel of the loops over it. -/
theorem length_lt (hi : HeapInv h L live holes) {l : List Nat} {k : TileKind} (hnd : l.Nodup)
    (hmem : ∀ c, c ∈ l ↔ ∃ n, L c = some (k, n)) : l.length < heapFuel := by
  have hbase : heapVirtBase = heapVirtBase / pageSize * pageSize := by decide
  have hmax : heapMaxSize = heapMaxSize / pageSize * pageSize := by decide
  have hpos : 0 < pageSize := by decide
  have hpages : ∀ c ∈ l, ∃ i, i < heapMaxSize / pageSize ∧ c = heapVirtBase + i * pageSize := by
    intro c hc
    obtain ⟨n, hL⟩ := (hmem c).mp hc
    have hin := hi.tiling.inside c k n hL
    have hn := hi.page_le hL
    have hcur := hi.cursor.2.1
    obtain ⟨j, rfl⟩ := (hi.tiling.aligned c k n hL).1
    have hlo : heapVirtBase / pageSize ≤ j := Nat.div_le_of_le_mul (by omega)
    have hhi : j < heapVirtBase / pageSize + heapMaxSize / pageSize := by
      refine Nat.lt_of_mul_lt_mul_right (a := pageSize) ?_
      rw [Nat.add_mul, Nat.mul_comm j]
      omega
    refine ⟨j - heapVirtBase / pageSize, by omega, ?_⟩
    rw [Nat.sub_mul, Nat.mul_comm j]
    omega
  have hsub : l ⊆ (List.range (heapMaxSize / pageSize)).map (heapVirtBase + · * pageSize) := by
    intro c hc
    obtain ⟨i, hi', rfl⟩ := hpages c hc
    exact List.mem_map.mpr ⟨i, List.mem_range.mpr hi', rfl⟩
  have hle := (List.subperm_of_subset hnd hsub).length_le
  rw [List.length_map, List.length_range] at hle
  exact Nat.lt_succ_of_le hle

end HeapInv

/-! ## Best fit -/

/-- The loop finds the smallest span that is large enough. -/
theorem bestFit_spec {m : Mem} {total : Nat} {l : List Nat} :
    ∀ {fuel hdr best : Nat}, Path (nextSpan m) (toPtr hdr) l → l.length < fuel →
      ∃ r, bestFit m total fuel hdr best = some r ∧
        (r = best ∨ r ∈ l ∧ total ≤ largeSize m r) ∧
        (best ≠ 0 → r ≠ 0 ∧ largeSize m r ≤ largeSize m best) ∧
        ∀ c ∈ l, total ≤ largeSize m c → r ≠ 0 ∧ largeSize m r ≤ largeSize m c := by
  induction l with
  | nil =>
    intro fuel hdr best hp hfuel
    obtain ⟨n, rfl⟩ : ∃ n, fuel = n + 1 := ⟨fuel - 1, by omega⟩
    exact ⟨best, by rw [bestFit, if_pos (toPtr_eq_none_iff.mp hp)], .inl rfl,
      fun hb => ⟨hb, Nat.le_refl _⟩, fun c hc => absurd hc List.not_mem_nil⟩
  | cons a l ih =>
    intro fuel hdr best hp hfuel
    obtain ⟨n, rfl⟩ : ∃ n, fuel = n + 1 := ⟨fuel - 1, by omega⟩
    obtain ⟨rfl, ha⟩ := toPtr_eq_some_iff.mp hp.1
    rw [bestFit, if_neg ha]
    -- the span at hand is kept if it is better than the best so far
    generalize hnext : (if total ≤ largeSize m hdr then
      if best = 0 ∨ largeSize m hdr < largeSize m best then hdr else best
      else best) = next
    obtain ⟨r, hr, hor, hbest, hleast⟩ :=
      @ih n (largeNext m hdr) next hp.2 (Nat.lt_of_succ_lt_succ hfuel)
    refine ⟨r, hr, ?_, fun hb => ?_, fun c hc hfits => ?_⟩
    · obtain rfl | ⟨hmem, hle⟩ := hor
      · rw [← hnext]
        split
        · next hfits =>
            split
            · exact .inr ⟨List.mem_cons_self, hfits⟩
            · exact .inl rfl
        · exact .inl rfl
      · exact .inr ⟨List.mem_cons_of_mem _ hmem, hle⟩
    · have hn : next ≠ 0 ∧ largeSize m next ≤ largeSize m best := by
        rw [← hnext]
        split
        · split
          · exact ⟨ha, by omega⟩
          · exact ⟨hb, Nat.le_refl _⟩
        · exact ⟨hb, Nat.le_refl _⟩
      obtain ⟨hr0, hle⟩ := hbest hn.1
      exact ⟨hr0, hle.trans hn.2⟩
    · obtain rfl | hc := List.mem_cons.mp hc
      · have hn : next ≠ 0 ∧ largeSize m next ≤ largeSize m c := by
          rw [← hnext, if_pos hfits]
          split
          · exact ⟨ha, Nat.le_refl _⟩
          · next hkeep =>
              rw [not_or, Nat.not_lt] at hkeep
              exact hkeep
        obtain ⟨hr0, hle⟩ := hbest hn.1
        exact ⟨hr0, hle.trans hn.2⟩
      · exact hleast c hc hfits

variable {h : Heap} {L : HeapLayout} {live : List Live} {b n size : Nat}

theorem served_cursor (h : Heap) (b total : Nat) :
    (finishAlloc (splitSpan h b total) b).2.heapCursor = h.heapCursor := by
  unfold splitSpan
  split <;> rfl

@[simp] theorem largeRemoveFree_cursor (h : Heap) (b : Nat) :
    (largeRemoveFree h b).heapCursor = h.heapCursor := by
  unfold largeRemoveFree
  dsimp only
  split <;> rfl

/-- The layout after the span at `b` of `n` bytes has served a request for `total`: what
is over is a free span, if it is large enough to be one. -/
def servedLayout (L : HeapLayout) (b n total : Nat) : HeapLayout := fun c =>
  if c = b then some (.alloc, if total + pageSize + largeHdrSize ≤ n then total else n)
  else if c = b + total ∧ total + pageSize + largeHdrSize ≤ n then some (.free, n - total)
  else L c

theorem HeapInv.servedLayout_slab {total sp o m : Nat} {k : TileKind} {holes : List Nat}
    (hi : HeapInv h L live holes) (hL : L b = some (k, n)) (hk : ∀ o, k ≠ .slab o)
    (hsp : L sp = some (.slab o, m)) :
    servedLayout L b n total sp = some (.slab o, m) := by
  have hne : sp ≠ b := ne_of_kind hsp hL (hk o).symm
  unfold servedLayout
  rw [if_neg hne, if_neg ?_]
  · exact hsp
  · rintro ⟨rfl, hroom⟩
    have hd := hi.tiling.disjoint _ _ _ _ _ _ hsp hL hne
    have hps : 0 < pageSize := by decide
    have hpos := hi.tiling.pos _ _ _ hsp
    omega

theorem HeapInv.serve {total : Nat} (hi : HeapInv h L live [b]) (hL : L b = some (.alloc, n))
    (hdvd : pageSize ∣ total) (hle : total ≤ n) (hpos : 0 < size)
    (hsize : size + largeHdrSize ≤ total) :
    HeapInv (finishAlloc (splitSpan h b total) b).2 (servedLayout L b n total)
      (⟨b + largeHdrSize, size, .large⟩ :: live) [] := by
  obtain ⟨n', hL', hsz⟩ := hi.hole b List.mem_cons_self
  rw [hL] at hL'
  cases hL'
  have hin := hi.tiling.inside b _ _ hL
  have hcur := hi.cursor
  have hmax : heapMaxSize + pageSize + largeHdrSize < 2 ^ 64 := by decide
  unfold splitSpan
  rw [hsz, Nat.mod_eq_of_lt (by omega)]
  split
  · next hsplit =>
      obtain ⟨rest, rfl⟩ : ∃ rest, n = total + rest := ⟨n - total, by omega⟩
      have hne : b ≠ b + total := by omega
      rw [Nat.add_sub_cancel_left]
      have hcut := hi.cut List.not_mem_nil hL hdvd (by omega) (by omega)
      have hfree := hcut.insertFree (fun hmem => hne.symm (List.mem_singleton.mp hmem))
        (update_self _ _ _)
      have hout := hfree.handOut (n := total) List.not_mem_nil
        (by rw [update_of_ne hne, update_of_ne hne, update_self])
        hpos hsize
      have hlayout : servedLayout L b (total + rest) total =
          update (update (update L b (some (.alloc, total)))
            (b + total) (some (.alloc, rest))) (b + total) (some (.free, rest)) := by
        funext c
        simp only [servedLayout, hsplit, update_apply, Nat.add_sub_cancel_left, and_true, if_true]
        by_cases hcb : c = b
        · rw [if_pos hcb, if_neg (hcb ▸ hne), if_neg (hcb ▸ hne), if_pos hcb]
        · simp only [hcb, if_false]
          split <;> rfl
      rw [hlayout]
      exact hout
  · next hsplit =>
      have hlayout : servedLayout L b n total = L := by
        funext c
        simp only [servedLayout, hsplit, and_false, if_false]
        split
        · next hcb => rw [hcb, hL]
        · rfl
      rw [hlayout]
      exact hi.handOut List.not_mem_nil hL hpos (by omega)

theorem HeapInv.largeRemoveFree_payload {holes : List Nat} (hi : HeapInv h L live holes)
    (hL : L b = some (.free, n)) {x : Nat} (hx : Payload L x) :
    (largeRemoveFree h b).mem x = h.mem x := by
  obtain ⟨hp, hq, -⟩ := hi.neighbours hL
  rw [largeRemoveFree_eq fun hz => by
    obtain ⟨hpb, n', hLp⟩ := hp hz
    exact hi.apart hL hLp (Ne.symm hpb)]
  have hclear : ∀ {c m}, L c = some (.free, m) → x < c ∨ c + 32 ≤ x := fun hc =>
    (hi.payload_clear hx hc).1
  have hb := hclear hL
  refine unlinkMem_apply (by omega) (fun hz => ?_) (fun hz => ?_)
  · obtain ⟨-, n', hLp⟩ := hp hz
    have := hclear hLp
    omega
  · obtain ⟨-, n', hLq⟩ := hq hz
    have := hclear hLq
    omega

theorem largeInsertFree_apply {x : Nat} (hb : x < b ∨ b + 32 ≤ x)
    (hhead : h.largeFreeList ≠ 0 → x < h.largeFreeList ∨ h.largeFreeList + 32 ≤ x) :
    (largeInsertFree h b).mem x = h.mem x := by
  have hown : store 8 (store 8 (store 8 h.mem b heapMagicFree) (b + 16) h.largeFreeList)
      (b + 24) 0 x = h.mem x := by
    repeat rw [store_apply_of_disjoint (by omega)]
  unfold largeInsertFree
  dsimp only
  split
  · next hz =>
      have := hhead hz
      rw [store_apply_of_disjoint (by omega), hown]
  · exact hown

theorem HeapInv.served_apply {total x : Nat} (hi : HeapInv h L live [b])
    (hL : L b = some (.alloc, n)) (hle : total ≤ n) (hx : x < b ∨ b + n ≤ x)
    (hfree : ∀ c m, L c = some (.free, m) → x < c ∨ c + 32 ≤ x) :
    (finishAlloc (splitSpan h b total) b).2.mem x = h.mem x := by
  obtain ⟨n', hL', hsz⟩ := hi.hole b List.mem_cons_self
  rw [hL] at hL'
  cases hL'
  have hn := hi.page_le hL
  have hps : 32 ≤ pageSize := by decide
  have hin := hi.tiling.inside b _ _ hL
  have hcur := hi.cursor
  have hmax : heapMaxSize + pageSize + largeHdrSize < 2 ^ 64 := by decide
  have hsplit : (splitSpan h b total).mem x = h.mem x := by
    unfold splitSpan
    rw [hsz, Nat.mod_eq_of_lt (by omega)]
    split
    · next hroom =>
        have hhead : h.largeFreeList ≠ 0 → x < h.largeFreeList ∨ h.largeFreeList + 32 ≤ x := by
          intro hz
          obtain ⟨m, hm⟩ := hi.head_free hz
          exact hfree _ m hm
        have hrem : x < b + total ∨ b + total + 32 ≤ x := by omega
        dsimp only
        rw [largeInsertFree_apply hrem]
        · dsimp only
          rw [store_apply_of_disjoint (by omega), store_apply_of_disjoint (by omega)]
        · exact hhead
    · rfl
  unfold finishAlloc
  dsimp only
  repeat rw [store_apply_of_disjoint (by omega)]
  rw [hsplit]

theorem heapMapPages_spec {count : Nat} {growth : Option Mem}
    (hcount : growth ≠ none → count ≤ pmmMaxFrames)
    (hcur : h.heapCursor ≤ heapVirtBase + heapMaxSize) :
    heapMapPages h count growth = (0, h) ∨
      ∃ h', heapMapPages h count growth = (h.heapCursor, h') ∧
        h.heapCursor + count * pageSize ≤ heapVirtBase + heapMaxSize ∧
        h'.heapCursor = h.heapCursor + count * pageSize ∧ h'.slabClasses = h.slabClasses ∧
        h'.largeFreeList = h.largeFreeList ∧ ∀ x, x < h.heapCursor → h'.mem x = h.mem x := by
  cases growth with
  | none =>
    left
    unfold heapMapPages
    dsimp only
    split <;> rfl
  | some fresh =>
    have hle : count * pageSize ≤ pmmMaxFrames * pageSize :=
      Nat.mul_le_mul_right _ (hcount (by simp))
    have hwrap : heapVirtBase + heapMaxSize + pmmMaxFrames * pageSize < 2 ^ 64 := by decide
    unfold heapMapPages
    rw [Nat.mod_eq_of_lt (show count * pageSize < 2 ^ 64 by omega)]
    dsimp only
    rw [Nat.mod_eq_of_lt (show h.heapCursor + count * pageSize < 2 ^ 64 by omega)]
    split
    · exact .inl rfl
    · refine .inr ⟨_, rfl, by omega, rfl, rfl, rfl, fun x hx => ?_⟩
      exact if_neg (by omega)

theorem initSpan_spec {m : Mem} {hdr : Nat} (hsize : size < 2 ^ 64) :
    largeSize (initSpan m hdr size) hdr = size ∧ load 8 (initSpan m hdr size) hdr = heapMagicFree ∧
      ∀ x, x < hdr → initSpan m hdr size x = m x := by
  unfold initSpan largeSize
  dsimp only
  refine ⟨?_, load_store_of_lt (by decide), fun x hx => ?_⟩
  · repeat rw [load_store_of_disjoint (by omega)]
    rw [load_store_of_lt (by omega)]
  · repeat rw [store_apply_of_disjoint (by omega)]

/-- What `large_alloc` comes to for `total` bytes, of which `size` are the caller's. -/
inductive LargeOutcome (h : Heap) (L : HeapLayout) (live : List Live) (size total : Nat) :
    Nat × Heap → Prop
  /-- Nothing fits, and no pages were mapped. -/
  | refused : (∀ c m, L c = some (.free, m) → m < total) → LargeOutcome h L live size total (0, h)
  /-- The smallest of the free spans that fit. -/
  | reused {b n : Nat} {h' : Heap} : L b = some (.free, n) → total ≤ n →
      (∀ c m, L c = some (.free, m) → total ≤ m → n ≤ m) → h'.heapCursor = h.heapCursor →
      Leaves h L h' (servedLayout L b n total) →
      HeapInv h' (servedLayout L b n total) (⟨b + largeHdrSize, size, .large⟩ :: live) [] →
      LargeOutcome h L live size total (b + largeHdrSize, h')
  /-- Nothing fits, and the heap has grown by a span of exactly this size. -/
  | grown {h' : Heap} : (∀ c m, L c = some (.free, m) → m < total) →
      h'.heapCursor = h.heapCursor + total →
      Leaves h L h' (update L h.heapCursor (some (.alloc, total))) →
      HeapInv h' (update L h.heapCursor (some (.alloc, total)))
        (⟨h.heapCursor + largeHdrSize, size, .large⟩ :: live) [] →
      LargeOutcome h L live size total (h.heapCursor + largeHdrSize, h')

/-! ## `large_alloc` and `large_free` -/

theorem largeAlloc_spec {asked : Nat} (hi : HeapInv h L live [])
    (hno : asked + largeHdrSize + (pageSize - 1) < 2 ^ 64) {growth : Option Mem}
    (hgrow : growth ≠ none →
      alignUp (asked + largeHdrSize) pageSize / pageSize ≤ pmmMaxFrames)
    (hpos : 0 < size)
    (hsize : size + largeHdrSize ≤ alignUp (asked + largeHdrSize) pageSize) :
    ∃ r, largeAlloc h asked growth = some r ∧
      LargeOutcome h L live size (alignUp (asked + largeHdrSize) pageSize) r := by
  have hps : 0 < pageSize := by decide
  have hdvd := dvd_alignUp (asked + largeHdrSize) pageSize
  have hlt := alignUp_lt hps hno
  obtain ⟨l, hd, hnd, hmem⟩ := hi.freeList
  have hfuel := hi.length_lt hnd hmem
  obtain ⟨best, hbest, hfit, -, hleast⟩ :=
    @bestFit_spec h.mem (alignUp (asked + largeHdrSize) pageSize) l heapFuel h.largeFreeList 0
      hd.path hfuel
  have hsz : ∀ {c m}, L c = some (.free, m) → largeSize h.mem c = m := fun hc =>
    (hi.header _ _ hc List.not_mem_nil).2
  have hleast' : ∀ c m, L c = some (.free, m) → alignUp (asked + largeHdrSize) pageSize ≤ m →
      best ≠ 0 ∧ largeSize h.mem best ≤ m := by
    intro c m hc hle
    have hin := hleast c ((hmem c).mpr ⟨m, hc⟩)
    rw [hsz hc] at hin
    exact hin hle
  unfold largeAlloc
  simp only [hbest]
  generalize alignUp (asked + largeHdrSize) pageSize = total at *
  split
  · next hb0 =>
    -- nothing fits: the heap grows by a span of exactly the size needed
    have hnone : ∀ c m, L c = some (.free, m) → m < total := fun c m hc => by
      by_contra hle
      exact (hleast' c m hc (Nat.not_lt.mp hle)).1 hb0
    have hmul : total / pageSize * pageSize = total := Nat.div_mul_cancel hdvd
    obtain hfail | ⟨h', hmap, hroom, hcur, hcls, hlist, hsame⟩ :=
      @heapMapPages_spec h (total / pageSize) growth hgrow hi.cursor.2.1
    · rw [hfail]
      exact ⟨_, rfl, .refused hnone⟩
    · rw [hmul] at hroom hcur
      rw [hmap, hmul]
      have hc0 : h.heapCursor ≠ 0 := by
        have : 0 < heapVirtBase := by decide
        have := hi.cursor.1
        omega
      have h64 : heapVirtBase + heapMaxSize < 2 ^ 64 := by decide
      have hinit := @initSpan_spec total h'.mem h.heapCursor (by omega)
      have hgrown := hi.growSpan { h' with mem := initSpan h'.mem h.heapCursor total }
        hcls hlist hcur hroom hdvd (by omega) (fun x hx => (hinit.2.2 x hx).trans (hsame x hx))
        hinit.1
      have hserve := hgrown.serve (update_self _ _ _) hdvd (Nat.le_refl total) hpos hsize
      have hlayout : servedLayout (update L h.heapCursor (some (.alloc, total)))
          h.heapCursor total total = update L h.heapCursor (some (.alloc, total)) := by
        have hbig : ¬ total + pageSize + largeHdrSize ≤ total := by omega
        funext c
        simp only [servedLayout, hbig, and_false, if_false]
        split
        · next hcb => rw [hcb, update_self]
        · rfl
      rw [hlayout] at hserve
      have hleave : ∀ x, Payload L x → (finishAlloc (splitSpan
          { h' with mem := initSpan h'.mem h.heapCursor total } h.heapCursor total)
          h.heapCursor).2.mem x = h.mem x := by
        intro x hx
        have hlt := hi.payload_lt hx
        rw [hgrown.served_apply (update_self _ _ _) (Nat.le_refl total) (.inl hlt) fun c m hc => ?_]
        · exact (hinit.2.2 x hlt).trans (hsame x hlt)
        · obtain ⟨-, heq⟩ | ⟨-, hc⟩ := update_cases hc
          · cases heq
          · exact (hi.payload_clear hx hc).1
      dsimp only
      rw [if_neg hc0]
      exact ⟨_, rfl, .grown hnone ((served_cursor _ _ _).trans hcur)
        ⟨fun _ _ _ => hi.keep_below, hleave⟩ hserve⟩
  · next hb0 =>
      obtain ⟨hin, hbig⟩ := hfit.resolve_left hb0
      obtain ⟨n, hL⟩ := (hmem best).mp hin
      rw [hsz hL] at hbig
      have hserve :=
        (hi.removeFree hL).serve (update_self _ _ _) hdvd hbig hpos hsize
      have hlayout : servedLayout (update L best (some (.alloc, n))) best n total =
          servedLayout L best n total := by
        funext c
        unfold servedLayout
        split
        · rfl
        · next hcb => rw [update_of_ne hcb]
      rw [hlayout] at hserve
      have hleave : ∀ x, Payload L x →
          (finishAlloc (splitSpan (largeRemoveFree h best) best total) best).2.mem x = h.mem x := by
        intro x hx
        rw [(hi.removeFree hL).served_apply (update_self _ _ _) hbig
          ((hi.payload_clear hx hL).2 rfl) fun c m hc => ?_]
        · exact hi.largeRemoveFree_payload hL hx
        · obtain ⟨-, heq⟩ | ⟨-, hc⟩ := update_cases hc
          · cases heq
          · exact (hi.payload_clear hx hc).1
      refine ⟨_, rfl, .reused hL hbig (fun c m hc hle => ?_)
        ((served_cursor _ _ _).trans (largeRemoveFree_cursor h best))
        ⟨fun sp o m hsp => hi.servedLayout_slab hL (by simp) hsp, hleave⟩ hserve⟩
      rw [← hsz hL]
      exact (hleast' c m hc hle).2

theorem largeFree_spec (hi : HeapInv h L live []) (hL : L b = some (.alloc, n)) :
    largeFree h (b + largeHdrSize) = largeInsertFree h b ∧
      Leaves h L (largeFree h (b + largeHdrSize)) (update L b (some (.free, n))) ∧
      HeapInv (largeFree h (b + largeHdrSize)) (update L b (some (.free, n)))
        (live.filter fun y => y.ptr ≠ b + largeHdrSize) [] := by
  have hmag := (hi.header b _ hL List.not_mem_nil).1
  have heq : largeFree h (b + largeHdrSize) = largeInsertFree h b := by
    unfold largeFree
    dsimp only
    rw [Nat.add_sub_cancel, hmag, if_neg (by decide), if_neg (not_not.mpr rfl)]
  rw [heq]
  refine ⟨rfl, ⟨fun sp o m hsp => ?_, fun x hx => ?_⟩,
    (hi.takeBack hL List.not_mem_nil).insertFree List.not_mem_nil hL⟩
  · rwa [update_of_ne (ne_of_kind hsp hL (by simp))]
  · refine largeInsertFree_apply (hi.payload_clear hx hL).1 fun hz => ?_
    obtain ⟨m, hm⟩ := hi.head_free hz
    exact (hi.payload_clear hx hm).1

/-- A second free of a span changes nothing. -/
theorem largeFree_of_free (hi : HeapInv h L live []) (hL : L b = some (.free, n)) :
    largeFree h (b + largeHdrSize) = h := by
  have hmag := (hi.header b _ hL List.not_mem_nil).1
  unfold largeFree
  dsimp only
  rw [Nat.add_sub_cancel, if_pos hmag]

end DevOs
