import DevOs.Mm.Heap.Large

/-!
# The slab allocator keeps the heap invariant

Taking and giving back a slot of a page (`slabTake_spec`, `slabFree_of_slab`), a new page
(`HeapInv.growSlab`), and from them `slab_alloc` as a whole (`slabAlloc_spec`).
-/

namespace DevOs

open ByteMem Intrusive Tiling Function

section

variable {m : Mem} {sp : Nat}

theorem slabBitmap_store (w : Nat) (v : BitVec 64) :
    slabBitmap (store 8 m (sp + slabHdrSize + 8 * w) v.toNat) sp =
      update (slabBitmap m sp) w v := by
  funext k
  unfold slabBitmap
  by_cases hk : k = w
  · subst hk
    rw [update_self, load_store_of_lt v.isLt, BitVec.ofNat_toNat, BitVec.setWidth_eq]
  · rw [update_of_ne hk, load_store_of_disjoint (by omega)]

theorem slabBitmap_store_header {n a v : Nat} (ha : a + n ≤ sp + slabHdrSize) :
    slabBitmap (store n m a v) sp = slabBitmap m sp := by
  funext k
  exact congrArg (BitVec.ofNat 64) (load_store_of_disjoint (by omega))

theorem update_set (b : Nat → BitVec 64) (idx : Nat) :
    update b (idx / 64) (Bitmap.set b idx (idx / 64)) = Bitmap.set b idx := by
  funext k
  by_cases hk : k = idx / 64
  · subst hk
    rw [update_self]
  · rw [update_of_ne hk, Bitmap.set, if_neg hk]

theorem update_clear (b : Nat → BitVec 64) (idx : Nat) :
    update b (idx / 64) (Bitmap.clear b idx (idx / 64)) = Bitmap.clear b idx := by
  funext k
  by_cases hk : k = idx / 64
  · subst hk
    rw [update_self]
  · rw [update_of_ne hk, Bitmap.clear, if_neg hk]

/-- What the operations on a slab page leave alone: everything but its
bitmap, its free count and its hint. -/
structure SlabFrame (m m' : Mem) (sp o : Nat) : Prop where
  other : ∀ x, x < sp ∨ sp + slabData o ≤ x → m' x = m x
  magic : load 8 m' sp = load 8 m sp
  objSize : slabObjSize m' sp = slabObjSize m sp
  capacity : slabCapacity m' sp = slabCapacity m sp
  next : slabNext m' sp = slabNext m sp

theorem SlabFrame.trans {m' m'' : Mem} {o : Nat} (h : SlabFrame m m' sp o)
    (h' : SlabFrame m' m'' sp o) : SlabFrame m m'' sp o :=
  ⟨fun x hx => (h'.other x hx).trans (h.other x hx), h'.magic.trans h.magic,
    h'.objSize.trans h.objSize, h'.capacity.trans h.capacity, h'.next.trans h.next⟩

theorem slabFrame_bitmap {o idx : Nat} (ho : IsOrder o) (hidx : idx < slabCap o) (v : Nat) :
    SlabFrame m (store 8 m (sp + slabHdrSize + 8 * (idx / 64)) v) sp o := by
  have hg := slab_geometry ho
  have hw := slotWord_lt ho hidx
  unfold slabHdrSize at hg ⊢
  exact ⟨fun x hx => store_apply_of_disjoint (by omega), load_store_of_disjoint (by omega),
    load_store_of_disjoint (by omega), load_store_of_disjoint (by omega),
    load_store_of_disjoint (by omega)⟩

theorem slabFrame_counter {o off : Nat} (ho : IsOrder o) (hoff : off = 14 ∨ off = 16) (v : Nat) :
    SlabFrame m (store 2 m (sp + off) v) sp o := by
  have hg := slab_geometry ho
  unfold slabHdrSize at hg
  exact ⟨fun x hx => store_apply_of_disjoint (by omega), load_store_of_disjoint (by omega),
    load_store_of_disjoint (by omega), load_store_of_disjoint (by omega),
    load_store_of_disjoint (by omega)⟩

/-- What `slab_alloc` writes to take slot `idx`. -/
def takeSlot (m : Mem) (sp idx : Nat) : Mem :=
  let bits := Bitmap.set (slabBitmap m sp) idx (idx / 64)
  let m := store 8 m (sp + slabHdrSize + 8 * (idx / 64)) bits.toNat
  let m := store 2 m (sp + 14) ((slabFreeCount m sp + (2 ^ 16 - 1)) % 2 ^ 16)
  store 2 m (sp + 16) idx

/-- What `slab_free` writes to give back slot `idx`. -/
def giveSlot (m : Mem) (sp idx : Nat) : Mem :=
  let bits := Bitmap.clear (slabBitmap m sp) idx (idx / 64)
  let m := store 8 m (sp + slabHdrSize + 8 * (idx / 64)) bits.toNat
  let m := store 2 m (sp + 14) ((slabFreeCount m sp + 1) % 2 ^ 16)
  if idx < slabFirstFree m sp then store 2 m (sp + 16) idx else m

theorem counters_bitmap (w v : Nat) :
    slabFreeCount (store 8 m (sp + slabHdrSize + 8 * w) v) sp = slabFreeCount m sp ∧
      slabFirstFree (store 8 m (sp + slabHdrSize + 8 * w) v) sp = slabFirstFree m sp := by
  unfold slabHdrSize
  exact ⟨load_store_of_disjoint (by omega), load_store_of_disjoint (by omega)⟩

theorem takeSlot_spec {o idx : Nat} (ho : IsOrder o) (hidx : idx < slabCap o) :
    SlabFrame m (takeSlot m sp idx) sp o ∧
      slabBitmap (takeSlot m sp idx) sp = Bitmap.set (slabBitmap m sp) idx ∧
      slabFreeCount (takeSlot m sp idx) sp = (slabFreeCount m sp + (2 ^ 16 - 1)) % 2 ^ 16 ∧
      slabFirstFree (takeSlot m sp idx) sp = idx := by
  have hg := slab_geometry ho
  unfold takeSlot
  dsimp only
  rw [(counters_bitmap _ _).1]
  generalize hm1 : store 8 m (sp + slabHdrSize + 8 * (idx / 64))
    (Bitmap.set (slabBitmap m sp) idx (idx / 64)).toNat = m1
  refine ⟨?_, ?_, ?_, load_store_of_lt (by omega)⟩
  · rw [← hm1]
    exact ((slabFrame_bitmap ho hidx _).trans (slabFrame_counter ho (.inl rfl) _)).trans
      (slabFrame_counter ho (.inr rfl) _)
  · rw [slabBitmap_store_header (by unfold slabHdrSize; omega),
      slabBitmap_store_header (by unfold slabHdrSize; omega), ← hm1, slabBitmap_store, update_set]
  · exact (load_store_of_disjoint (by omega)).trans (load_store_of_lt (Nat.mod_lt _ (by decide)))

theorem giveSlot_spec {o idx : Nat} (ho : IsOrder o) (hidx : idx < slabCap o) :
    SlabFrame m (giveSlot m sp idx) sp o ∧
      slabBitmap (giveSlot m sp idx) sp = Bitmap.clear (slabBitmap m sp) idx ∧
      slabFreeCount (giveSlot m sp idx) sp = (slabFreeCount m sp + 1) % 2 ^ 16 ∧
      slabFirstFree (giveSlot m sp idx) sp = min idx (slabFirstFree m sp) := by
  have hg := slab_geometry ho
  unfold giveSlot
  dsimp only
  rw [(counters_bitmap _ _).1]
  have hhint := (@counters_bitmap m sp (idx / 64)
    (Bitmap.clear (slabBitmap m sp) idx (idx / 64)).toNat).2
  generalize hm1 : store 8 m (sp + slabHdrSize + 8 * (idx / 64))
    (Bitmap.clear (slabBitmap m sp) idx (idx / 64)).toNat = m1 at hhint ⊢
  generalize hm2 : store 2 m1 (sp + 14) ((slabFreeCount m sp + 1) % 2 ^ 16) = m2
  have hf : SlabFrame m m2 sp o := by
    rw [← hm2, ← hm1]
    exact (slabFrame_bitmap ho hidx _).trans (slabFrame_counter ho (.inl rfl) _)
  have hbits : slabBitmap m2 sp = Bitmap.clear (slabBitmap m sp) idx := by
    rw [← hm2, slabBitmap_store_header (by unfold slabHdrSize; omega), ← hm1, slabBitmap_store,
      update_clear]
  have hfree : slabFreeCount m2 sp = (slabFreeCount m sp + 1) % 2 ^ 16 := by
    rw [← hm2]
    exact load_store_of_lt (Nat.mod_lt _ (by decide))
  have hhint2 : slabFirstFree m2 sp = slabFirstFree m sp := by
    rw [← hm2, ← hhint]
    exact load_store_of_disjoint (by omega)
  -- the hint goes down to the slot, never up
  split
  · next hlt =>
      rw [hhint2] at hlt
      exact ⟨hf.trans (slabFrame_counter ho (.inr rfl) _),
        (slabBitmap_store_header (by unfold slabHdrSize; omega)).trans hbits,
        (load_store_of_disjoint (by omega)).trans hfree,
        (load_store_of_lt (by omega)).trans (Nat.min_eq_left (Nat.le_of_lt hlt)).symm⟩
  · next hge =>
      rw [hhint2] at hge
      exact ⟨hf, hbits, hfree, hhint2.trans (Nat.min_eq_right (Nat.not_lt.mp hge)).symm⟩

end

namespace HeapInv

variable {h : Heap} {L : HeapLayout} {live : List Live} {holes : List Nat} {sp o n : Nat}

theorem sameMeta_of_slabFrame {m' : Mem} (hi : HeapInv h L live holes)
    (hL : L sp = some (.slab o, n)) (hf : SlabFrame h.mem m' sp o) {c m : Nat} {k : TileKind}
    (hc : L c = some (k, m)) (hcs : c ≠ sp) : SameMeta h.mem m' c k := by
  intro x hlo hhi
  have hmeta : (TileKind.slab o).metaSize = slabData o := rfl
  have hap := hi.apart hc hL hcs
  have hm := hi.meta_le hc
  have hm' := hi.meta_le hL
  exact hf.other x (by omega)

/-- **Reslab**: a write to the bitmap and the counters of one page keeps the invariant, if
they agree with the new live pointers. -/
theorem reslab {live' : List Live} {m' : Mem} (hi : HeapInv h L live holes)
    (hL : L sp = some (.slab o, n)) (hf : SlabFrame h.mem m' sp o)
    (hcount : PageCount m' live' sp o)
    (hkept : ∀ x ∈ live, x.tier = .slab → x ∈ live' ∨ sp ≤ x.ptr ∧ x.ptr < sp + pageSize)
    (hslab : ∀ x ∈ live', x.tier = .slab → LiveOk m' L x)
    (hlarge : ∀ x : Live, x.tier = .large → (x ∈ live' ↔ x ∈ live))
    (hdistinct : (live'.map Live.ptr).Nodup) : HeapInv { h with mem := m' } L live' holes := by
  have hsame : ∀ {c k m}, L c = some (k, m) → c ≠ sp → SameMeta h.mem m' c k :=
    fun hc hcs => hi.sameMeta_of_slabFrame hL hf hc hcs
  exact {
    tiling := hi.tiling
    cursor := hi.cursor
    slabs := hi.slabs
    header := by
      intro c t hc hcn
      by_cases hcs : c = sp
      · subst hcs
        rw [hL] at hc
        cases hc
        have hh := hi.header c _ hL hcn
        exact ⟨hf.magic.trans hh.1, hf.objSize.trans hh.2.1, hf.capacity.trans hh.2.2⟩
      · exact hi.header_frame hc hcn (hsame hc hcs)
    hole := by
      intro c hc
      obtain ⟨m, hLc, hsz⟩ := hi.hole c hc
      exact ⟨m, hLc, (hsame hLc (ne_of_kind hLc hL (by simp))).largeSize.trans hsz⟩
    freeList := hi.freeList_frame fun c m hc => hsame hc (ne_of_kind hc hL (by simp))
    classes := by
      intro i hio
      obtain ⟨l, hp, hnd, hmem⟩ := hi.classes i hio
      refine ⟨l, hp.frame fun y hy => ?_, hnd, hmem⟩
      by_cases hys : y = sp
      · rw [hys]
        exact congrArg toPtr hf.next
      · obtain ⟨m, hLy⟩ := (hmem y).mp hy
        exact (hsame hLy hys).nextSlab hio
    counts := by
      intro c i m hc
      by_cases hcs : c = sp
      · subst hcs
        rw [hL] at hc
        cases hc
        exact hcount
      · have hio := (hi.slabs c i m hc).2
        refine (hsame hc hcs).pageCount hio (fun idx hidx x hx htier hptr => ?_)
          (hi.counts c i m hc)
        have hr := @objectAt_range c i idx hio hidx
        have hpow : 0 < 2 ^ i := Nat.two_pow_pos i
        have hap := hi.apart hc hL hcs
        obtain hx' | hin := hkept x hx htier
        · exact ⟨x, hx', htier, rfl⟩
        · omega
    placed := by
      intro x hx
      cases htier : x.tier with
      | slab => exact hslab x hx htier
      | large =>
        have hok := hi.placed x ((hlarge x htier).mp hx)
        unfold LiveOk at hok ⊢
        rw [htier] at hok ⊢
        exact hok
    distinct := hdistinct
    owned := by
      intro c m hc
      rw [hi.owned c m hc]
      constructor
      · rintro ⟨x, hx, htier, hptr⟩
        exact ⟨x, (hlarge x htier).mpr hx, htier, hptr⟩
      · rintro ⟨x, hx, htier, hptr⟩
        exact ⟨x, (hlarge x htier).mp hx, htier, hptr⟩ }

theorem slotUsed_of_ptr (hi : HeapInv h L live holes) (hL : L sp = some (.slab o, n)) {idx : Nat}
    (hidx : idx < slabCap o) {x : Live} (hx : x ∈ live) (hptr : x.ptr = objectAt sp o idx) :
    x.tier = .slab ∧ slotUsed h.mem sp idx := by
  obtain ⟨hn, ho⟩ := hi.slabs sp o n hL
  have hr := @objectAt_range sp o idx ho hidx
  have hps : largeHdrSize < pageSize := by decide
  cases htier : x.tier with
  | slab =>
    obtain ⟨sp', o', idx', hL', ho', hidx', hptr', -, hused⟩ := hi.slab_placed hx htier
    have hr' := @objectAt_range sp' o' idx' ho' hidx'
    have hsp : sp' = sp := hi.tiling.eq_of_mem (x := x.ptr) hL' hL (by omega) (by omega)
    subst hsp
    rw [hL] at hL'
    cases hL'
    have hmul : idx' * 2 ^ o = idx * 2 ^ o := by
      rw [hptr', objectAt, objectAt] at hptr
      omega
    rw [← Nat.eq_of_mul_eq_mul_right hr.2.2 hmul]
    exact ⟨rfl, hused⟩
  | large =>
    obtain ⟨b, m, hb, hptr', hsz, -⟩ := hi.large_placed hx htier
    have hm := hi.page_le hb
    exact absurd (hi.tiling.eq_of_mem (x := x.ptr) hL hb (by omega) (by omega))
      (ne_of_kind hL hb (by simp))

theorem liveOk_of_slabFrame {m' : Mem} (hi : HeapInv h L live holes)
    (hL : L sp = some (.slab o, n)) (hf : SlabFrame h.mem m' sp o) {x : Live} (hx : x ∈ live)
    (htier : x.tier = .slab)
    (hbits : ∀ idx, idx < slabCap o → x.ptr = objectAt sp o idx → slotUsed h.mem sp idx →
      slotUsed m' sp idx) : LiveOk m' L x := by
  refine ⟨(hi.placed x hx).1, ?_⟩
  obtain ⟨sp', o', idx', hL', ho', hidx', hptr', hsize, hused⟩ := hi.slab_placed hx htier
  rw [htier]
  refine ⟨sp', o', idx', hL', hidx', hptr', hsize, ?_⟩
  by_cases hsp : sp' = sp
  · subst hsp
    rw [hL] at hL'
    cases hL'
    exact hbits idx' hidx' hptr' hused
  · exact ((hi.sameMeta_of_slabFrame hL hf hL' hsp).slotUsed ho' hidx').mpr hused

end HeapInv

section

variable {m m' : Mem} {live : List Live} {sp o idx size : Nat}

/-- The counters once a free slot is taken. -/
theorem PageCount.take (hp : PageCount m live sp o) (hcap : slabCap o < 2 ^ 16)
    (hidx : idx < slabCap o) (hclear : Bitmap.test (slabBitmap m sp) idx = false)
    (hbits : slabBitmap m' sp = Bitmap.set (slabBitmap m sp) idx)
    (hfree : slabFreeCount m' sp = (slabFreeCount m sp + (2 ^ 16 - 1)) % 2 ^ 16)
    (hhint : slabFirstFree m' sp = idx) :
    PageCount m' (⟨objectAt sp o idx, size, .slab⟩ :: live) sp o := by
  refine ⟨?_, fun i hlo hhi => ?_, by rw [hhint]; exact hidx, fun i hi hu => ?_⟩
  · have hmem : idx ∈ Bitmap.clearBits (slabBitmap m sp) (slabCap o) :=
      Bitmap.mem_clearBits.mpr ⟨hidx, hclear⟩
    have hpos := Finset.card_pos.mpr ⟨idx, hmem⟩
    have hle := Bitmap.card_clearBits_le (slabBitmap m sp) (slabCap o)
    rw [hfree, hbits, Bitmap.clearBits_set (by decide), Finset.card_erase_of_mem hmem, hp.free]
    omega
  · have hne : i ≠ idx := by omega
    rw [hbits, Bitmap.test_set (by decide), hp.high i hlo hhi]
    simp [hne]
  · rw [slotUsed, hbits, Bitmap.test_set (by decide)] at hu
    by_cases hii : i = idx
    · exact ⟨_, List.mem_cons_self, rfl, by rw [hii]⟩
    · rw [decide_eq_false hii, Bool.false_or] at hu
      obtain ⟨x, hx, hrest⟩ := hp.used i hi hu
      exact ⟨x, List.mem_cons_of_mem _ hx, hrest⟩

/-- The counters once a used slot is given back. -/
theorem PageCount.give {ptr : Nat} (hp : PageCount m live sp o) (hcap : slabCap o < 2 ^ 16)
    (hidx : idx < slabCap o) (hused : slotUsed m sp idx) (hptr : ptr = objectAt sp o idx)
    (hbits : slabBitmap m' sp = Bitmap.clear (slabBitmap m sp) idx)
    (hfree : slabFreeCount m' sp = (slabFreeCount m sp + 1) % 2 ^ 16)
    (hhint : slabFirstFree m' sp = min idx (slabFirstFree m sp)) :
    PageCount m' (live.filter fun y => y.ptr ≠ ptr) sp o := by
  refine ⟨?_, fun i hlo hhi => ?_, by rw [hhint]; omega, fun i hi hu => ?_⟩
  · have hnot : idx ∉ Bitmap.clearBits (slabBitmap m sp) (slabCap o) := by
      rw [Bitmap.mem_clearBits, not_and, Bool.not_eq_false]
      exact fun _ => hused
    have hle := Bitmap.card_clearBits_le (slabBitmap m' sp) (slabCap o)
    rw [hbits, Bitmap.clearBits_clear (by decide) hidx, Finset.card_insert_of_notMem hnot] at hle
    rw [hfree, hbits, Bitmap.clearBits_clear (by decide) hidx,
      Finset.card_insert_of_notMem hnot, hp.free]
    omega
  · rw [hbits, Bitmap.test_clear (by decide), hp.high i hlo hhi, Bool.and_false]
  · rw [slotUsed, hbits, Bitmap.test_clear (by decide)] at hu
    obtain ⟨hne, hu⟩ := Bool.and_eq_true_iff.mp hu
    obtain ⟨x, hx, htier, hxptr⟩ := hp.used i hi hu
    refine ⟨x, List.mem_filter.mpr ⟨hx, decide_eq_true fun hc => ?_⟩, htier, hxptr⟩
    have hmul : i * 2 ^ o = idx * 2 ^ o := by
      rw [hxptr, hptr, objectAt, objectAt] at hc
      omega
    have hii := Nat.eq_of_mul_eq_mul_right (Nat.two_pow_pos o) hmul
    simp [hii] at hne

end

variable {h : Heap} {L : HeapLayout} {live : List Live} {sp o n size : Nat}

theorem slabObject_eq {m : Mem} {idx : Nat} (hh : HeaderOk m sp (.slab o, n)) :
    slabObject m sp idx = objectAt sp o idx := by
  rw [slabObject, hh.2.1, hh.2.2]
  rfl

theorem PageCount.search_some {m : Mem} (hp : PageCount m live sp o) (ho : IsOrder o)
    (hfree : slabFreeCount m sp ≠ 0) :
    ∃ idx < slabCap o, Bitmap.search (slabBitmap m sp) (bitmapWordsFor (slabCap o)) (slabCap o)
        (slabFirstFree m sp / 64) = some idx ∧ Bitmap.test (slabBitmap m sp) idx = false := by
  have hg := slab_geometry ho
  cases hs : Bitmap.search (slabBitmap m sp) (bitmapWordsFor (slabCap o)) (slabCap o)
      (slabFirstFree m sp / 64) with
  | none =>
    rw [hp.free, Finset.card_ne_zero] at hfree
    obtain ⟨i, hi⟩ := hfree
    obtain ⟨hlt, hclear⟩ := Bitmap.mem_clearBits.mp hi
    rw [(Bitmap.search_eq_none_iff (by decide) hg.2.2.1).mp hs i hlt] at hclear
    cases hclear
  | some idx =>
    obtain ⟨hidx, -, hclear⟩ := Bitmap.search_eq_some (by omega) hs
    exact ⟨idx, hidx, rfl, hclear⟩

/-! ## Taking and freeing an object -/

/-- A page with a free slot serves a request of its class. -/
theorem slabTake_spec (hi : HeapInv h L live []) (hL : L sp = some (.slab o, n)) (hpos : 0 < size)
    (hsize : size ≤ 2 ^ o) (hfree : slabFreeCount h.mem sp ≠ 0) :
    ∃ idx m', slabTake h sp = (objectAt sp o idx, { h with mem := m' }) ∧ idx < slabCap o ∧
      SlabFrame h.mem m' sp o ∧
      HeapInv { h with mem := m' } L (⟨objectAt sp o idx, size, .slab⟩ :: live) [] := by
  obtain ⟨hn, ho⟩ := hi.slabs sp o n hL
  have hh := hi.header sp _ hL List.not_mem_nil
  have hg := slab_geometry ho
  obtain ⟨idx, hidx, hs, hclear⟩ := (hi.counts sp o n hL).search_some ho hfree
  obtain ⟨hf, hbits, hcount, hhint⟩ := @takeSlot_spec h.mem sp o idx ho hidx
  have hobj : slabObject (takeSlot h.mem sp idx) sp idx = objectAt sp o idx :=
    slabObject_eq (n := n)
      ⟨hf.magic.trans hh.1, hf.objSize.trans hh.2.1, hf.capacity.trans hh.2.2⟩
  have hcount : PageCount (takeSlot h.mem sp idx) (⟨objectAt sp o idx, size, .slab⟩ :: live) sp o :=
    (hi.counts sp o n hL).take hg.2.1 hidx hclear hbits hcount hhint
  unfold slabTake
  dsimp only
  rw [hh.2.2, hs]
  refine ⟨idx, takeSlot h.mem sp idx, Prod.ext hobj rfl, hidx, hf, hi.reslab hL hf hcount
    (fun x hx _ => .inl (List.mem_cons_of_mem _ hx)) ?_ ?_ ?_⟩
  · intro x hx htier
    obtain rfl | hx := List.mem_cons.mp hx
    · refine ⟨hpos, sp, o, idx, by rw [← hn]; exact hL, hidx, rfl, hsize, ?_⟩
      rw [slotUsed, hbits, Bitmap.test_set (by decide)]
      simp
    · refine hi.liveOk_of_slabFrame hL hf hx htier fun j _ _ hused => ?_
      rw [slotUsed] at hused
      rw [slotUsed, hbits, Bitmap.test_set (by decide), hused, Bool.or_true]
  · intro x htier
    rw [List.mem_cons, or_iff_right]
    rintro rfl
    cases htier
  · rw [List.map_cons, List.nodup_cons]
    refine ⟨?_, hi.distinct⟩
    rw [List.mem_map]
    rintro ⟨x, hx, hptr⟩
    have hused := (hi.slotUsed_of_ptr hL hidx hx hptr).2
    rw [slotUsed, hclear] at hused
    cases hused

theorem alignDown_object {a : Nat} (hdvd : pageSize ∣ sp) (hlo : sp ≤ a)
    (hhi : a < sp + pageSize) : alignDown a pageSize = sp := by
  obtain ⟨c, rfl⟩ := hdvd
  unfold alignDown
  have hps : 0 < pageSize := by decide
  rw [Nat.div_eq_of_lt_le (by rw [Nat.mul_comm]; exact hlo)
    (by rw [Nat.add_mul, Nat.one_mul, Nat.mul_comm]; exact hhi), Nat.mul_comm]

theorem slabFree_object (hi : HeapInv h L live []) (hL : L sp = some (.slab o, n)) {idx : Nat}
    (hidx : idx < slabCap o) : slabFree h (objectAt sp o idx) =
      (true, if Bitmap.test (slabBitmap h.mem sp) idx = false then h
        else { h with mem := giveSlot h.mem sp idx }) := by
  obtain ⟨-, ho⟩ := hi.slabs sp o n hL
  have hh := hi.header sp _ hL List.not_mem_nil
  have hg := slab_geometry ho
  have hr := @objectAt_range sp o idx ho hidx
  have hdown : alignDown (objectAt sp o idx) pageSize = sp :=
    alignDown_object (hi.tiling.aligned sp _ _ hL).1 (by omega) (by omega)
  have hdata : dataOffset (slabCap o) (2 ^ o) = slabData o := rfl
  have hoff : objectAt sp o idx - (sp + slabData o) = idx * 2 ^ o := by
    rw [objectAt, Nat.add_sub_cancel_left]
  have hdiv : idx * 2 ^ o / 2 ^ o % 2 ^ 16 = idx := by
    rw [Nat.mul_div_cancel _ hr.2.2, Nat.mod_eq_of_lt (by omega)]
  unfold slabFree
  dsimp only
  rw [hdown, if_neg (not_not.mpr hh.1), hh.2.1, hh.2.2, hdata, if_neg (by omega), hoff,
    Nat.mul_mod_left, if_neg (not_not.mpr rfl), hdiv, if_neg (by omega)]
  split <;> rfl

/-- **A live object** is freed. -/
theorem slabFree_of_slab (hi : HeapInv h L live []) {x : Live} (hx : x ∈ live)
    (htier : x.tier = .slab) : ∃ h', slabFree h x.ptr = (true, h') ∧ Leaves h L h' L ∧
      HeapInv h' L (live.filter fun y => y.ptr ≠ x.ptr) [] := by
  obtain ⟨sp, o, idx, hL, ho, hidx, hptr, hsize, hused⟩ := hi.slab_placed hx htier
  have hg := slab_geometry ho
  have hr := @objectAt_range sp o idx ho hidx
  obtain ⟨hf, hbits, hfree, hhint⟩ := @giveSlot_spec h.mem sp o idx ho hidx
  have hcount := (hi.counts sp o _ hL).give hg.2.1 hidx hused hptr hbits hfree hhint
  have hgone : ∀ {y : Live}, y ∈ live.filter (fun y => y.ptr ≠ x.ptr) → y ∈ live ∧ y.ptr ≠ x.ptr :=
    fun hy => ⟨(List.mem_filter.mp hy).1, of_decide_eq_true (List.mem_filter.mp hy).2⟩
  have hbit : ¬ Bitmap.test (slabBitmap h.mem sp) idx = false := by
    rw [Bool.not_eq_false]
    exact hused
  rw [hptr, slabFree_object hi hL hidx, if_neg hbit, ← hptr]
  have hleave : ∀ a, Payload L a → giveSlot h.mem sp idx a = h.mem a := fun a ha =>
    hf.other a (hi.payload_clear ha hL).1
  refine ⟨_, rfl, ⟨fun _ _ _ hc => hc, hleave⟩, hi.reslab hL hf hcount (fun y hy hytier => ?_) ?_ ?_
    (hi.distinct.sublist (List.filter_sublist.map Live.ptr))⟩
  · by_cases hyx : y.ptr = x.ptr
    · exact .inr (by omega)
    · exact .inl (List.mem_filter.mpr ⟨hy, decide_eq_true hyx⟩)
  · intro y hy hytier
    obtain ⟨hy, hne⟩ := hgone hy
    refine hi.liveOk_of_slabFrame hL hf hy hytier fun j _ hyptr hj => ?_
    have hji : j ≠ idx := by
      rintro rfl
      exact hne (hyptr.trans hptr.symm)
    rw [slotUsed] at hj
    rw [slotUsed, hbits, Bitmap.test_clear (by decide), hj, Bool.and_true]
    simp [hji]
  · intro y hytier
    refine ⟨fun hy => (hgone hy).1, fun hy => List.mem_filter.mpr ⟨hy, decide_eq_true ?_⟩⟩
    intro hc
    have := (hi.slotUsed_of_ptr hL hidx hy (hc.trans hptr)).1
    rw [hytier] at this
    cases this

/-- **A double free** of an object is noticed and changes nothing. -/
theorem slabFree_of_stale (hi : HeapInv h L live []) (hL : L sp = some (.slab o, n)) {idx : Nat}
    (hidx : idx < slabCap o) (hstale : ∀ x ∈ live, x.ptr ≠ objectAt sp o idx) :
    slabFree h (objectAt sp o idx) = (true, h) := by
  have hclear : Bitmap.test (slabBitmap h.mem sp) idx = false := by
    by_contra hu
    rw [Bool.not_eq_false] at hu
    obtain ⟨x, hx, -, hptr⟩ := (hi.counts sp o n hL).used idx hidx hu
    exact hstale x hx hptr
  rw [slabFree_object hi hL hidx, if_pos hclear]

/-- A pointer to a span is not taken for an object. -/
theorem slabFree_of_span {b : Nat} {k : TileKind} (hi : HeapInv h L live [])
    (hL : L b = some (k, n)) (hk : ∀ o, k ≠ .slab o) :
    slabFree h (b + largeHdrSize) = (false, h) := by
  have hps : largeHdrSize < pageSize := by decide
  have hdown : alignDown (b + largeHdrSize) pageSize = b :=
    alignDown_object (hi.tiling.aligned b _ _ hL).1 (by omega) (by omega)
  have hh := hi.header b _ hL List.not_mem_nil
  have hmagic : load 8 h.mem b ≠ slabPageMagic := by
    cases k with
    | slab o => exact absurd rfl (hk o)
    | free => rw [hh.1]; decide
    | alloc => rw [hh.1]; decide
  unfold slabFree
  dsimp only
  rw [hdown, if_pos hmagic]

/-! ## A new page -/

/-- A page mapped at the cursor becomes the head of its class. -/
theorem HeapInv.growSlab (h' : Heap) (hi : HeapInv h L live []) (ho : IsOrder o)
    (hcls : h'.slabClasses = update h.slabClasses (o - slabMinOrder) h.heapCursor)
    (hlist : h'.largeFreeList = h.largeFreeList) (hcur : h'.heapCursor = h.heapCursor + pageSize)
    (hmax : h.heapCursor + pageSize ≤ heapVirtBase + heapMaxSize)
    (hmem : ∀ x, x < h.heapCursor → h'.mem x = h.mem x)
    (hhead : HeaderOk h'.mem h.heapCursor (.slab o, pageSize))
    (hcount : PageCount h'.mem live h.heapCursor o)
    (hnext : slabNext h'.mem h.heapCursor = h.slabClasses (o - slabMinOrder)) :
    HeapInv h' (update L h.heapCursor (some (.slab o, pageSize))) live [] := by
  have hc0 : h.heapCursor ≠ 0 := by
    have : 0 < heapVirtBase := by decide
    have := hi.cursor.1
    omega
  have hold : ∀ {c k m}, update L h.heapCursor (some (.slab o, pageSize)) c =
      some (k, m) → k ≠ .slab o → L c = some (k, m) := by
    intro c k m hc hk
    obtain ⟨-, heq⟩ | ⟨-, hc⟩ := update_cases hc
    · cases heq
      exact absurd rfl hk
    · exact hc
  have hsame : ∀ {c k m}, L c = some (k, m) → SameMeta h.mem h'.mem c k :=
    fun hc => hi.sameMeta_below hc hmem
  exact {
    tiling := by
      rw [hcur]
      exact hi.tiling.grow hi.cursor.1 hi.cursor.2.2 (Nat.dvd_refl _) (by decide)
    cursor := by
      rw [hcur]
      exact ⟨by have := hi.cursor.1; omega, hmax, Nat.dvd_add hi.cursor.2.2 (Nat.dvd_refl _)⟩
    slabs := by
      intro c i m hc
      obtain ⟨-, heq⟩ | ⟨-, hc⟩ := update_cases hc
      · cases heq
        exact ⟨rfl, ho⟩
      · exact hi.slabs c i m hc
    header := by
      intro c t hc _
      obtain ⟨rfl, rfl⟩ | ⟨-, hc⟩ := update_cases hc
      · exact hhead
      · exact hi.header_frame hc List.not_mem_nil (hsame hc)
    hole := fun c hc => absurd hc List.not_mem_nil
    freeList := by
      obtain ⟨l, hd, hnd, hmeml⟩ := hi.freeList_frame fun c m hc => hsame hc
      rw [hlist]
      refine ⟨l, hd, hnd, fun c => (hmeml c).trans (exists_congr fun m => ?_)⟩
      exact ⟨hi.keep_below, fun hc => hold hc (by simp)⟩
    classes := by
      intro i hio
      obtain ⟨l, hp, hnd, hmeml⟩ := hi.classes i hio
      have hp' : Path (nextSlab h'.mem) (toPtr (h.slabClasses (i - slabMinOrder))) l := by
        refine hp.frame fun y hy => ?_
        obtain ⟨m, hLy⟩ := (hmeml y).mp hy
        exact (hsame hLy).nextSlab hio
      rw [hcls]
      by_cases hio' : i = o
      · subst hio'
        refine ⟨h.heapCursor :: l, ⟨?_, ?_⟩, List.nodup_cons.mpr ⟨?_, hnd⟩, fun c => ?_⟩
        · rw [update_self, toPtr_of_ne hc0]
        · rw [nextSlab, hnext]
          exact hp'
        · intro hc
          obtain ⟨m, hLc⟩ := (hmeml _).mp hc
          rw [hi.tiling.hi_eq_none] at hLc
          cases hLc
        · rw [List.mem_cons]
          by_cases hcb : c = h.heapCursor
          · exact iff_of_true (.inl hcb) ⟨pageSize, by rw [hcb, update_self]⟩
          · rw [or_iff_right hcb, hmeml c, update_of_ne hcb]
      · have hidx : i - slabMinOrder ≠ o - slabMinOrder := by
          have := hio.1
          have := ho.1
          omega
        rw [update_of_ne hidx]
        refine ⟨l, hp', hnd, fun c => (hmeml c).trans (exists_congr fun m => ?_)⟩
        exact ⟨hi.keep_below, fun hc => hold hc (by simpa using hio')⟩
    counts := by
      intro c i m hc
      obtain ⟨rfl, heq⟩ | ⟨-, hc⟩ := update_cases hc
      · cases heq
        exact hcount
      · exact (hsame hc).pageCount (hi.slabs c i m hc).2
          (fun _ _ x hx htier _ => ⟨x, hx, htier, rfl⟩) (hi.counts c i m hc)
    placed := by
      intro x hx
      refine ⟨(hi.placed x hx).1, ?_⟩
      cases htier : x.tier with
      | slab =>
        obtain ⟨sp, i, idx, hLs, hio, hidx, hptr, hsize, hused⟩ := hi.slab_placed hx htier
        exact ⟨sp, i, idx, hi.keep_below hLs, hidx, hptr, hsize,
          ((hsame hLs).slotUsed hio hidx).mpr hused⟩
      | large =>
        obtain ⟨b, m, hb, hptr, hsz, -⟩ := hi.large_placed hx htier
        exact ⟨b, m, hi.keep_below hb, hptr, hsz⟩
    distinct := hi.distinct
    owned := fun c m hc => hi.owned c m (hold hc (by simp)) }

theorem newPage_fields (ho : IsOrder o) : 2 ^ o % 2 ^ 16 = 2 ^ o ∧
    shrinkCapacity (2 ^ o) ((pageSize - slabHdrSize) / 2 ^ o % 2 ^ 16) = slabCap o := by
  obtain ⟨hlo, hhi⟩ := ho
  unfold slabMinOrder at hlo
  unfold slabMaxOrder at hhi
  interval_cases o <;> decide +kernel

theorem initSlab_spec {m : Mem} {next : Nat} (ho : IsOrder o) :
    HeaderOk (store 8 (initSlab m sp o) (sp + 24) next) sp (.slab o, n) ∧
      (next < 2 ^ 64 → slabNext (store 8 (initSlab m sp o) (sp + 24) next) sp = next) ∧
      ∀ x, x < sp → store 8 (initSlab m sp o) (sp + 24) next x = m x := by
  obtain ⟨hobj, hcap⟩ := newPage_fields ho
  have hg := slab_geometry ho
  have hpow : 2 ^ o < 256 ^ 2 := by
    rw [← hobj]
    exact Nat.mod_lt _ (by decide)
  unfold initSlab
  dsimp only
  rw [hobj, hcap]
  refine ⟨⟨?_, ?_, ?_⟩, fun hnext => load_store_of_lt (by omega), fun x hx => ?_⟩
  · rw [load_store_of_disjoint (by omega), load_fill_of_disjoint (by unfold slabHdrSize; omega)]
    repeat rw [load_store_of_disjoint (by omega)]
    exact load_store_of_lt (by decide)
  · rw [slabObjSize, load_store_of_disjoint (by omega),
      load_fill_of_disjoint (by unfold slabHdrSize; omega)]
    repeat rw [load_store_of_disjoint (by omega)]
    exact load_store_of_lt hpow
  · rw [slabCapacity, load_store_of_disjoint (by omega),
      load_fill_of_disjoint (by unfold slabHdrSize; omega)]
    repeat rw [load_store_of_disjoint (by omega)]
    exact load_store_of_lt (by omega)
  · rw [store_apply_of_disjoint (by omega), fill_apply_of_disjoint (by unfold slabHdrSize; omega)]
    repeat rw [store_apply_of_disjoint (by omega)]

theorem initSlab_pageCount {m : Mem} (ho : IsOrder o) (next : Nat) :
    PageCount (store 8 (initSlab m sp o) (sp + 24) next) live sp o ∧
      slabFreeCount (store 8 (initSlab m sp o) (sp + 24) next) sp ≠ 0 := by
  obtain ⟨hobj, hcap⟩ := newPage_fields ho
  have hg := slab_geometry ho
  unfold slabHdrSize at hg
  have htest : ∀ i, i < bitmapWordsFor (slabCap o) * 64 →
      Bitmap.test (slabBitmap (store 8 (initSlab m sp o) (sp + 24) next) sp) i = false := by
    intro i hi
    have hw : i / 64 < bitmapWordsFor (slabCap o) := (Nat.div_lt_iff_lt_mul (by decide)).mpr hi
    have hzero : slabBitmap (store 8 (initSlab m sp o) (sp + 24) next) sp (i / 64) = 0#64 := by
      unfold slabBitmap initSlab
      dsimp only
      rw [hobj, hcap]
      unfold slabHdrSize
      rw [load_store_of_disjoint (by omega), load_fill_zero (by omega)]
    rw [Bitmap.test, hzero, BitVec.zero_and]
    rfl
  have hfree : slabFreeCount (store 8 (initSlab m sp o) (sp + 24) next) sp = slabCap o := by
    unfold slabFreeCount initSlab
    dsimp only
    rw [hobj, hcap]
    unfold slabHdrSize
    rw [load_store_of_disjoint (by omega), load_fill_of_disjoint (by omega),
      load_store_of_disjoint (by omega), load_store_of_disjoint (by omega),
      load_store_of_lt (by omega)]
  have hhint : slabFirstFree (store 8 (initSlab m sp o) (sp + 24) next) sp = 0 := by
    unfold slabFirstFree initSlab
    dsimp only
    rw [hobj, hcap]
    unfold slabHdrSize
    rw [load_store_of_disjoint (by omega), load_fill_of_disjoint (by omega),
      load_store_of_disjoint (by omega), load_store_of_lt (by omega)]
  have hall : Bitmap.clearBits (slabBitmap (store 8 (initSlab m sp o) (sp + 24) next) sp)
      (slabCap o) = Finset.range (slabCap o) := by
    refine Finset.filter_true_of_mem fun i hi => htest i ?_
    have := Finset.mem_range.mp hi
    omega
  refine ⟨⟨?_, fun i _ hi => htest i hi, ?_, fun idx hidx hu => ?_⟩, ?_⟩
  · rw [hfree, hall, Finset.card_range]
  · rw [hhint]
    exact hg.1
  · rw [slotUsed, htest idx (by omega)] at hu
    cases hu
  · rw [hfree]
    omega

/-! ## Allocation -/

/-- The walk finds a page with a free slot if the class has one. -/
theorem findSlab_spec {m : Mem} {l : List Nat} :
    ∀ {fuel sp : Nat}, Path (nextSlab m) (toPtr sp) l → l.length < fuel →
      ∃ r, findSlab m fuel sp = some r ∧
        (r = 0 ∧ (∀ c ∈ l, slabFreeCount m c = 0) ∨ r ∈ l ∧ slabFreeCount m r ≠ 0) := by
  induction l with
  | nil =>
    intro fuel sp hp hfuel
    obtain ⟨n, rfl⟩ : ∃ n, fuel = n + 1 := ⟨fuel - 1, by omega⟩
    have hsp := toPtr_eq_none_iff.mp hp
    exact ⟨sp, by rw [findSlab, if_neg fun hand => hand.1 hsp],
      .inl ⟨hsp, fun c hc => absurd hc List.not_mem_nil⟩⟩
  | cons a l ih =>
    intro fuel sp hp hfuel
    obtain ⟨n, rfl⟩ : ∃ n, fuel = n + 1 := ⟨fuel - 1, by omega⟩
    obtain ⟨rfl, ha⟩ := toPtr_eq_some_iff.mp hp.1
    rw [findSlab]
    split
    · next hfull =>
        obtain ⟨r, hr, hor⟩ := @ih n (slabNext m sp) hp.2 (Nat.lt_of_succ_lt_succ hfuel)
        refine ⟨r, hr, hor.imp (fun hnone => ⟨hnone.1, fun c hc => ?_⟩)
          (fun hsome => ⟨List.mem_cons_of_mem sp hsome.1, hsome.2⟩)⟩
        obtain rfl | hc := List.mem_cons.mp hc
        · exact hfull.2
        · exact hnone.2 c hc
    · next hfree =>
        exact ⟨sp, rfl, .inr ⟨List.mem_cons_self, fun hz => hfree ⟨ha, hz⟩⟩⟩

/-- What `slab_alloc` comes to: the pages of the class are full and no page could be
mapped, or there is a new live object. -/
inductive SlabOutcome (h : Heap) (L : HeapLayout) (live : List Live) (size o : Nat)
    (growth : Option Mem) : Nat × Heap → Prop
  | refused : (∀ sp n, L sp = some (.slab o, n) → slabFreeCount h.mem sp = 0) →
      (heapMapPages h 1 growth).1 = 0 → SlabOutcome h L live size o growth (0, h)
  | served {sp n idx : Nat} {h' : Heap} {L' : HeapLayout} : L' sp = some (.slab o, n) →
      idx < slabCap o → Leaves h L h' L' →
      HeapInv h' L' (⟨objectAt sp o idx, size, .slab⟩ :: live) [] →
      SlabOutcome h L live size o growth (objectAt sp o idx, h')

/-- **`slab_alloc`** returns, in one of the ways of `SlabOutcome`. -/
theorem slabAlloc_spec (hi : HeapInv h L live []) (ho : IsOrder o) (hpos : 0 < size)
    (hsize : size ≤ 2 ^ o) (growth : Option Mem) :
    ∃ r, slabAlloc h o growth = some r ∧ SlabOutcome h L live size o growth r := by
  obtain ⟨l, hp, hnd, hmem⟩ := hi.classes o ho
  have hfuel := hi.length_lt hnd hmem
  obtain ⟨sp, hfind, hsp⟩ := findSlab_spec hp hfuel
  unfold slabAlloc
  simp only [hfind]
  obtain ⟨hz, hfull⟩ | ⟨hin, hfree⟩ := hsp
  · rw [if_pos hz]
    unfold slabNewPage
    have hnone : ∀ c n, L c = some (.slab o, n) → slabFreeCount h.mem c = 0 := fun c n hc =>
      hfull c ((hmem c).mpr ⟨n, hc⟩)
    obtain hfail | ⟨h', hmap, hroom, hcur, hcls, hlist, hsame⟩ :=
      @heapMapPages_spec h 1 growth (fun _ => by decide) hi.cursor.2.1
    · have hzero : (heapMapPages h 1 growth).1 = 0 := congrArg Prod.fst hfail
      rw [hfail]
      exact ⟨_, rfl, .refused hnone hzero⟩
    · rw [hmap]
      rw [Nat.one_mul] at hroom hcur
      have hc0 : h.heapCursor ≠ 0 := by
        have : 0 < heapVirtBase := by decide
        have := hi.cursor.1
        omega
      have hhead : h.slabClasses (o - slabMinOrder) < 2 ^ 64 := by
        by_cases hz : h.slabClasses (o - slabMinOrder) = 0
        · rw [hz]; decide
        · have hh := hp.head
          rw [toPtr_of_ne hz] at hh
          obtain ⟨n, hL⟩ := (hmem _).mp (List.mem_of_mem_head? hh.symm)
          exact hi.base_lt hL
      have hinit := @initSlab_spec h.heapCursor o pageSize h'.mem
        (h.slabClasses (o - slabMinOrder)) ho
      have hcount := @initSlab_pageCount live h.heapCursor o h'.mem ho
        (h.slabClasses (o - slabMinOrder))
      simp only [if_neg hc0]
      rw [hcls]
      generalize hnew : (⟨store 8 (initSlab h'.mem h.heapCursor o) (h.heapCursor + 24)
        (h.slabClasses (o - slabMinOrder)),
        update h.slabClasses (o - slabMinOrder) h.heapCursor, h'.largeFreeList,
        h'.heapCursor, h'.heapLimit⟩ : Heap) = h0
      have hmem0 : h0.mem = store 8 (initSlab h'.mem h.heapCursor o) (h.heapCursor + 24)
        (h.slabClasses (o - slabMinOrder)) := by rw [← hnew]
      rw [← hmem0] at hinit hcount
      have hkeep : ∀ x, x < h.heapCursor → h0.mem x = h.mem x := fun x hx =>
        (hinit.2.2 x hx).trans (hsame x hx)
      have hgrown : HeapInv h0 (update L h.heapCursor (some (.slab o, pageSize))) live [] :=
        hi.growSlab _ ho (by rw [← hnew]) (by rw [← hnew]; exact hlist)
          (by rw [← hnew]; exact hcur) hroom hkeep hinit.1 hcount.1 (hinit.2.1 hhead)
      have hself : update L h.heapCursor (some (.slab o, pageSize)) h.heapCursor =
          some (.slab o, pageSize) := update_self _ _ _
      obtain ⟨idx, m', htake, hidx, hf, hi'⟩ := slabTake_spec hgrown hself hpos hsize hcount.2
      rw [htake]
      refine ⟨_, rfl, .served hself hidx ⟨fun _ _ _ => hi.keep_below, fun x hx => ?_⟩ hi'⟩
      have hlt := hi.payload_lt hx
      exact (hf.other x (.inl hlt)).trans (hkeep x hlt)
  · obtain ⟨n, hL⟩ := (hmem sp).mp hin
    rw [if_neg (hi.base_pos hL)]
    obtain ⟨idx, m', htake, hidx, hf, hi'⟩ := slabTake_spec hi hL hpos hsize hfree
    rw [htake]
    exact ⟨_, rfl, .served hL hidx
      ⟨fun _ _ _ hc => hc, fun x hx => hf.other x (hi.payload_clear hx hL).1⟩ hi'⟩

end DevOs
