import DevOs.Mm.Heap.Inv

/-!
The large allocator keeps the heap invariant, in small steps: a free span becomes a hole
(`HeapInv.removeFree`), and a hole is put on the free list (`HeapInv.insertFree`).
-/

namespace DevOs

open ByteMem Intrusive Tiling Function

theorem toPtr_eq_some_iff {p b : Nat} : toPtr p = some b ↔ p = b ∧ b ≠ 0 := by
  unfold toPtr
  split
  · next h => simp; omega
  · next h => simp; omega

theorem toPtr_eq_none_iff {p : Nat} : toPtr p = none ↔ p = 0 := by
  unfold toPtr
  split <;> simp [*]

theorem toPtr_of_ne {p : Nat} (h : p ≠ 0) : toPtr p = some p := if_neg h

theorem HeapInv.respan {h h' : Heap} {L L' : HeapLayout} {live live' : List Live}
    {holes holes' : List Nat} (hi : HeapInv h L live holes)
    (htiling : IsTiling pageSize heapVirtBase h'.heapCursor L')
    (hcursor : heapVirtBase ≤ h'.heapCursor ∧ h'.heapCursor ≤ heapVirtBase + heapMaxSize ∧
      pageSize ∣ h'.heapCursor) (hcls : h'.slabClasses = h.slabClasses)
    (hslab : ∀ b o n, L' b = some (.slab o, n) ↔ L b = some (.slab o, n))
    (hmeta : ∀ b o n, L b = some (.slab o, n) → SameMeta h.mem h'.mem b (.slab o))
    (hfree : ∀ b n, L' b = some (.free, n) → HeaderOk h'.mem b (.free, n))
    (halloc : ∀ b n, L' b = some (.alloc, n) → b ∉ holes' → HeaderOk h'.mem b (.alloc, n))
    (hhole : ∀ b ∈ holes', ∃ n, L' b = some (.alloc, n) ∧ largeSize h'.mem b = n)
    (hlist : ∃ l, Dll (nextSpan h'.mem) (prevSpan h'.mem) none (toPtr h'.largeFreeList) l ∧
      l.Nodup ∧ ∀ b, b ∈ l ↔ ∃ n, L' b = some (.free, n))
    (hplaced : ∀ x ∈ live', x ∈ live ∧ x.tier = .slab ∨ x.tier = .large ∧ LiveOk h'.mem L' x)
    (hkept : ∀ x ∈ live, x.tier = .slab → x ∈ live') (hdistinct : (live'.map Live.ptr).Nodup)
    (howned : ∀ b n, L' b = some (.alloc, n) →
      (b ∉ holes' ↔ ∃ x ∈ live', x.tier = .large ∧ x.ptr = b + largeHdrSize)) :
    HeapInv h' L' live' holes' where
  tiling := htiling
  cursor := hcursor
  slabs b o n hb := hi.slabs b o n ((hslab b o n).mp hb)
  header b t hb hh := by
    obtain ⟨k, n⟩ := t
    cases k with
    | slab o =>
      have hL := (hslab b o n).mp hb
      exact hi.header_frame hL (hi.not_hole hL (by simp)) (hmeta b o n hL)
    | free => exact hfree b n hb
    | alloc => exact halloc b n hb hh
  hole := hhole
  freeList := hlist
  classes o ho := by
    obtain ⟨l, hp, hnd, hmem⟩ := hi.classes o ho
    refine ⟨l, ?_, hnd, fun b => by simp only [hmem b, hslab]⟩
    rw [hcls]
    refine hp.frame fun y hy => ?_
    obtain ⟨n, hL⟩ := (hmem y).mp hy
    exact (hmeta y o n hL).nextSlab ho
  counts sp o n hb := by
    have hL := (hslab sp o n).mp hb
    exact (hmeta sp o n hL).pageCount (hi.slabs sp o n hL).2
      (fun _ _ x hx htier _ => ⟨x, hkept x hx htier, htier, rfl⟩) (hi.counts sp o n hL)
  placed x hx := by
    obtain ⟨hx, htier⟩ | ⟨-, hok⟩ := hplaced x hx
    · obtain ⟨sp, o, idx, hL, ho, hidx, hptr, hsize, hused⟩ := hi.slab_placed hx htier
      refine ⟨(hi.placed x hx).1, ?_⟩
      rw [htier]
      exact ⟨sp, o, idx, (hslab sp o _).mpr hL, hidx, hptr, hsize,
        ((hmeta sp o _ hL).slotUsed ho hidx).mpr hused⟩
    · exact hok
  distinct := hdistinct
  owned := howned

theorem slab_relabel_iff {L : HeapLayout} {b c n m o : Nat} {k k' : TileKind}
    (hL : L b = some (k, n)) (hk : k ≠ .slab o) (hk' : k' ≠ .slab o) :
    update L b (some (k', n)) c = some (.slab o, m) ↔ L c = some (.slab o, m) := by
  constructor
  · intro hc
    obtain ⟨-, heq⟩ | ⟨-, hc⟩ := update_cases hc
    · exact absurd (congrArg Prod.fst heq) hk'
    · exact hc
  · intro hc
    rwa [update_of_ne (ne_of_kind hc hL hk.symm)]

section

variable {h : Heap} {b c : Nat} {k : TileKind}

theorem largeInsertFree_self (hhead : h.largeFreeList < 2 ^ 64) (hap : h.largeFreeList ≠ 0 →
      b + pageSize ≤ h.largeFreeList ∨ h.largeFreeList + pageSize ≤ b) :
    load 8 (largeInsertFree h b).mem b = heapMagicFree ∧
      largeSize (largeInsertFree h b).mem b = largeSize h.mem b ∧
      largeNext (largeInsertFree h b).mem b = h.largeFreeList ∧
      largePrev (largeInsertFree h b).mem b = 0 := by
  unfold largeInsertFree largeSize largeNext largePrev
  unfold pageSize at hap
  dsimp only
  split
  · next hne =>
      have := hap hne
      refine ⟨?_, ?_, ?_, ?_⟩
      · repeat rw [load_store_of_disjoint (by omega)]
        rw [load_store_of_lt (by decide)]
      · repeat rw [load_store_of_disjoint (by omega)]
      · rw [load_store_of_disjoint (by omega), load_store_of_disjoint (by omega),
          load_store_of_lt (by omega)]
      · rw [load_store_of_disjoint (by omega), load_store_of_lt (by decide)]
  · refine ⟨?_, ?_, ?_, ?_⟩
    · rw [load_store_of_disjoint (by omega), load_store_of_disjoint (by omega),
        load_store_of_lt (by decide)]
    · repeat rw [load_store_of_disjoint (by omega)]
    · rw [load_store_of_disjoint (by omega), load_store_of_lt (by omega)]
    · rw [load_store_of_lt (by decide)]

theorem largeInsertFree_other (hb : b < 2 ^ 64) (hk : k.metaSize ≤ pageSize)
    (hapb : c + pageSize ≤ b ∨ b + pageSize ≤ c) (hap : h.largeFreeList ≠ 0 → c ≠ h.largeFreeList →
      c + pageSize ≤ h.largeFreeList ∨ h.largeFreeList + pageSize ≤ c) :
    (c ≠ h.largeFreeList ∨ h.largeFreeList = 0 → SameMeta h.mem (largeInsertFree h b).mem c k) ∧
    (c = h.largeFreeList → h.largeFreeList ≠ 0 →
      load 8 (largeInsertFree h b).mem c = load 8 h.mem c ∧
      largeSize (largeInsertFree h b).mem c = largeSize h.mem c ∧
      largeNext (largeInsertFree h b).mem c = largeNext h.mem c ∧
      largePrev (largeInsertFree h b).mem c = b) := by
  unfold largeInsertFree largeSize largeNext largePrev
  unfold pageSize at hapb hap hk
  dsimp only
  constructor
  · intro hc
    have hown : SameMeta h.mem
        (store 8 (store 8 (store 8 h.mem b heapMagicFree) (b + 16) h.largeFreeList) (b + 24) 0)
        c k :=
      ((sameMeta_store (by omega)).trans (sameMeta_store (by omega))).trans
        (sameMeta_store (by omega))
    split
    · next hne =>
        have := hap hne (hc.resolve_right hne)
        exact hown.trans (sameMeta_store (by omega))
    · exact hown
  · rintro rfl hne
    rw [if_pos hne]
    refine ⟨?_, ?_, ?_, ?_⟩
    · repeat rw [load_store_of_disjoint (by omega)]
    · repeat rw [load_store_of_disjoint (by omega)]
    · repeat rw [load_store_of_disjoint (by omega)]
    · rw [load_store_of_lt (by omega)]

end

theorem HeapInv.base_lt {h : Heap} {L : HeapLayout} {live : List Live} {holes : List Nat}
    {b n : Nat} {k : TileKind} (hi : HeapInv h L live holes) (hb : L b = some (k, n)) :
    b < 2 ^ 64 := by
  have hin := hi.tiling.inside b k n hb
  have hcur := hi.cursor.2.1
  have hmax : heapVirtBase + heapMaxSize < 2 ^ 64 := by decide
  omega

theorem HeapInv.head_free {h : Heap} {L : HeapLayout} {live : List Live} {holes : List Nat}
    (hi : HeapInv h L live holes) (hne : h.largeFreeList ≠ 0) :
    ∃ n, L h.largeFreeList = some (.free, n) := by
  obtain ⟨l, hd, -, hmem⟩ := hi.freeList
  have hhead := hd.path.head
  rw [toPtr_of_ne hne] at hhead
  exact (hmem _).mp (List.mem_of_mem_head? hhead.symm)

theorem HeapInv.insertFree {h : Heap} {L : HeapLayout} {live : List Live} {holes : List Nat}
    {b n : Nat} (hi : HeapInv h L live (b :: holes)) (hnot : b ∉ holes)
    (hL : L b = some (.alloc, n)) :
    HeapInv (largeInsertFree h b) (update L b (some (.free, n))) live holes := by
  have hb64 := hi.base_lt hL
  have hb0 := hi.base_pos hL
  obtain ⟨nb, hLb, hsize⟩ := hi.hole b List.mem_cons_self
  rw [hL] at hLb
  cases hLb
  have hhead64 : h.largeFreeList < 2 ^ 64 := by
    by_cases hz : h.largeFreeList = 0
    · rw [hz]; decide
    · obtain ⟨n', hf⟩ := hi.head_free hz
      exact hi.base_lt hf
  have hself := largeInsertFree_self (h := h) (b := b) hhead64 fun hne => by
    -- the old head is a free span, so it is another tile
    obtain ⟨n', hf⟩ := hi.head_free hne
    exact hi.apart hL hf (ne_of_kind hL hf (by simp))
  have hother := fun {c k n'} (hc : L c = some (k, n')) (hcb : c ≠ b) =>
    largeInsertFree_other (h := h) (c := c) (k := k) hb64 (hi.meta_le hc).2
      (hi.apart hc hL hcb) fun hne hch => by
        obtain ⟨n'', hf⟩ := hi.head_free hne
        exact hi.apart hc hf hch
  -- tiles that are not free do not even have their links changed
  have hsame : ∀ {c k n'}, L c = some (k, n') → c ≠ b → k ≠ .free →
      SameMeta h.mem (largeInsertFree h b).mem c k := by
    intro c k n' hc hcb hk
    refine (hother hc hcb).1 ?_
    by_contra hcon
    rw [not_or, not_not] at hcon
    obtain ⟨n'', hf⟩ := hi.head_free hcon.2
    rw [← hcon.1, hc] at hf
    cases hf
    exact hk rfl
  have halloc : ∀ {c m}, update L b (some (.free, n)) c = some (.alloc, m) →
      c ≠ b ∧ L c = some (.alloc, m) := fun hc =>
    (update_cases hc).resolve_left fun hand => by cases hand.2
  refine hi.respan (hi.tiling.relabel hL .free) hi.cursor rfl
    (fun c o m => slab_relabel_iff hL (by simp) (by simp))
    (fun c o m hc => hsame hc (ne_of_kind hc hL (by simp)) (by simp)) ?_ ?_ ?_ ?_
    (fun x hx => hi.replace _ (fun c m hc hcn => ?_) hx) (fun _ hx _ => hx) hi.distinct ?_
  · intro c m hc
    obtain ⟨rfl, heq⟩ | ⟨hcb, hc⟩ := update_cases hc
    · cases heq
      exact ⟨hself.1, hself.2.1.trans hsize⟩
    · have hcnot := hi.not_hole hc (by simp)
      by_cases hch : c = h.largeFreeList ∧ h.largeFreeList ≠ 0
      · obtain ⟨hmag, hsz, -, -⟩ := (hother hc hcb).2 hch.1 hch.2
        have hh := hi.header c _ hc hcnot
        exact ⟨hmag.trans hh.1, hsz.trans hh.2⟩
      · exact hi.header_frame hc hcnot ((hother hc hcb).1 (by omega))
  · intro c m hc hcnot
    obtain ⟨hcb, hc⟩ := halloc hc
    have hcnot' : c ∉ b :: holes := by
      rw [List.mem_cons, not_or]
      exact ⟨hcb, hcnot⟩
    exact hi.header_frame hc hcnot' (hsame hc hcb (by simp))
  · intro c hc
    obtain ⟨m, hLc, hsz⟩ := hi.hole c (List.mem_cons_of_mem b hc)
    have hcb : c ≠ b := by
      rintro rfl
      exact hnot hc
    exact ⟨m, by rw [update_of_ne hcb]; exact hLc, (hsame hLc hcb (by simp)).largeSize.trans hsz⟩
  · obtain ⟨l, hd, hnd, hmem⟩ := hi.freeList
    have hbl : b ∉ l := by
      intro hc
      obtain ⟨m, hm⟩ := (hmem b).mp hc
      exact ne_of_kind hL hm (by simp) rfl
    have hne : ∀ y ∈ l, y ≠ b := by
      rintro y hy rfl
      exact hbl hy
    refine ⟨b :: l, ?_, List.nodup_cons.mpr ⟨hbl, hnd⟩, ?_⟩
    · rw [show toPtr (largeInsertFree h b).largeFreeList = some b from toPtr_of_ne hb0]
      refine hd.push hnd (by rw [nextSpan, hself.2.2.1]) (by rw [prevSpan, hself.2.2.2]; rfl) ?_ ?_
      · intro y hy
        obtain ⟨m, hLy⟩ := (hmem y).mp hy
        by_cases hyh : y = h.largeFreeList ∧ h.largeFreeList ≠ 0
        · exact congrArg toPtr ((hother hLy (hne y hy)).2 hyh.1 hyh.2).2.2.1
        · exact ((hother hLy (hne y hy)).1 (by omega)).nextSpan
      · intro y hy
        obtain ⟨m, hLy⟩ := (hmem y).mp hy
        have hy0 := hi.base_pos hLy
        by_cases hyh : y = h.largeFreeList
        · have hz : h.largeFreeList ≠ 0 := by omega
          rw [if_pos (toPtr_eq_some_iff.mpr ⟨hyh.symm, hy0⟩), prevSpan,
            ((hother hLy (hne y hy)).2 hyh hz).2.2.2, toPtr_of_ne hb0]
        · rw [if_neg (fun hc => hyh (toPtr_eq_some_iff.mp hc).1.symm)]
          exact ((hother hLy (hne y hy)).1 (.inl hyh)).prevSpan
    · intro c
      by_cases hcb : c = b
      · subst hcb
        simp
      · rw [List.mem_cons, or_iff_right hcb, update_of_ne hcb]
        exact hmem c
  · have hcb : c ≠ b := by
      rintro rfl
      exact hcn List.mem_cons_self
    rwa [update_of_ne hcb]
  · intro c m hc
    obtain ⟨hcb, hc⟩ := halloc hc
    rw [← hi.owned c m hc, List.mem_cons, not_or]
    exact ⟨fun hcn => ⟨hcb, hcn⟩, fun hcn => hcn.2⟩

/-- The memory after span `b` has been taken out from between `p` and `q`. -/
def unlinkMem (m : Mem) (b p q : Nat) : Mem :=
  let m := if p ≠ 0 then store 8 m (p + 16) q else m
  let m := if q ≠ 0 then store 8 m (q + 24) p else m
  store 8 (store 8 m (b + 24) 0) (b + 16) 0

theorem largeRemoveFree_eq {h : Heap} {b : Nat} (hp : largePrev h.mem b ≠ 0 →
      b + pageSize ≤ largePrev h.mem b ∨ largePrev h.mem b + pageSize ≤ b) : largeRemoveFree h b =
      { h with
        mem := unlinkMem h.mem b (largePrev h.mem b) (largeNext h.mem b)
        largeFreeList :=
          if largePrev h.mem b ≠ 0 then h.largeFreeList else largeNext h.mem b } := by
  unfold largeRemoveFree unlinkMem
  by_cases hz : largePrev h.mem b ≠ 0
  · have hd := hp hz
    unfold pageSize at hd
    have hnext : largeNext (store 8 h.mem (largePrev h.mem b + 16) (largeNext h.mem b)) b =
        largeNext h.mem b := load_store_of_disjoint (by omega)
    have hprev : largePrev (store 8 h.mem (largePrev h.mem b + 16) (largeNext h.mem b)) b =
        largePrev h.mem b := load_store_of_disjoint (by omega)
    simp only [if_pos hz, hnext, hprev]
  · simp only [if_neg hz]

section

variable {m : Mem} {b p q : Nat}

theorem unlinkMem_apply {x : Nat} (hb : x < b + 16 ∨ b + 32 ≤ x)
    (hp : p ≠ 0 → x < p + 16 ∨ p + 24 ≤ x) (hq : q ≠ 0 → x < q + 24 ∨ q + 32 ≤ x) :
    unlinkMem m b p q x = m x := by
  unfold unlinkMem
  rw [store_apply_of_disjoint (by omega), store_apply_of_disjoint (by omega)]
  have hfirst : (if p ≠ 0 then store 8 m (p + 16) q else m) x = m x := by
    split
    · next hz =>
        have := hp hz
        exact store_apply_of_disjoint (by omega)
    · rfl
  split
  · next hz =>
      have := hq hz
      rw [store_apply_of_disjoint (by omega), hfirst]
  · exact hfirst

theorem load_unlinkMem {w a : Nat} (hb : a + w ≤ b + 16 ∨ b + 32 ≤ a)
    (hp : p ≠ 0 → a + w ≤ p + 16 ∨ p + 24 ≤ a) (hq : q ≠ 0 → a + w ≤ q + 24 ∨ q + 32 ≤ a) :
    load w (unlinkMem m b p q) a = load w m a :=
  load_congr fun x hx hx' => unlinkMem_apply (by omega) (by omega) (by omega)

theorem largeNext_unlinkMem (hp : p ≠ 0) (hq64 : q < 2 ^ 64)
    (hbp : b + pageSize ≤ p ∨ p + pageSize ≤ b)
    (hpq : q ≠ 0 → p + pageSize ≤ q ∨ q + pageSize ≤ p) : largeNext (unlinkMem m b p q) p = q := by
  unfold largeNext unlinkMem
  unfold pageSize at hbp hpq
  dsimp only
  rw [load_store_of_disjoint (by omega), load_store_of_disjoint (by omega), if_pos hp]
  split
  · next hz =>
      have := hpq hz
      rw [load_store_of_disjoint (by omega), load_store_of_lt (by omega)]
  · rw [load_store_of_lt (by omega)]

theorem largePrev_unlinkMem (hq : q ≠ 0) (hp64 : p < 2 ^ 64)
    (hbq : b + pageSize ≤ q ∨ q + pageSize ≤ b) : largePrev (unlinkMem m b p q) q = p := by
  unfold largePrev unlinkMem
  unfold pageSize at hbq
  dsimp only
  rw [load_store_of_disjoint (by omega), load_store_of_disjoint (by omega), if_pos hq,
    load_store_of_lt (by omega)]

end

variable {h : Heap} {L : HeapLayout} {live : List Live} {holes : List Nat} {b n : Nat}

variable (hi : HeapInv h L live holes)
include hi

variable (hL : L b = some (.free, n))
include hL

theorem HeapInv.neighbours : (largePrev h.mem b ≠ 0 → largePrev h.mem b ≠ b ∧
      ∃ n', L (largePrev h.mem b) = some (.free, n')) ∧
    (largeNext h.mem b ≠ 0 → largeNext h.mem b ≠ b ∧
      ∃ n', L (largeNext h.mem b) = some (.free, n')) ∧
    (largePrev h.mem b ≠ 0 → largeNext h.mem b ≠ 0 → largePrev h.mem b ≠ largeNext h.mem b) := by
  obtain ⟨l, hd, hnd, hmem⟩ := hi.freeList
  obtain ⟨l1, l2, rfl⟩ := List.append_of_mem ((hmem b).mpr ⟨n, hL⟩)
  obtain ⟨hnext, hprev⟩ := hd.neighbours
  obtain ⟨-, hnd2, hdis⟩ := List.nodup_append.mp hnd
  have hp : largePrev h.mem b ≠ 0 → largePrev h.mem b ∈ l1 := by
    intro hz
    rw [prevSpan, toPtr_of_ne hz, Option.or_none] at hprev
    exact List.mem_of_getLast? hprev.symm
  have hq : largeNext h.mem b ≠ 0 → largeNext h.mem b ∈ l2 := by
    intro hz
    rw [nextSpan, toPtr_of_ne hz] at hnext
    exact List.mem_of_mem_head? hnext.symm
  refine ⟨fun hz => ⟨?_, (hmem _).mp (List.mem_append_left _ (hp hz))⟩,
    fun hz => ⟨?_, (hmem _).mp (List.mem_append_right _ (List.mem_cons_of_mem b (hq hz)))⟩,
    fun hz hz' => hdis _ (hp hz) _ (List.mem_cons_of_mem b (hq hz'))⟩
  · exact hdis _ (hp hz) b List.mem_cons_self
  · intro hc
    exact (List.nodup_cons.mp hnd2).1 (hc ▸ hq hz)

theorem HeapInv.unlink_apply {c n' x : Nat} {k : TileKind} (hc : L c = some (k, n')) (hlo : c ≤ x)
    (hhi : x < c + k.metaSize) (hk : k = .free → x < c + 16) :
    unlinkMem h.mem b (largePrev h.mem b) (largeNext h.mem b) x = h.mem x := by
  obtain ⟨hp, hq, -⟩ := hi.neighbours hL
  have hmeta := (hi.meta_le hc).2
  have hps : 32 ≤ pageSize := by decide
  have hcase : ∀ y n'', L y = some (.free, n'') → x < y + 16 ∨ y + 32 ≤ x := by
    intro y n'' hLy
    by_cases hcy : c = y
    · subst hcy
      rw [hc] at hLy
      cases hLy
      exact .inl (hk rfl)
    · have := hi.apart hc hLy hcy
      omega
  refine unlinkMem_apply (hcase b n hL) (fun hz => ?_) (fun hz => ?_)
  · obtain ⟨-, n'', hLy⟩ := hp hz
    have := hcase _ n'' hLy
    omega
  · obtain ⟨-, n'', hLy⟩ := hq hz
    have := hcase _ n'' hLy
    omega

theorem HeapInv.freeList_unlink :
    ∃ l, Dll (nextSpan (unlinkMem h.mem b (largePrev h.mem b) (largeNext h.mem b)))
        (prevSpan (unlinkMem h.mem b (largePrev h.mem b) (largeNext h.mem b))) none
        (toPtr (if largePrev h.mem b ≠ 0 then h.largeFreeList else largeNext h.mem b)) l ∧
      l.Nodup ∧ ∀ c, c ∈ l ↔ c ≠ b ∧ ∃ n', L c = some (.free, n') := by
  obtain ⟨hp, hq, hpq⟩ := hi.neighbours hL
  obtain ⟨l, hd, hnd, hmem⟩ := hi.freeList
  obtain ⟨l1, l2, rfl⟩ := List.append_of_mem ((hmem b).mpr ⟨n, hL⟩)
  obtain ⟨hnext, hprev⟩ := hd.neighbours
  have hin : ∀ c, c ∈ l1 ++ l2 ↔ c ≠ b ∧ ∃ n', L c = some (.free, n') := by
    intro c
    rw [← hmem c]
    have hb : b ∉ l1 ++ l2 :=
      (List.nodup_cons.mp (List.perm_middle.nodup_iff.mp hnd)).1
    constructor
    · intro hc
      refine ⟨fun hcb => hb (hcb ▸ hc), ?_⟩
      exact List.perm_middle.mem_iff.mpr (List.mem_cons_of_mem b hc)
    · rintro ⟨hcb, hc⟩
      exact (List.mem_cons.mp (List.perm_middle.mem_iff.mp hc)).resolve_left hcb
  have h64 : ∀ {y}, (y ≠ 0 → y ≠ b ∧ ∃ n', L y = some (.free, n')) → y < 2 ^ 64 := by
    intro y hy
    by_cases hz : y = 0
    · rw [hz]; decide
    · obtain ⟨-, n', hLy⟩ := hy hz
      exact hi.base_lt hLy
  have hps : 32 ≤ pageSize := by decide
  refine ⟨l1 ++ l2, ?_, (List.nodup_cons.mp (List.perm_middle.nodup_iff.mp hnd)).2, hin⟩
  -- the head moves on exactly when the removed span was the first
  have hhead : toPtr (if largePrev h.mem b ≠ 0 then h.largeFreeList else largeNext h.mem b) =
      if l1 = [] then nextSpan h.mem b else toPtr h.largeFreeList := by
    rw [Option.or_none] at hprev
    by_cases hl : l1 = []
    · rw [hl] at hprev
      have hz : largePrev h.mem b = 0 := toPtr_eq_none_iff.mp hprev
      rw [if_pos hl, if_neg (not_not.mpr hz)]
      rfl
    · have hz : largePrev h.mem b ≠ 0 := by
        intro hz
        rw [prevSpan, hz, List.getLast?_eq_some_getLast hl] at hprev
        cases hprev
      rw [if_neg hl, if_pos hz]
  rw [hhead]
  refine hd.unlink hnd (fun _ hc => by cases hc) ?_ ?_
  · intro y hy
    obtain ⟨hyb, n', hLy⟩ := (hin y).mp hy
    have hyb' := hi.apart hLy hL hyb
    by_cases hyp : largePrev h.mem b = y
    · have hz : largePrev h.mem b ≠ 0 := by
        rw [hyp]
        exact hi.base_pos hLy
      have hpy : prevSpan h.mem b = some y := toPtr_eq_some_iff.mpr ⟨hyp, hi.base_pos hLy⟩
      rw [if_pos hpy, ← hyp]
      refine congrArg toPtr (largeNext_unlinkMem hz (h64 hq) (by omega) fun hqz => ?_)
      obtain ⟨-, n'', hLq⟩ := hq hqz
      rw [hyp] at hpq ⊢
      exact hi.apart hLy hLq (hpq (hi.base_pos hLy) hqz)
    · have hpy : prevSpan h.mem b ≠ some y := fun hc => hyp (toPtr_eq_some_iff.mp hc).1
      rw [if_neg hpy]
      refine congrArg toPtr (load_unlinkMem (by omega) (fun hz => ?_) (fun hz => ?_))
      · obtain ⟨-, n'', hLp⟩ := hp hz
        have := hi.apart hLy hLp (Ne.symm hyp)
        omega
      · obtain ⟨-, n'', hLq⟩ := hq hz
        by_cases hyq : y = largeNext h.mem b
        · omega
        · have := hi.apart hLy hLq hyq
          omega
  · intro y hy
    obtain ⟨hyb, n', hLy⟩ := (hin y).mp hy
    have hyb' := hi.apart hLy hL hyb
    by_cases hyq : largeNext h.mem b = y
    · have hz : largeNext h.mem b ≠ 0 := by
        rw [hyq]
        exact hi.base_pos hLy
      have hqy : nextSpan h.mem b = some y := toPtr_eq_some_iff.mpr ⟨hyq, hi.base_pos hLy⟩
      rw [if_pos hqy, ← hyq]
      exact congrArg toPtr (largePrev_unlinkMem hz (h64 hp) (by omega))
    · have hqy : nextSpan h.mem b ≠ some y := fun hc => hyq (toPtr_eq_some_iff.mp hc).1
      rw [if_neg hqy]
      refine congrArg toPtr (load_unlinkMem (by omega) (fun hz => ?_) (fun hz => ?_))
      · obtain ⟨-, n'', hLp⟩ := hp hz
        by_cases hyp : y = largePrev h.mem b
        · omega
        · have := hi.apart hLy hLp hyp
          omega
      · obtain ⟨-, n'', hLq⟩ := hq hz
        have := hi.apart hLy hLq (Ne.symm hyq)
        omega

theorem HeapInv.removeFree :
    HeapInv (largeRemoveFree h b) (update L b (some (.alloc, n))) live (b :: holes) := by
  obtain ⟨hp, -, -⟩ := hi.neighbours hL
  rw [largeRemoveFree_eq fun hz => by
    obtain ⟨hpb, n', hLp⟩ := hp hz
    exact hi.apart hL hLp (Ne.symm hpb)]
  have hsame : ∀ {c k n'}, L c = some (k, n') → k ≠ .free → SameMeta h.mem
      (unlinkMem h.mem b (largePrev h.mem b) (largeNext h.mem b)) c k :=
    fun hc hk x hlo hhi => hi.unlink_apply hL hc hlo hhi fun hkf => absurd hkf hk
  have hhead : ∀ {c n' w off}, L c = some (.free, n') → off + w ≤ 16 →
      load w (unlinkMem h.mem b (largePrev h.mem b) (largeNext h.mem b)) (c + off) =
        load w h.mem (c + off) := by
    intro c n' w off hc hoff
    refine load_congr fun x hx hx' => hi.unlink_apply hL hc (by omega) ?_ (fun _ => by omega)
    simp only [TileKind.metaSize, largeHdrSize]
    omega
  have hold : ∀ {c k n'}, update L b (some (.alloc, n)) c = some (k, n') → c ≠ b →
      L c = some (k, n') := by
    intro c k n' hc hcb
    rwa [update_of_ne hcb] at hc
  refine hi.respan (hi.tiling.relabel hL .alloc) hi.cursor rfl
    (fun c o m => slab_relabel_iff hL (by simp) (by simp)) (fun c o m hc => hsame hc (by simp))
    ?_ ?_ ?_ ?_ (fun x hx => hi.replace _ (fun c m hc _ => ?_) hx) (fun _ hx _ => hx)
    hi.distinct ?_
  · intro c m hc
    obtain ⟨-, heq⟩ | ⟨-, hLc⟩ := update_cases hc
    · cases heq
    · obtain ⟨hmag, hsz⟩ := hi.header c _ hLc (hi.not_hole hLc (by simp))
      exact ⟨(@hhead c m 8 0 hLc (by decide)).trans hmag, (hhead hLc (by decide)).trans hsz⟩
  · intro c m hc hcn
    rw [List.mem_cons, not_or] at hcn
    have hLc := hold hc hcn.1
    exact hi.header_frame hLc hcn.2 (hsame hLc (by simp))
  · intro c hc
    by_cases hcb : c = b
    · subst hcb
      refine ⟨n, update_self _ _ _, ?_⟩
      exact (hhead hL (by decide)).trans (hi.header c _ hL (hi.not_hole hL (by simp))).2
    · obtain ⟨m, hLc, hsz⟩ := hi.hole c ((List.mem_cons.mp hc).resolve_left hcb)
      exact ⟨m, by rw [update_of_ne hcb]; exact hLc, (hsame hLc (by simp)).largeSize.trans hsz⟩
  · obtain ⟨l, hd, hnd, hmem⟩ := hi.freeList_unlink hL
    dsimp only
    refine ⟨l, hd, hnd, fun c => ?_⟩
    rw [hmem c]
    by_cases hcb : c = b
    · subst hcb
      simp
    · rw [update_of_ne hcb]
      simp [hcb]
  · rwa [update_of_ne (ne_of_kind hc hL (by simp))]
  · intro c m hc
    by_cases hcb : c = b
    · -- nobody owns a span that was free
      subst hcb
      refine iff_of_false (fun hcn => hcn List.mem_cons_self) ?_
      rintro ⟨x, hx, htier, hptr⟩
      obtain ⟨c', m', hc', hptr', -⟩ := hi.large_placed hx htier
      exact ne_of_kind hc' hL (by simp) (by omega)
    · rw [← hi.owned c m (hold hc hcb), List.mem_cons, not_or]
      exact ⟨fun hcn => hcn.2, fun hcn => ⟨hcb, hcn⟩⟩

end DevOs
