import DevOs.Mm.Heap.Growth

/-!
What stands behind a pointer that `kmalloc` has returned.
-/

namespace DevOs

open ByteMem

def blockBytes (m : Mem) (ptr : Nat) : Nat :=
  if load 8 m (alignDown ptr pageSize) = slabPageMagic then slabObjSize m (alignDown ptr pageSize)
  else largeSize m (ptr - largeHdrSize) - largeHdrSize

/-- There are `size` bytes behind the pointer, and they are in mapped pages of the heap. -/
structure Served (pml4 : Nat) (k : KernelHeap) (ptr size : Nat) : Prop where
  fits : size ≤ blockBytes k.heap.mem ptr
  backed : ∀ a, ptr ≤ a → a < ptr + size → heapVirtBase ≤ a ∧ a < k.heap.heapCursor ∧
    vmmTranslate k.phys.mem pml4 (BitVec.ofNat 64 a) ≠ 0

/-- The heap is in order, and so are the page tables, and all pages below the cursor are
mapped. -/
structure KernelHeap.Ok (used : Nat → Prop) (pml4 : Nat) (k : KernelHeap) (L : HeapLayout)
    (live : List Live) : Prop where
  inv : HeapInv k.heap L live []
  tree : TreeOk used pml4 k.phys
  mapped : ∀ a, heapVirtBase ≤ a → a < k.heap.heapCursor →
    vmmTranslate k.phys.mem pml4 (BitVec.ofNat 64 a) ≠ 0

section

variable {h h' : Heap} {L : HeapLayout} {live : List Live} {holes : List Nat} {b total : Nat}

theorem HeapInv.size_le_blockBytes (hi : HeapInv h L live []) {x : Live} (hx : x ∈ live) :
    x.size ≤ blockBytes h.mem x.ptr := by
  have hle := hi.size_le_usable hx
  unfold usableSize at hle
  unfold blockBytes
  cases htier : x.tier with
  | slab =>
    obtain ⟨sp, o, idx, hL, ho, hidx, hptr, -⟩ := hi.slab_placed hx htier
    have hr := @objectAt_range sp o idx ho hidx
    have hpow : 0 < 2 ^ o := Nat.two_pow_pos o
    have hh := hi.header sp _ hL List.not_mem_nil
    have hdown : alignDown x.ptr pageSize = sp :=
      alignDown_object (hi.tiling.aligned sp _ _ hL).1 (by omega) (by omega)
    rw [hdown, if_pos hh.1] at hle ⊢
    exact hle
  | large =>
    obtain ⟨b, n, hL, hptr, hsize, -⟩ := hi.large_placed hx htier
    have hps : largeHdrSize < pageSize := by decide
    have hh := hi.header b _ hL List.not_mem_nil
    have hdown : alignDown x.ptr pageSize = b :=
      alignDown_object (hi.tiling.aligned b _ _ hL).1 (by omega) (by omega)
    rw [hdown, hh.1, if_neg (by decide), hptr, Nat.add_sub_cancel, hh.2]
    omega

theorem HeapInv.dvd_head (hi : HeapInv h L live holes) : pageSize ∣ h.largeFreeList := by
  by_cases hz : h.largeFreeList = 0
  · rw [hz]
    exact Nat.dvd_zero _
  · obtain ⟨l, hd, -, hmem⟩ := hi.freeList
    have hh := hd.path.head
    rw [toPtr_of_ne hz] at hh
    obtain ⟨n, hL⟩ := (hmem _).mp (List.mem_of_mem_head? hh.symm)
    exact (hi.tiling.aligned _ _ _ hL).1

theorem largeInsertFree_size {rem : Nat} (hb : pageSize ∣ b) (hrem : pageSize ∣ rem)
    (hhead : pageSize ∣ h.largeFreeList) :
    largeSize (largeInsertFree h rem).mem b = largeSize h.mem b := by
  obtain ⟨x, rfl⟩ := hb
  obtain ⟨y, rfl⟩ := hrem
  obtain ⟨z, hz⟩ := hhead
  rw [pageSize_eq] at *
  unfold largeInsertFree largeSize
  dsimp only
  split
  · rw [hz, load_store_of_disjoint (by omega), load_store_of_disjoint (by omega),
      load_store_of_disjoint (by omega), load_store_of_disjoint (by omega)]
  · repeat rw [load_store_of_disjoint (by omega)]

theorem served_size_lt (hb : pageSize ∣ b) (htotal : pageSize ∣ total)
    (hhead : pageSize ∣ h.largeFreeList) (hlt : total + pageSize + largeHdrSize < 2 ^ 64) :
    largeSize (finishAlloc (splitSpan h b total) b).2.mem b < total + pageSize + largeHdrSize := by
  rw [(HeapInv.finishAlloc_header _ _).2]
  unfold splitSpan
  split
  · rw [largeInsertFree_size hb (Nat.dvd_add hb htotal) (by exact hhead), largeSize,
      load_store_of_lt (by omega)]
    exact Nat.lt_of_lt_of_le (Nat.lt_add_of_pos_right (by decide)) (Nat.le_add_right _ _)
  · next hsmall =>
      rw [Nat.mod_eq_of_lt hlt] at hsmall
      exact Nat.not_le.mp hsmall

theorem HeapInv.largeAlloc_size_lt (hi : HeapInv h L live []) {asked ptr : Nat}
    {growth : Option Mem}
    (hlt : alignUp (asked + largeHdrSize) pageSize + pageSize + largeHdrSize < 2 ^ 64)
    (heq : largeAlloc h asked growth = some (ptr, h')) (hp : ptr ≠ 0) :
    ∃ b, ptr = b + largeHdrSize ∧ pageSize ∣ b ∧ load 8 h'.mem b = heapMagicAlloc ∧
      largeSize h'.mem b < alignUp (asked + largeHdrSize) pageSize + pageSize + largeHdrSize := by
  have hdvd := dvd_alignUp (asked + largeHdrSize) pageSize
  unfold largeAlloc at heq
  generalize alignUp (asked + largeHdrSize) pageSize = total at *
  obtain ⟨l, hd, hnd, hmem⟩ := hi.freeList
  have hfuel := hi.length_lt hnd hmem
  obtain ⟨best, hbest, hfit, -⟩ := @bestFit_spec h.mem total l heapFuel h.largeFreeList 0
    hd.path hfuel
  simp only [hbest] at heq
  split at heq
  · by_cases hf : PastLimit h (total / pageSize) ∨ growth = none
    · rw [heapMapPages_of_fails hf] at heq
      cases heq
      exact absurd rfl hp
    · rw [not_or] at hf
      obtain ⟨hfst, -⟩ := heapMapPages_of_succeeds hf.1 hf.2
      have hlist : (heapMapPages h (total / pageSize) growth).2.largeFreeList =
          h.largeFreeList := heapMapPages_freeList h _ growth
      generalize heapMapPages h (total / pageSize) growth = g at heq hfst hlist
      obtain ⟨c, g⟩ := g
      dsimp only at heq hfst hlist
      have hc : pageSize ∣ c := hfst ▸ hi.cursor.2.2
      split at heq
      · cases heq
        exact absurd rfl hp
      · cases heq
        refine ⟨c, rfl, hc, (HeapInv.finishAlloc_header _ _).1, served_size_lt hc hdvd ?_ hlt⟩
        rw [hlist]
        exact hi.dvd_head
  · next hb0 =>
      obtain ⟨n, hL⟩ := (hmem best).mp (hfit.resolve_left hb0).1
      cases heq
      refine ⟨best, rfl, (hi.tiling.aligned _ _ _ hL).1, (HeapInv.finishAlloc_header _ _).1, ?_⟩
      exact served_size_lt (hi.tiling.aligned _ _ _ hL).1 hdvd (hi.removeFree hL).dvd_head hlt

variable {a cursor count : Nat}

theorem toNat_pageNumber_heap (hlo : heapVirtBase ≤ a) (hhi : a < heapEnd) :
    (pageNumber (BitVec.ofNat 64 a)).toNat = a / 4096 - heapVirtBase / 4096 +
      (pageNumber (BitVec.ofNat 64 heapVirtBase)).toNat := by
  have hbase : heapVirtBase = 4096 * 0xFFFFFF8000000 := by decide
  have hend : heapEnd = heapVirtBase + 0x10000000 := by decide
  rw [toNat_pageNumber, toNat_pageNumber, BitVec.toNat_ofNat, BitVec.toNat_ofNat]
  omega

theorem pageNumber_heap_inj {b : Nat} (halo : heapVirtBase ≤ a) (hahi : a < heapEnd)
    (hblo : heapVirtBase ≤ b) (hbhi : b < heapEnd) :
    pageNumber (BitVec.ofNat 64 a) = pageNumber (BitVec.ofNat 64 b) ↔ a / 4096 = b / 4096 := by
  rw [← BitVec.toNat_inj, toNat_pageNumber_heap halo hahi, toNat_pageNumber_heap hblo hbhi]
  omega

theorem mem_heapPages_iff (hlo : heapVirtBase ≤ a) (hhi : a < heapEnd)
    (hcur : heapVirtBase ≤ cursor) (hdvd : pageSize ∣ cursor)
    (hend : cursor + count * pageSize ≤ heapEnd) :
    pageNumber (BitVec.ofNat 64 a) ∈ (pagesFrom (BitVec.ofNat 64 cursor) count).map pageNumber ↔
      cursor ≤ a ∧ a < cursor + count * pageSize := by
  obtain ⟨c, rfl⟩ := hdvd
  rw [pageSize_eq] at *
  have hpage : ∀ i < count, (pageNumber (BitVec.ofNat 64 (4096 * c) + BitVec.ofNat 64 (i * 4096)) =
      pageNumber (BitVec.ofNat 64 a) ↔ c + i = a / 4096) := by
    intro i hi
    rw [← BitVec.ofNat_add, pageNumber_heap_inj (by omega) (by omega) hlo hhi]
    omega
  constructor
  · intro hm
    obtain ⟨v, hv, heq⟩ := List.mem_map.mp hm
    obtain ⟨i, hi, rfl⟩ := mem_pagesFrom.mp hv
    have hnum := (hpage i hi).mp heq
    omega
  · intro hin
    have hi : a / 4096 - c < count := by omega
    refine List.mem_map.mpr ⟨_, mem_pagesFrom.mpr ⟨_, hi, rfl⟩, (hpage _ hi).mpr (by omega)⟩

end

variable {used : Nat → Prop} {pml4 size count ptr : Nat} {k k' : KernelHeap} {L : HeapLayout}
  {live : List Live} {growth : Option Mem}

theorem KernelHeap.Ok.cursor_ne_zero (hk : k.Ok used pml4 L live) : k.heap.heapCursor ≠ 0 := by
  have hbase : 0 < heapVirtBase := by decide
  have hcur := hk.inv.cursor.1
  omega

theorem servable_of_pages (hno : NoWrap size) (hp : kmallocPages k.heap size = some count)
    (hle : count ≤ pmmMaxFrames) : Servable size growth := by
  unfold kmallocPages at hp
  split at hp
  · cases hp
  · split at hp
    · next hsmall =>
        have hmax : largeThreshold ≤ heapMaxSize := by decide
        exact servable_of_le (hsmall.1.trans hmax) growth
    · dsimp only at hp
      split at hp <;> cases hp
      exact ⟨hno, fun _ => hle⟩

theorem KernelHeap.Ok.le_heapEnd (hk : k.Ok used pml4 L live) (hle : count ≤ pmmMaxFrames)
    (hpast : ¬ PastLimit k.heap count) : (k.heap.heapCursor + count * pageSize % 2 ^ 64) % 2 ^ 64 =
        k.heap.heapCursor + count * pageSize ∧ k.heap.heapCursor + count * pageSize ≤ heapEnd := by
  have hcur : k.heap.heapCursor ≤ heapEnd := hk.inv.cursor.2.1
  have hmul : count * pageSize ≤ pmmMaxFrames * pageSize := Nat.mul_le_mul_right _ hle
  have hmax : heapEnd + pmmMaxFrames * pageSize < 2 ^ 64 := by decide
  have heq : (k.heap.heapCursor + count * pageSize % 2 ^ 64) % 2 ^ 64 =
      k.heap.heapCursor + count * pageSize := by
    rw [Nat.mod_eq_of_lt (show count * pageSize < 2 ^ 64 by omega), Nat.mod_eq_of_lt (by omega)]
  rw [PastLimit, heq] at hpast
  exact ⟨heq, Nat.not_lt.mp hpast⟩

theorem KernelHeap.Ok.mapped_grown (hk : k.Ok used pml4 L live)
    (haff : Affordable pml4 (BitVec.ofNat 64 k.heap.heapCursor) count k.phys)
    (hend : k.heap.heapCursor + count * pageSize ≤ heapEnd) {a : Nat} (hlo : heapVirtBase ≤ a)
    (hhi : a < k.heap.heapCursor + count * pageSize) :
    vmmTranslate (allocRangeLoop pml4 heapFlags count (BitVec.ofNat 64 k.heap.heapCursor)
      k.phys).2.mem pml4 (BitVec.ofNat 64 a) ≠ 0 := by
  have hiff := mem_heapPages_iff hlo (hhi.trans_le hend) hk.inv.cursor.1 hk.inv.cursor.2.2 hend
  by_cases hnew : k.heap.heapCursor ≤ a
  · exact hk.tree.translate_of_affordable heapFlags_present heapFlags_mask haff
      (hiff.mpr ⟨hnew, hhi⟩)
  · rw [hk.tree.translate_kept heapFlags fun hm => hnew (hiff.mp hm).1]
    exact hk.mapped a hlo (Nat.not_le.mp hnew)

theorem KernelHeap.Ok.serve (hk : k.Ok used pml4 L live) (hno : NoWrap size)
    (haff : ∀ count, kmallocPages k.heap size = some count →
      Affordable pml4 (BitVec.ofNat 64 k.heap.heapCursor) count k.phys)
    (hrun : kmallocOn pml4 k size = some (ptr, k')) (hp : ptr ≠ 0) : Served pml4 k' ptr size ∧
      ∃ used' L', k'.Ok used' pml4 L' (⟨ptr, size, tierOf size⟩ :: live) := by
  have hc := hk.cursor_ne_zero
  -- what the growth leaves: tables, and mapped pages up to the cursor
  have hgrown : ∃ growth, kmalloc k.heap size growth = some (ptr, k'.heap) ∧
      Servable size growth ∧ (∃ used', TreeOk used' pml4 k'.phys) ∧
      ∀ a, heapVirtBase ≤ a → a < k'.heap.heapCursor →
        vmmTranslate k'.phys.mem pml4 (BitVec.ofNat 64 a) ≠ 0 := by
    obtain ⟨hpages, hphys, heq⟩ | ⟨count, hpages, hphys, heq⟩ := kmallocOn_eq_some hrun
    · refine ⟨none, heq, ⟨hno, fun hne => absurd rfl hne⟩, ⟨used, hphys ▸ hk.tree⟩,
        fun a hlo hhi => ?_⟩
      rw [(kmalloc_grows hc heq).cursor_of_none hpages] at hhi
      rw [hphys]
      exact hk.mapped a hlo hhi
    · have haff := haff count hpages
      have hle := haff.le_free.trans (card_clearFrames_le _)
      obtain ⟨hpast, -, hcur, -⟩ := (kmalloc_grows hc heq).of_some hpages hp
      obtain ⟨hsum, hend⟩ := hk.le_heapEnd hle hpast
      obtain ⟨used', hpop⟩ := hk.tree.populates_range heapFlags
        (BitVec.ofNat 64 k.heap.heapCursor) count
      refine ⟨_, heq, servable_of_pages hno hpages hle, ?_⟩
      rw [hphys, growPages_of_room hpast, hcur, hsum]
      exact ⟨⟨used', hpop.tree⟩, fun a hlo hhi => hk.mapped_grown haff hend hlo hhi⟩
  obtain ⟨growth, hkm, hserv, ⟨used', htree⟩, hmapped⟩ := hgrown
  obtain ⟨r, heq, hr⟩ := kmalloc_spec hk.inv hserv
  rw [hkm] at heq
  cases heq
  obtain ⟨-, L', -, hi'⟩ := hr.resolve_left fun hc => hp (congrArg Prod.fst hc)
  refine ⟨⟨hi'.size_le_blockBytes List.mem_cons_self, fun a hlo hhi => ?_⟩, used', L', hi', htree,
    hmapped⟩
  obtain ⟨b, _, n, hL, hlo', hhi', -⟩ := hi'.tile_of_live List.mem_cons_self
  have hin := hi'.tiling.inside b _ _ hL
  dsimp only at hlo' hhi' hin
  exact ⟨by omega, by omega, hmapped a (by omega) (by omega)⟩

theorem KernelHeap.Ok.noWrap_of_served (hk : k.Ok used pml4 L live) (hsize : size < 2 ^ 64)
    (hrun : kmallocOn pml4 k size = some (ptr, k')) (hp : ptr ≠ 0)
    (hs : Served pml4 k' ptr size) : NoWrap size := by
  by_contra hwrap
  have hps : pageSize = 4096 := rfl
  have hhdr : largeHdrSize = 32 := rfl
  unfold NoWrap at hwrap
  have htotal : alignUp (size + largeHdrSize) pageSize ≤ 4096 := by
    rw [alignUp, alignDown, hps, hhdr]
    omega
  obtain ⟨growth, hkm⟩ : ∃ growth, kmalloc k.heap size growth = some (ptr, k'.heap) := by
    obtain ⟨-, -, heq⟩ | ⟨count, -, -, heq⟩ := kmallocOn_eq_some hrun
    · exact ⟨_, heq⟩
    · exact ⟨_, heq⟩
  have hlarge : largeThreshold < size := by
    have hthr : largeThreshold = 2048 := rfl
    omega
  rw [kmalloc, if_neg (by omega), if_neg fun hc => absurd hc.1 (Nat.not_le.mpr hlarge)] at hkm
  obtain ⟨b, rfl, hb, hmagic, hlt⟩ := hk.inv.largeAlloc_size_lt (by omega) hkm hp
  have hfits := hs.fits
  have hdown : alignDown (b + largeHdrSize) pageSize = b :=
    alignDown_object hb (Nat.le_add_right _ _) (by omega)
  rw [blockBytes, hdown, hmagic, if_neg (by decide), Nat.add_sub_cancel] at hfits
  omega

theorem KernelHeap.Ok.affordable_of_served (hk : k.Ok used pml4 L live) (hno : NoWrap size)
    (hrun : kmallocOn pml4 k size = some (ptr, k')) (hp : ptr ≠ 0)
    (hs : Served pml4 k' ptr size) (hpages : kmallocPages k.heap size = some count) :
    Affordable pml4 (BitVec.ofNat 64 k.heap.heapCursor) count k.phys := by
  obtain ⟨hnone, -⟩ | ⟨n, hpages', hphys, heq⟩ := kmallocOn_eq_some hrun
  · rw [hnone] at hpages
    cases hpages
  rw [hpages] at hpages'
  cases hpages'
  have hc := hk.cursor_ne_zero
  have hpos : 0 < size := by
    refine Nat.pos_of_ne_zero fun hz => ?_
    rw [kmallocPages, if_pos hz] at hpages
    cases hpages
  obtain ⟨hpast, hgrow, hcur, hle, hkind⟩ := (kmalloc_grows hc heq).of_some hpages hp
  rw [growPages_of_room hpast] at hgrow hphys
  have hloop : (allocRangeLoop pml4 heapFlags count (BitVec.ofNat 64 k.heap.heapCursor)
      k.phys).1 = true := by
    by_contra hfalse
    exact hgrow (if_neg hfalse)
  have hcount := (hk.tree.le_free_of_loop hloop).trans (card_clearFrames_le _)
  obtain ⟨hsum, hend⟩ := hk.le_heapEnd hcount hpast
  rw [hsum] at hcur
  by_contra hna
  obtain ⟨v, hv, hzero⟩ := hk.tree.unmapped_of_not_affordable hloop hna
  obtain ⟨i, hi, rfl⟩ := mem_pagesFrom.mp hv
  -- the first byte of the block in the page
  obtain ⟨a, hlo, hhi, hpage⟩ : ∃ a, ptr ≤ a ∧ a < ptr + size ∧
      a / 4096 = (k.heap.heapCursor + i * pageSize) / 4096 := by
    obtain ⟨c, hc4⟩ := hk.inv.cursor.2.2
    have hfirst := (hs.backed ptr (Nat.le_refl _) (by omega)).2.1
    have hhdr : largeHdrSize = 32 := rfl
    obtain ⟨rfl, -⟩ | ⟨rfl, hcnt⟩ := hkind
    · refine ⟨ptr, Nat.le_refl _, by omega, ?_⟩
      rw [hcur] at hfirst
      rw [pageSize_eq] at *
      omega
    · have htotal := alignUp_lt (show 0 < pageSize by decide) hno
      have hle4 := Nat.div_mul_le_self (alignUp (size + largeHdrSize) pageSize) pageSize
      rw [← hcnt] at hle4
      rw [pageSize_eq] at *
      by_cases hi0 : i = 0
      · exact ⟨_, Nat.le_refl _, by omega, by omega⟩
      · exact ⟨k.heap.heapCursor + i * 4096, by omega, by omega, rfl⟩
  obtain ⟨hbase, hacur, hne⟩ := hs.backed a hlo hhi
  rw [hphys] at hne
  refine hne (hzero _ ?_)
  have hin : k.heap.heapCursor + i * pageSize < heapEnd := by
    rw [pageSize_eq] at *
    omega
  have hcur0 := hk.inv.cursor.1
  rw [← BitVec.ofNat_add, pageNumber_heap_inj hbase (by omega) (by omega) hin]
  exact hpage

/-- **What stands behind a pointer.** When `kmalloc` returns one, there are as many bytes
behind it as were asked for, in mapped pages of the heap, exactly if the size does not wrap
round and, where the heap had to grow, there were frames for the new pages and for the tables on
their way. -/
theorem served_iff (hk : k.Ok used pml4 L live) (hsize : size < 2 ^ 64)
    (hrun : kmallocOn pml4 k size = some (ptr, k')) (hp : ptr ≠ 0) :
    Served pml4 k' ptr size ↔ NoWrap size ∧ ∀ count, kmallocPages k.heap size = some count →
      Affordable pml4 (BitVec.ofNat 64 k.heap.heapCursor) count k.phys := by
  constructor
  · intro hs
    have hno := hk.noWrap_of_served hsize hrun hp hs
    exact ⟨hno, fun count hpages => hk.affordable_of_served hno hrun hp hs hpages⟩
  · rintro ⟨hno, haff⟩
    exact (hk.serve hno haff hrun hp).1

/-- `heap_init` has run on a machine with an empty PML4 and 16 frames. -/
def bootedHeap : KernelHeap where
  heap := heapInit zeros (some zeros)
  phys := (allocRangeLoop 0x200000 heapFlags 4 (BitVec.ofNat 64 heapVirtBase) (emptyMachine 16)).2

theorem ok_bootedHeap : ∃ used L, bootedHeap.Ok used 0x200000 L [] := by
  obtain ⟨L, hi⟩ := heapInv_heapInit zeros zeros
  have htree := @treeOk_emptyMachine 16 (by decide)
  obtain ⟨used, hpop⟩ := htree.populates_range heapFlags (BitVec.ofNat 64 heapVirtBase) 4
  refine ⟨used, L, by dsimp only [bootedHeap]; exact hi,
    by dsimp only [bootedHeap]; exact hpop.tree, fun a hlo hhi => ?_⟩
  have hcur : bootedHeap.heap.heapCursor = heapVirtBase + 4 * pageSize := by decide +kernel
  have hend : heapVirtBase + 4 * pageSize ≤ heapEnd := by decide
  dsimp only [bootedHeap]
  refine htree.translate_of_affordable heapFlags_present heapFlags_mask ?_
    ((mem_heapPages_iff hlo (hhi.trans_le hend) (Nat.le_refl _) (by decide) hend).mpr ⟨hlo, hhi⟩)
  have hthree := card_missingTables_le_three (emptyMachine 16).mem 0x200000
    (pagesFrom (BitVec.ofNat 64 heapVirtBase) 4)
  rw [length_pagesFrom] at hthree
  rw [Affordable, card_clearFrames_emptyMachine (by decide)]
  omega

theorem kmallocOn_of_none {pml4 size : Nat} {k : KernelHeap} {r : Nat × Heap}
    (hp : kmallocPages k.heap size = none) (hr : kmalloc k.heap size none = some r) :
    kmallocOn pml4 k size = some (r.1, ⟨r.2, k.phys⟩) := by
  unfold kmallocOn
  rw [hp]
  rw [hr]
  rfl

theorem served_kmalloc :
    ∃ k', kmallocOn 0x200000 bootedHeap 5000 = some (heapVirtBase + 32, k') ∧
      Served 0x200000 k' (heapVirtBase + 32) 5000 := by
  obtain ⟨used, L, hk⟩ := ok_bootedHeap
  have hpages : kmallocPages bootedHeap.heap 5000 = none := by decide +kernel
  have hany : (kmalloc bootedHeap.heap 5000 none).any
      (fun r => r.1 = heapVirtBase + 32) = true := by
    decide +kernel
  obtain ⟨⟨ptr, h'⟩, hr, hdec⟩ := (Option.any_eq_true _ _).mp hany
  obtain rfl : ptr = heapVirtBase + 32 := of_decide_eq_true hdec
  have hrun := @kmallocOn_of_none 0x200000 5000 bootedHeap _ hpages hr
  have hne : heapVirtBase + 32 ≠ 0 := by decide
  refine ⟨_, hrun, (served_iff hk (by decide) hrun hne).mpr ⟨?_, fun count hc => ?_⟩⟩
  · unfold NoWrap
    decide
  · cases hc

/-- **A block without bytes.** For `2^64 - 32` bytes the sum with the header is zero: the span
of `heap_init` is handed out, cut to nothing. -/
theorem kmalloc_empty_block :
    (∃ used L, bootedHeap.Ok used 0x200000 L []) ∧
      ∃ k', kmallocOn 0x200000 bootedHeap (2 ^ 64 - 32) = some (heapVirtBase + 32, k') ∧
        blockBytes k'.heap.mem (heapVirtBase + 32) = 0 ∧
        ¬ Served 0x200000 k' (heapVirtBase + 32) (2 ^ 64 - 32) := by
  have hpages : kmallocPages bootedHeap.heap (2 ^ 64 - 32) = none := by decide +kernel
  have hany : (kmalloc bootedHeap.heap (2 ^ 64 - 32) none).any (fun r =>
      r.1 = heapVirtBase + 32 ∧ blockBytes r.2.mem (heapVirtBase + 32) = 0) = true := by
    decide +kernel
  obtain ⟨⟨ptr, h'⟩, hr, hdec⟩ := (Option.any_eq_true _ _).mp hany
  obtain ⟨rfl, hzero⟩ := of_decide_eq_true hdec
  have hrun := @kmallocOn_of_none 0x200000 (2 ^ 64 - 32) bootedHeap _ hpages hr
  refine ⟨ok_bootedHeap, _, hrun, hzero, fun hs => ?_⟩
  have hfits := hs.fits
  rw [hzero] at hfits
  exact absurd hfits (by decide)

end DevOs
