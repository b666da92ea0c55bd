import DevOs.Lib.Run
import DevOs.Mm.Heap.Run

/-!
The heap over a whole history of calls, for requests of any 64-bit size, in which
`kfree` may be given a slab pointer again.
-/

namespace DevOs

open ByteMem Intrusive Machine

/-- The heap, its live pointers, and the slab pointers that have been freed and not handed
out since. -/
structure HeapHistory extends HeapState where
  freed : List Nat

def HeapHistory.after (s : HeapHistory) (t : HeapState) : HeapHistory where
  toHeapState := t
  freed := ((s.live.filter fun x => x.tier = .slab).map Live.ptr ++ s.freed).filter
    fun p => ∀ x ∈ t.live, x.ptr ≠ p

/-- One call; `none` is a call that does not return. -/
def historyStep (s : HeapHistory) (op : HeapOp) : Option HeapHistory :=
  (heapStep s.toHeapState op).map s.after

/-- `heap_init` has run, with its four pages mapped. -/
def historyInit (m fresh : Mem) : HeapHistory := ⟨⟨heapInit m (some fresh), []⟩, []⟩

/-- A mapping that `large_alloc` may ask for succeeds only if there are frames enough. -/
def Mappable (size : Nat) (growth : Option Mem) : Prop :=
  growth ≠ none → alignUp (size + largeHdrSize) pageSize / pageSize ≤ pmmMaxFrames

/-- The calls that are made: of any size, for null and live pointers, and `kfree` again for
slab pointers that have been freed. Between calls, owners write into the ranges they hold. -/
def HeapOp.Called (s : HeapHistory) : HeapOp → Prop
  | .kmalloc size growth | .kzalloc size growth => size < 2 ^ 64 ∧ Mappable size growth
  | .krealloc ptr size growth =>
    size < 2 ^ 64 ∧ Mappable size growth ∧ (ptr = 0 ∨ ∃ x ∈ s.live, x.ptr = ptr)
  | .kfree ptr => ptr = 0 ∨ (∃ x ∈ s.live, x.ptr = ptr) ∨ ptr ∈ s.freed
  | .write x m => x ∈ s.live ∧ ∀ a, a < x.ptr ∨ x.ptr + x.size ≤ a → m a = s.heap.mem a

def NoWrap (size : Nat) : Prop := size + largeHdrSize + (pageSize - 1) < 2 ^ 64

def HeapOp.Fits : HeapOp → Prop
  | .kmalloc size _ | .kzalloc size _ | .krealloc _ size _ => NoWrap size
  | .kfree _ | .write _ _ => True

variable {p : Nat} {s : HeapHistory} {op : HeapOp}

theorem IsObject.mono {L L' : HeapLayout} (h : SlabsKept L L') (hp : IsObject L p) :
    IsObject L' p := by
  obtain ⟨sp, o, n, idx, hL, hrest⟩ := hp
  exact ⟨sp, o, n, idx, h sp o n hL, hrest⟩

def HeapHistory.Ok (s : HeapHistory) : Prop :=
  ∃ L, HeapInv s.heap L s.live [] ∧ ∀ p ∈ s.freed, IsObject L p

theorem ok_historyInit (m fresh : Mem) : (historyInit m fresh).Ok := by
  obtain ⟨L, hi⟩ := heapInv_heapInit m fresh
  refine ⟨L, ?_, fun p hp => absurd hp List.not_mem_nil⟩
  dsimp only [historyInit]
  exact hi

theorem HeapOp.Called.proper {L : HeapLayout}
    (hc : op.Called s) (hf : op.Fits) (hfreed : ∀ p ∈ s.freed, IsObject L p) :
    op.Proper L s.toHeapState := by
  cases op with
  | kmalloc size growth => exact ⟨hf, hc.2⟩
  | kzalloc size growth => exact ⟨hf, hc.2⟩
  | krealloc ptr size growth => exact ⟨⟨hf, hc.2.1⟩, hc.2.2⟩
  | kfree ptr => exact hc.imp_right (Or.imp_right (hfreed ptr))
  | write x m => exact hc

theorem HeapHistory.Ok.step (h : s.Ok) (hc : op.Called s)
    (hf : op.Fits) : ∃ s', historyStep s op = some s' ∧ s'.Ok := by
  obtain ⟨L, hi, hfreed⟩ := h
  obtain ⟨t, heq, L', hslabs, hi'⟩ := heapStep_spec hi (hc.proper hf hfreed)
  refine ⟨s.after t, by rw [historyStep, heq]; rfl, L', hi', fun p hp => ?_⟩
  -- a pointer that was live is an object because it was placed in a page
  obtain hlive | hold := List.mem_append.mp (List.mem_of_mem_filter hp)
  · obtain ⟨x, hx, rfl⟩ := List.mem_map.mp hlive
    obtain ⟨hx, htier⟩ := List.mem_filter.mp hx
    obtain ⟨sp, o, idx, hL, -, hidx, hptr, -⟩ := hi.slab_placed hx (of_decide_eq_true htier)
    exact IsObject.mono hslabs ⟨sp, o, _, idx, hL, hidx, hptr⟩
  · exact (hfreed p hold).mono hslabs

theorem ok_of_calls {P : HeapHistory → Prop} (hP : ∀ s : HeapHistory, s.Ok → P s) (m fresh : Mem)
    (ops : List HeapOp)
    (hcalls : Steps historyStep (fun s op => op.Called s ∧ op.Fits) (historyInit m fresh)
      ops) : Always historyStep P (historyInit m fresh) ops := by
  refine always_of_steps hP (fun s op s' h hc hs => ?_) ops (ok_historyInit m fresh) hcalls
  obtain ⟨t, ht, hok⟩ := h.step hc.1 hc.2
  rw [hs] at ht
  cases ht
  exact hok

/-- The fields of a slab page agree: `free_count` counts the clear bits below the capacity,
the bits from there on are clear, `first_free` is an index, and the objects lie between the
bitmap and the end of the page. -/
structure SlabPageOk (m : Mem) (sp : Nat) : Prop where
  free : slabFreeCount m sp = (Bitmap.clearBits (slabBitmap m sp) (slabCapacity m sp)).card
  high : ∀ i, slabCapacity m sp ≤ i → i < bitmapWordsFor (slabCapacity m sp) * 64 →
    Bitmap.test (slabBitmap m sp) i = false
  hint : slabFirstFree m sp < slabCapacity m sp
  inside : ∀ idx < slabCapacity m sp,
    sp + slabHdrSize + 8 * bitmapWordsFor (slabCapacity m sp) ≤ slabObject m sp idx ∧
      slabObject m sp idx + slabObjSize m sp ≤ sp + pageSize

/-- All pages of all classes are in order, and `slab_alloc` finds a slot wherever one is
counted, hands out only objects clear of the live ranges, and fails only with
`heap_map_pages(1)`. -/
structure SlabsSound (s : HeapState) : Prop where
  pages : ∀ o, IsOrder o → ∃ l,
    Path (nextSlab s.heap.mem) (toPtr (s.heap.slabClasses (o - slabMinOrder))) l ∧
      ∀ sp ∈ l, SlabPageOk s.heap.mem sp ∧
        (slabFreeCount s.heap.mem sp ≠ 0 → (slabTake s.heap sp).1 ≠ 0)
  alloc : ∀ o, IsOrder o → ∀ growth, ∃ r, slabAlloc s.heap o growth = some r ∧
    (r.1 = 0 → (heapMapPages s.heap 1 growth).1 = 0) ∧
    (r.1 ≠ 0 → ∀ x ∈ s.live, x.ptr + x.size ≤ r.1 ∨ r.1 + 2 ^ o ≤ x.ptr)

variable {h : Heap} {L : HeapLayout} {live : List Live} {sp o n : Nat}

theorem HeapInv.slabPageOk (hi : HeapInv h L live []) (hL : L sp = some (.slab o, n)) :
    SlabPageOk h.mem sp := by
  obtain ⟨-, ho⟩ := hi.slabs sp o n hL
  have hh := hi.header sp _ hL List.not_mem_nil
  have hcount := hi.counts sp o n hL
  have hg := slab_geometry ho
  refine ⟨?_, ?_, ?_, fun idx hidx => ?_⟩
  · rw [hh.2.2]
    exact hcount.free
  · rw [hh.2.2]
    exact hcount.high
  · rw [hh.2.2]
    exact hcount.hint
  · rw [hh.2.2] at hidx
    have hr := @objectAt_range sp o idx ho hidx
    rw [slabObject_eq hh, hh.2.1, hh.2.2]
    omega

theorem HeapInv.slabsSound {s : HeapState} (hi : HeapInv s.heap L s.live []) : SlabsSound s := by
  refine ⟨fun o ho => ?_, fun o ho growth => ?_⟩
  · obtain ⟨l, hp, -, hmem⟩ := hi.classes o ho
    refine ⟨l, hp, fun sp hsp => ?_⟩
    obtain ⟨n, hL⟩ := (hmem sp).mp hsp
    refine ⟨hi.slabPageOk hL, fun hfree => ?_⟩
    obtain ⟨idx, m', htake, -, -, hi'⟩ :=
      slabTake_spec hi hL Nat.one_pos (Nat.two_pow_pos o) hfree
    rw [htake]
    exact hi'.ptr_pos List.mem_cons_self
  · obtain ⟨r, heq, hr⟩ := slabAlloc_spec hi ho (Nat.two_pow_pos o) (Nat.le_refl _) growth
    refine ⟨r, heq, fun hz => ?_, fun hne x hx => ?_⟩
    · cases hr with
      | refused hfull hmap => exact hmap
      | served hL hidx hleave hi' => exact absurd hz (hi'.ptr_pos List.mem_cons_self)
    · cases hr with
      | refused => exact absurd rfl hne
      | served hL hidx hleave hi' =>
        have hnd := hi'.distinct
        rw [List.map_cons, List.nodup_cons] at hnd
        refine hi'.live_disjoint (List.mem_cons_of_mem _ hx) List.mem_cons_self fun hc => ?_
        exact hnd.1 (List.mem_map.mpr ⟨x, hx, hc⟩)

/-- **The slab pages stay in order** along every history of calls whose sizes do not wrap
round. -/
theorem slabsSound_of_calls (m fresh : Mem) (ops : List HeapOp)
    (hcalls : Steps historyStep (fun s op => op.Called s ∧ op.Fits) (historyInit m fresh)
      ops) :
    Always historyStep (fun s => SlabsSound s.toHeapState) (historyInit m fresh) ops := by
  refine ok_of_calls (fun s hs => ?_) m fresh ops hcalls
  obtain ⟨L, hi, -⟩ := hs
  exact hi.slabsSound

abbrev zeros : Mem := fun _ => 0

theorem slabsSound_freed_twice :
    Steps historyStep (fun s op => op.Called s ∧ op.Fits) (historyInit zeros zeros)
        [.kmalloc 24 (some zeros), .kfree (heapVirtBase + 0x4040), .kfree (heapVirtBase + 0x4040)] ∧
      Always historyStep (fun s => SlabsSound s.toHeapState) (historyInit zeros zeros)
        [.kmalloc 24 (some zeros), .kfree (heapVirtBase + 0x4040),
          .kfree (heapVirtBase + 0x4040)] := by
  have hlive : (historyStep (historyInit zeros zeros) (.kmalloc 24 (some zeros))).any
      (fun s => s.live.any fun x => x.ptr = heapVirtBase + 0x4040) = true := by decide +kernel
  have hfreed : ((historyStep (historyInit zeros zeros) (.kmalloc 24 (some zeros))).bind
      fun s => historyStep s (.kfree (heapVirtBase + 0x4040))).any
      (fun s => heapVirtBase + 0x4040 ∈ s.freed) = true := by decide +kernel
  refine ⟨?calls, slabsSound_of_calls zeros zeros _ ?calls⟩
  refine fun s1 h1 => ⟨⟨⟨by decide, fun _ => by decide⟩, by unfold HeapOp.Fits NoWrap; decide⟩,
    fun s2 h2 => ⟨⟨.inr (.inl ?_), trivial⟩, fun s3 _ => ⟨⟨.inr (.inr ?_), trivial⟩, trivial⟩⟩⟩
  · rw [h1] at hlive
    simpa using hlive
  · rw [h1, Option.bind_some, h2] at hfreed
    simpa using hfreed

/-- The only span is taken, a request for three pages fails, and the page behind the cursor
that it leaves mapped serves a request for `2^64 - 32` bytes, for which no page is mapped. -/
def wrappingCalls : List HeapOp :=
  [.kmalloc 16352 none, .kmalloc 12000 none, .kmalloc (2 ^ 64 - 32) (some zeros),
    .kfree (heapVirtBase + 0x4020), .kmalloc 16 (some zeros), .kmalloc (2 ^ 64 - 32) none]

/-- **A slab page is trampled on.** The empty span at the cursor is freed; the page that is
mapped next becomes a slab page, while it is on the free list. A second request for
`2^64 - 32` bytes then takes it from there and sets its capacity to zero. -/
theorem slabPage_trampled :
    Steps historyStep (fun s op => op.Called s) (historyInit zeros zeros)
        wrappingCalls ∧
      ∃ s, wrappingCalls.foldlM historyStep (historyInit zeros zeros) = some s ∧
        ¬ SlabsSound s.toHeapState := by
  have hlive : (((historyStep (historyInit zeros zeros) (.kmalloc 16352 none)).bind fun s =>
      historyStep s (.kmalloc 12000 none)).bind fun s =>
      historyStep s (.kmalloc (2 ^ 64 - 32) (some zeros))).any
      (fun s => s.live.any fun x => x.ptr = heapVirtBase + 0x4020) = true := by decide +kernel
  have hend : (wrappingCalls.foldlM historyStep (historyInit zeros zeros)).any (fun s =>
      s.heap.slabClasses 0 = heapVirtBase + 0x4000 ∧
        slabCapacity s.heap.mem (heapVirtBase + 0x4000) = 0) = true := by decide +kernel
  refine ⟨fun s1 h1 => ⟨⟨by decide, fun _ => by decide⟩, fun s2 h2 => ⟨⟨by decide, fun _ => by
    decide⟩, fun s3 h3 => ⟨⟨by decide, fun _ => by decide⟩, fun s4 h4 => ⟨.inr (.inl ?_),
    fun s5 h5 => ⟨⟨by decide, fun _ => by decide⟩, fun s6 h6 => ⟨⟨by decide, fun _ => by decide⟩,
    trivial⟩⟩⟩⟩⟩⟩, ?_⟩
  · rw [h1, Option.bind_some, h2, Option.bind_some, h3] at hlive
    simpa using hlive
  · obtain ⟨s, hs, hdec⟩ := (Option.any_eq_true _ _).mp hend
    obtain ⟨hhead, hcap⟩ := of_decide_eq_true hdec
    refine ⟨s, hs, fun hsound => ?_⟩
    obtain ⟨l, hp, hl⟩ := hsound.pages 4 (by unfold IsOrder; decide)
    rw [show s.heap.slabClasses (4 - slabMinOrder) = heapVirtBase + 0x4000 from hhead,
      toPtr_of_ne (by decide)] at hp
    have hpage := hl _ (List.mem_of_mem_head? hp.head.symm)
    have hhint := hpage.1.hint
    rw [hcap] at hhint
    exact absurd hhint (Nat.not_lt_zero _)

def GivenUp (L : HeapLayout) (live : List Live) (p : Nat) : Prop :=
  (∀ x ∈ live, x.ptr ≠ p) ∧ (IsObject L p ∨ ∃ b n, L b = some (.free, n) ∧ p = b + largeHdrSize)

theorem kfree_of_givenUp {h : Heap} {L : HeapLayout} {live : List Live}
    (hi : HeapInv h L live []) (hp : GivenUp L live p) : kfree h p = h := by
  obtain ⟨hstale, hobj | ⟨b, n, hL, rfl⟩⟩ := hp
  · exact kfree_of_stale hi hobj hstale
  · have hb := hi.base_pos hL
    rw [kfree_eq (by omega) (slabFree_of_span hi hL (by simp)), if_neg Bool.false_ne_true]
    exact largeFree_of_free hi hL

theorem HeapInv.givenUp {h : Heap} {L : HeapLayout} {live : List Live} {x : Live}
    (hi : HeapInv h L live []) (hx : x ∈ live) :
    GivenUp (freedLayout L x) (live.filter fun y => y.ptr ≠ x.ptr) x.ptr := by
  refine ⟨fun y hy => of_decide_eq_true (List.mem_filter.mp hy).2, ?_⟩
  unfold freedLayout
  cases htier : x.tier with
  | slab =>
    obtain ⟨sp, o, idx, hL, -, hidx, hptr, -⟩ := hi.slab_placed hx htier
    exact .inl ⟨sp, o, _, idx, hL, hidx, hptr⟩
  | large =>
    obtain ⟨b, n, hL, hptr, -⟩ := hi.large_placed hx htier
    refine .inr ⟨b, n, ?_, hptr⟩
    dsimp only
    rw [if_pos (by omega), hL]
    rfl

theorem GivenUp.freed {h : Heap} {L : HeapLayout} {live : List Live} {y : Live}
    (hi : HeapInv h L live []) (hp : GivenUp L live p) (hy : y ∈ live) :
    GivenUp (freedLayout L y) (live.filter fun z => z.ptr ≠ y.ptr) p := by
  refine ⟨fun z hz => hp.1 z (List.mem_of_mem_filter hz), hp.2.imp ?_ ?_⟩
  · exact IsObject.mono (kfree_spec hi hy).2.1.slabs
  · rintro ⟨b, n, hL, hptr⟩
    refine ⟨b, n, ?_, hptr⟩
    unfold freedLayout
    cases y.tier with
    | slab => exact hL
    | large =>
      dsimp only
      rw [hL]
      split <;> rfl

def kfreeAll (h : Heap) (ys : List Live) : Heap := ys.foldl (fun h y => kfree h y.ptr) h

theorem kfree_kfreeAll :
    ∀ {ys : List Live} {h : Heap} {L : HeapLayout} {live : List Live}, HeapInv h L live [] →
      GivenUp L live p → (∀ y ∈ ys, y ∈ live) → (ys.map Live.ptr).Nodup →
      kfree (kfreeAll h ys) p = kfreeAll h ys
  | [], _, _, _, hi, hp, _, _ => kfree_of_givenUp hi hp
  | y :: ys, h, L, live, hi, hp, hlive, hnd => by
    have hy := hlive y List.mem_cons_self
    rw [List.map_cons, List.nodup_cons] at hnd
    obtain ⟨-, -, hi'⟩ := kfree_spec hi hy
    rw [kfreeAll, List.foldl_cons]
    refine kfree_kfreeAll hi' (hp.freed hi hy) (fun z hz => ?_) hnd.2
    refine List.mem_filter.mpr ⟨hlive z (List.mem_cons_of_mem y hz), decide_eq_true fun hc => ?_⟩
    exact hnd.1 (List.mem_map.mpr ⟨z, hz, hc⟩)

/-- A pointer that has been freed can be freed again, also after others have been freed, and
nothing at all changes. -/
def FreesAgain (s : HeapState) : Prop :=
  ∀ x ∈ s.live, ∀ ys : List Live, (∀ y ∈ ys, y ∈ s.live ∧ y.ptr ≠ x.ptr) →
    (ys.map Live.ptr).Nodup →
    kfree (kfreeAll (kfree s.heap x.ptr) ys) x.ptr = kfreeAll (kfree s.heap x.ptr) ys

/-- **A second `kfree` does nothing.** -/
theorem freesAgain_of_calls (m fresh : Mem) (ops : List HeapOp)
    (hcalls : Steps historyStep (fun s op => op.Called s ∧ op.Fits) (historyInit m fresh)
      ops) :
    Always historyStep (fun s => FreesAgain s.toHeapState) (historyInit m fresh) ops := by
  refine ok_of_calls (fun s hs x hx ys hys hnd => ?_) m fresh ops hcalls
  obtain ⟨L, hi, -⟩ := hs
  obtain ⟨-, -, hi'⟩ := kfree_spec hi hx
  refine kfree_kfreeAll hi' (hi.givenUp hx) (fun y hy => ?_) hnd
  exact List.mem_filter.mpr ⟨(hys y hy).1, decide_eq_true (hys y hy).2⟩

theorem freesAgain_two_tiers :
    Steps historyStep (fun s op => op.Called s ∧ op.Fits) (historyInit zeros zeros)
        [.kmalloc 5000 none, .kmalloc 24 (some zeros)] ∧
      Always historyStep (fun s => FreesAgain s.toHeapState) (historyInit zeros zeros)
        [.kmalloc 5000 none, .kmalloc 24 (some zeros)] := by
  refine ⟨?calls, freesAgain_of_calls zeros zeros _ ?calls⟩
  exact fun _ _ => ⟨⟨⟨by decide, fun _ => by decide⟩, by unfold HeapOp.Fits NoWrap; decide⟩,
    fun _ _ => ⟨⟨⟨by decide, fun _ => by decide⟩, by unfold HeapOp.Fits NoWrap; decide⟩, trivial⟩⟩

/-- The owner of a block of `2^64 - 32` bytes, a free span at `0x4000` and an object at
`0x6040` of the heap. -/
def hugeOwner : List HeapOp :=
  [.kmalloc (2 ^ 64 - 32) none, .kmalloc 5000 (some zeros), .kfree (heapVirtBase + 0x4020),
    .kmalloc 16 (some zeros)]

def hugeOwnerState : HeapHistory :=
  (hugeOwner.foldlM historyStep (historyInit zeros zeros)).getD (historyInit zeros zeros)

def linkOverwritten : List HeapOp :=
  hugeOwner ++ [.write ⟨heapVirtBase + 0x20, 2 ^ 64 - 32, .large⟩
      (store 8 hugeOwnerState.heap.mem (heapVirtBase + 0x4010) (heapVirtBase + 0x6003)),
    .kmalloc 5000 none]

/-- **Freed twice, and freed indeed the second time.** The free list leads into the page of
the object: to take the span from it clears the object's bit, and to free the span sets it
again. So the first `kfree` of the object does nothing, and the second one frees it. -/
theorem freed_by_second_kfree :
    Steps historyStep (fun s op => op.Called s) (historyInit zeros zeros)
        linkOverwritten ∧
      ∃ s, linkOverwritten.foldlM historyStep (historyInit zeros zeros) = some s ∧
        ⟨heapVirtBase + 0x6040, 16, .slab⟩ ∈ s.live ∧
        ⟨heapVirtBase + 0x4020, 5000, .large⟩ ∈ s.live ∧
        slabFreeCount (kfree s.heap (heapVirtBase + 0x6040)).mem (heapVirtBase + 0x6000) = 251 ∧
        slabFreeCount (kfree (kfreeAll (kfree s.heap (heapVirtBase + 0x6040))
          [⟨heapVirtBase + 0x4020, 5000, .large⟩]) (heapVirtBase + 0x6040)).mem
          (heapVirtBase + 0x6000) = 252 ∧ ¬ FreesAgain s.toHeapState := by
  have hlive : ((historyStep (historyInit zeros zeros) (.kmalloc (2 ^ 64 - 32) none)).bind fun s =>
      historyStep s (.kmalloc 5000 (some zeros))).any
      (fun s => s.live.any fun x => x.ptr = heapVirtBase + 0x4020) = true := by decide +kernel
  have howner : (hugeOwner.foldlM historyStep (historyInit zeros zeros)).any
      (fun s => ⟨heapVirtBase + 0x20, 2 ^ 64 - 32, .large⟩ ∈ s.live) = true := by decide +kernel
  have hend : (linkOverwritten.foldlM historyStep (historyInit zeros zeros)).any (fun s =>
      ⟨heapVirtBase + 0x6040, 16, .slab⟩ ∈ s.live ∧
        ⟨heapVirtBase + 0x4020, 5000, .large⟩ ∈ s.live ∧
        slabFreeCount (kfree s.heap (heapVirtBase + 0x6040)).mem (heapVirtBase + 0x6000) = 251 ∧
        slabFreeCount (kfreeAll (kfree s.heap (heapVirtBase + 0x6040))
          [⟨heapVirtBase + 0x4020, 5000, .large⟩]).mem (heapVirtBase + 0x6000) = 251 ∧
        slabFreeCount (kfree (kfreeAll (kfree s.heap (heapVirtBase + 0x6040))
          [⟨heapVirtBase + 0x4020, 5000, .large⟩]) (heapVirtBase + 0x6040)).mem
          (heapVirtBase + 0x6000) = 252) = true := by decide +kernel
  refine ⟨fun s1 h1 => ⟨⟨by decide, fun _ => by decide⟩, fun s2 h2 => ⟨⟨by decide, fun _ => by
    decide⟩, fun s3 h3 => ⟨.inr (.inl ?_), fun s4 h4 => ⟨⟨by decide, fun _ => by decide⟩,
    fun s5 h5 => ⟨?_, fun s6 h6 => ⟨⟨by decide, fun _ => by decide⟩, trivial⟩⟩⟩⟩⟩⟩, ?_⟩
  · rw [h1, Option.bind_some, h2] at hlive
    simpa using hlive
  · have hs4 : hugeOwner.foldlM historyStep (historyInit zeros zeros) = some s4 := by
      simp only [hugeOwner, List.foldlM_cons, List.foldlM_nil, Option.bind_eq_bind, h1, h2, h3,
        h4, Option.bind_some, Option.pure_def]
    have hstate : hugeOwnerState = s4 := by
      rw [hugeOwnerState, hs4, Option.getD_some]
    rw [hs4] at howner
    refine ⟨of_decide_eq_true howner, fun a ha => ?_⟩
    have hoff : ∀ b : Nat, a < b + 0x20 ∨ b + 0x20 + (2 ^ 64 - 32) ≤ a →
        a < b + 0x4010 ∨ b + 0x4010 + 8 ≤ a := by omega
    rw [hstate]
    exact store_apply_of_disjoint (hoff _ ha)
  · obtain ⟨s, hs, hdec⟩ := (Option.any_eq_true _ _).mp hend
    obtain ⟨hp, hw, hfirst, hbefore, hafter⟩ := of_decide_eq_true hdec
    refine ⟨s, hs, hp, hw, hfirst, hafter, fun hagain => ?_⟩
    have hsame := hagain _ hp [⟨heapVirtBase + 0x4020, 5000, .large⟩]
      (fun y hy => by
        rw [List.mem_singleton.mp hy]
        exact ⟨hw, by decide⟩) (List.nodup_singleton _)
    rw [hsame, hbefore] at hafter
    cases hafter

end DevOs
