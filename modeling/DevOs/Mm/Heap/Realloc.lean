import DevOs.Mm.Heap.History

/-!
`krealloc` of a live pointer.
-/

namespace DevOs

open ByteMem Machine

def KeepsBytes (h h' : Heap) (y : Live) : Prop :=
  ∀ a, y.ptr ≤ a → a < y.ptr + y.size → h'.mem a = h.mem a

/-- What `krealloc` of the live pointer `x` may come to: null, with all live blocks as they
were; or a block of the new size that begins with the old bytes, with all other live blocks as
they were and `x` gone, unless it is the block returned. -/
inductive Resized (s : HeapState) (x : Live) (size : Nat) : Nat × Heap → Prop
  | failed {h' : Heap} {L : HeapLayout} : HeapSafe ⟨h', s.live⟩ L →
      (∀ y ∈ s.live, KeepsBytes s.heap h' y) → Resized s x size (0, h')
  | moved {ptr : Nat} {tier : Tier} {h' : Heap} {live : List Live} {L : HeapLayout} : ptr ≠ 0 →
      HeapSafe ⟨h', live⟩ L → ⟨ptr, size, tier⟩ ∈ live →
      (ptr ≠ x.ptr → ∀ y ∈ live, y.ptr ≠ x.ptr) →
      (∀ i < min size x.size, h'.mem (ptr + i) = s.heap.mem (x.ptr + i)) →
      (∀ y ∈ s.live, y.ptr ≠ x.ptr → y ∈ live ∧ KeepsBytes s.heap h' y) →
      Resized s x size (ptr, h')

/-- `krealloc` of any live pointer, to any size that the heap can have. -/
def ReallocSound (s : HeapState) : Prop :=
  ∀ x ∈ s.live, ∀ size, 0 < size → size ≤ heapMaxSize → ∀ growth,
    ∃ r, krealloc s.heap x.ptr size growth = some r ∧ Resized s x size r

theorem mem_reallocLive {live : List Live} {x y : Live} {size ptr : Nat} (hz : size ≠ 0)
    (hp : ptr ≠ 0) (hy : y ∈ live) (hyx : y.ptr ≠ x.ptr) : y ∈ reallocLive live x.ptr size ptr := by
  unfold reallocLive
  rw [if_neg hz, if_neg hp]
  split
  · refine List.mem_map.mpr ⟨y, hy, ?_⟩
    unfold resize
    rw [if_neg hyx]
  · exact List.mem_cons_of_mem _ (List.mem_filter.mpr ⟨hy, decide_eq_true hyx⟩)

theorem HeapInv.reallocSound {s : HeapState} {L : HeapLayout} (hi : HeapInv s.heap L s.live []) :
    ReallocSound s := by
  intro x hx size hpos hmax growth
  have hz : size ≠ 0 := Nat.ne_zero_of_lt hpos
  obtain ⟨⟨ptr, h'⟩, heq, hr⟩ := krealloc_spec hi hx (servable_of_le hmax growth)
  obtain ⟨L', -, hi'⟩ := hr.inv
  dsimp only at hi'
  refine ⟨_, heq, ?_⟩
  by_cases hp : ptr = 0
  · subst hp
    have hx0 := hi.ptr_pos hx
    rw [reallocLive, if_neg hz, if_neg (Ne.symm hx0), if_pos rfl] at hi'
    have hsame := hr.failed rfl hz
    dsimp only at hsame
    subst hsame
    exact .failed hi.safe fun _ _ _ _ _ => rfl
  · have hsafe := HeapInv.safe (s := ⟨h', reallocLive s.live x.ptr size ptr⟩) hi'
    have hnew : ∃ tier, (⟨ptr, size, tier⟩ : Live) ∈ reallocLive s.live x.ptr size ptr := by
      unfold reallocLive
      rw [if_neg hz, if_neg hp]
      split
      · next hpx =>
          refine ⟨x.tier, List.mem_map.mpr ⟨x, hx, ?_⟩⟩
          unfold DevOs.resize
          rw [if_pos rfl, hpx]
      · exact ⟨_, List.mem_cons_self⟩
    obtain ⟨tier, hnew⟩ := hnew
    refine .moved hp hsafe hnew (fun hpx y hy => ?_) (hr.copied hp) fun y hy hyx =>
      ⟨mem_reallocLive hz hp hy hyx, hr.others y hy hyx⟩
    rw [reallocLive, if_neg hz, if_neg hpx, if_neg hp] at hy
    obtain rfl | hy := List.mem_cons.mp hy
    · exact hpx
    · exact of_decide_eq_true (List.mem_filter.mp hy).2

/-- **`krealloc` does its job** along every history of calls whose sizes do not wrap round. -/
theorem reallocSound_of_calls (m fresh : Mem) (ops : List HeapOp)
    (hcalls : Steps historyStep (fun s op => op.Called s ∧ op.Fits) (historyInit m fresh)
      ops) :
    Always historyStep (fun s => ReallocSound s.toHeapState) (historyInit m fresh) ops := by
  refine ok_of_calls (fun s hs => ?_) m fresh ops hcalls
  obtain ⟨L, hi, -⟩ := hs
  exact hi.reallocSound

theorem reallocSound_two_classes :
    Steps historyStep (fun s op => op.Called s ∧ op.Fits) (historyInit zeros zeros)
        [.kmalloc 24 (some zeros), .krealloc (heapVirtBase + 0x4040) 40 (some zeros)] ∧
      Always historyStep (fun s => ReallocSound s.toHeapState) (historyInit zeros zeros)
        [.kmalloc 24 (some zeros), .krealloc (heapVirtBase + 0x4040) 40 (some zeros)] := by
  have hlive : (historyStep (historyInit zeros zeros) (.kmalloc 24 (some zeros))).any
      (fun s => s.live.any fun x => x.ptr = heapVirtBase + 0x4040) = true := by decide +kernel
  refine ⟨?calls, reallocSound_of_calls zeros zeros _ ?calls⟩
  refine fun s1 h1 => ⟨⟨⟨by decide, fun _ => by decide⟩, by unfold HeapOp.Fits NoWrap; decide⟩,
    fun s2 _ => ⟨⟨⟨by decide, fun _ => by decide, .inr ?_⟩, by unfold HeapOp.Fits NoWrap; decide⟩,
      trivial⟩⟩
  rw [h1] at hlive
  simpa using hlive

theorem bestFit_of_cycle {m : Mem} {total hdr : Nat} (hz : hdr ≠ 0)
    (hnext : largeNext m hdr = hdr) : ∀ fuel best, bestFit m total fuel hdr best = none
  | 0, _ => rfl
  | fuel + 1, best => by
    rw [bestFit, if_neg hz, hnext]
    exact bestFit_of_cycle hz hnext fuel _

/-- A block of `2^64 - 32` bytes is allocated and freed. -/
def freedHuge : List HeapOp :=
  [.kmalloc 16 (some zeros), .kmalloc (2 ^ 64 - 32) none, .kfree (heapVirtBase + 0x20)]

/-- **`krealloc` never returns.** The block of `2^64 - 32` bytes is the free span itself,
which stays on the free list while it is allocated; `kfree` then makes it its own successor. -/
theorem krealloc_never_returns :
    Steps historyStep (fun s op => op.Called s) (historyInit zeros zeros) freedHuge ∧
      ∃ s, freedHuge.foldlM historyStep (historyInit zeros zeros) = some s ∧
        ⟨heapVirtBase + 0x4040, 16, .slab⟩ ∈ s.live ∧
        (∀ fuel, bestFit s.heap.mem 0x2000 fuel s.heap.largeFreeList 0 = none) ∧
        (∀ growth, krealloc s.heap (heapVirtBase + 0x4040) 5000 growth = none) ∧
        ¬ ReallocSound s.toHeapState := by
  have hlive : ((historyStep (historyInit zeros zeros) (.kmalloc 16 (some zeros))).bind fun s =>
      historyStep s (.kmalloc (2 ^ 64 - 32) none)).any
      (fun s => s.live.any fun x => x.ptr = heapVirtBase + 0x20) = true := by decide +kernel
  have hend : (freedHuge.foldlM historyStep (historyInit zeros zeros)).any (fun s =>
      ⟨heapVirtBase + 0x4040, 16, .slab⟩ ∈ s.live ∧ s.heap.largeFreeList = heapVirtBase ∧
        largeNext s.heap.mem heapVirtBase = heapVirtBase ∧
        usableSize s.heap.mem (heapVirtBase + 0x4040) = 16) = true := by decide +kernel
  refine ⟨fun s1 h1 => ⟨⟨by decide, fun _ => by decide⟩, fun s2 h2 => ⟨⟨by decide, fun _ => by
    decide⟩, fun s3 h3 => ⟨.inr (.inl ?_), trivial⟩⟩⟩, ?_⟩
  · rw [h1, Option.bind_some, h2] at hlive
    simpa using hlive
  · obtain ⟨s, hs, hdec⟩ := (Option.any_eq_true _ _).mp hend
    obtain ⟨hp, hhead, hnext, husable⟩ := of_decide_eq_true hdec
    have hfit : ∀ fuel, bestFit s.heap.mem 0x2000 fuel s.heap.largeFreeList 0 = none := by
      rw [hhead]
      exact fun fuel => bestFit_of_cycle (by decide) hnext fuel 0
    have hnone : ∀ growth, krealloc s.heap (heapVirtBase + 0x4040) 5000 growth = none := by
      intro growth
      have htotal : alignUp (5000 + largeHdrSize) pageSize = 0x2000 := by decide
      have hlarge : kmalloc s.heap 5000 growth = none := by
        rw [kmalloc, if_neg (by decide), if_neg (by decide), largeAlloc, htotal, hfit]
      rw [krealloc, if_neg (by decide), if_neg (by decide), husable, if_neg (by decide), hlarge]
    refine ⟨s, hs, hp, hfit, hnone, fun hsound => ?_⟩
    obtain ⟨r, heq, -⟩ := hsound _ hp 5000 (by decide) (by decide) none
    rw [hnone] at heq
    cases heq

end DevOs
