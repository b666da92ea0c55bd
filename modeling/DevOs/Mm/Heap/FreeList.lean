import DevOs.Lib.Run
import DevOs.Mm.Heap.Run

/-!
The large allocator on its own: runs of `large_alloc` and `large_free`.
-/

namespace DevOs

open ByteMem Intrusive Tiling Function Machine

/-- The heap and the pointers that `large_alloc` has returned. -/
structure LargeState where
  heap : Heap
  held : List Nat

inductive LargeOp where
  | alloc (size : Nat) (growth : Option Mem)
  | free (ptr : Nat)

def largeStep (s : LargeState) : LargeOp → Option LargeState
  | .alloc size growth => (largeAlloc s.heap size growth).map fun r =>
    ⟨r.2, if r.1 = 0 then s.held else r.1 :: s.held⟩
  | .free ptr => some ⟨largeFree s.heap ptr, s.held.filter (· ≠ ptr)⟩

/-- Requests are for at most `HEAP_MAX_SIZE`, and what is freed is held. -/
def LargeOp.Allowed (s : LargeState) : LargeOp → Prop
  | .alloc size _ => size ≤ heapMaxSize
  | .free ptr => ptr ∈ s.held

def largeInit (m : Mem) (growth : Option Mem) : LargeState := ⟨heapInit m growth, []⟩

/-- The spans of `L` partition the heap. The free ones are on the free list, each once, the
others belong to the pointers held; all are made of whole pages, and their headers record
their sizes, which add up to that of the heap. -/
structure SpansOk (s : LargeState) (L : HeapLayout) : Prop where
  list : ∃ l, Dll (nextSpan s.heap.mem) (prevSpan s.heap.mem) none (toPtr s.heap.largeFreeList) l ∧
    l.Nodup ∧ ∀ b, b ∈ l ↔ ∃ n, L b = some (.free, n)
  held : ∀ p, p ∈ s.held ↔ ∃ b n, L b = some (.alloc, n) ∧ p = b + largeHdrSize
  spans : ∀ b k n, L b = some (k, n) → (k = .free ∨ k = .alloc) ∧ pageSize ∣ b ∧ pageSize ∣ n ∧
    largeSize s.heap.mem b = n
  tiling : IsTiling pageSize heapVirtBase s.heap.heapCursor L
  total : ∑ b ∈ Finset.Ico heapVirtBase s.heap.heapCursor, sizeAt L b =
    s.heap.heapCursor - heapVirtBase

def NoneFits (L : HeapLayout) (total : Nat) : Prop := ∀ c n, L c = some (.free, n) → n < total

def LargeOp.Effect (s : LargeState) (L : HeapLayout) (s' : LargeState) (L' : HeapLayout) :
    LargeOp → Prop
  | .alloc size _ =>
    let total := alignUp (size + largeHdrSize) pageSize
    -- nothing fits and the heap cannot grow
    (NoneFits L total ∧ s' = s ∧ L' = L) ∨
    -- the smallest span that fits, of which the rest stays free
    (∃ b n, L b = some (.free, n) ∧ total ≤ n ∧
      (∀ c m, L c = some (.free, m) → total ≤ m → n ≤ m) ∧
      s'.held = (b + largeHdrSize) :: s.held ∧ s'.heap.heapCursor = s.heap.heapCursor ∧
      L' = servedLayout L b n total) ∨
    -- nothing fits, and the heap grows
    (NoneFits L total ∧ s'.held = (s.heap.heapCursor + largeHdrSize) :: s.held ∧
      s'.heap.heapCursor = s.heap.heapCursor + total ∧
      L' = update L s.heap.heapCursor (some (.alloc, total)))
  | .free ptr => ∃ b n, ptr = b + largeHdrSize ∧ L b = some (.alloc, n) ∧
      s'.held = s.held.filter (· ≠ ptr) ∧ s'.heap.heapCursor = s.heap.heapCursor ∧
      L' = update L b (some (.free, n))

def LargeSound (s : LargeState) : Prop :=
  ∃ L, SpansOk s L ∧ ∀ op : LargeOp, op.Allowed s → ∃ s', largeStep s op = some s' ∧
    ∃ L', SpansOk s' L' ∧ op.Effect s L s' L'

def heldLive (held : List Nat) : List Live := held.map fun p => ⟨p, 1, .large⟩

theorem mem_heldLive {held : List Nat} {p : Nat} :
    (∃ x ∈ heldLive held, x.tier = .large ∧ x.ptr = p) ↔ p ∈ held := by
  simp [heldLive]

structure SpansInv (s : LargeState) (L : HeapLayout) : Prop where
  inv : HeapInv s.heap L (heldLive s.held) []
  noSlab : ∀ b o n, L b ≠ some (.slab o, n)

theorem SpansInv.spansOk {s : LargeState} {L : HeapLayout} (h : SpansInv s L) : SpansOk s L where
  list := h.inv.freeList
  held p := by
    rw [← mem_heldLive]
    constructor
    · rintro ⟨x, hx, htier, rfl⟩
      obtain ⟨b, n, hL, hptr, -⟩ := h.inv.large_placed hx htier
      exact ⟨b, n, hL, hptr⟩
    · rintro ⟨b, n, hL, rfl⟩
      exact (h.inv.owned b n hL).mp List.not_mem_nil
  spans b k n hL := by
    have hal := h.inv.tiling.aligned b k n hL
    have hh := h.inv.header b _ hL List.not_mem_nil
    cases k with
    | slab o => exact absurd hL (h.noSlab b o n)
    | free => exact ⟨.inl rfl, hal.1, hal.2, hh.2⟩
    | alloc => exact ⟨.inr rfl, hal.1, hal.2, hh.2⟩
  tiling := h.inv.tiling
  total := h.inv.tiling.sum_sizeAt

theorem spansInv_largeInit (m fresh : Mem) : ∃ L, SpansInv (largeInit m (some fresh)) L := by
  obtain ⟨L, hi⟩ := heapInv_heapInit m fresh
  refine ⟨L, by dsimp only [largeInit]; exact hi, fun b o n hL => ?_⟩
  -- a slab page would be on a class list, and those are empty
  obtain ⟨l, hp, -, hmem⟩ := hi.classes o (hi.slabs b o n hL).2
  obtain ⟨m', heq⟩ := heapInit_eq m fresh
  rw [heq] at hp
  have hhead := hp.head
  rw [toPtr_eq_none_iff.mpr rfl] at hhead
  rw [List.head?_eq_none_iff.mp hhead.symm] at hmem
  exact absurd ((hmem b).mpr ⟨n, hL⟩) List.not_mem_nil

variable {s : LargeState} {L : HeapLayout}

theorem servedLayout_noSlab {b n total : Nat} (h : ∀ b o n, L b ≠ some (.slab o, n)) (c o m : Nat) :
    servedLayout L b n total c ≠ some (.slab o, m) := by
  unfold servedLayout
  split
  · simp
  · split
    · simp
    · exact h c o m

theorem update_noSlab {b : Nat} {t : TileKind × Nat} (ht : ∀ o, t.1 ≠ .slab o)
    (h : ∀ b o n, L b ≠ some (.slab o, n)) (c o m : Nat) :
    update L b (some t) c ≠ some (.slab o, m) := by
  intro hc
  obtain ⟨-, rfl⟩ | ⟨-, hc⟩ := update_cases hc
  · exact ht o rfl
  · exact h c o m hc

theorem SpansInv.step (h : SpansInv s L) {op : LargeOp} (ha : op.Allowed s) :
    ∃ s', largeStep s op = some s' ∧ ∃ L', SpansInv s' L' ∧ op.Effect s L s' L' := by
  cases op with
  | alloc size growth =>
    have hs := servable_of_le ha growth
    have hfit : 1 + largeHdrSize ≤ alignUp (size + largeHdrSize) pageSize := by
      have hle := le_alignUp (show 0 < pageSize by decide) hs.noWrap
      have hpos : 0 < largeHdrSize := by decide
      have hpage := Nat.le_of_dvd (by omega) (dvd_alignUp (size + largeHdrSize) pageSize)
      exact Nat.le_trans (by decide) hpage
    obtain ⟨r, heq, hr⟩ := largeAlloc_spec h.inv hs.noWrap hs.frames Nat.one_pos hfit
    refine ⟨_, by rw [largeStep, heq]; rfl, ?_⟩
    cases hr with
    | refused hnone =>
      dsimp only
      rw [if_pos rfl]
      exact ⟨L, h, .inl ⟨hnone, rfl, rfl⟩⟩
    | reused hL hbig hleast hcur hleave hi' =>
      dsimp only
      rw [if_neg (hi'.ptr_pos List.mem_cons_self)]
      exact ⟨_, ⟨hi', servedLayout_noSlab h.noSlab⟩,
        .inr (.inl ⟨_, _, hL, hbig, hleast, rfl, hcur, rfl⟩)⟩
    | grown hnone hcur hleave hi' =>
      dsimp only
      rw [if_neg (hi'.ptr_pos List.mem_cons_self)]
      exact ⟨_, ⟨hi', update_noSlab (by simp) h.noSlab⟩, .inr (.inr ⟨hnone, rfl, hcur, rfl⟩)⟩
  | free ptr =>
    obtain ⟨b, n, hL, rfl⟩ := (h.spansOk.held ptr).mp ha
    obtain ⟨heq, -, hi'⟩ := largeFree_spec h.inv hL
    have hlive : (heldLive s.held).filter (fun y => y.ptr ≠ b + largeHdrSize) =
        heldLive (s.held.filter (· ≠ b + largeHdrSize)) := by
      unfold heldLive
      rw [List.filter_map]
      rfl
    rw [hlive] at hi'
    have hcur : (largeFree s.heap (b + largeHdrSize)).heapCursor = s.heap.heapCursor := by
      rw [heq]
      rfl
    refine ⟨⟨largeFree s.heap (b + largeHdrSize), s.held.filter (· ≠ b + largeHdrSize)⟩, rfl,
      update L b (some (.free, n)), ⟨?_, update_noSlab (by simp) h.noSlab⟩,
      b, n, rfl, hL, rfl, ?_, rfl⟩
    · dsimp only
      exact hi'
    · dsimp only
      exact hcur

theorem SpansInv.largeSound (h : SpansInv s L) : LargeSound s := by
  refine ⟨L, h.spansOk, fun op ha => ?_⟩
  obtain ⟨s', heq, L', h', heff⟩ := h.step ha
  exact ⟨s', heq, L', h'.spansOk, heff⟩

theorem not_largeSound_of_unmapped (m : Mem) : ¬ LargeSound (largeInit m none) := by
  rintro ⟨L, hok, -⟩
  obtain ⟨l, hd, -, hmem⟩ := hok.list
  have hlist : (largeInit m none).heap.largeFreeList = heapVirtBase := by
    simp [largeInit, heapInit]
  have hhead := hd.path.head
  rw [hlist, toPtr_of_ne (by decide)] at hhead
  obtain ⟨n, hL⟩ := (hmem _).mp (List.mem_of_mem_head? hhead.symm)
  have hin := hok.tiling.inside _ _ _ hL
  have hpos := hok.tiling.pos _ _ _ hL
  have hcur : (largeInit m none).heap.heapCursor = heapVirtBase := by
    simp [largeInit, heapInit, heapMapPages]
  omega

/-- **The free list stays in order** in all runs exactly if `heap_init` could map its
pages. -/
theorem largeSound_iff (m : Mem) (growth : Option Mem) :
    (∀ ops, Steps largeStep (fun s op => op.Allowed s) (largeInit m growth) ops →
      Always largeStep LargeSound (largeInit m growth) ops) ↔ growth ≠ none := by
  constructor
  · rintro hall rfl
    exact not_largeSound_of_unmapped m (hall [] trivial)
  · intro hne ops hops
    obtain ⟨fresh, rfl⟩ := Option.ne_none_iff_exists'.mp hne
    have hsound : ∀ s, (∃ L, SpansInv s L) → LargeSound s := fun s hs =>
      hs.elim fun _ h => h.largeSound
    refine always_of_steps hsound (fun s op s' hs ha heq => ?_) ops
      (spansInv_largeInit m fresh) hops
    obtain ⟨L, h⟩ := hs
    obtain ⟨t, ht, L', h', -⟩ := h.step ha
    rw [heq] at ht
    cases ht
    exact ⟨L', h'⟩

/-- **An allocated span on the free list.** `heap_map_pages(4)` fails, and `heap_init` goes on;
the first request that needs more than four pages then gets the address of the span that is on
the free list. -/
theorem freeList_holds_allocated :
    Steps largeStep (fun s op => op.Allowed s) (largeInit (fun _ => 0) none)
        [.alloc 20000 (some fun _ => 0)] ∧
      ∃ s, [LargeOp.alloc 20000 (some fun _ => 0)].foldlM largeStep (largeInit (fun _ => 0) none) =
          some s ∧ s.held = [heapVirtBase + largeHdrSize] ∧
        s.heap.largeFreeList = heapVirtBase ∧ ¬ LargeSound s := by
  have hend : ([LargeOp.alloc 20000 (some fun _ => 0)].foldlM largeStep
      (largeInit (fun _ => 0) none)).any (fun s => s.held = [heapVirtBase + largeHdrSize] ∧
        s.heap.largeFreeList = heapVirtBase) = true := by decide +kernel
  have hsize : 20000 ≤ heapMaxSize := by decide
  refine ⟨fun s _ => ⟨hsize, trivial⟩, ?_⟩
  obtain ⟨s, hs, hdec⟩ := (Option.any_eq_true _ _).mp hend
  obtain ⟨hheld, hhead⟩ := of_decide_eq_true hdec
  refine ⟨s, hs, hheld, hhead, ?_⟩
  rintro ⟨L, hok, -⟩
  -- the span at the base is free and allocated
  obtain ⟨l, hd, -, hmem⟩ := hok.list
  have hfirst := hd.path.head
  rw [hhead, toPtr_of_ne (by decide)] at hfirst
  obtain ⟨n, hfree⟩ := (hmem _).mp (List.mem_of_mem_head? hfirst.symm)
  have hin : heapVirtBase + largeHdrSize ∈ s.held := by
    rw [hheld]
    exact List.mem_singleton_self _
  obtain ⟨b, n', hL, hptr⟩ := (hok.held _).mp hin
  have hb : heapVirtBase = b := Nat.add_right_cancel hptr
  rw [← hb] at hL
  exact ne_of_kind hfree hL (by simp) rfl

end DevOs
