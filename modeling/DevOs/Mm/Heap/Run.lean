import DevOs.Mm.Heap.Slabs
import Mathlib.Logic.Relation

/-!
The heap in use: any sequence of `kmalloc`, `kzalloc`, `krealloc` and `kfree`,
between which the owners of live pointers write what they like into their
memory.
-/

namespace DevOs

open ByteMem Intrusive Tiling Function

namespace HeapInv

variable {h : Heap} {L : HeapLayout} {live : List Live} {holes : List Nat} {x y : Live}

section

variable (hi : HeapInv h L live holes)
include hi

variable (hx : x ∈ live)
include hx

theorem tile_of_live :
    ∃ b k n, L b = some (k, n) ∧ b + k.metaSize ≤ x.ptr ∧ x.ptr + x.size ≤ b + n ∧
      ((∃ o idx, k = .slab o ∧ x.ptr = objectAt b o idx ∧ x.size ≤ 2 ^ o) ∨
        k = .alloc ∧ x.ptr = b + largeHdrSize) := by
  cases htier : x.tier with
  | slab =>
    obtain ⟨sp, o, idx, hL, ho, hidx, hptr, hsize, -⟩ := hi.slab_placed hx htier
    have hr := @objectAt_range sp o idx ho hidx
    exact ⟨sp, .slab o, pageSize, hL, by simp only [TileKind.metaSize]; omega, by omega,
      .inl ⟨o, idx, rfl, hptr, hsize⟩⟩
  | large =>
    obtain ⟨b, n, hL, hptr, hsize, -⟩ := hi.large_placed hx htier
    exact ⟨b, .alloc, n, hL, by simp only [TileKind.metaSize]; omega, by omega, .inr ⟨rfl, hptr⟩⟩

theorem ptr_pos : x.ptr ≠ 0 := by
  obtain ⟨b, k, n, hL, hlo, -⟩ := hi.tile_of_live hx
  have := hi.base_pos hL
  omega

theorem live_payload {a : Nat} (hlo : x.ptr ≤ a) (hhi : a < x.ptr + x.size) : Payload L a := by
  obtain ⟨b, k, n, hL, hlo', hhi', hkind⟩ := hi.tile_of_live hx
  refine ⟨b, k, n, hL, ?_, by omega, by omega⟩
  obtain ⟨o, idx, rfl, -⟩ | ⟨rfl, -⟩ := hkind
  · simp
  · simp

theorem live_clear_of_meta {b n : Nat}
    {k : TileKind} (hL : L b = some (k, n)) : x.ptr + x.size ≤ b ∨ b + k.metaSize ≤ x.ptr := by
  obtain ⟨b', k', n', hL', hlo, hhi, -⟩ := hi.tile_of_live hx
  by_cases hbb : b = b'
  · subst hbb
    rw [hL] at hL'
    cases hL'
    exact .inr hlo
  · have hd := hi.tiling.disjoint b k n b' k' n' hL hL' hbb
    have hm := hi.meta_le hL
    have hn := hi.page_le hL
    omega

end

theorem objects_apart {sp o idx idx' : Nat} (hne : idx < idx') :
    objectAt sp o idx + 2 ^ o ≤ objectAt sp o idx' := by
  have hle : (idx + 1) * 2 ^ o ≤ idx' * 2 ^ o := Nat.mul_le_mul_right _ hne
  rw [Nat.succ_mul] at hle
  unfold objectAt
  omega

theorem live_disjoint (hi : HeapInv h L live holes) (hx : x ∈ live) (hy : y ∈ live)
    (hne : x.ptr ≠ y.ptr) : x.ptr + x.size ≤ y.ptr ∨ y.ptr + y.size ≤ x.ptr := by
  obtain ⟨b, k, n, hL, hlo, hhi, hkind⟩ := hi.tile_of_live hx
  obtain ⟨b', k', n', hL', hlo', hhi', hkind'⟩ := hi.tile_of_live hy
  by_cases hbb : b = b'
  · subst hbb
    rw [hL] at hL'
    cases hL'
    -- in one tile: two objects of a slab page, as a span has one pointer only
    obtain ⟨o, idx, rfl, hptr, hsz⟩ | ⟨rfl, hptr⟩ := hkind
    · obtain ⟨o', idx', heq, hptr', hsz'⟩ | ⟨heq, -⟩ := hkind'
      · cases heq
        rcases Nat.lt_trichotomy idx idx' with hlt | rfl | hlt
        · have := @objects_apart b o _ _ hlt
          omega
        · exact absurd (hptr.trans hptr'.symm) hne
        · have := @objects_apart b o _ _ hlt
          omega
      · cases heq
    · obtain ⟨o', idx', heq, -⟩ | ⟨-, hptr'⟩ := hkind'
      · cases heq
      · exact absurd (hptr.trans hptr'.symm) hne
  · have := hi.tiling.disjoint b k n b' k' n' hL hL' hbb
    have := hi.meta_le hL
    have := hi.meta_le hL'
    omega

theorem write (hi : HeapInv h L live holes) (hx : x ∈ live) {m' : Mem}
    (hm : ∀ a, a < x.ptr ∨ x.ptr + x.size ≤ a → m' a = h.mem a) :
    HeapInv { h with mem := m' } L live holes := by
  refine hi.frame fun b k n hL a hlo hhi => hm a ?_
  have := hi.live_clear_of_meta hx hL
  omega

end HeapInv

def tierOf (size : Nat) : Tier :=
  if size ≤ largeThreshold ∧ sizeOrder size ≤ slabMaxOrder then .slab else .large

theorem orderLoop_spec (size : Nat) : ∀ n order, order ≤ orderLoop size n order ∧
    (orderLoop size n order < order + n → orderLoop size n order ≤ slabMaxOrder →
      size ≤ 2 ^ orderLoop size n order)
  | 0, order => ⟨Nat.le_refl order, fun h => by simp [orderLoop] at h⟩
  | n + 1, order => by
    obtain ⟨hle, hfit⟩ := orderLoop_spec size n (order + 1)
    unfold orderLoop
    split
    · exact ⟨by omega, fun hlt => hfit (by omega)⟩
    · next hstop =>
        refine ⟨Nat.le_refl order, fun _ hmax => ?_⟩
        by_contra hlt
        exact hstop ⟨Nat.not_le.mp hlt, hmax⟩

theorem sizeOrder_spec {size : Nat} (h : sizeOrder size ≤ slabMaxOrder) :
    IsOrder (sizeOrder size) ∧ size ≤ 2 ^ sizeOrder size := by
  obtain ⟨hle, hfit⟩ := orderLoop_spec size (slabMaxOrder + 1 - slabMinOrder) slabMinOrder
  refine ⟨⟨hle, h⟩, hfit ?_ h⟩
  have : slabMaxOrder < slabMinOrder + (slabMaxOrder + 1 - slabMinOrder) := by decide
  exact Nat.lt_of_le_of_lt h this

variable {h : Heap} {L : HeapLayout} {live : List Live} {size : Nat} {x : Live}
  {growth : Option Mem} {ptr : Nat} {h' : Heap}

/-- The live pointers after an allocation that returned `result`. -/
def allocLive (live : List Live) (size result : Nat) : List Live :=
  if result = 0 then live else ⟨result, size, tierOf size⟩ :: live

/-- A request that `large_alloc` can round up to pages without wrapping round; a mapping
for it succeeds only if there are frames enough. -/
structure Servable (size : Nat) (growth : Option Mem) : Prop where
  noWrap : size + largeHdrSize + (pageSize - 1) < 2 ^ 64
  frames : growth ≠ none → alignUp (size + largeHdrSize) pageSize / pageSize ≤ pmmMaxFrames

theorem servable_of_le (hsize : size ≤ heapMaxSize) (growth : Option Mem) :
    Servable size growth := by
  have hwrap : heapMaxSize + largeHdrSize + (pageSize - 1) < 2 ^ 64 := by decide
  have hno : size + largeHdrSize + (pageSize - 1) < 2 ^ 64 := by omega
  refine ⟨hno, fun _ => ?_⟩
  have hlt := alignUp_lt (by decide) hno
  have hmax : heapMaxSize + largeHdrSize + pageSize ≤ pmmMaxFrames * pageSize := by decide
  exact Nat.div_le_of_le_mul (by rw [Nat.mul_comm]; omega)

/-- An allocation fails and changes nothing, or returns a new live pointer. -/
def Allocated (h : Heap) (L : HeapLayout) (live : List Live) (size : Nat) (r : Nat × Heap) :
    Prop :=
  r = (0, h) ∨ r.1 ≠ 0 ∧ ∃ L', Leaves h L r.2 L' ∧
    HeapInv r.2 L' (⟨r.1, size, tierOf size⟩ :: live) []

theorem Allocated.inv {r : Nat × Heap} (hi : HeapInv h L live []) (ha : Allocated h L live size r) :
    ∃ L', SlabsKept L L' ∧ HeapInv r.2 L' (allocLive live size r.1) [] := by
  unfold allocLive
  obtain rfl | ⟨hne, L', hleave, hi'⟩ := ha
  · exact ⟨L, fun _ _ _ hc => hc, by rw [if_pos rfl]; exact hi⟩
  · exact ⟨L', hleave.slabs, by rw [if_neg hne]; exact hi'⟩

/-! ## The calls -/

theorem kmalloc_spec (hi : HeapInv h L live []) (hs : Servable size growth) :
    ∃ r, kmalloc h size growth = some r ∧ Allocated h L live size r := by
  unfold kmalloc Allocated tierOf
  split
  · exact ⟨(0, h), rfl, .inl rfl⟩
  · next hz =>
      have hpos : 0 < size := Nat.pos_of_ne_zero hz
      split
      · next hsmall =>
          obtain ⟨ho, hfit⟩ := sizeOrder_spec hsmall.2
          obtain ⟨r, heq, hr⟩ := slabAlloc_spec hi ho hpos hfit growth
          refine ⟨r, heq, ?_⟩
          cases hr with
          | refused => exact .inl rfl
          | served hL hidx hleave hi' =>
            exact .inr ⟨hi'.ptr_pos List.mem_cons_self, _, hleave, hi'⟩
      · have hfit := le_alignUp (show 0 < pageSize by decide) hs.noWrap
        obtain ⟨r, heq, hr⟩ := largeAlloc_spec hi hs.noWrap hs.frames hpos hfit
        refine ⟨r, heq, ?_⟩
        cases hr with
        | refused => exact .inl rfl
        | reused hL hbig hleast hcur hleave hi' =>
          exact .inr ⟨hi'.ptr_pos List.mem_cons_self, _, hleave, hi'⟩
        | grown hnone hcur hleave hi' =>
          exact .inr ⟨hi'.ptr_pos List.mem_cons_self, _, hleave, hi'⟩

theorem kzalloc_spec (hi : HeapInv h L live []) (hs : Servable size growth) :
    ∃ r, kzalloc h size growth = some r ∧
      ∃ L', SlabsKept L L' ∧ HeapInv r.2 L' (allocLive live size r.1) [] := by
  obtain ⟨⟨ptr, h'⟩, heq, ha⟩ := kmalloc_spec hi hs
  obtain ⟨L', hslabs, hi'⟩ := ha.inv hi
  unfold kzalloc
  simp only [heq]
  split
  · next hz =>
      rw [hz] at hi'
      exact ⟨_, rfl, L', hslabs, hi'⟩
  · next hne =>
      refine ⟨_, rfl, L', hslabs, ?_⟩
      unfold allocLive at hi' ⊢
      rw [if_neg hne] at hi' ⊢
      exact hi'.write List.mem_cons_self fun a ha => fill_apply_of_disjoint ha

/-- `kfree` reaches the tier of a live pointer, whose checks it passes. -/
def Routed (h : Heap) (x : Live) : Prop :=
  match x.tier with
  | .slab => kfree h x.ptr = (slabFree h x.ptr).2 ∧ (slabFree h x.ptr).1 = true
  | .large => kfree h x.ptr = largeInsertFree h (x.ptr - largeHdrSize) ∧
      slabFree h x.ptr = (false, h)

theorem kfree_eq {inSlab : Bool} (hp : ptr ≠ 0)
    (heq : slabFree h ptr = (inSlab, h')) :
    kfree h ptr = if inSlab then h' else largeFree h' ptr := by
  unfold kfree
  rw [if_neg hp, heq]

def freedLayout (L : HeapLayout) (x : Live) : HeapLayout :=
  match x.tier with
  | .slab => L
  | .large => fun c =>
    if c = x.ptr - largeHdrSize then (L c).map fun t => (.free, t.2) else L c

theorem kfree_spec (hi : HeapInv h L live []) (hx : x ∈ live) :
    Routed h x ∧ Leaves h L (kfree h x.ptr) (freedLayout L x) ∧
      HeapInv (kfree h x.ptr) (freedLayout L x) (live.filter fun y => y.ptr ≠ x.ptr) [] := by
  have hx0 : x.ptr ≠ 0 := hi.ptr_pos hx
  unfold Routed freedLayout
  cases htier : x.tier with
  | slab =>
    obtain ⟨h', heq, hleave, hi'⟩ := slabFree_of_slab hi hx htier
    rw [kfree_eq hx0 heq, if_pos rfl, heq]
    exact ⟨⟨rfl, rfl⟩, hleave, hi'⟩
  | large =>
    obtain ⟨b, n, hL, hptr, -, -⟩ := hi.large_placed hx htier
    have hslab := slabFree_of_span hi hL (by simp)
    have hlayout : (fun c => if c = b + largeHdrSize - largeHdrSize then
        (L c).map fun t => (TileKind.free, t.2) else L c) =
        update L b (some (.free, n)) := by
      funext c
      rw [Nat.add_sub_cancel, update_apply]
      split
      · next hc => rw [hc, hL]; rfl
      · rfl
    obtain ⟨heq, hleave, hi'⟩ := largeFree_spec hi hL
    rw [hptr] at hx0 ⊢
    rw [kfree_eq hx0 hslab, if_neg Bool.false_ne_true, hlayout, Nat.add_sub_cancel]
    exact ⟨⟨heq, hslab⟩, hleave, hi'⟩

theorem usableSize_slab {sp o n idx : Nat} (hi : HeapInv h L live [])
    (hL : L sp = some (.slab o, n)) (hidx : idx < slabCap o) :
    usableSize h.mem (objectAt sp o idx) = 2 ^ o := by
  have hr := @objectAt_range sp o idx (hi.slabs sp o n hL).2 hidx
  have hpow : 0 < 2 ^ o := Nat.two_pow_pos o
  have hh := hi.header sp _ hL List.not_mem_nil
  have hdown : alignDown (objectAt sp o idx) pageSize = sp :=
    alignDown_object (hi.tiling.aligned sp _ _ hL).1 (by omega) (by omega)
  rw [usableSize, hdown, if_pos hh.1, hh.2.1]

theorem usableSize_large {b n : Nat} (hi : HeapInv h L live []) (hL : L b = some (.alloc, n)) :
    usableSize h.mem (b + largeHdrSize) + largeHdrSize = n := by
  have hps : largeHdrSize < pageSize := by decide
  have hn := hi.page_le hL
  have hin := hi.tiling.inside b _ _ hL
  have hcur := hi.cursor.2.1
  have hmax : heapVirtBase + heapMaxSize < 2 ^ 64 := by decide
  have hh := hi.header b _ hL List.not_mem_nil
  have hdown : alignDown (b + largeHdrSize) pageSize = b :=
    alignDown_object (hi.tiling.aligned b _ _ hL).1 (by omega) (by omega)
  have hsub : (n + (2 ^ 64 - largeHdrSize)) % 2 ^ 64 = n - largeHdrSize := by
    have : largeHdrSize < 2 ^ 64 := by decide
    rw [show n + (2 ^ 64 - largeHdrSize) = n - largeHdrSize + 2 ^ 64 by omega,
      Nat.add_mod_right, Nat.mod_eq_of_lt (by omega)]
  rw [usableSize, hdown, hh.1, if_neg (by decide), Nat.add_sub_cancel, hh.2, hsub]
  omega

theorem usableSize_spec (hi : HeapInv h L live []) (hx : x ∈ live) (hpos : 0 < size)
    (hsize : size ≤ usableSize h.mem x.ptr) : LiveOk h.mem L { x with size := size } := by
  refine ⟨hpos, ?_⟩
  cases htier : x.tier with
  | slab =>
    obtain ⟨sp, o, idx, hL, ho, hidx, hptr, -, hused⟩ := hi.slab_placed hx htier
    rw [hptr, usableSize_slab hi hL hidx] at hsize
    exact ⟨sp, o, idx, hL, hidx, hptr, hsize, hused⟩
  | large =>
    obtain ⟨b, n, hL, hptr, -, -⟩ := hi.large_placed hx htier
    have husable := usableSize_large hi hL
    rw [hptr] at hsize
    refine ⟨b, n, hL, hptr, ?_⟩
    dsimp only
    omega

theorem HeapInv.size_le_usable (hi : HeapInv h L live []) (hx : x ∈ live) :
    x.size ≤ usableSize h.mem x.ptr := by
  cases htier : x.tier with
  | slab =>
    obtain ⟨sp, o, idx, hL, -, hidx, hptr, hsize, -⟩ := hi.slab_placed hx htier
    rw [hptr, usableSize_slab hi hL hidx]
    exact hsize
  | large =>
    obtain ⟨b, n, hL, hptr, hsize, -⟩ := hi.large_placed hx htier
    have husable := usableSize_large hi hL
    rw [hptr]
    omega

def resize (ptr size : Nat) (y : Live) : Live := if y.ptr = ptr then { y with size := size } else y

theorem resize_ptr (ptr size : Nat) (y : Live) : (resize ptr size y).ptr = y.ptr := by
  unfold resize
  split <;> rfl

theorem resize_tier (ptr size : Nat) (y : Live) : (resize ptr size y).tier = y.tier := by
  unfold resize
  split <;> rfl

theorem HeapInv.resize (hi : HeapInv h L live []) (hpos : 0 < size)
    (hsize : size ≤ usableSize h.mem ptr) : HeapInv h L (live.map (resize ptr size)) [] where
  tiling := hi.tiling
  cursor := hi.cursor
  slabs := hi.slabs
  header := hi.header
  hole := hi.hole
  freeList := hi.freeList
  classes := hi.classes
  counts sp o n hL := by
    refine SameMeta.pageCount (fun _ _ _ => rfl) (hi.slabs sp o n hL).2
      (fun _ _ x hx htier _ => ?_) (hi.counts sp o n hL)
    exact ⟨_, List.mem_map_of_mem hx, (resize_tier ptr size x).trans htier, resize_ptr ptr size x⟩
  placed y hy := by
    obtain ⟨z, hz, rfl⟩ := List.mem_map.mp hy
    unfold DevOs.resize
    split
    · next hzx =>
        rw [← hzx] at hsize
        exact usableSize_spec hi hz hpos hsize
    · exact hi.placed z hz
  distinct := by
    have hmap : (live.map (DevOs.resize ptr size)).map Live.ptr = live.map Live.ptr := by
      rw [List.map_map]
      exact List.map_congr_left fun y _ => resize_ptr ptr size y
    rw [hmap]
    exact hi.distinct
  owned b n hb := by
    rw [hi.owned b n hb]
    simp only [List.mem_map, exists_exists_and_eq_and, resize_ptr, resize_tier]

/-- The live pointers after `krealloc(ptr, size)` of a live pointer returned
`result`. -/
def reallocLive (live : List Live) (ptr size result : Nat) : List Live :=
  if size = 0 then live.filter fun y => y.ptr ≠ ptr
  else if result = ptr then live.map (resize ptr size)
  else if result = 0 then live
  else ⟨result, size, tierOf size⟩ :: live.filter fun y => y.ptr ≠ ptr

/-- What `krealloc` of the live pointer `x` comes to: nothing at all, or a pointer to the
old bytes. The other live pointers keep theirs. -/
structure Reallocated (h : Heap) (L : HeapLayout) (live : List Live) (x : Live) (size : Nat)
    (r : Nat × Heap) : Prop where
  inv : ∃ L', SlabsKept L L' ∧ HeapInv r.2 L' (reallocLive live x.ptr size r.1) []
  failed : r.1 = 0 → size ≠ 0 → r.2 = h
  copied : r.1 ≠ 0 → ∀ i < min size x.size, r.2.mem (r.1 + i) = h.mem (x.ptr + i)
  others : ∀ y ∈ live, y.ptr ≠ x.ptr → ∀ a, y.ptr ≤ a → a < y.ptr + y.size →
    r.2.mem a = h.mem a

theorem HeapInv.move {L' : HeapLayout} (hi : HeapInv h L live [])
    (hx : x ∈ live) (hroom : ¬ size ≤ usableSize h.mem x.ptr) (hleave : Leaves h L h' L')
    (hi' : HeapInv h' L' (⟨ptr, size, tierOf size⟩ :: live) []) : Reallocated h L live x size
      (ptr, kfree { h' with mem := copy h'.mem ptr x.ptr (usableSize h.mem x.ptr) } x.ptr) := by
  have hp : ptr ≠ 0 := hi'.ptr_pos List.mem_cons_self
  have hold := hi.size_le_usable hx
  have hpos := (hi.placed x hx).1
  generalize usableSize h.mem x.ptr = room at *
  have hcopy : HeapInv { h' with mem := copy h'.mem ptr x.ptr room } L'
      (⟨ptr, size, tierOf size⟩ :: live) [] := by
    refine hi'.write List.mem_cons_self fun a ha => ?_
    dsimp only at ha
    exact copy_apply_of_disjoint (by omega)
  have hne : ptr ≠ x.ptr := by
    have hnd := hi'.distinct
    rw [List.map_cons, List.nodup_cons] at hnd
    intro hc
    exact hnd.1 (List.mem_map.mpr ⟨x, hx, hc.symm⟩)
  have hx' : x ∈ (⟨ptr, size, tierOf size⟩ :: live : List Live) := List.mem_cons_of_mem _ hx
  obtain ⟨-, hfreed, hi''⟩ := kfree_spec hcopy hx'
  refine ⟨⟨_, fun sp o n hL => hfreed.slabs sp o n (hleave.slabs sp o n hL), ?_⟩,
    fun hc => absurd hc hp, fun _ i hi0 => ?_, fun y hy hyx a hlo hhi => ?_⟩
  · dsimp only
    rw [reallocLive, if_neg (by omega), if_neg hne, if_neg hp]
    rw [List.filter_cons_of_pos (by simpa using hne)] at hi''
    exact hi''
  · calc (kfree { h' with mem := copy h'.mem ptr x.ptr room } x.ptr).mem (ptr + i)
        = copy h'.mem ptr x.ptr room (ptr + i) :=
          hfreed.payload _ (hcopy.live_payload List.mem_cons_self (Nat.le_add_right ptr i)
            (by dsimp only; omega))
      _ = h'.mem (x.ptr + i) := copy_apply (by omega)
      _ = h.mem (x.ptr + i) :=
          hleave.payload _ (hi.live_payload hx (by omega) (by omega))
  · have hap := hi'.live_disjoint (List.mem_cons_of_mem _ hy) List.mem_cons_self
      (show y.ptr ≠ ptr from fun hc => by
        have hnd := hi'.distinct
        rw [List.map_cons, List.nodup_cons] at hnd
        exact hnd.1 (List.mem_map.mpr ⟨y, hy, hc⟩))
    dsimp only at hap
    calc (kfree { h' with mem := copy h'.mem ptr x.ptr room } x.ptr).mem a
        = copy h'.mem ptr x.ptr room a :=
          hfreed.payload _ (hcopy.live_payload (List.mem_cons_of_mem _ hy) hlo hhi)
      _ = h'.mem a := copy_apply_of_disjoint (by omega)
      _ = h.mem a := hleave.payload _ (hi.live_payload hy hlo hhi)

theorem krealloc_spec (hi : HeapInv h L live []) (hx : x ∈ live)
    (hs : Servable size growth) :
    ∃ r, krealloc h x.ptr size growth = some r ∧ Reallocated h L live x size r := by
  have hx0 : x.ptr ≠ 0 := hi.ptr_pos hx
  unfold krealloc
  rw [if_neg hx0]
  by_cases hz : size = 0
  · obtain ⟨-, hleave, hi'⟩ := kfree_spec hi hx
    rw [if_pos hz]
    refine ⟨_, rfl, ⟨_, hleave.slabs, by rw [reallocLive, if_pos hz]; exact hi'⟩,
      fun _ hc => absurd hz hc, fun hc => absurd rfl hc, fun y hy _ a hlo hhi => ?_⟩
    exact hleave.payload a (hi.live_payload hy hlo hhi)
  · rw [if_neg hz]
    split
    · next hfits =>
        refine ⟨_, rfl, ⟨L, fun _ _ _ hc => hc, ?_⟩, fun _ _ => rfl, fun _ _ _ => rfl,
          fun _ _ _ _ _ _ => rfl⟩
        rw [reallocLive, if_neg hz, if_pos rfl]
        exact hi.resize (Nat.pos_of_ne_zero hz) hfits
    · next hroom =>
        obtain ⟨⟨ptr, h'⟩, heq, ha⟩ := kmalloc_spec hi hs
        simp only [heq]
        obtain hfail | ⟨hp, L', hleave, hi'⟩ := ha
        · cases hfail
          rw [if_pos rfl]
          refine ⟨_, rfl, ⟨L, fun _ _ _ hc => hc, ?_⟩, fun _ _ => rfl, fun hc => absurd rfl hc,
            fun _ _ _ _ _ _ => rfl⟩
          rw [reallocLive, if_neg hz, if_neg (Ne.symm hx0), if_pos rfl]
          exact hi
        · rw [if_neg hp]
          exact ⟨_, rfl, hi.move hx hroom hleave hi'⟩

/-! ## Whole runs -/

structure HeapState where
  heap : Heap
  live : List Live

/-- The calls, with the outcome of the page mapping that each may need, and
what callers do with their memory. -/
inductive HeapOp where
  | kmalloc (size : Nat) (growth : Option Mem)
  | kzalloc (size : Nat) (growth : Option Mem)
  | krealloc (ptr size : Nat) (growth : Option Mem)
  | kfree (ptr : Nat)
  | write (x : Live) (m : Mem)

/-- One call; `none` is a call that does not return. -/
def heapStep (s : HeapState) : HeapOp → Option HeapState
  | .kmalloc size growth =>
    (kmalloc s.heap size growth).map fun r => ⟨r.2, allocLive s.live size r.1⟩
  | .kzalloc size growth =>
    (kzalloc s.heap size growth).map fun r => ⟨r.2, allocLive s.live size r.1⟩
  | .krealloc ptr size growth =>
    (krealloc s.heap ptr size growth).map fun r =>
      ⟨r.2, if ptr = 0 then allocLive s.live size r.1 else reallocLive s.live ptr size r.1⟩
  | .kfree ptr => some ⟨kfree s.heap ptr, s.live.filter fun y => y.ptr ≠ ptr⟩
  | .write _ m => some ⟨{ s.heap with mem := m }, s.live⟩

/-- Callers ask for at most `HEAP_MAX_SIZE`, pass null or a live pointer, and
write only into ranges they hold. -/
def HeapOp.Allowed (s : HeapState) : HeapOp → Prop
  | .kmalloc size _ | .kzalloc size _ => size ≤ heapMaxSize
  | .krealloc ptr size _ => size ≤ heapMaxSize ∧ (ptr = 0 ∨ ∃ x ∈ s.live, x.ptr = ptr)
  | .kfree ptr => ptr = 0 ∨ ∃ x ∈ s.live, x.ptr = ptr
  | .write x m => x ∈ s.live ∧ ∀ a, a < x.ptr ∨ x.ptr + x.size ≤ a → m a = s.heap.mem a

/-- The states that `heap_init`, with its four pages mapped, leads to. -/
def HeapReachable (m fresh : Mem) : HeapState → Prop :=
  Relation.ReflTransGen (fun s s' => ∃ op : HeapOp, op.Allowed s ∧ heapStep s op = some s')
    ⟨heapInit m (some fresh), []⟩

theorem heapInit_eq (m fresh : Mem) : ∃ m', heapInit m (some fresh) =
      { mem := initSpan m' heapVirtBase (4 * pageSize), slabClasses := fun _ => 0,
        largeFreeList := heapVirtBase, heapCursor := heapVirtBase + 4 * pageSize,
        heapLimit := heapVirtBase + 4 * pageSize } := by
  have hroom : ¬ heapVirtBase + heapMaxSize <
      (heapVirtBase + 4 * pageSize % 2 ^ 64) % 2 ^ 64 := by decide
  have hcur : (heapVirtBase + 4 * pageSize % 2 ^ 64) % 2 ^ 64 = heapVirtBase + 4 * pageSize := by
    decide
  unfold heapInit heapMapPages
  dsimp only
  rw [if_neg hroom, hcur]
  exact ⟨_, rfl⟩

theorem heapInv_heapInit (m fresh : Mem) : ∃ L, HeapInv (heapInit m (some fresh)) L [] [] := by
  obtain ⟨m', heq⟩ := heapInit_eq m fresh
  rw [heq]
  obtain ⟨hsize, hmagic, -⟩ := @initSpan_spec (4 * pageSize) m' heapVirtBase (by decide)
  have hnext : nextSpan (initSpan m' heapVirtBase (4 * pageSize)) heapVirtBase = none := by
    refine toPtr_eq_none_iff.mpr ?_
    unfold largeNext initSpan
    rw [load_store_of_disjoint (by omega), load_store_of_lt (by decide)]
  have hprev : prevSpan (initSpan m' heapVirtBase (4 * pageSize)) heapVirtBase = none := by
    refine toPtr_eq_none_iff.mpr ?_
    unfold largePrev initSpan
    rw [load_store_of_disjoint (by omega), load_store_of_disjoint (by omega),
      load_store_of_lt (by decide)]
  generalize initSpan m' heapVirtBase (4 * pageSize) = m0 at hsize hmagic hnext hprev
  -- the layout has one tile
  have honly : ∀ {b t}, update (fun _ => none : HeapLayout) heapVirtBase
      (some (.free, 4 * pageSize)) b = some t → b = heapVirtBase ∧ t = (.free, 4 * pageSize) := by
    intro b t hb
    by_cases hbb : b = heapVirtBase
    · rw [hbb, update_self] at hb
      exact ⟨hbb, (Option.some.inj hb).symm⟩
    · rw [update_of_ne hbb] at hb
      cases hb
  refine ⟨update (fun _ => none) heapVirtBase (some (.free, 4 * pageSize)), ?_⟩
  exact {
    tiling := (IsTiling.empty pageSize heapVirtBase).grow (Nat.le_refl _) (by decide)
      (by decide) (by decide)
    cursor := by
      dsimp only
      decide
    slabs := by
      intro b o n hb
      cases (honly hb).2
    header := by
      intro b t hb _
      obtain ⟨rfl, rfl⟩ := honly hb
      exact ⟨hmagic, hsize⟩
    hole := fun b hb => absurd hb List.not_mem_nil
    freeList := by
      refine ⟨[heapVirtBase], ⟨toPtr_of_ne (show heapVirtBase ≠ 0 by decide), hprev, hnext⟩,
        List.nodup_singleton _, fun b => ?_⟩
      rw [List.mem_singleton]
      constructor
      · rintro rfl
        exact ⟨_, update_self _ _ _⟩
      · rintro ⟨n, hb⟩
        exact (honly hb).1
    classes := by
      intro o _
      refine ⟨[], rfl, List.nodup_nil, fun b => ?_⟩
      refine iff_of_false List.not_mem_nil ?_
      rintro ⟨n, hb⟩
      cases (honly hb).2
    counts := by
      intro b o n hb
      cases (honly hb).2
    placed := fun x hx => absurd hx List.not_mem_nil
    distinct := List.nodup_nil
    owned := by
      intro b n hb
      cases (honly hb).2 }

def IsObject (L : HeapLayout) (p : Nat) : Prop :=
  ∃ sp o n idx, L sp = some (.slab o, n) ∧ idx < slabCap o ∧ p = objectAt sp o idx

/-- What the calls can cope with: requests that do not wrap round, null and live pointers,
and for `kfree` slab pointers that are live no longer. -/
def HeapOp.Proper (L : HeapLayout) (s : HeapState) : HeapOp → Prop
  | .kmalloc size growth | .kzalloc size growth => Servable size growth
  | .krealloc ptr size growth => Servable size growth ∧ (ptr = 0 ∨ ∃ x ∈ s.live, x.ptr = ptr)
  | .kfree ptr => ptr = 0 ∨ (∃ x ∈ s.live, x.ptr = ptr) ∨ IsObject L ptr
  | .write x m => x ∈ s.live ∧ ∀ a, a < x.ptr ∨ x.ptr + x.size ≤ a → m a = s.heap.mem a

variable {s : HeapState} {op : HeapOp}

theorem HeapOp.Allowed.proper (ha : op.Allowed s)
    (L : HeapLayout) : op.Proper L s := by
  cases op with
  | kmalloc size growth => exact servable_of_le ha growth
  | kzalloc size growth => exact servable_of_le ha growth
  | krealloc ptr size growth => exact ⟨servable_of_le ha.1 growth, ha.2⟩
  | kfree ptr => exact ha.imp_right .inl
  | write x m => exact ha

theorem kfree_of_stale {h : Heap} {L : HeapLayout} {live : List Live} {p : Nat}
    (hi : HeapInv h L live []) (hp : IsObject L p) (hstale : ∀ x ∈ live, x.ptr ≠ p) :
    kfree h p = h := by
  obtain ⟨sp, o, n, idx, hL, hidx, rfl⟩ := hp
  have hr := @objectAt_range sp o idx (hi.slabs sp o n hL).2 hidx
  have hsp := hi.base_pos hL
  rw [kfree_eq (by omega) (slabFree_of_stale hi hL hidx hstale), if_pos rfl]

/-- **One step** of a proper call returns and keeps the invariant. -/
theorem heapStep_spec {L : HeapLayout} (hi : HeapInv s.heap L s.live [])
    (ha : op.Proper L s) : ∃ s', heapStep s op = some s' ∧
      ∃ L', SlabsKept L L' ∧ HeapInv s'.heap L' s'.live [] := by
  cases op with
  | kmalloc size growth =>
    obtain ⟨r, heq, hr⟩ := kmalloc_spec hi ha
    exact ⟨_, by rw [heapStep, heq]; rfl, hr.inv hi⟩
  | kzalloc size growth =>
    obtain ⟨r, heq, hr⟩ := kzalloc_spec hi ha
    exact ⟨_, by rw [heapStep, heq]; rfl, hr⟩
  | krealloc ptr size growth =>
    obtain ⟨hs, hz | ⟨x, hx, rfl⟩⟩ := ha
    · obtain ⟨r, heq, hr⟩ := kmalloc_spec hi hs
      have hk : krealloc s.heap ptr size growth = some r := by
        rw [krealloc, if_pos hz]
        exact heq
      refine ⟨_, by rw [heapStep, hk]; rfl, ?_⟩
      dsimp only
      rw [if_pos hz]
      exact hr.inv hi
    · obtain ⟨r, heq, hr⟩ := krealloc_spec hi hx hs
      refine ⟨_, by rw [heapStep, heq]; rfl, ?_⟩
      dsimp only
      rw [if_neg (hi.ptr_pos hx)]
      exact hr.inv
  | kfree ptr =>
    by_cases hlive : ∃ x ∈ s.live, x.ptr = ptr
    · obtain ⟨x, hx, rfl⟩ := hlive
      obtain ⟨-, hleave, hi'⟩ := kfree_spec hi hx
      exact ⟨_, rfl, _, hleave.slabs, hi'⟩
    · have hstale : ∀ x ∈ s.live, x.ptr ≠ ptr := fun x hx hc => hlive ⟨x, hx, hc⟩
      have hall : (s.live.filter fun y => y.ptr ≠ ptr) = s.live :=
        List.filter_eq_self.mpr fun y hy => decide_eq_true (hstale y hy)
      have hnop : kfree s.heap ptr = s.heap := by
        obtain hz | hlive' | hobj := ha
        · rw [kfree, if_pos hz]
        · exact absurd hlive' hlive
        · exact kfree_of_stale hi hobj hstale
      refine ⟨_, rfl, L, fun _ _ _ hc => hc, ?_⟩
      dsimp only
      rw [hall, hnop]
      exact hi
  | write x m => exact ⟨_, rfl, L, fun _ _ _ hc => hc, hi.write ha.1 ha.2⟩

theorem heapInv_of_reachable {m fresh : Mem} (h : HeapReachable m fresh s) :
    ∃ L, HeapInv s.heap L s.live [] := by
  induction h with
  | refl =>
    dsimp only
    exact heapInv_heapInit m fresh
  | tail _ hstep ih =>
    obtain ⟨L, hi⟩ := ih
    obtain ⟨op, ha, heq⟩ := hstep
    obtain ⟨s', heq', L', -, hinv⟩ := heapStep_spec hi (ha.proper L)
    rw [heq] at heq'
    cases heq'
    exact ⟨L', hinv⟩

/-- The range of a live pointer lies inside one slab object or one span, with
the alignment of its tier. -/
def Live.InPlace (L : HeapLayout) (x : Live) : Prop :=
  match x.tier with
  | .slab => ∃ sp o idx, L sp = some (.slab o, pageSize) ∧ idx < slabCap o ∧
      x.ptr = objectAt sp o idx ∧ x.ptr + x.size ≤ objectAt sp o idx + 2 ^ o ∧ 2 ^ o ∣ x.ptr
  | .large => ∃ b n, L b = some (.alloc, n) ∧ x.ptr = b + largeHdrSize ∧
      x.ptr + x.size ≤ b + n ∧ 16 ∣ x.ptr

/-- The heap is in order: `L` partitions its pages into slab pages, free spans
and allocated spans, which are the pages of the class lists, the nodes of the
free list and the spans of live pointers; live ranges are where they belong. -/
structure HeapSafe (s : HeapState) (L : HeapLayout) : Prop where
  partition : IsTiling pageSize heapVirtBase s.heap.heapCursor L
  slabPage : ∀ b o n, L b = some (.slab o, n) → n = pageSize ∧ IsOrder o
  slabPages : ∀ o, IsOrder o → ∃ l,
    Path (nextSlab s.heap.mem) (toPtr (s.heap.slabClasses (o - slabMinOrder))) l ∧
      ∀ b, b ∈ l ↔ ∃ n, L b = some (.slab o, n)
  freeSpans : ∃ l, Path (nextSpan s.heap.mem) (toPtr s.heap.largeFreeList) l ∧
    ∀ b, b ∈ l ↔ ∃ n, L b = some (.free, n)
  allocSpans : ∀ b n, L b = some (.alloc, n) →
    ∃ x ∈ s.live, x.tier = .large ∧ x.ptr = b + largeHdrSize
  inPlace : ∀ x ∈ s.live, 0 < x.size ∧ x.InPlace L
  disjoint : s.live.Pairwise fun x y => x.ptr + x.size ≤ y.ptr ∨ y.ptr + y.size ≤ x.ptr
  clear : ∀ x ∈ s.live, ∀ b k n, L b = some (k, n) →
    x.ptr + x.size ≤ b ∨ b + k.metaSize ≤ x.ptr
  routed : ∀ x ∈ s.live, Routed s.heap x

theorem HeapInv.inPlace {h : Heap} {L : HeapLayout} {live : List Live} {x : Live}
    (hi : HeapInv h L live []) (hx : x ∈ live) : x.InPlace L := by
  unfold Live.InPlace
  cases htier : x.tier with
  | slab =>
    obtain ⟨sp, o, idx, hL, ho, hidx, hptr, hsize, -⟩ := hi.slab_placed hx htier
    have hg := slab_geometry ho
    refine ⟨sp, o, idx, hL, hidx, hptr, by omega, ?_⟩
    rw [hptr, objectAt]
    refine Nat.dvd_add (Nat.dvd_add ?_ hg.2.2.2.2.2.1) (Nat.dvd_mul_left _ _)
    exact Nat.dvd_trans hg.2.2.2.2.2.2 (hi.tiling.aligned sp _ _ hL).1
  | large =>
    obtain ⟨b, n, hL, hptr, hsize, -⟩ := hi.large_placed hx htier
    refine ⟨b, n, hL, hptr, by omega, ?_⟩
    rw [hptr]
    refine Nat.dvd_add (Nat.dvd_trans ?_ (hi.tiling.aligned b _ _ hL).1) ?_
    · decide
    · decide

theorem HeapInv.safe {L : HeapLayout} (hi : HeapInv s.heap L s.live []) :
    HeapSafe s L where
  partition := hi.tiling
  slabPage := hi.slabs
  slabPages o ho := by
    obtain ⟨l, hp, -, hmem⟩ := hi.classes o ho
    exact ⟨l, hp, hmem⟩
  freeSpans := by
    obtain ⟨l, hd, -, hmem⟩ := hi.freeList
    exact ⟨l, hd.path, hmem⟩
  allocSpans b n hb := (hi.owned b n hb).mp List.not_mem_nil
  inPlace x hx := ⟨(hi.placed x hx).1, hi.inPlace hx⟩
  disjoint := by
    have hne : s.live.Pairwise fun x y => x.ptr ≠ y.ptr := List.pairwise_map.mp hi.distinct
    exact hne.imp_of_mem fun hx hy hxy => hi.live_disjoint hx hy hxy
  clear x hx b k n hL := hi.live_clear_of_meta hx hL
  routed x hx := (kfree_spec hi hx).1

/-- **The heap stays in order.** However calls and mappings turn out, the
pages stay partitioned, live ranges stay apart from each other and from all
metadata, `kfree` knows the tier of every live pointer, and no call runs
forever. -/
theorem heapSafe_of_reachable {m fresh : Mem} {s : HeapState} (h : HeapReachable m fresh s) :
    (∃ L, HeapSafe s L) ∧ ∀ op : HeapOp, op.Allowed s → ∃ s', heapStep s op = some s' := by
  obtain ⟨L, hi⟩ := heapInv_of_reachable h
  refine ⟨⟨L, hi.safe⟩, fun op ha => ?_⟩
  obtain ⟨s', heq, -⟩ := heapStep_spec hi (ha.proper L)
  exact ⟨s', heq⟩

theorem heapSafe_two_tiers :
    ∃ s, HeapReachable (fun _ => 0) (fun _ => 0) s ∧
      s.live = [⟨heapVirtBase + 0x4040, 24, .slab⟩, ⟨heapVirtBase + 32, 5000, .large⟩] ∧
      ∃ L, HeapSafe s L := by
  have hrun : ((heapStep ⟨heapInit (fun _ => 0) (some fun _ => 0), []⟩ (.kmalloc 5000 none)).bind
      fun s => heapStep s (.kmalloc 24 (some fun _ => 0))).map HeapState.live =
      some [⟨heapVirtBase + 0x4040, 24, .slab⟩, ⟨heapVirtBase + 32, 5000, .large⟩] := by
    decide +kernel
  obtain ⟨s, hs, hlive⟩ := Option.map_eq_some_iff.mp hrun
  obtain ⟨s1, h1, h2⟩ := Option.bind_eq_some_iff.mp hs
  have hr : HeapReachable (fun _ => 0) (fun _ => 0) s :=
    .tail (.tail .refl ⟨.kmalloc 5000 none, by show 5000 ≤ heapMaxSize; decide, h1⟩)
      ⟨.kmalloc 24 (some fun _ => 0), by show 24 ≤ heapMaxSize; decide, h2⟩
  exact ⟨s, hr, hlive, (heapSafe_of_reachable hr).1⟩

end DevOs
