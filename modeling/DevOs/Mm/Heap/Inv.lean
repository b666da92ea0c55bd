import DevOs.Lib.Links
import DevOs.Lib.Tiling
import DevOs.Mm.Heap
import Mathlib.Tactic.IntervalCases

/-!
The invariant of the kernel heap.
-/

namespace DevOs

open ByteMem Intrusive Tiling Bitmap

def slabCap (order : Nat) : Nat :=
  shrinkCapacity (2 ^ order) ((pageSize - slabHdrSize) / 2 ^ order)

def slabData (order : Nat) : Nat := dataOffset (slabCap order) (2 ^ order)

def IsOrder (order : Nat) : Prop := slabMinOrder ≤ order ∧ order ≤ slabMaxOrder

theorem slab_geometry {o : Nat} (ho : IsOrder o) :
    0 < slabCap o ∧ slabCap o < 2 ^ 16 ∧ slabCap o ≤ bitmapWordsFor (slabCap o) * 64 ∧
      slabHdrSize + 8 * bitmapWordsFor (slabCap o) ≤ slabData o ∧
      slabData o + slabCap o * 2 ^ o ≤ pageSize ∧ 2 ^ o ∣ slabData o ∧ 2 ^ o ∣ pageSize := by
  obtain ⟨hlo, hhi⟩ := ho
  unfold slabMinOrder at hlo
  unfold slabMaxOrder at hhi
  interval_cases o <;> decide +kernel

inductive TileKind where
  | slab (order : Nat)
  | free
  | alloc
  deriving DecidableEq, Repr

abbrev HeapLayout := Layout TileKind

/-- The bytes at the start of a tile that belong to the allocator: header and
bitmap of a slab page, header of a span. -/
def TileKind.metaSize : TileKind → Nat
  | .slab order => slabData order
  | .free | .alloc => largeHdrSize

def HeaderOk (m : Mem) (b : Nat) : TileKind × Nat → Prop
  | (.slab order, _) =>
    load 8 m b = slabPageMagic ∧ slabObjSize m b = 2 ^ order ∧ slabCapacity m b = slabCap order
  | (.free, size) => load 8 m b = heapMagicFree ∧ largeSize m b = size
  | (.alloc, size) => load 8 m b = heapMagicAlloc ∧ largeSize m b = size

def toPtr (p : Nat) : Option Nat := if p = 0 then none else some p

def nextSpan (m : Mem) (b : Nat) : Option Nat := toPtr (largeNext m b)

def prevSpan (m : Mem) (b : Nat) : Option Nat := toPtr (largePrev m b)

def nextSlab (m : Mem) (b : Nat) : Option Nat := toPtr (slabNext m b)

def slotUsed (m : Mem) (sp idx : Nat) : Prop := test (slabBitmap m sp) idx = true

inductive Tier where
  | slab
  | large
  deriving DecidableEq, Repr

/-- A pointer that has been handed out, with the size asked for and the tier
that it came from. -/
structure Live where
  ptr : Nat
  size : Nat
  tier : Tier
  deriving DecidableEq, Repr

/-- Object `idx` of the slab page of order `o` at `sp`. -/
def objectAt (sp o idx : Nat) : Nat := sp + slabData o + idx * 2 ^ o

/-- Where a live pointer points: into a slot that is taken, or behind the
header of an allocated span that is large enough. -/
def LiveOk (m : Mem) (L : HeapLayout) (x : Live) : Prop :=
  0 < x.size ∧ match x.tier with
    | .slab => ∃ sp o idx, L sp = some (.slab o, pageSize) ∧ idx < slabCap o ∧
        x.ptr = objectAt sp o idx ∧ x.size ≤ 2 ^ o ∧ slotUsed m sp idx
    | .large => ∃ b n, L b = some (.alloc, n) ∧ x.ptr = b + largeHdrSize ∧
        x.size + largeHdrSize ≤ n

/-- The counters of a slab page agree with its bitmap, and its set bits stand for
live objects. -/
structure PageCount (m : Mem) (live : List Live) (sp o : Nat) : Prop where
  free : slabFreeCount m sp = (clearBits (slabBitmap m sp) (slabCap o)).card
  high : ∀ i, slabCap o ≤ i → i < bitmapWordsFor (slabCap o) * 64 →
    test (slabBitmap m sp) i = false
  hint : slabFirstFree m sp < slabCap o
  used : ∀ idx < slabCap o, slotUsed m sp idx →
    ∃ x ∈ live, x.tier = .slab ∧ x.ptr = objectAt sp o idx

structure HeapInv (h : Heap) (L : HeapLayout) (live : List Live) (holes : List Nat) : Prop where
  tiling : IsTiling pageSize heapVirtBase h.heapCursor L
  cursor : heapVirtBase ≤ h.heapCursor ∧ h.heapCursor ≤ heapVirtBase + heapMaxSize ∧
    pageSize ∣ h.heapCursor
  slabs : ∀ b o n, L b = some (.slab o, n) → n = pageSize ∧ IsOrder o
  header : ∀ b t, L b = some t → b ∉ holes → HeaderOk h.mem b t
  hole : ∀ b ∈ holes, ∃ n, L b = some (.alloc, n) ∧ largeSize h.mem b = n
  freeList : ∃ l, Dll (nextSpan h.mem) (prevSpan h.mem) none (toPtr h.largeFreeList) l ∧
    l.Nodup ∧ ∀ b, b ∈ l ↔ ∃ n, L b = some (.free, n)
  classes : ∀ o, IsOrder o → ∃ l,
    Path (nextSlab h.mem) (toPtr (h.slabClasses (o - slabMinOrder))) l ∧
    l.Nodup ∧ ∀ b, b ∈ l ↔ ∃ n, L b = some (.slab o, n)
  counts : ∀ sp o n, L sp = some (.slab o, n) → PageCount h.mem live sp o
  placed : ∀ x ∈ live, LiveOk h.mem L x
  distinct : (live.map Live.ptr).Nodup
  owned : ∀ b n, L b = some (.alloc, n) →
    (b ∉ holes ↔ ∃ x ∈ live, x.tier = .large ∧ x.ptr = b + largeHdrSize)

/-- A byte behind the metadata of a tile in use: only the owners of live pointers write
there. -/
def Payload (L : HeapLayout) (x : Nat) : Prop :=
  ∃ b k n, L b = some (k, n) ∧ k ≠ .free ∧ b + k.metaSize ≤ x ∧ x < b + n

/-! ## What the operations leave alone -/

def SlabsKept (L L' : HeapLayout) : Prop :=
  ∀ sp o n, L sp = some (.slab o, n) → L' sp = some (.slab o, n)

structure Leaves (h : Heap) (L : HeapLayout) (h' : Heap) (L' : HeapLayout) : Prop where
  slabs : SlabsKept L L'
  payload : ∀ x, Payload L x → h'.mem x = h.mem x

def SameMeta (m m' : Mem) (b : Nat) (k : TileKind) : Prop :=
  ∀ x, b ≤ x → x < b + k.metaSize → m' x = m x

section

variable {m m' : Mem} {b : Nat} {k : TileKind} {o : Nat}

theorem metaSize_bounds (hk : ∀ o, k = .slab o → IsOrder o) :
    32 ≤ k.metaSize ∧ k.metaSize ≤ pageSize := by
  cases k with
  | slab o =>
    have hg := slab_geometry (hk o rfl)
    have hle : 0 ≤ slabCap o * 2 ^ o := Nat.zero_le _
    simp only [TileKind.metaSize]
    unfold slabHdrSize at hg
    omega
  | free => decide
  | alloc => decide

theorem SameMeta.load (h : SameMeta m m' b k) {n a : Nat} (hlo : b ≤ a)
    (hhi : a + n ≤ b + k.metaSize) : ByteMem.load n m' a = ByteMem.load n m a :=
  load_congr fun x hx hx' => h x (by omega) (by omega)

theorem SameMeta.trans {m'' : Mem} (h : SameMeta m m' b k) (h' : SameMeta m' m'' b k) :
    SameMeta m m'' b k :=
  fun x hlo hhi => (h' x hlo hhi).trans (h x hlo hhi)

theorem sameMeta_store {n a v : Nat} (h : a + n ≤ b ∨ b + k.metaSize ≤ a) :
    SameMeta m (store n m a v) b k :=
  fun x hlo hhi => store_apply_of_disjoint (by omega)

theorem SameMeta.header (h : SameMeta m m' b k) (hk : ∀ o, k = .slab o → IsOrder o) {n : Nat}
    (hh : HeaderOk m b (k, n)) : HeaderOk m' b (k, n) := by
  have hb := metaSize_bounds hk
  cases k with
  | slab o =>
    obtain ⟨hm, hs, hc⟩ := hh
    unfold slabObjSize at hs
    unfold slabCapacity at hc
    refine ⟨?_, ?_, ?_⟩
    · rw [h.load (by omega) (by omega)]; exact hm
    · rw [slabObjSize, h.load (by omega) (by omega)]; exact hs
    · rw [slabCapacity, h.load (by omega) (by omega)]; exact hc
  | free =>
    obtain ⟨hm, hs⟩ := hh
    unfold largeSize at hs
    refine ⟨?_, ?_⟩
    · rw [h.load (by omega) (by omega)]; exact hm
    · rw [largeSize, h.load (by omega) (by omega)]; exact hs
  | alloc =>
    obtain ⟨hm, hs⟩ := hh
    unfold largeSize at hs
    refine ⟨?_, ?_⟩
    · rw [h.load (by omega) (by omega)]; exact hm
    · rw [largeSize, h.load (by omega) (by omega)]; exact hs

theorem SameMeta.largeSize (h : SameMeta m m' b .alloc) :
    DevOs.largeSize m' b = DevOs.largeSize m b :=
  h.load (by omega) (by simp only [TileKind.metaSize, largeHdrSize]; omega)

theorem SameMeta.nextSpan (h : SameMeta m m' b .free) : DevOs.nextSpan m' b = DevOs.nextSpan m b :=
  congrArg toPtr (h.load (by omega) (by simp only [TileKind.metaSize, largeHdrSize]; omega))

theorem SameMeta.prevSpan (h : SameMeta m m' b .free) : DevOs.prevSpan m' b = DevOs.prevSpan m b :=
  congrArg toPtr (h.load (by omega) (by simp only [TileKind.metaSize, largeHdrSize]; omega))

theorem SameMeta.nextSlab (h : SameMeta m m' b (.slab o)) (ho : IsOrder o) :
    DevOs.nextSlab m' b = DevOs.nextSlab m b := by
  have hb := metaSize_bounds (k := .slab o) (fun _ hc => by cases hc; exact ho)
  exact congrArg toPtr (h.load (by omega) (by omega))

theorem SameMeta.slabBitmap (h : SameMeta m m' b (.slab o)) (ho : IsOrder o) {w : Nat}
    (hw : w < bitmapWordsFor (slabCap o)) : DevOs.slabBitmap m' b w = DevOs.slabBitmap m b w := by
  have hg := slab_geometry ho
  refine congrArg (BitVec.ofNat 64) (h.load (by omega) ?_)
  simp only [TileKind.metaSize]
  omega

theorem slotWord_lt {o idx : Nat} (ho : IsOrder o) (hidx : idx < slabCap o) :
    idx / 64 < bitmapWordsFor (slabCap o) := by
  have hg := slab_geometry ho
  rw [Nat.div_lt_iff_lt_mul (by decide)]
  omega

theorem SameMeta.slotUsed {o idx : Nat} (h : SameMeta m m' b (.slab o)) (ho : IsOrder o)
    (hidx : idx < slabCap o) : DevOs.slotUsed m' b idx ↔ DevOs.slotUsed m b idx := by
  unfold DevOs.slotUsed test
  rw [h.slabBitmap ho (slotWord_lt ho hidx)]

theorem SameMeta.pageCount {live live' : List Live} (h : SameMeta m m' b (.slab o))
    (ho : IsOrder o) (hlive : ∀ idx < slabCap o, ∀ x ∈ live, x.tier = .slab →
      x.ptr = objectAt b o idx → ∃ y ∈ live', y.tier = .slab ∧ y.ptr = x.ptr)
    (hp : PageCount m live b o) : PageCount m' live' b o := by
  have hb := metaSize_bounds (k := .slab o) (fun _ hc => by cases hc; exact ho)
  have htest : ∀ i, i < bitmapWordsFor (slabCap o) * 64 →
      test (DevOs.slabBitmap m' b) i = test (DevOs.slabBitmap m b) i := by
    intro i hi
    unfold test
    rw [h.slabBitmap ho ((Nat.div_lt_iff_lt_mul (by decide)).mpr hi)]
  have hclear : clearBits (DevOs.slabBitmap m' b) (slabCap o) =
      clearBits (DevOs.slabBitmap m b) (slabCap o) := by
    refine Finset.filter_congr fun i hi => ?_
    have := (slab_geometry ho).2.2.1
    rw [htest i (by have := Finset.mem_range.mp hi; omega)]
  have hcount : slabFreeCount m' b = slabFreeCount m b := h.load (by omega) (by omega)
  have hhint : slabFirstFree m' b = slabFirstFree m b := h.load (by omega) (by omega)
  refine ⟨?_, fun i hlo hhi => ?_, ?_, fun idx hidx hu => ?_⟩
  · rw [hcount, hclear]
    exact hp.free
  · rw [htest i hhi]
    exact hp.high i hlo hhi
  · rw [hhint]
    exact hp.hint
  · obtain ⟨x, hx, htier, hptr⟩ := hp.used idx hidx ((h.slotUsed ho hidx).mp hu)
    obtain ⟨y, hy, hytier, hyptr⟩ := hlive idx hidx x hx htier hptr
    exact ⟨y, hy, hytier, hyptr.trans hptr⟩

end

theorem ne_of_kind {L : HeapLayout} {b b' n n' : Nat} {k k' : TileKind} (hb : L b = some (k, n))
    (hb' : L b' = some (k', n')) (hk : k ≠ k') : b ≠ b' := by
  rintro rfl
  rw [hb] at hb'
  cases hb'
  exact hk rfl

namespace HeapInv

variable {h : Heap} {L : HeapLayout} {live : List Live} {holes : List Nat} {b b' n n' : Nat}
  {k k' : TileKind} {x : Live}

section

variable (hi : HeapInv h L live holes)
include hi

section

variable (hb : L b = some (k, n))
include hb

theorem base_pos : b ≠ 0 := by
  have hin := hi.tiling.inside b k n hb
  have : 0 < heapVirtBase := by decide
  omega

theorem page_le : pageSize ≤ n :=
  Nat.le_of_dvd (hi.tiling.pos b k n hb) (hi.tiling.aligned b k n hb).2

theorem apart (hb' : L b' = some (k', n'))
    (hne : b ≠ b') : b + pageSize ≤ b' ∨ b' + pageSize ≤ b := by
  have hd := hi.tiling.disjoint b k n b' k' n' hb hb' hne
  have hn := hi.page_le hb
  have hn' := hi.page_le hb'
  omega

theorem isOrder : ∀ o, k = .slab o → IsOrder o := by
  rintro o rfl
  exact (hi.slabs b o n hb).2

theorem meta_le : 32 ≤ k.metaSize ∧ k.metaSize ≤ pageSize :=
  metaSize_bounds (hi.isOrder hb)

theorem not_hole (hk : k ≠ .alloc) : b ∉ holes := by
  intro hmem
  obtain ⟨n', hb', -⟩ := hi.hole b hmem
  exact ne_of_kind hb hb' hk rfl

theorem header_frame (hnot : b ∉ holes)
    {m' : Mem} (hm : SameMeta h.mem m' b k) : HeaderOk m' b (k, n) :=
  hm.header (hi.isOrder hb) (hi.header b _ hb hnot)

end

theorem freeList_frame {m' : Mem} (hm : ∀ b n, L b = some (.free, n) → SameMeta h.mem m' b .free) :
    ∃ l, Dll (nextSpan m') (prevSpan m') none (toPtr h.largeFreeList) l ∧
      l.Nodup ∧ ∀ b, b ∈ l ↔ ∃ n, L b = some (.free, n) := by
  obtain ⟨l, hd, hnd, hmem⟩ := hi.freeList
  refine ⟨l, hd.frame ?_ ?_, hnd, hmem⟩
  · intro y hy
    obtain ⟨n, hL⟩ := (hmem y).mp hy
    exact (hm y n hL).nextSpan
  · intro y hy
    obtain ⟨n, hL⟩ := (hmem y).mp hy
    exact (hm y n hL).prevSpan

theorem sameMeta_below (hb : L b = some (k, n)) {m' : Mem}
    (hm : ∀ x, x < h.heapCursor → m' x = h.mem x) : SameMeta h.mem m' b k := by
  intro x hlo hhi
  have hin := hi.tiling.inside b k n hb
  have hmeta := metaSize_bounds (hi.isOrder hb)
  have hpage := hi.page_le hb
  exact hm x (by omega)

theorem keep_below {t t' : TileKind × Nat} (hb : L b = some t) :
    Function.update L h.heapCursor (some t') b = some t := by
  have hne : b ≠ h.heapCursor := by
    rintro rfl
    rw [hi.tiling.hi_eq_none] at hb
    cases hb
  rwa [Function.update_of_ne hne]

theorem slab_placed (hx : x ∈ live)
    (htier : x.tier = .slab) : ∃ sp o idx, L sp = some (.slab o, pageSize) ∧ IsOrder o ∧
      idx < slabCap o ∧ x.ptr = objectAt sp o idx ∧ x.size ≤ 2 ^ o ∧ slotUsed h.mem sp idx := by
  obtain ⟨-, hok⟩ := hi.placed x hx
  rw [htier] at hok
  obtain ⟨sp, o, idx, hL, hrest⟩ := hok
  exact ⟨sp, o, idx, hL, (hi.slabs sp o _ hL).2, hrest⟩

theorem large_placed (hx : x ∈ live)
    (htier : x.tier = .large) : ∃ b n, L b = some (.alloc, n) ∧ x.ptr = b + largeHdrSize ∧
      x.size + largeHdrSize ≤ n ∧ b ∉ holes := by
  obtain ⟨-, hok⟩ := hi.placed x hx
  rw [htier] at hok
  obtain ⟨b, n, hL, hptr, hsize⟩ := hok
  exact ⟨b, n, hL, hptr, hsize, (hi.owned b n hL).mpr ⟨x, hx, htier, hptr⟩⟩

end

theorem replace {L' : HeapLayout} (hi : HeapInv h L live holes) (m' : Mem)
    (hL' : ∀ c m, L c = some (.alloc, m) → c ∉ holes → L' c = some (.alloc, m))
    (hx : x ∈ live) : x ∈ live ∧ x.tier = .slab ∨ x.tier = .large ∧ LiveOk m' L' x := by
  cases htier : x.tier with
  | slab => exact .inl ⟨hx, rfl⟩
  | large =>
    obtain ⟨c, m, hc, hptr, hsz, hnot⟩ := hi.large_placed hx htier
    refine .inr ⟨rfl, (hi.placed x hx).1, ?_⟩
    rw [htier]
    exact ⟨c, m, hL' c m hc hnot, hptr, hsz⟩

variable (hi : HeapInv h L live holes)
include hi

theorem sameMeta_store_apart (hb : L b = some (k, n))
    (hb' : L b' = some (k', n')) (hne : b ≠ b') {m : Mem} {w a v : Nat} (hlo : b' ≤ a)
    (hhi : a + w ≤ b' + pageSize) : SameMeta m (store w m a v) b k := by
  have hap := hi.apart hb hb' hne
  have hm := hi.meta_le hb
  exact sameMeta_store (by omega)

/-- Writes to the payload keep the invariant. -/
theorem frame {m' : Mem} (hm : ∀ b k n, L b = some (k, n) → SameMeta h.mem m' b k) :
    HeapInv { h with mem := m' } L live holes where
  tiling := hi.tiling
  cursor := hi.cursor
  slabs := hi.slabs
  header b t hb hh := hi.header_frame hb hh (hm b t.1 t.2 hb)
  hole b hb := by
    obtain ⟨n, hL, hs⟩ := hi.hole b hb
    exact ⟨n, hL, (hm b .alloc n hL).largeSize.trans hs⟩
  freeList := hi.freeList_frame fun b n hb => hm b .free n hb
  classes o ho := by
    obtain ⟨l, hp, hnd, hmem⟩ := hi.classes o ho
    refine ⟨l, hp.frame fun y hy => ?_, hnd, hmem⟩
    obtain ⟨n, hL⟩ := (hmem y).mp hy
    exact (hm y (.slab o) n hL).nextSlab ho
  counts sp o n hL := (hm sp (.slab o) n hL).pageCount (hi.slabs sp o n hL).2
    (fun _ _ x hx htier _ => ⟨x, hx, htier, rfl⟩) (hi.counts sp o n hL)
  placed x hx := by
    obtain ⟨-, htier⟩ | ⟨-, hok⟩ := hi.replace m' (fun _ _ hc _ => hc) hx
    · obtain ⟨sp, o, idx, hL, ho, hidx, hptr, hsize, hused⟩ := hi.slab_placed hx htier
      refine ⟨(hi.placed x hx).1, ?_⟩
      rw [htier]
      exact ⟨sp, o, idx, hL, hidx, hptr, hsize, ((hm sp (.slab o) _ hL).slotUsed ho hidx).mpr hused⟩
    · exact hok
  distinct := hi.distinct
  owned := hi.owned

theorem payload_clear {x : Nat} (hx : Payload L x)
    (hb : L b = some (k, n)) : (x < b ∨ b + k.metaSize ≤ x) ∧ (k = .free → x < b ∨ b + n ≤ x) := by
  obtain ⟨c, k', m, hc, hk, hlo, hhi⟩ := hx
  by_cases hcb : c = b
  · subst hcb
    rw [hb] at hc
    cases hc
    exact ⟨.inr hlo, fun hf => absurd hf hk⟩
  · have hd := hi.tiling.disjoint c k' m b k n hc hb hcb
    have hmeta := hi.meta_le hb
    have hn := hi.page_le hb
    omega

theorem payload_lt {x : Nat} (hx : Payload L x) : x < h.heapCursor := by
  obtain ⟨c, k', m, hc, -, -, hhi⟩ := hx
  have := hi.tiling.inside c k' m hc
  omega

end HeapInv

end DevOs
