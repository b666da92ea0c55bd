import DevOs.Elf
import DevOs.Mm.Heap.History
import DevOs.Mm.Vmm.Progress

/-!
`heap_map_pages` with the frames and the page tables below it.
-/

namespace DevOs

open ByteMem FrameSupply

structure KernelHeap where
  heap : Heap
  phys : Phys Pmm

/-- The number of pages that `kmalloc` asks `heap_map_pages` for, if it does. -/
def kmallocPages (h : Heap) (size : Nat) : Option Nat :=
  if size = 0 then none
  else if size ≤ largeThreshold ∧ sizeOrder size ≤ slabMaxOrder then
    if findSlab h.mem heapFuel (h.slabClasses (sizeOrder size - slabMinOrder)) = some 0 then some 1
    else none
  else
    let total := alignUp (size + largeHdrSize) pageSize
    if bestFit h.mem total heapFuel h.largeFreeList 0 = some 0 then some (total / pageSize)
    else none

def kreallocPages (h : Heap) (ptr size : Nat) : Option Nat :=
  if ptr = 0 then kmallocPages h size
  else if size = 0 then none
  else if size ≤ usableSize h.mem ptr then none
  else kmallocPages h size

inductive HeapCall where
  | kmalloc (size : Nat)
  | krealloc (ptr size : Nat)

def HeapCall.pages (h : Heap) : HeapCall → Option Nat
  | .kmalloc size => kmallocPages h size
  | .krealloc ptr size => kreallocPages h ptr size

/-- `heap_cursor + bytes > HEAP_VIRT_BASE + HEAP_MAX_SIZE`. -/
abbrev PastLimit (h : Heap) (count : Nat) : Prop :=
  heapVirtBase + heapMaxSize < (h.heapCursor + count * pageSize % 2 ^ 64) % 2 ^ 64

/-- The loop of `heap_map_pages`: what the growth comes to, and the frames and tables after
it. `pmm_alloc` has zeroed the pages. -/
def growPages (pml4 : Nat) (k : KernelHeap) (count : Nat) : Option Mem × Phys Pmm :=
  if PastLimit k.heap count then (none, k.phys)
  else
    let r := allocRangeLoop pml4 heapFlags count (BitVec.ofNat 64 k.heap.heapCursor) k.phys
    (if r.1 then some fun _ => 0 else none, r.2)

def grownPages (pml4 : Nat) (k : KernelHeap) (count : Nat) : List (BitVec 64) :=
  if PastLimit k.heap count then []
  else mappedPages pml4 heapFlags count (BitVec.ofNat 64 k.heap.heapCursor) k.phys

/-- `kmalloc`; `none` if it does not return. When the heap has grown, the first thing written
is a header at the old cursor, which must be mapped by then. -/
def kmallocOn (pml4 : Nat) (k : KernelHeap) (size : Nat) : Option (Nat × KernelHeap) :=
  match kmallocPages k.heap size with
  | none => (kmalloc k.heap size none).map fun r => (r.1, ⟨r.2, k.phys⟩)
  | some count =>
    let g := growPages pml4 k count
    if g.1 ≠ none ∧ vmmTranslate g.2.mem pml4 (BitVec.ofNat 64 k.heap.heapCursor) = 0 then none
    else (kmalloc k.heap size g.1).map fun r => (r.1, ⟨r.2, g.2⟩)

def kzallocOn (pml4 : Nat) (k : KernelHeap) (size : Nat) : Option (Nat × KernelHeap) :=
  (kmallocOn pml4 k size).map fun r =>
    if r.1 = 0 then r else (r.1, ⟨{ r.2.heap with mem := fill r.2.heap.mem r.1 size 0 }, r.2.phys⟩)

def kfreeOn (k : KernelHeap) (ptr : Nat) : KernelHeap := { k with heap := kfree k.heap ptr }

theorem heapFlags_present : heapFlags &&& vmmPresent ≠ 0 := by decide

theorem heapFlags_mask : heapFlags &&& vmmPhysMask = 0 := by decide

section

variable {h : Heap} {size count : Nat} {growth : Option Mem} {r : Nat × Heap} {h' : Heap}

theorem heapMapPages_of_fails (hf : PastLimit h count ∨ growth = none) :
    heapMapPages h count growth = (0, h) := by
  unfold heapMapPages
  dsimp only
  split
  · rfl
  · next hpast =>
      rw [hf.resolve_left hpast]

theorem heapMapPages_of_succeeds (hpast : ¬ PastLimit h count) (hg : growth ≠ none) :
    (heapMapPages h count growth).1 = h.heapCursor ∧ (heapMapPages h count growth).2.heapCursor =
        (h.heapCursor + count * pageSize % 2 ^ 64) % 2 ^ 64 := by
  obtain ⟨fresh, rfl⟩ := Option.ne_none_iff_exists'.mp hg
  rw [heapMapPages, if_neg hpast]
  exact ⟨rfl, rfl⟩

theorem heapMapPages_freeList (h : Heap) (count : Nat) (growth : Option Mem) :
    (heapMapPages h count growth).2.largeFreeList = h.largeFreeList := by
  unfold heapMapPages
  dsimp only
  split
  · rfl
  · cases growth <;> rfl

theorem slabTake_cases (h : Heap) (sp : Nat) : (slabTake h sp).2.heapCursor = h.heapCursor ∧
      (slabTake h sp = (0, h) ∨ sp ≤ (slabTake h sp).1) := by
  unfold slabTake
  dsimp only
  split
  · exact ⟨rfl, .inl rfl⟩
  · refine ⟨rfl, .inr ?_⟩
    unfold slabObject
    omega

theorem le_slabTake_of_new {sp o next : Nat} {m : Mem} (ho : IsOrder o)
    (hm : h.mem = store 8 (initSlab m sp o) (sp + 24) next) : sp ≤ (slabTake h sp).1 := by
  obtain ⟨hhead, -, -⟩ := @initSlab_spec sp o pageSize m next ho
  obtain ⟨hcount, hfree⟩ := @initSlab_pageCount [] sp o m ho next
  rw [← hm] at hhead hcount hfree
  obtain ⟨idx, -, hs, -⟩ := hcount.search_some ho hfree
  unfold slabTake
  dsimp only
  rw [hhead.2.2, hs]
  dsimp only
  unfold slabObject
  omega

/-- What `kmalloc` does with the growth: it does not ask for one, or fails with it, or serves
the request from the new pages. -/
inductive Grows (h : Heap) (size : Nat) (growth : Option Mem) : Nat × Heap → Prop
  | kept {ptr : Nat} {h' : Heap} : kmallocPages h size = none → h'.heapCursor = h.heapCursor →
      (ptr = 0 → h' = h) → Grows h size growth (ptr, h')
  | failed {count : Nat} : kmallocPages h size = some count → PastLimit h count ∨ growth = none →
      Grows h size growth (0, h)
  | grown {count ptr : Nat} {h' : Heap} : kmallocPages h size = some count →
      ¬ PastLimit h count → growth ≠ none →
      h'.heapCursor = (h.heapCursor + count * pageSize % 2 ^ 64) % 2 ^ 64 → h.heapCursor ≤ ptr →
      (count = 1 ∧ size ≤ largeThreshold ∨ ptr = h.heapCursor + largeHdrSize ∧
        count = alignUp (size + largeHdrSize) pageSize / pageSize) → Grows h size growth (ptr, h')

section

variable (hc : h.heapCursor ≠ 0)
include hc

theorem slabAlloc_grows (hz : size ≠ 0)
    (hsmall : size ≤ largeThreshold ∧ sizeOrder size ≤ slabMaxOrder)
    (heq : slabAlloc h (sizeOrder size) growth = some r) : Grows h size growth r := by
  have hpages : kmallocPages h size = if findSlab h.mem heapFuel
      (h.slabClasses (sizeOrder size - slabMinOrder)) = some 0 then some 1 else none := by
    rw [kmallocPages, if_neg hz, if_pos hsmall]
  unfold slabAlloc at heq
  dsimp only at heq
  split at heq
  · cases heq
  · next sp hfind =>
      split at heq
      · next hsp =>
          rw [hfind, hsp, if_pos rfl] at hpages
          unfold slabNewPage at heq
          by_cases hf : PastLimit h 1 ∨ growth = none
          · rw [heapMapPages_of_fails hf] at heq
            cases heq
            exact .failed hpages hf
          · rw [not_or] at hf
            obtain ⟨hfst, hcur⟩ := heapMapPages_of_succeeds hf.1 hf.2
            generalize heapMapPages h 1 growth = g at heq hfst hcur
            obtain ⟨sp', h'⟩ := g
            subst hfst
            simp only [if_neg hc] at heq
            cases heq
            refine .grown hpages hf.1 hf.2 ((slabTake_cases _ _).1.trans hcur) ?_
              (.inl ⟨rfl, hsmall.1⟩)
            exact le_slabTake_of_new (sizeOrder_spec hsmall.2).1 rfl
      · next hsp =>
          cases heq
          rw [hfind, if_neg fun hc => hsp (Option.some.inj hc)] at hpages
          obtain ⟨hcur, hnull | hle⟩ := slabTake_cases h sp
          · rw [hnull]
            exact .kept hpages rfl fun _ => rfl
          · exact .kept hpages hcur fun hp => absurd (hp ▸ hle) (by omega)

theorem largeAlloc_grows (hz : size ≠ 0)
    (hlarge : ¬ (size ≤ largeThreshold ∧ sizeOrder size ≤ slabMaxOrder))
    (heq : largeAlloc h size growth = some r) : Grows h size growth r := by
  have hpages : kmallocPages h size = if bestFit h.mem (alignUp (size + largeHdrSize) pageSize)
      heapFuel h.largeFreeList 0 = some 0 then
        some (alignUp (size + largeHdrSize) pageSize / pageSize) else none := by
    rw [kmallocPages, if_neg hz, if_neg hlarge]
  unfold largeAlloc at heq
  dsimp only at heq
  split at heq
  · cases heq
  · next best hfit =>
      split at heq
      · next hbest =>
          rw [hfit, hbest, if_pos rfl] at hpages
          by_cases hf : PastLimit h (alignUp (size + largeHdrSize) pageSize / pageSize) ∨
              growth = none
          · rw [heapMapPages_of_fails hf] at heq
            cases heq
            exact .failed hpages hf
          · rw [not_or] at hf
            obtain ⟨hfst, hcur⟩ := heapMapPages_of_succeeds hf.1 hf.2
            generalize heapMapPages h (alignUp (size + largeHdrSize) pageSize / pageSize) growth = g
              at heq hfst hcur
            obtain ⟨b, h'⟩ := g
            rw [hfst, if_neg hc] at heq
            cases heq
            exact .grown hpages hf.1 hf.2 ((served_cursor _ _ _).trans hcur)
              (Nat.le_add_right _ _) (.inr ⟨rfl, rfl⟩)
      · next hbest =>
          cases heq
          rw [hfit, if_neg fun hc => hbest (Option.some.inj hc)] at hpages
          refine .kept hpages ((served_cursor _ _ _).trans (largeRemoveFree_cursor h best)) ?_
          intro hp
          exact absurd (Nat.eq_zero_of_add_eq_zero_right hp) hbest

theorem kmalloc_grows (heq : kmalloc h size growth = some r) : Grows h size growth r := by
  unfold kmalloc at heq
  split at heq
  · next hz =>
      cases heq
      exact .kept (if_pos hz) rfl fun _ => rfl
  · next hz =>
      split at heq
      · next hsmall => exact slabAlloc_grows hc hz hsmall heq
      · next hlarge => exact largeAlloc_grows hc hz hlarge heq

theorem Grows.null (hg : Grows h size growth (0, h')) :
    h' = h ∧ ∀ count, kmallocPages h size = some count → PastLimit h count ∨ growth = none := by
  cases hg with
  | kept hp _ hsame =>
    refine ⟨hsame rfl, fun count hp' => ?_⟩
    rw [hp] at hp'
    cases hp'
  | failed hp hf =>
    refine ⟨rfl, fun count hp' => ?_⟩
    rw [hp] at hp'
    cases hp'
    exact hf
  | grown _ _ _ _ hle => exact absurd (Nat.le_zero.mp hle) hc

end

theorem Grows.cursor_of_none {ptr : Nat} (hg : Grows h size growth (ptr, h'))
    (hp : kmallocPages h size = none) : h'.heapCursor = h.heapCursor := by
  cases hg with
  | kept _ hcur => exact hcur
  | failed => rfl
  | grown hp' =>
    rw [hp] at hp'
    cases hp'

theorem Grows.of_some {ptr : Nat} (hg : Grows h size growth (ptr, h'))
    (hp : kmallocPages h size = some count) (hptr : ptr ≠ 0) : ¬ PastLimit h count ∧ growth ≠ none ∧
      h'.heapCursor = (h.heapCursor + count * pageSize % 2 ^ 64) % 2 ^ 64 ∧ h.heapCursor ≤ ptr ∧
      (count = 1 ∧ size ≤ largeThreshold ∨ ptr = h.heapCursor + largeHdrSize ∧
        count = alignUp (size + largeHdrSize) pageSize / pageSize) := by
  cases hg with
  | kept hp' =>
    rw [hp] at hp'
    cases hp'
  | failed => exact absurd rfl hptr
  | grown hp' hpast hgrow hcur hle hkind =>
    rw [hp] at hp'
    cases hp'
    exact ⟨hpast, hgrow, hcur, hle, hkind⟩

theorem kmalloc_of_fails (hp : kmallocPages h size = some count)
    (hf : PastLimit h count ∨ growth = none) : kmalloc h size growth = some (0, h) := by
  unfold kmallocPages at hp
  unfold kmalloc
  split at hp
  · cases hp
  · next hz =>
      rw [if_neg hz]
      split at hp
      · next hsmall =>
          split at hp <;> cases hp
          next hfind =>
            simp only [if_pos hsmall, slabAlloc, hfind, slabNewPage, heapMapPages_of_fails hf,
              if_true]
      · next hlarge =>
          dsimp only at hp
          split at hp <;> cases hp
          next hfit =>
            simp only [if_neg hlarge, largeAlloc, hfit, heapMapPages_of_fails hf, if_true]

theorem kmallocPages_lt (hp : kmallocPages h size = some count) : count * pageSize < 2 ^ 64 := by
  unfold kmallocPages at hp
  split at hp
  · cases hp
  · split at hp
    · split at hp <;> cases hp
      decide
    · dsimp only at hp
      split at hp <;> cases hp
      refine Nat.lt_of_le_of_lt (Nat.div_mul_le_self _ _) ?_
      exact Nat.lt_of_le_of_lt (Nat.div_mul_le_self _ _) (Nat.mod_lt _ (by decide))

theorem pages_lt {call : HeapCall} (hp : call.pages h = some count) :
    count * pageSize < 2 ^ 64 := by
  cases call with
  | kmalloc size => exact kmallocPages_lt hp
  | krealloc ptr size =>
    unfold HeapCall.pages kreallocPages at hp
    dsimp only at hp
    split at hp
    · exact kmallocPages_lt hp
    · split at hp
      · cases hp
      · split at hp
        · cases hp
        · exact kmallocPages_lt hp

end

abbrev heapEnd : Nat := heapVirtBase + heapMaxSize

/-- `heap_map_pages` maps pages of the window only, and leaves the cursor in it. -/
def StaysInWindow (pml4 : Nat) (k : KernelHeap) (count : Nat) : Prop :=
  (∀ v ∈ grownPages pml4 k count, heapVirtBase ≤ v.toNat ∧ v.toNat < heapEnd) ∧
    (heapMapPages k.heap count (growPages pml4 k count).1).2.heapCursor ≤ heapEnd

def windowPages (h : Heap) : Nat := (heapEnd - h.heapCursor + (pageSize - 1)) / pageSize

section

variable {used : Nat → Prop} {pml4 count : Nat} {k : KernelHeap}

theorem toNat_heapPage {cursor i : Nat} (h : cursor + i * pageSize < 2 ^ 64) :
    (BitVec.ofNat 64 cursor + BitVec.ofNat 64 (i * pageSize)).toNat = cursor + i * pageSize := by
  rw [BitVec.toNat_add, BitVec.toNat_ofNat, BitVec.toNat_ofNat]
  omega

theorem pages_inWindow_iff (hlo : heapVirtBase ≤ k.heap.heapCursor)
    (hhi : k.heap.heapCursor ≤ heapEnd) {n : Nat} :
    (∀ v ∈ pagesFrom (BitVec.ofNat 64 k.heap.heapCursor) n,
      heapVirtBase ≤ v.toNat ∧ v.toNat < heapEnd) ↔ n ≤ windowPages k.heap := by
  have hend : heapEnd + pageSize < 2 ^ 64 := by decide
  have hfit : ∀ i ≤ windowPages k.heap, k.heap.heapCursor + i * pageSize < 2 ^ 64 := by
    intro i hi
    unfold windowPages at hi
    rw [pageSize_eq] at *
    omega
  constructor
  · intro hall
    by_contra hlt
    have hin := hall _ (mem_pagesFrom.mpr ⟨windowPages k.heap, by omega, rfl⟩)
    rw [toNat_heapPage (hfit _ (Nat.le_refl _))] at hin
    unfold windowPages at hin
    rw [pageSize_eq] at *
    omega
  · intro hn v hv
    obtain ⟨i, hi, rfl⟩ := mem_pagesFrom.mp hv
    rw [toNat_heapPage (hfit i (by omega))]
    unfold windowPages at hn
    rw [pageSize_eq] at *
    omega

theorem cursor_le_heapEnd (hhi : k.heap.heapCursor ≤ heapEnd) (growth : Option Mem) :
    (heapMapPages k.heap count growth).2.heapCursor ≤ heapEnd := by
  by_cases hf : PastLimit k.heap count ∨ growth = none
  · rw [heapMapPages_of_fails hf]
    exact hhi
  · rw [not_or] at hf
    rw [(heapMapPages_of_succeeds hf.1 hf.2).2]
    exact Nat.not_lt.mp hf.1

theorem TreeOk.inWindow_iff (h : TreeOk used pml4 k.phys)
    (hlo : heapVirtBase ≤ k.heap.heapCursor) (hhi : k.heap.heapCursor ≤ heapEnd)
    (hcount : count * pageSize < 2 ^ 64) :
    StaysInWindow pml4 k count ↔ k.heap.heapCursor + count * pageSize < 2 ^ 64 ∨
      ¬ Affordable pml4 (BitVec.ofNat 64 k.heap.heapCursor) (windowPages k.heap + 1) k.phys := by
  have hend : heapEnd + 2 * pageSize < 2 ^ 64 := by decide
  have hmod : count * pageSize % 2 ^ 64 = count * pageSize := Nat.mod_eq_of_lt hcount
  unfold StaysInWindow grownPages
  rw [and_iff_left (cursor_le_heapEnd hhi _)]
  split
  · next hpast =>
      -- a sum that is past the limit has not wrapped round
      refine iff_of_true (fun v hv => absurd hv List.not_mem_nil) (.inl ?_)
      rw [PastLimit, hmod] at hpast
      change heapEnd < _ at hpast
      omega
  · next hpast =>
      obtain ⟨n, hn, heq, hiff⟩ := @TreeOk.mappedPages_eq used pml4 count k.phys
        (BitVec.ofNat 64 k.heap.heapCursor) heapFlags h heapFlags_present
      rw [heq, pages_inWindow_iff hlo hhi]
      rw [PastLimit, hmod] at hpast
      change ¬ heapEnd < _ at hpast
      by_cases hwrap : k.heap.heapCursor + count * pageSize < 2 ^ 64
      · refine iff_of_true ?_ (.inl hwrap)
        unfold windowPages
        rw [pageSize_eq] at *
        omega
      · rw [or_iff_right hwrap, hiff]
        · exact Nat.not_lt.symm
        · unfold windowPages
          rw [pageSize_eq] at *
          omega

end

/-- **Where the heap grows.** With the cursor in the window, the pages that `kmalloc` and
`krealloc` have mapped are in it exactly if the size of the growth does not carry the cursor
round the end of the address space, or there are not frames enough to get out of the window. -/
theorem staysInWindow_iff {used : Nat → Prop} {pml4 : Nat} {k : KernelHeap}
    (h : TreeOk used pml4 k.phys) (hlo : heapVirtBase ≤ k.heap.heapCursor)
    (hhi : k.heap.heapCursor ≤ heapVirtBase + heapMaxSize) (call : HeapCall) :
    (∀ count, call.pages k.heap = some count → StaysInWindow pml4 k count) ↔
      ∀ count, call.pages k.heap = some count →
        k.heap.heapCursor + count * pageSize < 2 ^ 64 ∨
          ¬ Affordable pml4 (BitVec.ofNat 64 k.heap.heapCursor) (windowPages k.heap + 1)
            k.phys := by
  refine forall_congr' fun count => forall_congr' fun hp => ?_
  exact TreeOk.inWindow_iff h hlo hhi (pages_lt hp)

/-- `heap_init` has run, and there are `n` frames for the PML4 at `0x200000`. -/
def heapOnFrames (n : Nat) : KernelHeap := ⟨heapInit zeros (some zeros), emptyMachine n⟩

theorem staysInWindow_kmalloc :
    TreeOk (· = 0x200000) 0x200000 (heapOnFrames 4).phys ∧
      (HeapCall.kmalloc 24).pages (heapOnFrames 4).heap = some 1 ∧
      ∀ count, (HeapCall.kmalloc 24).pages (heapOnFrames 4).heap = some count →
        StaysInWindow 0x200000 (heapOnFrames 4) count := by
  have hcur : heapVirtBase ≤ (heapOnFrames 4).heap.heapCursor ∧
      (heapOnFrames 4).heap.heapCursor ≤ heapVirtBase + heapMaxSize ∧
      (heapOnFrames 4).heap.heapCursor + 1 * pageSize < 2 ^ 64 := by decide +kernel
  refine ⟨?tree, ?_, (staysInWindow_iff ?tree hcur.1 hcur.2.1 _).mpr fun count hc => .inl ?_⟩
  · exact treeOk_emptyMachine (by decide)
  · decide +kernel
  · cases hc
    exact hcur.2.2

def lastPage (n : Nat) : KernelHeap where
  heap := ⟨zeros, fun _ => 0, 0, heapVirtBase + heapMaxSize - pageSize,
    heapVirtBase + heapMaxSize - pageSize⟩
  phys := emptyMachine n

/-- **Out of the window.** For a request of `2^64 - 8192` bytes the limit check adds
`2^64 - 4096` to the cursor, and the sum comes out below the limit: the loop maps the last page
of the window and goes on behind it. -/
theorem heap_leaves_window :
    heapVirtBase ≤ (lastPage 8).heap.heapCursor ∧
      (lastPage 8).heap.heapCursor < heapVirtBase + heapMaxSize ∧
      (HeapCall.kmalloc (2 ^ 64 - 8192)).pages (lastPage 8).heap = some (2 ^ 52 - 1) ∧
      ¬ StaysInWindow 0x200000 (lastPage 8) (2 ^ 52 - 1) := by
  have hcur : heapVirtBase ≤ (lastPage 8).heap.heapCursor ∧
      (lastPage 8).heap.heapCursor < heapVirtBase + heapMaxSize ∧
      windowPages (lastPage 8).heap = 1 ∧
      ¬ (lastPage 8).heap.heapCursor + (2 ^ 52 - 1) * pageSize < 2 ^ 64 := by decide
  refine ⟨hcur.1, hcur.2.1, by decide +kernel, fun hstays => ?_⟩
  have htree : TreeOk (· = 0x200000) 0x200000 (lastPage 8).phys := treeOk_emptyMachine (by decide)
  rw [TreeOk.inWindow_iff htree hcur.1 hcur.2.1.le (by decide), or_iff_right hcur.2.2.2,
    hcur.2.2.1] at hstays
  refine hstays ?_
  have hthree := card_missingTables_le_three (lastPage 8).phys.mem 0x200000
    (pagesFrom (BitVec.ofNat 64 (lastPage 8).heap.heapCursor) (1 + 1))
  rw [length_pagesFrom] at hthree
  unfold Affordable
  rw [show (lastPage 8).phys = emptyMachine 8 from rfl] at *
  rw [card_clearFrames_emptyMachine (by decide)]
  omega

variable {used : Nat → Prop} {pml4 count size ptr : Nat} {k k' : KernelHeap}

theorem growPages_of_past (hpast : PastLimit k.heap count) :
    growPages pml4 k count = (none, k.phys) := if_pos hpast

theorem growPages_of_room (hpast : ¬ PastLimit k.heap count) : growPages pml4 k count =
      (if (allocRangeLoop pml4 heapFlags count (BitVec.ofNat 64 k.heap.heapCursor) k.phys).1 then
        some fun _ => 0 else none,
      (allocRangeLoop pml4 heapFlags count (BitVec.ofNat 64 k.heap.heapCursor) k.phys).2) :=
  if_neg hpast

theorem kmallocOn_eq_some (hrun : kmallocOn pml4 k size = some (ptr, k')) :
    (kmallocPages k.heap size = none ∧ k'.phys = k.phys ∧
        kmalloc k.heap size none = some (ptr, k'.heap)) ∨
      ∃ count, kmallocPages k.heap size = some count ∧ k'.phys = (growPages pml4 k count).2 ∧
        kmalloc k.heap size (growPages pml4 k count).1 = some (ptr, k'.heap) := by
  unfold kmallocOn at hrun
  split at hrun
  · next hpages =>
      obtain ⟨r, hr, heq⟩ := Option.map_eq_some_iff.mp hrun
      cases heq
      exact .inl ⟨hpages, rfl, hr⟩
  · next count hpages =>
      dsimp only at hrun
      split at hrun
      · cases hrun
      · obtain ⟨r, hr, heq⟩ := Option.map_eq_some_iff.mp hrun
        cases heq
        exact .inr ⟨count, hpages, rfl, hr⟩

theorem kmallocOn_of_fails (hp : kmallocPages k.heap size = some count)
    (hnone : (growPages pml4 k count).1 = none) :
    kmallocOn pml4 k size = some (0, ⟨k.heap, (growPages pml4 k count).2⟩) := by
  unfold kmallocOn
  rw [hp]
  dsimp only
  rw [if_neg fun hc => hc.1 hnone, hnone, kmalloc_of_fails hp (.inr rfl)]
  rfl

/-- The heap, the translations and the free frames are what they were, but for frames that
have become tables. -/
structure Unchanged (pml4 : Nat) (k k' : KernelHeap) : Prop where
  heap : k'.heap = k.heap
  pages : ∀ v, vmmTranslate k'.phys.mem pml4 v = vmmTranslate k.phys.mem pml4 v
  frames : ∀ t, ¬ TableOf k'.phys.mem pml4 t →
    (FreeFrame k'.phys.frames t ↔ FreeFrame k.phys.frames t)

theorem Unchanged.of_eq (hheap : k'.heap = k.heap) (hphys : k'.phys = k.phys) :
    Unchanged pml4 k k' := by
  refine ⟨hheap, fun v => ?_, fun t _ => ?_⟩
  · rw [hphys]
  · rw [hphys]

theorem TreeOk.frame_lost {s : Phys Pmm} (h : TreeOk used pml4 s)
    (hfree : clearFrames s.frames.bitmap ≠ ∅) (flags va : BitVec 64) (n : Nat) :
    ∃ d, FreeFrame s.frames d ∧ ¬ FreeFrame (allocRangeLoop pml4 flags (n + 1) va s).2.frames d ∧
      ¬ TableOf (allocRangeLoop pml4 flags (n + 1) va s).2.mem pml4 d := by
  obtain ⟨used', hpop⟩ := h.populates_range flags va (n + 1)
  cases ha : allocPage s with
  | none => exact absurd (clearFrames_eq_empty_iff.mpr (allocPage_eq_none ha)) hfree
  | some r =>
    obtain ⟨page, s1⟩ := r
    obtain ⟨used1, hpage, -⟩ := h.populates_page va flags ha rfl
    have hnz : page ≠ 0 :=
      (tableFrame h.supply (hpage.data page (List.mem_singleton_self page)).1).nonzero
    have hmem : page ∈ allocRangeFrames pml4 flags (n + 1) va s := by
      rw [(allocRangeLoop_of_some ha hnz n).2]
      exact List.mem_cons_self
    obtain ⟨hf, hnf, hnot⟩ := hpop.data page hmem
    refine ⟨page, hf, hnf, fun ht => ?_⟩
    obtain ⟨q, hq, hw⟩ := ht
    exact hnot (hpop.tree.tree.used q page hq hw)

theorem TreeOk.unchanged_of_failed_iff (h : TreeOk used pml4 k.phys)
    (hpast : ¬ PastLimit k.heap count) (hnone : (growPages pml4 k count).1 = none)
    (hheap : k'.heap = k.heap) (hphys : k'.phys = (growPages pml4 k count).2) :
    Unchanged pml4 k k' ↔ clearFrames k.phys.frames.bitmap = ∅ := by
  rw [growPages_of_room hpast] at hnone hphys
  cases count with
  | zero => cases hnone
  | succ n =>
    constructor
    · intro hun
      by_contra hfree
      obtain ⟨d, hd, hnd, hnt⟩ := h.frame_lost hfree heapFlags (BitVec.ofNat 64 k.heap.heapCursor) n
      rw [← hphys] at hnd hnt
      exact hnd ((hun.frames d hnt).mpr hd)
    · intro hempty
      rw [(allocRangeLoop_of_empty hempty n).1] at hphys
      exact .of_eq hheap hphys

theorem TreeOk.changed_of_short (h : TreeOk used pml4 k.phys)
    (hp : kmallocPages k.heap size = some count) (hpast : ¬ PastLimit k.heap count)
    (hfree : clearFrames k.phys.frames.bitmap ≠ ∅)
    (hshort : (clearFrames k.phys.frames.bitmap).card < count) :
    ∃ k', kmallocOn pml4 k size = some (0, k') ∧ ¬ Unchanged pml4 k k' := by
  have hnone : (growPages pml4 k count).1 = none := by
    rw [growPages_of_room hpast]
    refine if_neg fun hloop => ?_
    exact absurd (h.le_free_of_loop hloop) (Nat.not_le.mpr hshort)
  have hiff : Unchanged pml4 k ⟨k.heap, (growPages pml4 k count).2⟩ ↔ _ :=
    h.unchanged_of_failed_iff hpast hnone rfl rfl
  exact ⟨_, kmallocOn_of_fails hp hnone, fun hun => hfree (hiff.mp hun)⟩

/-- **A request that fails** has left everything as it was exactly if it did not come to the
loop of `heap_map_pages`, or the loop did not find a single frame. -/
theorem unchanged_iff (h : TreeOk used pml4 k.phys) (hc : k.heap.heapCursor ≠ 0)
    (hrun : kmallocOn pml4 k size = some (0, k')) :
    Unchanged pml4 k k' ↔ ∀ count, kmallocPages k.heap size = some count →
      PastLimit k.heap count ∨ clearFrames k.phys.frames.bitmap = ∅ := by
  obtain ⟨hpages, hphys, heq⟩ | ⟨count, hpages, hphys, heq⟩ := kmallocOn_eq_some hrun
  · refine iff_of_true (.of_eq ((kmalloc_grows hc heq).null hc).1 hphys) fun count hp => ?_
    rw [hpages] at hp
    cases hp
  · obtain ⟨hheap, hfail⟩ := (kmalloc_grows hc heq).null hc
    have hiff : Unchanged pml4 k k' ↔
        PastLimit k.heap count ∨ clearFrames k.phys.frames.bitmap = ∅ := by
      by_cases hpast : PastLimit k.heap count
      · rw [growPages_of_past hpast] at hphys
        exact iff_of_true (.of_eq hheap hphys) (.inl hpast)
      · rw [or_iff_right hpast]
        exact h.unchanged_of_failed_iff hpast ((hfail count hpages).resolve_left hpast) hheap hphys
    rw [hiff, hpages]
    simp only [Option.some.injEq, forall_eq']

theorem unchanged_no_frames :
    kmallocPages (heapOnFrames 0).heap 24 = some 1 ∧
      kmallocOn 0x200000 (heapOnFrames 0) 24 = some (0, heapOnFrames 0) ∧
      Unchanged 0x200000 (heapOnFrames 0) (heapOnFrames 0) := by
  have htree : TreeOk (· = 0x200000) 0x200000 (heapOnFrames 0).phys :=
    treeOk_emptyMachine (by decide)
  have hpages : kmallocPages (heapOnFrames 0).heap 24 = some 1 := by decide +kernel
  have hcur : (heapOnFrames 0).heap.heapCursor ≠ 0 ∧ ¬ PastLimit (heapOnFrames 0).heap 1 := by
    decide +kernel
  have hempty : clearFrames (heapOnFrames 0).phys.frames.bitmap = ∅ :=
    Finset.card_eq_zero.mp (card_clearFrames_emptyMachine (by decide))
  have hgrow : growPages 0x200000 (heapOnFrames 0) 1 = (none, (heapOnFrames 0).phys) := by
    rw [growPages_of_room hcur.2, (allocRangeLoop_of_empty hempty 0).1]
    rfl
  have hrun := @kmallocOn_of_fails 0x200000 1 24 (heapOnFrames 0) hpages (by rw [hgrow])
  rw [hgrow] at hrun
  exact ⟨hpages, hrun, (unchanged_iff htree hcur.1 hrun).mpr fun _ _ => .inr hempty⟩

/-- **Frames are lost.** With four frames left, a request for five pages maps one of them and
fails; the page stays mapped and its frame taken. -/
theorem kmalloc_loses_frames :
    kmallocPages (heapOnFrames 4).heap 20000 = some 5 ∧
      ∃ k', kmallocOn 0x200000 (heapOnFrames 4) 20000 = some (0, k') ∧
        ¬ Unchanged 0x200000 (heapOnFrames 4) k' := by
  have htree : TreeOk (· = 0x200000) 0x200000 (heapOnFrames 4).phys :=
    treeOk_emptyMachine (by decide)
  have hpages : kmallocPages (heapOnFrames 4).heap 20000 = some 5 := by decide +kernel
  have hpast : ¬ PastLimit (heapOnFrames 4).heap 5 := by decide +kernel
  have hcard : (clearFrames (heapOnFrames 4).phys.frames.bitmap).card = 4 :=
    card_clearFrames_emptyMachine (by decide)
  refine ⟨hpages, htree.changed_of_short hpages hpast (fun hempty => ?_) (by omega)⟩
  rw [hempty] at hcard
  cases hcard

end DevOs
