import DevOs.Lib.Bitmap
import DevOs.Lib.ByteMem
import DevOs.Types

/-!
The kernel heap of `kernel/mm/heap.c` over a byte memory: slab pages for sizes
up to 2048, page-granular spans with a header for the rest, and one cursor
that both grow the heap from.
-/

namespace DevOs

open ByteMem

def largeThreshold : Nat := 2048

def heapMagicFree : Nat := 0xDEADC0DEDEADC0DE

def heapMagicAlloc : Nat := 0xA110CA11A110CA11

def slabPageMagic : Nat := 0x5AB000005AB00000

def heapVirtBase : Nat := 0xFFFFFF8000000000

def heapMaxSize : Nat := 256 * 1024 * 1024

def slabMinOrder : Nat := 4

def slabMaxOrder : Nat := 11

/-- `SLAB_HDR_SIZE`: `sizeof(slab_page_t)` is 32. -/
def slabHdrSize : Nat := 32

/-- `LARGE_HDR_SIZE`: `sizeof(large_hdr_t)` is 32. -/
def largeHdrSize : Nat := 32

/-- The static variables of `heap.c`, with the memory they point into. -/
structure Heap where
  mem : Mem
  slabClasses : Nat → Nat
  largeFreeList : Nat
  heapCursor : Nat
  heapLimit : Nat

def heapFuel : Nat := heapMaxSize / pageSize + 1

def heapMapPages (h : Heap) (count : Nat) (growth : Option Mem) : Nat × Heap :=
  let bytes := count * pageSize % 2 ^ 64
  if heapVirtBase + heapMaxSize < (h.heapCursor + bytes) % 2 ^ 64 then (0, h)
  else match growth with
    | none => (0, h)
    | some fresh =>
      (h.heapCursor,
        { h with
          mem := fun x =>
            if h.heapCursor ≤ x ∧ x < h.heapCursor + bytes then fresh x else h.mem x
          heapCursor := (h.heapCursor + bytes) % 2 ^ 64
          heapLimit := (h.heapCursor + bytes) % 2 ^ 64 })

/-- `sp->obj_size`. -/
def slabObjSize (m : Mem) (sp : Nat) : Nat := load 2 m (sp + 10)

/-- `sp->capacity`. -/
def slabCapacity (m : Mem) (sp : Nat) : Nat := load 2 m (sp + 12)

/-- `sp->free_count`. -/
def slabFreeCount (m : Mem) (sp : Nat) : Nat := load 2 m (sp + 14)

/-- `sp->first_free`. -/
def slabFirstFree (m : Mem) (sp : Nat) : Nat := load 2 m (sp + 16)

/-- `sp->next`. -/
def slabNext (m : Mem) (sp : Nat) : Nat := load 8 m (sp + 24)

def slabBitmap (m : Mem) (sp : Nat) : Nat → BitVec 64 := fun k =>
  BitVec.ofNat 64 (load 8 m (sp + slabHdrSize + 8 * k))

def bitmapWordsFor (cap : Nat) : Nat := (cap + 63) / 64 % 2 ^ 16

def dataOffset (cap objSize : Nat) : Nat :=
  alignUp (slabHdrSize + bitmapWordsFor cap * 8 % 2 ^ 16) objSize % 2 ^ 32

def slabObject (m : Mem) (sp idx : Nat) : Nat :=
  sp + dataOffset (slabCapacity m sp) (slabObjSize m sp) + idx * slabObjSize m sp

def shrinkCapacity (objSize : Nat) : Nat → Nat
  | 0 => 0
  | cap + 1 =>
    if dataOffset (cap + 1) objSize + (cap + 1) * objSize ≤ pageSize then cap + 1
    else shrinkCapacity objSize cap

def initSlab (m : Mem) (sp order : Nat) : Mem :=
  let objSize := 2 ^ order % 2 ^ 16
  let cap := shrinkCapacity objSize ((pageSize - slabHdrSize) / objSize % 2 ^ 16)
  let m := store 8 m sp slabPageMagic
  let m := store 1 m (sp + 8) order
  let m := store 2 m (sp + 10) objSize
  let m := store 2 m (sp + 12) cap
  let m := store 2 m (sp + 14) cap
  let m := store 2 m (sp + 16) 0
  let m := store 8 m (sp + 24) 0
  fill m (sp + slabHdrSize) (bitmapWordsFor cap * 8) 0

def slabNewPage (h : Heap) (order : Nat) (growth : Option Mem) : Nat × Heap :=
  let (sp, h) := heapMapPages h 1 growth
  if sp = 0 then (0, h) else (sp, { h with mem := initSlab h.mem sp order })

/-- `while (sp && sp->free_count == 0) sp = sp->next`. -/
def findSlab (m : Mem) : Nat → Nat → Option Nat
  | 0, _ => none
  | n + 1, sp =>
    if sp ≠ 0 ∧ slabFreeCount m sp = 0 then findSlab m n (slabNext m sp) else some sp

/-- The second half of `slab_alloc`: a slot of page `sp`. -/
def slabTake (h : Heap) (sp : Nat) : Nat × Heap :=
  let words := bitmapWordsFor (slabCapacity h.mem sp)
  match Bitmap.search (slabBitmap h.mem sp) words (slabCapacity h.mem sp)
      (slabFirstFree h.mem sp / 64) with
  | none => (0, h)
  | some idx =>
    let bits := Bitmap.set (slabBitmap h.mem sp) idx (idx / 64)
    let m := store 8 h.mem (sp + slabHdrSize + 8 * (idx / 64)) bits.toNat
    let m := store 2 m (sp + 14) ((slabFreeCount m sp + (2 ^ 16 - 1)) % 2 ^ 16)
    let m := store 2 m (sp + 16) idx
    (slabObject m sp idx, { h with mem := m })

def slabAlloc (h : Heap) (order : Nat) (growth : Option Mem) : Option (Nat × Heap) :=
  let cls := order - slabMinOrder
  match findSlab h.mem heapFuel (h.slabClasses cls) with
  | none => none
  | some sp =>
    if sp = 0 then
      let (sp, h) := slabNewPage h order growth
      if sp = 0 then some (0, h)
      else
        let m := store 8 h.mem (sp + 24) (h.slabClasses cls)
        some (slabTake
          { h with mem := m, slabClasses := Function.update h.slabClasses cls sp } sp)
    else some (slabTake h sp)

def slabFree (h : Heap) (ptr : Nat) : Bool × Heap :=
  let sp := alignDown ptr pageSize
  if load 8 h.mem sp ≠ slabPageMagic then (false, h)
  else
    let objects := sp + dataOffset (slabCapacity h.mem sp) (slabObjSize h.mem sp)
    if ptr < objects then (false, h)
    else if (ptr - objects) % slabObjSize h.mem sp ≠ 0 then (false, h)
    else
      let idx := (ptr - objects) / slabObjSize h.mem sp % 2 ^ 16
      if slabCapacity h.mem sp ≤ idx then (false, h)
      else if Bitmap.test (slabBitmap h.mem sp) idx = false then (true, h)
      else
        let bits := Bitmap.clear (slabBitmap h.mem sp) idx (idx / 64)
        let m := store 8 h.mem (sp + slabHdrSize + 8 * (idx / 64)) bits.toNat
        let m := store 2 m (sp + 14) ((slabFreeCount m sp + 1) % 2 ^ 16)
        let m := if idx < slabFirstFree m sp then store 2 m (sp + 16) idx else m
        (true, { h with mem := m })

/-- `hdr->size`. -/
def largeSize (m : Mem) (hdr : Nat) : Nat := load 8 m (hdr + 8)

/-- `hdr->next`. -/
def largeNext (m : Mem) (hdr : Nat) : Nat := load 8 m (hdr + 16)

/-- `hdr->prev`. -/
def largePrev (m : Mem) (hdr : Nat) : Nat := load 8 m (hdr + 24)

def largeInsertFree (h : Heap) (hdr : Nat) : Heap :=
  let m := store 8 h.mem hdr heapMagicFree
  let m := store 8 m (hdr + 16) h.largeFreeList
  let m := store 8 m (hdr + 24) 0
  let m := if h.largeFreeList ≠ 0 then store 8 m (h.largeFreeList + 24) hdr else m
  { h with mem := m, largeFreeList := hdr }

def largeRemoveFree (h : Heap) (hdr : Nat) : Heap :=
  let h :=
    if largePrev h.mem hdr ≠ 0 then
      { h with mem := store 8 h.mem (largePrev h.mem hdr + 16) (largeNext h.mem hdr) }
    else { h with largeFreeList := largeNext h.mem hdr }
  let m :=
    if largeNext h.mem hdr ≠ 0 then
      store 8 h.mem (largeNext h.mem hdr + 24) (largePrev h.mem hdr)
    else h.mem
  let m := store 8 m (hdr + 24) 0
  let m := store 8 m (hdr + 16) 0
  { h with mem := m }

def bestFit (m : Mem) (total : Nat) : Nat → Nat → Nat → Option Nat
  | 0, _, _ => none
  | n + 1, hdr, best =>
    if hdr = 0 then some best
    else
      let best :=
        if total ≤ largeSize m hdr then
          if best = 0 ∨ largeSize m hdr < largeSize m best then hdr else best
        else best
      bestFit m total n (largeNext m hdr) best

def splitSpan (h : Heap) (best total : Nat) : Heap :=
  if (total + pageSize + largeHdrSize) % 2 ^ 64 ≤ largeSize h.mem best then
    let rem := best + total
    let m := store 8 h.mem (rem + 8) (largeSize h.mem best - total)
    let m := store 8 m (best + 8) total
    largeInsertFree { h with mem := m } rem
  else h

/-- The end of `large_alloc`: the span is handed out. -/
def finishAlloc (h : Heap) (best : Nat) : Nat × Heap :=
  let m := store 8 h.mem best heapMagicAlloc
  let m := store 8 m (best + 24) 0
  let m := store 8 m (best + 16) 0
  (best + largeHdrSize, { h with mem := m })

def initSpan (m : Mem) (hdr size : Nat) : Mem :=
  let m := store 8 m (hdr + 8) size
  let m := store 8 m (hdr + 24) 0
  let m := store 8 m (hdr + 16) 0
  store 8 m hdr heapMagicFree

def largeAlloc (h : Heap) (size : Nat) (growth : Option Mem) : Option (Nat × Heap) :=
  let total := alignUp (size + largeHdrSize) pageSize
  match bestFit h.mem total heapFuel h.largeFreeList 0 with
  | none => none
  | some best =>
    if best = 0 then
      let pages := total / pageSize
      let (best, h) := heapMapPages h pages growth
      if best = 0 then some (0, h)
      else
        let h := { h with mem := initSpan h.mem best (pages * pageSize) }
        some (finishAlloc (splitSpan h best total) best)
    else
      let h := largeRemoveFree h best
      some (finishAlloc (splitSpan h best total) best)

def largeFree (h : Heap) (ptr : Nat) : Heap :=
  let hdr := ptr - largeHdrSize
  if load 8 h.mem hdr = heapMagicFree then h
  else if load 8 h.mem hdr ≠ heapMagicAlloc then h
  else largeInsertFree h hdr

def heapInit (m : Mem) (growth : Option Mem) : Heap :=
  let h : Heap :=
    { mem := m, slabClasses := fun _ => 0, largeFreeList := 0, heapCursor := heapVirtBase,
      heapLimit := heapVirtBase }
  let (_, h) := heapMapPages h 4 growth
  { h with
    mem := initSpan h.mem heapVirtBase (4 * pageSize)
    largeFreeList := heapVirtBase }

/-- `while ((1u << order) < size && order <= SLAB_MAX_ORDER) order++`. -/
def orderLoop (size : Nat) : Nat → Nat → Nat
  | 0, order => order
  | n + 1, order =>
    if 2 ^ order < size ∧ order ≤ slabMaxOrder then orderLoop size n (order + 1) else order

def sizeOrder (size : Nat) : Nat := orderLoop size (slabMaxOrder + 1 - slabMinOrder) slabMinOrder

def kmalloc (h : Heap) (size : Nat) (growth : Option Mem) : Option (Nat × Heap) :=
  if size = 0 then some (0, h)
  else if size ≤ largeThreshold ∧ sizeOrder size ≤ slabMaxOrder then
    slabAlloc h (sizeOrder size) growth
  else largeAlloc h size growth

def kzalloc (h : Heap) (size : Nat) (growth : Option Mem) : Option (Nat × Heap) :=
  match kmalloc h size growth with
  | none => none
  | some (ptr, h) =>
    if ptr = 0 then some (0, h) else some (ptr, { h with mem := fill h.mem ptr size 0 })

def kfree (h : Heap) (ptr : Nat) : Heap :=
  if ptr = 0 then h
  else
    let (inSlab, h) := slabFree h ptr
    if inSlab then h else largeFree h ptr

/-- The number of bytes that `krealloc` finds behind a pointer. -/
def usableSize (m : Mem) (ptr : Nat) : Nat :=
  let sp := alignDown ptr pageSize
  if load 8 m sp = slabPageMagic then slabObjSize m sp
  else (largeSize m (ptr - largeHdrSize) + (2 ^ 64 - largeHdrSize)) % 2 ^ 64

def krealloc (h : Heap) (ptr size : Nat) (growth : Option Mem) : Option (Nat × Heap) :=
  if ptr = 0 then kmalloc h size growth
  else if size = 0 then some (0, kfree h ptr)
  else if size ≤ usableSize h.mem ptr then some (ptr, h)
  else
    match kmalloc h size growth with
    | none => none
    | some (newPtr, h') =>
      if newPtr = 0 then some (0, h')
      else
        some (newPtr,
          kfree { h' with mem := copy h'.mem newPtr ptr (usableSize h.mem ptr) } ptr)

end DevOs
