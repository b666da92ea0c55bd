import DevOs.Lib.Bitmap
import DevOs.Types

/-!
The physical frame allocator of `kernel/mm/pmm.c`: one bit per 4 KB frame, a
set bit is a used frame.
-/

namespace DevOs

def pmmMaxFrames : Nat := 1024 * 1024

def bitmapWords : Nat := pmmMaxFrames / 64

/-- `e820_entry_t`; type 1 is usable memory. -/
structure E820Entry where
  base : Nat
  length : Nat
  type : Nat
  deriving DecidableEq, Repr

structure Pmm where
  bitmap : Nat → BitVec 64
  totalFrames : Nat
  freeFrames : Nat
  searchHint : Nat

def frameSet (p : Pmm) (frame : Nat) : Pmm := { p with bitmap := Bitmap.set p.bitmap frame }

def frameClear (p : Pmm) (frame : Nat) : Pmm := { p with bitmap := Bitmap.clear p.bitmap frame }

def frameUsed (p : Pmm) (frame : Nat) : Bool := Bitmap.test p.bitmap frame

def releaseFrame (p : Pmm) (frame : Nat) : Pmm :=
  { frameClear p frame with
    totalFrames := inc64 p.totalFrames
    freeFrames := inc64 p.freeFrames }

/-- The loop over a usable region, from `addr` on and for at most `n` pages;
it stops at the end of the region and at the end of the bitmap. -/
def releaseLoop (fin : Nat) : Nat → Nat → Pmm → Pmm
  | 0, _, p => p
  | n + 1, addr, p =>
    if addr < fin then
      if pmmMaxFrames ≤ addr / pageSize then p
      else releaseLoop fin n (addr + pageSize) (releaseFrame p (addr / pageSize))
    else p

def E820Entry.start (e : E820Entry) : Nat := alignUp e.base pageSize

def E820Entry.fin (e : E820Entry) : Nat := alignDown ((e.base + e.length) % 2 ^ 64) pageSize

def releaseEntry (p : Pmm) (e : E820Entry) : Pmm :=
  if e.type ≠ 1 then p
  else if e.fin ≤ e.start then p
  else releaseLoop e.fin ((e.fin - e.start) / pageSize) e.start p

def reserveFrame (p : Pmm) (frame : Nat) : Pmm :=
  if frameUsed p frame then p else { frameSet p frame with freeFrames := dec64 p.freeFrames }

/-- The loop over the kernel's pages, from `addr` on and for at most `n`
pages. -/
def reserveLoop (fin : Nat) : Nat → Nat → Pmm → Pmm
  | 0, _, p => p
  | n + 1, addr, p =>
    if addr < fin then reserveLoop fin n (addr + pageSize) (reserveFrame p (addr / pageSize))
    else p

def kernelStart : Nat := alignDown 0x100000 pageSize

def pmmInit (map : List E820Entry) (kernelEnd : Nat) : Pmm :=
  let p : Pmm :=
    { bitmap := fun _ => BitVec.allOnes 64, totalFrames := 0, freeFrames := 0, searchHint := 0 }
  let p := map.foldl releaseEntry p
  let p := reserveFrame p 0
  let kend := alignUp kernelEnd pageSize
  reserveLoop kend ((kend - kernelStart) / pageSize) kernelStart p

/-- `pmm_alloc`: the address of the frame, or nothing when memory is out. The
hint is always a word of the bitmap, so its sum with the loop counter stays
below `2 ^ 64`. -/
def pmmAlloc (p : Pmm) : Option (Nat × Pmm) :=
  match Bitmap.search p.bitmap bitmapWords pmmMaxFrames p.searchHint with
  | none => none
  | some frame =>
    -- `frame / 64` is the word the search stopped at
    some (frame * pageSize,
      { frameSet p frame with freeFrames := dec64 p.freeFrames, searchHint := frame / 64 })

def pmmFreePage (p : Pmm) (phys : Nat) : Pmm :=
  let frame := phys / pageSize
  if frame = 0 ∨ pmmMaxFrames ≤ frame then p
  else if frameUsed p frame then
    { frameClear p frame with freeFrames := inc64 p.freeFrames }
  else p

end DevOs
