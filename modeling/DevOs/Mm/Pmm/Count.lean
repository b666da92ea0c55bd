import DevOs.Mm.Pmm.Exclusive
import Mathlib.Algebra.Order.BigOperators.Group.List
import Mathlib.Algebra.Order.Group.Nat
import Mathlib.Algebra.Group.Action.Defs
import Mathlib.Order.Interval.Finset.Nat

/-!
`free_frames` beside the bitmap.
-/

namespace DevOs

open Bitmap

variable {s : PmmState} {α : Type*}

theorem mem_foldr_union [DecidableEq α] {x : α} (l : List (Finset α)) :
    x ∈ l.foldr (· ∪ ·) ∅ ↔ ∃ a ∈ l, x ∈ a := by
  induction l with
  | nil => simp
  | cons a l ih => simp [ih]

theorem card_foldr_union [DecidableEq α] :
    ∀ l : List (Finset α), (l.foldr (· ∪ ·) ∅).card ≤ (l.map Finset.card).sum ∧
      ((l.foldr (· ∪ ·) ∅).card = (l.map Finset.card).sum ↔ l.Pairwise Disjoint)
  | [] => by simp
  | a :: l => by
    obtain ⟨hle, hiff⟩ := card_foldr_union l
    have hinter := Finset.card_union_add_card_inter a (l.foldr (· ∪ ·) ∅)
    have hdisj : (∀ b ∈ l, Disjoint a b) ↔ Disjoint a (l.foldr (· ∪ ·) ∅) := by
      simp only [Finset.disjoint_left, mem_foldr_union]
      grind
    rw [List.foldr_cons, List.map_cons, List.sum_cons, List.pairwise_cons, ← hiff, hdisj,
      Finset.disjoint_iff_inter_eq_empty, ← Finset.card_eq_zero]
    omega

def clearFrames (bitmap : Nat → BitVec 64) : Finset Nat :=
  (Finset.range pmmMaxFrames).filter fun f => test bitmap f = false

variable {bitmap : Nat → BitVec 64} {f : Nat}

theorem mem_clearFrames : f ∈ clearFrames bitmap ↔ f < pmmMaxFrames ∧ test bitmap f = false := by
  simp [clearFrames]

theorem card_clearFrames_le (bitmap : Nat → BitVec 64) : (clearFrames bitmap).card ≤ pmmMaxFrames :=
  card_clearBits_le bitmap pmmMaxFrames

theorem clearFrames_set (bitmap : Nat → BitVec 64) (f : Nat) :
    clearFrames (set bitmap f) = (clearFrames bitmap).erase f :=
  clearBits_set (by decide) bitmap pmmMaxFrames f

theorem clearFrames_clear (hf : f < pmmMaxFrames) :
    clearFrames (clear bitmap f) = insert f (clearFrames bitmap) :=
  clearBits_clear (by decide) hf

theorem card_clearFrames_alloc {p p' : Pmm} {page : Nat} (ha : pmmAlloc p = some (page, p')) :
    (clearFrames p'.bitmap).card + 1 = (clearFrames p.bitmap).card := by
  obtain ⟨g, hlt, hclear, -, rfl⟩ := pmmAlloc_frame ha
  have hmem : g ∈ clearFrames p.bitmap := mem_clearFrames.mpr ⟨hlt, hclear⟩
  change (clearFrames (set p.bitmap g)).card + 1 = _
  rw [clearFrames_set, Finset.card_erase_add_one hmem]

theorem clearFrames_eq_empty_iff {p : Pmm} : clearFrames p.bitmap = ∅ ↔ pmmAlloc p = none := by
  rw [pmmAlloc_eq_none_iff, Finset.eq_empty_iff_forall_notMem]
  refine forall_congr' fun g => ?_
  rw [mem_clearFrames, not_and, Bool.not_eq_false]
  rfl

/-- The counter is `d` above the number of clear bits; the bits past the end of the
bitmap count as set. -/
structure Counted (d : Nat) (p : Pmm) : Prop where
  free : p.freeFrames = (clearFrames p.bitmap).card + d
  beyond : ∀ f, pmmMaxFrames ≤ f → test p.bitmap f = true

variable {d : Nat} {p : Pmm} {f : Nat}

theorem Counted.take (h : Counted d p) (hd : d < 2 ^ 63) (hf : test p.bitmap f = false) :
    Counted d { frameSet p f with freeFrames := dec64 p.freeFrames } := by
  have hmax : f < pmmMaxFrames := by
    by_contra hge
    rw [h.beyond f (Nat.not_lt.mp hge)] at hf
    cases hf
  have hmem : f ∈ clearFrames p.bitmap := mem_clearFrames.mpr ⟨hmax, hf⟩
  have hpos := Finset.card_pos.mpr ⟨f, hmem⟩
  have hle := card_clearFrames_le p.bitmap
  have hN : pmmMaxFrames = 2 ^ 20 := by decide
  refine ⟨?_, fun g hg => ?_⟩
  · show dec64 p.freeFrames = (clearFrames (set p.bitmap f)).card + d
    rw [clearFrames_set, Finset.card_erase_of_mem hmem, h.free, dec64]
    omega
  · show test (set p.bitmap f) g = true
    rw [test_set (by decide), h.beyond g hg, Bool.or_true]

theorem Counted.give (h : Counted d p) (hd : d < 2 ^ 63) (hf : test p.bitmap f = true)
    (hmax : f < pmmMaxFrames) :
    Counted d { frameClear p f with freeFrames := inc64 p.freeFrames } := by
  have hnot : f ∉ clearFrames p.bitmap := fun hmem => by
    rw [(mem_clearFrames.mp hmem).2] at hf
    cases hf
  have hle := card_clearFrames_le p.bitmap
  have hN : pmmMaxFrames = 2 ^ 20 := by decide
  refine ⟨?_, fun g hg => ?_⟩
  · show inc64 p.freeFrames = (clearFrames (clear p.bitmap f)).card + d
    rw [clearFrames_clear hmax, Finset.card_insert_of_notMem hnot, h.free, inc64]
    omega
  · have hne : g ≠ f := by omega
    show test (clear p.bitmap f) g = true
    rw [test_clear (by decide), h.beyond g hg]
    simp [hne]

theorem Counted.reserveFrame (h : Counted d p) (hd : d < 2 ^ 63) (f : Nat) :
    Counted d (reserveFrame p f) := by
  unfold DevOs.reserveFrame
  split
  · exact h
  · next hf => exact h.take hd (Bool.not_eq_true _ ▸ hf)

theorem Counted.reserveLoop (fin : Nat) (hd : d < 2 ^ 63) :
    ∀ (n addr : Nat) {p : Pmm}, Counted d p → Counted d (reserveLoop fin n addr p)
  | 0, _, _, h => h
  | n + 1, addr, p, h => by
    unfold DevOs.reserveLoop
    split
    · exact reserveLoop fin hd n _ (h.reserveFrame hd _)
    · exact h

theorem Counted.pmmAlloc (h : Counted d p) (hd : d < 2 ^ 63) {phys : Nat} {p' : Pmm}
    (hs : pmmAlloc p = some (phys, p')) : Counted d p' := by
  obtain ⟨f, -, hclear, -, rfl⟩ := pmmAlloc_frame hs
  obtain ⟨hfree, hbeyond⟩ := h.take hd hclear
  exact ⟨hfree, hbeyond⟩

theorem Counted.pmmFreePage (h : Counted d p) (hd : d < 2 ^ 63) (phys : Nat) :
    Counted d (pmmFreePage p phys) := by
  unfold DevOs.pmmFreePage
  dsimp only
  split
  · exact h
  · next hrange =>
      split
      · next hused => exact h.give hd hused (by omega)
      · exact h

theorem Counted.pmmStep (h : Counted d s.pmm) (hd : d < 2 ^ 63) (op : PmmOp) :
    Counted d (pmmStep s op).pmm := by
  cases op with
  | alloc =>
    simp only [DevOs.pmmStep]
    split
    · exact h
    · next hs => exact h.pmmAlloc hd hs
  | free phys => exact h.pmmFreePage hd phys

theorem Counted.run (hd : d < 2 ^ 63) (ops : List PmmOp) (h : Counted d s.pmm) :
    Counted d (ops.foldl DevOs.pmmStep s).pmm := by
  induction ops generalizing s with
  | nil => exact h
  | cons op ops ih => exact ih (h.pmmStep hd op)

instance E820Entry.decidableCovers (e : E820Entry) (f : Nat) : Decidable (e.Covers f) :=
  inferInstanceAs (Decidable (_ ∧ _ ∧ _))

def E820Entry.frames (e : E820Entry) : Finset Nat :=
  (Finset.range pmmMaxFrames).filter fun f => e.Covers f

theorem E820Entry.card_frames_le (e : E820Entry) : e.frames.card ≤ pmmMaxFrames := by
  have hle := Finset.card_filter_le (Finset.range pmmMaxFrames) fun f => e.Covers f
  rwa [Finset.card_range] at hle

def E820Entry.Apart (e e' : E820Entry) : Prop := ∀ f < pmmMaxFrames, ¬ (e.Covers f ∧ e'.Covers f)

theorem E820Entry.apart_iff (e e' : E820Entry) : e.Apart e' ↔ Disjoint e.frames e'.frames := by
  simp only [Apart, Finset.disjoint_left, frames, Finset.mem_filter, Finset.mem_range]
  grind

theorem freeFrames_releaseLoop (fin : Nat) (n k : Nat) (p : Pmm)
    (hlt : p.freeFrames + ((Finset.range pmmMaxFrames).filter fun f =>
      k ≤ f ∧ f < k + n ∧ f * pageSize < fin).card < 2 ^ 64) :
    (releaseLoop fin n (k * pageSize) p).freeFrames =
      p.freeFrames + ((Finset.range pmmMaxFrames).filter fun f =>
        k ≤ f ∧ f < k + n ∧ f * pageSize < fin).card := by
  induction n generalizing k p with
  | zero =>
    have hempty : ((Finset.range pmmMaxFrames).filter fun f =>
        k ≤ f ∧ f < k + 0 ∧ f * pageSize < fin) = ∅ :=
      Finset.filter_false_of_mem fun f _ => by omega
    rw [hempty]
    rfl
  | succ n ih =>
    by_cases hgo : k * pageSize < fin ∧ k < pmmMaxFrames
    · have hsplit : ((Finset.range pmmMaxFrames).filter fun f =>
          k ≤ f ∧ f < k + (n + 1) ∧ f * pageSize < fin) =
          insert k ((Finset.range pmmMaxFrames).filter fun f =>
            k + 1 ≤ f ∧ f < k + 1 + n ∧ f * pageSize < fin) := by
        ext f
        simp only [Finset.mem_filter, Finset.mem_range, Finset.mem_insert]
        grind
      rw [hsplit, Finset.card_insert_of_notMem (by simp)] at hlt ⊢
      have hinc : (releaseFrame p k).freeFrames = p.freeFrames + 1 := by
        show inc64 p.freeFrames = _
        rw [inc64, Nat.mod_eq_of_lt (by omega)]
      unfold releaseLoop
      rw [frame_addr, if_pos hgo.1, if_neg (Nat.not_le.mpr hgo.2),
        show k * pageSize + pageSize = (k + 1) * pageSize by rw [Nat.add_mul, Nat.one_mul],
        ih (k + 1) (releaseFrame p k) (by rw [hinc]; omega), hinc]
      omega
    · -- the loop stops, and no frame from `k` on is counted
      have hempty : ((Finset.range pmmMaxFrames).filter fun f =>
          k ≤ f ∧ f < k + (n + 1) ∧ f * pageSize < fin) = ∅ := by
        refine Finset.filter_false_of_mem fun f hf => ?_
        rintro ⟨hk, -, hfin⟩
        have hmul := Nat.mul_le_mul_right pageSize hk
        have hmax := Finset.mem_range.mp hf
        exact hgo ⟨by omega, by omega⟩
      rw [hempty]
      unfold releaseLoop
      rw [frame_addr]
      split
      · next hfin =>
          rw [if_pos (by omega)]
          rfl
      · rfl

theorem freeFrames_releaseEntry {p : Pmm} {e : E820Entry}
    (hlt : p.freeFrames + e.frames.card < 2 ^ 64) :
    (releaseEntry p e).freeFrames = p.freeFrames + e.frames.card := by
  have hnone : (∀ f, ¬ e.Covers f) → p.freeFrames = p.freeFrames + e.frames.card := by
    intro hno
    have hempty : e.frames = ∅ := Finset.filter_false_of_mem fun f _ => hno f
    rw [hempty]
    rfl
  unfold releaseEntry
  split
  · next ht => exact hnone fun f hc => ht hc.1
  split
  · next hempty => exact hnone fun f hc => by have := hc.2; omega
  next ht hne =>
  obtain ⟨k, l, hk, hl, hcount⟩ := e.bounds
  have hpos : 0 < pageSize := by decide
  have hframes : e.frames = (Finset.range pmmMaxFrames).filter fun f =>
      k ≤ f ∧ f < k + (l - k) ∧ f * pageSize < l * pageSize := by
    refine Finset.filter_congr fun f _ => ?_
    rw [E820Entry.Covers, hk, hl, Nat.mul_le_mul_right_iff hpos, Nat.mul_lt_mul_right hpos]
    simp only [not_not.mp ht, true_and]
    omega
  rw [hframes] at hlt ⊢
  rw [hk, hl, hcount]
  exact freeFrames_releaseLoop (l * pageSize) (l - k) k p hlt

theorem freeFrames_foldl_releaseEntry (map : List E820Entry) (p : Pmm)
    (hlt : p.freeFrames + (map.map (Finset.card ∘ E820Entry.frames)).sum < 2 ^ 64) :
    (map.foldl releaseEntry p).freeFrames =
      p.freeFrames + (map.map (Finset.card ∘ E820Entry.frames)).sum := by
  induction map generalizing p with
  | nil => rfl
  | cons e map ih =>
    rw [List.map_cons, List.sum_cons, Function.comp_apply] at hlt ⊢
    have hone := freeFrames_releaseEntry (p := p) (e := e) (by omega)
    rw [List.foldl_cons, ih _ (by rw [hone]; omega), hone, Nat.add_assoc]

/-- The bitmap and the counters that `pmm_init` starts from. -/
def pmmBlank : Pmm := ⟨fun _ => BitVec.allOnes 64, 0, 0, 0⟩

theorem freeFrames_pmmBlank : pmmBlank.freeFrames = 0 := rfl

theorem test_pmmBlank (f : Nat) : test pmmBlank.bitmap f = true := by
  rw [test_eq_getLsbD (by decide)]
  show (BitVec.allOnes 64).getLsbD (f % 64) = true
  rw [BitVec.getLsbD_allOnes]
  exact decide_eq_true (Nat.mod_lt f (by decide))

theorem test_foldl_releaseEntry (map : List E820Entry) (f : Nat) :
    test (map.foldl releaseEntry pmmBlank).bitmap f = true ↔
      ∀ e ∈ map, ¬ (e.Covers f ∧ f < pmmMaxFrames) :=
  (frameUsed_foldl_releaseEntry map pmmBlank f).trans (and_iff_right (test_pmmBlank f))

theorem sum_card_frames_le (map : List E820Entry) :
    (map.map (Finset.card ∘ E820Entry.frames)).sum ≤ map.length * pmmMaxFrames := by
  have hbound : ∀ x ∈ map.map (Finset.card ∘ E820Entry.frames), x ≤ pmmMaxFrames := by
    intro x hx
    obtain ⟨e, -, rfl⟩ := List.mem_map.mp hx
    rw [Function.comp_apply]
    exact e.card_frames_le
  have hsum := List.sum_le_card_nsmul _ _ hbound
  rwa [List.length_map, smul_eq_mul] at hsum

theorem clearFrames_foldl_releaseEntry (map : List E820Entry) :
    clearFrames (map.foldl releaseEntry pmmBlank).bitmap =
      (map.map E820Entry.frames).foldr (· ∪ ·) ∅ := by
  ext f
  rw [mem_clearFrames, mem_foldr_union, ← Bool.not_eq_true, test_foldl_releaseEntry]
  simp only [List.mem_map, exists_exists_and_eq_and, E820Entry.frames, Finset.mem_filter,
    Finset.mem_range]
  grind

theorem exists_counted (map : List E820Entry) (hmap : map.length < 2 ^ 32) :
    ∃ d < 2 ^ 63, Counted d (map.foldl releaseEntry pmmBlank) ∧
      (d = 0 ↔ map.Pairwise E820Entry.Apart) := by
  have hunion := card_foldr_union (map.map E820Entry.frames)
  rw [List.map_map, List.pairwise_map] at hunion
  obtain ⟨hle, hiff⟩ := hunion
  have hbound := sum_card_frames_le map
  rw [show pmmMaxFrames = 1048576 from rfl] at hbound
  have hfree := freeFrames_foldl_releaseEntry map pmmBlank (by rw [freeFrames_pmmBlank]; omega)
  rw [freeFrames_pmmBlank, Nat.zero_add] at hfree
  refine ⟨(map.map (Finset.card ∘ E820Entry.frames)).sum -
    ((map.map E820Entry.frames).foldr (· ∪ ·) ∅).card, by omega, ⟨?_, fun f hf => ?_⟩, ?_⟩
  · rw [hfree, clearFrames_foldl_releaseEntry]
    omega
  · rw [test_foldl_releaseEntry]
    rintro e - ⟨-, hlt⟩
    omega
  · simp only [← E820Entry.apart_iff] at hiff
    rw [← hiff]
    omega

theorem Counted.pmmInit {d : Nat} (hd : d < 2 ^ 63) {map : List E820Entry}
    (h : Counted d (map.foldl releaseEntry pmmBlank)) (kernelEnd : Nat) :
    Counted d (pmmInit map kernelEnd) :=
  Counted.reserveLoop _ hd _ _ (h.reserveFrame hd 0)

/-- The counter is the number of clear bits, from `pmm_init` on and through every
sequence of allocations and frees, exactly if no frame lies in two usable
entries of the map. -/
theorem freeFrames_eq_iff {map : List E820Entry} (hmap : map.length < 2 ^ 32) (kernelEnd : Nat)
    (ops : List PmmOp) :
    (ops.foldl pmmStep ⟨pmmInit map kernelEnd, []⟩).pmm.freeFrames =
        (clearFrames (ops.foldl pmmStep ⟨pmmInit map kernelEnd, []⟩).pmm.bitmap).card ↔
      map.Pairwise E820Entry.Apart := by
  obtain ⟨d, hd, hinit, hiff⟩ := exists_counted map hmap
  have hrun := Counted.run hd ops (s := ⟨pmmInit map kernelEnd, []⟩) (hinit.pmmInit hd kernelEnd)
  rw [← hiff, hrun.free]
  omega

def halfPageMap : List E820Entry := [⟨0x200000, 0x2800, 1⟩, ⟨0x202800, 0x3000, 1⟩]

theorem freeFrames_eq_halfPage :
    ([PmmOp.alloc, .free 0x300000].foldl pmmStep
        ⟨pmmInit halfPageMap 0x101000, []⟩).pmm.freeFrames =
      (clearFrames ([PmmOp.alloc, .free 0x300000].foldl pmmStep
        ⟨pmmInit halfPageMap 0x101000, []⟩).pmm.bitmap).card := by
  refine (freeFrames_eq_iff (by decide) 0x101000 _).mpr (List.pairwise_pair.mpr ?_)
  rintro f - ⟨⟨-, -, hfin⟩, -, hstart, -⟩
  have hlo : E820Entry.fin ⟨0x200000, 0x2800, 1⟩ = 0x202000 := by decide
  have hhi : E820Entry.start ⟨0x202800, 0x3000, 1⟩ = 0x203000 := by decide
  omega

/-- A map that lists one page twice: `pmm_init` leaves one clear bit and counts two. -/
theorem repeated_entry_counted_twice :
    (pmmInit [⟨0x200000, 0x1000, 1⟩, ⟨0x200000, 0x1000, 1⟩] 0x101000).freeFrames = 2 ∧
      (clearFrames (pmmInit [⟨0x200000, 0x1000, 1⟩, ⟨0x200000, 0x1000, 1⟩] 0x101000).bitmap).card
        = 1 := by
  refine ⟨by decide +kernel, Finset.card_eq_one.mpr ⟨0x200, Finset.eq_singleton_iff_unique_mem.mpr
    ⟨mem_clearFrames.mpr ⟨by decide, by decide +kernel⟩, fun f hf => ?_⟩⟩⟩
  obtain ⟨-, hclear⟩ := mem_clearFrames.mp hf
  have hfree : ¬ frameUsed
      (pmmInit [⟨0x200000, 0x1000, 1⟩, ⟨0x200000, 0x1000, 1⟩] 0x101000) f = true :=
    fun hused => Bool.false_ne_true (hclear.symm.trans hused)
  rw [frameUsed_pmmInit, not_or] at hfree
  obtain ⟨hcov, -⟩ := hfree
  push Not at hcov
  obtain ⟨e, hmem, ⟨-, hstart, hfin⟩, -⟩ := hcov
  obtain rfl : e = ⟨0x200000, 0x1000, 1⟩ := by simpa using hmem
  have hlo : E820Entry.start ⟨0x200000, 0x1000, 1⟩ = 0x200000 := by decide
  have hhi : E820Entry.fin ⟨0x200000, 0x1000, 1⟩ = 0x201000 := by decide
  rw [hlo, pageSize_eq] at hstart
  rw [hhi, pageSize_eq] at hfin
  omega

end DevOs
