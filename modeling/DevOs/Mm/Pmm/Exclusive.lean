import DevOs.Mm.Pmm
import Mathlib.Logic.Relation

/-!
No frame has two owners, and only usable memory is handed out.
-/

namespace DevOs

open Bitmap

@[simp] theorem frameUsed_frameClear (p : Pmm) (f g : Nat) :
    frameUsed (frameClear p f) g = (!decide (g = f) && frameUsed p g) :=
  test_clear (by decide) p.bitmap f g

theorem frameUsed_releaseFrame (p : Pmm) (f g : Nat) :
    frameUsed (releaseFrame p f) g = (!decide (g = f) && frameUsed p g) :=
  frameUsed_frameClear p f g

theorem frameUsed_reserveFrame (p : Pmm) (f g : Nat) :
    frameUsed (reserveFrame p f) g = (decide (g = f) || frameUsed p g) := by
  unfold reserveFrame
  split
  · next hused => by_cases hg : g = f <;> simp [hg, hused]
  · exact test_set (by decide) p.bitmap f g

theorem frame_addr (k : Nat) : k * pageSize / pageSize = k :=
  Nat.mul_div_cancel k (by decide)

theorem frameUsed_releaseLoop (fin g : Nat) (n k : Nat) (p : Pmm) :
    frameUsed (releaseLoop fin n (k * pageSize) p) g = true ↔ frameUsed p g = true ∧
        ¬ (k ≤ g ∧ g < k + n ∧ g * pageSize < fin ∧ g < pmmMaxFrames) := by
  induction n generalizing k p with
  | zero =>
    show frameUsed p g = true ↔ _
    exact ⟨fun h => ⟨h, by omega⟩, fun h => h.1⟩
  | succ n ih =>
    unfold releaseLoop
    rw [frame_addr]
    by_cases hfin : k * pageSize < fin
    · rw [if_pos hfin]
      by_cases hmax : pmmMaxFrames ≤ k
      · rw [if_pos hmax]
        exact ⟨fun h => ⟨h, by omega⟩, fun h => h.1⟩
      · rw [if_neg hmax, show k * pageSize + pageSize = (k + 1) * pageSize by
          rw [Nat.add_mul, Nat.one_mul], ih, frameUsed_releaseFrame]
        by_cases hg : g = k
        · subst hg
          simp only [decide_true, Bool.not_true, Bool.false_and, Bool.false_eq_true, false_and,
            false_iff]
          exact fun h => h.2 ⟨Nat.le_refl g, by omega, hfin, by omega⟩
        · simp only [hg, decide_false, Bool.not_false, Bool.true_and]
          grind
    · rw [if_neg hfin]
      refine ⟨fun h => ⟨h, ?_⟩, fun h => h.1⟩
      rintro ⟨hkg, -, hlt, -⟩
      have := Nat.mul_le_mul_right pageSize hkg
      omega

def E820Entry.Covers (e : E820Entry) (frame : Nat) : Prop :=
  e.type = 1 ∧ e.start ≤ frame * pageSize ∧ frame * pageSize < e.fin

theorem E820Entry.bounds (e : E820Entry) : ∃ k l, e.start = k * pageSize ∧ e.fin = l * pageSize ∧
    (l * pageSize - k * pageSize) / pageSize = l - k := by
  obtain ⟨k, hk⟩ := exists_eq_mul_left_of_dvd (dvd_alignUp e.base pageSize)
  obtain ⟨l, hl⟩ :=
    exists_eq_mul_left_of_dvd (dvd_alignDown ((e.base + e.length) % 2 ^ 64) pageSize)
  exact ⟨k, l, hk, hl, by rw [← Nat.sub_mul, frame_addr]⟩

theorem frameUsed_releaseEntry (p : Pmm) (e : E820Entry) (g : Nat) :
    frameUsed (releaseEntry p e) g = true ↔
      frameUsed p g = true ∧ ¬ (e.Covers g ∧ g < pmmMaxFrames) := by
  unfold releaseEntry E820Entry.Covers
  by_cases ht : e.type = 1
  · rw [if_neg (not_not.mpr ht)]
    by_cases hempty : e.fin ≤ e.start
    · rw [if_pos hempty]
      exact ⟨fun h => ⟨h, by omega⟩, fun h => h.1⟩
    · rw [if_neg hempty]
      obtain ⟨k, l, hk, hl, hcount⟩ := e.bounds
      rw [hk, hl, frameUsed_releaseLoop]
      have hpos : 0 < pageSize := by decide
      rw [hcount, Nat.mul_le_mul_right_iff hpos, Nat.mul_lt_mul_right hpos]
      have hkl : k < l := by
        rw [hk, hl, Nat.not_le, Nat.mul_lt_mul_right hpos] at hempty
        exact hempty
      grind
  · rw [if_pos ht]
    exact ⟨fun h => ⟨h, fun hc => ht hc.1.1⟩, fun h => h.1⟩

theorem frameUsed_foldl_releaseEntry (map : List E820Entry) (p : Pmm) (g : Nat) :
    frameUsed (map.foldl releaseEntry p) g = true ↔
      frameUsed p g = true ∧ ∀ e ∈ map, ¬ (e.Covers g ∧ g < pmmMaxFrames) := by
  induction map generalizing p with
  | nil => simp
  | cons e map ih =>
    rw [List.foldl_cons, ih, frameUsed_releaseEntry, List.forall_mem_cons, and_assoc]

theorem frameUsed_reserveLoop (fin g : Nat) (n k : Nat) (p : Pmm) :
    frameUsed (reserveLoop fin n (k * pageSize) p) g = true ↔
      frameUsed p g = true ∨ k ≤ g ∧ g < k + n ∧ g * pageSize < fin := by
  induction n generalizing k p with
  | zero =>
    show frameUsed p g = true ↔ _
    exact ⟨.inl, fun h => h.resolve_right (by omega)⟩
  | succ n ih =>
    unfold reserveLoop
    rw [frame_addr]
    by_cases hfin : k * pageSize < fin
    · rw [if_pos hfin, show k * pageSize + pageSize = (k + 1) * pageSize by
          rw [Nat.add_mul, Nat.one_mul], ih, frameUsed_reserveFrame]
      by_cases hg : g = k
      · subst hg
        simp only [decide_true, Bool.true_or, true_or, true_iff]
        exact .inr ⟨Nat.le_refl g, by omega, hfin⟩
      · simp only [hg, decide_false, Bool.false_or]
        grind
    · rw [if_neg hfin]
      refine ⟨.inl, fun h => h.resolve_right ?_⟩
      rintro ⟨hkg, -, hlt⟩
      have := Nat.mul_le_mul_right pageSize hkg
      omega

theorem frameUsed_pmmInit (map : List E820Entry) (kernelEnd g : Nat) :
    frameUsed (pmmInit map kernelEnd) g = true ↔
      (∀ e ∈ map, ¬ (e.Covers g ∧ g < pmmMaxFrames)) ∨ g = 0 ∨
        kernelStart ≤ g * pageSize ∧ g * pageSize < alignUp kernelEnd pageSize := by
  have hpos : 0 < pageSize := by decide
  obtain ⟨l, hl⟩ : ∃ l, alignUp kernelEnd pageSize = l * pageSize :=
    exists_eq_mul_left_of_dvd (dvd_alignUp _ _)
  have hstart : kernelStart = 256 * pageSize := by decide
  have hcount : (l * pageSize - 256 * pageSize) / pageSize = l - 256 := by
    rw [← Nat.sub_mul, frame_addr]
  unfold pmmInit
  dsimp only
  rw [hl, hstart, frameUsed_reserveLoop, frameUsed_reserveFrame, hcount, Bool.or_eq_true,
    decide_eq_true_eq, frameUsed_foldl_releaseEntry, Nat.mul_le_mul_right_iff hpos,
    Nat.mul_lt_mul_right hpos]
  have hones : frameUsed ⟨fun _ => BitVec.allOnes 64, 0, 0, 0⟩ g = true := by
    rw [frameUsed, test_eq_getLsbD (by decide), BitVec.getLsbD_allOnes]
    exact decide_eq_true (Nat.mod_lt g (by decide))
  rw [hones]
  grind

theorem searchHint_releaseLoop (fin n addr : Nat) (p : Pmm) :
    (releaseLoop fin n addr p).searchHint = p.searchHint := by
  induction n generalizing addr p with
  | zero => rfl
  | succ n ih =>
    unfold releaseLoop
    split
    · split
      · rfl
      · exact ih _ _
    · rfl

theorem searchHint_reserveFrame (p : Pmm) (f : Nat) :
    (reserveFrame p f).searchHint = p.searchHint := by
  unfold reserveFrame
  split <;> rfl

theorem searchHint_reserveLoop (fin n addr : Nat) (p : Pmm) :
    (reserveLoop fin n addr p).searchHint = p.searchHint := by
  induction n generalizing addr p with
  | zero => rfl
  | succ n ih =>
    unfold reserveLoop
    split
    · rw [ih, searchHint_reserveFrame]
    · rfl

theorem searchHint_foldl_releaseEntry (map : List E820Entry) (p : Pmm) :
    (map.foldl releaseEntry p).searchHint = p.searchHint := by
  induction map generalizing p with
  | nil => rfl
  | cons e map ih =>
    rw [List.foldl_cons, ih]
    unfold releaseEntry
    split
    · rfl
    · split
      · rfl
      · exact searchHint_releaseLoop _ _ _ _

theorem searchHint_pmmInit (map : List E820Entry) (kernelEnd : Nat) :
    (pmmInit map kernelEnd).searchHint = 0 :=
  (searchHint_reserveLoop _ _ _ _).trans
    ((searchHint_reserveFrame _ 0).trans (searchHint_foldl_releaseEntry map _))

/-- The frames that may be handed out: inside a usable entry, not frame 0, and
clear of the kernel image. -/
def Allocatable (map : List E820Entry) (kernelEnd frame : Nat) : Prop :=
  frame ≠ 0 ∧
    (∃ e ∈ map, e.type = 1 ∧ e.base ≤ frame * pageSize ∧
      (frame + 1) * pageSize ≤ e.base + e.length) ∧
    ∀ x, frame * pageSize ≤ x → x < (frame + 1) * pageSize → ¬ (0x100000 ≤ x ∧ x < kernelEnd)

theorem E820Entry.Covers.inside {e : E820Entry} {frame : Nat} (h : e.Covers frame)
    (he : e.base + e.length ≤ 2 ^ 52) :
    e.base ≤ frame * pageSize ∧ (frame + 1) * pageSize ≤ e.base + e.length := by
  obtain ⟨-, hstart, hfin⟩ := h
  have hps : pageSize = 4096 := rfl
  have hbase : e.base ≤ e.start := le_alignUp (by decide) (by omega)
  have hend : e.fin ≤ e.base + e.length := by
    have hle := alignDown_le ((e.base + e.length) % 2 ^ 64) pageSize
    rw [Nat.mod_eq_of_lt (by omega)] at hle
    unfold E820Entry.fin
    rw [Nat.mod_eq_of_lt (by omega)]
    exact hle
  -- the last boundary is a multiple of the page size past the frame's start
  obtain ⟨l, hl⟩ : ∃ l, e.fin = l * pageSize := exists_eq_mul_left_of_dvd (dvd_alignDown _ _)
  rw [hl, Nat.mul_lt_mul_right (by decide)] at hfin
  have hnext : (frame + 1) * pageSize ≤ l * pageSize := Nat.mul_le_mul_right pageSize hfin
  exact ⟨hbase.trans hstart, hnext.trans (hl ▸ hend)⟩

theorem allocatable_of_not_used {map : List E820Entry} {kernelEnd f : Nat}
    (hmap : ∀ e ∈ map, e.base + e.length ≤ 2 ^ 52) (hk : kernelEnd < 2 ^ 32)
    (hf : frameUsed (pmmInit map kernelEnd) f = false) : Allocatable map kernelEnd f := by
  rw [← Bool.not_eq_true, frameUsed_pmmInit, not_or, not_or] at hf
  obtain ⟨hcov, hzero, hkern⟩ := hf
  refine ⟨hzero, ?_, ?_⟩
  · push Not at hcov
    obtain ⟨e, hmem, hc, -⟩ := hcov
    exact ⟨e, hmem, hc.1, hc.inside (hmap e hmem)⟩
  · rintro x hlo hhi ⟨hstart, hend⟩
    have hle : kernelEnd ≤ alignUp kernelEnd pageSize :=
      le_alignUp (by decide) (by rw [pageSize_eq]; omega)
    have hps : pageSize = 4096 := rfl
    have hks : kernelStart = 1048576 := by decide
    rw [hps] at hlo hhi hle hkern
    rw [hks] at hkern
    omega

structure PmmState where
  pmm : Pmm
  held : List Nat

inductive PmmOp where
  | alloc
  | free (phys : Nat)
  deriving DecidableEq, Repr

/-- One call. A frame is held from the call that returns its address to the
call that frees it. -/
def pmmStep (s : PmmState) : PmmOp → PmmState
  | .alloc => match pmmAlloc s.pmm with
      | none => s
      | some (phys, p) => ⟨p, phys / pageSize :: s.held⟩
  | .free phys => ⟨pmmFreePage s.pmm phys, s.held.erase (phys / pageSize)⟩

def PmmOp.Allowed (s : PmmState) : PmmOp → Prop
  | .alloc => True
  | .free phys => phys / pageSize ∈ s.held

def PmmReachable (map : List E820Entry) (kernelEnd : Nat) : PmmState → Prop :=
  Relation.ReflTransGen (fun s s' => ∃ op : PmmOp, op.Allowed s ∧ s' = pmmStep s op)
    ⟨pmmInit map kernelEnd, []⟩

/-- Clear bits are allocatable frames; held frames are allocatable too, are
marked used, and have one holder. -/
structure PmmInv (good : Nat → Prop) (s : PmmState) : Prop where
  clear : ∀ f < pmmMaxFrames, frameUsed s.pmm f = false → good f
  used : ∀ f ∈ s.held, frameUsed s.pmm f = true
  held : ∀ f ∈ s.held, good f ∧ f < pmmMaxFrames
  nodup : s.held.Nodup

variable {good : Nat → Prop} {s : PmmState} {p : Pmm} {phys kernelEnd : Nat} {map : List E820Entry}

theorem pmmAlloc_frame {p' : Pmm} (h : pmmAlloc p = some (phys, p')) :
    ∃ f < pmmMaxFrames, frameUsed p f = false ∧ phys = f * pageSize ∧
      p' = { frameSet p f with freeFrames := dec64 p.freeFrames, searchHint := f / 64 } := by
  unfold pmmAlloc at h
  split at h
  · cases h
  · next f hs =>
      obtain ⟨hlt, -, hbit⟩ := search_eq_some (by decide) hs
      obtain ⟨hphys, hp⟩ := Prod.mk.inj (Option.some.inj h)
      exact ⟨f, hlt, hbit, hphys.symm, hp.symm⟩

theorem pmmAlloc_eq_some {p' : Pmm} (h : pmmAlloc p = some (phys, p')) :
    ∃ f < pmmMaxFrames, frameUsed p f = false ∧ phys = f * pageSize ∧
      ∀ g, frameUsed p' g = (decide (g = f) || frameUsed p g) := by
  obtain ⟨f, hlt, hclear, hphys, rfl⟩ := pmmAlloc_frame h
  exact ⟨f, hlt, hclear, hphys, fun g => test_set (by decide) p.bitmap f g⟩

/-- **`pmm_alloc` takes the first clear bit** of the word of the last allocation, if
there is one. -/
theorem pmmAlloc_first {f : Nat} (hlt : f < pmmMaxFrames) (hword : f / 64 = p.searchHint)
    (hclear : frameUsed p f = false)
    (hfirst : ∀ g < f, g / 64 = p.searchHint → frameUsed p g = true) :
    pmmAlloc p = some (f * pageSize,
      { frameSet p f with freeFrames := dec64 p.freeFrames, searchHint := f / 64 }) := by
  have hwords : p.searchHint < bitmapWords := by
    rw [← hword]
    exact Nat.div_lt_of_lt_mul hlt
  rw [pmmAlloc, search_eq_of_first (by decide) hwords hword hlt hclear hfirst]

theorem pmmAlloc_eq_none_iff (p : Pmm) :
    pmmAlloc p = none ↔ ∀ f < pmmMaxFrames, frameUsed p f = true := by
  have hsearch := @search_eq_none_iff _ p.bitmap bitmapWords pmmMaxFrames p.searchHint
    (by decide) (by decide)
  unfold frameUsed
  rw [← hsearch, pmmAlloc]
  split
  · next hs => simp [hs]
  · next f hs => simp [hs]

theorem frameUsed_pmmFreePage (hne : phys / pageSize ≠ 0)
    (hlt : phys / pageSize < pmmMaxFrames) (hused : frameUsed p (phys / pageSize) = true)
    (g : Nat) :
    frameUsed (pmmFreePage p phys) g = (!decide (g = phys / pageSize) && frameUsed p g) := by
  unfold pmmFreePage
  dsimp only
  rw [if_neg (by omega), if_pos hused]
  exact test_clear (by decide) p.bitmap _ g

theorem pmmInv_alloc (h : PmmInv good s) : PmmInv good (pmmStep s .alloc) := by
  simp only [pmmStep]
  split
  · exact h
  · next phys p' hs =>
      obtain ⟨f, hlt, hclear, rfl, hbits⟩ := pmmAlloc_eq_some hs
      rw [frame_addr]
      constructor
      · intro g hg hfree
        rw [hbits, Bool.or_eq_false_iff] at hfree
        exact h.clear g hg hfree.2
      · intro g hg
        rw [hbits, Bool.or_eq_true, decide_eq_true_eq]
        exact (List.mem_cons.mp hg).imp id (h.used g)
      · intro g hg
        rcases List.mem_cons.mp hg with rfl | hg
        · exact ⟨h.clear g hlt hclear, hlt⟩
        · exact h.held g hg
      · refine List.nodup_cons.mpr ⟨fun hmem => ?_, h.nodup⟩
        rw [h.used f hmem] at hclear
        cases hclear

theorem pmmInv_free (hgood : ∀ f, good f → f ≠ 0) (h : PmmInv good s)
    (hmem : phys / pageSize ∈ s.held) : PmmInv good (pmmStep s (.free phys)) := by
  obtain ⟨hg, hlt⟩ := h.held _ hmem
  have hbits := frameUsed_pmmFreePage (hgood _ hg) hlt (h.used _ hmem)
  constructor
  · intro g hglt hfree
    have hfree' := (hbits g).symm.trans hfree
    rw [Bool.and_eq_false_iff, Bool.not_eq_false', decide_eq_true_eq] at hfree'
    rcases hfree' with rfl | hclear
    · exact hg
    · exact h.clear g hglt hclear
  · intro g hmem'
    refine (hbits g).trans ?_
    rw [Bool.and_eq_true, Bool.not_eq_true', decide_eq_false_iff_not]
    refine ⟨?_, h.used g (List.mem_of_mem_erase hmem')⟩
    rintro rfl
    exact List.Nodup.not_mem_erase h.nodup hmem'
  · exact fun g hmem' => h.held g (List.mem_of_mem_erase hmem')
  · exact h.nodup.erase _

theorem pmmInv_init_of_reachable
    (h : PmmReachable map kernelEnd s) :
    PmmInv (fun f => frameUsed (pmmInit map kernelEnd) f = false) s := by
  have hzero : ∀ f, frameUsed (pmmInit map kernelEnd) f = false → f ≠ 0 := by
    rintro f hf rfl
    rw [(frameUsed_pmmInit map kernelEnd 0).mpr (.inr (.inl rfl))] at hf
    cases hf
  induction h with
  | refl => exact ⟨fun f _ hf => hf, by simp, by simp, List.nodup_nil⟩
  | tail _ hstep ih =>
    obtain ⟨op, ha, rfl⟩ := hstep
    cases op with
    | alloc => exact pmmInv_alloc ih
    | free phys => exact pmmInv_free hzero ih ha

theorem pmmInv_of_reachable
    (hmap : ∀ e ∈ map, e.base + e.length ≤ 2 ^ 52) (hk : kernelEnd < 2 ^ 32)
    (h : PmmReachable map kernelEnd s) : PmmInv (Allocatable map kernelEnd) s := by
  obtain ⟨hclear, hused, hheld, hnodup⟩ := pmmInv_init_of_reachable h
  have hgood := fun f => @allocatable_of_not_used map kernelEnd f hmap hk
  exact ⟨fun f hlt hf => hgood f (hclear f hlt hf), hused,
    fun f hf => ⟨hgood f (hheld f hf).1, (hheld f hf).2⟩, hnodup⟩

/-- **Exclusive frames of usable memory.** -/
theorem pmmAlloc_of_reachable {map : List E820Entry} {kernelEnd : Nat} {s : PmmState}
    (hmap : ∀ e ∈ map, e.base + e.length ≤ 2 ^ 52) (hk : kernelEnd < 2 ^ 32)
    (h : PmmReachable map kernelEnd s) :
    (pmmAlloc s.pmm = none ↔ ∀ f < pmmMaxFrames, frameUsed s.pmm f = true) ∧
      ∀ phys p, pmmAlloc s.pmm = some (phys, p) →
        phys ≠ 0 ∧ pageSize ∣ phys ∧ Allocatable map kernelEnd (phys / pageSize) ∧
          phys / pageSize ∉ s.held := by
  have hinv := pmmInv_of_reachable hmap hk h
  refine ⟨pmmAlloc_eq_none_iff s.pmm, fun phys p hs => ?_⟩
  obtain ⟨f, hlt, hclear, rfl, -⟩ := pmmAlloc_eq_some hs
  have hgood := hinv.clear f hlt hclear
  rw [frame_addr]
  refine ⟨?_, Nat.dvd_mul_left _ _, hgood, fun hmem => ?_⟩
  · exact Nat.mul_ne_zero hgood.1 (by decide)
  · rw [hinv.used f hmem] at hclear
    cases hclear

theorem pmmAlloc_second_frame :
    ∃ s, PmmReachable [⟨0x200000, 0x2800, 1⟩] 0x101000 s ∧ s.held = [0x200] ∧
      ∃ p, pmmAlloc s.pmm = some (0x201000, p) ∧
        Allocatable [⟨0x200000, 0x2800, 1⟩] 0x101000 0x201 ∧ 0x201 ∉ s.held := by
  have hr : PmmReachable [⟨0x200000, 0x2800, 1⟩] 0x101000
      (pmmStep ⟨pmmInit [⟨0x200000, 0x2800, 1⟩] 0x101000, []⟩ .alloc) :=
    .tail .refl ⟨.alloc, trivial, rfl⟩
  have hfst : (pmmAlloc (pmmStep ⟨pmmInit [⟨0x200000, 0x2800, 1⟩] 0x101000, []⟩ .alloc).pmm).map
      Prod.fst = some 0x201000 := by
    decide +kernel
  obtain ⟨⟨phys, p⟩, hs, rfl⟩ := Option.map_eq_some_iff.mp hfst
  obtain ⟨-, -, hgood, hfree⟩ := (pmmAlloc_of_reachable (by decide) (by decide) hr).2 _ p hs
  exact ⟨_, hr, by decide +kernel, p, hs, hgood, hfree⟩

end DevOs
