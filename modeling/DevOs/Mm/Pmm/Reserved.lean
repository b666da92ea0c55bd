import DevOs.Mm.Pmm.Count

/-!
Entries of the E820 map that are not usable.
-/

namespace DevOs

def E820Entry.Overlaps (e : E820Entry) (frame : Nat) : Prop :=
  ∃ x, frame * pageSize ≤ x ∧ x < (frame + 1) * pageSize ∧ e.base ≤ x ∧ x < e.base + e.length

/-- The frame is one of those that `pmm_init` takes for the kernel image. -/
def KernelFrame (kernelEnd frame : Nat) : Prop :=
  kernelStart ≤ frame * pageSize ∧ frame * pageSize < alignUp kernelEnd pageSize

/-- In no run does `pmm_alloc` return a frame with a byte of an entry that is not
usable. -/
def NeverReserved (map : List E820Entry) (kernelEnd : Nat) : Prop :=
  ∀ s, PmmReachable map kernelEnd s → ∀ phys p, pmmAlloc s.pmm = some (phys, p) →
    ∀ e ∈ map, e.type ≠ 1 → ¬ e.Overlaps (phys / pageSize)

variable {map : List E820Entry} {kernelEnd f : Nat}

theorem clear_pmmInit_iff : frameUsed (pmmInit map kernelEnd) f = false ↔
      (∃ u ∈ map, u.Covers f) ∧ f < pmmMaxFrames ∧ f ≠ 0 ∧ ¬ KernelFrame kernelEnd f := by
  rw [← Bool.not_eq_true, frameUsed_pmmInit, KernelFrame]
  grind

theorem exists_pmmAlloc_of_clear {s : PmmState} (hlt : f < pmmMaxFrames)
    (hs : PmmReachable map kernelEnd s) (hf : frameUsed s.pmm f = false) :
    ∃ s', PmmReachable map kernelEnd s' ∧ ∃ p, pmmAlloc s'.pmm = some (f * pageSize, p) := by
  generalize hn : (clearFrames s.pmm.bitmap).card = n
  induction n generalizing s with
  | zero =>
    have hmem : f ∈ clearFrames s.pmm.bitmap := mem_clearFrames.mpr ⟨hlt, hf⟩
    rw [Finset.card_eq_zero.mp hn] at hmem
    exact absurd hmem (Finset.notMem_empty f)
  | succ n ih =>
    cases ha : pmmAlloc s.pmm with
    | none =>
      rw [(pmmAlloc_eq_none_iff s.pmm).mp ha f hlt] at hf
      cases hf
    | some r =>
      obtain ⟨phys, p⟩ := r
      obtain ⟨g, -, -, rfl, hbits⟩ := pmmAlloc_eq_some ha
      by_cases hfg : f = g
      · exact ⟨s, hs, p, by rw [ha, hfg]⟩
      · -- another frame is handed out, and one bit less is clear
        have hstep : (pmmStep s .alloc).pmm = p := by
          simp only [pmmStep, ha]
        have hcount := card_clearFrames_alloc ha
        refine ih (.tail hs ⟨.alloc, trivial, rfl⟩) ?_ ?_
        · rw [hstep, hbits, hf, decide_eq_false hfg]
          rfl
        · rw [hstep]
          omega

/-- **No reserved frame is ever handed out** exactly if no frame that a usable entry
covers, but frame 0 and the kernel's, has a byte of an entry that is not usable. -/
theorem neverReserved_iff (map : List E820Entry) (kernelEnd : Nat) :
    NeverReserved map kernelEnd ↔
      ∀ u ∈ map, ∀ f < pmmMaxFrames, u.Covers f → f ≠ 0 → ¬ KernelFrame kernelEnd f →
        ∀ e ∈ map, e.type ≠ 1 → ¬ e.Overlaps f := by
  constructor
  · intro h u hu f hlt hcov hzero hkern e he htype
    have hclear : frameUsed (pmmInit map kernelEnd) f = false :=
      clear_pmmInit_iff.mpr ⟨⟨u, hu, hcov⟩, hlt, hzero, hkern⟩
    obtain ⟨s, hs, p, ha⟩ :=
      exists_pmmAlloc_of_clear hlt (s := ⟨pmmInit map kernelEnd, []⟩) .refl hclear
    have hno := h s hs _ p ha e he htype
    rwa [frame_addr] at hno
  · intro h s hs phys p ha e he htype
    obtain ⟨g, hlt, hclear, rfl, -⟩ := pmmAlloc_eq_some ha
    obtain ⟨⟨u, hu, hcov⟩, -, hzero, hkern⟩ :=
      clear_pmmInit_iff.mp ((pmmInv_init_of_reachable hs).clear g hlt hclear)
    rw [frame_addr]
    exact h u hu g hlt hcov hzero hkern e he htype

/-- Firmware reserves 1 KB inside a usable entry: the first frame handed out holds
it, in whichever order the two entries stand. -/
theorem pmmAlloc_returns_reserved :
    ¬ NeverReserved [⟨0x200000, 0x3000, 1⟩, ⟨0x200800, 0x400, 2⟩] 0x101000 ∧
      ¬ NeverReserved [⟨0x200800, 0x400, 2⟩, ⟨0x200000, 0x3000, 1⟩] 0x101000 := by
  have hover : E820Entry.Overlaps ⟨0x200800, 0x400, 2⟩ (0x200000 / pageSize) :=
    ⟨0x200800, by decide, by decide, by decide, by decide⟩
  have hfirst : ∀ map, (pmmAlloc (pmmInit map 0x101000)).map Prod.fst = some 0x200000 →
      ⟨0x200800, 0x400, 2⟩ ∈ map → ¬ NeverReserved map 0x101000 := by
    intro map hs hmem h
    obtain ⟨⟨phys, p⟩, ha, rfl⟩ := Option.map_eq_some_iff.mp hs
    exact h _ .refl _ p ha _ hmem (by decide) hover
  exact ⟨hfirst _ (by decide +kernel) (by decide), hfirst _ (by decide +kernel) (by decide)⟩

end DevOs
