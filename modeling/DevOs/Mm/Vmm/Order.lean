import DevOs.Mm.Pmm.Count
import DevOs.Mm.Vmm.Rule

/-!
The order in which frames are taken.
-/

namespace DevOs

open FrameSupply Bitmap

section

variable {σ : Type} [FrameSource σ] {p p' : σ} {s s1 : Phys σ} {page t pml4 : Nat}

def Takes : σ → σ → Prop :=
  Relation.ReflTransGen fun p p' => ∃ page, FrameSource.alloc p = some (page, p')

theorem Takes.refl (p : σ) : Takes p p := Relation.ReflTransGen.refl

theorem Takes.trans {p'' : σ} (h : Takes p p') (h' : Takes p' p'') : Takes p p'' :=
  Relation.ReflTransGen.trans h h'

theorem takes_allocPage (ha : allocPage s = some (page, s1)) : Takes s.frames s1.frames := by
  obtain ⟨frames, hs, rfl⟩ := allocPage_eq_some ha
  exact Relation.ReflTransGen.single ⟨page, hs⟩

theorem takes_getOrCreate {i : Fin 512} {flags : BitVec 64} {u : Nat}
    (h : getOrCreate s t i flags = (u, s1)) : Takes s.frames s1.frames := by
  unfold getOrCreate at h
  split at h
  · cases ha : allocPage s with
    | none =>
      rw [ha] at h
      cases h
      exact .refl _
    | some r =>
      obtain ⟨page, s2⟩ := r
      have h2 := takes_allocPage ha
      rw [ha] at h
      cases h
      exact h2
  · cases h
    exact .refl _

theorem takes_vmmMap (s : Phys σ) (pml4 : Nat) (v phys flags : BitVec 64) :
    Takes s.frames (vmmMap s pml4 v phys flags).frames := by
  refine vmmMap_levels (J := fun _ _ s' _ => Takes s.frames s'.frames)
    (Q := fun s' _ => Takes s.frames s'.frames) phys (.refl _) ?_ fun h => h
  intro p t i s1 es u s' _ h hr
  have h' := h.trans (takes_getOrCreate hr)
  exact ⟨fun _ => h', fun _ => h'⟩

theorem Takes.free [FrameSupply σ] (h : Takes p p') (hok : Ok p) :
    Ok p' ∧ ∀ t, Free p' t → Free p t := by
  induction h with
  | refl => exact ⟨hok, fun t ht => ht⟩
  | tail _ ha ih =>
    obtain ⟨page, ha⟩ := ha
    obtain ⟨hok', -, hiff⟩ := alloc_some ih.1 ha
    exact ⟨hok', fun t ht => ih.2 t ((hiff t).mp ht).1⟩

end

/-- The first frame of the word at which `pmm_alloc` begins is in use. -/
def HintSet (p : Pmm) : Prop :=
  p.searchHint < bitmapWords ∧ frameUsed p (p.searchHint * 64) = true

variable {p p' : Pmm} {page t : Nat}

/-- The frame that call `n`, counted from 0, of `pmm_alloc` returns. -/
def nthFrame : Nat → Pmm → Option Nat
  | 0, p => (pmmAlloc p).map Prod.fst
  | n + 1, p => (pmmAlloc p).bind fun r => nthFrame n r.2

theorem nthFrame_succ (ha : pmmAlloc p = some (page, p')) (n : Nat) :
    nthFrame (n + 1) p = nthFrame n p' := by
  rw [nthFrame, ha]
  rfl

/-- **The next frame has a number**: so many are free before, and so many fewer now. -/
theorem Takes.nthFrame {p'' : Pmm} (h : Takes p p') (ha : pmmAlloc p' = some (page, p'')) :
    (clearFrames p'.bitmap).card ≤ (clearFrames p.bitmap).card ∧
      nthFrame ((clearFrames p.bitmap).card - (clearFrames p'.bitmap).card) p = some page := by
  induction h using Relation.ReflTransGen.head_induction_on with
  | refl =>
    rw [Nat.sub_self, DevOs.nthFrame, ha]
    exact ⟨le_rfl, rfl⟩
  | @head p p1 hfirst _ ih =>
    obtain ⟨page1, hfirst⟩ := hfirst
    obtain ⟨hle, hnth⟩ := ih
    have hcount := card_clearFrames_alloc hfirst
    refine ⟨by omega, ?_⟩
    rw [← hcount, Nat.sub_add_comm hle, nthFrame_succ hfirst]
    exact hnth

theorem pmmAlloc_search (h : pmmAlloc p = some (page, p')) :
    ∃ frame, search p.bitmap bitmapWords pmmMaxFrames p.searchHint = some frame ∧
      page = frame * pageSize ∧ p'.bitmap = set p.bitmap frame ∧ p'.searchHint = frame / 64 := by
  unfold pmmAlloc at h
  split at h
  · cases h
  · next frame hs =>
      cases h
      exact ⟨frame, hs, rfl, rfl, rfl⟩

theorem hintSet_of_pmmAlloc (h : pmmAlloc p = some (page, p')) : HintSet p' := by
  obtain ⟨frame, hs, -, hbits, hhint⟩ := pmmAlloc_search h
  rw [HintSet, hhint, frameUsed, hbits]
  exact ⟨(search_eq_some (by decide) hs).2.1, test_set_of_search (by decide) hs⟩

theorem HintSet.used_before (h : HintSet p) (ha : pmmAlloc p = some (t + pageSize, p'))
    (ht : pageSize ∣ t) : ¬ FreeFrame p t := by
  obtain ⟨frame, hs, hpage, -⟩ := pmmAlloc_search ha
  obtain ⟨f, rfl⟩ := ht
  obtain rfl : frame = f + 1 := by
    rw [pageSize_eq] at hpage
    omega
  rw [Nat.mul_comm, freeFrame_mul_iff, not_and, Bool.not_eq_false]
  intro _
  exact search_before (by decide) h.1 h.2 hs

theorem Takes.no_gap (h : Takes p p') (hok : Ok p) (hp : HintSet p) (hfree : FreeFrame p' t)
    (hnext : FreeFrame p (t + pageSize)) : FreeFrame p' (t + pageSize) := by
  suffices hgap : (Ok p' ∧ HintSet p') ∧ (FreeFrame p' t → FreeFrame p' (t + pageSize)) from
    hgap.2 hfree
  clear hfree
  induction h with
  | refl => exact ⟨⟨hok, hp⟩, fun _ => hnext⟩
  | @tail p1 p2 _ ha ih =>
    obtain ⟨page, ha⟩ := ha
    obtain ⟨⟨hok1, hp1⟩, hgap⟩ := ih
    obtain ⟨hok2, -, hiff⟩ := alloc_some hok1 ha
    refine ⟨⟨hok2, hintSet_of_pmmAlloc ha⟩, fun hf => (hiff _).mpr ?_⟩
    have hf1 : FreeFrame p1 t := ((hiff t).mp hf).1
    refine ⟨hgap hf1, ?_⟩
    rintro rfl
    exact hp1.used_before ha hf1.1 hf1

end DevOs
