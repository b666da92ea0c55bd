import DevOs.Mm.Vmm.Confine

/-!
Logs of what happens to physical memory: the frames that `pmm_alloc` has returned and the
ranges that have been written.
-/

namespace DevOs

open ByteMem FrameSupply

variable {σ : Type} [FrameSource σ] [FrameSupply σ] {s s' s'' : Phys σ} {es es' : List PhysEvent}
  {pml4 : Nat}

/-- The frames that are gone are those of the log, and a byte that the log does
not mention is as it was. -/
structure Logged (es : List PhysEvent) (s s' : Phys σ) : Prop where
  supply : Ok s'.frames
  taken : ∀ f, .alloc f ∈ es → Free s.frames f
  free : ∀ f, Free s'.frames f ↔ Free s.frames f ∧ .alloc f ∉ es
  mem : ∀ x, (∀ a n, .write a n ∈ es → x < a ∨ a + n ≤ x) → s'.mem x = s.mem x

namespace Logged

theorem nil (hok : Ok s.frames) : Logged [] s s where
  supply := hok
  taken f hf := by cases hf
  free f := by simp
  mem x _ := rfl

theorem append (h : Logged es s s') (h' : Logged es' s' s'') : Logged (es ++ es') s s'' where
  supply := h'.supply
  taken f hf := (List.mem_append.mp hf).elim (h.taken f) fun hf => ((h.free f).mp (h'.taken f hf)).1
  free f := by
    rw [h'.free, h.free, List.mem_append, not_or, and_assoc]
  mem x hx := by
    rw [h'.mem x fun a n hw => hx a n (List.mem_append_right es hw)]
    exact h.mem x fun a n hw => hx a n (List.mem_append_left es' hw)

theorem write (hok : Ok s.frames) {m' : Mem} {a n : Nat}
    (hm : ∀ x, x < a ∨ a + n ≤ x → m' x = s.mem x) :
    Logged [.write a n] s { s with mem := m' } where
  supply := hok
  taken f hf := by simp at hf
  free f := by simp
  mem x hx := hm x (hx a n List.mem_cons_self)

variable {page : Nat}

variable (hok : Ok s.frames)
include hok

theorem alloc {frames : σ} (ha : FrameSource.alloc s.frames = some (page, frames)) :
    Logged [.alloc page, .write page pageSize] s ⟨fill s.mem page pageSize 0, frames⟩ := by
  obtain ⟨hok', hfree, hiff⟩ := alloc_some hok ha
  refine ⟨hok', fun f hf => ?_, fun f => ?_, fun x hx => ?_⟩
  · obtain rfl : f = page := by simpa using hf
    exact hfree
  · rw [hiff]
    simp
  · exact fill_apply_of_disjoint (hx page pageSize (by simp))

theorem allocPage (ha : allocPage s = some (page, s')) :
    allocEvents s = [.alloc page, .write page pageSize] ∧ Logged (allocEvents s) s s' := by
  obtain ⟨frames, hal, rfl⟩ := allocPage_eq_some ha
  unfold allocEvents
  rw [hal]
  exact ⟨rfl, alloc hok hal⟩

theorem getOrCreate (t : Nat) (i : Fin 512) (flags : BitVec 64) :
    Logged (getOrCreateEvents s t i) s (getOrCreate s t i flags).2 := by
  unfold getOrCreateEvents DevOs.getOrCreate DevOs.allocPage
  split
  · cases hal : FrameSource.alloc s.frames with
    | none => exact nil hok
    | some r =>
      obtain ⟨page, frames⟩ := r
      have h := alloc hok hal
      exact h.append (write h.supply fun x hx => store_apply_of_disjoint hx)
  · exact nil hok

theorem vmmMap (pml4 : Nat) (v phys flags : BitVec 64) :
    Logged (vmmMapEvents s pml4 v flags) s (vmmMap s pml4 v phys flags) := by
  refine vmmMap_levels (J := fun _ _ s' es => Logged es s s') (Q := fun s' es => Logged es s s')
    phys (nil hok) ?_ ?_
  · intro p t i s1 es u s' _ h hr
    have h' := getOrCreate h.supply t i (midFlags flags)
    rw [hr] at h'
    exact ⟨fun _ => h.append h', fun _ => h.append h'⟩
  · exact fun h => h.append (write h.supply fun x hx => store_apply_of_disjoint hx)

end Logged

/-- `vmm_create_address_space` writes the upper half of the new PML4. -/
def createEvents (s : Phys σ) : List PhysEvent :=
  match FrameSource.alloc s.frames with
  | none => []
  | some (page, _) => [.alloc page, .write page pageSize, .write (page + 8 * 256) (8 * 256)]

theorem Logged.create (hok : Ok s.frames) (kernelPml4 : Nat) :
    Logged (createEvents s) s (vmmCreateAddressSpace s kernelPml4).2 := by
  unfold createEvents vmmCreateAddressSpace DevOs.allocPage
  cases hal : FrameSource.alloc s.frames with
  | none => exact Logged.nil hok
  | some r =>
    obtain ⟨page, frames⟩ := r
    have h := Logged.alloc hok hal
    refine h.append (Logged.write h.supply fun x hx => ?_)
    exact copyUpperHalf_apply (by omega) _ kernelPml4

def Covered (T : Nat → Prop) (es : List PhysEvent) : Prop :=
  ∀ a n, .write a n ∈ es → ∀ x, a ≤ x → x < a + n → ∃ f, T f ∧ f ≤ x ∧ x < f + pageSize

variable {T : Nat → Prop}

@[simp] theorem covered_nil : Covered T [] := fun _ _ h => by cases h

@[simp] theorem covered_append : Covered T (es ++ es') ↔ Covered T es ∧ Covered T es' := by
  unfold Covered
  simp only [List.mem_append]
  grind

theorem Covered.mono {T' : Nat → Prop} (h : Covered T es) (hT : ∀ f, T f → T' f) :
    Covered T' es := by
  intro a n hw x hlo hhi
  obtain ⟨f, hf, hx⟩ := h a n hw x hlo hhi
  exact ⟨f, hT f hf, hx⟩

end DevOs
