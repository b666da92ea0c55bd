import DevOs.Mm.Pmm.Exclusive
import DevOs.Mm.Vmm.Tables

/-!
One rule for `vmm_map`, whatever is to be proved about it.
-/

namespace DevOs

open ByteMem Radix

/-- A frame that can hold a table: not the null pointer, page aligned, and in
reach of an entry. -/
structure TableFrame (f : Nat) : Prop where
  nonzero : f ≠ 0
  aligned : pageSize ∣ f
  small : f < 2 ^ 52

/-- A source of frames that knows which ones are free. -/
class FrameSupply (σ : Type) [FrameSource σ] where
  Free : σ → Nat → Prop
  Ok : σ → Prop
  tableFrame : ∀ {s f}, Ok s → Free s f → TableFrame f
  alloc_some : ∀ {s f s'}, Ok s → FrameSource.alloc s = some (f, s') →
    Ok s' ∧ Free s f ∧ ∀ g, Free s' g ↔ Free s g ∧ g ≠ f
  alloc_none : ∀ {s}, Ok s → FrameSource.alloc s = none → ∀ f, ¬ Free s f

open FrameSupply

instance : FrameSupply (List Nat) where
  Free l f := f ∈ l
  Ok l := l.Nodup ∧ ∀ f ∈ l, TableFrame f
  tableFrame h hf := h.2 _ hf
  alloc_some {s f s'} h ha := by
    cases s with
    | nil => cases ha
    | cons page rest =>
      cases ha
      obtain ⟨hnodup, hframes⟩ := h
      obtain ⟨hpage, hrest⟩ := List.nodup_cons.mp hnodup
      refine ⟨⟨hrest, fun f hf => hframes f (List.mem_cons_of_mem _ hf)⟩, List.mem_cons_self, ?_⟩
      intro g
      rw [List.mem_cons]
      grind
  alloc_none {s} _ ha f hf := by
    cases s with
    | nil => cases hf
    | cons page rest => cases ha

def FreeFrame (p : Pmm) (t : Nat) : Prop :=
  pageSize ∣ t ∧ t / pageSize < pmmMaxFrames ∧ frameUsed p (t / pageSize) = false

instance (p : Pmm) (t : Nat) : Decidable (FreeFrame p t) := inferInstanceAs (Decidable (_ ∧ _))

theorem freeFrame_mul_iff (p : Pmm) (f : Nat) :
    FreeFrame p (f * pageSize) ↔ f < pmmMaxFrames ∧ frameUsed p f = false := by
  rw [FreeFrame, frame_addr, and_iff_right (Nat.dvd_mul_left _ _)]

instance : FrameSupply Pmm where
  Free := FreeFrame
  Ok p := frameUsed p 0 = true
  tableFrame {p t} h hf := by
    obtain ⟨⟨k, rfl⟩, hlt, hclear⟩ := hf
    rw [Nat.mul_div_cancel_left _ (by decide)] at hlt hclear
    refine ⟨?_, Nat.dvd_mul_right _ _, ?_⟩
    · intro hz
      obtain rfl : k = 0 := by simpa [pageSize] using hz
      rw [h] at hclear
      cases hclear
    · simp only [pageSize, pmmMaxFrames] at hlt ⊢
      omega
  alloc_some {p page p'} h ha := by
    obtain ⟨f, hlt, hclear, rfl, hbits⟩ := pmmAlloc_eq_some ha
    refine ⟨by rw [hbits, h, Bool.or_true], (freeFrame_mul_iff p f).mpr ⟨hlt, hclear⟩, fun g => ?_⟩
    unfold FreeFrame
    rw [hbits]
    constructor
    · intro ⟨hdvd, hg, hbit⟩
      rw [Bool.or_eq_false_iff, decide_eq_false_iff_not] at hbit
      refine ⟨⟨hdvd, hg, hbit.2⟩, ?_⟩
      rintro rfl
      exact hbit.1 (frame_addr f)
    · intro ⟨⟨hdvd, hg, hbit⟩, hne⟩
      refine ⟨hdvd, hg, ?_⟩
      rw [hbit, Bool.or_false, decide_eq_false_iff_not]
      rintro rfl
      exact hne (Nat.div_mul_cancel hdvd).symm
  alloc_none {p} _ ha t hf := by
    obtain ⟨-, hlt, hclear⟩ := hf
    rw [(pmmAlloc_eq_none_iff p).mp ha _ hlt] at hclear
    cases hclear

theorem allocPage_tableFrame {σ : Type} [FrameSource σ] [FrameSupply σ] {s s' : Phys σ} {page : Nat}
    (hok : Ok s.frames) (ha : allocPage s = some (page, s')) : TableFrame page := by
  obtain ⟨frames, hs, -⟩ := allocPage_eq_some ha
  exact tableFrame hok (alloc_some hok hs).2.1

inductive PhysEvent where
  | alloc (page : Nat)
  | write (a n : Nat)
  deriving DecidableEq, Repr

variable {σ : Type} [FrameSource σ]

def allocEvents (s : Phys σ) : List PhysEvent :=
  match FrameSource.alloc s.frames with
  | none => []
  | some (page, _) => [.alloc page, .write page pageSize]

/-- `get_or_create` writes the entry of a new table. -/
def getOrCreateEvents (s : Phys σ) (table : Nat) (idx : Fin 512) : List PhysEvent :=
  if entry s.mem table idx &&& vmmPresent = 0 then
    match FrameSource.alloc s.frames with
    | none => []
    | some (page, _) => [.alloc page, .write page pageSize, .write (table + 8 * idx) 8]
  else []

def vmmMapEvents (s : Phys σ) (pml4 : Nat) (virt flags : BitVec 64) : List PhysEvent :=
  let es1 := getOrCreateEvents s pml4 (pml4Idx virt)
  let (pdpt, s) := getOrCreate s pml4 (pml4Idx virt) (midFlags flags)
  if pdpt = 0 then es1
  else
    let es2 := getOrCreateEvents s pdpt (pdptIdx virt)
    let (pd, s) := getOrCreate s pdpt (pdptIdx virt) (midFlags flags)
    if pd = 0 then es1 ++ es2
    else
      let es3 := getOrCreateEvents s pd (pdIdx virt)
      let (pt, _) := getOrCreate s pd (pdIdx virt) (midFlags flags)
      if pt = 0 then es1 ++ es2 ++ es3
      else es1 ++ es2 ++ es3 ++ [.write (pt + 8 * ptIdx virt) 8]

/-- The events of linking the table `page` at entry `i` of `t`. -/
def linkEvents (t : Nat) (i : Fin 512) (page : Nat) : List PhysEvent :=
  [.alloc page, .write page pageSize, .write (t + 8 * i) 8]

/-- What is required of an invariant: on the way to `v` no table is the null
pointer, and a fresh table can be linked where one is missing. -/
structure MapInv (pml4 : Nat) (v flags : BitVec 64) (I : Phys σ → List PhysEvent → Prop) :
    Prop where
  nonzero : ∀ {s es p t}, I s es → p <+: tablePath v →
    walk childTable (entry s.mem) pml4 p = some t → t ≠ 0
  link : ∀ {s es p t i page frames}, I s es → p ++ [i] <+: tablePath v →
    walk childTable (entry s.mem) pml4 p = some t → entry s.mem t i &&& vmmPresent = 0 →
    FrameSource.alloc s.frames = some (page, frames) →
    TableFrame page ∧
      I ⟨linkTable s.mem t i page (midFlags flags), frames⟩ (es ++ linkEvents t i page) ∧
      walk childTable (entry (linkTable s.mem t i page (midFlags flags))) pml4 (p ++ [i]) =
        some page

variable {pml4 : Nat} {v flags : BitVec 64} {I : Phys σ → List PhysEvent → Prop}
  {s : Phys σ} {es : List PhysEvent}

theorem vmmMap_levels {J : List (Fin 512) → Nat → Phys σ → List PhysEvent → Prop}
    {Q : Phys σ → List PhysEvent → Prop} (phys : BitVec 64) (hstart : J [] pml4 s [])
    (hstep : ∀ {p t i s es u s'}, p ++ [i] <+: tablePath v → J p t s es →
      getOrCreate s t i (midFlags flags) = (u, s') →
      (u = 0 → Q s' (es ++ getOrCreateEvents s t i)) ∧
        (u ≠ 0 → J (p ++ [i]) u s' (es ++ getOrCreateEvents s t i)))
    (hend : ∀ {pt s es}, J (tablePath v) pt s es →
      Q { s with mem := setEntry s.mem pt (ptIdx v) ((phys &&& vmmPhysMask) ||| flags) }
        (es ++ [.write (pt + 8 * ptIdx v) 8])) :
    Q (vmmMap s pml4 v phys flags) (vmmMapEvents s pml4 v flags) := by
  unfold vmmMap vmmMapEvents
  rcases e1 : getOrCreate s pml4 (pml4Idx v) (midFlags flags) with ⟨pdpt, s1⟩
  have h1 := hstep ⟨[pdptIdx v, pdIdx v], rfl⟩ hstart e1
  dsimp only
  split
  · next hz => exact h1.1 hz
  next hz1 =>
  rcases e2 : getOrCreate s1 pdpt (pdptIdx v) (midFlags flags) with ⟨pd, s2⟩
  have h2 := hstep ⟨[pdIdx v], rfl⟩ (h1.2 hz1) e2
  dsimp only
  split
  · next hz => exact h2.1 hz
  next hz2 =>
  rcases e3 : getOrCreate s2 pd (pdIdx v) (midFlags flags) with ⟨pt, s3⟩
  have h3 := hstep List.prefix_rfl (h2.2 hz2) e3
  dsimp only
  split
  · next hz => exact h3.1 hz
  · next hz3 => exact hend (h3.2 hz3)

theorem getOrCreate_rule (hI : MapInv pml4 v flags I) (h : I s es) {p : List (Fin 512)} {t : Nat}
    {i : Fin 512} (hp : p ++ [i] <+: tablePath v)
    (hw : walk childTable (entry s.mem) pml4 p = some t) :
    (getOrCreate s t i (midFlags flags) = (0, s) ∧ getOrCreateEvents s t i = [] ∧
        FrameSource.alloc s.frames = none ∧ walk childTable (entry s.mem) pml4 (p ++ [i]) = none) ∨
      ∃ u s', getOrCreate s t i (midFlags flags) = (u, s') ∧ u ≠ 0 ∧
        I s' (es ++ getOrCreateEvents s t i) ∧
        walk childTable (entry s'.mem) pml4 (p ++ [i]) = some u := by
  by_cases hpres : entry s.mem t i &&& vmmPresent = 0
  · cases ha : FrameSource.alloc s.frames with
    | none =>
      refine .inl ⟨getOrCreate_of_none hpres (by rw [allocPage, ha]), ?_, rfl, ?_⟩
      · rw [getOrCreateEvents, if_pos hpres, ha]
      · rw [walk_concat, hw]
        exact (childTable_eq_none_iff _).mpr hpres
    | some r =>
      obtain ⟨page, frames⟩ := r
      obtain ⟨hpage, hnext, hwalk⟩ := hI.link h hp hw hpres ha
      refine .inr ⟨page, _, getOrCreate_of_alloc hpres ha hpage.aligned hpage.small,
        hpage.nonzero, ?_, hwalk⟩
      rw [getOrCreateEvents, if_pos hpres, ha]
      exact hnext
  · have hwalk := walk_of_present hw hpres
    refine .inr ⟨_, s, getOrCreate_of_present hpres, hI.nonzero h hp hwalk, ?_, hwalk⟩
    rw [getOrCreateEvents, if_neg hpres, List.append_nil]
    exact h

theorem walk_eq_none_of_prefix {m : Mem} {root : Nat} {p q : List (Fin 512)} (hp : p <+: q)
    (h : walk childTable (entry m) root p = none) : walk childTable (entry m) root q = none := by
  obtain ⟨r, rfl⟩ := hp
  rw [walk_append, h]
  rfl

theorem vmmMap_rule (hI : MapInv pml4 v flags I) (h : I s []) (phys : BitVec 64) :
    ∃ s1 es, I s1 es ∧ (vmmMap s pml4 v phys flags = s1 ∧ vmmMapEvents s pml4 v flags = es ∧
          FrameSource.alloc s1.frames = none ∧ pageTable s1.mem pml4 v = none ∨
        ∃ pt, pageTable s1.mem pml4 v = some pt ∧ vmmMap s pml4 v phys flags =
            { s1 with mem := setEntry s1.mem pt (ptIdx v) ((phys &&& vmmPhysMask) ||| flags) } ∧
          vmmMapEvents s pml4 v flags = es ++ [.write (pt + 8 * ptIdx v) 8]) := by
  refine vmmMap_levels (J := fun p t s' es => I s' es ∧
      walk childTable (entry s'.mem) pml4 p = some t)
    (Q := fun s' es' => ∃ s1 es, I s1 es ∧
      (s' = s1 ∧ es' = es ∧ FrameSource.alloc s1.frames = none ∧ pageTable s1.mem pml4 v = none ∨
        ∃ pt, pageTable s1.mem pml4 v = some pt ∧
          s' = { s1 with mem := setEntry s1.mem pt (ptIdx v) ((phys &&& vmmPhysMask) ||| flags) } ∧
          es' = es ++ [.write (pt + 8 * ptIdx v) 8])) phys ⟨h, rfl⟩ ?_ ?_
  · rintro p t i s1 es u s' hp ⟨h1, hw⟩ hr
    obtain ⟨heq, hev, ha, hnone⟩ | ⟨u', s2, heq, hz, h2, hw2⟩ := getOrCreate_rule hI h1 hp hw
    · obtain ⟨rfl, rfl⟩ := Prod.mk.inj (hr.symm.trans heq)
      rw [hev, List.append_nil]
      exact ⟨fun _ => ⟨s', es, h1, .inl ⟨rfl, rfl, ha, walk_eq_none_of_prefix hp hnone⟩⟩,
        fun hc => absurd rfl hc⟩
    · obtain ⟨rfl, rfl⟩ := Prod.mk.inj (hr.symm.trans heq)
      exact ⟨fun hc => absurd hc hz, fun _ => ⟨h2, hw2⟩⟩
  · rintro pt s1 es ⟨h1, hw⟩
    exact ⟨s1, es, h1, .inr ⟨pt, hw, rfl, rfl⟩⟩

end DevOs
