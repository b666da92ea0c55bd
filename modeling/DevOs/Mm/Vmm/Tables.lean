import DevOs.Lib.Radix
import DevOs.Mm.Vmm

/-!
Page tables as a radix tree of `DevOs.Lib.Radix`: a table is the address of
its frame, its entries are read from physical memory, and a present entry
names the child at its masked address.
-/

namespace DevOs

open ByteMem Radix

section

variable {m m' : Mem} {t u : Nat} {i k : Fin 512} {e : BitVec 64}

theorem pages_apart (ht : pageSize ∣ t) (hu : pageSize ∣ u) (hne : t ≠ u) :
    u + pageSize ≤ t ∨ t + pageSize ≤ u := by
  obtain ⟨a, rfl⟩ := ht
  obtain ⟨b, rfl⟩ := hu
  have hab : a ≠ b := fun hc => hne (by rw [hc])
  rw [pageSize_eq]
  omega

theorem page_disjoint {x : Nat} (ht : pageSize ∣ t) (hu : pageSize ∣ u) (hne : t ≠ u)
    (hlo : u ≤ x) (hhi : x < u + pageSize) : x < t ∨ t + pageSize ≤ x := by
  have hdis := pages_apart ht hu hne
  omega

theorem entry_end_le (i : Fin 512) : 8 * i.val + 8 ≤ pageSize := by
  have hi := i.isLt
  rw [pageSize_eq]
  omega

theorem toNat_ofNat_frame {page : Nat} (h : page < 2 ^ 52) :
    (BitVec.ofNat 64 page).toNat = page := by
  rw [BitVec.toNat_ofNat, Nat.mod_eq_of_lt (by omega)]

@[simp] theorem entry_setEntry_self (m : Mem) (t : Nat) (i : Fin 512) (e : BitVec 64) :
    entry (setEntry m t i e) t i = e := by
  rw [entry, setEntry, load_store_of_lt e.isLt, BitVec.ofNat_toNat, BitVec.setWidth_eq]

theorem entry_setEntry_of_ne (ht : pageSize ∣ t) (hu : pageSize ∣ u) (h : u ≠ t ∨ k ≠ i) :
    entry (setEntry m t i e) u k = entry m u k := by
  have hi := entry_end_le i
  have hk := entry_end_le k
  rw [entry, entry, setEntry, load_store_of_disjoint]
  by_cases hut : u = t
  · have hne := Fin.val_ne_of_ne (h.resolve_left (not_not.mpr hut))
    omega
  · have hpage := pages_apart ht hu (Ne.symm hut)
    omega

theorem entry_fill_zero (t : Nat) (i : Fin 512) : entry (fill m t pageSize 0) t i = 0 := by
  have hi := entry_end_le i
  rw [entry, load_fill_zero (by omega)]
  rfl

theorem entry_of_page (hm : ∀ x, t ≤ x → x < t + pageSize → m' x = m x) :
    entry m' t i = entry m t i := by
  have hi := entry_end_le i
  exact congrArg (BitVec.ofNat 64) (load_congr fun x hlo hhi => hm x (by omega) (by omega))

theorem entry_of_pages {T : Nat → Prop} (ht : pageSize ∣ t) (hT : ∀ u, T u → pageSize ∣ u ∧ u ≠ t)
    (hm : ∀ x, (∀ u, T u → x < u ∨ u + pageSize ≤ x) → m' x = m x) : entry m' t i = entry m t i :=
  entry_of_page fun x hlo hhi => hm x fun u hu => page_disjoint (hT u hu).1 ht (hT u hu).2 hlo hhi

theorem entry_of_outside (ht : pageSize ∣ t) (hu : pageSize ∣ u) (h : u ≠ t)
    (hm : ∀ x, x < t ∨ t + pageSize ≤ x → m' x = m x) : entry m' u k = entry m u k :=
  entry_of_page fun x hlo hhi => hm x (page_disjoint ht hu h.symm hlo hhi)

theorem entry_fill_of_ne (ht : pageSize ∣ t) (hu : pageSize ∣ u) (h : u ≠ t) {c : UInt8} :
    entry (fill m t pageSize c) u k = entry m u k :=
  entry_of_outside ht hu h fun _ hx => fill_apply_of_disjoint hx

end

theorem and_present_eq_zero_iff (e : BitVec 64) : e &&& vmmPresent = 0 ↔ e.getLsbD 0 = false := by
  have h := Bitmap.and_shiftLeft_ne_zero_iff (x := e) (i := 0) (by decide)
  rw [← Bool.not_eq_true, ← h, not_not]
  rfl

theorem and_huge_eq_zero_iff (e : BitVec 64) : e &&& vmmHuge = 0 ↔ e.getLsbD 7 = false := by
  have h := Bitmap.and_shiftLeft_ne_zero_iff (x := e) (i := 7) (by decide)
  rw [← Bool.not_eq_true, ← h, not_not]
  rfl

theorem getLsbD_vmmPhysMask (i : Nat) : vmmPhysMask.getLsbD i = decide (12 ≤ i ∧ i < 52) := by
  have hsmall : ∀ i : Fin 64, vmmPhysMask.getLsbD i = decide (12 ≤ i.val ∧ i.val < 52) := by
    decide
  by_cases hi : i < 64
  · exact hsmall ⟨i, hi⟩
  · rw [BitVec.getLsbD_of_ge _ _ (by omega), eq_comm, decide_eq_false_iff_not]
    omega

theorem getLsbD_frame {page : Nat} (hal : pageSize ∣ page) (hlt : page < 2 ^ 52) {i : Nat}
    (hbit : (BitVec.ofNat 64 page).getLsbD i = true) : 12 ≤ i ∧ i < 52 := by
  obtain ⟨k, rfl⟩ := hal
  rw [BitVec.getLsbD_ofNat, Bool.and_eq_true, show pageSize = 2 ^ 12 from rfl,
    Nat.testBit_two_pow_mul, Bool.and_eq_true, decide_eq_true_eq, decide_eq_true_eq] at hbit
  obtain ⟨-, hlo, hk⟩ := hbit
  refine ⟨hlo, ?_⟩
  by_contra hhi
  rw [pageSize_eq] at hlt
  rw [Nat.testBit_lt_two_pow (Nat.lt_of_lt_of_le (by omega : k < 2 ^ 40)
    (Nat.pow_le_pow_right (by decide) (by omega)))] at hk
  cases hk

theorem frame_and_mask {page : Nat} (hal : pageSize ∣ page) (hlt : page < 2 ^ 52) :
    BitVec.ofNat 64 page &&& vmmPhysMask = BitVec.ofNat 64 page := by
  apply BitVec.eq_of_getLsbD_eq
  intro i _
  rw [BitVec.getLsbD_and, getLsbD_vmmPhysMask]
  cases hbit : (BitVec.ofNat 64 page).getLsbD i with
  | false => rfl
  | true => simpa using getLsbD_frame hal hlt hbit

theorem physToPt_frame_or {page : Nat} {flags : BitVec 64} (hal : pageSize ∣ page)
    (hlt : page < 2 ^ 52) (hf : flags &&& vmmPhysMask = 0) :
    physToPt (BitVec.ofNat 64 page ||| flags) = page := by
  rw [physToPt, BitVec.and_or_distrib_right, frame_and_mask hal hlt, hf]
  show (BitVec.ofNat 64 page ||| 0#64).toNat = page
  rw [BitVec.or_zero, toNat_ofNat_frame hlt]

theorem midFlags_and_mask (flags : BitVec 64) : midFlags flags &&& vmmPhysMask = 0 := by
  rw [midFlags, BitVec.and_or_distrib_right, BitVec.and_assoc,
    show vmmUser &&& vmmPhysMask = 0#64 by decide, BitVec.and_zero]
  decide

theorem userFlags_and_mask : (vmmUserRw ||| vmmNoExec) &&& vmmPhysMask = 0 := by decide

theorem userFlags_present : (vmmUserRw ||| vmmNoExec) &&& vmmPresent ≠ 0 := by decide

theorem getLsbD_midFlags (flags : BitVec 64) :
    (midFlags flags).getLsbD 0 = true ∧ (midFlags flags).getLsbD 7 = false := by
  constructor <;> rw [midFlags, BitVec.getLsbD_or, BitVec.getLsbD_and]
  · rw [show (vmmPresent ||| vmmWritable).getLsbD 0 = true by decide, Bool.true_or]
  · rw [show (vmmPresent ||| vmmWritable).getLsbD 7 = false by decide,
      show vmmUser.getLsbD 7 = false by decide, Bool.and_false, Bool.or_false]

theorem getLsbD_link {page : Nat} (hal : pageSize ∣ page) (hlt : page < 2 ^ 52)
    (flags : BitVec 64) : (BitVec.ofNat 64 page ||| midFlags flags).getLsbD 0 = true ∧
      (BitVec.ofNat 64 page ||| midFlags flags).getLsbD 7 = false := by
  obtain ⟨hp, hh⟩ := getLsbD_midFlags flags
  constructor <;> rw [BitVec.getLsbD_or]
  · rw [hp, Bool.or_true]
  · rw [hh, Bool.or_false]
    cases hbit : (BitVec.ofNat 64 page).getLsbD 7 with
    | false => rfl
    | true =>
      have := getLsbD_frame hal hlt hbit
      omega

/-! ## Entries and paths -/

def childTable (e : BitVec 64) : Option Nat :=
  if e &&& vmmPresent = 0 then none else some (physToPt e)

def leafFrame (e : BitVec 64) : Option (BitVec 64) :=
  if e &&& vmmPresent = 0 then none else some (e &&& vmmPhysMask)

def tablePath (v : BitVec 64) : List (Fin 512) := [pml4Idx v, pdptIdx v, pdIdx v]

def pageTable (m : Mem) (pml4 : Nat) (v : BitVec 64) : Option Nat :=
  walk childTable (entry m) pml4 (tablePath v)

def pageFrame (m : Mem) (pml4 : Nat) (v : BitVec 64) : Option (BitVec 64) :=
  lookup childTable leafFrame (entry m) pml4 (tablePath v) (ptIdx v)

abbrev PageTree (m : Mem) (pml4 : Nat) (used : Nat → Prop) : Prop :=
  Radix.Tree childTable (fun e => e &&& vmmHuge = 0) 3 (entry m) pml4 used

def TableOf (m : Mem) (pml4 t : Nat) : Prop :=
  ∃ p : List (Fin 512), p.length ≤ 3 ∧ walk childTable (entry m) pml4 p = some t

def OwnSlot (m : Mem) (kernelPml4 : Nat) (i : Fin 512) : Prop :=
  i.val < 256 ∨ childTable (entry m kernelPml4 i) = none

theorem length_tablePath (v : BitVec 64) : (tablePath v).length = 3 := rfl

variable {v : BitVec 64} {p : List (Fin 512)} {pml4 : Nat}

theorem length_lt_of_concat {i : Fin 512}
    (h : p ++ [i] <+: tablePath v) : p.length < 3 := by
  have hlen := h.length_le
  rwa [List.length_append, List.length_singleton, length_tablePath] at hlen

theorem head_tablePath (hp : p <+: tablePath v) {i : Fin 512}
    (hi : i ∈ p.head?) : i = pml4Idx v := by
  obtain ⟨q, hq⟩ := hp
  have hfirst : (tablePath v).head? = some i := by
    rw [← hq, List.head?_append, hi]
    rfl
  cases hfirst
  rfl

theorem childTable_zero : childTable 0 = none := by decide

theorem leafFrame_zero : leafFrame 0 = none := by decide

theorem leafFrame_map {phys flags : BitVec 64} (hp : flags &&& vmmPresent ≠ 0)
    (hm : flags &&& vmmPhysMask = 0) :
    leafFrame ((phys &&& vmmPhysMask) ||| flags) = some (phys &&& vmmPhysMask) := by
  have hpres : ¬ ((phys &&& vmmPhysMask) ||| flags) &&& vmmPresent = 0 := by
    rw [and_present_eq_zero_iff, BitVec.getLsbD_or, Bool.or_eq_false_iff]
    rw [Ne, and_present_eq_zero_iff] at hp
    exact fun hc => hp hc.2
  rw [leafFrame, if_neg hpres, BitVec.and_or_distrib_right, hm, BitVec.and_assoc, BitVec.and_self]
  exact congrArg some BitVec.or_zero

theorem childTable_eq_none_iff (e : BitVec 64) : childTable e = none ↔ e &&& vmmPresent = 0 := by
  unfold childTable
  split
  · next h => exact iff_of_true rfl h
  · next h => exact iff_of_false (fun hc => by cases hc) h

theorem childTable_of_present {e : BitVec 64} (h : ¬ e &&& vmmPresent = 0) :
    childTable e = some (physToPt e) := if_neg h

theorem childTable_link {page : Nat} (hal : pageSize ∣ page) (hlt : page < 2 ^ 52)
    (flags : BitVec 64) : childTable (BitVec.ofNat 64 page ||| midFlags flags) = some page := by
  have hp : ¬ (BitVec.ofNat 64 page ||| midFlags flags) &&& vmmPresent = 0 := by
    rw [and_present_eq_zero_iff, (getLsbD_link hal hlt flags).1]
    decide
  rw [childTable_of_present hp, physToPt_frame_or hal hlt (midFlags_and_mask flags)]

theorem walk_of_present {m : Mem} {pml4 t : Nat} {i : Fin 512}
    (hw : walk childTable (entry m) pml4 p = some t) (h : ¬ entry m t i &&& vmmPresent = 0) :
    walk childTable (entry m) pml4 (p ++ [i]) = some (physToPt (entry m t i)) := by
  rw [walk_concat, hw]
  exact childTable_of_present h

theorem vmmUnmap_eq {σ : Type} [FrameSource σ] (s : Phys σ) (pml4 : Nat) (v : BitVec 64) :
    vmmUnmap s pml4 v = match pageTable s.mem pml4 v with
      | none => s
      | some pt => { s with mem := setEntry s.mem pt (ptIdx v) 0 } := by
  unfold vmmUnmap pageTable tablePath
  simp only [walk, childTable]
  split
  · rfl
  · simp only [Option.bind_some]
    split
    · rfl
    · simp only [Option.bind_some]
      split <;> rfl

def NoHuge (m : Mem) (pml4 : Nat) (v : BitVec 64) : Prop :=
  ∀ p t i, p ≠ [] → p ++ [i] <+: tablePath v → walk childTable (entry m) pml4 p = some t →
    childTable (entry m t i) ≠ none → entry m t i &&& vmmHuge = 0

theorem NoHuge.translate {m : Mem} (h : NoHuge m pml4 v) :
    vmmTranslate m pml4 v = match pageFrame m pml4 v with
      | none => 0
      | some frame => frame ||| (v &&& 0xFFF#64) := by
  unfold vmmTranslate pageFrame lookup tablePath
  simp only [walk]
  by_cases h4 : entry m pml4 (pml4Idx v) &&& vmmPresent = 0
  · rw [if_pos h4, (childTable_eq_none_iff _).mpr h4]
    rfl
  · rw [if_neg h4, childTable_of_present h4]
    dsimp only [Option.bind_some]
    by_cases h3 : entry m (physToPt (entry m pml4 (pml4Idx v))) (pdptIdx v) &&& vmmPresent = 0
    · rw [if_pos h3, (childTable_eq_none_iff _).mpr h3]
      rfl
    · have hw3 := walk_of_present (p := []) rfl h4
      have hhuge3 := h _ _ (pdptIdx v) (by simp) ⟨[pdIdx v], rfl⟩ hw3
        (by rw [Ne, childTable_eq_none_iff]; exact h3)
      rw [if_neg h3, if_neg (not_not.mpr hhuge3), childTable_of_present h3]
      dsimp only [Option.bind_some]
      generalize hpd : physToPt (entry m (physToPt (entry m pml4 (pml4Idx v))) (pdptIdx v)) = pd
      by_cases h2 : entry m pd (pdIdx v) &&& vmmPresent = 0
      · rw [if_pos h2, (childTable_eq_none_iff _).mpr h2]
        rfl
      · have hhuge2 := h _ pd (pdIdx v) (by simp) ⟨[], rfl⟩ (hpd ▸ walk_of_present hw3 h3)
          (by rw [Ne, childTable_eq_none_iff]; exact h2)
        rw [if_neg h2, if_neg (not_not.mpr hhuge2), childTable_of_present h2]
        dsimp only [Option.bind_some, leafFrame]
        split <;> rfl

theorem vmmTranslate_eq {m : Mem} {used : Nat → Prop} (h : PageTree m pml4 used)
    (v : BitVec 64) :
    vmmTranslate m pml4 v = match pageFrame m pml4 v with
      | none => 0
      | some frame => frame ||| (v &&& 0xFFF#64) := by
  exact NoHuge.translate fun p t i _ hp => h.mid p t i (length_lt_of_concat hp)

theorem pageTable_congr {m m' : Mem}
    (h : ∀ p t i, p ++ [i] <+: tablePath v → walk childTable (entry m) pml4 p = some t →
      entry m' t i = entry m t i) : pageTable m' pml4 v = pageTable m pml4 v :=
  walk_congr fun p i t hp hw => by rw [h p t i hp hw]

theorem vmmTranslate_congr {m m' : Mem}
    (h : ∀ p t i, p ++ [i] <+: tablePath v ++ [ptIdx v] →
      walk childTable (entry m) pml4 p = some t → entry m' t i = entry m t i) :
    vmmTranslate m' pml4 v = vmmTranslate m pml4 v := by
  have h₃ := h [] pml4 (pml4Idx v) ⟨[pdptIdx v, pdIdx v, ptIdx v], rfl⟩ rfl
  unfold vmmTranslate
  rw [h₃]
  by_cases p3 : entry m pml4 (pml4Idx v) &&& vmmPresent = 0
  · rw [if_pos p3, if_pos p3]
  have w3 := walk_of_present (p := []) rfl p3
  rw [if_neg p3, if_neg p3]
  dsimp only
  generalize physToPt (entry m pml4 (pml4Idx v)) = pdpt at w3
  have h₂ := h _ pdpt (pdptIdx v) ⟨[pdIdx v, ptIdx v], rfl⟩ w3
  rw [h₂]
  by_cases p2 : entry m pdpt (pdptIdx v) &&& vmmPresent = 0
  · rw [if_pos p2, if_pos p2]
  have w2 := walk_of_present w3 p2
  rw [if_neg p2, if_neg p2]
  generalize physToPt (entry m pdpt (pdptIdx v)) = pd at w2
  have h1 := h _ pd (pdIdx v) ⟨[ptIdx v], rfl⟩ w2
  rw [h1]
  by_cases p1 : entry m pd (pdIdx v) &&& vmmPresent = 0
  · rw [if_pos p1, if_pos p1]
  have w1 := walk_of_present w2 p1
  rw [if_neg p1, if_neg p1]
  generalize physToPt (entry m pd (pdIdx v)) = pt at w1
  rw [h _ pt (ptIdx v) ⟨[], rfl⟩ w1]

variable {σ : Type} [FrameSource σ] {s : Phys σ} {t : Nat} {i : Fin 512} {flags : BitVec 64}

theorem allocPage_eq_none (h : allocPage s = none) : FrameSource.alloc s.frames = none := by
  unfold allocPage at h
  split at h
  · assumption
  · cases h

theorem allocPage_of_none (h : FrameSource.alloc s.frames = none) : allocPage s = none := by
  rw [allocPage, h]

theorem allocPage_eq_some {page : Nat} {s' : Phys σ} (h : allocPage s = some (page, s')) :
    ∃ frames, FrameSource.alloc s.frames = some (page, frames) ∧
      s' = ⟨fill s.mem page pageSize 0, frames⟩ := by
  unfold allocPage at h
  split at h
  · cases h
  · next page' frames ha =>
      cases h
      exact ⟨frames, ha, rfl⟩

theorem vmmCreateAddressSpace_cases {k pml4 : Nat} {s' : Phys σ}
    (h : vmmCreateAddressSpace s k = (pml4, s')) :
    pml4 = 0 ∧ s' = s ∨ ∃ s1, allocPage s = some (pml4, s1) ∧
      s' = { s1 with mem := copyUpperHalf s1.mem k pml4 } := by
  unfold vmmCreateAddressSpace at h
  cases ha : allocPage s with
  | none =>
    rw [ha] at h
    obtain ⟨rfl, rfl⟩ := Prod.mk.inj h
    exact .inl ⟨rfl, rfl⟩
  | some r =>
    obtain ⟨page, s1⟩ := r
    rw [ha] at h
    obtain ⟨rfl, rfl⟩ := Prod.mk.inj h
    exact .inr ⟨s1, rfl, rfl⟩

theorem vmmCreateAddressSpace_of_ne {k pml4 : Nat} {s' : Phys σ}
    (h : vmmCreateAddressSpace s k = (pml4, s')) (hne : pml4 ≠ 0) :
    ∃ frames, FrameSource.alloc s.frames = some (pml4, frames) ∧
      s' = ⟨copyUpperHalf (fill s.mem pml4 pageSize 0) k pml4, frames⟩ := by
  obtain ⟨hzero, -⟩ | ⟨s1, ha, rfl⟩ := vmmCreateAddressSpace_cases h
  · exact absurd hzero hne
  · obtain ⟨frames, hs, rfl⟩ := allocPage_eq_some ha
    exact ⟨frames, hs, rfl⟩

theorem getOrCreate_of_present (h : ¬ entry s.mem t i &&& vmmPresent = 0) :
    getOrCreate s t i flags = (physToPt (entry s.mem t i), s) := if_neg h

theorem getOrCreate_of_none (h : entry s.mem t i &&& vmmPresent = 0) (ha : allocPage s = none) :
    getOrCreate s t i flags = (0, s) := by
  rw [getOrCreate, if_pos h, ha]

/-! ## New tables -/

def linkTable (m : Mem) (t : Nat) (i : Fin 512) (page : Nat) (flags : BitVec 64) : Mem :=
  setEntry (fill m page pageSize 0) t i (BitVec.ofNat 64 page ||| flags)

theorem getOrCreate_of_alloc {page : Nat} {frames : σ} (h : entry s.mem t i &&& vmmPresent = 0)
    (ha : FrameSource.alloc s.frames = some (page, frames)) (hal : pageSize ∣ page)
    (hlt : page < 2 ^ 52) : getOrCreate s t i (midFlags flags) =
      (page, ⟨linkTable s.mem t i page (midFlags flags), frames⟩) := by
  rw [getOrCreate, if_pos h, allocPage, ha]
  dsimp only
  rw [entry_setEntry_self, physToPt_frame_or hal hlt (midFlags_and_mask flags)]
  rfl

variable {m : Mem} {u page : Nat} {k : Fin 512}

theorem entry_linkTable_self : entry (linkTable m t i page flags) t i =
    BitVec.ofNat 64 page ||| flags := entry_setEntry_self _ _ _ _

theorem entry_linkTable_new (ht : pageSize ∣ t) (hal : pageSize ∣ page) (hne : page ≠ t) :
    entry (linkTable m t i page flags) page k = 0 := by
  rw [linkTable, entry_setEntry_of_ne ht hal (.inl hne), entry_fill_zero]

theorem entry_linkTable_of_ne (ht : pageSize ∣ t) (hal : pageSize ∣ page) (hu : pageSize ∣ u)
    (hup : u ≠ page) (h : u ≠ t ∨ k ≠ i) :
    entry (linkTable m t i page flags) u k = entry m u k := by
  rw [linkTable, entry_setEntry_of_ne ht hu h, entry_fill_of_ne hal hu hup]

end DevOs
