import DevOs.Mm.Pmm.Exclusive
import DevOs.Mm.Vmm.Tables

/-!
Who owns which frame, when many address spaces share the kernel's half.
-/

namespace DevOs

open ByteMem Function

abbrev Levels := Nat → Option Nat

def UsedFrame (p : Pmm) (t : Nat) : Prop := pageSize ∣ t ∧ frameUsed p (t / pageSize) = true

instance (p : Pmm) (t : Nat) : Decidable (UsedFrame p t) := inferInstanceAs (Decidable (_ ∧ _))

def InRange (t : Nat) : Prop := t ≠ 0 ∧ t / pageSize < pmmMaxFrames

theorem InRange.lt {t : Nat} (h : InRange t) : t < 2 ^ 52 := by
  have hlt := (Nat.div_lt_iff_lt_mul (by decide)).mp h.2
  have hmax : pmmMaxFrames * pageSize < 2 ^ 52 := by decide
  omega

def KernelSame (kernel : Nat → Prop) (m m' : Mem) : Prop :=
  ∀ t i, kernel t → entry m' t i = entry m t i

def Extends (lvl lvl' : Levels) : Prop := ∀ t l, lvl t = some l → lvl' t = some l

section

variable (kernel : Nat → Prop) (own : Fin 512 → Prop)

def Away (q : Nat) : Prop := ¬ kernel q ∧ ¬ kernel (q + pageSize)

/-- The frames of user address spaces: `lvl` are their tables, `kernel` those
of the kernel. User pages keep away from the latter. -/
structure Owned (lvl : Levels) (s : Phys Pmm) : Prop where
  zero : frameUsed s.frames 0 = true
  kernelUsed : ∀ t, kernel t → UsedFrame s.frames t
  guarded : ∀ t, kernel (t + pageSize) → UsedFrame s.frames t
  table : ∀ t l, lvl t = some l → UsedFrame s.frames t ∧ ¬ kernel t
  child : ∀ t l i c, lvl t = some (l + 1) → (l = 2 → own i) →
    childTable (entry s.mem t i) = some c → lvl c = some l
  noHuge : ∀ t l i c, lvl t = some (l + 1) → l ≠ 2 →
    childTable (entry s.mem t i) = some c → entry s.mem t i &&& vmmHuge = 0
  leaf : ∀ t i f, lvl t = some 0 → leafFrame (entry s.mem t i) = some f →
    UsedFrame s.frames f.toNat ∧ InRange f.toNat ∧ Away kernel f.toNat ∧ lvl f.toNat = none
  leafInj : ∀ t i t' i' f, lvl t = some 0 → lvl t' = some 0 →
    leafFrame (entry s.mem t i) = some f → leafFrame (entry s.mem t' i') = some f →
    t = t' ∧ i = i'

structure Loose (lvl : Levels) (s : Phys Pmm) (q : Nat) : Prop where
  used : UsedFrame s.frames q
  inRange : InRange q
  away : Away kernel q
  notTable : lvl q = none
  notLeaf : ∀ t i f, lvl t = some 0 → leafFrame (entry s.mem t i) = some f → f.toNat ≠ q

/-- A step of the page-table code: the frames stay owned, tables stay tables,
and the kernel's are unchanged. -/
def Keeps (lvl : Levels) (s s' : Phys Pmm) : Prop :=
  ∃ lvl', Owned kernel own lvl' s' ∧ Extends lvl lvl' ∧ KernelSame kernel s.mem s'.mem

end

variable {kernel : Nat → Prop} {own : Fin 512 → Prop} {lvl lvl' : Levels} {s s' s'' : Phys Pmm}
  {t page q : Nat} {i : Fin 512} {flags : BitVec 64} {l : Nat}

theorem ne_of_level {u : Nat} {a b : Option Nat} (ht : lvl t = a) (hu : lvl u = b) (h : a ≠ b) :
    t ≠ u := by
  rintro rfl
  exact h (ht.symm.trans hu)

theorem ne_of_notTable {u : Nat} (hu : lvl u = some l) (hpage : lvl page = none) : u ≠ page :=
  ne_of_level hu hpage (Option.some_ne_none l)

theorem level_update {m : Nat} (h : update lvl page (some l) t = some m) :
    t = page ∧ m = l ∨ t ≠ page ∧ lvl t = some m := by
  by_cases htp : t = page
  · rw [htp, update_self] at h
    exact .inl ⟨htp, (Option.some.inj h).symm⟩
  · rw [update_of_ne htp] at h
    exact .inr ⟨htp, h⟩

theorem Extends.refl (lvl : Levels) : Extends lvl lvl := fun _ _ h => h

theorem Extends.trans {lvl'' : Levels} (h : Extends lvl lvl') (h' : Extends lvl' lvl'') :
    Extends lvl lvl'' := fun t l ht => h' t l (h t l ht)

theorem extends_update (hpage : lvl page = none) (l : Nat) :
    Extends lvl (update lvl page (some l)) := by
  intro t m ht
  rw [update_of_ne (ne_of_notTable ht hpage)]
  exact ht

theorem KernelSame.refl (m : Mem) : KernelSame kernel m m := fun _ _ _ => rfl

theorem KernelSame.trans {m m' m'' : Mem} (h : KernelSame kernel m m')
    (h' : KernelSame kernel m' m'') : KernelSame kernel m m'' :=
  fun t i ht => (h' t i ht).trans (h t i ht)

theorem Keeps.refl (h : Owned kernel own lvl s) : Keeps kernel own lvl s s :=
  ⟨lvl, h, Extends.refl lvl, KernelSame.refl s.mem⟩

theorem Keeps.trans (h : Keeps kernel own lvl s s')
    (h' : ∀ lvl', Extends lvl lvl' → Owned kernel own lvl' s' → Keeps kernel own lvl' s' s'') :
    Keeps kernel own lvl s s'' := by
  obtain ⟨lvl', hown, hext, hsame⟩ := h
  obtain ⟨lvl'', hown', hext', hsame'⟩ := h' lvl' hext hown
  exact ⟨lvl'', hown', hext.trans hext', hsame.trans hsame'⟩

namespace Owned

section

variable (h : Owned kernel own lvl s)
include h

theorem frame (hm : ∀ t l i, lvl t = some l → entry s'.mem t i = entry s.mem t i)
    (hf : s'.frames = s.frames) : Owned kernel own lvl s' where
  zero := by rw [hf]; exact h.zero
  kernelUsed t ht := by rw [hf]; exact h.kernelUsed t ht
  guarded t ht := by rw [hf]; exact h.guarded t ht
  table t l ht := by rw [hf]; exact h.table t l ht
  child t l i c ht hown hc := h.child t l i c ht hown (by rw [← hm t _ i ht]; exact hc)
  noHuge t l i c ht hl hc := by
    rw [hm t _ i ht] at hc ⊢
    exact h.noHuge t l i c ht hl hc
  leaf t i f ht hl := by
    rw [hf]
    exact h.leaf t i f ht (by rw [← hm t _ i ht]; exact hl)
  leafInj t i t' i' f ht ht' hl hl' := by
    rw [hm t _ i ht] at hl
    rw [hm t' _ i' ht'] at hl'
    exact h.leafInj t i t' i' f ht ht' hl hl'

theorem write (hpage : pageSize ∣ page) (hk : ¬ kernel page)
    (hl : lvl page = none) {m' : Mem} (hm : ∀ x, x < page ∨ page + pageSize ≤ x → m' x = s.mem x) :
    Owned kernel own lvl { s with mem := m' } ∧ KernelSame kernel s.mem m' ∧
      ∀ q, Loose kernel lvl s q → Loose kernel lvl { s with mem := m' } q := by
  have hentry : ∀ t i, pageSize ∣ t → t ≠ page → entry m' t i = entry s.mem t i :=
    fun t i ht hne => entry_of_outside hpage ht hne hm
  have htable : ∀ t l i, lvl t = some l → entry m' t i = entry s.mem t i := by
    intro t l i ht
    exact hentry t i (h.table t l ht).1.1 (ne_of_notTable ht hl)
  refine ⟨h.frame htable rfl, fun t i ht => hentry t i (h.kernelUsed t ht).1 ?_, fun q hq => ?_⟩
  · rintro rfl
    exact hk ht
  · refine ⟨hq.used, hq.inRange, hq.away, hq.notTable, fun t i f ht hf => ?_⟩
    rw [htable t 0 i ht] at hf
    exact hq.notLeaf t i f ht hf

theorem alloc (ha : allocPage s = some (page, s')) :
    Owned kernel own lvl s' ∧ Loose kernel lvl s' page ∧ (∀ i, entry s'.mem page i = 0) ∧
      KernelSame kernel s.mem s'.mem ∧
      ∀ q, Loose kernel lvl s q → Loose kernel lvl s' q ∧ q ≠ page := by
  obtain ⟨frames, hs, rfl⟩ := allocPage_eq_some ha
  obtain ⟨f, hlt, hclear, rfl, hbits⟩ := pmmAlloc_eq_some hs
  have hdvd : pageSize ∣ f * pageSize := Nat.dvd_mul_left _ _
  have hmono : ∀ {t}, UsedFrame s.frames t → UsedFrame frames t ∧ t ≠ f * pageSize := by
    intro t ht
    refine ⟨⟨ht.1, ?_⟩, ?_⟩
    · rw [hbits, ht.2, Bool.or_true]
    · rintro rfl
      have := ht.2
      rw [frame_addr, hclear] at this
      cases this
  have hentry : ∀ {t i}, UsedFrame s.frames t →
      entry (fill s.mem (f * pageSize) pageSize 0) t i = entry s.mem t i :=
    fun ht => entry_fill_of_ne hdvd ht.1 (hmono ht).2
  have hf0 : f ≠ 0 := by
    rintro rfl
    rw [h.zero] at hclear
    cases hclear
  have howned : Owned kernel own lvl ⟨fill s.mem (f * pageSize) pageSize 0, frames⟩ := by
    have hmem : Owned kernel own lvl ⟨fill s.mem (f * pageSize) pageSize 0, s.frames⟩ :=
      h.frame (fun t l i ht => hentry (h.table t l ht).1) rfl
    exact {
      zero := by rw [hbits, h.zero, Bool.or_true]
      kernelUsed := fun t ht => (hmono (h.kernelUsed t ht)).1
      guarded := fun t ht => (hmono (h.guarded t ht)).1
      table := fun t l ht => ⟨(hmono (h.table t l ht).1).1, (h.table t l ht).2⟩
      child := hmem.child
      noHuge := hmem.noHuge
      leaf := fun t i g ht hl =>
        ⟨(hmono (hmem.leaf t i g ht hl).1).1, (hmem.leaf t i g ht hl).2⟩
      leafInj := hmem.leafInj }
  refine ⟨howned, ?_, fun i => entry_fill_zero _ i, fun t i ht => hentry (h.kernelUsed t ht),
    fun q hq => ⟨?_, (hmono hq.used).2⟩⟩
  · refine ⟨⟨hdvd, ?_⟩, ⟨?_, ?_⟩, ?_, ?_, ?_⟩
    · rw [hbits, frame_addr]
      simp
    · exact Nat.mul_ne_zero hf0 (by decide)
    · rw [frame_addr]
      exact hlt
    · exact ⟨fun hk => (hmono (h.kernelUsed _ hk)).2 rfl, fun hk => (hmono (h.guarded _ hk)).2 rfl⟩
    · cases hl : lvl (f * pageSize) with
      | none => rfl
      | some l => exact absurd rfl (hmono (h.table _ l hl).1).2
    · intro t i g ht hl
      rw [hentry (h.table t 0 ht).1] at hl
      exact (hmono (h.leaf t i g ht hl).1).2
  · refine ⟨(hmono hq.used).1, hq.inRange, hq.away, hq.notTable, fun t i g ht hl => ?_⟩
    rw [hentry (h.table t 0 ht).1] at hl
    exact hq.notLeaf t i g ht hl

theorem kernelSame_setEntry (ht : pageSize ∣ t) (hk : ¬ kernel t)
    (e : BitVec 64) : KernelSame kernel s.mem (setEntry s.mem t i e) := by
  intro u k hu
  refine entry_setEntry_of_ne ht (h.kernelUsed u hu).1 (.inl ?_)
  rintro rfl
  exact hk hu

/-- A new table is linked into an empty entry. -/
theorem link (ht : lvl t = some (l + 1)) (hp : Loose kernel lvl s page)
    (hz : ∀ i, entry s.mem page i = 0) (flags : BitVec 64) :
    Owned kernel own (update lvl page (some l))
        { s with mem := setEntry s.mem t i (BitVec.ofNat 64 page ||| midFlags flags) } ∧
      ∀ q, Loose kernel lvl s q → q ≠ page → Loose kernel (update lvl page (some l))
        { s with mem := setEntry s.mem t i (BitVec.ofNat 64 page ||| midFlags flags) } q := by
  have hpt : page ≠ t := (ne_of_notTable ht hp.notTable).symm
  have hsmall := hp.inRange.lt
  have htd := (h.table t _ ht).1.1
  -- what the entries of a table are now
  have hnew : ∀ {u k m}, update lvl page (some l) u = some m → u = page ∧ m = l ∧
        entry (setEntry s.mem t i (BitVec.ofNat 64 page ||| midFlags flags)) u k = 0 ∨
      u = t ∧ k = i ∧ m = l + 1 ∧
        entry (setEntry s.mem t i (BitVec.ofNat 64 page ||| midFlags flags)) u k =
          BitVec.ofNat 64 page ||| midFlags flags ∨
      lvl u = some m ∧
        entry (setEntry s.mem t i (BitVec.ofNat 64 page ||| midFlags flags)) u k =
          entry s.mem u k := by
    intro u k m hu
    obtain ⟨rfl, rfl⟩ | ⟨-, hu⟩ := level_update hu
    · exact .inl ⟨rfl, rfl, by rw [entry_setEntry_of_ne htd hp.used.1 (.inl hpt), hz]⟩
    · by_cases hut : u = t ∧ k = i
      · obtain ⟨rfl, rfl⟩ := hut
        rw [ht] at hu
        cases hu
        exact .inr (.inl ⟨rfl, rfl, rfl, entry_setEntry_self _ _ _ _⟩)
      · refine .inr (.inr ⟨hu, entry_setEntry_of_ne htd (h.table u m hu).1.1 ?_⟩)
        rwa [not_and_or] at hut
  -- page tables have kept their entries, but for the new one, which has none
  have hleaf : ∀ {u k f}, update lvl page (some l) u = some 0 →
      leafFrame (entry (setEntry s.mem t i (BitVec.ofNat 64 page ||| midFlags flags)) u k) =
        some f → lvl u = some 0 ∧ leafFrame (entry s.mem u k) = some f := by
    intro u k f hu hl
    obtain ⟨-, -, he⟩ | ⟨-, -, hm, -⟩ | ⟨hu', he⟩ := hnew (k := k) hu
    · rw [he, leafFrame_zero] at hl
      cases hl
    · omega
    · rw [he] at hl
      exact ⟨hu', hl⟩
  have howned : Owned kernel own (update lvl page (some l))
      { s with mem := setEntry s.mem t i (BitVec.ofNat 64 page ||| midFlags flags) } := {
    zero := h.zero
    kernelUsed := h.kernelUsed
    guarded := h.guarded
    table := by
      intro u m hu
      obtain ⟨rfl, -⟩ | ⟨-, hu⟩ := level_update hu
      · exact ⟨hp.used, hp.away.1⟩
      · exact h.table u m hu
    child := by
      intro u m k c hu hown hc
      obtain ⟨-, -, he⟩ | ⟨rfl, rfl, hm, he⟩ | ⟨hu', he⟩ := hnew (k := k) hu
      · rw [he, childTable_zero] at hc
        cases hc
      · rw [he, childTable_link hp.used.1 hsmall] at hc
        cases hc
        rw [update_self, Nat.succ.inj hm]
      · rw [he] at hc
        exact extends_update hp.notTable l c m (h.child u m k c hu' hown hc)
    noHuge := by
      intro u m k c hu hm hc
      obtain ⟨-, -, he⟩ | ⟨-, -, -, he⟩ | ⟨hu', he⟩ := hnew (k := k) hu
      · rw [he, childTable_zero] at hc
        cases hc
      · rw [he, and_huge_eq_zero_iff]
        exact (getLsbD_link hp.used.1 hsmall flags).2
      · rw [he] at hc ⊢
        exact h.noHuge u m k c hu' hm hc
    leaf := by
      intro u k f hu hl
      obtain ⟨hu', hl'⟩ := hleaf hu hl
      obtain ⟨hused, hin, hk, hlv⟩ := h.leaf u k f hu' hl'
      exact ⟨hused, hin, hk, by rw [update_of_ne (hp.notLeaf u k f hu' hl')]; exact hlv⟩
    leafInj := by
      intro u k u' k' f hu hu' hl hl'
      obtain ⟨hu, hl⟩ := hleaf hu hl
      obtain ⟨hu', hl'⟩ := hleaf hu' hl'
      exact h.leafInj u k u' k' f hu hu' hl hl' }
  refine ⟨howned, fun q hq hqp => ⟨hq.used, hq.inRange, hq.away, ?_, fun u k f hu hl => ?_⟩⟩
  · rw [update_of_ne hqp]
    exact hq.notTable
  · obtain ⟨hu', hl'⟩ := hleaf hu hl
    exact hq.notLeaf u k f hu' hl'

theorem clear (ht : pageSize ∣ t) (hk : ¬ kernel t) :
    Owned kernel own lvl { s with mem := setEntry s.mem t i 0 } ∧
      KernelSame kernel s.mem (setEntry s.mem t i 0) := by
  refine ⟨?_, h.kernelSame_setEntry ht hk 0⟩
  have hnew : ∀ {u k m}, lvl u = some m → entry (setEntry s.mem t i 0) u k = 0 ∨
      entry (setEntry s.mem t i 0) u k = entry s.mem u k := by
    intro u k m hu
    by_cases hut : u = t ∧ k = i
    · obtain ⟨rfl, rfl⟩ := hut
      exact .inl (entry_setEntry_self _ _ _ _)
    · rw [not_and_or] at hut
      exact .inr (entry_setEntry_of_ne ht (h.table u m hu).1.1 hut)
  have hchild : ∀ {u k m c}, lvl u = some m →
      childTable (entry (setEntry s.mem t i 0) u k) = some c →
      entry (setEntry s.mem t i 0) u k = entry s.mem u k := by
    intro u k m c hu hc
    obtain he | he := hnew (k := k) hu
    · rw [he, childTable_zero] at hc
      cases hc
    · exact he
  have hleaf : ∀ {u k f}, lvl u = some 0 → leafFrame (entry (setEntry s.mem t i 0) u k) = some f →
      leafFrame (entry s.mem u k) = some f := by
    intro u k f hu hl
    obtain he | he := hnew (k := k) hu
    · rw [he, leafFrame_zero] at hl
      cases hl
    · rwa [he] at hl
  exact {
    zero := h.zero
    kernelUsed := h.kernelUsed
    guarded := h.guarded
    table := h.table
    child := fun u m k c hu hown hc => h.child u m k c hu hown (by rw [← hchild hu hc]; exact hc)
    noHuge := fun u m k c hu hm hc => by
      have he := hchild hu hc
      rw [he] at hc ⊢
      exact h.noHuge u m k c hu hm hc
    leaf := fun u k f hu hl => h.leaf u k f hu (hleaf hu hl)
    leafInj := fun u k u' k' f hu hu' hl hl' =>
      h.leafInj u k u' k' f hu hu' (hleaf hu hl) (hleaf hu' hl') }

theorem setLeaf (ht : lvl t = some 0) (hp : Loose kernel lvl s page)
    (hf : flags &&& vmmPhysMask = 0) : Owned kernel own lvl { s with
      mem := setEntry s.mem t i ((BitVec.ofNat 64 page &&& vmmPhysMask) ||| flags) } := by
  have hsmall := hp.inRange.lt
  have htd := (h.table t _ ht).1.1
  have hto : (BitVec.ofNat 64 page).toNat = page := by
    rw [BitVec.toNat_ofNat, Nat.mod_eq_of_lt (by omega)]
  have hframe : ((BitVec.ofNat 64 page &&& vmmPhysMask) ||| flags) &&& vmmPhysMask =
      BitVec.ofNat 64 page := by
    rw [BitVec.and_or_distrib_right, frame_and_mask hp.used.1 hsmall,
      frame_and_mask hp.used.1 hsmall, hf]
    exact BitVec.or_zero
  generalize hE : (BitVec.ofNat 64 page &&& vmmPhysMask) ||| flags = e at hframe ⊢
  have hold : ∀ {u k m}, lvl u = some m → u ≠ t ∨ k ≠ i →
      entry (setEntry s.mem t i e) u k = entry s.mem u k :=
    fun hu hne => entry_setEntry_of_ne htd (h.table _ _ hu).1.1 hne
  -- a mapping is the new one, or it was there before
  have hleaf : ∀ {u k f}, lvl u = some 0 → leafFrame (entry (setEntry s.mem t i e) u k) = some f →
      u = t ∧ k = i ∧ f = BitVec.ofNat 64 page ∨
        (u ≠ t ∨ k ≠ i) ∧ leafFrame (entry s.mem u k) = some f := by
    intro u k f hu hl
    by_cases hut : u = t ∧ k = i
    · obtain ⟨rfl, rfl⟩ := hut
      rw [entry_setEntry_self, leafFrame] at hl
      split at hl
      · cases hl
      · cases hl
        exact .inl ⟨rfl, rfl, hframe⟩
    · rw [not_and_or] at hut
      rw [hold hu hut] at hl
      exact .inr ⟨hut, hl⟩
  have hne : ∀ {u m}, lvl u = some (m + 1) → u ≠ t :=
    fun hu => ne_of_level hu ht (by simp)
  exact {
    zero := h.zero
    kernelUsed := h.kernelUsed
    guarded := h.guarded
    table := h.table
    child := fun u m k c hu hown hc => h.child u m k c hu hown (by
      rw [← hold hu (.inl (hne hu))]; exact hc)
    noHuge := fun u m k c hu hm hc => by
      rw [hold hu (.inl (hne hu))] at hc ⊢
      exact h.noHuge u m k c hu hm hc
    leaf := fun u k f hu hl => by
      obtain ⟨-, -, hfp⟩ | ⟨-, hl⟩ := hleaf hu hl
      · rw [hfp, hto]
        exact ⟨hp.used, hp.inRange, hp.away, hp.notTable⟩
      · exact h.leaf u k f hu hl
    leafInj := fun u k u' k' f hu hu' hl hl' => by
      obtain ⟨hut, hki, hfp⟩ | ⟨-, hl⟩ := hleaf hu hl
      · obtain ⟨hut', hki', -⟩ | ⟨-, hl'⟩ := hleaf hu' hl'
        · exact ⟨hut.trans hut'.symm, hki.trans hki'.symm⟩
        · exact absurd (by rw [hfp, hto]) (hp.notLeaf u' k' f hu' hl')
      · obtain ⟨-, -, hfp⟩ | ⟨-, hl'⟩ := hleaf hu' hl'
        · exact absurd (by rw [hfp, hto]) (hp.notLeaf u k f hu hl)
        · exact h.leafInj u k u' k' f hu hu' hl hl' }

end

/-- A frame that is no table is freed. -/
theorem free {phys : Nat} (h : Owned kernel own lvl s) (hq : Loose kernel lvl s q)
    (hphys : phys / pageSize = q / pageSize) : Owned kernel own lvl (freePage s phys) := by
  have hq0 : q / pageSize ≠ 0 := by
    intro hz
    have := Nat.div_mul_cancel hq.used.1
    rw [hz, Nat.zero_mul] at this
    exact hq.inRange.1 this.symm
  have hbits : ∀ g, frameUsed (freePage s phys).frames g =
      (!decide (g = q / pageSize) && frameUsed s.frames g) := by
    intro g
    rw [← hphys]
    exact frameUsed_pmmFreePage (by rw [hphys]; exact hq0) (by rw [hphys]; exact hq.inRange.2)
      (by rw [hphys]; exact hq.used.2) g
  have hkeep : ∀ {t}, UsedFrame s.frames t → t ≠ q → UsedFrame (freePage s phys).frames t := by
    intro t ht hne
    refine ⟨ht.1, ?_⟩
    have hdiv : t / pageSize ≠ q / pageSize := by
      intro hc
      have h1 := Nat.div_mul_cancel ht.1
      rw [hc, Nat.div_mul_cancel hq.used.1] at h1
      exact hne h1.symm
    rw [hbits, ht.2, decide_eq_false hdiv]
    rfl
  exact {
    zero := by
      rw [hbits, h.zero, decide_eq_false (Ne.symm hq0)]
      rfl
    kernelUsed := fun t ht => hkeep (h.kernelUsed t ht) fun hc => hq.away.1 (hc ▸ ht)
    guarded := fun t ht => hkeep (h.guarded t ht) fun hc => hq.away.2 (hc ▸ ht)
    table := fun t l ht =>
      ⟨hkeep (h.table t l ht).1 (ne_of_notTable ht hq.notTable), (h.table t l ht).2⟩
    child := h.child
    noHuge := h.noHuge
    leaf := fun t i f ht hl =>
      ⟨hkeep (h.leaf t i f ht hl).1 (hq.notLeaf t i f ht hl), (h.leaf t i f ht hl).2⟩
    leafInj := h.leafInj }

end Owned

end DevOs
