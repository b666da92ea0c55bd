import DevOs.Mm.Vmm.Owned
import DevOs.Mm.Vmm.Rule

/-!
The operations of `vmm.c` and `vmm_ext.c` on a user address space keep the
frames owned and the kernel's tables unchanged, for addresses in the slots of
its PML4 that are its own.
-/

namespace DevOs

open ByteMem Function

variable {kernel : Nat → Prop} {own : Fin 512 → Prop} {lvl : Levels} {s s' : Phys Pmm}
  {t page pml4 : Nat} {i : Fin 512} {flags v : BitVec 64} {l : Nat} {p x n : Nat} {va : BitVec 64}

theorem Owned.getOrCreate (h : Owned kernel own lvl s) (ht : lvl t = some (l + 1))
    (hown : l = 2 → own i) (flags : BitVec 64) {c : Nat}
    (hc : getOrCreate s t i (midFlags flags) = (c, s')) :
    ∃ lvl', Owned kernel own lvl' s' ∧ Extends lvl lvl' ∧ KernelSame kernel s.mem s'.mem ∧
      (c ≠ 0 → lvl' c = some l) ∧ ∀ q, Loose kernel lvl s q → Loose kernel lvl' s' q := by
  by_cases he : entry s.mem t i &&& vmmPresent = 0
  · cases ha : FrameSource.alloc s.frames with
    | none =>
      rw [getOrCreate_of_none he (by rw [allocPage, ha])] at hc
      cases hc
      exact ⟨lvl, h, Extends.refl lvl, KernelSame.refl _, fun hz => absurd rfl hz, fun _ hq => hq⟩
    | some r =>
      obtain ⟨page, frames⟩ := r
      have hap : allocPage s = some (page, ⟨fill s.mem page pageSize 0, frames⟩) := by
        rw [allocPage, ha]
      obtain ⟨h1, hp, hz, hsame, hloose⟩ := h.alloc hap
      rw [getOrCreate_of_alloc he ha hp.used.1 hp.inRange.lt] at hc
      obtain ⟨rfl, rfl⟩ := Prod.mk.inj hc
      obtain ⟨h2, hloose2⟩ := h1.link (i := i) ht hp hz flags
      have hk := h1.kernelSame_setEntry (i := i) (h.table t _ ht).1.1 (h.table t _ ht).2
        (BitVec.ofNat 64 page ||| midFlags flags)
      exact ⟨_, h2, extends_update hp.notTable l, hsame.trans hk, fun _ => update_self _ _ _,
        fun q hq => hloose2 q (hloose q hq).1 (hloose q hq).2⟩
  · rw [getOrCreate_of_present he] at hc
    cases hc
    exact ⟨lvl, h, Extends.refl lvl, KernelSame.refl _,
      fun _ => h.child t l i _ ht hown (childTable_of_present he), fun _ hq => hq⟩

theorem Owned.vmmMap (h : Owned kernel own lvl s) (ht : lvl pml4 = some 3)
    (hown : own (pml4Idx v)) (hp : Loose kernel lvl s page) (hf : flags &&& vmmPhysMask = 0) :
    ∃ lvl', Owned kernel own lvl' (vmmMap s pml4 v (BitVec.ofNat 64 page) flags) ∧
      Extends lvl lvl' ∧
      KernelSame kernel s.mem (DevOs.vmmMap s pml4 v (BitVec.ofNat 64 page) flags).mem ∧
      lvl' page = none := by
  refine vmmMap_levels (J := fun p t s' _ => ∃ lvl', Owned kernel own lvl' s' ∧ Extends lvl lvl' ∧
      KernelSame kernel s.mem s'.mem ∧ Loose kernel lvl' s' page ∧ lvl' t = some (3 - p.length))
    (Q := fun s' _ => ∃ lvl', Owned kernel own lvl' s' ∧ Extends lvl lvl' ∧
      KernelSame kernel s.mem s'.mem ∧ lvl' page = none)
    (BitVec.ofNat 64 page) ⟨lvl, h, Extends.refl lvl, KernelSame.refl _, hp, ht⟩ ?_ ?_
  · rintro p t i s1 es u s' hpre ⟨lvl1, o1, e1, k1, hp1, ht1⟩ hr
    have hlen := length_lt_of_concat hpre
    rw [show 3 - p.length = 3 - (p ++ [i]).length + 1 by simp; omega] at ht1
    have hslot : 3 - (p ++ [i]).length = 2 → own i := by
      intro hl
      obtain rfl : p = [] := List.eq_nil_of_length_eq_zero (by simp at hl; omega)
      exact head_tablePath hpre rfl ▸ hown
    obtain ⟨lvl2, o2, e2, k2, c2, q2⟩ := o1.getOrCreate ht1 hslot flags hr
    exact ⟨fun _ => ⟨lvl2, o2, e1.trans e2, k1.trans k2, (q2 page hp1).notTable⟩,
      fun hz => ⟨lvl2, o2, e1.trans e2, k1.trans k2, q2 page hp1, c2 hz⟩⟩
  · rintro pt s1 es ⟨lvl1, o1, e1, k1, hp1, ht1⟩
    have hpt := o1.table pt 0 ht1
    exact ⟨lvl1, o1.setLeaf ht1 hp1 hf, e1, k1.trans (o1.kernelSame_setEntry hpt.1.1 hpt.2 _),
      hp1.notTable⟩

theorem Owned.translate (h : Owned kernel own lvl s) (ht : lvl pml4 = some 3)
    (hown : own (pml4Idx v)) : vmmTranslate s.mem pml4 v = 0 ∨
      ∃ pt f, pageTable s.mem pml4 v = some pt ∧ lvl pt = some 0 ∧
        leafFrame (entry s.mem pt (ptIdx v)) = some f ∧
        vmmTranslate s.mem pml4 v = f ||| (v &&& 0xFFF#64) := by
  unfold vmmTranslate pageTable tablePath
  by_cases h3 : entry s.mem pml4 (pml4Idx v) &&& vmmPresent = 0
  · exact .inl (by rw [if_pos h3])
  have c3 := childTable_of_present h3
  have l3 := h.child _ 2 _ _ ht (fun _ => hown) c3
  rw [if_neg h3]
  dsimp only
  generalize physToPt (entry s.mem pml4 (pml4Idx v)) = pdpt at c3 l3
  by_cases h2 : entry s.mem pdpt (pdptIdx v) &&& vmmPresent = 0
  · exact .inl (by rw [if_pos h2])
  have c2 := childTable_of_present h2
  have l2 := h.child _ 1 _ _ l3 (fun hl => by omega) c2
  rw [if_neg h2, if_neg (not_not.mpr (h.noHuge _ 1 _ _ l3 (by decide) c2))]
  generalize physToPt (entry s.mem pdpt (pdptIdx v)) = pd at c2 l2
  by_cases h1 : entry s.mem pd (pdIdx v) &&& vmmPresent = 0
  · exact .inl (by rw [if_pos h1])
  have c1 := childTable_of_present h1
  have l1 := h.child _ 0 _ _ l2 (fun hl => by omega) c1
  rw [if_neg h1, if_neg (not_not.mpr (h.noHuge _ 0 _ _ l2 (by decide) c1))]
  generalize physToPt (entry s.mem pd (pdIdx v)) = pt at c1 l1
  by_cases h0 : entry s.mem pt (ptIdx v) &&& vmmPresent = 0
  · exact .inl (by rw [if_pos h0])
  rw [if_neg h0]
  refine .inr ⟨pt, entry s.mem pt (ptIdx v) &&& vmmPhysMask, ?_, l1, if_neg h0, rfl⟩
  simp only [Radix.walk, c3, c2, c1, Option.bind_some]

theorem toNat_frame_or {f w : BitVec 64} (hf : pageSize ∣ f.toNat) (hw : w.toNat < pageSize) :
    (f ||| w).toNat = f.toNat + w.toNat := by
  obtain ⟨k, hk⟩ := hf
  rw [BitVec.toNat_or, hk, show pageSize = 2 ^ 12 from rfl,
    Nat.two_pow_add_eq_or_of_lt (show w.toNat < 2 ^ 12 from hw)]

theorem toNat_offset_lt (v : BitVec 64) : (v &&& 0xFFF#64).toNat < pageSize := by
  rw [BitVec.toNat_and]
  exact Nat.lt_of_le_of_lt Nat.and_le_right (by decide)

theorem Owned.freeTurn (h : Owned kernel own lvl s) (ht : lvl pml4 = some 3)
    (hown : own (pml4Idx v)) : Keeps kernel own lvl s (if vmmTranslate s.mem pml4 v ≠ 0 then
        freePage (vmmUnmap s pml4 v) (vmmTranslate s.mem pml4 v).toNat else s) := by
  obtain hz | ⟨pt, f, hpt, hl, hf, htr⟩ := h.translate ht hown
  · rw [if_neg (not_not.mpr hz)]
    exact Keeps.refl h
  split
  · obtain ⟨hused, hin, haway, hnone⟩ := h.leaf pt (ptIdx v) f hl hf
    have htab := h.table pt 0 hl
    obtain ⟨h1, hk⟩ := h.clear (i := ptIdx v) htab.1.1 htab.2
    rw [vmmUnmap_eq, hpt]
    refine ⟨lvl, h1.free (q := f.toNat) ⟨hused, hin, haway, hnone, ?_⟩ ?_, Extends.refl lvl, hk⟩
    · -- the frame was mapped once, and that entry has gone
      intro t i g htl hg hgf
      obtain rfl : g = f := BitVec.eq_of_toNat_eq hgf
      by_cases hti : t = pt ∧ i = ptIdx v
      · rw [hti.1, hti.2, entry_setEntry_self, leafFrame_zero] at hg
        cases hg
      · rw [entry_setEntry_of_ne htab.1.1 (h.table t 0 htl).1.1 (not_and_or.mp hti)] at hg
        exact hti (h.leafInj t i pt (ptIdx v) g htl hl hg hf)
    · rw [htr, toNat_frame_or hused.1 (toNat_offset_lt v)]
      obtain ⟨k, hk⟩ := hused.1
      rw [hk, Nat.mul_add_div (by decide), Nat.div_eq_of_lt (toNat_offset_lt v), Nat.add_zero,
        Nat.mul_div_cancel_left _ (by decide)]
  · exact Keeps.refl h

theorem Owned.adopt (h : Owned kernel own lvl s) (hp : Loose kernel lvl s page)
    (hc : ∀ i, own i → childTable (entry s.mem page i) = none) :
    Owned kernel own (update lvl page (some 3)) s := by
  have hzero : ∀ {u}, update lvl page (some 3) u = some 0 → lvl u = some 0 := fun hu =>
    ((level_update hu).resolve_left fun hc => by omega).2
  exact {
    zero := h.zero
    kernelUsed := h.kernelUsed
    guarded := h.guarded
    table := fun u m hu => by
      obtain ⟨rfl, -⟩ | ⟨-, hu⟩ := level_update hu
      · exact ⟨hp.used, hp.away.1⟩
      · exact h.table u m hu
    child := fun u m k c hu hown hcc => by
      obtain ⟨rfl, hm⟩ | ⟨-, hu⟩ := level_update hu
      · rw [hc k (hown (by omega))] at hcc
        cases hcc
      · exact extends_update hp.notTable 3 c m (h.child u m k c hu hown hcc)
    noHuge := fun u m k c hu hm hcc => by
      obtain ⟨-, hm3⟩ | ⟨-, hu⟩ := level_update hu
      · omega
      · exact h.noHuge u m k c hu hm hcc
    leaf := fun u k f hu hl => by
      obtain ⟨hused, hin, haway, hnone⟩ := h.leaf u k f (hzero hu) hl
      exact ⟨hused, hin, haway, by
        rw [update_of_ne (hp.notLeaf u k f (hzero hu) hl)]; exact hnone⟩
    leafInj := fun u k u' k' f hu hu' hl hl' =>
      h.leafInj u k u' k' f (hzero hu) (hzero hu') hl hl' }

theorem copySlots_apply (hx : x < p + 8 * 256 ∨ p + 8 * 512 ≤ x)
    (e : Fin 512 → BitVec 64) (is : List (Fin 512)) (m : Mem) :
    is.foldl (fun m i => if 256 ≤ i.val then setEntry m p i (e i) else m) m x = m x := by
  induction is generalizing m with
  | nil => rfl
  | cons i is ih =>
    rw [List.foldl_cons, ih]
    split
    · have hi := i.isLt
      exact store_apply_of_disjoint (by omega)
    · rfl

theorem copyUpperHalf_apply (hx : x < p + 8 * 256 ∨ p + 8 * 512 ≤ x) (m : Mem)
    (kernelPml4 : Nat) : copyUpperHalf m kernelPml4 p x = m x :=
  copySlots_apply hx (entry m kernelPml4) (List.finRange 512) m

theorem copyUpperHalf_apply_of_outside (hx : x < p ∨ p + pageSize ≤ x) (m : Mem)
    (kernelPml4 : Nat) : copyUpperHalf m kernelPml4 p x = m x :=
  copyUpperHalf_apply (by rw [pageSize_eq] at hx; omega) m kernelPml4

theorem entry_copySlots {p : Nat} (hp : pageSize ∣ p) (e : Fin 512 → BitVec 64) {j : Fin 512}
    (hj : 256 ≤ j.val) (is : List (Fin 512)) (m : Mem) (hmem : j ∈ is ∨ entry m p j = e j) :
    entry (is.foldl (fun m i => if 256 ≤ i.val then setEntry m p i (e i) else m) m) p j = e j := by
  induction is generalizing m with
  | nil => exact hmem.resolve_left List.not_mem_nil
  | cons i is ih =>
    rw [List.foldl_cons]
    refine ih _ ?_
    by_cases hji : j = i
    · subst hji
      rw [if_pos hj, entry_setEntry_self]
      exact .inr rfl
    · refine (hmem.imp_left fun hc => (List.mem_cons.mp hc).resolve_left hji).imp_right
        fun hsame => ?_
      split
      · rw [entry_setEntry_of_ne hp hp (.inr hji), hsame]
      · exact hsame

theorem entry_copyUpperHalf {p : Nat} (hp : pageSize ∣ p) (m : Mem) (kernelPml4 : Nat)
    (j : Fin 512) : entry (copyUpperHalf m kernelPml4 p) p j =
      if 256 ≤ j.val then entry m kernelPml4 j else entry m p j := by
  split
  · next hj => exact entry_copySlots hp (entry m kernelPml4) hj _ m (.inl (List.mem_finRange j))
  · refine congrArg (BitVec.ofNat 64) (load_congr fun x _ _ => ?_)
    exact copyUpperHalf_apply (by omega) m kernelPml4

theorem entry_copyUpperHalf_of_ne {p u : Nat} (hp : pageSize ∣ p) (hu : pageSize ∣ u) (h : u ≠ p)
    (m : Mem) (kernelPml4 : Nat) (j : Fin 512) :
    entry (copyUpperHalf m kernelPml4 p) u j = entry m u j :=
  entry_of_outside hp hu h fun _ hx => copyUpperHalf_apply_of_outside hx m kernelPml4

theorem Owned.createSpace {kernelPml4 c : Nat} (h : Owned kernel own lvl s) (hk : kernel kernelPml4)
    (hup : ∀ i, own i → 256 ≤ i.val → childTable (entry s.mem kernelPml4 i) = none)
    (hc : vmmCreateAddressSpace s kernelPml4 = (c, s')) :
    ∃ lvl', Owned kernel own lvl' s' ∧ Extends lvl lvl' ∧ KernelSame kernel s.mem s'.mem ∧
      (c ≠ 0 → lvl' c = some 3) := by
  obtain ⟨rfl, rfl⟩ | ⟨s1, ha, hs'⟩ := vmmCreateAddressSpace_cases hc
  · exact ⟨lvl, h, Extends.refl lvl, KernelSame.refl _, fun hz => absurd rfl hz⟩
  obtain ⟨h1, hp, hz, hsame, -⟩ := h.alloc ha
  obtain ⟨h2, hsame2, hloose⟩ := h1.write hp.used.1 hp.away.1 hp.notTable
    fun x hx => copyUpperHalf_apply_of_outside hx s1.mem kernelPml4
  have hc' : ∀ i, own i → childTable (entry s'.mem c i) = none := by
    intro i hi
    rw [hs', entry_copyUpperHalf hp.used.1]
    split
    · next hhi =>
        rw [hsame _ _ hk]
        exact hup i hi hhi
    · rw [hz, childTable_zero]
  rw [← hs'] at h2 hloose
  refine ⟨_, h2.adopt (hloose c hp) hc', extends_update hp.notTable 3, ?_,
    fun _ => update_self _ _ _⟩
  rw [hs']
  dsimp only
  exact hsame.trans hsame2

def OwnRange (own : Fin 512 → Prop) (va : BitVec 64) (n : Nat) : Prop :=
  ∀ i < n, own (pml4Idx (va + BitVec.ofNat 64 (i * pageSize)))

theorem OwnRange.head (h : OwnRange own va (n + 1)) :
    own (pml4Idx va) := by
  have h0 := h 0 (Nat.zero_lt_succ n)
  rwa [Nat.zero_mul, show va + BitVec.ofNat 64 0 = va from BitVec.add_zero va] at h0

theorem OwnRange.tail (h : OwnRange own va (n + 1)) :
    OwnRange own (va + pageBytes) n := by
  intro i hi
  have hsucc := h (i + 1) (Nat.succ_lt_succ hi)
  rwa [Nat.succ_mul, Nat.add_comm, BitVec.ofNat_add, ← BitVec.add_assoc] at hsucc

theorem ofNat_nextPage (a : Nat) :
    BitVec.ofNat 64 ((a + pageSize) % 2 ^ 64) = BitVec.ofNat 64 a + pageBytes := by
  apply BitVec.eq_of_toNat_eq
  rw [BitVec.toNat_ofNat, Nat.mod_mod, BitVec.toNat_add, BitVec.toNat_ofNat, Nat.add_mod]
  rfl

theorem Owned.allocRangeLoop (hf : flags &&& vmmPhysMask = 0) :
    ∀ (n : Nat) (va : BitVec 64) (lvl : Levels) (s : Phys Pmm), Owned kernel own lvl s →
      lvl pml4 = some 3 → OwnRange own va n →
      Keeps kernel own lvl s (allocRangeLoop pml4 flags n va s).2
  | 0, _, _, _, h, _, _ => Keeps.refl h
  | n + 1, va, lvl, s, h, ht, hr => by
    unfold DevOs.allocRangeLoop vmmAllocMap
    cases ha : allocPage s with
    | none => exact Keeps.refl h
    | some r =>
      obtain ⟨page, s1⟩ := r
      obtain ⟨h1, hp, -, hsame, -⟩ := h.alloc ha
      obtain ⟨lvl2, h2, hext, hsame2, -⟩ := h1.vmmMap ht hr.head hp hf
      dsimp only
      rw [if_neg hp.inRange.1]
      have hone : Keeps kernel own lvl s (DevOs.vmmMap s1 pml4 va (BitVec.ofNat 64 page) flags) :=
        ⟨lvl2, h2, hext, hsame.trans hsame2⟩
      exact hone.trans fun lvl' hext' h' =>
        Owned.allocRangeLoop hf n _ lvl' _ h' (hext' _ _ ht) hr.tail

theorem Owned.freeRangeLoop :
    ∀ (n : Nat) (va : BitVec 64) (lvl : Levels) (s : Phys Pmm), Owned kernel own lvl s →
      lvl pml4 = some 3 → OwnRange own va n → Keeps kernel own lvl s (freeRangeLoop pml4 n va s)
  | 0, _, _, _, h, _, _ => Keeps.refl h
  | n + 1, va, lvl, s, h, ht, hr => by
    unfold DevOs.freeRangeLoop
    exact (h.freeTurn ht hr.head).trans fun lvl' hext h' =>
      Owned.freeRangeLoop n _ lvl' _ h' (hext _ _ ht) hr.tail

end DevOs
