import DevOs.Mm.Vmm.Refine

/-!
The entries of an address space after `vmm_map`, with their flags.
-/

namespace DevOs

open ByteMem FrameSupply

def leafEntry (e : BitVec 64) : Option (BitVec 64) :=
  if e &&& vmmPresent = 0 then none else some e

def mappedEntry (m : Mem) (pml4 : Nat) (v : BitVec 64) : Option (BitVec 64) :=
  Radix.lookup childTable leafEntry (entry m) pml4 (tablePath v) (ptIdx v)

theorem leafEntry_zero : leafEntry 0 = none := by decide

theorem leafFrame_eq (e : BitVec 64) : leafFrame e = (leafEntry e).map (· &&& vmmPhysMask) := by
  unfold leafFrame leafEntry
  split <;> rfl

theorem leafEntry_map {phys flags : BitVec 64} (hp : flags &&& vmmPresent ≠ 0) :
    leafEntry (phys ||| flags) = some (phys ||| flags) := by
  refine if_neg fun hc => hp ?_
  rw [and_present_eq_zero_iff, BitVec.getLsbD_or, Bool.or_eq_false_iff] at hc
  exact (and_present_eq_zero_iff _).mpr hc.2

theorem or_and_flags (x flags : BitVec 64) : (x ||| flags) &&& flags = flags := by
  refine BitVec.eq_of_getLsbD_eq fun i _ => ?_
  rw [BitVec.getLsbD_and, BitVec.getLsbD_or]
  cases flags.getLsbD i <;> simp

theorem lookup_leafFrame (m : Mem) (pml4 : Nat) (q : List (Fin 512)) (j : Fin 512) :
    Radix.lookup childTable leafFrame (entry m) pml4 q j =
      (Radix.lookup childTable leafEntry (entry m) pml4 q j).map (· &&& vmmPhysMask) := by
  unfold Radix.lookup
  rw [Option.map_bind]
  exact congrArg _ (funext fun t => leafFrame_eq _)

theorem pageFrame_eq (m : Mem) (pml4 : Nat) (v : BitVec 64) :
    pageFrame m pml4 v = (mappedEntry m pml4 v).map (· &&& vmmPhysMask) :=
  lookup_leafFrame m pml4 (tablePath v) (ptIdx v)

theorem present_of_leafEntry {e e' : BitVec 64} (h : leafEntry e = some e') :
    e = e' ∧ e &&& vmmPresent ≠ 0 := by
  unfold leafEntry at h
  split at h
  · cases h
  · next hp => exact ⟨Option.some.inj h, hp⟩

variable {m : Mem}

theorem mappedEntry_eq_some {pml4 : Nat} {v e : BitVec 64}
    (h : mappedEntry m pml4 v = some e) :
    e &&& vmmPresent ≠ 0 ∧ ∃ pt, pageTable m pml4 v = some pt ∧ entry m pt (ptIdx v) = e := by
  obtain ⟨pt, hpt, he⟩ := Option.bind_eq_some_iff.mp h
  obtain ⟨rfl, hp⟩ := present_of_leafEntry he
  exact ⟨hp, pt, hpt, rfl⟩

theorem mappedEntry_of_none {pml4 : Nat} {v : BitVec 64}
    (h : pageTable m pml4 v = none) : mappedEntry m pml4 v = none :=
  congrArg (Option.bind · fun t => leafEntry (entry m t (ptIdx v))) h

theorem mappedEntry_congr {pml4 : Nat} {v w : BitVec 64}
    (h : pageNumber v = pageNumber w) : mappedEntry m pml4 v = mappedEntry m pml4 w := by
  obtain ⟨hpath, hidx⟩ := (tablePath_eq_iff v w).mpr h
  rw [mappedEntry, mappedEntry, hpath, hidx]

variable {σ : Type} [FrameSource σ] [FrameSupply σ] {used used' : Nat → Prop} {pml4 page t : Nat}
  {s s1 s' : Phys σ} {v phys flags : BitVec 64} {p : List (Fin 512)} {i : Fin 512} {frames : σ}

/-- What `vmm_map` at `v` does besides mapping the page: free frames become tables
on the way to it, and only tables are written. -/
structure TableGrowth (used used' : Nat → Prop) (pml4 : Nat) (v : BitVec 64) (s s' : Phys σ) :
    Prop where
  mono : ∀ t, used t → used' t
  fresh : ∀ t, used' t → used t ∨ Free s.frames t
  free : ∀ f, Free s'.frames f → Free s.frames f
  walk : ∀ p t, p.length ≤ 3 → Radix.walk childTable (entry s.mem) pml4 p = some t →
    Radix.walk childTable (entry s'.mem) pml4 p = some t
  took : ∀ f, Free s.frames f → Free s'.frames f ∨
    ∃ p, p <+: tablePath v ∧ Radix.walk childTable (entry s'.mem) pml4 p = some f
  mem : ∀ x, (∀ t, used' t → x < t ∨ t + pageSize ≤ x) → s'.mem x = s.mem x

/-- From `m` to `m'` entries above the last level are added: those that were there are
kept, and the others name tables with the flags of new tables. -/
structure MidKept (flags : BitVec 64) (pml4 : Nat) (m m' : Mem) : Prop where
  kept : ∀ p t i, p.length < 3 → Radix.walk childTable (entry m) pml4 p = some t →
    childTable (entry m t i) ≠ none → entry m' t i = entry m t i
  fresh : ∀ p t i, p.length < 3 → Radix.walk childTable (entry m') pml4 p = some t →
    childTable (entry m' t i) ≠ none →
    Radix.walk childTable (entry m) pml4 p = some t ∧ entry m' t i = entry m t i ∨
      ∃ page, TableFrame page ∧ entry m' t i = BitVec.ofNat 64 page ||| midFlags flags

theorem MidKept.refl (flags : BitVec 64) (pml4 : Nat) (m : Mem) : MidKept flags pml4 m m :=
  ⟨fun _ _ _ _ _ _ => rfl, fun _ _ _ _ hw _ => .inl ⟨hw, rfl⟩⟩

theorem MidKept.walk {m m' : Mem} (h : MidKept flags pml4 m m') (hp : p.length ≤ 3)
    (hw : Radix.walk childTable (entry m) pml4 p = some t) :
    Radix.walk childTable (entry m') pml4 p = some t := by
  refine Radix.walk_mono (fun r k u c hr hwr hc => ?_) hw
  have hlen := hr.length_le
  rw [List.length_append, List.length_singleton] at hlen
  rw [h.kept r u k (by omega) hwr (by rw [hc]; simp)]
  exact hc

theorem MidKept.trans {m m' m'' : Mem} (h : MidKept flags pml4 m m')
    (h' : MidKept flags pml4 m' m'') : MidKept flags pml4 m m'' where
  kept p t i hp hw hc := by
    have heq := h.kept p t i hp hw hc
    rw [← heq] at hc ⊢
    exact h'.kept p t i hp (h.walk hp.le hw) hc
  fresh p t i hp hw hc := by
    obtain ⟨hw', heq⟩ | hnew := h'.fresh p t i hp hw hc
    · rw [heq] at hc ⊢
      exact h.fresh p t i hp hw' hc
    · exact .inr hnew

theorem MidKept.of_walk {m m' : Mem} (hw : ∀ p : List (Fin 512), p.length ≤ 3 →
      Radix.walk childTable (entry m') pml4 p = Radix.walk childTable (entry m) pml4 p)
    (he : ∀ p t i, p.length < 3 → Radix.walk childTable (entry m) pml4 p = some t →
      entry m' t i = entry m t i) : MidKept flags pml4 m m' where
  kept p t i hp hwp _ := he p t i hp hwp
  fresh p t i hp hwp _ := by
    rw [hw p hp.le] at hwp
    exact .inl ⟨hwp, he p t i hp hwp⟩

namespace TreeOk

theorem link_entries (h : TreeOk used pml4 s) (flags : BitVec 64) (hp : p.length < 3)
    (hw : Radix.walk childTable (entry s.mem) pml4 p = some t)
    (hempty : entry s.mem t i &&& vmmPresent = 0)
    (ha : FrameSource.alloc s.frames = some (page, frames)) :
    (∀ q j, q.length = 3 → Radix.lookup childTable leafEntry
        (entry (linkTable s.mem t i page (midFlags flags))) pml4 q j =
        Radix.lookup childTable leafEntry (entry s.mem) pml4 q j) ∧
      MidKept flags pml4 s.mem (linkTable s.mem t i page (midFlags flags)) := by
  obtain ⟨hpage, -, hother, hlink, hzero, hnew⟩ :=
    h.entry_link (i := i) (h.tree.used p t (by omega) hw) ha flags
  have hnone := (childTable_eq_none_iff _).mpr hempty
  refine ⟨fun q j hq => h.tree.lookup_link hp hw hnone hother hlink hnew leafEntry
    (fun k => by rw [hzero k]; exact leafEntry_zero) hq, fun q u k hq hwq hc => ?_,
    fun q u k hq hwq hc => ?_⟩
  · refine hother u k (h.tree.used q u hq.le hwq) (not_and_or.mp fun hut => hc ?_)
    rw [hut.1, hut.2]
    exact hnone
  · rw [h.tree.walk_link hp hw hnone hother hlink hnew hq.le] at hwq
    split at hwq
    · -- the new table is empty
      cases hwq
      exact absurd (hnew k) hc
    · by_cases hut : u = t ∧ k = i
      · refine .inr ⟨page, hpage, ?_⟩
        rw [hut.1, hut.2, entry_linkTable_self]
      · exact .inl ⟨hwq, hother u k (h.tree.used q u hq.le hwq) (not_and_or.mp hut)⟩

theorem entriesInv (used : Nat → Prop) (pml4 : Nat) (v flags : BitVec 64) (s : Phys σ) :
    MapInv pml4 v flags fun s1 _ => ∃ used', Mapping used pml4 v s used' s1 ∧
      (∀ q j, q.length = 3 → Radix.lookup childTable leafEntry (entry s1.mem) pml4 q j =
        Radix.lookup childTable leafEntry (entry s.mem) pml4 q j) ∧
      MidKept flags pml4 s.mem s1.mem := by
  have hInv := mapInv used pml4 v flags s
  constructor
  · rintro s1 es p t ⟨used', h1, -⟩ hp hw
    exact @MapInv.nonzero _ _ _ _ _ _ hInv s1 es p t ⟨used', h1⟩ hp hw
  · rintro s1 es p t i page frames ⟨used', h1, hlook, hmid⟩ hp hw hempty ha
    obtain ⟨hpage, ⟨used2, h2⟩, hwalk⟩ :=
      @MapInv.link _ _ _ _ _ _ hInv s1 es p t i page frames ⟨used', h1⟩ hp hw hempty ha
    have hlen := hp.length_le
    rw [List.length_append, List.length_singleton] at hlen
    obtain ⟨hlook2, hmid2⟩ := h1.tree.link_entries flags hlen hw hempty ha
    exact ⟨hpage, ⟨used2, h2, fun q j hq => (hlook2 q j hq).trans (hlook q j hq),
      hmid.trans hmid2⟩, hwalk⟩

variable (h : TreeOk used pml4 s)
include h

/-- **`vmm_map`** gives up when a table is missing and no frame is left, and else
decides the entry of one page. -/
theorem growth_entries (hs' : DevOs.vmmMap s pml4 v phys flags = s') :
    ∃ used', TreeOk used' pml4 s' ∧ TableGrowth used used' pml4 v s s' ∧
      MidKept flags pml4 s.mem s'.mem ∧
      (FrameSource.alloc s'.frames = none ∧ pageTable s'.mem pml4 v = none ∧
          (∀ q j, q.length = 3 → Radix.lookup childTable leafEntry (entry s'.mem) pml4 q j =
            Radix.lookup childTable leafEntry (entry s.mem) pml4 q j) ∨
        ∀ q j, q.length = 3 → Radix.lookup childTable leafEntry (entry s'.mem) pml4 q j =
          if q = tablePath v ∧ j = ptIdx v then leafEntry ((phys &&& vmmPhysMask) ||| flags)
          else Radix.lookup childTable leafEntry (entry s.mem) pml4 q j) := by
  subst hs'
  obtain ⟨s1, es, ⟨used', hm, hlook1, hmid⟩, ⟨heq, -, ha, hnone⟩ | ⟨pt, hpt, heq, -⟩⟩ :=
    vmmMap_rule (entriesInv used pml4 v flags s)
      ⟨used, h.mappingStart v, fun _ _ _ => rfl, .refl flags pml4 s.mem⟩ phys
  · rw [heq]
    exact ⟨used', hm.tree, ⟨hm.grown.mono, hm.grown.fresh, hm.grown.free, hm.grown.walk, hm.took,
      hm.mem⟩, hmid, .inl ⟨ha, hnone, hlook1⟩⟩
  · obtain ⟨htree, hwalk, -⟩ := hm.tree.setEntry hpt ((phys &&& vmmPhysMask) ||| flags)
    have hpath := length_tablePath v
    have hused := hm.tree.tree.used _ pt hpath.le hpt
    rw [heq]
    refine ⟨used', htree, ⟨hm.grown.mono, hm.grown.fresh, hm.grown.free, fun p t hp hw => ?_,
      fun f hf => ?_, fun x hx => ?_⟩, hmid.trans (.of_walk hwalk fun p t i hp hw => ?_),
      .inr fun q j hq => ?_⟩
    · rw [hwalk p hp]
      exact hm.grown.walk p t hp hw
    · refine (hm.took f hf).imp_right ?_
      rintro ⟨p, hp, hw⟩
      exact ⟨p, hp, by rw [hwalk p hp.length_le]; exact hw⟩
    · have hx' := hx pt hused
      have hi := (ptIdx v).isLt
      rw [pageSize_eq] at hx'
      exact (store_apply_of_disjoint (by omega)).trans (hm.mem x hx)
    · -- a table above the last level is not the page table
      refine hm.tree.entry_other hpt _ (hm.tree.tree.used p t hp.le hw) (.inl fun hc => ?_)
      have hsame := hm.tree.tree.inj p _ pt hp.le hpath.le (hc ▸ hw) hpt
      rw [hsame] at hp
      exact absurd hpath (Nat.ne_of_lt hp)
    · rw [hm.tree.lookup_setEntry hpt _ leafEntry hq, hlook1 q j hq]

theorem unmap_entries (v : BitVec 64) :
    TreeOk used pml4 (DevOs.vmmUnmap s pml4 v) ∧ (∀ q : List (Fin 512), q.length ≤ 3 →
        Radix.walk childTable (entry (DevOs.vmmUnmap s pml4 v).mem) pml4 q =
          Radix.walk childTable (entry s.mem) pml4 q) ∧
      ∀ w, mappedEntry (DevOs.vmmUnmap s pml4 v).mem pml4 w =
        if pageNumber w = pageNumber v then none else mappedEntry s.mem pml4 w := by
  rw [vmmUnmap_eq]
  cases hpt : pageTable s.mem pml4 v with
  | none =>
    refine ⟨h, fun _ _ => rfl, fun w => ?_⟩
    by_cases hw : pageNumber w = pageNumber v
    · rw [if_pos hw, mappedEntry_congr hw]
      exact mappedEntry_of_none hpt
    · rw [if_neg hw]
  | some pt =>
    obtain ⟨htree, hwalk, -⟩ := h.setEntry hpt 0
    refine ⟨htree, hwalk, fun w => ?_⟩
    rw [mappedEntry, h.lookup_setEntry hpt 0 leafEntry (length_tablePath w), leafEntry_zero]
    exact if_congr (tablePath_eq_iff w v) rfl rfl

theorem translate_entry (v : BitVec 64) : vmmTranslate s.mem pml4 v =
      (mappedEntry s.mem pml4 v).elim 0 fun e => (e &&& vmmPhysMask) ||| (v &&& 0xFFF#64) := by
  rw [vmmTranslate_eq h.tree, pageFrame_eq]
  cases mappedEntry s.mem pml4 v <;> rfl

end TreeOk

end DevOs
