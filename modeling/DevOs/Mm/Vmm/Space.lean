import DevOs.Mm.Pmm.Count
import DevOs.Mm.Vmm.Entries
import DevOs.Mm.Vmm.Lower

/-!
The frames behind the pages of an address space.
-/

namespace DevOs

open ByteMem

theorem TreeOk.clear {σ : Type} [FrameSource σ] [FrameSupply σ] {used : Nat → Prop} {pml4 t : Nat}
    {s : Phys σ} (h : TreeOk used pml4 s) (ht : pageSize ∣ t) (i : Fin 512) :
    TreeOk used pml4 { s with mem := DevOs.setEntry s.mem t i 0 } ∧
      ∀ v e, mappedEntry (DevOs.setEntry s.mem t i 0) pml4 v = some e →
        mappedEntry s.mem pml4 v = some e := by
  have hsame : ∀ u k, used u → entry (DevOs.setEntry s.mem t i 0) u k ≠ 0 →
      entry (DevOs.setEntry s.mem t i 0) u k = entry s.mem u k := by
    intro u k hu hne
    by_cases hut : u = t ∧ k = i
    · rw [hut.1, hut.2, entry_setEntry_self] at hne
      exact absurd rfl hne
    · exact entry_setEntry_of_ne ht (h.table u hu).1.aligned (not_and_or.mp hut)
  have hchild : ∀ u k, used u → childTable (entry (DevOs.setEntry s.mem t i 0) u k) ≠ none →
      entry (DevOs.setEntry s.mem t i 0) u k = entry s.mem u k := fun u k hu hc =>
    hsame u k hu fun hz => hc (by rw [hz, childTable_zero])
  exact ⟨⟨h.supply, h.tree.prune hchild, h.table⟩, fun v e =>
    h.tree.lookup_prune hchild (fun u k hu hc =>
      hsame u k hu fun hz => hc (by rw [hz, leafEntry_zero])) (length_tablePath v).le⟩

structure DataFrame (used : Nat → Prop) (p : Pmm) (q : Nat) : Prop where
  aligned : pageSize ∣ q
  inRange : InRange q
  notFree : ¬ FreeFrame p q
  notTable : ¬ used q

variable {used used' : Nat → Prop} {pml4 page : Nat} {f : PageMap} {s s' : Phys Pmm} {p p' : Pmm}
  {v flags : BitVec 64} {vs : List (BitVec 64)} {q : Nat} {m : Mem}

section

variable (h : DataFrame used p q)
include h

theorem DataFrame.mono (hfree : ∀ t, FreeFrame p' t → FreeFrame p t)
    (hused : ∀ t, used' t → used t ∨ FreeFrame p t) : DataFrame used' p' q where
  aligned := h.aligned
  inRange := h.inRange
  notFree hf := h.notFree (hfree q hf)
  notTable hu := (hused q hu).elim h.notTable h.notFree

theorem DataFrame.frameUsed : frameUsed p (q / pageSize) = true := by
  by_contra hc
  exact h.notFree ⟨h.aligned, h.inRange.2, Bool.not_eq_true _ ▸ hc⟩

theorem DataFrame.frame_ne_zero : q / pageSize ≠ 0 := by
  intro hz
  have hq := Nat.div_mul_cancel h.aligned
  rw [hz, Nat.zero_mul] at hq
  exact h.inRange.1 hq.symm

theorem DataFrame.toNat_ofNat : (BitVec.ofNat 64 q).toNat = q := by
  exact toNat_ofNat_frame h.inRange.lt

end

theorem DataFrame.freeFrame_free {q phys : Nat} (h : DataFrame used p q)
    (hphys : phys / pageSize = q / pageSize) (t : Nat) :
    FreeFrame (pmmFreePage p phys) t ↔ FreeFrame p t ∨ t = q := by
  unfold FreeFrame
  rw [frameUsed_pmmFreePage (by rw [hphys]; exact h.frame_ne_zero)
    (by rw [hphys]; exact h.inRange.2) (by rw [hphys]; exact h.frameUsed), hphys]
  constructor
  · rintro ⟨hal, hlt, hbit⟩
    rw [Bool.and_eq_false_iff, Bool.not_eq_false', decide_eq_true_eq] at hbit
    refine hbit.symm.imp (fun hc => ⟨hal, hlt, hc⟩) fun hc => ?_
    rw [← Nat.div_mul_cancel hal, hc, Nat.div_mul_cancel h.aligned]
  · rintro (⟨hal, hlt, hbit⟩ | rfl)
    · exact ⟨hal, hlt, by rw [hbit, Bool.and_false]⟩
    · exact ⟨h.aligned, h.inRange.2, by simp⟩

theorem DataFrame.free_zero {q phys : Nat} (h : DataFrame used p q)
    (hphys : phys / pageSize = q / pageSize) (hzero : DevOs.frameUsed p 0 = true) :
    DevOs.frameUsed (pmmFreePage p phys) 0 = true := by
  rw [frameUsed_pmmFreePage (by rw [hphys]; exact h.frame_ne_zero)
    (by rw [hphys]; exact h.inRange.2) (by rw [hphys]; exact h.frameUsed), hzero, hphys,
    decide_eq_false h.frame_ne_zero.symm]
  rfl

def entryFrame (e : BitVec 64) : Nat := (e &&& vmmPhysMask).toNat

/-- The pages of `P` that are mapped have frames of their own. -/
structure OwnFrames (used : Nat → Prop) (pml4 : Nat) (P : BitVec 36 → Prop) (s : Phys Pmm) :
    Prop where
  data : ∀ v e, P (pageNumber v) → mappedEntry s.mem pml4 v = some e →
    DataFrame used s.frames (entryFrame e)
  inj : ∀ v w e e', P (pageNumber v) → P (pageNumber w) → mappedEntry s.mem pml4 v = some e →
    mappedEntry s.mem pml4 w = some e' → entryFrame e = entryFrame e' →
    pageNumber v = pageNumber w

namespace OwnFrames

variable {P Q : BitVec 36 → Prop}

theorem mono (h : OwnFrames used pml4 P s) (hQ : ∀ k, Q k → P k) : OwnFrames used pml4 Q s where
  data v e hv := h.data v e (hQ _ hv)
  inj v w e e' hv hw := h.inj v w e e' (hQ _ hv) (hQ _ hw)

theorem of_none (h : ∀ v, P (pageNumber v) → mappedEntry s.mem pml4 v = none) :
    OwnFrames used pml4 P s where
  data v e hv he := by
    rw [h v hv] at he
    cases he
  inj v w e e' hv _ he := by
    rw [h v hv] at he
    cases he

theorem add (h : OwnFrames used pml4 P s)
    (hfree : ∀ t, FreeFrame s'.frames t → FreeFrame s.frames t)
    (hused : ∀ t, used' t → used t ∨ FreeFrame s.frames t) (hpage : FreeFrame s.frames page)
    (hd : DataFrame used' s'.frames page) (hlook : ∀ w e, mappedEntry s'.mem pml4 w = some e →
      mappedEntry s.mem pml4 w = some e ∨ pageNumber w = pageNumber v ∧ entryFrame e = page) :
    OwnFrames used' pml4 P s' where
  data w e hw he := by
    obtain he | ⟨-, hto⟩ := hlook w e he
    · exact (h.data w e hw he).mono hfree hused
    · rw [hto]
      exact hd
  inj w w' e e' hw hw' he he' hsame := by
    -- a frame that was behind a page is not the one that was free
    have hne : ∀ {w e}, P (pageNumber w) → mappedEntry s.mem pml4 w = some e →
        entryFrame e ≠ page := fun hw he hc => (h.data _ _ hw he).notFree (hc ▸ hpage)
    obtain he | ⟨hn, hto⟩ := hlook w e he
    · obtain he' | ⟨-, hto'⟩ := hlook w' e' he'
      · exact h.inj w w' e e' hw hw' he he' hsame
      · exact absurd (hsame.trans hto') (hne hw he)
    · obtain he' | ⟨hn', -⟩ := hlook w' e' he'
      · exact absurd (hsame.symm.trans hto) (hne hw' he')
      · exact hn.trans hn'.symm

end OwnFrames

theorem entryFrame_map {d : Nat} {flags : BitVec 64} (hd : pageSize ∣ d) (hlt : d < 2 ^ 52)
    (hmask : flags &&& vmmPhysMask = 0) : entryFrame (BitVec.ofNat 64 d ||| flags) = d := by
  rw [entryFrame, BitVec.and_or_distrib_right, hmask, frame_and_mask hd hlt]
  change (BitVec.ofNat 64 d ||| 0#64).toNat = d
  rw [BitVec.or_zero, toNat_ofNat_frame hlt]

theorem TreeOk.translate_dataFrame (h : TreeOk used pml4 s) {e : BitVec 64}
    (he : mappedEntry s.mem pml4 v = some e) (hd : DataFrame used s.frames (entryFrame e)) :
    vmmTranslate s.mem pml4 v ≠ 0 ∧
      (vmmTranslate s.mem pml4 v).toNat / pageSize = entryFrame e / pageSize := by
  have hto : (vmmTranslate s.mem pml4 v).toNat = entryFrame e + (v &&& 0xFFF#64).toNat := by
    rw [h.translate_entry, he]
    exact toNat_frame_or hd.aligned (toNat_offset_lt v)
  refine ⟨fun hz => hd.inRange.1 ?_, ?_⟩
  · rw [hz] at hto
    change 0 = entryFrame e + _ at hto
    omega
  · obtain ⟨k, hk⟩ := hd.aligned
    rw [hto, hk, Nat.mul_add_div (by decide), Nat.div_eq_of_lt (toNat_offset_lt v), Nat.add_zero,
      Nat.mul_div_cancel_left _ (by decide)]

theorem TreeOk.freeTurn (h : TreeOk used pml4 s)
    (hd : ∀ e, mappedEntry s.mem pml4 v = some e → DataFrame used s.frames (entryFrame e))
    (hs' : (if vmmTranslate s.mem pml4 v ≠ 0 then
      freePage (vmmUnmap s pml4 v) (vmmTranslate s.mem pml4 v).toNat else s) = s') :
    TreeOk used pml4 s' ∧
      (∀ q : List (Fin 512), q.length ≤ 3 → Radix.walk childTable (entry s'.mem) pml4 q =
        Radix.walk childTable (entry s.mem) pml4 q) ∧ (∀ w, mappedEntry s'.mem pml4 w =
        if pageNumber w = pageNumber v then none else mappedEntry s.mem pml4 w) ∧
      ∀ t, FreeFrame s'.frames t ↔ FreeFrame s.frames t ∨
        ∃ e, mappedEntry s.mem pml4 v = some e ∧ entryFrame e = t := by
  subst hs'
  cases he : mappedEntry s.mem pml4 v with
  | none =>
    have hz : vmmTranslate s.mem pml4 v = 0 := by rw [h.translate_entry, he, Option.elim_none]
    rw [if_neg (not_not.mpr hz)]
    refine ⟨h, fun _ _ => rfl, fun w => ?_, fun t => by simp⟩
    split
    · next hw => rw [mappedEntry_congr hw, he]
    · rfl
  | some e =>
    obtain ⟨hnz, hphys⟩ := h.translate_dataFrame he (hd e he)
    obtain ⟨htree, hwalk, hlook⟩ := h.unmap_entries v
    have hframes : (DevOs.vmmUnmap s pml4 v).frames = s.frames := by
      rw [vmmUnmap_eq]
      split <;> rfl
    have hdata := hd e he
    rw [← hframes] at hdata ⊢
    rw [if_pos hnz]
    have hfree := hdata.freeFrame_free hphys
    refine ⟨⟨hdata.free_zero hphys htree.supply, htree.tree, fun t ht => ⟨(htree.table t ht).1,
      fun hc => ?_⟩⟩, hwalk, hlook, fun t => (hfree t).trans (by simp [eq_comm])⟩
    obtain hc | rfl := (hfree t).mp hc
    · exact (htree.table t ht).2 hc
    · exact hdata.notTable ht

def tablePaths (vs : List (BitVec 64)) : Finset (List (Fin 512)) :=
  (vs.flatMap fun v => (tablePath v).inits).toFinset

def missingTables (m : Mem) (pml4 : Nat) (vs : List (BitVec 64)) : Finset (List (Fin 512)) :=
  (tablePaths vs).filter fun p => Radix.walk childTable (entry m) pml4 p = none

theorem mem_tablePaths {p : List (Fin 512)} :
    p ∈ tablePaths vs ↔ ∃ v ∈ vs, p <+: tablePath v := by
  simp [tablePaths]

theorem mem_missingTables {p : List (Fin 512)} :
    p ∈ missingTables m pml4 vs ↔
      (∃ v ∈ vs, p <+: tablePath v) ∧ Radix.walk childTable (entry m) pml4 p = none := by
  rw [missingTables, Finset.mem_filter, mem_tablePaths]

theorem missingTables_congr {m m' : Mem}
    (h : ∀ p : List (Fin 512), p.length ≤ 3 → Radix.walk childTable (entry m') pml4 p =
      Radix.walk childTable (entry m) pml4 p) :
    missingTables m' pml4 vs = missingTables m pml4 vs := by
  refine Finset.filter_congr fun p hp => ?_
  obtain ⟨v, -, hpre⟩ := mem_tablePaths.mp hp
  rw [h p hpre.length_le]

theorem card_missingTables_le (m : Mem) (pml4 : Nat) (vs : List (BitVec 64)) :
    (missingTables m pml4 vs).card ≤ (tablePaths vs).card :=
  Finset.card_filter_le _ _

theorem missingTables_lower (h : TreeOk used pml4 (lower pml4 s))
    (hvs : ∀ v ∈ vs, LowerHalf v) :
    missingTables (lowerMem s.mem pml4) pml4 vs = missingTables s.mem pml4 vs := by
  refine Finset.filter_congr fun p hp => ?_
  obtain ⟨v, hv, hpre⟩ := mem_tablePaths.mp hp
  rw [h.walk_lower (hvs v hv) hpre]

theorem missingTables_mono {vs ws : List (BitVec 64)} (h : vs ⊆ ws) :
    missingTables m pml4 vs ⊆ missingTables m pml4 ws := by
  intro p hp
  obtain ⟨⟨v, hv, hpre⟩, hnone⟩ := mem_missingTables.mp hp
  exact mem_missingTables.mpr ⟨⟨v, h hv, hpre⟩, hnone⟩

theorem missingTables_pos (hv : v ∈ vs)
    (h : pageTable m pml4 v = none) : 0 < (missingTables m pml4 vs).card :=
  Finset.card_pos.mpr ⟨tablePath v, mem_missingTables.mpr ⟨⟨v, hv, List.prefix_rfl⟩, h⟩⟩

theorem missingTables_eq_empty (h : ∀ v ∈ vs, ∃ pt, pageTable m pml4 v = some pt) :
    missingTables m pml4 vs = ∅ := by
  refine Finset.eq_empty_of_forall_notMem fun p hp => ?_
  obtain ⟨⟨v, hv, hpre⟩, hnone⟩ := mem_missingTables.mp hp
  obtain ⟨pt, hpt⟩ := h v hv
  obtain ⟨t, ht⟩ := Radix.walk_left hpre hpt
  rw [ht] at hnone
  cases hnone

/-- In an empty address space all tables are missing but the PML4. -/
theorem TreeOk.card_missingTables {s : Phys Pmm} (h : TreeOk (· = pml4) pml4 s) (hvs : vs ≠ []) :
    (missingTables s.mem pml4 vs).card + 1 = (tablePaths vs).card := by
  have hroot : [] ∈ tablePaths vs := by
    obtain ⟨v, hv⟩ := List.exists_mem_of_ne_nil vs hvs
    exact mem_tablePaths.mpr ⟨v, hv, List.nil_prefix⟩
  have herase : missingTables s.mem pml4 vs = (tablePaths vs).erase [] := by
    ext p
    rw [missingTables, Finset.mem_filter, Finset.mem_erase, and_comm]
    refine and_congr_left fun hp => ⟨?_, fun hne => ?_⟩
    · rintro hnone rfl
      cases hnone
    · obtain ⟨v, -, hpre⟩ := mem_tablePaths.mp hp
      by_contra hsome
      obtain ⟨t, ht⟩ := Option.ne_none_iff_exists'.mp hsome
      have hlen : p.length ≤ 3 := hpre.length_le
      obtain rfl : t = pml4 := h.tree.used p t hlen ht
      exact hne (h.tree.inj p [] t hlen (by simp) ht rfl)
  rw [herase, Finset.card_erase_add_one hroot]

theorem mem_clearFrames_iff {g : Nat} : g ∈ clearFrames p.bitmap ↔ FreeFrame p (g * pageSize) := by
  rw [mem_clearFrames, freeFrame_mul_iff]
  rfl

theorem TreeOk.reached (h : TreeOk used pml4 s) : TreeOk (TableOf s.mem pml4) pml4 s where
  supply := h.supply
  tree := ⟨h.tree.inj, fun p _ hp hw => ⟨p, hp, hw⟩, h.tree.mid⟩
  table t ht := by
    obtain ⟨p, hp, hw⟩ := ht
    exact h.table t (h.tree.used p t hp hw)

def tableNumber (m : Mem) (pml4 : Nat) (p : List (Fin 512)) : Nat :=
  (Radix.walk childTable (entry m) pml4 p).getD 0 / pageSize

theorem eq_of_frameNumber {a b : Nat} (ha : pageSize ∣ a) (hb : pageSize ∣ b)
    (hab : a / pageSize = b / pageSize) : a = b := by
  rw [← Nat.div_mul_cancel ha, hab, Nat.div_mul_cancel hb]

/-- **Frames and tables.** `vmm_map` takes a frame for each table that was missing on the way
to the page, and no other. -/
theorem TableGrowth.card_eq (hg : TableGrowth (TableOf s.mem pml4) used' pml4 v s s')
    (h : TreeOk used pml4 s) (h' : TreeOk used' pml4 s') (hv : v ∈ vs) :
    (clearFrames s.frames.bitmap).card + (missingTables s'.mem pml4 vs).card =
      (clearFrames s'.frames.bitmap).card + (missingTables s.mem pml4 vs).card := by
  have hmissing : missingTables s'.mem pml4 vs ⊆ missingTables s.mem pml4 vs := by
    intro p hp
    obtain ⟨⟨w, hw, hpre⟩, hnone⟩ := mem_missingTables.mp hp
    refine mem_missingTables.mpr ⟨⟨w, hw, hpre⟩, ?_⟩
    cases hs : Radix.walk childTable (entry s.mem) pml4 p with
    | none => rfl
    | some t =>
      rw [hg.walk p t hpre.length_le hs] at hnone
      cases hnone
  have hclear : clearFrames s'.frames.bitmap ⊆ clearFrames s.frames.bitmap := fun g hgm =>
    mem_clearFrames_iff.mpr (hg.free _ (mem_clearFrames_iff.mp hgm))
  -- a table that was missing and is there now was a free frame
  have hmade : ∀ p ∈ missingTables s.mem pml4 vs \ missingTables s'.mem pml4 vs, ∃ t,
      p.length ≤ 3 ∧ Radix.walk childTable (entry s'.mem) pml4 p = some t ∧
        FreeFrame s.frames t ∧ ¬ FreeFrame s'.frames t := by
    intro p hp
    obtain ⟨hin, hout⟩ := Finset.mem_sdiff.mp hp
    obtain ⟨⟨w, hw, hpre⟩, hnone⟩ := mem_missingTables.mp hin
    obtain ⟨t, ht⟩ := Option.ne_none_iff_exists'.mp fun hc =>
      hout (mem_missingTables.mpr ⟨⟨w, hw, hpre⟩, hc⟩)
    have hused := h'.tree.used p t hpre.length_le ht
    refine ⟨t, hpre.length_le, ht, (hg.fresh t hused).resolve_left ?_, (h'.table t hused).2⟩
    rintro ⟨q, hq, hwq⟩
    rw [h'.tree.inj p q t hpre.length_le hq ht (hg.walk q t hq hwq), hwq] at hnone
    cases hnone
  have hgone : clearFrames s.frames.bitmap \ clearFrames s'.frames.bitmap =
      (missingTables s.mem pml4 vs \ missingTables s'.mem pml4 vs).image
        (tableNumber s'.mem pml4) := by
    ext g
    rw [Finset.mem_sdiff, Finset.mem_image, mem_clearFrames_iff, mem_clearFrames_iff]
    constructor
    · rintro ⟨hin, hout⟩
      obtain ⟨p, hp, hw⟩ := (hg.took _ hin).resolve_left hout
      refine ⟨p, Finset.mem_sdiff.mpr ⟨mem_missingTables.mpr ⟨⟨v, hv, hp⟩, ?_⟩, fun hc => ?_⟩,
        by rw [tableNumber, hw, Option.getD_some, frame_addr]⟩
      · cases hs : Radix.walk childTable (entry s.mem) pml4 p with
        | none => rfl
        | some t =>
          obtain rfl : t = g * pageSize :=
            Option.some.inj ((hg.walk p t hp.length_le hs).symm.trans hw)
          exact absurd hin (h.table _ (h.tree.used p _ hp.length_le hs)).2
      · rw [(mem_missingTables.mp hc).2] at hw
        cases hw
    · rintro ⟨p, hp, rfl⟩
      obtain ⟨t, -, hw, hin, hout⟩ := hmade p hp
      rw [tableNumber, hw, Option.getD_some, Nat.div_mul_cancel hin.1]
      exact ⟨hin, hout⟩
  have hinj : ((missingTables s.mem pml4 vs \ missingTables s'.mem pml4 vs).image
      (tableNumber s'.mem pml4)).card =
        (missingTables s.mem pml4 vs \ missingTables s'.mem pml4 vs).card := by
    refine Finset.card_image_of_injOn fun p hp q hq hpq => ?_
    obtain ⟨t, hplen, hwp, hft, -⟩ := hmade p hp
    obtain ⟨u, hqlen, hwq, hfu, -⟩ := hmade q hq
    rw [tableNumber, tableNumber, hwp, hwq, Option.getD_some, Option.getD_some] at hpq
    rw [← eq_of_frameNumber hft.1 hfu.1 hpq] at hwq
    exact h'.tree.inj p q t hplen hqlen hwp hwq
  rw [← hgone] at hinj
  have h1 := Finset.card_sdiff_add_card_eq_card hclear
  have h2 := Finset.card_sdiff_add_card_eq_card hmissing
  omega

end DevOs
