import DevOs.Mm.Vmm.AllocRange

/-!
How far a loop that takes and maps one frame after the other gets.
-/

namespace DevOs

open FrameSupply

/-- The pages whose entry names the frame taken for them when `vmm_map` returns. -/
def mappedPages (pml4 : Nat) (flags : BitVec 64) : Nat → BitVec 64 → Phys Pmm → List (BitVec 64)
  | 0, _, _ => []
  | n + 1, va, s =>
    match allocPage s with
    | none => []
    | some (page, s) =>
      let s := vmmMap s pml4 va (BitVec.ofNat 64 page) flags
      let rest := mappedPages pml4 flags n (va + pageBytes) s
      if mappedEntry s.mem pml4 va = some (BitVec.ofNat 64 page ||| flags) then va :: rest
      else rest

/-- There are frames for `n` pages and for the tables that are missing on their way. -/
def Affordable (pml4 : Nat) (va : BitVec 64) (n : Nat) (s : Phys Pmm) : Prop :=
  n + (missingTables s.mem pml4 (pagesFrom va n)).card ≤ (clearFrames s.frames.bitmap).card

variable {used : Nat → Prop} {pml4 page n : Nat} {s s1 s' : Phys Pmm} {va flags : BitVec 64}
  {w : BitVec 64}

theorem affordable_zero (pml4 : Nat) (va : BitVec 64) (s : Phys Pmm) : Affordable pml4 va 0 s :=
  Nat.zero_le _

theorem Affordable.le_free (h : Affordable pml4 va n s) :
    n ≤ (clearFrames s.frames.bitmap).card := by
  unfold Affordable at h
  omega

theorem Affordable.nodup (h : Affordable pml4 va n s) :
    ((pagesFrom va n).map pageNumber).Nodup := by
  refine nodup_pageNumbers va ((h.le_free.trans (card_clearFrames_le _)).trans ?_)
  decide

theorem mappedPages_of_empty (h : clearFrames s.frames.bitmap = ∅) (n : Nat) :
    mappedPages pml4 flags n va s = [] := by
  have hnone : allocPage s = none := allocPage_of_none (clearFrames_eq_empty_iff.mp h)
  cases n with
  | zero => rfl
  | succ n => rw [mappedPages, hnone]

theorem not_affordable_of_empty (h : clearFrames s.frames.bitmap = ∅) {j : Nat} (hj : j ≠ 0) :
    ¬ Affordable pml4 va j s := by
  intro hc
  have hle := hc.le_free
  rw [h, Finset.card_empty] at hle
  omega

variable (h : TreeOk used pml4 s)
include h

section

variable (hp : flags &&& vmmPresent ≠ 0)
include hp

theorem TreeOk.mapped_of_affordable (ha : Affordable pml4 va n s) :
    (allocRangeLoop pml4 flags n va s).1 = true ∧
      ∀ v ∈ pagesFrom va n,
        ∃ d, FreeFrame s.frames d ∧ mappedEntry (allocRangeLoop pml4 flags n va s).2.mem pml4 v =
          some (BitVec.ofNat 64 d ||| flags) := by
  obtain ⟨hok, hmaps⟩ := h.allocRange_maps flags ha.nodup ha
  obtain ⟨used', hpop⟩ := h.populates_range flags va n
  obtain ⟨hlen, hget⟩ := List.forall₂_iff_get.mp hmaps
  refine ⟨hok, fun v hv => ?_⟩
  obtain ⟨i, hi, rfl⟩ := List.getElem_of_mem hv
  have hi' : i < (allocRangeFrames pml4 flags n va s).length := hlen ▸ hi
  refine ⟨_, (hpop.data _ (List.getElem_mem hi')).1, ?_⟩
  exact (hget i hi hi').trans (leafEntry_map hp)

theorem TreeOk.affordable_succ_iff (ha : allocPage s = some (page, s1))
    (hs' : DevOs.vmmMap s1 pml4 va (BitVec.ofNat 64 page) flags = s')
    (hmap : mappedEntry s'.mem pml4 va = some (BitVec.ofNat 64 page ||| flags)) :
    Affordable pml4 va (n + 1) s ↔ Affordable pml4 (va + pageBytes) n s' := by
  constructor
  · intro hall
    obtain ⟨page', s1', s'', used', ha', hs'', -, -, hrest⟩ := h.populates_page_maps flags hall
    rw [ha] at ha'
    cases ha'
    rw [hs'] at hs''
    cases hs''
    exact hrest
  · intro hrest
    obtain ⟨used', hpop, -⟩ := h.populates_page va flags ha hs'
    have hnz : page ≠ 0 :=
      (tableFrame h.supply (hpop.data page (List.mem_singleton_self page)).1).nonzero
    obtain ⟨hok, hmaps⟩ := hpop.tree.mapped_of_affordable hp hrest
    obtain ⟨used2, hpop2⟩ := hpop.tree.populates_range flags (va + pageBytes) n
    -- the whole range is mapped, so its frames and tables were free
    have hloop : allocRangeLoop pml4 flags (n + 1) va s =
        allocRangeLoop pml4 flags n (va + pageBytes) s' := by
      rw [(allocRangeLoop_of_some ha hnz n).1, hs']
    obtain ⟨used3, hall⟩ := h.reached.populates_range flags va (n + 1)
    have hcard := hall.card_le fun v hv => ?_
    · rwa [length_allocRangeFrames (by rw [hloop]; exact hok)] at hcard
    · rw [hloop]
      obtain rfl | hv := List.mem_cons.mp hv
      · obtain ⟨-, pt, hpt, -⟩ := mappedEntry_eq_some hmap
        rw [pageTable, hpop2.mid.walk (length_tablePath v).le hpt]
        exact Option.some_ne_none pt
      · obtain ⟨d, -, hd⟩ := hmaps v hv
        obtain ⟨-, pt, hpt, -⟩ := mappedEntry_eq_some hd
        rw [hpt]
        exact Option.some_ne_none pt

theorem TreeOk.mappedPages_eq : ∃ k ≤ n, mappedPages pml4 flags n va s = pagesFrom va k ∧
      ∀ j ≤ n, Affordable pml4 va j s ↔ j ≤ k := by
  induction n generalizing used s va with
  | zero =>
    refine ⟨0, Nat.le_refl 0, rfl, fun j hj => ?_⟩
    rw [Nat.le_zero.mp hj]
    exact iff_of_true (affordable_zero pml4 va s) (Nat.le_refl 0)
  | succ n ih =>
    have hnothing : mappedPages pml4 flags (n + 1) va s = [] →
        (∀ j, j ≠ 0 → ¬ Affordable pml4 va j s) →
        ∃ k ≤ n + 1, mappedPages pml4 flags (n + 1) va s = pagesFrom va k ∧
          ∀ j ≤ n + 1, Affordable pml4 va j s ↔ j ≤ k := by
      intro hnil hnot
      refine ⟨0, Nat.zero_le _, hnil, fun j _ => ?_⟩
      by_cases hj : j = 0
      · rw [hj]
        exact iff_of_true (affordable_zero pml4 va s) (Nat.le_refl 0)
      · exact iff_of_false (hnot j hj) (by omega)
    cases ha : allocPage s with
    | none =>
      have hempty := clearFrames_eq_empty_iff.mpr (allocPage_eq_none ha)
      exact hnothing (mappedPages_of_empty hempty _) fun j hj => not_affordable_of_empty hempty hj
    | some r =>
      obtain ⟨page, s1⟩ := r
      obtain ⟨s', hs'⟩ : ∃ s', DevOs.vmmMap s1 pml4 va (BitVec.ofNat 64 page) flags = s' :=
        ⟨_, rfl⟩
      obtain ⟨used', hpop, -, ⟨hnone, htable, -⟩ | hmap⟩ := h.populates_page va flags ha hs'
      · -- no frame is left for a table, and so none for the next page
        have hempty := clearFrames_eq_empty_iff.mpr hnone
        have hentry := mappedEntry_of_none htable
        refine hnothing ?_ fun j hj haff => ?_
        · rw [mappedPages, ha]
          dsimp only
          rw [hs', hentry, if_neg (by simp), mappedPages_of_empty hempty]
        · obtain ⟨i, rfl⟩ := Nat.exists_eq_succ_of_ne_zero hj
          obtain ⟨page', s1', s'', -, ha', hs'', -, hm, -⟩ := h.populates_page_maps flags haff
          rw [ha] at ha'
          cases ha'
          rw [hs'] at hs''
          cases hs''
          rw [hentry, leafEntry_map hp] at hm
          cases hm
      · rw [leafEntry_map hp] at hmap
        obtain ⟨k, hk, heq, hiff⟩ := @ih used' s' (va + pageBytes) hpop.tree
        refine ⟨k + 1, Nat.succ_le_succ hk, ?_, fun j hj => ?_⟩
        · rw [mappedPages, ha]
          dsimp only
          rw [hs', if_pos hmap, heq, pagesFrom]
        · cases j with
          | zero => exact iff_of_true (affordable_zero pml4 va s) (Nat.zero_le _)
          | succ j =>
            rw [h.affordable_succ_iff hp ha hs' hmap, hiff j (by omega)]
            omega

end

theorem TreeOk.le_free_of_loop (hloop : (allocRangeLoop pml4 flags n va s).1 = true) :
    n ≤ (clearFrames s.frames.bitmap).card := by
  obtain ⟨used', hpop⟩ := h.populates_range flags va n
  rw [← length_allocRangeFrames hloop, ← hpop.card_frameNumbers]
  exact Finset.card_le_card hpop.frameNumbers_subset

theorem TreeOk.translate_ne_zero {v : BitVec 64} {d : Nat}
    (hd : TableFrame d) (hmask : flags &&& vmmPhysMask = 0)
    (he : mappedEntry s.mem pml4 v = some (BitVec.ofNat 64 d ||| flags)) :
    vmmTranslate s.mem pml4 v ≠ 0 := by
  have hframe := entryFrame_map hd.aligned hd.small hmask
  generalize BitVec.ofNat 64 d ||| flags = e at he hframe
  subst hframe
  have hto : (vmmTranslate s.mem pml4 v).toNat = entryFrame e + (v &&& 0xFFF#64).toNat := by
    rw [h.translate_entry, he]
    exact toNat_frame_or hd.aligned (toNat_offset_lt v)
  intro hz
  rw [hz] at hto
  exact hd.nonzero (Nat.eq_zero_of_add_eq_zero_right hto.symm)

theorem TreeOk.translate_kept (flags : BitVec 64)
    (hw : pageNumber w ∉ (pagesFrom va n).map pageNumber) :
    vmmTranslate (allocRangeLoop pml4 flags n va s).2.mem pml4 w = vmmTranslate s.mem pml4 w := by
  obtain ⟨used', hpop⟩ := h.populates_range flags va n
  rw [hpop.tree.translate_entry, h.translate_entry, hpop.other w hw]

theorem TreeOk.translate_of_affordable (hp : flags &&& vmmPresent ≠ 0)
    (hmask : flags &&& vmmPhysMask = 0) (ha : Affordable pml4 va n s)
    (hw : pageNumber w ∈ (pagesFrom va n).map pageNumber) :
    vmmTranslate (allocRangeLoop pml4 flags n va s).2.mem pml4 w ≠ 0 := by
  obtain ⟨v, hv, hvw⟩ := List.mem_map.mp hw
  obtain ⟨d, hd, he⟩ := (h.mapped_of_affordable hp ha).2 v hv
  obtain ⟨used', hpop⟩ := h.populates_range flags va n
  refine hpop.tree.translate_ne_zero (tableFrame h.supply hd) hmask ?_
  rw [mappedEntry_congr hvw.symm]
  exact he

theorem TreeOk.unmapped_of_not_affordable (hloop : (allocRangeLoop pml4 flags n va s).1 = true)
    (hna : ¬ Affordable pml4 va n s) : ∃ v ∈ pagesFrom va n, ∀ w, pageNumber w = pageNumber v →
      vmmTranslate (allocRangeLoop pml4 flags n va s).2.mem pml4 w = 0 := by
  by_contra hall
  obtain ⟨used', hpop⟩ := h.reached.populates_range flags va n
  have hcard := hpop.card_le fun v hv htable => hall ⟨v, hv, fun w hw => ?_⟩
  · rw [length_allocRangeFrames hloop] at hcard
    exact hna hcard
  · rw [hpop.tree.translate_entry, mappedEntry_congr hw, mappedEntry_of_none htable]
    rfl

end DevOs
