import DevOs.Mm.Pmm.Reserved
import DevOs.Mm.Vmm.Populate

/-!
What the result of `vmm_alloc_range` says.
-/

namespace DevOs

open ByteMem

theorem toNat_pageNumber_sub (virt : BitVec 64) {x : Nat} (hx : x < 2 ^ 47) :
    (pageNumber (virt + BitVec.ofNat 64 x) - pageNumber virt).toNat =
      (virt.toNat % 4096 + x) / 4096 := by
  rw [BitVec.toNat_sub, toNat_pageNumber_add, toNat_pageNumber]
  omega

theorem pageNumber_add_eq_iff (virt : BitVec 64) {x y : Nat} (hx : x < 2 ^ 47) (hy : y < 2 ^ 47) :
    pageNumber (virt + BitVec.ofNat 64 x) = pageNumber (virt + BitVec.ofNat 64 y) ↔
      (virt.toNat % 4096 + x) / 4096 = (virt.toNat % 4096 + y) / 4096 := by
  rw [← BitVec.toNat_inj, toNat_pageNumber_add, toNat_pageNumber_add]
  omega

theorem exists_of_mem_pages {virt : BitVec 64} {size : Nat} {k : BitVec 36}
    (hk : k ∈ (pagesFrom virt ((size + 4095) / 4096)).map pageNumber) :
    ∃ x < size, pageNumber (virt + BitVec.ofNat 64 x) = k := by
  obtain ⟨v, hv, rfl⟩ := List.mem_map.mp hk
  obtain ⟨i, hi, rfl⟩ := mem_pagesFrom.mp hv
  rw [pageSize_eq]
  exact ⟨i * 4096, by omega, rfl⟩

theorem mem_pages_of_lt {virt : BitVec 64} {size n x : Nat}
    (hin : virt.toNat % 4096 + size ≤ n * 4096) (hx : x < size) :
    pageNumber (virt + BitVec.ofNat 64 x) ∈ (pagesFrom virt n).map pageNumber := by
  refine List.mem_map.mpr ⟨_, mem_pagesFrom.mpr ⟨(virt.toNat % 4096 + x) / 4096, by omega, rfl⟩, ?_⟩
  apply BitVec.eq_of_toNat_eq
  rw [toNat_pageNumber_add, toNat_pageNumber_add, pageSize_eq]
  omega

theorem present_of_or {d : Nat} {flags : BitVec 64} (hd : pageSize ∣ d)
    (hp : (BitVec.ofNat 64 d ||| flags) &&& vmmPresent ≠ 0) : flags &&& vmmPresent ≠ 0 := by
  intro hc
  refine hp ((and_present_eq_zero_iff _).mpr ?_)
  obtain ⟨k, rfl⟩ := hd
  have heven : (pageSize * k) % 2 = 0 := by
    rw [pageSize_eq]
    omega
  rw [BitVec.getLsbD_or, (and_present_eq_zero_iff _).mp hc, BitVec.getLsbD_ofNat,
    Nat.testBit_zero, heven]
  rfl

def RangeMapped (m : Mem) (pml4 : Nat) (virt : BitVec 64) (size : Nat) (flags : BitVec 64)
    (ds : List Nat) : Prop :=
  ∃ g : BitVec 36 → Nat,
    (∀ x < size, g (pageNumber (virt + BitVec.ofNat 64 x)) ∈ ds ∧
      mappedEntry m pml4 (virt + BitVec.ofNat 64 x) =
        some (BitVec.ofNat 64 (g (pageNumber (virt + BitVec.ofNat 64 x))) ||| flags)) ∧
    ∀ x < size, ∀ y < size, g (pageNumber (virt + BitVec.ofNat 64 x)) =
        g (pageNumber (virt + BitVec.ofNat 64 y)) →
      pageNumber (virt + BitVec.ofNat 64 x) = pageNumber (virt + BitVec.ofNat 64 y)

variable {used : Nat → Prop} {pml4 size : Nat} {s : Phys Pmm} {virt flags : BitVec 64} {m : Mem}
  {ds : List Nat}

theorem inside_of_injective {g : BitVec 36 → Nat}
    (hmem : ∀ x < size, g (pageNumber (virt + BitVec.ofNat 64 x)) ∈ ds)
    (hinj : ∀ x < size, ∀ y < size, g (pageNumber (virt + BitVec.ofNat 64 x)) =
        g (pageNumber (virt + BitVec.ofNat 64 y)) →
      pageNumber (virt + BitVec.ofNat 64 x) = pageNumber (virt + BitVec.ofNat 64 y))
    (hpos : 0 < size) (hsize : size ≤ 2 ^ 46) (hlen : ds.length = (size + 4095) / 4096) :
    virt.toNat % 4096 + size ≤ ds.length * 4096 := by
  by_contra hc
  -- the first address of each whole page, and the last address of the range
  have hat : ∀ i < ds.length + 1, ∃ x < size, (virt.toNat % 4096 + x) / 4096 = i := by
    intro i hi
    by_cases hlast : i = ds.length
    · exact ⟨size - 1, by omega, by omega⟩
    · exact ⟨i * 4096, by omega, by omega⟩
  choose! x hx hpage using hat
  have hcard : (Finset.range (ds.length + 1)).card ≤ ds.toFinset.card := by
    refine Finset.card_le_card_of_injOn (fun i => g (pageNumber (virt + BitVec.ofNat 64 (x i))))
      (fun i hi => ?_) fun i hi j hj hij => ?_
    · exact List.mem_toFinset.mpr (hmem _ (hx i (Finset.mem_range.mp hi)))
    · have hi := Finset.mem_range.mp hi
      have hj := Finset.mem_range.mp hj
      have hsame := hinj _ (hx i hi) _ (hx j hj) hij
      rwa [pageNumber_add_eq_iff virt ((hx i hi).trans_le (by omega))
        ((hx j hj).trans_le (by omega)), hpage i hi, hpage j hj] at hsame
  have hle := hcard.trans (List.toFinset_card_le ds)
  rw [Finset.card_range] at hle
  omega

/-- The frame of a page, when the pages from `virt` on have been given the frames `ds`. -/
def rangeFrame (virt : BitVec 64) (ds : List Nat) (k : BitVec 36) : Nat :=
  ds.getD (k - pageNumber virt).toNat 0

theorem rangeFrame_page {x : Nat} (hx : x < 2 ^ 47)
    (hi : (virt.toNat % 4096 + x) / 4096 < ds.length) :
    rangeFrame virt ds (pageNumber (virt + BitVec.ofNat 64 x)) =
      ds[(virt.toNat % 4096 + x) / 4096] := by
  rw [rangeFrame, toNat_pageNumber_sub virt hx, List.getD, List.getElem?_eq_getElem hi,
    Option.getD_some]

theorem RangeMapped.of_forall₂ {n : Nat} (hnodup : ds.Nodup) (hp : flags &&& vmmPresent ≠ 0)
    (hmaps : List.Forall₂ (fun v d => mappedEntry m pml4 v =
      leafEntry (BitVec.ofNat 64 d ||| flags)) (pagesFrom virt n) ds)
    (hsize : size ≤ 2 ^ 46) (hin : virt.toNat % 4096 + size ≤ n * 4096) :
    RangeMapped m pml4 virt size flags ds := by
  obtain ⟨hlen, hget⟩ := List.forall₂_iff_get.mp hmaps
  rw [length_pagesFrom] at hlen
  have hidx : ∀ x < size, (virt.toNat % 4096 + x) / 4096 < ds.length := fun x hx => by omega
  refine ⟨rangeFrame virt ds, fun x hx => ?_, fun x hx y hy hxy => ?_⟩
  · have hi := hidx x hx
    rw [rangeFrame_page (by omega) hi]
    refine ⟨List.getElem_mem hi, ?_⟩
    have hpage := hget _ (by rw [length_pagesFrom, hlen]; exact hi) hi
    rw [List.get_eq_getElem, List.get_eq_getElem, leafEntry_map hp] at hpage
    rw [← hpage]
    refine mappedEntry_congr ?_
    simp only [pagesFrom_eq_map, List.getElem_map, List.getElem_range]
    rw [pageNumber_add_eq_iff virt (by omega) (by rw [pageSize_eq]; omega), pageSize_eq]
    omega
  · rw [rangeFrame_page (by omega) (hidx x hx), rangeFrame_page (by omega) (hidx y hy),
      hnodup.getElem_inj_iff] at hxy
    exact (pageNumber_add_eq_iff virt (by omega) (by omega)).mpr hxy

/-- **`vmm_alloc_range`** that returns 0 has mapped the range if and only if there were
frames for the pages and for the missing tables, and the range is no longer than the pages
counted for its size. -/
theorem rangeMapped_iff (h : TreeOk used pml4 s) (hsize : size ≤ 2 ^ 46)
    (hret : (vmmAllocRange s pml4 virt size flags).1 = true) :
    RangeMapped (vmmAllocRange s pml4 virt size flags).2.mem pml4 virt size flags
        (allocRangeFrames pml4 flags (pageCount size) virt s) ↔
      size = 0 ∨ flags &&& vmmPresent ≠ 0 ∧
        virt.toNat % pageSize + size ≤ pageCount size * pageSize ∧
        pageCount size + (missingTables s.mem pml4 (pagesFrom virt (pageCount size))).card ≤
          (clearFrames s.frames.bitmap).card := by
  have hn : pageCount size = (size + 4095) / 4096 := pageCount_of_lt (by omega)
  have hlen := length_allocRangeFrames hret
  obtain ⟨used', hpop⟩ := h.reached.populates_range flags virt (pageCount size)
  constructor
  · intro hmapped
    by_cases hz : size = 0
    · exact .inl hz
    have hpos : 0 < size := Nat.pos_of_ne_zero hz
    refine .inr ⟨?_, ?_, ?_⟩
    · obtain ⟨g, hmaps, -⟩ := hmapped
      obtain ⟨hd, he⟩ := hmaps 0 hpos
      exact present_of_or (hpop.data _ hd).1.1 (mappedEntry_eq_some he).1
    · obtain ⟨g, hmaps, hinj⟩ := hmapped
      have hin := inside_of_injective (fun x hx => (hmaps x hx).1) hinj hpos hsize
        (by rw [hlen, hn])
      rwa [hlen] at hin
    · have hcard := hpop.card_le fun v hv hnone => ?_
      · rwa [hlen] at hcard
      obtain ⟨i, hi, rfl⟩ := mem_pagesFrom.mp hv
      obtain ⟨g, hmaps, -⟩ := hmapped
      have he := (hmaps (i * pageSize) (by rw [pageSize_eq]; omega)).2
      obtain ⟨-, pt, hpt, -⟩ := mappedEntry_eq_some he
      cases hpt.symm.trans hnone
  · rintro (rfl | ⟨hp, hin, hcount⟩)
    · exact ⟨fun _ => 0, fun x hx => absurd hx (Nat.not_lt_zero x),
        fun x hx => absurd hx (Nat.not_lt_zero x)⟩
    · have hmaps := (h.allocRange_maps flags (nodup_pageNumbers virt (by omega)) hcount).2
      exact .of_forall₂ hpop.nodup hp hmaps hsize hin

/-- Empty memory, with an empty PML4 at 0x200000 below `n` free frames. -/
def emptyMachine (n : Nat) : Phys Pmm :=
  ⟨fun _ => 0, pmmInit [⟨0x201000, n * pageSize, 1⟩] 0x101000⟩

theorem clear_emptyMachine {n f : Nat} (hn : n < 0x1000) :
    frameUsed (emptyMachine n).frames f = false ↔ 0x201 ≤ f ∧ f < 0x201 + n := by
  have hfin : E820Entry.fin ⟨0x201000, n * pageSize, 1⟩ = (0x201 + n) * 4096 := by
    rw [E820Entry.fin, alignDown, pageSize_eq]
    dsimp only
    omega
  have hcovers : E820Entry.Covers ⟨0x201000, n * pageSize, 1⟩ f ↔ 0x201 ≤ f ∧ f < 0x201 + n := by
    rw [E820Entry.Covers, and_iff_right rfl, hfin, E820Entry.start,
      show alignUp 0x201000 pageSize = 0x201000 by decide, pageSize_eq]
    omega
  have hkernel : KernelFrame 0x101000 f ↔ f = 0x100 := by
    rw [KernelFrame, show alignUp 0x101000 pageSize = 0x101000 by decide,
      show kernelStart = 0x100000 by decide, pageSize_eq]
    omega
  rw [emptyMachine, clear_pmmInit_iff, hkernel, show pmmMaxFrames = 1048576 by decide]
  simp only [List.mem_singleton, exists_eq_left, hcovers]
  omega

theorem treeOk_emptyMachine {n : Nat} (hn : n < 0x1000) :
    TreeOk (· = 0x200000) 0x200000 (emptyMachine n) := by
  have hused : ∀ {f}, f < 0x201 → frameUsed (emptyMachine n).frames f = true := by
    intro f hf
    rw [← Bool.not_eq_false, clear_emptyMachine hn]
    omega
  refine ⟨hused (by decide), .empty (fun i => ?_) rfl, ?_⟩
  · rw [emptyMachine, entry, load_eq_zero fun _ _ _ => rfl]
    exact childTable_zero
  · rintro t rfl
    refine ⟨⟨by decide, by decide, by decide⟩, fun hf => ?_⟩
    have hclear : frameUsed (emptyMachine n).frames 0x200 = false := hf.2.2
    rw [hused (by decide)] at hclear
    cases hclear

theorem mappedEntry_emptyMachine (n : Nat) (v : BitVec 64) :
    mappedEntry (emptyMachine n).mem 0x200000 v = none := by
  refine mappedEntry_of_none ?_
  rw [pageTable, tablePath, Radix.walk, emptyMachine, entry, load_eq_zero fun _ _ _ => rfl]
  rfl

theorem card_clearFrames_emptyMachine {n : Nat} (hn : n < 0x1000) :
    (clearFrames (emptyMachine n).frames.bitmap).card = n := by
  have heq : clearFrames (emptyMachine n).frames.bitmap = Finset.Ico 0x201 (0x201 + n) := by
    ext f
    rw [mem_clearFrames, Finset.mem_Ico, ← clear_emptyMachine hn]
    refine and_iff_right_of_imp fun hf => ?_
    rw [show Bitmap.test _ f = _ from rfl] at hf
    have hlt := ((clear_emptyMachine hn).mp hf).2
    exact hlt.trans (Nat.lt_of_lt_of_le (Nat.add_lt_add_left hn _) (by decide))
  rw [heq, Nat.card_Ico]
  omega

theorem vmmAllocRange_emptyMachine_one :
    (vmmAllocRange (emptyMachine 1) 0x200000 0x400000#64 0x1000 vmmUserRw).1 = true ∧
      mappedEntry (vmmAllocRange (emptyMachine 1) 0x200000 0x400000#64 0x1000 vmmUserRw).2.mem
        0x200000 0x400000#64 = none := by
  decide +kernel

/-- **With one frame left** the call succeeds, and the page is not mapped. -/
theorem vmmAllocRange_maps_nothing :
    TreeOk (· = 0x200000) 0x200000 (emptyMachine 1) ∧
      (vmmAllocRange (emptyMachine 1) 0x200000 0x400000#64 0x1000 vmmUserRw).1 = true ∧
      ¬ RangeMapped (vmmAllocRange (emptyMachine 1) 0x200000 0x400000#64 0x1000 vmmUserRw).2.mem
        0x200000 0x400000#64 0x1000 vmmUserRw
        (allocRangeFrames 0x200000 vmmUserRw (pageCount 0x1000) 0x400000#64 (emptyMachine 1)) := by
  obtain ⟨hret, hnone⟩ := vmmAllocRange_emptyMachine_one
  refine ⟨treeOk_emptyMachine (by decide), hret, ?_⟩
  rintro ⟨g, hmaps, -⟩
  have he := (hmaps 0 (by decide)).2
  rw [show 0x400000#64 + BitVec.ofNat 64 0 = 0x400000#64 from rfl, hnone] at he
  cases he

theorem rangeMapped_emptyMachine_four :
    (vmmAllocRange (emptyMachine 4) 0x200000 0x400000#64 0x1000 vmmUserRw).1 = true ∧
      RangeMapped (vmmAllocRange (emptyMachine 4) 0x200000 0x400000#64 0x1000 vmmUserRw).2.mem
        0x200000 0x400000#64 0x1000 vmmUserRw
        (allocRangeFrames 0x200000 vmmUserRw (pageCount 0x1000) 0x400000#64 (emptyMachine 4)) := by
  have htree := treeOk_emptyMachine (n := 4) (by decide)
  refine ⟨?ret, (rangeMapped_iff htree (by decide) ?ret).mpr (.inr ⟨by decide, by decide, ?_⟩)⟩
  · decide +kernel
  · have hthree := card_missingTables_le_three (emptyMachine 4).mem 0x200000
      (pagesFrom 0x400000#64 (pageCount 0x1000))
    rw [length_pagesFrom, show pageCount 0x1000 = 1 by decide] at hthree
    rw [card_clearFrames_emptyMachine (by decide), show pageCount 0x1000 = 1 by decide]
    omega

end DevOs
