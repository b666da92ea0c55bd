import DevOs.Mm.Vmm.FreeRange
import DevOs.Syscall.MmapResult

/-!
What `sys_munmap` leaves.
-/

namespace DevOs

def UserPage (k : BitVec 36) : Prop := k.toNat < 2 ^ 35

def OwnPages (pml4 : Nat) (s : Phys Pmm) : Prop :=
  ∃ used, TreeOk used pml4 s ∧ OwnFrames used pml4 UserPage s

def Touches (addr : BitVec 64) (length : Nat) (k : BitVec 36) : Prop :=
  ∃ x < length, pageNumber (addr + BitVec.ofNat 64 x) = k

/-- The pages of the region are unmapped, their frames have been given back once each, and
the other pages are as before. -/
structure MunmapDone (s s' : Phys Pmm) (pml4 : Nat) (addr : BitVec 64) (length : Nat)
    (calls : List Nat) : Prop where
  gone : ∀ w, Touches addr length (pageNumber w) → mappedEntry s'.mem pml4 w = none
  once : ∀ w e, Touches addr length (pageNumber w) → mappedEntry s.mem pml4 w = some e →
    FreeFrame s'.frames (entryFrame e) ∧
      (calls.map (· / pageSize)).count (entryFrame e / pageSize) = 1
  other : ∀ w, ¬ Touches addr length (pageNumber w) →
    mappedEntry s'.mem pml4 w = mappedEntry s.mem pml4 w

variable {used : Nat → Prop} {pml4 n : Nat} {s s' : Phys Pmm} {t : UserTask}
  {addr length va : BitVec 64} {P : BitVec 36 → Prop} {size : Nat}

theorem OwnPages.allocRange (h : OwnPages pml4 s) (flags va : BitVec 64) (n : Nat)
    (hmask : flags &&& vmmPhysMask = 0) : OwnPages pml4 (allocRangeLoop pml4 flags n va s).2 := by
  obtain ⟨used, htree, hown⟩ := h
  obtain ⟨used', hpop⟩ := htree.populates_range flags va n
  exact ⟨used', hpop.tree, hpop.own hmask UserPage hown⟩

theorem OwnPages.touched (h : OwnPages pml4 s) (hend : addr.toNat + n ≤ 2 ^ 47) :
    ∃ used, TreeOk used pml4 s ∧ OwnFrames used pml4 (Touches addr n) s := by
  obtain ⟨used, htree, hown⟩ := h
  refine ⟨used, htree, hown.mono ?_⟩
  rintro k ⟨x, hx, rfl⟩
  rw [UserPage, toNat_pageNumber_add]
  omega

theorem OwnFrames.count_eq_one (ho : OwnFrames used pml4 P s)
    (hP : ∀ v ∈ pagesFrom va n, P (pageNumber v))
    (hnodup : ((pagesFrom va n).map pageNumber).Nodup) {w e : BitVec 64}
    (hw : pageNumber w ∈ (pagesFrom va n).map pageNumber) (he : mappedEntry s.mem pml4 w = some e) :
    ((pagesFrom va n).filterMap (pageFrameNumber s.mem pml4)).count (entryFrame e / pageSize) =
      1 := by
  have hframe : ∀ {v g}, v ∈ pagesFrom va n → pageFrameNumber s.mem pml4 v = some g →
      ∃ e', mappedEntry s.mem pml4 v = some e' ∧ entryFrame e' = g * pageSize := by
    intro v g hv hg
    obtain ⟨e', he', rfl⟩ := Option.map_eq_some_iff.mp hg
    exact ⟨e', he', (Nat.div_mul_cancel (ho.data v e' (hP v hv) he').aligned).symm⟩
  refine List.count_eq_one_of_mem ?_ ?_
  · refine List.Pairwise.filterMap (pageFrameNumber s.mem pml4) ?_
      (List.Pairwise.and_mem.mp (List.pairwise_map.mp hnodup))
    rintro v u ⟨hv, hu, hne⟩ g hg g' hg' rfl
    obtain ⟨e1, he1, h1⟩ := hframe hv hg
    obtain ⟨e2, he2, h2⟩ := hframe hu hg'
    exact hne (ho.inj v u e1 e2 (hP v hv) (hP u hu) he1 he2 (h1.trans h2.symm))
  · obtain ⟨v, hv, hpage⟩ := List.mem_map.mp hw
    refine List.mem_filterMap.mpr ⟨v, hv, ?_⟩
    rw [pageFrameNumber, mappedEntry_congr hpage, he, Option.map_some]

theorem touches_iff {addr : BitVec 64} {k : BitVec 36} (hpos : 0 < size) :
    Touches addr size k ↔ k ∈ (pagesFrom addr ((size + 4095) / 4096)).map pageNumber ∨
      k = pageNumber (addr + BitVec.ofNat 64 (size - 1)) := by
  constructor
  · rintro ⟨x, hx, rfl⟩
    by_cases hlt : (addr.toNat % 4096 + x) / 4096 < (size + 4095) / 4096
    · exact .inl (mem_pages_of_lt (by omega) (Nat.lt_succ_self x))
    · refine .inr (BitVec.eq_of_toNat_eq ?_)
      rw [toNat_pageNumber_add, toNat_pageNumber_add]
      omega
  · rintro (hk | rfl)
    · exact exists_of_mem_pages hk
    · exact ⟨size - 1, by omega, rfl⟩

theorem last_mem_pages_iff (addr : BitVec 64) (hpos : 0 < size)
    (hsize : size ≤ 2 ^ 47) : pageNumber (addr + BitVec.ofNat 64 (size - 1)) ∈
        (pagesFrom addr ((size + 4095) / 4096)).map pageNumber ↔
      addr.toNat % 4096 + size ≤ (size + 4095) / 4096 * 4096 := by
  constructor
  · intro hk
    obtain ⟨v, hv, hpage⟩ := List.mem_map.mp hk
    obtain ⟨i, hi, rfl⟩ := mem_pagesFrom.mp hv
    have hto := congrArg BitVec.toNat hpage
    rw [toNat_pageNumber_add, toNat_pageNumber_add, pageSize_eq] at hto
    omega
  · exact fun hin => mem_pages_of_lt hin (by omega)

theorem sysMunmap_returns (hr : sysMunmap s t addr length = (0, s')) :
    0 < length.toNat ∧ freeRangeLoop t.cr3 (pageCount length.toNat) addr s = s' := by
  unfold sysMunmap at hr
  split at hr
  · exact absurd (Prod.mk.inj hr).1 (by decide)
  · next hc =>
      refine ⟨Nat.pos_of_ne_zero fun hz => hc (.inr (BitVec.eq_of_toNat_eq hz)), ?_⟩
      exact (Prod.mk.inj hr).2

/-- **`sys_munmap`** that returns 0 has done its work if and only if the region is no longer
than the pages counted for its length, or its last page was not mapped. -/
theorem munmapDone_iff (h : TreeOk used t.cr3 s)
    (hown : OwnFrames used t.cr3 (Touches addr length.toNat) s)
    (hend : addr.toNat + length.toNat ≤ 2 ^ 47) (hr : sysMunmap s t addr length = (0, s')) :
    MunmapDone s s' t.cr3 addr length.toNat
        (freeRangeCalls t.cr3 (pageCount length.toNat) addr s) ↔
      addr.toNat % pageSize + length.toNat ≤ pageCount length.toNat * pageSize ∨
        mappedEntry s.mem t.cr3 (addr + BitVec.ofNat 64 (length.toNat - 1)) = none := by
  obtain ⟨hpos, hloop⟩ := sysMunmap_returns hr
  have hn : pageCount length.toNat = (length.toNat + 4095) / 4096 := pageCount_of_lt (by omega)
  rw [hn] at hloop ⊢
  have hP : ∀ v ∈ pagesFrom addr ((length.toNat + 4095) / 4096),
      Touches addr length.toNat (pageNumber v) := fun v hv =>
    exists_of_mem_pages (List.mem_map_of_mem hv)
  have hnodup := nodup_pageNumbers addr (n := (length.toNat + 4095) / 4096) (by omega)
  have hrel := h.releases_range hown _ hP
  rw [hloop] at hrel
  have hlast := last_mem_pages_iff addr hpos (by omega)
  rw [pageSize_eq, ← hlast]
  constructor
  · intro hdone
    refine or_iff_not_imp_left.mpr fun hout => ?_
    rw [← hrel.other _ hout]
    exact hdone.gone _ ⟨length.toNat - 1, by omega, rfl⟩
  · intro hcond
    -- a page that is not visited is not mapped
    have hvisited : ∀ w e, Touches addr length.toNat (pageNumber w) →
        mappedEntry s.mem t.cr3 w = some e →
        pageNumber w ∈ (pagesFrom addr ((length.toNat + 4095) / 4096)).map pageNumber := by
      intro w e hw he
      obtain hk | hk := (touches_iff hpos).mp hw
      · exact hk
      · rw [hk]
        refine hcond.resolve_right fun hnone => ?_
        rw [mappedEntry_congr hk, hnone] at he
        cases he
    refine ⟨fun w hw => ?_, fun w e hw he => ⟨?_, ?_⟩, fun w hw => hrel.other w fun hc =>
      hw (exists_of_mem_pages hc)⟩
    · cases he : mappedEntry s'.mem t.cr3 w with
      | none => rfl
      | some e =>
        obtain ⟨hout, he⟩ := hrel.of_mapped he
        exact absurd (hvisited w e hw he) hout
    · obtain ⟨v, hv, hpage⟩ := List.mem_map.mp (hvisited w e hw he)
      rw [← mappedEntry_congr hpage] at he
      exact (hrel.free _).mpr (.inr ⟨v, hv, e, he, rfl⟩)
    · rw [h.freeRangeCalls_eq hown _ hP hnodup]
      exact hown.count_eq_one hP hnodup (hvisited w e hw he) he

/-- Memory after two pages have been mapped for `bareUser`. -/
def twoPages : Phys Pmm :=
  (allocRangeLoop 0x200000 (vmmUserRw ||| vmmNoExec) 2 0x0000500000000000#64 (emptyMachine 8)).2

theorem ownPages_twoPages : OwnPages 0x200000 twoPages := by
  have hempty : OwnPages 0x200000 (emptyMachine 8) :=
    ⟨_, treeOk_emptyMachine (by decide), .of_none fun v _ => mappedEntry_emptyMachine 8 v⟩
  exact hempty.allocRange (vmmUserRw ||| vmmNoExec) 0x0000500000000000#64 2 (by decide)

theorem munmapDone_twoPages :
    ∃ s', sysMunmap twoPages bareUser 0x0000500000000000#64 0x2000#64 = (0, s') ∧
      MunmapDone twoPages s' 0x200000 0x0000500000000000#64 0x2000
        (freeRangeCalls 0x200000 2 0x0000500000000000#64 twoPages) := by
  obtain ⟨used, htree, hown⟩ :=
    ownPages_twoPages.touched (by decide : (0x0000500000000000#64).toNat + 0x2000 ≤ 2 ^ 47)
  have hr : sysMunmap twoPages bareUser 0x0000500000000000#64 0x2000#64 =
      (0, vmmFreeRange twoPages 0x200000 0x0000500000000000#64 0x2000) := if_neg (by decide)
  exact ⟨_, hr, (munmapDone_iff htree hown (by decide) hr).mpr (.inl (by decide))⟩

theorem munmap_leaves_last_page :
    (∃ used, TreeOk used 0x200000 twoPages ∧
      OwnFrames used 0x200000 (Touches 0x0000500000000800#64 0x1000) twoPages) ∧
      ∃ s', sysMunmap twoPages bareUser 0x0000500000000800#64 0x1000#64 = (0, s') ∧
        vmmTranslate s'.mem 0x200000 0x0000500000001000#64 = 0x205000#64 ∧
        ¬ MunmapDone twoPages s' 0x200000 0x0000500000000800#64 0x1000
          (freeRangeCalls 0x200000 1 0x0000500000000800#64 twoPages) := by
  have hr : sysMunmap twoPages bareUser 0x0000500000000800#64 0x1000#64 =
      (0, vmmFreeRange twoPages 0x200000 0x0000500000000800#64 0x1000) := if_neg (by decide)
  have heval : vmmTranslate (vmmFreeRange twoPages 0x200000 0x0000500000000800#64 0x1000).mem
        0x200000 0x0000500000001000#64 = 0x205000#64 ∧
      mappedEntry (vmmFreeRange twoPages 0x200000 0x0000500000000800#64 0x1000).mem
        0x200000 0x0000500000001000#64 ≠ none := by
    decide +kernel
  refine ⟨ownPages_twoPages.touched (by decide), _, hr, heval.1, fun hdone => heval.2 ?_⟩
  exact hdone.gone _ ⟨0x800, by decide, by decide⟩

end DevOs
