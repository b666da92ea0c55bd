import DevOs.Syscall.Regions

/-!
What the result of `sys_mmap` says.
-/

namespace DevOs

open ByteMem FrameSupply

def userWritable : BitVec 64 := vmmUser ||| vmmWritable

/-- The entries above the last level on the way to `v` let the user write. -/
def WayOpen (m : Mem) (pml4 : Nat) (v : BitVec 64) : Prop :=
  ∀ p t i, p ++ [i] <+: tablePath v → Radix.walk childTable (entry m) pml4 p = some t →
    childTable (entry m t i) ≠ none → entry m t i &&& userWritable = userWritable

/-- The page of `v` is mapped for the user to the frame `d`, which has been taken for it
and is filled with zeros. -/
structure GivesPage (s s' : Phys Pmm) (pml4 : Nat) (v : BitVec 64) (d : Nat) : Prop where
  mapped : ∃ e, mappedEntry s'.mem pml4 v = some e ∧ entryFrame e = d ∧
    e &&& userWritable = userWritable
  way : WayOpen s'.mem pml4 v
  taken : FreeFrame s.frames d ∧ ¬ FreeFrame s'.frames d ∧ ¬ TableOf s'.mem pml4 d
  zero : ∀ x, d ≤ x → x < d + pageSize → s'.mem x = 0

/-- The region of `length` bytes at `va` can be used, and the next one begins above it. -/
structure MmapGives (s s' : Phys Pmm) (t' : UserTask) (addr : BitVec 64) (length : Nat)
    (va : BitVec 64) : Prop where
  fits : va.toNat + length ≤ 2 ^ 64
  pages : ∃ g : BitVec 36 → Nat,
    (∀ x < length, GivesPage s s' t'.cr3 (va + BitVec.ofNat 64 x)
      (g (pageNumber (va + BitVec.ofNat 64 x)))) ∧
    ∀ x < length, ∀ y < length, g (pageNumber (va + BitVec.ofNat 64 x)) =
        g (pageNumber (va + BitVec.ofNat 64 y)) →
      pageNumber (va + BitVec.ofNat 64 x) = pageNumber (va + BitVec.ofNat 64 y)
  cursor : addr = 0 → va.toNat + length ≤ t'.mmapCursor.toNat

theorem mmapPages_of_le {length : BitVec 64} (h : 2 ^ 64 ≤ length.toNat + 4095) :
    alignUp length.toNat pageSize = 0 ∧ mmapPages length = 0 := by
  have hlt := length.isLt
  have hzero : alignUp length.toNat pageSize = 0 := by
    rw [alignUp, alignDown, pageSize_eq]
    omega
  exact ⟨hzero, by rw [mmapPages, hzero]; decide⟩

theorem alignUp_eq_mmapPages (length : BitVec 64) :
    alignUp length.toNat pageSize = mmapPages length * pageSize := by
  by_cases h : length.toNat + 4095 < 2 ^ 64
  · rw [alignUp_of_lt h, mmapPages_of_lt h]
    rfl
  · obtain ⟨halign, hpages⟩ := mmapPages_of_le (Nat.le_of_not_lt h)
    rw [halign, hpages, Nat.zero_mul]

variable {used : Nat → Prop} {s s' : Phys Pmm} {t t' : UserTask} {addr length va : BitVec 64}
  {vs : List (BitVec 64)} {used' : Nat → Prop} {flags : BitVec 64} {ds : List Nat} {pml4 d : Nat}

theorem sysMmap_returns (hr : sysMmap s (some t) addr length = (va, some t', s'))
    (hval : va ≠ einval) (hmem : va ≠ enomem) : length ≠ 0 ∧ va = mmapBase t addr ∧
      allocRangeLoop t.cr3 (vmmUserRw ||| vmmNoExec) (mmapPages length) va s = (true, s') ∧
      t' = if addr = 0 then t.advance length else t := by
  have hlen : length ≠ 0 := by
    rintro rfl
    exact hval (Prod.mk.inj hr).1.symm
  obtain ⟨ok, s1, hloop⟩ : ∃ ok s1, allocRangeLoop t.cr3 (vmmUserRw ||| vmmNoExec)
      (mmapPages length) (mmapBase t addr) s = (ok, s1) := ⟨_, _, rfl⟩
  rw [sysMmap_of_loop hlen hloop] at hr
  cases ok with
  | false => exact absurd (Prod.mk.inj hr).1.symm hmem
  | true =>
    obtain ⟨hva, hrest⟩ := Prod.mk.inj hr
    obtain ⟨ht, rfl⟩ := Prod.mk.inj hrest
    subst hva
    refine ⟨hlen, rfl, hloop, ?_⟩
    rw [← Option.some.inj ht]
    exact if_congr (and_iff_right rfl) rfl rfl

theorem mmapFlags_open {x : BitVec 64} :
    (x ||| (vmmUserRw ||| vmmNoExec)) &&& userWritable = userWritable := by
  have hsub : (vmmUserRw ||| vmmNoExec) &&& userWritable = userWritable := by decide
  rw [BitVec.and_or_distrib_right, hsub]
  exact BitVec.eq_of_getLsbD_eq fun i _ => by
    rw [BitVec.getLsbD_or, BitVec.getLsbD_and]
    cases userWritable.getLsbD i <;> simp

theorem open_of_midFlags {e : BitVec 64}
    (h : e &&& midFlags (vmmUserRw ||| vmmNoExec) = midFlags (vmmUserRw ||| vmmNoExec)) :
    e &&& userWritable = userWritable := by
  have hsub : midFlags (vmmUserRw ||| vmmNoExec) &&& userWritable = userWritable := by decide
  rw [← hsub, ← BitVec.and_assoc, h]

theorem MidKept.wayOpen_iff {m m' : Mem} {pml4 : Nat}
    (h : MidKept (vmmUserRw ||| vmmNoExec) pml4 m m') : WayOpen m' pml4 va ↔ WayOpen m pml4 va := by
  constructor
  · intro hopen p t i hp hw hc
    have hkept := h.kept p t i (length_lt_of_concat hp) hw hc
    have hnow := hopen p t i hp (h.walk (length_lt_of_concat hp).le hw) (by rwa [hkept])
    rwa [hkept] at hnow
  · intro hopen p t i hp hw hc
    obtain ⟨hw', heq⟩ | ⟨page, -, heq⟩ := h.fresh p t i (length_lt_of_concat hp) hw hc
    · rw [heq] at hc ⊢
      exact hopen p t i hp hw' hc
    · rw [heq]
      exact open_of_midFlags (or_and_flags _ _)

theorem Populates.mem_of_taken
    (h : Populates flags used used' pml4 vs ds s s')
    (hfree : FreeFrame s.frames d) (hgone : ¬ FreeFrame s'.frames d)
    (hnot : ¬ TableOf s'.mem pml4 d) : d ∈ ds := by
  obtain hf | hd | ⟨v, -, p, hp, hw⟩ := h.took d hfree
  · exact absurd hf hgone
  · exact hd
  · exact absurd ⟨p, hp.length_le, hw⟩ hnot

theorem mmapPages_bound {n : Nat} (h : n ≤ (clearFrames s.frames.bitmap).card) : n ≤ 1048576 :=
  (h.trans (card_clearFrames_le _)).trans (by decide)

theorem Populates.givesPage
    (h : Populates (vmmUserRw ||| vmmNoExec) used used' pml4 vs ds s s')
    (hok : Ok s.frames) (hd : d ∈ ds)
    (hmap : mappedEntry s'.mem pml4 va = some (BitVec.ofNat 64 d ||| (vmmUserRw ||| vmmNoExec)))
    (hway : WayOpen s.mem pml4 va) : GivesPage s s' pml4 va d where
  mapped := by
    have hframe := tableFrame hok (h.data d hd).1
    exact ⟨_, hmap, entryFrame_map hframe.aligned hframe.small (by decide), mmapFlags_open⟩
  way := h.mid.wayOpen_iff.mpr hway
  taken := by
    obtain ⟨hfree, hgone, hnot⟩ := h.data d hd
    refine ⟨hfree, hgone, ?_⟩
    rintro ⟨p, hp, hw⟩
    exact hnot (h.tree.tree.used p d hp hw)
  zero := h.zero d hd

theorem toNat_advance (t : UserTask) (length : BitVec 64) : (t.advance length).mmapCursor.toNat =
      (t.mmapCursor.toNat + mmapPages length * pageSize) % 2 ^ 64 := by
  rw [UserTask.advance, alignUp_eq_mmapPages, BitVec.toNat_add, BitVec.toNat_ofNat, Nat.add_mod_mod]

/-- **An address from `sys_mmap`** means a region that can be used if and only if the
region and its pages end in the address space, its length is not too much for the pages
that are counted, and the tables that were there let the user write. -/
theorem mmapGives_iff (h : TreeOk used t.cr3 s)
    (henough : mmapPages length +
        (missingTables s.mem t.cr3 (pagesFrom (mmapBase t addr) (mmapPages length))).card ≤
      (clearFrames s.frames.bitmap).card)
    (hr : sysMmap s (some t) addr length = (va, some t', s'))
    (hval : va ≠ einval) (hmem : va ≠ enomem) :
    MmapGives s s' t' addr length.toNat va ↔
      (mmapBase t addr).toNat + length.toNat ≤ 2 ^ 64 ∧
        (mmapBase t addr).toNat % pageSize + length.toNat ≤ mmapPages length * pageSize ∧
        (addr = 0 → t.mmapCursor.toNat + mmapPages length * pageSize < 2 ^ 64) ∧
        ∀ x < length.toNat, WayOpen s.mem t.cr3 (mmapBase t addr + BitVec.ofNat 64 x) := by
  obtain ⟨hlen, rfl, hloop, ht'⟩ := sysMmap_returns hr hval hmem
  have hcr : t'.cr3 = t.cr3 := by
    rw [ht']
    split <;> rfl
  have hpos : 0 < length.toNat := Nat.pos_of_ne_zero fun hz => hlen (BitVec.eq_of_toNat_eq hz)
  have hbound := mmapPages_bound (Nat.le_of_add_right_le henough)
  have hcursor : addr = 0 → (mmapBase t addr).toNat = t.mmapCursor.toNat ∧
      t'.mmapCursor.toNat = (t.mmapCursor.toNat + mmapPages length * pageSize) % 2 ^ 64 := by
    rintro rfl
    rw [ht', if_pos rfl, toNat_advance]
    exact ⟨rfl, rfl⟩
  obtain ⟨used', hpop⟩ := h.reached.populates_range (vmmUserRw ||| vmmNoExec) (mmapBase t addr)
    (mmapPages length)
  have hdslen := length_allocRangeFrames (show (allocRangeLoop t.cr3 (vmmUserRw ||| vmmNoExec)
    (mmapPages length) (mmapBase t addr) s).1 = true by rw [hloop])
  have hmaps := (h.allocRange_maps (vmmUserRw ||| vmmNoExec)
    (nodup_pageNumbers (mmapBase t addr) (by omega)) henough).2
  rw [hloop] at hpop hmaps
  generalize allocRangeFrames t.cr3 (vmmUserRw ||| vmmNoExec) (mmapPages length) (mmapBase t addr) s
    = ds at hpop hmaps hdslen
  constructor
  · rintro ⟨hfits, ⟨g, hpages, hinj⟩, habove⟩
    rw [hcr] at hpages
    have hds := fun x hx => hpop.mem_of_taken (hpages x hx).taken.1 (hpages x hx).taken.2.1
      (hpages x hx).taken.2.2
    have hsmall : length.toNat + 4095 < 2 ^ 64 := by
      by_contra hc
      rw [(mmapPages_of_le (Nat.le_of_not_lt hc)).2] at hdslen
      have hnone := hds 0 hpos
      rw [List.eq_nil_of_length_eq_zero hdslen] at hnone
      exact absurd hnone List.not_mem_nil
    have hn := mmapPages_of_lt hsmall
    refine ⟨hfits, ?_, fun ha => ?_, fun x hx => ?_⟩
    · have hin := inside_of_injective hds hinj hpos (by omega) (by rw [hdslen, hn])
      rwa [hdslen] at hin
    · -- a cursor that wraps around is below the region
      obtain ⟨hbase, hnext⟩ := hcursor ha
      have hle := habove ha
      rw [hbase, hnext, pageSize_eq] at hle
      rw [pageSize_eq]
      omega
    · exact hpop.mid.wayOpen_iff.mp (hpages x hx).way
  · rintro ⟨hfits, hin, hbelow, hway⟩
    have hin' : length.toNat ≤ mmapPages length * 4096 := by
      rw [pageSize_eq] at hin
      omega
    obtain ⟨g, hg, hinj⟩ :=
      RangeMapped.of_forall₂ hpop.nodup (by decide) hmaps (by omega) hin
    refine ⟨hfits, ⟨g, fun x hx => ?_, hinj⟩, fun ha => ?_⟩
    · rw [hcr]
      exact hpop.givesPage h.supply (hg x hx).1 (hg x hx).2 (hway x hx)
    · obtain ⟨hbase, hnext⟩ := hcursor ha
      rw [hbase, hnext, Nat.mod_eq_of_lt (hbelow ha)]
      exact Nat.add_le_add_left hin' _

theorem eq_of_results {r : BitVec 64 × Option UserTask × Phys Pmm} {a : BitVec 64}
    {current : Option UserTask} (ha : r.1 = a) (ht : r.2.1 = current) :
    r = (a, current, r.2.2) := by
  rw [← ha, ← ht]

def bareUser : UserTask := ⟨0x200000, 0x0000500000000000#64⟩

theorem wayOpen_emptyMachine (n : Nat) (v : BitVec 64) :
    WayOpen (emptyMachine n).mem 0x200000 v := by
  intro p t i _ _ hc
  exact absurd childTable_zero hc

theorem mmapGives_emptyMachine :
    ∃ s', sysMmap (emptyMachine 4) (some bareUser) 0 0x1000#64 =
        (0x0000500000000000#64, some ⟨0x200000, 0x0000500000001000#64⟩, s') ∧
      MmapGives (emptyMachine 4) s' ⟨0x200000, 0x0000500000001000#64⟩ 0 0x1000
        0x0000500000000000#64 := by
  have heval : (sysMmap (emptyMachine 4) (some bareUser) 0 0x1000#64).1 = 0x0000500000000000#64 ∧
      (sysMmap (emptyMachine 4) (some bareUser) 0 0x1000#64).2.1 =
        some ⟨0x200000, 0x0000500000001000#64⟩ := by
    decide +kernel
  have hr := eq_of_results heval.1 heval.2
  have hpages : mmapPages 0x1000#64 = 1 := by decide
  have hthree := card_missingTables_le_three (emptyMachine 4).mem 0x200000
    (pagesFrom (mmapBase bareUser 0) (mmapPages 0x1000#64))
  refine ⟨_, hr, (mmapGives_iff (treeOk_emptyMachine (by decide)) ?_ hr (by decide)
    (by decide)).mpr ⟨by decide, by decide, fun _ => by decide, fun x _ =>
      wayOpen_emptyMachine 4 _⟩⟩
  rw [card_clearFrames_emptyMachine (by decide), hpages]
  exact Nat.add_le_add_left hthree 1

theorem mmap_returns_unmapped :
    TreeOk (· = 0x200000) 0x200000 (emptyMachine 4) ∧
      mmapPages 0xFFFFFFFFFFFFFFFF#64 + (missingTables (emptyMachine 4).mem 0x200000
        (pagesFrom (mmapBase bareUser 0) (mmapPages 0xFFFFFFFFFFFFFFFF#64))).card ≤
        (clearFrames (emptyMachine 4).frames.bitmap).card ∧
      sysMmap (emptyMachine 4) (some bareUser) 0 0xFFFFFFFFFFFFFFFF#64 =
        (0x0000500000000000#64, some bareUser, emptyMachine 4) ∧
      ¬ MmapGives (emptyMachine 4) (emptyMachine 4) bareUser 0 0xFFFFFFFFFFFFFFFF
        0x0000500000000000#64 := by
  have hpages : mmapPages 0xFFFFFFFFFFFFFFFF#64 = 0 := by decide
  refine ⟨treeOk_emptyMachine (by decide), ?_, ?_, ?_⟩
  · exact Nat.zero_le _
  · have hloop : allocRangeLoop bareUser.cr3 (vmmUserRw ||| vmmNoExec)
        (mmapPages 0xFFFFFFFFFFFFFFFF#64) (mmapBase bareUser 0) (emptyMachine 4) =
          (true, emptyMachine 4) := by
      rw [hpages, allocRangeLoop]
    rfl
  · rintro ⟨-, ⟨g, hgives, -⟩, -⟩
    obtain ⟨e, he, -⟩ := (hgives 0 (by decide)).mapped
    cases he

/-- Every address translates as before, the cursor has not moved, and a frame that is not
free any longer is a table. -/
structure MmapKept (s s' : Phys Pmm) (t t' : UserTask) : Prop where
  translate : ∀ v, vmmTranslate s'.mem t.cr3 v = vmmTranslate s.mem t.cr3 v
  cursor : t'.mmapCursor = t.mmapCursor
  free : ∀ f, FreeFrame s'.frames f → FreeFrame s.frames f
  kept : ∀ f, FreeFrame s.frames f → FreeFrame s'.frames f ∨ TableOf s'.mem t.cr3 f

theorem exists_mem_allocRangeFrames (pml4 : Nat) (flags : BitVec 64) (n : Nat)
    (hclear : clearFrames s.frames.bitmap ≠ ∅) :
    ∃ d, d ∈ allocRangeFrames pml4 flags (n + 1) va s := by
  unfold allocRangeFrames
  cases ha : allocPage s with
  | none => exact absurd (clearFrames_eq_empty_iff.mpr (allocPage_eq_none ha)) hclear
  | some r => exact ⟨r.1, List.mem_cons_self⟩

/-- **`-ENOMEM` from `sys_mmap`** means that nothing has happened if and only if no frame
was free; but a cursor of `-ENOMEM` is returned also by a call for no pages. -/
theorem mmapKept_iff (h : TreeOk used t.cr3 s)
    (hr : sysMmap s (some t) addr length = (enomem, some t', s')) :
    MmapKept s s' t t' ↔
      clearFrames s.frames.bitmap = ∅ ∨ 2 ^ 64 ≤ length.toNat + 4095 := by
  have hlen : length ≠ 0 := by
    rintro rfl
    exact absurd (Prod.mk.inj hr).1 (by decide)
  have hpos : 0 < length.toNat := Nat.pos_of_ne_zero fun hz => hlen (BitVec.eq_of_toNat_eq hz)
  obtain ⟨ok, s1, hloop⟩ : ∃ ok s1, allocRangeLoop t.cr3 (vmmUserRw ||| vmmNoExec)
      (mmapPages length) (mmapBase t addr) s = (ok, s1) := ⟨_, _, rfl⟩
  rw [sysMmap_of_loop hlen hloop] at hr
  obtain ⟨-, hrest⟩ := Prod.mk.inj hr
  obtain ⟨ht', rfl⟩ := Prod.mk.inj hrest
  constructor
  · intro hkept
    by_contra hc
    rw [not_or, Nat.not_le] at hc
    obtain ⟨n, hn⟩ : ∃ n, mmapPages length = n + 1 :=
      Nat.exists_eq_add_of_le' (by rw [mmapPages_of_lt hc.2]; omega)
    obtain ⟨used', hpop⟩ := h.populates_range (vmmUserRw ||| vmmNoExec) (mmapBase t addr)
      (mmapPages length)
    rw [hloop, hn] at hpop
    obtain ⟨d, hd⟩ := exists_mem_allocRangeFrames t.cr3 (vmmUserRw ||| vmmNoExec) n hc.1
    -- the first frame is neither free nor a table
    obtain ⟨hfree, hgone, hnot⟩ := hpop.data d hd
    obtain hf | ⟨p, hp, hw⟩ := hkept.kept d hfree
    · exact hgone hf
    · exact hnot (hpop.tree.tree.used p d hp hw)
  · intro hcond
    have hsame : s1 = s ∧ t'.mmapCursor = t.mmapCursor := by
      rw [← Option.some.inj ht']
      by_cases hz : mmapPages length = 0
      · rw [hz] at hloop
        obtain ⟨-, rfl⟩ := Prod.mk.inj hloop
        refine ⟨rfl, ?_⟩
        split
        · rw [UserTask.advance, alignUp_eq_mmapPages, hz, Nat.zero_mul]
          exact BitVec.add_zero _
        · rfl
      · have hempty := hcond.resolve_right fun hc => hz (mmapPages_of_le hc).2
        obtain ⟨n, hn⟩ := Nat.exists_eq_succ_of_ne_zero hz
        rw [hn, (allocRangeLoop_of_empty hempty n).1] at hloop
        obtain ⟨rfl, rfl⟩ := Prod.mk.inj hloop
        exact ⟨rfl, rfl⟩
    obtain ⟨rfl, hcursor⟩ := hsame
    exact ⟨fun _ => rfl, hcursor, fun _ hf => hf, fun _ hf => .inl hf⟩

theorem mmapKept_emptyMachine :
    ∃ s', sysMmap (emptyMachine 0) (some bareUser) 0 0x2000#64 = (enomem, some bareUser, s') ∧
      MmapKept (emptyMachine 0) s' bareUser bareUser := by
  have hempty : clearFrames (emptyMachine 0).frames.bitmap = ∅ :=
    Finset.card_eq_zero.mp (card_clearFrames_emptyMachine (by decide))
  have hr : sysMmap (emptyMachine 0) (some bareUser) 0 0x2000#64 =
      (enomem, some bareUser, emptyMachine 0) := by
    have hloop : allocRangeLoop bareUser.cr3 (vmmUserRw ||| vmmNoExec) (mmapPages 0x2000#64)
        (mmapBase bareUser 0) (emptyMachine 0) = (false, emptyMachine 0) := by
      rw [show mmapPages 0x2000#64 = 1 + 1 by decide, (allocRangeLoop_of_empty hempty 1).1]
    rw [sysMmap_of_loop (by decide) hloop]
    rfl
  exact ⟨_, hr, (mmapKept_iff (treeOk_emptyMachine (by decide)) hr).mpr (.inl hempty)⟩

theorem allocRangeLoop_of_one {pml4 : Nat}
    (h : (allocRangeLoop pml4 flags 1 va s).1 = true) (n : Nat) :
    allocRangeLoop pml4 flags (n + 1) va s = allocRangeLoop pml4 flags n (va + pageBytes)
      (allocRangeLoop pml4 flags 1 va s).2 := by
  unfold allocRangeLoop at h
  dsimp only at h
  split at h
  · cases h
  · next hnz =>
      rw [allocRangeLoop, allocRangeLoop]
      dsimp only
      rw [if_neg hnz, if_neg hnz, allocRangeLoop]

def firstPage : Phys Pmm :=
  (allocRangeLoop 0x200000 (vmmUserRw ||| vmmNoExec) 1 0x0000500000000000#64 (emptyMachine 4)).2

theorem firstPage_eval : (allocRangeLoop 0x200000 (vmmUserRw ||| vmmNoExec) 1 0x0000500000000000#64
        (emptyMachine 4)).1 = true ∧
      (∀ f ∈ List.range' 0x201 4, frameUsed firstPage.frames f = true) ∧
      vmmTranslate (emptyMachine 4).mem 0x200000 0x0000500000000000#64 = 0 ∧
      vmmTranslate firstPage.mem 0x200000 0x0000500000000000#64 = 0x201000#64 := by
  decide +kernel

theorem clearFrames_firstPage : clearFrames firstPage.frames.bitmap = ∅ := by
  obtain ⟨used', hpop⟩ := (treeOk_emptyMachine (n := 4) (by decide)).populates_range
    (vmmUserRw ||| vmmNoExec) 0x0000500000000000#64 1
  rw [← firstPage] at hpop
  refine Finset.eq_empty_of_forall_notMem fun f hf => ?_
  -- a frame that is free now was free before, and those are used
  have hfree := hpop.free _ (mem_clearFrames_iff.mp hf)
  rw [freeFrame_mul_iff, clear_emptyMachine (by decide)] at hfree
  have hused := firstPage_eval.2.1 f (List.mem_range'_1.mpr hfree.2)
  exact absurd ((mem_clearFrames.mp hf).2.symm.trans hused) (by decide)

/-- **With four frames for two pages** the first is mapped, and stays so when the call
fails. -/
theorem mmap_enomem_leaves_page :
    TreeOk (· = 0x200000) 0x200000 (emptyMachine 4) ∧
      ∃ t' s', sysMmap (emptyMachine 4) (some bareUser) 0 0x2000#64 = (enomem, some t', s') ∧
        vmmTranslate (emptyMachine 4).mem 0x200000 0x0000500000000000#64 = 0 ∧
        vmmTranslate s'.mem 0x200000 0x0000500000000000#64 = 0x201000#64 ∧
        ¬ MmapKept (emptyMachine 4) s' bareUser t' := by
  obtain ⟨hone, -, hbefore, hafter⟩ := firstPage_eval
  have hloop : allocRangeLoop bareUser.cr3 (vmmUserRw ||| vmmNoExec) (mmapPages 0x2000#64)
      (mmapBase bareUser 0) (emptyMachine 4) = (false, firstPage) := by
    rw [show mmapPages 0x2000#64 = 1 + 1 by decide, show bareUser.cr3 = 0x200000 from rfl,
      show mmapBase bareUser 0 = 0x0000500000000000#64 by decide,
      allocRangeLoop_of_one hone 1, ← firstPage]
    exact (allocRangeLoop_of_empty clearFrames_firstPage 0).1
  refine ⟨treeOk_emptyMachine (by decide), bareUser, firstPage,
    sysMmap_of_loop (by decide) hloop, hbefore, hafter, fun hkept => ?_⟩
  have hsame := hkept.translate 0x0000500000000000#64
  rw [show bareUser.cr3 = 0x200000 from rfl, hbefore, hafter] at hsame
  exact absurd hsame (by decide)

end DevOs
