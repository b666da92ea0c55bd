import DevOs.Elf.Content
import DevOs.Elf.Start

/-!
The address space of a program that `elf_load` has started, with its contents.
-/

namespace DevOs

open ByteMem

section

variable {σ : Type} [FrameSource σ] {pml4 : Nat} {img : ElfImage} {s s1 s' : Phys σ}

def ElfImage.Loads (img : ElfImage) (i : Nat) : Prop :=
  (img.phdr i).type = ptLoad ∧ (img.phdr i).memsz ≠ 0

instance (img : ElfImage) (i : Nat) : Decidable (img.Loads i) :=
  inferInstanceAs (Decidable (_ ∧ _))

def HeaderTurn (pml4 : Nat) (img : ElfImage) (i : Nat) (s s' : Phys σ) : Prop :=
  if img.Loads i then elfMapSegment s pml4 img (img.phdr i) = (true, s') else s' = s

theorem mapSegments_succ_iff {n i : Nat} : mapSegments pml4 img (n + 1) i s = (true, s') ↔
      ∃ s1, HeaderTurn pml4 img i s s1 ∧ mapSegments pml4 img n (i + 1) s1 = (true, s') := by
  rw [mapSegments]
  unfold HeaderTurn
  by_cases hload : (img.phdr i).type = ptLoad
  · rw [if_neg (not_not.mpr hload)]
    by_cases hmem : (img.phdr i).memsz = 0
    · have hl : ¬ img.Loads i := fun hl => hl.2 hmem
      rw [elfMapSegment, if_pos hmem]
      simp [hl]
    · have hl : img.Loads i := ⟨hload, hmem⟩
      rcases elfMapSegment s pml4 img (img.phdr i) with ⟨_ | _, s1⟩ <;> simp [hl]
  · have hl : ¬ img.Loads i := fun hl => hload hl.1
    rw [if_pos hload]
    simp [hl]

theorem mapSegments_last {n i : Nat} : mapSegments pml4 img (n + 1) i s = (true, s') ↔
      ∃ s1, mapSegments pml4 img n i s = (true, s1) ∧ HeaderTurn pml4 img (i + n) s1 s' := by
  induction n generalizing i s with
  | zero =>
    rw [mapSegments_succ_iff]
    simp [mapSegments]
  | succ n ih =>
    rw [mapSegments_succ_iff]
    simp only [ih, mapSegments_succ_iff, Nat.add_right_comm i 1 n, Nat.add_assoc i n 1]
    grind

theorem HeaderTurn.eq_of_none {i : Nat} (h : HeaderTurn pml4 img i s s')
    (hnone : FrameSource.alloc s.frames = none) : s' = s := by
  unfold HeaderTurn at h
  split at h
  · next hl =>
      rw [elfMapSegment, if_neg hl.2] at h
      split at h
      · cases h
      · exact mapSegmentLoop_of_none hnone h
  · exact h

theorem mapSegments_front {n d : Nat} (h : mapSegments pml4 img (n + d) 0 s = (true, s')) :
    ∃ s1, mapSegments pml4 img n 0 s = (true, s1) ∧
      (FrameSource.alloc s1.frames = none → s' = s1) := by
  induction d generalizing s' with
  | zero => exact ⟨s', h, fun _ => rfl⟩
  | succ d ih =>
    obtain ⟨s2, hfront, hlast⟩ := mapSegments_last.mp h
    obtain ⟨s1, hs1, hkept⟩ := ih hfront
    refine ⟨s1, hs1, fun hnone => ?_⟩
    obtain rfl := hkept hnone
    exact hlast.eq_of_none hnone

end

def showSegments (img : ElfImage) : Nat → View
  | 0 => fun _ => none
  | n + 1 =>
    if img.Loads n then showSegment img (img.phdr n) (showSegments img n)
    else showSegments img n

/-- The pages of the first `n` headers, in the order in which they are mapped. -/
def ElfImage.segmentPages (img : ElfImage) : Nat → List (BitVec 64)
  | 0 => []
  | n + 1 => img.segmentPages n ++ if img.Loads n then
      pagesFrom (BitVec.ofNat 64 (img.phdr n).vaStart) (img.phdr n).numPages else []

def stackFirst : Nat := 0x7FFFFFFE0

def showStack (V : View) : View := showPages stackFirst 16 stackFlags (fun _ => 0) V

def ElfImage.UserHalf (img : ElfImage) : Prop :=
  ∀ i < img.phnum, img.Loads i → (img.phdr i).vaddr + (img.phdr i).memsz ≤ 2 ^ 47

def ElfPhdr.Touches (ph : ElfPhdr) (a : Nat) : Prop :=
  ph.vaddr / pageSize ≤ a / pageSize ∧ a / pageSize * pageSize < ph.vaddr + ph.memsz

instance (ph : ElfPhdr) (a : Nat) : Decidable (ph.Touches a) :=
  inferInstanceAs (Decidable (_ ∧ _))

def OnStack (a : Nat) : Prop := stackFirst ≤ a / pageSize ∧ a / pageSize < stackFirst + 16

instance (a : Nat) : Decidable (OnStack a) := inferInstanceAs (Decidable (_ ∧ _))

def segmentPage (img : ElfImage) (ph : ElfPhdr) (a : Nat) : PageView :=
  ⟨elfFlagsToVmm ph.flags, fun x => putByte img ph (a / pageSize * pageSize + x)⟩

section

variable {img : ElfImage} {i n a x : Nat} {V : View}

theorem ElfPhdr.touches_self {ph : ElfPhdr} (hx : x < ph.memsz) : ph.Touches (ph.vaddr + x) := by
  unfold ElfPhdr.Touches
  rw [pageSize_eq]
  omega

theorem ElfImage.UserHalf.lt (h : img.UserHalf) (hi : i < img.phnum) (hl : img.Loads i)
    (ht : (img.phdr i).Touches a) : a < 2 ^ 47 := by
  have hend := h i hi hl
  have hpage := ht.2
  rw [pageSize_eq] at hpage
  omega

theorem showStack_at (ha : a < 2 ^ 47) : showStack V (pageNumber (BitVec.ofNat 64 a)) =
      if OnStack a then some ⟨stackFlags, fun _ => 0⟩ else V (pageNumber (BitVec.ofNat 64 a)) :=
  showPages_at (by omega) stackFlags (fun _ => 0) V

theorem showSegments_succ_at (hhalf : img.UserHalf) (hn : n < img.phnum) (ha : a < 2 ^ 47) :
    showSegments img (n + 1) (pageNumber (BitVec.ofNat 64 a)) =
      if img.Loads n ∧ (img.phdr n).Touches a then some (segmentPage img (img.phdr n) a)
      else showSegments img n (pageNumber (BitVec.ofNat 64 a)) := by
  rw [showSegments]
  by_cases hl : img.Loads n
  · have hpages := (img.phdr n).numPages_eq (hhalf n hn hl)
    have hmem := hl.2
    rw [if_pos hl, showSegment, showPages_at (by omega)]
    refine if_congr ?_ rfl rfl
    rw [and_iff_right hl, ElfPhdr.Touches, hpages, pageSize_eq]
    omega
  · rw [if_neg hl, if_neg fun hc => hl hc.1]

theorem showSegments_at (hhalf : img.UserHalf) (hl : img.Loads i) (ht : (img.phdr i).Touches a)
    (hi : i < n) (hn : n ≤ img.phnum) :
    ∃ j, (i ≤ j ∧ j < n) ∧ img.Loads j ∧ (img.phdr j).Touches a ∧
      showSegments img n (pageNumber (BitVec.ofNat 64 a)) =
        some (segmentPage img (img.phdr j) a) := by
  have ha := hhalf.lt (Nat.lt_of_lt_of_le hi hn) hl ht
  induction n with
  | zero => omega
  | succ n ih =>
    rw [showSegments_succ_at hhalf hn ha]
    split
    · next hc => exact ⟨n, by omega, hc.1, hc.2, rfl⟩
    · next hc =>
        obtain hlt | rfl := Nat.lt_succ_iff_lt_or_eq.mp hi
        · obtain ⟨j, hj, hrest⟩ := ih hlt (by omega)
          exact ⟨j, by omega, hrest⟩
        · exact absurd ⟨hl, ht⟩ hc

end

theorem userStackBottom_eq : userStackBottom = BitVec.ofNat 64 (stackFirst * pageSize) := by
  decide

theorem userFlags_stack : UserFlags stackFlags :=
  ⟨userFlags_present, userFlags_and_mask, by decide⟩

variable {region : Nat → Prop} {link : BitVec 64 → Prop} {used used' : Nat → Prop}
  {pml4 page d : Nat} {V : View} {s s1 s' s0 : Phys Pmm} {img : ElfImage} {flags va : BitVec 64}
  {usedK : Nat → Prop} {k : Nat}

/-! ## The loops -/

/-- **The segments** show their bytes. -/
theorem Lays.mapSegments (h : Lays region link s used pml4 (fun _ => none) s)
    (hhalf : img.UserHalf) {n : Nat} (hn : n ≤ img.phnum)
    (hr : mapSegments pml4 img n 0 s = (true, s')) : FrameSource.alloc s'.frames = none ∨
      ∃ used', Lays region link s used' pml4 (showSegments img n) s' ∧
        Spent pml4 (img.segmentPages n) s s' := by
  induction n generalizing s' with
  | zero =>
    obtain rfl : s = s' := (Prod.mk.inj hr).2
    exact .inr ⟨used, h, .refl pml4 s⟩
  | succ n ih =>
    obtain ⟨s1, hfront, hturn⟩ := mapSegments_last.mp hr
    rw [Nat.zero_add] at hturn
    obtain hnone | ⟨used1, h1, hspent⟩ := ih (by omega) hfront
    · rw [hturn.eq_of_none hnone]
      exact .inl hnone
    · unfold HeaderTurn at hturn
      rw [showSegments, ElfImage.segmentPages]
      split at hturn
      · next hl =>
          rw [if_pos hl, if_pos hl]
          refine (h1.elfMapSegment (hhalf n hn hl) hl.2 hturn).imp_right ?_
          rintro ⟨used', h', hlast⟩
          exact ⟨used', h', hspent.append hlast⟩
      · next hl =>
          rw [if_neg hl, if_neg hl, hturn, List.append_nil]
          exact .inr ⟨used1, h1, hspent⟩

theorem allocRangeLoop_last {n : Nat} (h : allocRangeLoop pml4 flags (n + 1) va s = (true, s')) :
    ∃ s1, allocRangeLoop pml4 flags n va s = (true, s1) ∧
      allocRangeLoop pml4 flags 1 (va + BitVec.ofNat 64 (n * pageSize)) s1 = (true, s') := by
  induction n generalizing s va with
  | zero => exact ⟨s, rfl, by rw [Nat.zero_mul]; simpa using h⟩
  | succ n ih =>
    rw [allocRangeLoop] at h ⊢
    rcases hr : vmmAllocMap s pml4 va flags with ⟨page, s2⟩
    rw [hr] at h
    dsimp only at h ⊢
    split at h
    · cases h
    · next hz =>
        obtain ⟨s1, hfront, hlast⟩ := ih h
        refine ⟨s1, (if_neg hz).trans hfront, ?_⟩
        rw [Nat.succ_mul, Nat.add_comm, BitVec.ofNat_add, ← BitVec.add_assoc]
        exact hlast

theorem eq_of_allocRangeLoop {n : Nat} (hnone : FrameSource.alloc s.frames = none)
    (h : allocRangeLoop pml4 flags n va s = (true, s')) : s' = s := by
  cases n with
  | zero => exact (Prod.mk.inj h).2.symm
  | succ n =>
    rw [(allocRangeLoop_of_none (allocPage_of_none hnone)).2] at h
    cases h

theorem Lays.allocRangeLoop (h : Lays region link s0 used pml4 V s) (hf : UserFlags flags)
    {n lo : Nat} (hend : lo + n ≤ 2 ^ 35)
    (hr : allocRangeLoop pml4 flags n (BitVec.ofNat 64 (lo * pageSize)) s = (true, s')) :
    FrameSource.alloc s'.frames = none ∨
      ∃ used', Lays region link s0 used' pml4 (showPages lo n flags (fun _ => 0) V) s' ∧
        Spent pml4 (pagesFrom (BitVec.ofNat 64 (lo * pageSize)) n) s s' := by
  induction n generalizing used V s lo with
  | zero =>
    obtain rfl : s = s' := (Prod.mk.inj hr).2
    rw [showPages_zero]
    exact .inr ⟨used, h, .refl pml4 s⟩
  | succ n ih =>
    have hva : lo * pageSize < 2 ^ 47 := by
      rw [pageSize_eq]
      omega
    cases ha : allocPage s with
    | none =>
      rw [(allocRangeLoop_of_none ha).2] at hr
      cases hr
    | some r =>
      obtain ⟨page, s1⟩ := r
      have hnz := (allocPage_tableFrame (s := s) h.tree.supply ha).nonzero
      rw [(allocRangeLoop_of_some ha hnz n).1] at hr
      generalize hs2 : vmmMap s1 pml4 (BitVec.ofNat 64 (lo * pageSize)) (BitVec.ofNat 64 page)
        flags = s2 at hr
      obtain ⟨used1, -, hspent, ⟨hnone, -⟩ | ⟨-, h1⟩⟩ := @Lays.turn region link used pml4 page V
        ⟨flags, fun _ => 0⟩ s s1 s2 s0 _ h (lowerHalf_ofNat hva) hf ha hs2 s2.mem
        (fun _ _ => rfl) fun hzero => hzero
      · rw [eq_of_allocRangeLoop hnone hr]
        exact .inl hnone
      · rw [pageNumber_page (by omega)] at h1
        rw [showPages_succ (by omega), pagesFrom_ofNat_succ]
        refine (@ih _ _ s2 h1 (lo + 1) (by omega) ?_).imp_right ?_
        · rw [Nat.succ_mul, BitVec.ofNat_add]
          exact hr
        · rintro ⟨used', h', hrest⟩
          exact ⟨used', h', hspent.append hrest⟩

/-- The frames that an address space can have since `s0`. -/
def OwnSince (s0 : Phys Pmm) (pml4 t : Nat) : Prop := t = pml4 ∨ FreeFrame s0.frames t

def OpenLink (e : BitVec 64) : Prop := ∃ t, TableFrame t ∧ e = BitVec.ofNat 64 t ||| vmmUserRw

theorem Populates.free_of_pageTable {v : BitVec 64} {t pt : Nat}
    (h : Populates flags used used' pml4 [v] [page] s s') (ht : TreeOk used pml4 s)
    (hpt : pageTable s.mem pml4 v = some pt) (hf : FreeFrame s.frames t) (hne : t ≠ page) :
    FreeFrame s'.frames t := by
  obtain hfree | hpage | ⟨u, hu, p, hp, hw⟩ := h.took t hf
  · exact hfree
  · exact absurd (List.mem_singleton.mp hpage) hne
  · obtain rfl := List.mem_singleton.mp hu
    obtain ⟨t', hw'⟩ := Radix.walk_left hp hpt
    obtain rfl : t' = t := Option.some.inj ((h.mid.walk hp.length_le hw').symm.trans hw)
    exact absurd hf (ht.table t' (ht.tree.used p t' hp.length_le hw')).2

theorem Lays.stack (h : Lays region link s0 used pml4 V s) (hhint : HintSet s0.frames)
    (hr : DevOs.allocRangeLoop pml4 stackFlags 16 userStackBottom s = (true, s')) :
    ∃ used' d, Lays region link s0 used' pml4 (showStack V) s' ∧
      Spent pml4 (pagesFrom userStackBottom 16) s s' ∧
      Behind used' pml4 s' (stackPage 15) ⟨stackFlags, fun _ => 0⟩ d ∧
      (FreeFrame s0.frames (d + pageSize) → FreeFrame s'.frames (d + pageSize)) ∧
      nthFrame ((clearFrames s0.frames.bitmap).card -
        ((clearFrames s'.frames.bitmap).card + 1)) s0.frames = some d := by
  obtain ⟨s1, hfront, hlast⟩ := allocRangeLoop_last hr
  have hne : FrameSource.alloc s1.frames ≠ none := by
    intro hnone
    rw [(allocRangeLoop_of_none (allocPage_of_none hnone)).2] at hlast
    cases hlast
  rw [userStackBottom_eq] at hfront
  obtain ⟨used1, h1, hspent1⟩ :=
    (h.allocRangeLoop userFlags_stack (by decide) hfront).resolve_left hne
  -- the page below is mapped, so the last one has its page table
  obtain ⟨d', -, hd'⟩ := h1.pages (stackPage 14) ⟨stackFlags, fun _ => 0⟩
    (by rw [showPages, if_pos (by decide)])
  obtain ⟨-, pt, hpt, -⟩ := mappedEntry_eq_some hd'.entry
  replace hpt : pageTable (lowerMem s1.mem pml4) pml4 (stackPage 15) = some pt := by
    rw [← hpt, pageTable, pageTable, tablePath_stackPage (by decide),
      tablePath_stackPage (by decide)]
  cases ha : allocPage s1 with
  | none => exact absurd (allocPage_eq_none ha) hne
  | some r =>
    obtain ⟨page, s2⟩ := r
    have hnz := (allocPage_tableFrame (s := s1) h1.tree.supply ha).nonzero
    rw [(allocRangeLoop_of_some ha hnz 0).1] at hlast
    have hs' : vmmMap s2 pml4 (stackPage 15) (BitVec.ofNat 64 page) stackFlags = s' :=
      (Prod.mk.inj hlast).2
    have hlow : LowerHalf (stackPage 15) := by
      unfold LowerHalf
      decide
    obtain ⟨used', hpop, hspent, ⟨-, htable⟩ | ⟨hbehind, h'⟩⟩ :=
      @Lays.turn region link used1 pml4 page
      (showPages stackFirst 15 stackFlags (fun _ => 0) V) ⟨stackFlags, fun _ => 0⟩ s1 s2 s' s0 _
      h1 hlow userFlags_stack ha hs' s'.mem (fun _ _ => rfl) fun hzero => hzero
    all_goals
      have hpt' : pageTable (lowerMem s'.mem pml4) pml4 (stackPage 15) = some pt :=
        hpop.mid.walk (length_tablePath _).le hpt
    · rw [hpt'] at htable
      cases htable
    · rw [show pageNumber (stackPage 15) = BitVec.ofNat 36 (stackFirst + 15) by decide] at h'
      have hcount := hspent [stackPage 15] (List.Subset.refl _)
      rw [missingTables_eq_empty (List.forall_mem_singleton.mpr ⟨pt, hpt⟩),
        missingTables_eq_empty (List.forall_mem_singleton.mpr ⟨pt, hpt'⟩), Finset.card_empty,
        List.length_singleton, Nat.add_zero, Nat.add_zero] at hcount
      obtain ⟨frames, hnext, -⟩ := allocPage_eq_some ha
      refine ⟨used', page, ?_, ?_, hbehind, fun hfree => ?_, ?_⟩
      · rw [showStack, showPages_last (by decide)]
        exact h'
      · exact (hspent1.append hspent : Spent pml4 (pagesFrom _ 15 ++ [stackPage 15]) s s')
      · have hpage := (hpop.data page (List.mem_singleton_self page)).1
        refine hpop.free_of_pageTable h1.tree hpt
          (h1.took.no_gap h1.start.supply hhint hpage hfree) ?_
        rw [pageSize_eq]
        omega
      · rw [← hcount]
        exact (h1.took.nthFrame hnext).2

theorem Behind.writeNullRet {w : PageView} (h : Behind used pml4 s (stackPage 15) w d)
    (ht : TreeOk used pml4 (lower pml4 s)) :
    writeNullRetEvents s pml4 = [.write (d + pageSize + 8 * (510 : Fin 512)) 8] ∧
      writeNullRet s pml4 = { s with mem := setEntry s.mem (d + pageSize) 510 0 } := by
  have hv : LowerHalf (userStackTop - 8#64 &&& ~~~7#64) := by
    unfold LowerHalf
    decide
  have htr := (h.congr (u := userStackTop - 8#64 &&& ~~~7#64) (by decide)).translate ht hv
  have hto := h.data.toNat_ofNat
  have hwhere := @toNat_nullRet (BitVec.ofNat 64 d) (by rw [hto]; exact h.data.aligned)
    (by rw [hto]; exact h.data.inRange.lt)
  rw [hto] at hwhere
  have hnz : BitVec.ofNat 64 d ||| ((userStackTop - 8#64 &&& ~~~7#64) &&& 0xFFF#64) ≠ 0 := by
    intro hz
    have hzero := congrArg BitVec.toNat hz
    rw [toNat_frame_or (by rw [hto]; exact h.data.aligned) (toNat_offset_lt _), hto] at hzero
    change d + _ = 0 at hzero
    exact h.data.inRange.1 (by omega)
  unfold writeNullRetEvents DevOs.writeNullRet
  dsimp only
  rw [htr, if_pos hnz, if_pos hnz, hwhere]
  exact ⟨rfl, rfl⟩

theorem Shows.nullRet {t : Nat} (h : Shows (OwnSince s0 pml4) link used pml4 V s)
    (ht : pageSize ∣ t) (hfree : FreeFrame s0.frames t → FreeFrame s.frames t) :
    Shows (OwnSince s0 pml4) link used pml4 V { s with mem := setEntry s.mem t 510 0 } := by
  have hout : ∀ x, x < t ∨ t + pageSize ≤ x → setEntry s.mem t 510 0 x = s.mem x := by
    intro x hx
    refine store_apply_of_disjoint ?_
    rw [pageSize_eq] at hx
    rw [show ((510 : Fin 512) : Nat) = 510 from rfl]
    omega
  by_cases hroot : t = pml4
  · subst hroot
    exact h.of_upper (lowerMem_setEntry_upper (by decide) 0) hout
  · refine h.frame (T := (· = t)) (fun u hu => ?_) (fun x hx => hout x (hx t rfl))
      h.tree.supply fun _ hu => hu
    rw [hu]
    exact ⟨ht, fun hown => hfree (hown.resolve_left hroot)⟩

theorem Shows.growHeap (h : Shows region link used pml4 V s)
    (hk : TreeOk usedK k s) (hapart : ∀ t, usedK t → ¬ region t) (n : Nat) (va : BitVec 64) :
    Shows region link used pml4 V (growHeap k n va s) := by
  obtain ⟨usedK', hpop⟩ := hk.populates_range heapFlags va n
  rw [growHeap_eq hk.supply]
  refine h.frame (T := fun t => usedK' t ∨ t ∈ allocRangeFrames k heapFlags n va s) ?_ hpop.mem
    hpop.tree.supply hpop.free
  rintro t (ht | ht)
  · refine ⟨(hpop.tree.table t ht).1.aligned, fun hr => (hpop.fresh t ht).resolve_left ?_⟩
    exact fun hold => hapart t hold hr
  · exact ⟨(hpop.data t ht).1.1, fun _ => (hpop.data t ht).1⟩

theorem TreeOk.laysNew (h : TreeOk (· = pml4) pml4 (lower pml4 s)) :
    Lays (OwnSince s pml4) OpenLink s (· = pml4) pml4 (fun _ => none) s where
  tree := h
  tables _ ht := .inl ht
  links p t i hp hw hc := by
    -- a second table would be the PML4 as well
    obtain ⟨c, hchild⟩ := Option.ne_none_iff_exists'.mp hc
    have htree := h.tree
    have hwc : Radix.walk childTable (entry (lowerMem s.mem pml4)) pml4 (p ++ [i]) = some c := by
      rw [Radix.walk_concat, hw, Option.bind_some, hchild]
    have hlen : (p ++ [i]).length ≤ 3 := by
      rw [List.length_append]
      exact hp
    obtain rfl : c = pml4 := htree.used _ c hlen hwc
    obtain rfl : t = c := htree.used _ t hp.le hw
    have hsame := htree.inj _ _ t hlen hp.le hwc hw
    exact absurd (congrArg List.length hsame) (by simp)
  pages _ _ hw := by cases hw
  start := ⟨h.supply, fun _ ht => .inr ht, fun t ht => ⟨t, ht, rfl⟩⟩
  took := .refl _
  mem _ _ := rfl

/-- The state in which the first `n` headers have been mapped. -/
def afterHeaders (s : Phys Pmm) (k : Nat) (img : ElfImage) (n : Nat) : Phys Pmm :=
  (mapSegments (vmmCreateAddressSpace s k).1 img n 0 (vmmCreateAddressSpace s k).2).2

def afterStack (s : Phys Pmm) (k : Nat) (img : ElfImage) : Phys Pmm :=
  (vmmAllocRange (afterHeaders s k img img.phnum) (vmmCreateAddressSpace s k).1 userStackBottom
    userStackSize stackFlags).2

theorem hintSet_of_create (h : vmmCreateAddressSpace s k = (pml4, s'))
    (hne : pml4 ≠ 0) : HintSet s'.frames := by
  obtain ⟨frames, hs, rfl⟩ := vmmCreateAddressSpace_of_ne h hne
  exact hintSet_of_pmmAlloc hs

theorem Lays.kernel (h : Lays region link s0 used pml4 V s)
    (hk : TreeOk usedK k s0) (hapart : ∀ t, usedK t → ¬ region t)
    (hal : ∀ t, region t → pageSize ∣ t) : TreeOk usedK k s := by
  obtain ⟨hok, hfree⟩ := h.took.free h.start.supply
  refine (hk.frame (fun t i ht => ?_) hok fun t ht hf => (hk.table t ht).2 (hfree t hf)).1
  refine entry_of_pages (hk.table t ht).1.aligned (fun u hu => ⟨hal u hu, ?_⟩) h.mem
  rintro rfl
  exact hapart u ht hu

/-! ## The load -/

theorem elfLoad_shows {heap : HeapNeed} {task : UserTask}
    (hk : TreeOk usedK k s) (hhalf : img.UserHalf) (h : elfLoad s k img heap = (some task, s')) :
    ∃ region : Nat → Prop, (∀ n ≤ img.phnum, ∃ used,
        Shows region OpenLink used task.cr3 (showSegments img n) (afterHeaders s k img n)) ∧
      (∃ used, Shows region OpenLink used task.cr3 (showStack (showSegments img img.phnum))
        (afterStack s k img)) ∧
      ∃ used, Shows region OpenLink used task.cr3 (showStack (showSegments img img.phnum)) s' := by
  obtain ⟨pml4, s1, s2, s3, -, e1, hz, e2, e3, rfl, rfl⟩ := elfLoad_eq_task h
  have hside := Beside.create hk e1 hz
  have hstack : DevOs.allocRangeLoop pml4 stackFlags 16 userStackBottom s2 = (true, s3) := e3
  -- with no frame left the stack could not have been mapped
  have hne : FrameSource.alloc s2.frames ≠ none := by
    intro hnone
    rw [(allocRangeLoop_of_none (allocPage_of_none hnone)).2] at hstack
    cases hstack
  have hfront : ∀ n ≤ img.phnum, ∃ used2,
      Lays (OwnSince s1 pml4) OpenLink s1 used2 pml4 (showSegments img n)
        (afterHeaders s k img n) := by
    intro n hn
    obtain ⟨s4, hs4, hkept⟩ := mapSegments_front (d := img.phnum - n)
      (by rw [Nat.add_sub_cancel' hn]; exact e2)
    rw [afterHeaders, e1, hs4]
    obtain hnone | ⟨used2, h2, -⟩ := hside.user.tree.laysNew.mapSegments hhalf hn hs4
    · refine absurd ?_ hne
      rw [hkept hnone]
      exact hnone
    · exact ⟨used2, h2⟩
  have hlast : afterHeaders s k img img.phnum = s2 := by rw [afterHeaders, e1, e2]
  obtain ⟨used2, h2⟩ := hfront img.phnum le_rfl
  rw [hlast] at h2
  obtain ⟨used3, d, h3, -, hbehind, hfree, -⟩ := h2.stack (hintSet_of_create e1 hz) hstack
  have hafter : afterStack s k img = s3 := by
    rw [afterStack, hlast, e1]
    exact congrArg Prod.snd e3
  have hapart : ∀ t, usedK t → ¬ OwnSince s1 pml4 t := by
    rintro t ht (rfl | hf)
    · exact hside.apart t ht rfl
    · exact (hside.kernel.table t ht).2 hf
  have hal : ∀ t, OwnSince s1 pml4 t → pageSize ∣ t := by
    rintro t (rfl | hf)
    · exact (hside.user.tree.table t rfl).1.aligned
    · exact hf.1
  have hd : pageSize ∣ d + pageSize := Nat.dvd_add hbehind.data.aligned (Nat.dvd_refl _)
  refine ⟨OwnSince s1 pml4, fun n hn => ?_, ⟨used3, by rw [hafter]; exact h3.toShows⟩, used3, ?_⟩
  · obtain ⟨used2, h2⟩ := hfront n hn
    exact ⟨used2, h2.toShows⟩
  · rw [(hbehind.writeNullRet h3.tree).2]
    exact (h3.toShows.nullRet hd hfree).growHeap
      ((h3.kernel hside.kernel hapart hal).clear hd 510).1 hapart heap.pages heap.cursor

end DevOs
