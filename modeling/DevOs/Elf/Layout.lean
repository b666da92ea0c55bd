import DevOs.Elf.Loaded

/-!
Segments that share a page.
-/

namespace DevOs

open ByteMem

/-- The byte that belongs at offset `x` of a segment: that of the file, or zero behind it. -/
def ownByte (img : ElfImage) (ph : ElfPhdr) (x : Nat) : UInt8 :=
  if x < ph.filesz then img.data ((ph.offset + x) % 2 ^ 64) else 0

/-- A load keeps the segments: mapping a header does not change the bytes at addresses of
earlier ones, nor does mapping the stack; and at the end every segment has its own. -/
structure SegmentsKept (s : Phys Pmm) (k : Nat) (img : ElfImage) (task : UserTask)
    (s' : Phys Pmm) : Prop where
  header : ∀ i j x, i < j → j < img.phnum → img.Loads i → x < (img.phdr i).memsz →
    userByte (afterHeaders s k img (j + 1)).mem task.cr3
        (BitVec.ofNat 64 ((img.phdr i).vaddr + x)) =
      userByte (afterHeaders s k img j).mem task.cr3 (BitVec.ofNat 64 ((img.phdr i).vaddr + x))
  stack : ∀ i x, i < img.phnum → img.Loads i → x < (img.phdr i).memsz →
    userByte (afterStack s k img).mem task.cr3 (BitVec.ofNat 64 ((img.phdr i).vaddr + x)) =
      userByte (afterHeaders s k img img.phnum).mem task.cr3
        (BitVec.ofNat 64 ((img.phdr i).vaddr + x))
  present : ∀ i x, i < img.phnum → img.Loads i → x < (img.phdr i).memsz →
    userByte s'.mem task.cr3 (BitVec.ofNat 64 ((img.phdr i).vaddr + x)) =
      some (ownByte img (img.phdr i) x)

/-- Where a byte of a segment is on a page that it or a later segment maps, that is the
byte put there; and where it is on the stack, it is zero. -/
structure PagesAgree (img : ElfImage) : Prop where
  header : ∀ i j x, i ≤ j → j < img.phnum → img.Loads i → img.Loads j →
    x < (img.phdr i).memsz → (img.phdr j).Touches ((img.phdr i).vaddr + x) →
    putByte img (img.phdr j) ((img.phdr i).vaddr + x) = ownByte img (img.phdr i) x
  stack : ∀ i x, i < img.phnum → img.Loads i → x < (img.phdr i).memsz →
    OnStack ((img.phdr i).vaddr + x) → ownByte img (img.phdr i) x = 0

section

variable {img : ElfImage} {i n a x : Nat} {V : View}

theorem ElfImage.UserHalf.byte_lt (h : img.UserHalf) (hi : i < img.phnum) (hl : img.Loads i)
    (hx : x < (img.phdr i).memsz) : (img.phdr i).vaddr + x < 2 ^ 47 :=
  h.lt hi hl (ElfPhdr.touches_self hx)

theorem viewByte_showStack (ha : a < 2 ^ 47) :
    viewByte (showStack V) a = if OnStack a then some 0 else viewByte V a := by
  rw [viewByte, showStack_at ha]
  split <;> rfl

theorem viewByte_showSegments_succ (hhalf : img.UserHalf) (hn : n < img.phnum) (ha : a < 2 ^ 47) :
    viewByte (showSegments img (n + 1)) a =
      if img.Loads n ∧ (img.phdr n).Touches a then some (putByte img (img.phdr n) a)
      else viewByte (showSegments img n) a := by
  have hpage := showSegments_succ_at hhalf hn ha
  split
  · next hc =>
      rw [if_pos hc] at hpage
      exact viewByte_of_page hpage
  · next hc =>
      rw [if_neg hc] at hpage
      rw [viewByte, viewByte, hpage]

theorem viewByte_of_segment (hhalf : img.UserHalf) (hl : img.Loads i)
    (hx : x < (img.phdr i).memsz) (hi : i < n) (hn : n ≤ img.phnum) :
    ∃ j, (i ≤ j ∧ j < n) ∧ img.Loads j ∧ (img.phdr j).Touches ((img.phdr i).vaddr + x) ∧
      viewByte (showSegments img n) ((img.phdr i).vaddr + x) =
        some (putByte img (img.phdr j) ((img.phdr i).vaddr + x)) := by
  obtain ⟨j, hj, hlj, ht, hpage⟩ := showSegments_at hhalf hl (ElfPhdr.touches_self hx) hi hn
  exact ⟨j, hj, hlj, ht, viewByte_of_page hpage⟩

theorem exists_viewByte_showStack (hhalf : img.UserHalf) (hl : img.Loads i)
    (hx : x < (img.phdr i).memsz) (hi : i < img.phnum) :
    ∃ b, viewByte (showStack (showSegments img img.phnum)) ((img.phdr i).vaddr + x) = some b := by
  obtain ⟨j, -, -, -, hb⟩ := viewByte_of_segment hhalf hl hx hi le_rfl
  rw [viewByte_showStack (hhalf.byte_lt hi hl hx)]
  split
  · exact ⟨0, rfl⟩
  · exact ⟨_, hb⟩

theorem PagesAgree.viewByte (h : PagesAgree img) (hhalf : img.UserHalf) (hl : img.Loads i)
    (hx : x < (img.phdr i).memsz) (hi : i < n) (hn : n ≤ img.phnum) :
    viewByte (showSegments img n) ((img.phdr i).vaddr + x) = some (ownByte img (img.phdr i) x) := by
  obtain ⟨j, hj, hlj, htouch, hview⟩ := viewByte_of_segment hhalf hl hx hi hn
  rw [hview, h.header i j x hj.1 (by omega) hl hlj hx htouch]

end

variable {usedK : Nat → Prop} {k : Nat} {s s' : Phys Pmm} {img : ElfImage} {heap : HeapNeed}
  {task : UserTask}

structure SeenStages (s : Phys Pmm) (k : Nat) (img : ElfImage) (task : UserTask)
    (s' : Phys Pmm) : Prop where
  header : ∀ {n a b}, n ≤ img.phnum → a < 2 ^ 47 → viewByte (showSegments img n) a = some b →
    userByte (afterHeaders s k img n).mem task.cr3 (BitVec.ofNat 64 a) = some b
  stack : ∀ {a b}, a < 2 ^ 47 →
    viewByte (showStack (showSegments img img.phnum)) a = some b →
    userByte (afterStack s k img).mem task.cr3 (BitVec.ofNat 64 a) = some b
  final : ∀ {a b}, a < 2 ^ 47 →
    viewByte (showStack (showSegments img img.phnum)) a = some b →
    userByte s'.mem task.cr3 (BitVec.ofNat 64 a) = some b

theorem seenStages (hk : TreeOk usedK k s) (hhalf : img.UserHalf)
    (h : elfLoad s k img heap = (some task, s')) : SeenStages s k img task s' := by
  obtain ⟨region, hheaders, ⟨used3, hstack⟩, used4, hend⟩ := elfLoad_shows hk hhalf h
  refine ⟨fun hn ha hb => ?_, hstack.userByte, hend.userByte⟩
  obtain ⟨used, hshows⟩ := hheaders _ hn
  exact hshows.userByte ha hb

theorem PagesAgree.segmentsKept (h : PagesAgree img) (hhalf : img.UserHalf)
    (hseen : SeenStages s k img task s') : SegmentsKept s k img task s' := by
  have hfinal : ∀ {i x}, i < img.phnum → img.Loads i → x < (img.phdr i).memsz →
      DevOs.viewByte (showStack (showSegments img img.phnum)) ((img.phdr i).vaddr + x) =
        some (ownByte img (img.phdr i) x) := by
    intro i x hi hl hx
    rw [viewByte_showStack (hhalf.byte_lt hi hl hx)]
    split
    · next hs => rw [h.stack i x hi hl hx hs]
    · exact h.viewByte hhalf hl hx hi le_rfl
  refine ⟨fun i j x hij hj hl hx => ?_, fun i x hi hl hx => ?_, fun i x hi hl hx => ?_⟩
  · have ha := hhalf.byte_lt (hij.trans hj) hl hx
    rw [hseen.header hj ha (h.viewByte hhalf hl hx (hij.trans (Nat.lt_succ_self j)) hj),
      hseen.header hj.le ha (h.viewByte hhalf hl hx hij hj.le)]
  · have ha := hhalf.byte_lt hi hl hx
    rw [hseen.header le_rfl ha (h.viewByte hhalf hl hx hi le_rfl), hseen.stack ha (hfinal hi hl hx)]
  · exact hseen.final (hhalf.byte_lt hi hl hx) (hfinal hi hl hx)

theorem SegmentsKept.pagesAgree (h : SegmentsKept s k img task s') (hhalf : img.UserHalf)
    (hseen : SeenStages s k img task s') : PagesAgree img := by
  have hlast : ∀ {i x}, i < img.phnum → img.Loads i → x < (img.phdr i).memsz →
      viewByte (showStack (showSegments img img.phnum)) ((img.phdr i).vaddr + x) =
        some (ownByte img (img.phdr i) x) := by
    intro i x hi hl hx
    obtain ⟨b, hb⟩ := exists_viewByte_showStack hhalf hl hx hi
    rw [hb, ← h.present i x hi hl hx, hseen.final (hhalf.byte_lt hi hl hx) hb]
  -- backwards from the end to the turn of the segment
  have hsame : ∀ {i x n}, i < n → n ≤ img.phnum → img.Loads i → x < (img.phdr i).memsz →
      viewByte (showSegments img n) ((img.phdr i).vaddr + x) =
        some (ownByte img (img.phdr i) x) := by
    intro i x n hi hn hl hx
    have ha := hhalf.byte_lt (Nat.lt_of_lt_of_le hi hn) hl hx
    induction hn using Nat.decreasingInduction with
    | self =>
      obtain ⟨j, -, -, -, hb⟩ := viewByte_of_segment hhalf hl hx hi le_rfl
      rw [hb, ← hseen.header le_rfl ha hb, ← h.stack i x hi hl hx]
      exact hseen.stack ha (hlast hi hl hx)
    | of_succ n hn ih =>
      obtain ⟨j, -, -, -, hb⟩ := viewByte_of_segment hhalf hl hx hi hn.le
      rw [hb, ← hseen.header hn.le ha hb, ← h.header i n x hi hn hl hx]
      exact hseen.header hn ha (ih (hi.trans (Nat.lt_succ_self n)))
  refine ⟨fun i j x hij hj hl hlj hx htouch => ?_, fun i x hi hl hx hs => ?_⟩
  · have hown := hsame (Nat.lt_succ_of_le hij) hj hl hx
    have ha := hhalf.byte_lt (Nat.lt_of_le_of_lt hij hj) hl hx
    rw [viewByte_showSegments_succ hhalf hj ha, if_pos ⟨hlj, htouch⟩] at hown
    exact Option.some.inj hown
  · have hown := hlast hi hl hx
    rw [viewByte_showStack (hhalf.byte_lt hi hl hx), if_pos hs] at hown
    exact (Option.some.inj hown).symm

/-- **A load keeps the segments exactly when their pages agree.** -/
theorem segmentsKept_iff (hk : TreeOk usedK k s) (hhalf : img.UserHalf)
    (h : elfLoad s k img heap = (some task, s')) :
    SegmentsKept s k img task s' ↔ PagesAgree img :=
  ⟨fun hkept => hkept.pagesAgree hhalf (seenStages hk hhalf h),
    fun hagree => hagree.segmentsKept hhalf (seenStages hk hhalf h)⟩

theorem putByte_own {ph : ElfPhdr} {x : Nat} (h : ph.vaddr + ph.filesz < 2 ^ 64) :
    putByte img ph (ph.vaddr + x) = ownByte img ph x := by
  rw [putByte, ownByte, Nat.mod_eq_of_lt h, Nat.add_sub_cancel_left]
  exact if_congr (by omega) rfl rfl

structure ElfImage.PagesApart (img : ElfImage) : Prop where
  segments : ∀ i j a, i < j → j < img.phnum → img.Loads i → img.Loads j →
    (img.phdr i).Touches a → ¬ (img.phdr j).Touches a
  stack : ∀ i a, i < img.phnum → img.Loads i → (img.phdr i).Touches a → ¬ OnStack a

theorem ElfImage.PagesApart.pagesAgree (h : img.PagesApart)
    (hfile : ∀ i < img.phnum, img.Loads i → (img.phdr i).vaddr + (img.phdr i).filesz < 2 ^ 64) :
    PagesAgree img where
  header i j x hij hj hl hlj hx htouch := by
    obtain hlt | rfl := Nat.lt_or_eq_of_le hij
    · exact absurd htouch (h.segments i j _ hlt hj hl hlj (ElfPhdr.touches_self hx))
    · exact putByte_own (hfile i hj hl)
  stack i x hi hl hx hs := absurd hs (h.stack i _ hi hl (ElfPhdr.touches_self hx))

/-- An image of 16 bytes behind two program headers: eight for 4 MB, to be executed, and
eight for the address `second`, to be written. -/
def twoSegments (second : Nat) : ElfImage where
  data := ofList <|
    encode 4 elfMagic ++ [2, 1] ++ List.replicate 10 0 ++ encode 2 etExec ++ encode 2 emX86x64 ++
    encode 4 evCurrent ++ encode 8 0x400000 ++ encode 8 64 ++ List.replicate 14 0 ++
    encode 2 elfPhdrSize ++ encode 2 2 ++ List.replicate 6 0 ++
    (encode 4 ptLoad ++ encode 4 5 ++ encode 8 176 ++ encode 8 0x400000 ++ encode 8 0 ++
      encode 8 8 ++ encode 8 8 ++ encode 8 pageSize) ++
    (encode 4 ptLoad ++ encode 4 6 ++ encode 8 184 ++ encode 8 second ++ encode 8 0 ++
      encode 8 8 ++ encode 8 8 ++ encode 8 pageSize) ++
    List.replicate 16 0x90
  size := 192

structure TwoHeaders (img : ElfImage) (second : Nat) : Prop where
  count : img.phnum = 2
  first : img.phdr 0 = ⟨ptLoad, 5, 176, 0x400000, 8, 8⟩
  last : img.phdr 1 = ⟨ptLoad, 6, 184, second, 8, 8⟩

theorem TwoHeaders.cases {img : ElfImage} {second i : Nat} (h : TwoHeaders img second)
    (hi : i < img.phnum) : i = 0 ∨ i = 1 := by
  rw [h.count] at hi
  omega

theorem TwoHeaders.userHalf {img : ElfImage} {second : Nat} (h : TwoHeaders img second)
    (hsecond : second + 8 ≤ 2 ^ 47) : img.UserHalf := by
  intro i hi _
  obtain rfl | rfl := h.cases hi
  · rw [h.first]
    decide
  · rw [h.last]
    exact hsecond

theorem TwoHeaders.pagesApart {img : ElfImage} (h : TwoHeaders img 0x401000) : img.PagesApart where
  segments i j a hij hj _ _ hi hj' := by
    obtain ⟨rfl, rfl⟩ : i = 0 ∧ j = 1 := by
      rw [h.count] at hj
      omega
    rw [h.first, ElfPhdr.Touches, pageSize_eq] at hi
    rw [h.last, ElfPhdr.Touches, pageSize_eq] at hj'
    dsimp only at hi hj'
    omega
  stack i a hi _ htouch hs := by
    unfold OnStack at hs
    unfold ElfPhdr.Touches at htouch
    rw [pageSize_eq, show stackFirst = 0x7FFFFFFE0 from rfl] at hs
    obtain rfl | rfl := h.cases hi
    · rw [h.first, pageSize_eq] at htouch
      dsimp only at htouch
      omega
    · rw [h.last, pageSize_eq] at htouch
      dsimp only at htouch
      omega

theorem load_eq {r : Option UserTask × Phys Pmm} {task : UserTask} (h : r.1 = some task) :
    r = (some task, r.2) := by
  rw [← h]

theorem twoHeaders_apart : TwoHeaders (twoSegments 0x401000) 0x401000 :=
  ⟨by decide +kernel, by rfl, by rfl⟩

theorem elfLoad_apart : (elfLoad (emptyMachine 32) 0x200000 (twoSegments 0x401000) ⟨0, 0, true⟩).1 =
      some ⟨0x201000, 0x0000500000000000#64⟩ := by
  decide +kernel

theorem segmentsKept_apart :
    SegmentsKept (emptyMachine 32) 0x200000 (twoSegments 0x401000)
      ⟨0x201000, 0x0000500000000000#64⟩
      (elfLoad (emptyMachine 32) 0x200000 (twoSegments 0x401000) ⟨0, 0, true⟩).2 := by
  have hheaders := twoHeaders_apart
  have hload := load_eq elfLoad_apart
  refine (segmentsKept_iff (treeOk_emptyMachine (by decide)) (hheaders.userHalf (by decide))
    hload).mpr (hheaders.pagesApart.pagesAgree fun i hi _ => ?_)
  obtain rfl | rfl := hheaders.cases hi
  · rw [hheaders.first]
    decide
  · rw [hheaders.last]
    decide

def ElfImage.RangesDisjoint (img : ElfImage) : Prop :=
  ∀ i j, i < j → j < img.phnum → img.Loads i → img.Loads j →
    (img.phdr i).vaddr + (img.phdr i).memsz ≤ (img.phdr j).vaddr ∨
      (img.phdr j).vaddr + (img.phdr j).memsz ≤ (img.phdr i).vaddr

theorem twoHeaders_shared : TwoHeaders (twoSegments 0x400800) 0x400800 :=
  ⟨by decide +kernel, by rfl, by rfl⟩

theorem shared_page_clears_segment :
    elfValidate (twoSegments 0x400800) = true ∧ (twoSegments 0x400800).RangesDisjoint ∧
      (twoSegments 0x400800).UserHalf ∧
      TreeOk (· = 0x200000) 0x200000 (emptyMachine 32) ∧
      ∃ task s', elfLoad (emptyMachine 32) 0x200000 (twoSegments 0x400800) ⟨0, 0, true⟩ =
          (some task, s') ∧
        ownByte (twoSegments 0x400800) ((twoSegments 0x400800).phdr 0) 0 = 0x90 ∧
        userByte s'.mem task.cr3 0x400000#64 = some 0 ∧
        ¬ SegmentsKept (emptyMachine 32) 0x200000 (twoSegments 0x400800) task s' := by
  have hheaders := twoHeaders_shared
  have hhalf := hheaders.userHalf (by decide)
  have htree : TreeOk (· = 0x200000) 0x200000 (emptyMachine 32) := treeOk_emptyMachine (by decide)
  have hfirst : (elfLoad (emptyMachine 32) 0x200000 (twoSegments 0x400800) ⟨0, 0, true⟩).1 =
      some ⟨0x201000, 0x0000500000000000#64⟩ := by decide +kernel
  have hload := load_eq hfirst
  have hloads : (twoSegments 0x400800).Loads 0 ∧ (twoSegments 0x400800).Loads 1 := by
    rw [ElfImage.Loads, ElfImage.Loads, hheaders.first, hheaders.last]
    decide
  have hown : ownByte (twoSegments 0x400800) ((twoSegments 0x400800).phdr 0) 0 = 0x90 := by
    rw [hheaders.first]
    decide +kernel
  -- the second header covers the page, and has no bytes there
  have hview : viewByte (showStack (showSegments (twoSegments 0x400800)
      (twoSegments 0x400800).phnum)) 0x400000 = some 0 := by
    rw [viewByte_showStack (by decide), if_neg (by decide), hheaders.count,
      viewByte_showSegments_succ hhalf (by rw [hheaders.count]; decide) (by decide), if_pos]
    · rw [hheaders.last]
      rfl
    · rw [hheaders.last]
      exact ⟨hloads.2, by decide⟩
  have hbyte := (seenStages htree hhalf hload).final (by decide) hview
  refine ⟨by decide +kernel, fun i j hij hj _ _ => ?_, hhalf, htree, _, _, hload, hown, hbyte,
    fun hkept => ?_⟩
  · rw [hheaders.count] at hj
    obtain ⟨rfl, rfl⟩ : i = 0 ∧ j = 1 := by omega
    rw [hheaders.first, hheaders.last]
    decide
  · have hpresent := hkept.present 0 0 (by rw [hheaders.count]; decide) hloads.1
      (by rw [hheaders.first]; decide)
    rw [hown, hheaders.first] at hpresent
    rw [show BitVec.ofNat 64 0x400000 = BitVec.ofNat 64 (0x400000 + 0) from rfl, hpresent] at hbyte
    exact absurd hbyte (by decide)

end DevOs
