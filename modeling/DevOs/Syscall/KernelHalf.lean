import DevOs.Elf.Log
import DevOs.Syscall.Mmap

/-!
When do `elf_load`, `sys_mmap` and `sys_munmap` leave the kernel's half of the
page tables alone?
-/

namespace DevOs

open ByteMem Radix

def KernelTable (m : Mem) (kernelPml4 t : Nat) : Prop :=
  t = kernelPml4 ∨ ∃ i is, 256 ≤ i.val ∧ is.length ≤ 2 ∧
    walk childTable (entry m) kernelPml4 (i :: is) = some t

def pageEntry (m : Mem) (pml4 : Nat) (v : BitVec 64) : Option (BitVec 64) :=
  (pageTable m pml4 v).map fun pt => entry m pt (ptIdx v)

variable {kernelPml4 : Nat}

theorem kernelTable_walk {m : Mem} {i : Fin 512} {is : List (Fin 512)} {t : Nat}
    (hi : 256 ≤ i.val) (his : is.length ≤ 2)
    (hw : walk childTable (entry m) kernelPml4 (i :: is) = some t) :
    KernelTable m kernelPml4 t := .inr ⟨i, is, hi, his, hw⟩

theorem kernelHalf_of_same {m m' : Mem} {v : BitVec 64}
    (h : KernelSame (KernelTable m kernelPml4) m m') (hv : 256 ≤ (pml4Idx v).val) :
    pageEntry m' kernelPml4 v = pageEntry m kernelPml4 v ∧
      vmmTranslate m' kernelPml4 v = vmmTranslate m kernelPml4 v := by
  have hsame : ∀ p t i, p ++ [i] <+: tablePath v ++ [ptIdx v] →
      walk childTable (entry m) kernelPml4 p = some t → entry m' t i = entry m t i := by
    intro p t i hp hw
    cases p with
    | nil =>
      cases hw
      exact h _ i (.inl rfl)
    | cons j q =>
      have hlen := hp.length_le
      simp only [List.length_append, List.length_cons, List.length_nil, length_tablePath] at hlen
      obtain ⟨r, hr⟩ := hp
      obtain ⟨rfl, -⟩ : j = pml4Idx v ∧ _ := List.cons.inj hr
      exact h t i (kernelTable_walk hv (by omega) hw)
  refine ⟨?_, vmmTranslate_congr hsame⟩
  have htable : pageTable m' kernelPml4 v = pageTable m kernelPml4 v :=
    pageTable_congr fun p t i hp => hsame p t i (hp.trans (List.prefix_append _ _))
  unfold pageEntry
  rw [htable]
  cases hpt : pageTable m kernelPml4 v with
  | none => rw [Option.map_none, Option.map_none]
  | some pt => rw [Option.map_some, Option.map_some, hsame _ pt (ptIdx v) List.prefix_rfl hpt]

section

variable {kernel : Nat → Prop} {own : Fin 512 → Prop} {lvl : Levels} {s : Phys Pmm} {pml4 : Nat}

theorem Owned.mapSegmentLoop (img : ElfImage) (ph : ElfPhdr) :
    ∀ (n pageVa : Nat) (lvl : Levels) (s : Phys Pmm), Owned kernel own lvl s →
      lvl pml4 = some 3 → OwnRange own (BitVec.ofNat 64 pageVa) n →
      Keeps kernel own lvl s (mapSegmentLoop pml4 img ph n pageVa s).2
  | 0, _, _, _, h, _, _ => Keeps.refl h
  | n + 1, pageVa, lvl, s, h, ht, hr => by
    unfold DevOs.mapSegmentLoop
    cases ha : allocPage s with
    | none => exact Keeps.refl h
    | some r =>
      obtain ⟨page, s1⟩ := r
      obtain ⟨h1, hp, -, hsame, -⟩ := h.alloc ha
      obtain ⟨lvl2, h2, hext, hsame2, hnone⟩ :=
        h1.vmmMap ht hr.head hp (elfFlagsToVmm_and_mask ph.flags)
      dsimp only
      generalize DevOs.vmmMap s1 pml4 (BitVec.ofNat 64 pageVa) (BitVec.ofNat 64 page)
        (elfFlagsToVmm ph.flags) = s2 at h2 hsame2
      obtain ⟨h3, hsame3, -⟩ := h2.write hp.used.1 hp.away.1 hnone
        fun x hx => @copyFileData_apply_of_outside img ph s2.mem page pageVa x hx
      have hall := (hsame.trans hsame2).trans hsame3
      generalize copyFileData img ph s2.mem page pageVa = m3 at h3 hall
      have hone : Keeps kernel own lvl s { s2 with mem := m3 } := ⟨lvl2, h3, hext, hall⟩
      refine hone.trans fun lvl' hext' h' =>
        Owned.mapSegmentLoop img ph n _ lvl' _ h' (hext' _ _ ht) ?_
      rw [ofNat_nextPage]
      exact hr.tail

/-- The segments that `elf_load` maps lie in own slots. -/
def SegmentsOwn (own : Fin 512 → Prop) (img : ElfImage) : Prop :=
  ∀ i < img.phnum, (img.phdr i).type = ptLoad → (img.phdr i).memsz ≠ 0 →
    OwnRange own (BitVec.ofNat 64 (img.phdr i).vaStart) (img.phdr i).numPages

theorem Owned.mapSegments (img : ElfImage) (hseg : SegmentsOwn own img) :
    ∀ (n i : Nat) (lvl : Levels) (s : Phys Pmm), i + n ≤ img.phnum → Owned kernel own lvl s →
      lvl pml4 = some 3 → Keeps kernel own lvl s (mapSegments pml4 img n i s).2
  | 0, _, _, _, _, h, _ => Keeps.refl h
  | n + 1, i, lvl, s, hn, h, ht => by
    unfold DevOs.mapSegments
    split
    · exact Owned.mapSegments img hseg n (i + 1) lvl s (by omega) h ht
    · next hload =>
        have hone : Keeps kernel own lvl s (elfMapSegment s pml4 img (img.phdr i)).2 := by
          unfold elfMapSegment
          split
          · exact Keeps.refl h
          · next hsz =>
              split
              · exact Keeps.refl h
              · exact Owned.mapSegmentLoop img _ _ _ lvl s h ht
                  (hseg i (by omega) (not_not.mp hload) hsz)
        cases hr : elfMapSegment s pml4 img (img.phdr i) with
        | mk ok s1 =>
          rw [hr] at hone
          dsimp only
          split
          · exact hone.trans fun lvl' hext h' =>
              Owned.mapSegments img hseg n (i + 1) lvl' s1 (by omega) h' (hext _ _ ht)
          · exact hone

theorem Owned.writeNullRet (h : Owned kernel own lvl s) (ht : lvl pml4 = some 3)
    (hown : own (pml4Idx (userStackTop - 8#64 &&& ~~~7#64))) :
    Keeps kernel own lvl s (writeNullRet s pml4) := by
  unfold DevOs.writeNullRet
  dsimp only
  obtain hz | ⟨pt, f, -, hl, hf, htr⟩ := h.translate ht hown
  · rw [if_neg (not_not.mpr hz)]
    exact Keeps.refl h
  split
  · obtain ⟨hused, hin, haway, -⟩ := h.leaf pt _ f hl hf
    rw [htr, toNat_nullRet hused.1 hin.lt]
    have hclear := h.clear (t := f.toNat + pageSize) (i := 510)
      (Nat.dvd_add hused.1 (Nat.dvd_refl _)) haway.2
    exact ⟨lvl, hclear.1, Extends.refl lvl, hclear.2⟩
  · exact Keeps.refl h

theorem ownRange_stack (hlow : ∀ i : Fin 512, i.val < 256 → own i) :
    OwnRange own (userStackTop - BitVec.ofNat 64 userStackSize) (pageCount userStackSize) := by
  have hidx : ∀ i < 16, (pml4Idx (userStackTop - BitVec.ofNat 64 userStackSize +
      BitVec.ofNat 64 (i * pageSize))).val < 256 := by decide
  exact fun i hi => hlow _ (hidx i hi)

theorem Owned.elfLoad {kernelPml4 : Nat} {img : ElfImage} {heap : HeapNeed} {s' : Phys Pmm}
    {t : Option UserTask} (h : Owned kernel own lvl s) (hk : kernel kernelPml4)
    (hup : ∀ i, own i → 256 ≤ i.val → childTable (entry s.mem kernelPml4 i) = none)
    (hlow : ∀ i : Fin 512, i.val < 256 → own i)
    (hseg : elfValidate img = true → SegmentsOwn own img) (hheap : heap.pages = 0)
    (hr : elfLoad s kernelPml4 img heap = (t, s')) :
    ∃ lvl', Owned kernel own lvl' s' ∧ Extends lvl lvl' ∧ KernelSame kernel s.mem s'.mem ∧
      ∀ x ∈ t, lvl' x.cr3 = some 3 := by
  -- every failure leaves what has been mapped so far, and no task
  have hfail : ∀ {s1 : Phys Pmm}, Keeps kernel own lvl s s1 → (none, s1) = (t, s') →
      ∃ lvl', Owned kernel own lvl' s' ∧ Extends lvl lvl' ∧ KernelSame kernel s.mem s'.mem ∧
        ∀ x ∈ t, lvl' x.cr3 = some 3 := by
    intro s1 hkeep heq
    obtain ⟨rfl, rfl⟩ := Prod.mk.inj heq
    obtain ⟨lvl', ho, he, hs⟩ := hkeep
    exact ⟨lvl', ho, he, hs, fun x hx => by cases hx⟩
  unfold DevOs.elfLoad at hr
  by_cases hval : elfValidate img = false
  · rw [if_pos hval] at hr
    exact hfail (Keeps.refl h) hr
  rw [if_neg hval] at hr
  rw [Bool.not_eq_false] at hval
  cases hc : vmmCreateAddressSpace s kernelPml4 with
  | mk pml4 s1 =>
    obtain ⟨lvl1, h1, e1, k1, hpml4⟩ := h.createSpace hk hup hc
    rw [hc] at hr
    dsimp only at hr
    by_cases hz : pml4 = 0
    · rw [if_pos hz] at hr
      exact hfail ⟨lvl1, h1, e1, k1⟩ hr
    rw [if_neg hz] at hr
    have ht := hpml4 hz
    have hsegs := Owned.mapSegments img (hseg hval) img.phnum 0 lvl1 s1 (by omega) h1 ht
    cases hm : DevOs.mapSegments pml4 img img.phnum 0 s1 with
    | mk ok s2 =>
      rw [hm] at hr hsegs
      dsimp only at hr hsegs
      obtain ⟨lvl2, h2, e2, k2⟩ := hsegs
      have e12 := e1.trans e2
      have k12 := k1.trans k2
      by_cases hok : ok = false
      · rw [if_pos hok] at hr
        exact hfail ⟨lvl2, h2, e12, k12⟩ hr
      rw [if_neg hok] at hr
      have hstack := Owned.allocRangeLoop userFlags_and_mask _ _ lvl2 s2 h2 (e2 _ _ ht)
        (ownRange_stack hlow)
      unfold vmmAllocRange at hr
      cases ha : DevOs.allocRangeLoop pml4 (vmmUserRw ||| vmmNoExec) (pageCount userStackSize)
          (userStackTop - BitVec.ofNat 64 userStackSize) s2 with
      | mk ok' s3 =>
        rw [ha] at hr hstack
        dsimp only at hr hstack
        obtain ⟨lvl3, h3, e3, k3⟩ := hstack
        have e13 := e12.trans e3
        have k13 := k12.trans k3
        by_cases hok' : ok' = false
        · rw [if_pos hok'] at hr
          exact hfail ⟨lvl3, h3, e13, k13⟩ hr
        rw [if_neg hok'] at hr
        obtain ⟨lvl4, h4, e4, k4⟩ := h3.writeNullRet (e3 _ _ (e2 _ _ ht)) (hlow _ (by decide))
        unfold schedCreateUserTask at hr
        rw [hheap] at hr
        obtain ⟨htask, hs'⟩ := Prod.mk.inj hr
        rw [growHeap] at hs'
        subst hs'
        refine ⟨lvl4, h4, e13.trans e4, k13.trans k4, fun x hx => ?_⟩
        rw [← htask] at hx
        split at hx
        · cases hx
          exact e4 _ _ (e3 _ _ (e2 _ _ ht))
        · cases hx

variable {t : UserTask} {addr length : BitVec 64}

theorem Owned.sysMmap (h : Owned kernel own lvl s) (ht : lvl t.cr3 = some 3)
    (hr : OwnRange own (mmapBase t addr) (pageCount (alignUp length.toNat pageSize))) :
    Keeps kernel own lvl s (sysMmap s (some t) addr length).2.2 ∧
      ∃ t', (DevOs.sysMmap s (some t) addr length).2.1 = some t' ∧ t'.cr3 = t.cr3 := by
  unfold DevOs.sysMmap
  by_cases hz : length = 0
  · rw [if_pos hz]
    exact ⟨Keeps.refl h, t, rfl, rfl⟩
  rw [if_neg hz]
  have hkeep := Owned.allocRangeLoop userFlags_and_mask _ _ lvl s h ht hr
  dsimp only
  unfold vmmAllocRange
  cases ha : DevOs.allocRangeLoop t.cr3 (vmmUserRw ||| vmmNoExec)
      (pageCount (alignUp length.toNat pageSize)) (mmapBase t addr) s with
  | mk ok s' =>
    rw [ha] at hkeep
    dsimp only
    by_cases hok : ok = false
    · rw [if_pos hok]
      exact ⟨hkeep, t, rfl, rfl⟩
    · rw [if_neg hok]
      refine ⟨hkeep, _, rfl, ?_⟩
      split <;> rfl

theorem Owned.sysMunmap (h : Owned kernel own lvl s) (ht : lvl t.cr3 = some 3)
    (hr : OwnRange own addr (pageCount length.toNat)) :
    Keeps kernel own lvl s (sysMunmap s t addr length).2 := by
  unfold DevOs.sysMunmap
  split
  · exact Keeps.refl h
  · exact Owned.freeRangeLoop _ _ lvl s h ht hr

end

structure KernelOk (u : UserSpace) : Prop where
  zero : frameUsed u.phys.frames 0 = true
  used : ∀ t, KernelTable u.phys.mem u.kernelPml4 t → UsedFrame u.phys.frames t
  guarded : ∀ t, KernelTable u.phys.mem u.kernelPml4 (t + pageSize) → UsedFrame u.phys.frames t

/-- The addresses of a call lie in slots that are not shared with the kernel,
and the heap has room for a new task. -/
def UserOp.Confined (u : UserSpace) : UserOp → Prop
  | .elfLoad img heap => heap.pages = 0 ∧
      (elfValidate img = true → SegmentsOwn (OwnSlot u.phys.mem u.kernelPml4) img)
  | .mmap task addr length => ∀ t, u.tasks[task]? = some t →
      OwnRange (OwnSlot u.phys.mem u.kernelPml4) (mmapBase t addr)
        (pageCount (alignUp length.toNat pageSize))
  | .munmap _ addr length =>
    OwnRange (OwnSlot u.phys.mem u.kernelPml4) addr (pageCount length.toNat)

def ConfinedReachable (u0 : UserSpace) : UserSpace → Prop :=
  Relation.ReflTransGen (fun u u' => ∃ op : UserOp, op.Confined u ∧ u' = userStep u op) u0

/-- What holds along a confined run: the tasks have address spaces of their
own, and the kernel's tables are those of the start. -/
def UserInv (u0 u : UserSpace) : Prop :=
  u.kernelPml4 = u0.kernelPml4 ∧
    KernelSame (KernelTable u0.phys.mem u0.kernelPml4) u0.phys.mem u.phys.mem ∧
    ∃ lvl, Owned (KernelTable u0.phys.mem u0.kernelPml4) (OwnSlot u0.phys.mem u0.kernelPml4) lvl
      u.phys ∧ ∀ t ∈ u.tasks, lvl t.cr3 = some 3

theorem userInv_mk {u0 : UserSpace} {s : Phys Pmm} {k : Nat} {tasks : List UserTask} {lvl : Levels}
    (hpml4 : k = u0.kernelPml4)
    (hsame : KernelSame (KernelTable u0.phys.mem u0.kernelPml4) u0.phys.mem s.mem)
    (ho : Owned (KernelTable u0.phys.mem u0.kernelPml4) (OwnSlot u0.phys.mem u0.kernelPml4) lvl s)
    (ht : ∀ t ∈ tasks, lvl t.cr3 = some 3) : UserInv u0 ⟨s, k, tasks⟩ :=
  ⟨hpml4, hsame, lvl, ho, ht⟩

theorem userInv_start {u : UserSpace} (hk : KernelOk u) (htasks : u.tasks = []) : UserInv u u := by
  refine ⟨rfl, KernelSame.refl _, fun _ => none, ?_, by simp [htasks]⟩
  exact {
    zero := hk.zero
    kernelUsed := hk.used
    guarded := hk.guarded
    table := fun t l ht => by cases ht
    child := fun t l i c ht => by cases ht
    noHuge := fun t l i c ht => by cases ht
    leaf := fun t i f ht => by cases ht
    leafInj := fun t i t' i' f ht => by cases ht }

theorem UserInv.ownSlot {u0 u : UserSpace} (h : UserInv u0 u) :
    OwnSlot u.phys.mem u.kernelPml4 = OwnSlot u0.phys.mem u0.kernelPml4 := by
  funext i
  unfold OwnSlot
  rw [h.1, h.2.1 _ i (.inl rfl)]

variable {u0 u : UserSpace} {task : Nat}

theorem userInv_elfLoad {img : ElfImage} {heap : HeapNeed} (h : UserInv u0 u)
    (hop : (UserOp.elfLoad img heap).Confined u) : UserInv u0 (userStep u (.elfLoad img heap)) := by
  have hslot := h.ownSlot
  obtain ⟨hpml4, hsame, lvl, howned, htasks⟩ := h
  obtain ⟨hheap, hseg⟩ := hop
  rw [hslot] at hseg
  have hup : ∀ i, OwnSlot u0.phys.mem u0.kernelPml4 i → 256 ≤ i.val →
      childTable (entry u.phys.mem u.kernelPml4 i) = none := by
    intro i hi hhi
    rw [← hslot] at hi
    exact hi.resolve_left (by omega)
  simp only [userStep]
  cases hr : elfLoad u.phys u.kernelPml4 img heap with
  | mk t s' =>
    obtain ⟨lvl', ho, he, hs, ht⟩ := howned.elfLoad (.inl hpml4) hup
      (fun i hi => .inl hi) hseg hheap hr
    refine userInv_mk hpml4 (hsame.trans hs) ho fun x hx => ?_
    obtain hx | hx := List.mem_append.mp hx
    · exact he _ _ (htasks x hx)
    · exact ht x (Option.mem_toList.mp hx)

theorem userInv_mmap {addr length : BitVec 64} (h : UserInv u0 u)
    (hop : (UserOp.mmap task addr length).Confined u) :
    UserInv u0 (userStep u (.mmap task addr length)) := by
  have hslot := h.ownSlot
  simp only [userStep]
  cases htask : u.tasks[task]? with
  | none => exact h
  | some t =>
    obtain ⟨hpml4, hsame, lvl, howned, htasks⟩ := h
    have hcr3 := htasks t (List.mem_of_getElem? htask)
    have hrange := hop t htask
    rw [hslot] at hrange
    obtain ⟨⟨lvl', ho, he, hs⟩, t', ht', hcr3'⟩ := howned.sysMmap hcr3 hrange
    simp only [ht']
    refine userInv_mk hpml4 (hsame.trans hs) ho fun x hx => ?_
    obtain hx | rfl := List.mem_or_eq_of_mem_set hx
    · exact he _ _ (htasks x hx)
    · rw [hcr3']
      exact he _ _ hcr3

theorem userInv_munmap {addr length : BitVec 64} (h : UserInv u0 u)
    (hop : (UserOp.munmap task addr length).Confined u) :
    UserInv u0 (userStep u (.munmap task addr length)) := by
  have hslot := h.ownSlot
  simp only [userStep]
  cases htask : u.tasks[task]? with
  | none => exact h
  | some t =>
    obtain ⟨hpml4, hsame, lvl, howned, htasks⟩ := h
    have hrange : OwnRange (OwnSlot u.phys.mem u.kernelPml4) addr (pageCount length.toNat) := hop
    rw [hslot] at hrange
    obtain ⟨lvl', ho, he, hs⟩ := howned.sysMunmap (htasks t (List.mem_of_getElem? htask)) hrange
    exact userInv_mk hpml4 (hsame.trans hs) ho fun x hx => he _ _ (htasks x hx)

theorem userInv_step (h : UserInv u0 u) {op : UserOp} (hop : op.Confined u) :
    UserInv u0 (userStep u op) := by
  cases op with
  | elfLoad img heap => exact userInv_elfLoad h hop
  | mmap task addr length => exact userInv_mmap h hop
  | munmap task addr length => exact userInv_munmap h hop

/-- **The kernel's half is unchanged** in every state that a confined run
reaches: every address in it has the same entry and the same translation. -/
theorem kernelHalf_of_reachable {u0 u : UserSpace} (hk : KernelOk u0) (htasks : u0.tasks = [])
    (h : ConfinedReachable u0 u) (v : BitVec 64) (hv : 256 ≤ (pml4Idx v).val) :
    u.kernelPml4 = u0.kernelPml4 ∧
      pageEntry u.phys.mem u.kernelPml4 v = pageEntry u0.phys.mem u0.kernelPml4 v ∧
      vmmTranslate u.phys.mem u.kernelPml4 v = vmmTranslate u0.phys.mem u0.kernelPml4 v := by
  have hinv : UserInv u0 u := by
    induction h with
    | refl => exact userInv_start hk htasks
    | tail _ hstep ih =>
      obtain ⟨op, hop, rfl⟩ := hstep
      exact userInv_step ih hop
  obtain ⟨hpml4, hsame, -⟩ := hinv
  rw [hpml4]
  exact ⟨rfl, kernelHalf_of_same hsame hv⟩

def onePageMem : Mem :=
  let m : Mem := fun _ => 0
  let m := setEntry m 0x200000 511 0x201003#64
  let m := setEntry m 0x201000 510 0x202003#64
  let m := setEntry m 0x202000 0 0x203003#64
  setEntry m 0x203000 256 0x100103#64

def onePageKernel : UserSpace :=
  ⟨⟨onePageMem, pmmInit [⟨0x204000, 0x3C000, 1⟩] 0x101000⟩, 0x200000, []⟩

def onePageElf : ElfImage where
  data :=
    let m : Mem := fun _ => 0
    let m := store 4 m 0 elfMagic
    let m := store 1 m 4 elfClass64
    let m := store 1 m 5 elfData2Lsb
    let m := store 2 m 16 etExec
    let m := store 2 m 18 emX86x64
    let m := store 4 m 20 evCurrent
    let m := store 8 m 24 0x400000
    let m := store 8 m 32 elfHdrSize
    let m := store 2 m 54 elfPhdrSize
    let m := store 2 m 56 1
    let m := store 4 m 64 ptLoad
    let m := store 8 m 80 0x400000
    store 8 m 104 0x1000
  size := 120

theorem childTable_onePage (i : Fin 512) :
    childTable (entry onePageMem 0x200000 i) = (if i = 511 then some 0x201000 else none) ∧
    childTable (entry onePageMem 0x201000 i) = (if i = 510 then some 0x202000 else none) ∧
    childTable (entry onePageMem 0x202000 i) = (if i = 0 then some 0x203000 else none) := by
  have hzero : ∀ t (k : Fin 512), childTable (entry (fun _ => 0) t k) = none := by
    intro t k
    rw [entry, load_eq_zero fun _ _ _ => rfl]
    exact childTable_zero
  unfold onePageMem
  dsimp only
  refine ⟨?_, ?_, ?_⟩
  · rw [entry_setEntry_of_ne (by decide) (by decide) (.inl (by decide)),
      entry_setEntry_of_ne (by decide) (by decide) (.inl (by decide)),
      entry_setEntry_of_ne (by decide) (by decide) (.inl (by decide))]
    by_cases hi : i = 511
    · rw [hi, entry_setEntry_self]
      decide
    · rw [entry_setEntry_of_ne (by decide) (by decide) (.inr hi), hzero, if_neg hi]
  · rw [entry_setEntry_of_ne (by decide) (by decide) (.inl (by decide)),
      entry_setEntry_of_ne (by decide) (by decide) (.inl (by decide))]
    by_cases hi : i = 510
    · rw [hi, entry_setEntry_self]
      decide
    · rw [entry_setEntry_of_ne (by decide) (by decide) (.inr hi),
        entry_setEntry_of_ne (by decide) (by decide) (.inl (by decide)), hzero, if_neg hi]
  · rw [entry_setEntry_of_ne (by decide) (by decide) (.inl (by decide))]
    by_cases hi : i = 0
    · rw [hi, entry_setEntry_self]
      decide
    · rw [entry_setEntry_of_ne (by decide) (by decide) (.inr hi),
        entry_setEntry_of_ne (by decide) (by decide) (.inl (by decide)),
        entry_setEntry_of_ne (by decide) (by decide) (.inl (by decide)), hzero, if_neg hi]

theorem kernelTable_onePage {t : Nat} (h : KernelTable onePageMem 0x200000 t) :
    t = 0x200000 ∨ t = 0x201000 ∨ t = 0x202000 ∨ t = 0x203000 := by
  obtain rfl | ⟨i, is, -, hlen, hw⟩ := h
  · exact .inl rfl
  rw [walk, (childTable_onePage i).1] at hw
  split at hw
  · rw [Option.bind_some] at hw
    cases is with
    | nil => cases hw; simp
    | cons j is =>
      rw [walk, (childTable_onePage j).2.1] at hw
      split at hw
      · rw [Option.bind_some] at hw
        cases is with
        | nil => cases hw; simp
        | cons k is =>
          rw [walk, (childTable_onePage k).2.2] at hw
          split at hw
          · rw [Option.bind_some] at hw
            cases is with
            | nil => cases hw; simp
            | cons l is => simp at hlen
          · cases hw
      · cases hw
  · cases hw

theorem kernelOk_onePage : KernelOk onePageKernel where
  zero := by decide +kernel
  used t ht := by
    obtain rfl | rfl | rfl | rfl := kernelTable_onePage ht <;> decide +kernel
  guarded t ht := by
    have hcases := kernelTable_onePage ht
    rw [pageSize_eq] at hcases
    obtain rfl | rfl | rfl | rfl : t = 0x1FF000 ∨ t = 0x200000 ∨ t = 0x201000 ∨ t = 0x202000 := by
      omega
    all_goals decide +kernel

theorem kernelHalf_of_program :
    ∃ u, ConfinedReachable onePageKernel u ∧ u.tasks.length = 1 ∧
      vmmTranslate u.phys.mem u.kernelPml4 0xFFFFFFFF80100ABC#64 = 0x100ABC#64 := by
  have hload : (UserOp.elfLoad onePageElf ⟨0, 0, true⟩).Confined onePageKernel := by
    refine ⟨rfl, fun _ i hi _ _ j hj => .inl ?_⟩
    have hnum : onePageElf.phnum = 1 := by decide +kernel
    obtain rfl : i = 0 := by omega
    have hpages : (onePageElf.phdr 0).numPages = 1 := by decide +kernel
    obtain rfl : j = 0 := by omega
    decide +kernel
  have hunmap : (UserOp.munmap 0 0x400000#64 1#64).Confined
      (userStep onePageKernel (.elfLoad onePageElf ⟨0, 0, true⟩)) := by
    intro i hi
    obtain rfl : i = 0 := by
      have : pageCount (1#64).toNat = 1 := by decide
      omega
    exact .inl (by decide)
  have hr : ConfinedReachable onePageKernel
      (userStep (userStep onePageKernel (.elfLoad onePageElf ⟨0, 0, true⟩))
        (.munmap 0 0x400000#64 1#64)) :=
    .tail (.tail .refl ⟨_, hload, rfl⟩) ⟨_, hunmap, rfl⟩
  have hsame := kernelHalf_of_reachable kernelOk_onePage rfl hr 0xFFFFFFFF80100ABC#64 (by decide)
  refine ⟨_, hr, by decide +kernel, hsame.2.2.trans (by decide +kernel)⟩

/-- The owner of an address space unmaps a page of the kernel image: the entry
is cleared in the table that every address space shares. -/
theorem kernelHalf_broken_by_munmap :
    vmmTranslate (userStep onePageKernel (.elfLoad onePageElf ⟨0, 0, true⟩)).phys.mem 0x200000
        0xFFFFFFFF80100000#64 = 0x100000#64 ∧
      vmmTranslate (userStep (userStep onePageKernel (.elfLoad onePageElf ⟨0, 0, true⟩))
        (.munmap 0 0xFFFFFFFF80100000#64 1#64)).phys.mem 0x200000 0xFFFFFFFF80100000#64 = 0 := by
  decide +kernel

end DevOs
