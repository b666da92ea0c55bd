import DevOs.Elf.Start
import DevOs.Lib.Run
import DevOs.Syscall.KernelHalf

/-!
The regions that `sys_mmap` hands out.
-/

namespace DevOs

open Machine

/-- Memory, a task, and the frames that `sys_mmap` has taken for its pages and
that have not been given back since. -/
structure MmapState where
  phys : Phys Pmm
  task : UserTask
  taken : List Nat

inductive MmapCall where
  | mmap (addr length : BitVec 64)
  | munmap (addr length : BitVec 64)

def mmapPages (length : BitVec 64) : Nat := pageCount (alignUp length.toNat pageSize)

def mmapStep (st : MmapState) : MmapCall → Option MmapState
  | .mmap addr length =>
    let (_, t, s) := sysMmap st.phys (some st.task) addr length
    t.map fun t => ⟨s, t, st.taken ++ allocRangeFrames st.task.cr3 (vmmUserRw ||| vmmNoExec)
      (mmapPages length) (mmapBase st.task addr) st.phys⟩
  | .munmap addr length =>
    let (_, s) := sysMunmap st.phys st.task addr length
    some ⟨s, st.task, st.taken.filter fun q => frameUsed s.frames (q / pageSize)⟩

def MmapState.NoneLost (st : MmapState) : Prop :=
  ∀ q ∈ st.taken, FreeFrame st.phys.frames q ∨
    ∃ v : BitVec 64, v.toNat < 2 ^ 47 ∧
      vmmTranslate st.phys.mem st.task.cr3 v = BitVec.ofNat 64 q

/-- A region that `sys_mmap` chooses itself was not mapped before the call. -/
def MmapCall.Fresh (st : MmapState) : MmapCall → Prop
  | .mmap addr length =>
    let r := (sysMmap st.phys (some st.task) addr length).1
    addr = 0 → r ≠ einval → r ≠ enomem → ∀ v : BitVec 64, r ≤ v →
      v.toNat < r.toNat + length.toNat → vmmTranslate st.phys.mem st.task.cr3 v = 0
  | .munmap _ _ => True

/-- There are frames for some pages and for the tables that they miss, or there is
none at all. -/
def MmapState.Enough (st : MmapState) (vs : List (BitVec 64)) : Prop :=
  vs.length + (missingTables st.phys.mem st.task.cr3 vs).card ≤
      (clearFrames st.phys.frames.bitmap).card ∨
    clearFrames st.phys.frames.bitmap = ∅

/-- A call that fits: frames are enough; a region at the cursor ends below the
stack; a region with an address is in the user's half, not mapped, and not between
the cursor and the stack. -/
def MmapCall.Fits (st : MmapState) : MmapCall → Prop
  | .mmap addr length =>
    let vs := pagesFrom (mmapBase st.task addr) (mmapPages length)
    st.Enough vs ∧
      if addr = 0 then st.task.mmapCursor.toNat + length.toNat ≤ userStackBottom.toNat
      else addr.toNat + length.toNat ≤ 2 ^ 47 ∧
        ∀ v ∈ vs, vmmTranslate st.phys.mem st.task.cr3 v = 0 ∧
          (v < st.task.mmapCursor ∨ userStackBottom ≤ v)
  | .munmap addr length => addr.toNat + length.toNat ≤ 2 ^ 47

/-- The segments of a program are in the user's half, and not between the first
region and the stack. -/
def ElfImage.Outside (img : ElfImage) : Prop :=
  ∀ v, img.SegmentPage v → v.toNat < 2 ^ 47 ∧ (v < 0x0000500000000000#64 ∨ userStackBottom ≤ v)

theorem mmapPages_of_lt {length : BitVec 64} (h : length.toNat + 4095 < 2 ^ 64) :
    mmapPages length = (length.toNat + 4095) / 4096 := by
  rw [mmapPages, alignUp_of_lt h, pageCount_of_lt (by omega)]
  omega

theorem toNat_userStackBottom : userStackBottom.toNat = 0x7FFFFFFE0000 := by decide

theorem toNat_mmapBase (t : UserTask) (addr : BitVec 64) : (mmapBase t addr).toNat =
      if addr = 0 then t.mmapCursor.toNat else addr.toNat / 4096 * 4096 := by
  have hlt := addr.isLt
  by_cases h : addr = 0
  · rw [mmapBase, if_neg (not_not.mpr h), if_pos h]
  · rw [mmapBase, if_pos h, if_neg h, alignDown, BitVec.toNat_ofNat, pageSize_eq]
    omega

def UserTask.advance (t : UserTask) (length : BitVec 64) : UserTask :=
  { t with mmapCursor := t.mmapCursor + BitVec.ofNat 64 (alignUp length.toNat pageSize) }

variable {s s' : Phys Pmm} {ok : Bool}

/-- **`sys_mmap`** maps the pages from the base on, as far as it gets, and moves
the cursor if it has chosen the base and mapped all of them. -/
theorem sysMmap_of_loop {t : UserTask} {addr length : BitVec 64}
    (hlen : length ≠ 0)
    (h : allocRangeLoop t.cr3 (vmmUserRw ||| vmmNoExec) (mmapPages length) (mmapBase t addr) s =
      (ok, s')) : sysMmap s (some t) addr length = (if ok = true then mmapBase t addr else enomem,
      some (if ok = true ∧ addr = 0 then t.advance length else t), s') := by
  rw [sysMmap, if_neg hlen]
  dsimp only [vmmAllocRange]
  rw [← mmapPages, h]
  cases ok with
  | false => rfl
  | true =>
    by_cases ha : addr = 0
    · subst ha
      rfl
    · dsimp only
      rw [if_neg (by decide), if_neg ha, if_pos rfl, if_neg fun hc => ha hc.2]

theorem mmapStep_of_loop {st : MmapState} {addr length : BitVec 64} {s : Phys Pmm}
    (h : allocRangeLoop st.task.cr3 (vmmUserRw ||| vmmNoExec) (mmapPages length)
      (mmapBase st.task addr) st.phys = (ok, s)) : mmapStep st (.mmap addr length) =
      some ⟨s, if ok = true ∧ addr = 0 then st.task.advance length else st.task,
        st.taken ++ allocRangeFrames st.task.cr3 (vmmUserRw ||| vmmNoExec) (mmapPages length)
          (mmapBase st.task addr) st.phys⟩ := by
  by_cases hz : length = 0
  · subst hz
    obtain ⟨rfl, rfl⟩ := Prod.mk.inj h
    rw [mmapStep, sysMmap, if_pos rfl, show st.task.advance 0 = st.task from
      congrArg (UserTask.mk st.task.cr3) (BitVec.add_zero _), ite_self]
    rfl
  · rw [mmapStep, sysMmap_of_loop hz h]
    rfl

theorem outside_gap_iff {v : BitVec 64} {c : Nat} (hv : v.toNat < 2 ^ 47) (hc : pageSize ∣ c) :
    ((pageNumber v).toNat * pageSize < c ∨
        userStackBottom.toNat ≤ (pageNumber v).toNat * pageSize) ↔
      v.toNat < c ∨ userStackBottom.toNat ≤ v.toNat := by
  obtain ⟨a, rfl⟩ := hc
  rw [toNat_pageNumber, toNat_userStackBottom, pageSize_eq]
  omega

theorem mmapStep_eq_some (st : MmapState) (c : MmapCall) : ∃ st', mmapStep st c = some st' := by
  cases c with
  | mmap addr length => exact ⟨_, mmapStep_of_loop rfl⟩
  | munmap addr length => exact ⟨_, rfl⟩

theorem sysMmap_result (s : Phys Pmm) (t : UserTask) (addr length : BitVec 64) :
    (sysMmap s (some t) addr length).1 = einval ∨ (sysMmap s (some t) addr length).1 = enomem ∨
      (sysMmap s (some t) addr length).1 = mmapBase t addr := by
  unfold sysMmap
  split
  · exact .inl rfl
  · dsimp only
    split
    · exact .inr (.inl rfl)
    · exact .inr (.inr rfl)

/-- The lower half of the task's address space maps the pages of `f`: none of them
between the cursor and the stack, and among them one for every frame taken. -/
structure Regions (used : Nat → Prop) (f : PageMap) (st : MmapState) : Prop where
  space : Space used st.task.cr3 f (lower st.task.cr3 st.phys)
  aligned : pageSize ∣ st.task.mmapCursor.toNat
  below : st.task.mmapCursor.toNat ≤ userStackBottom.toNat
  gap : ∀ x fr, f x = some fr → x.toNat * pageSize < st.task.mmapCursor.toNat ∨
    userStackBottom.toNat ≤ x.toNat * pageSize
  taken : ∀ q ∈ st.taken, ∃ x fr, f x = some fr ∧ fr.toNat = q

namespace Regions

variable {used : Nat → Prop} {f : PageMap} {st : MmapState} {addr length : BitVec 64}
  {st' : MmapState} {v : BitVec 64} {c : MmapCall}

variable (h : Regions used f st)
include h

theorem translate_eq_zero_iff (hv : v.toNat < 2 ^ 47) :
    vmmTranslate st.phys.mem st.task.cr3 v = 0 ↔ f (pageNumber v) = none := by
  rw [h.space.tree.vmmTranslate_lower (lowerHalf_of_lt hv)]
  exact h.space.translate_eq_zero_iff v

theorem unmapped_of_gap (hlo : st.task.mmapCursor.toNat ≤ v.toNat)
    (hhi : v.toNat < userStackBottom.toNat) : f (pageNumber v) = none := by
  cases hf : f (pageNumber v) with
  | none => rfl
  | some fr =>
    have hlt : v.toNat < 2 ^ 47 := hhi.trans (by decide)
    have hgap := (outside_gap_iff hlt h.aligned).mp (h.gap _ fr hf)
    omega

section

variable (hfit : (MmapCall.mmap addr length).Fits st)
include hfit

theorem window : (mmapBase st.task addr).toNat + mmapPages length * pageSize ≤ 2 ^ 47 ∧
      alignUp length.toNat pageSize = mmapPages length * pageSize ∧
      (addr = 0 → (mmapBase st.task addr).toNat + mmapPages length * pageSize ≤
        userStackBottom.toNat) := by
  obtain ⟨a, ha⟩ := h.aligned
  have hbelow := h.below
  have hfit := hfit.2
  have hle : length.toNat ≤ 2 ^ 47 := by
    rw [toNat_userStackBottom] at hfit
    split at hfit <;> omega
  rw [toNat_mmapBase, mmapPages_of_lt (by omega), alignUp_of_lt (by omega)]
  rw [pageSize_eq] at *
  rw [toNat_userStackBottom] at *
  by_cases hz : addr = 0
  · rw [if_pos hz] at hfit ⊢
    omega
  · rw [if_neg hz] at hfit ⊢
    have hend := hfit.1
    exact ⟨by omega, rfl, fun hc => absurd hc hz⟩

theorem unmapped :
    ∀ v ∈ pagesFrom (mmapBase st.task addr) (mmapPages length), f (pageNumber v) = none := by
  intro v hv
  obtain ⟨hend, -, hstack⟩ := h.window hfit
  obtain ⟨i, hi, hto⟩ := toNat_of_mem_pagesFrom hend hv
  rw [pageSize_eq] at *
  by_cases hz : addr = 0
  · have hstack := hstack hz
    have hbase := toNat_mmapBase st.task addr
    rw [if_pos hz] at hbase
    exact h.unmapped_of_gap (by omega) (by omega)
  · have hzero := hfit.2
    rw [if_neg hz] at hzero
    exact (h.translate_eq_zero_iff (by omega)).mp (hzero.2 v hv).1

theorem moved {t : UserTask} (ht : (if addr = 0 then st.task.advance length else st.task) = t) :
    t.cr3 = st.task.cr3 ∧ pageSize ∣ t.mmapCursor.toNat ∧
      st.task.mmapCursor.toNat ≤ t.mmapCursor.toNat ∧ t.mmapCursor.toNat ≤ userStackBottom.toNat ∧
      ∀ v ∈ pagesFrom (mmapBase st.task addr) (mmapPages length),
        v.toNat < t.mmapCursor.toNat ∨ userStackBottom.toNat ≤ v.toNat := by
  obtain ⟨hend, hup, hstack⟩ := h.window hfit
  by_cases hz : addr = 0
  · have hbase := toNat_mmapBase st.task addr
    have hstack := hstack hz
    rw [if_pos hz] at ht hbase
    have hto : t.mmapCursor.toNat = st.task.mmapCursor.toNat + mmapPages length * pageSize := by
      rw [← ht, UserTask.advance, BitVec.toNat_add, BitVec.toNat_ofNat, hup]
      omega
    rw [hto]
    refine ⟨by rw [← ht]; rfl, Nat.dvd_add h.aligned (Nat.dvd_mul_left _ _), Nat.le_add_right _ _,
      by omega, fun v hv => .inl ?_⟩
    obtain ⟨i, hi, hv⟩ := toNat_of_mem_pagesFrom hend hv
    rw [pageSize_eq] at *
    omega
  · rw [if_neg hz] at ht
    have hpages := hfit.2
    rw [if_neg hz] at hpages
    subst ht
    exact ⟨rfl, h.aligned, Nat.le_refl _, h.below, fun v hv => (hpages.2 v hv).2⟩

theorem mmap_maps
    (hcount : mmapPages length + (missingTables st.phys.mem st.task.cr3
        (pagesFrom (mmapBase st.task addr) (mmapPages length))).card ≤
      (clearFrames st.phys.frames.bitmap).card)
    (hs : mmapStep st (.mmap addr length) = some st') :
    ∃ used' f', Regions used' f' st' := by
  obtain ⟨hend, -, -⟩ := h.window hfit
  have hlt : ∀ v ∈ pagesFrom (mmapBase st.task addr) (mmapPages length), v.toNat < 2 ^ 47 := by
    intro v hv
    obtain ⟨i, hi, hv⟩ := toNat_of_mem_pagesFrom hend hv
    rw [pageSize_eq] at *
    omega
  have hlow := fun v hv => lowerHalf_of_lt (hlt v hv)
  rw [← missingTables_lower h.space.tree hlow] at hcount
  have hn : mmapPages length ≤ 2 ^ 36 := by
    rw [pageSize_eq] at hend
    omega
  obtain ⟨hok, used', f', h', hother, hframes⟩ := h.space.allocRange_maps userFlags_present
    userFlags_and_mask (mmapPages length) hlow (nodup_pageNumbers _ hn) hcount
  rcases hloop : allocRangeLoop st.task.cr3 (vmmUserRw ||| vmmNoExec) (mmapPages length)
    (mmapBase st.task addr) st.phys with ⟨ok, s⟩
  rw [hloop] at hok h'
  obtain rfl : ok = true := hok
  rw [mmapStep_of_loop hloop] at hs
  simp only [true_and] at hs
  generalize ht : (if addr = 0 then st.task.advance length else st.task) = t at hs
  obtain ⟨hcr3, haligned, hle, hbelow, hpages⟩ := h.moved hfit ht
  cases hs
  refine ⟨used', f', by rw [hcr3]; exact h', haligned, hbelow, fun x fr hx => ?_, fun q hq => ?_⟩
  · by_cases hin : x ∈ (pagesFrom (mmapBase st.task addr) (mmapPages length)).map pageNumber
    · obtain ⟨v, hv, rfl⟩ := List.mem_map.mp hin
      exact (outside_gap_iff (hlt v hv) haligned).mpr (hpages v hv)
    · rw [hother x hin] at hx
      exact (h.gap x fr hx).imp_left fun hlt => Nat.lt_of_lt_of_le hlt hle
  · obtain hq | hq := List.mem_append.mp hq
    · obtain ⟨x, fr, hx, hto⟩ := h.taken q hq
      refine ⟨x, fr, (hother x fun hin => ?_).trans hx, hto⟩
      obtain ⟨v, hv, rfl⟩ := List.mem_map.mp hin
      rw [h.unmapped hfit v hv] at hx
      cases hx
    · exact hframes q hq

theorem mmap (hs : mmapStep st (.mmap addr length) = some st') :
    ∃ used' f', Regions used' f' st' := by
  have henough := hfit.1
  rw [MmapState.Enough, length_pagesFrom] at henough
  obtain hcount | hnone := henough
  · exact h.mmap_maps hfit hcount hs
  · cases hn : mmapPages length with
    | zero =>
      refine h.mmap_maps hfit ?_ hs
      rw [hn, hnone]
      rfl
    | succ n =>
      -- the loop gives up at its first page
      obtain ⟨hloop, hframes⟩ := @allocRangeLoop_of_empty st.task.cr3 st.phys
        (mmapBase st.task addr) (vmmUserRw ||| vmmNoExec) hnone n
      rw [← hn] at hloop hframes
      rw [mmapStep_of_loop hloop, hframes, List.append_nil, if_neg (by simp)] at hs
      cases hs
      exact ⟨used, f, h⟩

end

theorem munmap (hfit : (MmapCall.munmap addr length).Fits st)
    (hs : mmapStep st (.munmap addr length) = some st') :
    ∃ used' f', Regions used' f' st' := by
  have hend : addr.toNat + length.toNat ≤ 2 ^ 47 := hfit
  have hlow : ∀ v ∈ pagesFrom addr (pageCount length.toNat), LowerHalf v := by
    intro v hv
    obtain ⟨i, hi, rfl⟩ := mem_pagesFrom.mp hv
    rw [pageCount_of_lt (by omega)] at hi
    refine lowerHalf_of_lt ?_
    rw [BitVec.toNat_add, BitVec.toNat_ofNat, pageSize_eq]
    omega
  obtain ⟨f', h', hsub, hkeep⟩ : ∃ f',
      Space used st.task.cr3 f' (lower st.task.cr3 (sysMunmap st.phys st.task addr length).2) ∧
      (∀ x fr, f' x = some fr → f x = some fr) ∧
      ∀ x fr, f x = some fr → f' x = some fr ∨
        FreeFrame (sysMunmap st.phys st.task addr length).2.frames fr.toNat := by
    unfold sysMunmap
    split
    · exact ⟨f, h.space, fun x fr hx => hx, fun x fr hx => .inl hx⟩
    · exact h.space.freeRange (pageCount length.toNat) hlow
  rcases hr : sysMunmap st.phys st.task addr length with ⟨r, s⟩
  rw [hr] at h' hkeep
  rw [mmapStep, hr] at hs
  cases hs
  refine ⟨used, f', h', h.aligned, h.below, fun x fr hx => h.gap x fr (hsub x fr hx),
    fun q hq => ?_⟩
  obtain ⟨hq, hused⟩ := List.mem_filter.mp hq
  obtain ⟨x, fr, hx, rfl⟩ := h.taken q hq
  refine ⟨x, fr, (hkeep x fr hx).resolve_right fun hfree => ?_, rfl⟩
  exact Bool.false_ne_true (hfree.2.2.symm.trans hused)

theorem step (hfit : c.Fits st)
    (hs : mmapStep st c = some st') : ∃ used' f', Regions used' f' st' := by
  cases c with
  | mmap addr length => exact h.mmap hfit hs
  | munmap addr length => exact h.munmap hfit hs

theorem noneLost : st.NoneLost := by
  intro q hq
  obtain ⟨x, fr, hx, rfl⟩ := h.taken q hq
  have hlow := h.space.lowerHalf hx
  refine .inr ⟨pageAddr x, ?_, ?_⟩
  · rw [lowerHalf_iff, toNat_pageAddr] at hlow
    rw [toNat_pageAddr]
    omega
  · rw [h.space.tree.vmmTranslate_lower hlow, BitVec.ofNat_toNat, BitVec.setWidth_eq]
    refine (h.space.translate _).trans ?_
    rw [specTranslate, pageNumber_pageAddr, hx]
    rw [pageAddr_and_offset]
    exact BitVec.or_zero

theorem fresh (hfit : c.Fits st) : c.Fresh st := by
  cases c with
  | munmap addr length => trivial
  | mmap addr length =>
    intro hz heinval henomem v hlo hhi
    have hr := ((sysMmap_result st.phys st.task addr length).resolve_left heinval).resolve_left
      henomem
    have hend := hfit.2
    have hbase := toNat_mmapBase st.task addr
    rw [if_pos hz] at hend hbase
    rw [hr] at hlo hhi
    have hle : (mmapBase st.task addr).toNat ≤ v.toNat := hlo
    rw [hbase] at hle hhi
    have hbot := toNat_userStackBottom
    exact (h.translate_eq_zero_iff (by omega)).mpr (h.unmapped_of_gap hle (by omega))

end Regions

theorem regions_of_elfLoad {usedK : Nat → Prop} {k : Nat} {img : ElfImage}
    {heap : HeapNeed} {task : UserTask} (hk : TreeOk usedK k s) (himg : img.Outside)
    (h : elfLoad s k img heap = (some task, s')) : ∃ used f, Regions used f ⟨s', task, []⟩ := by
  obtain ⟨hcursor, used, f, hspace, hf⟩ :=
    elfLoad_space hk (fun v hv => lowerHalf_of_lt (himg v hv).1) h
  have hto : task.mmapCursor.toNat = 0x500000000000 := by rw [hcursor]; rfl
  have haligned : pageSize ∣ task.mmapCursor.toNat := by
    rw [hto]
    decide
  have hbelow : task.mmapCursor.toNat ≤ userStackBottom.toNat := by
    rw [hto]
    decide
  refine ⟨used, f, hspace, haligned, hbelow, fun x fr hx => ?_,
    fun q hq => (List.not_mem_nil hq).elim⟩
  obtain ⟨v, hv, rfl⟩ | hx := hf x fr hx
  · obtain ⟨hlt, hv⟩ := himg v hv
    rw [← hcursor] at hv
    exact (outside_gap_iff hlt haligned).mpr hv
  · obtain ⟨v, hv, rfl⟩ := List.mem_map.mp hx
    obtain ⟨i, hi, hv⟩ := toNat_of_mem_pagesFrom (by decide) hv
    have hsize : pageCount userStackSize = 16 := by decide
    rw [toNat_userStackBottom, pageSize_eq] at hv
    refine (outside_gap_iff (by omega) haligned).mpr (.inr ?_)
    rw [toNat_userStackBottom]
    omega

/-- **Runs of memory calls** by a task that `elf_load` has started. -/
theorem mmap_fresh_of_steps {usedK : Nat → Prop} {k : Nat} {s s' : Phys Pmm} {img : ElfImage}
    {heap : HeapNeed} {task : UserTask} {calls : List MmapCall} (hk : TreeOk usedK k s)
    (himg : img.Outside) (h : elfLoad s k img heap = (some task, s'))
    (hfit : Steps mmapStep MmapCall.Fits ⟨s', task, []⟩ calls) :
    Steps mmapStep MmapCall.Fresh ⟨s', task, []⟩ calls ∧
      Always mmapStep MmapState.NoneLost ⟨s', task, []⟩ calls := by
  have hstart := regions_of_elfLoad hk himg h
  have hstep : ∀ st c st', (∃ used f, Regions used f st) → c.Fits st → mmapStep st c = some st' →
      ∃ used f, Regions used f st' := by
    rintro st c st' ⟨used, f, h⟩ hfit hs
    exact h.step hfit hs
  constructor
  · refine steps_of_steps (fun st c st' hi hc _ => ?_) hstep calls hstart hfit
    obtain ⟨used, f, h⟩ := hi
    exact h.fresh hc
  · refine always_of_steps (fun st hi => ?_) hstep calls hstart hfit
    obtain ⟨used, f, h⟩ := hi
    exact h.noneLost

def bareMachine : Phys Pmm := ⟨fun _ => 0, pmmInit [⟨0x201000, 0x3F000, 1⟩] 0x101000⟩

theorem treeOk_bareMachine : TreeOk (· = 0x200000) 0x200000 bareMachine := by
  rw [show bareMachine = emptyMachine 0x3F from rfl]
  exact treeOk_emptyMachine (by decide)

/-- Memory when the program has been loaded there. -/
@[irreducible] def barePhys : Phys Pmm := (elfLoad bareMachine 0x200000 onePageElf ⟨0, 0, true⟩).2

abbrev bareTask : MmapState := ⟨barePhys, ⟨0x201000, 0x0000500000000000#64⟩, []⟩

theorem loaded_bareMachine :
    (elfLoad bareMachine 0x200000 onePageElf ⟨0, 0, true⟩).1 = some bareTask.task ∧
      ∀ g ∈ List.range' 0x220 6, frameUsed barePhys.frames g = false := by
  decide +kernel

theorem elfLoad_bareMachine :
    elfLoad bareMachine 0x200000 onePageElf ⟨0, 0, true⟩ = (some bareTask.task, barePhys) := by
  have hphys : (elfLoad bareMachine 0x200000 onePageElf ⟨0, 0, true⟩).2 = barePhys := by
    unfold barePhys
    rfl
  exact Prod.ext loaded_bareMachine.1 hphys

theorem outside_onePageElf : onePageElf.Outside := by
  rintro v ⟨i, hi, -, -, hv⟩
  have hnum : onePageElf.phnum = 1 := by decide +kernel
  obtain rfl : i = 0 := by omega
  have hpages : pagesFrom (BitVec.ofNat 64 (onePageElf.phdr 0).vaStart)
      (onePageElf.phdr 0).numPages = [0x400000#64] := by decide +kernel
  rw [hpages, List.mem_singleton] at hv
  subst hv
  exact ⟨by decide, .inl (by decide)⟩

theorem enough_of_le {st : MmapState} {vs : List (BitVec 64)} {n : Nat}
    (htables : vs.length + (tablePaths vs).card ≤ n)
    (hclear : n ≤ (clearFrames st.phys.frames.bitmap).card) : st.Enough vs := by
  have hle := card_missingTables_le st.phys.mem st.task.cr3 vs
  exact .inl (by omega)

theorem enough_bareTask :
    bareTask.Enough (pagesFrom (mmapBase bareTask.task 0) (mmapPages 0x2000#64)) := by
  have hsix : 6 ≤ (clearFrames barePhys.frames.bitmap).card := by
    rw [← show (Finset.Ico 0x220 0x226).card = 6 from rfl]
    refine Finset.card_le_card fun g hg => mem_clearFrames.mpr ?_
    rw [Finset.mem_Ico] at hg
    exact ⟨hg.2.trans (by decide), loaded_bareMachine.2 g (List.mem_range'_1.mpr hg)⟩
  have hpages : pagesFrom (mmapBase bareTask.task 0) (mmapPages 0x2000#64) =
      [0x0000500000000000#64, 0x0000500000001000#64] := by decide +kernel
  exact enough_of_le (by decide) hsix

theorem mmap_fresh_bareTask :
    Steps mmapStep MmapCall.Fits bareTask
        [.mmap 0 0x2000#64, .munmap 0x0000500000000000#64 0x1000#64] ∧
      Steps mmapStep MmapCall.Fresh bareTask
        [.mmap 0 0x2000#64, .munmap 0x0000500000000000#64 0x1000#64] ∧
      Always mmapStep MmapState.NoneLost bareTask
        [.mmap 0 0x2000#64, .munmap 0x0000500000000000#64 0x1000#64] := by
  refine ⟨?fits, mmap_fresh_of_steps treeOk_bareMachine outside_onePageElf elfLoad_bareMachine
    ?fits⟩
  refine fun st1 _ => ⟨⟨enough_bareTask, ?_⟩, fun st2 _ => ⟨?_, trivial⟩⟩
  · decide
  · show (0x0000500000000000#64).toNat + (0x1000#64).toNat ≤ 2 ^ 47
    decide

def bareTaskMapped : MmapState :=
  (mmapStep bareTask (.mmap 0x0000500000000000#64 0x1000#64)).getD bareTask

theorem mmap_hands_out_mapped_page :
    elfLoad bareMachine 0x200000 onePageElf ⟨0, 0, true⟩ = (some bareTask.task, bareTask.phys) ∧
      ¬ Steps mmapStep MmapCall.Fresh bareTask
        [.mmap 0x0000500000000000#64 0x1000#64, .mmap 0 0x1000#64] := by
  refine ⟨elfLoad_bareMachine, fun hsteps => ?_⟩
  have heval : (sysMmap bareTaskMapped.phys (some bareTaskMapped.task) 0 0x1000#64).1 =
        0x0000500000000000#64 ∧
      vmmTranslate bareTaskMapped.phys.mem bareTaskMapped.task.cr3 0x0000500000000000#64 ≠ 0 := by
    decide +kernel
  have hfirst :
      mmapStep bareTask (.mmap 0x0000500000000000#64 0x1000#64) = some bareTaskMapped := by
    obtain ⟨st, hst⟩ := mmapStep_eq_some bareTask (.mmap 0x0000500000000000#64 0x1000#64)
    rw [bareTaskMapped, hst, Option.getD_some]
  obtain ⟨st, hst⟩ := mmapStep_eq_some bareTaskMapped (.mmap 0 0x1000#64)
  have hfresh := ((hsteps _ hfirst).2 _ hst).1 rfl
  rw [heval.1] at hfresh
  exact heval.2 (hfresh (by decide) (by decide) _ (by decide) (by decide))

end DevOs
