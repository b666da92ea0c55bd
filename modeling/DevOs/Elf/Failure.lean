import DevOs.Elf.Layout
import DevOs.Mm.Heap.Growth
import DevOs.Syscall.Entry

/-!
What a call of `elf_load` that returns NULL leaves behind.
-/

namespace DevOs

open ByteMem Function

section

variable {σ : Type} [FrameSource σ]

/-- `elf_load` up to `sched_create_user_task`: the PML4 of the new address space, and `none`
for a return of NULL. -/
def loadSpace (s : Phys σ) (kernelPml4 : Nat) (img : ElfImage) : Option Nat × Phys σ :=
  if elfValidate img = false then (none, s)
  else
    let (pml4, s) := vmmCreateAddressSpace s kernelPml4
    if pml4 = 0 then (none, s)
    else
      let (ok, s) := mapSegments pml4 img img.phnum 0 s
      if ok = false then (none, s)
      else
        let (ok, s) := vmmAllocRange s pml4 (userStackTop - BitVec.ofNat 64 userStackSize)
          userStackSize (vmmUserRw ||| vmmNoExec)
        if ok = false then (none, s) else (some pml4, writeNullRet s pml4)

end

/-- `sizeof(task_t)`. -/
def taskSize : Nat := 720

/-- What `elf_load` works on: the heap and the frames, the scheduler, and the address of the
record of each task. -/
structure Loader where
  memory : KernelHeap
  sched : Sched
  record : TaskId → Option Nat

namespace Loader

def phys (k : Loader) : Phys Pmm := k.memory.phys

def withPhys (k : Loader) (s : Phys Pmm) : Loader :=
  { k with memory := { k.memory with phys := s } }

end Loader

/-- `sched_alloc_task`; `none` if the heap does not return. -/
def schedAllocTask (kernelPml4 : Nat) (k : Loader) : Option (Option TaskId × Loader) :=
  match kzallocOn kernelPml4 k.memory taskSize with
  | none => none
  | some (t, m) =>
    if t = 0 then some (none, { k with memory := m })
    else
      let pid := k.sched.nextPid
      let record := update k.record pid (some t)
      match kmallocOn kernelPml4 m kstackSize with
      | none => none
      | some (kstack, m) =>
        if kstack = 0 then
          -- what was written to the record goes with it, but the pid is used up
          some (none, ⟨kfreeOn m t, { k.sched with nextPid := pid + 1 },
            update record pid none⟩)
        else
          some (some pid, ⟨m,
            schedCreateTask k.sched (alignDown ((kstack + kstackSize) % 2 ^ 64) 16), record⟩)

def schedCreateUserTaskOn (kernelPml4 pml4 : Nat) (k : Loader) :
    Option (Option (TaskId × UserTask) × Loader) :=
  (schedAllocTask kernelPml4 k).map fun r =>
    (r.1.map fun t => (t, ⟨pml4, 0x0000500000000000#64⟩), r.2)

/-- The end of `elf_load`: a task that could be created is queued. -/
def enqueueLoaded : Option (TaskId × UserTask) × Loader → Option (TaskId × UserTask) × Loader
  | (none, k) => (none, k)
  | (some t, k) => (some t, { k with sched := schedEnqueue k.sched t.1 })

def elfLoadOn (kernelPml4 : Nat) (k : Loader) (img : ElfImage) :
    Option (Option (TaskId × UserTask) × Loader) :=
  match loadSpace k.phys kernelPml4 img with
  | (none, s) => some (none, k.withPhys s)
  | (some pml4, s) =>
    (schedCreateUserTaskOn kernelPml4 pml4 (k.withPhys s)).map enqueueLoaded

section

variable {kernelPml4 : Nat} {k k' : Loader} {img : ElfImage}

theorem schedAllocTask_cases {t : Option TaskId} (h : schedAllocTask kernelPml4 k = some (t, k')) :
    ∃ ptr m, kzallocOn kernelPml4 k.memory taskSize = some (ptr, m) ∧
      ((t = none ∧ k' = { k with memory := m }) ∨
        ptr ≠ 0 ∧ ∃ kstack m', kmallocOn kernelPml4 m kstackSize = some (kstack, m') ∧
          ((t = none ∧ k' = ⟨kfreeOn m' ptr, { k.sched with nextPid := k.sched.nextPid + 1 },
              update k.record k.sched.nextPid none⟩) ∨
            t = some k.sched.nextPid ∧ k' = ⟨m',
              schedCreateTask k.sched (alignDown ((kstack + kstackSize) % 2 ^ 64) 16),
              update k.record k.sched.nextPid (some ptr)⟩)) := by
  unfold schedAllocTask at h
  split at h
  · cases h
  · next ptr m hz =>
      refine ⟨ptr, m, hz, ?_⟩
      split at h
      · cases h
        exact .inl ⟨rfl, rfl⟩
      · next hptr =>
          dsimp only at h
          split at h
          · cases h
          · next kstack m' hk =>
              refine .inr ⟨hptr, kstack, m', hk, ?_⟩
              split at h
              · cases h
                rw [update_idem]
                exact .inl ⟨rfl, rfl⟩
              · cases h
                exact .inr ⟨rfl, rfl⟩

theorem elfLoadOn_cases {t : Option (TaskId × UserTask)}
    (h : elfLoadOn kernelPml4 k img = some (t, k')) :
    (∃ s, loadSpace k.phys kernelPml4 img = (none, s) ∧ t = none ∧ k' = k.withPhys s) ∨
      ∃ pml4 s u k1, loadSpace k.phys kernelPml4 img = (some pml4, s) ∧
        schedAllocTask kernelPml4 (k.withPhys s) = some (u, k1) ∧
        enqueueLoaded (u.map fun t => (t, ⟨pml4, 0x0000500000000000#64⟩), k1) = (t, k') := by
  unfold elfLoadOn at h
  split at h
  · next s hs =>
      cases h
      exact .inl ⟨s, hs, rfl, rfl⟩
  · next pml4 s hs =>
      obtain ⟨r, hr, heq⟩ := Option.map_eq_some_iff.mp h
      obtain ⟨⟨u, k1⟩, hu, rfl⟩ := Option.map_eq_some_iff.mp hr
      exact .inr ⟨pml4, s, u, k1, hs, hu, heq⟩

end

section

variable {σ : Type} [FrameSource σ] {s : Phys σ} {pml4 : Nat}

theorem takes_vmmAllocMap (s : Phys σ) (pml4 : Nat) (virt flags : BitVec 64) :
    Takes s.frames (vmmAllocMap s pml4 virt flags).2.frames := by
  unfold vmmAllocMap
  split
  · exact .refl _
  · next page s1 ha => exact (takes_allocPage ha).trans (takes_vmmMap _ _ _ _ _)

theorem takes_allocRangeLoop (pml4 : Nat) (flags : BitVec 64) (n : Nat) (va : BitVec 64)
    (s : Phys σ) : Takes s.frames (allocRangeLoop pml4 flags n va s).2.frames := by
  induction n generalizing va s with
  | zero => exact .refl _
  | succ n ih =>
    have hfirst := takes_vmmAllocMap s pml4 va flags
    unfold allocRangeLoop
    dsimp only
    split
    · exact hfirst
    · exact hfirst.trans (ih _ _)

theorem takes_mapSegmentLoop (pml4 : Nat) (img : ElfImage) (ph : ElfPhdr) (n pageVa : Nat)
    (s : Phys σ) : Takes s.frames (mapSegmentLoop pml4 img ph n pageVa s).2.frames := by
  induction n generalizing pageVa s with
  | zero => exact .refl _
  | succ n ih =>
    unfold mapSegmentLoop
    split
    · exact .refl _
    · next page s1 ha =>
        have hmap := (takes_allocPage ha).trans (takes_vmmMap s1 pml4 (BitVec.ofNat 64 pageVa)
          (BitVec.ofNat 64 page) (elfFlagsToVmm ph.flags))
        dsimp only
        generalize vmmMap s1 pml4 (BitVec.ofNat 64 pageVa) (BitVec.ofNat 64 page)
          (elfFlagsToVmm ph.flags) = s2 at hmap ⊢
        exact hmap.trans (ih _ { s2 with mem := copyFileData img ph s2.mem page pageVa })

theorem takes_elfMapSegment (s : Phys σ) (pml4 : Nat) (img : ElfImage) (ph : ElfPhdr) :
    Takes s.frames (elfMapSegment s pml4 img ph).2.frames := by
  unfold elfMapSegment
  split
  · exact .refl _
  · split
    · exact .refl _
    · exact takes_mapSegmentLoop _ _ _ _ _ _

theorem takes_mapSegments (pml4 : Nat) (img : ElfImage) (n i : Nat) (s : Phys σ) :
    Takes s.frames (mapSegments pml4 img n i s).2.frames := by
  induction n generalizing i s with
  | zero => exact .refl _
  | succ n ih =>
    have hfirst := takes_elfMapSegment s pml4 img (img.phdr i)
    unfold mapSegments
    rcases e : elfMapSegment s pml4 img (img.phdr i) with ⟨ok, s1⟩
    rw [e] at hfirst
    split
    · exact ih _ _
    · cases ok
      · exact hfirst
      · exact hfirst.trans (ih _ _)

omit [FrameSource σ] in
theorem frames_writeNullRet (s : Phys σ) (pml4 : Nat) :
    (writeNullRet s pml4).frames = s.frames := by
  unfold writeNullRet
  dsimp only
  split <;> rfl

theorem takes_loadSpace {page kernelPml4 : Nat} {img : ElfImage} {s1 : Phys σ}
    (hvalid : elfValidate img = true) (ha : allocPage s = some (page, s1)) :
    Takes s1.frames (loadSpace s kernelPml4 img).2.frames := by
  unfold loadSpace vmmCreateAddressSpace
  rw [if_neg (by rw [hvalid]; decide), ha]
  dsimp only
  split
  · exact .refl _
  · have hsegments := takes_mapSegments page img img.phnum 0
      { s1 with mem := copyUpperHalf s1.mem kernelPml4 page }
    split
    · exact hsegments
    · have hstack := hsegments.trans (takes_allocRangeLoop page (vmmUserRw ||| vmmNoExec)
        (pageCount userStackSize) (userStackTop - BitVec.ofNat 64 userStackSize) _)
      unfold vmmAllocRange
      split
      · exact hstack
      · rw [frames_writeNullRet]
        exact hstack

theorem loadSpace_of_none {kernelPml4 : Nat} {img : ElfImage}
    (h : elfValidate img = false ∨ allocPage s = none) :
    loadSpace s kernelPml4 img = (none, s) := by
  unfold loadSpace vmmCreateAddressSpace
  split
  · rfl
  · next hvalid =>
      rw [h.resolve_left hvalid]
      exact if_pos rfl

end

section

variable {pml4 size ptr : Nat} {m m' : KernelHeap} {t : Option TaskId} {p p' : Pmm}

theorem allocPage_eq_none_iff (s : Phys Pmm) :
    allocPage s = none ↔ ∀ t, ¬ FreeFrame s.frames t := by
  have hnone : allocPage s = none ↔ pmmAlloc s.frames = none := by
    rw [allocPage, show FrameSource.alloc s.frames = pmmAlloc s.frames from rfl]
    cases pmmAlloc s.frames <;> simp
  rw [hnone, pmmAlloc_eq_none_iff]
  constructor
  · intro hall t ht
    obtain ⟨-, hlt, hclear⟩ := ht
    rw [hall _ hlt] at hclear
    cases hclear
  · intro hnot f hf
    rw [← Bool.not_eq_false]
    intro hclear
    exact hnot _ ((freeFrame_mul_iff s.frames f).mpr ⟨hf, hclear⟩)

theorem Takes.used (h : Takes p p') {f : Nat} (hf : frameUsed p f = true) :
    frameUsed p' f = true := by
  induction h with
  | refl => exact hf
  | tail _ ha ih =>
    obtain ⟨page, ha⟩ := ha
    obtain ⟨g, -, -, -, hbits⟩ := pmmAlloc_eq_some ha
    rw [hbits, ih, Bool.or_true]

theorem takes_growPages (pml4 : Nat) (m : KernelHeap) (count : Nat) :
    Takes m.phys.frames (growPages pml4 m count).2.frames := by
  unfold growPages
  split
  · exact .refl _
  · exact takes_allocRangeLoop _ _ _ _ _

theorem takes_kmallocOn (h : kmallocOn pml4 m size = some (ptr, m')) :
    Takes m.phys.frames m'.phys.frames := by
  obtain ⟨-, hphys, -⟩ | ⟨count, -, hphys, -⟩ := kmallocOn_eq_some h
  · rw [hphys]
    exact .refl _
  · rw [hphys]
    exact takes_growPages _ _ _

theorem kzallocOn_eq_some (h : kzallocOn pml4 m size = some (ptr, m')) :
    ∃ m1, kmallocOn pml4 m size = some (ptr, m1) ∧ m'.phys = m1.phys ∧
      m'.heap.heapCursor = m1.heap.heapCursor := by
  obtain ⟨⟨p, m1⟩, hr, heq⟩ := Option.map_eq_some_iff.mp h
  dsimp only at heq
  split at heq
  · cases heq
    exact ⟨_, hr, rfl, rfl⟩
  · cases heq
    exact ⟨_, hr, rfl, rfl⟩

end

structure SameTasks (k k' : Loader) : Prop where
  queue : ∀ q, IsQueue k'.sched q ↔ IsQueue k.sched q
  records : ∀ t a, k'.record t = some a → k.record t = some a

/-- **Nothing is lost**: and every frame that was free is free. -/
structure LeftAsBefore (k k' : Loader) : Prop extends SameTasks k k' where
  frames : ∀ t, FreeFrame k.phys.frames t → FreeFrame k'.phys.frames t

structure ElfImage.Accepted (img : ElfImage) : Prop where
  size : elfHdrSize ≤ img.size
  magic : load 4 img.data 0 = elfMagic
  wordSize : load 1 img.data 4 = elfClass64
  byteOrder : load 1 img.data 5 = elfData2Lsb
  type : img.type = etExec
  machine : img.machine = emX86x64
  version : img.version = evCurrent
  phentsize : elfPhdrSize ≤ img.phentsize
  phnum : img.phnum ≠ 0
  entryPoint : img.entryPoint ≠ 0

theorem elfValidate_iff (img : ElfImage) : elfValidate img = true ↔ img.Accepted := by
  constructor
  · intro h
    simp only [elfValidate, Bool.if_false_left, Bool.and_eq_true, Bool.not_eq_true',
      decide_eq_false_iff_not, not_not, Nat.not_lt, and_true] at h
    obtain ⟨h1, h2, h3, h4, h5, h6, h7, h8, h9, h10⟩ := h
    exact ⟨h1, h2, h3, h4, h5, h6, h7, h8, h9, h10⟩
  · intro h
    obtain ⟨h1, h2, h3, h4, h5, h6, h7, h8, h9, h10⟩ := h
    simp only [elfValidate, Nat.not_lt.mpr h1, h2, h3, h4, h5, h6, h7, Nat.not_lt.mpr h8, h9, h10,
      ne_eq, not_true_eq_false, if_false]

variable {kernelPml4 pml4 : Nat} {k k' : Loader} {img : ElfImage} {t : Option TaskId}

theorem schedAllocTask_none (h : schedAllocTask kernelPml4 k = some (none, k')) :
    SameTasks k k' ∧ Takes k.phys.frames k'.phys.frames := by
  obtain ⟨ptr, m, hz, hcases⟩ := schedAllocTask_cases h
  obtain ⟨m1, hm1, hphys, -⟩ := kzallocOn_eq_some hz
  have htakes : Takes k.phys.frames m.phys.frames := hphys ▸ takes_kmallocOn hm1
  obtain ⟨-, rfl⟩ | ⟨-, kstack, m', hk, ⟨-, rfl⟩ | ⟨hsome, -⟩⟩ := hcases
  · exact ⟨⟨fun _ => Iff.rfl, fun _ _ hr => hr⟩, htakes⟩
  · have htakes' := htakes.trans (takes_kmallocOn hk)
    refine ⟨⟨fun q => ⟨fun hq => ⟨hq.ring, hq.head⟩, fun hq => ⟨hq.ring, hq.head⟩⟩,
      fun t a hr => ?_⟩, htakes'⟩
    dsimp only at hr
    rw [update_apply] at hr
    split at hr
    · cases hr
    · exact hr
  · cases hsome

theorem elfLoadOn_none (h : elfLoadOn kernelPml4 k img = some (none, k')) :
    SameTasks k k' ∧ Takes (loadSpace k.phys kernelPml4 img).2.frames k'.phys.frames := by
  obtain ⟨s, hs, -, rfl⟩ | ⟨pml4, s, u, k1, hs, hu, heq⟩ := elfLoadOn_cases h
  · rw [hs]
    exact ⟨⟨fun _ => Iff.rfl, fun _ _ hr => hr⟩, .refl _⟩
  · rw [hs]
    cases u with
    | some u => cases heq
    | none =>
      cases heq
      obtain ⟨⟨hqueue, hrecords⟩, htakes⟩ := schedAllocTask_none hu
      exact ⟨⟨hqueue, hrecords⟩, htakes⟩

/-- **What a failed load leaves behind.** A call of `elf_load` that returns NULL has lost no
frame and made no task exactly if the headers are not accepted or no frame was free. -/
theorem leftAsBefore_iff (h : elfLoadOn kernelPml4 k img = some (none, k')) :
    LeftAsBefore k k' ↔ ¬ img.Accepted ∨ ∀ t, ¬ FreeFrame k.phys.frames t := by
  obtain ⟨hsame, htakes⟩ := elfLoadOn_none h
  rw [← elfValidate_iff, Bool.not_eq_true]
  constructor
  · intro hleft
    by_contra hnot
    obtain ⟨hvalid, hfree⟩ := not_or.mp hnot
    cases ha : allocPage k.phys with
    | none => exact hfree ((allocPage_eq_none_iff _).mp ha)
    | some r =>
      -- the frame of the PML4
      obtain ⟨page, s1⟩ := r
      have hlater := (takes_loadSpace (Bool.eq_true_of_not_eq_false hvalid) ha).trans htakes
      obtain ⟨p, hp, rfl⟩ := allocPage_eq_some ha
      obtain ⟨f, hlt, hclear, rfl, hbits⟩ := pmmAlloc_eq_some hp
      have hused : frameUsed p f = true := by rw [hbits, decide_eq_true rfl, Bool.true_or]
      have hstill := hleft.frames _ ((freeFrame_mul_iff _ _).mpr ⟨hlt, hclear⟩)
      rw [freeFrame_mul_iff, hlater.used hused] at hstill
      cases hstill.2
  · intro hnone
    rw [← allocPage_eq_none_iff] at hnone
    unfold elfLoadOn at h
    rw [loadSpace_of_none hnone] at h
    cases h
    exact ⟨hsame, fun t ht => ht⟩

/-- Two tasks of `sched_init` and a heap with its first pages; `n` frames are left. -/
def bootLoader (n : Nat) : Loader :=
  ⟨heapOnFrames n, schedInit 0x9000 0xA000, fun t => if t < 2 then some (0x8000 + t) else none⟩

theorem leftAsBefore_without_frames :
    (twoSegments 0x401000).Accepted ∧
      ∃ k', elfLoadOn 0x200000 (bootLoader 0) (twoSegments 0x401000) = some (none, k') ∧
        LeftAsBefore (bootLoader 0) k' := by
  have hvalid : elfValidate (twoSegments 0x401000) = true := by decide +kernel
  have hfree : ∀ t, ¬ FreeFrame (bootLoader 0).phys.frames t := by
    intro t ht
    obtain ⟨-, -, hclear⟩ := ht
    obtain ⟨hlo, hhi⟩ := (clear_emptyMachine (by decide)).mp hclear
    omega
  have hload : elfLoadOn 0x200000 (bootLoader 0) (twoSegments 0x401000) =
      some (none, bootLoader 0) := by
    unfold elfLoadOn
    rw [loadSpace_of_none (.inr ((allocPage_eq_none_iff _).mpr hfree))]
    rfl
  exact ⟨(elfValidate_iff _).mp hvalid, _, hload, (leftAsBefore_iff hload).mpr (.inr hfree)⟩

def cutOff : ElfImage := { twoSegments 0x401000 with size := 176 }

/-- **A frame is lost.** The headers are accepted and the first segment is not in the file: the
load fails, and the frame at `0x201000` that became the PML4 stays in use. -/
theorem cutOff_loses_frame :
    FreeFrame (bootLoader 8).phys.frames 0x201000 ∧
      ∃ k', elfLoadOn 0x200000 (bootLoader 8) cutOff = some (none, k') ∧
        ¬ FreeFrame k'.phys.frames 0x201000 ∧ ¬ LeftAsBefore (bootLoader 8) k' := by
  have hfree : FreeFrame (bootLoader 8).phys.frames 0x201000 := by decide +kernel
  have hload : (elfLoadOn 0x200000 (bootLoader 8) cutOff).map
      (fun r => (r.1.isNone, frameUsed r.2.phys.frames 0x201)) = some (true, true) := by
    decide +kernel
  obtain ⟨⟨t, k'⟩, hr, heq⟩ := Option.map_eq_some_iff.mp hload
  obtain ⟨hnone, hused⟩ := Prod.mk.inj heq
  obtain rfl := Option.isNone_iff_eq_none.mp hnone
  have hlost : ¬ FreeFrame k'.phys.frames 0x201000 := fun hf => by
    rw [show frameUsed k'.phys.frames 0x201 = false from hf.2.2] at hused
    cases hused
  exact ⟨hfree, k', hr, hlost, fun hleft => hlost (hleft.frames _ hfree)⟩

end DevOs
