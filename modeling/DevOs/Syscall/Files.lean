import DevOs.Fs.Refcount
import DevOs.Fs.Content

/-!
The system calls on files.
-/

namespace DevOs

/-- `(uint64_t)x` for a signed `x`. -/
def uint64 (x : Int) : Nat := (x % 2 ^ 64).toNat

/-- `(uint64_t)-EFAULT`. -/
def efault : Nat := uint64 (-14)

def uptrOk (addr len : Nat) : Bool :=
  if addr = 0 ∨ len = 0 then false
  else if 0x00007FFFFFFFFFFF ≤ addr then false
  else if (addr + len) % 2 ^ 64 < addr then false
  else if 0x00007FFFFFFFFFFF < (addr + len) % 2 ^ 64 then false
  else true

def userBytes (mem : Nat → UInt8) (addr len : Nat) : List UInt8 :=
  (List.range len).map fun i => mem (addr + i)

structure FileWorld where
  vfs : Vfs
  serial : List UInt8

def sysOpen (w : FileWorld) (t : TaskId) (ptr : Nat) (path : CString) (flags mode : Nat)
    (okNode okFile : Bool) : Option (Nat × FileWorld) :=
  if uptrOk ptr 1 then
    (vfsOpen w.vfs (some t) path (flags % 2 ^ 32) (mode % 2 ^ 32) okNode okFile).map fun res =>
      (uint64 res.1, { w with vfs := res.2 })
  else some (efault, w)

def sysClose (w : FileWorld) (t : TaskId) (fd : Nat) : Nat × FileWorld :=
  let res := vfsClose w.vfs (some t) (int32 fd)
  (uint64 res.1, { w with vfs := res.2 })

def sysWrite (w : FileWorld) (t : TaskId) (mem : Nat → UInt8) (fd buf count : Nat)
    (fresh : Option (Nat → UInt8)) : Nat × FileWorld :=
  if uptrOk buf count then
    if fd = 1 ∨ fd = 2 then
      (count, { w with serial := w.serial ++ userBytes mem buf count })
    else
      let res := vfsWrite w.vfs (some t) (int32 fd) (userBytes mem buf count) fresh
      (uint64 res.1, { w with vfs := res.2 })
  else (efault, w)

/-- `vfs_write` on the bytes of the caller, and its result as a system call returns it. -/
def fileWrite (w : FileWorld) (t : TaskId) (mem : Nat → UInt8) (fd buf count : Nat)
    (fresh : Option (Nat → UInt8)) : Nat × FileWorld :=
  let res := vfsWrite w.vfs (some t) fd (userBytes mem buf count) fresh
  (uint64 res.1, { w with vfs := res.2 })

inductive FileTaskOp where
  | open (ptr : Nat) (path : CString) (flags mode : Nat) (okNode okFile : Bool)
  | close (fd : Nat)

/-- A task during a run: `returned` are the descriptors that `sys_open` has returned to it and
that it has not closed since. -/
structure FileTask where
  world : FileWorld
  returned : List Nat

/-- One call by the task `t`. A result of `sys_open` that is negative as an `int64_t` is an
error. -/
def fileTaskStep (t : TaskId) (s : FileTask) : FileTaskOp → Option FileTask
  | .open ptr path flags mode okNode okFile =>
    (sysOpen s.world t ptr path flags mode okNode okFile).map fun res =>
      { world := res.2
        returned := if res.1 < 2 ^ 63 then res.1 :: s.returned else s.returned }
  | .close fd =>
    let res := sysClose s.world t fd
    some
      { world := res.2
        returned := if res.1 = 0 then s.returned.filter (fun d => d ≠ int32 fd)
          else s.returned }

variable {v v' : Vfs} {t : TaskId} {path : CString} {flags mode : Nat} {okNode okFile : Bool}

theorem fds_ramfsCreate (s : Vfs) (dir : NodeId) (name : CString) (mode : Nat) (ok : Bool) :
    (ramfsCreate s dir name mode ok).2.fds = s.fds := by
  unfold ramfsCreate ramfsAdd ramfsAlloc
  cases ok <;> grind [Vfs.modify]

/-- **What an open does to the descriptors of a task**: nothing, and it returns an error, or it
fills a slot and returns that. -/
def OpensSlot (v : Vfs) (t : TaskId) (r : Int) (v' : Vfs) : Prop :=
  (r < 0 ∧ -2 ^ 31 ≤ r ∧ v'.fds = v.fds) ∨
    ∃ fd f, fd < maxFds ∧ r = fd ∧ v'.fds = (v.setFile t fd (some f)).fds

theorem opensSlot_openNode (node : NodeId) :
    OpensSlot v t (openNode v (some t) node flags okFile).1
      (openNode v (some t) node flags okFile).2 := by
  obtain ⟨-, heq⟩ | ⟨-, -, heq⟩ | ⟨u, fd, f, hu, hfd, -, -, -, -, heq⟩ :=
    openNode_cases v (some t) node flags okFile
  · rw [heq]
    exact .inl ⟨show (-12 : Int) < 0 by decide, show (-2 ^ 31 : Int) ≤ -12 by decide, rfl⟩
  · rw [heq]
    exact .inl ⟨show (-24 : Int) < 0 by decide, show (-2 ^ 31 : Int) ≤ -24 by decide, rfl⟩
  · obtain rfl := Option.some.inj hu
    rw [heq]
    exact .inr ⟨fd, f, hfd, rfl, rfl⟩

theorem OpensSlot.of_fds {w : Vfs} {r : Int} (h : OpensSlot w t r v') (hw : w.fds = v.fds) :
    OpensSlot v t r v' := by
  obtain ⟨hneg, hlow, hfds⟩ | ⟨fd, f, hfd, hr, hfds⟩ := h
  · exact .inl ⟨hneg, hlow, hfds.trans hw⟩
  · refine .inr ⟨fd, f, hfd, hr, hfds.trans ?_⟩
    simp only [Vfs.setFile, hw]

theorem opensSlot_vfsOpen {r : Int}
    (ho : vfsOpen v (some t) path flags mode okNode okFile = some (r, v')) :
    OpensSlot v t r v' := by
  have hfail : ∀ e : Int, e < 0 → -2 ^ 31 ≤ e → OpensSlot v t e v :=
    fun e hneg hlow => .inl ⟨hneg, hlow, rfl⟩
  unfold vfsOpen at ho
  split at ho
  · rename_i node _
    have hopen := @opensSlot_openNode v t flags okFile node
    rw [Option.some.inj ho] at hopen
    exact hopen
  · split at ho
    · cases ho
      exact hfail _ (by decide) (by decide)
    · split at ho
      · cases ho
        exact hfail _ (by decide) (by decide)
      · rename_i last _
        split at ho
        · cases ho
        · split at ho
          · cases ho
            exact hfail _ (by decide) (by decide)
          · rename_i dir _
            split at ho
            · -- the new file
              have hfds := fds_ramfsCreate v dir (path.drop (last + 1)) mode okNode
              split at ho
              rename_i r1 v1 hcreate
              rw [hcreate] at hfds
              split at ho
              · cases ho
                exact .inl ⟨by decide, by decide, hfds⟩
              · split at ho
                · cases ho
                  exact .inl ⟨by decide, by decide, hfds⟩
                · rename_i node _
                  have hopen := @opensSlot_openNode v1 t flags okFile node
                  rw [Option.some.inj ho] at hopen
                  exact hopen.of_fds hfds
            · cases ho
              exact hfail _ (by decide) (by decide)

theorem vfsClose_cases (v : Vfs) (t : TaskId) (fd : Int) :
    vfsClose v (some t) fd = (-9, v) ∨
      ∃ (v' : Vfs) (i : Nat), vfsClose v (some t) fd = (0, v') ∧ (i : Int) = fd ∧
        v'.fds = (v.setFile t i none).fds := by
  unfold vfsClose fdGet
  dsimp only
  split
  · exact .inl rfl
  · rename_i u i f hget
    split at hget
    · rename_i hrange
      obtain ⟨g, -, heq⟩ := Option.map_eq_some_iff.mp hget
      cases heq
      refine .inr ⟨_, fd.toNat, rfl, Int.toNat_of_nonneg hrange.1, ?_⟩
      split <;> rfl
    · cases hget

theorem sysClose_cases (w : FileWorld) (t : TaskId) (fd : Nat) :
    sysClose w t fd = (2 ^ 64 - 9, w) ∨
      ∃ (w' : FileWorld) (i : Nat), sysClose w t fd = (0, w') ∧ (i : Int) = int32 fd ∧
        w'.vfs.fds = (w.vfs.setFile t i none).fds := by
  unfold sysClose
  obtain heq | ⟨v', i, heq, hi, hfds⟩ := vfsClose_cases w.vfs t (int32 fd)
  · rw [heq]
    exact .inl rfl
  · rw [heq]
    exact .inr ⟨_, i, rfl, hi, hfds⟩

def ReturnedOpen (t : TaskId) (s : FileTask) : Prop :=
  ∀ fd ∈ s.returned, fd < maxFds ∧ ∃ f, s.world.vfs.fds t fd = some f

theorem uint64_natCast {n : Nat} (h : n < 2 ^ 64) : uint64 n = n := by
  unfold uint64
  omega

theorem uint64_of_neg {r : Int} (hneg : r < 0) (hlow : -2 ^ 31 ≤ r) : ¬ uint64 r < 2 ^ 63 := by
  unfold uint64
  omega

theorem fds_setFile_of_some {fd d : Nat} {g f : OpenFile} (h : v.fds t d = some f) :
    ∃ f, (v.setFile t fd (some g)).fds t d = some f := by
  have hfds := fds_setFile v t fd (some g) (t, d)
  dsimp only at hfds
  rw [hfds]
  split
  · exact ⟨g, rfl⟩
  · exact ⟨f, h⟩

variable {s s' : FileTask}

theorem ReturnedOpen.open (h : ReturnedOpen t s) {r : Int} {w' : FileWorld}
    (hopen : OpensSlot s.world.vfs t r w'.vfs) :
    ReturnedOpen t
      { world := w'
        returned := if uint64 r < 2 ^ 63 then uint64 r :: s.returned else s.returned } := by
  obtain ⟨hneg, hlow, hfds⟩ | ⟨fd, f, hfd, rfl, hfds⟩ := hopen
  · rw [if_neg (uint64_of_neg hneg hlow)]
    intro d hd
    rw [hfds]
    exact h d hd
  · have hmax : fd < 2 ^ 63 := hfd.trans (by decide)
    rw [uint64_natCast (hmax.trans (by decide)), if_pos hmax]
    intro d hd
    dsimp only
    rw [hfds]
    obtain rfl | hd := List.mem_cons.mp hd
    · have hself := fds_setFile s.world.vfs t d (some f) (t, d)
      exact ⟨hfd, f, hself.trans (if_pos rfl)⟩
    · obtain ⟨hlt, g, hg⟩ := h d hd
      exact ⟨hlt, fds_setFile_of_some hg⟩

theorem ReturnedOpen.close (h : ReturnedOpen t s) (fd : Nat) {w' : FileWorld} {i : Nat}
    (hi : (i : Int) = int32 fd) (hfds : w'.vfs.fds = (s.world.vfs.setFile t i none).fds) :
    ReturnedOpen t ⟨w', s.returned.filter fun d => d ≠ int32 fd⟩ := by
  intro d hd
  obtain ⟨hmem, hne⟩ := List.mem_filter.mp hd
  obtain ⟨hlt, f, hf⟩ := h d hmem
  have hother : (t, d) ≠ (t, i) := fun heq => of_decide_eq_true hne
    ((congrArg (fun p => (p.2 : Int)) heq).trans hi)
  have hset := fds_setFile s.world.vfs t i none (t, d)
  dsimp only
  rw [hfds]
  exact ⟨hlt, f, (hset.trans (if_neg hother)).trans hf⟩

theorem ReturnedOpen.step (h : ReturnedOpen t s) {op : FileTaskOp}
    (hs : fileTaskStep t s op = some s') : ReturnedOpen t s' := by
  cases op with
  | «open» ptr path flags mode okNode okFile =>
    simp only [fileTaskStep, sysOpen] at hs
    split at hs
    · rw [Option.map_map] at hs
      obtain ⟨⟨r, v'⟩, ho, rfl⟩ := Option.map_eq_some_iff.mp hs
      exact @ReturnedOpen.open t s h r { s.world with vfs := v' } (opensSlot_vfsOpen ho)
    · rw [Option.map_some, if_neg (show ¬ efault < 2 ^ 63 by decide)] at hs
      cases hs
      exact h
  | close fd =>
    simp only [fileTaskStep, Option.some.injEq] at hs
    obtain heq | ⟨w', i, heq, hi, hfds⟩ := sysClose_cases s.world t fd
    · rw [heq, if_neg (show 2 ^ 64 - 9 ≠ 0 by decide)] at hs
      subst hs
      exact h
    · rw [heq, if_pos rfl] at hs
      subst hs
      exact h.close fd hi hfds

theorem returnedOpen_of_run {w : FileWorld} {ops : List FileTaskOp}
    (hrun : ops.foldlM (fileTaskStep t) ⟨w, []⟩ = some s) : ReturnedOpen t s :=
  @Machine.trace_invariant _ _ (fileTaskStep t) (fun _ s => ReturnedOpen t s) _ _ _
    (fun _ hd => absurd hd List.not_mem_nil) (fun _ _ _ _ h hs => h.step hs) hrun

theorem length_pos_of_uptrOk {addr len : Nat} (h : uptrOk addr len = true) : 0 < len := by
  unfold uptrOk at h
  split at h
  · cases h
  · omega

/-- **A write to a descriptor that `sys_open` has returned, and that is still open, is a write
to the file opened there exactly if the descriptor is neither 1 nor 2.** -/
theorem sysWrite_eq_iff {w : FileWorld} {ops : List FileTaskOp}
    (hrun : ops.foldlM (fileTaskStep t) ⟨w, []⟩ = some s) {fd buf count : Nat}
    (hfd : fd ∈ s.returned) (hok : uptrOk buf count = true) (mem : Nat → UInt8)
    (fresh : Option (Nat → UInt8)) :
    ((∃ f, s.world.vfs.fds t fd = some f) ∧
        sysWrite s.world t mem fd buf count fresh = fileWrite s.world t mem fd buf count fresh) ↔
      fd ≠ 1 ∧ fd ≠ 2 := by
  obtain ⟨hlt, hopen⟩ := returnedOpen_of_run hrun fd hfd
  rw [and_iff_right hopen, sysWrite, if_pos hok]
  by_cases hspecial : fd = 1 ∨ fd = 2
  · refine iff_of_false (fun heq => ?_) (by omega)
    rw [if_pos hspecial] at heq
    -- nothing of `vfs_write` goes to the serial port
    have hserial := congrArg (fun res => res.2.serial.length) heq
    simp only [fileWrite, userBytes, List.length_append, List.length_map, List.length_range]
      at hserial
    have hpos := length_pos_of_uptrOk hok
    omega
  · rw [if_neg hspecial, int32_eq_self_iff.mpr (hlt.trans (by decide))]
    exact iff_of_true rfl (by omega)

def initWorld : FileWorld := ⟨vfsInit true true true true, []⟩

/-- `sys_open("/", 0, 0)`. -/
def openSlash : FileTaskOp := .open 0x400000 [slash] 0 0 true true

theorem sysWrite_first_descriptor :
    ∃ s, [openSlash].foldlM (fileTaskStep 5) ⟨initWorld, []⟩ = some s ∧ s.returned = [0] ∧
      sysWrite s.world 5 (fun _ => 65) 0 0x500000 3 none =
        fileWrite s.world 5 (fun _ => 65) 0 0x500000 3 none := by
  have hrun : ([openSlash].foldlM (fileTaskStep 5) ⟨initWorld, []⟩).map (·.returned) =
      some [0] := by decide +kernel
  obtain ⟨s, hs, hreturned⟩ := Option.map_eq_some_iff.mp hrun
  have hmem : 0 ∈ s.returned := by rw [hreturned]; exact List.mem_singleton_self 0
  exact ⟨s, hs, hreturned, ((sysWrite_eq_iff hs hmem (by decide) _ _).mpr ⟨by decide, by decide⟩).2⟩

theorem write_to_serial :
    ([openSlash, openSlash].foldlM (fileTaskStep 5) ⟨initWorld, []⟩).map (fun s =>
        (s.returned, (sysWrite s.world 5 (fun _ => 65) 1 0x500000 3 none).1,
          (sysWrite s.world 5 (fun _ => 65) 1 0x500000 3 none).2.serial,
          (fileWrite s.world 5 (fun _ => 65) 1 0x500000 3 none).1,
          (fileWrite s.world 5 (fun _ => 65) 1 0x500000 3 none).2.serial)) =
      some ([1, 0], 3, [65, 65, 65], 2 ^ 64 - 22, []) := by
  decide +kernel

end DevOs
