import DevOs.Proc.Wait

/-!
`proc_table` of `kernel/proc/proc.c` beside the states of the tasks.
-/

namespace DevOs

open Function

def procMax : Nat := 256

def pidOf (t : TaskId) : Nat := t % 2 ^ 32

/-- `proc_t`; its fields `ppid` and `name` are never read. -/
structure Proc where
  pid : Nat
  task : TaskId
  exitCode : Int
  exited : Bool
  deriving DecidableEq, Repr

/-- A call of the process layer that a task is in. `p` is the `proc_t *` of the
call, by order of allocation; `proc_waitpid` has none before `proc_get`. -/
inductive ProcCall where
  | waitpid (pid : Nat) (p : Nat) (pc : WaitPc)
  | exit (p : Nat) (code : Int) (pc : ExitPc)
  deriving DecidableEq, Repr

/-- The scheduler and the process layer. `exitArgs` are the arguments that
`sys_exit` was called with, which the kernel itself does not keep. -/
structure Procs where
  sched : Sched
  allocated : Nat
  records : Nat → Proc
  table : Nat → Option Nat
  waitQueues : Nat → List TaskId
  calls : TaskId → Option ProcCall
  exitArgs : TaskId → Option Int

def procInit (bootStack idleStack : Nat) : Procs where
  sched := schedInit bootStack idleStack
  allocated := 0
  records := fun _ => ⟨0, 0, 0, false⟩
  table := fun _ => none
  waitQueues := fun _ => []
  calls := fun _ => none
  exitArgs := fun _ => none

/-- `proc_create(name, t)`; `ok` is whether `kzalloc` found memory. -/
def procCreate (s : Procs) (t : TaskId) (ok : Bool) : Procs :=
  if procMax ≤ pidOf t then s
  else if !ok then s
  else
    { s with
      allocated := s.allocated + 1
      records := update s.records s.allocated ⟨pidOf t, t, 0, false⟩
      table := update s.table (pidOf t) (some s.allocated) }

def procGet (s : Procs) (pid : Nat) : Option Nat := if procMax ≤ pid then none else s.table pid

def procReap (s : Procs) (pid : Nat) : Procs :=
  if procMax ≤ pid then s else { s with table := update s.table pid none }

/-- The argument of `sys_exit` as the `int` that `proc_exit` takes. -/
def exitArg (code : BitVec 64) : Int := (code.setWidth 32).toInt

/-- `sys_exit(code)`. -/
def sysExit (s : Procs) (code : BitVec 64) : Option Procs :=
  (schedExit s.sched).map fun sched =>
    { s with
      sched := sched
      exitArgs := update s.exitArgs s.sched.currentTask (some (exitArg code)) }

def Procs.goto (s : Procs) (t : TaskId) (c : Option ProcCall) : Procs :=
  { s with calls := update s.calls t c }

/-- Where `proc_waitpid` goes from the test of `p->exited`. -/
def waitpidCheck (s : Procs) (p : Nat) : WaitPc :=
  if (s.records p).exited then .read else .register

/-- One step of `proc_waitpid(pid, ..)` by the running task `t`. -/
def waitpidStep (s : Procs) (t : TaskId) (pid p : Nat) : WaitPc → Option Procs
  | .get =>
    match procGet s pid with
    | none => some (s.goto t (some (.waitpid pid p (.returned (-3) none))))
    | some p => some (s.goto t (some (.waitpid pid p .check)))
  | .check => some (s.goto t (some (.waitpid pid p (waitpidCheck s p))))
  | .register =>
    (schedBlock s.sched t (2 ^ 64 - 1)).map fun sched =>
      { s.goto t (some (.waitpid pid p .read)) with
        sched := sched
        waitQueues := update s.waitQueues pid
          (if (s.waitQueues pid).length < waitQueueMax then s.waitQueues pid ++ [t]
          else s.waitQueues pid) }
  | .read => some (s.goto t (some (.waitpid pid p (.reap (s.records p).exitCode))))
  | .reap status =>
    some ((procReap s pid).goto t (some (.waitpid pid p (.returned pid (some status)))))
  | .returned _ _ => some (s.goto t none)

/-- One step of `proc_exit(p, code)` by the running task `t`. -/
def procExitStep (s : Procs) (t : TaskId) (p : Nat) (code : Int) : ExitPc → Procs
  | .setCode =>
    { s.goto t (some (.exit p code .setExited)) with
      records := update s.records p { s.records p with exitCode := code } }
  | .setExited =>
    { s.goto t (some (.exit p code .wake)) with
      records := update s.records p { s.records p with exited := true } }
  | .wake =>
    { s.goto t (some (.exit p code .completed)) with
      sched := (s.waitQueues (s.records p).pid).foldl schedUnblock s.sched
      waitQueues := update s.waitQueues (s.records p).pid [] }
  | .completed => s.goto t none

/-- What happens: the running task calls `proc_create`, `proc_waitpid`,
`proc_exit(proc_get(pid), code)` or `sys_exit`, it takes its next step in such a
call, or the scheduler is called. A task that returns from its entry function
is in `sched_exit` without `sys_exit`. -/
inductive ProcsEvent where
  | create (t : TaskId) (ok : Bool)
  | waitpid (pid : Nat)
  | exit (pid : Nat) (code : Int)
  | sysExit (code : BitVec 64)
  | run
  | sched (op : SchedOp)
  deriving DecidableEq, Repr

def callStep (s : Procs) (t : TaskId) : ProcsEvent → Option Procs
  | .create u ok => some (procCreate s u ok)
  | .waitpid pid => some (s.goto t (some (.waitpid pid 0 .get)))
  | .exit pid code => some (s.goto t ((procGet s pid).map fun p => .exit p code .setCode))
  | .sysExit code => sysExit s code
  | .run | .sched _ => none

def nextStep (s : Procs) (t : TaskId) : ProcCall → Option Procs
  | .waitpid pid p pc => waitpidStep s t pid p pc
  | .exit p code pc => some (procExitStep s t p code pc)

def procsStep (s : Procs) (e : ProcsEvent) : Option Procs :=
  match e with
  | .sched op =>
    if (SchedEvent.call op).Allowed s.sched then
      (schedStep s.sched op).map fun sched => { s with sched := sched }
    else none
  | e =>
    if s.sched.currentTask = s.sched.idleTask then none
    else match s.calls s.sched.currentTask, e with
      | some c, .run => nextStep s s.sched.currentTask c
      | none, e => callStep s s.sched.currentTask e
      | some _, _ => none

/-! ## Recorded exits -/

/-- The record has what `proc_waitpid` needs, which then does not block. -/
def Recorded (s : Procs) (p : Nat) : Prop :=
  (s.records p).exited = true ∧
    (∀ code, s.exitArgs (s.records p).task = some code → (s.records p).exitCode = code) ∧
    waitpidCheck s p = .read

/-- **The tables agree**: the record of a dead task is marked, with the code that
the task passed to `sys_exit`. -/
def ZombiesRecorded (s : Procs) : Prop :=
  ∀ pid p, s.table pid = some p → s.sched.stateOf (s.records p).task = .zombie → Recorded s p

/-- The events that keep them so: no record is made for a dead task, a task ends
when its record has been marked with its code, and the code of a dead task is
not overwritten with another. -/
def ProcsEvent.KeepsRecords (s : Procs) : ProcsEvent → Prop
  | .create t ok => pidOf t < procMax → ok = true → s.sched.stateOf t ≠ .zombie
  | .sysExit code => ∀ pid p, s.table pid = some p → (s.records p).task = s.sched.currentTask →
      (s.records p).exited = true ∧ (s.records p).exitCode = exitArg code
  | .sched .exit => ∀ pid p, s.table pid = some p → (s.records p).task = s.sched.currentTask →
      (s.records p).exited = true
  | .run => ∀ pid p code, s.table pid = some p →
      s.calls s.sched.currentTask = some (.exit p code .setCode) →
      s.sched.stateOf (s.records p).task = .zombie →
      ∀ c, s.exitArgs (s.records p).task = some c → code = c
  | .waitpid _ | .exit _ _ | .sched _ => True

variable {s s' : Sched}

theorem StatesOk.zombie_schedStep (h : StatesOk s) {op : SchedOp} (hop : op ≠ .exit)
    (ha : (SchedEvent.call op).Allowed s) (hs : schedStep s op = some s') (x : TaskId) :
    s'.stateOf x = .zombie ↔ s.stateOf x = .zombie := by
  have hevent : DevOs.schedEventStep s (.call op) = some s' := by
    rw [DevOs.schedEventStep, if_pos ha]
    exact hs
  refine ⟨fun hx => ?_, (h.schedEventStep hevent).2.zombie x⟩
  cases op with
  | exit => exact absurd rfl hop
  | block t wakeTick =>
    have hx' := (noneStops_schedBlock hs x (.inr hx)).trans hx
    rw [stateOf_blockedState] at hx'
    grind
  | create _ | enqueue _ | yield | tick | unblock _ =>
    exact (noneStops_schedStep (by simp [SchedOp.Stops]) hs x (.inr hx)).trans hx

theorem StatesOk.zombie_schedExit (h : StatesOk s) (hi : s.currentTask ≠ s.idleTask)
    (hs : DevOs.schedExit s = some s') (x : TaskId) :
    s'.stateOf x = .zombie ↔ x = s.currentTask ∨ s.stateOf x = .zombie := by
  obtain ⟨hready, hnew, -, -⟩ := h.stateOf_schedExit hi hs
  have hcur := h.current
  rw [hnew]
  grind

theorem StatesOk.foldl_schedUnblock (h : StatesOk s) (queue : List TaskId) :
    StatesOk (queue.foldl DevOs.schedUnblock s) ∧
      ∀ x, (queue.foldl DevOs.schedUnblock s).stateOf x = .zombie ↔ s.stateOf x = .zombie := by
  induction queue generalizing s with
  | nil => exact ⟨h, fun _ => Iff.rfl⟩
  | cons t queue ih =>
    obtain ⟨hok, hz⟩ := ih (h.schedUnblock t).1
    refine ⟨hok, fun x => (hz x).trans ?_⟩
    rw [stateOf_schedUnblock]
    grind

/-! ## The invariant -/

/-- What holds in every run: entries lead to records that were allocated, and
`sys_exit` was called by the dead. -/
structure TableInv (s : Procs) : Prop where
  states : StatesOk s.sched
  known : ∀ pid p, s.table pid = some p → p < s.allocated
  dead : ∀ t code, s.exitArgs t = some code → s.sched.stateOf t = .zombie

variable {s s' : Procs} {t : TaskId} {sched : Sched} {e : ProcsEvent}

theorem recorded_iff (s : Procs) (p : Nat) : Recorded s p ↔ (s.records p).exited = true ∧
      ∀ code, s.exitArgs (s.records p).task = some code → (s.records p).exitCode = code := by
  unfold Recorded waitpidCheck
  grind

section

variable (h : TableInv s)
include h

theorem TableInv.goto (t : TaskId) (c : Option ProcCall) :
    TableInv (s.goto t c) := ⟨h.states, h.known, h.dead⟩

theorem TableInv.of_sched (hst : StatesOk sched)
    (hz : ∀ x, sched.stateOf x = .zombie ↔ s.sched.stateOf x = .zombie) :
    TableInv { s with sched := sched } ∧
      (ZombiesRecorded { s with sched := sched } ↔ ZombiesRecorded s) := by
  refine ⟨⟨hst, h.known, fun x code hx => (hz x).mpr (h.dead x code hx)⟩, ?_⟩
  refine forall₃_congr fun pid p hp => ?_
  exact imp_congr (hz _) Iff.rfl

theorem tableInv_procCreate (hp : ZombiesRecorded s) (t : TaskId) (ok : Bool) :
    (ZombiesRecorded (procCreate s t ok) ↔ (ProcsEvent.create t ok).KeepsRecords s) ∧
      TableInv (procCreate s t ok) := by
  unfold procCreate
  split
  · next hmax => exact ⟨iff_of_true hp fun hlt => absurd hlt (Nat.not_lt.mpr hmax), h⟩
  split
  · next hok => exact ⟨iff_of_true hp fun _ hyes => by simp [hyes] at hok, h⟩
  next hmax hok =>
  have hfresh : ∀ pid p, s.table pid = some p → p ≠ s.allocated := by
    rintro pid p hpid rfl
    exact absurd (h.known pid _ hpid) (Nat.lt_irrefl _)
  refine ⟨⟨fun hz _ _ hdead => ?_, fun hk pid p hpid => ?_⟩, h.states, fun pid p hpid => ?_, h.dead⟩
  · have hnew := hz (pidOf t) s.allocated (by simp) (by simpa using hdead)
    simpa using hnew.1
  · by_cases hpt : pid = pidOf t
    · obtain rfl : s.allocated = p := by simpa [hpt] using hpid
      intro hdead
      exact absurd (by simpa using hdead) (hk (Nat.not_le.mp hmax) (by simpa using hok))
    · have hold : s.table pid = some p := by simpa [hpt] using hpid
      have hne := hfresh pid p hold
      simpa [recorded_iff, update_of_ne hne] using
        fun hdead => (recorded_iff s p).mp (hp pid p hold hdead)
  · by_cases hpt : pid = pidOf t
    · obtain rfl : s.allocated = p := by simpa [hpt] using hpid
      exact Nat.lt_succ_self _
    · exact Nat.lt_succ_of_lt (h.known pid p (by simpa [hpt] using hpid))

theorem tableInv_procReap (hp : ZombiesRecorded s) (pid : Nat) :
    ZombiesRecorded (procReap s pid) ∧ TableInv (procReap s pid) := by
  unfold procReap
  split
  · exact ⟨hp, h⟩
  -- no entry is new
  have hold : ∀ q p, update s.table pid none q = some p → s.table q = some p := by
    intro q p hq
    by_cases hqp : q = pid
    · simp [hqp] at hq
    · simpa [hqp] using hq
  exact ⟨fun q p hq => hp q p (hold q p hq), h.states, fun q p hq => h.known q p (hold q p hq),
    h.dead⟩

theorem tableInv_waitpidStep (hp : ZombiesRecorded s) {pid p : Nat} {pc : WaitPc}
    (hi : s.sched.currentTask ≠ s.sched.idleTask)
    (hs : waitpidStep s s.sched.currentTask pid p pc = some s') :
    ZombiesRecorded s' ∧ TableInv s' := by
  cases pc with
  | get =>
    simp only [waitpidStep] at hs
    split at hs <;> cases hs <;> exact ⟨hp, h.goto _ _⟩
  | check | read | returned _ _ =>
    cases hs
    exact ⟨hp, h.goto _ _⟩
  | register =>
    obtain ⟨sched, hblock, rfl⟩ := Option.map_eq_some_iff.mp hs
    have hop : SchedOp.block s.sched.currentTask (2 ^ 64 - 1) ≠ .exit := nofun
    obtain ⟨hinv, hiff⟩ := h.of_sched (h.states.schedBlock hi hblock).1
      (h.states.zombie_schedStep hop ⟨rfl, hi⟩ hblock)
    exact ⟨hiff.mpr hp, hinv.states, hinv.known, hinv.dead⟩
  | reap status =>
    cases hs
    obtain ⟨hrec, hinv⟩ := tableInv_procReap h hp pid
    exact ⟨hrec, hinv.goto _ _⟩

end

theorem zombiesRecorded_update {p : Nat} {k : Proc} (hk : k.task = (s.records p).task)
    (hp : ZombiesRecorded s) : ZombiesRecorded { s with records := update s.records p k } ↔
      ∀ pid, s.table pid = some p → s.sched.stateOf (s.records p).task = .zombie →
        k.exited = true ∧
          ∀ code, s.exitArgs (s.records p).task = some code → k.exitCode = code := by
  constructor
  · intro hz pid hpid hdead
    simpa [recorded_iff, hk] using hz pid p hpid (by simpa [hk] using hdead)
  · intro hrec pid q hq
    by_cases hqp : q = p
    · subst hqp
      simpa [recorded_iff, hk] using hrec pid hq
    · simpa [recorded_iff, hqp] using fun hdead => (recorded_iff s q).mp (hp pid q hq hdead)

section

variable (h : TableInv s)
include h

theorem tableInv_procExitStep (hp : ZombiesRecorded s) (t : TaskId) (p : Nat)
    (code : Int) (pc : ExitPc) : (ZombiesRecorded (procExitStep s t p code pc) ↔
      (pc = .setCode → ∀ pid, s.table pid = some p → s.sched.stateOf (s.records p).task = .zombie →
        ∀ c, s.exitArgs (s.records p).task = some c → code = c)) ∧
      TableInv (procExitStep s t p code pc) := by
  cases pc with
  | setCode =>
    refine ⟨?_, h.states, h.known, h.dead⟩
    rw [forall_prop_of_true rfl]
    refine (zombiesRecorded_update (s := s) (k := { s.records p with exitCode := code })
      rfl hp).trans (forall₃_congr fun pid hpid hdead => ?_)
    exact and_iff_right (hp pid p hpid hdead).1
  | setExited =>
    refine ⟨iff_of_true ?_ (by simp), h.states, h.known, h.dead⟩
    refine (zombiesRecorded_update (s := s) (k := { s.records p with exited := true })
      rfl hp).mpr fun pid hpid hdead => ⟨rfl, (hp pid p hpid hdead).2.1⟩
  | wake =>
    obtain ⟨hst, hz⟩ := h.states.foldl_schedUnblock (s.waitQueues (s.records p).pid)
    obtain ⟨hinv, hiff⟩ := h.of_sched hst hz
    exact ⟨iff_of_true (hiff.mpr hp) (by simp), hinv.states, hinv.known, hinv.dead⟩
  | completed => exact ⟨iff_of_true hp (by simp), h.goto _ _⟩

theorem tableInv_end (hp : ZombiesRecorded s) (hi : s.sched.currentTask ≠ s.sched.idleTask)
    (hs : schedExit s.sched = some sched) {exitArgs : TaskId → Option Int}
    (hargs : ∀ x, x ≠ s.sched.currentTask → exitArgs x = s.exitArgs x) :
    (ZombiesRecorded { s with sched := sched, exitArgs := exitArgs } ↔
      ∀ pid p, s.table pid = some p → (s.records p).task = s.sched.currentTask →
        (s.records p).exited = true ∧
          ∀ code, exitArgs s.sched.currentTask = some code → (s.records p).exitCode = code) ∧
      TableInv { s with sched := sched, exitArgs := exitArgs } := by
  have hz := h.states.zombie_schedExit hi hs
  refine ⟨⟨fun hrec pid p hpid htask => ?_, fun hrec pid p hpid hdead => ?_⟩,
    (h.states.schedExit hi hs).1, h.known, fun x code hx => (hz x).mpr ?_⟩
  · have hnew := (recorded_iff _ p).mp (hrec pid p hpid ((hz _).mpr (.inl htask)))
    rw [← htask]
    exact hnew
  · refine (recorded_iff _ p).mpr ?_
    by_cases htask : (s.records p).task = s.sched.currentTask
    · have := hrec pid p hpid htask
      rwa [← htask] at this
    · have hold := (recorded_iff s p).mp (hp pid p hpid (((hz _).mp hdead).resolve_left htask))
      rwa [← hargs _ htask] at hold
  · by_cases hxc : x = s.sched.currentTask
    · exact .inl hxc
    · exact .inr (h.dead x code (hargs x hxc ▸ hx))

theorem TableInv.exitArgs_current : s.exitArgs s.sched.currentTask = none := by
  by_contra hne
  obtain ⟨code, hcode⟩ := Option.ne_none_iff_exists'.mp hne
  have hdead := h.dead _ code hcode
  rw [h.states.current] at hdead
  cases hdead

variable (hp : ZombiesRecorded s)
include hp

theorem tableInv_callStep (hi : s.sched.currentTask ≠ s.sched.idleTask) (hrun : e ≠ .run)
    (hs : callStep s s.sched.currentTask e = some s') :
    (ZombiesRecorded s' ↔ e.KeepsRecords s) ∧ TableInv s' := by
  cases e with
  | create t ok =>
    cases hs
    exact tableInv_procCreate h hp t ok
  | waitpid pid | exit pid code =>
    cases hs
    exact ⟨iff_of_true hp trivial, h.goto _ _⟩
  | sysExit code =>
    obtain ⟨sched, hexit, rfl⟩ := Option.map_eq_some_iff.mp hs
    obtain ⟨hiff, hinv⟩ := tableInv_end h hp hi hexit fun x hx =>
      update_of_ne hx (some (exitArg code)) s.exitArgs
    exact ⟨hiff.trans (by simp [ProcsEvent.KeepsRecords]), hinv⟩
  | run => exact absurd rfl hrun
  | sched op => cases hs

theorem tableInv_nextStep {c : ProcCall}
    (hi : s.sched.currentTask ≠ s.sched.idleTask) (hc : s.calls s.sched.currentTask = some c)
    (hs : nextStep s s.sched.currentTask c = some s') :
    (ZombiesRecorded s' ↔ ProcsEvent.run.KeepsRecords s) ∧ TableInv s' := by
  cases c with
  | waitpid pid p pc =>
    obtain ⟨hrec, hinv⟩ := tableInv_waitpidStep h hp hi hs
    exact ⟨iff_of_true hrec fun _ _ _ _ hcall => by simp [hc] at hcall, hinv⟩
  | exit p code pc =>
    cases hs
    obtain ⟨hiff, hinv⟩ := tableInv_procExitStep h hp s.sched.currentTask p code pc
    refine ⟨hiff.trans ⟨fun hk pid q d hq hcall => ?_, fun hk hpc pid hpid => ?_⟩, hinv⟩
    · obtain ⟨rfl, rfl, rfl⟩ : p = q ∧ code = d ∧ pc = .setCode := by simpa [hc] using hcall
      exact hk rfl pid hq
    · exact hk pid p code hpid (by rw [hc, hpc])

theorem tableInv_schedStep {op : SchedOp}
    (ha : (SchedEvent.call op).Allowed s.sched) (hs : schedStep s.sched op = some sched) :
    (ZombiesRecorded { s with sched := sched } ↔ (ProcsEvent.sched op).KeepsRecords s) ∧
      TableInv { s with sched := sched } := by
  by_cases hop : op = .exit
  · subst hop
    obtain ⟨hiff, hinv⟩ := tableInv_end h hp ha hs fun _ _ => rfl
    exact ⟨hiff.trans (by simp [ProcsEvent.KeepsRecords, h.exitArgs_current]), hinv⟩
  · have hevent : schedEventStep s.sched (.call op) = some sched := by
      rw [schedEventStep, if_pos ha]
      exact hs
    obtain ⟨hinv, hiff⟩ := h.of_sched (h.states.schedEventStep hevent).1
      (h.states.zombie_schedStep hop ha hs)
    refine ⟨iff_of_true (hiff.mpr hp) ?_, hinv⟩
    cases op <;> first | exact absurd rfl hop | exact trivial

/-- **One step** keeps the table. -/
theorem tableInv_procsStep (hs : procsStep s e = some s') :
    (ZombiesRecorded s' ↔ e.KeepsRecords s) ∧ TableInv s' := by
  unfold procsStep at hs
  split at hs
  · split at hs
    · next ha =>
        obtain ⟨sched, hstep, rfl⟩ := Option.map_eq_some_iff.mp hs
        exact tableInv_schedStep h hp ha hstep
    · cases hs
  · split at hs
    · cases hs
    next hi =>
    split at hs
    · next hc _ => exact tableInv_nextStep h hp hi hc hs
    · next =>
        refine tableInv_callStep h hp hi ?_ hs
        rintro rfl
        cases hs
    · cases hs

end

/-! ## Whole runs -/

theorem tableInv_procInit (bootStack idleStack : Nat) : TableInv (procInit bootStack idleStack) :=
  ⟨statesOk_schedInit bootStack idleStack, nofun, nofun⟩

/-- **`proc_table` knows the dead.** -/
theorem zombiesRecorded_iff (bootStack idleStack : Nat) (es : List ProcsEvent) :
    Machine.Always procsStep ZombiesRecorded (procInit bootStack idleStack) es ↔
      Machine.Steps procsStep (fun s e => e.KeepsRecords s) (procInit bootStack idleStack) es := by
  have hstep : ∀ s e s', TableInv s → ZombiesRecorded s → procsStep s e = some s' →
      (ZombiesRecorded s' ↔ e.KeepsRecords s) ∧ (ZombiesRecorded s' → TableInv s') := by
    intro s e s' hinv hp hs
    obtain ⟨hiff, hinv'⟩ := tableInv_procsStep hinv hp hs
    exact ⟨hiff, fun _ => hinv'⟩
  exact Machine.always_iff_steps hstep es (tableInv_procInit bootStack idleStack) nofun

/-- A process is made, gets the CPU and calls `sys_exit(7)`. -/
def processExits : List ProcsEvent :=
  [.sched (.create 300), .sched (.enqueue 2), .create 2 true, .sched .yield, .sched .yield,
    .sysExit 7]

/-- The task is dead, its record says that the process runs with exit code 0, and
`proc_waitpid(2)` would block. -/
theorem exit_not_recorded :
    ∃ s, processExits.foldlM procsStep (procInit 100 200) = some s ∧ s.table 2 = some 0 ∧
      (s.records 0).task = 2 ∧ s.sched.stateOf 2 = .zombie ∧ s.exitArgs 2 = some 7 ∧
      s.records 0 = ⟨2, 2, 0, false⟩ ∧ waitpidCheck s 0 = .register ∧ ¬ ZombiesRecorded s := by
  have hrun : (processExits.foldlM procsStep (procInit 100 200)).any (fun s =>
      decide (s.table 2 = some 0 ∧ s.sched.stateOf 2 = .zombie ∧ s.exitArgs 2 = some 7 ∧
        s.records 0 = ⟨2, 2, 0, false⟩ ∧ waitpidCheck s 0 = .register)) = true := by
    decide +kernel
  obtain ⟨s, hs, hdec⟩ := (Option.any_eq_true _ _).mp hrun
  obtain ⟨htable, hdead, harg, hrec, hcheck⟩ := of_decide_eq_true hdec
  have htask : (s.records 0).task = 2 := by rw [hrec]
  refine ⟨s, hs, htable, htask, hdead, harg, hrec, hcheck, fun hz => ?_⟩
  have hmarked := (hz 2 0 htable (htask ▸ hdead)).2.2
  rw [hcheck] at hmarked
  cases hmarked

end DevOs
