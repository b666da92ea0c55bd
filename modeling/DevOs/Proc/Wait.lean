import DevOs.Sched.States

/-!
`proc_waitpid` and `proc_exit` of `kernel/proc/proc.c` for one process, as steps
between which a task can be preempted.
-/

namespace DevOs

open Machine

def waitQueueMax : Nat := 8

inductive WaitPc where
  /-- About to call `proc_get`. -/
  | get
  /-- About to read `p->exited`. -/
  | check
  /-- It has read `false`, and is about to disable interrupts. -/
  | register
  /-- About to read `p->exit_code`: the process had exited, or the task was
  blocked and runs again. -/
  | read
  /-- About to call `proc_reap`. -/
  | reap (status : Int)
  | returned (result : Int) (status : Option Int)
  deriving DecidableEq, Repr

inductive ExitPc where
  | setCode
  | setExited
  | wake
  | completed
  deriving DecidableEq, Repr

/-- The scheduler, the `proc_t` of one process and its wait queue. `reaped` says
that the process is no longer in `proc_table`; `kfree` leaves its record as it
is. -/
structure ProcState where
  sched : Sched
  exitCode : Int
  exited : Bool
  reaped : Bool
  waitQueue : List TaskId
  waiters : TaskId → Option WaitPc
  exiter : TaskId
  exitPc : ExitPc

def ProcState.goto (s : ProcState) (t : TaskId) (pc : WaitPc) : ProcState :=
  { s with waiters := Function.update s.waiters t (some pc) }

/-- One step of `proc_waitpid(pid, ..)` by the running task `t`. From `irq_save`
to the switch in `sched_block` it is one step. -/
def waitStep (pid : Nat) (s : ProcState) (t : TaskId) : WaitPc → Option ProcState
  | .get => some (s.goto t (if s.reaped then .returned (-3) none else .check))
  | .check => some (s.goto t (if s.exited then .read else .register))
  | .register =>
    (schedBlock s.sched t (2 ^ 64 - 1)).map fun sched =>
      { s.goto t .read with
        sched := sched
        waitQueue :=
          if s.waitQueue.length < waitQueueMax then s.waitQueue ++ [t] else s.waitQueue }
  | .read => some (s.goto t (.reap s.exitCode))
  | .reap status => some { s.goto t (.returned pid (some status)) with reaped := true }
  | .returned _ _ => some s

/-- One step of `proc_exit(p, code)`; the loop over the wait queue runs with
interrupts disabled. -/
def exitStep (code : Int) (s : ProcState) : ExitPc → ProcState
  | .setCode => { s with exitCode := code, exitPc := .setExited }
  | .setExited => { s with exited := true, exitPc := .wake }
  | .wake =>
    { s with
      sched := s.waitQueue.foldl schedUnblock s.sched
      waitQueue := []
      exitPc := .completed }
  | .completed => s

/-- From the read of `exited` on, and until the return. -/
def WaitPc.inCall : WaitPc → Bool
  | .check | .register | .read | .reap _ => true
  | .get | .returned _ _ => false

def InWaitpid (s : ProcState) (t : TaskId) : Prop := (s.waiters t).any WaitPc.inCall = true

instance (s : ProcState) (t : TaskId) : Decidable (InWaitpid s t) :=
  inferInstanceAs (Decidable (_ = true))

def SchedOp.blocks? : SchedOp → Option TaskId
  | .block t _ => some t
  | _ => none

/-- What happens: the running task takes its next step, or the scheduler is
called, by the timer interrupt or by the rest of the kernel. -/
inductive ProcEvent where
  | run
  | sched (op : SchedOp)
  deriving DecidableEq, Repr

/-- The running task's next step. It is in state RUNNING: `idle_task` alone could
go on after it blocked itself, and it calls nothing. -/
def runStep (pid : Nat) (code : Int) (s : ProcState) (t : TaskId) : Option ProcState :=
  if s.sched.stateOf t ≠ .running then none
  else if t = s.exiter then some (exitStep code s s.exitPc)
  else match s.waiters t with
    | none => some s
    | some pc => waitStep pid s t pc

/-- One event. Nothing else in the kernel blocks a task that is in
`proc_waitpid`. -/
def procStep (pid : Nat) (code : Int) (s : ProcState) : ProcEvent → Option ProcState
  | .run => runStep pid code s s.sched.currentTask
  | .sched op =>
    if ∃ t ∈ op.blocks?, InWaitpid s t then none
    else (schedStep s.sched op).map fun sched => { s with sched := sched }

/-- **No task is left behind**: once `proc_exit` has completed, no task in
`proc_waitpid` is blocked. -/
def NoneStranded (s : ProcState) : Prop :=
  s.exitPc = .completed → ∀ t, InWaitpid s t → s.sched.stateOf t ≠ .blocked

/-- The events that strand no task: a task registers and blocks before
`proc_exit` has woken the others, and when it does, every blocked task is
registered. -/
def ProcEvent.Safe (s : ProcState) : ProcEvent → Prop
  | .run =>
    (s.sched.currentTask ≠ s.exiter → s.waiters s.sched.currentTask = some .register →
      s.exitPc ≠ .completed) ∧
    (s.sched.currentTask = s.exiter → s.exitPc = .wake →
      ∀ t, InWaitpid s t → s.sched.stateOf t = .blocked → t ∈ s.waitQueue)
  | .sched _ => True

def NoneBlocked (s s' : Sched) : Prop := ∀ x, s'.stateOf x = .blocked → s.stateOf x = .blocked

section

variable {s s' : Sched} {t : TaskId}

theorem NoneStops.noneBlocked (h : NoneStops s s') : NoneBlocked s s' :=
  fun x hx => (h x (.inl hx)).trans hx

theorem stateOf_schedBlock {wakeTick : Nat} (h : schedBlock s t wakeTick = some s') :
    s'.stateOf t = .blocked ∧ ∀ x, s'.stateOf x = .blocked → s.stateOf x = .blocked ∨ x = t := by
  refine ⟨?_, fun x hx => ?_⟩
  · have hb : (blockedState s t wakeTick).stateOf t = .blocked := by simp
    rw [schedBlock_eq] at h
    split at h
    · next hcur =>
        obtain ⟨next, -, rfl⟩ := Option.map_eq_some_iff.mp h
        have hself := currentTask_blockedState s t wakeTick
        by_cases hne : next = (blockedState s t wakeTick).currentTask
        · rw [schedDoSwitch, if_pos hne]
          exact hb
        · have hbc : (blockedState s t wakeTick).stateOf (blockedState s t wakeTick).currentTask =
              .blocked := by rw [hself, ← hcur]; exact hb
          rw [(schedDoSwitch_blocked hbc hne).2, if_neg]
          · exact hb
          · rintro rfl
            exact hne (hcur.trans hself.symm)
    · cases h
      exact hb
  · have hx' := (noneStops_schedBlock h).noneBlocked x hx
    rw [stateOf_blockedState] at hx'
    grind

theorem blocked_of_schedStep {op : SchedOp} (h : schedStep s op = some s') {x : TaskId}
    (hx : s'.stateOf x = .blocked) : s.stateOf x = .blocked ∨ op.blocks? = some x := by
  cases op with
  | block t wakeTick =>
    refine ((stateOf_schedBlock h).2 x hx).imp_right fun hxt => ?_
    rw [hxt]
    rfl
  | exit =>
    have hx' := (noneStops_schedExit h).noneBlocked x hx
    rw [stateOf_retireCurrent] at hx'
    grind
  | create _ | enqueue _ | yield | tick | unblock _ =>
    exact .inl ((noneStops_schedStep (by simp [SchedOp.Stops]) h).noneBlocked x hx)

theorem stateOf_foldl_schedUnblock (x : TaskId) : ∀ (queue : List TaskId) (s : Sched),
      (queue.foldl schedUnblock s).stateOf x = .blocked ↔ s.stateOf x = .blocked ∧ x ∉ queue
  | [], s => by simp
  | t :: queue, s => by
    rw [List.foldl_cons, stateOf_foldl_schedUnblock x queue, stateOf_schedUnblock]
    grind

end

variable {pid : Nat} {code : Int} {s s' : ProcState}

theorem noneStranded_of_not_completed (h : s.exitPc ≠ .completed) : NoneStranded s :=
  fun hc => absurd hc h

theorem noneStranded_goto {t : TaskId} (pc : WaitPc) (hn : NoneStranded s)
    (ht : s.sched.stateOf t ≠ .blocked) : NoneStranded (s.goto t pc) := by
  intro hc x hx
  by_cases hxt : x = t
  · rw [hxt]
    exact ht
  · refine hn hc x ?_
    simpa [InWaitpid, ProcState.goto, hxt] using hx

theorem noneStranded_waitStep {t : TaskId} {pc : WaitPc} (hn : NoneStranded s)
    (ht : s.sched.stateOf t ≠ .blocked) (h : waitStep pid s t pc = some s') :
    NoneStranded s' ↔ (pc = .register → s.exitPc ≠ .completed) := by
  cases pc with
  | get | check | read =>
    cases h
    simpa using noneStranded_goto _ hn ht
  | reap status =>
    cases h
    simpa [NoneStranded, InWaitpid] using noneStranded_goto (.returned pid (some status)) hn ht
  | returned result status =>
    cases h
    simpa using hn
  | register =>
    obtain ⟨sched, hblock, rfl⟩ := Option.map_eq_some_iff.mp h
    have hblocked := (stateOf_schedBlock hblock).1
    simp only [forall_true_left]
    constructor
    · intro hn' hc
      exact hn' hc t (by simp [InWaitpid, ProcState.goto, WaitPc.inCall]) hblocked
    · intro hc
      exact noneStranded_of_not_completed hc

theorem noneStranded_exitStep (hn : NoneStranded s) :
    NoneStranded (exitStep code s s.exitPc) ↔ (s.exitPc = .wake →
      ∀ t, InWaitpid s t → s.sched.stateOf t = .blocked → t ∈ s.waitQueue) := by
  cases hpc : s.exitPc with
  | setCode | setExited => simp [exitStep, NoneStranded]
  | completed => simpa [exitStep] using hn
  | wake =>
    simp only [NoneStranded, exitStep, InWaitpid, forall_true_left, ne_eq,
      stateOf_foldl_schedUnblock]
    grind

theorem runStep_cases {t : TaskId} (h : runStep pid code s t = some s') :
    s.sched.stateOf t = .running ∧ (t = s.exiter ∧ s' = exitStep code s s.exitPc ∨
        t ≠ s.exiter ∧ (s.waiters t = none ∧ s' = s ∨
          ∃ pc, s.waiters t = some pc ∧ waitStep pid s t pc = some s')) := by
  unfold runStep at h
  split at h
  · cases h
  next hrun =>
  refine ⟨not_not.mp hrun, ?_⟩
  split at h
  · next hex => exact .inl ⟨hex, (Option.some.inj h).symm⟩
  · next hex =>
      split at h
      · next hw => exact .inr ⟨hex, .inl ⟨hw, (Option.some.inj h).symm⟩⟩
      · next pc hw => exact .inr ⟨hex, .inr ⟨pc, hw, h⟩⟩

theorem procStep_sched {op : SchedOp} (h : procStep pid code s (.sched op) = some s') :
    (¬ ∃ t ∈ op.blocks?, InWaitpid s t) ∧
      ∃ sched, schedStep s.sched op = some sched ∧ s' = { s with sched := sched } := by
  simp only [procStep] at h
  split at h
  · cases h
  · next hguard =>
      obtain ⟨sched, hop, rfl⟩ := Option.map_eq_some_iff.mp h
      exact ⟨hguard, sched, hop, rfl⟩

theorem noneStranded_runStep (hn : NoneStranded s)
    (h : runStep pid code s s.sched.currentTask = some s') :
    NoneStranded s' ↔ ProcEvent.run.Safe s := by
  obtain ⟨hrun, ⟨hex, rfl⟩ | ⟨hex, ⟨hw, rfl⟩ | ⟨pc, hw, hstep⟩⟩⟩ := runStep_cases h
  · simpa [ProcEvent.Safe, hex] using noneStranded_exitStep hn
  · simpa [ProcEvent.Safe, hex, hw] using hn
  · have ht : s.sched.stateOf s.sched.currentTask ≠ .blocked := by simp [hrun]
    simpa [ProcEvent.Safe, hex, hw] using noneStranded_waitStep hn ht hstep

theorem noneStranded_procStep {e : ProcEvent} (hn : NoneStranded s)
    (h : procStep pid code s e = some s') : NoneStranded s' ↔ e.Safe s := by
  cases e with
  | run => exact noneStranded_runStep hn h
  | sched op =>
    obtain ⟨hguard, sched, hop, rfl⟩ := procStep_sched h
    simp only [ProcEvent.Safe, iff_true]
    intro hc t hin hblocked
    -- only `sched_block` blocks, and it is not called for a task in `proc_waitpid`
    obtain hb | hb := blocked_of_schedStep hop hblocked
    · exact hn hc t hin hb
    · exact hguard ⟨t, hb, hin⟩

/-- **When no waiter is left behind.** However `proc_exit` and any number of
calls of `proc_waitpid` interleave, after `proc_exit` no waiter is blocked, in
every state of the run, exactly if no waiter blocks after `proc_exit` has
woken the others, and all that are blocked by then are registered. -/
theorem noneStranded_iff (pid : Nat) (code : Int) {s : ProcState}
    (hs : s.exitPc ≠ .completed) (es : List ProcEvent) :
    Always (procStep pid code) NoneStranded s es ↔
      Steps (procStep pid code) (fun s e => e.Safe s) s es :=
  always_iff_steps
    (fun _ _ _ (_ : True) hn h => ⟨noneStranded_procStep hn h, fun _ => trivial⟩) es trivial
    (noneStranded_of_not_completed hs)

def waiterAndExiter : ProcState where
  sched := schedEnqueue (schedCreateTask (schedInit 100 200) 300) 2
  exitCode := 0
  exited := false
  reaped := false
  waitQueue := []
  waiters := fun t => if t = 2 then some .get else none
  exiter := 0
  exitPc := .setCode

theorem noneStranded_woken :
    Always (procStep 2 42) NoneStranded waiterAndExiter
      [.sched .yield, .sched .yield, .run, .run, .run, .run, .run, .run, .sched .yield, .run,
        .run] := by
  refine (noneStranded_iff 2 42 (by decide) _).mpr ?_
  simp only [Steps, ProcEvent.Safe, true_and, and_true]
  iterate 2 (intro _ h; cases h)
  iterate 5
    intro _ h
    cases h
    refine ⟨⟨by decide +kernel, fun _ hw => absurd hw (by decide +kernel)⟩, ?_⟩
  intro _ h
  cases h
  refine ⟨⟨by decide +kernel, fun _ _ t ht _ => ?_⟩, ?_⟩
  · -- task 2 alone is in the call, and it is registered
    have hself : t = 2 := by
      by_contra hne
      change (Function.update (Function.update (Function.update waiterAndExiter.waiters 2 _) 2 _)
        2 _ t).any WaitPc.inCall = true at ht
      simp [waiterAndExiter, hne] at ht
    rw [hself]
    decide +kernel
  iterate 2 (intro _ h; cases h)
  refine ⟨⟨by decide +kernel, fun _ hw => absurd hw (by decide +kernel)⟩, ?_⟩
  intro _ h
  exact ⟨by decide +kernel, fun _ hw => absurd hw (by decide +kernel)⟩

/-- Task 2 has read `exited` when its time slice ends; the boot task exits, and
task 2 goes on. -/
def lostWakeUp : List ProcEvent :=
  [.sched .yield, .sched .yield, .run, .run] ++ List.replicate 20 (.sched .tick) ++
    [.run, .run, .run, .sched .yield, .run]

theorem waiter_stranded :
    ∃ s, lostWakeUp.foldlM (procStep 2 42) waiterAndExiter = some s ∧
      s.exitPc = .completed ∧ s.waiters 2 = some .read ∧ s.sched.stateOf 2 = .blocked ∧
      ¬ NoneStranded s := by
  have hend : (lostWakeUp.foldlM (procStep 2 42) waiterAndExiter).map
      (fun s => (s.exitPc, s.waiters 2, s.sched.stateOf 2)) =
        some (.completed, some .read, .blocked) := by decide +kernel
  obtain ⟨s, hs, hfields⟩ := Option.map_eq_some_iff.mp hend
  simp only [Prod.mk.injEq] at hfields
  obtain ⟨hpc, hwait, hblocked⟩ := hfields
  refine ⟨s, hs, hpc, hwait, hblocked, fun hn => ?_⟩
  exact hn hpc 2 (by simp [InWaitpid, hwait, WaitPc.inCall]) hblocked

end DevOs
