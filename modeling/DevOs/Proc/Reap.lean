import DevOs.Proc.Wait

/-!
Who still reads a record that `proc_reap` has freed?
-/

namespace DevOs

open Machine

/-- The call ends the sleep of task `x`, or gives its record to another task. -/
def SchedOp.Wakes (s : Sched) (x : TaskId) : SchedOp → Prop
  | .create _ => x = s.nextPid
  | .enqueue t | .unblock t => x = t
  | .tick => (s.tasks x).wakeTick ≤ (s.tickCount + 1) % 2 ^ 64
  | .exit => x = s.currentTask
  | .yield | .block _ _ => False

section

variable {s s' : Sched} {t x : TaskId} {wakeTick : Nat} {op : SchedOp}

theorem blocked_schedDoSwitch (hp : schedPickNext s = some t) (hi : x ≠ s.idleTask)
    (hx : s.stateOf x = .blocked) : (schedDoSwitch s t).stateOf x = .blocked := by
  by_cases hne : t = s.currentTask
  · rw [schedDoSwitch, if_pos hne]
    exact hx
  · have hpick := schedPickNext_ready hp
    rw [stateOf_schedDoSwitch hne]
    grind

theorem blocked_reschedule (hs : reschedule s = some s') (hi : x ≠ s.idleTask)
    (hx : s.stateOf x = .blocked) : s'.stateOf x = .blocked := by
  obtain ⟨next, hp, rfl⟩ := Option.map_eq_some_iff.mp hs
  exact @blocked_schedDoSwitch { s with inSched := true } next x hp hi hx

theorem idleTask_reschedule (hs : reschedule s = some s') : s'.idleTask = s.idleTask := by
  obtain ⟨next, -, rfl⟩ := Option.map_eq_some_iff.mp hs
  exact (sameOwner_schedDoSwitch { s with inSched := true } next).1

theorem idleTask_schedTick (hs : schedTick s = some s') : s'.idleTask = s.idleTask := by
  obtain ⟨s1, w, hw, hs⟩ := schedTick_wakes hs
  have hloop := hw.rest.idleTask
  obtain rfl | rfl | hs := hs
  · exact hloop
  · exact hloop
  · exact (idleTask_reschedule hs).trans hloop

theorem idleTask_schedBlock (hs : schedBlock s t wakeTick = some s') :
    s'.idleTask = s.idleTask := by
  have hidle := (sameRest_blockedState s t wakeTick).1
  rw [schedBlock_eq] at hs
  split at hs
  · obtain ⟨next, -, rfl⟩ := Option.map_eq_some_iff.mp hs
    exact (sameOwner_schedDoSwitch _ next).1.trans hidle
  · cases hs
    exact hidle

theorem idleTask_schedStep (hs : schedStep s op = some s') :
    s'.idleTask = s.idleTask := by
  cases op with
  | create kernelStack =>
    cases hs
    rfl
  | enqueue t =>
    cases hs
    exact (sameRest_runQueueAdd s t).idleTask
  | yield => exact idleTask_reschedule hs
  | tick => exact idleTask_schedTick hs
  | block t wakeTick => exact idleTask_schedBlock hs
  | unblock t =>
    cases hs
    exact (sameRest_schedUnblock s t).idleTask
  | exit =>
    obtain ⟨next, -, rfl⟩ := Option.map_eq_some_iff.mp hs
    exact ((SameRest.setState s _ _).trans (sameRest_runQueueRemove _ _)).idleTask

theorem blocked_schedTick (hs : schedTick s = some s') (hi : x ≠ s.idleTask)
    (hw : (s.tickCount + 1) % 2 ^ 64 < (s.tasks x).wakeTick) (hx : s.stateOf x = .blocked) :
    s'.stateOf x = .blocked := by
  obtain ⟨s1, l, hl, hs⟩ := schedTick_wakes hs
  have hidle := hl.rest.idleTask
  -- the timer wakes no task before its time
  have hloop : s1.stateOf x = .blocked := by
    rw [hl.states, if_neg fun hmem => absurd ((hl.due x).mp hmem).2.2 (Nat.not_le.mpr hw)]
    exact hx
  have hcharge : (s1.modify s1.currentTask chargeTick).stateOf x = .blocked := by
    rw [stateOf_charge]
    exact hloop
  obtain rfl | rfl | hs := hs
  · exact hloop
  · exact hcharge
  · exact blocked_reschedule hs (fun hc => hi (hc.trans hidle)) hcharge

theorem blocked_schedBlock (hs : schedBlock s t wakeTick = some s')
    (hi : x ≠ s.idleTask) (hx : s.stateOf x = .blocked) : s'.stateOf x = .blocked := by
  have hb : (blockedState s t wakeTick).stateOf x = .blocked := by
    rw [stateOf_blockedState]
    grind
  rw [schedBlock_eq] at hs
  split at hs
  · obtain ⟨next, hp, rfl⟩ := Option.map_eq_some_iff.mp hs
    refine blocked_schedDoSwitch hp ?_ hb
    rw [(sameRest_blockedState s t wakeTick).1]
    exact hi
  · cases hs
    exact hb

theorem blocked_schedStep (hs : schedStep s op = some s') (hi : x ≠ s.idleTask)
    (hop : ¬ op.Wakes s x) (hx : s.stateOf x = .blocked) : s'.stateOf x = .blocked := by
  cases op with
  | create kernelStack =>
    cases hs
    have hne : x ≠ s.nextPid := hop
    simp only [schedCreateTask, Sched.modify, Sched.stateOf]
    rw [if_neg hne]
    exact hx
  | enqueue t =>
    cases hs
    have hne : x ≠ t := hop
    rw [schedEnqueue, stateOf_runQueueAdd, if_neg hne]
    exact hx
  | yield => exact blocked_reschedule hs hi hx
  | tick => exact blocked_schedTick hs hi (Nat.not_le.mp hop) hx
  | block t wakeTick => exact blocked_schedBlock hs hi hx
  | unblock t =>
    cases hs
    rw [stateOf_schedUnblock, if_neg fun hc => hop hc.1]
    exact hx
  | exit =>
    obtain ⟨next, hp, rfl⟩ := Option.map_eq_some_iff.mp hs
    have hidle := ((SameRest.setState s s.currentTask .zombie).trans
      (sameRest_runQueueRemove _ s.currentTask)).idleTask
    have hst : (retireCurrent s).stateOf x = .blocked := by
      have hne : x ≠ s.currentTask := hop
      rw [retireCurrent, stateOf_runQueueRemove, Sched.stateOf_setState, if_neg hne]
      exact hx
    have hpick := schedPickNext_ready hp
    show ((retireCurrent s).setState next .running).stateOf x = .blocked
    rw [Sched.stateOf_setState, if_neg, hst]
    rintro rfl
    obtain hready | hc := hpick
    · rw [hst] at hready
      cases hready
    · exact hi (hc.trans hidle)

end

def WaitPc.reads : WaitPc → Bool
  | .check | .read => true
  | .get | .register | .reap _ | .returned _ _ => false

def WaitPc.holdsRecord : WaitPc → Bool
  | .check | .register | .read => true
  | .get | .reap _ | .returned _ _ => false

/-- The step, if it reads the record, finds it in `proc_table`. -/
def ReadsInTable (s : ProcState) : ProcEvent → Prop
  | .run => (s.waiters s.sched.currentTask).any WaitPc.reads = true → s.reaped = false
  | .sched _ => True

/-- Every call that has returned `pid` has stored the exit code. -/
def ReturnsCode (pid : Nat) (code : Int) (s : ProcState) : Prop :=
  ∀ t status, s.waiters t = some (.returned pid status) → status = some code

/-- No waiter reaps while another one is still to read the record, and nothing but
`proc_exit` wakes a waiter. -/
def ProcEvent.Orderly (s : ProcState) : ProcEvent → Prop
  | .run => ∀ status, s.waiters s.sched.currentTask = some (.reap status) →
      ∀ u ≠ s.sched.currentTask, (s.waiters u).any WaitPc.holdsRecord = false
  | .sched op => s.exitPc = .setCode → ∀ x, s.waiters x = some .read →
      s.sched.stateOf x = .blocked → ¬ op.Wakes s.sched x

/-- Before `proc_exit`: tasks are about to wait, or are blocked. -/
structure BeforeExit (s : ProcState) : Prop where
  exitPc : s.exitPc = .setCode
  exited : s.exited = false
  reaped : s.reaped = false
  waiters : ∀ t pc, s.waiters t = some pc → pc = .get ∨ pc = .check ∨ pc = .register ∨
    pc = .read ∧ s.sched.stateOf t = .blocked
  exiter : s.waiters s.exiter = none
  idle : s.waiters s.sched.idleTask = none

structure ReapInv (pid : Nat) (code : Int) (s : ProcState) : Prop where
  exitCode : s.exitPc ≠ .setCode → s.exitCode = code
  exited : s.exited = true → s.exitPc ≠ .setCode
  read : ∀ t, s.waiters t = some .read → s.sched.stateOf t = .blocked ∨ s.exitPc ≠ .setCode
  reap : ∀ t status, s.waiters t = some (.reap status) → status = code
  returned : ReturnsCode pid code s
  table : s.reaped = true → ∀ t, (s.waiters t).any WaitPc.holdsRecord = false
  exiter : s.waiters s.exiter = none
  idle : s.waiters s.sched.idleTask = none

variable {pid : Nat} {code : Int} {s s' : ProcState} {t : TaskId} {pc : WaitPc}

theorem BeforeExit.reapInv (h : BeforeExit s) : ReapInv pid code s where
  exitCode hne := absurd h.exitPc hne
  exited he := absurd (h.exited.symm.trans he) (by decide)
  read t ht := by
    have := h.waiters t _ ht
    simp only [reduceCtorEq, true_and, false_or] at this
    exact .inl this
  reap t status ht := by
    have := h.waiters t _ ht
    simp at this
  returned t status ht := by
    have := h.waiters t _ ht
    simp at this
  table hr := absurd (h.reaped.symm.trans hr) (by decide)
  exiter := h.exiter
  idle := h.idle

theorem ReapInv.of_sched (h : ReapInv pid code s) {sched : Sched}
    (hi : sched.idleTask = s.sched.idleTask)
    (hb : s.exitPc = .setCode → ∀ x, s.waiters x = some .read → s.sched.stateOf x = .blocked →
      sched.stateOf x = .blocked) : ReapInv pid code { s with sched := sched } where
  exitCode := h.exitCode
  exited := h.exited
  read x hx := by
    by_cases hpc : s.exitPc = .setCode
    · exact .inl (hb hpc x hx ((h.read x hx).resolve_right (not_not.mpr hpc)))
    · exact .inr hpc
  reap := h.reap
  returned := h.returned
  table := h.table
  exiter := h.exiter
  idle := by
    rw [hi]
    exact h.idle

theorem waiters_goto_self (s : ProcState) (t : TaskId) (pc : WaitPc) :
    (s.goto t pc).waiters t = some pc := Function.update_self ..

theorem waiters_goto_of_ne {x : TaskId} (hx : x ≠ t) (pc : WaitPc) :
    (s.goto t pc).waiters x = s.waiters x := Function.update_of_ne hx ..

section

variable (h : ReapInv pid code s)
include h

theorem ReapInv.goto (ht : s.waiters t ≠ none)
    (hread : pc = .read → s.sched.stateOf t = .blocked ∨ s.exitPc ≠ .setCode)
    (hreap : ∀ status, pc = .reap status → status = code)
    (hret : ∀ status, pc = .returned pid status → status = some code)
    (htable : s.reaped = true → pc.holdsRecord = false) : ReapInv pid code (s.goto t pc) := by
  have hwait : ∀ x pc', (s.goto t pc).waiters x = some pc' →
      x = t ∧ pc' = pc ∨ s.waiters x = some pc' := by
    intro x pc' hx
    by_cases hxt : x = t
    · rw [hxt, waiters_goto_self] at hx
      exact .inl ⟨hxt, (Option.some.inj hx).symm⟩
    · rw [waiters_goto_of_ne hxt] at hx
      exact .inr hx
  have hnone : ∀ x, s.waiters x = none → (s.goto t pc).waiters x = none := by
    intro x hx
    rw [waiters_goto_of_ne]
    · exact hx
    · rintro rfl
      exact ht hx
  constructor
  · exact h.exitCode
  · exact h.exited
  · intro x hx
    obtain ⟨rfl, hpc⟩ | hx := hwait x _ hx
    · exact hread hpc.symm
    · exact h.read x hx
  · intro x status hx
    obtain ⟨-, hpc⟩ | hx := hwait x _ hx
    · exact hreap status hpc.symm
    · exact h.reap x status hx
  · intro x status hx
    obtain ⟨-, hpc⟩ | hx := hwait x _ hx
    · exact hret status hpc.symm
    · exact h.returned x status hx
  · intro hr x
    by_cases hxt : x = t
    · rw [hxt, waiters_goto_self]
      exact htable hr
    · rw [waiters_goto_of_ne hxt]
      exact h.table hr x
  · exact hnone _ h.exiter
  · exact hnone _ h.idle

theorem ReapInv.waitStep (hw : s.waiters t = some pc)
    (hrun : s.sched.stateOf t = .running) (halone : ∀ status, pc = .reap status → ∀ u ≠ t,
      (s.waiters u).any WaitPc.holdsRecord = false)
    (hs : waitStep pid s t pc = some s') : ReapInv pid code s' := by
  have ht : s.waiters t ≠ none := by
    rw [hw]
    exact Option.some_ne_none pc
  have hin : pc.holdsRecord = true → s.reaped = false := fun hh => by
    cases hr : s.reaped with
    | false => rfl
    | true =>
      have hno := h.table hr t
      rw [hw, Option.any_some, hh] at hno
      cases hno
  cases pc with
  | get =>
    cases hs
    refine h.goto ht ?_ ?_ ?_ ?_ <;> cases hr : s.reaped <;> simp [WaitPc.holdsRecord]
  | check =>
    cases hs
    refine h.goto ht ?_ ?_ ?_ ?_ <;> cases he : s.exited <;> simp [WaitPc.holdsRecord]
    · exact .inr (h.exited he)
    · exact hin rfl
    · exact hin rfl
  | read =>
    have hpc : s.exitPc ≠ .setCode := (h.read t hw).resolve_left (by rw [hrun]; decide)
    cases hs
    refine h.goto ht ?_ ?_ ?_ ?_ <;> simp [WaitPc.holdsRecord]
    exact h.exitCode hpc
  | reap status =>
    cases hs
    have hcode := h.reap t status hw
    have hg : ReapInv pid code (s.goto t (.returned pid (some status))) := by
      refine h.goto ht ?_ ?_ ?_ ?_ <;> simp [WaitPc.holdsRecord]
      exact hcode
    refine { hg with table := fun _ u => ?_ }
    by_cases hut : u = t
    · rw [hut, waiters_goto_self]
      rfl
    · rw [waiters_goto_of_ne hut]
      exact halone status rfl u hut
  | returned result status =>
    cases hs
    exact h
  | register =>
    obtain ⟨sched, hblock, rfl⟩ := Option.map_eq_some_iff.mp hs
    have hstay : s.exitPc = .setCode → ∀ x, s.waiters x = some .read →
        s.sched.stateOf x = .blocked → sched.stateOf x = .blocked := by
      intro _ x hx hb
      refine blocked_schedBlock hblock ?_ hb
      rintro rfl
      rw [h.idle] at hx
      cases hx
    have hsched := h.of_sched (idleTask_schedBlock hblock) hstay
    have hg : ReapInv pid code ({ s with sched := sched }.goto t .read) := by
      refine hsched.goto ht ?_ ?_ ?_ ?_ <;> simp [WaitPc.holdsRecord]
      · exact .inl (stateOf_schedBlock hblock).1
      · exact hin rfl
    exact { hg with }

theorem ReapInv.exitStep : ReapInv pid code (exitStep code s s.exitPc) := by
  cases hpc : s.exitPc with
  | setCode =>
    exact { h with
      exitCode := fun _ => rfl
      exited := fun _ => by simp [DevOs.exitStep]
      read := fun _ _ => .inr (by simp [DevOs.exitStep]) }
  | setExited =>
    have hcode := h.exitCode (by rw [hpc]; decide)
    exact { h with
      exitCode := fun _ => hcode
      exited := fun _ => by simp [DevOs.exitStep]
      read := fun _ _ => .inr (by simp [DevOs.exitStep]) }
  | wake =>
    have hcode := h.exitCode (by rw [hpc]; decide)
    have hidle : ∀ (queue : List TaskId) (u : Sched),
        (queue.foldl schedUnblock u).idleTask = u.idleTask := by
      intro queue
      induction queue with
      | nil => exact fun _ => rfl
      | cons t queue ih => exact fun u => (ih _).trans (sameRest_schedUnblock u t).idleTask
    refine { h with
      exitCode := fun _ => hcode
      exited := fun _ => by simp [DevOs.exitStep]
      read := fun _ _ => .inr (by simp [DevOs.exitStep])
      idle := ?_ }
    show s.waiters (s.waitQueue.foldl schedUnblock s.sched).idleTask = none
    rw [hidle]
    exact h.idle
  | completed => exact h

theorem ReapInv.procStep {e : ProcEvent} (he : e.Orderly s)
    (hs : procStep pid code s e = some s') : ReapInv pid code s' := by
  cases e with
  | run =>
    obtain ⟨hrun, ⟨-, rfl⟩ | ⟨-, ⟨-, rfl⟩ | ⟨pc, hw, hstep⟩⟩⟩ := runStep_cases hs
    · exact h.exitStep
    · exact h
    · refine h.waitStep hw hrun (fun status hpc => ?_) hstep
      rw [hpc] at hw
      exact he status hw
  | sched op =>
    obtain ⟨-, sched, hop, rfl⟩ := procStep_sched hs
    refine h.of_sched (idleTask_schedStep hop) fun hpc x hx hb => ?_
    refine blocked_schedStep hop ?_ (he hpc x hx hb) hb
    rintro rfl
    rw [h.idle] at hx
    cases hx

theorem ReapInv.readsInTable (e : ProcEvent) : ReadsInTable s e := by
  cases e with
  | run =>
    intro hreads
    cases hr : s.reaped with
    | false => rfl
    | true =>
      have hno := h.table hr s.sched.currentTask
      cases hw : s.waiters s.sched.currentTask with
      | none => simp [hw] at hreads
      | some pc => cases pc <;> simp [hw, WaitPc.reads, WaitPc.holdsRecord] at hreads hno
  | sched op => trivial

end

/-- **When waiters read a live record.** With any number of tasks about to wait or
blocked, and however `proc_exit` and their calls interleave: if no waiter reaps
while another one is still to read the record, every read finds it in
`proc_table`, and every call that returns `pid` has stored `code`. -/
theorem waitpid_reads_ok (pid : Nat) (code : Int) {s : ProcState} (hs : BeforeExit s)
    (es : List ProcEvent)
    (hes : Steps (procStep pid code) (fun s e => e.Orderly s) s es) :
    Steps (procStep pid code) ReadsInTable s es ∧
      Always (procStep pid code) (ReturnsCode pid code) s es :=
  ⟨steps_of_steps (fun _ e _ h _ _ => h.readsInTable e)
      (fun _ _ _ (h : ReapInv pid code _) he hs => h.procStep he hs) es hs.reapInv hes,
    always_of_steps (fun _ h => h.returned)
      (fun _ _ _ (h : ReapInv pid code _) he hs => h.procStep he hs) es hs.reapInv hes⟩

theorem waiters_procStep {pid : Nat} {code : Int} {s s' : ProcState} {e : ProcEvent}
    (hs : procStep pid code s e = some s') {u : TaskId} (hu : s.waiters u = none) :
    s'.waiters u = none := by
  cases e with
  | sched op =>
    obtain ⟨-, sched, -, rfl⟩ := procStep_sched hs
    exact hu
  | run =>
    obtain ⟨-, ⟨-, rfl⟩ | ⟨-, ⟨-, rfl⟩ | ⟨pc, hw, hstep⟩⟩⟩ := runStep_cases hs
    · cases hpc : s.exitPc <;> exact hu
    · exact hu
    · have hne : u ≠ s.sched.currentTask := by
        rintro rfl
        rw [hu] at hw
        cases hw
      cases pc with
      | get | check | read | reap _ =>
        cases hstep
        exact (waiters_goto_of_ne hne _).trans hu
      | returned result status =>
        cases hstep
        exact hu
      | register =>
        obtain ⟨sched, -, rfl⟩ := Option.map_eq_some_iff.mp hstep
        exact (waiters_goto_of_ne hne _).trans hu

/-- If only the tasks `ts` wait, the event is `Orderly`. -/
def ProcEvent.check (ts : List TaskId) (s : ProcState) : ProcEvent → Bool
  | .run => (s.waiters s.sched.currentTask).all (fun pc => !pc.inCall || pc.holdsRecord) ||
      ts.all fun u => u = s.sched.currentTask || !(s.waiters u).any WaitPc.holdsRecord
  | .sched .yield => true
  | .sched _ => false

theorem ProcEvent.orderly_of_check {ts : List TaskId} (hts : ∀ u ∉ ts, s.waiters u = none)
    {e : ProcEvent} (he : e.check ts s = true) : e.Orderly s := by
  cases e with
  | run =>
    intro status hw u hu
    by_cases hmem : u ∈ ts
    · simp only [check, hw, Option.all_some, WaitPc.inCall, WaitPc.holdsRecord, Bool.not_true,
        Bool.or_self, Bool.false_or, List.all_eq_true] at he
      simpa [hu] using he u hmem
    · rw [hts u hmem]
      rfl
  | sched op =>
    cases op with
    | yield => exact fun _ _ _ _ hwakes => hwakes
    | _ => cases he

theorem steps_orderly_of_check (ts : List TaskId) : ∀ (es : List ProcEvent) {s : ProcState},
      (∀ u ∉ ts, s.waiters u = none) →
      (es.foldlM (fun s (e : ProcEvent) => if e.check ts s then procStep pid code s e else none)
        s).isSome →
      Steps (procStep pid code) (fun s e => e.Orderly s) s es
  | [], _, _, _ => trivial
  | e :: es, s, hts, hrun => by
    intro s' hs
    rw [List.foldlM_cons] at hrun
    split at hrun
    · next he =>
        rw [hs] at hrun
        exact ⟨ProcEvent.orderly_of_check hts he, steps_orderly_of_check ts es
          (fun u hu => waiters_procStep hs (hts u hu)) hrun⟩
    · cases hrun

/-- Tasks 2 and 3 are about to wait for the process that the boot task is about to
exit from. -/
def twoWaiters : ProcState where
  sched := schedEnqueue (schedCreateTask (schedEnqueue (schedCreateTask (schedInit 100 200) 300) 2)
    400) 3
  exitCode := 0
  exited := false
  reaped := false
  waitQueue := []
  waiters := fun t => if t = 2 ∨ t = 3 then some .get else none
  exiter := 0
  exitPc := .setCode

theorem beforeExit_twoWaiters : BeforeExit twoWaiters where
  exitPc := rfl
  exited := rfl
  reaped := rfl
  waiters t pc ht := by
    simp only [twoWaiters] at ht
    split at ht
    · exact .inl (Option.some.inj ht).symm
    · cases ht
  exiter := rfl
  idle := by decide +kernel

/-- Both tasks read the exit code before either reaps. -/
def bothRead : List ProcEvent :=
  [.sched .yield, .sched .yield, .run, .run, .run, .run, .run, .run, .run, .run, .run,
    .sched .yield, .run, .sched .yield, .run, .sched .yield, .sched .yield, .run, .sched .yield,
    .run]

theorem waitpid_reads_both :
    Steps (procStep 4 42) ReadsInTable twoWaiters bothRead ∧
      Always (procStep 4 42) (ReturnsCode 4 42) twoWaiters bothRead := by
  refine waitpid_reads_ok 4 42 beforeExit_twoWaiters _ (steps_orderly_of_check [2, 3] _ ?_ ?_)
  · intro u hu
    simpa [twoWaiters] using hu
  · decide +kernel

def bothWait : List ProcEvent :=
  [.sched .yield, .sched .yield, .run, .run, .run, .run, .run, .run, .run, .run, .run,
    .sched .yield, .run, .run, .sched .yield]

theorem waiter_reads_freed :
    ∃ s s', bothWait.foldlM (procStep 4 42) twoWaiters = some s ∧
      procStep 4 42 s .run = some s' ∧ ¬ ReadsInTable s .run := by
  have hend : (bothWait.foldlM (procStep 4 42) twoWaiters).map (fun s =>
      ((procStep 4 42 s .run).isSome, (s.waiters s.sched.currentTask).any WaitPc.reads,
        s.reaped)) = some (true, true, true) := by decide +kernel
  obtain ⟨s, hs, hfields⟩ := Option.map_eq_some_iff.mp hend
  simp only [Prod.mk.injEq] at hfields
  obtain ⟨hstep, hreads, hreaped⟩ := hfields
  obtain ⟨s', hs'⟩ := Option.isSome_iff_exists.mp hstep
  refine ⟨s, s', hs, hs', fun hin => ?_⟩
  rw [hin hreads] at hreaped
  cases hreaped

end DevOs
