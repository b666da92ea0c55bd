import DevOs.Lib.Run
import DevOs.Sched.Switch

/-!
Interrupts across a switch: the IF flag and the interrupt controller, for
`irq_dispatch` of `kernel/arch/x86_64/irq.c`, `sched_switch` and the callers of
the scheduler.
-/

namespace DevOs

open Function

/-- Where a task that does not run will go on when `sched_switch` loads its
stack. -/
inductive Resume where
  /-- A kernel task that has never run: `ret` goes to its entry function. -/
  | entry
  /-- A user task that has never run: `ring3_enter_first`, an IRET with IF set. -/
  | ring3
  /-- In `sched_yield` or `sched_block`, before `irq_restore(flags)`. -/
  | voluntary (flags : Bool)
  /-- In `sched_tick`, under `irq_dispatch`, with the RFLAGS that the gate
  pushed. -/
  | interrupted (rflags : Bool)
  /-- In `sched_exit`, before `ud2`. -/
  | gone
  deriving DecidableEq, Repr

/-- The CPU and the 8259 with the scheduler. Flags stand for their IF bit;
`inService` is an IRQ0 that waits for its EOI; `disabled t` is a ghost: whether
task `t` itself has disabled interrupts last. -/
structure IrqState where
  sched : Sched
  intFlag : Bool
  inService : Bool
  resume : TaskId → Resume
  disabled : TaskId → Bool

def IrqState.current (s : IrqState) : TaskId := s.sched.currentTask

inductive IrqEvent where
  | timer
  | yield
  | block (t : TaskId) (wakeTick : Nat)
  | exit
  | cli
  | sti
  | create (isUser : Bool) (kernelStack : Nat)
  | enqueue (t : TaskId)
  | unblock (t : TaskId)
  deriving DecidableEq, Repr

/-- The rest of a scheduler call once `sched_switch` has loaded the stack of
the task that runs now. -/
def goOn (s : IrqState) : Option IrqState :=
  match s.resume s.current with
  | .entry => some s
  | .ring3 => some { s with intFlag := true }
  | .voluntary flags => some { s with intFlag := flags }
  -- `pic_eoi`, then IRET
  | .interrupted rflags => some { s with inService := false, intFlag := rflags }
  | .gone => none

/-- The state in which `sched_switch` has run with interrupts off: the caller
will go on at `here`, and the task that the scheduler has picked has the CPU. -/
def handOver (s : IrqState) (inService : Bool) (here : Resume) (sched : Sched) : IrqState where
  sched := sched
  intFlag := false
  inService := inService
  resume := update s.resume s.current here
  disabled := s.disabled

/-- A call of the scheduler by the running task. If the scheduler keeps the
task, it goes on `here` at once. -/
def callSched (s : IrqState) (inService : Bool) (here : Resume) (sched : Option Sched) :
    Option IrqState :=
  sched.bind fun sched => goOn (handOver s inService here sched)

/-- One event. The timer interrupt is delivered only with IF set and no IRQ0
in service; `none` is an event that does not happen or a call that does not
come back. -/
def irqStep (s : IrqState) : IrqEvent → Option IrqState
  | .timer =>
    if s.intFlag = true ∧ s.inService = false then
      callSched s true (.interrupted s.intFlag) (schedTick s.sched)
    else none
  | .yield => callSched s s.inService (.voluntary s.intFlag) (schedYield s.sched)
  | .block t wakeTick =>
    if t < s.sched.nextPid then
      callSched s s.inService (.voluntary s.intFlag) (schedBlock s.sched t wakeTick)
    else none
  | .exit => callSched s s.inService .gone (schedExit s.sched)
  | .cli => some
      { s with intFlag := false, disabled := update s.disabled s.current true }
  | .sti => some
      { s with intFlag := true, disabled := update s.disabled s.current false }
  | .create isUser kernelStack => some
      { s with
        sched := schedCreateTask s.sched kernelStack
        resume := update s.resume s.sched.nextPid (if isUser then .ring3 else .entry)
        disabled := update s.disabled s.sched.nextPid false }
  | .enqueue t =>
    if t < s.sched.nextPid then some { s with sched := schedEnqueue s.sched t } else none
  | .unblock t =>
    if t < s.sched.nextPid then some { s with sched := schedUnblock s.sched t } else none

/-- The running task is in its own code with interrupts enabled, unless it has
disabled them itself, and no timer interrupt waits for its EOI. -/
def Settled (s : IrqState) : Prop :=
  (s.intFlag = true ∨ s.disabled s.current = true) ∧ s.inService = false

/-- Whether a switch to a task that goes on at `r` leaves the flag and the
controller in order; `isTimer` says that it is made in the timer interrupt. -/
def Resume.InOrder (isTimer : Bool) : Resume → Prop
  | .entry => False
  | .ring3 => isTimer = false
  | .voluntary _ => isTimer = false
  | .interrupted _ => True
  | .gone => False

/-- The condition on one event: if it switches, the new task has run before or
is a user task, and a switch out of the timer interrupt goes to a task that
the timer interrupt suspended. -/
def SwitchInOrder (s : IrqState) (e : IrqEvent) : Prop :=
  ∀ s', irqStep s e = some s' → s'.current ≠ s.current →
    (s.resume s'.current).InOrder (e = .timer)

/-- What a task is parked with: its saved flag is enabled unless it has
disabled interrupts itself, which a new task has not. -/
structure Parked (s : IrqState) (t : TaskId) : Prop where
  fresh : s.resume t = .entry → s.disabled t = false
  saved : ∀ f, s.resume t = .voluntary f ∨ s.resume t = .interrupted f →
    f = true ∨ s.disabled t = true

structure IrqInv (s : IrqState) : Prop where
  known : Known s.sched
  parked : ∀ t ≠ s.current, Parked s t

variable {s s' : IrqState} {t : TaskId} {e : IrqEvent} {isTimer : Bool} {here : Resume}

theorem Parked.congr (h : Parked s t) (hr : s'.resume t = s.resume t)
    (hd : s'.disabled t = s.disabled t) : Parked s' t where
  fresh := by
    rw [hr, hd]
    exact h.fresh
  saved := by
    rw [hr, hd]
    exact h.saved

theorem goOn_same (h : goOn s = some s') :
    s'.sched = s.sched ∧ s'.resume = s.resume ∧ s'.disabled = s.disabled := by
  unfold goOn at h
  split at h <;> cases h <;> exact ⟨rfl, rfl, rfl⟩

theorem settled_goOn_iff (hoff : s.intFlag = false) (hp : Parked s s.current)
    (h : goOn s = some s') : Settled s' ↔ (s.resume s.current).InOrder s.inService := by
  unfold goOn at h
  cases hr : s.resume s.current with
  | entry =>
    rw [hr] at h
    cases h
    simp [Settled, Resume.InOrder, hoff, hp.fresh hr]
  | ring3 =>
    rw [hr] at h
    cases h
    simp [Settled, Resume.InOrder]
  | voluntary flags =>
    rw [hr] at h
    cases h
    have hf : flags = true ∨ s.disabled s.current = true := hp.saved flags (.inl hr)
    simpa [Settled, Resume.InOrder, IrqState.current] using fun _ => hf
  | interrupted rflags =>
    rw [hr] at h
    cases h
    have hf : rflags = true ∨ s.disabled s.current = true := hp.saved rflags (.inr hr)
    simpa [Settled, Resume.InOrder, IrqState.current] using hf
  | gone =>
    rw [hr] at h
    cases h

def CallPoint (intFlag isTimer : Bool) (here : Resume) : Prop :=
  here = .gone ∨ here = .interrupted intFlag ∨ (here = .voluntary intFlag ∧ isTimer = false)

theorem parked_handOver (h : IrqInv s) (hs : Settled s)
    (hhere : CallPoint s.intFlag isTimer here) (sched : Sched) (t : TaskId) :
    Parked (handOver s isTimer here sched) t := by
  by_cases hts : t = s.current
  · subst hts
    have hr : (handOver s isTimer here sched).resume s.current = here := update_self ..
    constructor
    · rw [hr]
      rintro rfl
      rcases hhere with hh | hh | ⟨hh, -⟩ <;> cases hh
    · rw [hr]
      rintro f (rfl | rfl) <;> rcases hhere with hh | hh | ⟨hh, -⟩ <;> cases hh <;> exact hs.1
  · exact (h.parked t hts).congr (update_of_ne hts ..) rfl

theorem callSched_spec (h : IrqInv s) (hs : Settled s)
    {sched : Sched} (hk : Known sched) (hhere : CallPoint s.intFlag isTimer here)
    (hgo : goOn (handOver s isTimer here sched) = some s') :
    (Settled s' ↔ (s'.current ≠ s.current → (s.resume s'.current).InOrder isTimer)) ∧
      IrqInv s' := by
  have hparked := parked_handOver h hs hhere sched
  obtain ⟨hsched, hres, hdis⟩ := goOn_same hgo
  have hcur : s'.current = sched.currentTask := congrArg Sched.currentTask hsched
  have hiff : Settled s' ↔
      ((handOver s isTimer here sched).resume sched.currentTask).InOrder isTimer :=
    settled_goOn_iff rfl (hparked _) hgo
  constructor
  · rw [hiff, hcur]
    by_cases hsame : sched.currentTask = s.current
    · -- no switch: the call comes back, unless it is `sched_exit`
      have hr : (handOver s isTimer here sched).resume s.current = here := update_self ..
      rw [hsame, hr]
      simp only [ne_eq, not_true_eq_false, false_implies, iff_true]
      rcases hhere with rfl | rfl | ⟨rfl, ht⟩
      · have hnone : goOn (handOver s isTimer .gone sched) = none := by
          simp [goOn, IrqState.current, handOver, hsame]
        rw [hnone] at hgo
        cases hgo
      · trivial
      · exact ht
    · have hr : (handOver s isTimer here sched).resume sched.currentTask =
          s.resume sched.currentTask := update_of_ne hsame ..
      rw [hr]
      simp [hsame]
  · refine ⟨hsched ▸ hk, fun t _ => (hparked t).congr ?_ ?_⟩
    · rw [hres]
    · rw [hdis]

theorem switchInOrder_iff (hs : irqStep s e = some s') : SwitchInOrder s e ↔
      (s'.current ≠ s.current → (s.resume s'.current).InOrder (e = .timer)) := by
  constructor
  · exact fun h => h s' hs
  · intro h s1 h1
    obtain rfl := Option.some.inj (hs.symm.trans h1)
    exact h

theorem settled_of_stays (h : IrqInv s) (he : irqStep s e = some s')
    (hcur : s'.current = s.current) (hset : Settled s') (hk : Known s'.sched)
    (hpark : ∀ t ≠ s.current, Parked s t → Parked s' t) :
    (Settled s' ↔ SwitchInOrder s e) ∧ IrqInv s' := by
  refine ⟨?_, hk, fun t ht => hpark t (hcur ▸ ht) (h.parked t (hcur ▸ ht))⟩
  rw [switchInOrder_iff he]
  simp [hset, hcur]

theorem irqStep_spec (h : IrqInv s) (hs : Settled s) (he : irqStep s e = some s') :
    (Settled s' ↔ SwitchInOrder s e) ∧ IrqInv s' := by
  have hoff := hs.2
  cases e with
  | timer =>
    rw [switchInOrder_iff he]
    simp only [irqStep] at he
    split at he
    · obtain ⟨sched, hsched, hgo⟩ := Option.bind_eq_some_iff.1 he
      exact callSched_spec h hs (handover_schedTick h.known hsched).known (.inr (.inl rfl)) hgo
    · cases he
  | yield =>
    rw [switchInOrder_iff he]
    obtain ⟨sched, hsched, hgo⟩ := Option.bind_eq_some_iff.1 he
    rw [hoff] at hgo
    exact callSched_spec h hs (handover_reschedule h.known hsched).known
      (.inr (.inr ⟨rfl, rfl⟩)) hgo
  | block t wakeTick =>
    rw [switchInOrder_iff he]
    simp only [irqStep] at he
    split at he
    · rename_i ht
      obtain ⟨sched, hsched, hgo⟩ := Option.bind_eq_some_iff.1 he
      rw [hoff] at hgo
      exact callSched_spec h hs (handover_schedBlock h.known ht hsched).known
        (.inr (.inr ⟨rfl, rfl⟩)) hgo
    · cases he
  | exit =>
    rw [switchInOrder_iff he]
    obtain ⟨sched, hsched, hgo⟩ := Option.bind_eq_some_iff.1 he
    rw [hoff] at hgo
    exact callSched_spec h hs (handover_schedExit h.known hsched).known (.inl rfl) hgo
  | cli =>
    cases he
    refine settled_of_stays h rfl rfl ⟨.inr (update_self ..), hoff⟩ h.known fun t ht hp => ?_
    exact hp.congr rfl (update_of_ne ht ..)
  | sti =>
    cases he
    refine settled_of_stays h rfl rfl ⟨.inl rfl, hoff⟩ h.known fun t ht hp => ?_
    exact hp.congr rfl (update_of_ne ht ..)
  | create isUser kernelStack =>
    cases he
    have hne : s.current ≠ s.sched.nextPid := h.known.current.ne
    refine settled_of_stays h rfl rfl ⟨?_, hoff⟩ (known_schedCreateTask h.known kernelStack)
      fun t ht hp => ?_
    · exact hs.1.imp_right fun hd => (update_of_ne hne ..).trans hd
    · by_cases htn : t = s.sched.nextPid
      · subst htn
        constructor <;> cases isUser <;> simp
      · exact hp.congr (update_of_ne htn ..) (update_of_ne htn ..)
  | enqueue t =>
    have hstep := he
    simp only [irqStep] at he
    split at he
    · rename_i ht
      cases he
      have hover := Handover.runQueueAdd h.known ht
      have hcur : (runQueueAdd s.sched t).currentTask = s.sched.currentTask :=
        (sameRest_runQueueAdd s.sched t).currentTask
      refine settled_of_stays h hstep hcur ⟨?_, hoff⟩ hover.known fun u _ hp => ⟨hp.fresh, hp.saved⟩
      simpa [IrqState.current, schedEnqueue, hcur] using hs.1
    · cases he
  | unblock t =>
    have hstep := he
    simp only [irqStep] at he
    split at he
    · rename_i ht
      cases he
      have hover := handover_schedUnblock h.known ht
      have hcur : (schedUnblock s.sched t).currentTask = s.sched.currentTask := by
        unfold schedUnblock
        split
        · exact (sameRest_runQueueAdd s.sched t).currentTask
        · rfl
      refine settled_of_stays h hstep hcur ⟨?_, hoff⟩ hover.known fun u _ hp => ⟨hp.fresh, hp.saved⟩
      simpa [IrqState.current, hcur] using hs.1
    · cases he

/-- **When interrupts survive the switches.** Start with a task in its own
code, in order, and any set of tasks that are parked as the code parks them.
In a run of timer interrupts and of calls of `sched_yield`, `sched_block` and
`sched_exit`, the running task is in order after every event exactly if every
switch goes to a task that has run before (or to a user task), and every
switch out of the timer interrupt to one that the timer interrupt suspended. -/
theorem settled_iff_switches (h : IrqInv s) (hs : Settled s) (es : List IrqEvent) :
    Machine.Always irqStep Settled s es ↔ Machine.Steps irqStep SwitchInOrder s es :=
  @Machine.always_iff_steps _ _ irqStep IrqInv Settled SwitchInOrder
    (fun _ _ _ hi hp he => ⟨(irqStep_spec hi hp he).1, fun _ => (irqStep_spec hi hp he).2⟩)
    es _ h hs

/-- After `sched_init` and `cpu_enable_interrupts`; `resume` says where the
tasks other than the boot task will go on. -/
def irqBoot (resume : TaskId → Resume) : IrqState where
  sched := schedInit 0x8000 0x100000
  intFlag := true
  inService := false
  resume := resume
  disabled _ := false

def idleSuspended : IrqState := irqBoot fun t => if t = 1 then .interrupted true else .entry

theorem settled_idle_suspended :
    Machine.Always irqStep Settled idleSuspended [.timer] ∧
      (irqStep idleSuspended .timer).map IrqState.current = some 1 := by
  have hcur : (irqStep idleSuspended .timer).map IrqState.current = some 1 := by decide +kernel
  have hinv : IrqInv idleSuspended := by
    refine ⟨known_schedInit _ _, fun t _ => ⟨fun _ => rfl, fun f hf => .inl ?_⟩⟩
    simp only [idleSuspended, irqBoot] at hf
    by_cases ht : t = 1
    · simpa [ht, eq_comm] using hf
    · simp [ht] at hf
  refine ⟨(settled_iff_switches hinv ⟨.inl rfl, rfl⟩ [.timer]).2 fun s' hs' => ⟨?_, trivial⟩, hcur⟩
  rw [switchInOrder_iff hs']
  rw [hs'] at hcur
  obtain hcur : s'.current = 1 := Option.some.inj hcur
  rw [hcur]
  exact fun _ => trivial

/-- The first timer interrupt after boot ends the slice of the boot task; the
idle task starts with interrupts off and with the interrupt still in
service. -/
theorem unsettled_first_dispatch :
    (irqStep (irqBoot fun _ => .entry) .timer).map
      (fun s => (s.current, s.intFlag, s.disabled s.current, s.inService)) =
    some (1, false, false, true) := by
  decide +kernel

end DevOs
