import DevOs.Sched.Preempt
import DevOs.Sched.States

/-!
The calls of `run_queue_remove` in `kernel/sched/sched.c`.
-/

namespace DevOs

open Machine

def LinkedTask (s : Sched) (t : TaskId) : Prop := s.nextOf t ≠ none ∧ s.prevOf t ≠ none

/-- The call that `reschedule` makes, if it switches: the state in which it is made,
and the task. -/
def rescheduleRemovals (s : Sched) : List (Sched × TaskId) :=
  let s := { s with inSched := true }
  match schedPickNext s with
  | none => []
  | some next => if next = s.currentTask then [] else [(putBack s s.currentTask, next)]

/-- The call of `sched_tick`, once the sleepers have been woken. -/
def chargeRemovals (s : Sched) : List (Sched × TaskId) :=
  if s.inSched then []
  else
    let s := s.modify s.currentTask chargeTick
    if (s.tasks s.currentTask).timeSlice = 0 then rescheduleRemovals s else []

def removals (s : Sched) : SchedOp → List (Sched × TaskId)
  | .yield => rescheduleRemovals s
  | .tick =>
    let s := { s with tickCount := (s.tickCount + 1) % 2 ^ 64 }
    chargeRemovals (schedCheckSleepers s s.tickCount)
  | .block t wakeTick =>
    let s := markBlocked s t wakeTick
    let s' := sleepListAdd (runQueueRemove s t) t
    (s, t) :: if t = s'.currentTask then rescheduleRemovals s' else []
  | .exit => [(s.setState s.currentTask .zombie, s.currentTask)]
  | .create _ | .enqueue _ | .unblock _ => []

/-- Every call of `run_queue_remove` finds its task linked. -/
def FindsLinked (s : Sched) (op : SchedOp) : Prop := ∀ r ∈ removals s op, LinkedTask r.1 r.2

/-- Callers pass records that exist, enqueue tasks that have been created, and block
the running task alone. -/
def SchedOp.Proper (s : Sched) : SchedOp → Prop
  | .enqueue t => t < s.nextPid ∧ s.stateOf t = .created
  | .block t _ => t = s.currentTask
  | .unblock t => t < s.nextPid
  | .create _ | .yield | .tick | .exit => True

def HasSuccessor (s : Sched) : Prop := s.runQueueHead ≠ none ∨ s.currentTask = s.idleTask

def SchedOp.HandsOver (s : Sched) : SchedOp → Prop
  | .yield => HasSuccessor s
  | .tick => s.inSched = false → (s.tasks s.currentTask).timeSlice ≤ 1 → HasSuccessor s
  | .block _ _ | .exit => False
  | .create _ | .enqueue _ | .unblock _ => True

variable {s s' : Sched} {q : List TaskId} {t : TaskId} {op : SchedOp}

theorem linkedTask_of_mem (h : IsQueue s q) (ht : t ∈ q) : LinkedTask s t := by
  obtain ⟨l, r, rfl⟩ := List.append_of_mem ht
  by_cases hne : l ++ r = []
  · obtain ⟨rfl, rfl⟩ := List.append_eq_nil_iff.mp hne
    obtain ⟨hn, hp⟩ := h.ring.closed t rfl t rfl
    simp [LinkedTask, hn, hp]
  · obtain ⟨a, -, b, -, hn, hp⟩ := h.ring.neighbours hne
    simp [LinkedTask, hn, hp]

theorem not_linkedTask (h : Unlinked s q) (ht : t ∉ q) : ¬ LinkedTask s t :=
  fun hc => hc.1 (h t ht).1

structure AllAwake (s : Sched) : Prop where
  queue : ∃ q, QueueInv s q
  states : StatesOk s
  awake : ∀ t, s.stateOf t ≠ .blocked

theorem AllAwake.current_unlinked (h : AllAwake s) : s.nextOf s.currentTask = none := by
  obtain ⟨q, hq⟩ := h.queue
  exact (hq.unlinked _ (hq.not_mem (by rw [h.states.current]; decide))).1

theorem rescheduleRemovals_eq (h : QueueInv s q) :
    rescheduleRemovals s = if q.head?.getD s.idleTask = s.currentTask then []
      else [(putBack { s with inSched := true } s.currentTask, q.head?.getD s.idleTask)] := by
  unfold rescheduleRemovals
  simp only [schedPickNext_eq h.guarded]

theorem linked_reschedule_iff (h : QueueInv s q) (hrun : s.stateOf s.currentTask = .running) :
    (∀ r ∈ rescheduleRemovals s, LinkedTask r.1 r.2) ↔ HasSuccessor s := by
  have hput := queueInv_putBack h.guarded
  have hhead := h.queue.head
  rw [rescheduleRemovals_eq h]
  cases q with
  | nil =>
    rw [List.head?_nil, Option.getD_none]
    by_cases hidle : s.idleTask = s.currentTask
    · exact iff_of_true (by simp [hidle]) (.inr hidle.symm)
    · -- the idle task is not in the queue, where the running task is alone
      have hout : s.idleTask ∉ putBackList { s with inSched := true } [] := by
        unfold putBackList
        split <;> simp [hidle]
      have hnot := not_linkedTask hput.unlinked hout
      rw [if_neg hidle, List.forall_mem_singleton]
      exact iff_of_false hnot fun hc => hc.elim (fun hq => hq hhead) fun hi => hidle hi.symm
  | cons head q =>
    have hne : head ≠ s.currentTask := by
      rintro rfl
      exact absurd (h.ready _ List.mem_cons_self) (by rw [hrun]; decide)
    have hin : head ∈ putBackList { s with inSched := true } (head :: q) := by
      unfold putBackList
      split <;> simp
    have hlinked := linkedTask_of_mem hput.queue hin
    rw [List.head?_cons, Option.getD_some, if_neg hne, List.forall_mem_singleton]
    exact iff_of_true hlinked (.inl (by rw [hhead]; simp))

theorem chargeRemovals_eq (s : Sched) :
    chargeRemovals s = if s.inSched = false ∧ (s.tasks s.currentTask).timeSlice ≤ 1
      then rescheduleRemovals (s.modify s.currentTask chargeTick) else [] := by
  have hslice := timeSlice_charge s
  have hz : ((s.modify s.currentTask chargeTick).tasks s.currentTask).timeSlice = 0 ↔
      (s.tasks s.currentTask).timeSlice ≤ 1 := by
    omega
  unfold chargeRemovals
  cases s.inSched with
  | true => simp
  | false =>
    simp [show (s.modify s.currentTask chargeTick).currentTask = s.currentTask from rfl, hz]

theorem linked_charge_iff (h : QueueInv s q) (hrun : s.stateOf s.currentTask = .running) :
    (∀ r ∈ chargeRemovals s, LinkedTask r.1 r.2) ↔
      (s.inSched = false → (s.tasks s.currentTask).timeSlice ≤ 1 → HasSuccessor s) := by
  have hswitch := linked_reschedule_iff (queueInv_charge h s.currentTask)
    ((stateOf_charge s _ _).trans hrun)
  rw [chargeRemovals_eq, ← and_imp]
  by_cases hends : s.inSched = false ∧ (s.tasks s.currentTask).timeSlice ≤ 1
  · rw [if_pos hends, imp_iff_right hends]
    exact hswitch
  · simp [hends]

theorem AllAwake.tick_iff (h : AllAwake s) : FindsLinked s .tick ↔ SchedOp.HandsOver s .tick := by
  obtain ⟨q, hq⟩ := h.queue
  have hsleep : schedCheckSleepers { s with tickCount := (s.tickCount + 1) % 2 ^ 64 }
      ((s.tickCount + 1) % 2 ^ 64) = { s with tickCount := (s.tickCount + 1) % 2 ^ 64 } :=
    checkSleepersLoop_eq_self (s := { s with tickCount := (s.tickCount + 1) % 2 ^ 64 }) _
      (fun t hd => h.awake t hd.2.1) _ 0
  have hcount : QueueInv { s with tickCount := (s.tickCount + 1) % 2 ^ 64 } q :=
    hq.of_same rfl rfl rfl rfl rfl rfl rfl fun _ ht => ht
  have hcalls : removals s .tick =
      chargeRemovals { s with tickCount := (s.tickCount + 1) % 2 ^ 64 } :=
    congrArg chargeRemovals hsleep
  rw [FindsLinked, hcalls]
  exact linked_charge_iff hcount h.states.current

theorem AllAwake.findsLinked_iff (h : AllAwake s) (hop : op.Proper s) :
    FindsLinked s op ↔ op.HandsOver s := by
  obtain ⟨q, hq⟩ := h.queue
  cases op with
  | create kernelStack => simp [FindsLinked, removals, SchedOp.HandsOver]
  | enqueue t => simp [FindsLinked, removals, SchedOp.HandsOver]
  | unblock t => simp [FindsLinked, removals, SchedOp.HandsOver]
  | yield => exact linked_reschedule_iff hq h.states.current
  | tick => exact h.tick_iff
  | block t wakeTick =>
    -- the running task is not in the queue
    obtain rfl : t = s.currentTask := hop
    refine iff_of_false (fun hc => ?_) id
    refine (hc (markBlocked s s.currentTask wakeTick, s.currentTask) List.mem_cons_self).1 ?_
    have hnext : (markBlocked s s.currentTask wakeTick).nextOf s.currentTask =
        s.nextOf s.currentTask := by
      simp [markBlocked, Sched.modify, Sched.nextOf]
    exact hnext.trans h.current_unlinked
  | exit =>
    refine iff_of_false (fun hc => ?_) id
    refine (hc (s.setState s.currentTask .zombie, s.currentTask) List.mem_cons_self).1 ?_
    rw [Sched.nextOf_setState]
    exact h.current_unlinked

theorem SchedOp.HandsOver.not_stops (h : op.HandsOver s) : ¬ op.Stops := by
  cases op with
  | block t wakeTick => exact h.elim
  | exit => exact h.elim
  | create kernelStack | enqueue t | unblock t | yield | tick => exact id

theorem AllAwake.step (h : AllAwake s) (hop : op.Proper s)
    (hover : op.HandsOver s) (hs : schedStep s op = some s') : AllAwake s' := by
  obtain ⟨q, hq⟩ := h.queue
  have hstops := hover.not_stops
  have hallowed : op.Allowed s ∧ op.KeepsQueue s ∧ SchedEvent.Allowed s (.call op) := by
    cases op with
    | block t wakeTick => exact hover.elim
    | exit => exact hover.elim
    | create kernelStack => exact ⟨trivial, trivial, trivial⟩
    | enqueue t => exact ⟨hop, trivial, hop⟩
    | yield => exact ⟨trivial, trivial, trivial⟩
    | tick => exact ⟨trivial, trivial, trivial⟩
    | unblock t => exact ⟨hop, trivial, trivial⟩
  obtain ⟨hal, hkeep, hev⟩ := hallowed
  obtain ⟨s1, q1, hs1, hq1⟩ := queueInv_schedStep hq hal hkeep
  obtain rfl : s' = s1 := Option.some.inj (hs.symm.trans hs1)
  have hstep : schedEventStep s (.call op) = some s' := (if_pos hev).trans hs
  refine ⟨⟨q1, hq1⟩, (h.states.schedEventStep hstep).1, fun t ht => ?_⟩
  exact h.awake t ((noneStops_schedStep hstops hs t (.inl ht)).trans ht)

theorem allAwake_schedInit (bootStack idleStack : Nat) :
    AllAwake (schedInit bootStack idleStack) := by
  refine ⟨⟨_, queueInv_schedInit bootStack idleStack⟩, statesOk_schedInit bootStack idleStack,
    fun t ht => ?_⟩
  have hst := stateOf_schedInit bootStack idleStack t
  rw [ht] at hst
  grind

/-- **Every call of `run_queue_remove` in a run finds its task linked** exactly if
nobody blocks or exits in the run, and every switch finds a task in the queue. -/
theorem removalsLinked_iff (bootStack idleStack : Nat) (ops : List SchedOp)
    (hops : Steps schedStep SchedOp.Proper (schedInit bootStack idleStack) ops) :
    Steps schedStep FindsLinked (schedInit bootStack idleStack) ops ↔
      Steps schedStep SchedOp.HandsOver (schedInit bootStack idleStack) ops :=
  steps_iff_steps (fun _ _ h hop => h.findsLinked_iff hop)
    (fun _ _ _ h hop hover hs => h.step hop hover hs) ops
    (allAwake_schedInit bootStack idleStack) hops

theorem removalsLinked_three_tasks :
    Steps schedStep SchedOp.Proper (schedInit 16384 32768)
        [.create 49152, .enqueue 2, .yield, .yield, .yield] ∧
      Steps schedStep FindsLinked (schedInit 16384 32768)
        [.create 49152, .enqueue 2, .yield, .yield, .yield] := by
  refine ⟨?proper, (removalsLinked_iff 16384 32768 _ ?proper).mpr ?_⟩
  · exact .cons rfl trivial (.cons rfl ⟨by decide, rfl⟩ (.cons rfl trivial (.cons rfl trivial
      (.cons rfl trivial trivial))))
  · exact .cons rfl trivial (.cons rfl trivial (.cons rfl (.inl (by decide))
      (.cons rfl (.inl (by decide)) (.cons rfl (.inl (by decide)) trivial))))

/-- Right after `sched_init`, the third `sched_yield` removes the idle task, which the
first has unlinked, and `sched_block` and `sched_exit` remove the boot task, which has
never been linked. -/
theorem unlinked_task_removed :
    Steps schedStep SchedOp.Proper (schedInit 16384 32768) [.yield, .yield, .yield] ∧
      ¬ Steps schedStep FindsLinked (schedInit 16384 32768) [.yield, .yield, .yield] ∧
      ¬ FindsLinked (schedInit 16384 32768) (.block 0 5) ∧
      ¬ FindsLinked (schedInit 16384 32768) .exit := by
  refine ⟨.cons rfl trivial (.cons rfl trivial (.cons rfl trivial trivial)), fun h => ?_,
    fun h => (h _ List.mem_cons_self).1 rfl, fun h => (h _ List.mem_cons_self).1 rfl⟩
  obtain ⟨-, h⟩ := h _ rfl
  obtain ⟨-, h⟩ := h _ rfl
  obtain ⟨h, -⟩ := h _ rfl
  exact (h _ List.mem_cons_self).1 rfl

end DevOs
