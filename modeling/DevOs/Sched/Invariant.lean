import DevOs.Sched.Wake
import Mathlib.Logic.Relation

/-!
# The run queue over whole runs

Each operation keeps `QueueInv` (`queueInv_schedStep`), but for the exit of a task beside
others that are queued (`not_runQueueOk_schedExit`); so the run queue is intact in every
state that is reached without one (`runQueueOk_of_reachable`).
-/

namespace DevOs

open Intrusive

/-- No runnable task is lost or queued twice: the run queue is a circular
doubly linked list without repetitions, its tasks are ready, every ready task
but the idle one is in it, and the running task is not. -/
def RunQueueOk (s : Sched) : Prop :=
  ∃ q, Ring s.nextOf s.prevOf q ∧ s.runQueueHead = q.head? ∧
    (∀ t ∈ q, s.stateOf t = .ready) ∧
    (∀ t, s.stateOf t = .ready → t ≠ s.idleTask → t ∈ q) ∧
    (s.stateOf s.currentTask = .running → s.currentTask ∉ q)

/-- The invariant behind `RunQueueOk`, with the list it is about. -/
structure QueueInv (s : Sched) (q : List TaskId) : Prop where
  queue : IsQueue s q
  unlinked : Unlinked s q
  ready : ∀ t ∈ q, s.stateOf t = .ready
  queued : ∀ t, s.stateOf t = .ready → t ≠ s.idleTask → t ∈ q
  known : ∀ t ∈ q, t < s.nextPid
  sleepers : ∀ t ∈ s.sleepList, t < s.nextPid
  current : s.currentTask < s.nextPid
  idle : s.idleTask < s.nextPid

namespace QueueInv

variable {s s' : Sched} {q : List TaskId} {t : TaskId}

theorem runQueueOk (h : QueueInv s q) : RunQueueOk s := by
  refine ⟨q, h.queue.ring, h.queue.head, h.ready, h.queued, ?_⟩
  intro hrun hmem
  rw [h.ready _ hmem] at hrun
  cases hrun

theorem not_mem (h : QueueInv s q) (ht : s.stateOf t ≠ .ready) : t ∉ q :=
  fun hmem => ht (h.ready t hmem)

theorem of_same (h : QueueInv s q) (hn : s'.nextOf = s.nextOf) (hp : s'.prevOf = s.prevOf)
    (hs : s'.stateOf = s.stateOf) (hh : s'.runQueueHead = s.runQueueHead)
    (hi : s'.idleTask = s.idleTask) (hc : s'.currentTask = s.currentTask)
    (hpid : s'.nextPid = s.nextPid) (hsl : ∀ t ∈ s'.sleepList, t ∈ s.sleepList) :
    QueueInv s' q where
  queue := ⟨by rw [hn, hp]; exact h.queue.ring, by rw [hh]; exact h.queue.head⟩
  unlinked := by
    intro t ht
    rw [hn, hp]
    exact h.unlinked t ht
  ready := by rw [hs]; exact h.ready
  queued := by rw [hs, hi]; exact h.queued
  known := by rw [hpid]; exact h.known
  sleepers := by
    intro t ht
    rw [hpid]
    exact h.sleepers t (hsl t ht)
  current := by rw [hc, hpid]; exact h.current
  idle := by rw [hi, hpid]; exact h.idle

end QueueInv

section

variable {s : Sched} {q : List TaskId} {t : TaskId} {next : TaskId}

/-- A task that is not ready yet is queued last. -/
theorem queueInv_runQueueAdd (h : QueueInv s q) (ht : s.stateOf t ≠ .ready) (hk : t < s.nextPid) :
    QueueInv (runQueueAdd s t) (q ++ [t]) := by
  have hrest := sameRest_runQueueAdd s t
  have htq := h.not_mem ht
  constructor
  · exact isQueue_runQueueAdd h.queue htq
  · exact unlinked_runQueueAdd h.queue h.unlinked
  · intro x hx
    rw [stateOf_runQueueAdd]
    split
    · rfl
    · next hxt =>
        refine h.ready x ?_
        simpa [hxt] using hx
  · intro x hx hxi
    rw [stateOf_runQueueAdd] at hx
    rw [List.mem_append, List.mem_singleton]
    by_cases hxt : x = t
    · exact .inr hxt
    · rw [if_neg hxt] at hx
      rw [hrest.idleTask] at hxi
      exact .inl (h.queued x hx hxi)
  · intro x hx
    rw [hrest.nextPid]
    rw [List.mem_append, List.mem_singleton] at hx
    rcases hx with hx | rfl
    · exact h.known x hx
    · exact hk
  · rw [sleepList_runQueueAdd, hrest.nextPid]; exact h.sleepers
  · rw [hrest.currentTask, hrest.nextPid]; exact h.current
  · rw [hrest.idleTask, hrest.nextPid]; exact h.idle

/-- The head of an intact queue is ready, so it is picked; else the idle task. -/
theorem schedPickNext_eq (h : QueueInv s q) : schedPickNext s = some (q.head?.getD s.idleTask) := by
  unfold schedPickNext
  rw [h.queue.head]
  rcases q with _ | ⟨head, q⟩
  · rfl
  · have hr : s.stateOf head = .ready := h.ready head List.mem_cons_self
    obtain ⟨n, hn⟩ := Nat.exists_eq_succ_of_ne_zero (Nat.ne_zero_of_lt h.current)
    simp [pickLoop, hn, hr]

/-- The queue once the running task is put back. -/
def putBackList (s : Sched) (q : List TaskId) : List TaskId :=
  if s.stateOf s.currentTask = .running ∧ s.currentTask ≠ s.idleTask then q ++ [s.currentTask]
  else q

theorem queueInv_putBack (h : QueueInv s q) :
    QueueInv (putBack s s.currentTask) (putBackList s q) := by
  unfold putBack putBackList
  by_cases hrun : s.stateOf s.currentTask = .running
  · rw [if_pos hrun]
    have hidle : (s.setState s.currentTask .ready).idleTask = s.idleTask := rfl
    by_cases hci : s.currentTask = s.idleTask
    · -- the idle task becomes ready outside the queue
      rw [if_neg (by rw [hidle]; exact not_not.mpr hci), if_neg (fun hc => hc.2 hci)]
      refine ⟨⟨?_, h.queue.head⟩, ?_, ?_, ?_, h.known, h.sleepers, h.current, h.idle⟩
      · exact h.queue.ring.frame (fun x _ => by simp) (fun x _ => by simp)
      · intro x hx
        simpa using h.unlinked x hx
      · intro x hx
        rw [Sched.stateOf_setState]
        split
        · rfl
        · exact h.ready x hx
      · intro x hx hxi
        rw [Sched.stateOf_setState, if_neg (by rw [hci]; exact hxi)] at hx
        exact h.queued x hx hxi
    · rw [if_pos (by rw [hidle]; exact hci), if_pos ⟨hrun, hci⟩]
      -- `runQueueAdd` writes the state `ready` a second time
      have hadd := queueInv_runQueueAdd (t := s.currentTask) h (by rw [hrun]; decide) h.current
      have hcq : s.currentTask ∉ q := h.not_mem (by rw [hrun]; decide)
      have hq' : IsQueue (s.setState s.currentTask .ready) q :=
        ⟨h.queue.ring.frame (fun x _ => by simp) (fun x _ => by simp), h.queue.head⟩
      have hu' : Unlinked (s.setState s.currentTask .ready) q := by
        intro x hx
        simpa using h.unlinked x hx
      have hst : ∀ x, (runQueueAdd (s.setState s.currentTask .ready) s.currentTask).stateOf x =
          (runQueueAdd s s.currentTask).stateOf x := by
        intro x
        rw [stateOf_runQueueAdd, stateOf_runQueueAdd, Sched.stateOf_setState]
        split <;> rfl
      have hrest := sameRest_runQueueAdd (s.setState s.currentTask .ready) s.currentTask
      have hrest' := sameRest_runQueueAdd s s.currentTask
      refine ⟨isQueue_runQueueAdd hq' hcq, unlinked_runQueueAdd hq' hu', ?_, ?_, ?_, ?_, ?_, ?_⟩
      · intro x hx
        rw [hst]
        exact hadd.ready x hx
      · intro x hx hxi
        rw [hst] at hx
        rw [hrest.idleTask] at hxi
        exact hadd.queued x hx (by rw [hrest'.idleTask]; exact hxi)
      · rw [hrest.nextPid]
        have := hadd.known
        rw [hrest'.nextPid] at this
        exact this
      · rw [sleepList_runQueueAdd, hrest.nextPid]; exact h.sleepers
      · rw [hrest.currentTask, hrest.nextPid]; exact h.current
      · rw [hrest.idleTask, hrest.nextPid]; exact h.idle
  · rw [if_neg hrun, if_neg (fun hc => hrun hc.1)]
    exact h

theorem stateOf_putBack (s : Sched) (prev x : TaskId) : (putBack s prev).stateOf x =
      if x = prev ∧ s.stateOf prev = .running then .ready else s.stateOf x := by
  unfold putBack
  by_cases hrun : s.stateOf prev = .running
  · rw [if_pos hrun]
    dsimp only
    split <;> simp only [stateOf_runQueueAdd, Sched.stateOf_setState] <;> by_cases hx : x = prev <;>
      simp [hx, hrun]
  · simp [hrun]

theorem sameRest_putBack (s : Sched) (prev : TaskId) : SameRest s (putBack s prev) := by
  unfold putBack
  split
  · dsimp only
    split
    · exact (SameRest.setState s prev .ready).trans (sameRest_runQueueAdd _ prev)
    · exact .setState s prev .ready
  · exact .refl s

@[simp] theorem nextOf_makeRunning (s : Sched) (n x : TaskId) :
    (makeRunning s n).nextOf x = s.nextOf x := by
  simp only [makeRunning, dispatch, Sched.modify, Sched.nextOf]
  split <;> rfl

@[simp] theorem prevOf_makeRunning (s : Sched) (n x : TaskId) :
    (makeRunning s n).prevOf x = s.prevOf x := by
  simp only [makeRunning, dispatch, Sched.modify, Sched.prevOf]
  split <;> rfl

@[simp] theorem stateOf_makeRunning (s : Sched) (n x : TaskId) :
    (makeRunning s n).stateOf x = if x = n then .running else s.stateOf x := by
  simp only [makeRunning, dispatch, Sched.modify, Sched.stateOf]
  split <;> rfl

/-- The next task leaves the queue as it starts to run. -/
theorem queueInv_makeRunning (h : QueueInv s q) (hk : next < s.nextPid) :
    QueueInv (makeRunning (runQueueRemove s next) next) (q.erase next) := by
  have hrest := sameRest_runQueueRemove s next
  obtain ⟨hq, hu⟩ := isQueue_erase h.queue h.unlinked next
  constructor
  · exact ⟨hq.ring.frame (fun x _ => by simp) (fun x _ => by simp), hq.head⟩
  · intro x hx
    simpa using hu x hx
  · intro x hx
    have hxn : x ≠ next := by
      rintro rfl
      exact (List.Nodup.not_mem_erase h.queue.ring.nodup) hx
    rw [stateOf_makeRunning, if_neg hxn, stateOf_runQueueRemove]
    exact h.ready x (List.mem_of_mem_erase hx)
  · intro x hx hxi
    have hxn : x ≠ next := by
      rintro rfl
      simp at hx
    rw [stateOf_makeRunning, if_neg hxn, stateOf_runQueueRemove] at hx
    exact (List.mem_erase_of_ne hxn).mpr (h.queued x hx (by rw [← hrest.idleTask]; exact hxi))
  · intro x hx
    change x < (runQueueRemove s next).nextPid
    rw [hrest.nextPid]
    exact h.known x (List.mem_of_mem_erase hx)
  · change ∀ t ∈ (runQueueRemove s next).sleepList, t < (runQueueRemove s next).nextPid
    rw [sleepList_runQueueRemove, hrest.nextPid]
    exact h.sleepers
  · change next < (runQueueRemove s next).nextPid
    rw [hrest.nextPid]
    exact hk
  · change (runQueueRemove s next).idleTask < (runQueueRemove s next).nextPid
    rw [hrest.idleTask, hrest.nextPid]
    exact h.idle

theorem queueInv_schedDoSwitch (h : QueueInv s q) (hk : next < s.nextPid)
    (hne : next ≠ s.currentTask) :
    QueueInv (schedDoSwitch s next) ((putBackList s q).erase next) := by
  rw [schedDoSwitch, if_neg hne]
  refine queueInv_makeRunning (queueInv_putBack h) ?_
  rw [(sameRest_putBack s s.currentTask).nextPid]
  exact hk

/-- The queue after `reschedule`. -/
def rescheduleList (s : Sched) (q : List TaskId) : List TaskId :=
  if q.head?.getD s.idleTask = s.currentTask then q
  else (putBackList s q).erase (q.head?.getD s.idleTask)

theorem QueueInv.guarded (h : QueueInv s q) : QueueInv { s with inSched := true } q :=
  h.of_same rfl rfl rfl rfl rfl rfl rfl (fun _ ht => ht)

theorem reschedule_eq (h : QueueInv s q) :
    reschedule s = some (schedDoSwitch { s with inSched := true } (q.head?.getD s.idleTask)) := by
  rw [reschedule, schedPickNext_eq h.guarded]
  rfl

theorem queueInv_reschedule (h : QueueInv s q) :
    ∃ s', reschedule s = some s' ∧ QueueInv s' (rescheduleList s q) := by
  have h' := h.guarded
  refine ⟨_, reschedule_eq h, ?_⟩
  have hk : q.head?.getD s.idleTask < s.nextPid := by
    rcases q with _ | ⟨head, q⟩
    · exact h.idle
    · exact h.known head List.mem_cons_self
  by_cases hne : q.head?.getD s.idleTask = s.currentTask
  · rw [rescheduleList, if_pos hne]
    simp only [schedDoSwitch, if_pos hne]
    exact h'
  · rw [rescheduleList, if_neg hne]
    exact queueInv_schedDoSwitch h' hk hne

end

/-- What waking tasks does: the queue grows at its end, each task keeps its
state or goes from blocked to ready, and nothing else but the sleep list
changes. -/
structure Wakeup (s s' : Sched) (q q' : List TaskId) : Prop where
  inv : QueueInv s' q'
  rest : SameRest s s'
  grows : q <+: q'
  states : ∀ t, s'.stateOf t = s.stateOf t ∨ s.stateOf t = .blocked ∧ s'.stateOf t = .ready

namespace Wakeup

variable {s : Sched} {q : List TaskId}

theorem refl (h : QueueInv s q) : Wakeup s s q q :=
  ⟨h, .refl s, List.prefix_rfl, fun _ => .inl rfl⟩

end Wakeup

section

variable {s : Sched} {q : List TaskId} {t : TaskId}

theorem wakeup_schedUnblock (h : QueueInv s q) (hk : t < s.nextPid) :
    ∃ q', Wakeup s (schedUnblock s t) q q' ∧ (s.stateOf t = .blocked → q' = q ++ [t]) := by
  unfold schedUnblock
  by_cases hb : s.stateOf t = .blocked
  · rw [if_pos hb]
    have hnr : s.stateOf t ≠ .ready := by rw [hb]; decide
    refine ⟨q ++ [t], ⟨queueInv_runQueueAdd h hnr hk, sameRest_runQueueAdd s t,
      List.prefix_append q [t], ?_⟩, fun _ => rfl⟩
    intro x
    rw [stateOf_runQueueAdd]
    split
    · next hxt => exact .inr ⟨hxt ▸ hb, rfl⟩
    · exact .inl rfl
  · rw [if_neg hb]
    exact ⟨q, .refl h, fun hc => absurd hc hb⟩

/-- The sleepers that are due join the queue in the order in which they are woken. -/
theorem wakeup_of_wakes {s' : Sched} {tick : Nat} {w : List TaskId} (h : QueueInv s q)
    (hw : Wakes tick s s' w) : Wakeup s s' q (q ++ w) := by
  have hblocked : ∀ t ∈ w, s.stateOf t = .blocked := fun t ht => ((hw.due t).mp ht).2.1
  have hout : ∀ t ∈ w, t ∉ q := fun t ht => h.not_mem (by rw [hblocked t ht]; decide)
  obtain ⟨hqueue, hunlinked⟩ := hw.queue q h.queue hout
  have hpid := hw.rest.nextPid
  refine ⟨⟨hqueue, hunlinked h.unlinked, fun t ht => ?_, fun t ht hi => ?_, fun t ht => ?_,
    fun t ht => ?_, ?_, ?_⟩, hw.rest, List.prefix_append q w, fun t => ?_⟩
  · rw [hw.states]
    split
    · rfl
    · next hnot => exact h.ready t ((List.mem_append.mp ht).resolve_right hnot)
  · rw [hw.states] at ht
    split at ht
    · next hmem => exact List.mem_append_right q hmem
    · exact List.mem_append_left w (h.queued t ht (by rwa [hw.rest.idleTask] at hi))
  · rw [hpid]
    obtain hmem | hmem := List.mem_append.mp ht
    · exact h.known t hmem
    · exact h.sleepers t ((hw.due t).mp hmem).1
  · rw [hpid]
    exact h.sleepers t (hw.entries.subset (List.mem_append_right w ht))
  · rw [hw.rest.currentTask, hpid]
    exact h.current
  · rw [hw.rest.idleTask, hpid]
    exact h.idle
  · rw [hw.states]
    split
    · next hmem => exact .inr ⟨hblocked t hmem, rfl⟩
    · exact .inl rfl

theorem wakeup_schedCheckSleepers (tick : Nat) (h : QueueInv s q) :
    ∃ q', Wakeup s (schedCheckSleepers s tick) q q' := by
  obtain ⟨w, hw⟩ := wakes_schedCheckSleepers s tick
  exact ⟨q ++ w, wakeup_of_wakes h hw⟩

end

variable {s : Sched} {q : List TaskId} {t : TaskId}

theorem queueInv_schedCreateTask (h : QueueInv s q) (kernelStack : Nat) :
    QueueInv (schedCreateTask s kernelStack) q := by
  have hfresh : s.nextPid ∉ q := fun hmem => Nat.lt_irrefl _ (h.known _ hmem)
  obtain ⟨hn, hp⟩ := h.unlinked _ hfresh
  have hnext : ∀ x, (schedCreateTask s kernelStack).nextOf x = s.nextOf x := by
    intro x
    simp only [schedCreateTask, Sched.modify, Sched.nextOf]
    split
    · next hx => subst hx; exact hn.symm
    · rfl
  have hprev : ∀ x, (schedCreateTask s kernelStack).prevOf x = s.prevOf x := by
    intro x
    simp only [schedCreateTask, Sched.modify, Sched.prevOf]
    split
    · next hx => subst hx; exact hp.symm
    · rfl
  have hstate : ∀ x, (schedCreateTask s kernelStack).stateOf x =
      if x = s.nextPid then .created else s.stateOf x := by
    intro x
    simp only [schedCreateTask, Sched.modify, Sched.stateOf]
    split <;> rfl
  constructor
  · exact ⟨h.queue.ring.frame (fun x _ => hnext x) (fun x _ => hprev x), h.queue.head⟩
  · intro x hx
    rw [hnext, hprev]
    exact h.unlinked x hx
  · intro x hx
    have hxn : x ≠ s.nextPid := by
      rintro rfl
      exact hfresh hx
    rw [hstate, if_neg hxn]
    exact h.ready x hx
  · intro x hx hxi
    rw [hstate] at hx
    split at hx
    · cases hx
    · exact h.queued x hx hxi
  · exact fun x hx => Nat.lt_succ_of_lt (h.known x hx)
  · exact fun x hx => Nat.lt_succ_of_lt (h.sleepers x hx)
  · exact Nat.lt_succ_of_lt h.current
  · exact Nat.lt_succ_of_lt h.idle

/-- A task that stops being ready leaves the queue. -/
theorem queueInv_retire {s1 : Sched} (st : TaskState) (h : QueueInv s q) (hst : st ≠ .ready)
    (hnext : ∀ x, s1.nextOf x = s.nextOf x) (hprev : ∀ x, s1.prevOf x = s.prevOf x)
    (hstate : ∀ x, s1.stateOf x = if x = t then st else s.stateOf x)
    (hhead : s1.runQueueHead = s.runQueueHead) (hidle : s1.idleTask = s.idleTask)
    (hcur : s1.currentTask = s.currentTask) (hpid : s1.nextPid = s.nextPid)
    (hsl : s1.sleepList = s.sleepList) : QueueInv (runQueueRemove s1 t) (q.erase t) := by
  have hq1 : IsQueue s1 q :=
    ⟨h.queue.ring.frame (fun x _ => hnext x) (fun x _ => hprev x), hhead.trans h.queue.head⟩
  have hu1 : Unlinked s1 q := by
    intro x hx
    rw [hnext, hprev]
    exact h.unlinked x hx
  obtain ⟨hq, hu⟩ := isQueue_erase hq1 hu1 t
  have hrest := sameRest_runQueueRemove s1 t
  constructor
  · exact hq
  · exact hu
  · intro x hx
    have hxt : x ≠ t := by
      rintro rfl
      exact (List.Nodup.not_mem_erase h.queue.ring.nodup) hx
    rw [stateOf_runQueueRemove, hstate, if_neg hxt]
    exact h.ready x (List.mem_of_mem_erase hx)
  · intro x hx hxi
    rw [hrest.idleTask, hidle] at hxi
    rw [stateOf_runQueueRemove, hstate] at hx
    split at hx
    · exact absurd hx hst
    · next hxt => exact (List.mem_erase_of_ne hxt).mpr (h.queued x hx hxi)
  · rw [hrest.nextPid, hpid]; exact fun x hx => h.known x (List.mem_of_mem_erase hx)
  · rw [sleepList_runQueueRemove, hsl, hrest.nextPid, hpid]; exact h.sleepers
  · rw [hrest.currentTask, hcur, hrest.nextPid, hpid]; exact h.current
  · rw [hrest.idleTask, hidle, hrest.nextPid, hpid]; exact h.idle

section

variable (h : QueueInv s q)
include h

theorem queueInv_sleepListAdd (hk : t < s.nextPid) : QueueInv (sleepListAdd s t) q := by
  unfold sleepListAdd
  split
  · refine ⟨⟨h.queue.ring, h.queue.head⟩, h.unlinked, h.ready, h.queued, h.known, ?_, h.current,
      h.idle⟩
    intro x hx
    rcases List.mem_append.mp hx with hx | hx
    · exact h.sleepers x hx
    · rw [List.mem_singleton.mp hx]
      exact hk
  · exact h

theorem queueInv_markBlocked (wakeTick : Nat) :
    QueueInv (runQueueRemove (markBlocked s t wakeTick) t) (q.erase t) := by
  refine queueInv_retire .blocked h (by decide) ?_ ?_ ?_ rfl rfl rfl rfl rfl
  · intro x
    simp only [markBlocked, Sched.modify, Sched.nextOf]
    split <;> rfl
  · intro x
    simp only [markBlocked, Sched.modify, Sched.prevOf]
    split <;> rfl
  · intro x
    simp only [markBlocked, Sched.modify, Sched.stateOf]
    split <;> rfl

theorem queueInv_schedBlock (hk : t < s.nextPid) (wakeTick : Nat) :
    ∃ s' q', schedBlock s t wakeTick = some s' ∧ QueueInv s' q' := by
  have hk' : t < (runQueueRemove (markBlocked s t wakeTick) t).nextPid := by
    rw [(sameRest_runQueueRemove _ t).nextPid]
    exact hk
  have h' := queueInv_sleepListAdd (queueInv_markBlocked h wakeTick) hk'
  unfold schedBlock
  dsimp only
  split
  · obtain ⟨s', hs', hinv⟩ := queueInv_reschedule h'
    exact ⟨s', _, hs', hinv⟩
  · exact ⟨_, _, rfl, h'⟩

theorem queueInv_charge (t : TaskId) : QueueInv (s.modify t chargeTick) q := by
  have hcharge : ∀ k : Task, (chargeTick k).next = k.next ∧ (chargeTick k).prev = k.prev ∧
      (chargeTick k).state = k.state := by
    intro k
    unfold chargeTick
    split <;> exact ⟨rfl, rfl, rfl⟩
  refine h.of_same (funext fun x => ?_) (funext fun x => ?_) (funext fun x => ?_) rfl rfl rfl rfl
    (fun _ hx => hx)
  · simp only [Sched.modify, Sched.nextOf]
    split
    · exact (hcharge _).1
    · rfl
  · simp only [Sched.modify, Sched.prevOf]
    split
    · exact (hcharge _).2.1
    · rfl
  · simp only [Sched.modify, Sched.stateOf]
    split
    · exact (hcharge _).2.2
    · rfl

/-- **A tick** wakes, charges and may switch. -/
theorem queueInv_schedTick : ∃ s' q', schedTick s = some s' ∧ QueueInv s' q' := by
  have h0 : QueueInv { s with tickCount := (s.tickCount + 1) % 2 ^ 64 } q :=
    h.of_same rfl rfl rfl rfl rfl rfl rfl (fun _ hx => hx)
  obtain ⟨q1, hw⟩ := wakeup_schedCheckSleepers ((s.tickCount + 1) % 2 ^ 64) h0
  unfold schedTick
  dsimp only
  split
  · exact ⟨_, q1, rfl, hw.inv⟩
  · have hch := queueInv_charge hw.inv
      (schedCheckSleepers { s with tickCount := (s.tickCount + 1) % 2 ^ 64 }
        ((s.tickCount + 1) % 2 ^ 64)).currentTask
    split
    · obtain ⟨s', hs', hinv⟩ := queueInv_reschedule hch
      exact ⟨s', _, hs', hinv⟩
    · exact ⟨_, q1, rfl, hch⟩

end

theorem schedTick_cases {s' : Sched} (hs : schedTick s = some s') :
    ∃ s1, schedCheckSleepers { s with tickCount := (s.tickCount + 1) % 2 ^ 64 }
        ((s.tickCount + 1) % 2 ^ 64) = s1 ∧
      (s' = s1 ∨ s' = s1.modify s1.currentTask chargeTick ∨
        reschedule (s1.modify s1.currentTask chargeTick) = some s') := by
  refine ⟨_, rfl, ?_⟩
  unfold schedTick at hs
  dsimp only at hs
  split at hs
  · cases hs
    exact .inl rfl
  · split at hs
    · exact .inr (.inr hs)
    · cases hs
      exact .inr (.inl rfl)

/-- A tick is the waking of `w`, then a charge and perhaps a switch. -/
theorem schedTick_wakes {s' : Sched} (hs : schedTick s = some s') :
    ∃ s1 w, Wakes ((s.tickCount + 1) % 2 ^ 64)
        { s with tickCount := (s.tickCount + 1) % 2 ^ 64 } s1 w ∧
      (s' = s1 ∨ s' = s1.modify s1.currentTask chargeTick ∨
        reschedule (s1.modify s1.currentTask chargeTick) = some s') := by
  obtain ⟨s1, rfl, hs⟩ := schedTick_cases hs
  obtain ⟨w, hw⟩ := wakes_schedCheckSleepers _ _
  exact ⟨_, w, hw, hs⟩

/-! ## Exit -/

/-- No task is queued besides the running one. -/
def NoOtherQueued (s : Sched) : Prop :=
  s.runQueueHead = none ∨
    s.runQueueHead = some s.currentTask ∧ s.nextOf s.currentTask = some s.currentTask

theorem noOtherQueued_iff (h : IsQueue s q) : NoOtherQueued s ↔ q.erase s.currentTask = [] := by
  unfold NoOtherQueued
  rw [h.head]
  rcases q with _ | ⟨head, q⟩
  · simp
  · by_cases hc : head = s.currentTask
    · subst hc
      rw [h.ring.next_self_iff List.mem_cons_self]
      simp
    · simp [hc, List.erase_cons_tail]

theorem queueInv_retireCurrent (h : QueueInv s q) :
    QueueInv (retireCurrent s) (q.erase s.currentTask) :=
  queueInv_retire .zombie h (by decide) (by simp) (by simp) (by simp) rfl rfl rfl rfl rfl

theorem schedExit_eq (h : QueueInv (retireCurrent s) q) : schedExit s = some (dispatch
      ((retireCurrent s).setState (q.head?.getD (retireCurrent s).idleTask) .running)
      (q.head?.getD (retireCurrent s).idleTask)) := by
  rw [schedExit, schedPickNext_eq h]
  rfl

/-- **An exit with no other task queued** empties the queue. -/
theorem queueInv_schedExit (h : QueueInv s q) (hn : NoOtherQueued s) :
    ∃ s', schedExit s = some s' ∧ QueueInv s' [] := by
  have h1 := queueInv_retireCurrent h
  rw [(noOtherQueued_iff h.queue).mp hn] at h1
  refine ⟨_, schedExit_eq h1, ⟨.nil, h1.queue.head⟩, ?_, by simp, ?_, by simp, h1.sleepers,
    h1.idle, h1.idle⟩
  · intro x hx
    have hx' := h1.unlinked x hx
    rw [← Sched.nextOf_setState _ (retireCurrent s).idleTask x .running,
      ← Sched.prevOf_setState _ (retireCurrent s).idleTask x .running] at hx'
    exact hx'
  · intro x hx hxi
    change ((retireCurrent s).setState (retireCurrent s).idleTask .running).stateOf x = _ at hx
    rw [Sched.stateOf_setState] at hx
    split at hx
    · cases hx
    · exact h1.queued x hx hxi

/-- **Any other exit breaks the queue**: the next task runs but stays in it. -/
theorem not_runQueueOk_schedExit (h : QueueInv s q) (hn : ¬ NoOtherQueued s) :
    ∃ s', schedExit s = some s' ∧ ¬ RunQueueOk s' := by
  have h1 := queueInv_retireCurrent h
  rcases hq : q.erase s.currentTask with _ | ⟨next, r⟩
  · exact absurd ((noOtherQueued_iff h.queue).mpr hq) hn
  · rw [hq] at h1
    refine ⟨_, schedExit_eq h1, ?_⟩
    rintro ⟨q', -, hhead, hready, -⟩
    change (retireCurrent s).runQueueHead = _ at hhead
    rw [h1.queue.head] at hhead
    have hr := hready next (List.mem_of_mem_head? hhead.symm)
    change ((retireCurrent s).setState next .running).stateOf next = _ at hr
    simp at hr

/-! ## Whole runs -/

theorem queueInv_bootState (bootStack : Nat) : QueueInv (bootState bootStack) [] := by
  refine ⟨⟨.nil, rfl⟩, ?_, by simp, ?_, by simp, by simp [bootState], Nat.one_pos, Nat.one_pos⟩
  · intro x _
    simp only [bootState, Sched.nextOf, Sched.prevOf]
    split <;> exact ⟨rfl, rfl⟩
  · intro x hx
    simp only [bootState, Sched.stateOf] at hx
    split at hx <;> cases hx

theorem queueInv_schedInit (bootStack idleStack : Nat) :
    QueueInv (schedInit bootStack idleStack) [1] := by
  have h1 := queueInv_schedCreateTask (queueInv_bootState bootStack) idleStack
  have h2 : QueueInv { schedCreateTask (bootState bootStack) idleStack with idleTask := 1 } [] := by
    refine ⟨⟨h1.queue.ring, h1.queue.head⟩, h1.unlinked, by simp, ?_, by simp, h1.sleepers,
      h1.current, Nat.one_lt_two⟩
    intro x hx _
    refine h1.queued x hx ?_
    rintro rfl
    cases hx
  refine queueInv_runQueueAdd h2 ?_ Nat.one_lt_two
  intro hc
  cases hc

/-- The condition under which a call keeps the run queue intact: the running
task leaves only when no other task is queued. -/
def SchedOp.KeepsQueue (s : Sched) : SchedOp → Prop
  | .exit => NoOtherQueued s
  | _ => True

/-- **One step**, by cases on the call. -/
theorem queueInv_schedStep {s : Sched} {q : List TaskId} (h : QueueInv s q) {op : SchedOp}
    (ha : op.Allowed s) (hk : op.KeepsQueue s) :
    ∃ s' q', schedStep s op = some s' ∧ QueueInv s' q' := by
  cases op with
  | create kernelStack => exact ⟨_, q, rfl, queueInv_schedCreateTask h kernelStack⟩
  | enqueue t =>
    obtain ⟨hpid, hst⟩ := ha
    exact ⟨_, _, rfl, queueInv_runQueueAdd h (by rw [hst]; decide) hpid⟩
  | yield =>
    obtain ⟨s', hs', hinv⟩ := queueInv_reschedule h
    exact ⟨s', _, hs', hinv⟩
  | tick => exact queueInv_schedTick h
  | block t wakeTick => exact queueInv_schedBlock h ha wakeTick
  | unblock t =>
    obtain ⟨q', hw, _⟩ := wakeup_schedUnblock h ha
    exact ⟨_, q', rfl, hw.inv⟩
  | exit =>
    obtain ⟨s', hs', hinv⟩ := queueInv_schedExit h hk
    exact ⟨s', [], hs', hinv⟩

/-- The states of the runs from `schedInit` in which every call keeps the queue. -/
def SchedReachable (bootStack idleStack : Nat) : Sched → Prop :=
  Relation.ReflTransGen
    (fun s s' => ∃ op : SchedOp, op.Allowed s ∧ op.KeepsQueue s ∧ schedStep s op = some s')
    (schedInit bootStack idleStack)

theorem queueInv_of_reachable {bootStack idleStack : Nat} {s : Sched}
    (h : SchedReachable bootStack idleStack s) : ∃ q, QueueInv s q := by
  induction h with
  | refl => exact ⟨[1], queueInv_schedInit bootStack idleStack⟩
  | tail _ hstep ih =>
    obtain ⟨q, hq⟩ := ih
    obtain ⟨op, ha, hk, hs⟩ := hstep
    obtain ⟨s', q', hs', hinv⟩ := queueInv_schedStep hq ha hk
    rw [hs] at hs'
    cases hs'
    exact ⟨q', hinv⟩

/-- **The run queue along every run** from `schedInit` in which tasks exit
only when no other task is queued: it is intact in every state, and each
further call completes and leaves it intact exactly under that condition. -/
theorem runQueueOk_of_reachable {bootStack idleStack : Nat} {s : Sched}
    (h : SchedReachable bootStack idleStack s) :
    RunQueueOk s ∧ ∀ op : SchedOp, op.Allowed s →
      ∃ s', schedStep s op = some s' ∧ (RunQueueOk s' ↔ op.KeepsQueue s) := by
  obtain ⟨q, hq⟩ := queueInv_of_reachable h
  refine ⟨hq.runQueueOk, ?_⟩
  intro op ha
  by_cases hk : op.KeepsQueue s
  · obtain ⟨s', q', hs', hinv⟩ := queueInv_schedStep hq ha hk
    exact ⟨s', hs', iff_of_true hinv.runQueueOk hk⟩
  · cases op with
    | exit =>
      obtain ⟨s', hs', hbad⟩ := not_runQueueOk_schedExit hq hk
      exact ⟨s', hs', iff_of_false hbad hk⟩
    | _ => exact absurd trivial hk

theorem runQueueOk_exit_alone :
    ∃ s1 s2 s3, schedStep (schedInit 16384 32768) .yield = some s1 ∧
      schedStep s1 .yield = some s2 ∧ schedStep s2 .exit = some s3 ∧ RunQueueOk s3 := by
  have r1 : SchedReachable 16384 32768 _ := .tail .refl ⟨.yield, trivial, trivial, rfl⟩
  have r2 : SchedReachable 16384 32768 _ := .tail r1 ⟨.yield, trivial, trivial, rfl⟩
  have r3 : SchedReachable 16384 32768 _ := .tail r2 ⟨.exit, trivial, .inl rfl, rfl⟩
  exact ⟨_, _, _, rfl, rfl, rfl, (runQueueOk_of_reachable r3).1⟩

/-- A task that was created, enqueued and dispatched exits while the boot task
is queued: the boot task runs, and is still queued. -/
theorem runQueue_broken_by_exit :
    ∃ s1 s2 s3 s4 s5, schedStep (schedInit 16384 32768) (.create 49152) = some s1 ∧
      SchedOp.Allowed s1 (.enqueue 2) ∧ schedStep s1 (.enqueue 2) = some s2 ∧
      schedStep s2 .yield = some s3 ∧ schedStep s3 .yield = some s4 ∧ s4.currentTask = 2 ∧
      schedStep s4 .exit = some s5 ∧ s5.currentTask = 0 ∧ s5.runQueueHead = some 0 ∧
      ¬ RunQueueOk s5 := by
  refine ⟨_, _, _, _, _, rfl, ⟨by decide, rfl⟩, rfl, rfl, rfl, rfl, rfl, rfl, rfl, ?_⟩
  rintro ⟨q, -, hhead, hready, -⟩
  have hmem : 0 ∈ q := List.mem_of_mem_head? hhead.symm
  have hr := hready 0 hmem
  cases hr

end DevOs
