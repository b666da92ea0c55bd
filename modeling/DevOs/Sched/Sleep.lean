import DevOs.Lib.Run
import DevOs.Sched.Invariant

/-!
The sleep list of `kernel/sched/sched.c` under `sched_block`, `sched_unblock`
and `sched_check_sleepers`.
-/

namespace DevOs

open Machine

inductive SleepOp where
  | block (t : TaskId) (wakeTick : Nat)
  | unblock (t : TaskId)
  | check (tick : Nat)
  deriving DecidableEq, Repr

def sleepStep (s : Sched) : SleepOp → Option Sched
  | .block t wakeTick => schedBlock s t wakeTick
  | .unblock t => some (schedUnblock s t)
  | .check tick => some (schedCheckSleepers s tick)

def SleepListOk (s : Sched) : Prop :=
  ∀ t, s.sleepList.count t = if s.stateOf t = .blocked then 1 else 0

def WakesDue (s : Sched) : Prop :=
  ∀ t tick, s.stateOf t = .blocked → (s.tasks t).wakeTick ≤ tick →
    (schedCheckSleepers s tick).stateOf t = .ready

/-- The state in which `sched_block` looks for a task to switch to. -/
def blockedState (s : Sched) (t : TaskId) (wakeTick : Nat) : Sched :=
  { sleepListAdd (runQueueRemove (markBlocked s t wakeTick) t) t with inSched := true }

def SleepOp.KeepsList (s : Sched) : SleepOp → Prop
  | .block t wakeTick =>
    (s.stateOf t = .blocked ↔ sleepListMax ≤ s.sleepList.length) ∧
    (t = s.currentTask → ∀ next, schedPickNext (blockedState s t wakeTick) = some next →
      next ≠ t → s.stateOf next ≠ .blocked)
  | .unblock t => s.stateOf t ≠ .blocked
  | .check _ => True

variable {s s' : Sched} {t : TaskId}

theorem SleepListOk.mem_iff (h : SleepListOk s) : t ∈ s.sleepList ↔ s.stateOf t = .blocked := by
  have ht := h t
  rw [← List.count_pos_iff, ht]
  split <;> simp [*]

theorem SleepListOk.of_same (h : SleepListOk s) (hst : ∀ x, s'.stateOf x = s.stateOf x)
    (hsl : s'.sleepList = s.sleepList) : SleepListOk s' := by
  intro x
  rw [hsl, hst, h x]

theorem SleepListOk.wakes {tick : Nat} {w : List TaskId} (h : SleepListOk s)
    (hw : Wakes tick s s' w) : SleepListOk s' := by
  intro x
  have hc := hw.entries.count_eq x
  rw [List.count_append, h x, hw.nodup.count] at hc
  rw [hw.states]
  by_cases hx : x ∈ w
  · simpa [hx, ((hw.due x).mp hx).2.1] using hc
  · simpa [hx] using hc

theorem wakesDue_of_sleepListOk (h : SleepListOk s) : WakesDue s := by
  intro t tick hb ht
  obtain ⟨w, hw⟩ := wakes_schedCheckSleepers s tick
  have hmem : t ∈ w := (hw.due t).mpr ⟨h.mem_iff.mpr hb, hb, ht⟩
  rw [hw.states, if_pos hmem]

@[simp] theorem stateOf_blockedState (s : Sched) (t x : TaskId) (wakeTick : Nat) :
    (blockedState s t wakeTick).stateOf x = if x = t then .blocked else s.stateOf x := by
  have hadd : ∀ u, (blockedState s t wakeTick).stateOf u =
      (runQueueRemove (markBlocked s t wakeTick) t).stateOf u := by
    intro u
    unfold blockedState sleepListAdd
    split <;> rfl
  rw [hadd, stateOf_runQueueRemove]
  simp only [markBlocked, Sched.modify, Sched.stateOf]
  split <;> rfl

theorem sleepList_blockedState (s : Sched) (t : TaskId) (wakeTick : Nat) :
    (blockedState s t wakeTick).sleepList =
      if s.sleepList.length < sleepListMax then s.sleepList ++ [t] else s.sleepList := by
  have hsl : (runQueueRemove (markBlocked s t wakeTick) t).sleepList = s.sleepList := by
    rw [sleepList_runQueueRemove]
    rfl
  unfold blockedState sleepListAdd
  rw [hsl]
  split
  · rfl
  · exact hsl

theorem currentTask_blockedState (s : Sched) (t : TaskId) (wakeTick : Nat) :
    (blockedState s t wakeTick).currentTask = s.currentTask := by
  have hrest := (sameRest_runQueueRemove (markBlocked s t wakeTick) t).currentTask
  unfold blockedState sleepListAdd
  split <;> exact hrest

theorem sleepListOk_blockedState_iff (h : SleepListOk s) (wakeTick : Nat) :
    SleepListOk (blockedState s t wakeTick) ↔
      (s.stateOf t = .blocked ↔ sleepListMax ≤ s.sleepList.length) := by
  have hcount : ∀ x, (blockedState s t wakeTick).sleepList.count x =
      (if s.stateOf x = .blocked then 1 else 0) +
        if x = t ∧ s.sleepList.length < sleepListMax then 1 else 0 := by
    intro x
    rw [sleepList_blockedState, ← h x]
    by_cases hx : x = t
    · split <;> simp [*]
    · have hx' : ¬ t = x := fun hc => hx hc.symm
      split <;> simp [hx, hx']
  constructor
  · intro hok
    have ht := hok t
    rw [hcount, stateOf_blockedState] at ht
    grind
  · intro hroom x
    rw [hcount, stateOf_blockedState]
    grind

theorem schedDoSwitch_blocked {next : TaskId} (hb : s.stateOf s.currentTask = .blocked)
    (hne : next ≠ s.currentTask) : (schedDoSwitch s next).sleepList = s.sleepList ∧
      ∀ x, (schedDoSwitch s next).stateOf x = if x = next then .running else s.stateOf x := by
  have hput : putBack s s.currentTask = s := by simp [putBack, hb]
  rw [schedDoSwitch, if_neg hne, hput]
  refine ⟨sleepList_runQueueRemove s next, fun x => ?_⟩
  rw [stateOf_makeRunning, stateOf_runQueueRemove]

theorem schedBlock_eq (s : Sched) (t : TaskId) (wakeTick : Nat) :
    schedBlock s t wakeTick = if t = s.currentTask then
        (schedPickNext (blockedState s t wakeTick)).map (schedDoSwitch (blockedState s t wakeTick))
      else some (sleepListAdd (runQueueRemove (markBlocked s t wakeTick) t) t) := by
  rw [← currentTask_blockedState s t wakeTick]
  rfl

theorem sleepListOk_schedBlock_iff {wakeTick : Nat} (h : SleepListOk s)
    (hs : schedBlock s t wakeTick = some s') :
    SleepListOk s' ↔ (SleepOp.block t wakeTick).KeepsList s := by
  have hroom := sleepListOk_blockedState_iff (t := t) h wakeTick
  have hcur := currentTask_blockedState s t wakeTick
  rw [schedBlock_eq] at hs
  simp only [SleepOp.KeepsList]
  by_cases ht : t = s.currentTask
  · rw [if_pos ht] at hs
    obtain ⟨next, hnext, rfl⟩ := Option.map_eq_some_iff.mp hs
    have hpick : (t = s.currentTask → ∀ nx, schedPickNext (blockedState s t wakeTick) = some nx →
        nx ≠ t → s.stateOf nx ≠ .blocked) ↔ (next ≠ t → s.stateOf next ≠ .blocked) := by
      simp [← ht, hnext]
    rw [hpick, ← hroom]
    by_cases hne : next = t
    · -- the idle task blocks itself, and goes on
      have hself : schedDoSwitch (blockedState s t wakeTick) next = blockedState s t wakeTick := by
        rw [schedDoSwitch, if_pos (by rw [hne, hcur, ht])]
      rw [hself]
      simp [hne]
    · have hb : (blockedState s t wakeTick).stateOf (blockedState s t wakeTick).currentTask =
          .blocked := by
        rw [hcur, ← ht]
        simp
      have hnc : next ≠ (blockedState s t wakeTick).currentTask := by
        rw [hcur, ← ht]
        exact hne
      obtain ⟨hsl, hst⟩ := schedDoSwitch_blocked hb hnc
      have hnx : (blockedState s t wakeTick).sleepList.count next = s.sleepList.count next := by
        have hne' : ¬ t = next := fun hc => hne hc.symm
        rw [sleepList_blockedState]
        split <;> simp [hne']
      have hn := h next
      constructor
      · intro hok
        have hrun := hok next
        rw [hsl, hst, hnx, hn] at hrun
        have hnb : s.stateOf next ≠ .blocked := by
          intro hc
          simp [hc] at hrun
        refine ⟨fun x => ?_, fun _ => hnb⟩
        have hx := hok x
        rw [hsl, hst] at hx
        rw [hx]
        by_cases hxn : x = next
        · simp [hxn, hne, hnb]
        · simp [hxn]
      · rintro ⟨hok, hnb⟩ x
        have hx := hok x
        rw [hsl, hst, hx]
        by_cases hxn : x = next
        · simp [hxn, hne, hnb hne]
        · simp [hxn]
  · rw [if_neg ht] at hs
    cases hs
    simp only [ht, false_implies, and_true]
    rw [← hroom]
    exact ⟨fun hok => hok.of_same (fun _ => rfl) rfl, fun hok => hok.of_same (fun _ => rfl) rfl⟩

theorem sleepListOk_sleepStep_iff {op : SleepOp} (h : SleepListOk s)
    (hs : sleepStep s op = some s') : SleepListOk s' ↔ op.KeepsList s := by
  cases op with
  | block t wakeTick => exact sleepListOk_schedBlock_iff h hs
  | unblock t =>
    cases hs
    unfold SleepOp.KeepsList
    constructor
    · intro hok hb
      have ht := hok t
      rw [sleepList_schedUnblock, stateOf_schedUnblock, h t] at ht
      simp [hb] at ht
    · intro hb
      refine h.of_same (fun x => ?_) (sleepList_schedUnblock s t)
      simp [stateOf_schedUnblock, hb]
  | check tick =>
    cases hs
    obtain ⟨w, hw⟩ := wakes_schedCheckSleepers s tick
    exact iff_of_true (h.wakes hw) trivial

/-- **The sleep list holds the blocked tasks, and checks wake those whose time
has come,** before and after every call of a run, exactly if every call of the
run is one that `KeepsList` allows. -/
theorem sleepersKept_iff (h : SleepListOk s) (ops : List SleepOp) :
    Always sleepStep (fun s => SleepListOk s ∧ WakesDue s) s ops ↔
      Steps sleepStep (fun s op => op.KeepsList s) s ops := by
  refine always_iff_steps (fun s op s' hok _ hs => ?_) ops h ⟨h, wakesDue_of_sleepListOk h⟩
  have hiff := sleepListOk_sleepStep_iff hok hs
  exact ⟨⟨fun hp => hiff.mp hp.1, fun hk => ⟨hiff.mpr hk, wakesDue_of_sleepListOk (hiff.mpr hk)⟩⟩,
    fun hp => hp.1⟩

theorem sleepListOk_schedInit (bootStack idleStack : Nat) :
    SleepListOk (schedInit bootStack idleStack) := by
  intro t
  have hst : (schedInit bootStack idleStack).stateOf t ≠ .blocked := by
    rw [schedInit, stateOf_runQueueAdd]
    simp only [schedCreateTask, bootState, zeroTask, Sched.modify, Sched.stateOf]
    grind
  have hsl : (schedInit bootStack idleStack).sleepList = [] := by
    rw [schedInit, sleepList_runQueueAdd]
    rfl
  simp [hst, hsl]

theorem sleepersKept_until_five :
    Always sleepStep (fun s => SleepListOk s ∧ WakesDue s) (schedInit 100 200)
      [.block 0 5, .check 4, .check 5] := by
  refine (sleepersKept_iff (sleepListOk_schedInit 100 200) _).mpr ?_
  simp only [Steps, SleepOp.KeepsList, implies_true, and_true]
  intro s' _
  refine ⟨by decide, fun _ next hnext _ => ?_⟩
  have hone : schedPickNext (blockedState (schedInit 100 200) 0 5) = some 1 := by decide
  rw [hone] at hnext
  cases hnext
  decide

theorem sleepList_stale_after_unblock :
    ∃ s, [SleepOp.block 0 (2 ^ 64 - 1), .unblock 0].foldlM sleepStep (schedInit 100 200) = some s ∧
      s.stateOf 0 = .ready ∧ s.sleepList = [0] ∧ ¬ SleepListOk s := by
  refine ⟨_, rfl, by decide, by decide, fun hok => ?_⟩
  exact absurd (hok 0) (by decide)

end DevOs
