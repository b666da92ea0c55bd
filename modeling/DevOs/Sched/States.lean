import DevOs.Sched.Sleep

/-!
Which task runs, whatever the run queue looks like.
-/

namespace DevOs

inductive SchedEvent where
  | call (op : SchedOp)
  | relink (t : TaskId) (next prev : Option TaskId)
  | rehead (head : Option TaskId)
  deriving DecidableEq, Repr

/-- Callers enqueue tasks that are CREATED, block the running task alone, and
`idle_task` neither blocks nor exits. Links lead to records that exist. -/
def SchedEvent.Allowed (s : Sched) : SchedEvent → Prop
  | .call (.enqueue t) => t < s.nextPid ∧ s.stateOf t = .created
  | .call (.block t _) => t = s.currentTask ∧ t ≠ s.idleTask
  | .call .exit => s.currentTask ≠ s.idleTask
  | .call _ => True
  | .relink _ next prev => (∀ u ∈ next, u < s.nextPid) ∧ ∀ u ∈ prev, u < s.nextPid
  | .rehead head => ∀ u ∈ head, u < s.nextPid

instance SchedEvent.decidableAllowed (s : Sched) : (e : SchedEvent) → Decidable (e.Allowed s)
  | .call (.enqueue _) => inferInstanceAs (Decidable (_ ∧ _))
  | .call (.block _ _) => inferInstanceAs (Decidable (_ ∧ _))
  | .call .exit => inferInstanceAs (Decidable (¬ _))
  | .call (.create _) | .call .yield | .call .tick | .call (.unblock _) => .isTrue trivial
  | .relink _ _ _ => inferInstanceAs (Decidable (_ ∧ _))
  | .rehead _ => inferInstanceAs (Decidable (∀ _, _ → _))

def schedEventStep (s : Sched) (e : SchedEvent) : Option Sched :=
  if e.Allowed s then
    match e with
    | .call op => schedStep s op
    | .relink t next prev => some (s.modify t fun k => { k with next := next, prev := prev })
    | .rehead head => some (s.setHead head)
  else none

/-- The states of the tasks. `fresh` are the records that do not exist yet. -/
structure StatesOk (s : Sched) : Prop where
  current : s.stateOf s.currentTask = .running
  only : ∀ t, s.stateOf t = .running → t = s.currentTask
  idle : s.stateOf s.idleTask = .ready ∨ s.stateOf s.idleTask = .running
  fresh : ∀ t, s.nextPid ≤ t → s.stateOf t = .created

structure KeepsDead (s s' : Sched) : Prop where
  idleTask : s'.idleTask = s.idleTask
  zombie : ∀ t, s.stateOf t = .zombie → s'.stateOf t = .zombie

variable {s s' s'' : Sched} {t : TaskId} {w : List TaskId} {wakeTick tick : Nat} {next : TaskId}

theorem KeepsDead.refl (s : Sched) : KeepsDead s s := ⟨rfl, fun _ h => h⟩

theorem KeepsDead.trans (h : KeepsDead s s') (h' : KeepsDead s' s'') : KeepsDead s s'' :=
  ⟨h'.idleTask.trans h.idleTask, fun t ht => h'.zombie t (h.zombie t ht)⟩

/-! ## The switch -/

theorem pickLoop_ready {start : TaskId} :
    ∀ (n : Nat) {u : TaskId}, pickLoop s start n u = some t → s.stateOf t = .ready ∨ t = s.idleTask
  | 0, _, h => by cases h
  | n + 1, u, h => by
    unfold pickLoop at h
    split at h
    · next hready =>
        cases h
        exact .inl hready
    · split at h
      · cases h
      · split at h
        · cases h
          exact .inr rfl
        · exact pickLoop_ready n h

theorem schedPickNext_ready (h : schedPickNext s = some t) :
    s.stateOf t = .ready ∨ t = s.idleTask := by
  unfold schedPickNext at h
  split at h
  · cases h
    exact .inr rfl
  · exact pickLoop_ready _ h

theorem stateOf_schedDoSwitch (hne : next ≠ s.currentTask) (x : TaskId) :
    (schedDoSwitch s next).stateOf x = if x = next then .running
      else if x = s.currentTask ∧ s.stateOf s.currentTask = .running then .ready
      else s.stateOf x := by
  rw [schedDoSwitch, if_neg hne, stateOf_makeRunning, stateOf_runQueueRemove, stateOf_putBack]

theorem currentTask_schedDoSwitch (hne : next ≠ s.currentTask) :
    (schedDoSwitch s next).currentTask = next := by
  rw [schedDoSwitch, if_neg hne]
  rfl

theorem sameOwner_schedDoSwitch (s : Sched) (next : TaskId) :
    (schedDoSwitch s next).idleTask = s.idleTask ∧ (schedDoSwitch s next).nextPid = s.nextPid := by
  have hrest := (sameRest_putBack s s.currentTask).trans (sameRest_runQueueRemove _ next)
  unfold schedDoSwitch
  split
  · exact ⟨rfl, rfl⟩
  · exact ⟨hrest.idleTask, hrest.nextPid⟩

/-- The states in which a task can be picked: the running task is still RUNNING,
or it has left the CPU and is not `idle_task`. -/
structure Pickable (s : Sched) : Prop where
  current : s.stateOf s.currentTask = .running ∨
    s.stateOf s.currentTask ≠ .ready ∧ s.currentTask ≠ s.idleTask
  only : ∀ t, s.stateOf t = .running → t = s.currentTask
  idle : s.stateOf s.idleTask = .ready ∨ s.stateOf s.idleTask = .running
  fresh : ∀ t, s.nextPid ≤ t → s.stateOf t = .created

theorem StatesOk.pickable (h : StatesOk s) : Pickable s := ⟨.inl h.current, h.only, h.idle, h.fresh⟩

theorem Pickable.picked (h : Pickable s) (hp : schedPickNext s = some t) :
    s.stateOf t = .ready ∨ t = s.currentTask ∧ s.stateOf t = .running := by
  obtain hready | rfl := schedPickNext_ready hp
  · exact .inl hready
  · exact h.idle.imp_right fun hrun => ⟨h.only _ hrun, hrun⟩

theorem Pickable.schedDoSwitch (h : Pickable s) (hp : schedPickNext s = some t) :
    StatesOk (schedDoSwitch s t) ∧ KeepsDead s (schedDoSwitch s t) := by
  obtain ⟨hidle, hpid⟩ := sameOwner_schedDoSwitch s t
  have hpick := h.picked hp
  by_cases hne : t = s.currentTask
  · -- only `idle_task` is picked while it runs
    have hsame : DevOs.schedDoSwitch s t = s := by rw [DevOs.schedDoSwitch, if_pos hne]
    have hrun : s.stateOf s.currentTask = .running := by
      obtain hready | ⟨-, hrun⟩ := hpick
      · obtain hrun | ⟨hno, -⟩ := h.current
        · exact hrun
        · exact absurd (hne ▸ hready) hno
      · exact hne ▸ hrun
    rw [hsame]
    exact ⟨⟨hrun, h.only, h.idle, h.fresh⟩, .refl s⟩
  · have hstate := stateOf_schedDoSwitch hne
    have hcur := currentTask_schedDoSwitch hne
    refine ⟨⟨?_, fun x hx => ?_, ?_, fun x hx => ?_⟩, ⟨hidle, fun x hx => ?_⟩⟩
    · rw [hcur, hstate, if_pos rfl]
    · have := h.only x
      grind
    · have := h.idle
      grind
    · have := h.fresh x (hpid ▸ hx)
      grind
    · grind

/-! ## The operations keep the states -/

section

variable (h : StatesOk s)
include h

theorem StatesOk.of_same (hst : ∀ x, s'.stateOf x = s.stateOf x)
    (hc : s'.currentTask = s.currentTask) (hi : s'.idleTask = s.idleTask)
    (hp : s'.nextPid = s.nextPid) : StatesOk s' ∧ KeepsDead s s' := by
  refine ⟨⟨?_, fun x hx => ?_, ?_, fun x hx => ?_⟩, hi, fun x hx => ?_⟩
  · rw [hc, hst]
    exact h.current
  · rw [hc]
    exact h.only x (hst x ▸ hx)
  · rw [hi, hst]
    exact h.idle
  · rw [hst]
    exact h.fresh x (hp ▸ hx)
  · rw [hst]
    exact hx

theorem StatesOk.readied (hrest : SameRest s s') (ht : t < s.nextPid)
    (hne : s.stateOf t ≠ .running) (hz : s.stateOf t ≠ .zombie)
    (hst : ∀ x, s'.stateOf x = if x = t then .ready else s.stateOf x) :
    StatesOk s' ∧ KeepsDead s s' := by
  refine ⟨⟨?_, fun x hx => ?_, ?_, fun x hx => ?_⟩, hrest.idleTask, fun x hx => ?_⟩
  · rw [hrest.currentTask, hst, if_neg]
    · exact h.current
    · rintro rfl
      exact hne h.current
  · rw [hrest.currentTask]
    have := h.only x
    grind
  · rw [hrest.idleTask, hst]
    have := h.idle
    grind
  · have hx' : s.nextPid ≤ x := hrest.nextPid ▸ hx
    rw [hst, if_neg]
    · exact h.fresh x hx'
    · rintro rfl
      exact absurd ht (Nat.not_lt.mpr hx')
  · rw [hst, if_neg]
    · exact hx
    · rintro rfl
      exact hz hx

theorem StatesOk.lt (ht : s.stateOf t ≠ .created) : t < s.nextPid := by
  by_contra hlt
  exact ht (h.fresh t (Nat.not_lt.mp hlt))

theorem StatesOk.schedUnblock (t : TaskId) :
    StatesOk (schedUnblock s t) ∧ KeepsDead s (schedUnblock s t) := by
  have hrest := sameRest_schedUnblock s t
  have hst := stateOf_schedUnblock s t
  by_cases hb : s.stateOf t = .blocked
  · refine h.readied (t := t) hrest (h.lt (by rw [hb]; decide)) (by rw [hb]; decide)
      (by rw [hb]; decide) fun x => ?_
    rw [hst]
    simp only [hb, and_true]
  · refine h.of_same (fun x => ?_) hrest.currentTask hrest.idleTask hrest.nextPid
    rw [hst, if_neg fun hc => hb hc.2]

theorem StatesOk.wakes (hw : Wakes tick s s' w) : StatesOk s' ∧ KeepsDead s s' := by
  have hblocked : ∀ x ∈ w, s.stateOf x = .blocked := fun x hx => ((hw.due x).mp hx).2.1
  have hkeep : ∀ x, s.stateOf x ≠ .blocked → s'.stateOf x = s.stateOf x := by
    intro x hx
    rw [hw.states, if_neg fun hmem => hx (hblocked x hmem)]
  refine ⟨⟨?_, fun x hx => ?_, ?_, fun x hx => ?_⟩, hw.rest.idleTask, fun x hx => ?_⟩
  · rw [hw.rest.currentTask, hkeep _ (by rw [h.current]; decide)]
    exact h.current
  · rw [hw.rest.currentTask]
    rw [hw.states] at hx
    have := h.only x
    grind
  · rw [hw.rest.idleTask, hw.states]
    have := h.idle
    grind
  · have hcreated := h.fresh x (hw.rest.nextPid ▸ hx)
    rw [hkeep x (by rw [hcreated]; decide)]
    exact hcreated
  · rw [hkeep x (by rw [hx]; decide)]
    exact hx

end

theorem Pickable.reschedule (h : Pickable s) (hs : reschedule s = some s') :
    StatesOk s' ∧ KeepsDead s s' := by
  obtain ⟨next, hp, rfl⟩ := Option.map_eq_some_iff.mp hs
  have h' : Pickable { s with inSched := true } := ⟨h.current, h.only, h.idle, h.fresh⟩
  obtain ⟨hok, hkeep⟩ := h'.schedDoSwitch hp
  exact ⟨hok, hkeep.idleTask, hkeep.zombie⟩

theorem stateOf_charge (s : Sched) (t x : TaskId) :
    (s.modify t chargeTick).stateOf x = s.stateOf x := by
  simp only [Sched.modify, Sched.stateOf, chargeTick]
  grind

theorem StatesOk.schedTick (h : StatesOk s) (hs : schedTick s = some s') :
    StatesOk s' ∧ KeepsDead s s' := by
  obtain ⟨h1, hk1⟩ := @StatesOk.of_same _ { s with tickCount := (s.tickCount + 1) % 2 ^ 64 } h
    (fun _ => rfl) rfl rfl rfl
  obtain ⟨s2, w, hw, hs⟩ := schedTick_wakes hs
  obtain ⟨h2, hk2⟩ := h1.wakes hw
  have hk := hk1.trans hk2
  obtain ⟨h3, hk3⟩ := @StatesOk.of_same _ (s2.modify s2.currentTask chargeTick) h2
    (stateOf_charge s2 _) rfl rfl rfl
  obtain rfl | rfl | hs := hs
  · exact ⟨h2, hk⟩
  · exact ⟨h3, hk.trans hk3⟩
  · obtain ⟨h4, hk4⟩ := h3.pickable.reschedule hs
    exact ⟨h4, (hk.trans hk3).trans hk4⟩

theorem sameRest_blockedState (s : Sched) (t : TaskId) (wakeTick : Nat) :
    (blockedState s t wakeTick).idleTask = s.idleTask ∧
      (blockedState s t wakeTick).nextPid = s.nextPid := by
  have hrest := sameRest_runQueueRemove (markBlocked s t wakeTick) t
  unfold blockedState sleepListAdd
  split <;> exact ⟨hrest.idleTask, hrest.nextPid⟩

theorem StatesOk.schedBlock (h : StatesOk s) (hi : s.currentTask ≠ s.idleTask)
    (hs : schedBlock s s.currentTask wakeTick = some s') : StatesOk s' ∧ KeepsDead s s' := by
  rw [schedBlock_eq, if_pos rfl] at hs
  obtain ⟨next, hp, rfl⟩ := Option.map_eq_some_iff.mp hs
  have hst := stateOf_blockedState s s.currentTask
  have hcur := currentTask_blockedState s s.currentTask wakeTick
  obtain ⟨hidle, hpid⟩ := sameRest_blockedState s s.currentTask wakeTick
  have hb : Pickable (blockedState s s.currentTask wakeTick) := by
    refine ⟨.inr ?_, fun x hx => ?_, ?_, fun x hx => ?_⟩
    · rw [hcur, hidle, hst, if_pos rfl]
      exact ⟨by decide, hi⟩
    · have := h.only x
      grind
    · rw [hidle, hst, if_neg (Ne.symm hi)]
      exact h.idle
    · rw [hst, if_neg]
      · exact h.fresh x (hpid ▸ hx)
      · rintro rfl
        exact absurd (h.lt (by rw [h.current]; decide)) (Nat.not_lt.mpr (hpid ▸ hx))
  obtain ⟨hok, hkeep⟩ := hb.schedDoSwitch hp
  refine ⟨hok, hkeep.idleTask.trans hidle, fun x hx => hkeep.zombie x ?_⟩
  rw [hst, if_neg]
  · exact hx
  · rintro rfl
    rw [h.current] at hx
    cases hx

theorem stateOf_retireCurrent (s : Sched) (x : TaskId) :
    (retireCurrent s).stateOf x = if x = s.currentTask then .zombie else s.stateOf x := by
  rw [retireCurrent, stateOf_runQueueRemove, Sched.stateOf_setState]

theorem StatesOk.stateOf_schedExit (h : StatesOk s) (hi : s.currentTask ≠ s.idleTask)
    (hs : DevOs.schedExit s = some s') : s.stateOf s'.currentTask = .ready ∧
      (∀ x, s'.stateOf x = if x = s'.currentTask then .running
        else if x = s.currentTask then .zombie else s.stateOf x) ∧
      s'.idleTask = s.idleTask ∧ s'.nextPid = s.nextPid := by
  obtain ⟨next, hp, rfl⟩ := Option.map_eq_some_iff.mp hs
  have hrest : SameRest s (retireCurrent s) :=
    (SameRest.setState s _ _).trans (sameRest_runQueueRemove _ _)
  have hst := stateOf_retireCurrent s
  refine ⟨?_, fun x => ?_, hrest.idleTask, hrest.nextPid⟩
  · show s.stateOf next = .ready
    obtain hr | rfl := schedPickNext_ready hp
    · grind
    · rw [hrest.idleTask]
      exact h.idle.resolve_right fun hrun => hi (h.only _ hrun).symm
  · rw [← hst x]
    exact Sched.stateOf_setState _ _ _ _

theorem StatesOk.schedExit (h : StatesOk s) (hi : s.currentTask ≠ s.idleTask)
    (hs : schedExit s = some s') : StatesOk s' ∧ KeepsDead s s' := by
  obtain ⟨hready, hnew, hidle, hpid⟩ := h.stateOf_schedExit hi hs
  refine ⟨⟨?_, fun x hx => ?_, ?_, fun x hx => ?_⟩, hidle, fun x hx => ?_⟩
  · rw [hnew, if_pos rfl]
  · have := h.only x
    grind
  · have := h.idle
    grind
  · have hfresh := h.fresh x (hpid ▸ hx)
    have hcur := h.current
    grind
  · grind

theorem StatesOk.schedCreateTask (h : StatesOk s) (kernelStack : Nat) :
    StatesOk (schedCreateTask s kernelStack) ∧ KeepsDead s (schedCreateTask s kernelStack) := by
  -- the new record is the first that did not exist, and is CREATED as before
  have hst : ∀ x, (DevOs.schedCreateTask s kernelStack).stateOf x = s.stateOf x := fun x => by
    have hnew := h.fresh s.nextPid (Nat.le_refl _)
    simp only [DevOs.schedCreateTask, Sched.modify, Sched.stateOf] at hnew ⊢
    split
    · next hx =>
        rw [hx, hnew]
        rfl
    · rfl
  refine ⟨⟨?_, fun x hx => ?_, ?_, fun x hx => ?_⟩, rfl, fun x hx => ?_⟩
  · rw [hst]
    exact h.current
  · exact h.only x (hst x ▸ hx)
  · rw [hst]
    exact h.idle
  · rw [hst]
    exact h.fresh x (Nat.le_of_succ_le hx)
  · rw [hst]
    exact hx

/-! ## Which calls stop a task -/

def NoneStops (s s' : Sched) : Prop :=
  ∀ x, s'.stateOf x = .blocked ∨ s'.stateOf x = .zombie → s.stateOf x = s'.stateOf x

theorem NoneStops.trans (h : NoneStops s s') (h' : NoneStops s' s'') : NoneStops s s'' := by
  intro x hx
  have hx' := h' x hx
  exact (h x (hx' ▸ hx)).trans hx'

theorem noneStops_of_eq (h : ∀ x, s'.stateOf x = s.stateOf x) : NoneStops s s' :=
  fun x _ => (h x).symm

theorem noneStops_setState {st : TaskState} (hst : st = .ready ∨ st = .running) (s : Sched)
    (t : TaskId) : NoneStops s (s.setState t st) := by
  intro x hx
  rw [Sched.stateOf_setState] at hx ⊢
  grind

theorem noneStops_runQueueAdd (s : Sched) (t : TaskId) : NoneStops s (runQueueAdd s t) := by
  intro x hx
  rw [stateOf_runQueueAdd] at hx ⊢
  grind

theorem noneStops_schedDoSwitch (s : Sched) (next : TaskId) :
    NoneStops s (schedDoSwitch s next) := by
  intro x hx
  by_cases hne : next = s.currentTask
  · rw [schedDoSwitch, if_pos hne]
  · rw [stateOf_schedDoSwitch hne] at hx ⊢
    grind

theorem noneStops_reschedule (h : reschedule s = some s') : NoneStops s s' := by
  obtain ⟨next, -, rfl⟩ := Option.map_eq_some_iff.mp h
  exact noneStops_schedDoSwitch { s with inSched := true } next

theorem noneStops_schedUnblock (s : Sched) (t : TaskId) : NoneStops s (schedUnblock s t) := by
  intro x hx
  rw [stateOf_schedUnblock] at hx ⊢
  grind

theorem noneStops_wakes (hw : Wakes tick s s' w) :
    NoneStops s s' := by
  intro x hx
  rw [hw.states] at hx ⊢
  grind

theorem noneStops_schedTick (h : schedTick s = some s') : NoneStops s s' := by
  obtain ⟨s1, w, hw, h⟩ := schedTick_wakes h
  have hsleep : NoneStops s s1 := fun x hx => noneStops_wakes hw x hx
  have hcharge : NoneStops s1 (s1.modify s1.currentTask chargeTick) :=
    noneStops_of_eq (stateOf_charge s1 _)
  obtain rfl | rfl | h := h
  · exact hsleep
  · exact hsleep.trans hcharge
  · exact (hsleep.trans hcharge).trans (noneStops_reschedule h)

theorem noneStops_schedCreateTask (s : Sched) (kernelStack : Nat) :
    NoneStops s (schedCreateTask s kernelStack) := by
  intro x hx
  simp only [schedCreateTask, Sched.modify, Sched.stateOf, zeroTask] at hx ⊢
  grind

def SchedOp.Stops : SchedOp → Prop
  | .block _ _ | .exit => True
  | _ => False

theorem noneStops_schedStep {op : SchedOp} (hop : ¬ op.Stops) (h : schedStep s op = some s') :
    NoneStops s s' := by
  cases op with
  | create kernelStack =>
    cases h
    exact noneStops_schedCreateTask s kernelStack
  | enqueue t =>
    cases h
    exact noneStops_runQueueAdd s t
  | yield => exact noneStops_reschedule h
  | tick => exact noneStops_schedTick h
  | unblock t =>
    cases h
    exact noneStops_schedUnblock s t
  | block t wakeTick => exact absurd trivial hop
  | exit => exact absurd trivial hop

theorem noneStops_schedExit (h : schedExit s = some s') : NoneStops (retireCurrent s) s' := by
  obtain ⟨next, -, rfl⟩ := Option.map_eq_some_iff.mp h
  exact noneStops_setState (.inr rfl) (retireCurrent s) next

theorem noneStops_schedBlock (h : schedBlock s t wakeTick = some s') :
    NoneStops (blockedState s t wakeTick) s' := by
  rw [schedBlock_eq] at h
  split at h
  · obtain ⟨next, -, rfl⟩ := Option.map_eq_some_iff.mp h
    exact noneStops_schedDoSwitch _ _
  · cases h
    exact noneStops_of_eq fun _ => rfl

theorem StatesOk.schedEventStep {e : SchedEvent} (h : StatesOk s)
    (hs : schedEventStep s e = some s') : StatesOk s' ∧ KeepsDead s s' := by
  unfold DevOs.schedEventStep at hs
  split at hs
  swap
  · cases hs
  next ha =>
  cases e with
  | relink t next prev =>
    cases hs
    refine h.of_same (fun x => ?_) rfl rfl rfl
    simp only [Sched.modify, Sched.stateOf]
    split <;> rfl
  | rehead head =>
    cases hs
    exact h.of_same (fun _ => rfl) rfl rfl rfl
  | call op =>
    cases op with
    | create kernelStack =>
      cases hs
      exact h.schedCreateTask kernelStack
    | enqueue t =>
      cases hs
      obtain ⟨ht, hcreated⟩ := ha
      exact h.readied (sameRest_runQueueAdd s t) ht (by rw [hcreated]; decide)
        (by rw [hcreated]; decide) (stateOf_runQueueAdd s t)
    | yield => exact h.pickable.reschedule hs
    | tick => exact h.schedTick hs
    | block t wakeTick =>
      obtain ⟨rfl, hi⟩ := ha
      exact h.schedBlock hi hs
    | unblock t =>
      cases hs
      exact h.schedUnblock t
    | exit => exact h.schedExit ha hs

/-! ## Whole runs -/

theorem stateOf_schedInit (bootStack idleStack : Nat) (x : TaskId) :
    (schedInit bootStack idleStack).stateOf x =
      if x = 0 then .running else if x = 1 then .ready else .created := by
  unfold schedInit
  rw [stateOf_runQueueAdd]
  simp only [schedCreateTask, bootState, Sched.modify, Sched.stateOf, zeroTask]
  grind

theorem statesOk_schedInit (bootStack idleStack : Nat) :
    StatesOk (schedInit bootStack idleStack) := by
  have hst := stateOf_schedInit bootStack idleStack
  have hrest := sameRest_runQueueAdd { schedCreateTask (bootState bootStack) idleStack with
    idleTask := 1 } 1
  refine ⟨?_, fun x hx => ?_, ?_, fun x hx => ?_⟩
  · rw [hst, if_pos]
    exact hrest.currentTask
  · have hcur : (schedInit bootStack idleStack).currentTask = 0 := hrest.currentTask
    grind
  · have hidle : (schedInit bootStack idleStack).idleTask = 1 := hrest.idleTask
    exact .inl rfl
  · have hpid : (schedInit bootStack idleStack).nextPid = 2 := hrest.nextPid
    grind

theorem StatesOk.run (h : StatesOk s) {es : List SchedEvent}
    (hrun : es.foldlM DevOs.schedEventStep s = some s') : StatesOk s' ∧ KeepsDead s s' :=
  @Machine.trace_invariant _ _ DevOs.schedEventStep (fun _ s' => StatesOk s' ∧ KeepsDead s s')
    _ _ _ ⟨h, .refl s⟩ (fun _ _ _ _ hi hs => by
      obtain ⟨hok, hkeep⟩ := hi.1.schedEventStep hs
      exact ⟨hok, hi.2.trans hkeep⟩) hrun

/-- **One task runs, and the dead stay dead.** After `sched_init` and any calls,
over whatever links: the running task is RUNNING, no other is, and a ZOMBIE is
one after any further calls and does not run again. -/
theorem oneRunning_of_run {bootStack idleStack : Nat} {es es' : List SchedEvent}
    (hrun : es.foldlM schedEventStep (schedInit bootStack idleStack) = some s)
    (hrun' : es'.foldlM schedEventStep s = some s') :
    (s.stateOf s.currentTask = .running ∧ ∀ t, s.stateOf t = .running → t = s.currentTask) ∧
      ∀ t, s.stateOf t = .zombie → s'.stateOf t = .zombie ∧ s'.currentTask ≠ t := by
  obtain ⟨hok, -⟩ := (statesOk_schedInit bootStack idleStack).run hrun
  obtain ⟨hok', hkeep⟩ := hok.run hrun'
  refine ⟨⟨hok.current, hok.only⟩, fun t ht => ⟨hkeep.zombie t ht, ?_⟩⟩
  rintro rfl
  have hz := hkeep.zombie _ ht
  rw [hok'.current] at hz
  cases hz

def taskTwoExits : List SchedEvent :=
  [.call (.create 300), .call (.enqueue 2), .call .yield, .call .yield, .call .exit]

def headAtTwo : List SchedEvent :=
  [.rehead (some 2), .relink 2 (some 1) (some 1), .call (.unblock 2), .call .yield]

theorem zombie_not_picked :
    ∃ s s', taskTwoExits.foldlM schedEventStep (schedInit 100 200) = some s ∧
      headAtTwo.foldlM schedEventStep s = some s' ∧
      s.stateOf 2 = .zombie ∧ s'.stateOf 2 = .zombie ∧ s'.currentTask ≠ 2 := by
  have hboth : (taskTwoExits.foldlM schedEventStep (schedInit 100 200)).any (fun s =>
      decide (s.stateOf 2 = .zombie) && (headAtTwo.foldlM schedEventStep s).isSome) = true := by
    decide +kernel
  obtain ⟨s, hrun, hs⟩ := (Option.any_eq_true _ _).mp hboth
  obtain ⟨hz, hsome⟩ := Bool.and_eq_true_iff.mp hs
  obtain ⟨s', hrun'⟩ := Option.isSome_iff_exists.mp hsome
  have hdead := of_decide_eq_true hz
  exact ⟨s, s', hrun, hrun', hdead, (oneRunning_of_run hrun hrun').2 2 hdead⟩

end DevOs
