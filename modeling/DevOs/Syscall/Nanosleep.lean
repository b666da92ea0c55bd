import DevOs.Sched.States
import DevOs.Syscall.Files
import Mathlib.Algebra.Order.Field.Rat
import Mathlib.Tactic.FieldSimp
import Mathlib.Tactic.Linarith

/-!
How long `sys_nanosleep` sleeps.
-/

namespace DevOs

/-- `tick_count` of `timer.c`, and the scheduler with the count of its own. -/
structure Timed where
  tickCount : Nat
  sched : Sched

def timerIrqHandler (s : Timed) : Option Timed :=
  (schedTick s.sched).map fun k => ⟨(s.tickCount + 1) % 2 ^ 64, k⟩

def timedStep (s : Timed) : SchedOp → Option Timed
  | .tick => timerIrqHandler s
  | op => (schedStep s.sched op).map fun k => { s with sched := k }

/-- `sys_nanosleep` with the two words `sec` and `nsec` at `rqtp`. -/
def sysNanosleep (s : Timed) (rqtp sec nsec : Nat) : Option (Nat × Timed) :=
  if uptrOk rqtp 16 then
    let ms := (sec * 1000 % 2 ^ 64 + nsec / 1000000) % 2 ^ 64
    let wake := (s.tickCount + ms) % 2 ^ 64
    (schedBlock s.sched s.sched.currentTask wake).map fun k => (0, { s with sched := k })
  else some (efault, s)

def SchedOp.Spares (t : TaskId) : SchedOp → Prop
  | .enqueue u | .block u _ | .unblock u => u ≠ t
  | _ => True

/-- The tick that a sleep from the tick `T` on has to reach. -/
def sleepEnd (T sec nsec : Nat) : ℚ :=
  min (T + 1000 * sec + nsec / 1000000) (2 ^ 64 - 1)

/-- **The task sleeps long enough**: whatever happens to other tasks, it is still BLOCKED when
fewer ticks have passed. -/
def NeverEarly (s : Timed) (t : TaskId) (T sec nsec : Nat) : Prop :=
  ∀ (ops : List SchedOp) (s' : Timed), (∀ op ∈ ops, op.Spares t) →
    ops.foldlM timedStep s = some s' →
    ((T + ops.count .tick : Nat) : ℚ) < sleepEnd T sec nsec → s'.sched.stateOf t = .blocked

/-- The sleep is a whole number of ticks, or shorter than one, and its end is a 64-bit number;
or the wake tick or the first tick after the call is as late as can be. -/
def SleepsExactly (T sec nsec : Nat) : Prop :=
  2 ^ 64 - 2 ≤ T ∨ (T + (1000 * sec + nsec / 1000000)) % 2 ^ 64 = 2 ^ 64 - 1 ∨
    (T + (1000 * sec + nsec / 1000000) < 2 ^ 64 ∧
      (1000 * sec + nsec / 1000000 = 0 ∨ 1000000 ∣ nsec))

structure Dozing (t : TaskId) (wake : Nat) (s : Sched) : Prop where
  blocked : s.stateOf t = .blocked
  wakeTick : (s.tasks t).wakeTick = wake
  notIdle : s.idleTask ≠ t
  known : t < s.nextPid

structure Asleep (t : TaskId) (wake : Nat) (s : Sched) : Prop extends Dozing t wake s where
  other : s.currentTask ≠ t

section

variable {s s' : Sched} {t u next : TaskId} {wake : Nat}

theorem sleepers_schedDoSwitch (s : Sched) (next : TaskId) :
    (schedDoSwitch s next).sleepList = s.sleepList ∧
      (schedDoSwitch s next).tickCount = s.tickCount ∧
      ∀ x, ((schedDoSwitch s next).tasks x).wakeTick = (s.tasks x).wakeTick := by
  have hrest := (sameRest_putBack s s.currentTask).trans
    (sameRest_runQueueRemove (putBack s s.currentTask) next)
  have hlist : (runQueueRemove (putBack s s.currentTask) next).sleepList = s.sleepList := by
    rw [sleepList_runQueueRemove]
    unfold putBack
    split
    · dsimp only
      split
      · exact sleepList_runQueueAdd _ _
      · rfl
    · rfl
  unfold schedDoSwitch
  split
  · exact ⟨rfl, rfl, fun _ => rfl⟩
  · refine ⟨hlist, hrest.tickCount, fun x => ?_⟩
    rw [← hrest.wakeTick x]
    simp only [makeRunning, dispatch, Sched.modify]
    split <;> rfl

section

variable (h : Dozing t wake s)
include h

theorem Dozing.ne_of_pick (hp : schedPickNext s = some next) : next ≠ t := by
  rintro rfl
  obtain hready | hidle := schedPickNext_ready hp
  · rw [h.blocked] at hready
    cases hready
  · exact h.notIdle hidle.symm

theorem Dozing.schedDoSwitch (hp : schedPickNext s = some next) :
    Asleep t wake (schedDoSwitch s next) := by
  have hne := h.ne_of_pick hp
  obtain ⟨hb, hw, hidle, hknown⟩ := h
  obtain ⟨-, -, hwake⟩ := sleepers_schedDoSwitch s next
  obtain ⟨hidle', hpid⟩ := sameOwner_schedDoSwitch s next
  by_cases hcur : next = s.currentTask
  · rw [DevOs.schedDoSwitch, if_pos hcur]
    exact ⟨⟨hb, hw, hidle, hknown⟩, hcur ▸ hne⟩
  · refine ⟨⟨?_, (hwake t).trans hw, hidle' ▸ hidle, hpid ▸ hknown⟩, ?_⟩
    · rw [stateOf_schedDoSwitch hcur, if_neg (Ne.symm hne), if_neg]
      · exact hb
      · rintro ⟨rfl, hrun⟩
        rw [hb] at hrun
        cases hrun
    · rw [currentTask_schedDoSwitch hcur]
      exact hne

theorem Dozing.reschedule (hs : reschedule s = some s') :
    Asleep t wake s' ∧ s'.sleepList = s.sleepList ∧ s'.tickCount = s.tickCount := by
  obtain ⟨next, hp, rfl⟩ := Option.map_eq_some_iff.mp hs
  have h' : Dozing t wake { s with inSched := true } := ⟨h.blocked, h.wakeTick, h.notIdle, h.known⟩
  obtain ⟨hlist, hticks, -⟩ := sleepers_schedDoSwitch { s with inSched := true } next
  exact ⟨h'.schedDoSwitch hp, hlist, hticks⟩

theorem Dozing.of_sameRest (hrest : SameRest s s')
    (hst : s'.stateOf t = s.stateOf t) : Dozing t wake s' where
  blocked := hst.trans h.blocked
  wakeTick := (hrest.wakeTick t).trans h.wakeTick
  notIdle := hrest.idleTask ▸ h.notIdle
  known := hrest.nextPid ▸ h.known

end

theorem Asleep.of_sameRest (h : Asleep t wake s) (hrest : SameRest s s')
    (hst : s'.stateOf t = s.stateOf t) : Asleep t wake s' :=
  ⟨h.toDozing.of_sameRest hrest hst, hrest.currentTask ▸ h.other⟩

/-- From `s` to `s'` the task sleeps on, and the time stands still. -/
structure SleepsOn (t : TaskId) (wake : Nat) (s s' : Sched) : Prop where
  asleep : Asleep t wake s'
  listed : t ∈ s'.sleepList ↔ t ∈ s.sleepList
  tickCount : s'.tickCount = s.tickCount

section

variable (h : Asleep t wake s)
include h

theorem Asleep.blockedState (hu : u ≠ t) (wakeTick : Nat) :
    SleepsOn t wake s (blockedState s u wakeTick) := by
  have hmark : Asleep t wake (markBlocked s u wakeTick) := by
    refine ⟨⟨?_, ?_, h.notIdle, h.known⟩, h.other⟩
    · rw [← h.blocked]
      simp only [markBlocked, Sched.modify, Sched.stateOf, if_neg (Ne.symm hu)]
    · rw [← h.wakeTick]
      simp only [markBlocked, Sched.modify, if_neg (Ne.symm hu)]
  have hremove := hmark.of_sameRest (sameRest_runQueueRemove _ u) (stateOf_runQueueRemove _ u t)
  refine ⟨?_, ?_, ?_⟩
  · unfold DevOs.blockedState sleepListAdd
    split
    all_goals exact ⟨⟨hremove.blocked, hremove.wakeTick, hremove.notIdle, hremove.known⟩,
      hremove.other⟩
  · rw [sleepList_blockedState]
    split
    · rw [List.mem_append, List.mem_singleton]
      exact or_iff_left (Ne.symm hu)
    · rfl
  · have hrest := (sameRest_runQueueRemove (markBlocked s u wakeTick) u).tickCount
    unfold DevOs.blockedState sleepListAdd
    split <;> exact hrest

theorem Asleep.schedBlock (hu : u ≠ t) {wakeTick : Nat}
    (hs : schedBlock s u wakeTick = some s') : SleepsOn t wake s s' := by
  have hb := h.blockedState hu wakeTick
  rw [schedBlock_eq] at hs
  split at hs
  · obtain ⟨next, hp, rfl⟩ := Option.map_eq_some_iff.mp hs
    obtain ⟨hlist, hticks, -⟩ := sleepers_schedDoSwitch (DevOs.blockedState s u wakeTick) next
    exact ⟨hb.asleep.toDozing.schedDoSwitch hp, hlist ▸ hb.listed, hticks.trans hb.tickCount⟩
  · cases hs
    exact ⟨⟨⟨hb.asleep.blocked, hb.asleep.wakeTick, hb.asleep.notIdle, hb.asleep.known⟩,
      hb.asleep.other⟩, hb.listed, hb.tickCount⟩

theorem Asleep.schedCreateTask (kernelStack : Nat) :
    SleepsOn t wake s (schedCreateTask s kernelStack) := by
  have hne : t ≠ s.nextPid := h.known.ne
  refine ⟨⟨⟨?_, ?_, h.notIdle, h.known.trans (Nat.lt_succ_self _)⟩, h.other⟩, Iff.rfl, rfl⟩
  · rw [← h.blocked]
    simp only [DevOs.schedCreateTask, Sched.modify, Sched.stateOf, if_neg hne]
  · rw [← h.wakeTick]
    simp only [DevOs.schedCreateTask, Sched.modify, if_neg hne]

theorem Asleep.schedExit (hs : schedExit s = some s') : SleepsOn t wake s s' := by
  obtain ⟨next, hp, rfl⟩ := Option.map_eq_some_iff.mp hs
  have hrest : SameRest s (retireCurrent s) :=
    (SameRest.setState s _ _).trans (sameRest_runQueueRemove _ _)
  have hst : (retireCurrent s).stateOf t = s.stateOf t := by
    rw [stateOf_retireCurrent, if_neg (Ne.symm h.other)]
  have hdoze := h.toDozing.of_sameRest hrest hst
  have hne := hdoze.ne_of_pick hp
  have hrest' := hrest.trans (SameRest.setState (retireCurrent s) next .running)
  have hlist : (retireCurrent s).sleepList = s.sleepList := sleepList_runQueueRemove _ _
  refine ⟨⟨⟨?_, (hrest'.wakeTick t).trans h.wakeTick, hdoze.notIdle, hdoze.known⟩, hne⟩, ?_,
    hrest'.tickCount⟩
  · change ((retireCurrent s).setState next .running).stateOf t = .blocked
    rw [Sched.stateOf_setState, if_neg (Ne.symm hne)]
    exact hdoze.blocked
  · change t ∈ (retireCurrent s).sleepList ↔ t ∈ s.sleepList
    rw [hlist]

theorem Asleep.schedStep {op : SchedOp} (hop : op.Spares t)
    (htick : op ≠ .tick) (hs : schedStep s op = some s') : SleepsOn t wake s s' := by
  cases op with
  | create kernelStack =>
    cases hs
    exact h.schedCreateTask kernelStack
  | enqueue u =>
    cases hs
    refine ⟨h.of_sameRest (sameRest_runQueueAdd s u) ?_, ?_, (sameRest_runQueueAdd s u).tickCount⟩
    · rw [schedEnqueue, stateOf_runQueueAdd, if_neg (Ne.symm hop)]
    · rw [schedEnqueue, sleepList_runQueueAdd]
  | yield =>
    obtain ⟨hasleep, hlist, hticks⟩ := h.toDozing.reschedule hs
    exact ⟨hasleep, by rw [hlist], hticks⟩
  | tick => exact absurd rfl htick
  | block u wakeTick => exact h.schedBlock hop hs
  | unblock u =>
    cases hs
    refine ⟨h.of_sameRest (sameRest_schedUnblock s u) ?_, ?_, (sameRest_schedUnblock s u).tickCount⟩
    · rw [stateOf_schedUnblock, if_neg fun hu => hop hu.1.symm]
    · rw [sleepList_schedUnblock]
  | exit => exact h.schedExit hs

theorem Asleep.charge : Asleep t wake (s.modify s.currentTask chargeTick) := by
  refine ⟨⟨(stateOf_charge s _ t).trans h.blocked, ?_, h.notIdle, h.known⟩, h.other⟩
  rw [← h.wakeTick]
  simp only [Sched.modify, if_neg (Ne.symm h.other)]

theorem Asleep.schedTick (hs : schedTick s = some s') : s'.tickCount = (s.tickCount + 1) % 2 ^ 64 ∧
      (t ∈ s.sleepList ∧ wake ≤ (s.tickCount + 1) % 2 ^ 64 → s'.stateOf t ≠ .blocked) ∧
      (¬ (t ∈ s.sleepList ∧ wake ≤ (s.tickCount + 1) % 2 ^ 64) →
        Asleep t wake s' ∧ (t ∈ s'.sleepList ↔ t ∈ s.sleepList)) := by
  obtain ⟨s1, w, hw, hs⟩ := schedTick_wakes hs
  have hdue : t ∈ w ↔ t ∈ s.sleepList ∧ wake ≤ (s.tickCount + 1) % 2 ^ 64 := by
    rw [hw.due t, ← h.wakeTick]
    exact and_congr_right fun _ => and_iff_right h.blocked
  have hst := hw.states t
  rw [← hdue]
  refine ⟨?_, fun hmem => ?_, fun hmem => ?_⟩
  · obtain rfl | rfl | hs := hs
    · exact hw.rest.tickCount
    · exact hw.rest.tickCount
    · obtain ⟨next, -, rfl⟩ := Option.map_eq_some_iff.mp hs
      exact (sleepers_schedDoSwitch _ next).2.1.trans hw.rest.tickCount
  · rw [if_pos hmem] at hst
    have hawake : s1.stateOf t ≠ .blocked := by
      rw [hst]
      decide
    obtain rfl | rfl | hs := hs
    · exact hawake
    · rwa [stateOf_charge]
    · intro hb
      have hstop := noneStops_reschedule hs t (.inl hb)
      rw [stateOf_charge, hb] at hstop
      exact hawake hstop
  · rw [if_neg hmem] at hst
    have h1 : Asleep t wake s1 :=
      ⟨⟨hst.trans h.blocked, (hw.rest.wakeTick t).trans h.wakeTick, hw.rest.idleTask ▸ h.notIdle,
        hw.rest.nextPid ▸ h.known⟩, hw.rest.currentTask ▸ h.other⟩
    have hlisted : t ∈ s1.sleepList ↔ t ∈ s.sleepList := by
      rw [← hw.entries.mem_iff, List.mem_append, or_iff_right hmem]
    obtain rfl | rfl | hs := hs
    · exact ⟨h1, hlisted⟩
    · exact ⟨h1.charge, hlisted⟩
    · obtain ⟨hasleep, hlist, -⟩ := h1.charge.toDozing.reschedule hs
      exact ⟨hasleep, hlist ▸ hlisted⟩

end

theorem asleep_schedBlock (hidle : s.currentTask ≠ s.idleTask) (hk : s.currentTask < s.nextPid)
    (hs : schedBlock s s.currentTask wake = some s') :
    Asleep s.currentTask wake s' ∧ s'.tickCount = s.tickCount ∧ (s.currentTask ∈ s'.sleepList ↔
        s.sleepList.length < sleepListMax ∨ s.currentTask ∈ s.sleepList) := by
  rw [schedBlock_eq, if_pos rfl] at hs
  obtain ⟨next, hp, rfl⟩ := Option.map_eq_some_iff.mp hs
  have hrest := sameRest_runQueueRemove (markBlocked s s.currentTask wake) s.currentTask
  obtain ⟨hidle', hpid⟩ := sameRest_blockedState s s.currentTask wake
  have hwake : ((blockedState s s.currentTask wake).tasks s.currentTask).wakeTick = wake := by
    have hmark : ((markBlocked s s.currentTask wake).tasks s.currentTask).wakeTick = wake := by
      simp only [markBlocked, Sched.modify, if_true]
    refine Eq.trans ?_ ((hrest.wakeTick s.currentTask).trans hmark)
    unfold blockedState sleepListAdd
    split <;> rfl
  have hticks : (blockedState s s.currentTask wake).tickCount = s.tickCount := by
    refine Eq.trans ?_ hrest.tickCount
    unfold blockedState sleepListAdd
    split <;> rfl
  have hdoze : Dozing s.currentTask wake (blockedState s s.currentTask wake) :=
    ⟨by rw [stateOf_blockedState, if_pos rfl], hwake, hidle' ▸ Ne.symm hidle, hpid ▸ hk⟩
  obtain ⟨hlist, hticks', -⟩ := sleepers_schedDoSwitch (blockedState s s.currentTask wake) next
  refine ⟨hdoze.schedDoSwitch hp, hticks'.trans hticks, ?_⟩
  rw [hlist, sleepList_blockedState]
  split
  · rename_i hroom
    exact iff_of_true (List.mem_append_right _ (List.mem_singleton_self _)) (.inl hroom)
  · rename_i hfull
    exact (or_iff_right hfull).symm

variable {T k sec nsec : Nat}

theorem wakeTick_eq : (T + (sec * 1000 % 2 ^ 64 + nsec / 1000000) % 2 ^ 64) % 2 ^ 64 =
    (T + (1000 * sec + nsec / 1000000)) % 2 ^ 64 := by
  omega

theorem lt_sleepEnd_iff : ((T + k : Nat) : ℚ) < sleepEnd T sec nsec ↔
    T + k < 2 ^ 64 - 1 ∧ 1000000 * k < 1000000000 * sec + nsec := by
  have hcap : ((T + k : Nat) : ℚ) < 2 ^ 64 - 1 ↔ T + k < 2 ^ 64 - 1 := by
    rw [show (2 ^ 64 - 1 : ℚ) = ((2 ^ 64 - 1 : Nat) : ℚ) by norm_num, Nat.cast_lt]
  have hexact : ((T + k : Nat) : ℚ) < T + 1000 * sec + nsec / 1000000 ↔
      1000000 * k < 1000000000 * sec + nsec := by
    rw [← @Nat.cast_lt ℚ]
    push_cast
    constructor <;> intro h <;> linarith
  rw [sleepEnd, lt_min_iff, hcap, hexact, and_comm]

theorem exists_early_iff (hT : T < 2 ^ 64) :
    (∃ k, 1 ≤ k ∧ T + k < 2 ^ 64 - 1 ∧ 1000000 * k < 1000000000 * sec + nsec ∧
      (T + (1000 * sec + nsec / 1000000)) % 2 ^ 64 ≤ T + k) ↔ ¬ SleepsExactly T sec nsec := by
  unfold SleepsExactly
  constructor
  · rintro ⟨k, hk, hlt, hearly, hwake⟩ hexact
    omega
  · intro hnot
    refine ⟨max 1 ((T + (1000 * sec + nsec / 1000000)) % 2 ^ 64 - T), ?_⟩
    omega

end

variable {s s' : Timed} {t : TaskId} {wake T n : Nat} {ops : List SchedOp} {q : List TaskId}
  {s1 s2 : Timed}

theorem schedStep_of_timedStep {op : SchedOp} (h : timedStep s op = some s') :
    schedStep s.sched op = some s'.sched := by
  unfold timedStep at h
  split at h
  · obtain ⟨k, hk, rfl⟩ := Option.map_eq_some_iff.mp h
    exact hk
  · obtain ⟨k, hk, rfl⟩ := Option.map_eq_some_iff.mp h
    exact hk

theorem asleep_of_run (h : Asleep t wake s.sched) (hT : s.sched.tickCount = T) (hlt : T < 2 ^ 64)
    (hops : ∀ op ∈ ops, op.Spares t) (hrun : ops.foldlM timedStep s = some s') :
    (Asleep t wake s'.sched ∧ s'.sched.tickCount = (T + ops.count .tick) % 2 ^ 64 ∧
        (t ∈ s'.sched.sleepList ↔ t ∈ s.sched.sleepList)) ∨
      ∃ k, 1 ≤ k ∧ k ≤ ops.count .tick ∧ wake ≤ (T + k) % 2 ^ 64 ∧ t ∈ s.sched.sleepList := by
  refine @Machine.trace_invariant _ _ timedStep (fun ops s' => (∀ op ∈ ops, op.Spares t) →
    (Asleep t wake s'.sched ∧ s'.sched.tickCount = (T + ops.count .tick) % 2 ^ 64 ∧
        (t ∈ s'.sched.sleepList ↔ t ∈ s.sched.sleepList)) ∨
      ∃ k, 1 ≤ k ∧ k ≤ ops.count .tick ∧ wake ≤ (T + k) % 2 ^ 64 ∧ t ∈ s.sched.sleepList)
    s s' ops ?_ ?_ hrun hops
  · intro _
    refine .inl ⟨h, ?_, Iff.rfl⟩
    rw [List.count_nil, Nat.add_zero, hT, Nat.mod_eq_of_lt hlt]
  · intro ops s1 op s2 ih hs hspares
    have hstep := schedStep_of_timedStep hs
    rw [List.forall_mem_append] at hspares
    have hop := hspares.2 op (List.mem_singleton_self op)
    rw [List.count_append, List.count_singleton]
    obtain ⟨hasleep, hticks, hlisted⟩ | ⟨k, hk, hle, hwake, hmem⟩ := ih hspares.1
    · by_cases htick : op = .tick
      · subst htick
        obtain ⟨hticks', hdue, hnot⟩ := hasleep.schedTick hstep
        rw [hticks, Nat.mod_add_mod] at hticks' hdue hnot
        by_cases hcome : t ∈ s1.sched.sleepList ∧ wake ≤ (T + ops.count .tick + 1) % 2 ^ 64
        · exact .inr ⟨ops.count .tick + 1, Nat.succ_pos _, le_rfl, hcome.2, hlisted.mp hcome.1⟩
        · obtain ⟨hasleep', hlisted'⟩ := hnot hcome
          exact .inl ⟨hasleep', hticks', hlisted'.trans hlisted⟩
      · have hon := hasleep.schedStep hop htick hstep
        rw [if_neg (by simpa using htick), Nat.add_zero]
        exact .inl ⟨hon.asleep, hon.tickCount.trans hticks, hon.listed.trans hlisted⟩
    · exact .inr ⟨k, hk, hle.trans (Nat.le_add_right _ _), hwake, hmem⟩

theorem timerIrqHandler_of_queueInv (h : QueueInv s.sched q) :
    ∃ s' q', timedStep s .tick = some s' ∧ QueueInv s'.sched q' := by
  obtain ⟨k, q', hk, hq'⟩ := queueInv_schedTick h
  exact ⟨⟨(s.tickCount + 1) % 2 ^ 64, k⟩, q', by rw [timedStep, timerIrqHandler, hk]; rfl, hq'⟩

theorem run_ticks_succ (h : (List.replicate n .tick).foldlM timedStep s = some s1)
    (hs : timedStep s1 .tick = some s2) :
    (List.replicate (n + 1) .tick).foldlM timedStep s = some s2 := by
  rw [List.replicate_succ', List.foldlM_append, h]
  simp only [Option.bind_eq_bind, Option.bind_some, List.foldlM_cons, List.foldlM_nil, hs]
  rfl

theorem neverEarly_of_exact {sec nsec : Nat} (h : Asleep t wake s.sched)
    (hT : s.sched.tickCount = T) (hlt : T < 2 ^ 64)
    (hwake : wake = (T + (1000 * sec + nsec / 1000000)) % 2 ^ 64)
    (hsound : t ∉ s.sched.sleepList ∨ SleepsExactly T sec nsec) : NeverEarly s t T sec nsec := by
  intro ops s' hops hrun hearly
  obtain ⟨hcap, hshort⟩ := lt_sleepEnd_iff.mp hearly
  obtain ⟨hasleep, -, -⟩ | ⟨k, hk, hle, hcome, hmem⟩ := asleep_of_run h hT hlt hops hrun
  · exact hasleep.blocked
  · obtain hnot | hexact := hsound
    · exact absurd hmem hnot
    · refine absurd hexact ((exists_early_iff hlt).mp ⟨k, hk, by omega, by omega, ?_⟩)
      rwa [← hwake, ← Nat.mod_eq_of_lt (show T + k < 2 ^ 64 by omega)]

theorem NeverEarly.tick {sec nsec : Nat} (hnever : NeverEarly s t T sec nsec)
    (hrun : (List.replicate n .tick).foldlM timedStep s = some s1)
    (hs : timedStep s1 .tick = some s2) (hearly : ((T + (n + 1) : Nat) : ℚ) < sleepEnd T sec nsec) :
    s2.sched.stateOf t = .blocked := by
  refine hnever _ s2 (fun op hop => ?_) (run_ticks_succ hrun hs) ?_
  · rw [List.eq_of_mem_replicate hop]
    trivial
  · rwa [List.count_replicate_self]

theorem asleep_of_ticks {sec nsec : Nat} (hq : QueueInv s.sched q)
    (h : Asleep t wake s.sched) (hT : s.sched.tickCount = T)
    (hnever : NeverEarly s t T sec nsec) (hmem : t ∈ s.sched.sleepList)
    (hearly : ((T + n : Nat) : ℚ) < sleepEnd T sec nsec) :
    ∃ s' q', (List.replicate n .tick).foldlM timedStep s = some s' ∧ QueueInv s'.sched q' ∧
      Asleep t wake s'.sched ∧ s'.sched.tickCount = T + n ∧ t ∈ s'.sched.sleepList := by
  induction n with
  | zero => exact ⟨s, q, rfl, hq, h, hT, hmem⟩
  | succ n ih =>
    obtain ⟨hcap, hshort⟩ := lt_sleepEnd_iff.mp hearly
    obtain ⟨s1, q1, hrun, hq1, h1, hT1, hmem1⟩ :=
      ih (lt_sleepEnd_iff.mpr ⟨by omega, by omega⟩)
    obtain ⟨s2, q2, hs2, hq2⟩ := timerIrqHandler_of_queueInv hq1
    have hblocked := hnever.tick hrun hs2 hearly
    obtain ⟨hticks, hdue, hnot⟩ := h1.schedTick (schedStep_of_timedStep hs2)
    obtain ⟨h2, hlisted⟩ := hnot fun hcome => hdue hcome hblocked
    refine ⟨s2, q2, run_ticks_succ hrun hs2, hq2, h2, ?_, hlisted.mpr hmem1⟩
    rw [hticks, hT1, Nat.mod_eq_of_lt (by omega), Nat.add_assoc]

/-- **A task that calls `sys_nanosleep` sleeps long enough** exactly if the sleep is exact, or
the sleep list is full and no tick can find the task. -/
theorem neverEarly_iff {q : List TaskId} {rqtp sec nsec r : Nat} (hq : QueueInv s.sched q)
    (hidle : s.sched.currentTask ≠ s.sched.idleTask) (hclock : s.sched.tickCount = s.tickCount)
    (hlt : s.tickCount < 2 ^ 64) (hok : uptrOk rqtp 16 = true)
    (hs : sysNanosleep s rqtp sec nsec = some (r, s')) :
    NeverEarly s' s.sched.currentTask s.tickCount sec nsec ↔
      (sleepListMax ≤ s.sched.sleepList.length ∧ s.sched.currentTask ∉ s.sched.sleepList) ∨
        SleepsExactly s.tickCount sec nsec := by
  unfold sysNanosleep at hs
  rw [if_pos hok] at hs
  dsimp only at hs
  rw [wakeTick_eq] at hs
  obtain ⟨k, hk, heq⟩ := Option.map_eq_some_iff.mp hs
  cases heq
  obtain ⟨k', q', hk', hq'⟩ := queueInv_schedBlock hq hq.current
    ((s.tickCount + (1000 * sec + nsec / 1000000)) % 2 ^ 64)
  obtain rfl := Option.some.inj (hk.symm.trans hk')
  obtain ⟨hasleep, hticks, hlisted⟩ := asleep_schedBlock hidle hq.current hk
  have hT := hticks.trans hclock
  have hfull : s.sched.currentTask ∉ k.sleepList ↔
      sleepListMax ≤ s.sched.sleepList.length ∧ s.sched.currentTask ∉ s.sched.sleepList := by
    rw [hlisted, not_or, Nat.not_lt]
  rw [← hfull]
  refine ⟨fun hnever => ?_, fun hsound => neverEarly_of_exact hasleep hT hlt rfl hsound⟩
  by_contra hnot
  obtain ⟨hmem, hinexact⟩ := not_or.mp hnot
  obtain ⟨m, hm, hcap, hshort, hwake⟩ := (exists_early_iff hlt).mpr hinexact
  -- the tick before the one that wakes it
  obtain ⟨m, rfl⟩ := Nat.exists_eq_add_of_le' hm
  obtain ⟨s1, q1, hrun, hq1, h1, hT1, hmem1⟩ := @asleep_of_ticks ⟨s.tickCount, k⟩ _ _ _ m _ _ _ hq'
    hasleep hT hnever (not_not.mp hmem) (lt_sleepEnd_iff.mpr ⟨by omega, by omega⟩)
  obtain ⟨s2, q2, hs2, -⟩ := timerIrqHandler_of_queueInv hq1
  have hblocked := hnever.tick hrun hs2 (lt_sleepEnd_iff.mpr ⟨hcap, hshort⟩)
  obtain ⟨-, hdue, -⟩ := h1.schedTick (schedStep_of_timedStep hs2)
  refine hdue ⟨hmem1, ?_⟩ hblocked
  rwa [hT1, Nat.add_assoc, Nat.mod_eq_of_lt (show s.tickCount + (m + 1) < 2 ^ 64 by omega)]

def bootClock : Timed := ⟨0, schedInit 0x9000 0xA000⟩

theorem nanosleep_one_second :
    ∃ s', sysNanosleep bootClock 0x400000 1 0 = some (0, s') ∧ NeverEarly s' 0 0 1 0 := by
  obtain ⟨k, q', hk, -⟩ := queueInv_schedBlock (queueInv_schedInit 0x9000 0xA000)
    (queueInv_schedInit 0x9000 0xA000).current 1000
  have hs : sysNanosleep bootClock 0x400000 1 0 = some (0, ⟨0, k⟩) := by
    unfold sysNanosleep
    rw [if_pos (by decide)]
    exact Option.map_eq_some_iff.mpr ⟨k, hk, rfl⟩
  exact ⟨_, hs, (neverEarly_iff (queueInv_schedInit 0x9000 0xA000) (by decide) rfl (by decide)
    (by decide) hs).mpr (.inr (.inr (.inr (by decide))))⟩

theorem early_of_ready {s : Timed} {t : TaskId} {T rqtp sec nsec : Nat}
    (h : ((sysNanosleep s rqtp sec nsec).bind fun res =>
      (timerIrqHandler res.2).map fun s' => s'.sched.stateOf t) = some .ready)
    (hcap : T + 1 < 2 ^ 64 - 1) (hshort : 1000000 * 1 < 1000000000 * sec + nsec) :
    ∃ r s', sysNanosleep s rqtp sec nsec = some (r, s') ∧
      (timerIrqHandler s').map (fun s => s.sched.stateOf t) = some .ready ∧
      ¬ NeverEarly s' t T sec nsec := by
  obtain ⟨res, hs, hready⟩ := Option.bind_eq_some_iff.mp h
  obtain ⟨s1, hs1, hstate⟩ := Option.map_eq_some_iff.mp hready
  refine ⟨res.1, res.2, hs, hready, fun hnever => ?_⟩
  have hblocked := NeverEarly.tick (n := 0) hnever rfl hs1 (lt_sleepEnd_iff.mpr ⟨hcap, hshort⟩)
  rw [hstate] at hblocked
  cases hblocked

/-- **A sleep of one and a half ticks ends at the first tick, and so does one of `2 ^ 61`
seconds.** -/
theorem nanosleep_wakes_early :
    (∃ r s', sysNanosleep bootClock 0x400000 0 1500000 = some (r, s') ∧
      (timerIrqHandler s').map (fun s => s.sched.stateOf 0) = some .ready ∧
      ¬ NeverEarly s' 0 0 0 1500000) ∧
    ∃ r s', sysNanosleep bootClock 0x400000 (2 ^ 61) 0 = some (r, s') ∧
      (timerIrqHandler s').map (fun s => s.sched.stateOf 0) = some .ready ∧
      ¬ NeverEarly s' 0 0 (2 ^ 61) 0 :=
  ⟨early_of_ready (by decide +kernel) (by decide) (by decide),
    early_of_ready (by decide +kernel) (by decide) (by decide)⟩

end DevOs
