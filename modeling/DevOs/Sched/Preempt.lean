import DevOs.Sched.Invariant

/-!
Preemption by the timer: how long a ready task can wait for the next switch.
-/

namespace DevOs

inductive PreemptOp where
  | tick
  | checkSleepers (tick : Nat)
  | unblock (t : TaskId)
  deriving DecidableEq, Repr

def preemptStep (s : Sched) : PreemptOp → Option Sched
  | .tick => schedTick s
  | .checkSleepers tick => some (schedCheckSleepers s tick)
  | .unblock t => some (schedUnblock s t)

def PreemptOp.Allowed (s : Sched) : PreemptOp → Prop
  | .unblock t => t < s.nextPid
  | _ => True

def ticks (ops : List PreemptOp) : Nat := ops.count .tick

def Queued (s : Sched) (t : TaskId) : Prop :=
  s.stateOf t = .ready ∧ ∃ q, IsQueue s q ∧ t ∈ q

/-- `t` is ready and in the run queue before the calls and after each of them,
and none of the ticks among them switches. -/
def StaysQueued (t : TaskId) : Sched → List PreemptOp → Prop
  | s, [] => Queued s t
  | s, op :: ops => Queued s t ∧ op.Allowed s ∧ ∃ s', preemptStep s op = some s' ∧
      (op = .tick → s'.currentTask = s.currentTask) ∧ StaysQueued t s' ops

/-- The next tick ends the idle task's time slice while nothing is queued and
no sleeper is due. -/
def IdleExpiry (s : Sched) : Prop :=
  s.currentTask = s.idleTask ∧ (s.tasks s.currentTask).timeSlice ≤ 1 ∧ s.runQueueHead = none ∧
    ∀ t, ¬ Due s ((s.tickCount + 1) % 2 ^ 64) t

/-- A state between two calls: the guard is clear and the running task, outside
the queue, has at most a full time slice left, not counting the tick that ends it. -/
structure Preemptible (s : Sched) (q : List TaskId) : Prop where
  inv : QueueInv s q
  running : s.stateOf s.currentTask = .running
  guard : s.inSched = false
  slice : (s.tasks s.currentTask).timeSlice ≤ defaultTimeslice + 1

section

variable {s : Sched} {q : List TaskId}

theorem wakeup_ne_nil (h : QueueInv s q) (tick : Nat)
    (hne : s.runQueueHead ≠ none ∨ ∃ t, Due s tick t) :
    ∃ q', Wakeup s (schedCheckSleepers s tick) q q' ∧ q' ≠ [] := by
  obtain ⟨w, hw⟩ := wakes_schedCheckSleepers s tick
  refine ⟨q ++ w, wakeup_of_wakes h hw, ?_⟩
  rintro hnil
  obtain ⟨rfl, rfl⟩ := List.append_eq_nil_iff.mp hnil
  obtain hhead | ⟨t, ht⟩ := hne
  · exact hhead h.queue.head
  · exact absurd ((hw.due t).mpr ht) List.not_mem_nil

theorem Preemptible.wake {s' : Sched} {q' : List TaskId} (h : Preemptible s q)
    (hw : Wakeup s s' q q') : Preemptible s' q' := by
  refine ⟨hw.inv, ?_, hw.rest.inSched.trans h.guard, ?_⟩
  · rw [hw.rest.currentTask]
    rcases hw.states s.currentTask with heq | ⟨hb, -⟩
    · rw [heq]; exact h.running
    · rw [h.running] at hb; cases hb
  · rw [hw.rest.currentTask, hw.rest.timeSlice]
    exact h.slice

theorem Preemptible.count (h : Preemptible s q) (n : Nat) :
    Preemptible { s with tickCount := n } q :=
  ⟨h.inv.of_same rfl rfl rfl rfl rfl rfl rfl (fun _ ht => ht), h.running, h.guard, h.slice⟩

/-- The part of `schedTick` behind the wake-ups, when the guard is clear. -/
def chargeAndSwitch (s : Sched) : Option Sched :=
  let s := s.modify s.currentTask chargeTick
  if (s.tasks s.currentTask).timeSlice = 0 then reschedule s else some s

theorem schedTick_eq (h : s.inSched = false) (hi : QueueInv s q) : schedTick s = chargeAndSwitch
      (schedCheckSleepers { s with tickCount := (s.tickCount + 1) % 2 ^ 64 }
        ((s.tickCount + 1) % 2 ^ 64)) := by
  have h0 : QueueInv { s with tickCount := (s.tickCount + 1) % 2 ^ 64 } q :=
    hi.of_same rfl rfl rfl rfl rfl rfl rfl (fun _ ht => ht)
  obtain ⟨q', hw⟩ := wakeup_schedCheckSleepers ((s.tickCount + 1) % 2 ^ 64) h0
  unfold schedTick
  dsimp only
  rw [hw.rest.inSched, if_neg (by rw [h]; decide)]
  rfl

theorem timeSlice_charge (s : Sched) :
    ((s.modify s.currentTask chargeTick).tasks s.currentTask).timeSlice =
      (s.tasks s.currentTask).timeSlice - 1 := by
  simp only [Sched.modify, if_true, chargeTick]
  split
  · rfl
  · omega

theorem schedDoSwitch_running {next : TaskId} (hne : next ≠ s.currentTask) :
    (schedDoSwitch s next).currentTask = next ∧ (schedDoSwitch s next).inSched = false ∧
      (schedDoSwitch s next).stateOf next = .running ∧
      ((schedDoSwitch s next).tasks next).timeSlice = defaultTimeslice := by
  rw [schedDoSwitch, if_neg hne]
  refine ⟨rfl, rfl, by simp, ?_⟩
  simp [makeRunning, dispatch, Sched.modify]

theorem chargeAndSwitch_of_lt (h : Preemptible s q) (hlt : 1 < (s.tasks s.currentTask).timeSlice) :
    chargeAndSwitch s = some (s.modify s.currentTask chargeTick) ∧
      Preemptible (s.modify s.currentTask chargeTick) q := by
  have hslice := timeSlice_charge s
  have hz : ¬ ((s.modify s.currentTask chargeTick).tasks s.currentTask).timeSlice = 0 := by
    omega
  refine ⟨if_neg hz, queueInv_charge h.inv s.currentTask, ?_, h.guard, ?_⟩
  · have hstate : (s.modify s.currentTask chargeTick).stateOf s.currentTask =
        s.stateOf s.currentTask := by
      simp only [Sched.modify, Sched.stateOf, if_true, chargeTick]
      split <;> rfl
    exact hstate.trans h.running
  · change ((s.modify s.currentTask chargeTick).tasks s.currentTask).timeSlice ≤ _
    have := h.slice
    omega

theorem preemptible_reschedule (h : QueueInv s q) (hne : q.head?.getD s.idleTask ≠ s.currentTask) :
    ∃ s' q', reschedule s = some s' ∧ Preemptible s' q' ∧
      s'.currentTask = q.head?.getD s.idleTask := by
  have hk : q.head?.getD s.idleTask < s.nextPid := by
    rcases q with _ | ⟨head, q⟩
    · exact h.idle
    · exact h.known head List.mem_cons_self
  obtain ⟨hcur, hclear, hstate, hfull⟩ :=
    schedDoSwitch_running (s := { s with inSched := true }) hne
  refine ⟨_, _, reschedule_eq h, ⟨queueInv_schedDoSwitch h.guarded hk hne, ?_, hclear, ?_⟩, hcur⟩
  · rw [hcur]; exact hstate
  · rw [hcur, hfull]
    exact Nat.le_succ _

theorem chargeAndSwitch_of_le (h : Preemptible s q)
    (hle : (s.tasks s.currentTask).timeSlice ≤ 1) (hne : q.head?.getD s.idleTask ≠ s.currentTask) :
    ∃ s' q', chargeAndSwitch s = some s' ∧ Preemptible s' q' ∧ s'.currentTask ≠ s.currentTask := by
  have hslice := timeSlice_charge s
  have hz : ((s.modify s.currentTask chargeTick).tasks s.currentTask).timeSlice = 0 := by
    omega
  obtain ⟨s', q', hs', hp, hcur⟩ :=
    preemptible_reschedule (queueInv_charge h.inv s.currentTask) hne
  exact ⟨s', q', (if_pos hz).trans hs', hp, fun hc => hne (hcur.symm.trans hc)⟩

theorem Preemptible.head_ne (h : Preemptible s q)
    (hne : q ≠ [] ∨ s.currentTask ≠ s.idleTask) : q.head?.getD s.idleTask ≠ s.currentTask := by
  rcases q with _ | ⟨head, q⟩
  · exact Ne.symm (hne.resolve_left (fun hc => hc rfl))
  · intro heq
    have hr := h.inv.ready head List.mem_cons_self
    rw [show head = s.currentTask from heq, h.running] at hr
    cases hr

theorem preemptible_schedTick (h : Preemptible s q) (hx : ¬ IdleExpiry s) :
    ∃ s' q', schedTick s = some s' ∧ Preemptible s' q' ∧ (s'.currentTask = s.currentTask →
        1 < (s.tasks s.currentTask).timeSlice ∧
          (s'.tasks s'.currentTask).timeSlice + 1 = (s.tasks s.currentTask).timeSlice) := by
  have h0 := h.count ((s.tickCount + 1) % 2 ^ 64)
  obtain ⟨q1, hw⟩ := wakeup_schedCheckSleepers ((s.tickCount + 1) % 2 ^ 64) h0.inv
  have h1 := h0.wake hw
  have hcur := hw.rest.currentTask
  have hsl := hw.rest.timeSlice s.currentTask
  rw [schedTick_eq h.guard h.inv]
  by_cases hlt : 1 < (s.tasks s.currentTask).timeSlice
  · obtain ⟨hrun, hp⟩ := chargeAndSwitch_of_lt h1 (by rw [hcur, hsl]; exact hlt)
    refine ⟨_, q1, hrun, hp, fun _ => ⟨hlt, ?_⟩⟩
    refine (congrArg (· + 1) (timeSlice_charge _)).trans ?_
    rw [hcur, hsl]
    change (s.tasks s.currentTask).timeSlice - 1 + 1 = _
    omega
  · rw [Nat.not_lt] at hlt
    -- the slice ends, so this is not the idle task with nothing to hand over to
    have hne : q1 ≠ [] ∨ s.currentTask ≠ s.idleTask := by
      by_contra hc
      obtain ⟨hnil, hidle⟩ := not_or.mp hc
      rw [not_not] at hnil hidle
      subst hnil
      have hq : q = [] := by simpa using hw.grows
      subst hq
      refine hx ⟨hidle, hlt, h.inv.queue.head, ?_⟩
      intro t ht
      obtain ⟨q2, hw2, hq2⟩ := wakeup_ne_nil h0.inv ((s.tickCount + 1) % 2 ^ 64) (.inr ⟨t, ht⟩)
      have hhead := hw.inv.queue.head
      rw [hw2.inv.queue.head] at hhead
      exact hq2 (List.head?_eq_none_iff.mp hhead)
    have hswitch := h1.head_ne (by rw [hcur, hw.rest.idleTask]; exact hne)
    obtain ⟨s', q', hs', hp, hmoved⟩ :=
      chargeAndSwitch_of_le h1 (by rw [hcur, hsl]; exact hlt) hswitch
    rw [hcur] at hmoved
    exact ⟨s', q', hs', hp, fun hstay => absurd hstay hmoved⟩

variable {t : TaskId}

theorem checkSleepersLoop_eq_self (tick : Nat) (hd : ∀ t, ¬ Due s tick t) :
    ∀ n i, checkSleepersLoop tick n i s = s := by
  intro n
  induction n with
  | zero => exact fun _ => rfl
  | succ n ih =>
    intro i
    unfold checkSleepersLoop
    split
    · rfl
    · next t hi =>
        rw [if_neg (fun hc => hd t ⟨List.mem_of_getElem? hi, hc.1, hc.2⟩)]
        exact ih (i + 1)

theorem schedTick_idleExpiry (h : Preemptible s q) (hx : IdleExpiry s) :
    ∃ s', schedTick s = some s' ∧ QueueInv s' q ∧ s'.inSched = true ∧
      s'.stateOf = s.stateOf ∧ s'.nextPid = s.nextPid := by
  obtain ⟨hidle, hle, hhead, hdue⟩ := hx
  have hnil : q = [] := by
    rw [h.inv.queue.head] at hhead
    exact List.head?_eq_none_iff.mp hhead
  subst hnil
  have h0 := h.count ((s.tickCount + 1) % 2 ^ 64)
  have hsleep : schedCheckSleepers { s with tickCount := (s.tickCount + 1) % 2 ^ 64 }
      ((s.tickCount + 1) % 2 ^ 64) = { s with tickCount := (s.tickCount + 1) % 2 ^ 64 } :=
    checkSleepersLoop_eq_self (s := { s with tickCount := (s.tickCount + 1) % 2 ^ 64 }) _ hdue _ 0
  rw [schedTick_eq h.guard h.inv, hsleep]
  have hch := queueInv_charge h0.inv s.currentTask
  have hslice := timeSlice_charge { s with tickCount := (s.tickCount + 1) % 2 ^ 64 }
  have hz : (({ s with tickCount := (s.tickCount + 1) % 2 ^ 64 }.modify s.currentTask
      chargeTick).tasks s.currentTask).timeSlice = 0 := by
    refine hslice.trans ?_
    change (s.tasks s.currentTask).timeSlice - 1 = 0
    omega
  refine ⟨_, (if_pos hz).trans ((reschedule_eq hch).trans (congrArg some (if_pos hidle.symm))),
    hch.guarded, rfl, ?_, rfl⟩
  funext x
  simp only [Sched.modify, Sched.stateOf]
  split
  · next hxc => rw [hxc, chargeTick]; split <;> rfl
  · rfl

theorem schedTick_of_inSched (h : QueueInv s q) (hg : s.inSched = true) :
    ∃ s' q', schedTick s = some s' ∧ QueueInv s' q' ∧ s'.inSched = true ∧ q <+: q' ∧
      s'.currentTask = s.currentTask := by
  have h0 : QueueInv { s with tickCount := (s.tickCount + 1) % 2 ^ 64 } q :=
    h.of_same rfl rfl rfl rfl rfl rfl rfl (fun _ ht => ht)
  obtain ⟨q', hw⟩ := wakeup_schedCheckSleepers ((s.tickCount + 1) % 2 ^ 64) h0
  have hg' := hw.rest.inSched.trans hg
  refine ⟨_, q', ?_, hw.inv, hg', hw.grows, hw.rest.currentTask⟩
  unfold schedTick
  rw [if_pos hg']

theorem QueueInv.queued_of_mem (h : QueueInv s q) (ht : t ∈ q) : Queued s t :=
  ⟨h.ready t ht, q, h.queue, ht⟩

theorem staysQueued_of_inSched (n : Nat) :
    ∀ (s : Sched) (q : List TaskId), QueueInv s q → s.inSched = true → t ∈ q →
      StaysQueued t s (List.replicate n .tick) := by
  induction n with
  | zero => exact fun s q h _ ht => h.queued_of_mem ht
  | succ n ih =>
    intro s q h hg ht
    obtain ⟨s', q', hs', hinv, hg', hgrows, hcur⟩ := schedTick_of_inSched h hg
    exact ⟨h.queued_of_mem ht, trivial, s', hs', fun _ => hcur,
      ih s' q' hinv hg' (hgrows.subset ht)⟩

theorem staysQueued_of_idleExpiry (h : Preemptible s q) (hx : IdleExpiry s)
    (ht : s.stateOf t = .blocked) (hk : t < s.nextPid) : ∃ s', schedTick s = some s' ∧
      ∀ n, StaysQueued t (schedUnblock s' t) (List.replicate n .tick) := by
  obtain ⟨s', hs', hinv, hg, hstate, hpid⟩ := schedTick_idleExpiry h hx
  refine ⟨s', hs', fun n => ?_⟩
  obtain ⟨q', hw, hq'⟩ := wakeup_schedUnblock hinv (t := t) (by rw [hpid]; exact hk)
  refine staysQueued_of_inSched n _ q' hw.inv (hw.rest.inSched.trans hg) ?_
  rw [hq' (by rw [hstate]; exact ht)]
  exact List.mem_append_right q List.mem_cons_self

end

def PreemptOp.KeepsGuard (s : Sched) : PreemptOp → Prop
  | .tick => ¬ IdleExpiry s
  | _ => True

def PreemptReachable (s0 : Sched) : Sched → Prop :=
  Relation.ReflTransGen
    (fun s s' => ∃ op : PreemptOp, op.Allowed s ∧ op.KeepsGuard s ∧ preemptStep s op = some s') s0

variable {s : Sched} {q : List TaskId} {t : TaskId} {op : PreemptOp}

theorem preemptible_wakeStep (h : Preemptible s q) (ha : op.Allowed s)
    (hop : op ≠ .tick) : ∃ s' q', preemptStep s op = some s' ∧ Preemptible s' q' ∧
      s'.currentTask = s.currentTask ∧ ∀ x, (s'.tasks x).timeSlice = (s.tasks x).timeSlice := by
  cases op with
  | tick => exact absurd rfl hop
  | checkSleepers tick =>
    obtain ⟨q', hw⟩ := wakeup_schedCheckSleepers tick h.inv
    exact ⟨_, q', rfl, h.wake hw, hw.rest.currentTask, hw.rest.timeSlice⟩
  | unblock t =>
    obtain ⟨q', hw, -⟩ := wakeup_schedUnblock h.inv ha
    exact ⟨_, q', rfl, h.wake hw, hw.rest.currentTask, hw.rest.timeSlice⟩

theorem preemptible_preemptStep (h : Preemptible s q) (ha : op.Allowed s)
    (hk : op.KeepsGuard s) : ∃ s' q', preemptStep s op = some s' ∧ Preemptible s' q' := by
  by_cases hop : op = .tick
  · subst hop
    obtain ⟨s', q', hs', hp, -⟩ := preemptible_schedTick h hk
    exact ⟨s', q', hs', hp⟩
  · obtain ⟨s', q', hs', hp, -⟩ := preemptible_wakeStep h ha hop
    exact ⟨s', q', hs', hp⟩

theorem preemptible_of_reachable {s0 : Sched} {q0 : List TaskId} (h0 : Preemptible s0 q0)
    (hr : PreemptReachable s0 s) : ∃ q, Preemptible s q := by
  induction hr with
  | refl => exact ⟨q0, h0⟩
  | tail _ hstep ih =>
    obtain ⟨q, hq⟩ := ih
    obtain ⟨op, ha, hk, hs⟩ := hstep
    obtain ⟨s', q', hs', hp⟩ := preemptible_preemptStep hq ha hk
    rw [hs] at hs'
    cases hs'
    exact ⟨q', hp⟩

theorem Queued.not_idleExpiry (ht : Queued s t) : ¬ IdleExpiry s := by
  rintro ⟨-, -, hhead, -⟩
  obtain ⟨-, q', hq', hmem⟩ := ht
  rw [hq'.head] at hhead
  rw [List.head?_eq_none_iff.mp hhead] at hmem
  cases hmem

theorem StaysQueued.ticks_le_timeSlice :
    ∀ (ops : List PreemptOp) (s : Sched) (q : List TaskId), Preemptible s q →
      StaysQueued t s ops → ticks ops ≤ (s.tasks s.currentTask).timeSlice - 1 := by
  intro ops
  induction ops with
  | nil => exact fun s q _ _ => Nat.zero_le _
  | cons op ops ih =>
    rintro s q h ⟨ht, ha, s', hs', hstay, hrest⟩
    by_cases hop : op = .tick
    · subst hop
      obtain ⟨s'', q'', hs'', hp, hslice⟩ := preemptible_schedTick h (ht.not_idleExpiry)
      cases hs'.symm.trans hs''
      have hle := ih s' q'' hp hrest
      have hone := hslice (hstay rfl)
      rw [ticks, List.count_cons_self]
      rw [ticks] at hle
      omega
    · obtain ⟨s'', q'', hs'', hp, hcur, hslice⟩ := preemptible_wakeStep h ha hop
      cases hs'.symm.trans hs''
      have hle := ih s' q'' hp hrest
      rw [hcur, hslice] at hle
      rw [ticks, List.count_cons_of_ne hop]
      exact hle

/-- **No task starves** in a run from a state between two calls in which no
tick falls on an idle expiry: a queued task sees at most `defaultTimeslice`
ticks in a row that switch nothing. After a tick that does fall on one, every
task that is woken waits for ever. -/
theorem ticks_le_of_staysQueued {s0 s : Sched} {q0 : List TaskId} (h0 : Preemptible s0 q0)
    (hr : PreemptReachable s0 s) :
    (∀ t ops, StaysQueued t s ops → ticks ops ≤ defaultTimeslice) ∧
      (IdleExpiry s → ∀ t, s.stateOf t = .blocked → t < s.nextPid →
        ∃ s', schedTick s = some s' ∧
          ∀ n, StaysQueued t (schedUnblock s' t) (List.replicate n .tick)) := by
  obtain ⟨q, h⟩ := preemptible_of_reachable h0 hr
  refine ⟨fun t ops hst => ?_, fun hx t ht hk => staysQueued_of_idleExpiry h hx ht hk⟩
  exact (StaysQueued.ticks_le_timeSlice ops s q h hst).trans (Nat.sub_le_of_le_add h.slice)

theorem ticks_le_after_yield :
    ∃ s, schedYield (schedInit 16384 32768) = some s ∧ StaysQueued 0 s [.tick, .tick] ∧
      ticks [.tick, .tick] ≤ defaultTimeslice := by
  have hr : SchedReachable 16384 32768 _ := .tail .refl ⟨.yield, trivial, trivial, rfl⟩
  obtain ⟨q, hq⟩ := queueInv_of_reachable hr
  have hst : StaysQueued 0 ((schedYield (schedInit 16384 32768)).get rfl) [.tick, .tick] :=
    ⟨⟨rfl, [0], ⟨.singleton rfl rfl, rfl⟩, List.mem_cons_self⟩, trivial, _, rfl, fun _ => rfl,
      ⟨rfl, [0], ⟨.singleton rfl rfl, rfl⟩, List.mem_cons_self⟩, trivial, _, rfl, fun _ => rfl,
      ⟨rfl, [0], ⟨.singleton rfl rfl, rfl⟩, List.mem_cons_self⟩⟩
  exact ⟨_, rfl, hst, (ticks_le_of_staysQueued ⟨hq, rfl, rfl, by decide⟩ .refl).1 0 _ hst⟩

def idleLastTick : Sched where
  tasks t :=
    if t = 0 then { zeroTask with state := .blocked, timeSlice := 1, kernelStack := 16384 }
    else if t = 1 then { zeroTask with state := .running, timeSlice := 1, kernelStack := 32768 }
    else zeroTask
  nextPid := 2
  idleTask := 1
  currentTask := 1
  runQueueHead := none
  tickCount := 19
  inSched := false
  sleepList := []
  tssRsp0 := 32768
  syscallKernelRsp := 32768

theorem preemptible_idleLastTick : Preemptible idleLastTick [] := by
  refine ⟨⟨⟨.nil, rfl⟩, ?_, by simp, ?_, by simp, by simp [idleLastTick], by decide, by decide⟩,
    rfl, rfl, by decide⟩
  · intro x _
    simp only [idleLastTick, Sched.nextOf, Sched.prevOf]
    split
    · exact ⟨rfl, rfl⟩
    · split <;> exact ⟨rfl, rfl⟩
  · intro x hx
    simp only [idleLastTick, Sched.stateOf] at hx
    split at hx
    · cases hx
    · split at hx <;> cases hx

/-- One tick, then a wake-up: the boot task stays queued through more ticks
than a time slice has, and none of them switches to it. -/
theorem starved_after_idleExpiry :
    Preemptible idleLastTick [] ∧
      ∃ s, preemptStep idleLastTick .tick = some s ∧ (PreemptOp.unblock 0).Allowed s ∧
        StaysQueued 0 (schedUnblock s 0) (List.replicate 21 .tick) ∧
        defaultTimeslice < ticks (List.replicate 21 .tick) := by
  have hx : IdleExpiry idleLastTick := ⟨rfl, by decide, rfl, fun t ht => by cases ht.1⟩
  obtain ⟨s, hs, hst⟩ :=
    staysQueued_of_idleExpiry preemptible_idleLastTick hx (t := 0) rfl (by decide)
  refine ⟨preemptible_idleLastTick, s, hs, ?_, hst 21, by decide⟩
  cases hs
  exact Nat.zero_lt_two

end DevOs
