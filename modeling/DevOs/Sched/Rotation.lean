import DevOs.Sched.Preempt
import DevOs.Sched.States
import Mathlib.Data.List.Rotate

/-!
Round robin: the order in which `sched_yield` and `sched_tick` dispatch the tasks.
-/

namespace DevOs

open Machine

inductive TurnOp where
  | yield
  | tick
  deriving DecidableEq, Repr

def turnStep (s : Sched) : TurnOp → Option Sched
  | .yield => schedYield s
  | .tick => schedTick s

def dispatched : Sched → List TurnOp → List TaskId
  | _, [] => []
  | s, op :: ops =>
    match turnStep s op with
    | none => []
    | some s' =>
      if s'.currentTask = s.currentTask then dispatched s' ops
      else s'.currentTask :: dispatched s' ops

def TurnOp.WakesNone (s : Sched) : TurnOp → Prop
  | .yield => True
  | .tick => ∀ t, ¬ Due s ((s.tickCount + 1) % 2 ^ 64) t

/-- The run queue is `q`, all of it ready, and a task that is not in it is running. The
last field says that tasks have been created at all. -/
structure Rotating (s : Sched) (q : List TaskId) : Prop where
  queue : IsQueue s q
  ready : ∀ t ∈ q, s.stateOf t = .ready
  running : s.stateOf s.currentTask = .running
  created : 0 < s.nextPid

/-- From the queue `q` and the running task `c` to `s'`: the same task goes on, or the
first of the queue is dispatched and `c` is queued. -/
def Turned (c : TaskId) (q : List TaskId) (s' : Sched) : Prop :=
  s'.currentTask = c ∧ Rotating s' q ∨
    ∃ head r, q = head :: r ∧ head ≠ c ∧ s'.currentTask = head ∧ Rotating s' (r ++ [c])

variable {s s' : Sched} {q r : List TaskId} {head : TaskId}

theorem Rotating.not_mem (h : Rotating s q) : s.currentTask ∉ q := by
  intro hmem
  have hr := h.ready _ hmem
  rw [h.running] at hr
  cases hr

theorem Rotating.of_same (h : Rotating s q) (hn : ∀ x, s'.nextOf x = s.nextOf x)
    (hp : ∀ x, s'.prevOf x = s.prevOf x) (hs : ∀ x, s'.stateOf x = s.stateOf x)
    (hh : s'.runQueueHead = s.runQueueHead) (hc : s'.currentTask = s.currentTask)
    (hpid : s'.nextPid = s.nextPid) : Rotating s' q := by
  refine ⟨⟨h.queue.ring.frame (fun x _ => hn x) (fun x _ => hp x), hh.trans h.queue.head⟩,
    fun t ht => (hs t).trans (h.ready t ht), ?_, hpid ▸ h.created⟩
  rw [hc, hs]
  exact h.running

theorem Rotating.pick (h : Rotating s (head :: r)) : schedPickNext s = some head := by
  have hhead : s.runQueueHead = some head := h.queue.head
  obtain ⟨n, hn⟩ := Nat.exists_eq_add_one_of_ne_zero (Nat.ne_of_gt h.created)
  simp [schedPickNext, hhead, hn, pickLoop, h.ready head List.mem_cons_self]

theorem Rotating.putBack (h : Rotating s q) (hc : s.currentTask ≠ s.idleTask) :
    IsQueue (putBack s s.currentTask) (q ++ [s.currentTask]) := by
  have heq : DevOs.putBack s s.currentTask =
      runQueueAdd (s.setState s.currentTask .ready) s.currentTask := by
    have hi : s.currentTask ≠ (s.setState s.currentTask .ready).idleTask := hc
    simp [DevOs.putBack, h.running, hi]
  rw [heq]
  exact isQueue_runQueueAdd ⟨h.queue.ring.frame (by simp) (by simp), h.queue.head⟩ h.not_mem

theorem Rotating.reschedule (h : Rotating s q) (hne : q ≠ []) (hc : s.currentTask ≠ s.idleTask) :
    ∃ s', reschedule s = some s' ∧ s'.idleTask = s.idleTask ∧ Turned s.currentTask q s' := by
  obtain ⟨head, r, rfl⟩ := List.exists_cons_of_ne_nil hne
  have hg : Rotating { s with inSched := true } (head :: r) :=
    h.of_same (fun _ => rfl) (fun _ => rfl) (fun _ => rfl) rfl rfl rfl
  have hhead : head ≠ s.currentTask := fun hc => h.not_mem (hc ▸ List.mem_cons_self)
  have hout : head ∉ r := (List.nodup_cons.mp h.queue.ring.nodup).1
  obtain ⟨hidle, hpid⟩ := sameOwner_schedDoSwitch { s with inSched := true } head
  have hcur := currentTask_schedDoSwitch (s := { s with inSched := true }) hhead
  have hst := stateOf_schedDoSwitch (s := { s with inSched := true }) hhead
  have hq := isQueue_runQueueRemove (l := []) (hg.putBack hc)
  refine ⟨_, by rw [DevOs.reschedule, hg.pick]; rfl, hidle, .inr ⟨head, r, rfl, hhead, hcur, ?_,
    fun t ht => ?_, ?_, Nat.lt_of_lt_of_eq h.created hpid.symm⟩⟩
  · rw [schedDoSwitch, if_neg hhead]
    exact ⟨hq.ring.frame (by simp) (by simp), hq.head⟩
  · rw [hst]
    have := hg.ready t
    have := hg.running
    grind
  · rw [hcur, hst, if_pos rfl]

theorem Rotating.wakes {tick : Nat} {w : List TaskId} (h : Rotating s q)
    (hw : Wakes tick s s' w) : Rotating s' (q ++ w) := by
  have hblocked : ∀ t ∈ w, s.stateOf t = .blocked := fun t ht => ((hw.due t).mp ht).2.1
  have hout : ∀ t ∈ w, t ∉ q := by
    intro t ht hmem
    exact absurd ((hblocked t ht).symm.trans (h.ready t hmem)) (by decide)
  refine ⟨(hw.queue q h.queue hout).1, fun t ht => ?_, ?_, hw.rest.nextPid ▸ h.created⟩
  · rw [hw.states]
    split
    · rfl
    · next hnot => exact h.ready t ((List.mem_append.mp ht).resolve_right hnot)
  · rw [hw.rest.currentTask, hw.states, if_neg]
    · exact h.running
    · intro hmem
      exact absurd ((hblocked _ hmem).symm.trans h.running) (by decide)

theorem Rotating.charge (h : Rotating s q) (t : TaskId) : Rotating (s.modify t chargeTick) q := by
  have hcharge : ∀ k : Task, (chargeTick k).next = k.next ∧ (chargeTick k).prev = k.prev := by
    intro k
    unfold chargeTick
    split <;> exact ⟨rfl, rfl⟩
  refine h.of_same (fun x => ?_) (fun x => ?_) (stateOf_charge s t) rfl rfl rfl
  · simp only [Sched.modify, Sched.nextOf]
    split <;> simp [hcharge]
  · simp only [Sched.modify, Sched.prevOf]
    split <;> simp [hcharge]

theorem Rotating.chargeAndSwitch (h : Rotating s q) (hne : q ≠ [])
    (hc : s.currentTask ≠ s.idleTask) :
    ∃ s', chargeAndSwitch s = some s' ∧ s'.idleTask = s.idleTask ∧ Turned s.currentTask q s' := by
  have hcharge := h.charge s.currentTask
  unfold DevOs.chargeAndSwitch
  dsimp only
  split
  · exact hcharge.reschedule hne hc
  · exact ⟨_, rfl, rfl, .inl ⟨rfl, hcharge⟩⟩

/-- **One call** with a task in the queue: a tick may wake sleepers, which are queued
behind the others, and then the first task of the queue may be dispatched. -/
theorem Rotating.turn (h : Rotating s q) (hne : q ≠ []) (hc : s.currentTask ≠ s.idleTask)
    (op : TurnOp) :
    ∃ s' w, turnStep s op = some s' ∧ s'.idleTask = s.idleTask ∧ (op.WakesNone s → w = []) ∧
      Turned s.currentTask (q ++ w) s' := by
  cases op with
  | yield =>
    obtain ⟨s', hs, hidle, hturn⟩ := h.reschedule hne hc
    exact ⟨s', [], hs, hidle, fun _ => rfl, by rwa [List.append_nil]⟩
  | tick =>
    have hcount : Rotating { s with tickCount := (s.tickCount + 1) % 2 ^ 64 } q :=
      h.of_same (fun _ => rfl) (fun _ => rfl) (fun _ => rfl) rfl rfl rfl
    obtain ⟨w, hw⟩ := wakes_schedCheckSleepers
      { s with tickCount := (s.tickCount + 1) % 2 ^ 64 } ((s.tickCount + 1) % 2 ^ 64)
    have hnone : TurnOp.WakesNone s .tick → w = [] := fun hn =>
      List.eq_nil_iff_forall_not_mem.mpr fun t ht => hn t ((hw.due t).mp ht)
    have hwake := hcount.wakes hw
    have hcur := hw.rest.currentTask
    have hidle := hw.rest.idleTask
    have heq : turnStep s .tick = schedTick s := rfl
    rw [heq]
    unfold schedTick
    dsimp only
    split
    · exact ⟨_, w, rfl, hidle, hnone, .inl ⟨hcur, hwake⟩⟩
    · obtain ⟨s', hs, hidle', hturn⟩ := hwake.chargeAndSwitch
        (List.append_ne_nil_of_left_ne_nil hne w) (by rw [hcur, hidle]; exact hc)
      rw [hcur] at hturn
      exact ⟨s', w, hs, hidle'.trans hidle, hnone, hturn⟩

theorem dispatched_cons {op : TurnOp} (hs : turnStep s op = some s') (ops : List TurnOp) :
    dispatched s (op :: ops) = if s'.currentTask = s.currentTask then dispatched s' ops
      else s'.currentTask :: dispatched s' ops := by
  rw [dispatched, hs]

theorem Rotating.fifo (ops : List TurnOp) :
    ∀ {s : Sched} (l : List TaskId) {rest : List TaskId}, Rotating s (l ++ rest) →
      s.currentTask ≠ s.idleTask → s.idleTask ∉ l →
      (dispatched s ops).take l.length = l.take (dispatched s ops).length := by
  induction ops with
  | nil => simp [dispatched]
  | cons op ops ih =>
    intro s l rest h hc hidle
    cases l with
    | nil => simp
    | cons x l =>
      obtain ⟨s', w, hs, hi, -, hturn⟩ := h.turn (by simp) hc op
      rw [dispatched_cons hs]
      obtain ⟨hcur, hrot⟩ | ⟨head, r, hq, hne, hcur, hrot⟩ := hturn
      · rw [if_pos hcur]
        rw [List.append_assoc] at hrot
        exact ih (x :: l) hrot (by rw [hcur, hi]; exact hc) (by rw [hi]; exact hidle)
      · obtain ⟨rfl, rfl⟩ : x = head ∧ l ++ rest ++ w = r := by simpa using hq
        rw [if_neg (by rw [hcur]; exact hne), hcur]
        have htail := ih l (by simpa using hrot) (by rw [hcur, hi]; rintro rfl; simp at hidle)
          (by rw [hi]; simp at hidle; exact hidle.2)
        simpa using htail

theorem Rotating.rotate (ops : List TurnOp) :
    ∀ {s : Sched} {q : List TaskId}, Rotating s q → q ≠ [] → s.idleTask ∉ s.currentTask :: q →
      Steps turnStep TurnOp.WakesNone s ops →
      ∃ s' q', ops.foldlM turnStep s = some s' ∧ Rotating s' q' ∧
        q' ++ [s'.currentTask] = (q ++ [s.currentTask]).rotate (dispatched s ops).length ∧
        ∀ i < (dispatched s ops).length,
          (dispatched s ops)[i]? = (q ++ [s.currentTask])[i % (q.length + 1)]? := by
  induction ops with
  | nil =>
    intro s q h _ _ _
    exact ⟨s, q, rfl, h, by simp [dispatched], by simp [dispatched]⟩
  | cons op ops ih =>
    intro s q h hne hidle hsteps
    have hc : s.currentTask ≠ s.idleTask := fun hc => hidle (by simp [hc])
    obtain ⟨s1, w, hs, hi, hnone, hturn⟩ := h.turn hne hc op
    obtain ⟨hquiet, hsteps⟩ := hsteps s1 hs
    rw [hnone hquiet, List.append_nil] at hturn
    rw [List.foldlM_cons, hs, dispatched_cons hs]
    obtain ⟨hcur, hrot⟩ | ⟨head, r, rfl, hhead, hcur, hrot⟩ := hturn
    · -- the same task goes on
      obtain ⟨s', q', hrun, hrot', hring, horder⟩ :=
        ih hrot hne (by rw [hi, hcur]; exact hidle) hsteps
      rw [if_pos hcur]
      rw [hcur] at hring horder
      exact ⟨s', q', hrun, hrot', hring, horder⟩
    · have hring1 : r ++ [s.currentTask] ++ [head] = (head :: r ++ [s.currentTask]).rotate 1 := by
        simp
      obtain ⟨s', q', hrun, hrot', hring, horder⟩ := ih hrot (by simp)
        (by rw [hi, hcur]; simp at hidle ⊢; tauto) hsteps
      rw [if_neg (by rw [hcur]; exact hhead), List.length_cons]
      rw [hcur, hring1] at hring horder
      refine ⟨s', q', hrun, hrot', ?_, fun i hlt => ?_⟩
      · rw [hring, List.rotate_rotate, Nat.add_comm]
      · cases i with
        | zero => simp [hcur]
        | succ i =>
          rw [List.getElem?_cons_succ, horder i (by omega), List.getElem?_rotate]
          · simp
          · have hlen : (head :: r ++ [s.currentTask]).length =
                (r ++ [s.currentTask]).length + 1 := by simp
            rw [hlen]
            exact Nat.mod_lt _ (Nat.succ_pos _)

theorem take_drop_eq_rotate {α : Type*} {d l : List α} {n i : Nat} (hn : l.length = n)
    (h : ∀ i < d.length, d[i]? = l[i % n]?) (hi : i + n ≤ d.length) :
    (d.drop i).take n = l.rotate i := by
  apply List.ext_getElem?
  intro j
  by_cases hj : j < n
  · rw [List.getElem?_take_of_lt hj, List.getElem?_drop, h (i + j) (by omega),
      List.getElem?_rotate (by omega), hn, Nat.add_comm]
  · rw [List.getElem?_eq_none (by simp; omega), List.getElem?_eq_none (by simp; omega)]

/-- **Round robin.** The queue `q` is not empty, and neither a task of it nor the
running one is the idle task. Then calls of `sched_yield` and `sched_tick` dispatch the
tasks of `q` first, in their order. If none of the calls wakes a sleeper, they
dispatch `q`, the running task, `q` and so on for ever, the queue always holds the
other tasks in the order of the rotation, and each of the tasks runs once in as many
consecutive switches as there are tasks. -/
theorem roundRobin {s : Sched} {q : List TaskId} (h : Rotating s q) (hne : q ≠ [])
    (hidle : s.idleTask ∉ s.currentTask :: q) (ops : List TurnOp) :
    (dispatched s ops).take q.length = q.take (dispatched s ops).length ∧
      (Steps turnStep TurnOp.WakesNone s ops →
        (∃ s' q', ops.foldlM turnStep s = some s' ∧ Rotating s' q' ∧
          q' ++ [s'.currentTask] = (q ++ [s.currentTask]).rotate (dispatched s ops).length) ∧
        (∀ i < (dispatched s ops).length,
          (dispatched s ops)[i]? = (q ++ [s.currentTask])[i % (q.length + 1)]?) ∧
        ∀ i, i + (q.length + 1) ≤ (dispatched s ops).length →
          (((dispatched s ops).drop i).take (q.length + 1)).Perm (q ++ [s.currentTask])) := by
  have hc : s.currentTask ≠ s.idleTask := fun hc => hidle (by simp [hc])
  have hout : s.idleTask ∉ q := fun hc => hidle (List.mem_cons_of_mem _ hc)
  have hfront : Rotating s (q ++ []) := by rwa [List.append_nil]
  refine ⟨Rotating.fifo ops q hfront hc hout, fun hsteps => ?_⟩
  obtain ⟨s', q', hrun, hrot, hring, horder⟩ := Rotating.rotate ops h hne hidle hsteps
  refine ⟨⟨s', q', hrun, hrot, hring⟩, horder, fun i hi => ?_⟩
  rw [take_drop_eq_rotate (by simp) horder hi]
  exact List.rotate_perm _ i

def taskTwoRuns : Sched :=
  ([SchedOp.create 300, .enqueue 2, .yield, .yield].foldlM schedStep (schedInit 100 200)).getD
    (schedInit 100 200)

theorem roundRobin_two_tasks :
    taskTwoRuns.currentTask = 2 ∧ Rotating taskTwoRuns [0] ∧
      ∃ s' q', [TurnOp.yield, .tick, .yield, .yield].foldlM turnStep taskTwoRuns = some s' ∧
        Rotating s' q' ∧ q' ++ [s'.currentTask] = ([0] ++ [2]).rotate
          (dispatched taskTwoRuns [.yield, .tick, .yield, .yield]).length := by
  have hrot : Rotating taskTwoRuns [0] := ⟨⟨.singleton rfl rfl, rfl⟩, by decide, rfl, by decide⟩
  have hquiet : Steps turnStep TurnOp.WakesNone taskTwoRuns
      [.yield, .tick, .yield, .yield] :=
    .cons rfl trivial (.cons rfl (fun t hd => List.not_mem_nil hd.1)
      (.cons rfl trivial (.cons rfl trivial trivial)))
  exact ⟨rfl, hrot, ((roundRobin hrot (by decide) (by decide) _).2 hquiet).1⟩

/-- Task 2 sleeps until tick 1, task 3 runs and the boot task is queued: after a tick, two
switches do not dispatch the boot task and task 3, but the boot task and task 2. -/
theorem sleeper_joins_rotation :
    ∃ s, [SchedOp.create 300, .create 400, .enqueue 2, .enqueue 3, .yield, .yield,
        .block 2 1].foldlM schedStep (schedInit 100 200) = some s ∧
      Rotating s [0] ∧ s.currentTask = 3 ∧ s.idleTask ∉ s.currentTask :: [0] ∧
      dispatched s [.tick, .yield, .yield] = [0, 2] ∧
      (dispatched s [.tick, .yield, .yield])[1]? ≠ ([0] ++ [s.currentTask])[1 % 2]? :=
  ⟨_, rfl, ⟨⟨.singleton rfl rfl, rfl⟩, by decide, rfl, by decide⟩, rfl, by decide,
    by decide +kernel,
    by decide +kernel⟩

end DevOs
