import DevOs.Sched.Invariant

/-!
What the code around the scheduler sees of a call to it, whatever the run queue looks like: it
keeps the kernel stack of every task, hands on that of the new task with the CPU, and makes no
pointer to a task record that does not exist.
-/

namespace DevOs

structure Known (s : Sched) : Prop where
  next : ∀ t, ∀ u ∈ s.nextOf t, u < s.nextPid
  prev : ∀ t, ∀ u ∈ s.prevOf t, u < s.nextPid
  head : ∀ u ∈ s.runQueueHead, u < s.nextPid
  sleepers : ∀ u ∈ s.sleepList, u < s.nextPid
  idle : s.idleTask < s.nextPid
  current : s.currentTask < s.nextPid

variable {s s' s'' : Sched} {t : TaskId}

namespace Known

variable {v : Option TaskId}

variable (h : Known s)
include h

theorem setNext (p : Option TaskId) (hv : ∀ u ∈ v, u < s.nextPid) : Known (s.setNext p v) := by
  cases p with
  | none => exact h
  | some t =>
    refine ⟨fun x => ?_, fun x => ?_, h.head, h.sleepers, h.idle, h.current⟩
    · rw [Sched.nextOf_setNext_some]
      split
      · exact hv
      · exact h.next x
    · rw [Sched.prevOf_setNext]
      exact h.prev x

theorem setPrev (p : Option TaskId) (hv : ∀ u ∈ v, u < s.nextPid) : Known (s.setPrev p v) := by
  cases p with
  | none => exact h
  | some t =>
    refine ⟨fun x => ?_, fun x => ?_, h.head, h.sleepers, h.idle, h.current⟩
    · rw [Sched.nextOf_setPrev]
      exact h.next x
    · rw [Sched.prevOf_setPrev_some]
      split
      · exact hv
      · exact h.prev x

theorem setHead (hv : ∀ u ∈ v, u < s.nextPid) : Known (s.setHead v) :=
  ⟨h.next, h.prev, hv, h.sleepers, h.idle, h.current⟩

theorem modify {f : Task → Task}
    (hf : ∀ k, (f k).next = k.next ∧ (f k).prev = k.prev) : Known (s.modify t f) := by
  have hn : ∀ x, (s.modify t f).nextOf x = s.nextOf x := fun x => by
    simp only [Sched.modify, Sched.nextOf]
    split <;> simp [hf]
  have hp : ∀ x, (s.modify t f).prevOf x = s.prevOf x := fun x => by
    simp only [Sched.modify, Sched.prevOf]
    split <;> simp [hf]
  exact ⟨fun x => hn x ▸ h.next x, fun x => hp x ▸ h.prev x, h.head, h.sleepers, h.idle, h.current⟩

theorem setState (st : TaskState) : Known (s.setState t st) :=
  h.modify fun _ => ⟨rfl, rfl⟩

end Known

theorem known_runQueueAdd (h : Known s) (ht : t < s.nextPid) : Known (runQueueAdd s t) := by
  have htv : ∀ u ∈ some t, u < s.nextPid := by simpa using ht
  unfold runQueueAdd
  split
  · exact (((h.setNext _ htv).setPrev _ htv).setHead htv).setState .ready
  · rename_i head hhead
    have hhv : ∀ u ∈ some head, u < s.nextPid := by simpa using h.head head hhead
    dsimp only
    cases htail : s.prevOf head with
    | none =>
      exact (((h.setPrev _ (by simp)).setNext _ hhv).setPrev _ htv).setState .ready
    | some tail =>
      have hv := htail ▸ h.prev head
      exact ((((h.setNext (some tail) htv).setPrev (some t) hv).setNext (some t) hhv).setPrev
        (some head) htv).setState .ready

theorem known_runQueueRemove (h : Known s) : Known (runQueueRemove s t) := by
  -- both neighbours of `t` are known, so the list that skips it is
  have hskip : Known ((s.setNext (s.prevOf t) (s.nextOf t)).setPrev
      ((s.setNext (s.prevOf t) (s.nextOf t)).nextOf t)
      ((s.setNext (s.prevOf t) (s.nextOf t)).prevOf t)) := by
    have hpid : (s.setNext (s.prevOf t) (s.nextOf t)).nextPid = s.nextPid :=
      (SameRest.setNext s _ _).nextPid
    refine (h.setNext _ (h.next t)).setPrev _ ?_
    rw [Sched.prevOf_setNext, hpid]
    exact h.prev t
  have hout : ∀ u : Sched, Known u → Known ((u.setPrev (some t) none).setNext (some t) none) :=
    fun u hu => (hu.setPrev _ (by simp)).setNext _ (by simp)
  unfold runQueueRemove
  dsimp only
  split
  · exact hout _ (h.setHead (by simp))
  · split
    · exact hout _ (hskip.setHead (hskip.next t))
    · exact hout _ hskip

theorem known_pickLoop (h : Known s) {start : TaskId} :
    ∀ (n : Nat) {u : TaskId}, u < s.nextPid → pickLoop s start n u = some t → t < s.nextPid
  | 0, _, _, hp => by cases hp
  | n + 1, u, hu, hp => by
    unfold pickLoop at hp
    split at hp
    · cases hp
      exact hu
    · split at hp
      · cases hp
      · rename_i v hv
        split at hp
        · cases hp
          exact h.idle
        · exact known_pickLoop h n (h.next u v hv) hp

theorem known_schedPickNext (h : Known s) (hp : schedPickNext s = some t) : t < s.nextPid := by
  unfold schedPickNext at hp
  split at hp
  · cases hp
    exact h.idle
  · rename_i head hhead
    exact known_pickLoop h _ (h.head head hhead) hp

/-- A scheduler call as the rest of the kernel sees it: either the CPU stays
with its task, or `syscallKernelRsp` is the kernel stack of the new one. -/
structure Handover (s s' : Sched) : Prop where
  kernelStack : ∀ x, (s'.tasks x).kernelStack = (s.tasks x).kernelStack
  nextPid : s'.nextPid = s.nextPid
  stack : (s'.currentTask = s.currentTask ∧ s'.syscallKernelRsp = s.syscallKernelRsp) ∨
    s'.syscallKernelRsp = (s'.tasks s'.currentTask).kernelStack
  known : Known s'

namespace Handover

theorem trans (h : Handover s s') (h' : Handover s' s'') : Handover s s'' where
  kernelStack x := (h'.kernelStack x).trans (h.kernelStack x)
  nextPid := h'.nextPid.trans h.nextPid
  stack := by
    rcases h'.stack with ⟨hc', hk'⟩ | hnew
    · rcases h.stack with ⟨hc, hk⟩ | hnew
      · exact .inl ⟨hc'.trans hc, hk'.trans hk⟩
      · exact .inr (by rw [hk', hnew, hc', h'.kernelStack])
    · exact .inr hnew
  known := h'.known

theorem of_sameRest (h : SameRest s s') (hk : Known s') : Handover s s' :=
  ⟨h.kernelStack, h.nextPid, .inl ⟨h.currentTask, h.syscallKernelRsp⟩, hk⟩

theorem refl (h : Known s) : Handover s s := .of_sameRest (.refl s) h

theorem modify {f : Task → Task} (h : Known s)
    (hf : ∀ k, (f k).kernelStack = k.kernelStack ∧ (f k).next = k.next ∧ (f k).prev = k.prev) :
    Handover s (s.modify t f) := by
  refine ⟨fun x => ?_, rfl, .inl ⟨rfl, rfl⟩, h.modify fun k => (hf k).2⟩
  simp only [Sched.modify]
  split <;> simp [hf]

theorem runQueueAdd (h : Known s) (ht : t < s.nextPid) : Handover s (runQueueAdd s t) :=
  .of_sameRest (sameRest_runQueueAdd s t) (known_runQueueAdd h ht)

theorem runQueueRemove (h : Known s) : Handover s (runQueueRemove s t) :=
  .of_sameRest (sameRest_runQueueRemove s t) (known_runQueueRemove h)

theorem setState (h : Known s) (st : TaskState) : Handover s (s.setState t st) :=
  .modify h fun _ => ⟨rfl, rfl, rfl⟩

theorem dispatch (h : Known s) (ht : t < s.nextPid) : Handover s (dispatch s t) :=
  ⟨fun _ => rfl, rfl, .inr rfl, h.next, h.prev, h.head, h.sleepers, h.idle, ht⟩

end Handover

theorem handover_putBack (h : Known s) : Handover s (putBack s s.currentTask) := by
  unfold putBack
  split
  · have hready := Handover.setState (t := s.currentTask) h .ready
    dsimp only
    split
    · exact hready.trans (.runQueueAdd hready.known h.current)
    · exact hready
  · exact .refl h

theorem handover_makeRunning (h : Known s) (ht : t < s.nextPid) : Handover s (makeRunning s t) := by
  have hmod : Handover s
      (s.modify t fun k => { k with state := .running, timeSlice := defaultTimeslice }) :=
    .modify h fun _ => ⟨rfl, rfl, rfl⟩
  obtain ⟨hks, hpid, hstack, hk⟩ := hmod.trans (.dispatch hmod.known ht)
  exact ⟨hks, hpid, hstack, hk.next, hk.prev, hk.head, hk.sleepers, hk.idle, hk.current⟩

theorem handover_schedDoSwitch (h : Known s) (ht : t < s.nextPid) :
    Handover s (schedDoSwitch s t) := by
  unfold schedDoSwitch
  split
  · exact .refl h
  · have hput := handover_putBack h
    have hremove := hput.trans (.runQueueRemove (t := t) hput.known)
    exact hremove.trans (handover_makeRunning hremove.known (hremove.nextPid ▸ ht))

theorem handover_reschedule (hk : Known s) (h : reschedule s = some s') : Handover s s' := by
  obtain ⟨next, hnext, rfl⟩ := Option.map_eq_some_iff.1 h
  have hguard : Handover s { s with inSched := true } :=
    ⟨fun _ => rfl, rfl, .inl ⟨rfl, rfl⟩, hk.next, hk.prev, hk.head, hk.sleepers, hk.idle,
      hk.current⟩
  exact hguard.trans (handover_schedDoSwitch hguard.known (known_schedPickNext hguard.known hnext))

theorem handover_schedUnblock (h : Known s) (ht : t < s.nextPid) :
    Handover s (schedUnblock s t) := by
  unfold schedUnblock
  split
  · exact .runQueueAdd h ht
  · exact .refl h

theorem Handover.of_static (h : Handover s s') (htasks : s''.tasks = s'.tasks)
    (hpid : s''.nextPid = s'.nextPid) (hhead : s''.runQueueHead = s'.runQueueHead)
    (hidle : s''.idleTask = s'.idleTask) (hcur : s''.currentTask = s'.currentTask)
    (hrsp : s''.syscallKernelRsp = s'.syscallKernelRsp)
    (hsleep : ∀ u ∈ s''.sleepList, u < s'.nextPid) : Handover s s'' := by
  refine ⟨fun x => by rw [htasks, h.kernelStack], by rw [hpid, h.nextPid],
    by rw [hcur, hrsp, htasks]; exact h.stack, ?_, ?_, ?_, ?_, ?_, ?_⟩
  · simp only [Sched.nextOf, htasks, hpid]
    exact h.known.next
  · simp only [Sched.prevOf, htasks, hpid]
    exact h.known.prev
  · rw [hhead, hpid]
    exact h.known.head
  · rw [hpid]
    exact hsleep
  · rw [hidle, hpid]
    exact h.known.idle
  · rw [hcur, hpid]
    exact h.known.current

theorem handover_checkSleepersLoop (tick : Nat) :
    ∀ (n i : Nat) {s : Sched}, Known s → Handover s (checkSleepersLoop tick n i s)
  | 0, _, _, h => .refl h
  | n + 1, i, s, h => by
    unfold checkSleepersLoop
    split
    · exact .refl h
    · rename_i t ht
      split
      · have hwake := handover_schedUnblock h (h.sleepers t (List.mem_of_getElem? ht))
        have hdrop : Handover s (wakeAt s i t) :=
          hwake.of_static rfl rfl rfl rfl rfl rfl fun u hu => by
            rw [hwake.nextPid]
            exact h.sleepers u ((entries_wakeAt ht).subset (List.mem_cons_of_mem t hu))
        exact hdrop.trans (handover_checkSleepersLoop tick n i hdrop.known)
      · exact handover_checkSleepersLoop tick n (i + 1) h

theorem handover_charge (h : Known s) : Handover s (s.modify t chargeTick) :=
  .modify h fun k => by
    unfold chargeTick
    split <;> exact ⟨rfl, rfl, rfl⟩

theorem handover_schedTick (hk : Known s) (h : schedTick s = some s') : Handover s s' := by
  have hcount : Handover s { s with tickCount := (s.tickCount + 1) % 2 ^ 64 } :=
    (Handover.refl hk).of_static rfl rfl rfl rfl rfl rfl hk.sleepers
  have hwake := hcount.trans
    (handover_checkSleepersLoop ((s.tickCount + 1) % 2 ^ 64) s.sleepList.length 0 hcount.known)
  obtain ⟨s1, rfl, hs⟩ := schedTick_cases h
  have hcharge := fun t => hwake.trans (handover_charge (t := t) hwake.known)
  obtain rfl | rfl | hs := hs
  · exact hwake
  · exact hcharge _
  · exact (hcharge _).trans (handover_reschedule (hcharge _).known hs)

theorem handover_sleepListAdd (h : Known s) (ht : t < s.nextPid) :
    Handover s (sleepListAdd s t) := by
  unfold sleepListAdd
  split
  · refine (Handover.refl h).of_static rfl rfl rfl rfl rfl rfl fun u hu => ?_
    rcases List.mem_append.1 hu with hu | hu
    · exact h.sleepers u hu
    · exact List.mem_singleton.1 hu ▸ ht
  · exact .refl h

theorem handover_schedBlock {wakeTick : Nat} (hk : Known s) (ht : t < s.nextPid)
    (h : schedBlock s t wakeTick = some s') : Handover s s' := by
  have hmark : Handover s (markBlocked s t wakeTick) := .modify hk fun _ => ⟨rfl, rfl, rfl⟩
  have hremove := hmark.trans (.runQueueRemove (t := t) hmark.known)
  have hsleep := hremove.trans (handover_sleepListAdd hremove.known (hremove.nextPid ▸ ht))
  simp only [schedBlock] at h
  split at h
  · exact hsleep.trans (handover_reschedule hsleep.known h)
  · cases h
    exact hsleep

theorem handover_schedExit (hk : Known s) (h : schedExit s = some s') : Handover s s' := by
  obtain ⟨next, hnext, rfl⟩ := Option.map_eq_some_iff.1 h
  have hzombie := Handover.setState (t := s.currentTask) hk .zombie
  have hretire : Handover s (retireCurrent s) := hzombie.trans (.runQueueRemove hzombie.known)
  have hrun := hretire.trans (.setState (t := next) hretire.known .running)
  have hlt : next < (retireCurrent s).nextPid := known_schedPickNext hretire.known hnext
  exact hrun.trans (.dispatch hrun.known hlt)

def SchedOp.target? : SchedOp → Option TaskId
  | .enqueue t => some t
  | .block t _ => some t
  | .unblock t => some t
  | _ => none

theorem handover_schedStep {op : SchedOp} (hk : Known s) (hop : ∀ k, op ≠ .create k)
    (ht : ∀ t ∈ op.target?, t < s.nextPid) (h : schedStep s op = some s') : Handover s s' := by
  cases op with
  | create k => exact absurd rfl (hop k)
  | enqueue t =>
    cases h
    exact .runQueueAdd hk (ht t rfl)
  | yield => exact handover_reschedule hk h
  | tick => exact handover_schedTick hk h
  | block t wakeTick => exact handover_schedBlock hk (ht t rfl) h
  | unblock t =>
    cases h
    exact handover_schedUnblock hk (ht t rfl)
  | exit => exact handover_schedExit hk h

theorem known_schedCreateTask (h : Known s) (kernelStack : Nat) :
    Known (schedCreateTask s kernelStack) := by
  have hlink : ∀ x, ((schedCreateTask s kernelStack).nextOf x = none ∨
      (schedCreateTask s kernelStack).nextOf x = s.nextOf x) ∧
      ((schedCreateTask s kernelStack).prevOf x = none ∨
      (schedCreateTask s kernelStack).prevOf x = s.prevOf x) := fun x => by
    by_cases hx : x = s.nextPid <;>
      simp [schedCreateTask, Sched.modify, Sched.nextOf, Sched.prevOf, zeroTask, hx]
  have hlt : ∀ {u}, u < s.nextPid → u < (schedCreateTask s kernelStack).nextPid :=
    fun hu => Nat.lt_succ_of_lt hu
  constructor
  · intro x u hu
    rcases (hlink x).1 with hn | hn <;> rw [hn] at hu
    · cases hu
    · exact hlt (h.next x u hu)
  · intro x u hu
    rcases (hlink x).2 with hp | hp <;> rw [hp] at hu
    · cases hu
    · exact hlt (h.prev x u hu)
  · exact fun u hu => hlt (h.head u hu)
  · exact fun u hu => hlt (h.sleepers u hu)
  · exact hlt h.idle
  · exact hlt h.current

theorem known_schedInit (bootStack idleStack : Nat) : Known (schedInit bootStack idleStack) := by
  have hboot : Known (bootState bootStack) := by
    constructor <;> simp [bootState, Sched.nextOf, Sched.prevOf]
    · intro t u
      split <;> simp [zeroTask]
    · intro t u
      split <;> simp [zeroTask]
  have hc := known_schedCreateTask hboot idleStack
  have hset : Known { schedCreateTask (bootState bootStack) idleStack with idleTask := 1 } :=
    ⟨hc.next, hc.prev, hc.head, hc.sleepers, Nat.one_lt_two, hc.current⟩
  exact known_runQueueAdd hset hset.idle

end DevOs
