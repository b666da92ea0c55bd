import DevOs.Sched.Queue

/-!
The scheduler of `kernel/sched/sched.c` as a state machine: `sched_init`, the
creation of tasks, the pick and the switch, and the six entry points.
-/

namespace DevOs

def zeroTask : Task where
  kernelStack := 0
  state := .created
  timeSlice := 0
  totalTicks := 0
  wakeTick := 0
  next := none
  prev := none

/-- `sched_create_task` (the user variant differs in fields the scheduler
does not read), given the kernel stack that the heap handed out. -/
def schedCreateTask (s : Sched) (kernelStack : Nat) : Sched :=
  let s := s.modify s.nextPid fun _ =>
    { zeroTask with kernelStack := kernelStack, timeSlice := defaultTimeslice }
  { s with nextPid := s.nextPid + 1 }

/-- The state in which `sched_init` creates the idle task: the boot task is
the only one. -/
def bootState (bootStack : Nat) : Sched where
  tasks t := if t = 0 then
    { zeroTask with state := .running, timeSlice := 1, kernelStack := bootStack } else zeroTask
  nextPid := 1
  idleTask := 0
  currentTask := 0
  runQueueHead := none
  tickCount := 0
  inSched := false
  sleepList := []
  tssRsp0 := 0
  syscallKernelRsp := 0

/-- `sched_init`: the boot task runs, the idle task is queued. -/
def schedInit (bootStack idleStack : Nat) : Sched :=
  let s := schedCreateTask (bootState bootStack) idleStack
  let s := { s with idleTask := 1 }
  runQueueAdd s s.idleTask

def schedEnqueue (s : Sched) (t : TaskId) : Sched := runQueueAdd s t

/-- The loop of `sched_pick_next` from task `t` on, over a list that was
entered at `start`. A circular list has at most as many tasks as there are
records, so a walk longer than that has no end. -/
def pickLoop (s : Sched) (start : TaskId) : Nat → TaskId → Option TaskId
  | 0, _ => none
  | n + 1, t =>
    if s.stateOf t = .ready then some t
    else match s.nextOf t with
      | none => none
      | some u => if u = start then some s.idleTask else pickLoop s start n u

def schedPickNext (s : Sched) : Option TaskId :=
  match s.runQueueHead with
  | none => some s.idleTask
  | some head => pickLoop s head s.nextPid head

/-- The part of a switch that every path shares: `next` becomes the running
task and its kernel stack the one that interrupts and system calls use. -/
def dispatch (s : Sched) (next : TaskId) : Sched :=
  { s with
    currentTask := next
    tssRsp0 := (s.tasks next).kernelStack
    syscallKernelRsp := (s.tasks next).kernelStack }

/-- The first half of `sched_do_switch`: a task that is still runnable goes
back to the queue, the idle task excepted. -/
def putBack (s : Sched) (prev : TaskId) : Sched :=
  if s.stateOf prev = .running then
    let s := s.setState prev .ready
    if prev ≠ s.idleTask then runQueueAdd s prev else s
  else s

/-- The second half of `sched_do_switch`: `next` runs, with a full time
slice. -/
def makeRunning (s : Sched) (next : TaskId) : Sched :=
  let s := s.modify next fun k => { k with state := .running, timeSlice := defaultTimeslice }
  { dispatch s next with inSched := false }

def schedDoSwitch (s : Sched) (next : TaskId) : Sched :=
  if next = s.currentTask then s
  else
    let s := putBack s s.currentTask
    let s := runQueueRemove s next
    makeRunning s next

/-- The guarded switch that `sched_tick`, `sched_yield` and `sched_block` end
in. -/
def reschedule (s : Sched) : Option Sched :=
  let s := { s with inSched := true }
  (schedPickNext s).map (schedDoSwitch s)

def schedYield (s : Sched) : Option Sched := reschedule s

def markBlocked (s : Sched) (t : TaskId) (wakeTick : Nat) : Sched :=
  s.modify t fun k => { k with state := .blocked, wakeTick := wakeTick }

def sleepListAdd (s : Sched) (t : TaskId) : Sched :=
  if s.sleepList.length < sleepListMax then { s with sleepList := s.sleepList ++ [t] } else s

def schedBlock (s : Sched) (t : TaskId) (wakeTick : Nat) : Option Sched :=
  let s := markBlocked s t wakeTick
  let s := runQueueRemove s t
  let s := sleepListAdd s t
  if t = s.currentTask then reschedule s else some s

def schedUnblock (s : Sched) (t : TaskId) : Sched :=
  if s.stateOf t = .blocked then runQueueAdd s t else s

/-- `sleep_list[i] = sleep_list[--sleep_list_cnt]`. -/
def swapRemove (l : List TaskId) (i : Nat) : List TaskId :=
  (l.set i (l.getLastD 0)).dropLast

/-- The loop of `sched_check_sleepers` from index `i` on. Every turn moves on
or shortens the list, so as many turns as the list is long are enough. -/
def checkSleepersLoop (tick : Nat) : Nat → Nat → Sched → Sched
  | 0, _, s => s
  | n + 1, i, s =>
    match s.sleepList[i]? with
    | none => s
    | some t =>
      if s.stateOf t = .blocked ∧ (s.tasks t).wakeTick ≤ tick then
        let s := schedUnblock s t
        checkSleepersLoop tick n i { s with sleepList := swapRemove s.sleepList i }
      else checkSleepersLoop tick n (i + 1) s

def schedCheckSleepers (s : Sched) (tick : Nat) : Sched :=
  checkSleepersLoop tick s.sleepList.length 0 s

def chargeTick (k : Task) : Task :=
  if 0 < k.timeSlice then
    { k with timeSlice := k.timeSlice - 1, totalTicks := (k.totalTicks + 1) % 2 ^ 64 }
  else k

def schedTick (s : Sched) : Option Sched :=
  let s := { s with tickCount := (s.tickCount + 1) % 2 ^ 64 }
  let s := schedCheckSleepers s s.tickCount
  if s.inSched then some s
  else
    let s := s.modify s.currentTask chargeTick
    if (s.tasks s.currentTask).timeSlice = 0 then reschedule s else some s

def retireCurrent (s : Sched) : Sched :=
  runQueueRemove (s.setState s.currentTask .zombie) s.currentTask

/-- `sched_exit`. Unlike `schedDoSwitch` it neither unlinks `next` nor gives
it a new time slice, and it leaves `inSched` as it is. -/
def schedExit (s : Sched) : Option Sched :=
  let s := retireCurrent s
  (schedPickNext s).map fun next => dispatch (s.setState next .running) next

inductive SchedOp where
  | create (kernelStack : Nat)
  | enqueue (t : TaskId)
  | yield
  | tick
  | block (t : TaskId) (wakeTick : Nat)
  | unblock (t : TaskId)
  | exit
  deriving DecidableEq, Repr

def schedStep (s : Sched) : SchedOp → Option Sched
  | .create kernelStack => some (schedCreateTask s kernelStack)
  | .enqueue t => some (schedEnqueue s t)
  | .yield => schedYield s
  | .tick => schedTick s
  | .block t wakeTick => schedBlock s t wakeTick
  | .unblock t => some (schedUnblock s t)
  | .exit => schedExit s

/-- What callers keep to: they pass pointers to records that exist, and they
enqueue a task once, when it has been created. -/
def SchedOp.Allowed (s : Sched) : SchedOp → Prop
  | .enqueue t => t < s.nextPid ∧ s.stateOf t = .created
  | .block t _ => t < s.nextPid
  | .unblock t => t < s.nextPid
  | _ => True

end DevOs
