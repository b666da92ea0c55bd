import DevOs.Lib.Links
import Mathlib.Algebra.Group.Nat.Defs
import Mathlib.Logic.Function.Basic

/-!
The task records of `kernel/sched/sched.h`, the static state of
`kernel/sched/sched.c` and its run queue.
-/

namespace DevOs

open Intrusive

abbrev TaskId := Nat

inductive TaskState where
  | created
  | ready
  | running
  | blocked
  | zombie
  | dead
  deriving DecidableEq, Repr

/-- The fields of `task_t` that the scheduler reads or writes. -/
structure Task where
  kernelStack : Nat
  state : TaskState
  timeSlice : Nat
  totalTicks : Nat
  wakeTick : Nat
  next : Option TaskId
  prev : Option TaskId
  deriving DecidableEq, Repr

def defaultTimeslice : Nat := 20

def sleepListMax : Nat := 256

/-- The static variables of `sched.c`, with the task records they point at.
`sleepList` holds the entries `sleep_list[0 .. sleep_list_cnt)`; `tssRsp0` and
`syscallKernelRsp` are the two copies of the running task's kernel stack that
a switch writes (`gdt_set_kernel_stack`, `syscall_kernel_rsp`). -/
structure Sched where
  tasks : TaskId → Task
  nextPid : Nat
  idleTask : TaskId
  currentTask : TaskId
  runQueueHead : Option TaskId
  tickCount : Nat
  inSched : Bool
  sleepList : List TaskId
  tssRsp0 : Nat
  syscallKernelRsp : Nat

namespace Sched

/-- `t->field = ...` for a task that is known to exist. -/
def modify (s : Sched) (t : TaskId) (f : Task → Task) : Sched :=
  { s with tasks := fun x => if x = t then f (s.tasks x) else s.tasks x }

/-- `t->state = st`. -/
def setState (s : Sched) (t : TaskId) (st : TaskState) : Sched :=
  s.modify t fun k => { k with state := st }

/-- `p->next = v`, where `p` may be null. -/
def setNext (s : Sched) (p v : Option TaskId) : Sched :=
  match p with
  | none => s
  | some t => s.modify t fun k => { k with next := v }

/-- `p->prev = v`, where `p` may be null. -/
def setPrev (s : Sched) (p v : Option TaskId) : Sched :=
  match p with
  | none => s
  | some t => s.modify t fun k => { k with prev := v }

/-- `run_queue_head = v`. -/
def setHead (s : Sched) (v : Option TaskId) : Sched := { s with runQueueHead := v }

def nextOf (s : Sched) (t : TaskId) : Option TaskId := (s.tasks t).next

def prevOf (s : Sched) (t : TaskId) : Option TaskId := (s.tasks t).prev

def stateOf (s : Sched) (t : TaskId) : TaskState := (s.tasks t).state

end Sched

def runQueueAdd (s : Sched) (t : TaskId) : Sched :=
  match s.runQueueHead with
  | none =>
    let s := s.setNext (some t) (some t)
    let s := s.setPrev (some t) (some t)
    let s := s.setHead (some t)
    s.setState t .ready
  | some head =>
    let tail := s.prevOf head
    let s := s.setNext tail (some t)
    let s := s.setPrev (some t) tail
    let s := s.setNext (some t) (some head)
    let s := s.setPrev (some head) (some t)
    s.setState t .ready

def runQueueRemove (s : Sched) (t : TaskId) : Sched :=
  let s :=
    if s.nextOf t = some t then
      s.setHead none
    else
      let s := s.setNext (s.prevOf t) (s.nextOf t)
      let s := s.setPrev (s.nextOf t) (s.prevOf t)
      if s.runQueueHead = some t then s.setHead (s.nextOf t) else s
  let s := s.setPrev (some t) none
  s.setNext (some t) none

namespace Sched

variable (s : Sched) (t x : TaskId) (p v : Option TaskId) (st : TaskState) (f : Task → Task)

@[simp] theorem nextOf_setNext_some :
    (s.setNext (some t) v).nextOf x = if x = t then v else s.nextOf x := by
  simp only [setNext, modify, nextOf]; split <;> rfl

@[simp] theorem prevOf_setPrev_some :
    (s.setPrev (some t) v).prevOf x = if x = t then v else s.prevOf x := by
  simp only [setPrev, modify, prevOf]; split <;> rfl

@[simp] theorem setNext_none : s.setNext none v = s := rfl

@[simp] theorem setPrev_none : s.setPrev none v = s := rfl

@[simp] theorem nextOf_setPrev : (s.setPrev p v).nextOf x = s.nextOf x := by
  cases p with
  | none => rfl
  | some t => simp only [setPrev, modify, nextOf]; split <;> rfl

@[simp] theorem prevOf_setNext : (s.setNext p v).prevOf x = s.prevOf x := by
  cases p with
  | none => rfl
  | some t => simp only [setNext, modify, prevOf]; split <;> rfl

@[simp] theorem stateOf_setNext : (s.setNext p v).stateOf x = s.stateOf x := by
  cases p with
  | none => rfl
  | some t => simp only [setNext, modify, stateOf]; split <;> rfl

@[simp] theorem stateOf_setPrev : (s.setPrev p v).stateOf x = s.stateOf x := by
  cases p with
  | none => rfl
  | some t => simp only [setPrev, modify, stateOf]; split <;> rfl

@[simp] theorem stateOf_setState :
    (s.setState t st).stateOf x = if x = t then st else s.stateOf x := by
  simp only [setState, modify, stateOf]; split <;> rfl

@[simp] theorem nextOf_setState : (s.setState t st).nextOf x = s.nextOf x := by
  simp only [setState, modify, nextOf]; split <;> rfl

@[simp] theorem prevOf_setState : (s.setState t st).prevOf x = s.prevOf x := by
  simp only [setState, modify, prevOf]; split <;> rfl

@[simp] theorem nextOf_setHead : (s.setHead v).nextOf x = s.nextOf x := rfl

@[simp] theorem prevOf_setHead : (s.setHead v).prevOf x = s.prevOf x := rfl

@[simp] theorem stateOf_setHead : (s.setHead v).stateOf x = s.stateOf x := rfl

@[simp] theorem runQueueHead_setHead : (s.setHead v).runQueueHead = v := rfl

@[simp] theorem runQueueHead_setNext : (s.setNext p v).runQueueHead = s.runQueueHead := by
  cases p <;> rfl

@[simp] theorem runQueueHead_setPrev : (s.setPrev p v).runQueueHead = s.runQueueHead := by
  cases p <;> rfl

@[simp] theorem sleepList_setNext : (s.setNext p v).sleepList = s.sleepList := by
  cases p <;> rfl

@[simp] theorem sleepList_setPrev : (s.setPrev p v).sleepList = s.sleepList := by
  cases p <;> rfl

@[simp] theorem sleepList_setState : (s.setState t st).sleepList = s.sleepList := rfl

@[simp] theorem sleepList_setHead : (s.setHead v).sleepList = s.sleepList := rfl

@[simp] theorem runQueueHead_setState : (s.setState t st).runQueueHead = s.runQueueHead := rfl

end Sched

/-! ## What the operations leave alone -/

/-- What the queue operations leave alone: they only ever write `next`, `prev`
and `state` of task records and, of the static variables, `runQueueHead` and
the sleep list. -/
structure SameRest (s s' : Sched) : Prop where
  kernelStack : ∀ x, (s'.tasks x).kernelStack = (s.tasks x).kernelStack
  timeSlice : ∀ x, (s'.tasks x).timeSlice = (s.tasks x).timeSlice
  totalTicks : ∀ x, (s'.tasks x).totalTicks = (s.tasks x).totalTicks
  wakeTick : ∀ x, (s'.tasks x).wakeTick = (s.tasks x).wakeTick
  nextPid : s'.nextPid = s.nextPid
  idleTask : s'.idleTask = s.idleTask
  currentTask : s'.currentTask = s.currentTask
  tickCount : s'.tickCount = s.tickCount
  inSched : s'.inSched = s.inSched
  tssRsp0 : s'.tssRsp0 = s.tssRsp0
  syscallKernelRsp : s'.syscallKernelRsp = s.syscallKernelRsp

namespace SameRest

variable {s s' s'' : Sched}

theorem refl (s : Sched) : SameRest s s := by constructor <;> intros <;> rfl

theorem trans (h : SameRest s s') (h' : SameRest s' s'') : SameRest s s'' where
  kernelStack x := (h'.kernelStack x).trans (h.kernelStack x)
  timeSlice x := (h'.timeSlice x).trans (h.timeSlice x)
  totalTicks x := (h'.totalTicks x).trans (h.totalTicks x)
  wakeTick x := (h'.wakeTick x).trans (h.wakeTick x)
  nextPid := h'.nextPid.trans h.nextPid
  idleTask := h'.idleTask.trans h.idleTask
  currentTask := h'.currentTask.trans h.currentTask
  tickCount := h'.tickCount.trans h.tickCount
  inSched := h'.inSched.trans h.inSched
  tssRsp0 := h'.tssRsp0.trans h.tssRsp0
  syscallKernelRsp := h'.syscallKernelRsp.trans h.syscallKernelRsp

theorem modify (s : Sched) (t : TaskId) (f : Task → Task)
    (hf : ∀ k, (f k).kernelStack = k.kernelStack ∧ (f k).timeSlice = k.timeSlice ∧
      (f k).totalTicks = k.totalTicks ∧ (f k).wakeTick = k.wakeTick) :
    SameRest s (s.modify t f) := by
  constructor <;> intros <;> simp only [Sched.modify] <;> split <;> simp [hf]

theorem setNext (s : Sched) (p v : Option TaskId) : SameRest s (s.setNext p v) := by
  cases p with
  | none => exact .refl s
  | some t => exact modify s t (fun k => { k with next := v }) (fun _ => ⟨rfl, rfl, rfl, rfl⟩)

theorem setPrev (s : Sched) (p v : Option TaskId) : SameRest s (s.setPrev p v) := by
  cases p with
  | none => exact .refl s
  | some t => exact modify s t (fun k => { k with prev := v }) (fun _ => ⟨rfl, rfl, rfl, rfl⟩)

theorem setState (s : Sched) (t : TaskId) (st : TaskState) : SameRest s (s.setState t st) :=
  modify s t (fun k => { k with state := st }) (fun _ => ⟨rfl, rfl, rfl, rfl⟩)

theorem setHead (s : Sched) (v : Option TaskId) : SameRest s (s.setHead v) := by
  constructor <;> intros <;> rfl

end SameRest

/-! ## The queue as a list -/

/-- The run queue of `s` is the circular list `q`, entered at its first
task. -/
structure IsQueue (s : Sched) (q : List TaskId) : Prop where
  ring : Ring s.nextOf s.prevOf q
  head : s.runQueueHead = q.head?

def Unlinked (s : Sched) (q : List TaskId) : Prop :=
  ∀ t ∉ q, s.nextOf t = none ∧ s.prevOf t = none

section

variable {s : Sched} {q : List TaskId} {t : TaskId}

theorem stateOf_runQueueAdd (s : Sched) (t x : TaskId) :
    (runQueueAdd s t).stateOf x = if x = t then .ready else s.stateOf x := by
  unfold runQueueAdd
  split <;> simp

theorem sameRest_runQueueAdd (s : Sched) (t : TaskId) : SameRest s (runQueueAdd s t) := by
  unfold runQueueAdd
  split
  · exact (((SameRest.setNext s _ _).trans (.setPrev _ _ _)).trans (.setHead _ _)).trans
      (.setState _ _ _)
  · exact ((((SameRest.setNext s _ _).trans (.setPrev _ _ _)).trans (.setNext _ _ _)).trans
      (.setPrev _ _ _)).trans (.setState _ _ _)

@[simp] theorem sleepList_runQueueAdd (s : Sched) (t : TaskId) :
    (runQueueAdd s t).sleepList = s.sleepList := by
  unfold runQueueAdd
  split <;> simp

/-! ## Adding a task -/

theorem links_runQueueAdd (h : IsQueue s q) {x : TaskId} (hx : x ∉ q) (hxt : x ≠ t) :
    (runQueueAdd s t).nextOf x = s.nextOf x ∧ (runQueueAdd s t).prevOf x = s.prevOf x := by
  unfold runQueueAdd
  split
  · simp [hxt]
  · next head hhead =>
      have hh : head ∈ q.head? := by rw [← h.head]; exact hhead
      have hxh : x ≠ head := by
        rintro rfl; exact hx (List.mem_of_mem_head? hh)
      have hne : q ≠ [] := by
        rintro rfl; simp at hh
      have hl : q.getLast hne ∈ q.getLast? := List.getLast?_eq_some_getLast hne
      have hxl : x ≠ q.getLast hne := by
        rintro rfl; exact hx (List.getLast_mem hne)
      have htail : s.prevOf head = some (q.getLast hne) := (h.ring.prev_head hh hl).2
      simp [htail, hxt, hxh, hxl]

/-- The new task is the last one. -/
theorem isQueue_runQueueAdd (h : IsQueue s q) (ht : t ∉ q) :
    IsQueue (runQueueAdd s t) (q ++ [t]) := by
  rcases q with _ | ⟨head, q⟩
  · -- the first task of an empty queue points at itself
    have hhead : s.runQueueHead = none := h.head
    refine ⟨.singleton ?_ ?_, ?_⟩ <;> simp [runQueueAdd, hhead]
  · have hhead : s.runQueueHead = some head := h.head
    have hne : head :: q ≠ [] := List.cons_ne_nil head q
    have hl := List.getLast?_eq_some_getLast hne
    have hlm := List.getLast_mem hne
    generalize (head :: q).getLast hne = l at hl hlm
    have hh : head ∈ (head :: q).head? := rfl
    have htail : s.prevOf head = some l := (h.ring.prev_head hh hl).2
    have hth : t ≠ head := by
      rintro rfl; exact ht List.mem_cons_self
    have htl : t ≠ l := by
      rintro rfl; exact ht hlm
    refine ⟨h.ring.concat hh hl ht ?_ ?_ ?_ ?_ ?_ ?_, ?_⟩
    · simp [runQueueAdd, hhead, htail, Ne.symm htl]
    · simp [runQueueAdd, hhead, htail, hth]
    · simp [runQueueAdd, hhead, htail]
    · simp [runQueueAdd, hhead, htail]
    · intro x hx hxl
      have hxt : x ≠ t := by
        rintro rfl; exact ht hx
      simp [runQueueAdd, hhead, htail, hxl, hxt]
    · intro x hx hxh
      have hxt : x ≠ t := by
        rintro rfl; exact ht hx
      simp [runQueueAdd, hhead, htail, hxh, hxt]
    · simp [runQueueAdd, hhead]

theorem unlinked_runQueueAdd (h : IsQueue s q) (hu : Unlinked s q) :
    Unlinked (runQueueAdd s t) (q ++ [t]) := by
  intro x hx
  rw [List.mem_append, List.mem_singleton, not_or] at hx
  obtain ⟨hn, hp⟩ := links_runQueueAdd (t := t) h hx.1 hx.2
  rw [hn, hp]
  exact hu x hx.1

end

variable {s : Sched} {q l r : List TaskId} {t : TaskId}

/-! ## Removing a task -/

theorem stateOf_runQueueRemove (s : Sched) (t x : TaskId) :
    (runQueueRemove s t).stateOf x = s.stateOf x := by
  unfold runQueueRemove
  simp only [Sched.stateOf_setNext, Sched.stateOf_setPrev]
  split
  · simp
  · split <;> simp

theorem sameRest_runQueueRemove (s : Sched) (t : TaskId) : SameRest s (runQueueRemove s t) := by
  unfold runQueueRemove
  refine .trans (.trans ?_ (.setPrev _ _ _)) (.setNext _ _ _)
  split
  · exact .setHead _ _
  · have h := (SameRest.setNext s (s.prevOf t) (s.nextOf t)).trans
      (.setPrev _ ((s.setNext (s.prevOf t) (s.nextOf t)).nextOf t)
        ((s.setNext (s.prevOf t) (s.nextOf t)).prevOf t))
    dsimp only
    split
    · exact h.trans (.setHead _ _)
    · exact h

@[simp] theorem sleepList_runQueueRemove (s : Sched) (t : TaskId) :
    (runQueueRemove s t).sleepList = s.sleepList := by
  unfold runQueueRemove
  simp only [Sched.sleepList_setNext, Sched.sleepList_setPrev]
  split
  · rfl
  · split <;> simp

theorem runQueueRemove_unlinked (hn : s.nextOf t = none) (hp : s.prevOf t = none)
    (hh : s.runQueueHead ≠ some t) : runQueueRemove s t = s := by
  have hnp : s.setPrev (some t) none = s := by
    simp only [Sched.setPrev, Sched.modify]
    congr 1
    funext x
    split
    · next h => subst h; rw [← hp]; rfl
    · rfl
  have hnn : s.setNext (some t) none = s := by
    simp only [Sched.setNext, Sched.modify]
    congr 1
    funext x
    split
    · next h => subst h; rw [← hn]; rfl
    · rfl
  simp [runQueueRemove, hn, hp, hh, hnp, hnn]

theorem links_runQueueRemove {a b : TaskId} (hnx : s.nextOf t = some b) (hpx : s.prevOf t = some a)
    (hta : t ≠ a) (htb : t ≠ b) (x : TaskId) : (runQueueRemove s t).nextOf x =
        (if x = t then none else if x = a then some b else s.nextOf x) ∧
      (runQueueRemove s t).prevOf x =
        (if x = t then none else if x = b then some a else s.prevOf x) := by
  by_cases hh : s.runQueueHead = some t <;>
    simp [runQueueRemove, hnx, hpx, Ne.symm htb, hta, hh]

theorem links_runQueueRemove_self (hnx : s.nextOf t = some t) (x : TaskId) :
    (runQueueRemove s t).nextOf x = (if x = t then none else s.nextOf x) ∧
      (runQueueRemove s t).prevOf x = (if x = t then none else s.prevOf x) := by
  simp [runQueueRemove, hnx]

section

variable (h : IsQueue s (l ++ t :: r))
include h

theorem not_mem_of_isQueue : t ∉ l ++ r := by
  have hnd := h.ring.nodup
  rw [List.nodup_middle] at hnd
  exact (List.nodup_cons.mp hnd).1

/-- The others keep their order. -/
theorem isQueue_runQueueRemove : IsQueue (runQueueRemove s t) (l ++ r) := by
  have ht := not_mem_of_isQueue h
  by_cases hne : l ++ r = []
  · -- the only task of the queue
    obtain ⟨rfl, rfl⟩ := List.append_eq_nil_iff.mp hne
    have hself : s.nextOf t = some t := (h.ring.next_self_iff (by simp)).mpr rfl
    refine ⟨.nil, ?_⟩
    simp [runQueueRemove, hself]
  · obtain ⟨a, ha, b, hb, hnx, hpx⟩ := h.ring.neighbours hne
    have hta : t ≠ a := by rintro rfl; exact ht ha
    have htb : t ≠ b := by rintro rfl; exact ht hb
    have hlinks := links_runQueueRemove hnx hpx hta htb
    have hmem : ∀ x ∈ l ++ r, x ≠ t := by rintro x hx rfl; exact ht hx
    refine ⟨h.ring.erase hne hnx hpx ?_ ?_ ?_ ?_, ?_⟩
    · rw [(hlinks a).1, if_neg (Ne.symm hta), if_pos rfl]
    · rw [(hlinks b).2, if_neg (Ne.symm htb), if_pos rfl]
    · intro x hx hxa
      rw [(hlinks x).1, if_neg (hmem x hx), if_neg hxa]
    · intro x hx hxb
      rw [(hlinks x).2, if_neg (hmem x hx), if_neg hxb]
    · -- the head moves on only when it was the task removed
      rcases l with _ | ⟨c, l⟩
      · have hh : s.runQueueHead = some t := h.head
        have hrb : b ∈ r.head? := by
          rcases r with _ | ⟨c, r⟩
          · simp at hne
          · have := (List.isChain_cons_cons.mp h.ring.chain).1.1
            rw [hnx] at this
            simpa using this.symm
        simp [runQueueRemove, hnx, hpx, Ne.symm htb, hta, hh, Option.mem_def.mp hrb]
      · have hh : s.runQueueHead = some c := h.head
        have hct : c ≠ t := hmem c (by simp)
        simp [runQueueRemove, hnx, hpx, Ne.symm htb, hta, hh, hct]

theorem links_runQueueRemove_outside {x : TaskId} (hx : x ∉ l ++ r) :
    (runQueueRemove s t).nextOf x = (if x = t then none else s.nextOf x) ∧
      (runQueueRemove s t).prevOf x = (if x = t then none else s.prevOf x) := by
  have ht := not_mem_of_isQueue h
  by_cases hne : l ++ r = []
  · obtain ⟨rfl, rfl⟩ := List.append_eq_nil_iff.mp hne
    exact links_runQueueRemove_self ((h.ring.next_self_iff (by simp)).mpr rfl) x
  · obtain ⟨a, ha, b, hb, hnx, hpx⟩ := h.ring.neighbours hne
    have hta : t ≠ a := by rintro rfl; exact ht ha
    have htb : t ≠ b := by rintro rfl; exact ht hb
    have hxa : x ≠ a := by rintro rfl; exact hx ha
    have hxb : x ≠ b := by rintro rfl; exact hx hb
    have hlinks := links_runQueueRemove hnx hpx hta htb x
    rwa [if_neg hxa, if_neg hxb] at hlinks

theorem unlinked_runQueueRemove (hu : Unlinked s (l ++ t :: r)) :
    Unlinked (runQueueRemove s t) (l ++ r) := by
  intro x hx
  rw [(links_runQueueRemove_outside h hx).1, (links_runQueueRemove_outside h hx).2]
  split
  · exact ⟨rfl, rfl⟩
  · next hxt =>
      refine hu x ?_
      simp only [List.mem_append, List.mem_cons] at hx ⊢
      tauto

theorem head_runQueueRemove :
    (runQueueRemove s t).runQueueHead =
      if l = [] ∧ r = [] then none else if l = [] then s.nextOf t else s.runQueueHead := by
  have hafter := (isQueue_runQueueRemove h).head
  rcases l with _ | ⟨c, l⟩
  · rcases r with _ | ⟨b, r⟩
    · simpa using hafter
    · have hnx : s.nextOf t = some b := (List.isChain_cons_cons.mp h.ring.chain).1.1
      simpa [hnx] using hafter
  · have hh : s.runQueueHead = some c := h.head
    simpa [hh] using hafter

end

/-- **The run queue is a list.** `run_queue_add` appends to it and `run_queue_remove`
takes one task out, and neither writes to a task that is not concerned. -/
theorem runQueue_is_list (s : Sched) (q : List TaskId) (h : IsQueue s q) :
    (∀ t ∉ q, IsQueue (runQueueAdd s t) (q ++ [t]) ∧
      (runQueueAdd s t).runQueueHead = (if q = [] then some t else s.runQueueHead) ∧
      ∀ x ∉ q, x ≠ t → (runQueueAdd s t).nextOf x = s.nextOf x ∧
        (runQueueAdd s t).prevOf x = s.prevOf x) ∧
    ∀ l t r, q = l ++ t :: r → IsQueue (runQueueRemove s t) (l ++ r) ∧
      (runQueueRemove s t).runQueueHead =
        (if q = [t] then none else if l = [] then s.nextOf t else s.runQueueHead) ∧
      ∀ x ∉ q, (runQueueRemove s t).nextOf x = s.nextOf x ∧
        (runQueueRemove s t).prevOf x = s.prevOf x := by
  constructor
  · intro t ht
    refine ⟨isQueue_runQueueAdd h ht, ?_, fun x hx hxt => links_runQueueAdd h hx hxt⟩
    rw [(isQueue_runQueueAdd h ht).head, h.head]
    cases q <;> simp
  · rintro l t r rfl
    refine ⟨isQueue_runQueueRemove h, ?_, fun x hx => ?_⟩
    · have hone : l ++ t :: r = [t] ↔ l = [] ∧ r = [] := by
        cases l <;> simp
      rw [head_runQueueRemove h]
      simp only [hone]
    · rw [List.mem_append, List.mem_cons, not_or, not_or] at hx
      have hlinks := links_runQueueRemove_outside h (x := x) (by simp [hx])
      rwa [if_neg hx.2.1, if_neg hx.2.1] at hlinks

def noneReady : Sched where
  tasks := fun _ => ⟨0, .created, defaultTimeslice, 0, 0, none, none⟩
  nextPid := 1
  idleTask := 0
  currentTask := 0
  runQueueHead := none
  tickCount := 0
  inSched := false
  sleepList := []
  tssRsp0 := 0
  syscallKernelRsp := 0

theorem runQueue_two_tasks :
    IsQueue (runQueueAdd (runQueueAdd (runQueueAdd noneReady 1) 2) 3) [1, 2, 3] ∧
      IsQueue (runQueueRemove (runQueueAdd (runQueueAdd noneReady 1) 2) 1) [2] := by
  have hone : IsQueue (runQueueAdd noneReady 1) [1] :=
    isQueue_runQueueAdd ⟨.nil, rfl⟩ List.not_mem_nil
  have htwo : IsQueue (runQueueAdd (runQueueAdd noneReady 1) 2) [1, 2] :=
    isQueue_runQueueAdd hone (by decide)
  have hlist := runQueue_is_list _ _ htwo
  exact ⟨(hlist.1 3 (by decide)).1, (hlist.2 [] 1 [2] rfl).1⟩

theorem isQueue_erase (h : IsQueue s q) (hu : Unlinked s q) (t : TaskId) :
    IsQueue (runQueueRemove s t) (q.erase t) ∧ Unlinked (runQueueRemove s t) (q.erase t) := by
  by_cases ht : t ∈ q
  · obtain ⟨l, r, rfl⟩ := List.append_of_mem ht
    have hl : t ∉ l := fun hmem => not_mem_of_isQueue h (List.mem_append_left r hmem)
    have he : (l ++ t :: r).erase t = l ++ r := by
      rw [List.erase_append_right _ hl, List.erase_cons_head]
    rw [he]
    exact ⟨isQueue_runQueueRemove h, unlinked_runQueueRemove h hu⟩
  · have hh : s.runQueueHead ≠ some t := by
      rw [h.head]
      intro hmem
      exact ht (List.mem_of_mem_head? hmem)
    rw [runQueueRemove_unlinked (hu t ht).1 (hu t ht).2 hh, List.erase_of_not_mem ht]
    exact ⟨h, hu⟩

end DevOs
