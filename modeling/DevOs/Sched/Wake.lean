import DevOs.Sched.Ops
import Mathlib.Data.List.Perm.Basic

/-!
`sched_check_sleepers` of `kernel/sched/sched.c`, for any content of the sleep list.
-/

namespace DevOs

/-- `t` is a sleeper whose time has come at `tick`. -/
def Due (s : Sched) (tick : Nat) (t : TaskId) : Prop :=
  t ∈ s.sleepList ∧ s.stateOf t = .blocked ∧ (s.tasks t).wakeTick ≤ tick

/-- The state after a turn that wakes the task at index `i`. -/
def wakeAt (s : Sched) (i : Nat) (t : TaskId) : Sched :=
  { schedUnblock s t with sleepList := swapRemove (schedUnblock s t).sleepList i }

/-- From `s` to `s'` the tasks `w` are woken, in this order: they are the ones that
were due at `tick`. -/
structure Wakes (tick : Nat) (s s' : Sched) (w : List TaskId) : Prop where
  nodup : w.Nodup
  due : ∀ t, t ∈ w ↔ Due s tick t
  states : ∀ t, s'.stateOf t = if t ∈ w then .ready else s.stateOf t
  queue : ∀ q, IsQueue s q → (∀ t ∈ w, t ∉ q) →
    IsQueue s' (q ++ w) ∧ (Unlinked s q → Unlinked s' (q ++ w))
  entries : (w ++ s'.sleepList).Perm s.sleepList
  rest : SameRest s s'

variable {s s' : Sched} {t : TaskId} {tick i : Nat} {w : List TaskId}

@[simp] theorem sleepList_schedUnblock (s : Sched) (t : TaskId) :
    (schedUnblock s t).sleepList = s.sleepList := by
  unfold schedUnblock
  split <;> simp

theorem stateOf_schedUnblock (s : Sched) (t x : TaskId) : (schedUnblock s t).stateOf x =
      if x = t ∧ s.stateOf t = .blocked then .ready else s.stateOf x := by
  unfold schedUnblock
  split <;> simp [stateOf_runQueueAdd, *]

theorem sameRest_schedUnblock (s : Sched) (t : TaskId) : SameRest s (schedUnblock s t) := by
  unfold schedUnblock
  split
  · exact sameRest_runQueueAdd s t
  · exact .refl s

theorem swapRemove_perm {l : List TaskId} {i : Nat} (h : l[i]? = some t) :
    (t :: swapRemove l i).Perm l := by
  obtain ⟨hi, rfl⟩ := List.getElem?_eq_some_iff.mp h
  have hne : l ≠ [] := List.ne_nil_of_length_pos (Nat.zero_lt_of_lt hi)
  have hlast : l.getLastD 0 = l.getLast hne := by
    rw [List.getLastD_eq_getLast?, List.getLast?_eq_some_getLast hne, Option.getD_some]
  have hset : swapRemove l i ++ [l.getLast hne] = l.set i (l.getLast hne) := by
    have hne' : l.set i (l.getLast hne) ≠ [] := by simpa using hne
    have hl : (l.set i (l.getLast hne)).getLast hne' = l.getLast hne := by
      simp only [List.getLast_eq_getElem, List.getElem_set, List.length_set]
      split <;> rfl
    rw [swapRemove, hlast]
    conv_rhs => rw [← List.dropLast_append_getLast hne', hl]
  have hp : (l.getLast hne :: swapRemove l i).Perm (l.getLast hne :: l.eraseIdx i) :=
    ((List.perm_append_singleton _ _).symm.trans (.of_eq hset)).trans
      (List.set_perm_cons_eraseIdx hi _)
  exact (hp.cons_inv.cons _).trans (List.getElem_cons_eraseIdx_perm hi)

theorem stateOf_wakeAt (hb : s.stateOf t = .blocked) (x : TaskId) :
    (wakeAt s i t).stateOf x = if x = t then .ready else s.stateOf x := by
  have hst : (wakeAt s i t).stateOf x = (schedUnblock s t).stateOf x := rfl
  rw [hst, stateOf_schedUnblock]
  simp [hb]

theorem sameRest_wakeAt (s : Sched) (i : Nat) (t : TaskId) : SameRest s (wakeAt s i t) :=
  have h := sameRest_schedUnblock s t
  ⟨h.kernelStack, h.timeSlice, h.totalTicks, h.wakeTick, h.nextPid, h.idleTask, h.currentTask,
    h.tickCount, h.inSched, h.tssRsp0, h.syscallKernelRsp⟩

theorem entries_wakeAt (hi : s.sleepList[i]? = some t) :
    (t :: (wakeAt s i t).sleepList).Perm s.sleepList := by
  simpa [wakeAt] using swapRemove_perm hi

theorem getElem?_wakeAt {j : Nat} {u : TaskId} (hj : j < i)
    (hu : (wakeAt s i t).sleepList[j]? = some u) : s.sleepList[j]? = some u := by
  simp only [wakeAt, swapRemove, sleepList_schedUnblock, List.getElem?_dropLast,
    List.getElem?_set_ne (Nat.ne_of_gt hj)] at hu
  simpa using (Option.ite_none_right_eq_some.mp hu).2

theorem isQueue_wakeAt {q : List TaskId} (hq : IsQueue s q) (hb : s.stateOf t = .blocked)
    (ht : t ∉ q) : IsQueue (wakeAt s i t) (q ++ [t]) ∧
      (Unlinked s q → Unlinked (wakeAt s i t) (q ++ [t])) := by
  have heq : schedUnblock s t = runQueueAdd s t := if_pos hb
  have h := isQueue_runQueueAdd hq ht
  have hu := unlinked_runQueueAdd (t := t) hq
  rw [← heq] at h hu
  exact ⟨⟨h.ring, h.head⟩, hu⟩

theorem due_wakeAt_iff (hi : s.sleepList[i]? = some t) (hb : s.stateOf t = .blocked) (u : TaskId) :
    Due (wakeAt s i t) tick u ↔ Due s tick u ∧ u ≠ t := by
  unfold Due
  rw [stateOf_wakeAt hb, (sameRest_wakeAt s i t).wakeTick]
  by_cases hut : u = t
  · simp [hut]
  · have hmem := (entries_wakeAt hi).mem_iff (a := u)
    rw [List.mem_cons, or_iff_right hut] at hmem
    simp [hut, hmem]

theorem not_due_of_end (hdone : ∀ j < i, ∀ t, s.sleepList[j]? = some t → ¬ Due s tick t)
    (hend : s.sleepList.length ≤ i) (t : TaskId) : ¬ Due s tick t := by
  intro hd
  obtain ⟨j, hj⟩ := List.mem_iff_getElem?.mp hd.1
  have hjl := (List.getElem?_eq_some_iff.mp hj).1
  exact hdone j (by omega) t hj hd

theorem wakes_nil (h : ∀ t, ¬ Due s tick t) : Wakes tick s s [] where
  nodup := List.nodup_nil
  due t := iff_of_false (by simp) (h t)
  states t := by simp
  queue q hq _ := by simp [hq]
  entries := by simp
  rest := .refl s

theorem Wakes.cons (hi : s.sleepList[i]? = some t) (hd : Due s tick t)
    (h : Wakes tick (wakeAt s i t) s' w) : Wakes tick s s' (t :: w) := by
  have hb := hd.2.1
  have hnew : t ∉ w := fun hmem => ((due_wakeAt_iff hi hb t).mp ((h.due t).mp hmem)).2 rfl
  refine ⟨List.nodup_cons.mpr ⟨hnew, h.nodup⟩, fun u => ?_, fun u => ?_, fun q hq hout => ?_, ?_,
    (sameRest_wakeAt s i t).trans h.rest⟩
  · rw [List.mem_cons, h.due, due_wakeAt_iff hi hb]
    by_cases hut : u = t
    · simp [hut, hd]
    · simp [hut]
  · rw [h.states, stateOf_wakeAt hb]
    by_cases hut : u = t
    · simp [hut]
    · simp [hut]
  · obtain ⟨hqueue, hunlinked⟩ := isQueue_wakeAt hq hb (i := i) (hout t List.mem_cons_self)
    have happ := h.queue (q ++ [t]) hqueue fun u hu => by
      have hut : u ≠ t := fun hc => hnew (hc ▸ hu)
      simp [hut, hout u (List.mem_cons_of_mem t hu)]
    rw [List.append_assoc] at happ
    exact ⟨happ.1, fun hu => happ.2 (hunlinked hu)⟩
  · exact (h.entries.cons t).trans (entries_wakeAt hi)

theorem wakes_checkSleepersLoop (tick : Nat) :
    ∀ (n i : Nat) (s : Sched), s.sleepList.length ≤ i + n →
      (∀ j < i, ∀ t, s.sleepList[j]? = some t → ¬ Due s tick t) →
      (∃ w, Wakes tick s (checkSleepersLoop tick n i s) w) ∧
        checkSleepersLoop tick (n + 1) i s = checkSleepersLoop tick n i s := by
  intro n
  induction n with
  | zero =>
    intro i s hlen hdone
    have hend : s.sleepList[i]? = none := List.getElem?_eq_none hlen
    exact ⟨⟨[], wakes_nil (not_due_of_end hdone hlen)⟩, by simp [checkSleepersLoop, hend]⟩
  | succ n ih =>
    intro i s hlen hdone
    cases hi : s.sleepList[i]? with
    | none =>
      simp only [checkSleepersLoop, hi, and_true]
      exact ⟨[], wakes_nil (not_due_of_end hdone (List.getElem?_eq_none_iff.mp hi))⟩
    | some t =>
      have hil := (List.getElem?_eq_some_iff.mp hi).1
      by_cases hdue : s.stateOf t = .blocked ∧ (s.tasks t).wakeTick ≤ tick
      · have hd : Due s tick t := ⟨List.mem_of_getElem? hi, hdue⟩
        have hturn : ∀ k, checkSleepersLoop tick (k + 1) i s =
            checkSleepersLoop tick k i (wakeAt s i t) := by
          intro k
          simp only [checkSleepersLoop, hi, if_pos hdue]
          rfl
        have hlen' : (wakeAt s i t).sleepList.length ≤ i + n := by
          have := (entries_wakeAt hi).length_eq
          rw [List.length_cons] at this
          omega
        obtain ⟨⟨w, hw⟩, hmore⟩ := ih i (wakeAt s i t) hlen' fun j hj u hu hdu =>
          hdone j hj u (getElem?_wakeAt hj hu) ((due_wakeAt_iff hi hdue.1 u).mp hdu).1
        rw [hturn, hturn]
        exact ⟨⟨t :: w, hw.cons hi hd⟩, hmore⟩
      · have hturn : ∀ k, checkSleepersLoop tick (k + 1) i s =
            checkSleepersLoop tick k (i + 1) s := by
          intro k
          simp only [checkSleepersLoop, hi, if_neg hdue]
        rw [hturn, hturn]
        refine ih (i + 1) s (by omega) fun j hj u hu hdu => ?_
        obtain hlt | rfl := Nat.lt_succ_iff_lt_or_eq.mp hj
        · exact hdone j hlt u hu hdu
        · rw [hi] at hu
          cases hu
          exact hdue hdu.2

theorem wakes_schedCheckSleepers (s : Sched) (tick : Nat) :
    ∃ w, Wakes tick s (schedCheckSleepers s tick) w :=
  (wakes_checkSleepersLoop tick _ 0 s (by omega) (by simp)).1

theorem checkSleepersLoop_of_le {n : Nat} (hn : s.sleepList.length ≤ n) :
    checkSleepersLoop tick n 0 s = schedCheckSleepers s tick := by
  induction n, hn using Nat.le_induction with
  | base => rfl
  | succ n hn ih => rw [(wakes_checkSleepersLoop tick n 0 s (by omega) (by simp)).2, ih]

/-- **`sched_check_sleepers`** ends, and wakes precisely the listed tasks that are
due: each is appended to the run queue once and loses one entry of the list, and no
other task, entry or variable changes. -/
theorem schedCheckSleepers_wakes_due (s : Sched) (q : List TaskId) (tick : Nat) (hq : IsQueue s q)
    (hout : ∀ t ∈ s.sleepList, s.stateOf t = .blocked → t ∉ q) :
    (∀ n, s.sleepList.length ≤ n → checkSleepersLoop tick n 0 s = schedCheckSleepers s tick) ∧
      ∃ w : List TaskId, w.Nodup ∧ (∀ t, t ∈ w ↔ Due s tick t) ∧
        IsQueue (schedCheckSleepers s tick) (q ++ w) ∧
        (∀ t, (schedCheckSleepers s tick).stateOf t = if t ∈ w then .ready else s.stateOf t) ∧
        (w ++ (schedCheckSleepers s tick).sleepList).Perm s.sleepList ∧
        SameRest s (schedCheckSleepers s tick) := by
  obtain ⟨w, hw⟩ := wakes_schedCheckSleepers s tick
  have hfree : ∀ t ∈ w, t ∉ q := by
    intro t ht
    obtain ⟨hmem, hb, -⟩ := (hw.due t).mp ht
    exact hout t hmem hb
  exact ⟨fun n hn => checkSleepersLoop_of_le hn, w, hw.nodup, hw.due, (hw.queue q hq hfree).1,
    hw.states, hw.entries, hw.rest⟩

/-- Task 2 is listed twice and due at tick 5, task 3 at tick 9, and the idle task is
listed but ready. -/
def nappingState : Sched :=
  let s := (schedInit 16384 32768).modify 2 fun k => { k with state := .blocked, wakeTick := 5 }
  let s := s.modify 3 fun k => { k with state := .blocked, wakeTick := 9 }
  { s with sleepList := [2, 3, 2, 1] }

theorem schedCheckSleepers_wakes_napping :
    Due nappingState 7 2 ∧ ¬ Due nappingState 7 3 ∧ ∃ w : List TaskId, w.Nodup ∧ 2 ∈ w ∧ 3 ∉ w ∧
      IsQueue (schedCheckSleepers nappingState 7) ([1] ++ w) ∧
      (w ++ (schedCheckSleepers nappingState 7).sleepList).Perm [2, 3, 2, 1] := by
  have hdue : Due nappingState 7 2 := ⟨by decide, rfl, by decide⟩
  have hlate : ¬ Due nappingState 7 3 := fun hc => absurd hc.2.2 (by decide)
  obtain ⟨-, w, hnd, hmem, hqueue, -, hentries, -⟩ :=
    schedCheckSleepers_wakes_due nappingState [1] 7
    ⟨.singleton rfl rfl, rfl⟩ (by decide)
  exact ⟨hdue, hlate, w, hnd, (hmem 2).mpr hdue, fun hc => hlate ((hmem 3).mp hc), hqueue, hentries⟩

end DevOs
