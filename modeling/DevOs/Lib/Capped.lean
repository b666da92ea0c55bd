import Mathlib.Data.List.TakeDrop

/-!
A list that stops growing at a fixed length: an array with a counter, to which
elements are added while there is room. What is added is the first elements in
their order, however often `push` is called.
-/

structure Capped (n : Nat) (α : Type) where
  toList : List α
  length_le : toList.length ≤ n
  deriving DecidableEq, Repr

namespace Capped

variable {n : Nat} {α : Type}

def empty : Capped n α := ⟨[], Nat.zero_le n⟩

def count (t : Capped n α) : Nat := t.toList.length

/-- `if (count < n) array[count++] = a;` -/
def push (t : Capped n α) (a : α) : Capped n α :=
  if h : t.count < n then ⟨t.toList ++ [a], by rw [List.length_append]; exact h⟩ else t

theorem count_eq_min (t : Capped n α) : t.count = min t.count n :=
  (Nat.min_eq_left t.length_le).symm

theorem push_eq_self {t : Capped n α} (h : ¬ t.count < n) (a : α) : t.push a = t := dif_neg h

theorem toList_push (t : Capped n α) (a : α) : (t.push a).toList = (t.toList ++ [a]).take n := by
  have hle := t.length_le
  by_cases h : t.count < n
  · rw [push, dif_pos h, List.take_of_length_le]
    rw [List.length_append]
    exact h
  · have hfull : t.toList.length = n := Nat.le_antisymm hle (Nat.le_of_not_lt h)
    rw [push_eq_self h, List.take_append_of_le_length (Nat.le_of_eq hfull.symm),
      List.take_of_length_le hle]

theorem count_push (t : Capped n α) (a : α) : (t.push a).count = min (t.count + 1) n := by
  rw [count, toList_push, List.length_take, List.length_append, List.length_singleton,
    Nat.min_comm, count]

theorem toList_foldl_push (as : List α) (t : Capped n α) :
    (as.foldl push t).toList = (t.toList ++ as).take n := by
  induction as generalizing t with
  | nil => rw [List.foldl_nil, List.append_nil, List.take_of_length_le t.length_le]
  | cons a as ih =>
    rw [List.foldl_cons, ih, toList_push, List.append_cons t.toList a as]
    generalize t.toList ++ [a] = added
    rw [List.take_append, List.take_append, List.take_take, Nat.min_self, List.length_take]
    congr 2
    omega

end Capped
