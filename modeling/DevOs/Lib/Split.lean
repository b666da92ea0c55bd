import Mathlib.Data.List.TakeWhile

/-!
The maximal runs of a list between separators: what `List.splitOn` returns, without
the empty pieces.
-/

namespace Split

variable {α : Type*} [DecidableEq α] {sep a : α} {l : List α}

/-- The maximal runs of elements other than `sep`, in order. -/
def runs (sep : α) (l : List α) : List (List α) := (l.splitOn sep).filter (· ≠ [])

@[simp] theorem runs_nil : runs sep [] = [] := by
  simp [runs, List.splitOn]

@[simp] theorem runs_sep : runs sep (sep :: l) = runs sep l := by
  simp [runs, List.splitOn, List.splitOnP_cons_eq_if_modifyHead]

theorem runs_dropWhile : runs sep (l.dropWhile (· = sep)) = runs sep l := by
  induction l with
  | nil => rfl
  | cons b l ih =>
    by_cases hb : b = sep
    · rw [List.dropWhile_cons_of_pos (by simpa using hb), ih, hb, runs_sep]
    · rw [List.dropWhile_cons_of_neg (by simpa using hb)]

theorem runs_of_forall_ne (hne : l ≠ []) (h : ∀ x ∈ l, x ≠ sep) : runs sep l = [l] := by
  have hsplit : l.splitOnP (· == sep) = [l] :=
    List.splitOnP_eq_singleton fun x hx => by simpa using h x hx
  simp [runs, List.splitOn, hsplit, hne]

theorem runs_append_sep {r : List α} (hne : r ≠ []) (h : ∀ x ∈ r, x ≠ sep) :
    runs sep (r ++ sep :: l) = r :: runs sep l := by
  have hsplit : (r ++ sep :: l).splitOnP (· == sep) = r :: l.splitOnP (· == sep) :=
    List.splitOnP_append_cons_of_forall_mem (fun x hx => by simpa using h x hx) sep (by simp) l
  simp [runs, List.splitOn, hsplit, hne]

theorem runs_cons (ha : a ≠ sep) :
    runs sep (a :: l) = (a :: l.takeWhile (· ≠ sep)) :: runs sep (l.dropWhile (· ≠ sep)) := by
  have hrun : ∀ x ∈ a :: l.takeWhile (· ≠ sep), x ≠ sep := by
    intro x hx
    obtain rfl | hx := List.mem_cons.mp hx
    · exact ha
    · simpa using List.mem_takeWhile_imp hx
  have hsplit : a :: l = (a :: l.takeWhile (· ≠ sep)) ++ l.dropWhile (· ≠ sep) := by
    rw [List.cons_append, List.takeWhile_append_dropWhile]
  cases hd : l.dropWhile (· ≠ sep) with
  | nil =>
    rw [hsplit, hd, List.append_nil, runs_of_forall_ne (List.cons_ne_nil _ _) hrun, runs_nil]
  | cons b rest =>
    -- what stops the run is a separator
    have hb : b = sep := by
      have hhead := List.head?_dropWhile_not (· ≠ sep) l
      rw [hd] at hhead
      simpa using hhead
    rw [hsplit, hd, hb, runs_append_sep (List.cons_ne_nil _ _) hrun, runs_sep]

end Split
