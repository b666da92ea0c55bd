import Mathlib.Data.Nat.ModEq
import Mathlib.Logic.Function.Basic

/-!
A ring of `n` slots with an index for the side that adds and one for the side
that takes away. The indices are equal when the ring is empty, so one slot is
always left free. `Queue` says which list the ring stands for.
-/

namespace Ring

variable {α : Type*} {n head tail : Nat} {slots : Nat → α} {xs : List α} {x : α}

/-- The ring holds the elements `xs`, the oldest one in the slot `tail`. -/
structure Queue (n : Nat) (slots : Nat → α) (tail head : Nat) (xs : List α) : Prop where
  tail_lt : tail < n
  room : xs.length < n
  head_eq : head = (tail + xs.length) % n
  slot : ∀ i (hi : i < xs.length), slots ((tail + i) % n) = xs[i]

theorem queue_nil (h : tail < n) (slots : Nat → α) : Queue n slots tail tail [] where
  tail_lt := h
  room := Nat.lt_of_le_of_lt (Nat.zero_le tail) h
  head_eq := (Nat.mod_eq_of_lt h).symm
  slot i hi := absurd hi (Nat.not_lt_zero i)

theorem add_mod_ne (tail : Nat) {i j : Nat} (hij : i < j) (hj : j < n + i) :
    (tail + i) % n ≠ (tail + j) % n := by
  intro heq
  have hdvd := (Nat.modEq_iff_dvd' (by omega)).mp heq
  have hle := Nat.le_of_dvd (by omega) hdvd
  omega

namespace Queue

section

variable (h : Queue n slots tail head xs)
include h

theorem empty_iff : head = tail ↔ xs = [] := by
  rw [h.head_eq]
  constructor
  · intro heq
    by_contra hne
    have hpos : 0 < xs.length := List.length_pos_iff.mpr hne
    refine add_mod_ne tail hpos h.room ?_
    rw [Nat.add_zero, Nat.mod_eq_of_lt h.tail_lt, heq]
  · rintro rfl
    exact Nat.mod_eq_of_lt h.tail_lt

theorem full_iff : (head + 1) % n = tail ↔ xs.length + 1 = n := by
  rw [h.head_eq, Nat.mod_add_mod, Nat.add_assoc]
  constructor
  · intro heq
    by_contra hne
    have hlt : xs.length + 1 < n := Nat.lt_of_le_of_ne h.room hne
    refine add_mod_ne tail (Nat.succ_pos xs.length) hlt ?_
    rw [Nat.add_zero, Nat.mod_eq_of_lt h.tail_lt, heq]
  · intro hfull
    rw [hfull, Nat.add_mod_right, Nat.mod_eq_of_lt h.tail_lt]

theorem push (hroom : xs.length + 1 < n) (x : α) :
    Queue n (Function.update slots head x) tail ((head + 1) % n) (xs ++ [x]) where
  tail_lt := h.tail_lt
  room := by
    rw [List.length_append]
    exact hroom
  head_eq := by rw [h.head_eq, Nat.mod_add_mod, List.length_append, List.length_singleton,
    Nat.add_assoc]
  slot i hi := by
    rw [List.length_append, List.length_singleton] at hi
    rw [h.head_eq]
    by_cases hlast : i = xs.length
    · subst hlast
      simp
    · have hne : (tail + i) % n ≠ (tail + xs.length) % n :=
        add_mod_ne tail (by omega) (by omega)
      rw [Function.update_of_ne hne, h.slot i (by omega), List.getElem_append_left]

end

theorem front (h : Queue n slots tail head (x :: xs)) : slots tail = x := by
  have hslot := h.slot 0 (Nat.succ_pos _)
  rwa [Nat.add_zero, Nat.mod_eq_of_lt h.tail_lt] at hslot

theorem pop (h : Queue n slots tail head (x :: xs)) : Queue n slots ((tail + 1) % n) head xs where
  tail_lt := Nat.mod_lt _ (Nat.lt_of_le_of_lt (Nat.zero_le tail) h.tail_lt)
  room := Nat.lt_of_succ_lt h.room
  head_eq := by
    rw [h.head_eq, Nat.mod_add_mod, List.length_cons, Nat.add_assoc, Nat.add_comm 1]
  slot i hi := by
    have hslot := h.slot (i + 1) (Nat.succ_lt_succ hi)
    rw [Nat.mod_add_mod, Nat.add_assoc, Nat.add_comm 1, hslot, List.getElem_cons_succ]

end Queue

end Ring
