import Mathlib.Data.Nat.ModEq
import Mathlib.Logic.Function.Basic

/-!
A ring of `N` slots that one side fills in order and the other reads in order,
without a shared counter: every entry carries a phase bit, which flips each time the
writer comes around. `Wrote` says what the slots hold, and `Wrote.test` that the bit
tells an entry that was not read from one of the pass before.
-/

namespace PhaseRing

variable {α : Type*} {N n : Nat}

def phase (N n : Nat) : Bool := n / N % 2 == 0

theorem phase_succ (N n : Nat) :
    phase N (n + 1) = if (n + 1) % N = 0 then !phase N n else phase N n := by
  simp only [phase, Nat.succ_div, Nat.dvd_iff_mod_eq_zero]
  split
  · cases hmod : n / N % 2 == 0 <;> simp only [beq_iff_eq, beq_eq_false_iff_ne] at hmod <;> simp <;>
      omega
  · rfl

theorem phase_add (hN : 0 < N) (n : Nat) : phase N (n + N) = !phase N n := by
  unfold phase
  rw [Nat.add_div_right n hN]
  cases hmod : n / N % 2 == 0 <;> simp only [beq_iff_eq, beq_eq_false_iff_ne] at hmod <;> simp <;>
    omega

theorem phase_of_lt (h : n < N) : phase N n = true := by simp [phase, Nat.div_eq_of_lt h]

/-- The slots after the entries `l` were written to them in order: a slot holds the
latest entry that it got, or what it held at the start. -/
structure Wrote (N : Nat) (blank : α) (l : List α) (q : Nat → α) : Prop where
  latest : ∀ j (hj : j < l.length), l.length ≤ j + N → q (j % N) = l[j]
  untouched : ∀ i < N, l.length ≤ i → q i = blank

def Tagged (N : Nat) (tag : α → Bool) (l : List α) : Prop :=
  ∀ j (hj : j < l.length), tag l[j] = phase N j

variable {blank x : α} {l : List α} {q : Nat → α} {tag : α → Bool}

theorem wrote_nil (N : Nat) (blank : α) : Wrote N blank [] fun _ => blank :=
  ⟨fun _ hj => absurd hj (Nat.not_lt_zero _), fun _ _ _ => rfl⟩

theorem Wrote.push (h : Wrote N blank l q) (x : α) :
    Wrote N blank (l ++ [x]) (Function.update q (l.length % N) x) where
  latest := by
    intro j hj hroom
    rw [List.length_append, List.length_singleton] at hj hroom
    by_cases hlast : j = l.length
    · subst hlast
      simp
    · -- an entry of the same slot would be a whole pass away
      have hne : j % N ≠ l.length % N := by
        intro heq
        have hdvd := (Nat.modEq_iff_dvd' (by omega)).mp heq
        have hle := Nat.le_of_dvd (by omega) hdvd
        omega
      rw [Function.update_of_ne hne, h.latest j (by omega) (by omega),
        List.getElem_append_left (by omega)]
  untouched := by
    intro i hi hlen
    rw [List.length_append, List.length_singleton] at hlen
    rw [Function.update_of_ne, h.untouched i hi (by omega)]
    rw [Nat.mod_eq_of_lt (by omega)]
    omega

theorem Tagged.push (h : Tagged N tag l) (hx : tag x = phase N l.length) :
    Tagged N tag (l ++ [x]) := by
  intro j hj
  rw [List.length_append, List.length_singleton] at hj
  by_cases hlast : j = l.length
  · subst hlast
    simpa using hx
  · rw [List.getElem_append_left (by omega)]
    exact h j (by omega)

theorem Wrote.test (hN : 0 < N) (h : Wrote N blank l q) (htag : Tagged N tag l)
    (hblank : tag blank = false) (hle : n ≤ l.length) (hroom : l.length ≤ n + N) :
    tag (q (n % N)) = phase N n ↔ n < l.length := by
  constructor
  · intro hphase
    by_contra hlt
    obtain rfl : n = l.length := by omega
    by_cases hfirst : l.length < N
    · -- nothing was ever written to the slot
      rw [Nat.mod_eq_of_lt hfirst, h.untouched _ hfirst (Nat.le_refl _), hblank,
        phase_of_lt hfirst] at hphase
      cases hphase
    · -- the slot holds the entry of the pass before
      obtain ⟨k, hk⟩ : ∃ k, l.length = k + N := ⟨l.length - N, by omega⟩
      have hslot : l.length % N = k % N := by rw [hk, Nat.add_mod_right]
      rw [hslot, h.latest k (by omega) (by omega), htag k (by omega), hk, phase_add hN] at hphase
      cases hp : phase N k <;> simp [hp] at hphase
  · intro hlt
    rw [h.latest n hlt hroom, htag n hlt]

end PhaseRing
