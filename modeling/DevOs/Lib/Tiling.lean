import Mathlib.Algebra.BigOperators.Group.Finset.Basic
import Mathlib.Data.Nat.ModEq
import Mathlib.Logic.Function.Basic
import Mathlib.Order.Interval.Finset.Nat

/-!
Partitions of an interval of addresses into labelled tiles.

`IsTiling unit lo hi L` says that the tiles of `L` are multiples of `unit`, do not overlap
and cover `[lo, hi)`. Allocators add a tile at the upper end, give one
another label, or cut one in two.
-/

namespace Tiling

variable {κ : Type*}

abbrev Layout (κ : Type*) := Nat → Option (κ × Nat)

theorem update_cases {L : Layout κ} {b c : Nat} {t t' : κ × Nat}
    (h : Function.update L b (some t) c = some t') : c = b ∧ t = t' ∨ c ≠ b ∧ L c = some t' := by
  rwa [Function.update_apply, ite_eq_iff, Option.some.injEq] at h

def sizeAt (L : Layout κ) (b : Nat) : Nat := (L b).elim 0 Prod.snd

/-- The tiles of `L` partition `[lo, hi)`. -/
structure IsTiling (unit lo hi : Nat) (L : Layout κ) : Prop where
  pos : ∀ b k n, L b = some (k, n) → 0 < n
  aligned : ∀ b k n, L b = some (k, n) → unit ∣ b ∧ unit ∣ n
  inside : ∀ b k n, L b = some (k, n) → lo ≤ b ∧ b + n ≤ hi
  disjoint : ∀ b k n b' k' n', L b = some (k, n) → L b' = some (k', n') → b ≠ b' →
    b + n ≤ b' ∨ b' + n' ≤ b
  cover : ∀ x, lo ≤ x → x < hi → ∃ b k n, L b = some (k, n) ∧ b ≤ x ∧ x < b + n

namespace IsTiling

variable {unit lo hi b b' n n' x : Nat} {k k' : κ} {L : Layout κ}

theorem empty (unit lo : Nat) : IsTiling unit lo lo (fun _ => none : Layout κ) where
  pos _ _ _ h := by cases h
  aligned _ _ _ h := by cases h
  inside _ _ _ h := by cases h
  disjoint _ _ _ _ _ _ h := by cases h
  cover x hlo hhi := by omega

section

variable (h : IsTiling unit lo hi L)
include h

theorem eq_of_mem (hb : L b = some (k, n)) (hb' : L b' = some (k', n'))
    (hx : b ≤ x ∧ x < b + n) (hx' : b' ≤ x ∧ x < b' + n') : b = b' := by
  by_contra hne
  have := h.disjoint b k n b' k' n' hb hb' hne
  omega

theorem hi_eq_none : L hi = none := by
  cases hL : L hi with
  | none => rfl
  | some t =>
    have hpos := h.pos hi t.1 t.2 hL
    have hin := h.inside hi t.1 t.2 hL
    omega

theorem grow (hlo : lo ≤ hi) (hhi : unit ∣ hi) (hn : unit ∣ n)
    (hpos : 0 < n) : IsTiling unit lo (hi + n) (Function.update L hi (some (k, n))) := by
  constructor
  · intro b j m hb
    obtain ⟨-, heq⟩ | ⟨-, hb⟩ := update_cases hb
    · cases heq
      exact hpos
    · exact h.pos b j m hb
  · intro b j m hb
    obtain ⟨rfl, heq⟩ | ⟨-, hb⟩ := update_cases hb
    · cases heq
      exact ⟨hhi, hn⟩
    · exact h.aligned b j m hb
  · intro b j m hb
    obtain ⟨rfl, heq⟩ | ⟨-, hb⟩ := update_cases hb
    · cases heq
      omega
    · have := h.inside b j m hb
      omega
  · intro b j m b' j' m' hb hb' hne
    obtain ⟨hbhi, -⟩ | ⟨-, hL⟩ := update_cases hb
    · obtain ⟨hbhi', -⟩ | ⟨-, hL'⟩ := update_cases hb'
      · exact absurd (hbhi.trans hbhi'.symm) hne
      · have := h.inside b' j' m' hL'
        omega
    · obtain ⟨hbhi', -⟩ | ⟨-, hL'⟩ := update_cases hb'
      · have := h.inside b j m hL
        omega
      · exact h.disjoint b j m b' j' m' hL hL' hne
  · intro x hx hx'
    by_cases hlast : x < hi
    · obtain ⟨b, j, m, hb, hin⟩ := h.cover x hx hlast
      have hne : b ≠ hi := by omega
      exact ⟨b, j, m, by rw [Function.update_of_ne hne]; exact hb, hin⟩
    · exact ⟨hi, k, n, Function.update_self hi _ L, by omega, by omega⟩

theorem relabel (hb : L b = some (k, n)) (k' : κ) :
    IsTiling unit lo hi (Function.update L b (some (k', n))) := by
  have hcase : ∀ c j m, Function.update L b (some (k', n)) c = some (j, m) →
      ∃ i, L c = some (i, m) := by
    intro c j m hc
    obtain ⟨rfl, heq⟩ | ⟨-, hc⟩ := update_cases hc
    · cases heq
      exact ⟨k, hb⟩
    · exact ⟨j, hc⟩
  constructor
  · intro c j m hc
    obtain ⟨i, hi⟩ := hcase c j m hc
    exact h.pos c i m hi
  · intro c j m hc
    obtain ⟨i, hi⟩ := hcase c j m hc
    exact h.aligned c i m hi
  · intro c j m hc
    obtain ⟨i, hi⟩ := hcase c j m hc
    exact h.inside c i m hi
  · intro c j m c' j' m' hc hc' hne
    obtain ⟨i, hi⟩ := hcase c j m hc
    obtain ⟨i', hi'⟩ := hcase c' j' m' hc'
    exact h.disjoint c i m c' i' m' hi hi' hne
  · intro x hx hx'
    obtain ⟨c, j, m, hc, hin⟩ := h.cover x hx hx'
    by_cases hcb : c = b
    · subst hcb
      rw [hb] at hc
      cases hc
      exact ⟨c, k', n, Function.update_self c _ L, hin⟩
    · exact ⟨c, j, m, by rw [Function.update_of_ne hcb]; exact hc, hin⟩

end

theorem split {n1 n2 : Nat} (h : IsTiling unit lo hi L) (hb : L b = some (k, n1 + n2))
    (hn1 : unit ∣ n1) (hpos1 : 0 < n1) (hpos2 : 0 < n2) (k1 k2 : κ) : IsTiling unit lo hi
      (Function.update (Function.update L b (some (k1, n1))) (b + n1) (some (k2, n2))) := by
  have hal := h.aligned b k _ hb
  have hin := h.inside b k _ hb
  have hn2 : unit ∣ n2 := (Nat.dvd_add_right hn1).mp hal.2
  -- a tile of the new layout is one of the halves or one of the other tiles
  have hcase : ∀ c j m,
      Function.update (Function.update L b (some (k1, n1))) (b + n1) (some (k2, n2)) c =
        some (j, m) →
      c = b + n1 ∧ m = n2 ∨ c = b ∧ m = n1 ∨ c ≠ b ∧ L c = some (j, m) := by
    intro c j m hc
    obtain ⟨hc2, heq⟩ | ⟨-, hc⟩ := update_cases hc
    · cases heq
      exact .inl ⟨hc2, rfl⟩
    · obtain ⟨hcb, heq⟩ | hold := update_cases hc
      · cases heq
        exact .inr (.inl ⟨hcb, rfl⟩)
      · exact .inr (.inr hold)
  constructor
  · intro c j m hc
    obtain ⟨-, rfl⟩ | ⟨-, rfl⟩ | ⟨-, hc⟩ := hcase c j m hc
    · exact hpos2
    · exact hpos1
    · exact h.pos c j m hc
  · intro c j m hc
    obtain ⟨rfl, rfl⟩ | ⟨rfl, rfl⟩ | ⟨-, hc⟩ := hcase c j m hc
    · exact ⟨Nat.dvd_add hal.1 hn1, hn2⟩
    · exact ⟨hal.1, hn1⟩
    · exact h.aligned c j m hc
  · intro c j m hc
    obtain ⟨rfl, rfl⟩ | ⟨rfl, rfl⟩ | ⟨-, hc⟩ := hcase c j m hc
    · omega
    · omega
    · exact h.inside c j m hc
  · intro c j m c' j' m' hc hc' hne
    have hother : ∀ d i l, d ≠ b → L d = some (i, l) → b + (n1 + n2) ≤ d ∨ d + l ≤ b :=
      fun d i l hd hL => h.disjoint b k _ d i l hb hL (Ne.symm hd)
    obtain ⟨hc1, hm⟩ | ⟨hc1, hm⟩ | ⟨hcb, hL⟩ := hcase c j m hc
    · obtain ⟨hc1', hm'⟩ | ⟨hc1', hm'⟩ | ⟨hcb', hL'⟩ := hcase c' j' m' hc'
      · omega
      · omega
      · have := hother c' j' m' hcb' hL'
        omega
    · obtain ⟨hc1', hm'⟩ | ⟨hc1', hm'⟩ | ⟨hcb', hL'⟩ := hcase c' j' m' hc'
      · omega
      · omega
      · have := hother c' j' m' hcb' hL'
        omega
    · obtain ⟨hc1', hm'⟩ | ⟨hc1', hm'⟩ | ⟨-, hL'⟩ := hcase c' j' m' hc'
      · have := hother c j m hcb hL
        omega
      · have := hother c j m hcb hL
        omega
      · exact h.disjoint c j m c' j' m' hL hL' hne
  · intro x hx hx'
    obtain ⟨c, j, m, hc, hxc⟩ := h.cover x hx hx'
    by_cases hcb : c = b
    · subst hcb
      rw [hb] at hc
      cases hc
      by_cases hlow : x < c + n1
      · have hne : c ≠ c + n1 := by omega
        exact ⟨c, k1, n1, by rw [Function.update_of_ne hne, Function.update_self], hxc.1, hlow⟩
      · exact ⟨c + n1, k2, n2, Function.update_self _ _ _, by omega, by omega⟩
    · have hne : c ≠ b + n1 := by
        have := h.disjoint b k _ c j m hb hc (Ne.symm hcb)
        omega
      exact ⟨c, j, m, by rw [Function.update_of_ne hne, Function.update_of_ne hcb]; exact hc, hxc⟩

theorem sum_sizeAt (h : IsTiling unit lo hi L) : ∑ b ∈ Finset.Ico lo hi, sizeAt L b = hi - lo := by
  -- the interval is the union of the tiles, which do not meet
  have hmem : ∀ {x b}, x ∈ Finset.Ico b (b + sizeAt L b) ↔
      ∃ k n, L b = some (k, n) ∧ b ≤ x ∧ x < b + n := by
    intro x b
    rw [Finset.mem_Ico, sizeAt]
    cases hb : L b with
    | none => simp
    | some t => exact ⟨fun hx => ⟨t.1, t.2, rfl, hx⟩, fun ⟨k, n, heq, hx⟩ => by cases heq; exact hx⟩
  have hunion : (Finset.Ico lo hi).biUnion (fun b => Finset.Ico b (b + sizeAt L b)) =
      Finset.Ico lo hi := by
    ext x
    rw [Finset.mem_biUnion]
    constructor
    · rintro ⟨b, -, hx⟩
      obtain ⟨k, n, hb, hx⟩ := hmem.mp hx
      have := h.inside b k n hb
      exact Finset.mem_Ico.mpr (by omega)
    · intro hx
      rw [Finset.mem_Ico] at hx
      obtain ⟨b, k, n, hb, hxb⟩ := h.cover x hx.1 hx.2
      have := h.inside b k n hb
      exact ⟨b, Finset.mem_Ico.mpr (by omega), hmem.mpr ⟨k, n, hb, hxb⟩⟩
  have hdisj : (Finset.Ico lo hi : Set Nat).PairwiseDisjoint
      fun b => Finset.Ico b (b + sizeAt L b) := by
    intro b _ b' _ hne
    refine Finset.disjoint_left.mpr fun x hx hx' => hne ?_
    obtain ⟨k, n, hb, hxb⟩ := hmem.mp hx
    obtain ⟨k', n', hb', hxb'⟩ := hmem.mp hx'
    exact h.eq_of_mem hb hb' hxb hxb'
  have hcard := Finset.card_biUnion hdisj
  rw [hunion, Nat.card_Ico] at hcard
  rw [hcard]
  exact Finset.sum_congr rfl fun b _ => by rw [Nat.card_Ico, Nat.add_sub_cancel_left]

end IsTiling

end Tiling
