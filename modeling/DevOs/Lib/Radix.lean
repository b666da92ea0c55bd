import Mathlib.Data.List.Induction

/-!
Radix trees that live in a memory: `ent t i` is entry `i` of table `t`, `child` says
how an entry names a table, `leaf` what the entries of the last level mean, and a key
is the list of indices followed from the root.

`Tree` says that down to the given depth no table is reached along two paths.
-/

namespace Radix

variable {τ ι E α : Type*}

def walk (child : E → Option τ) (ent : τ → ι → E) : τ → List ι → Option τ
  | t, [] => some t
  | t, i :: p => (child (ent t i)).bind fun u => walk child ent u p

/-- The meaning of entry `i` of the table at the end of path `p`. -/
def lookup (child : E → Option τ) (leaf : E → Option α) (ent : τ → ι → E) (root : τ)
    (p : List ι) (i : ι) : Option α :=
  (walk child ent root p).bind fun t => leaf (ent t i)

section

variable {child : E → Option τ} {ent ent' : τ → ι → E} {root t : τ} {p q : List ι} {i : ι}

@[simp] theorem walk_nil (child : E → Option τ) (ent : τ → ι → E) (t : τ) :
    walk child ent t [] = some t := rfl

theorem walk_append (child : E → Option τ) (ent : τ → ι → E) (t : τ) (p q : List ι) :
    walk child ent t (p ++ q) = (walk child ent t p).bind fun u => walk child ent u q := by
  induction p generalizing t with
  | nil => rfl
  | cons i p ih =>
    rw [List.cons_append, walk, walk, Option.bind_assoc]
    exact congrArg _ (funext fun u => ih u)

theorem walk_left {u : τ} (hp : p <+: q)
    (hw : walk child ent root q = some u) : ∃ c, walk child ent root p = some c := by
  obtain ⟨r, rfl⟩ := hp
  rw [walk_append] at hw
  obtain ⟨c, hc, -⟩ := Option.bind_eq_some_iff.mp hw
  exact ⟨c, hc⟩

theorem walk_concat (child : E → Option τ) (ent : τ → ι → E) (t : τ) (p : List ι) (i : ι) :
    walk child ent t (p ++ [i]) = (walk child ent t p).bind fun u => child (ent u i) := by
  rw [walk_append]
  refine congrArg _ (funext fun u => ?_)
  rw [walk]
  cases child (ent u i) <;> rfl

theorem walk_congr (h : ∀ r k u, r ++ [k] <+: p → walk child ent root r = some u →
      child (ent' u k) = child (ent u k)) : walk child ent' root p = walk child ent root p := by
  induction p using List.reverseRecOn with
  | nil => rfl
  | append_singleton p i ih =>
    have ih' := ih fun r k u hr hw => h r k u (hr.trans (List.prefix_append p [i])) hw
    rw [walk_concat, walk_concat, ih']
    cases hw : walk child ent root p with
    | none => rfl
    | some u => exact h p i u (List.prefix_refl _) hw

theorem walk_mono
    (h : ∀ r k u c, r ++ [k] <+: p → walk child ent root r = some u → child (ent u k) = some c →
      child (ent' u k) = some c)
    (hw : walk child ent root p = some t) : walk child ent' root p = some t := by
  induction p using List.reverseRecOn generalizing t with
  | nil => exact hw
  | append_singleton p i ih =>
    rw [walk_concat, Option.bind_eq_some_iff] at hw ⊢
    obtain ⟨u, hu, hc⟩ := hw
    have hu' := ih (fun r k u c hr => h r k u c (hr.trans (List.prefix_append p [i]))) hu
    exact ⟨u, hu', h p i u t (List.prefix_refl _) hu hc⟩

end

/-- Down to `depth` every table is reached along one path only and is one of
the `used` ones, and every entry that names a child is a `mid` entry. -/
structure Tree (child : E → Option τ) (mid : E → Prop) (depth : Nat) (ent : τ → ι → E) (root : τ)
    (used : τ → Prop) : Prop where
  inj : ∀ p q t, p.length ≤ depth → q.length ≤ depth →
    walk child ent root p = some t → walk child ent root q = some t → p = q
  used : ∀ p t, p.length ≤ depth → walk child ent root p = some t → used t
  mid : ∀ p t i, p.length < depth → walk child ent root p = some t →
    child (ent t i) ≠ none → mid (ent t i)

namespace Tree

variable {child : E → Option τ} {leaf : E → Option α} {mid : E → Prop} {depth : Nat}
  {ent ent' : τ → ι → E} {root t f : τ} {used used' : τ → Prop} {p q : List ι} {i j : ι}

theorem empty (hroot : ∀ i, child (ent root i) = none) (hused : used root) :
    Tree child mid depth ent root used := by
  have hwalk : ∀ p t, walk child ent root p = some t → p = [] ∧ t = root := by
    intro p t hw
    cases p with
    | nil => exact ⟨rfl, (Option.some.inj hw).symm⟩
    | cons i p => rw [walk, hroot i] at hw; cases hw
  constructor
  · intro p q t _ _ hp hq
    rw [(hwalk p t hp).1, (hwalk q t hq).1]
  · intro p t _ hp
    rw [(hwalk p t hp).2]
    exact hused
  · intro p t i _ hp hc
    rw [(hwalk p t hp).2] at hc
    exact absurd (hroot i) hc

theorem mono (h : Tree child mid depth ent root used) (hu : ∀ t, used t → used' t) :
    Tree child mid depth ent root used' :=
  ⟨h.inj, fun p t hl hw => hu t (h.used p t hl hw), h.mid⟩

section

variable (h : Tree child mid depth ent root used) (hp : p.length = depth)
  (hw : walk child ent root p = some t)
  (hother : ∀ u k, used u → u ≠ t ∨ k ≠ i → ent' u k = ent u k)

include h hp hw hother

theorem walk_write (hq : q.length ≤ depth) : walk child ent' root q = walk child ent root q := by
  refine walk_congr fun r k u hr hwr => ?_
  have hlen : r.length < depth := by
    have := hr.length_le
    rw [List.length_append, List.length_singleton] at this
    omega
  have hut : u ≠ t := by
    rintro rfl
    have hrp := h.inj r p u (by omega) (by omega) hwr hw
    rw [hrp] at hlen
    omega
  rw [hother u k (h.used r u (by omega) hwr) (.inl hut)]

theorem write : Tree child mid depth ent' root used := by
  have hwalk := fun {q} => h.walk_write hp hw hother (q := q)
  constructor
  · intro q r u hq hr hwq hwr
    rw [hwalk hq] at hwq
    rw [hwalk hr] at hwr
    exact h.inj q r u hq hr hwq hwr
  · intro q u hq hwq
    rw [hwalk hq] at hwq
    exact h.used q u hq hwq
  · intro q u k hq hwq hc
    rw [hwalk (by omega)] at hwq
    have hut : u ≠ t := by
      rintro rfl
      have hqp := h.inj q p u (by omega) (by omega) hwq hw
      rw [hqp] at hq
      omega
    rw [hother u k (h.used q u (by omega) hwq) (.inl hut)] at hc ⊢
    exact h.mid q u k hq hwq hc

theorem lookup_write [DecidableEq ι] (leaf : E → Option α) (hq : q.length = depth) :
    lookup child leaf ent' root q j =
      if q = p ∧ j = i then leaf (ent' t i) else lookup child leaf ent root q j := by
  unfold lookup
  rw [h.walk_write hp hw hother (by omega)]
  by_cases hqp : q = p
  · subst hqp
    rw [hw]
    by_cases hji : j = i
    · simp [hji]
    · simp [hji, hother t j (h.used q t (by omega) hw) (.inr hji)]
  · rw [if_neg (fun hc => hqp hc.1)]
    cases hwq : walk child ent root q with
    | none => rfl
    | some u =>
      have hut : u ≠ t := by
        rintro rfl
        exact hqp (h.inj q p u (by omega) (by omega) hwq hw)
      show leaf (ent' u j) = leaf (ent u j)
      rw [hother u j (h.used q u (by omega) hwq) (.inl hut)]

end

section

variable (h : Tree child mid depth ent root used) (hp : p.length < depth)
  (hw : walk child ent root p = some t) (hempty : child (ent t i) = none)
  (hother : ∀ u k, used u → u ≠ t ∨ k ≠ i → ent' u k = ent u k)
  (hlink : child (ent' t i) = some f) (hnew : ∀ k, child (ent' f k) = none)

include h hp hw hempty hother hlink hnew

theorem walk_link [DecidableEq ι] (hq : q.length ≤ depth) :
    walk child ent' root q = if q = p ++ [i] then some f else walk child ent root q := by
  induction q using List.reverseRecOn with
  | nil => rw [if_neg (by simp)]; rfl
  | append_singleton q k ih =>
    rw [List.length_append, List.length_singleton] at hq
    rw [walk_concat, walk_concat, ih (by omega)]
    by_cases hqp : q = p ++ [i]
    · -- below the new table there is nothing, now as before
      have hlong : q ++ [k] ≠ p ++ [i] := by
        intro hc
        have := congrArg List.length hc
        rw [hqp] at this
        simp at this
      rw [if_pos hqp, if_neg hlong, hqp, walk_concat, hw]
      simp [hempty, hnew]
    · rw [if_neg hqp]
      cases hwq : walk child ent root q with
      | none =>
        have hne : q ++ [k] ≠ p ++ [i] := by
          intro hc
          rw [(List.append_inj' hc rfl).1, hw] at hwq
          cases hwq
        rw [if_neg hne]
        rfl
      | some u =>
        have huse := h.used q u (by omega) hwq
        show child (ent' u k) = if q ++ [k] = p ++ [i] then some f else child (ent u k)
        by_cases hut : u = t ∧ k = i
        · obtain ⟨rfl, rfl⟩ := hut
          rw [h.inj q p u (by omega) (by omega) hwq hw, if_pos rfl, hlink]
        · have hne : q ++ [k] ≠ p ++ [i] := by
            intro hc
            obtain ⟨hqp', hki⟩ := List.append_inj' hc rfl
            rw [hqp', hw] at hwq
            exact hut ⟨(Option.some.inj hwq).symm, by simpa using hki⟩
          rw [if_neg hne, hother u k huse (by by_cases hu : u = t <;> simp_all)]

theorem link [DecidableEq ι] (hfresh : ¬ used f) (hmid : mid (ent' t i))
    (hu : ∀ u, used u → used' u) (hf : used' f) : Tree child mid depth ent' root used' := by
  have hwalk := fun {q} => h.walk_link hp hw hempty hother hlink hnew (q := q)
  have hnot : ∀ {q}, q.length ≤ depth → walk child ent root q ≠ some f :=
    fun hq hwq => hfresh (h.used _ f hq hwq)
  constructor
  · intro q r u hq hr hwq hwr
    rw [hwalk hq] at hwq
    rw [hwalk hr] at hwr
    split at hwq
    · next hqp =>
        cases hwq
        split at hwr
        · next hrp => rw [hqp, hrp]
        · exact absurd hwr (hnot hr)
    · split at hwr
      · cases hwr
        exact absurd hwq (hnot hq)
      · exact h.inj q r u hq hr hwq hwr
  · intro q u hq hwq
    rw [hwalk hq] at hwq
    split at hwq
    · cases hwq
      exact hf
    · exact hu u (h.used q u hq hwq)
  · intro q u k hq hwq hc
    rw [hwalk (by omega)] at hwq
    split at hwq
    · cases hwq
      exact absurd (hnew k) hc
    · by_cases hut : u = t ∧ k = i
      · obtain ⟨rfl, rfl⟩ := hut
        exact hmid
      · have huse := h.used q u (by omega) hwq
        rw [hother u k huse (by by_cases hu : u = t <;> simp_all)] at hc ⊢
        exact h.mid q u k hq hwq hc

theorem lookup_link [DecidableEq ι] (leaf : E → Option α) (hleaf : ∀ k, leaf (ent' f k) = none)
    (hq : q.length = depth) : lookup child leaf ent' root q j = lookup child leaf ent root q j := by
  unfold lookup
  rw [h.walk_link hp hw hempty hother hlink hnew (by omega)]
  by_cases hqp : q = p ++ [i]
  · rw [if_pos hqp, hqp, walk_concat, hw]
    simp [hempty, hleaf]
  · rw [if_neg hqp]
    cases hwq : walk child ent root q with
    | none => rfl
    | some u =>
      have hut : u ≠ t := by
        rintro rfl
        have := congrArg List.length (h.inj q p u (by omega) (by omega) hwq hw)
        omega
      show leaf (ent' u j) = leaf (ent u j)
      rw [hother u j (h.used q u (by omega) hwq) (.inl hut)]

end

section

variable (h : Tree child mid depth ent root used)
  (hsub : ∀ u k, used u → child (ent' u k) ≠ none → ent' u k = ent u k)

include h hsub

theorem walk_prune (hp : p.length ≤ depth) (hw : walk child ent' root p = some t) :
    walk child ent root p = some t := by
  induction p using List.reverseRecOn generalizing t with
  | nil => exact hw
  | append_singleton p i ih =>
    rw [List.length_append, List.length_singleton] at hp
    rw [walk_concat, Option.bind_eq_some_iff] at hw ⊢
    obtain ⟨u, hu, hc⟩ := hw
    have hu' := ih (by omega) hu
    refine ⟨u, hu', ?_⟩
    rw [← hsub u i (h.used p u (by omega) hu') (by rw [hc]; simp)]
    exact hc

theorem prune : Tree child mid depth ent' root used := by
  have hwalk := fun {q u} => h.walk_prune hsub (p := q) (t := u)
  constructor
  · exact fun q r u hq hr hwq hwr => h.inj q r u hq hr (hwalk hq hwq) (hwalk hr hwr)
  · exact fun q u hq hwq => h.used q u hq (hwalk hq hwq)
  · intro q u k hq hwq hc
    have hwq' := hwalk (by omega) hwq
    have hsame := hsub u k (h.used q u (by omega) hwq') hc
    rw [hsame] at hc ⊢
    exact h.mid q u k hq hwq' hc

theorem lookup_prune {a : α}
    (hleaf : ∀ u k, used u → leaf (ent' u k) ≠ none → ent' u k = ent u k) (hp : p.length ≤ depth)
    (hl : lookup child leaf ent' root p i = some a) : lookup child leaf ent root p i = some a := by
  obtain ⟨u, hu, hc⟩ := Option.bind_eq_some_iff.mp hl
  have hu' := h.walk_prune hsub hp hu
  refine Option.bind_eq_some_iff.mpr ⟨u, hu', ?_⟩
  rw [← hleaf u i (h.used p u hp hu') (by rw [hc]; simp)]
  exact hc

end

end Tree

end Radix
