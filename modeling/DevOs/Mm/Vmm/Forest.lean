import DevOs.Mm.Vmm.Confine

/-!
The page tables of several address spaces, which may share tables.
-/

namespace DevOs

open ByteMem FrameSupply

variable {σ : Type} [FrameSource σ] [FrameSupply σ]

structure Forest (own : Fin 512 → Prop) (lvl : Levels) (s : Phys σ) : Prop where
  supply : Ok s.frames
  table : ∀ t l, lvl t = some l → TableFrame t ∧ ¬ Free s.frames t
  child : ∀ t l i c, lvl t = some (l + 1) → (l = 2 → own i) →
    childTable (entry s.mem t i) = some c → lvl c = some l

namespace Forest

variable {own : Fin 512 → Prop} {lvl : Levels} {s s' : Phys σ} {t page pml4 l : Nat}
  {i : Fin 512} {p : List (Fin 512)} {flags v : BitVec 64} {frames : σ} {k : Fin 512}

omit [FrameSource σ] [FrameSupply σ] in
theorem head_of_isPrefix {q : List (Fin 512)} (hown : ∀ i ∈ p.head?, own i)
    (hq : q ++ [k] <+: p) : ∀ i ∈ q.head?, own i := by
  intro i hi
  obtain ⟨r, rfl⟩ := (List.prefix_append q [k]).trans hq
  refine hown i ?_
  rw [List.head?_append, hi]
  rfl

section

variable (h : Forest own lvl s)
include h

theorem walk (hroot : lvl pml4 = some 3) (hp : p.length ≤ 3) (hown : ∀ i ∈ p.head?, own i)
    (hw : Radix.walk childTable (entry s.mem) pml4 p = some t) : lvl t = some (3 - p.length) := by
  induction p using List.reverseRecOn generalizing t with
  | nil =>
    cases hw
    exact hroot
  | append_singleton p i ih =>
    rw [List.length_append, List.length_singleton] at hp ⊢
    rw [Radix.walk_concat, Option.bind_eq_some_iff] at hw
    obtain ⟨u, hu, hc⟩ := hw
    have hlu := ih (by omega) (fun k hk => hown k (by
      rw [List.head?_append, hk]
      rfl)) hu
    rw [show 3 - p.length = 3 - (p.length + 1) + 1 by omega] at hlu
    refine h.child u _ i t hlu (fun hl => hown i ?_) hc
    obtain rfl : p = [] := List.length_eq_zero_iff.mp (by omega)
    rfl

theorem alloc (ha : FrameSource.alloc s.frames = some (page, frames)) :
    Ok frames ∧ TableFrame page ∧ Free s.frames page ∧ lvl page = none ∧
      ∀ t l, lvl t = some l → ¬ Free frames t := by
  obtain ⟨hok, hfree, hiff⟩ := alloc_some h.supply ha
  refine ⟨hok, tableFrame h.supply hfree, hfree, ?_, fun t l ht hf => ?_⟩
  · cases hl : lvl page with
    | none => rfl
    | some l => exact absurd hfree (h.table page l hl).2
  · exact (h.table t l ht).2 ((hiff t).mp hf).1

theorem frame (hm : ∀ t l i, lvl t = some l → entry s'.mem t i = entry s.mem t i)
    (hok : Ok s'.frames) (hf : ∀ t l, lvl t = some l → ¬ Free s'.frames t) : Forest own lvl s' where
  supply := hok
  table t l ht := ⟨(h.table t l ht).1, hf t l ht⟩
  child t l i c ht ho hc := h.child t l i c ht ho (by rw [← hm t _ i ht]; exact hc)

theorem entry_page (hpage : TableFrame page) (hnone : lvl page = none)
    {u : Nat} (hu : lvl u = some l) {m' : Mem}
    (hm : ∀ x, x < page ∨ page + pageSize ≤ x → m' x = s.mem x) (k : Fin 512) :
    entry m' u k = entry s.mem u k :=
  entry_of_outside hpage.aligned (h.table u l hu).1.aligned (ne_of_notTable hu hnone) hm

theorem entry_link (ht : lvl t = some l) (hpage : TableFrame page)
    (hnone : lvl page = none) {u m : Nat} (hu : lvl u = some m)
    (hne : u ≠ t ∨ k ≠ i) : entry (linkTable s.mem t i page flags) u k = entry s.mem u k := by
  exact entry_linkTable_of_ne (h.table t l ht).1.aligned hpage.aligned (h.table u m hu).1.aligned
    (ne_of_notTable hu hnone) hne

theorem link (ht : lvl t = some (l + 1)) (ha : FrameSource.alloc s.frames = some (page, frames)) :
    Forest own (Function.update lvl page (some l))
      ⟨linkTable s.mem t i page (midFlags flags), frames⟩ := by
  obtain ⟨hok, hpage, hfree, hnone, hrest⟩ := h.alloc ha
  have hpt : page ≠ t := (ne_of_notTable ht hnone).symm
  constructor
  · exact hok
  · intro u m hu
    obtain ⟨rfl, -⟩ | ⟨-, hu⟩ := level_update hu
    · exact ⟨hpage, fun hf => (((alloc_some h.supply ha).2.2 u).mp hf).2 rfl⟩
    · exact ⟨(h.table u m hu).1, hrest u m hu⟩
  · intro u m k c hu ho hc
    obtain ⟨rfl, -⟩ | ⟨-, hu⟩ := level_update hu
    · rw [entry_linkTable_new (h.table t _ ht).1.aligned hpage.aligned hpt, childTable_zero] at hc
      cases hc
    · by_cases hut : u = t ∧ k = i
      · obtain ⟨rfl, rfl⟩ := hut
        rw [entry_linkTable_self, childTable_link hpage.aligned hpage.small] at hc
        cases hc
        rw [ht] at hu
        rw [Function.update_self, Nat.succ.inj (Option.some.inj hu)]
      · rw [h.entry_link ht hpage hnone hu (not_and_or.mp hut)] at hc
        exact extends_update hnone l c m (h.child u m k c hu ho hc)

theorem entry_leaf (ht : lvl t = some 0) (e : BitVec 64) {u : Nat}
    (hu : lvl u = some (l + 1)) (k : Fin 512) :
    entry (setEntry s.mem t i e) u k = entry s.mem u k := by
  exact entry_setEntry_of_ne (h.table t 0 ht).1.aligned (h.table u _ hu).1.aligned
    (.inl (ne_of_level hu ht (by simp)))

theorem leaf (ht : lvl t = some 0) (e : BitVec 64) :
    Forest own lvl { s with mem := setEntry s.mem t i e } where
  supply := h.supply
  table := h.table
  child u m k c hu ho hc := h.child u m k c hu ho (by rw [← hc, h.entry_leaf ht e hu k])

theorem walk_frame (hroot : lvl pml4 = some 3) {m' : Mem}
    (hm : ∀ u l k, lvl u = some (l + 1) → entry m' u k = entry s.mem u k) (hp : p.length ≤ 3)
    (hown : ∀ i ∈ p.head?, own i) :
    Radix.walk childTable (entry m') pml4 p = Radix.walk childTable (entry s.mem) pml4 p := by
  refine Radix.walk_congr fun q k u hq hwq => ?_
  have hlen := hq.length_le
  rw [List.length_append, List.length_singleton] at hlen
  have hu := h.walk hroot (by omega) (head_of_isPrefix hown hq) hwq
  rw [hm u (2 - q.length) k (by rw [hu]; congr 1; omega)]

theorem walk_leaf (ht : lvl t = some 0) (e : BitVec 64)
    (hroot : lvl pml4 = some 3) (hp : p.length ≤ 3) (hown : ∀ i ∈ p.head?, own i) :
    Radix.walk childTable (entry (setEntry s.mem t i e)) pml4 p =
      Radix.walk childTable (entry s.mem) pml4 p :=
  h.walk_frame hroot (fun _ _ k hu => h.entry_leaf ht e hu k) hp hown

theorem walk_link (hroot : lvl pml4 = some 3) (hp : p.length < 3)
    (hown : ∀ i ∈ p.head?, own i) (hw : Radix.walk childTable (entry s.mem) pml4 p = some t)
    (ha : FrameSource.alloc s.frames = some (page, frames)) :
    Radix.walk childTable (entry (linkTable s.mem t i page (midFlags flags))) pml4 (p ++ [i]) =
      some page := by
  obtain ⟨-, hpage, -, hnone, -⟩ := h.alloc ha
  have ht := h.walk hroot (by omega) hown hw
  have hsame : Radix.walk childTable (entry (linkTable s.mem t i page (midFlags flags))) pml4 p =
      Radix.walk childTable (entry s.mem) pml4 p := by
    -- the tables above are of another level than the one that is written
    refine Radix.walk_congr fun r k u hr hwr => ?_
    have hlen := hr.length_le
    rw [List.length_append, List.length_singleton] at hlen
    have hu := h.walk hroot (by omega) (head_of_isPrefix hown hr) hwr
    rw [h.entry_link ht hpage hnone hu]
    left
    rintro rfl
    rw [ht, Option.some.injEq] at hu
    omega
  rw [Radix.walk_concat, hsame, hw, Option.bind_some, entry_linkTable_self,
    childTable_link hpage.aligned hpage.small]

end

theorem mapInv (hroot : lvl pml4 = some 3) (hown : own (pml4Idx v))
    {J : Levels → Phys σ → List PhysEvent → Prop}
    (hJ : ∀ {lvl1 s1 es t l i page frames}, Forest own lvl1 s1 → Extends lvl lvl1 →
      lvl1 t = some (l + 1) → (l = 2 → t = pml4 ∧ i = pml4Idx v) →
      entry s1.mem t i &&& vmmPresent = 0 → FrameSource.alloc s1.frames = some (page, frames) →
      Radix.walk childTable (entry (linkTable s1.mem t i page (midFlags flags))) pml4
        ((tablePath v).take (3 - l)) = some page →
      J lvl1 s1 es → J (Function.update lvl1 page (some l))
        ⟨linkTable s1.mem t i page (midFlags flags), frames⟩ (es ++ linkEvents t i page)) :
    MapInv pml4 v flags fun s es => ∃ lvl1, Forest own lvl1 s ∧ Extends lvl lvl1 ∧ J lvl1 s es := by
  have hhead : ∀ {p : List (Fin 512)}, p <+: tablePath v → ∀ i ∈ p.head?, own i := by
    intro p hp i hi
    rw [head_tablePath hp hi]
    exact hown
  have hlen : ∀ {p : List (Fin 512)}, p <+: tablePath v → p.length ≤ 3 := fun hp => hp.length_le
  constructor
  · rintro s es p t ⟨lvl1, h, hext, -⟩ hp hw
    exact (h.table t _ (h.walk (hext _ _ hroot) (hlen hp) (hhead hp) hw)).1.nonzero
  · rintro s es p t i page frames ⟨lvl1, h, hext, hj⟩ hp hw hempty ha
    have hroot1 := hext _ _ hroot
    have hp' := (List.prefix_append p [i]).trans hp
    have hlt := hlen hp
    rw [List.length_append, List.length_singleton] at hlt
    have ht := h.walk hroot1 (by omega) (hhead hp') hw
    rw [show 3 - p.length = 3 - (p.length + 1) + 1 by omega] at ht
    have hwalk := @walk_link _ _ _ own lvl1 s t page pml4 i p flags frames h hroot1 (by omega)
      (hhead hp') hw ha
    obtain ⟨-, hpage, -, hnone, -⟩ := h.alloc ha
    refine ⟨hpage, ⟨_, h.link ht ha, hext.trans (extends_update hnone _), hJ h hext ht ?_ hempty ha
      ?_ hj⟩, hwalk⟩
    · intro hl
      obtain rfl : p = [] := List.length_eq_zero_iff.mp (by omega)
      obtain ⟨q, hq⟩ := hp
      cases hw
      exact ⟨rfl, (List.cons.inj hq).1⟩
    · rw [show 3 - (3 - (p.length + 1)) = (p ++ [i]).length by simp; omega,
        ← List.prefix_iff_eq_take.mp hp]
      exact hwalk

end Forest

end DevOs
