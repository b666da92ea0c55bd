import Mathlib.Data.List.Chain
import Mathlib.Data.List.Nodup

/-!
Intrusive linked lists, over any type of nodes, `none` being the null pointer:

* `Ring next prev q` — the circular list that runs through `q`;
* `Path next p l` — the null-terminated list `l` that starts at pointer `p`;
* `Dll next prev back p l` — the same with back pointers.

A ring is stated through `List.IsChain (Linked next prev)`, so that an edit is local:
a chain reads the `next` of every node but its last and the `prev` of every node but
its first.
-/

namespace Intrusive

variable {α : Type*}

def Linked (next prev : α → Option α) (x y : α) : Prop :=
  next x = some y ∧ prev y = some x

theorem isChain_linked_congr {next prev next' prev' : α → Option α} :
    ∀ {q : List α}, q.Nodup → q.IsChain (Linked next prev) →
      (∀ x ∈ q, x ∉ q.getLast? → next' x = next x) → (∀ x ∈ q, x ∉ q.head? → prev' x = prev x) →
      q.IsChain (Linked next' prev')
  | [], _, _, _, _ => List.isChain_nil
  | [_], _, _, _, _ => List.isChain_singleton _
  | x :: y :: q, hnd, hc, hn, hp => by
    rw [List.isChain_cons_cons] at hc ⊢
    obtain ⟨⟨hxy, hyx⟩, htail⟩ := hc
    have hx : x ∉ y :: q := (List.nodup_cons.mp hnd).1
    have hnd' : (y :: q).Nodup := (List.nodup_cons.mp hnd).2
    have hlast : (x :: y :: q).getLast? = (y :: q).getLast? := by
      rw [List.getLast?_cons_cons]
    have hxl : x ∉ (x :: y :: q).getLast? := by
      rw [hlast]
      intro hmem
      exact hx (List.mem_of_getLast? hmem)
    have hyh : y ∉ (x :: y :: q).head? := by
      intro hmem
      have hxy' : x = y := by simpa using hmem
      exact hx (by rw [hxy']; exact List.mem_cons_self)
    refine ⟨⟨?_, ?_⟩, isChain_linked_congr hnd' htail ?_ ?_⟩
    · rw [hn x List.mem_cons_self hxl, hxy]
    · rw [hp y (List.mem_cons_of_mem x List.mem_cons_self) hyh, hyx]
    · intro z hz hzl
      exact hn z (List.mem_cons_of_mem x hz) (by rw [hlast]; exact hzl)
    · intro z hz hzh
      refine hp z (List.mem_cons_of_mem x hz) ?_
      intro hmem
      have hzx : x = z := by simpa using hmem
      exact hx (by rw [hzx]; exact hz)

/-- The circular list through `q`: no node occurs twice, neighbours point at
each other, and the last node closes the circle with the first. -/
structure Ring (next prev : α → Option α) (q : List α) : Prop where
  nodup : q.Nodup
  chain : q.IsChain (Linked next prev)
  closed : ∀ x ∈ q.getLast?, ∀ y ∈ q.head?, Linked next prev x y

namespace Ring

variable {next prev next' prev' : α → Option α} {q : List α}

theorem nil : Ring next prev ([] : List α) :=
  ⟨List.nodup_nil, List.isChain_nil, by simp⟩

theorem singleton {t : α} (hn : next t = some t) (hp : prev t = some t) : Ring next prev [t] := by
  refine ⟨List.nodup_singleton t, List.isChain_singleton t, ?_⟩
  intro x hx y hy
  simp only [List.getLast?_singleton, Option.mem_some_iff] at hx
  simp only [List.head?_cons, Option.mem_some_iff] at hy
  subst hx hy
  exact ⟨hn, hp⟩

theorem rotate {l r : List α} (h : Ring next prev (l ++ r)) : Ring next prev (r ++ l) := by
  by_cases hl0 : l = []
  · subst hl0; simpa using h
  by_cases hr0 : r = []
  · subst hr0; simpa using h
  obtain ⟨hnd, hc, hcl⟩ := h
  obtain ⟨hl, hr, hseam⟩ := List.isChain_append.mp hc
  refine ⟨?_, List.isChain_append.mpr ⟨hr, hl, ?_⟩, ?_⟩
  · exact (List.perm_append_comm.nodup_iff).mp hnd
  · intro x hx y hy
    refine hcl x ?_ y ?_
    · rw [List.getLast?_append, Option.mem_def.mp hx]; rfl
    · rw [List.head?_append, Option.mem_def.mp hy]; rfl
  · intro x hx y hy
    refine hseam x ?_ y ?_
    · rw [List.getLast?_append, List.getLast?_eq_some_getLast hl0] at hx
      rw [List.getLast?_eq_some_getLast hl0]; exact hx
    · rw [List.head?_append, List.head?_eq_some_head hr0] at hy
      rw [List.head?_eq_some_head hr0]; exact hy

theorem frame (h : Ring next prev q) (hn : ∀ x ∈ q, next' x = next x)
    (hp : ∀ x ∈ q, prev' x = prev x) : Ring next' prev' q := by
  refine ⟨h.nodup, isChain_linked_congr h.nodup h.chain (fun x hx _ => hn x hx)
    (fun x hx _ => hp x hx), ?_⟩
  intro x hx y hy
  have hxy := h.closed x hx y hy
  exact ⟨(hn x (List.mem_of_getLast? hx)).trans hxy.1,
    (hp y (List.mem_of_mem_head? hy)).trans hxy.2⟩

theorem concat {h l t : α} (hr : Ring next prev q) (hh : h ∈ q.head?) (hl : l ∈ q.getLast?)
    (ht : t ∉ q) (h1 : next' l = some t) (h2 : prev' t = some l) (h3 : next' t = some h)
    (h4 : prev' h = some t) (hn : ∀ x ∈ q, x ≠ l → next' x = next x)
    (hp : ∀ x ∈ q, x ≠ h → prev' x = prev x) : Ring next' prev' (q ++ [t]) := by
  refine ⟨?_, List.isChain_append.mpr ⟨?_, List.isChain_singleton t, ?_⟩, ?_⟩
  · rw [List.nodup_append]
    refine ⟨hr.nodup, List.nodup_singleton t, ?_⟩
    intro x hx y hy hxy
    rw [List.mem_singleton] at hy
    exact ht (by rw [← hy, ← hxy]; exact hx)
  · refine isChain_linked_congr hr.nodup hr.chain (fun x hx hxl => hn x hx ?_)
      (fun x hx hxh => hp x hx ?_)
    · rintro rfl; exact hxl hl
    · rintro rfl; exact hxh hh
  · intro x hx y hy
    have hxl : x = l := Option.mem_unique hx hl
    have hyt : t = y := by simpa using hy
    subst hxl hyt
    exact ⟨h1, h2⟩
  · intro x hx y hy
    have hxt : t = x := by simpa using hx
    have hyh : y = h := by
      have hy' : y ∈ q.head? := by
        rcases q with _ | ⟨a, q⟩
        · simp at hh
        · simpa using hy
      exact Option.mem_unique hy' hh
    subst hxt hyh
    exact ⟨h3, h4⟩

theorem tail {x h l : α} (hr : Ring next prev (x :: q)) (hh : h ∈ q.head?) (hl : l ∈ q.getLast?)
    (h1 : next' l = some h) (h2 : prev' h = some l) (hn : ∀ y ∈ q, y ≠ l → next' y = next y)
    (hp : ∀ y ∈ q, y ≠ h → prev' y = prev y) : Ring next' prev' q := by
  have hnd : q.Nodup := (List.nodup_cons.mp hr.nodup).2
  have hc : q.IsChain (Linked next prev) := by
    have := hr.chain.tail
    simpa using this
  refine ⟨hnd, isChain_linked_congr hnd hc (fun y hy hyl => hn y hy ?_)
    (fun y hy hyh => hp y hy ?_), ?_⟩
  · rintro rfl; exact hyl hl
  · rintro rfl; exact hyh hh
  · intro a ha b hb
    have hal : a = l := Option.mem_unique ha hl
    have hbh : b = h := Option.mem_unique hb hh
    subst hal hbh
    exact ⟨h1, h2⟩

theorem neighbours_cons {x h l : α} (hr : Ring next prev (x :: q)) (hh : h ∈ q.head?)
    (hl : l ∈ q.getLast?) : next x = some h ∧ prev x = some l := by
  rcases q with _ | ⟨b, q⟩
  · simp at hh
  have hbh : b = h := by simpa using hh
  subst hbh
  have hxb : Linked next prev x b := (List.isChain_cons_cons.mp hr.chain).1
  have hlx : Linked next prev l x := hr.closed l (by rw [List.getLast?_cons_cons]; exact hl) x
    (by simp)
  exact ⟨hxb.1, hlx.2⟩

theorem prev_head {h l : α} (hr : Ring next prev q) (hh : h ∈ q.head?) (hl : l ∈ q.getLast?) :
    next l = some h ∧ prev h = some l := hr.closed l hl h hh

theorem next_self_iff {x : α} (hr : Ring next prev q) (hx : x ∈ q) : next x = some x ↔ q = [x] := by
  constructor
  · intro hself
    obtain ⟨l, r, rfl⟩ := List.append_of_mem hx
    have hrot : Ring next prev (x :: (r ++ l)) := by simpa using hr.rotate
    rcases hrl : r ++ l with _ | ⟨b, rest⟩
    · rw [List.append_eq_nil_iff] at hrl
      obtain ⟨rfl, rfl⟩ := hrl
      simp
    · rw [hrl] at hrot
      have hxb := (List.isChain_cons_cons.mp hrot.chain).1.1
      have hb : x = b := Option.some.inj (hself.symm.trans hxb)
      have hnd := (List.nodup_cons.mp hrot.nodup).1
      exact absurd (by rw [hb]; exact List.mem_cons_self) hnd
  · rintro rfl
    exact (hr.closed x (by simp) x (by simp)).1

/-- **Unlinking a node** from a circle of at least two: its neighbours are
made to point at each other, and the rest of the circle keeps its order. -/
theorem erase {x a b : α} {l r : List α} (hr : Ring next prev (l ++ x :: r))
    (hne : l ++ r ≠ []) (hnx : next x = some b) (hpx : prev x = some a)
    (h1 : next' a = some b) (h2 : prev' b = some a) (hn : ∀ y ∈ l ++ r, y ≠ a → next' y = next y)
    (hp : ∀ y ∈ l ++ r, y ≠ b → prev' y = prev y) : Ring next' prev' (l ++ r) := by
  have hrot : Ring next prev (x :: (r ++ l)) := by simpa using hr.rotate
  have hne' : r ++ l ≠ [] := by
    intro h0
    rw [List.append_eq_nil_iff] at h0
    exact hne (by rw [h0.1, h0.2, List.append_nil])
  obtain ⟨h, hh⟩ : ∃ h, h ∈ (r ++ l).head? := ⟨(r ++ l).head hne', List.head?_eq_some_head hne'⟩
  obtain ⟨t, ht⟩ : ∃ t, t ∈ (r ++ l).getLast? :=
    ⟨(r ++ l).getLast hne', List.getLast?_eq_some_getLast hne'⟩
  obtain ⟨hxh, hxt⟩ := hrot.neighbours_cons hh ht
  have hb : h = b := Option.some.inj (hxh.symm.trans hnx)
  have ha : t = a := Option.some.inj (hxt.symm.trans hpx)
  subst hb ha
  have hmem : ∀ y, y ∈ r ++ l ↔ y ∈ l ++ r := fun y => List.perm_append_comm.mem_iff
  exact (hrot.tail hh ht h1 h2 (fun y hy => hn y ((hmem y).mp hy))
    (fun y hy => hp y ((hmem y).mp hy))).rotate

theorem neighbours {x : α} {l r : List α} (hr : Ring next prev (l ++ x :: r)) (hne : l ++ r ≠ []) :
    ∃ a ∈ l ++ r, ∃ b ∈ l ++ r, next x = some b ∧ prev x = some a := by
  have hrot : Ring next prev (x :: (r ++ l)) := by simpa using hr.rotate
  have hne' : r ++ l ≠ [] := by
    intro h0
    rw [List.append_eq_nil_iff] at h0
    exact hne (by rw [h0.1, h0.2, List.append_nil])
  have hmem : ∀ y, y ∈ r ++ l → y ∈ l ++ r := fun y => List.perm_append_comm.mem_iff.mp
  have hh := List.head?_eq_some_head hne'
  have hl := List.getLast?_eq_some_getLast hne'
  obtain ⟨h1, h2⟩ := hrot.neighbours_cons hh hl
  exact ⟨_, hmem _ (List.getLast_mem hne'), _, hmem _ (List.head_mem hne'), h1, h2⟩

end Ring

/-- The list that starts at `p` and follows `next`. -/
def Path (next : α → Option α) : Option α → List α → Prop
  | p, [] => p = none
  | p, a :: l => p = some a ∧ Path next (next a) l

/-- The doubly linked list that starts at `p`; the first node points back to
`back`. -/
def Dll (next prev : α → Option α) : Option α → Option α → List α → Prop
  | _, p, [] => p = none
  | back, p, a :: l => p = some a ∧ prev a = back ∧ Dll next prev (some a) (next a) l

variable {next prev next' prev' : α → Option α} {back p : Option α} {l l1 l2 : List α} {x : α}

theorem Path.head (h : Path next p l) : p = l.head? := by
  cases l with
  | nil => exact h
  | cons a l => exact h.1

theorem Path.frame (h : Path next p l) (hn : ∀ y ∈ l, next' y = next y) : Path next' p l := by
  induction l generalizing p with
  | nil => exact h
  | cons a l ih =>
    refine ⟨h.1, ?_⟩
    rw [hn a List.mem_cons_self]
    exact ih h.2 fun y hy => hn y (List.mem_cons_of_mem a hy)

theorem Dll.path (h : Dll next prev back p l) : Path next p l := by
  induction l generalizing back p with
  | nil => exact h
  | cons a l ih => exact ⟨h.1, ih h.2.2⟩

theorem Dll.frame (h : Dll next prev back p l) (hn : ∀ y ∈ l, next' y = next y)
    (hp : ∀ y ∈ l, prev' y = prev y) : Dll next' prev' back p l := by
  induction l generalizing back p with
  | nil => exact h
  | cons a l ih =>
    refine ⟨h.1, (hp a List.mem_cons_self).trans h.2.1, ?_⟩
    rw [hn a List.mem_cons_self]
    exact ih h.2.2 (fun y hy => hn y (List.mem_cons_of_mem a hy))
      (fun y hy => hp y (List.mem_cons_of_mem a hy))

theorem Dll.push [DecidableEq α] (h : Dll next prev none p l) (hnd : l.Nodup) (hx : next' x = p)
    (hx' : prev' x = none) (hn : ∀ y ∈ l, next' y = next y)
    (hp : ∀ y ∈ l, prev' y = if p = some y then some x else prev y) :
    Dll next' prev' none (some x) (x :: l) := by
  refine ⟨rfl, hx', ?_⟩
  rw [hx]
  cases l with
  | nil => exact h
  | cons a l =>
    obtain ⟨rfl, -, hrest⟩ := h
    refine ⟨rfl, by rw [hp a List.mem_cons_self, if_pos rfl], ?_⟩
    rw [hn a List.mem_cons_self]
    refine hrest.frame (fun y hy => hn y (List.mem_cons_of_mem a hy)) fun y hy => ?_
    have hya : a ≠ y := by
      rintro rfl
      exact (List.nodup_cons.mp hnd).1 hy
    rw [hp y (List.mem_cons_of_mem a hy), if_neg (fun hc => hya (Option.some.inj hc))]

theorem Dll.neighbours (h : Dll next prev back p (l1 ++ x :: l2)) :
    next x = l2.head? ∧ prev x = l1.getLast?.or back := by
  induction l1 generalizing back p with
  | nil => exact ⟨h.2.2.path.head, h.2.1⟩
  | cons a l1 ih =>
    obtain ⟨hnext, hprev⟩ := ih h.2.2
    refine ⟨hnext, hprev.trans ?_⟩
    cases l1 with
    | nil => rfl
    | cons b l1 => rw [List.getLast?_cons_cons, List.getLast?_eq_some_getLast (by simp)]; rfl

theorem Dll.unlink [DecidableEq α] (h : Dll next prev back p (l1 ++ x :: l2))
    (hnd : (l1 ++ x :: l2).Nodup) (hback : ∀ b ∈ back, b ∉ l1 ++ x :: l2)
    (hn : ∀ y ∈ l1 ++ l2, next' y = if prev x = some y then next x else next y)
    (hp : ∀ y ∈ l1 ++ l2, prev' y = if next x = some y then prev x else prev y) :
    Dll next' prev' back (if l1 = [] then next x else p) (l1 ++ l2) := by
  induction l1 generalizing back p with
  | nil =>
    obtain ⟨-, hprev, hrest⟩ := h
    rw [List.nil_append] at hnd hback hn hp
    rw [if_pos rfl, List.nil_append]
    have hnext' : ∀ y ∈ l2, next' y = next y := by
      intro y hy
      rw [hn y hy, if_neg]
      rw [hprev]
      rintro rfl
      exact hback y rfl (List.mem_cons_of_mem x hy)
    cases l2 with
    | nil => exact hrest
    | cons b l2 =>
      obtain ⟨hxb, -, htail⟩ := hrest
      refine ⟨hxb, by rw [hp b List.mem_cons_self, if_pos hxb, hprev], ?_⟩
      rw [hnext' b List.mem_cons_self]
      refine htail.frame (fun y hy => hnext' y (List.mem_cons_of_mem b hy)) fun y hy => ?_
      have hby : b ≠ y := by
        rintro rfl
        exact (List.nodup_cons.mp (List.nodup_cons.mp hnd).2).1 hy
      rw [hp y (List.mem_cons_of_mem b hy), hxb, if_neg (fun hc => hby (Option.some.inj hc))]
  | cons a l1 ih =>
    obtain ⟨hnext, hprev⟩ := h.neighbours
    obtain ⟨hpa, hpreva, hrest⟩ := h
    rw [List.cons_append] at hnd hn hp
    obtain ⟨hanot, hnd'⟩ := List.nodup_cons.mp hnd
    have hal2 : a ∉ l2 := fun hc => hanot (List.mem_append_right _ (List.mem_cons_of_mem x hc))
    have hxa : next x ≠ some a := by
      rw [hnext]
      exact fun hc => hal2 (List.mem_of_mem_head? hc)
    rw [if_neg (List.cons_ne_nil a l1)]
    refine ⟨hpa, by rw [hp a List.mem_cons_self, if_neg hxa, hpreva], ?_⟩
    -- the node before `x` is `a` exactly when `x` comes next
    have hlast : prev x = some a ↔ l1 = [] := by
      rw [hprev]
      cases l1 with
      | nil => simp
      | cons c l1 =>
        rw [List.getLast?_cons_cons, List.getLast?_eq_some_getLast (List.cons_ne_nil c l1)]
        simp only [Option.some_or, Option.some.injEq, reduceCtorEq, iff_false]
        rintro rfl
        exact hanot (List.mem_append_left _ (List.getLast_mem (List.cons_ne_nil c l1)))
    have hnexta : next' a = if l1 = [] then next x else next a := by
      rw [hn a List.mem_cons_self]
      simp only [hlast]
    rw [hnexta]
    refine ih hrest hnd' ?_ (fun y hy => hn y (List.mem_cons_of_mem a hy))
      (fun y hy => hp y (List.mem_cons_of_mem a hy))
    rintro b hb
    cases hb
    exact hanot

end Intrusive
