import DevOs.Mm.Vmm.Rule

/-!
The page tables of one address space as a tree that grows.
-/

namespace DevOs

open ByteMem FrameSupply Radix

variable {σ : Type} [FrameSource σ] [FrameSupply σ]

structure TreeOk (used : Nat → Prop) (pml4 : Nat) (s : Phys σ) : Prop where
  supply : Ok s.frames
  tree : PageTree s.mem pml4 used
  table : ∀ t, used t → TableFrame t ∧ ¬ Free s.frames t

/-- The tables of `s'` are those of `s` and frames that were free there; they
answer lookups as before. -/
structure Grown (used used' : Nat → Prop) (pml4 : Nat) (s s' : Phys σ) : Prop where
  mono : ∀ t, used t → used' t
  fresh : ∀ t, used' t → used t ∨ Free s.frames t
  free : ∀ f, Free s'.frames f → Free s.frames f
  walk : ∀ p t, p.length ≤ 3 → walk childTable (entry s.mem) pml4 p = some t →
    walk childTable (entry s'.mem) pml4 p = some t
  lookup : ∀ q j, q.length = 3 → lookup childTable leafFrame (entry s'.mem) pml4 q j =
    lookup childTable leafFrame (entry s.mem) pml4 q j

variable {used used' used'' : Nat → Prop} {pml4 t page : Nat} {s s' s'' : Phys σ}
  {p q : List (Fin 512)} {i j : Fin 512} {flags v : BitVec 64} {frames : σ}

theorem Grown.refl (used : Nat → Prop) (pml4 : Nat) (s : Phys σ) : Grown used used pml4 s s :=
  ⟨fun _ h => h, fun _ h => .inl h, fun _ h => h, fun _ _ _ h => h, fun _ _ _ => rfl⟩

theorem Grown.trans (h : Grown used used' pml4 s s') (h' : Grown used' used'' pml4 s' s'') :
    Grown used used'' pml4 s s'' where
  mono t ht := h'.mono t (h.mono t ht)
  fresh t ht := (h'.fresh t ht).elim (h.fresh t) fun hf => .inr (h.free t hf)
  free f hf := h.free f (h'.free f hf)
  walk p t hp hw := h'.walk p t hp (h.walk p t hp hw)
  lookup q j hq := (h'.lookup q j hq).trans (h.lookup q j hq)

namespace TreeOk

theorem walk_frame (h : TreeOk used pml4 s) {m' : Mem}
    (hm : ∀ t i, used t → entry m' t i = entry s.mem t i) (hq : q.length ≤ 3) :
    walk childTable (entry m') pml4 q = walk childTable (entry s.mem) pml4 q := by
  refine walk_congr fun r k u hr hwr => ?_
  have hlen := hr.length_le
  rw [List.length_append, List.length_singleton] at hlen
  rw [hm u k (h.tree.used r u (by omega) hwr)]

variable {α : Type*}

section

variable (h : TreeOk used pml4 s)
include h

theorem lookup_frame {m' : Mem}
    (hm : ∀ t i, used t → entry m' t i = entry s.mem t i) (leaf : BitVec 64 → Option α)
    (hq : q.length = 3) : lookup childTable leaf (entry m') pml4 q j =
      lookup childTable leaf (entry s.mem) pml4 q j := by
  unfold lookup
  rw [h.walk_frame hm hq.le]
  cases hw : walk childTable (entry s.mem) pml4 q with
  | none => rw [Option.bind_none, Option.bind_none]
  | some u => rw [Option.bind_some, Option.bind_some, hm u j (h.tree.used q u hq.le hw)]

theorem frame (hm : ∀ t i, used t → entry s'.mem t i = entry s.mem t i) (hok : Ok s'.frames)
    (hf : ∀ t, used t → ¬ Free s'.frames t) : TreeOk used pml4 s' ∧ ∀ q j, q.length = 3 →
      lookup childTable leafFrame (entry s'.mem) pml4 q j =
        lookup childTable leafFrame (entry s.mem) pml4 q j := by
  have hwalk : ∀ q : List (Fin 512), q.length ≤ 3 →
      walk childTable (entry s'.mem) pml4 q = walk childTable (entry s.mem) pml4 q :=
    fun q hq => h.walk_frame hm hq
  refine ⟨⟨hok, ⟨?_, ?_, ?_⟩, fun t ht => ⟨(h.table t ht).1, hf t ht⟩⟩,
    fun q j hq => h.lookup_frame hm leafFrame hq⟩
  · intro p q t hp hq hwp hwq
    rw [hwalk p hp] at hwp
    rw [hwalk q hq] at hwq
    exact h.tree.inj p q t hp hq hwp hwq
  · intro p t hp hw
    rw [hwalk p hp] at hw
    exact h.tree.used p t hp hw
  · intro p t i hp hw hc
    rw [hwalk p (by omega)] at hw
    rw [hm t i (h.tree.used p t (by omega) hw)] at hc ⊢
    exact h.tree.mid p t i hp hw hc

theorem alloc (ha : allocPage s = some (page, s')) :
    TreeOk used pml4 s' ∧ (Free s.frames page ∧ ∀ t, used t → t ≠ page) ∧
      (∀ t, Free s'.frames t ↔ Free s.frames t ∧ t ≠ page) ∧
      ∀ t i, used t → entry s'.mem t i = entry s.mem t i := by
  obtain ⟨frames, hs, rfl⟩ := allocPage_eq_some ha
  obtain ⟨hok, hfree, hiff⟩ := alloc_some h.supply hs
  have hnot : ∀ t, used t → t ≠ page := by
    rintro t ht rfl
    exact (h.table t ht).2 hfree
  have hentry : ∀ t i, used t → entry (fill s.mem page pageSize 0) t i = entry s.mem t i :=
    fun t i ht => entry_fill_of_ne (tableFrame h.supply hfree).aligned (h.table t ht).1.aligned
      (hnot t ht)
  obtain ⟨htree, -⟩ : TreeOk used pml4 (⟨fill s.mem page pageSize 0, frames⟩ : Phys σ) ∧ _ :=
    h.frame hentry hok fun t ht hf => (h.table t ht).2 ((hiff t).mp hf).1
  exact ⟨htree, ⟨hfree, hnot⟩, hiff, hentry⟩

theorem entry_link (ht : used t)
    (ha : FrameSource.alloc s.frames = some (page, frames)) (flags : BitVec 64) :
    TableFrame page ∧ ¬ used page ∧ (∀ u k, used u → u ≠ t ∨ k ≠ i →
        entry (linkTable s.mem t i page (midFlags flags)) u k = entry s.mem u k) ∧
      childTable (entry (linkTable s.mem t i page (midFlags flags)) t i) = some page ∧
      (∀ k, entry (linkTable s.mem t i page (midFlags flags)) page k = 0) ∧
      ∀ k, childTable (entry (linkTable s.mem t i page (midFlags flags)) page k) = none := by
  obtain ⟨-, hfree, -⟩ := alloc_some h.supply ha
  have hpage := tableFrame h.supply hfree
  have hfresh : ¬ used page := fun hu => (h.table page hu).2 hfree
  have htal := (h.table t ht).1.aligned
  have hne : ∀ u, used u → u ≠ page := by
    rintro u hu rfl
    exact hfresh hu
  have hzero : ∀ k, entry (linkTable s.mem t i page (midFlags flags)) page k = 0 := fun k =>
    entry_linkTable_new htal hpage.aligned (hne t ht).symm
  refine ⟨hpage, hfresh, fun u k hu => ?_, ?_, hzero, fun k => ?_⟩
  · exact entry_linkTable_of_ne htal hpage.aligned (h.table u hu).1.aligned (hne u hu)
  · rw [entry_linkTable_self]
    exact childTable_link hpage.aligned hpage.small flags
  · rw [hzero k]
    exact childTable_zero

theorem link (hp : p.length < 3) (hw : walk childTable (entry s.mem) pml4 p = some t)
    (hempty : entry s.mem t i &&& vmmPresent = 0)
    (ha : FrameSource.alloc s.frames = some (page, frames)) (flags : BitVec 64) : TableFrame page ∧
      TreeOk (fun u => used u ∨ u = page) pml4 ⟨linkTable s.mem t i page (midFlags flags), frames⟩ ∧
      Grown used (fun u => used u ∨ u = page) pml4 s
        ⟨linkTable s.mem t i page (midFlags flags), frames⟩ ∧
      walk childTable (entry (linkTable s.mem t i page (midFlags flags))) pml4 (p ++ [i]) =
        some page := by
  obtain ⟨hok, hfree, hiff⟩ := alloc_some h.supply ha
  obtain ⟨hpage, hfresh, hother, hlink, hzero, hnew⟩ :=
    h.entry_link (i := i) (h.tree.used p t (by omega) hw) ha flags
  have hnone := (childTable_eq_none_iff _).mpr hempty
  have hwalk := fun {q} => h.tree.walk_link hp hw hnone hother hlink hnew (q := q)
  refine ⟨hpage, ⟨hok, ?_, ?_⟩, ⟨fun u => .inl, ?_, fun f hf => ((hiff f).mp hf).1, ?_, ?_⟩, ?_⟩
  · refine h.tree.link hp hw hnone hother hlink hnew hfresh ?_ (fun u => .inl) (.inr rfl)
    rw [entry_linkTable_self, and_huge_eq_zero_iff]
    exact (getLsbD_link hpage.aligned hpage.small flags).2
  · rintro u (hu | rfl)
    · exact ⟨(h.table u hu).1, fun hf => (h.table u hu).2 ((hiff u).mp hf).1⟩
    · exact ⟨hpage, fun hf => ((hiff u).mp hf).2 rfl⟩
  · rintro u (hu | rfl)
    · exact .inl hu
    · exact .inr hfree
  · intro q u hq hwq
    rw [hwalk hq, if_neg]
    · exact hwq
    · rintro rfl
      rw [walk_concat, hw, Option.bind_some, hnone] at hwq
      cases hwq
  · exact fun q j hq => h.tree.lookup_link hp hw hnone hother hlink hnew leafFrame
      (fun k => by rw [hzero k]; exact leafFrame_zero) hq
  · rw [hwalk (by simp; omega), if_pos rfl]

end

/-- What has been done on the way to a page: the tables have grown, the frames
that are gone are tables on that way, and only tables have been written. -/
structure Mapping (used : Nat → Prop) (pml4 : Nat) (v : BitVec 64) (s : Phys σ)
    (used' : Nat → Prop) (s' : Phys σ) : Prop where
  tree : TreeOk used' pml4 s'
  grown : Grown used used' pml4 s s'
  took : ∀ f, Free s.frames f → Free s'.frames f ∨
    ∃ p, p <+: tablePath v ∧ walk childTable (entry s'.mem) pml4 p = some f
  mem : ∀ x, (∀ t, used' t → x < t ∨ t + pageSize ≤ x) → s'.mem x = s.mem x

theorem mappingStart (h : TreeOk used pml4 s) (v : BitVec 64) : Mapping used pml4 v s used s :=
  ⟨h, Grown.refl used pml4 s, fun _ hf => .inl hf, fun _ _ => rfl⟩

theorem mapInv (used : Nat → Prop) (pml4 : Nat) (v flags : BitVec 64) (s : Phys σ) :
    MapInv pml4 v flags fun s1 _ => ∃ used', Mapping used pml4 v s used' s1 := by
  constructor
  · rintro s1 es p t ⟨used', h1⟩ hp hw
    exact (h1.tree.table t (h1.tree.tree.used p t hp.length_le hw)).1.nonzero
  · rintro s1 es p t i page frames ⟨used', h1⟩ hp hw hempty ha
    have hlen := hp.length_le
    rw [List.length_append, List.length_singleton] at hlen
    have hlt : p.length < 3 := hlen
    have ht := h1.tree.tree.used p t (by omega) hw
    obtain ⟨hpage, h2, hg2, hwalk⟩ := h1.tree.link hlt hw hempty ha flags
    refine ⟨hpage, ⟨_, h2, h1.grown.trans hg2, fun f hf => ?_, fun x hx => ?_⟩, hwalk⟩
    · obtain hf | ⟨q, hq, hwq⟩ := h1.took f hf
      · by_cases hfp : f = page
        · exact .inr ⟨p ++ [i], hp, by rw [hfp]; exact hwalk⟩
        · exact .inl (((alloc_some h1.tree.supply ha).2.2 f).mpr ⟨hf, hfp⟩)
      · exact .inr ⟨q, hq, hg2.walk q f hq.length_le hwq⟩
    · have hi := i.isLt
      have hxt := hx t (.inl ht)
      rw [pageSize_eq] at hxt
      change linkTable s1.mem t i page (midFlags flags) x = s.mem x
      rw [← h1.mem x fun u hu => hx u (.inl hu), linkTable, DevOs.setEntry,
        store_apply_of_disjoint (by omega), fill_apply_of_disjoint (hx page (.inr rfl))]

/-- **`vmm_map`** links what is missing on the way to the page, and gives up or
writes its entry. -/
theorem mapping (h : TreeOk used pml4 s) (v phys flags : BitVec 64) :
    ∃ used' s1, Mapping used pml4 v s used' s1 ∧
      (DevOs.vmmMap s pml4 v phys flags = s1 ∧ FrameSource.alloc s1.frames = none ∧
          pageTable s1.mem pml4 v = none ∨ ∃ pt, pageTable s1.mem pml4 v = some pt ∧
          DevOs.vmmMap s pml4 v phys flags = { s1 with
              mem := setEntry s1.mem pt (ptIdx v) ((phys &&& vmmPhysMask) ||| flags) }) := by
  obtain ⟨s1, es, ⟨used', h1⟩, hend⟩ :=
    vmmMap_rule (mapInv used pml4 v flags s) ⟨used, h.mappingStart v⟩ phys
  refine ⟨used', s1, h1, ?_⟩
  obtain ⟨heq, -, ha, hnone⟩ | ⟨pt, hpt, heq, -⟩ := hend
  · exact .inl ⟨heq, ha, hnone⟩
  · exact .inr ⟨pt, hpt, heq⟩

theorem vmmMap (h : TreeOk used pml4 s) (v phys flags : BitVec 64) :
    ∃ used' s1, TreeOk used' pml4 s1 ∧ Grown used used' pml4 s s1 ∧
      (∀ f, Free s.frames f → Free s1.frames f ∨
        ∃ p, p <+: tablePath v ∧ walk childTable (entry s1.mem) pml4 p = some f) ∧
      (vmmMap s pml4 v phys flags = s1 ∧ FrameSource.alloc s1.frames = none ∨
        ∃ pt, pageTable s1.mem pml4 v = some pt ∧ vmmMap s pml4 v phys flags = { s1 with
              mem := setEntry s1.mem pt (ptIdx v) ((phys &&& vmmPhysMask) ||| flags) }) := by
  obtain ⟨used', s1, h1, hend⟩ := h.mapping v phys flags
  exact ⟨used', s1, h1.tree, h1.grown, h1.took, hend.imp_left fun hgave => ⟨hgave.1, hgave.2.1⟩⟩

theorem entry_other {pt u : Nat} {k : Fin 512} (h : TreeOk used pml4 s)
    (hpt : pageTable s.mem pml4 v = some pt) (e : BitVec 64) (hu : used u)
    (hne : u ≠ pt ∨ k ≠ ptIdx v) :
    entry (DevOs.setEntry s.mem pt (ptIdx v) e) u k = entry s.mem u k :=
  entry_setEntry_of_ne (h.table pt (h.tree.used _ pt (length_tablePath v).le hpt)).1.aligned
    (h.table u hu).1.aligned hne

theorem lookup_setEntry {pt : Nat} (h : TreeOk used pml4 s)
    (hpt : pageTable s.mem pml4 v = some pt) (e : BitVec 64) (leaf : BitVec 64 → Option α)
    (hq : q.length = 3) :
    lookup childTable leaf (entry (DevOs.setEntry s.mem pt (ptIdx v) e)) pml4 q j =
      if q = tablePath v ∧ j = ptIdx v then leaf e
      else lookup childTable leaf (entry s.mem) pml4 q j := by
  rw [h.tree.lookup_write (length_tablePath v) hpt (fun u k => h.entry_other hpt e) leaf hq,
    entry_setEntry_self]

theorem setEntry {pt : Nat} (h : TreeOk used pml4 s) (hpt : pageTable s.mem pml4 v = some pt)
    (e : BitVec 64) : TreeOk used pml4 { s with mem := setEntry s.mem pt (ptIdx v) e } ∧
      (∀ q, q.length ≤ 3 →
        walk childTable (entry (DevOs.setEntry s.mem pt (ptIdx v) e)) pml4 q =
          walk childTable (entry s.mem) pml4 q) ∧
      ∀ q j, q.length = 3 →
        lookup childTable leafFrame (entry (DevOs.setEntry s.mem pt (ptIdx v) e)) pml4 q j =
          if q = tablePath v ∧ j = ptIdx v then leafFrame e
          else lookup childTable leafFrame (entry s.mem) pml4 q j := by
  have hpath := length_tablePath v
  have hother := fun u k => h.entry_other hpt e (u := u) (k := k)
  exact ⟨⟨h.supply, h.tree.write hpath hpt hother, h.table⟩,
    fun q hq => h.tree.walk_write hpath hpt hother hq,
    fun q j hq => h.lookup_setEntry hpt e leafFrame hq⟩

end TreeOk

end DevOs
