import DevOs.Fs.Lookup

/-!
Which mount a path belongs to: the one with the longest path that is a prefix of it
and ends where a component does (`Mount.Deepest`).
-/

namespace DevOs

/-- The path of the mount is a prefix of `path` that ends where a component does. -/
def Mount.Covers (path : CString) (m : Mount) : Prop :=
  m.path <+: path ∧
    (m.path = [slash] ∨ m.path = path ∨ path[m.path.length]? = some slash)

structure Mount.Deepest (mounts : List Mount) (path : CString) (m : Mount) : Prop where
  mem : m ∈ mounts
  covers : m.Covers path
  longest : ∀ m' ∈ mounts, m'.Covers path → m'.path.length ≤ m.path.length

/-- `find_mount`, with the index that `rel` points to. -/
def findMountAt (mounts : List Mount) (path : CString) : Option (NodeId × Nat) :=
  match findMountLoop path mounts none 0 with
  | (none, _) => none
  | (some m, bestLen) => m.root.map fun root => (root, bestLen)

theorem findMount_eq (s : Vfs) (path : CString) :
    findMount s path = (findMountAt s.mounts path).map fun res => (res.1, path.drop res.2) := by
  rw [findMount, findMountAt]
  obtain ⟨_ | m, bestLen⟩ := findMountLoop path s.mounts none 0
  · rfl
  · dsimp only
    rw [Option.map_map]
    rfl

/-- **What `find_mount` is for**: it returns the root of the deepest mount, and `rel` points
just behind its path; and it returns NULL only if no mount covers the path. -/
def FindsDeepest (mounts : List Mount) (path : CString) : Prop :=
  match findMountAt mounts path with
  | none => ∀ m ∈ mounts, ¬ m.Covers path
  | some (root, rel) =>
    ∃ m : Mount, m.Deepest mounts path ∧ m.root = some root ∧ rel = m.path.length

/-- The path of the mount is `path`, or it differs from it in its last character and not
before. -/
def Mount.Accepted (path : CString) (m : Mount) : Prop :=
  m.path = path ∨ (m.path ≠ [] ∧ m.path.dropLast <+: path ∧ ¬ m.path <+: path)

structure Mount.FirstLongest (mounts : List Mount) (path : CString) (m : Mount) : Prop where
  accepted : m.Accepted path
  split : ∃ before after, mounts = before ++ m :: after ∧
    (∀ m' ∈ before, m'.Accepted path → m'.path.length < m.path.length) ∧
    ∀ m' ∈ after, m'.Accepted path → m'.path.length ≤ m.path.length

variable {path : CString} {mounts before after : List Mount} {m : Mount} {best : Option Mount}
  {bestLen n : Nat}

theorem strncmp_eq_zero_iff_accepted (path : CString) (m : Mount) :
    strncmp path m.path m.path.length = 0 ↔ m.Accepted path := by
  rw [strncmp_length_eq_zero_iff, Mount.Accepted, eq_comm]

theorem findMountLoop_cons_of_better (ha : m.Accepted path) (hlen : bestLen < m.path.length) :
    findMountLoop path (m :: mounts) best bestLen =
      findMountLoop path mounts (some m) m.path.length := by
  rw [findMountLoop, if_pos ⟨(strncmp_eq_zero_iff_accepted path m).mpr ha, hlen⟩]

theorem findMountLoop_cons_of_not (h : m.Accepted path → m.path.length ≤ bestLen) :
    findMountLoop path (m :: mounts) best bestLen = findMountLoop path mounts best bestLen := by
  rw [findMountLoop, if_neg]
  rintro ⟨htest, hlen⟩
  exact Nat.not_lt_of_le (h ((strncmp_eq_zero_iff_accepted path m).mp htest)) hlen

theorem findMountLoop_of_le (h : ∀ m ∈ mounts, m.Accepted path → m.path.length ≤ bestLen) :
    findMountLoop path mounts best bestLen = (best, bestLen) := by
  induction mounts with
  | nil => rfl
  | cons m mounts ih =>
    rw [List.forall_mem_cons] at h
    rw [findMountLoop_cons_of_not h.1, ih h.2]

theorem findMountLoop_append_of_lt (ha : m.Accepted path) (hlen : bestLen < m.path.length)
    (h : ∀ m' ∈ before, m'.Accepted path → m'.path.length < m.path.length) :
    findMountLoop path (before ++ m :: after) best bestLen =
      findMountLoop path after (some m) m.path.length := by
  induction before generalizing best bestLen with
  | nil => exact findMountLoop_cons_of_better ha hlen
  | cons m' before ih =>
    rw [List.forall_mem_cons] at h
    rw [List.cons_append]
    by_cases hbetter : m'.Accepted path ∧ bestLen < m'.path.length
    · rw [findMountLoop_cons_of_better hbetter.1 hbetter.2, ih (h.1 hbetter.1) h.2]
    · rw [findMountLoop_cons_of_not fun ha' => Nat.le_of_not_lt fun hl => hbetter ⟨ha', hl⟩,
        ih hlen h.2]

theorem exists_firstLongest (mounts : List Mount) (path : CString) (n : Nat) :
    (∀ m ∈ mounts, m.Accepted path → m.path.length ≤ n) ∨
      ∃ m : Mount, m.FirstLongest mounts path ∧ n < m.path.length := by
  induction mounts generalizing n with
  | nil => exact .inl fun m hm => absurd hm List.not_mem_nil
  | cons m mounts ih =>
    by_cases hm : m.Accepted path ∧ n < m.path.length
    · -- a later one must be longer than this one
      obtain hle | ⟨c, ⟨hc, before, after, rfl, hbefore, hafter⟩, hlt⟩ := ih m.path.length
      · exact .inr ⟨m, ⟨hm.1, [], mounts, rfl, fun _ h => absurd h List.not_mem_nil, hle⟩, hm.2⟩
      · refine .inr ⟨c, ⟨hc, m :: before, after, rfl, ?_, hafter⟩, hm.2.trans hlt⟩
        exact List.forall_mem_cons.mpr ⟨fun _ => hlt, hbefore⟩
    · have hskip : m.Accepted path → m.path.length ≤ n :=
        fun ha => Nat.le_of_not_lt fun hl => hm ⟨ha, hl⟩
      obtain hle | ⟨c, ⟨hc, before, after, rfl, hbefore, hafter⟩, hlt⟩ := ih n
      · exact .inl (List.forall_mem_cons.mpr ⟨hskip, hle⟩)
      · refine .inr ⟨c, ⟨hc, m :: before, after, rfl, ?_, hafter⟩, hlt⟩
        exact List.forall_mem_cons.mpr ⟨fun ha => (hskip ha).trans_lt hlt, hbefore⟩

theorem Mount.Accepted.length_pos (h : m.Accepted path) (hpath : path ≠ []) :
    0 < m.path.length := by
  obtain heq | ⟨hne, -⟩ := h
  · rw [heq]
    exact List.length_pos_iff.mpr hpath
  · exact List.length_pos_iff.mpr hne

theorem findMountLoop_of_firstLongest (h : m.FirstLongest mounts path) (hpath : path ≠ []) :
    findMountLoop path mounts none 0 = (some m, m.path.length) := by
  obtain ⟨ha, before, after, rfl, hbefore, hafter⟩ := h
  rw [findMountLoop_append_of_lt ha (ha.length_pos hpath) hbefore, findMountLoop_of_le hafter]

theorem findMountAt_of_firstLongest (h : m.FirstLongest mounts path) (hpath : path ≠ []) :
    findMountAt mounts path = m.root.map fun root => (root, m.path.length) := by
  unfold findMountAt
  rw [findMountLoop_of_firstLongest h hpath]

theorem findMountAt_of_not_accepted
    (h : ∀ m ∈ mounts, m.Accepted path → m.path.length ≤ 0) : findMountAt mounts path = none := by
  unfold findMountAt
  rw [findMountLoop_of_le h]

theorem findsDeepest_of_none (h : findMountAt mounts path = none) :
    FindsDeepest mounts path ↔ ∀ m ∈ mounts, ¬ m.Covers path := by
  rw [FindsDeepest, h]

theorem Mount.FirstLongest.mem (h : m.FirstLongest mounts path) : m ∈ mounts := by
  obtain ⟨-, before, after, rfl, -⟩ := h
  exact List.mem_append_right _ List.mem_cons_self

theorem Mount.FirstLongest.eq {c : Mount} (h : m.FirstLongest mounts path)
    (hc : c.FirstLongest mounts path) (hpath : path ≠ []) : c = m := by
  have hsame := (findMountLoop_of_firstLongest hc hpath).symm.trans
    (findMountLoop_of_firstLongest h hpath)
  exact Option.some.inj (Prod.mk.inj hsame).1

theorem Mount.FirstLongest.deepest (h : m.FirstLongest mounts path) (heq : m.path = path) :
    m.Deepest mounts path where
  mem := h.mem
  covers := ⟨heq ▸ List.prefix_rfl, .inr (.inl heq)⟩
  longest m' _ hcovers := by
    rw [heq]
    exact hcovers.1.length_le

/-- **When `find_mount` is right.** Of the longest mounts that it accepts, the first one has
the path asked for, so that this is a mount point and none has one character more; or that
one differs from the path in its last character, and happens to have the root and the length
of the deepest mount; or no mount covers the path, and no such one has a root. -/
theorem findsDeepest_iff (habs : path.head? = some slash) :
    FindsDeepest mounts path ↔
      (∃ c : Mount, c.FirstLongest mounts path ∧ c.path = path ∧ c.root ≠ none) ∨
      (∃ c m : Mount, c.FirstLongest mounts path ∧ ¬ c.path <+: path ∧ m.Deepest mounts path ∧
        c.root = m.root ∧ c.root ≠ none ∧ c.path.length = m.path.length) ∨
      ((∀ m ∈ mounts, ¬ m.Covers path) ∧
        ∀ c : Mount, c.FirstLongest mounts path → c.root = none) := by
  have hpath : path ≠ [] := by
    rintro rfl
    cases habs
  obtain hnone | ⟨c, hc, -⟩ := exists_firstLongest mounts path 0
  · have hno : ∀ c : Mount, ¬ c.FirstLongest mounts path := fun c hc =>
      absurd (hnone c hc.mem hc.accepted) (Nat.not_le_of_lt (hc.accepted.length_pos hpath))
    rw [findsDeepest_of_none (findMountAt_of_not_accepted hnone)]
    constructor
    · exact fun h => .inr (.inr ⟨h, fun c hc => absurd hc (hno c)⟩)
    · rintro (⟨c, hc, -⟩ | ⟨c, -, hc, -⟩ | ⟨h, -⟩)
      · exact absurd hc (hno c)
      · exact absurd hc (hno c)
      · exact h
  · have hat := findMountAt_of_firstLongest hc hpath
    cases hroot : c.root with
    | none =>
      rw [findsDeepest_of_none (by rw [hat, hroot, Option.map_none])]
      constructor
      · exact fun h => .inr (.inr ⟨h, fun c' hc' => by rw [hc.eq hc' hpath, hroot]⟩)
      · rintro (⟨c', hc', -, hsome⟩ | ⟨c', -, hc', -, -, -, hsome, -⟩ | ⟨h, -⟩)
        · exact absurd (hc.eq hc' hpath ▸ hroot) hsome
        · exact absurd (hc.eq hc' hpath ▸ hroot) hsome
        · exact h
    | some root =>
      have hsome : c.root ≠ none := by
        rw [hroot]
        exact Option.some_ne_none root
      rw [FindsDeepest, hat, hroot, Option.map_some]
      constructor
      · rintro ⟨m, hm, hmroot, hlen⟩
        obtain heq | ⟨-, -, hnot⟩ := hc.accepted
        · exact .inl ⟨c, hc, heq, hsome⟩
        · exact .inr (.inl ⟨c, m, hc, hnot, hm, hroot.trans hmroot.symm, hsome, hlen⟩)
      · rintro (⟨c', hc', heq, -⟩ | ⟨c', m, hc', -, hm, hr, -, hlen⟩ | ⟨-, h⟩)
        · obtain rfl := hc.eq hc' hpath
          exact ⟨c', hc'.deepest heq, hroot, rfl⟩
        · obtain rfl := hc.eq hc' hpath
          exact ⟨m, hm, hr.symm.trans hroot, hlen⟩
        · exact absurd (h c hc) hsome

theorem findsDeepest_two_mounts :
    FindsDeepest [⟨[slash], some 0⟩, ⟨cstr [47, 116, 109, 112], some 1⟩]
      (cstr [47, 116, 109, 112]) := by
  refine (findsDeepest_iff rfl).mpr (.inl ⟨⟨cstr [47, 116, 109, 112], some 1⟩,
    ⟨.inl rfl, [⟨[slash], some 0⟩], [], rfl, fun m' hm _ => ?_, ?_⟩, rfl, Option.some_ne_none 1⟩)
  · rw [List.mem_singleton.mp hm]
    decide
  · exact fun _ h => absurd h List.not_mem_nil

/-- **The mount at `/` covers `/tmp`, and NULL is returned.** -/
theorem findMount_misses_root :
    (vfsInit true true true true).mounts = [⟨[slash], some 0⟩] ∧
      Mount.Covers (cstr [47, 116, 109, 112]) ⟨[slash], some 0⟩ ∧
      findMountAt [⟨[slash], some 0⟩] (cstr [47, 116, 109, 112]) = none ∧
      ¬ FindsDeepest (vfsInit true true true true).mounts (cstr [47, 116, 109, 112]) := by
  obtain ⟨root, hmount⟩ := oneMount_init true true true true
  have hroot : root = some 0 := by
    rw [← vfsLookup_slash hmount]
    decide +kernel
  have hmounts : (vfsInit true true true true).mounts = [⟨[slash], some 0⟩] := by
    rw [hmount.mounts, hroot]
  have hcovers : Mount.Covers (cstr [47, 116, 109, 112]) ⟨[slash], some 0⟩ :=
    ⟨⟨cstr [116, 109, 112], by decide⟩, .inl rfl⟩
  have hat : findMountAt [⟨[slash], some 0⟩] (cstr [47, 116, 109, 112]) = none := rfl
  refine ⟨hmounts, hcovers, hat, ?_⟩
  rw [hmounts, findsDeepest_of_none hat]
  exact fun h => h _ (List.mem_singleton_self _) hcovers

end DevOs
