import DevOs.Fs.Refcount

/-!
The names in a directory.
-/

namespace DevOs

def childNames (s : Vfs) (dir : NodeId) : List CString :=
  (s.nodes dir).children.map fun c => (s.nodes c).name

/-- **A name means one child**: in every directory the names are distinct, and none
is empty. -/
def NamesOk (s : Vfs) : Prop := ∀ dir, (childNames s dir).Nodup ∧ [] ∉ childNames s dir

def NameFree (s : Vfs) (dir : NodeId) (name : CString) : Prop :=
  strncpy name vfsNameMax ≠ [] ∧ strncpy name vfsNameMax ∉ childNames s dir

def VfsOp.FreshName (s : Vfs) : VfsOp → Prop
  | .mkdir path _ ok => ∀ dir name, Adds s path ok dir name → NameFree s dir name
  | .open _ path flags _ okNode _ => vfsLookup s path = none → flags &&& oCreat ≠ 0 →
      ∀ dir name, Adds s path okNode dir name → NameFree s dir name

structure TreeInv (s : Vfs) (root : Option NodeId) : Prop where
  mount : OneMount s root
  known : ∀ dir, ∀ c ∈ (s.nodes dir).children, c < s.count

variable {s s' : Vfs} {root : Option NodeId} {path name : CString} {dir : NodeId}

theorem TreeInv.addChild (h : TreeInv s root) (hdir : dir < s.count) (kind : NodeKind)
    (name : CString) (mode : Nat) : TreeInv (addChild kind s dir name mode) root := by
  refine ⟨h.mount.added (added_addChild _ _ _ hdir), fun d c hc => ?_⟩
  show c < s.count + 1
  have hknown := h.known d
  have hknown' := h.known dir
  simp only [DevOs.addChild] at hc
  grind

theorem TreeInv.childNames_addChild (h : TreeInv s root) (hdir : dir < s.count) (kind : NodeKind)
    (name : CString) (mode : Nat) (d : NodeId) :
    childNames (DevOs.addChild kind s dir name mode) d = if d = s.count then []
      else if d = dir then childNames s dir ++ [strncpy name vfsNameMax] else childNames s d := by
  -- the nodes that were there keep their names
  have hold : ∀ d, (s.nodes d).children.map
      (fun c => ((DevOs.addChild kind s dir name mode).nodes c).name) = childNames s d := by
    intro d
    refine List.map_congr_left fun c hc => ?_
    have hne : c ≠ s.count := (h.known d c hc).ne
    simp only [DevOs.addChild, hne, if_false]
    split
    · rename_i hc'
      rw [hc']
    · rfl
  have hnew : ((DevOs.addChild kind s dir name mode).nodes s.count).name =
      strncpy name vfsNameMax := by simp [DevOs.addChild]
  unfold childNames
  by_cases hd : d = s.count
  · simp [DevOs.addChild, hd]
  · by_cases hdd : d = dir
    · have hch : ((DevOs.addChild kind s dir name mode).nodes d).children =
          (s.nodes dir).children ++ [s.count] := by
        rw [hdd]
        exact (added_addChild _ _ _ hdir).children
      rw [hch, List.map_append, hold, if_neg hd, if_pos hdd, List.map_singleton, hnew]
      rfl
    · have hch : ((DevOs.addChild kind s dir name mode).nodes d).children =
          (s.nodes d).children := by simp [DevOs.addChild, hd, hdd]
      rw [hch, hold, if_neg hd, if_neg hdd]
      rfl

theorem TreeInv.namesOk_addChild (h : TreeInv s root) (hp : NamesOk s) (hdir : dir < s.count)
    (kind : NodeKind) (name : CString) (mode : Nat) :
    NamesOk (DevOs.addChild kind s dir name mode) ↔ NameFree s dir name := by
  have hnames := h.childNames_addChild hdir kind name mode
  constructor
  · intro hok
    obtain ⟨hnodup, hempty⟩ := hok dir
    rw [hnames, if_neg hdir.ne, if_pos rfl] at hnodup hempty
    refine ⟨fun hnil => hempty ?_, fun hmem => ?_⟩
    · rw [hnil]
      simp
    · exact (List.nodup_append.1 hnodup).2.2 _ hmem _ (by simp) rfl
  · intro hfree d
    rw [hnames]
    split
    · exact ⟨List.nodup_nil, List.not_mem_nil⟩
    · split
      · refine ⟨List.nodup_append.2 ⟨(hp dir).1, List.nodup_singleton _, ?_⟩, ?_⟩
        · rintro a ha b hb rfl
          exact hfree.2 (List.mem_singleton.1 hb ▸ ha)
        · simp only [List.mem_append, List.mem_singleton, not_or]
          exact ⟨(hp dir).2, hfree.1.symm⟩
      · exact hp d

theorem openNode_same (s : Vfs) (current : Option TaskId) (node : NodeId) (flags : Nat)
    (ok : Bool) : (openNode s current node flags ok).2.count = s.count ∧
      ∀ n, ((openNode s current node flags ok).2.nodes n).name = (s.nodes n).name ∧
        ((openNode s current node flags ok).2.nodes n).children = (s.nodes n).children := by
  have hbump : ∀ n, ((bumpRefcount s node).nodes n).name = (s.nodes n).name ∧
      ((bumpRefcount s node).nodes n).children = (s.nodes n).children := by
    intro n
    simp only [bumpRefcount, Vfs.modify]
    split <;> exact ⟨rfl, rfl⟩
  rcases openNode_cases s current node flags ok with
    ⟨-, heq⟩ | ⟨-, -, heq⟩ | ⟨t, fd, f, -, -, -, -, -, -, heq⟩ <;> rw [heq]
  · exact ⟨rfl, fun _ => ⟨rfl, rfl⟩⟩
  · exact ⟨rfl, hbump⟩
  · exact ⟨rfl, hbump⟩

theorem TreeInv.vfsStep (h : TreeInv s root) (hp : NamesOk s) {op : VfsOp}
    (hs : vfsStep s op = some s') : (NamesOk s' ↔ op.FreshName s) ∧ TreeInv s' root := by
  cases op with
  | mkdir path mode ok =>
    obtain ⟨⟨r, s1⟩, hm, rfl⟩ := Option.map_eq_some_iff.1 hs
    rcases vfsMkdir_cases h.mount hm with ⟨dir, name, ha, -, rfl⟩ | ⟨hno, -, rfl⟩
    · have hdir := ha.lt_count h.mount
      refine ⟨(h.namesOk_addChild hp hdir .dir name mode).trans ⟨fun hfree d n ha' => ?_,
        fun hfresh => hfresh dir name ha⟩, h.addChild hdir .dir name mode⟩
      cases ha'.child.symm.trans ha.child
      exact hfree
    · exact ⟨iff_of_true hp fun dir name ha => absurd ha (hno dir name), h⟩
  | «open» current path flags mode okNode okFile =>
    obtain ⟨⟨r, s1⟩, ho, rfl⟩ := Option.map_eq_some_iff.1 hs
    cases hl : vfsLookup s path with
    | none =>
      obtain ⟨-, ⟨hflags, dir, name, ha, rfl⟩ | ⟨hno, rfl⟩⟩ := vfsOpen_create h.mount hl ho
      · have hdir := ha.lt_count h.mount
        refine ⟨(h.namesOk_addChild hp hdir .file name mode).trans ⟨fun hfree _ _ d n ha' => ?_,
          fun hfresh => hfresh hl hflags dir name ha⟩, h.addChild hdir .file name mode⟩
        cases ha'.child.symm.trans ha.child
        exact hfree
      · exact ⟨iff_of_true hp fun _ hflags dir name ha => absurd ha (hno hflags dir name), h⟩
    | some node =>
      have heq : (openNode s current node flags okFile).2 = s1 := by
        have hopen : openNode s current node flags okFile = (r, s1) := by
          simpa [vfsOpen, hl] using ho
        rw [hopen]
      obtain ⟨hcount, hnodes⟩ := openNode_same s current node flags okFile
      have hmount := h.mount.openNode current node flags okFile
      rw [heq] at hcount hnodes hmount
      have hnames : ∀ d, childNames s1 d = childNames s d := by
        intro d
        simp only [childNames, (hnodes _).1, (hnodes _).2]
      refine ⟨iff_of_true (fun d => ?_) (fun hnone => absurd (hl.symm.trans hnone)
        (Option.some_ne_none _)), hmount, fun d c hc => ?_⟩
      · rw [hnames]
        exact hp d
      · rw [hcount]
        exact h.known d c ((hnodes d).2 ▸ hc)

theorem TreeInv.initDir (h : TreeInv s root) (hp : NamesOk s) (path : CString)
    {used : List CString} (hused : ∀ d, childNames s d ⊆ used) (hlast : lastSlash path = some 0)
    (hname : path.drop 1 ≠ []) (hlen : path.length ≤ vfsNameMax) (hfree : path.drop 1 ∉ used)
    (mode : Nat) (ok : Bool) :
    TreeInv (initDir s path mode ok) root ∧ NamesOk (initDir s path mode ok) ∧
      ∀ d, childNames (initDir s path mode ok) d ⊆ path.drop 1 :: used := by
  have hstore : strncpy (path.drop 1) vfsNameMax = path.drop 1 :=
    List.take_of_length_le (by rw [List.length_drop]; omega)
  have hkeep : ∀ d, childNames s d ⊆ path.drop 1 :: used :=
    fun d => List.subset_cons_of_subset _ (hused d)
  unfold DevOs.initDir
  cases hm : vfsMkdir s path mode ok with
  | none => exact ⟨h, hp, hkeep⟩
  | some res =>
    obtain ⟨r, s'⟩ := res
    rcases vfsMkdir_cases h.mount hm with ⟨dir, name, ha, -, rfl⟩ | ⟨-, -, rfl⟩
    · have hdir := ha.lt_count h.mount
      obtain rfl : path.drop 1 = name := by
        have hchild := ha.child
        rw [newChild_eq hlast] at hchild
        obtain ⟨d, -, heq⟩ := Option.map_eq_some_iff.1 hchild
        exact (Prod.mk.inj heq).2
      refine ⟨h.addChild hdir _ _ _, (h.namesOk_addChild hp hdir _ _ _).2 ⟨?_, ?_⟩, fun d => ?_⟩
      · rw [hstore]
        exact hname
      · rw [hstore]
        exact fun hmem => hfree (hused dir hmem)
      · show childNames (DevOs.addChild .dir s dir (path.drop 1) mode) d ⊆ _
        rw [h.childNames_addChild hdir, hstore]
        split
        · exact List.nil_subset _
        · split
          · exact List.append_subset.2 ⟨hkeep dir, by simp⟩
          · exact hkeep d
    · exact ⟨h, hp, hkeep⟩

theorem treeInv_vfsInit (okRoot okDev okProc okTmp : Bool) :
    ∃ root, TreeInv (vfsInit okRoot okDev okProc okTmp) root ∧
      NamesOk (vfsInit okRoot okDev okProc okTmp) := by
  have hempty : ∀ d, ((vfsMounted okRoot).nodes d).children = [] := by
    intro d
    cases okRoot
    · rfl
    · simp only [vfsMounted, ramfsCreateRoot, ramfsAlloc, vfsMount, vfsEmpty, Vfs.modify, if_true]
      grind
  have h0 : TreeInv (vfsMounted okRoot) (ramfsCreateRoot vfsEmpty okRoot).1 := by
    refine ⟨oneMount_vfsMounted okRoot, fun d c hc => ?_⟩
    rw [hempty] at hc
    cases hc
  have hnil : ∀ d, childNames (vfsMounted okRoot) d = [] := by
    intro d
    rw [childNames, hempty, List.map_nil]
  have hp0 : NamesOk (vfsMounted okRoot) := by
    intro d
    rw [hnil]
    exact ⟨List.nodup_nil, List.not_mem_nil⟩
  have hu0 : ∀ d, childNames (vfsMounted okRoot) d ⊆ [] := fun d => by
    rw [hnil]
    exact List.nil_subset _
  obtain ⟨h1, hp1, hu1⟩ := h0.initDir hp0 (cstr [47, 100, 101, 118]) hu0
    (by decide) (by decide) (by decide) (by decide) 0o755 okDev
  obtain ⟨h2, hp2, hu2⟩ := h1.initDir hp1 (cstr [47, 112, 114, 111, 99]) hu1
    (by decide) (by decide) (by decide) (by decide) 0o555 okProc
  obtain ⟨h3, hp3, -⟩ := h2.initDir hp2 (cstr [47, 116, 109, 112]) hu2
    (by decide) (by decide) (by decide) (by decide) 0o777 okTmp
  exact ⟨_, h3, hp3⟩

/-- **Names stay distinct and non-empty.** -/
theorem names_iff (okRoot okDev okProc okTmp : Bool) (ops : List VfsOp) :
    Machine.Always vfsStep NamesOk (vfsInit okRoot okDev okProc okTmp) ops ↔
      Machine.Steps vfsStep (fun s op => op.FreshName s) (vfsInit okRoot okDev okProc okTmp)
        ops := by
  obtain ⟨root, hinv, hp⟩ := treeInv_vfsInit okRoot okDev okProc okTmp
  have hstep : ∀ s op s', TreeInv s root → NamesOk s → vfsStep s op = some s' →
      (NamesOk s' ↔ op.FreshName s) ∧ (NamesOk s' → TreeInv s' root) := by
    intro s op s' h hp hs
    obtain ⟨hiff, h'⟩ := h.vfsStep hp hs
    exact ⟨hiff, fun _ => h'⟩
  exact Machine.always_iff_steps hstep ops hinv hp

/-- `vfs_mkdir("/dev")` once more adds a second `dev`, and `vfs_mkdir("/")` a child
without a name. -/
theorem mkdir_duplicates :
    (∃ s, vfsStep (vfsInit true true true true) (.mkdir (cstr [47, 100, 101, 118]) 0o755 true) =
        some s ∧ ¬ (childNames s 0).Nodup ∧ ¬ NamesOk s) ∧
      ∃ s, vfsStep (vfsInit true true true true) (.mkdir [slash] 0o755 true) = some s ∧
        [] ∈ childNames s 0 ∧ ¬ NamesOk s := by
  have hdev : (vfsStep (vfsInit true true true true)
      (.mkdir (cstr [47, 100, 101, 118]) 0o755 true)).any
        (fun s => decide ¬ (childNames s 0).Nodup) = true := by
    decide +kernel
  have hroot : (vfsStep (vfsInit true true true true) (.mkdir [slash] 0o755 true)).any
      (fun s => (childNames s 0).any List.isEmpty) = true := by
    decide +kernel
  obtain ⟨s, hs, hdup⟩ := (Option.any_eq_true _ _).mp hdev
  obtain ⟨s', hs', hempty⟩ := (Option.any_eq_true _ _).mp hroot
  have hnil : [] ∈ childNames s' 0 := by
    obtain ⟨n, hn, hnil⟩ := List.any_eq_true.1 hempty
    rwa [List.isEmpty_iff.1 hnil] at hn
  exact ⟨⟨s, hs, of_decide_eq_true hdup, fun hok => of_decide_eq_true hdup (hok 0).1⟩,
    ⟨s', hs', hnil, fun hok => (hok 0).2 hnil⟩⟩

end DevOs
