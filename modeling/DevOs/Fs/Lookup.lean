import DevOs.Fs.Vfs
import DevOs.Lib.Run

/-!
What a path leads to.
-/

namespace DevOs

inductive VfsOp where
  | mkdir (path : CString) (mode : Nat) (ok : Bool)
  | open (current : Option TaskId) (path : CString) (flags mode : Nat) (okNode okFile : Bool)

def vfsStep (s : Vfs) : VfsOp → Option Vfs
  | .mkdir path mode ok => (vfsMkdir s path mode ok).map Prod.snd
  | .open current path flags mode okNode okFile =>
    (vfsOpen s current path flags mode okNode okFile).map Prod.snd

/-- One mount, at `/`, of a node that exists (or of none, if there was no
memory for it). -/
structure OneMount (s : Vfs) (root : Option NodeId) : Prop where
  mounts : s.mounts = [⟨[slash], root⟩]
  known : ∀ i ∈ root, i < s.count

variable {s s' : Vfs} {root : Option NodeId} {path name : CString} {dir : NodeId} {ok : Bool}

theorem length_skipSlash_le : ∀ p : CString, (skipSlash p).length ≤ p.length
  | [] => le_rfl
  | c :: p => by
    unfold skipSlash
    split
    · exact (length_skipSlash_le p).trans (Nat.le_succ _)
    · exact le_rfl

theorem skipSlash_ne_slash {c : CChar} {rest : CString} :
    ∀ {p : CString}, skipSlash p = c :: rest → c ≠ slash
  | [], h => by cases h
  | a :: p, h => by
    unfold skipSlash at h
    split at h
    · exact skipSlash_ne_slash h
    · rename_i ha
      obtain ⟨rfl, -⟩ := List.cons.inj h
      exact ha

theorem length_componentLoop_le : ∀ (n : Nat) (p : CString), (componentLoop n p).2.length ≤ p.length
  | 0, _ => le_rfl
  | _ + 1, [] => le_rfl
  | n + 1, c :: p => by
    unfold componentLoop
    split
    · exact le_rfl
    · exact (length_componentLoop_le n p).trans (Nat.le_succ _)

theorem pathComponent_length_lt {p comp rest : CString}
    (h : pathComponent p (vfsNameMax + 1) = some (comp, rest)) : rest.length < p.length := by
  unfold pathComponent at h
  split at h
  · cases h
  · rename_i c q hq
    have hc : c ≠ slash := skipSlash_ne_slash hq
    have hlen := length_skipSlash_le p
    rw [hq, List.length_cons] at hlen
    simp only [vfsNameMax, Nat.add_sub_cancel, componentLoop, hc, if_false, Option.some.injEq,
      Prod.mk.injEq] at h
    have hrest := length_componentLoop_le 254 q
    rw [h.2] at hrest
    omega

theorem lookupLoop_enough (s : Vfs) : ∀ (n : Nat) (node : NodeId) (p : CString), p.length < n →
    lookupLoop s n node p = lookupLoop s (p.length + 1) node p := by
  intro n
  induction n using Nat.strong_induction_on with
  | _ n ih =>
    intro node p hn
    cases n with
    | zero => exact absurd hn (Nat.not_lt_zero _)
    | succ n =>
      simp only [lookupLoop]
      split
      · rfl
      · rename_i comp rest hcomp
        have hlt := pathComponent_length_lt hcomp
        split
        · refine congrArg _ (funext fun child => ?_)
          rw [ih n (Nat.lt_succ_self n) child rest (by omega)]
          by_cases hp : p.length = n
          · rw [hp, ih n (Nat.lt_succ_self n) child rest (by omega)]
          · rw [ih p.length (by omega) child rest hlt]
        · rfl

theorem strncmp_slash (hp : path.head? = some slash) :
    strncmp path [slash] 1 = 0 ↔ path = [slash] := by
  obtain ⟨rest, rfl⟩ : ∃ rest, path = slash :: rest := List.head?_eq_some_iff.1 hp
  have h := strncmp_length_eq_zero_iff (slash :: rest) [slash]
  simpa using h

theorem vfsLookup_eq_none (h : OneMount s root) (hne : path ≠ [slash]) :
    vfsLookup s path = none := by
  unfold vfsLookup
  split
  · rename_i hp
    have hno : ¬ strncmp path [slash] 1 = 0 := fun hc => hne ((strncmp_slash hp).1 hc)
    have hmount : findMount s path = none := by
      simp [findMount, h.mounts, findMountLoop, hno]
    rw [hmount, Option.bind_none]
  · rfl

theorem vfsLookup_slash (h : OneMount s root) : vfsLookup s [slash] = root := by
  have hyes : strncmp [slash] [slash] 1 = 0 := (strncmp_slash rfl).2 rfl
  have hmount : findMount s [slash] = root.map fun i => (i, []) := by
    simp [findMount, h.mounts, findMountLoop, hyes]
  cases root with
  | none => simp [vfsLookup, hmount]
  | some i => simp [vfsLookup, hmount, lookupLoop, pathComponent, skipSlash]

theorem vfsLookup_eq_some (h : OneMount s root) (hf : vfsLookup s path = some dir) :
    path = [slash] ∧ root = some dir := by
  by_cases hp : path = [slash]
  · exact ⟨hp, by rw [← hf, hp, vfsLookup_slash h]⟩
  · rw [vfsLookup_eq_none h hp] at hf
    cases hf

/-- `s'` is `s` with one more child of `dir`. -/
structure Added (s s' : Vfs) (dir : NodeId) (name : CString) : Prop where
  children : (s'.nodes dir).children = (s.nodes dir).children ++ [s.count]
  name : (s'.nodes s.count).name = strncpy name vfsNameMax
  parent : (s'.nodes s.count).parent = some dir
  mounts : s'.mounts = s.mounts
  count : s'.count = s.count + 1

/-- `s` with a new child of `dir`, as `ramfs_mkdir` and `ramfs_create` leave it. -/
def addChild (kind : NodeKind) (s : Vfs) (dir : NodeId) (name : CString) (mode : Nat) : Vfs :=
  { s with
    nodes := fun n =>
      if n = s.count then
        { name := strncpy name vfsNameMax, kind := kind, mode := mode, inode := s.nextIno, size := 0
          refcount := 0, parent := some dir, data := [], children := [] }
      else if n = dir then
        { s.nodes dir with children := (s.nodes dir).children ++ [s.count] }
      else s.nodes n
    count := s.count + 1
    nextIno := s.nextIno + 1 }

theorem ramfsAdd_eq (kind : NodeKind) (name : CString) (mode : Nat) (ok : Bool)
    (hdir : dir < s.count) : ramfsAdd kind s dir name mode ok =
      if ramfsMaxChildren ≤ (s.nodes dir).children.length then (-28, s)
      else if ok then (0, addChild kind s dir name mode) else (-12, s) := by
  have hne : dir ≠ s.count := hdir.ne
  unfold ramfsAdd
  split
  · rfl
  · cases ok with
    | false => rfl
    | true =>
      simp only [ramfsAlloc, Vfs.modify, addChild, if_true, Prod.mk.injEq, true_and,
        Vfs.mk.injEq, and_true]
      funext n
      by_cases hn : n = dir
      · subst hn
        simp [hne]
      · simp only [hn, if_false]
        split <;> rfl

theorem added_addChild (kind : NodeKind) (name : CString) (mode : Nat) (hdir : dir < s.count) :
    Added s (addChild kind s dir name mode) dir name := by
  have hne : dir ≠ s.count := hdir.ne
  constructor <;> simp [addChild, hne]

def newChild (s : Vfs) (path : CString) : Option (NodeId × CString) :=
  (lastSlash path).bind fun last =>
    (vfsLookup s (parentPath path last)).map fun dir => (dir, path.drop (last + 1))

theorem newChild_eq {last : Nat} (hlast : lastSlash path = some last) : newChild s path =
      (vfsLookup s (parentPath path last)).map fun dir => (dir, path.drop (last + 1)) := by
  rw [newChild, hlast]
  rfl

structure Adds (s : Vfs) (path : CString) (ok : Bool) (dir : NodeId) (name : CString) : Prop where
  child : newChild s path = some (dir, name)
  kind : (s.nodes dir).kind = .dir
  room : (s.nodes dir).children.length < ramfsMaxChildren
  memory : ok = true

section

variable (h : OneMount s root)
include h

theorem lt_count_of_newChild (hc : newChild s path = some (dir, name)) : dir < s.count := by
  obtain ⟨last, -, hdir⟩ := Option.bind_eq_some_iff.1 hc
  obtain ⟨dir', hdir', heq⟩ := Option.map_eq_some_iff.1 hdir
  cases heq
  exact h.known dir (vfsLookup_eq_some h hdir').2

theorem Adds.lt_count (ha : Adds s path ok dir name) : dir < s.count :=
  lt_count_of_newChild h ha.child

theorem ramfsAdd_cases (kind : NodeKind) (mode : Nat) (ok : Bool)
    (hchild : newChild s path = some (dir, name)) (hkind : (s.nodes dir).kind = .dir) :
    (Adds s path ok dir name ∧
        ramfsAdd kind s dir name mode ok = (0, addChild kind s dir name mode)) ∨
      ((∀ dir name, ¬ Adds s path ok dir name) ∧ (ramfsAdd kind s dir name mode ok).1 < 0 ∧
        (ramfsAdd kind s dir name mode ok).2 = s) := by
  have hsame : ∀ {dir' name'}, Adds s path ok dir' name' → dir' = dir := fun ha => by
    have := ha.child.symm.trans hchild
    simp_all
  rw [ramfsAdd_eq kind name mode ok (lt_count_of_newChild h hchild)]
  split
  · rename_i hfull
    refine .inr ⟨fun dir' name' ha => ?_, by simp, rfl⟩
    have hroom := ha.room
    rw [hsame ha] at hroom
    omega
  · rename_i hroom
    cases ok with
    | true => exact .inl ⟨⟨hchild, hkind, by omega, rfl⟩, rfl⟩
    | false => exact .inr ⟨fun _ _ ha => Bool.noConfusion ha.memory, by simp, rfl⟩

theorem OneMount.added (ha : Added s s' dir name) : OneMount s' root where
  mounts := ha.mounts.trans h.mounts
  known i hi := ha.count ▸ Nat.lt_succ_of_lt (h.known i hi)

theorem OneMount.openNode (current : Option TaskId) (node : NodeId)
    (flags : Nat) (ok : Bool) : OneMount (openNode s current node flags ok).2 root := by
  unfold DevOs.openNode
  split
  · dsimp only
    split
    · exact ⟨h.mounts, h.known⟩
    · rename_i heq
      obtain ⟨t, -, hfd⟩ := Option.bind_eq_some_iff.1 heq
      obtain ⟨fd, -, hfd⟩ := Option.map_eq_some_iff.1 hfd
      cases hfd
      exact ⟨h.mounts, h.known⟩
  · exact h

theorem vfsMkdir_cases {mode : Nat} {r : Int} (hm : vfsMkdir s path mode ok = some (r, s')) :
    (∃ dir name, Adds s path ok dir name ∧ r = 0 ∧ s' = addChild .dir s dir name mode) ∨
      ((∀ dir name, ¬ Adds s path ok dir name) ∧ r < 0 ∧ s' = s) := by
  unfold vfsMkdir at hm
  split at hm
  · rename_i hlast
    cases hm
    exact .inr ⟨fun dir name ha => by simpa [newChild, hlast] using ha.child, by decide, rfl⟩
  · rename_i last hlast
    have hchild := newChild_eq (s := s) hlast
    split at hm
    · cases hm
    · split at hm
      · rename_i hdir
        cases hm
        exact .inr ⟨fun dir name ha => by simpa [hchild, hdir] using ha.child, by decide, rfl⟩
      · rename_i dir hdir
        rw [hdir, Option.map_some] at hchild
        split at hm
        · rename_i hkind
          rw [ramfsMkdir, Option.some.injEq] at hm
          rcases ramfsAdd_cases h .dir mode ok hchild hkind with ⟨ha, heq⟩ | ⟨hno, hr, heq⟩
          · cases heq.symm.trans hm
            exact .inl ⟨dir, _, ha, rfl, rfl⟩
          · rw [hm] at hr heq
            exact .inr ⟨hno, hr, heq⟩
        · rename_i hkind
          cases hm
          refine .inr ⟨fun dir' name' ha => ?_, by decide, rfl⟩
          obtain ⟨rfl, -⟩ : dir' = dir ∧ _ := by simpa [hchild] using ha.child.symm
          exact hkind ha.kind

theorem vfsOpen_create {current : Option TaskId} {flags mode : Nat}
    {okNode okFile : Bool} {r : Int} (hnone : vfsLookup s path = none)
    (ho : vfsOpen s current path flags mode okNode okFile = some (r, s')) :
    r < 0 ∧ ((flags &&& oCreat ≠ 0 ∧ ∃ dir name, Adds s path okNode dir name ∧
        s' = addChild .file s dir name mode) ∨
      ((flags &&& oCreat ≠ 0 → ∀ dir name, ¬ Adds s path okNode dir name) ∧ s' = s)) := by
  unfold vfsOpen at ho
  rw [hnone] at ho
  simp only [] at ho
  split at ho
  · rename_i hflags
    cases ho
    exact ⟨by decide, .inr ⟨fun hc => absurd hflags hc, rfl⟩⟩
  rename_i hflags
  split at ho
  · rename_i hlast
    cases ho
    exact ⟨by decide, .inr ⟨fun _ dir name ha => by simpa [newChild, hlast] using ha.child, rfl⟩⟩
  · rename_i last hlast
    have hchild := newChild_eq (s := s) hlast
    split at ho
    · cases ho
    · split at ho
      · rename_i hdir
        cases ho
        exact ⟨by decide, .inr ⟨fun _ dir name ha => by simpa [hchild, hdir] using ha.child, rfl⟩⟩
      · rename_i dir hdir
        rw [hdir, Option.map_some] at hchild
        split at ho
        · rename_i hkind
          rcases ramfsAdd_cases h .file mode okNode hchild hkind with ⟨ha, heq⟩ | ⟨hno, hr, heq⟩
          · -- the new node is not found either, so the call ends here
            have hp : path ≠ [slash] := by
              rintro rfl
              rw [vfsLookup_slash h, (vfsLookup_eq_some h hdir).2] at hnone
              cases hnone
            have hmount : OneMount (addChild .file s dir (path.drop (last + 1)) mode) root :=
              h.added (added_addChild _ _ _ (ha.lt_count h))
            rw [ramfsCreate, heq] at ho
            simp only [ne_eq, not_true_eq_false, if_false, vfsLookup_eq_none hmount hp] at ho
            cases ho
            exact ⟨by decide, .inl ⟨hflags, dir, _, ha, rfl⟩⟩
          · rw [ramfsCreate] at ho
            simp only [ne_eq, hr.ne, not_false_eq_true, if_true] at ho
            cases ho
            exact ⟨by decide, .inr ⟨fun _ => hno, heq⟩⟩
        · rename_i hkind
          cases ho
          refine ⟨by decide, .inr ⟨fun _ dir' name' ha => ?_, rfl⟩⟩
          obtain ⟨rfl, -⟩ : dir' = dir ∧ _ := by simpa [hchild] using ha.child.symm
          exact hkind ha.kind

theorem oneMount_step {op : VfsOp} (hs : vfsStep s op = some s') : OneMount s' root := by
  cases op with
  | mkdir path mode ok =>
    obtain ⟨⟨r, s1⟩, hm, rfl⟩ := Option.map_eq_some_iff.1 hs
    rcases vfsMkdir_cases h hm with ⟨dir, name, ha, -, rfl⟩ | ⟨-, -, rfl⟩
    · exact h.added (added_addChild _ _ _ (ha.lt_count h))
    · exact h
  | «open» current path flags mode okNode okFile =>
    obtain ⟨⟨r, s1⟩, ho, rfl⟩ := Option.map_eq_some_iff.1 hs
    cases hl : vfsLookup s path with
    | none =>
      rcases vfsOpen_create h hl ho with ⟨-, ⟨-, dir, name, ha, rfl⟩ | ⟨-, rfl⟩⟩
      · exact h.added (added_addChild _ _ _ (ha.lt_count h))
      · exact h
    | some node =>
      simp only [vfsOpen, hl, Option.some.injEq] at ho
      exact congrArg Prod.snd ho ▸ h.openNode current node flags okFile

theorem OneMount.initDir (mode : Nat) (ok : Bool) : OneMount (initDir s path mode ok) root := by
  unfold DevOs.initDir
  cases hm : vfsMkdir s path mode ok with
  | none => exact h
  | some res =>
    have hs : vfsStep s (.mkdir path mode ok) = some res.2 := by simp [vfsStep, hm]
    exact oneMount_step h hs

end

def vfsMounted (okRoot : Bool) : Vfs :=
  (vfsMount (ramfsCreateRoot vfsEmpty okRoot).2 [slash] (ramfsCreateRoot vfsEmpty okRoot).1).2

theorem oneMount_vfsMounted (okRoot : Bool) :
    OneMount (vfsMounted okRoot) (ramfsCreateRoot vfsEmpty okRoot).1 := by
  cases okRoot with
  | false => exact ⟨rfl, by simp [ramfsCreateRoot, ramfsAlloc]⟩
  | true =>
    exact ⟨rfl, by
      simp [vfsMounted, ramfsCreateRoot, ramfsAlloc, vfsMount, vfsEmpty, Vfs.modify, mountMax]⟩

theorem vfsInit_induction {P : Vfs → Prop} {okRoot : Bool} (h0 : P (vfsMounted okRoot))
    (hdir : ∀ s path mode ok, P s → P (initDir s path mode ok)) (okDev okProc okTmp : Bool) :
    P (vfsInit okRoot okDev okProc okTmp) :=
  hdir _ _ _ _ (hdir _ _ _ _ (hdir _ _ _ _ h0))

theorem oneMount_init (okRoot okDev okProc okTmp : Bool) :
    ∃ root, OneMount (vfsInit okRoot okDev okProc okTmp) root :=
  ⟨_, vfsInit_induction (P := fun s => OneMount s (ramfsCreateRoot vfsEmpty okRoot).1)
    (oneMount_vfsMounted okRoot) (fun _ _ mode ok h => h.initDir mode ok) _ _ _⟩

theorem oneMount_run {okRoot okDev okProc okTmp : Bool} {ops : List VfsOp}
    (hrun : ops.foldlM vfsStep (vfsInit okRoot okDev okProc okTmp) = some s) :
    ∃ root, OneMount s root := by
  obtain ⟨root, h0⟩ := oneMount_init okRoot okDev okProc okTmp
  exact ⟨root, @Machine.trace_invariant _ _ vfsStep (fun _ s => OneMount s root) _ _ _ h0
    (fun _ _ _ _ h hs => oneMount_step h hs) hrun⟩

/-- `vfs_mkdir(path)` returns 0, or `vfs_open(path, O_CREAT)` adds a child to
`dir`. -/
def AddsChild (s s' : Vfs) (path : CString) (dir : NodeId) : Prop :=
  (∃ mode ok, vfsMkdir s path mode ok = some (0, s')) ∨
    ∃ current flags mode okNode okFile r, flags &&& oCreat ≠ 0 ∧
      vfsOpen s current path flags mode okNode okFile = some (r, s') ∧
      (s'.nodes dir).children ≠ (s.nodes dir).children

/-- **What has been added is not found.** In every state after `vfs_init` and
any calls of `vfs_mkdir` and `vfs_open`, and for every path with a last
component of 1 to 255 characters: when a call has added that component to its
parent directory, the child is there, under its name, and `vfs_lookup` of the
path returns NULL. -/
theorem vfsLookup_none_after_add {okRoot okDev okProc okTmp : Bool} {ops : List VfsOp} {last : Nat}
    (hrun : ops.foldlM vfsStep (vfsInit okRoot okDev okProc okTmp) = some s)
    (hlast : lastSlash path = some last)
    (hmin : 1 ≤ (path.drop (last + 1)).length) (hmax : (path.drop (last + 1)).length ≤ vfsNameMax)
    (hdir : vfsLookup s (parentPath path last) = some dir) (hadd : AddsChild s s' path dir) :
    (∃ child ∈ (s'.nodes dir).children, (s'.nodes child).name = path.drop (last + 1) ∧
        (s'.nodes child).parent = some dir) ∧
      vfsLookup s' path = none := by
  obtain ⟨root, h⟩ := oneMount_run hrun
  have hp : path ≠ [slash] := by
    rintro rfl
    simp at hmin
  -- either call has added the child that its path names
  have hadded : Added s s' dir (path.drop (last + 1)) := by
    have hchild : newChild s path = some (dir, path.drop (last + 1)) := by
      rw [newChild_eq hlast, hdir]
      rfl
    have hsame : ∀ {ok dir' name}, Adds s path ok dir' name → ∀ kind mode,
        Added s (addChild kind s dir' name mode) dir (path.drop (last + 1)) := by
      intro ok dir' name ha kind mode
      cases ha.child.symm.trans hchild
      exact added_addChild _ _ _ (ha.lt_count h)
    rcases hadd with ⟨mode, ok, hm⟩ | ⟨current, flags, mode, okNode, okFile, r, -, ho, hch⟩
    · rcases vfsMkdir_cases h hm with ⟨dir', name, ha, -, rfl⟩ | ⟨-, hr, -⟩
      · exact hsame ha _ _
      · exact absurd hr (by decide)
    · rcases vfsOpen_create h (vfsLookup_eq_none h hp) ho with
        ⟨-, ⟨-, dir', name, ha, rfl⟩ | ⟨-, rfl⟩⟩
      · exact hsame ha _ _
      · exact absurd rfl hch
  refine ⟨⟨s.count, ?_, ?_, hadded.parent⟩, vfsLookup_eq_none (h.added hadded) hp⟩
  · rw [hadded.children]
    simp
  · rw [hadded.name, strncpy, List.take_of_length_le hmax]

theorem vfsLookup_none_after_mkdir : ∃ s', vfsMkdir (vfsInit true true true true)
    (cstr [47, 97]) 0o755 true = some (0, s') ∧ vfsLookup s' (cstr [47, 97]) = none := by
  have hr : (vfsMkdir (vfsInit true true true true) (cstr [47, 97]) 0o755 true).map Prod.fst =
      some 0 := by decide +kernel
  obtain ⟨⟨r, s'⟩, hm, rfl⟩ := Option.map_eq_some_iff.1 hr
  have hrun : ([] : List VfsOp).foldlM vfsStep (vfsInit true true true true) =
      some (vfsInit true true true true) := rfl
  have hlast : lastSlash (cstr [47, 97]) = some 0 := by decide
  have hdir : vfsLookup (vfsInit true true true true) (parentPath (cstr [47, 97]) 0) = some 0 := by
    decide +kernel
  exact ⟨s', hm, (vfsLookup_none_after_add hrun hlast (by decide) (by decide) hdir
    (.inl ⟨0o755, true, hm⟩)).2⟩

theorem mkdir_not_found :
    (vfsMkdir (vfsInit true true true true) (cstr [47, 97]) 0o755 true).map
      (fun res => (res.1, vfsLookup res.2 (parentPath (cstr [47, 97]) 0),
        vfsLookup res.2 (cstr [47, 97]))) = some (0, some 0, none) := by
  decide +kernel

end DevOs
