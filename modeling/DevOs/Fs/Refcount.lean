import DevOs.Fs.Lookup
import Mathlib.Data.Set.Card

/-!
`refcount` of a node beside the open files that refer to it.
-/

namespace DevOs

open Machine

inductive FdOp where
  | open (current : Option TaskId) (path : CString) (flags mode : Nat) (okNode okFile : Bool)
  | close (current : Option TaskId) (fd : Int)

def fdStep (s : Vfs) : FdOp → Option Vfs
  | .open current path flags mode okNode okFile =>
    (vfsOpen s current path flags mode okNode okFile).map Prod.snd
  | .close current fd => some (vfsClose s current fd).2

/-- The slots of the descriptor tables whose `file_t` refers to a node. -/
def heldFiles (s : Vfs) (node : NodeId) : Set (TaskId × Nat) :=
  {p | ∃ f, s.fds p.1 p.2 = some f ∧ f.node = node}

def RefcountsMatch (s : Vfs) : Prop :=
  ∀ node, (heldFiles s node).encard = ((s.nodes node).refcount : ℕ∞)

/-- A `vfs_open` that fails leaves the counts and the descriptor tables as they
were. -/
def FailsCleanly (s : Vfs) : FdOp → Prop
  | .open current path flags mode okNode okFile =>
    ∀ r s', vfsOpen s current path flags mode okNode okFile = some (r, s') → r < 0 →
      s'.fds = s.fds ∧ ∀ node, (s'.nodes node).refcount = (s.nodes node).refcount
  | .close _ _ => True

/-- A `vfs_open` that finds its node and gets memory also finds a free slot. -/
def FdOp.FindsSlot (s : Vfs) : FdOp → Prop
  | .open current path _ _ _ okFile => (vfsLookup s path).isSome = true → okFile = true →
      ∃ t, current = some t ∧ ∃ fd < maxFds, s.fds t fd = none
  | .close _ _ => True

variable {s s' : Vfs} {root : Option NodeId} {path name : CString} {dir node : NodeId} {t : TaskId}
  {f : OpenFile} {fd i : Nat}

theorem fds_setFile (s : Vfs) (t : TaskId) (i : Nat) (g : Option OpenFile) (p : TaskId × Nat) :
    (s.setFile t i g).fds p.1 p.2 = if p = (t, i) then g else s.fds p.1 p.2 := by
  obtain ⟨u, j⟩ := p
  simp only [Vfs.setFile, Prod.mk.injEq]
  by_cases hu : u = t
  · subst hu
    by_cases hj : j = i
    · simp [hj]
    · simp [hj]
  · simp [hu]

theorem heldFiles_setFile_some (f : OpenFile) (node : NodeId) :
    heldFiles (s.setFile t i (some f)) node = if f.node = node then insert (t, i) (heldFiles s node)
      else heldFiles s node \ {(t, i)} := by
  ext p
  simp only [heldFiles, Set.mem_ofPred_eq, fds_setFile]
  by_cases hp : p = (t, i)
  · by_cases hf : f.node = node <;> simp [hp, hf]
  · by_cases hf : f.node = node <;> simp [hp, hf]

theorem heldFiles_setFile_none (node : NodeId) :
    heldFiles (s.setFile t i none) node = heldFiles s node \ {(t, i)} := by
  ext p
  simp only [heldFiles, Set.mem_ofPred_eq, fds_setFile, Set.mem_sdiff, Set.mem_singleton_iff]
  by_cases hp : p = (t, i) <;> simp [hp]

/-- `node->refcount++`. -/
def bumpRefcount (s : Vfs) (node : NodeId) : Vfs :=
  s.modify node fun n => { n with refcount := n.refcount + 1 }

theorem refcount_bumpRefcount (s : Vfs) (node n : NodeId) :
    ((bumpRefcount s node).nodes n).refcount =
      if n = node then (s.nodes n).refcount + 1 else (s.nodes n).refcount := by
  simp only [bumpRefcount, Vfs.modify]
  split <;> rfl

theorem openNode_cases (s : Vfs) (current : Option TaskId) (node : NodeId) (flags : Nat)
    (ok : Bool) : (ok = false ∧ openNode s current node flags ok = (-12, s)) ∨
      (ok = true ∧ (∀ t, current = some t → ∀ fd < maxFds, s.fds t fd ≠ none) ∧
        openNode s current node flags ok = (-24, bumpRefcount s node)) ∨
      ∃ t fd f, current = some t ∧ fd < maxFds ∧ s.fds t fd = none ∧ f.node = node ∧
        f.refcount = 1 ∧ f.offset = (if flags &&& oAppend ≠ 0 then (s.nodes node).size else 0) ∧
        openNode s current node flags ok =
          ((fd : Int), (bumpRefcount s node).setFile t fd (some f)) := by
  cases ok with
  | false => exact .inl ⟨rfl, rfl⟩
  | true =>
    right
    simp only [openNode, if_true]
    split
    · rename_i hnone
      refine .inl ⟨trivial, fun t ht fd hfd hfree => ?_, rfl⟩
      subst ht
      have hfind : (List.range maxFds).find? (fun i => (s.fds t i).isNone) = none :=
        Option.map_eq_none_iff.1 hnone
      have := List.find?_eq_none.1 hfind fd (List.mem_range.2 hfd)
      simp [hfree] at this
    · rename_i fd s1 hsome
      obtain ⟨t, rfl, hfd⟩ := Option.bind_eq_some_iff.1 hsome
      obtain ⟨i, hfind, heq⟩ := Option.map_eq_some_iff.1 hfd
      cases heq
      have hfree := List.find?_some hfind
      have hmem := List.mem_of_find?_eq_some hfind
      exact .inr ⟨t, fd, _, rfl, List.mem_range.1 hmem, Option.isNone_iff_eq_none.1 hfree, rfl, rfl,
        rfl, rfl⟩

/-- What holds in every run: every `file_t` has one slot and refers to a node that
exists. -/
structure FilesInv (s : Vfs) (root : Option NodeId) : Prop where
  mount : OneMount s root
  files : ∀ t i f, s.fds t i = some f → f.refcount = 1 ∧ f.node < s.count

section

variable (h : FilesInv s root)
include h

theorem FilesInv.heldFiles_count : heldFiles s s.count = ∅ := by
  refine Set.eq_empty_of_forall_notMem fun p hp => ?_
  obtain ⟨f, hf, hnode⟩ := hp
  exact absurd (h.files _ _ f hf).2 (by rw [hnode]; exact Nat.lt_irrefl _)

theorem FilesInv.refcount_count (hp : RefcountsMatch s) : (s.nodes s.count).refcount = 0 := by
  have hzero := hp s.count
  rw [h.heldFiles_count, Set.encard_empty] at hzero
  exact_mod_cast hzero.symm

theorem FilesInv.refcount_addChild (hp : RefcountsMatch s) (kind : NodeKind)
    (mode : Nat) (n : NodeId) :
    ((addChild kind s dir name mode).nodes n).refcount = (s.nodes n).refcount := by
  simp only [addChild]
  split
  · rename_i hn
    rw [hn, h.refcount_count hp]
  · split
    · rename_i hn
      rw [hn]
    · rfl

theorem FilesInv.addChild (hp : RefcountsMatch s) (hdir : dir < s.count)
    (kind : NodeKind) (mode : Nat) : FilesInv (addChild kind s dir name mode) root ∧
      RefcountsMatch (addChild kind s dir name mode) := by
  refine ⟨⟨h.mount.added (added_addChild _ _ _ hdir), fun t i f hf => ?_⟩, fun n => ?_⟩
  · exact ⟨(h.files t i f hf).1, Nat.lt_succ_of_lt (h.files t i f hf).2⟩
  · rw [h.refcount_addChild hp]
    exact hp n

end

theorem RefcountsMatch.open_file (hp : RefcountsMatch s)
    (hfree : s.fds t fd = none) :
    RefcountsMatch ((bumpRefcount s f.node).setFile t fd (some f)) := by
  intro n
  have hnot : (t, fd) ∉ heldFiles s n := by
    rintro ⟨g, hg, -⟩
    rw [hfree] at hg
    cases hg
  show _ = (((bumpRefcount s f.node).nodes n).refcount : ℕ∞)
  rw [heldFiles_setFile_some, refcount_bumpRefcount]
  show (if f.node = n then insert (t, fd) (heldFiles s n) else heldFiles s n \ {(t, fd)}).encard = _
  by_cases hn : f.node = n
  · rw [if_pos hn, if_pos hn.symm, Set.encard_insert_of_notMem hnot, hp n]
    rfl
  · rw [if_neg hn, if_neg (Ne.symm hn), Set.sdiff_singleton_eq_self hnot, hp n]

theorem FilesInv.open_file (h : FilesInv s root)
    (hcount : f.refcount = 1) (hnode : f.node < s.count) :
    FilesInv ((bumpRefcount s f.node).setFile t fd (some f)) root := by
  refine ⟨⟨h.mount.mounts, h.mount.known⟩, fun u i g hg => ?_⟩
  have hfds := fds_setFile (bumpRefcount s f.node) t fd (some f) (u, i)
  simp only [hg] at hfds
  split at hfds
  · cases hfds
    exact ⟨hcount, hnode⟩
  · exact h.files u i g hfds.symm

theorem RefcountsMatch.not_bump (hp : RefcountsMatch s) (node : NodeId) :
    ¬ RefcountsMatch (bumpRefcount s node) := by
  intro hp'
  have hnew := hp' node
  rw [refcount_bumpRefcount, if_pos rfl] at hnew
  have hold := hp node
  rw [show heldFiles (bumpRefcount s node) node = heldFiles s node from rfl, hold] at hnew
  exact absurd (by exact_mod_cast hnew) (Nat.ne_of_lt (Nat.lt_succ_self _))

theorem FilesInv.vfsOpen (h : FilesInv s root) (hp : RefcountsMatch s) {current : Option TaskId}
    {flags mode : Nat} {okNode okFile : Bool} {r : Int}
    (ho : vfsOpen s current path flags mode okNode okFile = some (r, s')) : FilesInv s' root ∧
      (RefcountsMatch s' ↔ (FdOp.open current path flags mode okNode okFile).FindsSlot s) ∧
      ((FdOp.open current path flags mode okNode okFile).FindsSlot s → r < 0 →
        s'.fds = s.fds ∧ ∀ n, (s'.nodes n).refcount = (s.nodes n).refcount) := by
  cases hl : vfsLookup s path with
  | none =>
    have hslot : (FdOp.open current path flags mode okNode okFile).FindsSlot s :=
      fun hsome => by simp [hl] at hsome
    rcases vfsOpen_create h.mount hl ho with ⟨-, ⟨-, dir, name, ha, rfl⟩ | ⟨-, rfl⟩⟩
    · obtain ⟨hinv, hmatch⟩ := h.addChild hp (ha.lt_count h.mount) .file mode
      exact ⟨hinv, iff_of_true hmatch hslot, fun _ _ =>
        ⟨rfl, fun n => h.refcount_addChild hp .file mode n⟩⟩
    · exact ⟨h, iff_of_true hp hslot, fun _ _ => ⟨rfl, fun _ => rfl⟩⟩
  | some node =>
    have hnode : node < s.count := h.mount.known node (vfsLookup_eq_some h.mount hl).2
    have hopen : openNode s current node flags okFile = (r, s') := by
      simpa [DevOs.vfsOpen, hl] using ho
    rcases openNode_cases s current node flags okFile with
      ⟨hok, heq⟩ | ⟨hok, hfull, heq⟩ | ⟨t, fd, f, ht, hfd, hfree, rfl, hcount, -, heq⟩
    · cases heq.symm.trans hopen
      have hslot : (FdOp.open current path flags mode okNode okFile).FindsSlot s :=
        fun _ hyes => Bool.noConfusion (hok.symm.trans hyes)
      exact ⟨h, iff_of_true hp hslot, fun _ _ => ⟨rfl, fun _ => rfl⟩⟩
    · -- EMFILE, with the count raised
      cases heq.symm.trans hopen
      have hno : ¬ (FdOp.open current path flags mode okNode okFile).FindsSlot s := by
        intro hslot
        obtain ⟨t, ht, fd, hfd, hfree⟩ := hslot (by rw [hl]; rfl) hok
        exact hfull t ht fd hfd hfree
      exact ⟨⟨⟨h.mount.mounts, h.mount.known⟩, h.files⟩, iff_of_false (hp.not_bump node) hno,
        fun hslot => absurd hslot hno⟩
    · cases heq.symm.trans hopen
      have hslot : (FdOp.open current path flags mode okNode okFile).FindsSlot s :=
        fun _ _ => ⟨t, ht, fd, hfd, hfree⟩
      refine ⟨h.open_file hcount hnode, iff_of_true (hp.open_file hfree) hslot, fun _ hneg => ?_⟩
      exact absurd hneg (Int.not_lt.2 (Int.natCast_nonneg fd))

theorem FilesInv.vfsClose (h : FilesInv s root) (hp : RefcountsMatch s) (current : Option TaskId)
    (fd : Int) :
    FilesInv (vfsClose s current fd).2 root ∧ RefcountsMatch (vfsClose s current fd).2 := by
  unfold DevOs.vfsClose
  split
  · exact ⟨h, hp⟩
  rename_i t i f hget
  have hf : s.fds t i = some f := by
    unfold fdGet at hget
    split at hget
    · cases hget
    · split at hget
      · obtain ⟨g, hg, heq⟩ := Option.map_eq_some_iff.1 hget
        cases heq
        exact hg
      · cases hget
  obtain ⟨hcount, -⟩ := h.files t i f hf
  have hmem : (t, i) ∈ heldFiles s f.node := ⟨f, hf, rfl⟩
  simp only [hcount, Nat.sub_self, if_true]
  refine ⟨⟨⟨h.mount.mounts, h.mount.known⟩, fun u j g hg => ?_⟩, fun n => ?_⟩
  · have hfds := fds_setFile s t i none (u, j)
    change (s.setFile t i none).fds u j = some g at hg
    simp only [hg] at hfds
    split at hfds
    · cases hfds
    · exact h.files u j g hfds.symm
  · show (heldFiles (s.setFile t i none) n).encard = _
    rw [heldFiles_setFile_none]
    simp only [Vfs.modify, Vfs.setFile]
    by_cases hn : n = f.node
    · subst hn
      rw [if_pos rfl, Set.encard_sdiff_singleton_of_mem hmem, hp f.node]
      exact (ENat.natCast_sub _ _).symm
    · rw [if_neg hn, Set.sdiff_singleton_eq_self, hp n]
      rintro ⟨g, hg, hgn⟩
      rw [hf] at hg
      cases hg
      exact hn hgn.symm

theorem FilesInv.initDir (h : FilesInv s root ∧ RefcountsMatch s) (path : CString) (mode : Nat)
    (ok : Bool) :
    FilesInv (initDir s path mode ok) root ∧ RefcountsMatch (initDir s path mode ok) := by
  unfold DevOs.initDir
  cases hm : vfsMkdir s path mode ok with
  | none => exact h
  | some res =>
    obtain ⟨r, s'⟩ := res
    rcases vfsMkdir_cases h.1.mount hm with ⟨dir, name, ha, -, rfl⟩ | ⟨-, -, rfl⟩
    · exact h.1.addChild h.2 (ha.lt_count h.1.mount) .dir mode
    · exact h

theorem filesInv_vfsInit (okRoot okDev okProc okTmp : Bool) :
    ∃ root, FilesInv (vfsInit okRoot okDev okProc okTmp) root ∧
      RefcountsMatch (vfsInit okRoot okDev okProc okTmp) := by
  have hfds : (vfsMounted okRoot).fds = fun _ _ => none := by cases okRoot <;> rfl
  have hcount : ∀ n, ((vfsMounted okRoot).nodes n).refcount = 0 := by
    intro n
    cases okRoot
    · rfl
    · simp only [vfsMounted, ramfsCreateRoot, ramfsAlloc, vfsMount, vfsEmpty, Vfs.modify, if_true]
      grind
  refine ⟨_, vfsInit_induction (P := fun s => FilesInv s (ramfsCreateRoot vfsEmpty okRoot).1 ∧
    RefcountsMatch s) ⟨⟨oneMount_vfsMounted okRoot, ?_⟩, fun n => ?_⟩
    (fun _ path mode ok h => FilesInv.initDir h path mode ok) _ _ _⟩
  · intro t i f hf
    rw [hfds] at hf
    cases hf
  · have hempty : heldFiles (vfsMounted okRoot) n = ∅ := by
      refine Set.eq_empty_of_forall_notMem ?_
      rintro p ⟨f, hf, -⟩
      rw [hfds] at hf
      cases hf
    rw [hempty, Set.encard_empty, hcount n]
    rfl

/-- **The counts are right and failures are clean, in every state of a run,
exactly if no `vfs_open` that has its node and its memory is left without a
slot.** -/
theorem refcounts_iff (okRoot okDev okProc okTmp : Bool) (ops : List FdOp) :
    Always fdStep RefcountsMatch (vfsInit okRoot okDev okProc okTmp) ops ∧
        Steps fdStep FailsCleanly (vfsInit okRoot okDev okProc okTmp) ops ↔
      Steps fdStep (fun s op => op.FindsSlot s) (vfsInit okRoot okDev okProc okTmp)
        ops := by
  obtain ⟨root, hinv, hmatch⟩ := filesInv_vfsInit okRoot okDev okProc okTmp
  have hstep : ∀ s op s', FilesInv s root → RefcountsMatch s → fdStep s op = some s' →
      (RefcountsMatch s' ↔ op.FindsSlot s) ∧ (RefcountsMatch s' → FilesInv s' root) := by
    intro s op s' h hp hs
    cases op with
    | «open» current path flags mode okNode okFile =>
      obtain ⟨⟨r, s1⟩, ho, rfl⟩ := Option.map_eq_some_iff.1 hs
      obtain ⟨h', hiff, -⟩ := h.vfsOpen hp ho
      exact ⟨hiff, fun _ => h'⟩
    | close current fd =>
      cases hs
      obtain ⟨h', hp'⟩ := h.vfsClose hp current fd
      exact ⟨iff_of_true hp' trivial, fun _ => h'⟩
  have hclean : ∀ s op s', FilesInv s root ∧ RefcountsMatch s → op.FindsSlot s →
      fdStep s op = some s' → FailsCleanly s op := by
    intro s op s' h hslot _
    cases op with
    | «open» current path flags mode okNode okFile =>
      exact fun r s' ho hr => (h.1.vfsOpen h.2 ho).2.2 hslot hr
    | close current fd => trivial
  have hiff := always_iff_steps hstep ops hinv hmatch
  refine ⟨fun h => hiff.1 h.1, fun h => ⟨hiff.2 h, ?_⟩⟩
  refine steps_of_steps hclean (fun s op s' hi hslot hs => ?_) ops ⟨hinv, hmatch⟩ h
  obtain ⟨hmatch', hinv'⟩ := hstep s op s' hi.1 hi.2 hs
  exact ⟨hinv' (hmatch'.2 hslot), hmatch'.2 hslot⟩

/-- `vfs_open("/", 0)` by task 1. -/
def openRoot : FdOp := .open (some 1) [slash] 0 0 true true

theorem open_leaks_count :
    ∃ s s', (List.replicate 64 openRoot).foldlM fdStep (vfsInit true true true true) = some s ∧
      vfsOpen s (some 1) [slash] 0 0 true true = some (-24, s') ∧
      (s.nodes 0).refcount = 64 ∧ (s'.nodes 0).refcount = 65 ∧ s'.fds = s.fds ∧
      ¬ (RefcountsMatch s ∧ RefcountsMatch s') ∧ ¬ FailsCleanly s openRoot := by
  have hrun : ((List.replicate 64 openRoot).foldlM fdStep (vfsInit true true true true)).any
      (fun s => (vfsOpen s (some 1) [slash] 0 0 true true).any fun res =>
        decide (res.1 = -24 ∧ (s.nodes 0).refcount = 64 ∧ (res.2.nodes 0).refcount = 65 ∧
          vfsLookup s [slash] = some 0)) = true := by
    decide +kernel
  obtain ⟨s, hs, hres⟩ := (Option.any_eq_true _ _).mp hrun
  obtain ⟨⟨r, s'⟩, ho, hdec⟩ := (Option.any_eq_true _ _).mp hres
  obtain ⟨rfl, hbefore, hafter, hfound⟩ := of_decide_eq_true hdec
  have hfds : s'.fds = s.fds := by
    have hopen : openNode s (some 1) 0 0 true = (-24, s') := by simpa [vfsOpen, hfound] using ho
    rcases openNode_cases s (some 1) 0 0 true with
      ⟨-, heq⟩ | ⟨-, -, heq⟩ | ⟨t, fd, f, -, -, -, -, -, -, heq⟩ <;> cases heq.symm.trans hopen
    rfl
  refine ⟨s, s', hs, ho, hbefore, hafter, hfds, fun hboth => ?_, fun hclean => ?_⟩
  · have hold := hboth.1 0
    have hnew := hboth.2 0
    rw [show heldFiles s' 0 = heldFiles s 0 by rw [heldFiles, heldFiles, hfds], hold, hbefore,
      hafter] at hnew
    exact absurd hnew (by decide)
  · have hcount := (hclean (-24) s' ho (by decide)).2 0
    rw [hbefore, hafter] at hcount
    cases hcount

end DevOs
