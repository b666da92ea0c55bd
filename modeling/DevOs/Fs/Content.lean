import DevOs.Fs.Vfs
import DevOs.Lib.Run

/-!
What files hold.
-/

namespace DevOs

open Function Machine

inductive FileOp where
  | read (len : Nat)
  | write (buf : List UInt8) (fresh : Option (Nat → UInt8))
  | lseek (off : Int) (whence : Whence)

structure FileCall where
  current : Option TaskId
  fd : Int
  op : FileOp

structure Answer where
  result : Int
  bytes : List UInt8
  deriving DecidableEq, Repr

def fileStep (s : Vfs) (c : FileCall) : Vfs × Answer :=
  match c.op with
  | .read len => match vfsRead s c.current c.fd len with
    | (n, bytes, s) => (s, ⟨n, bytes⟩)
  | .write buf fresh => match vfsWrite s c.current c.fd buf fresh with
    | (n, s) => (s, ⟨n, []⟩)
  | .lseek off whence => match vfsLseek s c.current c.fd off whence with
    | (n, s) => (s, ⟨n, []⟩)

/-- The arguments that callers pass: `uptr_ok` admits lengths below `2 ^ 47`,
and `off` is an `int64_t`. -/
def FileCall.Small (c : FileCall) : Prop :=
  match c.op with
  | .read len => len < 2 ^ 47
  | .write buf _ => buf.length < 2 ^ 47
  | .lseek off _ => -2 ^ 63 ≤ off ∧ off < 2 ^ 63

def OffsetsBelow (s : Vfs) : Prop :=
  ∀ t i f, s.fds t i = some f → f.offset < 2 ^ 63

/-! ## The files as byte strings -/

/-- The contents of the files, where `none` is a directory, and the file and
the offset of every open `file_t`. -/
structure RefFs where
  content : NodeId → Option (List UInt8)
  files : TaskId → Nat → Option (NodeId × Nat)

def refGet (r : RefFs) (current : Option TaskId) (fd : Int) :
    Option (TaskId × Nat × NodeId × Nat) :=
  match current with
  | none => none
  | some t =>
    if 0 ≤ fd ∧ fd < maxFds then (r.files t fd.toNat).map fun f => (t, fd.toNat, f) else none

def RefFs.setOffset (r : RefFs) (t : TaskId) (i : Nat) (node : NodeId) (off : Nat) : RefFs :=
  { r with files := update r.files t (update (r.files t) i (some (node, off))) }

def refRead (r : RefFs) (current : Option TaskId) (fd : Int) (len : Nat) : RefFs × Answer :=
  match refGet r current fd with
  | none => (r, ⟨-9, []⟩)
  | some (t, i, node, off) =>
    match r.content node with
    | none => (r, ⟨-22, []⟩)
    | some l =>
      let bytes := (l.drop off).take len
      (r.setOffset t i node (off + bytes.length), ⟨bytes.length, bytes⟩)

/-- A write extends the list to `max size (off + len)`, with zeros in the
gap. -/
def refWrite (r : RefFs) (current : Option TaskId) (fd : Int) (buf : List UInt8) :
    RefFs × Answer :=
  match refGet r current fd with
  | none => (r, ⟨-9, []⟩)
  | some (t, i, node, off) =>
    match r.content node with
    | none => (r, ⟨-22, []⟩)
    | some l =>
      let r := { r with
        content := update r.content node (some (Sparse.write 0 l off buf)) }
      (r.setOffset t i node (off + buf.length), ⟨buf.length, []⟩)

def refTarget (r : RefFs) (node : NodeId) (cur : Nat) (off : Int) : Whence → Option Int
  | .set => some off
  | .cur => some (cur + off)
  | .fin => some (((r.content node).getD []).length + off)
  | .other => none

/-- A seek sets the exact sum if that lies in `[0, 2 ^ 63)`. -/
def refLseek (r : RefFs) (current : Option TaskId) (fd off : Int) (whence : Whence) :
    RefFs × Answer :=
  match refGet r current fd with
  | none => (r, ⟨-9, []⟩)
  | some (t, i, node, cur) =>
    match refTarget r node cur off whence with
    | none => (r, ⟨-22, []⟩)
    | some new =>
      if 0 ≤ new ∧ new < 2 ^ 63 then (r.setOffset t i node new.toNat, ⟨new, []⟩)
      else (r, ⟨-22, []⟩)

/-- A write would end behind the end of the file. -/
def RefFs.Grows (r : RefFs) (current : Option TaskId) (fd : Int) (buf : List UInt8) : Prop :=
  ∃ t i node off l, refGet r current fd = some (t, i, node, off) ∧ r.content node = some l ∧
    l.length < off + buf.length

/-- What the reference model allows. It does not say when a buffer has to
grow: a write that makes the file longer may be refused, without effect, if
`krealloc` fails. -/
def RefStep (r : RefFs) (c : FileCall) (r' : RefFs) (a : Answer) : Prop :=
  match c.op with
  | .read len => (r', a) = refRead r c.current c.fd len
  | .write buf fresh => (r', a) = refWrite r c.current c.fd buf ∨
      (fresh = none ∧ r.Grows c.current c.fd buf ∧ (r', a) = (r, ⟨-12, []⟩))
  | .lseek off whence => (r', a) = refLseek r c.current c.fd off whence

section

variable {r r' : RefFs} {current : Option TaskId} {fd : Int}

theorem refRead_of_neg {len : Nat} (h : (refRead r current fd len).2.result < 0) :
    (refRead r current fd len).1 = r := by
  rcases hg : refGet r current fd with _ | ⟨t, i, node, off⟩
  · simp [refRead, hg]
  · cases hc : r.content node with
    | none => simp [refRead, hg, hc]
    | some l =>
      simp only [refRead, hg, hc] at h
      omega

theorem refWrite_of_neg {buf : List UInt8} (h : (refWrite r current fd buf).2.result < 0) :
    (refWrite r current fd buf).1 = r := by
  rcases hg : refGet r current fd with _ | ⟨t, i, node, off⟩
  · simp [refWrite, hg]
  · cases hc : r.content node with
    | none => simp [refWrite, hg, hc]
    | some l =>
      simp only [refWrite, hg, hc] at h
      omega

theorem refLseek_of_neg {off : Int} {whence : Whence}
    (h : (refLseek r current fd off whence).2.result < 0) :
    (refLseek r current fd off whence).1 = r := by
  rcases hg : refGet r current fd with _ | ⟨t, i, node, cur⟩
  · simp [refLseek, hg]
  · cases hc : refTarget r node cur off whence with
    | none => simp [refLseek, hg, hc]
    | some new =>
      simp only [refLseek, hg, hc] at h ⊢
      split at h
      · rename_i hnew
        exact absurd h (Int.not_lt.2 hnew.1)
      · rename_i hnew
        rw [if_neg hnew]

theorem refStep_of_neg {c : FileCall} {a : Answer} (h : RefStep r c r' a) (ha : a.result < 0) :
    r' = r := by
  unfold RefStep at h
  split at h
  · obtain ⟨rfl, rfl⟩ := Prod.mk.inj h
    exact refRead_of_neg ha
  · rcases h with h | ⟨-, -, h⟩
    · obtain ⟨rfl, rfl⟩ := Prod.mk.inj h
      exact refWrite_of_neg ha
    · exact (Prod.mk.inj h).1
  · obtain ⟨rfl, rfl⟩ := Prod.mk.inj h
    exact refLseek_of_neg ha

end

/-! ## Refinement -/

def Holds (n : Node) : Option (List UInt8) → Prop
  | none => n.kind = .dir ∧ n.size = 0
  | some l => n.kind = .file ∧ n.size = l.length ∧ l.length < 2 ^ 63 ∧
      ∃ k, n.data = l ++ List.replicate k 0

structure Refines (s : Vfs) (r : RefFs) : Prop where
  holds : ∀ i, Holds (s.nodes i) (r.content i)
  files : ∀ t i, r.files t i = (s.fds t i).map fun f => (f.node, f.offset)

section

variable {n : Node} {l : List UInt8}

theorem ramfsRead_eq (h : Holds n (some l)) {len off : Nat} (hoff : off < 2 ^ 63)
    (hlen : len < 2 ^ 47) :
    ramfsRead n len off = ((((l.drop off).take len).length : Int), (l.drop off).take len) := by
  obtain ⟨-, hsize, -, k, hdata⟩ := h
  unfold ramfsRead
  rw [hsize]
  split
  · rename_i hle
    simp [List.drop_eq_nil_of_le hle]
  · rename_i hlt
    rw [Nat.mod_eq_of_lt (by omega), hdata]
    dsimp only
    split
    · rename_i hcut
      rw [Sparse.take_drop_pad 0 (by omega), List.take_of_length_le (by simp),
        List.take_of_length_le (by simp; omega)]
      simp
    · rename_i hin
      rw [Sparse.take_drop_pad 0 (by omega)]
      simp
      omega

theorem growBuffer_spec (h : Holds n (some l)) {fin : Nat} (hfin : fin < 2 ^ 63)
    (fresh : Option (Nat → UInt8)) : (growBuffer n fin fresh = none ∧ fresh = none) ∨
      ∃ n', growBuffer n fin fresh = some n' ∧ Holds n' (some l) ∧ fin ≤ n'.data.length := by
  obtain ⟨hkind, hsize, hl, k, hdata⟩ := h
  unfold growBuffer
  split
  · cases fresh with
    | none => exact .inl ⟨rfl, rfl⟩
    | some fresh =>
      refine .inr ⟨_, rfl, ?_⟩
      have hcap : fin ≤ alignUp fin ramfsBlock :=
        le_alignUp (by decide) (by simp only [ramfsBlock]; omega)
      have hmore : n.data.length < alignUp fin ramfsBlock := by omega
      -- the zeros replace all that `krealloc` has added
      have hzero : overwrite (krealloced n.data (alignUp fin ramfsBlock) fresh) n.data.length
          (List.replicate (alignUp fin ramfsBlock - n.data.length) 0) =
          n.data ++ List.replicate (alignUp fin ramfsBlock - n.data.length) 0 := by
        simp [overwrite, Sparse.splice, krealloced, List.drop_eq_nil_of_le]
      dsimp only
      rw [if_pos hmore, hzero]
      refine ⟨⟨hkind, hsize, hl, k + (alignUp fin ramfsBlock - n.data.length), ?_⟩, ?_⟩
      · simp only [hdata, List.append_assoc, List.replicate_append_replicate]
      · simp only [List.length_append, List.length_replicate]
        omega
  · rename_i hroom
    exact .inr ⟨n, rfl, ⟨hkind, hsize, hl, k, hdata⟩, by omega⟩

theorem ramfsWrite_spec (h : Holds n (some l)) {buf : List UInt8} {off : Nat}
    (hfin : off + buf.length < 2 ^ 63) (fresh : Option (Nat → UInt8)) :
    (ramfsWrite n buf off fresh = (-12, n) ∧ fresh = none) ∨
      ∃ n', ramfsWrite n buf off fresh = ((buf.length : Int), n') ∧
        Holds n' (some (Sparse.write 0 l off buf)) := by
  have hmod : (off + buf.length) % 2 ^ 64 = off + buf.length := Nat.mod_eq_of_lt (by omega)
  unfold ramfsWrite
  dsimp only
  rw [hmod]
  rcases growBuffer_spec h hfin fresh with ⟨hg, hf⟩ | ⟨n', hg, ⟨hkind, hsize, hl, k, hdata⟩, hroom⟩
  · rw [hg]
    exact .inl ⟨rfl, hf⟩
  · rw [hg]
    refine .inr ⟨_, rfl, ?_⟩
    have hlen := Sparse.length_write 0 l off buf
    have hpad : off + buf.length ≤ l.length + k := by
      rw [hdata] at hroom
      simpa using hroom
    obtain ⟨k', hk'⟩ := Sparse.splice_pad (0 : UInt8) hpad
    have hdata' : overwrite n'.data off buf = Sparse.write 0 l off buf ++ List.replicate k' 0 := by
      rw [overwrite, hdata, hk']
    split
    · exact ⟨hkind, by rw [hlen]; simp only; omega, by omega, k', hdata'⟩
    · exact ⟨hkind, by rw [hlen]; simp only; omega, by omega, k', hdata'⟩

theorem ramfsWrite_cases (n : Node) (buf : List UInt8) (off : Nat) (fresh : Option (Nat → UInt8)) :
    (ramfsWrite n buf off fresh = (-12, n) ∧ fresh = none ∧ n.data.length < off + buf.length) ∨
      (ramfsWrite n buf off fresh).1 = buf.length := by
  unfold ramfsWrite
  dsimp only
  split
  · rename_i hg
    refine .inl ⟨rfl, ?_⟩
    unfold growBuffer at hg
    split at hg
    · rename_i hgrow
      exact ⟨Option.map_eq_none_iff.1 hg, Nat.lt_of_lt_of_le hgrow (Nat.mod_le _ _)⟩
    · cases hg
  · exact .inr rfl

end

variable {s : Vfs} {r : RefFs} {current : Option TaskId} {fd : Int} {f : OpenFile} {off : Int}
  {t : TaskId}

theorem refGet_eq (h : Refines s r) : refGet r current fd =
    (fdGet s current fd).map fun (t, i, f) => (t, i, f.node, f.offset) := by
  cases current with
  | none => rfl
  | some t =>
    simp only [refGet, fdGet]
    split
    · rw [h.files, Option.map_map, Option.map_map]
      rfl
    · rfl

theorem fds_of_fdGet {i : Nat}
    (h : fdGet s current fd = some (t, i, f)) : s.fds t i = some f := by
  unfold fdGet at h
  split at h
  · cases h
  · split at h
    · obtain ⟨f', hf, heq⟩ := Option.map_eq_some_iff.1 h
      cases heq
      exact hf
    · cases h

theorem advance_natCast {n : Nat} (h : f.offset + n < 2 ^ 64) :
    f.advance n = { f with offset := f.offset + n } := by
  unfold OpenFile.advance
  split
  · rw [Int.toNat_natCast, Nat.mod_eq_of_lt h]
  · obtain rfl : n = 0 := by omega
    rfl

theorem Refines.setFile (h : Refines s r) (t : TaskId) (i : Nat) (f : OpenFile) :
    Refines (s.setFile t i (some f)) (r.setOffset t i f.node f.offset) where
  holds := h.holds
  files u j := by
    simp only [RefFs.setOffset, Vfs.setFile]
    by_cases hu : u = t
    · subst hu
      by_cases hj : j = i
      · subst hj
        simp
      · simpa [hj] using h.files u j
    · simpa [hu] using h.files u j

theorem Refines.setNode (h : Refines s r) (i : NodeId) {n : Node} {l : List UInt8}
    (hn : Holds n (some l)) : Refines (s.modify i fun _ => n)
      { r with content := update r.content i (some l) } where
  holds j := by
    simp only [Vfs.modify]
    by_cases hj : j = i
    · subst hj
      simpa using hn
    · simpa [hj] using h.holds j
  files := h.files

theorem Refines.same (h : Refines s r) {i : Nat}
    (hf : s.fds t i = some f) (node : NodeId) :
    Refines ((s.modify node fun _ => s.nodes node).setFile t i (some f)) r where
  holds j := by
    simp only [Vfs.modify, Vfs.setFile]
    split
    · rename_i hj
      exact hj ▸ h.holds node
    · exact h.holds j
  files u j := by
    rw [h.files]
    simp only [Vfs.modify, Vfs.setFile]
    by_cases hu : u = t
    · subst hu
      by_cases hj : j = i
      · subst hj
        simp [hf]
      · simp [hj]
    · simp [hu]

/-! ## The calls -/

variable (current fd) in
theorem vfsRead_refines (h : Refines s r) (hoff : OffsetsBelow s) {len : Nat}
    (hlen : len < 2 ^ 47) :
    (⟨(vfsRead s current fd len).1, (vfsRead s current fd len).2.1⟩ : Answer) =
        (refRead r current fd len).2 ∧
      Refines (vfsRead s current fd len).2.2 (refRead r current fd len).1 := by
  unfold vfsRead refRead
  rw [refGet_eq h]
  rcases hg : fdGet s current fd with _ | ⟨t, i, f⟩
  · exact ⟨rfl, h⟩
  · have hf := fds_of_fdGet hg
    have hfo := hoff t i f hf
    have hnode := h.holds f.node
    simp only [Option.map_some]
    cases hc : r.content f.node with
    | none =>
      rw [hc] at hnode
      simp only [hnode.1, reduceCtorEq, if_false]
      exact ⟨trivial, h⟩
    | some l =>
      rw [hc] at hnode
      have hread := ramfsRead_eq hnode hfo hlen
      have hshort : ((l.drop f.offset).take len).length ≤ len := List.length_take_le _ _
      simp only [hnode.1, if_true, hread]
      rw [advance_natCast (by omega)]
      exact ⟨trivial, h.setFile t i { f with offset := f.offset + _ }⟩

variable (current fd) in
theorem vfsWrite_refines (h : Refines s r) (hoff : OffsetsBelow s) {buf : List UInt8}
    {fresh : Option (Nat → UInt8)} (hlen : buf.length < 2 ^ 47)
    (hoff' : OffsetsBelow (vfsWrite s current fd buf fresh).2) :
    ((⟨(vfsWrite s current fd buf fresh).1, []⟩ : Answer) = (refWrite r current fd buf).2 ∧
        Refines (vfsWrite s current fd buf fresh).2 (refWrite r current fd buf).1) ∨
      (fresh = none ∧ r.Grows current fd buf ∧
        (vfsWrite s current fd buf fresh).1 = -12 ∧
        Refines (vfsWrite s current fd buf fresh).2 r) := by
  unfold vfsWrite refWrite RefFs.Grows at *
  rw [refGet_eq h]
  rcases hg : fdGet s current fd with _ | ⟨t, i, f⟩
  · exact .inl ⟨rfl, h⟩
  · have hf := fds_of_fdGet hg
    have hfo := hoff t i f hf
    have hnode := h.holds f.node
    simp only [hg, Option.map_some] at hoff' ⊢
    cases hc : r.content f.node with
    | none =>
      rw [hc] at hnode
      simp only [hnode.1, reduceCtorEq, if_false]
      exact .inl ⟨trivial, h⟩
    | some l =>
      rw [hc] at hnode
      simp only [hnode.1, if_true] at hoff' ⊢
      rcases ramfsWrite_cases (s.nodes f.node) buf f.offset fresh with ⟨hw, hfresh, hgrow⟩ | hn
      · obtain ⟨-, -, -, k, hdata⟩ := hnode
        rw [hdata, List.length_append] at hgrow
        rw [hw]
        exact .inr ⟨hfresh, ⟨t, i, f.node, f.offset, l, rfl, hc, by omega⟩, rfl,
          h.same hf f.node⟩
      · -- the offset that the write leaves is below `2 ^ 63`, and so is the end of the file
        have hadv : f.advance buf.length = { f with offset := f.offset + buf.length } :=
          advance_natCast (by omega)
        have hfin : f.offset + buf.length < 2 ^ 63 := by
          have hslot := hoff' t i (f.advance buf.length) (by simp [Vfs.setFile, hn])
          rwa [hadv] at hslot
        rcases ramfsWrite_spec hnode hfin fresh with ⟨hw, -⟩ | ⟨n', hw, hholds⟩
        · rw [hw] at hn
          omega
        · rw [hw, hadv]
          exact .inl ⟨rfl, (h.setNode f.node hholds).setFile t i { f with offset := f.offset + _ }⟩

def SameTarget (new exact : Int) : Prop :=
  (new = exact ∧ 0 ≤ exact ∧ exact < 2 ^ 63) ∨ (new < 0 ∧ ¬ (0 ≤ exact ∧ exact < 2 ^ 63))

theorem sameTarget_int64 {base : Nat} (hb : base < 2 ^ 63) (hlo : -2 ^ 63 ≤ off)
    (hhi : off < 2 ^ 63) : SameTarget (int64 (int64 base + off)) (base + off) := by
  have hbase : int64 base = base := by
    rw [int64, Int.bmod_def]
    omega
  unfold SameTarget
  rw [hbase, int64, Int.bmod_def]
  omega

theorem newOff_spec (h : Refines s r) (hfo : f.offset < 2 ^ 63)
    (hlo : -2 ^ 63 ≤ off) (hhi : off < 2 ^ 63) (whence : Whence) :
    (newOff s f off whence = none ∧ refTarget r f.node f.offset off whence = none) ∨
      ∃ new exact, newOff s f off whence = some new ∧
        refTarget r f.node f.offset off whence = some exact ∧ SameTarget new exact := by
  cases whence with
  | set =>
    refine .inr ⟨off, off, rfl, rfl, ?_⟩
    unfold SameTarget
    omega
  | cur => exact .inr ⟨_, _, rfl, rfl, sameTarget_int64 hfo hlo hhi⟩
  | fin =>
    refine .inr ⟨_, _, rfl, rfl, ?_⟩
    have hnode := h.holds f.node
    cases hc : r.content f.node with
    | none =>
      rw [hc] at hnode
      rw [hnode.2]
      exact sameTarget_int64 (by decide) hlo hhi
    | some l =>
      rw [hc] at hnode
      obtain ⟨-, hsize, hl, -⟩ := hnode
      rw [hsize]
      exact sameTarget_int64 hl hlo hhi
  | other => exact .inl ⟨rfl, rfl⟩

variable (current fd) in
theorem vfsLseek_refines (h : Refines s r) (hoff : OffsetsBelow s) (whence : Whence)
    (hlo : -2 ^ 63 ≤ off) (hhi : off < 2 ^ 63) :
    (⟨(vfsLseek s current fd off whence).1, []⟩ : Answer) = (refLseek r current fd off whence).2 ∧
      Refines (vfsLseek s current fd off whence).2 (refLseek r current fd off whence).1 := by
  unfold vfsLseek refLseek
  rw [refGet_eq h]
  rcases hg : fdGet s current fd with _ | ⟨t, i, f⟩
  · exact ⟨rfl, h⟩
  · have hfo := hoff t i f (fds_of_fdGet hg)
    simp only [Option.map_some]
    rcases newOff_spec h hfo hlo hhi whence with ⟨hn, ht⟩ | ⟨new, exact, hn, ht, hsame⟩
    · simp only [hn, ht]
      exact ⟨trivial, h⟩
    · simp only [hn, ht]
      rcases hsame with ⟨rfl, hin⟩ | ⟨hneg, hout⟩
      · rw [if_neg (by omega), if_pos hin]
        exact ⟨rfl, h.setFile t i { f with offset := new.toNat }⟩
      · rw [if_pos hneg, if_neg hout]
        exact ⟨rfl, h⟩

/-- **One call** of the code is one of the byte strings. -/
theorem fileStep_refines (h : Refines s r) {c : FileCall} (hc : c.Small) (hoff : OffsetsBelow s)
    (hoff' : OffsetsBelow (fileStep s c).1) :
    ∃ r', RefStep r c r' (fileStep s c).2 ∧ Refines (fileStep s c).1 r' := by
  obtain ⟨current, fd, op⟩ := c
  cases op with
  | read len =>
    obtain ⟨ha, hr⟩ := vfsRead_refines current fd h hoff hc
    exact ⟨_, Prod.ext rfl ha, hr⟩
  | write buf fresh =>
    rcases vfsWrite_refines current fd h hoff hc hoff' with
      ⟨ha, hr⟩ | ⟨hf, hok, hn, hr⟩
    · exact ⟨_, .inl (Prod.ext rfl ha), hr⟩
    · refine ⟨r, .inr ⟨hf, hok, Prod.ext rfl ?_⟩, hr⟩
      exact congrArg (fun n => (⟨n, []⟩ : Answer)) hn
  | lseek off whence =>
    obtain ⟨ha, hr⟩ := vfsLseek_refines current fd h hoff whence hc.1 hc.2
    exact ⟨_, Prod.ext rfl ha, hr⟩

/-- Every node is as `ramfs_alloc` made it: nothing has been written yet. -/
def Unwritten (s : Vfs) : Prop := ∀ i, (s.nodes i).size = 0 ∧ (s.nodes i).data = []

/-- The reference model of such a state: empty files, and the offsets of the
`file_t` objects that are open. -/
def refStart (s : Vfs) : RefFs where
  content i := if (s.nodes i).kind = .file then some [] else none
  files t i := (s.fds t i).map fun f => (f.node, f.offset)

/-! ## Whole runs -/

theorem refines_refStart {s : Vfs} (h : Unwritten s) : Refines s (refStart s) where
  holds i := by
    obtain ⟨hsize, hdata⟩ := h i
    simp only [refStart]
    cases hk : (s.nodes i).kind with
    | file => exact ⟨hk, hsize, by decide, 0, hdata⟩
    | dir => exact ⟨hk, hsize⟩
  files _ _ := rfl

/-- **Files hold what was written.** Take any set of unwritten ramfs files
with any number of `file_t` objects open on them, and any interleaving of
reads, writes and seeks through those: every result and every returned byte is
that of the reference model, and the files end in its state. A call that the
reference model answers with an error leaves all of it unchanged. -/
theorem files_refine {s : Vfs} (hs : Unwritten s) (calls : List FileCall)
    (hsmall : ∀ c ∈ calls, c.Small) (hoff : Machine.Along fileStep OffsetsBelow s calls) :
    (∃ r, Machine.SpecRun RefStep (refStart s) calls (outputs fileStep s calls) r ∧
        Refines (final fileStep s calls) r) ∧
      ∀ r c r' a, RefStep r c r' a → a.result < 0 → r' = r :=
  ⟨@specRun_of_simulation _ _ _ _ fileStep RefStep Refines OffsetsBelow FileCall.Small
      (fun _ _ _ hc hp hp' hr => fileStep_refines hr hc hp hp') calls _ _ hsmall hoff
      (refines_refStart hs),
    fun _ _ _ _ h ha => refStep_of_neg h ha⟩

theorem fds_setFile_of_ne {s : Vfs} {t u : TaskId} {i j : Nat} {f : Option OpenFile}
    (h : (u, j) ≠ (t, i)) : (s.setFile t i f).fds u j = s.fds u j := by
  simp only [Vfs.setFile]
  by_cases hu : u = t
  · have hj : j ≠ i := fun hj => h (by rw [hu, hj])
    rw [hu, update_self, update_of_ne hj]
  · rw [update_of_ne hu]

variable {c : FileCall}

theorem fileStep_other {s : Vfs} {u : TaskId} {j : Nat}
    (h : ∀ t i f, fdGet s c.current c.fd = some (t, i, f) → (u, j) ≠ (t, i)) :
    (fileStep s c).1.fds u j = s.fds u j := by
  obtain ⟨current, fd, op⟩ := c
  rcases hg : fdGet s current fd with _ | ⟨t, i, f⟩
  · cases op <;> simp [fileStep, vfsRead, vfsWrite, vfsLseek, hg]
  · have hne := h t i f hg
    cases op with
    | read len =>
      simp only [fileStep, vfsRead, hg]
      split
      · exact fds_setFile_of_ne hne
      · rfl
    | write buf fresh =>
      simp only [fileStep, vfsWrite, hg]
      split
      · exact fds_setFile_of_ne hne
      · rfl
    | lseek off whence =>
      simp only [fileStep, vfsLseek, hg]
      split
      · rfl
      · split
        · rfl
        · exact fds_setFile_of_ne hne

theorem OffsetsBelow.step {s : Vfs} (h : OffsetsBelow s) {t : TaskId} {i : Nat}
    {f f' : OpenFile} (hg : fdGet s c.current c.fd = some (t, i, f))
    (hf : (fileStep s c).1.fds t i = some f') (hb : f'.offset < 2 ^ 63) :
    OffsetsBelow (fileStep s c).1 := by
  intro u j g hu
  by_cases hslot : (u, j) = (t, i)
  · obtain ⟨rfl, rfl⟩ := Prod.mk.inj hslot
    obtain rfl := Option.some.inj (hf.symm.trans hu)
    exact hb
  · rw [fileStep_other fun t' i' f'' hg' => by
      rw [hg] at hg'
      cases hg'
      exact hslot] at hu
    exact h u j g hu

/-- One empty file, open at offset 5 in slot 3 of task 2 and at offset 0 in
slot 0 of task 7. -/
def twoReaders : Vfs where
  nodes _ := ⟨[], .file, 0, 1, 0, 2, none, [], []⟩
  count := 1
  nextIno := 2
  mounts := []
  fds t i :=
    if t = 2 ∧ i = 3 then some ⟨0, 5, 0, 1⟩ else if t = 7 ∧ i = 0 then some ⟨0, 0, 0, 1⟩ else none

def sparseCalls : List FileCall :=
  [⟨some 2, 3, .write [1, 2] (some fun _ => 0xAA)⟩, ⟨some 7, 0, .read 100⟩]

theorem files_refine_hole :
    outputs fileStep twoReaders sparseCalls =
        [⟨2, []⟩, ⟨7, [0, 0, 0, 0, 0, 1, 2]⟩] ∧
      ∃ r, Machine.SpecRun RefStep (refStart twoReaders) sparseCalls
        [⟨2, []⟩, ⟨7, [0, 0, 0, 0, 0, 1, 2]⟩] r := by
  have hout : outputs fileStep twoReaders sparseCalls =
      [⟨2, []⟩, ⟨7, [0, 0, 0, 0, 0, 1, 2]⟩] := by decide +kernel
  have h0 : OffsetsBelow twoReaders := by
    intro t i f hf
    simp only [twoReaders] at hf
    split at hf
    · cases hf
      decide
    · split at hf
      · cases hf
        decide
      · cases hf
  have h1 := h0.step (c := ⟨some 2, 3, .write [1, 2] (some fun _ => 0xAA)⟩) (t := 2) (i := 3)
    (f := ⟨0, 5, 0, 1⟩) (by decide) (by decide +kernel : _ = some ⟨0, 7, 0, 1⟩) (by decide)
  have h2 := h1.step (c := ⟨some 7, 0, .read 100⟩) (t := 7) (i := 0)
    (f := ⟨0, 0, 0, 1⟩) (by decide +kernel) (by decide +kernel : _ = some ⟨0, 7, 0, 1⟩) (by decide)
  have hunwritten : Unwritten twoReaders := fun _ => ⟨rfl, rfl⟩
  have hsmall : ∀ c ∈ sparseCalls, c.Small := by
    simp [sparseCalls, FileCall.Small]
  obtain ⟨⟨r, hrun, -⟩, -⟩ := files_refine hunwritten sparseCalls hsmall ⟨h0, h1, h2⟩
  exact ⟨hout, r, hout ▸ hrun⟩

end DevOs
