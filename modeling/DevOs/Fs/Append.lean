import DevOs.Fs.Truncate
import DevOs.Fs.Refcount
import DevOs.Mm.Heap

/-!
One file that is opened several times with `O_APPEND`.
-/

namespace DevOs

open Function Machine

/-- The file layer during a run, and what its history says: the slots that were opened in it,
those behind which another one has written since, and all bytes written. -/
structure AppendState where
  vfs : Vfs
  opened : TaskId × Nat → Bool
  stale : TaskId × Nat → Bool
  written : List UInt8

/-- `vfs_open` of the file by some task, or `vfs_write` through one of the slots. -/
inductive AppendOp where
  | open (t : TaskId) (flags : Nat) (ok : Bool)
  | write (t : TaskId) (fd : Nat) (buf : List UInt8) (fresh : Option (Nat → UInt8))

/-- What there is room for: a buffer has less than `2 ^ 63` bytes, and `krealloc` returns no
block that is larger than the heap. -/
def HeapServes (s : Vfs) (t : TaskId) (fd : Nat) (buf : List UInt8)
    (fresh : Option (Nat → UInt8)) : Prop :=
  buf.length < 2 ^ 63 ∧
    (fresh.isSome → ∀ f ∈ s.fds t fd, f.offset + buf.length ≤ heapMaxSize)

instance (s : Vfs) (t : TaskId) (fd : Nat) (buf : List UInt8) (fresh : Option (Nat → UInt8)) :
    Decidable (HeapServes s t fd buf fresh) :=
  inferInstanceAs (Decidable (_ ∧ _))

/-- `vfs_open` from the point where the file `i` is found. -/
def AppendState.open (s : AppendState) (i : NodeId) (t : TaskId) (flags : Nat) (ok : Bool) :
    AppendState :=
  let res := openNode s.vfs (some t) i flags ok
  if 0 ≤ res.1 then
    { s with
      vfs := res.2
      opened := update s.opened (t, res.1.toNat) true
      stale := update s.stale (t, res.1.toNat) false }
  else { s with vfs := res.2 }

def AppendState.write (s : AppendState) (t : TaskId) (fd : Nat) (buf : List UInt8)
    (fresh : Option (Nat → UInt8)) : AppendState :=
  let res := vfsWrite s.vfs (some t) fd buf fresh
  if 0 < res.1 then
    { s with
      vfs := res.2
      stale := fun p => s.stale p || p != (t, fd)
      written := s.written ++ buf }
  else { s with vfs := res.2 }

/-- One call on the file `i`; `none` is an open without `O_APPEND`, a write through a slot
that was not opened in the run, or one that the heap does not serve. -/
def appendStep (i : NodeId) (s : AppendState) : AppendOp → Option AppendState
  | .open t flags ok => if flags &&& oAppend = 0 then none else some (s.open i t flags ok)
  | .write t fd buf fresh =>
    if s.opened (t, fd) = true ∧ HeapServes s.vfs t fd buf fresh then
      some (s.write t fd buf fresh)
    else none

/-- **The file is what it was, followed by all that was written**, in the order of the
calls. -/
def Appended (i : NodeId) (l : List UInt8) (s : AppendState) : Prop :=
  readBack (s.vfs.nodes i) = l ++ s.written

/-- The write has bytes to write and room for them, or gets it; then no other descriptor has
written since this one was opened. -/
def AppendOp.InTurn (s : AppendState) : AppendOp → Prop
  | .open _ _ _ => True
  | .write t fd buf fresh =>
    buf = [] ∨ s.stale (t, fd) = false ∨
      (fresh = none ∧ ∀ f ∈ s.vfs.fds t fd,
        (s.vfs.nodes f.node).data.length < f.offset + buf.length)

structure AppendInv (i : NodeId) (s : AppendState) : Prop where
  file : ∃ l, Holds (s.vfs.nodes i) (some l)
  room : (s.vfs.nodes i).data.length < 2 ^ 62
  slots : ∀ p, s.opened p = true → p.2 < maxFds ∧ ∃ f, s.vfs.fds p.1 p.2 = some f ∧ f.node = i ∧
    ((s.stale p = true ∧ f.offset < (s.vfs.nodes i).size) ∨
      (s.stale p = false ∧ f.offset = (s.vfs.nodes i).size))

section

variable {n n' : Node} {l buf : List UInt8} {off fin bound : Nat} {fresh : Option (Nat → UInt8)}

theorem length_growBuffer_lt (h : growBuffer n fin fresh = some n') (hn : n.data.length < bound)
    (hfin : n.data.length < fin → alignUp fin ramfsBlock < bound) : n'.data.length < bound := by
  unfold growBuffer at h
  split at h
  · rename_i hgrow
    obtain ⟨fresh, rfl, rfl⟩ := Option.map_eq_some_iff.mp h
    have hcap := hfin hgrow
    have hlen : (krealloced n.data (alignUp fin ramfsBlock) fresh).length =
        n.data.length + (alignUp fin ramfsBlock - n.data.length) := by
      rw [krealloced, List.length_append, List.length_map, List.length_range]
    dsimp only
    split
    · rw [overwrite, Sparse.length_splice (by rw [List.length_replicate]; omega)]
      omega
    · omega
  · cases h
    exact hn

theorem growBuffer_eq_none_iff :
    growBuffer n fin fresh = none ↔ fresh = none ∧ n.data.length < fin := by
  unfold growBuffer
  split
  · rename_i hgrow
    rw [Option.map_eq_none_iff]
    exact (and_iff_left hgrow).symm
  · rename_i hroom
    exact iff_of_false (Option.some_ne_none n) fun h => hroom h.2

theorem ramfsWrite_of_none (h : growBuffer n ((off + buf.length) % 2 ^ 64) fresh = none) :
    ramfsWrite n buf off fresh = (-12, n) := by
  unfold ramfsWrite
  dsimp only
  rw [h]

theorem ramfsWrite_of_some (h : growBuffer n ((off + buf.length) % 2 ^ 64) fresh = some n') :
    ∃ n'', ramfsWrite n buf off fresh = ((buf.length : Int), n'') ∧
      n''.data = overwrite n'.data off buf := by
  unfold ramfsWrite
  dsimp only
  rw [h]
  refine ⟨_, rfl, ?_⟩
  split <;> rfl

theorem ramfsWrite_nil (hoff : off ≤ n.data.length) (hsize : off ≤ n.size) (hlt : off < 2 ^ 64) :
    ramfsWrite n [] off fresh = (0, n) := by
  have hgrow : growBuffer n off fresh = some n := if_neg (Nat.not_lt_of_le hoff)
  have hsame : overwrite n.data off [] = n.data := by
    rw [overwrite, Sparse.splice, List.append_nil, List.length_nil, Nat.add_zero,
      List.take_append_drop]
  unfold ramfsWrite
  rw [List.length_nil, Nat.add_zero, Nat.mod_eq_of_lt hlt]
  dsimp only
  rw [hgrow]
  dsimp only
  rw [hsame, if_neg (Nat.not_lt_of_le hsize)]
  rfl

/-- **A write inside the file or at its end** fails for want of memory, or is one of the
reference model. -/
theorem ramfsWrite_inside (h : Holds n (some l)) (hroom : n.data.length < 2 ^ 62)
    (hoff : off ≤ n.size) (hbuf : buf.length < 2 ^ 63)
    (hserves : fresh.isSome → off + buf.length ≤ heapMaxSize) :
    (fresh = none ∧ n.data.length < off + buf.length ∧ ramfsWrite n buf off fresh = (-12, n)) ∨
      (¬ (fresh = none ∧ n.data.length < off + buf.length) ∧
        ∃ n', ramfsWrite n buf off fresh = ((buf.length : Int), n') ∧
          Holds n' (some (Sparse.write 0 l off buf)) ∧ n'.data.length < 2 ^ 62) := by
  have hsize := h.size_le
  have hmod : (off + buf.length) % 2 ^ 64 = off + buf.length := Nat.mod_eq_of_lt (by omega)
  by_cases hfail : fresh = none ∧ n.data.length < off + buf.length
  · refine .inl ⟨hfail.1, hfail.2, ramfsWrite_of_none ?_⟩
    rw [hmod]
    exact growBuffer_eq_none_iff.mpr hfail
  · -- what is written is in the buffer already, or in a block of the heap
    have hfin : off + buf.length < 2 ^ 62 := by
      cases fresh with
      | none => exact (Nat.le_of_not_lt fun hlt => hfail ⟨rfl, hlt⟩).trans_lt hroom
      | some fresh => exact (hserves rfl).trans_lt (by decide)
    have hgrown : n.data.length < off + buf.length →
        alignUp (off + buf.length) ramfsBlock < 2 ^ 62 := by
      intro hlt
      have hsome : fresh.isSome := Option.isSome_iff_ne_none.mpr fun hnone => hfail ⟨hnone, hlt⟩
      have hcap := @alignUp_lt (off + buf.length) ramfsBlock (by decide)
        (by simp only [ramfsBlock]; omega)
      have hle := hserves hsome
      simp only [ramfsBlock, heapMaxSize] at *
      omega
    refine .inr ⟨hfail, ?_⟩
    obtain ⟨hnone, hfresh⟩ | ⟨n1, hgrow, -, hle⟩ :=
      growBuffer_spec h (hfin.trans (by decide)) fresh
    · exact absurd (growBuffer_eq_none_iff.mp hnone) hfail
    · obtain ⟨n', hw, hdata⟩ := ramfsWrite_of_some (hmod.symm ▸ hgrow)
      have hlen := length_growBuffer_lt hgrow hroom hgrown
      refine ⟨n', hw, ?_, by rwa [hdata, overwrite, Sparse.length_splice hle]⟩
      obtain ⟨hw', -⟩ | ⟨n'', hw', hholds⟩ := ramfsWrite_spec h (hfin.trans (by decide)) fresh
      · have hneg := congrArg Prod.fst (hw.symm.trans hw')
        dsimp only at hneg
        omega
      · obtain rfl : n'' = n' := congrArg Prod.snd (hw'.symm.trans hw)
        exact hholds

end

variable {i : NodeId} {l : List UInt8} {s s' : AppendState} {v : Vfs} {t : TaskId} {fd : Nat}
  {f : OpenFile} {buf : List UInt8} {fresh : Option (Nat → UInt8)}

theorem vfsWrite_of_slot (hfd : fd < maxFds) (hf : v.fds t fd = some f)
    (hkind : (v.nodes f.node).kind = .file) {r : Int} {n' : Node}
    (hw : ramfsWrite (v.nodes f.node) buf f.offset fresh = (r, n')) :
    vfsWrite v (some t) fd buf fresh =
      (r, (v.modify f.node fun _ => n').setFile t fd (some (f.advance r))) := by
  have hget : fdGet v (some t) fd = some (t, fd, f) := by
    simp only [fdGet]
    rw [if_pos ⟨Int.natCast_nonneg fd, Int.ofNat_lt.mpr hfd⟩, Int.toNat_natCast, hf]
    rfl
  unfold vfsWrite
  rw [hget]
  dsimp only
  rw [if_pos hkind, hw]

theorem setFile_modify_self (hf : v.fds t fd = some f) :
    (v.modify i fun _ => v.nodes i).setFile t fd (some f) = v := by
  have hnodes : (fun j => if j = i then v.nodes i else v.nodes j) = v.nodes := by
    funext j
    split
    · rename_i hj
      rw [hj]
    · rfl
  rw [Vfs.modify, Vfs.setFile, hnodes, ← hf, update_eq_self, update_eq_self]

theorem nodes_setFile_modify (g : Option OpenFile) (n' : Node) :
    ((v.modify i fun _ => n').setFile t fd g).nodes i = n' := by
  simp only [Vfs.setFile, Vfs.modify, if_true]

theorem nodes_bumpRefcount (v : Vfs) (i : NodeId) : (bumpRefcount v i).nodes i =
    { v.nodes i with refcount := (v.nodes i).refcount + 1 } := by
  simp only [bumpRefcount, Vfs.modify, if_true]

theorem AppendInv.bumpRefcount (h : AppendInv i s) :
    AppendInv i { s with vfs := DevOs.bumpRefcount s.vfs i } ∧
      readBack ((DevOs.bumpRefcount s.vfs i).nodes i) = readBack (s.vfs.nodes i) := by
  obtain ⟨hfile, hroom, hslots⟩ := h
  refine ⟨⟨?_, ?_, ?_⟩, ?_⟩ <;> rw [nodes_bumpRefcount]
  · exact hfile
  · exact hroom
  · exact hslots
  · rfl

theorem AppendInv.addSlot (h : AppendInv i s) (hfd : fd < maxFds) (hnode : f.node = i)
    (hoff : f.offset = (s.vfs.nodes i).size) : AppendInv i { s with
        vfs := s.vfs.setFile t fd (some f)
        opened := update s.opened (t, fd) true
        stale := update s.stale (t, fd) false } where
  file := h.file
  room := h.room
  slots p hp := by
    dsimp only at hp ⊢
    rw [fds_setFile]
    by_cases heq : p = (t, fd)
    · subst heq
      rw [if_pos rfl]
      exact ⟨hfd, f, rfl, hnode, .inr ⟨update_self .., hoff⟩⟩
    · rw [update_of_ne heq] at hp
      rw [if_neg heq, update_of_ne heq]
      exact h.slots p hp

theorem appended_congr (hback : readBack (s'.vfs.nodes i) = readBack (s.vfs.nodes i))
    (hwritten : s'.written = s.written) : Appended i l s' ↔ Appended i l s := by
  rw [Appended, Appended, hback, hwritten]

theorem AppendInv.open (h : AppendInv i s) {flags : Nat} (hflags : flags &&& oAppend ≠ 0)
    (ok : Bool) :
    AppendInv i (s.open i t flags ok) ∧ (Appended i l (s.open i t flags ok) ↔ Appended i l s) := by
  unfold AppendState.open
  obtain ⟨hbump, hback⟩ := h.bumpRefcount
  obtain ⟨-, heq⟩ | ⟨-, -, heq⟩ | ⟨u, fd, f, hu, hfd, -, hnode, -, hoff, heq⟩ :=
    openNode_cases s.vfs (some t) i flags ok
  · rw [heq]
    exact ⟨⟨h.file, h.room, h.slots⟩, Iff.rfl⟩
  · rw [heq]
    exact ⟨hbump, appended_congr hback rfl⟩
  · obtain rfl := Option.some.inj hu
    have hend : f.offset = ((DevOs.bumpRefcount s.vfs i).nodes i).size := by
      rw [hoff, if_pos hflags, nodes_bumpRefcount]
    rw [heq]
    dsimp only
    rw [if_pos (Int.natCast_nonneg fd), Int.toNat_natCast]
    exact ⟨hbump.addSlot hfd hnode hend, appended_congr hback rfl⟩

theorem AppendState.write_of_same (hfd : fd < maxFds) (hf : s.vfs.fds t fd = some f)
    (hkind : (s.vfs.nodes f.node).kind = .file) {r : Int} (hr : r ≤ 0)
    (hw : ramfsWrite (s.vfs.nodes f.node) buf f.offset fresh = (r, s.vfs.nodes f.node)) :
    s.write t fd buf fresh = s := by
  unfold AppendState.write
  have hadvance : f.advance r = f := if_neg (Int.not_lt.mpr hr)
  rw [vfsWrite_of_slot hfd hf hkind hw]
  dsimp only
  rw [if_neg (Int.not_lt.mpr hr), hadvance, setFile_modify_self hf]

theorem AppendState.write_of_pos (hfd : fd < maxFds) (hf : s.vfs.fds t fd = some f)
    (hkind : (s.vfs.nodes f.node).kind = .file) (hbuf : buf ≠ []) {n' : Node}
    (hw : ramfsWrite (s.vfs.nodes f.node) buf f.offset fresh = ((buf.length : Int), n'))
    (hlt : f.offset + buf.length < 2 ^ 64) : s.write t fd buf fresh = { s with
        vfs := (s.vfs.modify f.node fun _ => n').setFile t fd
          (some { f with offset := f.offset + buf.length })
        stale := fun p => s.stale p || p != (t, fd)
        written := s.written ++ buf } := by
  have hpos := List.length_pos_iff.mpr hbuf
  unfold AppendState.write
  rw [vfsWrite_of_slot hfd hf hkind hw]
  dsimp only
  rw [if_pos (Int.natCast_pos.mpr hpos), advance_natCast hlt]

theorem AppendInv.append (h : AppendInv i s) (hnode : f.node = i)
    (hend : f.offset = (s.vfs.nodes i).size) (hstale : s.stale (t, fd) = false) {n' : Node}
    {l' : List UInt8} (hbuf : buf ≠ []) (hn' : Holds n' (some l'))
    (hroom : n'.data.length < 2 ^ 62) (hsize : n'.size = (s.vfs.nodes i).size + buf.length) :
    AppendInv i { s with
        vfs := (s.vfs.modify i fun _ => n').setFile t fd
          (some { f with offset := f.offset + buf.length })
        stale := fun p => s.stale p || p != (t, fd)
        written := s.written ++ buf } := by
  have hpos := List.length_pos_iff.mpr hbuf
  constructor
  · exact ⟨l', by rwa [nodes_setFile_modify]⟩
  · rwa [nodes_setFile_modify]
  · intro p hp
    dsimp only at hp ⊢
    obtain ⟨hp2, g, hg, hgnode, hgoff⟩ := h.slots p hp
    rw [nodes_setFile_modify, fds_setFile]
    refine ⟨hp2, ?_⟩
    by_cases heq : p = (t, fd)
    · subst heq
      refine ⟨_, if_pos rfl, hnode, .inr ⟨?_, ?_⟩⟩
      · rw [hstale, bne_self_eq_false, Bool.or_self]
      · rw [hsize, ← hend]
    · refine ⟨g, (if_neg heq).trans hg, hgnode, .inl ⟨?_, ?_⟩⟩
      · rw [bne_iff_ne.mpr heq, Bool.or_true]
      · omega

theorem inTurn_write_iff (hbuf : buf ≠ []) (hf : s.vfs.fds t fd = some f)
    (hserved : ¬ (fresh = none ∧ (s.vfs.nodes f.node).data.length < f.offset + buf.length)) :
    (AppendOp.write t fd buf fresh).InTurn s ↔ s.stale (t, fd) = false := by
  constructor
  · rintro (hnil | hstale | ⟨hfresh, hlong⟩)
    · exact absurd hnil hbuf
    · exact hstale
    · exact absurd ⟨hfresh, hlong f hf⟩ hserved
  · exact fun hstale => .inr (.inl hstale)

theorem AppendInv.offset (h : AppendInv i s) (hopened : s.opened (t, fd) = true) :
    fd < maxFds ∧ ∃ f, s.vfs.fds t fd = some f ∧ f.node = i ∧ f.offset ≤ (s.vfs.nodes i).size ∧
      (f.offset = (s.vfs.nodes i).size ↔ s.stale (t, fd) = false) := by
  obtain ⟨hfd, f, hf, hnode, hoff⟩ := h.slots (t, fd) hopened
  refine ⟨hfd, f, hf, hnode, ?_⟩
  obtain ⟨hstale, hlt⟩ | ⟨hstale, heq⟩ := hoff
  · exact ⟨hlt.le, iff_of_false hlt.ne fun hno => Bool.noConfusion (hstale.symm.trans hno)⟩
  · exact ⟨heq.le, iff_of_true heq hstale⟩

theorem AppendInv.write (h : AppendInv i s) (hp : Appended i l s)
    (hopened : s.opened (t, fd) = true) (hserves : HeapServes s.vfs t fd buf fresh) :
    (Appended i l (s.write t fd buf fresh) ↔ (AppendOp.write t fd buf fresh).InTurn s) ∧
      (Appended i l (s.write t fd buf fresh) → AppendInv i (s.write t fd buf fresh)) := by
  obtain ⟨l', hl'⟩ := h.file
  obtain ⟨hfd, f, hf, rfl, hin, hiff⟩ := h.offset hopened
  obtain rfl : l' = l ++ s.written := hl'.readBack.symm.trans hp
  have hkind := hl'.1
  have hsize := hl'.2.1
  have hle := hl'.size_le
  have hroom := h.room
  by_cases hbuf : buf = []
  · subst hbuf
    have hw := @ramfsWrite_nil _ f.offset fresh (hin.trans hle) hin (by omega)
    rw [AppendState.write_of_same hfd hf hkind le_rfl hw]
    exact ⟨iff_of_true hp (.inl rfl), fun _ => h⟩
  · obtain ⟨hfresh, hlong, hw⟩ | ⟨hserved, n', hw, hn', hroom'⟩ :=
      ramfsWrite_inside hl' hroom hin hserves.1 fun hsome => hserves.2 hsome f hf
    · rw [AppendState.write_of_same hfd hf hkind (by decide) hw]
      refine ⟨iff_of_true hp (.inr (.inr ⟨hfresh, fun g hg => ?_⟩)), fun _ => h⟩
      obtain rfl := Option.some.inj (hf.symm.trans hg)
      exact hlong
    · have hlen := Sparse.length_write 0 (l ++ s.written) f.offset buf
      have hlt : f.offset + buf.length < 2 ^ 64 := by
        have hb := hserves.1
        omega
      have hat : Appended f.node l (s.write t fd buf fresh) ↔
          f.offset = (s.vfs.nodes f.node).size := by
        rw [AppendState.write_of_pos hfd hf hkind hbuf hw hlt, Appended]
        dsimp only
        rw [nodes_setFile_modify, hn'.readBack, ← List.append_assoc,
          Sparse.write_eq_append_iff 0 (hsize ▸ hin) hbuf, hsize]
      have hturn := inTurn_write_iff hbuf hf hserved
      refine ⟨hat.trans (hiff.trans hturn.symm), fun happ => ?_⟩
      have hend := hat.mp happ
      rw [AppendState.write_of_pos hfd hf hkind hbuf hw hlt]
      refine h.append rfl hend (hiff.mp hend) hbuf hn' hroom' ?_
      rw [hn'.2.1, hlen, hend, hsize]
      omega

/-- **The content is the old one followed by all that was written, at every point of a run,
exactly if no descriptor writes after another one has written since it was opened.** -/
theorem appended_iff {s : Vfs} {i : NodeId} {l : List UInt8} (hfile : Holds (s.nodes i) (some l))
    (hcap : (s.nodes i).data.length ≤ heapMaxSize) (ops : List AppendOp) :
    Always (appendStep i) (Appended i l) ⟨s, fun _ => false, fun _ => false, []⟩ ops ↔
      Steps (appendStep i) (fun s op => op.InTurn s)
        ⟨s, fun _ => false, fun _ => false, []⟩ ops := by
  refine @always_iff_steps _ _ (appendStep i) (AppendInv i) (Appended i l) _ ?_ ops _ ?_ ?_
  · intro s op s' h hp hs
    cases op with
    | «open» t flags ok =>
      simp only [appendStep] at hs
      split at hs
      · cases hs
      · rename_i hflags
        obtain rfl := Option.some.inj hs
        obtain ⟨hinv, hsame⟩ := @AppendInv.open i l s t h flags hflags ok
        exact ⟨iff_of_true (hsame.mpr hp) trivial, fun _ => hinv⟩
    | write t fd buf fresh =>
      simp only [appendStep] at hs
      split at hs
      · rename_i hmade
        obtain rfl := Option.some.inj hs
        exact h.write hp hmade.1 hmade.2
      · cases hs
  · exact ⟨⟨l, hfile⟩, hcap.trans_lt (by decide), fun p hp => Bool.noConfusion hp⟩
  · rw [Appended, hfile.readBack, List.append_nil]

def emptyFile : Vfs where
  nodes _ := newFile
  count := 1
  nextIno := 2
  mounts := []
  fds _ _ := none

theorem appended_one_after_the_other :
    Always (appendStep 0) (Appended 0 []) ⟨emptyFile, fun _ => false, fun _ => false, []⟩
      [.open 1 oAppend true, .write 1 0 [7] (some fun _ => 0xAA),
        .open 2 oAppend true, .write 2 0 [8] none] := by
  have hfile : Holds (emptyFile.nodes 0) (some []) := ⟨rfl, rfl, by decide, 0, rfl⟩
  refine (appended_iff hfile (by decide) _).mpr fun s1 h1 => ⟨trivial, fun s2 h2 =>
    ⟨?_, fun s3 h3 => ⟨trivial, fun _ _ => ⟨?_, trivial⟩⟩⟩⟩
  · have hstale : (appendStep 0 ⟨emptyFile, fun _ => false, fun _ => false, []⟩
        (.open 1 oAppend true)).map (fun s => s.stale (1, 0)) = some false := by decide +kernel
    rw [h1] at hstale
    exact .inr (.inl (Option.some.inj hstale))
  · have hstale : ([.open 1 oAppend true, .write 1 0 [7] (some fun _ => 0xAA),
        .open 2 oAppend true].foldlM (appendStep 0)
          ⟨emptyFile, fun _ => false, fun _ => false, []⟩).map (fun s => s.stale (2, 0)) =
          some false := by decide +kernel
    rw [List.foldlM_cons, h1, Option.bind_eq_bind, Option.bind_some, List.foldlM_cons, h2,
      Option.bind_eq_bind, Option.bind_some, List.foldlM_cons, h3] at hstale
    exact .inr (.inl (Option.some.inj hstale))

/-- **Two descriptors that were opened before either wrote.** -/
theorem appends_overwrite :
    ∃ s, [.open 1 oAppend true, .open 2 oAppend true, .write 1 0 [7] (some fun _ => 0xAA),
        .write 2 0 [8] none].foldlM (appendStep 0)
          ⟨emptyFile, fun _ => false, fun _ => false, []⟩ = some s ∧
      s.written = [7, 8] ∧ readBack (s.vfs.nodes 0) = [8] ∧ ¬ Appended 0 [] s := by
  have hrun : ([.open 1 oAppend true, .open 2 oAppend true, .write 1 0 [7] (some fun _ => 0xAA),
      .write 2 0 [8] none].foldlM (appendStep 0)
        ⟨emptyFile, fun _ => false, fun _ => false, []⟩).map
          (fun s => (s.written, readBack (s.vfs.nodes 0))) = some ([7, 8], [8]) := by decide +kernel
  obtain ⟨s, hs, hres⟩ := Option.map_eq_some_iff.mp hrun
  obtain ⟨hwritten, hback⟩ := Prod.mk.inj hres
  refine ⟨s, hs, hwritten, hback, ?_⟩
  rw [Appended, hback, hwritten]
  decide

end DevOs
