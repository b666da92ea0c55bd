import DevOs.Elf.Layout

/-!
What a program may do with the pages of its image.
-/

namespace DevOs

open ByteMem

structure PageRights where
  user : Bool
  writable : Bool
  executable : Bool
  deriving DecidableEq, Repr

def entryRights (e : BitVec 64) : PageRights :=
  ⟨e &&& vmmUser != 0, e &&& vmmWritable != 0, e &&& vmmNoExec == 0⟩

def PageRights.meet (r r' : PageRights) : PageRights :=
  ⟨r.user && r'.user, r.writable && r'.writable, r.executable && r'.executable⟩

/-- The rights along a path of tables and a last entry, if all are present and none
stands for a huge page. -/
def pathRights (m : Mem) (t : Nat) : List (Fin 512) → Fin 512 → Option PageRights
  | [], i => (leafEntry (entry m t i)).map entryRights
  | k :: p, i =>
    if entry m t k &&& vmmHuge = 0 then
      (childTable (entry m t k)).bind fun u =>
        (pathRights m u p i).map (entryRights (entry m t k)).meet
    else none

def effectiveRights (m : Mem) (pml4 : Nat) (v : BitVec 64) : Option PageRights :=
  pathRights m pml4 (tablePath v) (ptIdx v)

variable {e : BitVec 64} {page : Nat}

theorem frame_or_and (hal : pageSize ∣ page) (hlt : page < 2 ^ 52)
    {flags bit : BitVec 64} (hbit : vmmPhysMask &&& bit = 0) :
    (BitVec.ofNat 64 page ||| flags) &&& bit = flags &&& bit := by
  have hzero : BitVec.ofNat 64 page &&& bit = 0 := by
    rw [← frame_and_mask hal hlt, BitVec.and_assoc, hbit]
    exact BitVec.and_zero
  rw [BitVec.and_or_distrib_right, hzero]
  exact BitVec.zero_or

theorem entryRights_frame (hal : pageSize ∣ page) (hlt : page < 2 ^ 52)
    (flags : BitVec 64) : entryRights (BitVec.ofNat 64 page ||| flags) = entryRights flags := by
  rw [entryRights, frame_or_and hal hlt (by decide), frame_or_and hal hlt (by decide),
    frame_or_and hal hlt (by decide), entryRights]

theorem OpenLink.rights (h : OpenLink e) :
    entryRights e = ⟨true, true, true⟩ ∧ e &&& vmmHuge = 0 := by
  obtain ⟨t, ht, rfl⟩ := h
  rw [entryRights_frame ht.aligned ht.small, frame_or_and ht.aligned ht.small (by decide)]
  decide

theorem pathRights_of_open {m : Mem} {t : Nat} {p : List (Fin 512)} {i : Fin 512}
    (hopen : ∀ q u k, q ++ [k] <+: p → Radix.walk childTable (entry m) t q = some u →
      childTable (entry m u k) ≠ none → OpenLink (entry m u k))
    (he : Radix.lookup childTable leafEntry (entry m) t p i = some e) :
    pathRights m t p i = some (entryRights e) := by
  induction p generalizing t with
  | nil => rw [pathRights, show leafEntry (entry m t i) = some e from he, Option.map_some]
  | cons k p ih =>
    obtain ⟨pt, hwalk, hleaf⟩ := Option.bind_eq_some_iff.mp he
    obtain ⟨u, hu, hrest⟩ := Option.bind_eq_some_iff.mp hwalk
    have hlink := hopen [] t k (List.prefix_append [k] p) rfl (by rw [hu]; exact nofun)
    obtain ⟨hall, hhuge⟩ := hlink.rights
    have hbelow : pathRights m u p i = some (entryRights e) := by
      refine ih (fun q w l hq hw hl => hopen (k :: q) w l ?_ ?_ hl) ?_
      · exact List.cons_prefix_cons.mpr ⟨rfl, hq⟩
      · rw [Radix.walk, hu]
        exact hw
      · exact Option.bind_eq_some_iff.mpr ⟨pt, hrest, hleaf⟩
    rw [pathRights, if_pos hhuge, hu, Option.bind_some, hbelow, hall]
    rfl

variable {region : Nat → Prop} {used usedK : Nat → Prop} {pml4 k : Nat} {V : View}
  {w : PageView} {s s' : Phys Pmm} {v : BitVec 64} {img : ElfImage} {heap : HeapNeed}
  {task : UserTask}

theorem Shows.effectiveRights (h : Shows region OpenLink used pml4 V s) (hv : LowerHalf v)
    (hw : V (pageNumber v) = some w) :
    effectiveRights s.mem pml4 v = some (entryRights w.flags) := by
  obtain ⟨d, -, hbehind⟩ := h.pages v w hw
  obtain ⟨hpres, pt, hpt, hentry⟩ := mappedEntry_eq_some hbehind.entry
  rw [← entryRights_frame hbehind.data.aligned hbehind.data.inRange.lt]
  refine pathRights_of_open (fun q u i hq hwalk hchild => ?_) ?_
  -- the tables of the lower half, as they are in memory
  · have hprefix := (List.prefix_append q [i]).trans hq
    rw [h.tree.walk_lower hv hprefix] at hwalk
    rw [h.tree.entry_lower hv (hq.trans (List.prefix_append _ _)) hwalk] at hchild ⊢
    exact h.links q u i (length_lt_of_concat hq) hwalk hchild
  · refine Option.bind_eq_some_iff.mpr ⟨pt, (h.tree.pageTable_lower hv).trans hpt, ?_⟩
    rw [h.tree.entry_lower hv List.prefix_rfl hpt, hentry]
    exact if_neg hpres

theorem entryRights_elf (pf : Nat) :
    entryRights (elfFlagsToVmm pf) = ⟨true, pf.testBit 1, pf.testBit 0⟩ := by
  unfold elfFlagsToVmm
  cases pf.testBit 1 <;> cases pf.testBit 0 <;> decide

theorem ElfImage.PagesApart.view (h : img.PagesApart) (hhalf : img.UserHalf) {i a : Nat}
    (hi : i < img.phnum) (hl : img.Loads i) (ht : (img.phdr i).Touches a) :
    showStack (showSegments img img.phnum) (pageNumber (BitVec.ofNat 64 a)) =
      some (segmentPage img (img.phdr i) a) := by
  obtain ⟨j, ⟨hij, hj⟩, hlj, htj, hpage⟩ := showSegments_at hhalf hl ht hi le_rfl
  obtain hlt | rfl := Nat.lt_or_eq_of_le hij
  · exact absurd htj (h.segments i j a hlt hj hl hlj ht)
  · rw [showStack_at (hhalf.lt hi hl ht), if_neg (h.stack i a hi hl ht), hpage]

/-- **The pages of a loaded image have the rights of its headers.** -/
theorem elfLoad_rights (hk : TreeOk usedK k s) (hhalf : img.UserHalf) (hapart : img.PagesApart)
    (h : elfLoad s k img heap = (some task, s')) :
    (∀ i a, i < img.phnum → img.Loads i → (img.phdr i).Touches a →
      effectiveRights s'.mem task.cr3 (BitVec.ofNat 64 a) =
        some ⟨true, (img.phdr i).flags.testBit 1, (img.phdr i).flags.testBit 0⟩) ∧
    ∀ a, OnStack a →
      effectiveRights s'.mem task.cr3 (BitVec.ofNat 64 a) = some ⟨true, true, false⟩ := by
  obtain ⟨region, -, -, used, hend⟩ := elfLoad_shows hk hhalf h
  refine ⟨fun i a hi hl ht => ?_, fun a hs => ?_⟩
  · have ha := hhalf.lt hi hl ht
    rw [hend.effectiveRights (lowerHalf_ofNat ha) (hapart.view hhalf hi hl ht), segmentPage,
      entryRights_elf]
  · have ha : a < 2 ^ 47 := by
      have hlast := hs.2
      rw [pageSize_eq, show stackFirst = 0x7FFFFFFE0 from rfl] at hlast
      omega
    rw [hend.effectiveRights (lowerHalf_ofNat ha) (by rw [showStack_at ha, if_pos hs])]
    decide

theorem elfLoad_rights_apart :
    let s' := (elfLoad (emptyMachine 32) 0x200000 (twoSegments 0x401000) ⟨0, 0, true⟩).2
    effectiveRights s'.mem 0x201000 0x400000#64 = some ⟨true, false, true⟩ ∧
      effectiveRights s'.mem 0x201000 0x401000#64 = some ⟨true, true, false⟩ ∧
      effectiveRights s'.mem 0x201000 0x7FFFFFFE0000#64 = some ⟨true, true, false⟩ := by
  have hheaders := twoHeaders_apart
  obtain ⟨hsegment, hstack⟩ := elfLoad_rights (treeOk_emptyMachine (by decide))
    (hheaders.userHalf (by decide)) hheaders.pagesApart (load_eq elfLoad_apart)
  have hfirst := hsegment 0 0x400000 (by rw [hheaders.count]; decide)
    (by rw [ElfImage.Loads, hheaders.first]; decide) (by rw [hheaders.first]; decide)
  have hlast := hsegment 1 0x401000 (by rw [hheaders.count]; decide)
    (by rw [ElfImage.Loads, hheaders.last]; decide) (by rw [hheaders.last]; decide)
  rw [hheaders.first] at hfirst
  rw [hheaders.last] at hlast
  exact ⟨hfirst, hlast, hstack 0x7FFFFFFE0000 (by decide)⟩

end DevOs
