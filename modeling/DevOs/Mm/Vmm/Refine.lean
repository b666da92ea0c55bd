import DevOs.Mm.Vmm.Tree

/-!
The page tables of one address space refine a map from page numbers to frames.
-/

namespace DevOs

open ByteMem Function Radix

def pageNumber (v : BitVec 64) : BitVec 36 := v.extractLsb' 12 36

abbrev PageMap := BitVec 36 → Option (BitVec 64)

inductive VmmOp where
  | map (virt phys flags : BitVec 64)
  | unmap (virt : BitVec 64)
  deriving DecidableEq, Repr

def VmmOp.virt : VmmOp → BitVec 64
  | .map virt _ _ => virt
  | .unmap virt => virt

def VmmOp.FlagsOk : VmmOp → Prop
  | .map _ _ flags => flags &&& vmmPresent ≠ 0 ∧ flags &&& vmmPhysMask = 0
  | .unmap _ => True

def specStep (f : PageMap) : VmmOp → PageMap
  | .map virt phys _ => update f (pageNumber virt) (some (phys &&& vmmPhysMask))
  | .unmap virt => update f (pageNumber virt) none

def specTranslate (f : PageMap) (v : BitVec 64) : BitVec 64 :=
  match f (pageNumber v) with
  | none => 0
  | some frame => frame ||| (v &&& 0xFFF#64)

def vmmStep (pml4 : Nat) (s : Phys (List Nat)) : VmmOp → Phys (List Nat)
  | .map virt phys flags => vmmMap s pml4 virt phys flags
  | .unmap virt => vmmUnmap s pml4 virt

theorem toNat_tableIdx (x : BitVec 64) : (tableIdx x).val = x.toNat % 512 := by
  show (x &&& 0x1FF#64).toNat = _
  rw [BitVec.toNat_and]
  exact Nat.and_two_pow_sub_one_eq_mod x.toNat 9

theorem tablePath_eq_iff (v w : BitVec 64) :
    tablePath v = tablePath w ∧ ptIdx v = ptIdx w ↔ pageNumber v = pageNumber w := by
  have hpath : tablePath v = tablePath w ↔
      pml4Idx v = pml4Idx w ∧ pdptIdx v = pdptIdx w ∧ pdIdx v = pdIdx w := by
    simp [tablePath]
  rw [hpath, BitVec.toNat_eq]
  simp only [Fin.ext_iff, pml4Idx, pdptIdx, pdIdx, ptIdx, toNat_tableIdx, BitVec.toNat_ushiftRight,
    Nat.shiftRight_eq_div_pow, pageNumber, BitVec.extractLsb'_toNat]
  omega

structure FreshFrames (pml4 : Nat) (supply : List Nat) : Prop where
  nodup : (pml4 :: supply).Nodup
  nonzero : ∀ t ∈ pml4 :: supply, t ≠ 0
  aligned : ∀ t ∈ pml4 :: supply, pageSize ∣ t
  small : ∀ t ∈ pml4 :: supply, t < 2 ^ 52

def InUse (pml4 : Nat) (supply rest : List Nat) (t : Nat) : Prop :=
  t ∈ pml4 :: supply ∧ t ∉ rest

structure TablesOk (pml4 : Nat) (supply : List Nat) (s : Phys (List Nat)) : Prop where
  tree : PageTree s.mem pml4 (InUse pml4 supply s.frames)
  suffix : s.frames <:+ supply

variable {pml4 : Nat} {supply : List Nat} {s : Phys (List Nat)} {flags : BitVec 64} {f : PageMap}

theorem frames_getOrCreate (s : Phys (List Nat)) (t : Nat) (i : Fin 512) (flags : BitVec 64) :
    (getOrCreate s t i flags).2.frames <:+ s.frames := by
  unfold getOrCreate allocPage
  obtain ⟨mem, frames⟩ := s
  cases frames with
  | nil => split <;> exact List.suffix_refl _
  | cons page rest =>
    split
    · exact List.suffix_cons page rest
    · exact List.suffix_refl _

theorem ne_nil_of_suffix {l l' : List Nat} (h : l <:+ l') (hl : l ≠ []) : l' ≠ [] := by
  rintro rfl
  exact hl (List.suffix_nil.mp h)

theorem frames_vmmStep (s : Phys (List Nat)) (op : VmmOp) :
    (vmmStep pml4 s op).frames <:+ s.frames := by
  cases op with
  | map virt phys flags =>
    rw [vmmStep, vmmMap]
    have h1 := frames_getOrCreate s pml4 (pml4Idx virt) (midFlags flags)
    rcases e1 : getOrCreate s pml4 (pml4Idx virt) (midFlags flags) with ⟨a1, r1⟩
    rw [e1] at h1
    dsimp only
    split
    · exact h1
    · have h2 := frames_getOrCreate r1 a1 (pdptIdx virt) (midFlags flags)
      rcases e2 : getOrCreate r1 a1 (pdptIdx virt) (midFlags flags) with ⟨a2, r2⟩
      rw [e2] at h2
      dsimp only
      split
      · exact h2.trans h1
      · have h3 := frames_getOrCreate r2 a2 (pdIdx virt) (midFlags flags)
        rcases e3 : getOrCreate r2 a2 (pdIdx virt) (midFlags flags) with ⟨a3, r3⟩
        rw [e3] at h3
        dsimp only
        split <;> exact (h3.trans h2).trans h1
  | unmap virt =>
    rw [vmmStep, vmmUnmap_eq]
    split <;> exact List.suffix_refl _

theorem TablesOk.treeOk (hf : FreshFrames pml4 supply) (h : TablesOk pml4 supply s) :
    TreeOk (InUse pml4 supply s.frames) pml4 s := by
  have hframe : ∀ t ∈ pml4 :: supply, TableFrame t := fun t ht =>
    ⟨hf.nonzero t ht, hf.aligned t ht, hf.small t ht⟩
  refine ⟨⟨?_, fun t ht => ?_⟩, h.tree, fun t ht => ⟨hframe t ht.1, ht.2⟩⟩
  · exact h.suffix.sublist.nodup (List.nodup_cons.mp hf.nodup).2
  · exact hframe t (List.mem_cons_of_mem _ (h.suffix.subset ht))

theorem TablesOk.of_grown (h : TablesOk pml4 supply s) {s' : Phys (List Nat)} {used : Nat → Prop}
    (h' : TreeOk used pml4 s') (hg : Grown (InUse pml4 supply s.frames) used pml4 s s')
    (hsuf : s'.frames <:+ s.frames) : TablesOk pml4 supply s' := by
  refine ⟨h'.tree.mono fun t ht => ⟨?_, (h'.table t ht).2⟩, hsuf.trans h.suffix⟩
  exact (hg.fresh t ht).elim (fun hu => hu.1) fun hf =>
    List.mem_cons_of_mem _ (h.suffix.subset hf)

/-- **`vmm_map`** creates what is missing above the page and then writes one
entry of its page table. -/
theorem TablesOk.vmmMap (hf : FreshFrames pml4 supply) (h : TablesOk pml4 supply s)
    {virt phys : BitVec 64} (hleft : (vmmMap s pml4 virt phys flags).frames ≠ []) :
    ∃ pt s', TablesOk pml4 supply s' ∧ pageTable s'.mem pml4 virt = some pt ∧
      vmmMap s pml4 virt phys flags =
        { s' with mem := setEntry s'.mem pt (ptIdx virt) ((phys &&& vmmPhysMask) ||| flags) } ∧
      ∀ q j, q.length = 3 → lookup childTable leafFrame (entry s'.mem) pml4 q j =
        lookup childTable leafFrame (entry s.mem) pml4 q j := by
  obtain ⟨used, s1, h1, hg, -, hend⟩ := (h.treeOk hf).vmmMap virt phys flags
  have hsuf : (DevOs.vmmMap s pml4 virt phys flags).frames <:+ s.frames :=
    frames_vmmStep s (.map virt phys flags)
  obtain ⟨heq, ha⟩ | ⟨pt, hpt, heq⟩ := hend
  · -- a call that gives up has used up the frames
    rw [heq] at hleft
    cases hframes : s1.frames with
    | nil => exact absurd hframes hleft
    | cons page rest =>
      rw [hframes] at ha
      cases ha
  · rw [heq] at hsuf
    exact ⟨pt, s1, h.of_grown h1 hg hsuf, hpt, heq, hg.lookup⟩

/-- The tables in use form a tree, and the frames found through it are those
of the abstract address space. -/
structure VmmInv (pml4 : Nat) (supply : List Nat) (s : Phys (List Nat)) (f : PageMap) : Prop where
  tables : TablesOk pml4 supply s
  frame : ∀ v, pageFrame s.mem pml4 v = f (pageNumber v)

theorem VmmInv.setEntry (hf : FreshFrames pml4 supply) {s s' : Phys (List Nat)}
    (h : VmmInv pml4 supply s f) (h' : TablesOk pml4 supply s') {virt e : BitVec 64} {pt : Nat}
    (hl : ∀ q j, q.length = 3 → lookup childTable leafFrame (entry s'.mem) pml4 q j =
      lookup childTable leafFrame (entry s.mem) pml4 q j)
    (hpt : pageTable s'.mem pml4 virt = some pt) :
    VmmInv pml4 supply { s' with mem := setEntry s'.mem pt (ptIdx virt) e }
      (update f (pageNumber virt) (leafFrame e)) := by
  obtain ⟨htree, -, hone⟩ := (h'.treeOk hf).setEntry hpt e
  refine ⟨⟨htree.tree, h'.suffix⟩, fun v => ?_⟩
  rw [pageFrame, hone _ _ rfl, update_apply]
  by_cases hv : pageNumber v = pageNumber virt
  · rw [if_pos ((tablePath_eq_iff v virt).mpr hv), if_pos hv]
  · rw [if_neg (fun hc => hv ((tablePath_eq_iff v virt).mp hc)), if_neg hv, hl _ _ rfl]
    exact h.frame v

theorem VmmInv.step (hf : FreshFrames pml4 supply) (h : VmmInv pml4 supply s f)
    {op : VmmOp} (hop : op.FlagsOk) (hleft : (vmmStep pml4 s op).frames ≠ []) :
    VmmInv pml4 supply (vmmStep pml4 s op) (specStep f op) := by
  cases op with
  | map virt phys flags =>
    obtain ⟨pt, s', h', hpt, heq, hl⟩ := h.tables.vmmMap hf hleft
    rw [vmmStep, heq, specStep, ← leafFrame_map hop.1 hop.2]
    exact h.setEntry hf h' hl hpt
  | unmap virt =>
    rw [vmmStep, vmmUnmap_eq, specStep]
    cases hpt : pageTable s.mem pml4 virt with
    | none =>
      -- without a page table the page was not mapped
      have hnone : f (pageNumber virt) = none := by
        rw [← h.frame virt, pageFrame, lookup]
        rw [pageTable] at hpt
        rw [hpt]
        rfl
      rw [← hnone, update_eq_self]
      exact h
    | some pt =>
      rw [← leafFrame_zero]
      exact h.setEntry hf h.tables (fun _ _ _ => rfl) hpt

theorem frames_foldl_vmmStep (ops : List VmmOp) (s : Phys (List Nat)) :
    (ops.foldl (vmmStep pml4) s).frames <:+ s.frames := by
  induction ops generalizing s with
  | nil => exact List.suffix_refl _
  | cons op ops ih => exact (ih (vmmStep pml4 s op)).trans (frames_vmmStep s op)

theorem VmmInv.run (hf : FreshFrames pml4 supply) {ops : List VmmOp}
    (hops : ∀ op ∈ ops, op.FlagsOk) (h : VmmInv pml4 supply s f)
    (hleft : (ops.foldl (vmmStep pml4) s).frames ≠ []) :
    VmmInv pml4 supply (ops.foldl (vmmStep pml4) s) (ops.foldl specStep f) := by
  induction ops generalizing s f with
  | nil => exact h
  | cons op ops ih =>
    obtain ⟨hop, hops⟩ := List.forall_mem_cons.mp hops
    have hnow : (vmmStep pml4 s op).frames ≠ [] :=
      ne_nil_of_suffix (frames_foldl_vmmStep ops _) hleft
    exact ih hops (h.step hf hop hnow) hleft

theorem VmmInv.empty (hf : FreshFrames pml4 supply) {mem : Mem}
    (hzero : ∀ i, entry mem pml4 i = 0) : VmmInv pml4 supply ⟨mem, supply⟩ fun _ => none := by
  have hroot : ∀ i, childTable (entry mem pml4 i) = none := fun i => by
    rw [hzero i]
    exact childTable_zero
  refine ⟨⟨.empty hroot ⟨List.mem_cons_self, (List.nodup_cons.mp hf.nodup).1⟩,
    List.suffix_refl _⟩, fun v => ?_⟩
  rw [pageFrame, lookup, tablePath, walk, hroot]
  rfl

theorem specTranslate_step_of_ne {f : PageMap} {op : VmmOp} {v : BitVec 64}
    (hv : pageNumber v ≠ pageNumber op.virt) :
    specTranslate (specStep f op) v = specTranslate f v := by
  have hf : specStep f op (pageNumber v) = f (pageNumber v) := by
    cases op with
    | map virt phys flags => exact update_of_ne hv _ f
    | unmap virt => exact update_of_ne hv _ f
  rw [specTranslate, hf]
  rfl

/-- **`vmm_translate` refines the map of pages to frames.** -/
theorem vmmTranslate_refines {pml4 : Nat} {supply : List Nat} (hf : FreshFrames pml4 supply)
    {mem : Mem} (hzero : ∀ i, entry mem pml4 i = 0) {ops : List VmmOp}
    (hops : ∀ op ∈ ops, op.FlagsOk)
    (hleft : (ops.foldl (vmmStep pml4) ⟨mem, supply⟩).frames ≠ []) :
    (∀ v, vmmTranslate (ops.foldl (vmmStep pml4) ⟨mem, supply⟩).mem pml4 v =
      specTranslate (ops.foldl specStep fun _ => none) v) ∧
      ∀ op : VmmOp, op.FlagsOk →
        (vmmStep pml4 (ops.foldl (vmmStep pml4) ⟨mem, supply⟩) op).frames ≠ [] →
        ∀ v, pageNumber v ≠ pageNumber op.virt →
          vmmTranslate (vmmStep pml4 (ops.foldl (vmmStep pml4) ⟨mem, supply⟩) op).mem pml4 v =
            vmmTranslate (ops.foldl (vmmStep pml4) ⟨mem, supply⟩).mem pml4 v := by
  have hinv := (VmmInv.empty hf hzero).run hf hops hleft
  have htr : ∀ v, vmmTranslate (ops.foldl (vmmStep pml4) ⟨mem, supply⟩).mem pml4 v =
      specTranslate (ops.foldl specStep fun _ => none) v := fun v => by
    rw [vmmTranslate_eq hinv.tables.tree, hinv.frame v]
    rfl
  refine ⟨htr, fun op hop hnext v hv => ?_⟩
  have hinv' := hinv.step hf hop hnext
  rw [htr v, vmmTranslate_eq hinv'.tables.tree, hinv'.frame v]
  exact specTranslate_step_of_ne hv

theorem vmmTranslate_one_page :
    vmmTranslate ([VmmOp.map 0x400000 0x7000 3, .unmap 0x401000].foldl (vmmStep 0x1000)
      ⟨fun _ => 0, [0x2000, 0x3000, 0x4000, 0x5000]⟩).mem 0x1000 0x400123 = 0x7123 := by
  have hf : FreshFrames 0x1000 [0x2000, 0x3000, 0x4000, 0x5000] :=
    ⟨by decide, by decide, by decide, by decide⟩
  have hzero : ∀ i, entry (fun _ => 0) 0x1000 i = 0 := fun i => by
    rw [entry, load_eq_zero (fun _ _ _ => rfl)]
    rfl
  have hops : ∀ op ∈ [VmmOp.map 0x400000 0x7000 3, .unmap 0x401000], op.FlagsOk := by
    intro op hop
    simp only [List.mem_cons, List.not_mem_nil, or_false] at hop
    obtain rfl | rfl := hop
    · exact ⟨by decide, by decide⟩
    · trivial
  exact ((vmmTranslate_refines hf hzero hops (by decide +kernel)).1 _).trans (by decide +kernel)

end DevOs
