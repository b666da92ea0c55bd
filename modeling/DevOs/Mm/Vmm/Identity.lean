import DevOs.Mm.Vmm.Spaces

/-!
Which physical addresses the kernel can use as addresses.
-/

namespace DevOs

open ByteMem FrameSupply Machine

/-- The frames that `pmm_alloc` can return are mapped to themselves, in every
address space. -/
def IdentityMapped (b : Spaces) : Prop :=
  ∀ f, FreeFrame b.phys.frames f → ∀ pml4 ∈ b.roots, ∀ o < pageSize,
    vmmTranslate b.phys.mem pml4 (BitVec.ofNat 64 (f + o)) = BitVec.ofNat 64 (f + o)

/-- The calls that keep it: a caller frees only what it holds, no address space
is made, and the pages of the first 2 MB are not mapped anew. -/
def SpacesOp.KeepsIdentity (b : Spaces) : SpacesOp → Prop
  | .free page => page ∈ b.held
  | .create => pmmAlloc b.phys.frames = none
  | .mapKernel virt _ _ => lowPages ≤ (pageNumber virt).toNat
  | _ => True

def LowMapped (m : Mem) (pml4 : Nat) : Prop :=
  ∀ v, (pageNumber v).toNat < lowPages →
    pageFrame m pml4 v = some (BitVec.ofNat 64 ((pageNumber v).toNat * pageSize))

section

variable {f o : Nat}

theorem toNat_frame_add (hf : f < 2 ^ 52) (ho : o < pageSize) :
    (BitVec.ofNat 64 (f + o)).toNat = f + o := by
  have hps : pageSize = 4096 := rfl
  rw [BitVec.toNat_ofNat, Nat.mod_eq_of_lt]
  omega

theorem pageNumber_frame_add (hal : pageSize ∣ f) (hf : f < 2 ^ 48) (ho : o < pageSize) :
    (pageNumber (BitVec.ofNat 64 (f + o))).toNat = f / pageSize := by
  have hps : pageSize = 4096 := rfl
  rw [toNat_pageNumber, toNat_frame_add (by omega) ho]
  obtain ⟨n, rfl⟩ := hal
  rw [Nat.mul_div_cancel_left _ (by decide)]
  rw [hps] at hf ho ⊢
  omega

theorem frame_or_offset (hal : pageSize ∣ f) (hf : f < 2 ^ 52) (ho : o < pageSize) :
    BitVec.ofNat 64 f ||| (BitVec.ofNat 64 (f + o) &&& 0xFFF#64) = BitVec.ofNat 64 (f + o) := by
  have hfn : (BitVec.ofNat 64 f).toNat = f := toNat_frame_add hf (by decide : 0 < pageSize)
  have hoff : (BitVec.ofNat 64 (f + o) &&& 0xFFF#64).toNat = o := by
    obtain ⟨n, rfl⟩ := hal
    rw [BitVec.toNat_and, toNat_frame_add hf ho]
    refine (Nat.and_two_pow_sub_one_eq_mod _ 12).trans ?_
    unfold pageSize at *
    omega
  apply BitVec.eq_of_toNat_eq
  rw [toNat_frame_or (by rw [hfn]; exact hal) (by rw [hoff]; exact ho), hfn, hoff,
    toNat_frame_add hf ho]

end

theorem LowMapped.translate {m : Mem} {pml4 f o : Nat} {used : Nat → Prop} (h : LowMapped m pml4)
    (htree : PageTree m pml4 used) (hal : pageSize ∣ f) (hf : f < lowPages * pageSize)
    (ho : o < pageSize) :
    vmmTranslate m pml4 (BitVec.ofNat 64 (f + o)) = BitVec.ofNat 64 (f + o) := by
  have hlow : lowPages * pageSize = 0x200000 := rfl
  have hpage := pageNumber_frame_add hal (by omega) ho
  have hlt : f / pageSize < lowPages := Nat.div_lt_of_lt_mul (by rw [Nat.mul_comm]; exact hf)
  rw [vmmTranslate_eq htree, h _ (by rw [hpage]; exact hlt), hpage, Nat.div_mul_cancel hal]
  exact frame_or_offset hal (by omega) ho

/-- What holds after `vmm_init` and the calls of `KeepsIdentity`. If `vmm_init`
has used up the frames the map may be incomplete, but then no frame ever gets
free. -/
structure LowInv (b : Spaces) : Prop where
  tree : ∃ used, TreeOk used b.kernelPml4 b.phys ∧ ∀ f ∈ b.held, ¬ used f
  spaces : b.spaces = []
  below : ∀ f, FreeFrame b.phys.frames f → f < lowPages * pageSize
  held : ∀ f ∈ b.held, pageSize ∣ f ∧ f < lowPages * pageSize ∧ ¬ FreeFrame b.phys.frames f
  nodup : b.held.Nodup
  low : LowMapped b.phys.mem b.kernelPml4 ∨
    (∀ f, ¬ FreeFrame b.phys.frames f) ∧ b.held = []

namespace LowInv

variable {b : Spaces} {page : Nat}

variable (h : LowInv b)
include h

theorem identityMapped : IdentityMapped b := by
  intro f hf pml4 hp o ho
  obtain ⟨used, htree, -⟩ := h.tree
  rw [Spaces.roots, h.spaces] at hp
  obtain rfl := List.mem_singleton.mp hp
  obtain hlow | ⟨hnone, -⟩ := h.low
  · exact hlow.translate htree.tree hf.1 (h.below f hf) ho
  · exact absurd hf (hnone f)

theorem allocPage {s : Phys Pmm} (ha : allocPage b.phys = some (page, s)) :
    LowInv { b with phys := s, held := page :: b.held } := by
  obtain ⟨used, htree, hheld⟩ := h.tree
  obtain ⟨frames, hal, rfl⟩ := allocPage_eq_some ha
  obtain ⟨hok, hfree, hiff⟩ := alloc_some htree.supply hal
  have hpage := tableFrame htree.supply hfree
  have hnew : ¬ used page := fun hu => (htree.table page hu).2 hfree
  have hstill : ∀ f, FreeFrame frames f → FreeFrame b.phys.frames f := fun f hf =>
    ((hiff f).mp hf).1
  have hentry : ∀ t i, used t → entry (fill b.phys.mem page pageSize 0) t i =
      entry b.phys.mem t i := by
    intro t i ht
    refine entry_fill_of_ne hpage.aligned (htree.table t ht).1.aligned ?_
    rintro rfl
    exact hnew ht
  obtain ⟨htree', hlook⟩ := @TreeOk.frame _ _ _ used b.kernelPml4 b.phys
    ⟨fill b.phys.mem page pageSize 0, frames⟩ htree hentry hok
    fun t ht hf => (htree.table t ht).2 (hstill t hf)
  refine ⟨⟨used, htree', ?_⟩, h.spaces, fun f hf => h.below f (hstill f hf), ?_, ?_, ?_⟩
  · exact List.forall_mem_cons.mpr ⟨hnew, hheld⟩
  · refine List.forall_mem_cons.mpr ⟨⟨hpage.aligned, h.below page hfree, ?_⟩, fun f hf => ?_⟩
    · exact fun hf => ((hiff page).mp hf).2 rfl
    · obtain ⟨hal, hlt, hnf⟩ := h.held f hf
      exact ⟨hal, hlt, fun hc => hnf (hstill f hc)⟩
  · exact List.nodup_cons.mpr ⟨fun hmem => (h.held page hmem).2.2 hfree, h.nodup⟩
  · obtain hlow | ⟨hnone, -⟩ := h.low
    · exact .inl fun v hv => (hlook _ _ rfl).trans (hlow v hv)
    · exact absurd hfree (hnone page)

theorem freePage (hp : page ∈ b.held) :
    LowInv { b with phys := freePage b.phys page, held := b.held.erase page } := by
  obtain ⟨used, htree, hheld⟩ := h.tree
  obtain ⟨hal, hlt, -⟩ := h.held page hp
  have hfree : ∀ f, FreeFrame (pmmFreePage b.phys.frames page) f →
      FreeFrame b.phys.frames f ∨ f = page := by
    intro f hf
    refine (freeFrame_pmmFreePage hf).imp_right ?_
    rintro rfl
    exact Nat.div_mul_cancel hal
  have hok : Ok (DevOs.freePage b.phys page).frames :=
    frameUsed_pmmFreePage_zero htree.supply page
  refine ⟨⟨used, ⟨hok, htree.tree, fun t ht => ⟨(htree.table t ht).1, fun hf => ?_⟩⟩, ?_⟩,
    h.spaces, fun f hf => ?_, fun f hf => ?_, h.nodup.erase page, ?_⟩
  · obtain hf | rfl := hfree t hf
    · exact (htree.table t ht).2 hf
    · exact hheld t hp ht
  · exact fun f hf => hheld f (List.mem_of_mem_erase hf)
  · obtain hf | rfl := hfree f hf
    · exact h.below f hf
    · exact hlt
  · obtain ⟨hal', hlt', hnf⟩ := h.held f (List.mem_of_mem_erase hf)
    refine ⟨hal', hlt', fun hc => ?_⟩
    obtain hc | rfl := hfree f hc
    · exact hnf hc
    · exact h.nodup.not_mem_erase hf
  · refine h.low.imp_right ?_
    rintro ⟨-, hnil⟩
    rw [hnil] at hp
    cases hp

theorem vmmMap {v : BitVec 64} (hv : lowPages ≤ (pageNumber v).toNat) (phys flags : BitVec 64) :
    LowInv { b with phys := vmmMap b.phys b.kernelPml4 v phys flags } := by
  obtain ⟨used, htree, hheld⟩ := h.tree
  obtain ⟨used', s1, h1, hg, -, hend⟩ := htree.vmmMap v phys flags
  have hheld1 : ∀ f ∈ b.held, ¬ used' f := fun f hf hu =>
    (hg.fresh f hu).elim (hheld f hf) (h.held f hf).2.2
  have hlow1 : LowMapped b.phys.mem b.kernelPml4 → LowMapped s1.mem b.kernelPml4 :=
    fun hlow w hw => (hg.lookup _ _ rfl).trans (hlow w hw)
  -- the frames that are left are some of those that were free
  have hinv1 : LowInv { b with phys := s1 } :=
    ⟨⟨used', h1, hheld1⟩, h.spaces, fun f hf => h.below f (hg.free f hf),
      fun f hf => ⟨(h.held f hf).1, (h.held f hf).2.1, fun hc => (h.held f hf).2.2 (hg.free f hc)⟩,
      h.nodup, h.low.imp hlow1 fun hn => ⟨fun f hf => hn.1 f (hg.free f hf), hn.2⟩⟩
  obtain ⟨heq, -⟩ | ⟨pt, hpt, heq⟩ := hend
  · rw [heq]
    exact hinv1
  · obtain ⟨h2, -, hlook⟩ := h1.setEntry hpt ((phys &&& vmmPhysMask) ||| flags)
    rw [heq]
    refine ⟨⟨used', h2, hheld1⟩, h.spaces, hinv1.below, hinv1.held, h.nodup,
      hinv1.low.imp_left fun hlow w hw => ?_⟩
    have hne : ¬ (tablePath w = tablePath v ∧ ptIdx w = ptIdx v) := by
      rw [tablePath_eq_iff]
      intro hc
      rw [hc] at hw
      omega
    exact (hlook _ _ rfl).trans ((if_neg hne).trans (hlow w hw))

theorem step {op : SpacesOp} (hop : op.KeepsIdentity b) {b' : Spaces}
    (hs : spacesStep b op = some b') : LowInv b' := by
  cases op with
  | alloc =>
    rw [spacesStep] at hs
    split at hs
    · cases hs
      exact h
    · next page s ha =>
        cases hs
        exact h.allocPage ha
  | free page =>
    cases hs
    exact h.freePage hop
  | create =>
    have hnone : DevOs.allocPage b.phys = none := by
      have hal : FrameSource.alloc b.phys.frames = none := hop
      rw [DevOs.allocPage, hal]
    rw [spacesStep, vmmCreateAddressSpace, hnone] at hs
    cases hs
    exact h
  | mapKernel virt phys flags =>
    cases hs
    exact h.vmmMap hop phys flags
  | map i virt phys flags =>
    rw [spacesStep, h.spaces] at hs
    cases hs
  | unmap i virt =>
    rw [spacesStep, h.spaces] at hs
    cases hs

end LowInv

variable {map : List E820Entry} {kernelEnd k : Nat} {rip : BitVec 64} {mem : Mem} {s : Phys Pmm}

theorem initMap_of_lt {n : BitVec 36} (h : n.toNat < 0xFFFF80000) : initMap n =
      if n.toNat < lowPages then some (BitVec.ofNat 64 (n.toNat * pageSize)) else none := by
  rw [initMap]
  split
  · rfl
  · rw [if_neg]
    omega

theorem freeFrame_lt {p : Pmm} {f : Nat} (h : FreeFrame p f) : f < 2 ^ 32 := by
  have hlt := h.2.1
  rw [Nat.div_lt_iff_lt_mul (by decide)] at hlt
  exact hlt

section

variable (hinit : vmmInit rip ⟨mem, pmmInit map kernelEnd⟩ = some (k, s))
include hinit

theorem lowInv_vmmInit (hbelow : ∀ f, FreeFrame s.frames f → f < lowPages * pageSize) :
    LowInv ⟨s, k, [], []⟩ := by
  obtain ⟨-, used, htree, -, -, hmap⟩ := vmmInit_spec (ok_pmmInit map kernelEnd) hinit
  refine ⟨⟨used, htree, fun f hf => ?_⟩, rfl, hbelow, fun f hf => ?_, List.nodup_nil, ?_⟩
  · cases hf
  · cases hf
  · by_cases hfree : ∃ g, FreeFrame s.frames g
    · obtain ⟨g, hg⟩ := hfree
      refine .inl fun v hv => ?_
      rw [hmap g hg v, initMap, if_pos hv]
    · exact .inr ⟨not_exists.mp hfree, rfl⟩

theorem freeFrame_of_vmmInit {f : Nat} (hf : FreeFrame s.frames f) :
    FreeFrame (pmmInit map kernelEnd) f := by
  obtain ⟨-, used, -, hstill, -⟩ := vmmInit_spec (ok_pmmInit map kernelEnd) hinit
  exact hstill f hf

theorem vmmTranslate_vmmInit {f o : Nat} (hf : FreeFrame s.frames f) (hge : lowPages * pageSize ≤ f)
    (ho : o < pageSize) : vmmTranslate s.mem k (BitVec.ofNat 64 (f + o)) = 0 := by
  obtain ⟨-, used, htree, -, -, hmap⟩ := vmmInit_spec (ok_pmmInit map kernelEnd) hinit
  have hlt := freeFrame_lt hf
  have hpage := pageNumber_frame_add hf.1 (by omega) ho
  have hnone : initMap (pageNumber (BitVec.ofNat 64 (f + o))) = none := by
    rw [initMap_of_lt, hpage, if_neg]
    · rw [Nat.div_lt_iff_lt_mul (by decide)]
      exact Nat.not_lt.mpr hge
    · rw [hpage]
      exact Nat.lt_of_lt_of_le hf.2.1 (by decide)
  rw [vmmTranslate_eq htree.tree, hmap f hf, hnone]

end

theorem ofNat_frame_add_ne_zero {f o : Nat} (hf : f < 2 ^ 52) (hne : f ≠ 0) (ho : o < pageSize) :
    BitVec.ofNat 64 (f + o) ≠ 0 := by
  intro hz
  have hnat := congrArg BitVec.toNat hz
  rw [toNat_frame_add hf ho] at hnat
  change f + o = 0 at hnat
  omega

theorem identityMapped_vmmInit (hinit : vmmInit rip ⟨mem, pmmInit map kernelEnd⟩ = some (k, s)) :
    IdentityMapped ⟨s, k, [], []⟩ ↔ ∀ f, FreeFrame s.frames f → f < lowPages * pageSize := by
  refine ⟨fun h f hf => ?_, fun hbelow => (lowInv_vmmInit hinit hbelow).identityMapped⟩
  by_contra hge
  have hlow : lowPages * pageSize = 0x200000 := rfl
  have hlt := freeFrame_lt hf
  have htr := h f hf k List.mem_cons_self 0 (by decide)
  rw [vmmTranslate_vmmInit hinit hf (by omega) (by decide)] at htr
  exact ofNat_frame_add_ne_zero (by omega) (by omega) (by decide) htr.symm

theorem not_identityMapped_create {b b' : Spaces} (hok : Ok b.phys.frames)
    (hs : spacesStep b .create = some b') (hnew : b'.spaces ≠ b.spaces) {f : Nat}
    (hf : FreeFrame b'.phys.frames f) : ¬ IdentityMapped b' := by
  obtain ⟨s, -, rfl⟩ | ⟨pml4, s, hne, hc, rfl⟩ := spacesStep_create hs
  · exact absurd rfl hnew
  obtain ⟨frames, hal, hs'⟩ := vmmCreateAddressSpace_of_ne hc hne
  obtain ⟨hok', hfree, -⟩ := alloc_some hok hal
  have hpage := tableFrame hok hfree
  have hlt := freeFrame_lt hf
  intro h
  have htr := h f hf pml4 (by simp [Spaces.roots]) 0 (by decide)
  have hslot : pml4Idx (BitVec.ofNat 64 (f + 0)) = 0 := by
    rw [Fin.ext_iff, pml4Idx, toNat_tableIdx, BitVec.toNat_ushiftRight,
      toNat_frame_add (by omega) (by decide), Nat.shiftRight_eq_div_pow]
    show _ = 0
    omega
  have hempty : entry s.mem pml4 0 = 0 := by
    rw [hs', entry_copyUpperHalf hpage.aligned, if_neg (by decide), entry_fill_zero]
  unfold vmmTranslate at htr
  rw [hslot, hempty, if_pos (by decide)] at htr
  rw [hs'] at hf
  exact ofNat_frame_add_ne_zero (by omega) (tableFrame hok' hf).nonzero (by decide) htr.symm

/-- **When physical addresses can be used as addresses.** After `vmm_init` the
free frames must lie in the first 2 MB, which is then enough for every run in
which no address space is made and the pages there are not mapped anew. A new
address space does not have it as long as a frame is free. -/
theorem identityMapped_iff (hinit : vmmInit rip ⟨mem, pmmInit map kernelEnd⟩ = some (k, s)) :
    (IdentityMapped ⟨s, k, [], []⟩ ↔ ∀ f, FreeFrame s.frames f → f < lowPages * pageSize) ∧
      ((∀ f, FreeFrame s.frames f → f < lowPages * pageSize) → ∀ ops,
        Steps spacesStep (fun b op => op.KeepsIdentity b) ⟨s, k, [], []⟩ ops →
        Always spacesStep IdentityMapped ⟨s, k, [], []⟩ ops) ∧
      ∀ b b' : Spaces, frameUsed b.phys.frames 0 = true → spacesStep b .create = some b' →
        b'.spaces ≠ b.spaces → (∃ f, FreeFrame b'.phys.frames f) → ¬ IdentityMapped b' := by
  refine ⟨identityMapped_vmmInit hinit, fun hbelow ops hops => ?_, ?_⟩
  · exact always_of_steps (fun b hb => LowInv.identityMapped hb)
      (fun b op b' hb hop hs => hb.step hop hs) ops (lowInv_vmmInit hinit hbelow) hops
  · intro b b' hok hs hnew ⟨f, hf⟩
    exact not_identityMapped_create hok hs hnew hf

def lowMap : List E820Entry := [⟨0x1000, 0x9E000, 1⟩]

theorem freeFrame_lowMap {f : Nat} (h : FreeFrame (pmmInit lowMap 0x101000) f) :
    f < lowPages * pageSize := by
  obtain ⟨hal, -, hclear⟩ := h
  rw [← Bool.not_eq_true, frameUsed_pmmInit, not_or] at hclear
  have hcov := hclear.1
  push Not at hcov
  obtain ⟨e, he, ⟨-, -, hfin⟩, -⟩ := hcov
  obtain rfl := List.mem_singleton.mp he
  rw [Nat.div_mul_cancel hal] at hfin
  exact hfin.trans (by decide)

theorem identityMapped_lowMap :
    ∃ k s, vmmInit 0x100200 ⟨fun _ => 0, pmmInit lowMap 0x101000⟩ = some (k, s) ∧
      (∃ f, FreeFrame s.frames f) ∧
      Always spacesStep IdentityMapped ⟨s, k, [], []⟩
        [.alloc, .mapKernel 0xFFFFFF8000000000 0x50000 vmmKernelRw, .alloc] := by
  have hfree : ∀ f ∈ (List.range 80).map fun i => 0x1000 + i * 4096,
      FreeFrame (pmmInit lowMap 0x101000) f := by decide +kernel
  have hnodup : ((List.range 80).map fun i => 0x1000 + i * 4096).Nodup := by decide +kernel
  have hrip : specTranslate initMap 0x100200 ≠ 0 := by decide
  obtain ⟨k, s, hinit, f, -, hf⟩ :=
    vmmInit_returns_of_frames hnodup hfree (by simp) hrip fun _ => 0
  refine ⟨k, s, hinit, ⟨f, hf⟩, (identityMapped_iff hinit).2.1
    (fun g hg => freeFrame_lowMap (freeFrame_of_vmmInit hinit hg)) _ ?_⟩
  have hhigh : lowPages ≤ (pageNumber 0xFFFFFF8000000000).toNat := by decide
  simp only [Steps, SpacesOp.KeepsIdentity, true_and, hhigh, implies_true]

/-- With the memory from 2 MB on, a frame that `pmm_alloc` can return is not
mapped after `vmm_init`. -/
theorem pmmAlloc_unmapped_frame :
    ∃ k s f, vmmInit 0x100200 ⟨fun _ => 0, pmmInit smallMap 0x101000⟩ = some (k, s) ∧
      FreeFrame s.frames f ∧ vmmTranslate s.mem k (BitVec.ofNat 64 f) = 0 ∧
      ¬ IdentityMapped ⟨s, k, [], []⟩ := by
  obtain ⟨k, s, hinit, f, hf, hge⟩ := vmmInit_smallMap
  have htr := vmmTranslate_vmmInit hinit hf hge (by decide : 0 < pageSize)
  rw [Nat.add_zero] at htr
  refine ⟨k, s, f, hinit, hf, htr, fun h => ?_⟩
  exact absurd ((identityMapped_vmmInit hinit).mp h f hf) (Nat.not_lt.mpr hge)

end DevOs
