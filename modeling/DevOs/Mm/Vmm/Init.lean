import Mathlib.Data.List.Nodup
import Mathlib.Data.List.Perm.Subperm
import DevOs.Mm.Vmm.Refine

/-!
`vmm_init` of `kernel/mm/vmm.c`: the kernel's page tables.
-/

namespace DevOs

open ByteMem FrameSupply Function

def kernelVirtBase : BitVec 64 := 0xFFFFFFFF80000000#64

def vmmKernelRw : BitVec 64 := vmmPresent ||| vmmWritable ||| (1#64 <<< 8)

section

variable {σ : Type} [FrameSource σ]

/-- The loop `for (p = 0; p < n * PAGE_SIZE; p += PAGE_SIZE)` of `vmm_init`. -/
def mapWindow (pml4 : Nat) (base : BitVec 64) (n : Nat) (s : Phys σ) : Phys σ :=
  (List.range n).foldl (fun s i =>
    vmmMap s pml4 (base + BitVec.ofNat 64 (i * pageSize)) (BitVec.ofNat 64 (i * pageSize))
      vmmKernelRw) s

def highPages : Nat := 128 * 1024 * 1024 / pageSize

def lowPages : Nat := 2 * 1024 * 1024 / pageSize

/-- `vmm_init`; the result is `kernel_pml4`. It halts when there is no frame
for the PML4. Behind the switch to the new tables the next instruction is
fetched from `rip`: if that is not mapped there is nobody to handle the fault,
and `vmm_init` does not return. -/
def vmmInit (rip : BitVec 64) (s : Phys σ) : Option (Nat × Phys σ) :=
  match allocPage s with
  | none => none
  | some (pml4, s) =>
    let s := mapWindow pml4 kernelVirtBase highPages s
    let s := mapWindow pml4 0 lowPages s
    if vmmTranslate s.mem pml4 rip = 0 then none else some (pml4, s)

theorem vmmInit_eq_some_iff {rip : BitVec 64} {s s' : Phys σ} {k : Nat} :
    vmmInit rip s = some (k, s') ↔ ∃ frames, FrameSource.alloc s.frames = some (k, frames) ∧
      s' = mapWindow k 0 lowPages
        (mapWindow k kernelVirtBase highPages ⟨fill s.mem k pageSize 0, frames⟩) ∧
      vmmTranslate s'.mem k rip ≠ 0 := by
  unfold vmmInit allocPage
  cases FrameSource.alloc s.frames with
  | none => simp
  | some r =>
    obtain ⟨page, frames⟩ := r
    simp only [Option.ite_none_left_eq_some, Option.some.injEq, Prod.mk.injEq]
    constructor
    · rintro ⟨hrip, rfl, rfl⟩
      exact ⟨frames, ⟨rfl, rfl⟩, rfl, hrip⟩
    · rintro ⟨frames', ⟨rfl, rfl⟩, hs', hrip⟩
      rw [hs'] at hrip
      exact ⟨hrip, rfl, hs'.symm⟩

theorem mapWindow_of_none {s : Phys σ} {pml4 : Nat} (ha : FrameSource.alloc s.frames = none)
    (hempty : ∀ i, entry s.mem pml4 i &&& vmmPresent = 0) (base : BitVec 64) (n : Nat) :
    mapWindow pml4 base n s = s := by
  refine List.foldl_fixed' (fun i => ?_) (List.range n)
  rw [vmmMap, getOrCreate_of_none (hempty _) (allocPage_of_none ha)]
  rfl

end

section

variable {σ : Type} [FrameSource σ] [FrameSupply σ] {pml4 : Nat} {s s' : Phys σ}
  {Q : List (Fin 512) → Prop} {used : Nat → Prop}

/-- The address space at `pml4` maps what `f` says. -/
def MapsAs (m : Mem) (pml4 : Nat) (f : PageMap) : Prop :=
  ∀ v, pageFrame m pml4 v = f (pageNumber v)

/-- The frames that are gone have become tables, on paths in `Q`, and the
tables that were there are still. -/
structure Took (Q : List (Fin 512) → Prop) (pml4 : Nat) (s s' : Phys σ) : Prop where
  free : ∀ f, Free s'.frames f → Free s.frames f
  walk : ∀ p t, p.length ≤ 3 → Radix.walk childTable (entry s.mem) pml4 p = some t →
    Radix.walk childTable (entry s'.mem) pml4 p = some t
  table : ∀ f, Free s.frames f → Free s'.frames f ∨
    ∃ p, Q p ∧ p.length ≤ 3 ∧ Radix.walk childTable (entry s'.mem) pml4 p = some f

theorem Took.refl (Q : List (Fin 512) → Prop) (pml4 : Nat) (s : Phys σ) : Took Q pml4 s s :=
  ⟨fun _ h => h, fun _ _ _ h => h, fun _ h => .inl h⟩

theorem Took.trans {s'' : Phys σ} (h : Took Q pml4 s s')
    (h' : Took Q pml4 s' s'') : Took Q pml4 s s'' where
  free f hf := h.free f (h'.free f hf)
  walk p t hp hw := h'.walk p t hp (h.walk p t hp hw)
  table f hf := by
    obtain hf | ⟨p, hq, hp, hw⟩ := h.table f hf
    · exact h'.table f hf
    · exact .inr ⟨p, hq, hp, h'.walk p f hp hw⟩

theorem mapPage_spec (h : TreeOk used pml4 s) (v phys : BitVec 64)
    {flags : BitVec 64} (hp : flags &&& vmmPresent ≠ 0) (hm : flags &&& vmmPhysMask = 0)
    (hQ : ∀ p, p <+: tablePath v → Q p) :
    ∃ used', TreeOk used' pml4 (vmmMap s pml4 v phys flags) ∧
      Took Q pml4 s (vmmMap s pml4 v phys flags) ∧
      ∀ g, Free (vmmMap s pml4 v phys flags).frames g → ∀ f, MapsAs s.mem pml4 f →
        MapsAs (vmmMap s pml4 v phys flags).mem pml4
          (update f (pageNumber v) (some (phys &&& vmmPhysMask))) := by
  obtain ⟨used', s1, h1, hg, htook, hend⟩ := h.vmmMap v phys flags
  have htook1 : Took Q pml4 s s1 := by
    refine ⟨hg.free, hg.walk, fun g hgf => (htook g hgf).imp_right ?_⟩
    rintro ⟨p, hpv, hw⟩
    exact ⟨p, hQ p hpv, hpv.length_le, hw⟩
  obtain ⟨heq, ha⟩ | ⟨pt, hpt, heq⟩ := hend
  · rw [heq]
    exact ⟨used', h1, htook1, fun g hgf => absurd hgf (alloc_none h1.supply ha g)⟩
  · obtain ⟨h2, hwalk, hlook⟩ := h1.setEntry hpt ((phys &&& vmmPhysMask) ||| flags)
    rw [heq]
    refine ⟨used', h2, ⟨htook1.free, ?_, ?_⟩, fun _ _ f hf w => ?_⟩
    · intro p t hlen hw
      rw [hwalk p hlen]
      exact htook1.walk p t hlen hw
    · intro g hgf
      refine (htook1.table g hgf).imp_right ?_
      rintro ⟨p, hq, hlen, hw⟩
      exact ⟨p, hq, hlen, by rw [hwalk p hlen]; exact hw⟩
    · rw [pageFrame, hlook _ _ rfl, leafFrame_map hp hm, update_apply]
      by_cases hw : pageNumber w = pageNumber v
      · rw [if_pos ((tablePath_eq_iff w v).mpr hw), if_pos hw]
      · rw [if_neg (fun hc => hw ((tablePath_eq_iff w v).mp hc)), if_neg hw, hg.lookup _ _ rfl]
        exact hf w

/-- What a window of `n` pages at `base` adds to a map. -/
def addWindow (base : BitVec 64) (n : Nat) (f : PageMap) : PageMap :=
  (List.range n).foldl (fun f i =>
    update f (pageNumber (base + BitVec.ofNat 64 (i * pageSize)))
      (some (BitVec.ofNat 64 (i * pageSize) &&& vmmPhysMask))) f

theorem mapWindow_spec (h : TreeOk used pml4 s) (base : BitVec 64)
    (n : Nat)
    (hQ : ∀ i < n, ∀ p, p <+: tablePath (base + BitVec.ofNat 64 (i * pageSize)) → Q p) :
    ∃ used', TreeOk used' pml4 (mapWindow pml4 base n s) ∧ Took Q pml4 s (mapWindow pml4 base n s) ∧
      ∀ g, Free (mapWindow pml4 base n s).frames g → ∀ f, MapsAs s.mem pml4 f →
        MapsAs (mapWindow pml4 base n s).mem pml4 (addWindow base n f) := by
  have hpresent : vmmKernelRw &&& vmmPresent ≠ 0 := by decide
  have hmask : vmmKernelRw &&& vmmPhysMask = 0 := by decide
  induction n with
  | zero => exact ⟨used, h, Took.refl Q pml4 s, fun _ _ f hf => hf⟩
  | succ n ih =>
    obtain ⟨used1, h1, htook1, hmap1⟩ := ih fun i hi => hQ i (by omega)
    have hstep : ∀ {α : Type} (g : α → Nat → α) (a : α),
        (List.range (n + 1)).foldl g a = g ((List.range n).foldl g a) n := by
      intro α g a
      rw [List.range_succ, List.foldl_append]
      rfl
    unfold mapWindow addWindow at *
    simp only [hstep]
    generalize (List.range n).foldl (fun s i => vmmMap s pml4
      (base + BitVec.ofNat 64 (i * pageSize)) (BitVec.ofNat 64 (i * pageSize)) vmmKernelRw) s =
        s1 at h1 htook1 hmap1
    obtain ⟨used2, h2, htook2, hmap2⟩ := mapPage_spec h1
      (base + BitVec.ofNat 64 (n * pageSize)) (BitVec.ofNat 64 (n * pageSize)) hpresent hmask
      (hQ n (by omega))
    exact ⟨used2, h2, htook1.trans htook2, fun g hg f hf =>
      hmap2 g hg _ (hmap1 g (htook2.free g hg) f hf)⟩

end

theorem toNat_pageNumber (v : BitVec 64) : (pageNumber v).toNat = v.toNat / 4096 % 2 ^ 36 := by
  simp [pageNumber, BitVec.extractLsb'_toNat, Nat.shiftRight_eq_div_pow]

theorem addWindow_apply {base : BitVec 64} {b n : Nat} (hb : b + n ≤ 2 ^ 36)
    (hbase : ∀ i < n, (pageNumber (base + BitVec.ofNat 64 (i * pageSize))).toNat = b + i)
    (f : PageMap) (w : BitVec 36) : addWindow base n f w = if b ≤ w.toNat ∧ w.toNat < b + n then
      some (BitVec.ofNat 64 ((w.toNat - b) * pageSize)) else f w := by
  induction n with
  | zero =>
    rw [if_neg (by omega)]
    rfl
  | succ n ih =>
    have hrest := ih (by omega) fun i hi => hbase i (by omega)
    have hn := hbase n (by omega)
    unfold addWindow at hrest ⊢
    rw [List.range_succ, List.foldl_append, List.foldl_cons, List.foldl_nil, update_apply, hrest]
    by_cases hw : w = pageNumber (base + BitVec.ofNat 64 (n * pageSize))
    · rw [if_pos hw, hw, hn, if_pos (by omega), Nat.add_sub_cancel_left, frame_and_mask]
      · exact Nat.dvd_mul_left _ _
      · unfold pageSize
        omega
    · have hne : w.toNat ≠ b + n := fun hc => hw (BitVec.eq_of_toNat_eq (by rw [hc, hn]))
      rw [if_neg hw]
      refine if_congr ?_ rfl rfl
      omega

variable {i : Nat} {p : List (Fin 512)}

theorem toNat_window (base : BitVec 64) (h : base.toNat + i * pageSize < 2 ^ 64) :
    (base + BitVec.ofNat 64 (i * pageSize)).toNat = base.toNat + i * pageSize := by
  rw [BitVec.toNat_add, BitVec.toNat_ofNat]
  omega

theorem toNat_highPage (hi : i < highPages) :
    (kernelVirtBase + BitVec.ofNat 64 (i * pageSize)).toNat = 0xFFFFFFFF80000000 + i * 4096 := by
  refine toNat_window kernelVirtBase ?_
  have hbase : kernelVirtBase.toNat = 0xFFFFFFFF80000000 := rfl
  have hpages : highPages = 32768 := rfl
  rw [hbase, pageSize_eq]
  omega

theorem toNat_lowPage (hi : i < lowPages) :
    (0 + BitVec.ofNat 64 (i * pageSize)).toNat = i * 4096 := by
  have hpages : lowPages = 512 := rfl
  have hlow := toNat_window 0 (i := i) (by
    rw [pageSize_eq, show (0 : BitVec 64).toNat = 0 from rfl]
    omega)
  rw [hlow, show (0 : BitVec 64).toNat = 0 from rfl, Nat.zero_add]
  rfl

/-- The paths of the tables that `vmm_init` makes: the PML4, two levels and 64
page tables for the first window, three tables for the second. -/
def initPaths : List (List (Fin 512)) :=
  [] :: [tableIdx 511] :: [tableIdx 511, tableIdx 510] :: [tableIdx 0] ::
    [tableIdx 0, tableIdx 0] :: [tableIdx 0, tableIdx 0, tableIdx 0] ::
    (List.range 64).map fun j => [tableIdx 511, tableIdx 510, tableIdx (BitVec.ofNat 64 j)]

theorem tablePath_highPage (hi : i < highPages) :
    tablePath (kernelVirtBase + BitVec.ofNat 64 (i * pageSize)) =
      [tableIdx 511, tableIdx 510, tableIdx (BitVec.ofNat 64 (i / 512))] := by
  have hpages : highPages = 32768 := rfl
  simp only [tablePath, List.cons.injEq, Fin.ext_iff, pml4Idx, pdptIdx, pdIdx, toNat_tableIdx,
    BitVec.toNat_ushiftRight, Nat.shiftRight_eq_div_pow, toNat_highPage hi, BitVec.toNat_ofNat]
  refine ⟨?_, ?_, ?_, trivial⟩
  · show _ = 511
    omega
  · show _ = 510
    omega
  · omega

theorem tablePath_lowPage (hi : i < lowPages) :
    tablePath (0 + BitVec.ofNat 64 (i * pageSize)) = [tableIdx 0, tableIdx 0, tableIdx 0] := by
  have hpages : lowPages = 512 := rfl
  simp only [tablePath, List.cons.injEq, Fin.ext_iff, pml4Idx, pdptIdx, pdIdx, toNat_tableIdx,
    BitVec.toNat_ushiftRight, Nat.shiftRight_eq_div_pow, toNat_lowPage hi]
  refine ⟨?_, ?_, ?_, trivial⟩ <;> show _ = 0 <;> omega

/-- What `vmm_init` maps: the first 2 MB to themselves, and the 128 MB from
`KERNEL_VIRT_BASE` on to the first ones. -/
def initMap : PageMap := fun n =>
  if n.toNat < lowPages then some (BitVec.ofNat 64 (n.toNat * pageSize))
  else if 0xFFFF80000 ≤ n.toNat ∧ n.toNat < 0xFFFF80000 + highPages then
    some (BitVec.ofNat 64 ((n.toNat - 0xFFFF80000) * pageSize))
  else none

theorem addWindow_init :
    addWindow 0 lowPages (addWindow kernelVirtBase highPages fun _ => none) = initMap := by
  have hhigh : highPages = 32768 := rfl
  have hlow : lowPages = 512 := rfl
  funext n
  rw [addWindow_apply (b := 0) (by omega), addWindow_apply (b := 0xFFFF80000) (by omega), initMap]
  · simp only [Nat.zero_le, true_and, Nat.zero_add, Nat.sub_zero]
  · intro i hi
    rw [toNat_pageNumber, toNat_highPage hi]
    omega
  · intro i hi
    rw [toNat_pageNumber, toNat_lowPage hi]
    omega

theorem mem_initPaths_high (hi : i < highPages)
    (hp : p <+: tablePath (kernelVirtBase + BitVec.ofNat 64 (i * pageSize))) : p ∈ initPaths := by
  have hlt : i / 512 < 64 := by
    have hpages : highPages = 32768 := rfl
    omega
  rw [tablePath_highPage hi] at hp
  simp only [initPaths, List.mem_cons, List.mem_map, List.mem_range]
  simp only [List.prefix_cons_iff, List.prefix_nil] at hp
  grind

theorem mem_initPaths_low (hi : i < lowPages)
    (hp : p <+: tablePath (0 + BitVec.ofNat 64 (i * pageSize))) : p ∈ initPaths := by
  rw [tablePath_lowPage hi] at hp
  simp only [initPaths, List.mem_cons]
  simp only [List.prefix_cons_iff, List.prefix_nil] at hp
  grind

variable {σ : Type} [FrameSource σ] [FrameSupply σ] {s s' : Phys σ} {k : Nat} {rip : BitVec 64}

theorem TreeOk.empty (hok : Ok s.frames) {frames : σ}
    (ha : FrameSource.alloc s.frames = some (k, frames)) :
    TreeOk (· = k) k ⟨fill s.mem k pageSize 0, frames⟩ ∧
      MapsAs (fill s.mem k pageSize 0) k fun _ => none := by
  obtain ⟨hok', hfree, hiff⟩ := alloc_some hok ha
  have hroot : ∀ i, childTable (entry (fill s.mem k pageSize 0) k i) = none := fun i => by
    rw [entry_fill_zero]
    exact childTable_zero
  refine ⟨⟨hok', .empty hroot rfl, ?_⟩, fun v => ?_⟩
  · rintro t rfl
    exact ⟨tableFrame hok hfree, fun hf => ((hiff t).mp hf).2 rfl⟩
  · rw [pageFrame, Radix.lookup, tablePath, Radix.walk, hroot]
    rfl

theorem initWindows_spec (hok : Ok s.frames) {frames : σ}
    (ha : FrameSource.alloc s.frames = some (k, frames)) (hs' : s' = mapWindow k 0 lowPages
      (mapWindow k kernelVirtBase highPages ⟨fill s.mem k pageSize 0, frames⟩)) :
    ∃ used, TreeOk used k s' ∧ (∀ f, Free s'.frames f → Free s.frames f) ∧
      (∀ f, Free s.frames f → Free s'.frames f ∨
        ∃ p ∈ initPaths, Radix.walk childTable (entry s'.mem) k p = some f) ∧
      ∀ g, Free s'.frames g → MapsAs s'.mem k initMap := by
  obtain ⟨-, hfree, hiff⟩ := alloc_some hok ha
  obtain ⟨h0, hmap0⟩ := TreeOk.empty hok ha
  obtain ⟨used1, h1, htook1, hmap1⟩ :=
    mapWindow_spec h0 kernelVirtBase highPages fun i hi p hp => mem_initPaths_high hi hp
  obtain ⟨used2, h2, htook2, hmap2⟩ :=
    mapWindow_spec h1 0 lowPages fun i hi p hp => mem_initPaths_low hi hp
  have htook := htook1.trans htook2
  rw [← hs'] at h2 htook2 hmap2 htook
  refine ⟨used2, h2, fun f hf => ((hiff f).mp (htook.free f hf)).1, fun f hf => ?_, fun g hg => ?_⟩
  · by_cases hfk : f = k
    · exact .inr ⟨[], by simp [initPaths], by rw [hfk, Radix.walk_nil]⟩
    · refine (htook.table f ((hiff f).mpr ⟨hf, hfk⟩)).imp_right ?_
      rintro ⟨p, hp, -, hw⟩
      exact ⟨p, hp, hw⟩
  · rw [← addWindow_init]
    exact hmap2 g hg _ (hmap1 g (htook2.free g hg) _ hmap0)

/-- **`vmm_init`.** The frames that it takes are tables of the two windows, and
unless the frames have run out both windows are mapped. -/
theorem vmmInit_spec (hok : Ok s.frames) (h : vmmInit rip s = some (k, s')) :
    vmmTranslate s'.mem k rip ≠ 0 ∧
      ∃ used, TreeOk used k s' ∧ (∀ f, Free s'.frames f → Free s.frames f) ∧
        (∀ f, Free s.frames f → Free s'.frames f ∨
          ∃ p ∈ initPaths, Radix.walk childTable (entry s'.mem) k p = some f) ∧
        ∀ g, Free s'.frames g → MapsAs s'.mem k initMap := by
  obtain ⟨frames, ha, hs', hrip⟩ := vmmInit_eq_some_iff.mp h
  exact ⟨hrip, initWindows_spec hok ha hs'⟩

/-- The window at `KERNEL_VIRT_BASE` comes first: a frame that is there for it becomes the
table of slot 511, or is left over when the whole window is mapped. -/
theorem highWindow_slot {frames : σ} {g : Nat} (hok : Ok s.frames)
    (ha : FrameSource.alloc s.frames = some (k, frames)) (hg : Free frames g) :
    ∃ t, Radix.walk childTable (entry (mapWindow k kernelVirtBase highPages
      ⟨fill s.mem k pageSize 0, frames⟩).mem) k [511] = some t := by
  obtain ⟨h0, hmap0⟩ := TreeOk.empty hok ha
  have hpath : ∀ i < highPages, ∀ p,
      p <+: tablePath (kernelVirtBase + BitVec.ofNat 64 (i * pageSize)) → p = [] ∨ [511] <+: p := by
    intro i hi p hp
    rw [tablePath_highPage hi, List.prefix_cons_iff] at hp
    obtain rfl | ⟨q, rfl, -⟩ := hp
    · exact .inl rfl
    · exact .inr ⟨q, rfl⟩
  obtain ⟨-, -, htook, hmap⟩ := mapWindow_spec h0 kernelVirtBase highPages hpath
  obtain hfree | ⟨p, rfl | hp, -, hw⟩ := htook.table g hg
  · have hbase := hmap g hfree _ hmap0 kernelVirtBase
    rw [addWindow_apply (b := 0xFFFF80000) (by decide) fun i hi => ?_, if_pos (by decide)] at hbase
    · obtain ⟨pt, hpt, -⟩ := Option.bind_eq_some_iff.mp hbase
      exact Radix.walk_left ⟨_, rfl⟩ hpt
    · rw [toNat_pageNumber, toNat_highPage hi]
      have hpages : highPages = 32768 := rfl
      omega
  · cases hw
    exact absurd hg (h0.table k rfl).2
  · exact Radix.walk_left hp hw

/-- **The kernel's slot.** When `vmm_init` returns, from whichever of the two windows it
runs, slot 511 of the kernel's PML4 is not empty. -/
theorem vmmInit_kernelSlot (hok : Ok s.frames) (h : vmmInit rip s = some (k, s')) :
    entry s'.mem k 511 &&& vmmPresent ≠ 0 := by
  obtain ⟨frames, ha, hs', hrip⟩ := vmmInit_eq_some_iff.mp h
  obtain ⟨h0, hmap0⟩ := TreeOk.empty hok ha
  cases hnext : FrameSource.alloc frames with
  | none =>
    have hsame : ∀ base n, mapWindow k base n ⟨fill s.mem k pageSize 0, frames⟩ =
        ⟨fill s.mem k pageSize 0, frames⟩ := by
      refine mapWindow_of_none hnext fun i => ?_
      rw [entry_fill_zero]
      exact BitVec.zero_and
    rw [hsame, hsame] at hs'
    rw [hs', vmmTranslate_eq h0.tree, hmap0 rip] at hrip
    exact absurd rfl hrip
  | some r =>
    obtain ⟨used1, h1, -⟩ := mapWindow_spec (Q := fun _ => True) h0 kernelVirtBase highPages
      fun _ _ _ _ => trivial
    obtain ⟨-, -, htook, -⟩ := mapWindow_spec (Q := fun _ => True) h1 0 lowPages
      fun _ _ _ _ => trivial
    obtain ⟨t, ht⟩ := highWindow_slot hok ha (alloc_some h0.supply hnext).2.1
    have hslot := htook.walk [511] t (by decide) ht
    rw [← hs'] at hslot
    intro hc
    rw [Radix.walk, (childTable_eq_none_iff _).mpr hc] at hslot
    cases hslot

theorem vmmInit_returns (hok : Ok s.frames) {l : List Nat} (hnodup : l.Nodup)
    (hfree : ∀ f ∈ l, Free s.frames f) (hlen : 70 < l.length)
    (hrip : specTranslate initMap rip ≠ 0) :
    ∃ k s', vmmInit rip s = some (k, s') ∧ ∃ f ∈ l, Free s'.frames f := by
  obtain ⟨f0, hf0⟩ := List.exists_mem_of_length_pos (by omega : 0 < l.length)
  cases ha : FrameSource.alloc s.frames with
  | none => exact absurd (hfree f0 hf0) (alloc_none hok ha f0)
  | some r =>
    obtain ⟨k, frames⟩ := r
    obtain ⟨used, htree, -, htook, hmap⟩ := initWindows_spec hok ha rfl
    generalize hs' : mapWindow k 0 lowPages
      (mapWindow k kernelVirtBase highPages ⟨fill s.mem k pageSize 0, frames⟩) = s' at *
    -- the tables are too few for all frames of the list
    have hleft : ∃ f ∈ l, Free s'.frames f := by
      by_contra hnone
      push Not at hnone
      have hsub : l.map some ⊆ initPaths.map (Radix.walk childTable (entry s'.mem) k) := by
        intro o ho
        obtain ⟨f, hf, rfl⟩ := List.mem_map.mp ho
        obtain hc | ⟨p, hp, hw⟩ := htook f (hfree f hf)
        · exact absurd hc (hnone f hf)
        · exact List.mem_map.mpr ⟨p, hp, hw⟩
      have hle := ((List.Nodup.map (Option.some_injective Nat) hnodup).subperm hsub).length_le
      rw [List.length_map, List.length_map] at hle
      have hpaths : initPaths.length = 70 := rfl
      omega
    obtain ⟨f, hf, hfs⟩ := hleft
    refine ⟨k, s', vmmInit_eq_some_iff.mpr ⟨frames, ha, hs'.symm, ?_⟩, f, hf, hfs⟩
    rw [vmmTranslate_eq htree.tree, hmap f hfs rip]
    exact hrip

end DevOs
