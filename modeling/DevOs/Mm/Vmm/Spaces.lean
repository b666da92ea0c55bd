import DevOs.Lib.Run
import DevOs.Mm.Vmm.Forest
import DevOs.Mm.Vmm.Init

/-!
The kernel's address space and those that `vmm_create_address_space` makes.
-/

namespace DevOs

open ByteMem FrameSupply Machine

/-- Physical memory, `kernel_pml4`, the address spaces that have been made, and
the pages that callers of `pmm_alloc` hold. -/
structure Spaces where
  phys : Phys Pmm
  kernelPml4 : Nat
  spaces : List Nat
  held : List Nat

inductive SpacesOp where
  | alloc
  | free (page : Nat)
  | create
  | mapKernel (virt phys flags : BitVec 64)
  | map (i : Nat) (virt phys flags : BitVec 64)
  | unmap (i : Nat) (virt : BitVec 64)
  deriving DecidableEq, Repr

/-- One call of `pmm_alloc`, `pmm_free_page`, `vmm_create_address_space`,
`vmm_map_kernel`, or of `vmm_map` or `vmm_unmap` on the `i`-th address space. -/
def spacesStep (b : Spaces) : SpacesOp → Option Spaces
  | .alloc => match allocPage b.phys with
      | none => some b
      | some (page, s) => some { b with phys := s, held := page :: b.held }
  | .free page => some { b with phys := freePage b.phys page, held := b.held.erase page }
  | .create => match vmmCreateAddressSpace b.phys b.kernelPml4 with
      | (0, s) => some { b with phys := s }
      | (pml4, s) => some { b with phys := s, spaces := b.spaces ++ [pml4] }
  | .mapKernel virt phys flags =>
    some { b with phys := vmmMap b.phys b.kernelPml4 virt phys flags }
  | .map i virt phys flags =>
    b.spaces[i]?.map fun pml4 => { b with phys := vmmMap b.phys pml4 virt phys flags }
  | .unmap i virt =>
    b.spaces[i]?.map fun pml4 => { b with phys := vmmUnmap b.phys pml4 virt }

theorem spacesStep_create {b b' : Spaces} (h : spacesStep b .create = some b') :
    (∃ s, vmmCreateAddressSpace b.phys b.kernelPml4 = (0, s) ∧ b' = { b with phys := s }) ∨
      ∃ pml4 s, pml4 ≠ 0 ∧ vmmCreateAddressSpace b.phys b.kernelPml4 = (pml4, s) ∧
        b' = { b with phys := s, spaces := b.spaces ++ [pml4] } := by
  rw [spacesStep] at h
  split at h
  · next s hc =>
      cases h
      exact .inl ⟨s, hc, rfl⟩
  · next pml4 s hne hc =>
      cases h
      exact .inr ⟨pml4, s, hne, hc, rfl⟩

def Spaces.roots (b : Spaces) : List Nat := b.kernelPml4 :: b.spaces

def Spaces.IsTable (b : Spaces) (t : Nat) : Prop :=
  ∃ r ∈ b.roots, ∃ p : List (Fin 512), p.length ≤ 3 ∧
    Radix.walk childTable (entry b.phys.mem) r p = some t

def SpacesOp.KeepsTables (b : Spaces) : SpacesOp → Prop
  | .free page => ¬ b.IsTable (page / pageSize * pageSize)
  | _ => True

theorem freeFrame_pmmFreePage {p : Pmm} {page t : Nat} (h : FreeFrame (pmmFreePage p page) t) :
    FreeFrame p t ∨ t = page / pageSize * pageSize := by
  by_cases ht : t / pageSize = page / pageSize
  · right
    rw [← ht, Nat.div_mul_cancel h.1]
  · refine .inl ⟨h.1, h.2.1, ?_⟩
    have hbit := h.2.2
    unfold pmmFreePage at hbit
    dsimp only at hbit
    split at hbit
    · exact hbit
    · split at hbit
      · have hclear : frameUsed (frameClear p (page / pageSize)) (t / pageSize) = false := hbit
        rw [frameUsed_frameClear, decide_eq_false ht, Bool.not_false, Bool.true_and] at hclear
        exact hclear
      · exact hbit

theorem frameUsed_pmmFreePage_zero {p : Pmm} (h : frameUsed p 0 = true) (page : Nat) :
    frameUsed (pmmFreePage p page) 0 = true := by
  unfold pmmFreePage
  dsimp only
  split
  · exact h
  · next hne =>
      split
      · show frameUsed (frameClear p (page / pageSize)) 0 = true
        rw [frameUsed_frameClear, h, Bool.and_true, Bool.not_eq_true', decide_eq_false_iff_not]
        omega
      · exact h

/-- The tables of all address spaces. Slot 511 of the kernel's PML4 is in use,
and the other PML4s have the same entry there. -/
structure Shared (lvl : Levels) (b : Spaces) : Prop where
  forest : Forest (fun _ => True) lvl b.phys
  root : ∀ r ∈ b.roots, lvl r = some 3
  reached : ∀ t l, lvl t = some l → b.IsTable t
  present : entry b.phys.mem b.kernelPml4 511 &&& vmmPresent ≠ 0
  same : ∀ r ∈ b.spaces, entry b.phys.mem r 511 = entry b.phys.mem b.kernelPml4 511

namespace Shared

variable {lvl : Levels} {b : Spaces} {s' : Phys Pmm} {held : List Nat} {p : List (Fin 512)}
  {pml4 page : Nat}

theorem walk (h : Shared lvl b) {r t : Nat} (hr : r ∈ b.roots)
    (hp : p.length ≤ 3) (hw : Radix.walk childTable (entry b.phys.mem) r p = some t) :
    lvl t = some (3 - p.length) :=
  h.forest.walk (h.root r hr) hp (fun _ _ => trivial) hw

theorem transfer {lvl' : Levels} (h : Shared lvl b)
    (hf : Forest (fun _ => True) lvl' s') (hext : Extends lvl lvl')
    (hpml4 : ∀ r ∈ b.roots, entry s'.mem r 511 = entry b.phys.mem r 511)
    (hwalk : ∀ r ∈ b.roots, ∀ p t, p.length ≤ 3 →
      Radix.walk childTable (entry b.phys.mem) r p = some t →
      Radix.walk childTable (entry s'.mem) r p = some t)
    (hnew : ∀ t l, lvl' t = some l → lvl t = some l ∨ Spaces.IsTable { b with phys := s' } t) :
    Shared lvl' { b with phys := s', held := held } where
  forest := hf
  root r hr := hext r 3 (h.root r hr)
  reached t l ht := by
    obtain ht | ht := hnew t l ht
    · obtain ⟨r, hr, p, hp, hw⟩ := h.reached t l ht
      exact ⟨r, hr, p, hp, hwalk r hr p t hp hw⟩
    · exact ht
  present := by
    rw [hpml4 _ List.mem_cons_self]
    exact h.present
  same r hr := by
    rw [hpml4 _ (List.mem_cons_of_mem _ hr), hpml4 _ List.mem_cons_self]
    exact h.same r hr

variable (h : Shared lvl b)
include h

theorem frame (hm : ∀ t l i, lvl t = some l → entry s'.mem t i = entry b.phys.mem t i)
    (hok : Ok s'.frames) (hf : ∀ t l, lvl t = some l → ¬ Free s'.frames t) :
    Shared lvl { b with phys := s', held := held } := by
  refine h.transfer (h.forest.frame hm hok hf) (Extends.refl lvl)
    (fun r hr => hm r 3 511 (h.root r hr))
    (fun r hr p t hp hw => ?_) (fun t l ht => .inl ht)
  rw [← hw]
  refine Radix.walk_congr fun q k u hq hwq => ?_
  have hlen := hq.length_le
  rw [List.length_append] at hlen
  rw [hm u _ k (h.walk hr (by omega) hwq)]

theorem leaf {t : Nat} (ht : lvl t = some 0) (i : Fin 512) (e : BitVec 64) :
    Shared lvl { b with phys := { b.phys with mem := setEntry b.phys.mem t i e } } := by
  have hup : ∀ u ∈ b.roots, entry (setEntry b.phys.mem t i e) u 511 = entry b.phys.mem u 511 := by
    intro u hu
    exact h.forest.entry_leaf ht e (h.root u hu) 511
  refine h.transfer (h.forest.leaf ht e) (Extends.refl lvl) hup (fun r hr p u hp hw => ?_)
    (fun t l ht => .inl ht)
  rw [← hw]
  exact h.forest.walk_leaf ht e (h.root r hr) hp fun _ _ => trivial

/-- **A fresh table is linked** on the way of `vmm_map`. The entry it is linked
at was empty, and so is not slot 511 of a PML4. -/
theorem link {t l page : Nat} {i : Fin 512} {frames : Pmm} {flags : BitVec 64}
    (ht : lvl t = some (l + 1)) (hempty : entry b.phys.mem t i &&& vmmPresent = 0)
    (ha : FrameSource.alloc b.phys.frames = some (page, frames)) {r : Nat} (hr : r ∈ b.roots)
    (hp : p.length ≤ 3)
    (hw : Radix.walk childTable (entry (linkTable b.phys.mem t i page (midFlags flags))) r p =
      some page) : Shared (Function.update lvl page (some l))
      { b with phys := ⟨linkTable b.phys.mem t i page (midFlags flags), frames⟩ } := by
  obtain ⟨-, hpage, -, hnone, -⟩ := h.forest.alloc ha
  have hother : ∀ u k m, lvl u = some m → entry b.phys.mem u k &&& vmmPresent ≠ 0 →
      entry (linkTable b.phys.mem t i page (midFlags flags)) u k = entry b.phys.mem u k := by
    intro u k m hu hk
    refine h.forest.entry_link ht hpage hnone hu (not_and_or.mp ?_)
    rintro ⟨rfl, rfl⟩
    exact hk hempty
  refine h.transfer (h.forest.link ht ha) (extends_update hnone l) (fun r hr => ?_)
    (fun r hr p u hp hw => ?_) (fun u m hu => ?_)
  · refine hother r 511 3 (h.root r hr) ?_
    obtain rfl | hr := List.mem_cons.mp hr
    · exact h.present
    · rw [h.same r hr]
      exact h.present
  · refine Radix.walk_mono (fun q k v c hq hwq hc => ?_) hw
    have hlen := hq.length_le
    rw [List.length_append] at hlen
    rw [hother v k _ (h.walk hr (by omega) hwq)]
    · exact hc
    · rw [Ne, ← childTable_eq_none_iff, hc]
      simp
  · obtain ⟨rfl, -⟩ | ⟨-, hu⟩ := level_update hu
    · exact .inr ⟨r, hr, p, hp, hw⟩
    · exact .inl hu

theorem vmmMap (hr : pml4 ∈ b.roots) (v phys flags : BitVec 64) :
    ∃ lvl', Shared lvl' { b with phys := vmmMap b.phys pml4 v phys flags } := by
  have hI : MapInv pml4 v flags fun (s1 : Phys Pmm) (_ : List PhysEvent) =>
      ∃ lvl1, Forest (fun _ => True) lvl1 s1 ∧ Extends lvl lvl1 ∧
        Shared lvl1 { b with phys := s1 } := by
    refine Forest.mapInv (h.root pml4 hr) trivial ?_
    intro lvl1 s1 es t l i page frames _ _ ht _ hempty ha hw h1
    refine h1.link ht hempty ha hr ?_ hw
    rw [List.length_take]
    exact Nat.min_le_right _ _
  obtain ⟨s1, es, ⟨lvl1, hf, -, h1⟩, hend⟩ :=
    vmmMap_rule hI ⟨lvl, h.forest, Extends.refl lvl, h⟩ phys
  obtain ⟨heq, -⟩ | ⟨pt, hpt, heq, -⟩ := hend
  · exact ⟨lvl1, by rw [heq]; exact h1⟩
  · rw [heq]
    exact ⟨lvl1, h1.leaf (h1.walk hr (length_tablePath v).le hpt) (ptIdx v) _⟩

theorem vmmUnmap (hr : pml4 ∈ b.roots) (v : BitVec 64) :
    Shared lvl { b with phys := vmmUnmap b.phys pml4 v } := by
  rw [vmmUnmap_eq]
  cases hpt : pageTable b.phys.mem pml4 v with
  | none => exact h
  | some pt => exact h.leaf (h.walk hr (length_tablePath v).le hpt) (ptIdx v) 0

theorem allocPage (held : List Nat) {s : Phys Pmm} (ha : allocPage b.phys = some (page, s)) :
    TableFrame page ∧ lvl page = none ∧ (∀ i, entry s.mem page i = 0) ∧ ¬ Free s.frames page ∧
      Shared lvl { b with phys := s, held := held } := by
  obtain ⟨frames, hal, rfl⟩ := allocPage_eq_some ha
  obtain ⟨hok, hpage, hfree, hnone, hrest⟩ := h.forest.alloc hal
  refine ⟨hpage, hnone, fun i => entry_fill_zero page i,
    fun hf => (((alloc_some h.forest.supply hal).2.2 page).mp hf).2 rfl,
    h.frame (fun t l i ht => ?_) hok hrest⟩
  exact h.forest.entry_page hpage hnone ht (fun x hx => fill_apply_of_disjoint hx) i

theorem adopt (hpage : TableFrame page) (hnone : lvl page = none)
    (hfree : ¬ Free b.phys.frames page)
    (hchild : ∀ i c, childTable (entry b.phys.mem page i) = some c → lvl c = some 2)
    (hsame : entry b.phys.mem page 511 = entry b.phys.mem b.kernelPml4 511) :
    Shared (Function.update lvl page (some 3)) { b with spaces := b.spaces ++ [page] } := by
  have hext := extends_update hnone 3
  have hroots : ∀ r, r ∈ Spaces.roots { b with spaces := b.spaces ++ [page] } ↔
      r ∈ b.roots ∨ r = page := by
    intro r
    simp only [Spaces.roots, List.mem_cons, List.mem_append, List.not_mem_nil, or_false, or_assoc]
  refine ⟨⟨h.forest.supply, fun t l ht => ?_, fun t l i c ht ho hc => ?_⟩, fun r hr => ?_,
    fun t l ht => ?_, h.present, fun r hr => ?_⟩
  · obtain ⟨rfl, -⟩ | ⟨-, ht⟩ := level_update ht
    · exact ⟨hpage, hfree⟩
    · exact h.forest.table t l ht
  · obtain ⟨rfl, hl⟩ | ⟨-, ht⟩ := level_update ht
    · obtain rfl : l = 2 := by omega
      exact hext c 2 (hchild i c hc)
    · exact hext c l (h.forest.child t l i c ht ho hc)
  · obtain hr | rfl := (hroots r).mp hr
    · exact hext r 3 (h.root r hr)
    · exact Function.update_self ..
  · obtain ⟨rfl, -⟩ | ⟨-, ht⟩ := level_update ht
    · exact ⟨t, (hroots t).mpr (.inr rfl), [], by simp, rfl⟩
    · obtain ⟨r, hr, p, hp, hw⟩ := h.reached t l ht
      exact ⟨r, (hroots r).mpr (.inl hr), p, hp, hw⟩
  · obtain hr | hr := List.mem_append.mp hr
    · exact h.same r hr
    · obtain rfl := List.mem_singleton.mp hr
      exact hsame

theorem create {s : Phys Pmm}
    (hc : vmmCreateAddressSpace b.phys b.kernelPml4 = (pml4, s)) : pml4 = 0 ∧ s = b.phys ∨
      pml4 ≠ 0 ∧ ∃ lvl', Shared lvl' { b with phys := s, spaces := b.spaces ++ [pml4] } := by
  obtain ⟨rfl, rfl⟩ | ⟨s1, ha, hs⟩ := vmmCreateAddressSpace_cases hc
  · exact .inl ⟨rfl, rfl⟩
  obtain ⟨hpage, hnone, hzero, hfree, h1⟩ := h.allocPage b.held ha
  have hsame : ∀ t l i, lvl t = some l → entry s.mem t i = entry s1.mem t i := by
    intro t l i ht
    rw [hs, entry_copyUpperHalf_of_ne hpage.aligned (h.forest.table t l ht).1.aligned
      (ne_of_notTable ht hnone)]
  have hnew : ∀ i, entry s.mem pml4 i = if 256 ≤ i.val then entry s.mem b.kernelPml4 i else 0 := by
    intro i
    rw [hsame _ 3 i (h.root _ List.mem_cons_self), hs, entry_copyUpperHalf hpage.aligned, hzero]
  have hframes : s.frames = s1.frames := by rw [hs]
  have h2 : Shared lvl { b with phys := s } := by
    refine h1.frame hsame ?_ ?_
    · rw [hframes]
      exact h1.forest.supply
    · rw [hframes]
      exact fun t l ht => (h1.forest.table t l ht).2
  refine .inr ⟨hpage.nonzero, _, h2.adopt hpage hnone ?_ (fun i c hi => ?_) ?_⟩
  · rw [hframes]
    exact hfree
  · rw [hnew] at hi
    split at hi
    · exact h2.forest.child _ 2 i c (h2.root _ List.mem_cons_self) (fun _ => trivial) hi
    · cases hi
  · exact (hnew 511).trans (if_pos (by decide))

theorem freePage (hpage : ¬ b.IsTable (page / pageSize * pageSize)) :
    Shared lvl { b with phys := freePage b.phys page, held := held } := by
  refine h.frame (fun _ _ _ _ => rfl) ?_ fun t l ht hf => ?_
  · exact frameUsed_pmmFreePage_zero h.forest.supply page
  · obtain hf | rfl := freeFrame_pmmFreePage hf
    · exact (h.forest.table t l ht).2 hf
    · exact hpage (h.reached _ l ht)

theorem step {op : SpacesOp} (hop : op.KeepsTables b) {b' : Spaces}
    (hs : spacesStep b op = some b') : ∃ lvl', Shared lvl' b' := by
  cases op with
  | alloc =>
    rw [spacesStep] at hs
    split at hs
    · cases hs
      exact ⟨lvl, h⟩
    · next page s ha =>
        cases hs
        exact ⟨lvl, (h.allocPage _ ha).2.2.2.2⟩
  | free page =>
    cases hs
    exact ⟨lvl, h.freePage hop⟩
  | create =>
    obtain ⟨s, hc, rfl⟩ | ⟨pml4, s, hne, hc, rfl⟩ := spacesStep_create hs
    · obtain ⟨-, rfl⟩ | ⟨hz, -⟩ := h.create hc
      · exact ⟨lvl, h⟩
      · exact absurd rfl hz
    · obtain ⟨rfl, -⟩ | ⟨-, h'⟩ := h.create hc
      · exact absurd rfl hne
      · exact h'
  | mapKernel virt phys flags =>
    cases hs
    exact h.vmmMap List.mem_cons_self virt phys flags
  | map i virt phys flags =>
    obtain ⟨pml4, hi, rfl⟩ := Option.map_eq_some_iff.mp hs
    exact h.vmmMap (List.mem_cons_of_mem _ (List.mem_of_getElem? hi)) virt phys flags
  | unmap i virt =>
    obtain ⟨pml4, hi, rfl⟩ := Option.map_eq_some_iff.mp hs
    exact ⟨lvl, h.vmmUnmap (List.mem_cons_of_mem _ (List.mem_of_getElem? hi)) virt⟩

end Shared

theorem TreeOk.levels {σ : Type} [FrameSource σ] [FrameSupply σ] {used : Nat → Prop} {pml4 : Nat}
    {s : Phys σ} (h : TreeOk used pml4 s) :
    ∃ lvl : Levels, ∀ t l, lvl t = some l ↔ ∃ p : List (Fin 512), p.length ≤ 3 ∧
      Radix.walk childTable (entry s.mem) pml4 p = some t ∧ 3 - p.length = l := by
  have hone : ∀ t, ∃ o : Option Nat, ∀ l, o = some l ↔ ∃ p : List (Fin 512), p.length ≤ 3 ∧
      Radix.walk childTable (entry s.mem) pml4 p = some t ∧ 3 - p.length = l := by
    intro t
    by_cases ht : ∃ p : List (Fin 512), p.length ≤ 3 ∧
        Radix.walk childTable (entry s.mem) pml4 p = some t
    · obtain ⟨p, hp, hw⟩ := ht
      refine ⟨some (3 - p.length), fun l => ⟨fun hl => ⟨p, hp, hw, Option.some.inj hl⟩, ?_⟩⟩
      rintro ⟨q, hq, hwq, rfl⟩
      rw [h.tree.inj p q t hp hq hw hwq]
    · refine ⟨none, fun l => iff_of_false (fun hl => ?_) ?_⟩
      · cases hl
      · rintro ⟨p, hp, hw, -⟩
        exact ht ⟨p, hp, hw⟩
  choose lvl hlvl using hone
  exact ⟨lvl, hlvl⟩

variable {map : List E820Entry} {kernelEnd k : Nat} {rip : BitVec 64} {mem : Mem} {s : Phys Pmm}

theorem ok_pmmInit (map : List E820Entry) (kernelEnd : Nat) : Ok (pmmInit map kernelEnd) :=
  (frameUsed_pmmInit map kernelEnd 0).mpr (.inr (.inl rfl))

theorem vmmInit_returns_of_frames {l : List Nat} (hnodup : l.Nodup)
    (hfree : ∀ f ∈ l, FreeFrame (pmmInit map kernelEnd) f) (hlen : 70 < l.length)
    (hrip : specTranslate initMap rip ≠ 0) (mem : Mem) :
    ∃ k s, vmmInit rip ⟨mem, pmmInit map kernelEnd⟩ = some (k, s) ∧ ∃ f ∈ l, FreeFrame s.frames f :=
  vmmInit_returns (s := ⟨mem, pmmInit map kernelEnd⟩) (ok_pmmInit map kernelEnd) hnodup hfree hlen
    hrip

theorem shared_vmmInit
    (h : vmmInit rip ⟨mem, pmmInit map kernelEnd⟩ = some (k, s)) :
    ∃ lvl, Shared lvl ⟨s, k, [], []⟩ := by
  obtain ⟨-, used, htree, -⟩ := vmmInit_spec (ok_pmmInit map kernelEnd) h
  obtain ⟨lvl, hlvl⟩ := htree.levels
  refine ⟨lvl, ⟨htree.supply, fun t l ht => ?_, fun t l i c ht _ hc => ?_⟩, fun r hr => ?_,
    fun t l ht => ?_, vmmInit_kernelSlot (ok_pmmInit map kernelEnd) h, fun r hr => by cases hr⟩
  · obtain ⟨p, hp, hw, -⟩ := (hlvl t l).mp ht
    exact htree.table t (htree.tree.used p t hp hw)
  · obtain ⟨p, hp, hw, hl⟩ := (hlvl t _).mp ht
    refine (hlvl c l).mpr ⟨p ++ [i], ?_, ?_, ?_⟩
    · rw [List.length_append, List.length_singleton]
      omega
    · rw [Radix.walk_concat, hw]
      exact hc
    · rw [List.length_append, List.length_singleton]
      omega
  · obtain rfl := List.mem_singleton.mp hr
    exact (hlvl r 3).mpr ⟨[], by simp, rfl, rfl⟩
  · obtain ⟨p, hp, hw, -⟩ := (hlvl t l).mp ht
    exact ⟨k, List.mem_cons_self, p, hp, hw⟩

def SameKernelSlot (b : Spaces) : Prop :=
  ∀ pml4 ∈ b.spaces, ∀ v, (pml4Idx v).val = 511 →
    vmmTranslate b.phys.mem pml4 v = vmmTranslate b.phys.mem b.kernelPml4 v

theorem Shared.sameKernelSlot {lvl : Levels} {b : Spaces} (h : Shared lvl b) :
    SameKernelSlot b := by
  intro pml4 hp v hv
  have hslot : pml4Idx v = 511 := Fin.ext hv
  unfold vmmTranslate
  rw [hslot, h.same pml4 hp]

theorem always_of_shared {P : Spaces → Prop} (hP : ∀ b lvl, Shared lvl b → P b)
    (hinit : vmmInit rip ⟨mem, pmmInit map kernelEnd⟩ = some (k, s)) {ops : List SpacesOp}
    (hops : Steps spacesStep (fun b op => op.KeepsTables b) ⟨s, k, [], []⟩ ops) :
    Always spacesStep P ⟨s, k, [], []⟩ ops := by
  have hshared : ∀ b, (∃ lvl, Shared lvl b) → P b := fun b ⟨lvl, h⟩ => hP b lvl h
  refine always_of_steps hshared ?_ ops (shared_vmmInit hinit) hops
  intro b op b' ⟨lvl, h⟩ hop hs
  exact h.step hop hs

/-- **Slot 511 is shared** by all address spaces in every run from `vmm_init` on whose
calls leave the tables alone. -/
theorem sameKernelSlot_of_steps
    (hinit : vmmInit rip ⟨mem, pmmInit map kernelEnd⟩ = some (k, s)) {ops : List SpacesOp}
    (hops : Steps spacesStep (fun b op => op.KeepsTables b) ⟨s, k, [], []⟩ ops) :
    Always spacesStep SameKernelSlot ⟨s, k, [], []⟩ ops :=
  always_of_shared (fun _ _ h => h.sameKernelSlot) hinit hops

/-- A machine whose only memory is the 72 frames from 2 MB on. -/
def smallMap : List E820Entry := [⟨0x200000, 0x48000, 1⟩]

theorem vmmInit_smallMap :
    ∃ k s, vmmInit 0x100200 ⟨fun _ => 0, pmmInit smallMap 0x101000⟩ = some (k, s) ∧
      ∃ f, FreeFrame s.frames f ∧ lowPages * pageSize ≤ f := by
  have hfree : ∀ f ∈ (List.range 72).map fun i => 0x200000 + i * 4096,
      FreeFrame (pmmInit smallMap 0x101000) f := by decide +kernel
  have hnodup : ((List.range 72).map fun i => 0x200000 + i * 4096).Nodup := by decide +kernel
  have hrip : specTranslate initMap 0x100200 ≠ 0 := by decide
  have hlow : lowPages * pageSize = 0x200000 := rfl
  obtain ⟨k, s, hinit, f, hmem, hf⟩ :=
    vmmInit_returns_of_frames hnodup hfree (by simp) hrip fun _ => 0
  obtain ⟨i, -, rfl⟩ := List.mem_map.mp hmem
  exact ⟨k, s, hinit, _, hf, by omega⟩

theorem sameKernelSlot_heap_page :
    ∃ k s, vmmInit 0x100200 ⟨fun _ => 0, pmmInit smallMap 0x101000⟩ = some (k, s) ∧
      Always spacesStep SameKernelSlot ⟨s, k, [], []⟩
        [.create, .mapKernel 0xFFFFFF8000000000 0x300000 vmmKernelRw,
          .map 0 0x400000 0x301000 vmmUserRw, .unmap 0 0x400000] := by
  obtain ⟨k, s, hinit, -⟩ := vmmInit_smallMap
  refine ⟨k, s, hinit, sameKernelSlot_of_steps hinit ?_⟩
  simp only [Steps, SpacesOp.KeepsTables, true_and, implies_true]

end DevOs
