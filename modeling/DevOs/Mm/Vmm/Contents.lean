import DevOs.Mm.Vmm.Order
import DevOs.Mm.Vmm.Populate

/-!
What a program sees through its address space.
-/

namespace DevOs

open ByteMem FrameSupply Function Radix

def userByte (m : Mem) (pml4 : Nat) (v : BitVec 64) : Option UInt8 :=
  if vmmTranslate m pml4 v = 0 then none else some (m (vmmTranslate m pml4 v).toNat)

structure PageView where
  flags : BitVec 64
  bytes : Nat → UInt8

abbrev View := BitVec 36 → Option PageView

/-- `V` with the `n` pages from number `lo` on, which have the bytes `g`. -/
def showPages (lo n : Nat) (flags : BitVec 64) (g : Nat → UInt8) (V : View) : View := fun k =>
  if lo ≤ k.toNat ∧ k.toNat < lo + n then some ⟨flags, fun x => g (k.toNat * pageSize + x)⟩
  else V k

theorem showPages_zero (lo : Nat) (flags : BitVec 64) (g : Nat → UInt8) (V : View) :
    showPages lo 0 flags g V = V :=
  funext fun _ => if_neg (by omega)

variable {a lo n : Nat}

theorem showPages_succ (h : lo < 2 ^ 36) (flags : BitVec 64) (g : Nat → UInt8)
    (V : View) : showPages lo (n + 1) flags g V = showPages (lo + 1) n flags g
      (update V (BitVec.ofNat 36 lo) (some ⟨flags, fun x => g (lo * pageSize + x)⟩)) := by
  have hto : (BitVec.ofNat 36 lo).toNat = lo := by
    rw [BitVec.toNat_ofNat, Nat.mod_eq_of_lt h]
  funext k
  unfold showPages
  by_cases hk : k = BitVec.ofNat 36 lo
  · rw [hk, hto, if_pos (by omega), if_neg (by omega), update_self]
  · have hne : k.toNat ≠ lo := fun hc => hk (BitVec.eq_of_toNat_eq (hc.trans hto.symm))
    rw [update_of_ne hk]
    exact if_congr (by omega) rfl rfl

theorem showPages_last (h : lo + n < 2 ^ 36) (flags : BitVec 64) (g : Nat → UInt8)
    (V : View) : showPages lo (n + 1) flags g V = update (showPages lo n flags g V)
      (BitVec.ofNat 36 (lo + n)) (some ⟨flags, fun x => g ((lo + n) * pageSize + x)⟩) := by
  have hto : (BitVec.ofNat 36 (lo + n)).toNat = lo + n := by
    rw [BitVec.toNat_ofNat, Nat.mod_eq_of_lt h]
  funext k
  by_cases hk : k = BitVec.ofNat 36 (lo + n)
  · rw [hk, update_self, showPages, hto, if_pos (by omega)]
  · have hne : k.toNat ≠ lo + n := fun hc => hk (BitVec.eq_of_toNat_eq (hc.trans hto.symm))
    rw [update_of_ne hk]
    exact if_congr (by omega) rfl rfl

theorem pageNumber_ofNat (h : a < 2 ^ 48) :
    (pageNumber (BitVec.ofNat 64 a)).toNat = a / pageSize := by
  rw [toNat_pageNumber, BitVec.toNat_ofNat, pageSize_eq]
  omega

def viewByte (V : View) (a : Nat) : Option UInt8 :=
  (V (pageNumber (BitVec.ofNat 64 a))).map fun w => w.bytes (a % pageSize)

theorem showPages_at {lo n a : Nat} (h : a < 2 ^ 48) (flags : BitVec 64) (g : Nat → UInt8)
    (V : View) : showPages lo n flags g V (pageNumber (BitVec.ofNat 64 a)) =
      if lo ≤ a / pageSize ∧ a / pageSize < lo + n then
        some ⟨flags, fun x => g (a / pageSize * pageSize + x)⟩
      else V (pageNumber (BitVec.ofNat 64 a)) := by
  rw [showPages, pageNumber_ofNat h]

theorem viewByte_of_page {V : View} {flags : BitVec 64} {g : Nat → UInt8}
    (h : V (pageNumber (BitVec.ofNat 64 a)) =
      some ⟨flags, fun x => g (a / pageSize * pageSize + x)⟩) : viewByte V a = some (g a) := by
  rw [viewByte, h]
  exact congrArg (fun y => some (g y)) (Nat.div_add_mod' a pageSize)

theorem pageNumber_page {lo : Nat} (h : lo < 2 ^ 36) :
    pageNumber (BitVec.ofNat 64 (lo * pageSize)) = BitVec.ofNat 36 lo := by
  apply BitVec.eq_of_toNat_eq
  rw [pageNumber_ofNat (by rw [pageSize_eq]; omega),
    Nat.mul_div_cancel _ (by decide), BitVec.toNat_ofNat, Nat.mod_eq_of_lt h]

theorem lowerHalf_ofNat (h : a < 2 ^ 47) : LowerHalf (BitVec.ofNat 64 a) := by
  refine lowerHalf_of_lt ?_
  rwa [BitVec.toNat_ofNat, Nat.mod_eq_of_lt (by omega)]

theorem pagesFrom_ofNat_succ (lo n : Nat) : pagesFrom (BitVec.ofNat 64 (lo * pageSize)) (n + 1) =
      BitVec.ofNat 64 (lo * pageSize) :: pagesFrom (BitVec.ofNat 64 ((lo + 1) * pageSize)) n := by
  rw [pagesFrom, Nat.succ_mul, BitVec.ofNat_add]
  rfl

structure Behind (used : Nat → Prop) (pml4 : Nat) (s : Phys Pmm) (v : BitVec 64) (w : PageView)
    (d : Nat) : Prop where
  data : DataFrame used s.frames d
  entry : mappedEntry (lowerMem s.mem pml4) pml4 v = some (BitVec.ofNat 64 d ||| w.flags)
  mask : w.flags &&& vmmPhysMask = 0
  bytes : ∀ x < pageSize, s.mem (d + x) = w.bytes x

/-- The lower half of an address space has the pages of `V`. -/
structure Shows (region : Nat → Prop) (link : BitVec 64 → Prop) (used : Nat → Prop) (pml4 : Nat)
    (V : View) (s : Phys Pmm) : Prop where
  tree : TreeOk used pml4 (lower pml4 s)
  tables : ∀ t, used t → region t
  links : ∀ p t i, p.length < 3 →
    walk childTable (entry (lowerMem s.mem pml4)) pml4 p = some t →
    childTable (entry (lowerMem s.mem pml4) t i) ≠ none → link (entry (lowerMem s.mem pml4) t i)
  pages : ∀ v w, V (pageNumber v) = some w → ∃ d, region d ∧ Behind used pml4 s v w d

variable {region : Nat → Prop} {link : BitVec 64 → Prop} {used used' : Nat → Prop}
  {pml4 page d : Nat} {V : View} {w : PageView} {s s1 s' s0 : Phys Pmm} {v va flags : BitVec 64}

theorem Behind.congr {u : BitVec 64} (h : Behind used pml4 s v w d)
    (hu : pageNumber u = pageNumber v) : Behind used pml4 s u w d :=
  ⟨h.data, by rw [mappedEntry_congr hu, h.entry], h.mask, h.bytes⟩

theorem Behind.translate (h : Behind used pml4 s v w d) (ht : TreeOk used pml4 (lower pml4 s))
    (hv : LowerHalf v) : vmmTranslate s.mem pml4 v = BitVec.ofNat 64 d ||| (v &&& 0xFFF#64) := by
  have hentry : mappedEntry (lower pml4 s).mem pml4 v = some (BitVec.ofNat 64 d ||| w.flags) :=
    h.entry
  have hframe : (BitVec.ofNat 64 d ||| w.flags) &&& vmmPhysMask = BitVec.ofNat 64 d := by
    rw [BitVec.and_or_distrib_right, h.mask, frame_and_mask h.data.aligned h.data.inRange.lt]
    exact BitVec.or_zero
  rw [ht.vmmTranslate_lower hv, show lowerMem s.mem pml4 = (lower pml4 s).mem from rfl,
    ht.translate_entry, hentry, Option.elim_some, hframe]

theorem Behind.userByte (h : Behind used pml4 s v w d) (ht : TreeOk used pml4 (lower pml4 s))
    (hv : LowerHalf v) : userByte s.mem pml4 v = some (w.bytes (v.toNat % pageSize)) := by
  have hoff : (v &&& 0xFFF#64).toNat = v.toNat % pageSize := by
    rw [BitVec.toNat_and]
    exact Nat.and_two_pow_sub_one_eq_mod v.toNat 12
  have hto : (vmmTranslate s.mem pml4 v).toNat = d + v.toNat % pageSize := by
    rw [h.translate ht hv, toNat_frame_or (by rw [h.data.toNat_ofNat]; exact h.data.aligned)
      (toNat_offset_lt v), h.data.toNat_ofNat, hoff]
  have hnz : vmmTranslate s.mem pml4 v ≠ 0 := by
    intro hz
    rw [hz] at hto
    change 0 = _ at hto
    exact h.data.inRange.1 (by omega)
  rw [DevOs.userByte, if_neg hnz, hto, h.bytes _ (Nat.mod_lt _ (by decide))]

namespace Shows

variable (h : Shows region link used pml4 V s)
include h

theorem userByte {a : Nat} {b : UInt8} (ha : a < 2 ^ 47)
    (hb : viewByte V a = some b) : DevOs.userByte s.mem pml4 (BitVec.ofNat 64 a) = some b := by
  obtain ⟨w, hw, rfl⟩ := Option.map_eq_some_iff.mp hb
  obtain ⟨d, -, hd⟩ := h.pages _ w hw
  have hto : (BitVec.ofNat 64 a).toNat = a := by
    rw [BitVec.toNat_ofNat, Nat.mod_eq_of_lt (by omega)]
  rw [hd.userByte h.tree (lowerHalf_ofNat ha), hto]

theorem frame {T : Nat → Prop} (hT : ∀ t, T t → pageSize ∣ t ∧ (region t → FreeFrame s.frames t))
    (hm : ∀ x, (∀ t, T t → x < t ∨ t + pageSize ≤ x) → s'.mem x = s.mem x)
    (hok : Ok s'.frames) (hfree : ∀ t, FreeFrame s'.frames t → FreeFrame s.frames t) :
    Shows region link used pml4 V s' := by
  have hentry : ∀ t i, used t →
      entry (lowerMem s'.mem pml4) t i = entry (lowerMem s.mem pml4) t i := by
    intro t i ht
    refine entry_of_pages (h.tree.table t ht).1.aligned (fun u hu => ⟨(hT u hu).1, ?_⟩)
      fun x hx => lowerMem_congr (hm x hx)
    rintro rfl
    exact (h.tree.table u ht).2 ((hT u hu).2 (h.tables u ht))
  have hwalk : ∀ q : List (Fin 512), q.length ≤ 3 →
      walk childTable (entry (lowerMem s'.mem pml4)) pml4 q =
        walk childTable (entry (lowerMem s.mem pml4)) pml4 q :=
    fun q hq => h.tree.walk_frame hentry hq
  have htree : TreeOk used pml4 (lower pml4 s') :=
    (@TreeOk.frame _ _ _ used pml4 (lower pml4 s) (lower pml4 s') h.tree hentry hok
      fun t ht hf => (h.tree.table t ht).2 (hfree t hf)).1
  refine ⟨htree, h.tables, fun p t i hp hw hc => ?_, fun v w hw => ?_⟩
  · rw [hwalk p hp.le] at hw
    rw [hentry t i (h.tree.tree.used p t hp.le hw)] at hc ⊢
    exact h.links p t i hp hw hc
  · obtain ⟨d, hd, hb⟩ := h.pages v w hw
    refine ⟨d, hd, hb.data.mono hfree fun t ht => .inl ht, ?_, hb.mask, fun x hx => ?_⟩
    · rw [← hb.entry]
      exact h.tree.lookup_frame hentry leafEntry (length_tablePath v)
    · rw [← hb.bytes x hx]
      refine hm _ fun t ht => page_disjoint (hT t ht).1 hb.data.aligned ?_ (by omega) (by omega)
      rintro rfl
      exact hb.data.notFree ((hT t ht).2 hd)

theorem of_upper {m' : Mem} (hlow : lowerMem m' pml4 = lowerMem s.mem pml4)
    (hm : ∀ x, x < pml4 ∨ pml4 + pageSize ≤ x → m' x = s.mem x) :
    Shows region link used pml4 V ⟨m', s.frames⟩ := by
  have hsame : lower pml4 (⟨m', s.frames⟩ : Phys Pmm) = lower pml4 s :=
    congrArg (Phys.mk · s.frames) hlow
  refine ⟨by rw [hsame]; exact h.tree, h.tables, fun p t i hp hw hc => ?_, fun v w hw => ?_⟩
  · dsimp only at hw hc ⊢
    rw [hlow] at hw hc ⊢
    exact h.links p t i hp hw hc
  · obtain ⟨d, hd, hb⟩ := h.pages v w hw
    refine ⟨d, hd, hb.data, by dsimp only; rw [hlow]; exact hb.entry, hb.mask, fun x hx => ?_⟩
    rw [← hb.bytes x hx]
    refine hm _ (page_disjoint (h.tree.table pml4 h.tree.root).1.aligned hb.data.aligned ?_
      (by omega) (by omega))
    rintro rfl
    exact hb.data.notTable h.tree.root

end Shows

structure UserFlags (flags : BitVec 64) : Prop where
  present : flags &&& vmmPresent ≠ 0
  mask : flags &&& vmmPhysMask = 0
  mid : midFlags flags = vmmUserRw

/-- Free frames are in the region, and new tables are linked as `link` says. -/
structure Suits (region : Nat → Prop) (link : BitVec 64 → Prop) (s0 : Phys Pmm) : Prop where
  supply : Ok s0.frames
  free : ∀ t, FreeFrame s0.frames t → region t
  link : ∀ t, TableFrame t → link (BitVec.ofNat 64 t ||| vmmUserRw)

/-- Each page of `vs` and each table that was missing has cost a frame. -/
def Spent (pml4 : Nat) (vs : List (BitVec 64)) (s s' : Phys Pmm) : Prop :=
  ∀ ws, vs ⊆ ws → (clearFrames s.frames.bitmap).card +
      (missingTables (lowerMem s'.mem pml4) pml4 ws).card =
    (clearFrames s'.frames.bitmap).card + vs.length +
      (missingTables (lowerMem s.mem pml4) pml4 ws).card

theorem Spent.refl (pml4 : Nat) (s : Phys Pmm) : Spent pml4 [] s s := fun _ _ => by
  rw [List.length_nil, Nat.add_zero]

theorem Spent.append {vs vs' : List (BitVec 64)} (h : Spent pml4 vs s s1)
    (h' : Spent pml4 vs' s1 s') : Spent pml4 (vs ++ vs') s s' := by
  intro ws hws
  obtain ⟨hvs, hvs'⟩ := List.append_subset.mp hws
  have hfirst := h ws hvs
  have hsecond := h' ws hvs'
  rw [List.length_append]
  omega

/-- The pages of `V` have been mapped since `s0`, with frames from the region. -/
structure Lays (region : Nat → Prop) (link : BitVec 64 → Prop) (s0 : Phys Pmm)
    (used : Nat → Prop) (pml4 : Nat) (V : View) (s : Phys Pmm) : Prop
    extends Shows region link used pml4 V s where
  start : Suits region link s0
  took : Takes s0.frames s.frames
  mem : ∀ x, (∀ t, region t → x < t ∨ t + pageSize ≤ x) → s.mem x = s0.mem x

namespace Lays

theorem region_of_free (h : Lays region link s0 used pml4 V s) {t : Nat}
    (ht : FreeFrame s.frames t) : region t :=
  h.start.free t ((h.took.free h.start.supply).2 t ht)

/-- **A fresh frame is mapped and written.** The page has what has been written there,
unless a table is missing and no frame is left. -/
theorem turn (h : Lays region link s0 used pml4 V s) (hv : LowerHalf v) (hw : UserFlags w.flags)
    (ha : allocPage s = some (page, s1))
    (hs' : vmmMap s1 pml4 v (BitVec.ofNat 64 page) w.flags = s') {m' : Mem}
    (hout : ∀ x, x < page ∨ page + pageSize ≤ x → m' x = s'.mem x)
    (hin : (∀ x < pageSize, s'.mem (page + x) = 0) → ∀ x < pageSize, m' (page + x) = w.bytes x) :
    ∃ used', Populates w.flags used used' pml4 [v] [page] (lower pml4 s) (lower pml4 s') ∧
      Spent pml4 [v] s ⟨m', s'.frames⟩ ∧
      (FrameSource.alloc s'.frames = none ∧ pageTable (lowerMem m' pml4) pml4 v = none ∨
        Behind used' pml4 ⟨m', s'.frames⟩ v w page ∧
          Lays region link s0 used' pml4 (update V (pageNumber v) (some w)) ⟨m', s'.frames⟩) := by
  obtain ⟨used', hpop, hcount, hend⟩ := h.tree.populates_lower hv w.flags ha hs'
  obtain ⟨hfree, hgone, hnot⟩ := hpop.data page (List.mem_singleton_self page)
  have hregion : ∀ t, used' t → region t := fun t ht =>
    (hpop.fresh t ht).elim (h.tables t) h.region_of_free
  have hroot := hpop.tree.root
  have hne : ∀ t, used' t → t ≠ page := fun t ht hc => hnot (hc ▸ ht)
  -- outside the tables and the page nothing changes
  have hmem : ∀ x, (∀ t, used' t ∨ t = page → x < t ∨ t + pageSize ≤ x) → m' x = s.mem x := by
    intro x hx
    have hkept := hpop.mem x fun t ht => hx t (ht.imp_right List.mem_singleton.mp)
    change lowerMem s'.mem pml4 x = lowerMem s.mem pml4 x at hkept
    rw [lowerMem_apply (hx pml4 (.inl hroot)), lowerMem_apply (hx pml4 (.inl hroot))] at hkept
    rw [hout x (hx page (.inr rfl)), hkept]
  have hzero : ∀ x < pageSize, s'.mem (page + x) = 0 := by
    intro x hx
    have hz := hpop.zero page (List.mem_singleton_self page) (page + x) (by omega) (by omega)
    change lowerMem s'.mem pml4 (page + x) = 0 at hz
    rwa [lowerMem_apply (page_disjoint (hpop.tree.table pml4 hroot).1.aligned hfree.1
      (hne pml4 hroot) (by omega) (by omega))] at hz
  -- the tables do not see what is written to the page
  have hentry : ∀ t i, used' t →
      entry (lowerMem m' pml4) t i = entry (lowerMem s'.mem pml4) t i := fun t i ht =>
    entry_of_outside hfree.1 (hpop.tree.table t ht).1.aligned (hne t ht) fun x hx =>
      lowerMem_congr (hout x hx)
  have hwalk : ∀ q : List (Fin 512), q.length ≤ 3 →
      walk childTable (entry (lowerMem m' pml4)) pml4 q =
        walk childTable (entry (lowerMem s'.mem pml4)) pml4 q :=
    fun q hq => hpop.tree.walk_frame hentry hq
  refine ⟨used', hpop, fun vs hvs => ?_, ?_⟩
  · rw [missingTables_congr hwalk]
    exact hcount vs (hvs List.mem_cons_self)
  obtain ⟨hnone, htable, -⟩ | hmapped := hend
  · exact .inl ⟨hnone, (hwalk _ (length_tablePath v).le).trans htable⟩
  have htree : TreeOk used' pml4 (lower pml4 ⟨m', s'.frames⟩) :=
    (@TreeOk.frame _ _ _ used' pml4 (lower pml4 s') (lower pml4 ⟨m', s'.frames⟩) hpop.tree hentry
      hpop.tree.supply fun t ht => (hpop.tree.table t ht).2).1
  have hlook : ∀ u, mappedEntry (lowerMem m' pml4) pml4 u =
      mappedEntry (lowerMem s'.mem pml4) pml4 u := fun u =>
    hpop.tree.lookup_frame hentry leafEntry (length_tablePath u)
  have hpage := tableFrame h.tree.supply hfree
  have hbehind : ∀ u, pageNumber u = pageNumber v →
      Behind used' pml4 ⟨m', s'.frames⟩ u w page := fun u hu =>
    ⟨⟨hpage.aligned, ⟨hpage.nonzero, hfree.2.1⟩, hgone, hnot⟩, by
      rw [hlook, mappedEntry_congr hu]
      exact hmapped.trans (leafEntry_map hw.present), hw.mask, hin hzero⟩
  refine .inr ⟨hbehind v rfl, ⟨htree, hregion, fun p t i hp hwp hc => ?_, fun u w' hu => ?_⟩,
    h.start, (h.took.trans (takes_allocPage ha)).trans (hs' ▸ takes_vmmMap _ _ _ _ _),
    fun x hx => ?_⟩
  · rw [hwalk p hp.le] at hwp
    rw [hentry t i (hpop.tree.tree.used p t hp.le hwp)] at hc ⊢
    obtain ⟨hold, heq⟩ | ⟨u, hu, heq⟩ := hpop.mid.fresh p t i hp hwp hc
    · change entry (lowerMem s'.mem pml4) t i = entry (lowerMem s.mem pml4) t i at heq
      rw [heq] at hc ⊢
      exact h.links p t i hp hold hc
    · change entry (lowerMem s'.mem pml4) t i = _ at heq
      rw [heq, hw.mid]
      exact h.start.link u hu
  · by_cases huv : pageNumber u = pageNumber v
    · rw [huv, update_self] at hu
      obtain rfl := Option.some.inj hu
      exact ⟨page, h.region_of_free hfree, hbehind u huv⟩
    · rw [update_of_ne huv] at hu
      obtain ⟨d, hd, hb⟩ := h.pages u w' hu
      have hdata := hb.data.mono hpop.free hpop.fresh
      refine ⟨d, hd, hdata, ?_, hb.mask, fun x hx => ?_⟩
      · rw [hlook, ← hb.entry]
        exact hpop.other u (by simpa using huv)
      · rw [← hb.bytes x hx]
        refine hmem _ ?_
        rintro t (ht | rfl)
        · have hal := (hpop.tree.table t ht).1.aligned
          refine page_disjoint hal hdata.aligned ?_ (by omega) (by omega)
          rintro rfl
          exact hdata.notTable ht
        · refine page_disjoint hfree.1 hdata.aligned ?_ (by omega) (by omega)
          rintro rfl
          exact hb.data.notFree hfree
  · rw [← h.mem x hx]
    refine hmem x ?_
    rintro t (ht | rfl)
    · exact hx t (hregion t ht)
    · exact hx t (h.region_of_free hfree)

end Lays

end DevOs
