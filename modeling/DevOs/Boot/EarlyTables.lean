import DevOs.Mm.Pmm.Reserved
import DevOs.Mm.Vmm.Init
import DevOs.Mm.Vmm.Log

/-!
The page tables that the boot loader builds, and `vmm_init` which replaces them.
-/

namespace DevOs

open ByteMem FrameSupply Radix

/-- One turn of the loop `.fill`, with `edi = 0x4000 + 8 * i` and
`ebx = i * 0x200000`. -/
def earlyPdEntry (m : Mem) (i : Nat) : Mem :=
  let m := store 4 m (0x4000 + 8 * i) (i * 0x200000)
  let m := store 4 m (0x4000 + 8 * i) (load 4 m (0x4000 + 8 * i) ||| 0x83)
  store 4 m (0x4000 + 8 * i + 4) 0

/-- `setup_early_paging`. The loop ends when `ebx` has reached 1 GB. -/
def setupEarlyPaging (m : Mem) : Mem :=
  let m := fill m 0x2000 (3 * 4096) 0
  let m := store 4 m 0x2000 0x3003
  let m := store 4 m (0x2000 + 511 * 8) 0x3003
  let m := store 4 m 0x3000 0x4003
  let m := store 4 m (0x3000 + 510 * 8) 0x4003
  (List.range (0x40000000 / 0x200000)).foldl earlyPdEntry m

def earlyCr3 : Nat := 0x2000

/-- The table that the CPU goes on with at an entry above the last level: none if
the entry is not present or maps a large page. -/
def cpuChild (e : BitVec 64) : Option Nat :=
  if e &&& vmmPresent = 0 ∨ e &&& vmmHuge ≠ 0 then none else some (physToPt e)

/-- `t` is a table that the CPU uses to translate addresses. -/
def CpuTable (m : Mem) (cr3 t : Nat) : Prop :=
  ∃ p : List (Fin 512), p.length ≤ 3 ∧ walk cpuChild (entry m) cr3 p = some t

section

variable {m : Mem} {a v w : Nat}

theorem load_store_halves (hv : v < 2 ^ 32) (hw : w < 2 ^ 32) :
    load 8 (store 4 (store 4 m a v) (a + 4) w) a = v + 2 ^ 32 * w := by
  rw [load_add 4 4, load_store_of_disjoint (by omega), load_store_of_lt (by omega),
    load_store_of_lt (by omega)]
  rfl

theorem load_store_low (hv : v < 2 ^ 32) (hz : load 4 m (a + 4) = 0) :
    load 8 (store 4 m a v) a = v := by
  rw [load_add 4 4, load_store_of_lt (by omega), load_store_of_disjoint (by omega), hz,
    Nat.mul_zero, Nat.add_zero]

theorem earlyPdEntry_apply {i x : Nat} (hx : x < 0x4000 + 8 * i ∨ 0x4000 + 8 * i + 8 ≤ x) :
    earlyPdEntry m i x = m x := by
  rw [earlyPdEntry, store_apply_of_disjoint (by omega), store_apply_of_disjoint (by omega),
    store_apply_of_disjoint (by omega)]

theorem foldl_earlyPdEntry_apply {n x : Nat} (hx : x < 0x4000 ∨ 0x4000 + 8 * n ≤ x) :
    (List.range n).foldl earlyPdEntry m x = m x := by
  induction n with
  | zero => rfl
  | succ n ih =>
    rw [List.range_succ, List.foldl_append, List.foldl_cons, List.foldl_nil,
      earlyPdEntry_apply (by omega), ih (by omega)]

theorem load_earlyPdEntry {i : Nat} (hi : i < 512) :
    load 8 (earlyPdEntry m i) (0x4000 + 8 * i) = i * 0x200000 ||| 0x83 := by
  have hlt : i * 0x200000 ||| 0x83 < 2 ^ 32 := Nat.or_lt_two_pow (by omega) (by decide)
  rw [earlyPdEntry, load_store_of_lt (by omega), load_store_halves hlt (by decide),
    Nat.mul_zero, Nat.add_zero]

theorem load_foldl_earlyPdEntry {n i : Nat} (hn : n ≤ 512) (hi : i < n) :
    load 8 ((List.range n).foldl earlyPdEntry m) (0x4000 + 8 * i) = i * 0x200000 ||| 0x83 := by
  induction n with
  | zero => omega
  | succ n ih =>
    rw [List.range_succ, List.foldl_append, List.foldl_cons, List.foldl_nil]
    by_cases hin : i = n
    · rw [hin, load_earlyPdEntry (by omega)]
    · rw [← ih (by omega) (by omega)]
      exact load_congr fun x hlo hhi => earlyPdEntry_apply (by omega)

theorem load_setupEarlyPaging (m : Mem) {b : Nat} (hb : b + 8 ≤ 0x4000) :
    load 8 (setupEarlyPaging m) b =
      load 8 (store 4 (store 4 (store 4 (store 4 (fill m 0x2000 (3 * 4096) 0) 0x2000 0x3003)
        (0x2000 + 511 * 8) 0x3003) 0x3000 0x4003) (0x3000 + 510 * 8) 0x4003) b :=
  load_congr fun x hlo hhi => foldl_earlyPdEntry_apply (by omega)

theorem entry_earlyPml4 (m : Mem) (i : Fin 512) : entry (setupEarlyPaging m) 0x2000 i =
      if i.val = 0 ∨ i.val = 511 then 0x3003#64 else 0 := by
  have hi := i.isLt
  rw [entry, load_setupEarlyPaging m (by omega), load_store_of_disjoint (by omega),
    load_store_of_disjoint (by omega)]
  by_cases hlast : i.val = 511
  · rw [if_pos (.inr hlast), hlast, Nat.mul_comm 8, load_store_low (by decide)]
    rw [load_store_of_disjoint (by decide), load_fill_zero (by decide)]
  · rw [load_store_of_disjoint (by omega)]
    by_cases hzero : i.val = 0
    · rw [if_pos (.inl hzero), hzero, load_store_low (by decide)]
      rw [load_fill_zero (by decide)]
    · rw [if_neg (by omega), load_store_of_disjoint (by omega), load_fill_zero (by omega)]
      rfl

theorem entry_earlyPdpt (m : Mem) (i : Fin 512) : entry (setupEarlyPaging m) 0x3000 i =
      if i.val = 0 ∨ i.val = 510 then 0x4003#64 else 0 := by
  have hi := i.isLt
  rw [entry, load_setupEarlyPaging m (by omega)]
  by_cases hlast : i.val = 510
  · rw [if_pos (.inr hlast), hlast, Nat.mul_comm 8, load_store_low (by decide)]
    rw [load_store_of_disjoint (by decide), load_store_of_disjoint (by decide),
      load_store_of_disjoint (by decide), load_fill_zero (by decide)]
  · rw [load_store_of_disjoint (by omega)]
    by_cases hzero : i.val = 0
    · rw [if_pos (.inl hzero), hzero, load_store_low (by decide)]
      rw [load_store_of_disjoint (by decide), load_store_of_disjoint (by decide),
        load_fill_zero (by decide)]
    · rw [if_neg (by omega), load_store_of_disjoint (by omega), load_store_of_disjoint (by omega),
        load_store_of_disjoint (by omega), load_fill_zero (by omega)]
      rfl

theorem cpuChild_earlyPd (m : Mem) (i : Fin 512) :
    cpuChild (entry (setupEarlyPaging m) 0x4000 i) = none := by
  have hlarge : (BitVec.ofNat 64 (i.val * 0x200000 ||| 0x83)).getLsbD 7 = true := by
    rw [BitVec.getLsbD_ofNat, Nat.testBit_or, show Nat.testBit 0x83 7 = true from rfl, Bool.or_true]
    rfl
  rw [entry, setupEarlyPaging, load_foldl_earlyPdEntry (by decide) i.isLt, cpuChild, if_pos]
  refine .inr fun hc => ?_
  rw [and_huge_eq_zero_iff, hlarge] at hc
  cases hc

end

theorem cpuTable_setupEarlyPaging (m : Mem) (t : Nat) :
    CpuTable (setupEarlyPaging m) earlyCr3 t ↔ t = 0x2000 ∨ t = 0x3000 ∨ t = 0x4000 := by
  have hpml4 : ∀ i, cpuChild (entry (setupEarlyPaging m) 0x2000 i) =
      if i.val = 0 ∨ i.val = 511 then some 0x3000 else none := by
    intro i
    rw [entry_earlyPml4, apply_ite cpuChild]
    rfl
  have hpdpt : ∀ i, cpuChild (entry (setupEarlyPaging m) 0x3000 i) =
      if i.val = 0 ∨ i.val = 510 then some 0x4000 else none := by
    intro i
    rw [entry_earlyPdpt, apply_ite cpuChild]
    rfl
  constructor
  · rintro ⟨p, -, hw⟩
    cases p with
    | nil => exact .inl (Option.some.inj hw).symm
    | cons i p =>
      rw [walk, show earlyCr3 = 0x2000 from rfl, hpml4, Option.bind_eq_some_iff] at hw
      obtain ⟨u, hu, hw⟩ := hw
      obtain rfl := Option.some.inj (Option.ite_none_right_eq_some.mp hu).2
      cases p with
      | nil => exact .inr (.inl (Option.some.inj hw).symm)
      | cons j p =>
        rw [walk, hpdpt, Option.bind_eq_some_iff] at hw
        obtain ⟨u, hu, hw⟩ := hw
        obtain rfl := Option.some.inj (Option.ite_none_right_eq_some.mp hu).2
        cases p with
        | nil => exact .inr (.inr (Option.some.inj hw).symm)
        | cons k p =>
          rw [walk, cpuChild_earlyPd] at hw
          cases hw
  · rintro (rfl | rfl | rfl)
    · exact ⟨[], by decide, rfl⟩
    · refine ⟨[0], by decide, ?_⟩
      rw [walk, show earlyCr3 = 0x2000 from rfl, hpml4]
      rfl
    · refine ⟨[0, 0], by decide, ?_⟩
      rw [walk, show earlyCr3 = 0x2000 from rfl, hpml4]
      change walk cpuChild (entry (setupEarlyPaging m)) 0x3000 [0] = _
      rw [walk, hpdpt]
      rfl

section

variable {σ : Type} [FrameSource σ] {pml4 : Nat}

def mapWindowEvents (pml4 : Nat) (base : BitVec 64) : Nat → Phys σ → List PhysEvent
  | 0, _ => []
  | n + 1, s =>
    mapWindowEvents pml4 base n s ++ vmmMapEvents (mapWindow pml4 base n s) pml4
      (base + BitVec.ofNat 64 (n * pageSize)) vmmKernelRw

def vmmInitEvents (s : Phys σ) : List PhysEvent :=
  match allocPage s with
  | none => []
  | some (pml4, s1) =>
    allocEvents s ++ mapWindowEvents pml4 kernelVirtBase highPages s1 ++
      mapWindowEvents pml4 0 lowPages (mapWindow pml4 kernelVirtBase highPages s1)

theorem vmmInitEvents_eq {s s1 : Phys σ} (h : allocPage s = some (pml4, s1)) :
    vmmInitEvents s = allocEvents s ++ mapWindowEvents pml4 kernelVirtBase highPages s1 ++
      mapWindowEvents pml4 0 lowPages (mapWindow pml4 kernelVirtBase highPages s1) := by
  rw [vmmInitEvents, h]

theorem mapWindow_succ (pml4 : Nat) (base : BitVec 64) (n : Nat) (s : Phys σ) :
    mapWindow pml4 base (n + 1) s = vmmMap (mapWindow pml4 base n s) pml4
      (base + BitVec.ofNat 64 (n * pageSize)) (BitVec.ofNat 64 (n * pageSize)) vmmKernelRw := by
  rw [mapWindow, List.range_succ, List.foldl_append]
  rfl

theorem mapWindowEvents_subset {base : BitVec 64} {s : Phys σ} {m n : Nat}
    (h : m ≤ n) : mapWindowEvents pml4 base m s ⊆ mapWindowEvents pml4 base n s := by
  induction n with
  | zero =>
    obtain rfl : m = 0 := by omega
    exact fun e he => he
  | succ n ih =>
    by_cases hm : m = n + 1
    · rw [hm]
      exact fun e he => he
    · exact fun e he => List.mem_append_left _ (ih (by omega) he)

theorem getOrCreateEvents_subset (s : Phys σ) (pml4 : Nat) (v flags : BitVec 64) :
    getOrCreateEvents s pml4 (pml4Idx v) ⊆ vmmMapEvents s pml4 v flags := by
  intro e he
  unfold vmmMapEvents
  dsimp only
  split
  · exact he
  · split
    · exact List.mem_append_left _ he
    · split <;> simp [he]

variable [FrameSupply σ]

theorem logged_mapWindow {s : Phys σ} (hok : Ok s.frames) (pml4 : Nat) (base : BitVec 64)
    (n : Nat) : Logged (mapWindowEvents pml4 base n s) s (mapWindow pml4 base n s) := by
  induction n with
  | zero => exact .nil hok
  | succ n ih =>
    rw [mapWindow_succ]
    exact ih.append (.vmmMap ih.supply pml4 _ _ vmmKernelRw)

theorem free_of_vmmInitEvents {s : Phys σ} (hok : Ok s.frames) {page : Nat}
    (h : .alloc page ∈ vmmInitEvents s) : Free s.frames page := by
  cases ha : allocPage s with
  | none =>
    rw [vmmInitEvents, ha] at h
    cases h
  | some r =>
    obtain ⟨pml4, s1⟩ := r
    rw [vmmInitEvents_eq ha] at h
    have h1 := (Logged.allocPage hok ha).2
    have h2 := h1.append (logged_mapWindow h1.supply pml4 kernelVirtBase highPages)
    exact (h2.append (logged_mapWindow h2.supply pml4 0 lowPages)).taken page h

end

variable {m : Mem} {p p1 p2 : Pmm} {page page1 : Nat}

section

variable (h : pmmAlloc p = some (page, p1))
include h

theorem allocPage_of_pmmAlloc :
    allocPage (⟨m, p⟩ : Phys Pmm) = some (page, ⟨fill m page pageSize 0, p1⟩) := by
  rw [allocPage, show FrameSource.alloc p = some (page, p1) from h]

theorem first_mem_vmmInitEvents : .alloc page ∈ vmmInitEvents (⟨m, p⟩ : Phys Pmm) := by
  have hev : allocEvents (⟨m, p⟩ : Phys Pmm) = [.alloc page, .write page pageSize] := by
    rw [allocEvents, show FrameSource.alloc p = some (page, p1) from h]
  rw [vmmInitEvents_eq (allocPage_of_pmmAlloc h), hev]
  exact List.mem_append_left _ (List.mem_append_left _ List.mem_cons_self)

theorem second_mem_vmmInitEvents (h1 : pmmAlloc p1 = some (page1, p2)) :
    .alloc page1 ∈ vmmInitEvents (⟨m, p⟩ : Phys Pmm) := by
  have hfirst : .alloc page1 ∈ mapWindowEvents page kernelVirtBase 1
      (⟨fill m page pageSize 0, p1⟩ : Phys Pmm) := by
    refine getOrCreateEvents_subset _ _ _ _ ?_
    show _ ∈ getOrCreateEvents (⟨fill m page pageSize 0, p1⟩ : Phys Pmm) page _
    rw [getOrCreateEvents, entry_fill_zero, if_pos (by decide),
      show FrameSource.alloc p1 = some (page1, p2) from h1]
    exact List.mem_cons_self
  have hpages : 1 ≤ highPages := by decide
  rw [vmmInitEvents_eq (allocPage_of_pmmAlloc h)]
  exact List.mem_append_left _ (List.mem_append_right _ (mapWindowEvents_subset hpages hfirst))

end

/-- **Low frames go first.** The lowest clear frame from frame 2 on is one of the
first two frames, if it is in the first word of the bitmap. -/
theorem lowest_mem_vmmInitEvents {t : Nat} (hhint : p.searchHint = 0)
    (hzero : frameUsed p 0 = true) (ht : 1 < t ∧ t < 64) (hclear : frameUsed p t = false)
    (hmin : ∀ g, 1 < g → g < t → frameUsed p g = true) :
    .alloc (t * pageSize) ∈ vmmInitEvents (⟨m, p⟩ : Phys Pmm) := by
  have hmax : pmmMaxFrames = 1048576 := by decide
  have hword : t / 64 = 0 := Nat.div_eq_of_lt ht.2
  cases hone : frameUsed p 1 with
  | true =>
    refine first_mem_vmmInitEvents (pmmAlloc_first (by omega) (hword.trans hhint.symm) hclear ?_)
    intro g hg _
    obtain rfl | rfl | hlt : g = 0 ∨ g = 1 ∨ 1 < g := by omega
    · exact hzero
    · exact hone
    · exact hmin g hlt hg
  | false =>
    have hfirst := pmmAlloc_first (p := p) (f := 1) (by omega) hhint.symm hone fun g hg _ => by
      obtain rfl : g = 0 := by omega
      exact hzero
    obtain ⟨f, -, -, hphys, hbits⟩ := pmmAlloc_eq_some hfirst
    obtain rfl : f = 1 := (Nat.eq_of_mul_eq_mul_right (by decide) hphys).symm
    refine second_mem_vmmInitEvents hfirst (pmmAlloc_first (by omega) hword ?_ ?_)
    · rw [hbits, hclear, decide_eq_false (by omega)]
      rfl
    · intro g hg _
      rw [hbits, Bool.or_eq_true, decide_eq_true_eq]
      obtain rfl | rfl | hlt : g = 0 ∨ g = 1 ∨ 1 < g := by omega
      · exact .inr hzero
      · exact .inl rfl
      · exact .inr (hmin g hlt hg)

/-- No frame that `pmm_alloc` returns between `pmm_init` and the end of `vmm_init` is a
table that the CPU still uses. -/
def EarlyTablesKept (map : List E820Entry) (kernelEnd : Nat) (m : Mem) : Prop :=
  ∀ page, .alloc page ∈ vmmInitEvents (⟨setupEarlyPaging m, pmmInit map kernelEnd⟩ : Phys Pmm) →
    ¬ CpuTable (setupEarlyPaging m) earlyCr3 page

/-- **The tables in use are kept** exactly if no usable entry covers one of their
frames. -/
theorem earlyTablesKept_iff (map : List E820Entry) (kernelEnd : Nat) (m : Mem) :
    EarlyTablesKept map kernelEnd m ↔ ∀ e ∈ map, ¬ e.Covers 2 ∧ ¬ e.Covers 3 ∧ ¬ e.Covers 4 := by
  have hzero : frameUsed (pmmInit map kernelEnd) 0 = true :=
    (frameUsed_pmmInit map kernelEnd 0).mpr (.inr (.inl rfl))
  unfold EarlyTablesKept
  simp only [cpuTable_setupEarlyPaging]
  constructor
  · intro h e he
    have hnot : ∀ f, 1 < f → f < 5 → ¬ e.Covers f := by
      intro f hlo hhi hcov
      have hmax : pmmMaxFrames = 1048576 := by decide
      have hkern : ¬ KernelFrame kernelEnd f := by
        rw [KernelFrame, show kernelStart = 1048576 from rfl, pageSize_eq]
        omega
      have hclear : 1 < f ∧ frameUsed (pmmInit map kernelEnd) f = false :=
        ⟨hlo, clear_pmmInit_iff.mpr ⟨⟨e, he, hcov⟩, by omega, by omega, hkern⟩⟩
      -- the lowest such frame
      have hex : ∃ g, 1 < g ∧ frameUsed (pmmInit map kernelEnd) g = false := ⟨f, hclear⟩
      have hle := Nat.find_min' hex hclear
      obtain ⟨hlow, hfind⟩ := Nat.find_spec hex
      have hmem := lowest_mem_vmmInitEvents (m := setupEarlyPaging m)
        (searchHint_pmmInit map kernelEnd) hzero ⟨hlow, by omega⟩ hfind fun g hg hlt =>
          Bool.not_eq_false _ ▸ fun hc => Nat.find_min hex hlt ⟨hg, hc⟩
      refine h _ hmem ?_
      rw [pageSize_eq]
      omega
    exact ⟨hnot 2 (by decide) (by decide), hnot 3 (by decide) (by decide),
      hnot 4 (by decide) (by decide)⟩
  · intro h page hpage htable
    obtain ⟨-, -, hclear⟩ : FreeFrame (pmmInit map kernelEnd) page :=
      free_of_vmmInitEvents hzero hpage
    obtain ⟨⟨e, he, hcov⟩, -⟩ := clear_pmmInit_iff.mp hclear
    obtain ⟨h2, h3, h4⟩ := h e he
    obtain rfl | rfl | rfl := htable
    · exact h2 hcov
    · exact h3 hcov
    · exact h4 hcov

def pcMap : List E820Entry :=
  [⟨0, 0x9FC00, 1⟩, ⟨0x9FC00, 0x400, 2⟩, ⟨0xF0000, 0x10000, 2⟩, ⟨0x100000, 0x7EE0000, 1⟩]

/-- With it the first two frames that `vmm_init` gets are frame 1 and the PML4 that
the CPU uses. -/
theorem vmmInit_overwrites_early_pml4 :
    .alloc 0x1000 ∈ vmmInitEvents
        (⟨setupEarlyPaging fun _ => 0, pmmInit pcMap 0x140000⟩ : Phys Pmm) ∧
      .alloc 0x2000 ∈ vmmInitEvents
        (⟨setupEarlyPaging fun _ => 0, pmmInit pcMap 0x140000⟩ : Phys Pmm) ∧
      ¬ EarlyTablesKept pcMap 0x140000 fun _ => 0 := by
  have hzero : frameUsed (pmmInit pcMap 0x140000) 0 = true :=
    (frameUsed_pmmInit _ _ 0).mpr (.inr (.inl rfl))
  have hclear : ∀ f, f = 1 ∨ f = 2 → frameUsed (pmmInit pcMap 0x140000) f = false := by
    rintro f (rfl | rfl) <;>
      exact clear_pmmInit_iff.mpr ⟨⟨⟨0, 0x9FC00, 1⟩, by decide, by decide⟩, by decide, by decide,
        by unfold KernelFrame; decide⟩
  have hhint := searchHint_pmmInit pcMap 0x140000
  have hmem : .alloc (2 * pageSize) ∈ vmmInitEvents
      (⟨setupEarlyPaging fun _ => 0, pmmInit pcMap 0x140000⟩ : Phys Pmm) :=
    lowest_mem_vmmInitEvents hhint hzero (by decide) (hclear 2 (.inr rfl))
      fun g hlo hhi => by omega
  have hfirst := pmmAlloc_first (f := 1) (by decide) hhint.symm (hclear 1 (.inl rfl))
    fun g hg _ => by
      obtain rfl : g = 0 := by omega
      exact hzero
  have htable : CpuTable (setupEarlyPaging fun _ => 0) earlyCr3 (2 * pageSize) :=
    (cpuTable_setupEarlyPaging _ _).mpr (.inl rfl)
  exact ⟨first_mem_vmmInitEvents hfirst, hmem, fun h => h _ hmem htable⟩

end DevOs
