import Mathlib.Data.Finset.Card
import Mathlib.Data.Nat.ModEq

/-!
Bitmaps kept in an array of machine words, as allocators keep them: bit `i`
lives in word `i / w` at position `i % w`, a set bit is a used slot.

`search` is the usual allocation loop: it visits the words in turn from a hint on,
wraps around, and takes the lowest clear bit of the first word that has one below
`limit`.
-/

namespace Bitmap

variable {w : Nat}

def test (b : Nat → BitVec w) (i : Nat) : Bool :=
  b (i / w) &&& (1#w <<< (i % w)) != 0#w

def set (b : Nat → BitVec w) (i : Nat) : Nat → BitVec w := fun k =>
  if k = i / w then b k ||| (1#w <<< (i % w)) else b k

def clear (b : Nat → BitVec w) (i : Nat) : Nat → BitVec w := fun k =>
  if k = i / w then b k &&& ~~~(1#w <<< (i % w)) else b k

theorem and_shiftLeft_ne_zero_iff {x : BitVec w} {i : Nat} (hi : i < w) :
    x &&& (1#w <<< i) ≠ 0#w ↔ x.getLsbD i = true := by
  rw [← BitVec.twoPow_eq, BitVec.and_twoPow]
  constructor
  · intro h
    by_contra hbit
    exact h (by rw [if_neg hbit])
  · intro h
    rw [if_pos h]
    intro hzero
    have hbit := congrArg (fun y => y.getLsbD i) hzero
    simp [hi] at hbit

theorem test_eq_getLsbD (hw : 0 < w) (b : Nat → BitVec w) (i : Nat) :
    test b i = (b (i / w)).getLsbD (i % w) := by
  have hiff := and_shiftLeft_ne_zero_iff (x := b (i / w)) (Nat.mod_lt i hw)
  rw [Bool.eq_iff_iff, ← hiff, test, bne_iff_ne]

theorem div_mod_inj {i j : Nat} (hd : i / w = j / w) (hm : i % w = j % w) : i = j := by
  rw [← Nat.div_add_mod i w, ← Nat.div_add_mod j w, hd, hm]

theorem getLsbD_one_shiftLeft {i j : Nat} (hi : i < w) :
    (1#w <<< i).getLsbD j = decide (j = i) := by
  rw [← BitVec.twoPow_eq, BitVec.getLsbD_twoPow]
  simp [hi, eq_comm]

@[simp] theorem test_set (hw : 0 < w) (b : Nat → BitVec w) (i j : Nat) :
    test (set b i) j = (decide (j = i) || test b j) := by
  rw [test_eq_getLsbD hw, test_eq_getLsbD hw, set]
  by_cases hword : j / w = i / w
  · rw [if_pos hword, BitVec.getLsbD_or, getLsbD_one_shiftLeft (Nat.mod_lt i hw), Bool.or_comm]
    congr 1
    rw [decide_eq_decide]
    exact ⟨div_mod_inj hword, fun h => by rw [h]⟩
  · rw [if_neg hword]
    have hne : j ≠ i := fun h => hword (by rw [h])
    simp [hne]

@[simp] theorem test_clear (hw : 0 < w) (b : Nat → BitVec w) (i j : Nat) :
    test (clear b i) j = (!decide (j = i) && test b j) := by
  rw [test_eq_getLsbD hw, test_eq_getLsbD hw, clear]
  by_cases hword : j / w = i / w
  · rw [if_pos hword, BitVec.getLsbD_and, BitVec.getLsbD_not,
      getLsbD_one_shiftLeft (Nat.mod_lt i hw), Bool.and_comm]
    congr 1
    have hiff : j % w = i % w ↔ j = i := ⟨div_mod_inj hword, fun h => by rw [h]⟩
    simp [Nat.mod_lt j hw, hiff]
  · rw [if_neg hword]
    have hne : j ≠ i := fun h => hword (by rw [h])
    simp [hne]

/-- The position of the lowest clear bit: `ctz` of the complement. -/
def firstClear (x : BitVec w) : Nat := (~~~x).ctz.toNat

theorem not_ne_zero {x : BitVec w} (hx : x ≠ BitVec.allOnes w) : ~~~x ≠ 0#w := by
  intro h
  apply hx
  rw [← BitVec.not_not (b := x), h, BitVec.not_zero]

theorem getLsbD_firstClear {x : BitVec w} (hx : x ≠ BitVec.allOnes w) :
    firstClear x < w ∧ x.getLsbD (firstClear x) = false := by
  have hbit := BitVec.getLsbD_true_ctz_of_ne_zero (not_ne_zero hx)
  rw [BitVec.getLsbD_not] at hbit
  simpa [firstClear] using hbit

theorem getLsbD_of_lt_firstClear {x : BitVec w} {i : Nat} (hi : i < firstClear x) (hiw : i < w) :
    x.getLsbD i = true := by
  have hbit := BitVec.getLsbD_false_of_lt_ctz hi
  rw [BitVec.getLsbD_not] at hbit
  simpa [hiw] using hbit

/-- The turns `turn`, `turn + 1`, … of the allocation loop, `n` of them: turn
`t` looks at word `(hint + t) % words`. -/
def searchFrom (b : Nat → BitVec w) (words limit hint : Nat) : Nat → Nat → Option Nat
  | 0, _ => none
  | n + 1, turn =>
    let k := (hint + turn) % words
    if b k = BitVec.allOnes w then searchFrom b words limit hint n (turn + 1)
    else
      let i := k * w + firstClear (b k)
      if limit ≤ i then searchFrom b words limit hint n (turn + 1) else some i

def search (b : Nat → BitVec w) (words limit hint : Nat) : Option Nat :=
  searchFrom b words limit hint words 0

section

variable {b : Nat → BitVec w} {words limit hint : Nat} {n turn : Nat}

theorem index_div_mod {k f : Nat} (hf : f < w) : (k * w + f) / w = k ∧ (k * w + f) % w = f := by
  have hw : 0 < w := Nat.zero_lt_of_lt hf
  constructor
  · rw [Nat.add_comm, Nat.add_mul_div_right f k hw, Nat.div_eq_of_lt hf, Nat.zero_add]
  · rw [Nat.add_comm, Nat.add_mul_mod_self_right, Nat.mod_eq_of_lt hf]

theorem searchFrom_eq_some {n turn i : Nat} (hwords : 0 < words)
    (h : searchFrom b words limit hint n turn = some i) :
    i < limit ∧ i / w < words ∧ test b i = false := by
  induction n generalizing turn with
  | zero => cases h
  | succ n ih =>
    unfold searchFrom at h
    dsimp only at h
    split at h
    · exact ih h
    · next hx =>
        split at h
        · exact ih h
        · next hlt =>
            obtain ⟨hf, hbit⟩ := getLsbD_firstClear hx
            obtain ⟨hdiv, hmod⟩ := index_div_mod (k := (hint + turn) % words) hf
            cases h
            refine ⟨Nat.not_le.mp hlt, by rw [hdiv]; exact Nat.mod_lt _ hwords, ?_⟩
            rw [test_eq_getLsbD (Nat.zero_lt_of_lt hf), hdiv, hmod]
            exact hbit

theorem test_of_lt_firstClear {i k : Nat} (hw : 0 < w) (hk : i / w = k)
    (hlt : i < k * w + firstClear (b k)) : test b i = true := by
  have hidx := Nat.div_add_mod i w
  rw [hk, Nat.mul_comm] at hidx
  rw [test_eq_getLsbD hw, hk]
  exact getLsbD_of_lt_firstClear (by omega) (Nat.mod_lt i hw)

theorem searchFrom_cases (hw : 0 < w) :
    (searchFrom b words limit hint (n + 1) turn = searchFrom b words limit hint n (turn + 1) ∧
        ∀ i < limit, i / w = (hint + turn) % words → test b i = true) ∨
      ∃ i < limit, searchFrom b words limit hint (n + 1) turn = some i ∧
        i / w = (hint + turn) % words ∧ ∀ j < i, j / w = i / w → test b j = true := by
  rw [searchFrom]
  dsimp only
  split
  · next hx =>
      refine .inl ⟨rfl, fun i _ hi => ?_⟩
      rw [test_eq_getLsbD hw, hi, hx]
      simp [Nat.mod_lt i hw]
  · next hx =>
      obtain ⟨hf, -⟩ := getLsbD_firstClear hx
      obtain ⟨hdiv, -⟩ := index_div_mod (k := (hint + turn) % words) hf
      split
      · next hle =>
          exact .inl ⟨rfl, fun i hlim hi => test_of_lt_firstClear hw hi (by omega)⟩
      · next hlt =>
          refine .inr ⟨_, Nat.not_le.mp hlt, rfl, hdiv, fun j hj hword => ?_⟩
          exact test_of_lt_firstClear hw (hword.trans hdiv) hj

theorem searchFrom_eq_none (h : searchFrom b words limit hint n turn = none)
    {t i : Nat} (ht : turn ≤ t ∧ t < turn + n) (hw : 0 < w)
    (hi : i / w = (hint + t) % words) (hlim : i < limit) : test b i = true := by
  induction n generalizing turn with
  | zero => omega
  | succ n ih =>
    obtain ⟨hnext, hseen⟩ | ⟨j, -, hfound, -⟩ := @searchFrom_cases w b words limit hint n turn hw
    · by_cases hhere : t = turn
      · exact hseen i hlim (by rw [hi, hhere])
      · exact ih (hnext ▸ h) (by omega)
    · rw [hfound] at h
      cases h

theorem searchFrom_lowest {n turn i : Nat} (hw : 0 < w)
    (h : searchFrom b words limit hint n turn = some i) {j : Nat} (hj : j < i)
    (hword : j / w = i / w) : test b j = true := by
  induction n generalizing turn with
  | zero => cases h
  | succ n ih =>
    obtain ⟨hnext, -⟩ | ⟨i', -, hfound, -, hlow⟩ :=
      @searchFrom_cases w b words limit hint n turn hw
    · exact ih (hnext ▸ h)
    · obtain rfl : i' = i := Option.some.inj (hfound.symm.trans h)
      exact hlow j hj hword

theorem searchFrom_before {n turn i : Nat} (hw : 0 < w)
    (hfirst : ∀ j < limit, j + 1 = (hint + turn) % words * w →
      test b j = true ∨ test b (j + 1) = true)
    (hwords : 0 < words) (h : searchFrom b words limit hint n turn = some (i + 1)) :
    test b i = true := by
  have hlow : (i + 1) % w ≠ 0 → test b i = true := fun hmod =>
    searchFrom_lowest hw h (Nat.lt_succ_self i) (Nat.succ_div_of_mod_ne_zero hmod).symm
  have hclear := (searchFrom_eq_some hwords h).2.2
  induction n generalizing turn with
  | zero => cases h
  | succ n ih =>
    obtain ⟨hnext, hseen⟩ | ⟨i', hlim, hfound, hword, -⟩ :=
      @searchFrom_cases w b words limit hint n turn hw
    · refine ih (fun j hj hstart => .inl ?_) (hnext ▸ h)
      -- the next word begins behind this one, or with bit 0
      have hdm := Nat.div_add_mod (hint + (turn + 1)) words
      have hlt := Nat.mod_lt (hint + (turn + 1)) hwords
      obtain ⟨k, hk⟩ : ∃ k, (hint + (turn + 1)) % words = k + 1 :=
        Nat.exists_eq_succ_of_ne_zero fun hz => by
          rw [hz, Nat.zero_mul] at hstart
          omega
      rw [hk] at hstart hdm hlt
      rw [Nat.succ_mul] at hstart
      obtain ⟨hdiv, -⟩ := index_div_mod (k := k) (Nat.sub_lt hw Nat.one_pos)
      rw [show k * w + (w - 1) = j by omega] at hdiv
      refine hseen j hj ?_
      rw [hdiv, show hint + turn = words * ((hint + (turn + 1)) / words) + k by omega,
        Nat.mul_add_mod, Nat.mod_eq_of_lt (by omega)]
    · obtain rfl : i' = i + 1 := Option.some.inj (hfound.symm.trans h)
      by_cases hmod : (i + 1) % w = 0
      · have hidx := Nat.div_add_mod (i + 1) w
        rw [hword, hmod, Nat.add_zero, Nat.mul_comm] at hidx
        refine (hfirst i (by omega) hidx.symm).resolve_right ?_
        rw [hclear]
        exact Bool.false_ne_true
      · exact hlow hmod

theorem exists_turn {k : Nat} (hk : k < words) : ∃ t < words, (hint + t) % words = k := by
  have hw : 0 < words := Nat.zero_lt_of_lt hk
  refine ⟨(k + (words - hint % words)) % words, Nat.mod_lt _ hw, ?_⟩
  have hlt := Nat.mod_lt hint hw
  rw [Nat.add_mod, Nat.mod_mod, ← Nat.add_mod]
  have hdm := Nat.div_add_mod hint words
  calc (hint + (k + (words - hint % words))) % words
      = (k + words * (hint / words + 1)) % words := by
        congr 1
        rw [Nat.mul_add, Nat.mul_one]
        omega
    _ = k := by rw [Nat.add_mul_mod_self_left, Nat.mod_eq_of_lt hk]

theorem search_eq_none_iff (hw : 0 < w) (hcover : limit ≤ words * w) :
    search b words limit hint = none ↔ ∀ i < limit, test b i = true := by
  constructor
  · intro h i hi
    have hk : i / w < words := (Nat.div_lt_iff_lt_mul hw).mpr (Nat.lt_of_lt_of_le hi hcover)
    obtain ⟨t, ht, hturn⟩ := @exists_turn words hint _ hk
    exact searchFrom_eq_none h ⟨Nat.zero_le t, by omega⟩ hw hturn.symm hi
  · intro hfull
    cases hs : search b words limit hint with
    | none => rfl
    | some i =>
      have hwords : 0 < words := by
        by_contra hz
        rw [Nat.not_lt, Nat.le_zero] at hz
        rw [search, hz] at hs
        cases hs
      obtain ⟨hlt, -, hbit⟩ := searchFrom_eq_some hwords hs
      rw [hfull i hlt] at hbit
      cases hbit

theorem search_eq_some {i : Nat} (hwords : 0 < words) (h : search b words limit hint = some i) :
    i < limit ∧ i / w < words ∧ test b i = false :=
  searchFrom_eq_some hwords h

theorem search_before {i : Nat} (hw : 0 < w) (hhint : hint < words)
    (hfirst : test b (hint * w) = true) (h : search b words limit hint = some (i + 1)) :
    test b i = true := by
  refine searchFrom_before hw (fun j _ hj => .inr ?_) (Nat.zero_lt_of_lt hhint) h
  rwa [hj, Nat.add_zero, Nat.mod_eq_of_lt hhint]

theorem test_set_of_search {i : Nat} (hw : 0 < w) (h : search b words limit hint = some i) :
    test (set b i) (i / w * w) = true := by
  rw [test_set hw, Bool.or_eq_true, decide_eq_true_eq]
  obtain heq | hlt := Nat.eq_or_lt_of_le (Nat.div_mul_le_self i w)
  · exact .inl heq
  · exact .inr (searchFrom_lowest hw h hlt (Nat.mul_div_cancel _ hw))

theorem search_eq_of_first {i : Nat} (hw : 0 < w) (hwords : hint < words) (hword : i / w = hint)
    (hlim : i < limit) (hclear : test b i = false)
    (hfirst : ∀ j < i, j / w = hint → test b j = true) : search b words limit hint = some i := by
  have hmod := Nat.mod_lt i hw
  have hbit : (b hint).getLsbD (i % w) = false := by
    rw [← hword, ← test_eq_getLsbD hw]
    exact hclear
  have hx : b hint ≠ BitVec.allOnes w := by
    intro hc
    rw [hc, BitVec.getLsbD_allOnes, decide_eq_true hmod] at hbit
    cases hbit
  obtain ⟨hlt, hfree⟩ := getLsbD_firstClear hx
  obtain ⟨hdiv, hrem⟩ := index_div_mod (k := hint) hlt
  have hidx := Nat.div_add_mod i w
  rw [hword, Nat.mul_comm] at hidx
  -- neither bit comes before the other
  have hle : firstClear (b hint) ≤ i % w := by
    by_contra hc
    rw [getLsbD_of_lt_firstClear (Nat.not_le.mp hc) hmod] at hbit
    cases hbit
  have hge : i % w ≤ firstClear (b hint) := by
    by_contra hc
    have hset := hfirst (hint * w + firstClear (b hint)) (by omega) hdiv
    rw [test_eq_getLsbD hw, hdiv, hrem, hfree] at hset
    cases hset
  obtain ⟨n, rfl⟩ := Nat.exists_eq_succ_of_ne_zero (Nat.ne_zero_of_lt hwords)
  have hk : (hint + 0) % (n + 1) = hint := Nat.mod_eq_of_lt hwords
  rw [search, searchFrom, hk, if_neg hx, Nat.le_antisymm hle hge, hidx]
  exact if_neg (Nat.not_le.mpr hlim)

end

def clearBits (b : Nat → BitVec w) (limit : Nat) : Finset Nat :=
  (Finset.range limit).filter fun i => test b i = false

variable {b : Nat → BitVec w} {limit i : Nat}

theorem mem_clearBits : i ∈ clearBits b limit ↔ i < limit ∧ test b i = false := by
  simp [clearBits]

theorem card_clearBits_le (b : Nat → BitVec w) (limit : Nat) :
    (clearBits b limit).card ≤ limit := by
  have hle := Finset.card_filter_le (Finset.range limit) fun i => test b i = false
  rwa [Finset.card_range] at hle

theorem clearBits_set (hw : 0 < w) (b : Nat → BitVec w) (limit i : Nat) :
    clearBits (set b i) limit = (clearBits b limit).erase i := by
  ext j
  simp only [mem_clearBits, Finset.mem_erase, test_set hw, Bool.or_eq_false_iff,
    decide_eq_false_iff_not]
  grind

theorem clearBits_clear (hw : 0 < w) (hi : i < limit) :
    clearBits (clear b i) limit = insert i (clearBits b limit) := by
  ext j
  simp only [mem_clearBits, Finset.mem_insert, test_clear hw, Bool.and_eq_false_iff,
    Bool.not_eq_false', decide_eq_true_eq]
  grind

end Bitmap
