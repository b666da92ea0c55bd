import DevOs.CString
import DevOs.Lib.ByteMem

/-!
`strncmp`, `strncpy` and the block loops of `kernel/lib/string.c` against what their names promise.
-/

namespace DevOs

/-- `(unsigned char)s[k]`, for `k` up to the terminator. -/
def charAt (s : CString) (k : Nat) : Int := deref (s.drop k)

/-- `k` is the first position at which the strings differ, the terminators included. -/
def FirstDiff (a b : CString) (k : Nat) : Prop :=
  (∀ j < k, charAt a j = charAt b j) ∧ charAt a k ≠ charAt b k

section

variable {a b s t u v : CString} {x y : CChar} {n k : Nat}

@[simp] theorem charAt_zero (s : CString) : charAt s 0 = deref s := rfl

@[simp] theorem charAt_cons_succ (x : CChar) (s : CString) (k : Nat) :
    charAt (x :: s) (k + 1) = charAt s k := rfl

theorem deref_cons_inj : deref (x :: s) = deref (y :: t) ↔ x = y := by
  constructor
  · intro h
    exact toNat_injective (Int.ofNat.inj h)
  · rintro rfl
    rfl

theorem deref_nil_ne_cons (x : CChar) (s : CString) : deref [] ≠ deref (x :: s) :=
  Int.ne_of_lt (deref_cons_pos x s)

theorem charAt_eq_of_take_eq (h : a.take n = b.take n) (hk : k < n) : charAt a k = charAt b k := by
  induction n generalizing a b k with
  | zero => exact absurd hk (Nat.not_lt_zero k)
  | succ n ih =>
    cases a with
    | nil =>
      cases b with
      | nil => rfl
      | cons y b => cases h
    | cons x a =>
      cases b with
      | nil => cases h
      | cons y b =>
        obtain ⟨rfl, htail⟩ := List.cons.inj h
        cases k with
        | zero => rfl
        | succ k =>
          rw [charAt_cons_succ, charAt_cons_succ]
          exact ih htail (Nat.lt_of_succ_lt_succ hk)

theorem eq_or_firstDiff (a b : CString) : a = b ∨ ∃ k, FirstDiff a b k := by
  induction a generalizing b with
  | nil =>
    cases b with
    | nil => exact .inl rfl
    | cons y b =>
      exact .inr ⟨0, fun j hj => absurd hj (Nat.not_lt_zero j), deref_nil_ne_cons y b⟩
  | cons x a ih =>
    cases b with
    | nil =>
      exact .inr ⟨0, fun j hj => absurd hj (Nat.not_lt_zero j), (deref_nil_ne_cons x a).symm⟩
    | cons y b =>
      by_cases hxy : x = y
      · subst hxy
        obtain rfl | ⟨k, hbefore, hdiff⟩ := ih b
        · exact .inl rfl
        · refine .inr ⟨k + 1, fun j hj => ?_, hdiff⟩
          cases j with
          | zero => rfl
          | succ j => exact hbefore j (Nat.lt_of_succ_lt_succ hj)
      · exact .inr ⟨0, fun j hj => absurd hj (Nat.not_lt_zero j), mt deref_cons_inj.mp hxy⟩

theorem FirstDiff.succ (h : FirstDiff a b (k + 1)) :
    ∃ x s t, a = x :: s ∧ b = x :: t ∧ FirstDiff s t k := by
  have hfirst := h.1 0 (Nat.succ_pos k)
  cases a with
  | nil =>
    cases b with
    | nil => exact absurd rfl h.2
    | cons y b => exact absurd hfirst (deref_nil_ne_cons y b)
  | cons x a =>
    cases b with
    | nil => exact absurd hfirst.symm (deref_nil_ne_cons x a)
    | cons y b =>
      obtain rfl := deref_cons_inj.mp hfirst
      exact ⟨x, a, b, rfl, rfl, fun j hj => h.1 (j + 1) (Nat.succ_lt_succ hj), h.2⟩

theorem FirstDiff.take_eq (h : FirstDiff a b k) (hn : n ≤ k) :
    a.take n = b.take n ∧ n ≤ a.length := by
  induction n generalizing a b k with
  | zero => simp
  | succ n ih =>
    obtain ⟨k, rfl⟩ : ∃ j, k = j + 1 := ⟨k - 1, by omega⟩
    obtain ⟨x, s, t, rfl, rfl, hrest⟩ := h.succ
    obtain ⟨htake, hlen⟩ := ih hrest (Nat.le_of_succ_le_succ hn)
    rw [List.take_succ_cons, List.take_succ_cons, htake]
    exact ⟨rfl, Nat.succ_le_succ hlen⟩

@[simp] theorem strncmp_zero (s t : CString) : strncmp s t 0 = deref s - deref t := by
  cases s <;> cases t <;> rfl

@[simp] theorem strncmp_cons_cons (x : CChar) (s t : CString) (n : Nat) :
    strncmp (x :: s) (x :: t) (n + 1) = strncmp s t n := by
  simp [strncmp, strncmpLoop]

theorem strncmp_of_ne (h : deref s ≠ deref t) (n : Nat) :
    strncmp s t (n + 1) = if n = 0 then 0 else deref s - deref t := by
  cases s with
  | nil => cases t <;> rfl
  | cons x s =>
    cases t with
    | nil => rfl
    | cons y t =>
      have hxy : x ≠ y := fun hxy => h (deref_cons_inj.mpr hxy)
      simp [strncmp, strncmpLoop, hxy]

theorem strncmp_self (s : CString) (n : Nat) : strncmp s s n = 0 := by
  induction n generalizing s with
  | zero => simp
  | succ n ih =>
    cases s with
    | nil => simp [strncmp, strncmpLoop]
    | cons x s => rw [strncmp_cons_cons, ih]

theorem strncmp_append (s u v : CString) :
    strncmp (s ++ u) (s ++ v) s.length = deref u - deref v := by
  induction s with
  | nil => simp
  | cons x s ih => rw [List.cons_append, List.cons_append, List.length_cons, strncmp_cons_cons, ih]

theorem strncmp_of_firstDiff (h : FirstDiff a b k) (hk : k < n) :
    strncmp a b n = if k + 1 = n then 0 else charAt a k - charAt b k := by
  induction k generalizing a b n with
  | zero =>
    obtain ⟨n, rfl⟩ : ∃ m, n = m + 1 := ⟨n - 1, by omega⟩
    have hdiff : deref a ≠ deref b := h.2
    rw [strncmp_of_ne hdiff]
    simp only [charAt_zero, Nat.zero_add, Nat.right_eq_add]
  | succ k ih =>
    obtain ⟨n, rfl⟩ : ∃ m, n = m + 1 := ⟨n - 1, by omega⟩
    obtain ⟨x, s, t, rfl, rfl, hrest⟩ := h.succ
    rw [strncmp_cons_cons, ih hrest (Nat.lt_of_succ_lt_succ hk)]
    simp only [charAt_cons_succ, Nat.succ_inj]

/-- What is promised: 0 for strings whose first `n` characters are the same, and otherwise
the sign at the first difference, whatever comes from position `n` on. -/
structure StrncmpOk (a b : CString) (n : Nat) : Prop where
  zero : strncmp a b n = 0 ↔ a.take n = b.take n
  sign : a.take n ≠ b.take n → ∃ k < n, FirstDiff a b k ∧
    (strncmp a b n).sign = (charAt a k - charAt b k).sign
  beyond : ∀ a' b', a'.take n = a.take n → b'.take n = b.take n →
    strncmp a' b' n = strncmp a b n

theorem not_strncmpOk_of_take_eq (htake : a.take n = b.take n) (hlen : n ≤ a.length) :
    ¬ StrncmpOk a b n := by
  intro h
  have hcount : (a.take n).length = n := List.length_take_of_le hlen
  have hcut (u : CString) : (a.take n ++ u).take n = a.take n := by
    rw [List.take_append_of_le_length (Nat.le_of_eq hcount.symm), List.take_take, Nat.min_self]
  have hsame := h.beyond (a.take n ++ []) (a.take n ++ []) (hcut []) ((hcut []).trans htake)
  have hmore := h.beyond (a.take n ++ [slash]) (a.take n ++ []) (hcut [slash])
    ((hcut []).trans htake)
  have hvalue (u v : CString) : strncmp (a.take n ++ u) (a.take n ++ v) n = deref u - deref v := by
    have happend := strncmp_append (a.take n) u v
    rwa [hcount] at happend
  rw [hvalue] at hsame hmore
  exact absurd (hmore.trans hsame.symm) (by decide)

end

/-- **`strncmp` does what it promises** exactly for equal strings that end before position
`n`, and for strings that differ before the last of the `n` positions. -/
theorem strncmpOk_iff (a b : CString) (n : Nat) :
    StrncmpOk a b n ↔ (a = b ∧ a.length < n) ∨ ∃ k, k + 1 < n ∧ FirstDiff a b k := by
  constructor
  · intro h
    obtain rfl | ⟨k, hdiff⟩ := eq_or_firstDiff a b
    · refine .inl ⟨rfl, Nat.lt_of_not_le fun hlen => ?_⟩
      exact not_strncmpOk_of_take_eq rfl hlen h
    · refine .inr ⟨k, Nat.lt_of_not_le fun hle => ?_, hdiff⟩
      by_cases hkn : n ≤ k
      · obtain ⟨htake, hlen⟩ := hdiff.take_eq hkn
        exact not_strncmpOk_of_take_eq htake hlen h
      · -- the mismatch is in the last position, and counts as a match
        have hlast : k + 1 = n := by omega
        have hzero : strncmp a b n = 0 := by
          rw [strncmp_of_firstDiff hdiff (by omega), if_pos hlast]
        exact hdiff.2 (charAt_eq_of_take_eq (h.zero.mp hzero) (by omega))
  · rintro (⟨rfl, hlen⟩ | ⟨k, hk, hdiff⟩)
    · refine ⟨iff_of_true (strncmp_self a n) rfl, fun h => absurd rfl h, fun a' b' ha hb => ?_⟩
      have hend (c : CString) (hc : c.take n = a.take n) : c = a := by
        rw [List.take_of_length_le (Nat.le_of_lt hlen)] at hc
        have hshort : c.length ≤ n := by
          have hcl := congrArg List.length hc
          rw [List.length_take] at hcl
          omega
        rwa [List.take_of_length_le hshort] at hc
      rw [hend a' ha, hend b' hb]
    · have hkn : k < n := by omega
      have hne : ¬ k + 1 = n := by omega
      have hvalue : strncmp a b n = charAt a k - charAt b k := by
        rw [strncmp_of_firstDiff hdiff hkn, if_neg hne]
      have htake : a.take n ≠ b.take n := fun h => hdiff.2 (charAt_eq_of_take_eq h hkn)
      refine ⟨iff_of_false ?_ htake, fun _ => ⟨k, hkn, hdiff, by rw [hvalue]⟩,
        fun a' b' ha hb => ?_⟩
      · rw [hvalue]
        exact fun h => hdiff.2 (Int.sub_eq_zero.mp h)
      · have hdiff' : FirstDiff a' b' k := by
          refine ⟨fun j hj => ?_, ?_⟩
          · rw [charAt_eq_of_take_eq ha (Nat.lt_trans hj hkn),
              charAt_eq_of_take_eq hb (Nat.lt_trans hj hkn), hdiff.1 j hj]
          · rw [charAt_eq_of_take_eq ha hkn, charAt_eq_of_take_eq hb hkn]
            exact hdiff.2
        rw [strncmp_of_firstDiff hdiff' hkn, if_neg hne, hvalue, charAt_eq_of_take_eq ha hkn,
          charAt_eq_of_take_eq hb hkn]

theorem strncmp_ab_ac :
    let ab := cstr [97, 98]
    let ac := cstr [97, 99]
    strncmp ab ac 2 = 0 ∧ ab.take 2 ≠ ac.take 2 ∧ strncmp ab ac 1 = -1 ∧ ab.take 1 = ac.take 1 := by
  decide

abbrev Store := Nat × UInt8

/-- `while (n && (*d++ = *src++)) n--;`: the stores, and where it leaves `d` and `n`. -/
def strncpyCopy : Nat → CString → Nat → List Store × Nat × Nat
  | d, _, 0 => ([], d, 0)
  | d, [], n + 1 => ([(d, 0)], d + 1, n + 1)
  | d, c :: s, n + 1 =>
    let (stores, d', n') := strncpyCopy (d + 1) s n
    ((d, c.1) :: stores, d', n')

/-- `while (n--) *d++ = '\0';` -/
def strncpyFill : Nat → Nat → List Store
  | _, 0 => []
  | d, n + 1 => (d, 0) :: strncpyFill (d + 1) n

/-- The stores of `strncpy(dst, src, n)`, in order. -/
def strncpyStores (dst : Nat) (src : CString) (n : Nat) : List Store :=
  let (stores, d, n) := strncpyCopy dst src n
  stores ++ strncpyFill d n

def storeAll (m : ByteMem.Mem) (stores : List Store) : ByteMem.Mem :=
  stores.foldl (fun m w => Function.update m w.1 w.2) m

def storesAt : Nat → List UInt8 → List Store
  | _, [] => []
  | d, b :: bs => (d, b) :: storesAt (d + 1) bs

/-- The `n` bytes that are wanted: the characters up to `n` of them, then zeros. -/
def padded (src : CString) (n : Nat) : List UInt8 :=
  (src.take n).map (·.1) ++ List.replicate (n - src.length) 0

section

open ByteMem

variable {m : Mem} {dst d n : Nat} {src : CString} {bs cs : List UInt8}

@[simp] theorem map_fst_storesAt (d : Nat) (bs : List UInt8) :
    (storesAt d bs).map Prod.fst = List.range' d bs.length := by
  induction bs generalizing d with
  | nil => rfl
  | cons b bs ih => rw [storesAt, List.map_cons, ih, List.length_cons, List.range'_succ]

theorem map_snd_storesAt (d : Nat) (bs : List UInt8) : (storesAt d bs).map Prod.snd = bs := by
  induction bs generalizing d with
  | nil => rfl
  | cons b bs ih => rw [storesAt, List.map_cons, ih]

theorem storesAt_append (d : Nat) (bs cs : List UInt8) :
    storesAt d (bs ++ cs) = storesAt d bs ++ storesAt (d + bs.length) cs := by
  induction bs generalizing d with
  | nil => rfl
  | cons b bs ih =>
    rw [List.cons_append, storesAt, storesAt, ih, List.cons_append, List.length_cons,
      Nat.add_assoc, Nat.add_comm 1]

theorem storeAll_storesAt (m : Mem) (d : Nat) (bs : List UInt8) :
    storeAll m (storesAt d bs) = put m d bs := by
  induction bs generalizing m d with
  | nil =>
    funext x
    have hnone : ¬ (d ≤ x ∧ x < d + ([] : List UInt8).length) := by simp
    rw [put, if_neg hnone]
    rfl
  | cons b bs ih =>
    change storeAll (Function.update m d b) (storesAt (d + 1) bs) = _
    rw [ih]
    funext x
    by_cases hx : x = d
    · subst hx
      simp [put]
    · have hrange : (d + 1 ≤ x ∧ x < d + 1 + bs.length) ↔ (d ≤ x ∧ x < d + (b :: bs).length) := by
        rw [List.length_cons]
        omega
      by_cases hin : d ≤ x ∧ x < d + (b :: bs).length
      · have hsub : x - d = x - (d + 1) + 1 := by omega
        rw [put, put, if_pos hin, if_pos (hrange.mpr hin), hsub, List.getD_cons_succ]
      · rw [put, put, if_neg hin, if_neg (mt hrange.mp hin), Function.update_of_ne hx]

theorem strncpyFill_eq (d n : Nat) : strncpyFill d n = storesAt d (List.replicate n 0) := by
  induction n generalizing d with
  | zero => rfl
  | succ n ih => rw [strncpyFill, ih, List.replicate_succ, storesAt]

theorem strncpyStores_eq (dst : Nat) (src : CString) (n : Nat) : strncpyStores dst src n =
      storesAt dst (padded src n ++ if src.length < n then [0] else []) := by
  induction src generalizing dst n with
  | nil =>
    cases n with
    | zero => rfl
    | succ n =>
      have hlt : ([] : CString).length < n + 1 := Nat.succ_pos n
      rw [if_pos hlt]
      simp only [strncpyStores, strncpyCopy, strncpyFill_eq, padded, List.take_nil,
        List.map_nil, List.nil_append, List.length_nil, Nat.sub_zero]
      rw [← List.replicate_succ', List.replicate_succ, storesAt]
      rfl
  | cons c src ih =>
    cases n with
    | zero => simp [strncpyStores, strncpyCopy, strncpyFill, padded, storesAt]
    | succ n =>
      have hrest := ih (dst + 1) n
      simp only [strncpyStores, strncpyCopy] at hrest ⊢
      rw [List.cons_append, hrest]
      simp [padded, storesAt]

@[simp] theorem length_padded (src : CString) (n : Nat) : (padded src n).length = n := by
  simp only [padded, List.length_append, List.length_map, List.length_take, List.length_replicate]
  omega

theorem holds_strncpyStores (m : Mem) (dst : Nat) (src : CString) (n : Nat) :
    ByteMem.Holds (storeAll m (strncpyStores dst src n)) dst (padded src n) := by
  have hall : ByteMem.Holds (storeAll m (strncpyStores dst src n)) dst
      (padded src n ++ if src.length < n then [0] else []) := by
    rw [strncpyStores_eq, storeAll_storesAt]
    exact holds_put_self
  exact (holds_append.mp hall).1

/-- What is promised: the bytes of the destination are stored, each once, to hold the
characters and then zeros, and nothing else changes. -/
structure StrncpyOk (dst : Nat) (src : CString) (n : Nat) : Prop where
  addresses : (strncpyStores dst src n).map Prod.fst = List.range' dst n
  content : ∀ m, ByteMem.Holds (storeAll m (strncpyStores dst src n)) dst (padded src n)
  frame : ∀ m x, x < dst ∨ dst + n ≤ x → storeAll m (strncpyStores dst src n) x = m x

end

/-- **`strncpy` stays within the `n` bytes** exactly if the string fills them. -/
theorem strncpyOk_iff (dst : Nat) (src : CString) (n : Nat) :
    StrncpyOk dst src n ↔ n ≤ src.length := by
  constructor
  · intro h
    by_contra hlen
    have haddr := congrArg List.length h.addresses
    rw [strncpyStores_eq, if_pos (Nat.lt_of_not_le hlen), map_fst_storesAt, List.length_range',
      List.length_range', List.length_append, length_padded, List.length_singleton] at haddr
    omega
  · intro hlen
    have hstores : strncpyStores dst src n = storesAt dst (padded src n) := by
      rw [strncpyStores_eq, if_neg (Nat.not_lt.mpr hlen), List.append_nil]
    refine ⟨?_, fun m => holds_strncpyStores m dst src n, fun m x hx => ?_⟩
    · rw [hstores, map_fst_storesAt, length_padded]
    · rw [hstores, storeAll_storesAt, ByteMem.put, if_neg]
      rw [length_padded]
      omega

theorem strncpy_overflows :
    strncpyStores 0x1000 (cstr [97]) 2 = [(0x1000, 97), (0x1001, 0), (0x1002, 0)] ∧
      storeAll (fun _ => 7) (strncpyStores 0x1000 (cstr [97]) 2) 0x1002 = 0 := by
  decide

open ByteMem

def memcpy (m : Mem) (dst src : Nat) : Nat → Mem
  | 0 => m
  | n + 1 => memcpy (Function.update m dst (m src)) (dst + 1) (src + 1) n

/-- The loop of `memmove` from the last byte down. -/
def memmoveDown (m : Mem) (dst src : Nat) : Nat → Mem
  | 0 => m
  | n + 1 => memmoveDown (Function.update m (dst + n) (m (src + n))) dst src n

def memmove (m : Mem) (dst src n : Nat) : Mem :=
  if dst < src then memcpy m dst src n else memmoveDown m dst src n

theorem memcpy_eq_copy {dst src n : Nat} (m : Mem) (h : dst ≤ src ∨ src + n ≤ dst) :
    memcpy m dst src n = copy m dst src n := by
  induction n generalizing m dst src with
  | zero =>
    funext x
    rw [copy_apply_of_disjoint (by omega)]
    rfl
  | succ n ih =>
    funext x
    rw [memcpy, ih _ (by omega), copy, copy]
    -- the byte that was written is not one of those still to be read
    grind [Function.update_apply]

theorem memmoveDown_eq_copy {dst src : Nat} (n : Nat) (m : Mem) (h : src ≤ dst) :
    memmoveDown m dst src n = copy m dst src n := by
  induction n generalizing m with
  | zero =>
    funext x
    rw [copy_apply_of_disjoint (by omega)]
    rfl
  | succ n ih =>
    funext x
    rw [memmoveDown, ih, copy, copy]
    grind [Function.update_apply]

/-- **`memmove`** copies a block wherever it is to go, and so does `memcpy` unless the destination
starts inside the source. -/
theorem memmove_copies (m : Mem) (dst src n : Nat) :
    memmove m dst src n = copy m dst src n ∧
      (dst ≤ src ∨ src + n ≤ dst → memcpy m dst src n = memmove m dst src n) := by
  have hmove : memmove m dst src n = copy m dst src n := by
    unfold memmove
    split
    · rename_i hlt
      exact memcpy_eq_copy m (.inl (Nat.le_of_lt hlt))
    · rename_i hlt
      exact memmoveDown_eq_copy n m (Nat.le_of_not_lt hlt)
  exact ⟨hmove, fun h => (memcpy_eq_copy m h).trans hmove.symm⟩

end DevOs
