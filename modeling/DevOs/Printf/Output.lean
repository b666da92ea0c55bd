import DevOs.Printf

/-!
The two ways to the buffer: characters one by one through `OUT`, which stores the
beginning of a text and drops the rest, and numbers through
`put_uint`, which prints a padded numeral.
-/

namespace DevOs

def uintText (val base : Nat) (upper : Bool) (width : Nat) (zeroPad : Bool) : List UInt8 :=
  let num := Numeral.text base upper val
  List.replicate (width - num.length) (if zeroPad then 48 else 32) ++ num

variable {b : OutBuf} {k : Sink} {n : Nat} {base : Nat}

theorem tmpLoop_eq (digits : List UInt8) {base fuel v : Nat} (hbase : 1 < base)
    (hv : v < 2 ^ fuel) :
    tmpLoop digits base fuel v = (Nat.digits base v).map (digits.getD · 0) := by
  induction fuel generalizing v with
  | zero =>
    obtain rfl : v = 0 := Nat.lt_one_iff.mp hv
    rw [Nat.digits_zero]
    rfl
  | succ fuel ih =>
    obtain rfl | hpos := Nat.eq_zero_or_pos v
    · rw [Nat.digits_zero]
      rfl
    · have hhalf : v / base ≤ v / 2 := Nat.div_le_div_left hbase (by decide)
      have hlt : v / base < 2 ^ fuel := by
        rw [Nat.pow_succ] at hv
        omega
      rw [tmpLoop, if_neg (Nat.ne_of_gt hpos), ih hlt, Nat.digits_def' hbase hpos, List.map_cons]

theorem getD_digits (upper : Bool) {d : Nat} (hd : d < 16) :
    (if upper then digitsHi else digitsLo).getD d 0 = Numeral.char upper d := by
  revert d
  cases upper <;> decide

theorem reverse_tmp (upper : Bool) (val : UInt64) (hbase : 1 < base)
    (hbase' : base ≤ 16) : (if val = 0 then [48] else
      tmpLoop (if upper then digitsHi else digitsLo) base 64 val.toNat).reverse =
      Numeral.text base upper val.toNat := by
  by_cases hval : val = 0
  · subst hval
    rfl
  · have hpos : 0 < val.toNat := by
      rw [Nat.pos_iff_ne_zero]
      exact fun h => hval (UInt64.toNat_inj.mp h)
    rw [if_neg hval, tmpLoop_eq _ hbase val.toNat_lt, Numeral.text, Numeral.digits_of_pos hpos,
      ← List.map_reverse]
    refine List.map_congr_left fun d hd => getD_digits upper ?_
    exact Nat.lt_of_lt_of_le (Nat.digits_lt_base hbase (List.mem_reverse.mp hd)) hbase'

theorem padLoop_eq (b : OutBuf) (pad : UInt8) (len width : Nat) (k : Sink) :
    padLoop b pad len width k = (List.replicate (width - len) pad).foldl b.out k := by
  induction width generalizing k with
  | zero => simp [padLoop]
  | succ width ih =>
    by_cases hlen : len < width + 1
    · have hsub : width + 1 - len = width - len + 1 := by omega
      rw [padLoop, if_pos hlen, ih, hsub, List.replicate_succ, List.foldl_cons]
    · have hsub : width + 1 - len = 0 := by omega
      rw [padLoop, if_neg hlen, hsub, List.replicate_zero, List.foldl_nil]

theorem putUint_eq (b : OutBuf) (k : Sink) (val : UInt64) (upper : Bool) (width : Nat)
    (zeroPad : Bool) (hbase : 1 < base) (hbase' : base ≤ 16) :
    putUint b k val base upper width zeroPad =
      (uintText val.toNat base upper width zeroPad).foldl b.out k := by
  have htmp := reverse_tmp upper val hbase hbase'
  have hlen := congrArg List.length htmp
  rw [List.length_reverse] at hlen
  rw [uintText, List.foldl_append, ← padLoop_eq, ← hlen, ← htmp]
  rfl

/-- The array `tmp` of `put_uint`, as far as it is used. -/
def putUintTmp (val : UInt64) (base : Nat) (upper : Bool) : List UInt8 :=
  if val = 0 then [48] else tmpLoop (if upper then digitsHi else digitsLo) base 64 val.toNat

theorem foldl_out_of_room (b : OutBuf) (text : List UInt8) (h : k.pos + text.length ≤ b.sz - 1) :
    text.foldl b.out k = ⟨k.pos + text.length, k.stores ++ storesAt (b.addr + k.pos) text⟩ := by
  induction text generalizing k with
  | nil => rw [storesAt, List.append_nil]; rfl
  | cons c text ih =>
    rw [List.length_cons] at h
    have hput : b.out k c = b.put k c := if_pos (by omega)
    have hpos : (b.put k c).pos = k.pos + 1 := rfl
    rw [List.foldl_cons, hput, ih (by omega), hpos, storesAt, OutBuf.put, List.append_assoc,
      List.length_cons, Nat.add_right_comm, Nat.add_assoc, Nat.add_assoc]
    rfl

/-- **`put_uint` appends a padded numeral** of its value, and its array is large enough. -/
theorem putUint_appends (b : OutBuf) (k : Sink) (val : UInt64) (base : Nat) (upper : Bool)
    (width : Nat) (zeroPad : Bool) (hbase : base = 10 ∨ base = 16)
    (hroom : k.pos + max width (Numeral.text base upper val.toNat).length ≤ b.sz - 1) :
    (uintText val.toNat base upper width zeroPad).length =
        max width (Numeral.text base upper val.toNat).length ∧
      putUint b k val base upper width zeroPad =
        ⟨k.pos + max width (Numeral.text base upper val.toNat).length,
          k.stores ++ storesAt (b.addr + k.pos) (uintText val.toNat base upper width zeroPad)⟩ ∧
      (Numeral.text base upper val.toNat).length =
        (if val = 0 then 1 else (Nat.digits base val.toNat).length) ∧
      Numeral.value base (Numeral.text base upper val.toNat) = val.toNat ∧
      (putUintTmp val base upper).length ≤ 20 := by
  have hbase1 : 1 < base := by omega
  have hbase2 : base ≤ 16 := by omega
  have hlen : (uintText val.toNat base upper width zeroPad).length =
      max width (Numeral.text base upper val.toNat).length := by
    rw [uintText, List.length_append, List.length_replicate]
    omega
  refine ⟨hlen, ?_, ?_, Numeral.value_text upper hbase1 hbase2, ?_⟩
  · rw [putUint_eq b k val upper width zeroPad hbase1 hbase2,
      foldl_out_of_room b _ (by rw [hlen]; exact hroom), hlen]
  · rw [Numeral.text, List.length_map]
    split
    · next hval => rw [hval]; rfl
    · next hval =>
        have hpos : 0 < val.toNat := Nat.pos_of_ne_zero fun h => hval (UInt64.toNat_inj.mp h)
        rw [Numeral.digits_of_pos hpos, List.length_reverse]
  · -- `2 ^ 64` has 20 decimal digits, and fewer hexadecimal ones
    have hpow : 2 ^ 64 ≤ base ^ 20 := by
      obtain rfl | rfl := hbase <;> decide
    rw [← List.length_reverse, putUintTmp, reverse_tmp upper val hbase1 hbase2]
    exact Numeral.length_text_le upper hbase1 (by decide) (Nat.lt_of_lt_of_le val.toNat_lt hpow)

theorem putUint_appends_seven :
    putUint ⟨0, 8⟩ ⟨0, []⟩ 7 10 false 3 false = ⟨3, storesAt 0 [32, 32, 55]⟩ := by
  have htext : Numeral.text 10 false 7 = [55] := by
    rw [Numeral.text, Numeral.digits_of_lt (by decide)]
    rfl
  have happends := putUint_appends ⟨0, 8⟩ ⟨0, []⟩ 7 10 false 3 false (.inl rfl)
    (by change 0 + max 3 (Numeral.text 10 false 7).length ≤ 7; rw [htext]; decide)
  have hnum : Numeral.text 10 false (7 : UInt64).toNat = [55] := htext
  rw [uintText, hnum] at happends
  exact happends.2.1

theorem pos_out (b : OutBuf) (c : UInt8) (h : k.pos = min n (b.sz - 1)) :
    (b.out k c).pos = min (n + 1) (b.sz - 1) := by
  by_cases hroom : k.pos < b.sz - 1
  · rw [OutBuf.out, if_pos hroom]
    change k.pos + 1 = _
    omega
  · rw [OutBuf.out, if_neg hroom]
    omega

theorem pos_foldl_out (b : OutBuf) (cs : List UInt8) (h : k.pos = min n (b.sz - 1)) :
    (cs.foldl b.out k).pos = min (n + cs.length) (b.sz - 1) := by
  induction cs generalizing k n with
  | nil => exact h
  | cons c cs ih =>
    rw [List.foldl_cons, ih (pos_out b c h), List.length_cons, Nat.add_right_comm, Nat.add_assoc]

def sinkOf (b : OutBuf) (t : Capped (b.sz - 1) UInt8) : Sink :=
  ⟨t.count, storesAt b.addr t.toList⟩

theorem out_sinkOf (b : OutBuf) (t : Capped (b.sz - 1) UInt8) (c : UInt8) :
    b.out (sinkOf b t) c = sinkOf b (t.push c) := by
  by_cases hroom : t.count < b.sz - 1
  · have hpush : (t.push c).toList = t.toList ++ [c] := by
      rw [Capped.push, dif_pos hroom]
    have hcount : (t.push c).count = t.count + 1 := by
      rw [Capped.count, hpush, List.length_append]
      rfl
    rw [OutBuf.out, if_pos (show (sinkOf b t).pos < b.sz - 1 from hroom), sinkOf, sinkOf, hpush,
      storesAt_append, hcount]
    rfl
  · rw [Capped.push_eq_self hroom, OutBuf.out,
      if_neg (show ¬ (sinkOf b t).pos < b.sz - 1 from hroom)]

theorem foldl_out_empty (b : OutBuf) (text : List UInt8) : text.foldl b.out ⟨0, []⟩ =
      ⟨(text.take (b.sz - 1)).length, storesAt b.addr (text.take (b.sz - 1))⟩ := by
  have hempty : (⟨0, []⟩ : Sink) = sinkOf b Capped.empty := rfl
  rw [hempty, List.foldl_hom (sinkOf b) fun t c => out_sinkOf b t c, sinkOf, Capped.count,
    Capped.toList_foldl_push]
  rfl

end DevOs
