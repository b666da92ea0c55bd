import Mathlib.Data.Nat.Digits.Lemmas

/-!
Numerals as they are written: the most significant digit first, one digit for
zero, the digits as ASCII characters.
-/

namespace Numeral

/-- The digits of `n` in base `b`, the most significant first. -/
def digits (b n : Nat) : List Nat := if n = 0 then [0] else (Nat.digits b n).reverse

def char (upper : Bool) (d : Nat) : UInt8 :=
  if d < 10 then UInt8.ofNat (48 + d) else UInt8.ofNat ((if upper then 55 else 87) + d)

def text (b : Nat) (upper : Bool) (n : Nat) : List UInt8 := (digits b n).map (char upper)

def digit (c : UInt8) : Nat :=
  if c < 65 then c.toNat - 48 else if c < 97 then c.toNat - 55 else c.toNat - 87

def value (b : Nat) (cs : List UInt8) : Nat := Nat.ofDigits b (cs.map digit).reverse

variable {b n d : Nat}

theorem digits_of_pos (h : 0 < n) : digits b n = (Nat.digits b n).reverse :=
  if_neg (Nat.ne_of_gt h)

theorem digits_of_lt (h : n < b) : digits b n = [n] := by
  obtain rfl | hpos := Nat.eq_zero_or_pos n
  · rfl
  · rw [digits_of_pos hpos, Nat.digits_of_lt b n (Nat.ne_of_gt hpos) h, List.reverse_singleton]

theorem digits_of_le (hb : 1 < b) (h : b ≤ n) : digits b n = digits b (n / b) ++ [n % b] := by
  have hpos : 0 < n := by omega
  rw [digits_of_pos hpos, Nat.digits_def' hb hpos, List.reverse_cons,
    digits_of_pos (Nat.div_pos h (by omega))]

theorem exists_digits_cons (hb : 1 < b) (h : 0 < n) :
    ∃ d ds, digits b n = d :: ds ∧ 0 < d ∧ d < b := by
  induction n using Nat.strongRecOn with
  | ind n ih =>
    obtain hlt | hle := Nat.lt_or_ge n b
    · exact ⟨n, [], digits_of_lt hlt, h, hlt⟩
    · obtain ⟨d, ds, hdigits, hd⟩ := ih (n / b) (Nat.div_lt_self h hb) (Nat.div_pos hle (by omega))
      exact ⟨d, ds ++ [n % b], by rw [digits_of_le hb hle, hdigits, List.cons_append], hd⟩

theorem lt_of_mem_digits (hb : 1 < b) (h : d ∈ digits b n) : d < b := by
  obtain rfl | hpos := Nat.eq_zero_or_pos n
  · obtain rfl := List.mem_singleton.mp h
    omega
  · rw [digits_of_pos hpos] at h
    exact Nat.digits_lt_base hb (List.mem_reverse.mp h)

theorem digit_char (upper : Bool) (h : d < 16) : digit (char upper d) = d := by
  revert d
  cases upper <;> decide

theorem value_text (upper : Bool) (hb : 1 < b) (hb' : b ≤ 16) : value b (text b upper n) = n := by
  have hback : (text b upper n).map digit = digits b n := by
    have hid : ∀ d ∈ digits b n, (digit ∘ char upper) d = id d := fun d hd =>
      digit_char upper (Nat.lt_of_lt_of_le (lt_of_mem_digits hb hd) hb')
    rw [text, List.map_map, List.map_congr_left hid, List.map_id]
  rw [value, hback]
  obtain rfl | hpos := Nat.eq_zero_or_pos n
  · rfl
  · rw [digits_of_pos hpos, List.reverse_reverse, Nat.ofDigits_digits]

theorem length_text_le {k : Nat} (upper : Bool) (hb : 1 < b) (hk : 0 < k) (h : n < b ^ k) :
    (text b upper n).length ≤ k := by
  rw [text, List.length_map]
  obtain rfl | hpos := Nat.eq_zero_or_pos n
  · exact hk
  · rw [digits_of_pos hpos, List.length_reverse]
    exact (Nat.digits_length_le_iff hb n).mpr h

end Numeral
