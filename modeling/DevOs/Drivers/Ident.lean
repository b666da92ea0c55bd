import Mathlib.Data.Nat.Bitwise

/-!
The identify data of a disk, of which `drivers/storage/ata.c` and
`drivers/storage/ahci.c` read the same words in the same way.
-/

namespace DevOs

def modelOf (word : Nat → Nat) : List Nat :=
  (((List.range 20).flatMap fun i =>
    [word (27 + i) >>> 8, word (27 + i) &&& 0xFF]).reverse.dropWhile (· == 0x20)).reverse

/-- `(ident[83] >> 10) & 1`. -/
def hasLba48 (word : Nat → Nat) : Bool := word 83 >>> 10 &&& 1 == 1

def lba28Of (word : Nat → Nat) : Nat := word 61 <<< 16 ||| word 60

def lba48Of (word : Nat → Nat) : Nat :=
  word 103 <<< 48 ||| word 102 <<< 32 ||| word 101 <<< 16 ||| word 100

variable {word : Nat → Nat}

theorem shiftLeft_lt {w i : Nat} (hw : w < 2 ^ 16) (hi : i ≤ 48) : w <<< i < 2 ^ 64 := by
  have hpow : 2 ^ 16 * 2 ^ i ≤ 2 ^ 64 := by
    rw [← Nat.pow_add]
    exact Nat.pow_le_pow_right (by decide) (by omega)
  rw [Nat.shiftLeft_eq]
  exact Nat.lt_of_lt_of_le (Nat.mul_lt_mul_of_pos_right hw (Nat.two_pow_pos i)) hpow

theorem lba28Of_lt (h : ∀ i, word i < 2 ^ 16) : lba28Of word < 2 ^ 64 :=
  Nat.or_lt_two_pow (shiftLeft_lt (h 61) (by decide)) (Nat.lt_trans (h 60) (by decide))

theorem lba48Of_lt (h : ∀ i, word i < 2 ^ 16) : lba48Of word < 2 ^ 64 :=
  Nat.or_lt_two_pow (Nat.or_lt_two_pow (Nat.or_lt_two_pow
    (shiftLeft_lt (h 103) (by decide)) (shiftLeft_lt (h 102) (by decide)))
    (shiftLeft_lt (h 101) (by decide))) (Nat.lt_trans (h 100) (by decide))

end DevOs
