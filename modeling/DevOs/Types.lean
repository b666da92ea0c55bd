import Mathlib.Data.Nat.ModEq

/-!
Page size, alignment and the wrap-around arithmetic of `uint64_t`, after
`kernel/include/types.h`.
-/

namespace DevOs

def pageSize : Nat := 4096

theorem pageSize_eq : pageSize = 4096 := rfl

/-- `ALIGN_DOWN(x, a)`, that is `x & ~(a - 1)` for a power of two `a`. -/
def alignDown (x a : Nat) : Nat := x / a * a

/-- `ALIGN_UP(x, a)`: the sum wraps around before it is rounded. -/
def alignUp (x a : Nat) : Nat := alignDown ((x + (a - 1)) % 2 ^ 64) a

def inc64 (x : Nat) : Nat := (x + 1) % 2 ^ 64

/-- `x--` on a `uint64_t`. -/
def dec64 (x : Nat) : Nat := (x + (2 ^ 64 - 1)) % 2 ^ 64

/-- `(int)x` for a `uint64_t` `x`. -/
def int32 (x : Nat) : Int := (x : Int).bmod (2 ^ 32)

theorem alignDown_le (x a : Nat) : alignDown x a ≤ x := Nat.div_mul_le_self x a

theorem dvd_alignDown (x a : Nat) : a ∣ alignDown x a := ⟨x / a, Nat.mul_comm _ _⟩

variable {x a : Nat}

theorem lt_alignDown_add (ha : 0 < a) : x < alignDown x a + a := by
  have hmod := Nat.mod_lt x ha
  have hdm := Nat.div_add_mod x a
  rw [Nat.mul_comm] at hdm
  unfold alignDown
  omega

theorem dvd_alignUp (x a : Nat) : a ∣ alignUp x a := dvd_alignDown _ a

theorem le_alignUp (ha : 0 < a) (hx : x + (a - 1) < 2 ^ 64) : x ≤ alignUp x a := by
  have hlt := lt_alignDown_add (x := x + (a - 1)) ha
  unfold alignUp
  rw [Nat.mod_eq_of_lt hx]
  omega

theorem alignUp_lt (ha : 0 < a) (hx : x + (a - 1) < 2 ^ 64) : alignUp x a < x + a := by
  have hle := alignDown_le (x + (a - 1)) a
  unfold alignUp
  rw [Nat.mod_eq_of_lt hx]
  omega

theorem int32_eq_self_iff {n : Nat} : int32 n = n ↔ n < 2 ^ 31 := by
  unfold int32
  have hmod := Int.bmod_def (n : Int) (2 ^ 32)
  omega

end DevOs
