import Mathlib.Algebra.Group.Nat.Defs
import Mathlib.Data.List.Basic

/-!
C strings and the functions of `kernel/lib/string.c` that paths go through.
-/

namespace DevOs

def CChar := {c : UInt8 // c ≠ 0}
  deriving DecidableEq

abbrev CString := List CChar

def cstr (codes : List UInt8) : CString :=
  codes.filterMap fun c => if h : c ≠ 0 then some ⟨c, h⟩ else none

/-- `'/'`. -/
def slash : CChar := ⟨47, by decide⟩

/-- `(unsigned char)*s`. -/
def deref : CString → Int
  | [] => 0
  | c :: _ => c.1.toNat

def strcmp : CString → CString → Int
  | a :: s, b :: t => if a = b then strcmp s t else deref (a :: s) - deref (b :: t)
  | s, t => deref s - deref t

/-- The loop of `strncmp`: where it leaves the two pointers and `n`. -/
def strncmpLoop : CString → CString → Nat → CString × CString × Nat
  | s, t, 0 => (s, t, 2 ^ 64 - 1)
  | a :: s, b :: t, n + 1 => if a = b then strncmpLoop s t n else (a :: s, b :: t, n)
  | s, t, n + 1 => (s, t, n)

def strncmp (s t : CString) (n : Nat) : Int :=
  match strncmpLoop s t n with
  | (s, t, n) => if n = 0 then 0 else deref s - deref t

/-- `strncpy` into a zeroed buffer of `n + 1` bytes. -/
def strncpy (s : CString) (n : Nat) : CString := s.take n

theorem toNat_injective {a b : CChar} (h : a.1.toNat = b.1.toNat) : a = b :=
  Subtype.ext (UInt8.toNat_inj.1 h)

theorem deref_cons_pos (a : CChar) (s : CString) : 0 < deref (a :: s) := by
  have hne : a.1.toNat ≠ 0 := fun h => a.2 (UInt8.toNat_inj.1 h)
  simp only [deref]
  omega

theorem strncmp_length_eq_zero_iff : ∀ s t : CString,
    strncmp s t t.length = 0 ↔ s = t ∨ (t ≠ [] ∧ t.dropLast <+: s ∧ ¬ t <+: s)
  | s, [] => by
    simp only [strncmp, strncmpLoop, List.length_nil, ne_eq, not_true_eq_false, false_and, or_false]
    cases s with
    | nil => simp [deref]
    | cons a s =>
      have := deref_cons_pos a s
      simp only [deref] at this ⊢
      simp
      omega
  | [], [b] => by simp [strncmp, strncmpLoop]
  | [], b :: c :: t => by
    have := deref_cons_pos b (c :: t)
    simp only [deref] at this
    simp [strncmp, strncmpLoop, deref]
    omega
  | a :: s, b :: t => by
    by_cases hab : a = b
    · -- equal characters: both sides go on with the rest
      have hstep : strncmp (a :: s) (b :: t) (b :: t).length = strncmp s t t.length := by
        simp only [strncmp, strncmpLoop, List.length_cons, hab, if_true]
      rw [hstep, strncmp_length_eq_zero_iff s t, hab]
      cases t with
      | nil => simp
      | cons c t => simp [List.cons_prefix_cons]
    · have hne : a.1.toNat ≠ b.1.toNat := fun h => hab (toNat_injective h)
      cases t with
      | nil => simp [strncmp, strncmpLoop, hab, List.cons_prefix_cons, Ne.symm hab]
      | cons c t =>
        simp [strncmp, strncmpLoop, hab, List.cons_prefix_cons, Ne.symm hab, deref]
        omega

end DevOs
