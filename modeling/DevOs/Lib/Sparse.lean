import Mathlib.Data.List.Basic

/-!
Sequences that are written at arbitrary positions: a write beyond the end
fills the gap with a default element. A buffer that is longer than the
sequence, with the default element in the rest, is written in place,
cut and lengthened.
-/

namespace Sparse

variable {α : Type*} (z : α) {off n k : Nat}

/-- `bs` in the place of the elements from position `off` on. -/
def splice (l : List α) (off : Nat) (bs : List α) : List α :=
  l.take off ++ bs ++ l.drop (off + bs.length)

/-- The sequence after a write of `bs` at `off`: at least `off + bs.length`
long, the gap filled with `z`. -/
def write (l : List α) (off : Nat) (bs : List α) : List α :=
  splice (l ++ List.replicate (off - l.length) z) off bs

theorem length_write (l : List α) (off : Nat) (bs : List α) :
    (write z l off bs).length = max l.length (off + bs.length) := by
  simp only [write, splice, List.length_append, List.length_take, List.length_drop,
    List.length_replicate]
  omega

theorem length_splice {l : List α} {bs : List α} (h : off + bs.length ≤ l.length) :
    (splice l off bs).length = l.length := by
  simp only [splice, List.length_append, List.length_take, List.length_drop]
  omega

theorem write_eq_append_iff {l : List α} {bs : List α} (hoff : off ≤ l.length)
    (hbs : bs ≠ []) : write z l off bs = l ++ bs ↔ off = l.length := by
  constructor
  · intro h
    have hlen := congrArg List.length h
    have hpos := List.length_pos_iff.mpr hbs
    rw [length_write, List.length_append] at hlen
    omega
  · rintro rfl
    rw [write, Nat.sub_self, List.replicate_zero, List.append_nil, splice, List.take_length,
      List.drop_eq_nil_of_le (Nat.le_add_right _ _), List.append_nil]

theorem splice_pad {l : List α} {off k : Nat} {bs : List α} (h : off + bs.length ≤ l.length + k) :
    ∃ k', splice (l ++ List.replicate k z) off bs = write z l off bs ++ List.replicate k' z := by
  refine ⟨k - (off + bs.length - l.length), ?_⟩
  have htake : (l ++ List.replicate k z).take off =
      (l ++ List.replicate (off - l.length) z).take off := by
    simp only [List.take_append, List.take_replicate]
    congr 2
    omega
  have hdrop : (l ++ List.replicate k z).drop (off + bs.length) =
      (l ++ List.replicate (off - l.length) z).drop (off + bs.length) ++
        List.replicate (k - (off + bs.length - l.length)) z := by
    simp only [List.drop_append, List.drop_replicate, List.append_assoc,
      List.replicate_append_replicate]
    congr 2
    omega
  simp only [splice, write, htake, hdrop, List.append_assoc]

/-- The sequence cut to `n` elements, or filled up to `n`. -/
def resize (l : List α) (n : Nat) : List α :=
  l.take n ++ List.replicate (n - l.length) z

theorem length_resize (l : List α) (n : Nat) : (resize z l n).length = n := by
  simp only [resize, List.length_append, List.length_take, List.length_replicate]
  omega

theorem splice_cut {l : List α} (h : n ≤ l.length) :
    splice (l ++ List.replicate k z) n (List.replicate (l.length - n) z) =
      resize z l n ++ List.replicate (l.length - n + k) z := by
  have hn : n + (List.replicate (l.length - n) z).length = l.length := by
    rw [List.length_replicate]
    omega
  rw [splice, hn, List.take_append_of_le_length h, List.drop_left, resize,
    Nat.sub_eq_zero_of_le h, List.replicate_zero, List.append_nil, List.append_assoc,
    List.replicate_append_replicate]

theorem resize_pad {l : List α} (hl : l.length ≤ n) (hn : n ≤ l.length + k) :
    l ++ List.replicate k z = resize z l n ++ List.replicate (l.length + k - n) z := by
  rw [resize, List.take_of_length_le hl, List.append_assoc, List.replicate_append_replicate]
  congr 2
  omega

theorem take_drop_pad {l : List α} {off len k : Nat} (h : off + len ≤ l.length) :
    ((l ++ List.replicate k z).drop off).take len = (l.drop off).take len := by
  rw [List.drop_append_of_le_length (by omega), List.take_append_of_le_length]
  rw [List.length_drop]
  omega

end Sparse
