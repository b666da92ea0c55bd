import Mathlib.Data.Nat.ModEq

/-!
A flat memory of bytes with little-endian loads and stores of any width, and
the two block operations `fill` and `copy`. A memory `Holds` a list of bytes at an
address.
-/

namespace ByteMem

abbrev Mem := Nat → UInt8

/-- The `n` bytes at `a`, least significant byte first. -/
def load : Nat → Mem → Nat → Nat
  | 0, _, _ => 0
  | n + 1, m, a => (m a).toNat + 256 * load n m (a + 1)

def store (n : Nat) (m : Mem) (a v : Nat) : Mem := fun x =>
  if a ≤ x ∧ x < a + n then UInt8.ofNat (v / 256 ^ (x - a)) else m x

def fill (m : Mem) (a n : Nat) (b : UInt8) : Mem := fun x =>
  if a ≤ x ∧ x < a + n then b else m x

/-- Write a list of bytes, as `memcpy` from elsewhere does. -/
def put (m : Mem) (a : Nat) (bs : List UInt8) : Mem := fun x =>
  if a ≤ x ∧ x < a + bs.length then bs.getD (x - a) 0 else m x

def copy (m : Mem) (dst src n : Nat) : Mem := fun x =>
  if dst ≤ x ∧ x < dst + n then m (src + (x - dst)) else m x

section

variable {m m' : Mem} {a b n k v x : Nat} {c : UInt8}

theorem store_apply_of_disjoint (h : x < a ∨ a + n ≤ x) : store n m a v x = m x :=
  if_neg (by omega)

theorem fill_apply_of_disjoint (h : x < a ∨ a + n ≤ x) : fill m a n c x = m x :=
  if_neg (by omega)

theorem fill_apply_of_mem (h : a ≤ x ∧ x < a + n) : fill m a n c x = c :=
  if_pos h

theorem copy_apply_of_disjoint (h : x < a ∨ a + n ≤ x) : copy m a b n x = m x :=
  if_neg (by omega)

theorem copy_apply (h : x < n) : copy m a b n (a + x) = m (b + x) := by
  rw [copy, if_pos (by omega), Nat.add_sub_cancel_left]

theorem fill_store_comm (h : b + k ≤ a ∨ a + n ≤ b) :
    fill (store n m a v) b k c = store n (fill m b k c) a v := by
  funext x
  by_cases hx : b ≤ x ∧ x < b + k
  · rw [fill_apply_of_mem hx, store_apply_of_disjoint (by omega), fill_apply_of_mem hx]
  · rw [fill_apply_of_disjoint (by omega), store, store, fill_apply_of_disjoint (by omega)]

theorem fill_fill_comm {c d : UInt8} (h : b + k ≤ a ∨ a + n ≤ b) :
    fill (fill m a n d) b k c = fill (fill m b k c) a n d := by
  funext x
  by_cases hx : b ≤ x ∧ x < b + k
  · rw [fill_apply_of_mem hx, fill_apply_of_disjoint (by omega), fill_apply_of_mem hx]
  · rw [fill_apply_of_disjoint (by omega), fill, fill, fill_apply_of_disjoint (by omega)]

theorem load_congr (h : ∀ x, a ≤ x → x < a + n → m x = m' x) : load n m a = load n m' a := by
  induction n generalizing a with
  | zero => rfl
  | succ n ih =>
    rw [load, load, h a (Nat.le_refl a) (by omega), ih fun x hlo hhi => h x (by omega) (by omega)]

theorem load_lt (n : Nat) (m : Mem) (a : Nat) : load n m a < 256 ^ n := by
  induction n generalizing a with
  | zero => exact Nat.one_pos
  | succ n ih =>
    have hbyte := (m a).toNat_lt
    have hrest := ih (a + 1)
    rw [load, Nat.pow_succ]
    omega

theorem load_store_self (n : Nat) (m : Mem) (a v : Nat) :
    load n (store n m a v) a = v % 256 ^ n := by
  induction n generalizing m a v with
  | zero => rw [load, Nat.pow_zero, Nat.mod_one]
  | succ n ih =>
    have hfirst : store (n + 1) m a v a = UInt8.ofNat v := by
      rw [store, if_pos ⟨Nat.le_refl a, by omega⟩, Nat.sub_self, Nat.pow_zero, Nat.div_one]
    -- the remaining bytes are those of `v / 256`, one address further on
    have hrest : load n (store (n + 1) m a v) (a + 1) =
        load n (store n m (a + 1) (v / 256)) (a + 1) := by
      refine load_congr fun x hlo hhi => ?_
      rw [store, store, if_pos ⟨by omega, by omega⟩, if_pos ⟨hlo, hhi⟩, Nat.div_div_eq_div_mul,
        ← Nat.pow_succ', show (x - (a + 1)).succ = x - a by omega]
    rw [load, hfirst, hrest, ih, UInt8.toNat_ofNat']
    show v % 256 + 256 * (v / 256 % 256 ^ n) = v % 256 ^ (n + 1)
    rw [Nat.pow_succ', Nat.mod_mul]

theorem load_store_of_lt (hv : v < 256 ^ n) : load n (store n m a v) a = v := by
  rw [load_store_self, Nat.mod_eq_of_lt hv]

theorem load_store_of_disjoint (h : b + k ≤ a ∨ a + n ≤ b) :
    load k (store n m a v) b = load k m b :=
  load_congr fun _ hlo hhi => store_apply_of_disjoint (by omega)

theorem load_fill_of_disjoint (h : b + k ≤ a ∨ a + n ≤ b) :
    load k (fill m a n c) b = load k m b :=
  load_congr fun _ hlo hhi => fill_apply_of_disjoint (by omega)

theorem load_add (n k : Nat) (m : Mem) (a : Nat) :
    load (n + k) m a = load n m a + 256 ^ n * load k m (a + n) := by
  induction n generalizing a with
  | zero => simp [load]
  | succ n ih =>
    rw [Nat.succ_add, load, load, ih, Nat.pow_succ', Nat.mul_add, ← Nat.mul_assoc,
      show a + 1 + n = a + (n + 1) by omega, Nat.add_assoc]

theorem load_eq_zero (h : ∀ x, a ≤ x → x < a + n → m x = 0) : load n m a = 0 := by
  induction n generalizing a with
  | zero => rfl
  | succ n ih =>
    rw [load, h a (Nat.le_refl a) (by omega), ih fun x hlo hhi => h x (by omega) (by omega)]
    rfl

theorem load_fill_zero (h : a ≤ b ∧ b + k ≤ a + n) : load k (fill m a n 0) b = 0 :=
  load_eq_zero fun _ hlo hhi => fill_apply_of_mem (by omega)

end

/-- The `n` low bytes of `v`, least significant byte first. -/
def encode : Nat → Nat → List UInt8
  | 0, _ => []
  | n + 1, v => UInt8.ofNat v :: encode n (v / 256)

def slice : Nat → Mem → Nat → List UInt8
  | 0, _, _ => []
  | n + 1, m, a => m a :: slice n m (a + 1)

/-- The bytes at `a` and after it are those of the list. -/
def Holds (m : Mem) (a : Nat) (bs : List UInt8) : Prop := slice bs.length m a = bs

def ofList (bs : List UInt8) : Mem := fun i => bs.getD i 0

variable {m : Mem} {a n v : Nat} {bs cs : List UInt8} {i : Nat}

@[simp] theorem length_encode (n v : Nat) : (encode n v).length = n := by
  induction n generalizing v with
  | zero => rfl
  | succ n ih => rw [encode, List.length_cons, ih]

@[simp] theorem length_slice (n : Nat) (m : Mem) (a : Nat) : (slice n m a).length = n := by
  induction n generalizing a with
  | zero => rfl
  | succ n ih => rw [slice, List.length_cons, ih]

theorem getElem?_slice (hi : i < n) : (slice n m a)[i]? = some (m (a + i)) := by
  induction n generalizing a i with
  | zero => omega
  | succ n ih =>
    cases i with
    | zero => rfl
    | succ i =>
      rw [slice, List.getElem?_cons_succ, ih (by omega), Nat.add_assoc, Nat.add_comm 1]

theorem getElem?_of_holds (h : Holds m a bs) (hi : i < bs.length) :
    bs[i]? = some (m (a + i)) := by
  rw [← getElem?_slice hi, h]

@[simp] theorem holds_nil : Holds m a [] ↔ True := by simp [Holds, slice]

@[simp] theorem holds_cons {b : UInt8} : Holds m a (b :: bs) ↔ m a = b ∧ Holds m (a + 1) bs := by
  simp [Holds, slice]

@[simp] theorem holds_append :
    Holds m a (bs ++ cs) ↔ Holds m a bs ∧ Holds m (a + bs.length) cs := by
  induction bs generalizing a with
  | nil => simp
  | cons b bs ih =>
    rw [List.cons_append, holds_cons, holds_cons, ih, and_assoc, List.length_cons,
      Nat.add_assoc a 1, Nat.add_comm 1]

theorem holds_ofList (bs : List UInt8) : Holds (ofList bs) 0 bs := by
  have hgen : ∀ (xs ys : List UInt8), Holds (ofList (xs ++ ys)) xs.length ys := by
    intro xs ys
    induction ys generalizing xs with
    | nil => simp
    | cons b ys ih =>
      have hrest := ih (xs ++ [b])
      rw [List.append_assoc, List.singleton_append, List.length_append] at hrest
      exact holds_cons.mpr ⟨by simp [ofList], hrest⟩
  exact hgen [] bs

theorem load_of_holds (h : Holds m a (encode n v)) : load n m a = v % 256 ^ n := by
  induction n generalizing a v with
  | zero => rw [load, Nat.pow_zero, Nat.mod_one]
  | succ n ih =>
    obtain ⟨hfirst, hrest⟩ := holds_cons.mp h
    rw [load, hfirst, ih hrest, UInt8.toNat_ofNat']
    show v % 256 + 256 * (v / 256 % 256 ^ n) = v % 256 ^ (n + 1)
    rw [Nat.pow_succ', Nat.mod_mul]

theorem load_of_holds_of_lt (h : Holds m a (encode n v)) (hv : v < 256 ^ n) : load n m a = v := by
  rw [load_of_holds h, Nat.mod_eq_of_lt hv]

theorem holds_iff : Holds m a bs ↔ ∀ i < bs.length, bs.getD i 0 = m (a + i) := by
  induction bs generalizing a with
  | nil => simp
  | cons b bs ih =>
    rw [holds_cons, ih, List.length_cons]
    constructor
    · intro h i hi
      cases i with
      | zero => exact h.1.symm
      | succ i =>
        rw [List.getD_cons_succ, h.2 i (by omega), Nat.add_assoc, Nat.add_comm 1]
    · intro h
      refine ⟨(h 0 (by omega)).symm, fun i hi => ?_⟩
      rw [Nat.add_assoc, Nat.add_comm 1, ← h (i + 1) (by omega), List.getD_cons_succ]

theorem holds_congr {m' : Mem} (h : ∀ x, a ≤ x → x < a + bs.length → m x = m' x) :
    Holds m a bs ↔ Holds m' a bs := by
  rw [holds_iff, holds_iff]
  exact forall₂_congr fun i hi => by rw [h (a + i) (by omega) (by omega)]

theorem holds_slice (n : Nat) (m : Mem) (a : Nat) : Holds m a (slice n m a) := by
  rw [Holds, length_slice]

theorem getD_encode (hi : i < n) : (encode n v).getD i 0 = UInt8.ofNat (v / 256 ^ i) := by
  induction n generalizing v i with
  | zero => omega
  | succ n ih =>
    cases i with
    | zero => rw [encode, List.getD_cons_zero, Nat.pow_zero, Nat.div_one]
    | succ i =>
      rw [encode, List.getD_cons_succ, ih (by omega), Nat.div_div_eq_div_mul, Nat.pow_succ']

@[simp] theorem holds_put_self : Holds (put m a bs) a bs := by
  refine holds_iff.mpr fun i hi => ?_
  rw [put, if_pos (by omega), Nat.add_sub_cancel_left]

@[simp] theorem holds_store_self : Holds (store n m a v) a (encode n v) := by
  refine holds_iff.mpr fun i hi => ?_
  rw [length_encode] at hi
  rw [store, if_pos (by omega), Nat.add_sub_cancel_left, getD_encode hi]

@[simp] theorem holds_fill_self {c : UInt8} : Holds (fill m a n c) a (List.replicate n c) := by
  refine holds_iff.mpr fun i hi => ?_
  rw [List.length_replicate] at hi
  rw [fill_apply_of_mem (by omega), List.getD_eq_getElem?_getD, List.getElem?_replicate_of_lt hi,
    Option.getD_some]

theorem holds_put_of_disjoint {b : Nat} (h : b + cs.length ≤ a ∨ a + bs.length ≤ b) :
    Holds (put m a bs) b cs ↔ Holds m b cs :=
  holds_congr fun x hlo hhi => if_neg (by omega)

theorem holds_store_of_disjoint {b : Nat} (h : b + bs.length ≤ a ∨ a + n ≤ b) :
    Holds (store n m a v) b bs ↔ Holds m b bs :=
  holds_congr fun x hlo hhi => store_apply_of_disjoint (by omega)

theorem holds_fill_of_disjoint {b : Nat} {c : UInt8} (h : b + bs.length ≤ a ∨ a + n ≤ b) :
    Holds (fill m a n c) b bs ↔ Holds m b bs :=
  holds_congr fun x hlo hhi => fill_apply_of_disjoint (by omega)

theorem eq_of_holds {m' : Mem} (h : Holds m a bs) (h' : Holds m' a bs) :
    ∀ x, a ≤ x → x < a + bs.length → m x = m' x := by
  intro x hlo hhi
  obtain ⟨i, rfl⟩ := Nat.exists_eq_add_of_le hlo
  rw [← holds_iff.mp h i (by omega), holds_iff.mp h' i (by omega)]

theorem slice_eq_iff {m' : Mem} :
    slice n m a = slice n m' a ↔ ∀ x, a ≤ x → x < a + n → m x = m' x := by
  constructor
  · intro h
    have hx := eq_of_holds (holds_slice n m a) (h ▸ holds_slice n m' a)
    rwa [length_slice] at hx
  · intro h
    have hholds := (@holds_congr m a (slice n m' a) m' (by rwa [length_slice])).mpr
      (holds_slice n m' a)
    rwa [Holds, length_slice] at hholds

theorem holds_store_one (i : Nat) (h : Holds m a bs) :
    Holds (store 1 m (a + i) v) a (bs.set i (UInt8.ofNat v)) := by
  refine holds_iff.mpr fun j hj => ?_
  rw [List.length_set] at hj
  by_cases hij : i = j
  · subst hij
    rw [store, if_pos (by omega), Nat.sub_self, Nat.pow_zero, Nat.div_one,
      List.getD_eq_getElem?_getD, List.getElem?_set_self hj, Option.getD_some]
  · rw [store_apply_of_disjoint (by omega), List.getD_eq_getElem?_getD,
      List.getElem?_set_ne hij, ← List.getD_eq_getElem?_getD, holds_iff.mp h j hj]

theorem store_two (m : Mem) (a v : Nat) :
    store 2 m a v = store 1 (store 1 m a v) (a + 1) (v / 256) := by
  funext x
  by_cases hfirst : x = a
  · subst hfirst
    simp [store]
  · by_cases hsecond : x = a + 1
    · subst hsecond
      simp [store]
    · repeat rw [store_apply_of_disjoint (by omega)]

end ByteMem
