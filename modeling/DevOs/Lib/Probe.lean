import DevOs.Lib.ByteMem

/-!
Computations that read a buffer, with a record of what they read.

A `Probe α` is given the memory from the first byte of the buffer on and returns a
value and its accesses: the index of each byte it reads, and each length it computes,
as an integer. `Safe n` says that all of them stay within a buffer of `n` bytes.
-/

namespace Buffer

open ByteMem

inductive Access where
  | byte (i : Nat)
  | length (n : Int)
  deriving DecidableEq, Repr

/-- The access stays within a buffer of `n` bytes. -/
def Access.Within (n : Nat) : Access → Prop
  | .byte i => i < n
  | .length k => 0 ≤ k ∧ k ≤ n

instance (n : Nat) : DecidablePred (Access.Within n)
  | .byte i => inferInstanceAs (Decidable (i < n))
  | .length k => inferInstanceAs (Decidable (0 ≤ k ∧ k ≤ n))

def Probe (α : Type) : Type := Mem → α × List Access

namespace Probe

variable {α β : Type}

def value (p : Probe α) (m : Mem) : α := (p m).1

def trace (p : Probe α) (m : Mem) : List Access := (p m).2

instance : Monad Probe where
  pure a := fun _ => (a, [])
  bind p f := fun m => ((f (p m).1 m).1, (p m).2 ++ (f (p m).1 m).2)

/-- Every access stays within a buffer of `n` bytes. -/
def Safe (n : Nat) (p : Probe α) (m : Mem) : Prop := ∀ a ∈ p.trace m, a.Within n

instance (n : Nat) (p : Probe α) (m : Mem) : Decidable (p.Safe n m) :=
  inferInstanceAs (Decidable (∀ a ∈ p.trace m, a.Within n))

def byte (i : Nat) : Probe UInt8 := fun m => (m i, [.byte i])

def length (n : Int) : Probe Unit := fun _ => ((), [.length n])

/-- Read a number of `k` bytes, least significant byte first. -/
def word : Nat → Nat → Probe Nat
  | 0, _ => pure 0
  | k + 1, a => do
    let b ← byte a
    let rest ← word k (a + 1)
    pure (b.toNat + 256 * rest)

def bytes : Nat → Nat → Probe (List UInt8)
  | 0, _ => pure []
  | k + 1, a => do
    let b ← byte a
    let rest ← bytes k (a + 1)
    pure (b :: rest)

/-- Read the bytes with index `f 0`, ..., `f (k - 1)`. -/
def gather (f : Nat → Nat) : Nat → Probe (List UInt8)
  | 0 => pure []
  | k + 1 => do
    let init ← gather f k
    let b ← byte (f k)
    pure (init ++ [b])

section

variable {p q : Probe α} {f : α → Probe β} {m : Mem} {n : Nat}

-- not for `dsimp`: a condition in an `if` is to be rewritten with its decision

@[simp] theorem value_pure (a : α) : (pure a : Probe α).value m = a := (rfl)

@[simp] theorem value_bind : (p >>= f).value m = (f (p.value m)).value m := (rfl)

@[simp] theorem value_ite {c : Prop} [Decidable c] :
    (if c then p else q).value m = if c then p.value m else q.value m := by
  split <;> rfl

@[simp] theorem value_byte (i : Nat) : (byte i).value m = m i := (rfl)

@[simp] theorem value_word (k a : Nat) : (word k a).value m = load k m a := by
  induction k generalizing a with
  | zero => rfl
  | succ k ih => simp only [word, load, value_bind, value_byte, value_pure, ih]

@[simp] theorem value_bytes (k a : Nat) : (bytes k a).value m = slice k m a := by
  induction k generalizing a with
  | zero => rfl
  | succ k ih => simp only [bytes, slice, value_bind, value_byte, value_pure, ih]

@[simp] theorem value_gather (f : Nat → Nat) (k : Nat) :
    (gather f k).value m = (List.range k).map fun j => m (f j) := by
  induction k with
  | zero => rfl
  | succ k ih =>
    simp only [gather, value_bind, value_byte, value_pure, ih, List.range_succ, List.map_append,
      List.map_cons, List.map_nil]

@[simp] theorem safe_pure (a : α) : (pure a : Probe α).Safe n m ↔ True :=
  iff_true_intro (List.forall_mem_nil _)

@[simp] theorem safe_bind : (p >>= f).Safe n m ↔ p.Safe n m ∧ (f (p.value m)).Safe n m := by
  have htrace : (p >>= f).trace m = p.trace m ++ (f (p.value m)).trace m := rfl
  simp only [Safe, htrace, List.forall_mem_append]

@[simp] theorem safe_ite {c : Prop} [Decidable c] :
    (if c then p else q).Safe n m ↔ (c → p.Safe n m) ∧ (¬ c → q.Safe n m) := by
  split <;> simp [*]

@[simp] theorem safe_byte (i : Nat) : (byte i).Safe n m ↔ i < n := List.forall_mem_singleton

@[simp] theorem safe_length (k : Int) : (length k).Safe n m ↔ 0 ≤ k ∧ k ≤ n :=
  List.forall_mem_singleton

@[simp] theorem safe_word (k a : Nat) : (word (k + 1) a).Safe n m ↔ a + k < n := by
  induction k generalizing a with
  | zero => simp [word]
  | succ k ih =>
    rw [word, safe_bind, safe_byte]
    simp only [safe_bind, ih, safe_pure, and_true]
    omega

@[simp] theorem safe_bytes (k a : Nat) : (bytes k a).Safe n m ↔ k = 0 ∨ a + k ≤ n := by
  induction k generalizing a with
  | zero => simp [bytes]
  | succ k ih =>
    simp only [bytes, safe_bind, safe_byte, ih, safe_pure, and_true]
    omega

@[simp] theorem safe_gather (f : Nat → Nat) (k : Nat) :
    (gather f k).Safe n m ↔ ∀ j < k, f j < n := by
  induction k with
  | zero => simp [gather]
  | succ k ih =>
    simp only [gather, safe_bind, safe_byte, safe_pure, and_true, ih]
    exact Nat.forall_lt_succ_right.symm

end

end Probe

end Buffer
