import Mathlib.Algebra.Group.Nat.Defs
import Mathlib.Data.Nat.Find

/-!
Programs that talk to a device through registers.

A `Dialog` reads registers, whose values the device chooses, and makes writes. It is
run on the answers of the device, and has a value, a trace, and the answers that it
has left.

Drivers wait in two ways: `poll` counts the reads and says whether one of them ended
it, `spin` returns its counter, which is not zero when it ran out, for it has wrapped
around by then.
-/

namespace Device

inductive Event (ρ ω : Type) where
  | read (r : ρ) (v : Nat)
  | write (w : ω)
  deriving DecidableEq, Repr

abbrev Answers := Nat → Nat

/-- A program that talks to a device with registers `ρ`, by writes of type `ω`. -/
inductive Dialog (ρ ω α : Type) where
  | ret (a : α)
  | ask (bits : Nat) (r : ρ) (k : Nat → Dialog ρ ω α)
  | tell (w : ω) (k : Dialog ρ ω α)

namespace Dialog

variable {ρ ω α β : Type}

def bind : Dialog ρ ω α → (α → Dialog ρ ω β) → Dialog ρ ω β
  | ret a, f => f a
  | ask bits r k, f => ask bits r fun v => (k v).bind f
  | tell w k, f => tell w (k.bind f)

instance : Monad (Dialog ρ ω) where
  pure := ret
  bind := bind

def read (bits : Nat) (r : ρ) : Dialog ρ ω Nat := ask bits r ret

def write (w : ω) : Dialog ρ ω Unit := tell w (ret ())

def value : Dialog ρ ω α → Answers → α
  | ret a, _ => a
  | ask bits _ k, s => (k (s 0 % 2 ^ bits)).value fun i => s (i + 1)
  | tell _ k, s => k.value s

def trace : Dialog ρ ω α → Answers → List (Event ρ ω)
  | ret _, _ => []
  | ask bits r k, s =>
    .read r (s 0 % 2 ^ bits) :: (k (s 0 % 2 ^ bits)).trace fun i => s (i + 1)
  | tell w k, s => .write w :: k.trace s

def rest : Dialog ρ ω α → Answers → Answers
  | ret _, s => s
  | ask bits _ k, s => (k (s 0 % 2 ^ bits)).rest fun i => s (i + 1)
  | tell _ k, s => k.rest s

def writes : Dialog ρ ω α → Answers → List ω
  | ret _, _ => []
  | ask bits _ k, s => (k (s 0 % 2 ^ bits)).writes fun i => s (i + 1)
  | tell w k, s => w :: k.writes s

section

variable {p q : Dialog ρ ω α} {f : α → Dialog ρ ω β} {s : Answers} {c : Prop}

@[simp] theorem value_pure (a : α) : (pure a : Dialog ρ ω α).value s = a := (rfl)

@[simp] theorem trace_pure (a : α) : (pure a : Dialog ρ ω α).trace s = [] := (rfl)

@[simp] theorem writes_pure (a : α) : (pure a : Dialog ρ ω α).writes s = [] := (rfl)

@[simp] theorem value_read (bits : Nat) (r : ρ) :
    (read bits r : Dialog ρ ω Nat).value s = s 0 % 2 ^ bits := (rfl)

@[simp] theorem trace_read (bits : Nat) (r : ρ) :
    (read bits r : Dialog ρ ω Nat).trace s = [.read r (s 0 % 2 ^ bits)] := (rfl)

@[simp] theorem rest_read (bits : Nat) (r : ρ) :
    (read bits r : Dialog ρ ω Nat).rest s = fun i => s (i + 1) := (rfl)

@[simp] theorem writes_read (bits : Nat) (r : ρ) :
    (read bits r : Dialog ρ ω Nat).writes s = [] := (rfl)

@[simp] theorem trace_write (w : ω) : (write w : Dialog ρ ω Unit).trace s = [.write w] := (rfl)

@[simp] theorem rest_write (w : ω) : (write w : Dialog ρ ω Unit).rest s = s := (rfl)

@[simp] theorem writes_write (w : ω) : (write w : Dialog ρ ω Unit).writes s = [w] := (rfl)

@[simp] theorem value_bind : (p >>= f).value s = (f (p.value s)).value (p.rest s) := by
  change (p.bind f).value s = _
  induction p generalizing s with
  | ret a => rfl
  | ask bits r k ih => exact ih _
  | tell w k ih => exact ih

@[simp] theorem rest_bind : (p >>= f).rest s = (f (p.value s)).rest (p.rest s) := by
  change (p.bind f).rest s = _
  induction p generalizing s with
  | ret a => rfl
  | ask bits r k ih => exact ih _
  | tell w k ih => exact ih

@[simp] theorem trace_bind :
    (p >>= f).trace s = p.trace s ++ (f (p.value s)).trace (p.rest s) := by
  change (p.bind f).trace s = _
  induction p generalizing s with
  | ret a => rfl
  | ask bits r k ih => exact congrArg _ (ih _)
  | tell w k ih => exact congrArg _ ih

@[simp] theorem writes_bind :
    (p >>= f).writes s = p.writes s ++ (f (p.value s)).writes (p.rest s) := by
  change (p.bind f).writes s = _
  induction p generalizing s with
  | ret a => rfl
  | ask bits r k ih => exact ih _
  | tell w k ih => exact congrArg _ ih

@[simp] theorem value_ite [Decidable c] :
    (if c then p else q).value s = if c then p.value s else q.value s := by
  split <;> rfl

@[simp] theorem trace_ite [Decidable c] :
    (if c then p else q).trace s = if c then p.trace s else q.trace s := by
  split <;> rfl

@[simp] theorem writes_ite [Decidable c] :
    (if c then p else q).writes s = if c then p.writes s else q.writes s := by
  split <;> rfl

@[simp] theorem rest_const (p : Dialog ρ ω α) (c : Nat) : p.rest (fun _ => c) = fun _ => c := by
  induction p with
  | ret a => rfl
  | ask bits r k ih => exact ih _
  | tell w k ih => exact ih

end

/-- The result and the number of reads, `i` of which were made before, on a device that
answers the read with number `j` of the register `r` by `answer j r`. -/
def timed (answer : Nat → ρ → Nat) : Dialog ρ ω α → Nat → α × Nat
  | ret a, i => (a, i)
  | ask bits r k, i => (k (answer i r % 2 ^ bits)).timed answer (i + 1)
  | tell _ k, i => k.timed answer i

section

variable {answer : Nat → ρ → Nat} {p : Dialog ρ ω α} {f : α → Dialog ρ ω β} {i : Nat}

@[simp] theorem timed_pure (a : α) : (pure a : Dialog ρ ω α).timed answer i = (a, i) := (rfl)

@[simp] theorem timed_read (bits : Nat) (r : ρ) :
    (read bits r : Dialog ρ ω Nat).timed answer i = (answer i r % 2 ^ bits, i + 1) := (rfl)

@[simp] theorem timed_bind :
    (p >>= f).timed answer i = (f (p.timed answer i).1).timed answer (p.timed answer i).2 := by
  change (p.bind f).timed answer i = _
  induction p generalizing i with
  | ret a => rfl
  | ask bits r k ih => exact ih _
  | tell w k ih => exact ih

end

theorem first_or_forall (p : Nat → Prop) [DecidablePred p] (n : Nat) :
    (∃ j < n, (∀ i < j, ¬ p i) ∧ p j) ∨ ∀ i < n, ¬ p i := by
  by_cases hex : ∃ i, i < n ∧ p i
  · obtain ⟨hj, hp⟩ := Nat.find_spec hex
    exact .inl ⟨_, hj, fun i hi hpi => Nat.find_min hex hi ⟨Nat.lt_trans hi hj, hpi⟩, hp⟩
  · exact .inr fun i hi hpi => hex ⟨i, hi, hpi⟩

/-- `while (n--) { v = read(r); if (stop) return; }`: the result of the read that
ended the loop, if there was one. -/
def poll (bits : Nat) (r : ρ) (stop : Nat → Option β) : Nat → Dialog ρ ω (Option β)
  | 0 => pure none
  | n + 1 => do
    let v ← read bits r
    match stop v with
    | some b => pure (some b)
    | none => poll bits r stop n

/-- `while (!done(read(r)) && t--);` for a counter of 32 bits: its value after the
loop. -/
def spin (bits : Nat) (r : ρ) (done : Nat → Bool) : Nat → Dialog ρ ω Nat
  | 0 => do
    let v ← read bits r
    pure (if done v then 0 else 2 ^ 32 - 1)
  | t + 1 => do
    let v ← read bits r
    if done v then pure (t + 1) else spin bits r done t

/-- The first `k` answers, read from one register. -/
def readEvents (bits : Nat) (r : ρ) (s : Answers) (k : Nat) : List (Event ρ ω) :=
  (List.range k).map fun i => .read r (s i % 2 ^ bits)

section

variable {bits n t j k : Nat} {r : ρ} {stop : Nat → Option β} {done : Nat → Bool} {s : Answers}
  {b : β}

theorem readEvents_succ : (readEvents bits r s (k + 1) : List (Event ρ ω)) =
      .read r (s 0 % 2 ^ bits) :: readEvents bits r (fun i => s (i + 1)) k := by
  rw [readEvents, List.range_succ_eq_map, List.map_cons, List.map_map]
  rfl

theorem mem_readEvents {v : Nat} :
    (.read r v : Event ρ ω) ∈ readEvents bits r s k ↔ ∃ i < k, s i % 2 ^ bits = v := by
  simp [readEvents]

theorem poll_of_first (hj : j < n) (hnone : ∀ i < j, stop (s i % 2 ^ bits) = none)
    (hstop : stop (s j % 2 ^ bits) = some b) :
    (poll bits r stop n : Dialog ρ ω (Option β)).value s = some b ∧
      (poll bits r stop n : Dialog ρ ω (Option β)).trace s = readEvents bits r s (j + 1) ∧
      (poll bits r stop n : Dialog ρ ω (Option β)).rest s = fun i => s (i + (j + 1)) := by
  induction n generalizing s j with
  | zero => omega
  | succ n ih =>
    rw [poll, value_bind, trace_bind, rest_bind, value_read, trace_read, rest_read, readEvents_succ]
    cases j with
    | zero =>
      rw [hstop]
      exact ⟨rfl, rfl, rfl⟩
    | succ j =>
      obtain ⟨hvalue, htrace, hrest⟩ := ih (s := fun i => s (i + 1)) (Nat.lt_of_succ_lt_succ hj)
        (fun i hi => hnone (i + 1) (Nat.succ_lt_succ hi)) hstop
      rw [hnone 0 (Nat.succ_pos j)]
      exact ⟨hvalue, congrArg _ htrace, hrest⟩

theorem poll_of_forall (hnone : ∀ i < n, stop (s i % 2 ^ bits) = none) :
    (poll bits r stop n : Dialog ρ ω (Option β)).value s = none ∧
      (poll bits r stop n : Dialog ρ ω (Option β)).trace s = readEvents bits r s n := by
  induction n generalizing s with
  | zero => exact ⟨rfl, rfl⟩
  | succ n ih =>
    obtain ⟨hvalue, htrace⟩ := ih (s := fun i => s (i + 1))
      fun i hi => hnone (i + 1) (Nat.succ_lt_succ hi)
    rw [poll, value_bind, trace_bind, value_read, trace_read, rest_read, readEvents_succ,
      hnone 0 (Nat.succ_pos n)]
    exact ⟨hvalue, congrArg _ htrace⟩

@[simp] theorem writes_poll : (poll bits r stop n : Dialog ρ ω (Option β)).writes s = [] := by
  induction n generalizing s with
  | zero => rfl
  | succ n ih =>
    rw [poll, writes_bind, writes_read, List.nil_append]
    cases stop ((read bits r : Dialog ρ ω Nat).value s) with
    | some b => rfl
    | none => exact ih

@[simp] theorem writes_spin : (spin bits r done t : Dialog ρ ω Nat).writes s = [] := by
  induction t generalizing s with
  | zero => rfl
  | succ t ih =>
    rw [spin, writes_bind, writes_read, List.nil_append]
    split
    · rfl
    · exact ih

theorem spin_of_first (hj : j ≤ t) (hnone : ∀ i < j, done (s i % 2 ^ bits) = false)
    (hdone : done (s j % 2 ^ bits) = true) : (spin bits r done t : Dialog ρ ω Nat).value s = t - j ∧
      (spin bits r done t : Dialog ρ ω Nat).trace s = readEvents bits r s (j + 1) := by
  induction t generalizing s j with
  | zero =>
    obtain rfl : j = 0 := Nat.le_zero.mp hj
    rw [spin, value_bind, trace_bind, value_read, trace_read, hdone, readEvents_succ]
    exact ⟨rfl, rfl⟩
  | succ t ih =>
    rw [spin, value_bind, trace_bind, value_read, trace_read, rest_read, readEvents_succ]
    cases j with
    | zero =>
      rw [hdone]
      exact ⟨rfl, rfl⟩
    | succ j =>
      obtain ⟨hvalue, htrace⟩ := ih (s := fun i => s (i + 1)) (Nat.le_of_succ_le_succ hj)
        (fun i hi => hnone (i + 1) (Nat.succ_lt_succ hi)) hdone
      rw [hnone 0 (Nat.succ_pos j), if_neg Bool.false_ne_true, hvalue, htrace]
      exact ⟨(Nat.succ_sub_succ t j).symm, rfl⟩

theorem spin_of_forall (hnone : ∀ i ≤ t, done (s i % 2 ^ bits) = false) :
    (spin bits r done t : Dialog ρ ω Nat).value s = 2 ^ 32 - 1 ∧
      (spin bits r done t : Dialog ρ ω Nat).trace s = readEvents bits r s (t + 1) := by
  induction t generalizing s with
  | zero =>
    rw [spin, value_bind, trace_bind, value_read, trace_read, hnone 0 (Nat.le_refl 0),
      readEvents_succ]
    exact ⟨rfl, rfl⟩
  | succ t ih =>
    obtain ⟨hvalue, htrace⟩ := ih (s := fun i => s (i + 1))
      fun i hi => hnone (i + 1) (Nat.succ_le_succ hi)
    rw [spin, value_bind, trace_bind, value_read, trace_read, rest_read, readEvents_succ,
      hnone 0 (Nat.zero_le _), if_neg Bool.false_ne_true, hvalue, htrace]
    exact ⟨rfl, rfl⟩

/-- **`spin` followed by a test of its counter.** That the test passes means that the
condition was read exactly if the device lets it come true in time. -/
theorem spin_honest_iff : ((spin bits r done t : Dialog ρ ω Nat).value s ≠ 0 →
      ∃ v, .read r v ∈ (spin bits r done t : Dialog ρ ω Nat).trace s ∧ done v = true) ↔
      ∃ k ≤ t, done (s k % 2 ^ bits) = true := by
  obtain ⟨j, hj, hnone, hdone⟩ | hnone :=
    first_or_forall (fun k => done (s k % 2 ^ bits) = true) (t + 1)
  · have hj : j ≤ t := Nat.le_of_lt_succ hj
    have htrace : (spin bits r done t : Dialog ρ ω Nat).trace s = _ :=
      (spin_of_first hj (fun i hi => Bool.eq_false_iff.mpr (hnone i hi)) hdone).2
    refine iff_of_true (fun _ => ⟨_, ?_, hdone⟩) ⟨j, hj, hdone⟩
    rw [htrace]
    exact mem_readEvents.mpr ⟨j, Nat.lt_succ_self j, rfl⟩
  · obtain ⟨hvalue, htrace⟩ : (spin bits r done t : Dialog ρ ω Nat).value s = _ ∧ _ :=
      spin_of_forall fun i hi => Bool.eq_false_iff.mpr (hnone i (Nat.lt_succ_of_le hi))
    constructor
    · intro h
      obtain ⟨v, hv, hdone⟩ := h (by rw [hvalue]; decide)
      rw [htrace] at hv
      obtain ⟨k, hk, rfl⟩ := mem_readEvents.mp hv
      exact absurd hdone (hnone k hk)
    · intro h
      obtain ⟨k, hk, hdone⟩ := h
      exact absurd hdone (hnone k (Nat.lt_succ_of_le hk))

end

/-- Two programs read and write the same, and their results are related. What the one
knows and the other does not can then not be seen by the device. -/
inductive Rel (R : α → β → Prop) : Dialog ρ ω α → Dialog ρ ω β → Prop where
  | ret {a b} (h : R a b) : Rel R (ret a) (ret b)
  | ask {bits r k k'} (h : ∀ v, Rel R (k v) (k' v)) : Rel R (ask bits r k) (ask bits r k')
  | tell {w k k'} (h : Rel R k k') : Rel R (tell w k) (tell w k')

section

variable {γ δ : Type} {R : α → β → Prop} {Q : γ → δ → Prop} {p p' : Dialog ρ ω α}
  {q q' : Dialog ρ ω β} {s : Answers}

theorem rel_pure {a : α} {b : β} (h : R a b) : Rel R (pure a : Dialog ρ ω α) (pure b) := .ret h

theorem rel_refl (p : Dialog ρ ω α) : Rel Eq p p := by
  induction p with
  | ret a => exact .ret rfl
  | ask bits r k ih => exact .ask ih
  | tell w k ih => exact .tell ih

theorem Rel.bind {f : α → Dialog ρ ω γ} {g : β → Dialog ρ ω δ} (h : Rel R p q)
    (hfg : ∀ a b, R a b → Rel Q (f a) (g b)) : Rel Q (p >>= f) (q >>= g) := by
  change Rel Q (p.bind f) (q.bind g)
  induction h with
  | ret hab => exact hfg _ _ hab
  | ask _ ih => exact .ask ih
  | tell _ ih => exact .tell ih

theorem rel_bind_left {f g : α → Dialog ρ ω γ} {Q : γ → γ → Prop} (p : Dialog ρ ω α)
    (hfg : ∀ a, Rel Q (f a) (g a)) : Rel Q (p >>= f) (p >>= g) :=
  (rel_refl p).bind fun a _ hab => hab ▸ hfg a

theorem rel_ite {c : Prop} [Decidable c] (ht : c → Rel R p q) (hf : ¬ c → Rel R p' q') :
    Rel R (if c then p else p') (if c then q else q') := by
  split
  case isTrue hc => exact ht hc
  case isFalse hc => exact hf hc

theorem Rel.trace_eq (h : Rel R p q) : p.trace s = q.trace s := by
  induction h generalizing s with
  | ret _ => rfl
  | ask _ ih => exact congrArg _ (ih _)
  | tell _ ih => exact congrArg _ ih

end

end Dialog

variable {ρ ω : Type} [DecidableEq ρ] {r r' : ρ} {s : Answers} {events events' : List (Event ρ ω)}
  {v : Nat}

def Event.readOf (r : ρ) : Event ρ ω → Option Nat
  | read r' v => if r' = r then some v else none
  | write _ => none

/-- The value of the last read of `r`, if there was one. -/
def lastRead (r : ρ) (events : List (Event ρ ω)) : Option Nat :=
  (events.filterMap (Event.readOf r)).getLast?

theorem lastRead_cons_of_ne (h : r' ≠ r) :
    lastRead r (.read r' v :: events) = lastRead r events := by
  have hnone : (.read r' v : Event ρ ω).readOf r = none := if_neg h
  rw [lastRead, List.filterMap_cons_none hnone, lastRead]

theorem lastRead_append_left (h : lastRead r events' = none) :
    lastRead r (events ++ events') = lastRead r events := by
  rw [lastRead, List.getLast?_eq_none_iff] at h
  rw [lastRead, List.filterMap_append, h, List.append_nil, lastRead]

theorem lastRead_append_right (h : lastRead r events' = some v) :
    lastRead r (events ++ events') = some v := by
  rw [lastRead] at h ⊢
  rw [List.filterMap_append, List.getLast?_append, h, Option.some_or]

theorem lastRead_readEvents (bits k : Nat) :
    lastRead r (Dialog.readEvents bits r s (k + 1) : List (Event ρ ω)) = some (s k % 2 ^ bits) := by
  have hread : ∀ i : Nat, (Event.read r (s i % 2 ^ bits) : Event ρ ω).readOf r =
    some (s i % 2 ^ bits) := fun i => if_pos rfl
  simp [lastRead, Dialog.readEvents, List.filterMap_map, List.range_succ, hread]

end Device
