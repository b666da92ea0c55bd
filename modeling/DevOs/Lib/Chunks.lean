import DevOs.Lib.Dialog
import Mathlib.Data.List.Range

/-!
Requests that a driver makes in parts of limited size.

`chunks k` cuts an interval into parts of at most `k`, and
`inChunks` is the loop that makes one pass for each. What the device makes of it is
what it makes of the passes, up to the first that fails.
-/

namespace Device

variable {ρ ω σ τ γ : Type}

/-- The parts of `count` elements from `start` on, of at most `k` elements each. -/
def chunks (k : Nat) : Nat → Nat → Nat → List (Nat × Nat)
  | 0, _, _ => []
  | fuel + 1, start, count =>
    if 0 < count then
      (start, min k count) :: chunks k fuel (start + min k count) (count - min k count)
    else []

section

variable {k fuel start count limit : Nat} {f : Nat → Nat}

theorem chunks_zero : chunks k fuel start 0 = [] := by
  cases fuel <;> rfl

theorem chunks_of_pos (h : 0 < count) : chunks k (fuel + 1) start count =
      (start, min k count) :: chunks k fuel (start + min k count) (count - min k count) := by
  rw [chunks, if_pos h]

theorem pos_of_mem_chunks (hk : 0 < k) {c : Nat × Nat} (h : c ∈ chunks k fuel start count) :
    0 < c.2 := by
  induction fuel generalizing start count with
  | zero => simp [chunks] at h
  | succ fuel ih =>
    by_cases hpos : 0 < count
    · rw [chunks_of_pos hpos, List.mem_cons] at h
      obtain rfl | hrest := h
      · exact Nat.lt_min.mpr ⟨hk, hpos⟩
      · exact ih hrest
    · rw [Nat.eq_zero_of_not_pos hpos, chunks_zero] at h
      simp at h

theorem flatMap_range'_chunks (hk : 0 < k) (hfuel : count ≤ fuel) :
    (chunks k fuel start count).flatMap (fun c => List.range' c.1 c.2) =
      List.range' start count := by
  induction fuel generalizing start count with
  | zero =>
    rw [Nat.le_zero.mp hfuel]
    rfl
  | succ fuel ih =>
    by_cases hpos : 0 < count
    · rw [chunks_of_pos hpos, List.flatMap_cons, ih (by omega), List.range'_append_1]
      congr 1
      omega
    · rw [Nat.eq_zero_of_not_pos hpos, chunks_zero]
      rfl

theorem chunks_below_iff (hk : 0 < k) (hpos : 0 < count) (hfuel : count ≤ fuel) :
    (∀ c ∈ chunks k fuel start count, c.1 < limit) ↔ start + k * ((count - 1) / k) < limit := by
  induction fuel generalizing start count with
  | zero => omega
  | succ fuel ih =>
    rw [chunks_of_pos hpos, List.forall_mem_cons]
    by_cases hlast : count ≤ k
    · have hmin : min k count = count := Nat.min_eq_right hlast
      rw [hmin, Nat.sub_self, chunks_zero, Nat.div_eq_of_lt (by omega)]
      simp
    · have hmin : min k count = k := Nat.min_eq_left (by omega)
      have hdiv : (count - 1) / k = (count - k - 1) / k + 1 := by
        rw [← Nat.add_div_right _ hk]
        congr 1
        omega
      rw [hmin, ih (by omega) (by omega), hdiv, Nat.mul_succ]
      omega

theorem flatMap_moved_iff {cs : List (Nat × Nat)} (hcs : ∀ c ∈ cs, 0 < c.2) :
    cs.flatMap (fun c => List.range' (f c.1) c.2) = cs.flatMap (fun c => List.range' c.1 c.2) ↔
      ∀ c ∈ cs, f c.1 = c.1 := by
  induction cs with
  | nil => simp
  | cons c cs ih =>
    obtain ⟨hc, hrest⟩ := List.forall_mem_cons.mp hcs
    obtain ⟨n, hn⟩ := Nat.exists_eq_succ_of_ne_zero (Nat.ne_of_gt hc)
    rw [List.forall_mem_cons, ← ih hrest, List.flatMap_cons, List.flatMap_cons, hn]
    constructor
    · intro h
      obtain ⟨hfirst, hrest⟩ := List.append_inj h (by simp)
      rw [List.range'_succ, List.range'_succ] at hfirst
      exact ⟨(List.cons.inj hfirst).1, hrest⟩
    · intro h
      rw [h.1, h.2]

end

/-- What a device, in a state `t`, makes of a sequence of writes. -/
def heard (step : τ → ω → τ × List γ) : τ → List ω → List γ
  | _, [] => []
  | t, w :: ws => (step t w).2 ++ heard step (step t w).1 ws

def settled (step : τ → ω → τ × List γ) (t : τ) (ws : List ω) : τ :=
  ws.foldl (fun t w => (step t w).1) t

theorem heard_append (step : τ → ω → τ × List γ) (t : τ) (us ws : List ω) :
    heard step t (us ++ ws) = heard step t us ++ heard step (settled step t us) ws := by
  induction us generalizing t with
  | nil => rfl
  | cons u us ih =>
    rw [List.cons_append, heard, heard, ih, List.append_assoc]
    rfl

/-- `while (count > 0) { n = count > k ? k : count; pass; count -= n; }`, where a
pass fails or goes on in a new state. -/
def inChunks (k : Nat) (pass : σ → Nat → Dialog ρ ω (Option σ)) :
    Nat → σ → Nat → Dialog ρ ω (Option σ)
  | 0, x, _ => pure (some x)
  | fuel + 1, x, count =>
    if 0 < count then do
      match ← pass x (min k count) with
      | none => pure none
      | some x' => inChunks k pass fuel x' (count - min k count)
    else pure (some x)

variable {k fuel start count stop : Nat} {x : σ} {pass : σ → Nat → Dialog ρ ω (Option σ)}
  {step : τ → ω → τ × List γ} {At : σ → Nat → Prop} {covers : Nat → Nat → List γ}

theorem inChunks_zero : inChunks k pass fuel x 0 = pure (some x) := by
  cases fuel <;> rfl

/-- A pass at a position of the interval: the device hears of the part that it is
for, or of a first piece of it if the pass fails. -/
structure PassOk (step : τ → ω → τ × List γ) (At : σ → Nat → Prop)
    (covers : Nat → Nat → List γ) (k stop : Nat) (pass : σ → Nat → Dialog ρ ω (Option σ)) :
    Prop where
  done : ∀ x p n, At x p → 0 < n → n ≤ k → p + n ≤ stop → ∀ s x', (pass x n).value s = some x' →
    At x' (p + n) ∧ ∀ t, heard step t ((pass x n).writes s) = covers p n
  failed : ∀ x p n, At x p → 0 < n → n ≤ k → p + n ≤ stop → ∀ s, (pass x n).value s = none →
    ∀ t, heard step t ((pass x n).writes s) <+: covers p n

theorem heard_inChunks (hk : 0 < k) (hpass : PassOk step At covers k stop pass)
    (hx : At x start) (hfuel : count ≤ fuel) (hstop : start + count ≤ stop) (s : Answers) (t : τ) :
    heard step t ((inChunks k pass fuel x count).writes s) <+:
        (chunks k fuel start count).flatMap (fun c => covers c.1 c.2) ∧
      (((inChunks k pass fuel x count).value s).isSome →
        heard step t ((inChunks k pass fuel x count).writes s) =
          (chunks k fuel start count).flatMap fun c => covers c.1 c.2) := by
  induction fuel generalizing x start count s t with
  | zero => exact ⟨List.nil_prefix, fun _ => rfl⟩
  | succ fuel ih =>
    by_cases hpos : 0 < count
    · have hn : 0 < min k count := Nat.lt_min.mpr ⟨hk, hpos⟩
      have hle : min k count ≤ k := Nat.min_le_left k count
      have hend : start + min k count ≤ stop := by omega
      rw [inChunks, if_pos hpos, chunks_of_pos hpos, List.flatMap_cons, Dialog.writes_bind,
        Dialog.value_bind, heard_append]
      cases hvalue : (pass x (min k count)).value s with
      | none =>
        have hfirst := hpass.failed x start _ hx hn hle hend s hvalue t
        refine ⟨?_, fun h => absurd h Bool.false_ne_true⟩
        dsimp only
        rw [Dialog.writes_pure, heard, List.append_nil]
        exact hfirst.trans (List.prefix_append _ _)
      | some x' =>
        obtain ⟨hx', hfirst⟩ := hpass.done x start _ hx hn hle hend s x' hvalue
        obtain ⟨hpre, hall⟩ := ih hx' (show count - min k count ≤ fuel by omega) (by omega)
          ((pass x (min k count)).rest s) (settled step t ((pass x (min k count)).writes s))
        rw [hfirst]
        exact ⟨(List.prefix_append_right_inj _).mpr hpre, fun h => congrArg _ (hall h)⟩
    · rw [Nat.eq_zero_of_not_pos hpos, chunks_zero, inChunks_zero]
      exact ⟨List.nil_prefix, fun _ => rfl⟩

theorem mem_writes_inChunks {Q : ω → Prop} (hk : 0 < k)
    (hpass : ∀ x n, 0 < n → n ≤ k → ∀ s, ∀ w ∈ (pass x n).writes s, Q w) (s : Answers) :
    ∀ w ∈ (inChunks k pass fuel x count).writes s, Q w := by
  induction fuel generalizing x count s with
  | zero => exact List.forall_mem_nil _
  | succ fuel ih =>
    by_cases hpos : 0 < count
    · rw [inChunks, if_pos hpos, Dialog.writes_bind, List.forall_mem_append]
      refine ⟨hpass x _ (Nat.lt_min.mpr ⟨hk, hpos⟩) (Nat.min_le_left k count) s, ?_⟩
      cases (pass x (min k count)).value s with
      | none => exact List.forall_mem_nil _
      | some x' => exact ih _
    · rw [Nat.eq_zero_of_not_pos hpos, inChunks_zero]
      exact List.forall_mem_nil _

theorem isSome_inChunks_const {c : Nat} (hk : 0 < k)
    (hpass : ∀ x n, 0 < n → n ≤ k → ((pass x n).value fun _ => c).isSome) :
    ((inChunks k pass fuel x count).value fun _ => c).isSome := by
  induction fuel generalizing x count with
  | zero => rfl
  | succ fuel ih =>
    by_cases hpos : 0 < count
    · obtain ⟨x', hx'⟩ := Option.isSome_iff_exists.mp
        (hpass x (min k count) (Nat.lt_min.mpr ⟨hk, hpos⟩) (Nat.min_le_left k count))
      rw [inChunks, if_pos hpos, Dialog.value_bind, hx', Dialog.rest_const]
      exact ih
    · rw [Nat.eq_zero_of_not_pos hpos, inChunks_zero]
      rfl

/-- **Passes that address an interval modulo `size`** serve a request, all of it if
they succeed and the first part of it in any case, exactly if the last of them
starts below `size`. -/
theorem exact_inChunks_iff {step : τ → ω → τ × List Nat} {size c : Nat} (hk : 0 < k)
    (hsize : 0 < size) (hpass : PassOk step At (fun p n => List.range' (p % size) n) k stop pass)
    (hserved : ∀ x n, 0 < n → n ≤ k → ((pass x n).value fun _ => c).isSome)
    (hx : At x start) (hpos : 0 < count) (hfuel : count ≤ fuel) (hstop : start + count ≤ stop)
    (t0 : τ) :
    (∀ s t, heard step t ((inChunks k pass fuel x count).writes s) <+: List.range' start count ∧
      (((inChunks k pass fuel x count).value s).isSome →
        heard step t ((inChunks k pass fuel x count).writes s) = List.range' start count)) ↔
      start + k * ((count - 1) / k) < size := by
  have hheard := heard_inChunks hk hpass hx hfuel hstop
  have hlast : (∀ c ∈ chunks k fuel start count, c.1 < size) ↔ _ :=
    chunks_below_iff hk hpos hfuel
  have hparts : ∀ c ∈ chunks k fuel start count, 0 < c.2 := fun c hc => pos_of_mem_chunks hk hc
  have hmoved := flatMap_moved_iff (f := (· % size)) hparts
  rw [← flatMap_range'_chunks hk hfuel]
  constructor
  · intro h
    obtain ⟨-, hall⟩ := h (fun _ => c) t0
    have hsome : ((inChunks k pass fuel x count).value fun _ => c).isSome :=
      isSome_inChunks_const hk hserved
    have hsame := hmoved.mp (((hheard _ t0).2 hsome).symm.trans (hall hsome))
    exact hlast.mp fun c hc => hsame c hc ▸ Nat.mod_lt _ hsize
  · intro h s t
    have hsame := hmoved.mpr fun c hc => Nat.mod_eq_of_lt (hlast.mpr h c hc)
    rw [← hsame]
    exact hheard s t

end Device
