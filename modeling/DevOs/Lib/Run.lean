import Mathlib.Data.List.Induction

/-!
Runs of a machine over a list of events. A machine is a step function
`σ → ε → Option σ`, where `none` is a step that does not return or that the
environment does not make; its runs are `List.foldlM`. A machine that
answers is a function `σ → ε → σ × ο`.

The rules say what a run keeps from what a step keeps, when a property holds in every state or of
every step, and that answers under a forward simulation are ones that the specification allows.
-/

namespace Machine

variable {σ τ ε ο : Type*}

section

variable {step : σ → ε → Option σ}

theorem trace_invariant {Inv : List ε → σ → Prop} {s0 s : σ} {es : List ε} (h0 : Inv [] s0)
    (hstep : ∀ es s e s', Inv es s → step s e = some s' → Inv (es ++ [e]) s')
    (hrun : es.foldlM step s0 = some s) : Inv es s := by
  -- from the back: the last step starts in a state that the shorter run reaches
  induction es using List.reverseRecOn generalizing s with
  | nil =>
    obtain rfl : s0 = s := by simpa using hrun
    exact h0
  | append_singleton es e ih =>
    simp only [List.foldlM_append, List.foldlM_cons, List.foldlM_nil, bind_pure] at hrun
    obtain ⟨s1, h1, hlast⟩ := Option.bind_eq_some_iff.1 hrun
    exact hstep es s1 e s (ih h1) hlast

/-- `P` holds in every state of the run, the first and the last included. -/
def Always (step : σ → ε → Option σ) (P : σ → Prop) : σ → List ε → Prop
  | s, [] => P s
  | s, e :: es => P s ∧ ∀ s', step s e = some s' → Always step P s' es

/-- Every step of the run is made in a state in which it meets `C`. -/
def Steps (step : σ → ε → Option σ) (C : σ → ε → Prop) : σ → List ε → Prop
  | _, [] => True
  | s, e :: es => ∀ s', step s e = some s' → C s e ∧ Steps step C s' es

theorem Always.start {P : σ → Prop} {s : σ} {es : List ε} (h : Always step P s es) : P s := by
  cases es with
  | nil => exact h
  | cons e es => exact h.1

theorem Steps.cons {C : σ → ε → Prop} {s s' : σ} {e : ε} {es : List ε} (hs : step s e = some s')
    (hc : C s e) (h : Steps step C s' es) : Steps step C s (e :: es) := by
  intro t ht
  obtain rfl : s' = t := Option.some.inj (hs.symm.trans ht)
  exact ⟨hc, h⟩

theorem steps_of_forall {A : ε → Prop} :
    ∀ {es : List ε} (s : σ), (∀ e ∈ es, A e) → Steps step (fun _ e => A e) s es
  | [], _, _ => trivial
  | e :: _, _, h => fun s' _ =>
    ⟨h e List.mem_cons_self, steps_of_forall s' fun e' he => h e' (List.mem_cons_of_mem e he)⟩

theorem always_iff_steps {Inv P : σ → Prop} {C : σ → ε → Prop}
    (hstep : ∀ s e s', Inv s → P s → step s e = some s' → (P s' ↔ C s e) ∧ (P s' → Inv s')) :
    ∀ (es : List ε) {s : σ}, Inv s → P s → (Always step P s es ↔ Steps step C s es)
  | [], s, _, hp => by simp [Always, Steps, hp]
  | e :: es, s, hi, hp => by
    simp only [Always, Steps, hp, true_and]
    refine forall₂_congr fun s' hs => ?_
    obtain ⟨hiff, hinv⟩ := hstep s e s' hi hp hs
    constructor
    · intro h
      have hp' : P s' := h.start
      exact ⟨hiff.1 hp', (always_iff_steps hstep es (hinv hp') hp').1 h⟩
    · rintro ⟨hc, h⟩
      have hp' : P s' := hiff.2 hc
      exact (always_iff_steps hstep es (hinv hp') hp').2 h

theorem always_of_steps {Inv P : σ → Prop} {C : σ → ε → Prop} (hP : ∀ s, Inv s → P s)
    (hstep : ∀ s e s', Inv s → C s e → step s e = some s' → Inv s') :
    ∀ (es : List ε) {s : σ}, Inv s → Steps step C s es → Always step P s es
  | [], s, hi, _ => hP s hi
  | e :: es, s, hi, h => by
    refine ⟨hP s hi, fun s' hs => ?_⟩
    obtain ⟨hc, hrest⟩ := h s' hs
    exact always_of_steps hP hstep es (hstep s e s' hi hc hs) hrest

theorem steps_of_steps {Inv : σ → Prop} {C D : σ → ε → Prop}
    (hD : ∀ s e s', Inv s → C s e → step s e = some s' → D s e)
    (hstep : ∀ s e s', Inv s → C s e → step s e = some s' → Inv s') :
    ∀ (es : List ε) {s : σ}, Inv s → Steps step C s es → Steps step D s es
  | [], _, _, _ => trivial
  | e :: es, s, hi, h => by
    intro s' hs
    obtain ⟨hc, hrest⟩ := h s' hs
    exact ⟨hD s e s' hi hc hs, steps_of_steps hD hstep es (hstep s e s' hi hc hs) hrest⟩

theorem steps_iff_steps {Inv : σ → Prop} {A C D : σ → ε → Prop}
    (hiff : ∀ s e, Inv s → A s e → (D s e ↔ C s e))
    (hstep : ∀ s e s', Inv s → A s e → C s e → step s e = some s' → Inv s') :
    ∀ (es : List ε) {s : σ}, Inv s → Steps step A s es → (Steps step D s es ↔ Steps step C s es)
  | [], _, _, _ => Iff.rfl
  | e :: es, s, hi, ha => by
    refine forall₂_congr fun s' hs => ?_
    obtain ⟨hae, hrest⟩ := ha s' hs
    rw [hiff s e hi hae]
    exact and_congr_right fun hc => steps_iff_steps hiff hstep es (hstep s e s' hi hae hc hs) hrest

end

variable {step : σ → ε → σ × ο} {spec : τ → ε → τ → ο → Prop}

def outputs (step : σ → ε → σ × ο) : σ → List ε → List ο
  | _, [] => []
  | s, e :: es => (step s e).2 :: outputs step (step s e).1 es

def final (step : σ → ε → σ × ο) : σ → List ε → σ
  | s, [] => s
  | s, e :: es => final step (step s e).1 es

def Along (step : σ → ε → σ × ο) (P : σ → Prop) : σ → List ε → Prop
  | s, [] => P s
  | s, e :: es => P s ∧ Along step P (step s e).1 es

/-- A run of a specification that may leave the answer open: the events, the
answers it allows and the state it ends in. -/
inductive SpecRun (spec : τ → ε → τ → ο → Prop) : τ → List ε → List ο → τ → Prop
  | nil (t : τ) : SpecRun spec t [] [] t
  | cons {t t1 t2 : τ} {e : ε} {o : ο} {es : List ε} {os : List ο} :
      spec t e t1 o → SpecRun spec t1 es os t2 → SpecRun spec t (e :: es) (o :: os) t2

theorem Along.start {P : σ → Prop} {s : σ} {es : List ε} (h : Along step P s es) : P s := by
  cases es with
  | nil => exact h
  | cons e es => exact h.1

/-- **Forward simulation.** If every step of the machine is matched by one of
the specification with the same answer, the answers of a whole run are ones
that the specification allows. -/
theorem specRun_of_simulation {R : σ → τ → Prop} {P : σ → Prop} {ok : ε → Prop}
    (hstep : ∀ s t e, ok e → P s → P (step s e).1 → R s t →
      ∃ t', spec t e t' (step s e).2 ∧ R (step s e).1 t') :
    ∀ (es : List ε) {s : σ} {t : τ}, (∀ e ∈ es, ok e) → Along step P s es → R s t →
      ∃ t', SpecRun spec t es (outputs step s es) t' ∧ R (final step s es) t'
  | [], _, t, _, _, hr => ⟨t, .nil t, hr⟩
  | e :: es, s, t, hok, halong, hr => by
    obtain ⟨t1, hs, hr1⟩ := hstep s t e (hok e (by simp)) halong.1 halong.2.start hr
    obtain ⟨t2, hrun, hr2⟩ :=
      specRun_of_simulation hstep es (fun e he => hok e (by simp [he])) halong.2 hr1
    exact ⟨t2, .cons hs hrun, hr2⟩

theorem loop_invariant (Inv : Nat → σ → Prop) {body : σ → Nat → σ} {s : σ} {n : Nat}
    (h0 : Inv 0 s) (hstep : ∀ i s, i < n → Inv i s → Inv (i + 1) (body s i)) :
    Inv n ((List.range n).foldl body s) := by
  induction n with
  | zero => exact h0
  | succ n ih =>
    rw [List.range_succ, List.foldl_append, List.foldl_cons, List.foldl_nil]
    exact hstep n _ (Nat.lt_succ_self n) (ih fun i s hi => hstep i s (Nat.lt_succ_of_lt hi))

end Machine
