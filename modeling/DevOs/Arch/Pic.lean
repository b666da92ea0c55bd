import DevOs.Lib.Bitmap

/-!
Interrupt lines, after `arch/x86_64/irq.c`: two PICs with a mask each, of which the second one
interrupts through line 2 of the first.
-/

namespace DevOs

open Bitmap

variable {H : Type}

/-- `irq_handlers`, whether `idt.c` calls `irq_dispatch` for a line, and the masks of the PICs. -/
structure IrqTable (H : Type) where
  irqHandlers : Nat → Option H
  dispatched : Nat → Bool
  mask : Nat → BitVec 8

def picInit : IrqTable H :=
  ⟨fun _ => none, fun _ => false, fun pic => if pic = 0 then 0xFB else 0xFF⟩

/-- `irq_register` of a function or `NULL`; bit `irq` or `irq - 8` of one mask is bit `irq` of
the two. -/
def irqRegister (s : IrqTable H) (irq : Nat) (h : Option H) : IrqTable H :=
  if 16 ≤ irq then s
  else
    { irqHandlers := Function.update s.irqHandlers irq h
      dispatched := Function.update s.dispatched irq true
      mask := clear s.mask irq }

def irqUnregister (s : IrqTable H) (irq : Nat) : IrqTable H :=
  if 16 ≤ irq then s
  else
    { s with
      irqHandlers := Function.update s.irqHandlers irq none
      mask := set s.mask irq }

/-- A call for a line: `none` is `irq_unregister`, `some h` is `irq_register` of `h`. -/
def irqCall (s : IrqTable H) : Nat × Option (Option H) → IrqTable H
  | (irq, some h) => irqRegister s irq h
  | (irq, none) => irqUnregister s irq

def irqRun (calls : List (Nat × Option (Option H))) : IrqTable H := calls.foldl irqCall picInit

/-- The PICs pass an interrupt of the line on. -/
def IrqTable.passes (s : IrqTable H) (irq : Nat) : Bool :=
  !test s.mask irq && (irq < 8 || !test s.mask 2)

/-- `isr_dispatch` for the vector of a line: the handler that is called, and the PICs that are
sent `PIC_EOI`. -/
def isrDispatch (s : IrqTable H) (irq : Nat) : Option H × List Nat :=
  if s.dispatched irq then (s.irqHandlers irq, if 8 ≤ irq then [1, 0] else [0]) else (none, [])

/-- What the last call for a line gave it, if there was one. -/
def lastCall (calls : List (Nat × Option (Option H))) (irq : Nat) :
    Option (Option (Option H)) :=
  calls.foldl (fun last c => if irq = c.1 then some c.2 else last) none

theorem irqCall_line (s : IrqTable H) (c : Nat × Option (Option H)) {irq : Nat} (hirq : irq < 16) :
    (irqCall s c).irqHandlers irq = (if irq = c.1 then c.2.join else s.irqHandlers irq) ∧
      test (irqCall s c).mask irq = (if irq = c.1 then c.2.isNone else test s.mask irq) ∧
      (irqCall s c).dispatched irq = (irq = c.1 && c.2.isSome || s.dispatched irq) := by
  obtain ⟨line, h⟩ := c
  by_cases hline : irq = line
  · subst hline
    cases h <;> simp [irqCall, irqRegister, irqUnregister, Nat.not_le.mpr hirq]
  · cases h <;> simp only [irqCall, irqRegister, irqUnregister] <;> split <;> simp [hline]

theorem line_of_calls (calls : List (Nat × Option (Option H))) {irq : Nat} (hirq : irq < 16) :
    (irqRun calls).irqHandlers irq = (lastCall calls irq).join.join ∧
      test (irqRun calls).mask irq = ((lastCall calls irq).map Option.isNone).getD (irq ≠ 2) ∧
      ((lastCall calls irq).join.isSome → (irqRun calls).dispatched irq) := by
  induction calls using List.reverseRecOn with
  | nil =>
    have hinit : ∀ i < 16,
        test (fun pic => if pic = 0 then 0xFB#8 else 0xFF) i = decide (i ≠ 2) := by decide
    exact ⟨rfl, hinit irq hirq, fun h => by cases h⟩
  | append_singleton calls c ih =>
    obtain ⟨hhandler, hmask, hdispatched⟩ := irqCall_line (irqRun calls) c hirq
    simp only [irqRun, lastCall, List.foldl_concat] at *
    rw [hhandler, hmask, hdispatched]
    by_cases hline : irq = c.1
    · simp +contextual [hline]
    · simpa [hline] using ih

/-- **Interrupts find their handlers.** After any calls, an interrupt of a line other than 2
reaches the CPU exactly if the last call registered the line and, on the second PIC, line 2
was not unregistered. It is then handled by the function registered last (by none if that was
`NULL`), and the PICs that it came through are sent `PIC_EOI`. -/
theorem interrupts_handled (calls : List (Nat × Option (Option H))) :
    ∀ irq < 16, irq ≠ 2 →
      ((irqRun calls).passes irq ↔
        (lastCall calls irq).join.isSome ∧ (irq < 8 ∨ lastCall calls 2 ≠ some none)) ∧
      ((irqRun calls).passes irq → isrDispatch (irqRun calls) irq =
        ((lastCall calls irq).join.join, if 8 ≤ irq then [1, 0] else [0])) := by
  intro irq hirq hne
  obtain ⟨hhandler, hmask, hdispatched⟩ := line_of_calls calls hirq
  obtain ⟨-, hcascade, -⟩ := line_of_calls calls (show 2 < 16 by decide)
  have hpasses : (irqRun calls).passes irq ↔
      (lastCall calls irq).join.isSome ∧ (irq < 8 ∨ lastCall calls 2 ≠ some none) := by
    rw [IrqTable.passes, hmask, hcascade]
    rcases lastCall calls irq with _ | _ | h <;> rcases lastCall calls 2 with _ | _ | h2 <;>
      simp [hne]
  refine ⟨hpasses, fun h => ?_⟩
  rw [isrDispatch, if_pos (hdispatched (hpasses.mp h).1), hhandler]

theorem interrupts_handled_mouse :
    isrDispatch (irqRun [(12, some (some ())), (2, none), (2, some none)]) 12 = (some (), [1, 0]) :=
  (interrupts_handled _ 12 (by decide) (by decide)).2 (by decide)

end DevOs
