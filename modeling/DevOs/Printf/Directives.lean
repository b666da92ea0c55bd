import DevOs.Printf.Pieces

/-!
The directives `%[-][0][width][l|ll|z]` with `d`, `i`, `u`, `x`, `X`, `c`, `s` or `%`:
how they are spelled, what C's `snprintf` prints for them, and how `kvsnprintf`
reads them.
-/

namespace DevOs

inductive LengthModifier where
  | none | l | ll | z
  deriving DecidableEq

inductive IntConv where
  | d | i | u | x | X
  deriving DecidableEq

inductive Directive where
  | int (minus zero : Bool) (width : Nat) (modifier : LengthModifier) (conv : IntConv)
  | char (minus : Bool) (width : Nat)
  | string (minus : Bool) (width : Nat)
  | percent

/-- A part of a format: a character other than `%`, or a directive. -/
inductive FormatPart where
  | text (c : {c : CChar // c.1 ≠ 37})
  | directive (d : Directive)

/-- `'%'`. -/
def percentSign : CChar := ⟨37, by decide⟩

/-- `'-'`. -/
def minusSign : CChar := ⟨45, by decide⟩

/-- `'0' + d`. -/
def digitChar (d : Nat) : CChar :=
  ⟨UInt8.ofNat (48 + d % 10), fun h => by
    have hnat : (UInt8.ofNat (48 + d % 10)).toNat = 0 := congrArg UInt8.toNat h
    rw [UInt8.toNat_ofNat'] at hnat
    omega⟩

def spellWidth (width : Nat) : CString :=
  if width = 0 then [] else (Numeral.digits 10 width).map digitChar

def LengthModifier.spell : LengthModifier → CString
  | .none => []
  | .l => [⟨108, by decide⟩]
  | .ll => [⟨108, by decide⟩, ⟨108, by decide⟩]
  | .z => [⟨122, by decide⟩]

def IntConv.spell : IntConv → CChar
  | .d => ⟨100, by decide⟩
  | .i => ⟨105, by decide⟩
  | .u => ⟨117, by decide⟩
  | .x => ⟨120, by decide⟩
  | .X => ⟨88, by decide⟩

namespace Directive

def minus : Directive → Bool
  | .int minus _ _ _ _ | .char minus _ | .string minus _ => minus
  | .percent => false

def zero : Directive → Bool
  | .int _ zero _ _ _ => zero
  | _ => false

def width : Directive → Nat
  | .int _ _ width _ _ | .char _ width | .string _ width => width
  | .percent => 0

def modifier : Directive → LengthModifier
  | .int _ _ _ modifier _ => modifier
  | _ => .none

def conv : Directive → CChar
  | .int _ _ _ _ conv => conv.spell
  | .char _ _ => ⟨99, by decide⟩
  | .string _ _ => ⟨115, by decide⟩
  | .percent => ⟨37, by decide⟩

/-- What stands behind the `%` and the `-`. -/
def spellTail (d : Directive) : CString :=
  (if d.zero then [⟨48, by decide⟩] else []) ++ spellWidth d.width ++ d.modifier.spell ++ [d.conv]

def spell (d : Directive) : CString :=
  percentSign :: (if d.minus then [minusSign] else []) ++ d.spellTail

def args : Directive → Nat
  | .percent => 0
  | _ => 1

end Directive

def FormatPart.spell : FormatPart → CString
  | .text c => [c.1]
  | .directive d => d.spell

def formatOf (parts : List FormatPart) : CString := parts.flatMap FormatPart.spell

/-- The directives that take an argument, each as the format from its `%` on. -/
def takers : List FormatPart → List CString
  | [] => []
  | .text _ :: parts => takers parts
  | .directive d :: parts =>
    List.replicate d.args (formatOf (.directive d :: parts)) ++ takers parts

/-- The argument of an integer conversion: an `int` or, with a length modifier, 64 bits. -/
def IntConv.value (conv : IntConv) (modifier : LengthModifier) (x : UInt64) : Int :=
  match conv with
  | .d | .i => signedArg (modifier ≠ .none) x
  | .u | .x | .X => (unsignedArg (modifier ≠ .none) x).toNat

def IntConv.base : IntConv → Nat
  | .d | .i | .u => 10
  | .x | .X => 16

def signText (v : Int) : List UInt8 := if v < 0 then [45] else []

def IntConv.digits (conv : IntConv) (v : Int) : List UInt8 :=
  Numeral.text conv.base (conv = .X) v.natAbs

def field (minus : Bool) (width : Nat) (text : List UInt8) : List UInt8 :=
  if minus then text ++ List.replicate (width - text.length) 32
  else List.replicate (width - text.length) 32 ++ text

def zeroField (width : Nat) (sign digits : List UInt8) : List UInt8 :=
  sign ++ List.replicate (width - (sign.length + digits.length)) 48 ++ digits

/-- What C prints for a directive with the argument `x`. -/
def Directive.text (va : VaList) (x : UInt64) : Directive → List UInt8
  | .int minus zero width modifier conv =>
    let v := conv.value modifier x
    if zero && !minus then zeroField width (signText v) (conv.digits v)
    else field minus width (signText v ++ conv.digits v)
  | .char minus width => field minus width [x.toUInt8]
  | .string minus width => field minus width ((va.strAt x).map (·.1))
  | .percent => [37]

/-- What `snprintf` prints, with the arguments from the `j`-th on. -/
def snprintfText (va : VaList) : Nat → List FormatPart → List UInt8
  | _, [] => []
  | j, .text c :: parts => c.1.1 :: snprintfText va j parts
  | j, .directive d :: parts => d.text va (va.slot j) ++ snprintfText va (j + d.args) parts

section

variable {fmt rest : CString} {c : CChar} {w : Nat}

theorem val_digitChar (d : Nat) : (digitChar d).1.toNat = 48 + d % 10 := by
  change (UInt8.ofNat (48 + d % 10)).toNat = _
  rw [UInt8.toNat_ofNat']
  omega

theorem scanFlag_miss {ch : UInt8} (h : c.1 ≠ ch) : scanFlag ch (c :: fmt) = (false, c :: fmt) :=
  if_neg h

theorem scanWidth_digit {d : Nat} (hd : d < 10) (hlt : w * 10 + d < 2 ^ 31) :
    scanWidth w (digitChar d :: fmt) = scanWidth (w * 10 + d) fmt := by
  have hval := val_digitChar d
  have hdigit : 48 ≤ (digitChar d).1 ∧ (digitChar d).1 ≤ 57 := by
    rw [UInt8.le_iff_toNat_le, UInt8.le_iff_toNat_le, hval]
    change 48 ≤ 48 + d % 10 ∧ 48 + d % 10 ≤ 57
    omega
  have hsub : (digitChar d).1.toNat - 48 = d := by omega
  rw [scanWidth, if_pos hdigit, hsub]
  exact if_pos hlt

theorem scanWidth_spell (hw : w < 2 ^ 31) (fmt : CString) :
    scanWidth 0 ((Numeral.digits 10 w).map digitChar ++ fmt) = scanWidth w fmt := by
  induction w using Nat.strongRecOn generalizing fmt with
  | ind w ih =>
    obtain hlt | hle := Nat.lt_or_ge w 10
    · rw [Numeral.digits_of_lt hlt, List.map_singleton, List.singleton_append,
        scanWidth_digit hlt (by omega), Nat.zero_mul, Nat.zero_add]
    · have hdiv : w / 10 * 10 + w % 10 = w := Nat.div_add_mod' w 10
      rw [Numeral.digits_of_le (by decide) hle, List.map_append, List.append_assoc,
        ih (w / 10) (by omega) (by omega), List.map_singleton, List.singleton_append,
        scanWidth_digit (Nat.mod_lt _ (by decide)) (by omega), hdiv]

def NoDigit (c : CChar) : Prop := ¬ (48 ≤ c.1 ∧ c.1 ≤ 57)

theorem scanWidth_spellWidth (hw : w < 2 ^ 31) (hc : NoDigit c) :
    scanWidth 0 (spellWidth w ++ c :: fmt) = .ok (w, c :: fmt) := by
  have hstop : scanWidth w (c :: fmt) = .ok (w, c :: fmt) := if_neg hc
  unfold spellWidth
  split
  · next hzero =>
      rw [List.nil_append, ← hstop, hzero]
  · rw [scanWidth_spell hw, hstop]

theorem exists_spellWidth_append (w : Nat) (fmt : CString) (hc : NoDigit c) :
    ∃ c' fmt', spellWidth w ++ c :: fmt = c' :: fmt' ∧ c'.1 ≠ 48 := by
  unfold spellWidth
  split
  · refine ⟨c, fmt, rfl, fun h => hc ?_⟩
    rw [h]
    decide
  · next hw =>
      obtain ⟨d, ds, hdigits, hpos, hlt⟩ :=
        Numeral.exists_digits_cons (b := 10) (by decide) (Nat.pos_of_ne_zero hw)
      refine ⟨digitChar d, ds.map digitChar ++ c :: fmt, by rw [hdigits]; rfl, fun h => ?_⟩
      have hval := val_digitChar d
      rw [h] at hval
      change 48 = _ at hval
      omega

theorem scanFlag_zero (zero : Bool) (w : Nat) (fmt : CString) (hc : NoDigit c) :
    scanFlag 48 ((if zero then [⟨48, by decide⟩] else []) ++ (spellWidth w ++ c :: fmt)) =
      (zero, spellWidth w ++ c :: fmt) := by
  cases zero with
  | true => rfl
  | false =>
    obtain ⟨c', fmt', heq, hne⟩ := exists_spellWidth_append w fmt hc
    change scanFlag 48 (spellWidth w ++ c :: fmt) = _
    rw [heq, scanFlag_miss hne]

theorem conv_plain (d : Directive) : NoDigit d.conv ∧ d.conv.1 ≠ 108 ∧ d.conv.1 ≠ 122 := by
  cases d with
  | int minus zero width modifier conv =>
    cases conv <;> simp [NoDigit, Directive.conv, IntConv.spell]
  | _ => simp [NoDigit, Directive.conv]

theorem exists_spell_append (m : LengthModifier) (fmt : CString) (hc : NoDigit c) :
    ∃ c' fmt', m.spell ++ c :: fmt = c' :: fmt' ∧ NoDigit c' := by
  cases m with
  | none => exact ⟨c, fmt, rfl, hc⟩
  | l => exact ⟨⟨108, by decide⟩, c :: fmt, rfl, by simp [NoDigit]⟩
  | ll => exact ⟨⟨108, by decide⟩, ⟨108, by decide⟩ :: c :: fmt, rfl, by simp [NoDigit]⟩
  | z => exact ⟨⟨122, by decide⟩, c :: fmt, rfl, by simp [NoDigit]⟩

/-- `zero_pad`, `width` and `is_long` of a directive. -/
def Directive.spec (d : Directive) : PrintSpec := ⟨d.zero, d.width, d.modifier ≠ .none⟩

theorem scanSpec_spellTail (d : Directive) (hw : d.width < 2 ^ 31) (rest : CString) :
    scanSpec (d.spellTail ++ rest) = .ok (d.spec, d.conv :: rest) := by
  obtain ⟨hdigit, hl, hz⟩ := conv_plain d
  have htail : d.spellTail ++ rest = (if d.zero then [⟨48, by decide⟩] else []) ++
        (spellWidth d.width ++ (d.modifier.spell ++ d.conv :: rest)) := by
    rw [Directive.spellTail, List.append_assoc, List.append_assoc, List.append_assoc]
    rfl
  have hzero : scanFlag 48 (d.spellTail ++ rest) =
      (d.zero, spellWidth d.width ++ (d.modifier.spell ++ d.conv :: rest)) := by
    obtain ⟨c, fmt, heq, hc⟩ := exists_spell_append d.modifier rest hdigit
    rw [htail, heq, scanFlag_zero d.zero d.width fmt hc]
  have hwidth : scanWidth 0 (spellWidth d.width ++ (d.modifier.spell ++ d.conv :: rest)) =
      .ok (d.width, d.modifier.spell ++ d.conv :: rest) := by
    obtain ⟨c, fmt, heq, hc⟩ := exists_spell_append d.modifier rest hdigit
    rw [heq, scanWidth_spellWidth hw hc]
  simp only [scanSpec, hzero, hwidth, Directive.spec]
  have hmiss : scanFlag 108 (d.conv :: rest) = (false, d.conv :: rest) := scanFlag_miss hl
  have hmiss' : scanFlag 122 (d.conv :: rest) = (false, d.conv :: rest) := scanFlag_miss hz
  cases d.modifier with
  | none => simp [LengthModifier.spell, hmiss, hmiss']
  | l =>
    have hhit : scanFlag 108 (LengthModifier.l.spell ++ d.conv :: rest) =
        (true, d.conv :: rest) := rfl
    simp [hhit, hmiss, hmiss']
  | ll =>
    have hhit : scanFlag 108 (LengthModifier.ll.spell ++ d.conv :: rest) =
        (true, LengthModifier.l.spell ++ d.conv :: rest) := rfl
    have hhit' : scanFlag 108 (LengthModifier.l.spell ++ d.conv :: rest) =
        (true, d.conv :: rest) := rfl
    simp [hhit, hhit', hmiss']
  | z =>
    have hmiss : scanFlag 108 (LengthModifier.z.spell ++ d.conv :: rest) =
        (false, LengthModifier.z.spell ++ d.conv :: rest) := rfl
    have hhit : scanFlag 122 (LengthModifier.z.spell ++ d.conv :: rest) =
        (true, d.conv :: rest) := rfl
    simp [hmiss, hhit]

end

def Directive.kernelText (va : VaList) (x : UInt64) : Directive → List UInt8
  | .int _ zero width modifier conv =>
    let v := conv.value modifier x
    signText v ++ uintText v.natAbs conv.base (conv = .X) width zero
  | .char _ _ => [x.toUInt8]
  | .string _ _ => (stringArg va x).map (·.1)
  | .percent => [37]

def Directive.piece (va : VaList) (x : UInt64) (ptr : CString) (d : Directive) : Piece :=
  convPiece va x ptr d.spec (convOf d.conv)

/-- The pieces of a format without `-`. -/
def partPieces (va : VaList) : Nat → List FormatPart → List Piece
  | _, [] => []
  | j, .text c :: parts => (FmtItem.text c.1).piece va (va.slot j) :: partPieces va j parts
  | j, .directive d :: parts =>
    d.piece va (va.slot j) (formatOf (.directive d :: parts)) :: partPieces va (j + d.args) parts

def Each (va : VaList) (P : UInt64 → Directive → Prop) : Nat → List FormatPart → Prop
  | _, [] => True
  | j, .text _ :: parts => Each va P j parts
  | j, .directive d :: parts => P (va.slot j) d ∧ Each va P (j + d.args) parts

variable {va : VaList} {x : UInt64} {j : Nat} {parts : List FormatPart} {d : Directive}
  {P Q R : UInt64 → Directive → Prop}

theorem Each.imp₂ (h : Each va P j parts) (h' : Each va Q j parts)
    (himp : ∀ x d, P x d → Q x d → R x d) : Each va R j parts := by
  induction parts generalizing j with
  | nil => trivial
  | cons part parts ih =>
    cases part with
    | text c => exact ih h h'
    | directive d => exact ⟨himp _ d h.1 h'.1, ih h.2 h'.2⟩

theorem formatOf_directive (hminus : d.minus = false) (parts : List FormatPart) :
    formatOf (.directive d :: parts) = percentSign :: (d.spellTail ++ formatOf parts) := by
  change d.spell ++ formatOf parts = _
  rw [Directive.spell, hminus]
  rfl

theorem chars_piece (va : VaList) (x : UInt64) (ptr : CString) (d : Directive) :
    (d.piece va x ptr).chars = d.kernelText va x := by
  cases d with
  | int minus zero width modifier conv =>
    cases conv with
    | d => rfl
    | i => rfl
    | _ => exact (List.nil_append _).symm
  | _ => rfl

theorem takenFor_piece (va : VaList) (x : UInt64) (ptr : CString) (d : Directive) :
    (d.piece va x ptr).takenFor.toList = List.replicate d.args ptr := by
  cases d with
  | int minus zero width modifier conv => cases conv <;> rfl
  | _ => rfl

theorem overflows_piece (va : VaList) (x : UInt64) (ptr : CString) (d : Directive) :
    (d.piece va x ptr).overflows = (d.piece va x []).overflows := by
  cases d with
  | int minus zero width modifier conv => cases conv <;> rfl
  | _ => rfl

theorem overflows_piece_int {minus zero : Bool} {width : Nat} {modifier : LengthModifier}
    {conv : IntConv} :
    ((Directive.int minus zero width modifier conv).piece va x []).overflows = false ↔
      conv.value modifier x ≠ -0x8000000000000000 := by
  cases conv with
  | d => exact decide_eq_false_iff_not
  | i => exact decide_eq_false_iff_not
  | _ =>
    refine iff_of_true rfl ?_
    change ((UInt64.toNat _ : Nat) : Int) ≠ _
    omega

theorem parse_directive_cons (va : VaList) (j : Nat) (hminus : d.minus = false)
    (hwidth : d.width < 2 ^ 31) (parts : List FormatPart) :
    (parse (formatOf (.directive d :: parts))).2 = (parse (formatOf parts)).2 ∧
      pieces va j (parse (formatOf (.directive d :: parts))).1 =
        d.piece va (va.slot j) (formatOf (.directive d :: parts)) ::
          pieces va (j + d.args) (parse (formatOf parts)).1 := by
  have hparse := parse_directive (c := percentSign) rfl
    (scanSpec_spellTail d hwidth (formatOf parts))
  rw [← formatOf_directive hminus parts] at hparse
  have htaken := congrArg List.length
    (takenFor_piece va (va.slot j) (formatOf (.directive d :: parts)) d)
  rw [List.length_replicate] at htaken
  rw [hparse, ← htaken]
  exact ⟨rfl, rfl⟩

theorem parse_text_cons (c : {c : CChar // c.1 ≠ 37}) (parts : List FormatPart) :
    parse (formatOf (.text c :: parts)) =
      (.text c.1 :: (parse (formatOf parts)).1, (parse (formatOf parts)).2) :=
  parse_text c.2

theorem parse_formatOf (hminus : Each va (fun _ d => d.minus = false) j parts)
    (hwidth : Each va (fun _ d => d.width < 2 ^ 31) j parts) : (parse (formatOf parts)).2 = none ∧
      pieces va j (parse (formatOf parts)).1 = partPieces va j parts := by
  induction parts generalizing j with
  | nil =>
    rw [show formatOf [] = [] from rfl, parse_nil]
    exact ⟨rfl, rfl⟩
  | cons part parts ih =>
    cases part with
    | text c =>
      obtain ⟨hends, hpieces⟩ := ih hminus hwidth
      rw [parse_text_cons]
      exact ⟨hends, congrArg (_ :: ·) hpieces⟩
    | directive d =>
      obtain ⟨hends, hpieces⟩ := ih hminus.2 hwidth.2
      obtain ⟨hends', hpieces'⟩ := parse_directive_cons va j hminus.1 hwidth.1 parts
      rw [hends', hpieces', hends, hpieces]
      exact ⟨rfl, rfl⟩

theorem takenOf_partPieces (va : VaList) (j : Nat) (parts : List FormatPart) :
    takenOf (partPieces va j parts) = takers parts := by
  induction parts generalizing j with
  | nil => rfl
  | cons part parts ih =>
    cases part with
    | text c => exact ih j
    | directive d =>
      rw [partPieces, takenOf_cons, takenFor_piece, ih]
      rfl

end DevOs
