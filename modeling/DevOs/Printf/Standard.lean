import DevOs.Printf.Directives

/-!
`kvsnprintf` beside the `snprintf` of C.
-/

namespace DevOs

variable {va : VaList} {x : UInt64} {j : Nat} {parts : List FormatPart} {d : Directive} {v : Int}
  {width cap n m : Nat}

/-- The argument is one for the directive: `%s` takes a pointer to a string. -/
def Directive.ArgOk (x : UInt64) : Directive → Prop
  | .string _ _ => x ≠ 0
  | _ => True

/-- The kernel prints the directive as C does: there is no `-`, a negative number fills
the width without its sign and can be negated, and a character or a string fills the
width. -/
def Directive.Fine (va : VaList) (x : UInt64) : Directive → Prop
  | .int minus _ width modifier conv =>
    let v := conv.value modifier x
    minus = false ∧ (v < 0 → width ≤ (conv.digits v).length ∧ v ≠ -0x8000000000000000)
  | .char minus width => minus = false ∧ width ≤ 1
  | .string minus width => minus = false ∧ width ≤ (va.strAt x).length
  | .percent => True

structure Directive.Regular (va : VaList) (x : UInt64) (d : Directive) : Prop where
  minus : d.minus = false
  arg : d.ArgOk x
  noOverflow : (d.piece va x []).overflows = false

theorem Directive.Fine.regular (h : d.Fine va x) (harg : d.ArgOk x) : d.Regular va x := by
  cases d with
  | int minus zero width modifier conv =>
    refine ⟨h.1, harg, overflows_piece_int.mpr fun hmin => ?_⟩
    exact (h.2 (by rw [hmin]; decide)).2 hmin
  | char minus width => exact ⟨h.1, harg, rfl⟩
  | string minus width => exact ⟨h.1, harg, rfl⟩
  | percent => exact ⟨rfl, harg, rfl⟩

theorem exists_digits_cons (conv : IntConv) (hv : v ≠ 0) :
    ∃ c cs, conv.digits v = c :: cs ∧ c ≠ 48 ∧ c ≠ 32 := by
  have hbase : 1 < conv.base ∧ conv.base ≤ 16 := by cases conv <;> decide
  obtain ⟨d, ds, hdigits, hpos, hlt⟩ :=
    Numeral.exists_digits_cons hbase.1 (Int.natAbs_pos.mpr hv)
  refine ⟨Numeral.char (conv = .X) d, ds.map (Numeral.char (conv = .X)), ?_, ?_⟩
  · rw [IntConv.digits, Numeral.text, hdigits]
    rfl
  · have hchar : ∀ upper, ∀ d < 16, 0 < d →
        Numeral.char upper d ≠ 48 ∧ Numeral.char upper d ≠ 32 := by decide
    exact hchar _ d (Nat.lt_of_lt_of_le hlt hbase.2) hpos

theorem negative_clashes {zero : Bool} (conv : IntConv) (hneg : v < 0)
    (hwidth : (conv.digits v).length < width) (ks cs : List UInt8) :
    signText v ++ uintText v.natAbs conv.base (conv = .X) width zero ++ ks ≠
      (if zero then zeroField width (signText v) (conv.digits v)
        else field false width (signText v ++ conv.digits v)) ++ cs := by
  obtain ⟨c, cs', hdigits, hne⟩ := exists_digits_cons conv (Int.ne_of_lt hneg)
  have hsign : signText v = [45] := if_pos hneg
  obtain ⟨e, he⟩ : ∃ e, width - (conv.digits v).length = e + 1 :=
    ⟨width - (conv.digits v).length - 1, by omega⟩
  have hnum : uintText v.natAbs conv.base (conv = .X) width zero =
      List.replicate (e + 1) (if zero then 48 else 32) ++ conv.digits v := by
    rw [← he]
    rfl
  intro heq
  rw [hsign, hnum] at heq
  cases zero with
  | true =>
    have hpad : width - (([45] : List UInt8).length + (conv.digits v).length) = e := by
      rw [List.length_singleton]
      omega
    rw [if_pos rfl, if_pos rfl, zeroField, hpad, hdigits, List.replicate_succ'] at heq
    simp only [List.append_assoc, List.append_cancel_left_eq] at heq
    exact hne.1 (List.cons.inj heq).1.symm
  | false =>
    have hpad : width - (([45] : List UInt8) ++ conv.digits v).length = e := by
      rw [List.length_append, List.length_singleton]
      omega
    rw [if_neg Bool.false_ne_true, if_neg Bool.false_ne_true, field,
      if_neg Bool.false_ne_true, hpad, hdigits] at heq
    cases e with
    | zero => exact hne.2 (List.cons.inj (List.cons.inj heq).2).1.symm
    | succ e => exact absurd (List.cons.inj heq).1 (by decide)

theorem number_agrees (zero : Bool) (conv : IntConv)
    (h : v < 0 → width ≤ (conv.digits v).length) :
    (if zero then zeroField width (signText v) (conv.digits v)
        else field false width (signText v ++ conv.digits v)) =
      signText v ++ uintText v.natAbs conv.base (conv = .X) width zero := by
  have hnum : uintText v.natAbs conv.base (conv = .X) width zero =
      List.replicate (width - (conv.digits v).length) (if zero then 48 else 32) ++
        conv.digits v := rfl
  rw [hnum]
  by_cases hneg : v < 0
  · have hpad : width - (conv.digits v).length = 0 := Nat.sub_eq_zero_of_le (h hneg)
    have hpad' : width - (1 + (conv.digits v).length) = 0 := by omega
    rw [signText, if_pos hneg, zeroField, field, if_neg Bool.false_ne_true, List.length_append,
      List.length_singleton, hpad, hpad']
    cases zero <;> rfl
  · rw [signText, if_neg hneg, zeroField, field, if_neg Bool.false_ne_true, List.nil_append,
      List.nil_append, List.nil_append, List.length_nil, Nat.zero_add]
    cases zero <;> rfl

theorem shift_of_append_eq {ts ks cs : List UInt8}
    (h : ts ++ ks = List.replicate m 32 ++ (ts ++ cs)) : ks = List.replicate m 32 ++ cs := by
  induction ts with
  | nil => exact h
  | cons t ts ih =>
    cases m with
    | zero => exact ih (List.cons.inj h).2
    | succ m =>
      obtain ⟨rfl, htail⟩ := List.cons.inj h
      refine ih ?_
      rw [List.replicate_succ', List.append_assoc]
      exact htail

theorem text_cases (h : d.Regular va x) :
    (∃ m, d.text va x = List.replicate m 32 ++ d.kernelText va x ∧ (d.Fine va x ↔ m = 0)) ∨
      ¬ d.Fine va x ∧ (∃ t, d.kernelText va x = 45 :: t) ∧
        ∀ ks cs, d.kernelText va x ++ ks ≠ d.text va x ++ cs := by
  cases d with
  | int minus zero width modifier conv =>
    obtain rfl : minus = false := h.minus
    have hmin := overflows_piece_int.mp h.noOverflow
    simp only [Directive.text, Directive.kernelText, Directive.Fine, Bool.not_false,
      Bool.and_true, true_and]
    generalize conv.value modifier x = v at hmin ⊢
    by_cases hclash : v < 0 ∧ (conv.digits v).length < width
    · refine .inr ⟨fun hfine => absurd (hfine hclash.1).1 (Nat.not_le.mpr hclash.2),
        ⟨uintText v.natAbs conv.base (conv = .X) width zero, ?_⟩,
        negative_clashes conv hclash.1 hclash.2⟩
      rw [signText, if_pos hclash.1]
      rfl
    · have hwidth : v < 0 → width ≤ (conv.digits v).length := by
        intro hneg
        exact Nat.le_of_not_lt fun hlt => hclash ⟨hneg, hlt⟩
      exact .inl ⟨0, number_agrees zero conv hwidth,
        iff_of_true (fun hneg => ⟨hwidth hneg, hmin⟩) rfl⟩
  | char minus width =>
    obtain rfl : minus = false := h.minus
    refine .inl ⟨width - 1, rfl, ?_⟩
    simp only [Directive.Fine, true_and]
    omega
  | string minus width =>
    obtain rfl : minus = false := h.minus
    have hstr : stringArg va x = va.strAt x := if_neg h.arg
    refine .inl ⟨width - (va.strAt x).length, ?_, ?_⟩
    · rw [Directive.kernelText, hstr, Directive.text, field, if_neg Bool.false_ne_true,
        List.length_map]
    · simp only [Directive.Fine, true_and]
      omega
  | percent => exact .inl ⟨0, rfl, iff_of_true trivial rfl⟩

theorem textOf_directive (va : VaList) (j : Nat) (d : Directive) (parts : List FormatPart) :
    textOf (partPieces va j (.directive d :: parts)) =
      d.kernelText va (va.slot j) ++ textOf (partPieces va (j + d.args) parts) := by
  rw [partPieces, textOf_cons, chars_piece]

section

variable (h : Each va (fun x d => d.Regular va x) j parts)
include h

theorem not_shifted (hm : 0 < m) :
    textOf (partPieces va j parts) ≠ List.replicate m 32 ++ snprintfText va j parts := by
  obtain ⟨m, rfl⟩ : ∃ n, m = n + 1 := ⟨m - 1, by omega⟩
  induction parts generalizing j m with
  | nil => exact List.cons_ne_nil _ _ ∘ Eq.symm
  | cons part parts ih =>
    cases part with
    | text c =>
      intro heq
      exact ih h m (by omega) (shift_of_append_eq heq)
    | directive d =>
      intro heq
      rw [textOf_directive, snprintfText] at heq
      obtain ⟨m', htext, -⟩ | ⟨-, ⟨t, htext⟩, -⟩ := text_cases h.1
      · have hadd : m + 1 + m' = m + m' + 1 := Nat.add_right_comm m 1 m'
        rw [htext, List.append_assoc, ← List.append_assoc, List.replicate_append_replicate,
          hadd] at heq
        exact ih h.2 (m + m') (by omega) (shift_of_append_eq heq)
      · rw [htext] at heq
        exact absurd (List.cons.inj heq).1 (by decide)

theorem each_fine_of_textOf_eq (heq : textOf (partPieces va j parts) = snprintfText va j parts) :
    Each va (fun x d => d.Fine va x) j parts := by
  induction parts generalizing j with
  | nil => trivial
  | cons part parts ih =>
    cases part with
    | text c => exact ih h (List.cons.inj heq).2
    | directive d =>
      rw [textOf_directive, snprintfText] at heq
      obtain ⟨m, htext, hfine⟩ | ⟨-, -, hclash⟩ := text_cases h.1
      · rw [htext, List.append_assoc] at heq
        have hshift := shift_of_append_eq heq
        obtain rfl | hm := Nat.eq_zero_or_pos m
        · exact ⟨hfine.mpr rfl, ih h.2 hshift⟩
        · exact absurd hshift (not_shifted h.2 hm)
      · exact absurd heq (hclash _ _)

theorem textOf_eq_of_each_fine (hfine : Each va (fun x d => d.Fine va x) j parts) :
    textOf (partPieces va j parts) = snprintfText va j parts := by
  induction parts generalizing j with
  | nil => rfl
  | cons part parts ih =>
    cases part with
    | text c => exact congrArg (c.1.1 :: ·) (ih h hfine)
    | directive d =>
      rw [textOf_directive, snprintfText, ih h.2 hfine.2]
      obtain ⟨m, htext, hiff⟩ | ⟨hnot, -⟩ := text_cases h.1
      · rw [htext, hiff.mp hfine.1]
        rfl
      · exact absurd hfine.1 hnot

end

theorem eq_of_mem_takenFor {ptr dir : CString} {spec : PrintSpec} {conv : Conv}
    (h : ptr ∈ (convPiece va x dir spec conv).takenFor.toList) : ptr = dir := by
  cases conv with
  | percent => cases h
  | other c => cases h
  | _ => exact List.mem_singleton.mp h

theorem length_le_of_mem_takenOf {ptr fmt : CString}
    (h : ptr ∈ takenOf (pieces va j (parse fmt).1)) : ptr.length ≤ fmt.length := by
  induction hlen : fmt.length using Nat.strongRecOn generalizing fmt j with
  | ind len ih =>
  subst hlen
  cases fmt with
  | nil =>
    rw [parse_nil] at h
    cases h
  | cons c fmt =>
    by_cases hc : c.1 ≠ 37
    · rw [parse_text hc] at h
      exact Nat.le_succ_of_le (ih fmt.length (Nat.lt_succ_self _) h rfl)
    · have hc' : c.1 = 37 := not_not.mp hc
      cases hspec : scanSpec fmt with
      | error f =>
        rw [parse_error hc' hspec] at h
        cases h
      | ok p =>
        obtain ⟨spec, rest⟩ := p
        cases rest with
        | nil =>
          rw [parse_cut hc' hspec] at h
          cases h
        | cons conv rest =>
          have hshort : rest.length < (c :: fmt).length :=
            Nat.lt_succ_of_lt (length_scanSpec_le hspec)
          rw [parse_directive hc' hspec, pieces, takenOf_cons, List.mem_append] at h
          obtain hhere | hlater := h
          · rw [eq_of_mem_takenFor hhere]
          · exact Nat.le_trans (ih rest.length hshort hlater rfl) (Nat.le_of_lt hshort)

theorem no_minus_of_takenOf_eq (hwidth : Each va (fun _ d => d.width < 2 ^ 31) j parts)
    (h : takenOf (pieces va j (parse (formatOf parts)).1) = takers parts) :
    Each va (fun _ d => d.minus = false) j parts := by
  induction parts generalizing j with
  | nil => trivial
  | cons part parts ih =>
    cases part with
    | text c =>
      rw [parse_text_cons] at h
      exact ih hwidth h
    | directive d =>
      cases hminus : d.minus with
      | false =>
        obtain ⟨-, hpieces⟩ := parse_directive_cons va j hminus hwidth.1 parts
        rw [hpieces, takenOf_cons, takenFor_piece, takers] at h
        exact ⟨hminus, ih hwidth.2 (List.append_cancel_left h)⟩
      | true =>
        -- the kernel goes on behind the `-`, and never comes back to this directive
        have hformat : formatOf (.directive d :: parts) =
            percentSign :: minusSign :: (d.spellTail ++ formatOf parts) := by
          change d.spell ++ formatOf parts = _
          rw [Directive.spell, hminus]
          rfl
        have hspec : scanSpec (minusSign :: (d.spellTail ++ formatOf parts)) =
            .ok (⟨false, 0, false⟩, minusSign :: (d.spellTail ++ formatOf parts)) := rfl
        have hpieces : takenOf (pieces va j (parse (formatOf (.directive d :: parts))).1) =
            takenOf (pieces va j (parse (d.spellTail ++ formatOf parts)).1) := by
          rw [hformat, parse_directive (c := percentSign) rfl hspec]
          rfl
        have hargs : d.args = 1 := by
          cases d with
          | percent => cases hminus
          | _ => rfl
        have hmem : formatOf (.directive d :: parts) ∈
            takenOf (pieces va j (parse (d.spellTail ++ formatOf parts)).1) := by
          rw [← hpieces, h, takers, hargs]
          exact List.mem_cons_self
        have hle := length_le_of_mem_takenOf hmem
        have hlong := congrArg List.length hformat
        rw [List.length_cons, List.length_cons] at hlong
        omega

theorem width_le_length_text (va : VaList) (x : UInt64) (d : Directive) :
    d.width ≤ (d.text va x).length := by
  have hfield (minus : Bool) (width : Nat) (ts : List UInt8) :
      width ≤ (field minus width ts).length := by
    unfold field
    split <;> rw [List.length_append, List.length_replicate] <;> omega
  cases d with
  | int minus zero width modifier conv =>
    change width ≤ List.length (if _ then _ else _)
    split
    · rw [zeroField, List.length_append, List.length_append, List.length_replicate]
      omega
    · exact hfield _ _ _
  | char minus width => exact hfield _ _ _
  | string minus width => exact hfield _ _ _
  | percent => exact Nat.zero_le _

theorem each_width_lt {n : Nat} (h : (snprintfText va j parts).length < n) :
    Each va (fun _ d => d.width < n) j parts := by
  induction parts generalizing j with
  | nil => trivial
  | cons part parts ih =>
    cases part with
    | text c => exact ih (Nat.lt_of_succ_lt h)
    | directive d =>
      have hwidth := width_le_length_text va (va.slot j) d
      rw [snprintfText, List.length_append] at h
      exact ⟨by omega, ih (by omega)⟩

theorem printable_partPieces (h : Each va (fun x d => d.Regular va x) j parts)
    (hcap : n + (textOf (partPieces va j parts)).length ≤ cap) :
    Printable cap n (partPieces va j parts) := by
  induction parts generalizing j n with
  | nil => trivial
  | cons part parts ih =>
    cases part with
    | text c =>
      rw [partPieces, textOf_cons, List.length_append, ← Nat.add_assoc] at hcap
      exact ⟨⟨rfl, fun _ _ => by omega⟩, ih h hcap⟩
    | directive d =>
      rw [partPieces, textOf_cons, List.length_append, ← Nat.add_assoc] at hcap
      exact ⟨⟨(overflows_piece _ _ _ d).trans h.1.noOverflow, fun _ _ => by omega⟩, ih h.2 hcap⟩

theorem each_noOverflow (h : Printable cap n (partPieces va j parts)) :
    Each va (fun x d => (d.piece va x []).overflows = false) j parts := by
  induction parts generalizing j n with
  | nil => trivial
  | cons part parts ih =>
    cases part with
    | text c => exact ih h.2
    | directive d => exact ⟨(overflows_piece _ _ _ d).symm.trans h.1.noOverflow, ih h.2⟩

/-- In every buffer that is large enough the kernel prints what C prints, and each
directive takes its own argument. -/
def SameAsC (va : VaList) (parts : List FormatPart) : Prop :=
  ∀ b : OutBuf, b.addr ≠ 0 → (snprintfText va 0 parts).length < b.sz →
    ∃ r, Returns va b (formatOf parts) r ∧
      r.stores = storesAt b.addr (snprintfText va 0 parts ++ [0]) ∧ r.taken = takers parts

theorem SameAsC.exists_printable (h : SameAsC va parts) :
    ∃ cap, Printable cap 0 (piecesOf va (formatOf parts)) ∧
      textOf (piecesOf va (formatOf parts)) = snprintfText va 0 parts ∧
      takenOf (piecesOf va (formatOf parts)) = takers parts := by
  obtain ⟨r, hreturns, hstores, htaken⟩ := h
    ⟨1, (snprintfText va 0 parts).length + (textOf (piecesOf va (formatOf parts))).length + 1⟩
    Nat.one_ne_zero (by dsimp only; omega)
  obtain ⟨-, hprint, rfl⟩ := (returns_iff va _ r Nat.one_ne_zero (Nat.succ_ne_zero _)).mp hreturns
  refine ⟨_, hprint, ?_, htaken⟩
  have hbytes := congrArg (List.map Prod.snd) hstores
  simp only [printed, map_snd_storesAt] at hbytes
  rw [List.take_of_length_le (by omega)] at hbytes
  exact List.append_cancel_right hbytes

/-- **`kvsnprintf` prints what C's `snprintf` prints** exactly if every directive is one
that the two print alike. -/
theorem sameAsC_iff (va : VaList) {parts : List FormatPart}
    (hargs : Each va (fun x d => d.ArgOk x) 0 parts)
    (hlen : (snprintfText va 0 parts).length < 2 ^ 31) :
    SameAsC va parts ↔ Each va (fun x d => d.Fine va x) 0 parts := by
  have hwidth := each_width_lt hlen
  constructor
  · intro h
    obtain ⟨cap, hprint, htext, htaken⟩ := h.exists_printable
    have hminus := no_minus_of_takenOf_eq hwidth htaken
    obtain ⟨-, hpieces⟩ := parse_formatOf hminus hwidth
    rw [piecesOf, hpieces] at hprint htext
    have hregular : Each va (fun x d => d.Regular va x) 0 parts :=
      (hminus.imp₂ (each_noOverflow hprint) fun _ _ => And.intro).imp₂ hargs
        fun _ _ h harg => ⟨h.1, harg, h.2⟩
    exact each_fine_of_textOf_eq hregular htext
  · intro hfine b haddr hsz
    have hregular : Each va (fun x d => d.Regular va x) 0 parts :=
      hfine.imp₂ hargs fun _ _ => Directive.Fine.regular
    have hminus : Each va (fun _ d => d.minus = false) 0 parts :=
      hregular.imp₂ hregular fun _ _ h _ => h.minus
    obtain ⟨hends, hpieces⟩ := parse_formatOf hminus hwidth
    have htext := textOf_eq_of_each_fine hregular hfine
    have hroom : (snprintfText va 0 parts).length ≤ b.sz - 1 := by omega
    refine ⟨printed b (piecesOf va (formatOf parts)),
      (returns_iff va _ _ haddr (by omega)).mpr ⟨hends, ?_, rfl⟩, ?_, ?_⟩
    · rw [piecesOf, hpieces]
      refine printable_partPieces hregular ?_
      rwa [htext, Nat.zero_add]
    · rw [printed, piecesOf, hpieces, htext, List.take_of_length_le hroom]
    · rw [printed, piecesOf, hpieces, takenOf_partPieces]

def psArgs : VaList where
  slot j := if j = 0 then 7 else 0x2000
  strAt x := if x = 0x2000 then cstr [115, 104] else []

theorem sameAsC_number :
    let parts : List FormatPart :=
      [.directive (.int false true 4 .ll .x), .text ⟨⟨32, by decide⟩, by decide⟩,
        .directive (.string false 0)]
    (Each psArgs (fun x d => d.ArgOk x) 0 parts ∧
      (snprintfText psArgs 0 parts).length < 2 ^ 31) ∧ SameAsC psArgs parts := by
  intro parts
  have hptr : (0x2000 : UInt64) ≠ 0 := by decide
  have hargs : Each psArgs (fun x d => d.ArgOk x) 0 parts := ⟨trivial, hptr, trivial⟩
  have hlen : (snprintfText psArgs 0 parts).length < 2 ^ 31 := by decide
  refine ⟨⟨hargs, hlen⟩, (sameAsC_iff psArgs hargs hlen).mpr ⟨⟨rfl, fun hneg => ?_⟩, ?_, trivial⟩⟩
  · exact absurd hneg (by decide)
  · exact ⟨rfl, by decide⟩

theorem psLine_not_sameAsC :
    let parts : List FormatPart :=
      [.directive (.int true false 4 .none .u), .text ⟨⟨32, by decide⟩, by decide⟩,
        .directive (.string false 0)]
    ¬ SameAsC psArgs parts ∧
      ∃ r, Returns psArgs ⟨0x1000, 64⟩ (formatOf parts) r ∧ r.taken = [cstr [37, 115]] := by
  intro parts
  refine ⟨fun h => ?_, _, ⟨20, rfl⟩, ?_⟩
  · obtain ⟨cap, -, -, htaken⟩ := h.exists_printable
    have hminus : Each psArgs (fun _ d => d.minus = false) 0 parts :=
      no_minus_of_takenOf_eq ⟨by decide, by decide, trivial⟩ htaken
    exact absurd hminus.1 (by decide)
  · decide

end DevOs
