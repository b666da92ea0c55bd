import DevOs.Printf.Output

/-!
What a format prints, without a buffer.
-/

namespace DevOs

theorem length_scanFlag_le (ch : UInt8) (fmt : CString) :
    (scanFlag ch fmt).2.length ≤ fmt.length := by
  cases fmt with
  | nil => exact Nat.le_refl _
  | cons c fmt =>
    rw [scanFlag]
    split
    · exact Nat.le_succ _
    · exact Nat.le_refl _

theorem length_scanWidth_le {fmt rest : CString} {width width' : Nat}
    (h : scanWidth width fmt = .ok (width', rest)) : rest.length ≤ fmt.length := by
  induction fmt generalizing width with
  | nil =>
    cases h
    exact Nat.le_refl _
  | cons c fmt ih =>
    rw [scanWidth] at h
    split at h
    · dsimp only at h
      split at h
      · exact Nat.le_succ_of_le (ih h)
      · cases h
    · cases h
      exact Nat.le_refl _

theorem length_scanSpec_le {fmt rest : CString} {spec : PrintSpec}
    (h : scanSpec fmt = .ok (spec, rest)) : rest.length ≤ fmt.length := by
  have hzero := length_scanFlag_le 48 fmt
  cases hwidth : scanWidth 0 (scanFlag 48 fmt).2 with
  | error f =>
    simp only [scanSpec, hwidth, reduceCtorEq] at h
  | ok p =>
    obtain ⟨width, fmt1⟩ := p
    have hle := length_scanWidth_le hwidth
    simp only [scanSpec, hwidth, Except.ok.injEq, Prod.mk.injEq] at h
    obtain ⟨-, rfl⟩ := h
    have hlong := length_scanFlag_le 108 fmt1
    have hlong' := length_scanFlag_le 108 (scanFlag 108 fmt1).2
    refine Nat.le_trans (length_scanFlag_le 122 _) ?_
    split <;> omega

/-- A character of the format that stands for itself, or a directive with the format
from its `%` on. -/
inductive FmtItem where
  | text (c : CChar)
  | directive (fmt : CString) (spec : PrintSpec) (conv : Conv)

/-- The items of a format, up to its end or up to the directive that does not allow to
go on. -/
def parse : CString → List FmtItem × Option PrintfFault
  | [] => ([], none)
  | c :: fmt =>
    if c.1 ≠ 37 then
      let r := parse fmt
      (.text c :: r.1, r.2)
    else
      match h : scanSpec fmt with
      | .error f => ([], some f)
      | .ok (_, []) => ([], some .overread)
      | .ok (spec, conv :: rest) =>
        have := length_scanSpec_le h
        let r := parse rest
        (.directive (c :: fmt) spec (convOf conv) :: r.1, r.2)
termination_by fmt => fmt.length
decreasing_by
  · exact Nat.lt_succ_self _
  · exact Nat.lt_succ_of_lt this

section

variable {c : CChar} {fmt rest : CString} {spec : PrintSpec} {conv : CChar}

@[simp] theorem parse_nil : parse [] = ([], none) := by rw [parse]

theorem parse_text (hc : c.1 ≠ 37) :
    parse (c :: fmt) = (.text c :: (parse fmt).1, (parse fmt).2) := by
  rw [parse, if_pos hc]

theorem parse_error {f : PrintfFault} (hc : c.1 = 37) (h : scanSpec fmt = .error f) :
    parse (c :: fmt) = ([], some f) := by
  rw [parse, if_neg (not_not_intro hc)]
  split
  · next f' heq =>
      rw [h] at heq
      cases heq
      rfl
  · next heq => rw [h] at heq; cases heq
  · next heq => rw [h] at heq; cases heq

theorem parse_cut (hc : c.1 = 37) (h : scanSpec fmt = .ok (spec, [])) :
    parse (c :: fmt) = ([], some .overread) := by
  rw [parse, if_neg (not_not_intro hc)]
  split
  · next heq => rw [h] at heq; cases heq
  · rfl
  · next heq => rw [h] at heq; cases heq

theorem parse_directive (hc : c.1 = 37) (h : scanSpec fmt = .ok (spec, conv :: rest)) :
    parse (c :: fmt) =
      (.directive (c :: fmt) spec (convOf conv) :: (parse rest).1, (parse rest).2) := by
  rw [parse, if_neg (not_not_intro hc)]
  split
  · next heq => rw [h] at heq; cases heq
  · next heq => rw [h] at heq; cases heq
  · next heq =>
      rw [h] at heq
      cases heq
      rfl

end

structure Piece where
  chars : List UInt8
  /-- The next character is taken only when this one has been stored. -/
  waits : Bool := false
  /-- The argument cannot be negated. -/
  overflows : Bool := false
  /-- The directive that takes the argument. -/
  takenFor : Option CString := none

def convPiece (va : VaList) (x : UInt64) (dir : CString) (spec : PrintSpec) : Conv → Piece
  | .signed =>
    let v := signedArg spec.isLong x
    { chars := (if v < 0 then [45] else []) ++
        uintText v.natAbs 10 false spec.width spec.zeroPad
      overflows := v = -0x8000000000000000
      takenFor := some dir }
  | .unsigned =>
    { chars := uintText (unsignedArg spec.isLong x).toNat 10 false spec.width spec.zeroPad
      takenFor := some dir }
  | .hex =>
    { chars := uintText (unsignedArg spec.isLong x).toNat 16 false spec.width spec.zeroPad
      takenFor := some dir }
  | .hexUpper =>
    { chars := uintText (unsignedArg spec.isLong x).toNat 16 true spec.width spec.zeroPad
      takenFor := some dir }
  | .pointer => { chars := [48, 120] ++ uintText x.toNat 16 false 16 true, takenFor := some dir }
  | .char => { chars := [x.toUInt8], takenFor := some dir }
  | .string => { chars := (stringArg va x).map (·.1), waits := true, takenFor := some dir }
  | .percent => { chars := [37] }
  | .other c => { chars := [37, c.1] }

def FmtItem.piece (va : VaList) (x : UInt64) : FmtItem → Piece
  | .text c => { chars := [c.1], waits := true }
  | .directive fmt spec conv => convPiece va x fmt spec conv

/-- The pieces of the items, with the arguments from the `j`-th slot on. -/
def pieces (va : VaList) : Nat → List FmtItem → List Piece
  | _, [] => []
  | j, item :: items =>
    let p := item.piece va (va.slot j)
    p :: pieces va (j + p.takenFor.toList.length) items

def textOf (ps : List Piece) : List UInt8 := ps.flatMap Piece.chars

def takenOf (ps : List Piece) : List CString := ps.flatMap fun p => p.takenFor.toList

/-- A piece behind `n` characters is no obstacle: no negation overflows, and characters
that wait find a place among the first `cap`. -/
structure Piece.Goes (cap n : Nat) (p : Piece) : Prop where
  noOverflow : p.overflows = false
  fits : p.waits = true → p.chars ≠ [] → n + p.chars.length ≤ cap

/-- The pieces, behind `n` characters, are no obstacle. -/
def Printable (cap : Nat) : Nat → List Piece → Prop
  | _, [] => True
  | n, p :: ps => p.Goes cap n ∧ Printable cap (n + p.chars.length) ps

def emit (b : OutBuf) (st : PrintState) (p : Piece) : PrintState :=
  ⟨p.chars.foldl b.out st.sink, st.taken ++ p.takenFor.toList⟩

variable {va : VaList} {b : OutBuf} {k k' : Sink} {st st' : PrintState} {fuel n : Nat}
  {dir fmt s : CString} {spec : PrintSpec} {conv : Conv}

@[simp] theorem textOf_nil : textOf [] = [] := rfl

@[simp] theorem textOf_cons (p : Piece) (ps : List Piece) :
    textOf (p :: ps) = p.chars ++ textOf ps := rfl

@[simp] theorem takenOf_nil : takenOf [] = [] := rfl

@[simp] theorem takenOf_cons (p : Piece) (ps : List Piece) :
    takenOf (p :: ps) = p.takenFor.toList ++ takenOf ps := rfl

theorem foldl_emit (b : OutBuf) (ps : List Piece) (st : PrintState) :
    ps.foldl (emit b) st = ⟨(textOf ps).foldl b.out st.sink, st.taken ++ takenOf ps⟩ := by
  induction ps generalizing st with
  | nil => simp
  | cons p ps ih =>
    rw [List.foldl_cons, ih, textOf_cons, takenOf_cons, List.foldl_append, ← List.append_assoc]
    rfl

theorem length_taken_emit (b : OutBuf) (st : PrintState) (p : Piece) :
    (emit b st p).taken.length = st.taken.length + p.takenFor.toList.length :=
  List.length_append

theorem emit_text (va : VaList) (b : OutBuf) (st : PrintState) (x : UInt64) (c : CChar) :
    emit b st ((FmtItem.text c).piece va x) = { st with sink := b.out st.sink c.1 } := by
  simp [emit, FmtItem.piece]

theorem out_of_room (b : OutBuf) (c : UInt8) (h : k.pos < b.sz - 1) : b.out k c = b.put k c :=
  if_pos h

theorem strLoop_sound (h : strLoop b fuel s k = some k') (hpos : k.pos = min n (b.sz - 1)) :
    (s ≠ [] → n + s.length ≤ b.sz - 1) ∧ k' = (s.map (·.1)).foldl b.out k := by
  induction fuel generalizing s k n with
  | zero => cases h
  | succ fuel ih =>
    cases s with
    | nil =>
      cases h
      exact ⟨fun hne => absurd rfl hne, rfl⟩
    | cons c s =>
      rw [strLoop] at h
      by_cases hroom : k.pos < b.sz - 1
      · rw [if_pos hroom, ← out_of_room b c.1 hroom] at h
        obtain ⟨hfits, rfl⟩ := ih h (pos_out b c.1 hpos)
        refine ⟨fun _ => ?_, rfl⟩
        rw [List.length_cons]
        cases s with
        | nil =>
          rw [List.length_nil]
          omega
        | cons d s =>
          have hrest := hfits (List.cons_ne_nil d s)
          omega
      · rw [if_neg hroom] at h
        exact ih h hpos

theorem strLoop_complete (hfits : s ≠ [] → n + s.length ≤ b.sz - 1)
    (hpos : k.pos = min n (b.sz - 1)) (hfuel : s.length < fuel) :
    strLoop b fuel s k = some ((s.map (·.1)).foldl b.out k) := by
  induction fuel generalizing s k n with
  | zero => exact absurd hfuel (Nat.not_lt_zero _)
  | succ fuel ih =>
    cases s with
    | nil => rfl
    | cons c s =>
      have hlen := hfits (List.cons_ne_nil c s)
      rw [List.length_cons] at hlen hfuel
      have hroom : k.pos < b.sz - 1 := by omega
      rw [strLoop, if_pos hroom, ← out_of_room b c.1 hroom,
        ih (fun _ => by omega) (pos_out b c.1 hpos) (Nat.lt_of_succ_lt_succ hfuel)]
      rfl

theorem natAbs_signedArg_le (isLong : Bool) (x : UInt64) :
    (signedArg isLong x).natAbs ≤ 0x8000000000000000 := by
  cases isLong with
  | true =>
    have hlow := x.toInt64.le_toInt
    have hhigh := x.toInt64.toInt_lt
    change x.toInt64.toInt.natAbs ≤ _
    omega
  | false =>
    have hlow := x.toUInt32.toInt32.le_toInt
    have hhigh := x.toUInt32.toInt32.toInt_lt
    change x.toUInt32.toInt32.toInt.natAbs ≤ _
    omega

theorem toNat_ofNat_of_le {m : Nat} (h : m ≤ 0x8000000000000000) : (UInt64.ofNat m).toNat = m := by
  rw [UInt64.toNat_ofNat']
  omega

theorem convert_of_not_waits
    (hwaits : (convPiece va (va.slot st.taken.length) dir spec conv).waits = false) :
    convert va b fuel dir spec conv st =
      if (convPiece va (va.slot st.taken.length) dir spec conv).overflows then .fault .overflow
      else .done (emit b st (convPiece va (va.slot st.taken.length) dir spec conv)) := by
  cases conv with
  | signed =>
    have habs := natAbs_signedArg_le spec.isLong (va.slot st.taken.length)
    simp only [convert, convPiece, emit, decide_eq_true_eq]
    generalize signedArg spec.isLong (va.slot st.taken.length) = v at habs ⊢
    by_cases hneg : v < 0
    · rw [if_pos hneg, if_pos hneg]
      by_cases hmin : v = -0x8000000000000000
      · rw [if_pos hmin, if_pos hmin]
      · have hval : (UInt64.ofNat (-v).toNat).toNat = v.natAbs := by
          rw [toNat_ofNat_of_le] <;> omega
        rw [if_neg hmin, if_neg hmin, putUint_eq _ _ _ _ _ _ (by decide) (by decide), hval]
        rfl
    · have hval : (UInt64.ofNat v.toNat).toNat = v.natAbs := by
        rw [toNat_ofNat_of_le] <;> omega
      have hmin : v ≠ -0x8000000000000000 := by omega
      rw [if_neg hneg, if_neg hneg, if_neg hmin,
        putUint_eq _ _ _ _ _ _ (by decide) (by decide), hval]
      rfl
  | unsigned =>
    simp only [convert, putUint_eq b _ _ _ _ _ (by decide : 1 < 10) (by decide : 10 ≤ 16)]
    rfl
  | hex =>
    simp only [convert, putUint_eq b _ _ _ _ _ (by decide : 1 < 16) (by decide : 16 ≤ 16)]
    rfl
  | hexUpper =>
    simp only [convert, putUint_eq b _ _ _ _ _ (by decide : 1 < 16) (by decide : 16 ≤ 16)]
    rfl
  | pointer =>
    simp only [convert, putUint_eq b _ _ _ _ _ (by decide : 1 < 16) (by decide : 16 ≤ 16)]
    rfl
  | char => rfl
  | string => cases hwaits
  | percent =>
    simp only [convert, convPiece, emit, Option.toList_none, List.append_nil]
    rfl
  | other c =>
    simp only [convert, convPiece, emit, Option.toList_none, List.append_nil]
    rfl

theorem convert_string : convert va b fuel dir spec .string st =
      match strLoop b fuel (stringArg va (va.slot st.taken.length)) st.sink with
      | none => .running
      | some k => .done ⟨k, st.taken ++ [dir]⟩ :=
  rfl

theorem convert_sound (h : convert va b fuel dir spec conv st = .done st')
    (hpos : st.sink.pos = min n (b.sz - 1)) :
    (convPiece va (va.slot st.taken.length) dir spec conv).Goes (b.sz - 1) n ∧
      st' = emit b st (convPiece va (va.slot st.taken.length) dir spec conv) := by
  cases hwaits : (convPiece va (va.slot st.taken.length) dir spec conv).waits with
  | false =>
    rw [convert_of_not_waits hwaits] at h
    split at h
    · cases h
    · next hover =>
        cases h
        exact ⟨⟨Bool.eq_false_iff.mpr hover, fun hw => absurd (hwaits.symm.trans hw) (by decide)⟩,
          rfl⟩
  | true =>
    obtain rfl : conv = .string := by
      cases conv with
      | string => rfl
      | _ => cases hwaits
    rw [convert_string] at h
    cases hloop : strLoop b fuel (stringArg va (va.slot st.taken.length)) st.sink with
    | none =>
      rw [hloop] at h
      cases h
    | some k =>
      rw [hloop] at h
      cases h
      obtain ⟨hfits, rfl⟩ := strLoop_sound hloop hpos
      refine ⟨⟨rfl, fun _ hne => ?_⟩, rfl⟩
      change n + (List.map _ _).length ≤ _
      rw [List.length_map]
      exact hfits fun hnil => hne (by rw [convPiece, hnil, List.map_nil])

theorem convert_complete
    (hgoes : (convPiece va (va.slot st.taken.length) dir spec conv).Goes (b.sz - 1) n)
    (hpos : st.sink.pos = min n (b.sz - 1)) :
    ∃ need, ∀ fuel, need ≤ fuel → convert va b fuel dir spec conv st =
      .done (emit b st (convPiece va (va.slot st.taken.length) dir spec conv)) := by
  cases hwaits : (convPiece va (va.slot st.taken.length) dir spec conv).waits with
  | false =>
    refine ⟨0, fun fuel _ => ?_⟩
    rw [convert_of_not_waits hwaits, if_neg (Bool.eq_false_iff.mp hgoes.noOverflow)]
  | true =>
    obtain rfl : conv = .string := by
      cases conv with
      | string => rfl
      | _ => cases hwaits
    have hfits : stringArg va (va.slot st.taken.length) ≠ [] →
        n + (stringArg va (va.slot st.taken.length)).length ≤ b.sz - 1 := by
      intro hne
      have hlen := hgoes.fits hwaits (by rwa [convPiece, Ne, List.map_eq_nil_iff])
      rwa [convPiece, List.length_map] at hlen
    refine ⟨(stringArg va (va.slot st.taken.length)).length + 1, fun fuel hfuel => ?_⟩
    rw [convert_string, strLoop_complete hfits hpos hfuel]
    rfl

/-- If the loop ends, it has printed the pieces. -/
theorem kvLoop_sound (h : kvLoop va b fuel st fmt = .done st')
    (hpos : st.sink.pos = min n (b.sz - 1)) :
    (parse fmt).2 = none ∧ Printable (b.sz - 1) n (pieces va st.taken.length (parse fmt).1) ∧
      st' = (pieces va st.taken.length (parse fmt).1).foldl (emit b) st := by
  induction fuel generalizing st fmt n with
  | zero => cases h
  | succ fuel ih =>
    cases fmt with
    | nil =>
      cases h
      rw [parse_nil]
      exact ⟨rfl, trivial, rfl⟩
    | cons c fmt =>
      rw [kvLoop] at h
      by_cases hc : c.1 ≠ 37
      · rw [if_pos hc] at h
        by_cases hroom : st.sink.pos < b.sz - 1
        · rw [if_pos hroom, ← out_of_room b c.1 hroom] at h
          obtain ⟨hends, hprint, rfl⟩ := ih h (pos_out b c.1 hpos)
          rw [parse_text hc]
          refine ⟨hends, ⟨⟨rfl, fun _ _ => ?_⟩, hprint⟩, ?_⟩
          · change n + 1 ≤ _
            omega
          · rw [pieces, List.foldl_cons, emit_text]
            rfl
        · -- nothing has changed, and the loop goes on with less fuel
          rw [if_neg hroom] at h
          exact ih h hpos
      · rw [if_neg hc] at h
        have hc' : c.1 = 37 := not_not.mp hc
        cases hspec : scanSpec fmt with
        | error f =>
          rw [hspec] at h
          cases h
        | ok p =>
          obtain ⟨spec, rest⟩ := p
          rw [hspec] at h
          cases rest with
          | nil => cases h
          | cons conv rest =>
            dsimp only at h
            cases hconv : convert va b fuel (c :: fmt) spec (convOf conv) st with
            | running =>
              rw [hconv] at h
              cases h
            | fault f =>
              rw [hconv] at h
              cases h
            | done st1 =>
              rw [hconv] at h
              obtain ⟨hgoes, rfl⟩ := convert_sound hconv hpos
              obtain ⟨hends, hprint, rfl⟩ := ih h (pos_foldl_out b _ hpos)
              rw [length_taken_emit] at hprint ⊢
              rw [parse_directive hc' hspec]
              exact ⟨hends, ⟨hgoes, hprint⟩, rfl⟩

/-- The loop ends if the pieces can be printed. -/
theorem kvLoop_complete (st : PrintState) (hends : (parse fmt).2 = none)
    (hprint : Printable (b.sz - 1) n (pieces va st.taken.length (parse fmt).1))
    (hpos : st.sink.pos = min n (b.sz - 1)) :
    ∃ need, ∀ fuel, need ≤ fuel → kvLoop va b fuel st fmt =
      .done ((pieces va st.taken.length (parse fmt).1).foldl (emit b) st) := by
  -- along the recursion of `parse`; the fuel is used for one item and then for the rest
  induction hlen : fmt.length using Nat.strongRecOn generalizing st fmt n with
  | ind len ih =>
  subst hlen
  cases fmt with
  | nil =>
    refine ⟨1, fun fuel hfuel => ?_⟩
    obtain ⟨fuel, rfl⟩ : ∃ m, fuel = m + 1 := ⟨fuel - 1, by omega⟩
    rw [parse_nil]
    rfl
  | cons c fmt =>
    by_cases hc : c.1 ≠ 37
    · rw [parse_text hc] at hends hprint ⊢
      obtain ⟨hgoes, hprint⟩ := hprint
      have hroom : st.sink.pos < b.sz - 1 := by
        have hlt : n + 1 ≤ b.sz - 1 := hgoes.fits rfl (List.cons_ne_nil _ _)
        omega
      obtain ⟨need, hneed⟩ := ih fmt.length (Nat.lt_succ_self _)
        { st with sink := b.out st.sink c.1 } hends hprint (pos_out b c.1 hpos) rfl
      refine ⟨need + 1, fun fuel hfuel => ?_⟩
      obtain ⟨fuel, rfl⟩ : ∃ m, fuel = m + 1 := ⟨fuel - 1, by omega⟩
      rw [kvLoop, if_pos hc, if_pos hroom, ← out_of_room b c.1 hroom,
        hneed fuel (Nat.le_of_succ_le_succ hfuel), pieces, List.foldl_cons, emit_text]
      rfl
    · have hc' : c.1 = 37 := not_not.mp hc
      cases hspec : scanSpec fmt with
      | error f =>
        rw [parse_error hc' hspec] at hends
        cases hends
      | ok p =>
        obtain ⟨spec, rest⟩ := p
        cases rest with
        | nil =>
          rw [parse_cut hc' hspec] at hends
          cases hends
        | cons conv rest =>
          rw [parse_directive hc' hspec] at hends hprint ⊢
          obtain ⟨hgoes, hprint⟩ := hprint
          obtain ⟨need1, hneed1⟩ := convert_complete hgoes hpos
          have hshort : rest.length < (c :: fmt).length :=
            Nat.lt_succ_of_lt (length_scanSpec_le hspec)
          obtain ⟨need2, hneed2⟩ := ih rest.length hshort
            (emit b st (convPiece va (va.slot st.taken.length) (c :: fmt) spec
              (convOf conv))) hends (by rwa [length_taken_emit]) (pos_foldl_out b _ hpos) rfl
          refine ⟨max need1 need2 + 1, fun fuel hfuel => ?_⟩
          obtain ⟨fuel, rfl⟩ : ∃ m, fuel = m + 1 := ⟨fuel - 1, by omega⟩
          rw [kvLoop, if_neg hc, hspec]
          dsimp only
          rw [hneed1 fuel (by omega)]
          dsimp only
          rw [hneed2 fuel (by omega), length_taken_emit]
          rfl

def piecesOf (va : VaList) (fmt : CString) : List Piece := pieces va 0 (parse fmt).1

def printed (b : OutBuf) (ps : List Piece) : PrintResult :=
  let text := (textOf ps).take (b.sz - 1)
  ⟨int32 text.length, storesAt b.addr (text ++ [0]), takenOf ps⟩

theorem printed_eq (b : OutBuf) (ps : List Piece) {st : PrintState}
    (h : st = ps.foldl (emit b) ⟨⟨0, []⟩, []⟩) :
    ⟨int32 st.sink.pos, (b.put st.sink 0).stores, st.taken⟩ = printed b ps := by
  rw [foldl_emit, foldl_out_empty] at h
  have hstores : (b.put st.sink 0).stores =
      storesAt b.addr ((textOf ps).take (b.sz - 1) ++ [0]) := by
    rw [h, storesAt_append]
    rfl
  rw [hstores, h]
  exact congrArg _ (List.nil_append _)

theorem returns_iff (va : VaList) {b : OutBuf} (fmt : CString) (r : PrintResult)
    (haddr : b.addr ≠ 0) (hsz : b.sz ≠ 0) : Returns va b fmt r ↔
      (parse fmt).2 = none ∧ Printable (b.sz - 1) 0 (piecesOf va fmt) ∧
        r = printed b (piecesOf va fmt) := by
  have hroom : ¬ (b.addr = 0 ∨ b.sz = 0) := not_or.mpr ⟨haddr, hsz⟩
  have hpos : (⟨⟨0, []⟩, []⟩ : PrintState).sink.pos = min 0 (b.sz - 1) := (Nat.zero_min _).symm
  constructor
  · rintro ⟨fuel, h⟩
    rw [kvsnprintf, if_neg hroom] at h
    cases hloop : kvLoop va b fuel ⟨⟨0, []⟩, []⟩ fmt with
    | running =>
      rw [hloop] at h
      cases h
    | fault f =>
      rw [hloop] at h
      cases h
    | done st =>
      rw [hloop] at h
      obtain ⟨hends, hprint, hst⟩ := kvLoop_sound hloop hpos
      exact ⟨hends, hprint, (Outcome.done.inj h).symm.trans (printed_eq b _ hst)⟩
  · rintro ⟨hends, hprint, rfl⟩
    obtain ⟨need, hneed⟩ := kvLoop_complete ⟨⟨0, []⟩, []⟩ hends hprint hpos
    refine ⟨need, ?_⟩
    rw [kvsnprintf, if_neg hroom, hneed need (Nat.le_refl need)]
    exact congrArg Outcome.done (printed_eq b _ rfl)

end DevOs
