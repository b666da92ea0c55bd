import DevOs.Printf.Pieces

/-!
`kvsnprintf` with a buffer that is too small and with a format that is cut off.
-/

namespace DevOs

section

variable {va : VaList} {b : OutBuf} {k k' : Sink} {st : PrintState} {fuel fuel' : Nat}
  {dir fmt s : CString} {spec : PrintSpec} {conv : Conv}

theorem strLoop_succ (h : strLoop b fuel s k = some k') : strLoop b (fuel + 1) s k = some k' := by
  induction fuel generalizing s k with
  | zero => cases h
  | succ fuel ih =>
    cases s with
    | nil => exact h
    | cons c s =>
      rw [strLoop] at h ⊢
      split
      · next hroom =>
          rw [if_pos hroom] at h
          exact ih h
      · next hroom =>
          rw [if_neg hroom] at h
          exact ih h

theorem convert_succ (h : convert va b fuel dir spec conv st ≠ .running) :
    convert va b (fuel + 1) dir spec conv st = convert va b fuel dir spec conv st := by
  cases conv with
  | string =>
    rw [convert_string] at h ⊢
    rw [convert_string]
    cases hloop : strLoop b fuel (stringArg va (va.slot st.taken.length)) st.sink with
    | none =>
      rw [hloop] at h
      exact absurd rfl h
    | some k => rw [strLoop_succ hloop]
  | _ => rfl

theorem kvLoop_succ (h : kvLoop va b fuel st fmt ≠ .running) :
    kvLoop va b (fuel + 1) st fmt = kvLoop va b fuel st fmt := by
  induction fuel generalizing st fmt with
  | zero => exact absurd rfl h
  | succ fuel ih =>
    cases fmt with
    | nil => rfl
    | cons c fmt =>
      rw [kvLoop] at h
      conv_lhs => rw [kvLoop]
      conv_rhs => rw [kvLoop]
      by_cases hc : c.1 ≠ 37
      · rw [if_pos hc] at h ⊢
        rw [if_pos hc]
        by_cases hroom : st.sink.pos < b.sz - 1
        · rw [if_pos hroom] at h ⊢
          rw [if_pos hroom]
          exact ih h
        · rw [if_neg hroom] at h ⊢
          rw [if_neg hroom]
          exact ih h
      · rw [if_neg hc] at h ⊢
        rw [if_neg hc]
        cases hspec : scanSpec fmt with
        | error f => rfl
        | ok p =>
          obtain ⟨spec, rest⟩ := p
          rw [hspec] at h
          cases rest with
          | nil => rfl
          | cons conv rest =>
            dsimp only at h ⊢
            have hconv : convert va b fuel (c :: fmt) spec (convOf conv) st ≠ .running := by
              intro hrun
              rw [hrun] at h
              exact h rfl
            rw [convert_succ hconv]
            cases hdone : convert va b fuel (c :: fmt) spec (convOf conv) st with
            | running => rfl
            | fault f => rfl
            | done st1 =>
              rw [hdone] at h
              exact ih h

theorem kvsnprintf_succ (h : kvsnprintf va b fuel fmt ≠ .running) :
    kvsnprintf va b (fuel + 1) fmt = kvsnprintf va b fuel fmt := by
  unfold kvsnprintf at h ⊢
  split
  · rfl
  · next hbuf =>
      rw [if_neg hbuf] at h
      have hloop : kvLoop va b fuel ⟨⟨0, []⟩, []⟩ fmt ≠ .running := by
        intro hrun
        rw [hrun] at h
        exact h rfl
      rw [kvLoop_succ hloop]

theorem kvsnprintf_mono (h : kvsnprintf va b fuel fmt ≠ .running) (hle : fuel ≤ fuel') :
    kvsnprintf va b fuel' fmt = kvsnprintf va b fuel fmt := by
  induction hle with
  | refl => rfl
  | step _ ih => rw [kvsnprintf_succ (by rwa [ih]), ih]

theorem Returns.ne_fault {r : PrintResult} (h : Returns va b fmt r) (fuel : Nat)
    (f : PrintfFault) : kvsnprintf va b fuel fmt ≠ .fault f := by
  intro hfault
  obtain ⟨fuel', hdone⟩ := h
  have hsame : kvsnprintf va b fuel fmt = kvsnprintf va b fuel' fmt := by
    obtain hle | hle := Nat.le_total fuel fuel'
    · exact (kvsnprintf_mono (by simp [hfault]) hle).symm
    · exact kvsnprintf_mono (by simp [hdone]) hle
  rw [hfault, hdone] at hsame
  cases hsame

end

def SafePrint (va : VaList) (b : OutBuf) (fmt : CString) : Prop :=
  (∀ fuel, kvsnprintf va b fuel fmt ≠ .fault .overread) ∧ ∃ r, Returns va b fmt r

/-- **A call stays inside the format and returns** exactly if there is no buffer, or no
directive is cut off, no `int` overflows and there is room for all that waits. -/
theorem safePrint_iff (va : VaList) (b : OutBuf) (fmt : CString) :
    SafePrint va b fmt ↔
      b.addr = 0 ∨ b.sz = 0 ∨
        (parse fmt).2 = none ∧ Printable (b.sz - 1) 0 (piecesOf va fmt) := by
  have hsafe : SafePrint va b fmt ↔ ∃ r, Returns va b fmt r :=
    and_iff_right_of_imp fun ⟨_, h⟩ fuel => h.ne_fault fuel _
  rw [hsafe]
  by_cases hbuf : b.addr = 0 ∨ b.sz = 0
  · refine iff_of_true ⟨⟨0, [], []⟩, 0, if_pos hbuf⟩ ?_
    rw [← or_assoc]
    exact .inl hbuf
  · obtain ⟨haddr, hsz⟩ := not_or.mp hbuf
    simp only [returns_iff va fmt _ haddr hsz, haddr, hsz, false_or]
    exact ⟨fun ⟨_, hends, hprint, _⟩ => ⟨hends, hprint⟩,
      fun ⟨hends, hprint⟩ => ⟨_, hends, hprint, rfl⟩⟩

def noArgs : VaList := ⟨fun _ => 0, fun _ => []⟩

theorem percent_overreads : ¬ SafePrint noArgs ⟨0x1000, 16⟩ (cstr [37]) :=
  fun h => h.1 1 rfl

/-- The call stores `text` and a NUL behind it, all inside the buffer, and returns the
length of the text. -/
def Prints (va : VaList) (b : OutBuf) (fmt : CString) (text : List UInt8) : Prop :=
  text.length < b.sz ∧
    ∃ taken, Returns va b fmt ⟨text.length, storesAt b.addr (text ++ [0]), taken⟩

/-- With the size `s` the call stores the first `s - 1` characters of what it stores with
the size `s'`. -/
def Truncates (va : VaList) (addr : Nat) (fmt : CString) (s s' : Nat) : Prop :=
  ∃ text text', Prints va ⟨addr, s⟩ fmt text ∧ Prints va ⟨addr, s'⟩ fmt text' ∧
    text = text'.take (s - 1)

variable {va : VaList} {b : OutBuf} {fmt : CString} {text : List UInt8}

theorem prints_iff (haddr : b.addr ≠ 0) (hsz : b.sz ≠ 0) : Prints va b fmt text ↔
      (parse fmt).2 = none ∧ Printable (b.sz - 1) 0 (piecesOf va fmt) ∧
        text = (textOf (piecesOf va fmt)).take (b.sz - 1) ∧ text.length < 2 ^ 31 := by
  constructor
  · rintro ⟨hlen, taken, h⟩
    obtain ⟨hends, hprint, heq⟩ := (returns_iff va fmt _ haddr hsz).mp h
    have htext : text = (textOf (piecesOf va fmt)).take (b.sz - 1) := by
      have hstores := congrArg (fun r => r.stores.map Prod.snd) heq
      simp only [printed, map_snd_storesAt] at hstores
      exact List.append_cancel_right hstores
    have hret := congrArg PrintResult.ret heq
    dsimp only [printed] at hret
    rw [← htext] at hret
    exact ⟨hends, hprint, htext, int32_eq_self_iff.mp hret.symm⟩
  · rintro ⟨hends, hprint, htext, hlen⟩
    have hle : text.length ≤ b.sz - 1 := by
      rw [htext]
      exact List.length_take_le _ _
    refine ⟨by omega, takenOf (piecesOf va fmt), (returns_iff va fmt _ haddr hsz).mpr
      ⟨hends, hprint, ?_⟩⟩
    rw [printed, ← htext, int32_eq_self_iff.mpr hlen]

theorem Printable.mono {cap cap' n : Nat} {ps : List Piece} (h : Printable cap n ps)
    (hcap : cap ≤ cap') : Printable cap' n ps := by
  induction ps generalizing n with
  | nil => trivial
  | cons p ps ih =>
    exact ⟨⟨h.1.noOverflow, fun hw hne => Nat.le_trans (h.1.fits hw hne) hcap⟩, ih h.2⟩

/-- **A smaller buffer gets the beginning of what a larger one gets** exactly if no
directive is cut off, no `int` overflows, there is room in the smaller one for all that
waits, and the length that is returned is that of an `int`. -/
theorem truncates_iff (va : VaList) {addr s s' : Nat} (fmt : CString) (haddr : addr ≠ 0)
    (hs : 1 ≤ s) (hss : s ≤ s') :
    Truncates va addr fmt s s' ↔
      (parse fmt).2 = none ∧ Printable (s - 1) 0 (piecesOf va fmt) ∧
        min (s' - 1) (textOf (piecesOf va fmt)).length < 2 ^ 31 := by
  have hsz : (⟨addr, s⟩ : OutBuf).sz ≠ 0 := Nat.ne_of_gt hs
  have hsz' : (⟨addr, s'⟩ : OutBuf).sz ≠ 0 := Nat.ne_of_gt (Nat.le_trans hs hss)
  unfold Truncates
  simp only [prints_iff haddr hsz, prints_iff haddr hsz']
  constructor
  · rintro ⟨text, text', ⟨hends, hprint, -⟩, ⟨-, -, htext', hlen'⟩, -⟩
    rw [htext', List.length_take] at hlen'
    exact ⟨hends, hprint, hlen'⟩
  · rintro ⟨hends, hprint, hlen⟩
    have hcap : s - 1 ≤ s' - 1 := Nat.sub_le_sub_right hss 1
    refine ⟨_, _, ⟨hends, hprint, rfl, ?_⟩, ⟨hends, hprint.mono hcap, rfl, ?_⟩, ?_⟩
    · rw [List.length_take]
      omega
    · rwa [List.length_take]
    · rw [List.take_take, Nat.min_eq_left hcap]

theorem truncates_number :
    (0x1000 ≠ 0 ∧ 1 ≤ 3 ∧ 3 ≤ 9) ∧ Truncates noArgs 0x1000 (cstr [37, 52, 117]) 3 9 := by
  have hparse : parse (cstr [37, 52, 117]) =
      ([.directive (cstr [37, 52, 117]) ⟨false, 4, false⟩ .unsigned], none) := by
    have hspec : scanSpec (cstr [52, 117]) = .ok (⟨false, 4, false⟩, [⟨117, by decide⟩]) := rfl
    refine (parse_directive (c := ⟨37, by decide⟩) rfl hspec).trans ?_
    rw [parse_nil]
    rfl
  refine ⟨by decide, (truncates_iff noArgs (cstr [37, 52, 117]) (by decide) (by decide)
    (by decide)).mpr ?_⟩
  rw [piecesOf, hparse]
  exact ⟨rfl, ⟨⟨rfl, fun hwaits => absurd hwaits (by decide)⟩, trivial⟩,
    Nat.lt_of_le_of_lt (Nat.min_le_left _ _) (by decide)⟩

theorem letters_do_not_truncate : ¬ Truncates noArgs 0x1000 (cstr [97, 98]) 2 3 := by
  rintro ⟨text, text', hprints, -⟩
  obtain ⟨-, hprint, -⟩ := (prints_iff (by decide) (by decide)).mp hprints
  have hfirst : parse (cstr [97, 98]) =
      (.text ⟨97, by decide⟩ :: (parse (cstr [98])).1, (parse (cstr [98])).2) :=
    parse_text (by decide)
  have hsecond : parse (cstr [98]) = (.text ⟨98, by decide⟩ :: (parse []).1, (parse []).2) :=
    parse_text (by decide)
  rw [piecesOf, hfirst, hsecond] at hprint
  exact absurd (hprint.2.1.fits rfl (List.cons_ne_nil _ _)) (by decide)

end DevOs
