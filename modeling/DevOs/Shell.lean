import DevOs.CString
import DevOs.Lib.ByteMem
import DevOs.Lib.Split

/-!
The input of the shell, after `shell/shell.c`: `shell_readline` edits a line, and
`shell_parse` cuts it into words.
-/

namespace DevOs

open ByteMem

def shellLineMax : Nat := 256

def shellArgsMax : Nat := 16

/-- `line_buf` and `line_len`, with the indexes that have been written to. -/
structure ShellLine where
  buf : Mem
  len : Nat
  writes : List Nat

/-- `line_buf[i] = c`. -/
def ShellLine.store (s : ShellLine) (i : Nat) (c : UInt8) : ShellLine :=
  { s with buf := Function.update s.buf i c, writes := s.writes ++ [i] }

/-- The loop of `shell_readline`, without the echo. The list is what
`keyboard_read_char` returns; none if the line does not end. -/
def readlineLoop : ShellLine → List Int → Option ShellLine
  | _, [] => none
  | s, c :: keys =>
    if c < 0 then readlineLoop s keys
    else if c = 10 ∨ c = 13 then some (s.store s.len 0)
    else if c = 8 then readlineLoop (if 0 < s.len then { s with len := s.len - 1 } else s) keys
    else if s.len < shellLineMax - 1 then
      readlineLoop { s.store s.len (UInt8.ofNat c.toNat) with len := s.len + 1 } keys
    else readlineLoop s keys

/-- `shell_readline`, when the buffer holds `buf`. -/
def shellReadline (buf : Mem) (keys : List Int) : Option ShellLine :=
  readlineLoop ⟨buf, 0, []⟩ keys

/-- A loop `while (...) p++` whose condition is on `*p`. -/
def scanWhile (cond : UInt8 → Bool) (buf : Mem) : Nat → Nat → Option Nat
  | 0, _ => none
  | fuel + 1, p => if cond (buf p) then scanWhile cond buf fuel (p + 1) else some p

/-- `while (*p == ' ') p++;` -/
def skipSpaces (buf : Mem) (p : Nat) : Option Nat := scanWhile (· == 32) buf shellLineMax p

/-- `while (*p && *p != ' ') p++;` -/
def skipWord (buf : Mem) (p : Nat) : Option Nat :=
  scanWhile (fun c => c != 0 && c != 32) buf shellLineMax p

/-- The main loop of `shell_parse`; `argv` are indexes in the buffer. It is none if the
fuel is not enough. -/
def parseLoop (maxArgs : Nat) : Nat → ShellLine → Nat → List Nat → Option (ShellLine × List Nat)
  | 0, _, _, _ => none
  | fuel + 1, s, p, argv =>
    if s.buf p ≠ 0 ∧ argv.length < maxArgs then do
      let q ← skipWord s.buf p
      let (s, q) := if s.buf q ≠ 0 then (s.store q 0, q + 1) else (s, q)
      let q ← skipSpaces s.buf q
      parseLoop maxArgs fuel s q (argv ++ [p])
    else some (s, argv)

def shellParse (s : ShellLine) (maxArgs : Nat) : Option (ShellLine × List Nat) := do
  let p ← skipSpaces s.buf 0
  parseLoop maxArgs shellLineMax s p []

/-- `'\b'`. -/
def backspace : CChar := ⟨8, by decide⟩

/-- `' '`. -/
def space : CChar := ⟨32, by decide⟩

/-- The line after one more key. -/
def typeKey (line : CString) (c : CChar) : CString :=
  if c = backspace then line.dropLast else if line.length < 255 then line ++ [c] else line

/-- The line that some keys give. -/
def typedLine (keys : List CChar) : CString := keys.foldl typeKey []

/-- A string at an index of the buffer. -/
def TextAt (m : Mem) (p : Nat) (cs : CString) : Prop :=
  Holds m p (cs.map (·.1)) ∧ m (p + cs.length) = 0

/-- The line while it is edited. -/
structure Editing (s : ShellLine) (line : CString) : Prop where
  text : Holds s.buf 0 (line.map (·.1))
  len : s.len = line.length
  room : line.length ≤ 255
  writes : ∀ i ∈ s.writes, i < shellLineMax

variable {m m' : Mem} {p q fuel : Nat} {cs ds line : CString} {s : ShellLine} {c : CChar}

theorem Editing.backspace (h : Editing s line) :
    Editing (if 0 < s.len then { s with len := s.len - 1 } else s) line.dropLast := by
  have hlen := h.len
  have hroom := h.room
  obtain rfl | ⟨line, c, rfl⟩ := line.eq_nil_or_concat'
  · rw [if_neg (by rw [hlen]; decide)]
    exact h
  · rw [List.length_append, List.length_singleton] at hlen hroom
    rw [if_pos (by omega), List.dropLast_concat]
    have htext := h.text
    rw [List.map_append, holds_append] at htext
    exact ⟨htext.1, by simp only; omega, by omega, h.writes⟩

theorem Editing.push (h : Editing s line) (hlt : s.len < shellLineMax - 1) :
    Editing { s.store s.len c.1 with len := s.len + 1 } (line ++ [c]) := by
  have hlen := h.len
  have hmax : shellLineMax = 256 := rfl
  refine ⟨?_, ?_, ?_, ?_⟩
  · have hkeep : Holds (Function.update s.buf s.len c.1) 0 (line.map (·.1)) := by
      refine (holds_congr fun i _ hi => ?_).mp h.text
      rw [List.length_map] at hi
      rw [Function.update_of_ne (by omega)]
    rw [List.map_append, holds_append]
    refine ⟨hkeep, ?_⟩
    simp [ShellLine.store, hlen]
  · simp [hlen]
  · rw [List.length_append, List.length_singleton]
    omega
  · intro i hi
    obtain hi | hi := List.mem_append.mp hi
    · exact h.writes i hi
    · rw [List.mem_singleton.mp hi]
      omega

theorem Editing.key (h : Editing s line) (hc : c.1 ≠ 10 ∧ c.1 ≠ 13) (keys : List Int) :
    ∃ s', Editing s' (typeKey line c) ∧
      readlineLoop s ((c.1.toNat : Int) :: keys) = readlineLoop s' keys := by
  have hval : ∀ n : UInt8, (c.1.toNat : Int) = (n.toNat : Int) ↔ c.1 = n := by
    intro n
    rw [Int.natCast_inj, UInt8.toNat_inj]
  have hneg : ¬ (c.1.toNat : Int) < 0 := by omega
  have hnl : ¬ ((c.1.toNat : Int) = 10 ∨ (c.1.toNat : Int) = 13) := by
    rintro (h10 | h13)
    · exact hc.1 ((hval 10).mp h10)
    · exact hc.2 ((hval 13).mp h13)
  have h8 : (c.1.toNat : Int) = 8 ↔ c = DevOs.backspace :=
    (hval 8).trans ⟨fun heq => Subtype.ext heq, fun heq => congrArg (·.1) heq⟩
  rw [readlineLoop, if_neg hneg, if_neg hnl, typeKey]
  by_cases hb : c = DevOs.backspace
  · rw [if_pos hb, if_pos (h8.mpr hb)]
    exact ⟨_, h.backspace, rfl⟩
  · rw [if_neg hb, if_neg (mt h8.mp hb)]
    by_cases hlt : s.len < shellLineMax - 1
    · rw [if_pos hlt, if_pos (by rw [← h.len]; exact hlt), Int.toNat_natCast, UInt8.ofNat_toNat]
      exact ⟨_, h.push hlt, rfl⟩
    · rw [if_neg hlt, if_neg (by rw [← h.len]; exact hlt)]
      exact ⟨s, h, rfl⟩

theorem readlineLoop_typed {last : Int} (keys : List CChar) (h : Editing s line)
    (hkeys : ∀ c ∈ keys, c.1 ≠ 10 ∧ c.1 ≠ 13) (hlast : last = 10 ∨ last = 13) :
    ∃ t, readlineLoop s (keys.map (fun c => (c.1.toNat : Int)) ++ [last]) = some t ∧
      TextAt t.buf 0 (keys.foldl typeKey line) ∧ (keys.foldl typeKey line).length ≤ 255 ∧
      ∀ i ∈ t.writes, i < shellLineMax := by
  induction keys generalizing s line with
  | nil =>
    have hlen := h.len
    have hroom := h.room
    refine ⟨s.store s.len 0, ?_, ⟨?_, ?_⟩, h.room, fun i hi => ?_⟩
    · rw [List.map_nil, List.nil_append, readlineLoop, if_neg (by omega), if_pos hlast]
    · refine (holds_congr fun i _ hi => ?_).mp h.text
      rw [List.foldl_nil, List.length_map] at hi
      exact (Function.update_of_ne (by omega) ..).symm
    · rw [List.foldl_nil, Nat.zero_add, ← hlen]
      exact Function.update_self ..
    · obtain hi | hi := List.mem_append.mp hi
      · exact h.writes i hi
      · rw [List.mem_singleton.mp hi, hlen]
        exact Nat.lt_succ_of_le hroom
  | cons c keys ih =>
    obtain ⟨s', hs', hstep⟩ := h.key (hkeys c List.mem_cons_self)
      (keys.map (fun c => (c.1.toNat : Int)) ++ [last])
    rw [List.map_cons, List.cons_append, hstep]
    exact ih hs' fun d hd => hkeys d (List.mem_cons_of_mem c hd)

theorem scanWhile_of_holds {cond : UInt8 → Bool} (h : Holds m p (cs.map (·.1)))
    (hcs : ∀ c ∈ cs, cond c.1 = true) (hstop : cond (m (p + cs.length)) = false)
    (hfuel : cs.length < fuel) : scanWhile cond m fuel p = some (p + cs.length) := by
  obtain ⟨fuel, rfl⟩ := Nat.exists_eq_add_of_lt hfuel
  induction cs generalizing p with
  | nil =>
    rw [List.length_nil, Nat.add_zero] at hstop ⊢
    rw [Nat.zero_add, scanWhile, hstop]
    rfl
  | cons c cs ih =>
    rw [List.map_cons, holds_cons] at h
    have hc : cond (m p) = true := by
      rw [h.1]
      exact hcs c List.mem_cons_self
    have hend : p + (c :: cs).length = p + 1 + cs.length := by
      rw [List.length_cons]
      omega
    rw [hend] at hstop ⊢
    rw [List.length_cons, Nat.add_right_comm cs.length 1 fuel, scanWhile, if_pos hc]
    exact ih h.2 (fun d hd => hcs d (List.mem_cons_of_mem c hd)) hstop (by omega)

theorem TextAt.append (h : TextAt m p (cs ++ ds)) :
    Holds m p (cs.map (·.1)) ∧ TextAt m (p + cs.length) ds := by
  obtain ⟨htext, hnul⟩ := h
  rw [List.map_append, holds_append, List.length_map] at htext
  rw [List.length_append, ← Nat.add_assoc] at hnul
  exact ⟨htext.1, htext.2, hnul⟩

theorem TextAt.head (h : TextAt m p cs) : m p = (cs.head?.map (·.1)).getD 0 := by
  cases cs with
  | nil => exact h.2
  | cons c cs => exact (holds_cons.mp h.1).1

theorem skipSpaces_text (h : TextAt m p cs) (hend : p + cs.length ≤ 255) :
    ∃ q ds, skipSpaces m p = some q ∧ TextAt m q ds ∧ p ≤ q ∧ q + ds.length = p + cs.length ∧
      ds.head? ≠ some space ∧ Split.runs space ds = Split.runs space cs := by
  have hsplit := List.takeWhile_append_dropWhile (p := (· = space)) (l := cs)
  have hlen := congrArg List.length hsplit
  rw [List.length_append] at hlen
  have hhead : (cs.dropWhile (· = space)).head? ≠ some space := by
    intro hsome
    have := List.head?_dropWhile_not (· = space) cs
    simp [hsome] at this
  rw [← hsplit] at h
  obtain ⟨hholds, hrest⟩ := h.append
  refine ⟨_, cs.dropWhile (· = space), scanWhile_of_holds hholds ?_ ?_ ?_, hrest, by omega,
    by omega, hhead, Split.runs_dropWhile⟩
  · intro c hc
    have hspace : c = space := by simpa using List.mem_takeWhile_imp hc
    rw [hspace]
    rfl
  · rw [hrest.head]
    cases hd : (cs.dropWhile (· = space)).head? with
    | none => rfl
    | some c =>
      rw [hd] at hhead
      have hne : c.1 ≠ 32 := fun heq => hhead (congrArg some (Subtype.ext heq))
      simpa using hne
  · have hmax : shellLineMax = 256 := rfl
    omega

theorem TextAt.cut (h : TextAt s.buf p (cs ++ ds)) (hds : ds = [] ∨ ∃ rest, ds = space :: rest) :
    ∃ s' q rest, (if s.buf (p + cs.length) ≠ 0 then (s.store (p + cs.length) 0, p + cs.length + 1)
        else (s, p + cs.length)) = (s', q) ∧
      TextAt s'.buf p cs ∧ TextAt s'.buf q rest ∧ Split.runs space rest = Split.runs space ds ∧
      p + cs.length ≤ q ∧ q + rest.length = p + cs.length + ds.length ∧
      (∀ i, i < p + cs.length ∨ s.buf i = 0 → s'.buf i = s.buf i) ∧
      ∀ i ∈ s'.writes, i ∈ s.writes ∨ i = p + cs.length := by
  obtain ⟨hword, hrest⟩ := h.append
  obtain rfl | ⟨rest, rfl⟩ := hds
  · have hat : s.buf (p + cs.length) = 0 := hrest.head
    rw [if_neg (not_not.mpr hat)]
    exact ⟨s, _, [], rfl, ⟨hword, hat⟩, hrest, rfl, le_rfl, rfl, fun i _ => rfl,
      fun i hi => .inl hi⟩
  · have hat : s.buf (p + cs.length) = 32 := hrest.head
    have hne : s.buf (p + cs.length) ≠ 0 := by
      rw [hat]
      decide
    have hkeep : ∀ i, i ≠ p + cs.length →
        (s.store (p + cs.length) 0).buf i = s.buf i := fun i hi => Function.update_of_ne hi ..
    rw [if_pos hne]
    refine ⟨_, _, rest, rfl, ⟨?_, Function.update_self ..⟩, ⟨?_, ?_⟩, Split.runs_sep.symm, by omega,
      ?_, fun i hi => hkeep i ?_, fun i hi => ?_⟩
    · refine (holds_congr fun i _ hi => ?_).mp hword
      rw [List.length_map] at hi
      exact (hkeep i (by omega)).symm
    · refine (holds_congr fun i hi _ => ?_).mp (holds_cons.mp hrest.1).2
      exact (hkeep i (by omega)).symm
    · rw [hkeep _ (by omega), ← hrest.2, List.length_cons, Nat.add_assoc _ 1, Nat.add_comm 1]
    · rw [List.length_cons]
      omega
    · rintro rfl
      exact hi.elim (Nat.lt_irrefl _) hne
    · obtain hi | hi := List.mem_append.mp hi
      · exact .inl hi
      · exact .inr (List.mem_singleton.mp hi)

theorem first_word (cs : CString) (hc : c ≠ space) :
    ∃ word tail, c :: cs = word ++ tail ∧ (0 < word.length ∧ ∀ d ∈ word, d ≠ space) ∧
      (tail = [] ∨ ∃ rest, tail = space :: rest) ∧
      Split.runs space (c :: cs) = word :: Split.runs space tail := by
  refine ⟨c :: cs.takeWhile (· ≠ space), cs.dropWhile (· ≠ space), ?_,
    ⟨Nat.succ_pos _, fun d hd => ?_⟩, ?_, Split.runs_cons hc⟩
  · rw [List.cons_append, List.takeWhile_append_dropWhile]
  · obtain rfl | hd := List.mem_cons.mp hd
    · exact hc
    · simpa using List.mem_takeWhile_imp hd
  · cases hd : cs.dropWhile (· ≠ space) with
    | nil => exact .inl rfl
    | cons b rest =>
      have hb := List.head?_dropWhile_not (· ≠ space) cs
      rw [hd] at hb
      exact .inr ⟨rest, by simpa using hb⟩

theorem parseLoop_words (maxArgs : Nat) (argv : List Nat) (h : TextAt s.buf p cs)
    (hfuel : cs.length < fuel) (hend : p + cs.length ≤ 255) (hhead : cs.head? ≠ some space) :
    ∃ t ps, parseLoop maxArgs fuel s p argv = some (t, argv ++ ps) ∧
      List.Forall₂ (TextAt t.buf) ps ((Split.runs space cs).take (maxArgs - argv.length)) ∧
      (∀ i, i < p ∨ s.buf i = 0 → t.buf i = s.buf i) ∧ ∀ i ∈ t.writes, i ∈ s.writes ∨ i ≤ 255 := by
  induction fuel generalizing s p cs argv with
  | zero => omega
  | succ fuel ih =>
    have hstop : ∀ ws : List CString, ¬ (s.buf p ≠ 0 ∧ argv.length < maxArgs) →
        ws.take (maxArgs - argv.length) = [] → ∃ t ps,
          parseLoop maxArgs (fuel + 1) s p argv = some (t, argv ++ ps) ∧
          List.Forall₂ (TextAt t.buf) ps (ws.take (maxArgs - argv.length)) ∧
          (∀ i, i < p ∨ s.buf i = 0 → t.buf i = s.buf i) ∧
          ∀ i ∈ t.writes, i ∈ s.writes ∨ i ≤ 255 := by
      intro ws hnot hws
      refine ⟨s, [], ?_, ?_, fun i _ => rfl, fun i hi => .inl hi⟩
      · rw [parseLoop, if_neg hnot, List.append_nil]
      · rw [hws]
        exact .nil
    cases cs with
    | nil => exact hstop _ (fun hgo => hgo.1 h.2) (by rw [Split.runs_nil, List.take_nil])
    | cons c cs =>
      have hc : c ≠ space := fun heq => hhead (congrArg some heq)
      by_cases hroom : argv.length < maxArgs
      · have hgo : s.buf p ≠ 0 ∧ argv.length < maxArgs := by
          rw [h.head]
          exact ⟨c.2, hroom⟩
        obtain ⟨word, tail, hsplit, hword, htail, hruns⟩ := first_word cs hc
        have hlen := congrArg List.length hsplit
        rw [List.length_append, List.length_cons] at hlen
        rw [List.length_cons] at hfuel hend
        rw [hsplit] at h
        have hskip : skipWord s.buf p = some (p + word.length) := by
          refine scanWhile_of_holds h.append.1 (fun d hd => ?_) ?_ ?_
          · have hd32 : d.1 ≠ 32 := fun heq => hword.2 d hd (Subtype.ext heq)
            simp [d.2, hd32]
          · rw [h.append.2.head]
            obtain rfl | ⟨rest, rfl⟩ := htail <;> rfl
          · have hmax : shellLineMax = 256 := rfl
            omega
        obtain ⟨s', q, rest, hcut, htext, hrest, hruns1, hq, hqlen, hframe, hwrites⟩ := h.cut htail
        obtain ⟨q', ds, hspaces, hds, hqq, hqlen', hhead', hruns2⟩ :=
          skipSpaces_text hrest (by omega)
        have hpos := hword.1
        obtain ⟨t, ps, hloop, hforall, hframe', hwrites'⟩ :=
          ih (argv ++ [p]) hds (by omega) (by omega) hhead'
        refine ⟨t, p :: ps, ?_, ?_, fun i hi => ?_, fun i hi => ?_⟩
        · rw [parseLoop, if_pos hgo, hskip]
          simp only [Option.bind_eq_bind, Option.bind_some, hcut, hspaces, hloop, List.append_assoc,
            List.singleton_append]
        · have hleft : maxArgs - argv.length = maxArgs - (argv ++ [p]).length + 1 := by
            rw [List.length_append, List.length_singleton]
            omega
          rw [hruns, hleft, List.take_succ_cons, ← hruns1, ← hruns2]
          refine .cons ⟨(holds_congr fun i _ hi => ?_).mp htext.1, ?_⟩ hforall
          · rw [List.length_map] at hi
            exact (hframe' i (.inl (by omega))).symm
          · rw [hframe' _ (.inr htext.2), htext.2]
        · have hs' := hframe i (hi.imp_left fun hlt => by omega)
          rw [hframe' i (hi.imp (fun hlt => by omega) fun hnul => hs'.trans hnul), hs']
        · obtain hi | hi := hwrites' i hi
          · exact (hwrites i hi).imp_right fun heq => by omega
          · exact .inr hi
      · refine hstop _ (fun hgo => hroom hgo.2) ?_
        rw [Nat.sub_eq_zero_of_le (Nat.le_of_not_lt hroom), List.take_zero]

/-- **The arguments are the words of the line that was typed.** -/
theorem shell_argv_words (buf : Mem) (keys : List CChar) (last : Int)
    (hkeys : ∀ c ∈ keys, c.1 ≠ 10 ∧ c.1 ≠ 13) (hlast : last = 10 ∨ last = 13) :
    ∃ s t argv, shellReadline buf (keys.map (fun c => (c.1.toNat : Int)) ++ [last]) = some s ∧
      shellParse s shellArgsMax = some (t, argv) ∧
      List.Forall₂ (TextAt t.buf) argv ((Split.runs space (typedLine keys)).take 16) ∧
      ∀ i ∈ t.writes, i < shellLineMax := by
  have hempty : Editing ⟨buf, 0, []⟩ [] :=
    ⟨holds_nil.mpr trivial, rfl, Nat.zero_le _, fun i hi => absurd hi List.not_mem_nil⟩
  obtain ⟨s, hread, htext, hroom, hwrites⟩ := readlineLoop_typed keys hempty hkeys hlast
  obtain ⟨p, ds, hspaces, hds, -, hlen, hhead, hruns⟩ := skipSpaces_text htext (by omega)
  have hfuel : ds.length < shellLineMax := by
    change ds.length < 256
    omega
  obtain ⟨t, ps, hloop, hforall, -, hwrites'⟩ :=
    parseLoop_words shellArgsMax [] hds hfuel (by omega) hhead
  refine ⟨s, t, ps, hread, ?_, ?_, fun i hi => ?_⟩
  · rw [shellParse, hspaces]
    exact hloop
  · rw [hruns] at hforall
    exact hforall
  · exact (hwrites' i hi).elim (hwrites i) Nat.lt_succ_of_le

theorem shell_argv_ls : ∃ s t argv,
    shellReadline (fun _ => 0) [120, 8, 108, 115, 32, 47, 10] = some s ∧
      shellParse s shellArgsMax = some (t, argv) ∧
      List.Forall₂ (TextAt t.buf) argv [cstr [108, 115], cstr [47]] ∧
      ∀ i ∈ t.writes, i < shellLineMax :=
  shell_argv_words (fun _ => 0) (cstr [120, 8, 108, 115, 32, 47]) 10 (by decide) (.inl rfl)

end DevOs
