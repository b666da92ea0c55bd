import DevOs.Lib.Ring
import DevOs.Sched.Ops

/-!
The PS/2 keyboard, after `drivers/keyboard.c`: an interrupt handler that puts
characters into a ring of 256 bytes, and `keyboard_poll`, which takes them out
without a lock.
-/

namespace DevOs

def kbBufSize : Nat := 256

def kbWaitMax : Nat := 8

/-- `scancode_map`; the rest of its 128 bytes is 0. -/
def scancodeMap : List UInt8 :=
  [0, 27, 49, 50, 51, 52, 53, 54, 55, 56, 57, 48, 45, 61, 8,
    9, 113, 119, 101, 114, 116, 121, 117, 105, 111, 112, 91, 93, 10,
    0, 97, 115, 100, 102, 103, 104, 106, 107, 108, 59, 39, 96,
    0, 92, 122, 120, 99, 118, 98, 110, 109, 44, 46, 47, 0,
    42, 0, 32]

def scancodeShiftMap : List UInt8 :=
  [0, 27, 33, 64, 35, 36, 37, 94, 38, 42, 40, 41, 95, 43, 8,
    9, 81, 87, 69, 82, 84, 89, 85, 73, 79, 80, 123, 125, 10,
    0, 65, 83, 68, 70, 71, 72, 74, 75, 76, 58, 34, 126,
    0, 124, 90, 88, 67, 86, 66, 78, 77, 60, 62, 63, 0,
    42, 0, 32]

/-- The variables of the driver. The waiters are the first `kb_waiter_count` elements of
`kb_waiters`; only tasks that exist are entered. -/
structure Keyboard where
  buf : Nat → UInt8
  head : Nat
  tail : Nat
  shift : Bool
  caps : Bool
  waiters : List TaskId

inductive KbOutcome where
  | ignored
  | accepted (c : UInt8)
  | dropped (c : UInt8)
  deriving DecidableEq, Repr

def kbDecode (k : Keyboard) (sc : UInt8) : UInt8 :=
  (if k.shift || k.caps then scancodeShiftMap else scancodeMap).getD sc.toNat 0

/-- `if (next != kb_tail) { kb_buf[kb_head] = c; kb_head = next; }` -/
def kbStore (k : Keyboard) (c : UInt8) : Keyboard × KbOutcome :=
  let next := (k.head + 1) % kbBufSize
  if next ≠ k.tail then
    ({ k with buf := Function.update k.buf k.head c, head := next }, .accepted c)
  else (k, .dropped c)

/-- `kb_irq_handler` for the scan code `sc`, with the tasks that it unblocks. -/
def kbIrqHandler (k : Keyboard) (sc : UInt8) : Keyboard × KbOutcome × List TaskId :=
  if sc &&& 0x80 ≠ 0 then
    let sc := sc &&& 0x7F
    (if sc = 0x2A ∨ sc = 0x36 then { k with shift := false } else k, .ignored, [])
  else if sc = 0x2A ∨ sc = 0x36 then ({ k with shift := true }, .ignored, [])
  else if sc = 0x3A then ({ k with caps := !k.caps }, .ignored, [])
  else if 128 ≤ sc.toNat then (k, .ignored, [])
  else if kbDecode k sc = 0 then (k, .ignored, [])
  else
    let (k', outcome) := kbStore k (kbDecode k sc)
    ({ k' with waiters := [] }, outcome, k.waiters)

/-- The part of `keyboard_read_char` with interrupts off that enters a waiting task. -/
def keyboardWait (k : Keyboard) (t : TaskId) : Keyboard :=
  if k.head = k.tail ∧ k.waiters.length < kbWaitMax then { k with waiters := k.waiters ++ [t] }
  else k

/-- Where the reader is in `keyboard_poll`, and what it has loaded. -/
inductive Reader where
  | idle
  | gotHead (head : Nat)
  | gotTail (tail : Nat)
  | nonempty
  | index (tail : Nat)
  | loaded (c : UInt8)
  | advance (c : UInt8) (tail : Nat)
  deriving DecidableEq, Repr

/-- The next access of the reader, and what `keyboard_poll` returns if it was the last.
The compiler chooses which side of `kb_head == kb_tail` is loaded first. -/
def readerStep (tailFirst : Bool) (k : Keyboard) : Reader → Keyboard × Reader × Option Int
  | .idle => (k, if tailFirst then .gotTail k.tail else .gotHead k.head, none)
  | .gotHead head => if head = k.tail then (k, .idle, some (-1)) else (k, .nonempty, none)
  | .gotTail tail => if k.head = tail then (k, .idle, some (-1)) else (k, .nonempty, none)
  | .nonempty => (k, .index k.tail, none)
  | .index tail => (k, .loaded (k.buf tail), none)
  | .loaded c => (k, .advance c k.tail, none)
  | .advance c tail => ({ k with tail := (tail + 1) % kbBufSize }, .idle, some c.toNat)

structure KbSystem where
  kb : Keyboard
  reader : Reader
  accepted : List UInt8
  returned : List UInt8

inductive KbInput where
  | irq (sc : UInt8)
  | read (tailFirst : Bool)
  | wait (t : TaskId)

def charOf (r : Int) : List UInt8 := if 0 ≤ r then [.ofNat r.toNat] else []

def KbOutcome.chars : KbOutcome → List UInt8
  | .accepted c => [c]
  | _ => []

def kbStep (s : KbSystem) : KbInput → KbSystem
  | .irq sc =>
    let (kb, outcome, _) := kbIrqHandler s.kb sc
    { s with kb := kb, accepted := s.accepted ++ outcome.chars }
  | .read tailFirst =>
    let (kb, reader, ret) := readerStep tailFirst s.kb s.reader
    { s with kb := kb, reader := reader, returned := s.returned ++ ret.toList.flatMap charOf }
  | .wait t => { s with kb := keyboardWait s.kb t }

def kbStart (buf : Nat → UInt8) : KbSystem := ⟨⟨buf, 0, 0, false, false, []⟩, .idle, [], []⟩

variable {k : Keyboard} {sc c : UInt8} {unread : List UInt8} {s : KbSystem}

theorem kbIrqHandler_cases (k : Keyboard) (sc : UInt8) :
    let r := kbIrqHandler k sc
    r.1.tail = k.tail ∧
      (r.1.buf = k.buf ∧ r.1.head = k.head ∧ r.2.1 = .ignored ∨
        (∃ c, (k.head + 1) % kbBufSize ≠ k.tail ∧ r.1.buf = Function.update k.buf k.head c ∧
          r.1.head = (k.head + 1) % kbBufSize ∧ r.2.1 = .accepted c) ∨
        ∃ c, (k.head + 1) % kbBufSize = k.tail ∧ r.1.buf = k.buf ∧ r.1.head = k.head ∧
          r.2.1 = .dropped c) := by
  dsimp only
  unfold kbIrqHandler
  split
  · dsimp only
    split <;> exact ⟨rfl, .inl ⟨rfl, rfl, rfl⟩⟩
  · split
    · exact ⟨rfl, .inl ⟨rfl, rfl, rfl⟩⟩
    · split
      · exact ⟨rfl, .inl ⟨rfl, rfl, rfl⟩⟩
      · split
        · exact ⟨rfl, .inl ⟨rfl, rfl, rfl⟩⟩
        · split
          · exact ⟨rfl, .inl ⟨rfl, rfl, rfl⟩⟩
          · by_cases hfull : (k.head + 1) % kbBufSize = k.tail
            · simp [kbStore, hfull]
            · simp [kbStore, hfull]

def ReaderOk (k : Keyboard) (unread : List UInt8) : Reader → Prop
  | .idle => True
  | .gotHead head => head ≠ k.tail → unread ≠ []
  | .gotTail tail => tail = k.tail
  | .nonempty => unread ≠ []
  | .index tail => tail = k.tail ∧ unread ≠ []
  | .loaded c => unread.head? = some c
  | .advance c tail => tail = k.tail ∧ unread.head? = some c

structure KbInv (s : KbSystem) (unread : List UInt8) : Prop where
  queue : Ring.Queue kbBufSize s.kb.buf s.kb.tail s.kb.head unread
  log : s.accepted = s.returned ++ unread
  reader : ReaderOk s.kb unread s.reader

theorem kbInv_kbStart (buf : Nat → UInt8) : KbInv (kbStart buf) [] where
  queue := Ring.queue_nil (show 0 < kbBufSize by decide) buf
  log := rfl
  reader := trivial

theorem ReaderOk.append {k' : Keyboard} {r : Reader} (h : ReaderOk k unread r)
    (htail : k'.tail = k.tail) (cs : List UInt8) : ReaderOk k' (unread ++ cs) r := by
  have hne : unread ≠ [] → unread ++ cs ≠ [] := fun h he => h (List.append_eq_nil_iff.mp he).1
  have hhead (c : UInt8) : unread.head? = some c → (unread ++ cs).head? = some c := fun h => by
    rw [List.head?_append, h, Option.some_or]
  cases r with
  | idle => trivial
  | gotHead head => exact fun hc => hne (h (htail ▸ hc))
  | gotTail tail => exact Eq.trans h htail.symm
  | nonempty => exact hne h
  | index tail => exact ⟨h.1.trans htail.symm, hne h.2⟩
  | loaded c => exact hhead c h
  | advance c tail => exact ⟨h.1.trans htail.symm, hhead c h.2⟩

theorem KbInv.irq (h : KbInv s unread) (sc : UInt8) :
    ∃ unread', KbInv (kbStep s (.irq sc)) unread' := by
  obtain ⟨htail, hcases⟩ := kbIrqHandler_cases s.kb sc
  have hreader (cs : List UInt8) := h.reader.append htail cs
  -- the ring and the log are as before when nothing is put in
  have hsame (hbuf : (kbIrqHandler s.kb sc).1.buf = s.kb.buf)
      (hhead : (kbIrqHandler s.kb sc).1.head = s.kb.head)
      (hout : (kbIrqHandler s.kb sc).2.1.chars = []) : KbInv (kbStep s (.irq sc)) unread := by
    refine ⟨?_, ?_, List.append_nil unread ▸ hreader []⟩
    · simp only [kbStep]
      rw [hbuf, hhead, htail]
      exact h.queue
    · simp only [kbStep, hout, List.append_nil]
      exact h.log
  obtain ⟨hbuf, hhead, hout⟩ | ⟨c, hroom, hbuf, hhead, hout⟩ | ⟨c, -, hbuf, hhead, hout⟩ := hcases
  · exact ⟨unread, hsame hbuf hhead (by rw [hout]; rfl)⟩
  · have hlt : unread.length + 1 < kbBufSize :=
      Nat.lt_of_le_of_ne h.queue.room (mt h.queue.full_iff.mpr hroom)
    refine ⟨unread ++ [c], ?_, ?_, hreader [c]⟩
    · simp only [kbStep]
      rw [hbuf, hhead, htail]
      exact h.queue.push hlt c
    · simp only [kbStep, hout, KbOutcome.chars, h.log, List.append_assoc]
  · exact ⟨unread, hsame hbuf hhead (by rw [hout]; rfl)⟩

theorem charOf_toNat (c : UInt8) : charOf (c.toNat : Int) = [c] := by
  simp [charOf]

theorem KbInv.read (h : KbInv s unread) (tailFirst : Bool) :
    ∃ unread', KbInv (kbStep s (.read tailFirst)) unread' := by
  obtain ⟨kb, reader, accepted, returned⟩ := s
  obtain ⟨hqueue, hlog, hreader⟩ := h
  dsimp only at hqueue hlog hreader
  -- a step that only loads: nothing changes but where the reader is
  have hload (r : Reader) (hr : ReaderOk kb unread r) :
      KbInv ⟨kb, r, accepted, returned ++ []⟩ unread :=
    ⟨hqueue, by rw [List.append_nil]; exact hlog, hr⟩
  cases reader with
  | idle =>
    cases tailFirst with
    | true => exact ⟨unread, hload (.gotTail kb.tail) rfl⟩
    | false => exact ⟨unread, hload (.gotHead kb.head) (mt hqueue.empty_iff.mpr)⟩
  | gotHead head =>
    by_cases heq : head = kb.tail
    · refine ⟨unread, ?_⟩
      simp only [kbStep, readerStep, if_pos heq]
      exact hload .idle trivial
    · refine ⟨unread, ?_⟩
      simp only [kbStep, readerStep, if_neg heq]
      exact hload .nonempty (hreader heq)
  | gotTail tail =>
    obtain rfl : tail = kb.tail := hreader
    by_cases heq : kb.head = kb.tail
    · refine ⟨unread, ?_⟩
      simp only [kbStep, readerStep, if_pos heq]
      exact hload .idle trivial
    · refine ⟨unread, ?_⟩
      simp only [kbStep, readerStep, if_neg heq]
      exact hload .nonempty (mt hqueue.empty_iff.mpr heq)
  | nonempty => exact ⟨unread, hload (.index kb.tail) ⟨rfl, hreader⟩⟩
  | index tail =>
    obtain ⟨rfl, hne⟩ := hreader
    refine ⟨unread, hload (.loaded (kb.buf kb.tail)) ?_⟩
    cases unread with
    | nil => exact absurd rfl hne
    | cons c unread => exact congrArg some hqueue.front.symm
  | loaded c => exact ⟨unread, hload (.advance c kb.tail) ⟨rfl, hreader⟩⟩
  | advance c tail =>
    obtain ⟨rfl, hhead⟩ := hreader
    cases unread with
    | nil => cases hhead
    | cons d unread =>
      cases hhead
      refine ⟨unread, hqueue.pop, ?_, trivial⟩
      simp [kbStep, readerStep, charOf_toNat, hlog]

theorem keyboardWait_ring (k : Keyboard) (t : TaskId) :
    (keyboardWait k t).buf = k.buf ∧ (keyboardWait k t).head = k.head ∧
      (keyboardWait k t).tail = k.tail := by
  unfold keyboardWait
  split <;> exact ⟨rfl, rfl, rfl⟩

theorem KbInv.wait (h : KbInv s unread) (t : TaskId) : KbInv (kbStep s (.wait t)) unread := by
  obtain ⟨hbuf, hhead, htail⟩ := keyboardWait_ring s.kb t
  refine ⟨?_, h.log, List.append_nil unread ▸ h.reader.append htail []⟩
  simp only [kbStep]
  rw [hbuf, hhead, htail]
  exact h.queue

theorem KbInv.step (h : KbInv s unread) (input : KbInput) :
    ∃ unread', KbInv (kbStep s input) unread' := by
  cases input with
  | irq sc => exact h.irq sc
  | read tailFirst => exact h.read tailFirst
  | wait t => exact ⟨unread, h.wait t⟩

theorem kbInv_foldl (inputs : List KbInput) (h : KbInv s unread) :
    ∃ unread', KbInv (inputs.foldl kbStep s) unread' := by
  induction inputs generalizing s unread with
  | nil => exact ⟨unread, h⟩
  | cons input inputs ih =>
    obtain ⟨unread', h'⟩ := h.step input
    exact ih h'

theorem KbInv.full_of_dropped (h : KbInv s unread)
    (hdrop : (kbIrqHandler s.kb sc).2.1 = .dropped c) : unread.length = 255 := by
  obtain ⟨-, ⟨-, -, hout⟩ | ⟨d, -, -, -, hout⟩ | ⟨d, hfull, -⟩⟩ := kbIrqHandler_cases s.kb sc
  · rw [hdrop] at hout
    cases hout
  · rw [hdrop] at hout
    cases hout
  · exact Nat.succ_inj.mp (h.queue.full_iff.mp hfull)

/-- A scan code of a key that has a character, pressed and not one of shift and caps lock,
goes to the ring. -/
theorem kbIrqHandler_decodes (hpressed : sc &&& 0x80 = 0) (hkey : sc ∉ [0x2A, 0x36, 0x3A])
    (hc : kbDecode k sc ≠ 0) :
    (kbIrqHandler k sc).2.1 = (kbStore k (kbDecode k sc)).2 := by
  simp only [List.mem_cons, List.not_mem_nil, or_false, not_or] at hkey
  obtain ⟨hleft, hright, hcaps⟩ := hkey
  have hsmall : ¬ 128 ≤ sc.toNat := by
    intro hge
    have hout : ∀ l : List UInt8, l.length ≤ 128 → l.getD sc.toNat 0 = 0 := by
      intro l hl
      rw [List.getD_eq_getElem?_getD, List.getElem?_eq_none (Nat.le_trans hl hge)]
      rfl
    refine hc (hout _ ?_)
    split <;> decide
  rw [kbIrqHandler, if_neg (not_not.mpr hpressed), if_neg (not_or.mpr ⟨hleft, hright⟩),
    if_neg hcaps, if_neg hsmall, if_neg hc]

theorem KbInv.accepts (h : KbInv s unread) (hlt : unread.length < 255) (c : UInt8) :
    (kbStore s.kb c).2 = .accepted c := by
  have hroom : (s.kb.head + 1) % kbBufSize ≠ s.kb.tail := by
    intro hfull
    have hlen : unread.length + 1 = 256 := h.queue.full_iff.mp hfull
    omega
  rw [kbStore, if_pos hroom]

/-! ## One call of `keyboard_poll` -/

/-- The accesses to go until `keyboard_poll` has returned a character. -/
def Reader.left : Reader → Nat
  | .idle => 6
  | .gotHead _ => 5
  | .gotTail _ => 5
  | .nonempty => 4
  | .index _ => 3
  | .loaded _ => 2
  | .advance _ _ => 1

def KbInput.isRead : KbInput → Bool
  | .read _ => true
  | _ => false

/-- The oldest character is `c`, and if the reader has loaded `kb_head` it was there then. -/
structure Polling (s : KbSystem) (c : UInt8) : Prop where
  inv : ∃ rest, KbInv s (c :: rest)
  sure : ∀ head, s.reader = .gotHead head → head ≠ s.kb.tail

section

variable (h : Polling s c)
include h

theorem Polling.transfer {input : KbInput} (hret : (kbStep s input).returned = s.returned)
    (hacc : ∃ cs, (kbStep s input).accepted = s.accepted ++ cs)
    (hsure : ∀ head, (kbStep s input).reader = .gotHead head →
      head ≠ (kbStep s input).kb.tail) : Polling (kbStep s input) c := by
  obtain ⟨⟨rest, hinv⟩, -⟩ := h
  obtain ⟨unread, h'⟩ := hinv.step input
  obtain ⟨cs, hacc⟩ := hacc
  have hlog := h'.log
  rw [hret, hacc, hinv.log, List.append_assoc] at hlog
  rw [← List.append_cancel_left hlog] at h'
  exact ⟨⟨rest ++ cs, h'⟩, hsure⟩

/-- A step that is not the reader's leaves the call where it is. -/
theorem Polling.other {input : KbInput} (hread : input.isRead = false) :
    Polling (kbStep s input) c ∧ (kbStep s input).returned = s.returned ∧
      (kbStep s input).reader = s.reader := by
  cases input with
  | irq sc =>
    refine ⟨h.transfer rfl ⟨_, rfl⟩ fun head hr => ?_, rfl, rfl⟩
    simp only [kbStep]
    rw [(kbIrqHandler_cases s.kb sc).1]
    exact h.sure head hr
  | wait t =>
    refine ⟨h.transfer rfl ⟨[], (List.append_nil _).symm⟩ fun head hr => ?_, rfl, rfl⟩
    simp only [kbStep]
    rw [(keyboardWait_ring s.kb t).2.2]
    exact h.sure head hr
  | read tailFirst => cases hread

/-- An access of the reader that is not the last one brings it one further. -/
theorem Polling.access (hleft : s.reader.left ≠ 1) (tailFirst : Bool) :
    Polling (kbStep s (.read tailFirst)) c ∧
      (kbStep s (.read tailFirst)).returned = s.returned ∧
      (kbStep s (.read tailFirst)).reader.left + 1 = s.reader.left := by
  obtain ⟨rest, hinv⟩ := h.inv
  have hne : s.kb.head ≠ s.kb.tail := mt hinv.queue.empty_iff.mp (List.cons_ne_nil c rest)
  have hreader := hinv.reader
  -- what is left to show of a step from the reader's state to `r`
  have hgo (r : Reader) (hstep : readerStep tailFirst s.kb s.reader = (s.kb, r, none))
      (hleft : r.left + 1 = s.reader.left) (hr : ∀ head, r = .gotHead head → head ≠ s.kb.tail) :
      Polling (kbStep s (.read tailFirst)) c ∧
        (kbStep s (.read tailFirst)).returned = s.returned ∧
        (kbStep s (.read tailFirst)).reader.left + 1 = s.reader.left := by
    have hs : kbStep s (.read tailFirst) = { s with reader := r } := by
      simp [kbStep, hstep]
    have hp := @Polling.transfer c s h (.read tailFirst)
    rw [hs] at hp ⊢
    exact ⟨hp rfl ⟨[], (List.append_nil _).symm⟩ hr, rfl, hleft⟩
  cases hs : s.reader with
  | idle =>
    rw [hs] at hgo
    cases tailFirst with
    | true => exact hgo (.gotTail s.kb.tail) rfl rfl fun head hr => by cases hr
    | false =>
      refine hgo (.gotHead s.kb.head) rfl rfl fun head hr => ?_
      cases hr
      exact hne
  | gotHead head =>
    rw [hs] at hgo
    exact hgo .nonempty (if_neg (h.sure head hs)) rfl fun head hr => by cases hr
  | gotTail tail =>
    rw [hs] at hgo hreader
    obtain rfl : tail = s.kb.tail := hreader
    exact hgo .nonempty (if_neg hne) rfl fun head hr => by cases hr
  | nonempty =>
    rw [hs] at hgo
    exact hgo (.index s.kb.tail) rfl rfl fun head hr => by cases hr
  | index tail =>
    rw [hs] at hgo
    exact hgo (.loaded (s.kb.buf tail)) rfl rfl fun head hr => by cases hr
  | loaded d =>
    rw [hs] at hgo
    exact hgo (.advance d s.kb.tail) rfl rfl fun head hr => by cases hr
  | advance d tail =>
    rw [hs] at hleft
    exact absurd rfl hleft

theorem Polling.run (more : List KbInput) (hlt : more.countP KbInput.isRead < s.reader.left) :
    Polling (more.foldl kbStep s) c ∧ (more.foldl kbStep s).returned = s.returned ∧
      (more.foldl kbStep s).reader.left + more.countP KbInput.isRead = s.reader.left := by
  induction more generalizing s with
  | nil => exact ⟨h, rfl, rfl⟩
  | cons input more ih =>
    rw [List.foldl_cons]
    by_cases hread : input.isRead = true
    · rw [List.countP_cons_of_pos hread] at hlt ⊢
      cases input with
      | irq sc => cases hread
      | wait t => cases hread
      | read tailFirst =>
        obtain ⟨h', hret, hleft⟩ := h.access (by omega) tailFirst
        obtain ⟨hp, hret', hleft'⟩ := ih h' (by omega)
        exact ⟨hp, hret'.trans hret, by omega⟩
    · rw [List.countP_cons_of_neg hread] at hlt ⊢
      obtain ⟨h', hret, hreader⟩ := h.other (Bool.not_eq_true _ ▸ hread)
      rw [← hreader] at hlt ⊢
      obtain ⟨hp, hret', hleft'⟩ := ih h' hlt
      exact ⟨hp, hret'.trans hret, hleft'⟩

theorem Polling.last (hleft : s.reader.left = 1) (tailFirst : Bool) :
    (kbStep s (.read tailFirst)).returned = s.returned ++ [c] ∧
      (kbStep s (.read tailFirst)).reader = .idle := by
  obtain ⟨rest, hinv⟩ := h.inv
  have hreader := hinv.reader
  cases hs : s.reader with
  | advance d tail =>
    rw [hs] at hreader
    obtain ⟨rfl, hd⟩ := hreader
    cases hd
    simp [kbStep, readerStep, hs, charOf_toNat]
  | idle => rw [hs] at hleft; cases hleft
  | gotHead head => rw [hs] at hleft; cases hleft
  | gotTail tail => rw [hs] at hleft; cases hleft
  | nonempty => rw [hs] at hleft; cases hleft
  | index tail => rw [hs] at hleft; cases hleft
  | loaded d => rw [hs] at hleft; cases hleft

end

/-- **Nothing is lost, doubled or reordered** between the handler and the reader, wherever
the interrupts come. A pressed key that has a character puts it into the ring unless 255 are
not read yet, and only then is one dropped; and a `keyboard_poll` that begins when a character
is there returns the oldest one with its sixth access. -/
theorem keyboard_fifo (buf : Nat → UInt8) (inputs : List KbInput) :
    let s := inputs.foldl kbStep (kbStart buf)
    s.returned <+: s.accepted ∧
      (∀ sc c, (kbIrqHandler s.kb sc).2.1 = .dropped c →
        s.accepted.length = s.returned.length + 255) ∧
      (∀ sc, sc &&& 0x80 = 0 → sc ∉ [0x2A, 0x36, 0x3A] → kbDecode s.kb sc ≠ 0 →
        s.accepted.length ≠ s.returned.length + 255 →
          (kbIrqHandler s.kb sc).2.1 = .accepted (kbDecode s.kb sc)) ∧
      ∀ c, s.accepted[s.returned.length]? = some c → s.reader = .idle →
        ∀ (more : List KbInput) (tailFirst : Bool), more.countP KbInput.isRead = 5 →
          let s' := kbStep (more.foldl kbStep s) (.read tailFirst)
          s'.returned = s.returned ++ [c] ∧ s'.reader = .idle := by
  obtain ⟨unread, h⟩ := kbInv_foldl inputs (kbInv_kbStart buf)
  generalize inputs.foldl kbStep (kbStart buf) = s at h
  have hlen : s.accepted.length = s.returned.length + unread.length := by
    rw [h.log, List.length_append]
  refine ⟨⟨unread, h.log.symm⟩, fun sc c hdrop => ?_, fun sc hpressed hkey hc hroom => ?_,
    fun c hc hidle more tailFirst hreads => ?_⟩
  · rw [hlen, h.full_of_dropped hdrop]
  · have hle : unread.length < 256 := h.queue.room
    rw [kbIrqHandler_decodes hpressed hkey hc, h.accepts (by omega)]
  · rw [h.log, List.getElem?_append_right (Nat.le_refl _), Nat.sub_self] at hc
    cases unread with
    | nil => cases hc
    | cons d rest =>
      cases hc
      have hp : Polling s c := ⟨⟨rest, h⟩, fun head hr => by rw [hidle] at hr; cases hr⟩
      have hsix : s.reader.left = 6 := by rw [hidle]; rfl
      obtain ⟨hp', hret, hleft⟩ := hp.run more (by omega)
      obtain ⟨hlast, hdone⟩ := hp'.last (by omega) tailFirst
      exact ⟨by rw [hlast, hret], hdone⟩

end DevOs
