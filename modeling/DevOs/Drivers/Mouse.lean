import DevOs.Lib.Ring
import DevOs.Sched.Ops

/-!
The PS/2 mouse, after `drivers/mouse.c`: an interrupt handler that puts packets of three
bytes together and their events into a ring, and `mouse_get_event`, which takes them out.
-/

namespace DevOs

def mouseBufSize : Nat := 64

def mouseWaitMax : Nat := 4

structure MouseEvent where
  dx : Int
  dy : Int
  buttons : UInt8
  overflowX : Bool
  overflowY : Bool
  valid : Bool

/-- A conversion to `int8_t`. -/
def int8 (n : Int) : Int := n.bmod 256

/-- `(flags & bit) ? (int8_t)(raw | 0x100) : (int8_t)raw`. -/
def signExtend (flags bit raw : UInt8) : Int :=
  if flags &&& bit ≠ 0 then int8 (raw.toNat ||| 0x100 : Nat) else int8 raw.toNat

def decodePacket (flags rawX rawY : UInt8) : MouseEvent where
  dx := signExtend flags 0x10 rawX
  dy := int8 (-signExtend flags 0x20 rawY)
  buttons := flags &&& 0x07
  overflowX := (flags >>> 6) &&& 1 ≠ 0
  overflowY := (flags >>> 7) &&& 1 ≠ 0
  valid := true

/-- The variables of the driver: `packet` holds the first `packet_idx` bytes, `waiters` the
first `mouse_waiter_count` tasks. -/
structure Mouse where
  buf : Nat → MouseEvent
  head : Nat
  tail : Nat
  packet : List UInt8
  waiters : List TaskId

/-- The event of a complete packet, and whether there was room for it. -/
abbrev MouseLog := List (MouseEvent × Bool)

def MouseLog.stored (log : MouseLog) : List MouseEvent := (log.filter Prod.snd).map Prod.fst

/-- The byte is skipped if a packet cannot start with it, or stored at `packet_idx`; the event
is that of a packet of three bytes. -/
def framePacket (packet : List UInt8) (byte : UInt8) : List UInt8 × Option MouseEvent :=
  if packet = [] ∧ byte &&& 0x08 = 0 then ([], none)
  else
    match packet ++ [byte] with
    | [flags, rawX, rawY] => ([], some (decodePacket flags rawX rawY))
    | packet => (packet, none)

/-- `mouse_irq_handler` for the byte at `PS2_DATA`, `none` if `PS2_STATUS_OBF` is clear, with the
tasks that it unblocks. -/
def mouseIrqHandler (k : Mouse) : Option UInt8 → Mouse × MouseLog × List TaskId
  | none => (k, [], [])
  | some byte =>
    match framePacket k.packet byte with
    | (packet, none) => ({ k with packet := packet }, [], [])
    | (packet, some ev) =>
      let k' := { k with packet := packet, waiters := [] }
      let next := (k.head + 1) % mouseBufSize
      if next ≠ k.tail then
        ({ k' with buf := Function.update k.buf k.head ev, head := next }, [(ev, true)], k.waiters)
      else (k', [(ev, false)], k.waiters)

/-- The part of `mouse_read` with interrupts off that enters a waiting task. -/
def mouseWait (k : Mouse) (t : TaskId) : Mouse :=
  if k.head = k.tail ∧ k.waiters.length < mouseWaitMax then { k with waiters := k.waiters ++ [t] }
  else k

/-- Where the reader is in `mouse_get_event`; it alone writes `mouse_tail`. -/
inductive MouseReader where
  | idle
  | nonempty
  | copied (ev : MouseEvent)

def mouseReaderStep (k : Mouse) : MouseReader → Mouse × MouseReader × List MouseEvent
  | .idle => (k, if k.head = k.tail then .idle else .nonempty, [])
  | .nonempty => (k, .copied (k.buf k.tail), [])
  | .copied ev => ({ k with tail := (k.tail + 1) % mouseBufSize }, .idle, [ev])

/-- The driver with its reader, the bytes taken from the data port, and the events. -/
structure MouseSystem where
  mouse : Mouse
  reader : MouseReader
  bytes : List UInt8
  log : MouseLog
  returned : List MouseEvent

inductive MouseInput where
  | irq (data : Option UInt8)
  | read
  | wait (t : TaskId)

def mouseStep (s : MouseSystem) : MouseInput → MouseSystem
  | .irq data =>
    let (k, log, _) := mouseIrqHandler s.mouse data
    { s with mouse := k, bytes := s.bytes ++ data.toList, log := s.log ++ log }
  | .read =>
    let (k, reader, evs) := mouseReaderStep s.mouse s.reader
    { s with mouse := k, reader := reader, returned := s.returned ++ evs }
  | .wait t => { s with mouse := mouseWait s.mouse t }

def mouseStart (buf : Nat → MouseEvent) : MouseSystem := ⟨⟨buf, 0, 0, [], []⟩, .idle, [], [], []⟩

/-- The events that a stream of bytes stands for: a packet starts at a byte with bit 3. -/
def packets : List UInt8 → List MouseEvent
  | flags :: rawX :: rawY :: rest =>
    if flags &&& 0x08 = 0 then packets (rawX :: rawY :: rest)
    else decodePacket flags rawX rawY :: packets rest
  | _ => []

variable {s : MouseSystem} {k : Mouse} {unread : List MouseEvent} {packet rest : List UInt8}
  {b : UInt8}

theorem packets_short (h : rest.length < 3) : packets rest = [] := by
  rcases rest with _ | ⟨flags, _ | ⟨rawX, _ | ⟨rawY, more⟩⟩⟩
  · rfl
  · rfl
  · rfl
  · exact absurd h (Nat.not_lt.mpr (Nat.le_add_left 3 more.length))

theorem packets_skip (h : b &&& 0x08 = 0) : packets (b :: rest) = packets rest := by
  rcases rest with _ | ⟨x, _ | ⟨y, rest⟩⟩
  · rfl
  · rfl
  · exact if_pos h

/-- The start of a packet that is not complete. -/
structure Unfinished (packet : List UInt8) : Prop where
  short : packet.length < 3
  synced : ∀ flags ∈ packet.head?, flags &&& 0x08 ≠ 0

theorem unfinished_nil : Unfinished [] := ⟨Nat.succ_pos 2, fun _ h => absurd h (by simp)⟩

theorem Unfinished.frame (h : Unfinished packet) (b : UInt8) :
    Unfinished (framePacket packet b).1 ∧ ∀ rest, packets (packet ++ b :: rest) =
      (framePacket packet b).2.toList ++ packets ((framePacket packet b).1 ++ rest) := by
  obtain ⟨hshort, hsynced⟩ := h
  unfold framePacket
  by_cases hskip : packet = [] ∧ b &&& 0x08 = 0
  · rw [if_pos hskip, hskip.1]
    exact ⟨unfinished_nil, fun rest => packets_skip hskip.2⟩
  rw [if_neg hskip]
  rcases packet with _ | ⟨flags, _ | ⟨rawX, _ | ⟨rawY, more⟩⟩⟩
  · refine ⟨⟨Nat.lt_of_sub_eq_succ rfl, fun flags hf => ?_⟩, fun rest => rfl⟩
    cases hf
    exact fun hb => hskip ⟨rfl, hb⟩
  · exact ⟨⟨Nat.lt_of_sub_eq_succ rfl, hsynced⟩, fun rest => rfl⟩
  · exact ⟨unfinished_nil, fun rest => if_neg (hsynced flags rfl)⟩
  · exact absurd hshort (Nat.not_lt.mpr (Nat.le_add_left 3 more.length))

structure MouseInv (s : MouseSystem) (unread : List MouseEvent) : Prop where
  queue : Ring.Queue mouseBufSize s.mouse.buf s.mouse.tail s.mouse.head unread
  log : s.log.stored = s.returned ++ unread
  packet : Unfinished s.mouse.packet
  rest : ∀ rest, packets (s.bytes ++ rest) = s.log.map Prod.fst ++ packets (s.mouse.packet ++ rest)
  nonempty : s.reader = .nonempty → unread ≠ []
  copied : ∀ ev, s.reader = .copied ev → unread.head? = some ev
  waiters : s.mouse.waiters = [] ∨ unread = []

theorem mouseInv_mouseStart (buf : Nat → MouseEvent) : MouseInv (mouseStart buf) [] where
  queue := Ring.queue_nil (show 0 < mouseBufSize by decide) buf
  log := rfl
  packet := unfinished_nil
  rest _ := rfl
  nonempty h := by cases h
  copied _ h := by cases h
  waiters := .inl rfl

theorem mouseIrqHandler_some (k : Mouse) (b : UInt8) :
    let r := mouseIrqHandler k (some b)
    r.1.packet = (framePacket k.packet b).1 ∧
      r.2.1.map Prod.fst = (framePacket k.packet b).2.toList ∧
      ∀ unread, Ring.Queue mouseBufSize k.buf k.tail k.head unread →
        Ring.Queue mouseBufSize r.1.buf r.1.tail r.1.head (unread ++ r.2.1.stored) ∧
          (∀ ev, (ev, false) ∈ r.2.1 → unread.length = 63) ∧
          (r.1.waiters = [] ∨ r.1.waiters = k.waiters ∧ r.2.1.stored = []) := by
  dsimp only [mouseIrqHandler]
  obtain ⟨packet, _ | ev⟩ := framePacket k.packet b
  · refine ⟨rfl, rfl, fun unread h =>
      ⟨?_, fun ev hev => absurd hev List.not_mem_nil, .inr ⟨rfl, rfl⟩⟩⟩
    exact (List.append_nil unread).symm ▸ h
  · dsimp only
    by_cases hfull : (k.head + 1) % mouseBufSize = k.tail
    · rw [if_neg (not_not.mpr hfull)]
      refine ⟨rfl, rfl, fun unread h =>
        ⟨?_, fun _ _ => Nat.succ_inj.mp (h.full_iff.mp hfull), .inl rfl⟩⟩
      exact (List.append_nil unread).symm ▸ h
    · rw [if_pos hfull]
      refine ⟨rfl, rfl, fun unread h => ⟨?_, fun e he => by simp at he, .inl rfl⟩⟩
      exact h.push (Nat.lt_of_le_of_ne h.room (mt h.full_iff.mpr hfull)) ev

theorem stored_append (log log' : MouseLog) : (log ++ log').stored = log.stored ++ log'.stored := by
  rw [MouseLog.stored, List.filter_append, List.map_append]
  rfl

theorem MouseInv.byte (h : MouseInv s unread) (b : UInt8) :
    ∃ unread', MouseInv (mouseStep s (.irq (some b))) unread' := by
  obtain ⟨hpacket, hlog, hring⟩ := mouseIrqHandler_some s.mouse b
  obtain ⟨hunfinished, hrest⟩ := h.packet.frame b
  obtain ⟨hqueue, -, hwaiters⟩ := hring unread h.queue
  refine ⟨_, hqueue, ?_, ?_, fun rest => ?_, fun hr => ?_, fun e hr => ?_, ?_⟩
  · simp only [mouseStep]
    rw [stored_append, h.log, List.append_assoc]
  · simp only [mouseStep]
    rwa [hpacket]
  · simp only [mouseStep, List.map_append]
    rw [List.append_assoc, h.rest, hlog, hpacket, List.append_assoc]
    exact congrArg _ (hrest rest)
  · exact List.append_ne_nil_of_left_ne_nil (h.nonempty hr) _
  · rw [List.head?_append, h.copied e hr, Option.some_or]
  · obtain hnone | ⟨hkept, hstored⟩ := hwaiters
    · exact .inl hnone
    · refine h.waiters.imp hkept.trans fun hnil => ?_
      rw [hnil, hstored]
      rfl

theorem MouseInv.read (h : MouseInv s unread) :
    ∃ unread', MouseInv (mouseStep s .read) unread' := by
  obtain ⟨k, reader, bytes, log, returned⟩ := s
  obtain ⟨hqueue, hlog, hpacket, hrest, hnonempty, hcopied, hwaiters⟩ := h
  have hlog' : log.stored = (returned ++ []) ++ unread := by
    rw [List.append_nil]
    exact hlog
  cases reader with
  | idle =>
    refine ⟨unread, hqueue, hlog', hpacket, hrest, fun hr hnil => ?_, fun ev hr => ?_, hwaiters⟩
    · simp only [mouseStep, mouseReaderStep, if_pos (hqueue.empty_iff.mpr hnil)] at hr
      cases hr
    · simp only [mouseStep, mouseReaderStep] at hr
      split at hr <;> cases hr
  | nonempty =>
    cases unread with
    | nil => exact absurd rfl (hnonempty rfl)
    | cons ev unread =>
      refine ⟨ev :: unread, hqueue, hlog', hpacket, hrest, fun _ => List.cons_ne_nil _ _,
        fun e hr => ?_, hwaiters⟩
      cases hr
      exact congrArg some hqueue.front.symm
  | copied ev =>
    cases unread with
    | nil => cases hcopied ev rfl
    | cons e unread =>
      cases hcopied ev rfl
      refine ⟨unread, hqueue.pop, ?_, hpacket, hrest, fun hr => ?_, fun e hr => ?_,
        .inl (hwaiters.resolve_right (List.cons_ne_nil _ _))⟩
      · simp only [mouseStep, mouseReaderStep, List.append_assoc]
        exact hlog
      · cases hr
      · cases hr

theorem MouseInv.step (h : MouseInv s unread) (input : MouseInput) :
    ∃ unread', MouseInv (mouseStep s input) unread' := by
  cases input with
  | irq data =>
    cases data with
    | none =>
      simp only [mouseStep, mouseIrqHandler, Option.toList_none, List.append_nil]
      exact ⟨unread, h⟩
    | some b => exact h.byte b
  | read => exact h.read
  | wait t =>
    refine ⟨unread, ?_⟩
    simp only [mouseStep, mouseWait]
    split
    · rename_i hempty
      exact { h with waiters := .inr (h.queue.empty_iff.mp hempty.1) }
    · exact h

theorem mouseInv_foldl (inputs : List MouseInput) (h : MouseInv s unread) :
    ∃ unread', MouseInv (inputs.foldl mouseStep s) unread' := by
  induction inputs generalizing s unread with
  | nil => exact ⟨unread, h⟩
  | cons input inputs ih =>
    obtain ⟨unread', h'⟩ := h.step input
    exact ih h'

/-! ## One call of `mouse_get_event` -/

/-- The steps to go until `mouse_get_event` has returned an event. -/
def MouseReader.left : MouseReader → Nat
  | .idle => 3
  | .nonempty => 2
  | .copied _ => 1

def MouseInput.isRead : MouseInput → Bool
  | .read => true
  | _ => false

variable {ev : MouseEvent} {rest' : List MouseEvent}

section

variable (h : MouseInv s (ev :: rest'))
include h

/-- The oldest event stays the oldest until the reader returns it. -/
theorem MouseInv.keeps_front {input : MouseInput} (hret : (mouseStep s input).returned = s.returned)
    (hlog : ∃ log, (mouseStep s input).log = s.log ++ log) :
    ∃ rest, MouseInv (mouseStep s input) (ev :: rest) := by
  obtain ⟨unread, h'⟩ := h.step input
  obtain ⟨log, hlog⟩ := hlog
  have hsame := h'.log
  rw [hret, hlog, stored_append, h.log, List.append_assoc] at hsame
  rw [← List.append_cancel_left hsame] at h'
  exact ⟨_, h'⟩

theorem MouseInv.other {input : MouseInput} (hread : input.isRead = false) :
    (∃ rest, MouseInv (mouseStep s input) (ev :: rest)) ∧
      (mouseStep s input).returned = s.returned ∧ (mouseStep s input).reader = s.reader := by
  cases input with
  | irq data => exact ⟨h.keeps_front rfl ⟨_, rfl⟩, rfl, rfl⟩
  | wait t => exact ⟨h.keeps_front rfl ⟨[], (List.append_nil _).symm⟩, rfl, rfl⟩
  | read => cases hread

theorem MouseInv.access (hleft : s.reader.left ≠ 1) :
    (∃ rest, MouseInv (mouseStep s .read) (ev :: rest)) ∧
      (mouseStep s .read).returned = s.returned ∧
      (mouseStep s .read).reader.left + 1 = s.reader.left := by
  have hne : s.mouse.head ≠ s.mouse.tail := mt h.queue.empty_iff.mp (List.cons_ne_nil ev rest')
  have hgo (r : MouseReader) (hstep : mouseReaderStep s.mouse s.reader = (s.mouse, r, []))
      (hleft : r.left + 1 = s.reader.left) :
      (∃ rest, MouseInv (mouseStep s .read) (ev :: rest)) ∧
        (mouseStep s .read).returned = s.returned ∧
        (mouseStep s .read).reader.left + 1 = s.reader.left := by
    have hs : mouseStep s .read = { s with reader := r } := by simp [mouseStep, hstep]
    have hp := @MouseInv.keeps_front s ev rest' h .read
    rw [hs] at hp ⊢
    exact ⟨hp rfl ⟨[], (List.append_nil _).symm⟩, rfl, hleft⟩
  cases hs : s.reader with
  | idle =>
    rw [hs] at hgo
    refine hgo .nonempty ?_ rfl
    rw [mouseReaderStep, if_neg hne]
  | nonempty =>
    rw [hs] at hgo
    exact hgo (.copied (s.mouse.buf s.mouse.tail)) rfl rfl
  | copied e =>
    rw [hs] at hleft
    exact absurd rfl hleft

theorem MouseInv.run (more : List MouseInput)
    (hlt : more.countP MouseInput.isRead < s.reader.left) :
    (∃ rest, MouseInv (more.foldl mouseStep s) (ev :: rest)) ∧
      (more.foldl mouseStep s).returned = s.returned ∧
      (more.foldl mouseStep s).reader.left + more.countP MouseInput.isRead = s.reader.left := by
  induction more generalizing s rest' with
  | nil => exact ⟨⟨rest', h⟩, rfl, rfl⟩
  | cons input more ih =>
    rw [List.foldl_cons]
    by_cases hread : input.isRead = true
    · rw [List.countP_cons_of_pos hread] at hlt ⊢
      cases input with
      | irq data => cases hread
      | wait t => cases hread
      | read =>
        obtain ⟨⟨rest, h'⟩, hret, hleft⟩ := h.access (by omega)
        obtain ⟨hp, hret', hleft'⟩ := ih h' (by omega)
        exact ⟨hp, hret'.trans hret, by omega⟩
    · rw [List.countP_cons_of_neg hread] at hlt ⊢
      obtain ⟨⟨rest, h'⟩, hret, hreader⟩ := h.other (Bool.not_eq_true _ ▸ hread)
      rw [← hreader] at hlt ⊢
      obtain ⟨hp, hret', hleft'⟩ := ih h' hlt
      exact ⟨hp, hret'.trans hret, hleft'⟩

theorem MouseInv.last (hleft : s.reader.left = 1) :
    (mouseStep s .read).returned = s.returned ++ [ev] ∧ (mouseStep s .read).reader = .idle := by
  cases hs : s.reader with
  | copied e =>
    cases h.copied e hs
    simp [mouseStep, mouseReaderStep, hs]
  | idle => rw [hs] at hleft; cases hleft
  | nonempty => rw [hs] at hleft; cases hleft

end

/-- **From bytes to events.** Wherever the interrupts come: the packets that have been put
together are those of the bytes that were read, whatever stands before and between them; the
ring holds the events that were stored and not yet returned, in their order; one is not stored
only when 63 are not read yet; a `mouse_get_event` that begins when one is there returns the
oldest; and no task is entered as waiting while there is one to read. -/
theorem mouse_events (buf : Nat → MouseEvent) (inputs : List MouseInput) :
    let s := inputs.foldl mouseStep (mouseStart buf)
    s.log.map Prod.fst = packets s.bytes ∧ s.returned <+: s.log.stored ∧
      (∀ b ev, (ev, false) ∈ (mouseIrqHandler s.mouse (some b)).2.1 →
        s.log.stored.length = s.returned.length + 63) ∧
      (s.mouse.waiters = [] ∨ s.mouse.head = s.mouse.tail) ∧
      ∃ unread, Ring.Queue mouseBufSize s.mouse.buf s.mouse.tail s.mouse.head unread ∧
        s.log.stored = s.returned ++ unread ∧
        ∀ ev ∈ unread.head?, s.reader = .idle →
          ∀ more : List MouseInput, more.countP MouseInput.isRead = 2 →
            let s' := mouseStep (more.foldl mouseStep s) .read
            s'.returned = s.returned ++ [ev] ∧ s'.reader = .idle := by
  obtain ⟨unread, h⟩ := mouseInv_foldl inputs (mouseInv_mouseStart buf)
  generalize inputs.foldl mouseStep (mouseStart buf) = s at h
  refine ⟨?_, ⟨unread, h.log.symm⟩, fun b ev hlost => ?_,
    h.waiters.imp_right h.queue.empty_iff.mpr, unread, h.queue, h.log,
    fun ev hev hidle more hreads => ?_⟩
  · have hrest := h.rest []
    rw [List.append_nil, List.append_nil, packets_short h.packet.short, List.append_nil] at hrest
    exact hrest.symm
  · obtain ⟨-, -, hring⟩ := mouseIrqHandler_some _ b
    rw [h.log, List.length_append, (hring unread h.queue).2.1 ev hlost]
  · cases unread with
    | nil => cases hev
    | cons e rest =>
      cases hev
      have hthree : s.reader.left = 3 := by rw [hidle]; rfl
      obtain ⟨⟨rest', h'⟩, hret, hleft⟩ := h.run more (by omega)
      obtain ⟨hlast, hdone⟩ := h'.last (by omega)
      exact ⟨by rw [hlast, hret], hdone⟩

/-- A movement as the mouse sends it: nine bits, with the sign among the flags. -/
def movement (flags bit raw : UInt8) : Int := raw.toNat - if flags &&& bit ≠ 0 then 256 else 0

/-- **Nine bits in eight.** An event shows the movement that was sent, to the right and down,
exactly if it fits in an `int8_t`. -/
theorem decodePacket_shows_iff (flags rawX rawY : UInt8) :
    ((decodePacket flags rawX rawY).dx = movement flags 0x10 rawX ↔
        -128 ≤ movement flags 0x10 rawX ∧ movement flags 0x10 rawX ≤ 127) ∧
      ((decodePacket flags rawX rawY).dy = -movement flags 0x20 rawY ↔
        -128 ≤ -movement flags 0x20 rawY ∧ -movement flags 0x20 rawY ≤ 127) := by
  have hsign (bit raw : UInt8) : signExtend flags bit raw = int8 (movement flags bit raw) := by
    have hor : raw.toNat ||| 0x100 = raw.toNat + 256 := by
      rw [Nat.or_comm]
      exact (Nat.two_pow_add_eq_or_of_lt raw.toNat_lt 1).symm.trans (Nat.add_comm _ _)
    unfold signExtend movement int8
    rw [hor]
    split <;> simp [Int.bmod_def]
  have hint8 (n : Int) : int8 n = n ↔ -128 ≤ n ∧ n ≤ 127 := by
    unfold int8
    rw [Int.bmod_def]
    omega
  have hneg (n : Int) : int8 (-int8 n) = int8 (-n) := by
    unfold int8
    simp only [Int.bmod_def]
    omega
  simp [decodePacket, hsign, hneg, hint8]

end DevOs
