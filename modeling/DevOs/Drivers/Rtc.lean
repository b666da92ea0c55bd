import DevOs.Lib.Dialog
import Mathlib.Order.Monotone.Basic

/-!
The CMOS clock, after `drivers/rtc.c`.
-/

namespace DevOs

open Device

/-- Programs that read registers of the CMOS; a read is a `cmos_read`. -/
abbrev CmosIo := Dialog Nat Empty

def cmosRead (reg : Nat) : CmosIo Nat := Dialog.read 8 reg

structure RtcTime where
  second : Nat
  minute : Nat
  hour : Nat
  weekday : Nat
  day : Nat
  month : Nat
  year : Nat
  deriving DecidableEq, Repr

/-- `while ((cmos_read(0x0A) & RTC_UIP) && timeout--);` -/
def rtcWaitReady : Nat → CmosIo Unit
  | 0 => do
    let _ ← cmosRead 0x0A
    pure ()
  | timeout + 1 => do
    let a ← cmosRead 0x0A
    if a &&& 0x80 ≠ 0 then rtcWaitReady timeout else pure ()

def rtcReadTime : CmosIo RtcTime := do
  let second ← cmosRead 0x00
  let minute ← cmosRead 0x02
  let hour ← cmosRead 0x04
  let weekday ← cmosRead 0x06
  let day ← cmosRead 0x07
  let month ← cmosRead 0x08
  let year ← cmosRead 0x09
  pure ⟨second, minute, hour, weekday, day, month, year⟩

def bcd2bin (bcd : Nat) : Nat := (((bcd >>> 4) &&& 0x0F) * 10 + (bcd &&& 0x0F)) % 256

def RtcTime.fromBcd (t : RtcTime) : RtcTime where
  second := bcd2bin t.second
  minute := bcd2bin t.minute
  hour := bcd2bin (t.hour &&& 0x7F)
  weekday := bcd2bin t.weekday
  day := bcd2bin t.day
  month := bcd2bin t.month
  year := bcd2bin (t.year % 256)

def RtcTime.from12Hour (t : RtcTime) (rawHour : Nat) : RtcTime :=
  let pm : Bool := rawHour &&& 0x80 ≠ 0
  let t := if pm && t.hour < 12 then { t with hour := t.hour + 12 } else t
  if !pm && t.hour == 12 then { t with hour := 0 } else t

def fullYear (statusB century year : Nat) : Nat :=
  if 19 ≤ century ∧ century ≤ 21 then
    ((if statusB &&& 0x04 = 0 then bcd2bin century else century) * 100 + year) % 2 ^ 16
  else (2000 + year) % 2 ^ 16

def rtcGetTime : CmosIo RtcTime := do
  rtcWaitReady 1000000
  let _a ← rtcReadTime
  let statusB ← cmosRead 0x0B
  rtcWaitReady 1000000
  let b ← rtcReadTime
  let t := if statusB &&& 0x04 = 0 then b.fromBcd else b
  let rawHour ← if statusB &&& 0x02 = 0 then some <$> cmosRead 0x04 else pure none
  let t := rawHour.elim t t.from12Hour
  let century ← cmosRead 0x32
  pure { t with year := fullYear statusB century t.year }

/-- A clock in 24-hour binary mode, and a call of `rtc_get_time`: `reg n r` is the register
`r` after `n` updates, and `updates i` of them come before the read with number `i`.
Each update moves the seconds; the other registers follow some calendar. The reads 0 and
9 poll `RTC_UIP`. -/
structure RtcRun where
  reg : Nat → Nat → UInt8
  updates : Nat → Nat
  monotone : Monotone updates
  seconds : ∀ n, (reg (n + 1) 0x00).toNat = ((reg n 0x00).toNat + 1) % 60
  seconds_lt : (reg 0 0x00).toNat < 60
  ready : ∀ i, i = 0 ∨ i = 9 → (reg (updates i) 0x0A).toNat &&& 0x80 = 0
  binary : ∀ n, (reg n 0x0B).toNat &&& 0x04 ≠ 0
  hour24 : ∀ n, (reg n 0x0B).toNat &&& 0x02 ≠ 0

structure DateTime where
  second : Nat
  minute : Nat
  hour : Nat
  day : Nat
  month : Nat
  year : Nat
  deriving DecidableEq, Repr

def RtcTime.dateTime (t : RtcTime) : DateTime :=
  ⟨t.second, t.minute, t.hour, t.day, t.month, t.year⟩

namespace RtcRun

variable (r : RtcRun)

def answer (i reg : Nat) : Nat := (r.reg (r.updates i) reg).toNat

def yearShown (atCentury atYear : Nat) : Nat :=
  fullYear 0x04 (r.reg atCentury 0x32).toNat (r.reg atYear 0x09).toNat

def shown (n : Nat) : DateTime where
  second := (r.reg n 0x00).toNat
  minute := (r.reg n 0x02).toNat
  hour := (r.reg n 0x04).toNat
  day := (r.reg n 0x07).toNat
  month := (r.reg n 0x08).toNat
  year := r.yearShown n n

def returned : DateTime := (rtcGetTime.timed r.answer 0).1.dateTime

/-- It is what the clock showed at one moment of the call, between the first read and
the last. -/
def Consistent : Prop := ∃ n, r.updates 0 ≤ n ∧ n ≤ r.updates 17 ∧ r.returned = r.shown n

/-- Each register has, when it is read the second time, the value that it had when the
seconds were. -/
structure Steady : Prop where
  minute : r.reg (r.updates 11) 0x02 = r.reg (r.updates 10) 0x02
  hour : r.reg (r.updates 12) 0x04 = r.reg (r.updates 10) 0x04
  day : r.reg (r.updates 14) 0x07 = r.reg (r.updates 10) 0x07
  month : r.reg (r.updates 15) 0x08 = r.reg (r.updates 10) 0x08
  year : r.yearShown (r.updates 17) (r.updates 16) = r.yearShown (r.updates 10) (r.updates 10)

variable {r : RtcRun}

@[simp] theorem timed_cmosRead (i reg : Nat) :
    (cmosRead reg).timed r.answer i = (r.answer i reg, i + 1) := by
  have hlt : r.answer i reg < 2 ^ 8 := UInt8.toNat_lt _
  rw [cmosRead, Dialog.timed_read, Nat.mod_eq_of_lt hlt]

theorem timed_rtcWaitReady (timeout : Nat) {i : Nat} (hi : i = 0 ∨ i = 9) :
    (rtcWaitReady (timeout + 1)).timed r.answer i = ((), i + 1) := by
  have hready : r.answer i 0x0A &&& 0x80 = 0 := r.ready i hi
  simp [rtcWaitReady, hready]

theorem timed_rtcReadTime (i : Nat) : rtcReadTime.timed r.answer i =
      (⟨r.answer i 0x00, r.answer (i + 1) 0x02, r.answer (i + 2) 0x04, r.answer (i + 3) 0x06,
        r.answer (i + 4) 0x07, r.answer (i + 5) 0x08, r.answer (i + 6) 0x09⟩, i + 7) := by
  simp [rtcReadTime]

theorem returned_eq :
    r.returned = ⟨r.answer 10 0x00, r.answer 11 0x02, r.answer 12 0x04, r.answer 14 0x07,
      r.answer 15 0x08, r.yearShown (r.updates 17) (r.updates 16)⟩ := by
  have hbinary : ¬ r.answer 8 0x0B &&& 0x04 = 0 := r.binary _
  have hhour24 : ¬ r.answer 8 0x0B &&& 0x02 = 0 := r.hour24 _
  have hyear : fullYear (r.answer 8 0x0B) (r.answer 17 0x32) (r.answer 16 0x09) =
      r.yearShown (r.updates 17) (r.updates 16) := by
    simp only [yearShown, fullYear, if_neg hbinary]
    rfl
  rw [returned, rtcGetTime]
  simp only [Dialog.timed_bind]
  rw [timed_rtcWaitReady 999999 (.inl rfl)]
  simp only [timed_rtcReadTime, timed_cmosRead]
  rw [timed_rtcWaitReady 999999 (.inr rfl)]
  simp [hbinary, hhour24, hyear, RtcTime.dateTime]

theorem seconds_eq (n : Nat) : (r.reg n 0x00).toNat = ((r.reg 0 0x00).toNat + n) % 60 := by
  induction n with
  | zero => exact (Nat.mod_eq_of_lt r.seconds_lt).symm
  | succ n ih => rw [r.seconds, ih, Nat.mod_add_mod, Nat.add_assoc]

theorem returned_eq_shown_iff (n : Nat) :
    r.returned = r.shown n ↔ r.reg (r.updates 10) 0x00 = r.reg n 0x00 ∧
      r.reg (r.updates 11) 0x02 = r.reg n 0x02 ∧ r.reg (r.updates 12) 0x04 = r.reg n 0x04 ∧
      r.reg (r.updates 14) 0x07 = r.reg n 0x07 ∧ r.reg (r.updates 15) 0x08 = r.reg n 0x08 ∧
      r.yearShown (r.updates 17) (r.updates 16) = r.yearShown n n := by
  simp only [returned_eq, shown, DateTime.mk.injEq, answer, UInt8.toNat_inj]

theorem steady_iff : r.Steady ↔ r.returned = r.shown (r.updates 10) := by
  rw [returned_eq_shown_iff]
  constructor
  · intro h
    exact ⟨rfl, h.minute, h.hour, h.day, h.month, h.year⟩
  · intro h
    obtain ⟨-, hminute, hhour, hday, hmonth, hyear⟩ := h
    exact ⟨hminute, hhour, hday, hmonth, hyear⟩

end RtcRun

/-- **When the time returned is one that the clock showed.** It is if no register changes
between the second read of the seconds and its own; and only then, in a call that takes
less than a minute. -/
theorem untorn_iff (r : RtcRun) :
    (r.Steady → r.Consistent) ∧
      (r.updates 17 < r.updates 0 + 60 → (r.Consistent ↔ r.Steady)) := by
  have hsteady : r.Steady → r.Consistent := fun h =>
    ⟨r.updates 10, r.monotone (by decide), r.monotone (by decide),
      RtcRun.steady_iff.mp h⟩
  refine ⟨hsteady, fun hshort => ⟨fun h => ?_, hsteady⟩⟩
  obtain ⟨n, hfirst, hlast, hshown⟩ := h
  -- the seconds tell the moments of a minute apart
  have hfirst10 : r.updates 0 ≤ r.updates 10 := r.monotone (by decide)
  have hlast10 : r.updates 10 ≤ r.updates 17 := r.monotone (by decide)
  have hseconds := congrArg UInt8.toNat ((RtcRun.returned_eq_shown_iff n).mp hshown).1
  rw [RtcRun.seconds_eq, RtcRun.seconds_eq n] at hseconds
  obtain rfl : n = r.updates 10 := by omega
  exact RtcRun.steady_iff.mpr hshown

/-- A clock that shows 10:59:59 at first, and is updated right after the second read of the
seconds. -/
def exampleRtcRun : RtcRun where
  reg n
    | 0x00 => .ofNat ((59 + n) % 60)
    | 0x02 => .ofNat ((3599 + n) / 60 % 60)
    | 0x04 => .ofNat ((39599 + n) / 3600 % 24)
    | 0x07 | 0x08 => 1
    | 0x09 => 26
    | 0x0A => 0x26
    | 0x0B => 0x06
    | _ => 20
  updates i := if i ≤ 10 then 0 else 1
  monotone := by
    intro i j h
    dsimp only
    split <;> split <;> omega
  seconds n := by
    have h1 : (59 + n) % 60 % 2 ^ 8 = (59 + n) % 60 := Nat.mod_eq_of_lt (by omega)
    have h2 : (59 + (n + 1)) % 60 % 2 ^ 8 = (59 + (n + 1)) % 60 := Nat.mod_eq_of_lt (by omega)
    simp only [UInt8.toNat_ofNat', h1, h2]
    omega
  seconds_lt := by decide
  ready _ _ := show (0x26 : UInt8).toNat &&& 0x80 = 0 by decide
  binary _ := show (0x06 : UInt8).toNat &&& 0x04 ≠ 0 by decide
  hour24 _ := show (0x06 : UInt8).toNat &&& 0x02 ≠ 0 by decide

theorem exampleRtcRun_torn :
    exampleRtcRun.returned = ⟨59, 0, 11, 1, 1, 2026⟩ ∧
      exampleRtcRun.updates 0 = 0 ∧ exampleRtcRun.updates 17 = 1 ∧
      exampleRtcRun.shown 0 = ⟨59, 59, 10, 1, 1, 2026⟩ ∧
      exampleRtcRun.shown 1 = ⟨0, 0, 11, 1, 1, 2026⟩ ∧ ¬ exampleRtcRun.Consistent := by
  have hreturned : exampleRtcRun.returned = ⟨59, 0, 11, 1, 1, 2026⟩ := by
    rw [RtcRun.returned_eq]
    decide
  refine ⟨hreturned, rfl, rfl, by decide, by decide, fun h => ?_⟩
  obtain ⟨n, -, hlast, hshown⟩ := h
  rw [hreturned] at hshown
  have hn : n ≤ 1 := hlast
  obtain rfl | rfl : n = 0 ∨ n = 1 := by omega
  · exact absurd hshown (by decide)
  · exact absurd hshown (by decide)

end DevOs
