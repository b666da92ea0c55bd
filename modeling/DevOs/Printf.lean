import DevOs.CString.Counted
import DevOs.Lib.Capped
import DevOs.Lib.Numeral
import DevOs.Types

/-!
`kernel/lib/printf.c`: `put_uint` and `kvsnprintf`.
-/

namespace DevOs

structure OutBuf where
  addr : Nat
  sz : Nat

structure Sink where
  pos : Nat
  stores : List Store
  deriving DecidableEq

/-- `buf[pos++] = c`. -/
def OutBuf.put (b : OutBuf) (k : Sink) (c : UInt8) : Sink :=
  ⟨k.pos + 1, k.stores ++ [(b.addr + k.pos, c)]⟩

/-- `OUT(c)`; it is only reached with a positive `sz`. -/
def OutBuf.out (b : OutBuf) (k : Sink) (c : UInt8) : Sink :=
  if k.pos < b.sz - 1 then b.put k c else k

def digitsLo : List UInt8 := [48, 49, 50, 51, 52, 53, 54, 55, 56, 57, 97, 98, 99, 100, 101, 102]

def digitsHi : List UInt8 := [48, 49, 50, 51, 52, 53, 54, 55, 56, 57, 65, 66, 67, 68, 69, 70]

/-- `while (v) { tmp[len++] = digits[v % base]; v /= base; }`: the array `tmp`. As
`base` is at least 2 and `v` has 64 bits, 64 passes are enough. -/
def tmpLoop (digits : List UInt8) (base : Nat) : Nat → Nat → List UInt8
  | 0, _ => []
  | fuel + 1, v =>
    if v = 0 then [] else digits.getD (v % base) 0 :: tmpLoop digits base fuel (v / base)

/-- `while (width > len) { OUT(pad); width--; }` -/
def padLoop (b : OutBuf) (pad : UInt8) (len : Nat) : Nat → Sink → Sink
  | 0, k => k
  | width + 1, k => if len < width + 1 then padLoop b pad len width (b.out k pad) else k

def putUint (b : OutBuf) (k : Sink) (val : UInt64) (base : Nat) (upper : Bool) (width : Nat)
    (zeroPad : Bool) : Sink :=
  let digits := if upper then digitsHi else digitsLo
  let tmp := if val = 0 then [48] else tmpLoop digits base 64 val.toNat
  let pad := if zeroPad then 48 else 32
  let k := padLoop b pad tmp.length width k
  tmp.reverse.foldl b.out k

inductive PrintfFault where
  /-- A read behind the terminating NUL of the format. -/
  | overread
  /-- A signed integer overflows. -/
  | overflow
  deriving DecidableEq, Repr

/-- `if (*fmt == ch) { flag = 1; fmt++; }` -/
def scanFlag (ch : UInt8) : CString → Bool × CString
  | [] => (false, [])
  | c :: fmt => if c.1 = ch then (true, fmt) else (false, c :: fmt)

/-- `while (*fmt >= '0' && *fmt <= '9') width = width * 10 + (*fmt++ - '0');`, with the
limit of an `int`. -/
def scanWidth : Nat → CString → Except PrintfFault (Nat × CString)
  | width, [] => .ok (width, [])
  | width, c :: fmt =>
    if 48 ≤ c.1 ∧ c.1 ≤ 57 then
      let width := width * 10 + (c.1.toNat - 48)
      if width < 2 ^ 31 then scanWidth width fmt else .error .overflow
    else .ok (width, c :: fmt)

structure PrintSpec where
  zeroPad : Bool
  width : Nat
  isLong : Bool
  deriving DecidableEq

/-- What stands between the `%` and the conversion character. -/
def scanSpec (fmt : CString) : Except PrintfFault (PrintSpec × CString) :=
  let (zeroPad, fmt) := scanFlag 48 fmt
  match scanWidth 0 fmt with
  | .error f => .error f
  | .ok (width, fmt) =>
    let (long, fmt) := scanFlag 108 fmt
    let fmt := if long then (scanFlag 108 fmt).2 else fmt
    let (size, fmt) := scanFlag 122 fmt
    .ok (⟨zeroPad, width, long || size⟩, fmt)

inductive Conv where
  | signed | unsigned | hex | hexUpper | pointer | char | string | percent
  | other (c : CChar)
  deriving DecidableEq

def convOf (c : CChar) : Conv :=
  if c.1 = 100 ∨ c.1 = 105 then .signed
  else if c.1 = 117 then .unsigned
  else if c.1 = 120 then .hex
  else if c.1 = 88 then .hexUpper
  else if c.1 = 112 then .pointer
  else if c.1 = 99 then .char
  else if c.1 = 115 then .string
  else if c.1 = 37 then .percent
  else .other c

/-- A `va_list`: the slots from the first variable argument on, and the string at each
address. -/
structure VaList where
  slot : Nat → UInt64
  strAt : UInt64 → CString

/-- `(int64_t)va_arg(ap, long long)` or `(int64_t)va_arg(ap, int)`. -/
def signedArg (isLong : Bool) (x : UInt64) : Int :=
  if isLong then x.toInt64.toInt else x.toUInt32.toInt32.toInt

/-- `va_arg(ap, unsigned long long)` or `va_arg(ap, unsigned int)`. -/
def unsignedArg (isLong : Bool) (x : UInt64) : UInt64 :=
  if isLong then x else x.toUInt32.toUInt64

/-- `"(null)"`. -/
def nullText : CString := cstr [40, 110, 117, 108, 108, 41]

/-- `va_arg(ap, const char *)`, and what stands in for a null pointer. -/
def stringArg (va : VaList) (x : UInt64) : CString := if x = 0 then nullText else va.strAt x

inductive Outcome (α : Type) where
  | running
  | fault (f : PrintfFault)
  | done (a : α)

/-- The output, and for each argument taken the directive that took it (the format from
its `%` on). -/
structure PrintState where
  sink : Sink
  taken : List CString

/-- `while (*s) OUT(*s++);` -/
def strLoop (b : OutBuf) : Nat → CString → Sink → Option Sink
  | 0, _, _ => none
  | _ + 1, [], k => some k
  | fuel + 1, c :: s, k =>
    -- `s++` is evaluated only when there is room
    if k.pos < b.sz - 1 then strLoop b fuel s (b.put k c.1) else strLoop b fuel (c :: s) k

def convert (va : VaList) (b : OutBuf) (fuel : Nat) (dir : CString) (spec : PrintSpec)
    (conv : Conv) (st : PrintState) : Outcome PrintState :=
  let x := va.slot st.taken.length
  let took (k : Sink) : PrintState := ⟨k, st.taken ++ [dir]⟩
  let k := st.sink
  match conv with
  | .signed =>
    let v := signedArg spec.isLong x
    if v < 0 then
      let k := b.out k 45
      -- `v = -v` overflows for the least value
      if v = -0x8000000000000000 then .fault .overflow
      else .done (took
        (putUint b k (UInt64.ofNat (-v).toNat) 10 false spec.width spec.zeroPad))
    else .done (took (putUint b k (UInt64.ofNat v.toNat) 10 false spec.width spec.zeroPad))
  | .unsigned =>
    .done (took (putUint b k (unsignedArg spec.isLong x) 10 false spec.width spec.zeroPad))
  | .hex =>
    .done (took (putUint b k (unsignedArg spec.isLong x) 16 false spec.width spec.zeroPad))
  | .hexUpper =>
    .done (took (putUint b k (unsignedArg spec.isLong x) 16 true spec.width spec.zeroPad))
  | .pointer => .done (took (putUint b (b.out (b.out k 48) 120) x 16 false 16 true))
  | .char => .done (took (b.out k x.toUInt8))
  | .string =>
    match strLoop b fuel (stringArg va x) k with
    | none => .running
    | some k => .done (took k)
  | .percent => .done { st with sink := b.out k 37 }
  | .other c => .done { st with sink := b.out (b.out k 37) c.1 }

def kvLoop (va : VaList) (b : OutBuf) : Nat → PrintState → CString → Outcome PrintState
  | 0, _, _ => .running
  | _ + 1, st, [] => .done st
  | fuel + 1, st, c :: fmt =>
    if c.1 ≠ 37 then
      -- `fmt++` is evaluated only when there is room
      if st.sink.pos < b.sz - 1 then
        kvLoop va b fuel { st with sink := b.put st.sink c.1 } fmt
      else kvLoop va b fuel st (c :: fmt)
    else
      match scanSpec fmt with
      | .error f => .fault f
      -- the NUL takes the default case, and `fmt++` then passes it
      | .ok (_, []) => .fault .overread
      | .ok (spec, conv :: rest) =>
        match convert va b fuel (c :: fmt) spec (convOf conv) st with
        | .running => .running
        | .fault f => .fault f
        | .done st => kvLoop va b fuel st rest

structure PrintResult where
  ret : Int
  stores : List Store
  taken : List CString
  deriving DecidableEq

def kvsnprintf (va : VaList) (b : OutBuf) (fuel : Nat) (fmt : CString) : Outcome PrintResult :=
  if b.addr = 0 ∨ b.sz = 0 then .done ⟨0, [], []⟩
  else
    match kvLoop va b fuel ⟨⟨0, []⟩, []⟩ fmt with
    | .running => .running
    | .fault f => .fault f
    | .done st => .done ⟨int32 st.sink.pos, (b.put st.sink 0).stores, st.taken⟩

def Returns (va : VaList) (b : OutBuf) (fmt : CString) (r : PrintResult) : Prop :=
  ∃ fuel, kvsnprintf va b fuel fmt = .done r

end DevOs
