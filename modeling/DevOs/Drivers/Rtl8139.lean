import DevOs.Lib.Dialog
import DevOs.Lib.Probe
import DevOs.Types

/-!
The RTL8139 driver, `kernel/drivers/net/rtl8139.c`: `rtl8139_send`, and the loop of
`rtl8139_irq` over the packets in the receive ring.
-/

namespace DevOs

open ByteMem Buffer Device Probe

def rtlRxBufSize : Nat := 64 * 1024 + 16

/-- `a % b` on unsigned integers, undefined for `b = 0`. -/
def umod (a b : Nat) : Option Nat := if b = 0 then none else some (a % b)

inductive RxPass where
  /-- The packet is not marked as received, and the loop is left. -/
  | rxError
  /-- The packet was handed on, unless its length is out of range; then `rx_cur` is
  computed, and `CAPR` written. -/
  | advanced (dispatched : Option (List UInt8)) (rxCur capr : Nat)
  /-- The update of `rx_cur` is undefined. -/
  | undefined
  deriving DecidableEq, Repr

/-- One pass of the loop in `rtl8139_irq` over the ring `rx_buf`. -/
def rtlRxPass (rxCur : Nat) : Probe RxPass := do
  let pktHdr ← word 2 rxCur
  let pktLen ← word 2 (rxCur + 2)
  if pktHdr &&& 1 = 0 then pure .rxError
  else do
    let dispatched ←
      if 4 < pktLen ∧ pktLen < 1514 + 4 then do
        let data ← bytes (pktLen - 4) (rxCur + 4)
        pure (some data)
      else pure none
    let next := alignDown (rxCur + pktLen + 4 + 3) 4 % 2 ^ 16
    match umod next ((rtlRxBufSize - 16) % 2 ^ 16) with
    | none => pure .undefined
    | some rxCur' => pure (.advanced dispatched rxCur' ((rxCur' + (2 ^ 16 - 16)) % 2 ^ 16))

/-- `rx_cur` for the next pass, in this interrupt or in a later one. -/
def RxPass.rxCur (rxCur : Nat) : RxPass → Option Nat
  | rxError => some rxCur
  | advanced _ rxCur' _ => some rxCur'
  | undefined => none

/-- What is asked of a pass: its reads stay within the ring, and it leaves the loop or
goes on at the next multiple of four behind the packet, modulo 64 KB. -/
structure RxPassOk (rxCur : Nat) (m : Mem) : Prop where
  reads : (rtlRxPass rxCur).Safe rtlRxBufSize m
  update : (rtlRxPass rxCur).value m = .rxError ∨ ∃ dispatched capr,
    (rtlRxPass rxCur).value m =
      .advanced dispatched (alignDown (rxCur + load 2 m (rxCur + 2) + 7) 4 % 65536) capr

/-- Every pass of a run is as it should be; each finds the ring as the device has
left it by then. -/
def RxRunOk : Nat → List Mem → Prop
  | _, [] => True
  | rxCur, m :: ms =>
    RxPassOk rxCur m ∧
      ∀ rxCur', ((rtlRxPass rxCur).value m).rxCur rxCur = some rxCur' → RxRunOk rxCur' ms

variable {rxCur n : Nat} {m : Mem}

theorem umod_rtlRxBufSize (next : Nat) : umod next ((rtlRxBufSize - 16) % 2 ^ 16) = none := rfl

theorem value_rtlRxPass : (rtlRxPass rxCur).value m =
      if load 2 m rxCur &&& 1 = 0 then .rxError else .undefined := by
  simp only [rtlRxPass, value_bind, value_word, value_ite, value_pure, umod_rtlRxBufSize, ite_self]

theorem safe_rtlRxPass_iff :
    (rtlRxPass rxCur).Safe n m ↔ rxCur + 4 ≤ n ∧ (load 2 m rxCur &&& 1 ≠ 0 →
      4 < load 2 m (rxCur + 2) → load 2 m (rxCur + 2) < 1518 →
        rxCur + load 2 m (rxCur + 2) ≤ n) := by
  simp only [rtlRxPass, safe_bind, safe_word, value_word, safe_ite,
    safe_pure, safe_bytes, umod_rtlRxBufSize, and_true, implies_true, true_and]
  generalize load 2 m (rxCur + 2) = len
  grind

theorem rxPassOk_zero_iff : RxPassOk 0 m ↔ load 2 m 0 &&& 1 = 0 := by
  constructor
  · intro h
    by_contra hok
    have hupdate := h.update
    rw [value_rtlRxPass, if_neg hok] at hupdate
    obtain hfalse | ⟨_, _, hfalse⟩ := hupdate <;> cases hfalse
  · intro h
    refine ⟨safe_rtlRxPass_iff.mpr ⟨by decide, fun hok => absurd h hok⟩, .inl ?_⟩
    rw [value_rtlRxPass, if_pos h]

/-- **From `rx_cur = 0`, a run is as it should be** exactly if no pass of it finds a
packet that was received. -/
theorem rxRunOk_iff (ms : List Mem) : RxRunOk 0 ms ↔ ∀ m ∈ ms, load 2 m 0 &&& 1 = 0 := by
  induction ms with
  | nil => simp [RxRunOk]
  | cons m ms ih =>
    rw [RxRunOk, List.forall_mem_cons, rxPassOk_zero_iff]
    refine and_congr_right fun hm => ?_
    rw [value_rtlRxPass, if_pos hm, ← ih]
    simp [RxPass.rxCur]

theorem rtl_first_packet :
    (rtlRxPass 0).value (ofList ([1, 0, 64, 0] ++ List.replicate 60 0)) = .undefined := by
  decide +kernel

def rtlTxBufSize : Nat := 2048

def rtlTxDescs : Nat := 4

inductive RtlReg where
  | tsd (desc : Nat)
  deriving DecidableEq, Repr

/-- What is written while sending. A size in `TSD` starts the transfer of as many
bytes from the buffer of the descriptor; `frame` is what the device finds there. -/
inductive RtlWrite where
  | tsad (desc addr : Nat)
  | tsd (desc size : Nat) (frame : List UInt8)
  deriving DecidableEq, Repr

abbrev RtlIo := Dialog RtlReg RtlWrite

/-- The fields of `rtl8139_t` for sending, and the contents of the buffers. -/
structure RtlTx where
  txCur : Nat
  txBuf : Nat → Nat
  txMem : Nat → Mem

/-- `memcpy` from one block of memory to the start of another. -/
def copyFrom (m src : Mem) (n : Nat) : Mem := fun x => if x < n then src x else m x

/-- `rtl8139_send` of the `len` bytes at the start of `data`. -/
def rtl8139Send (rtl : RtlTx) (data : Mem) (len : Nat) : RtlIo (Int × RtlTx) :=
  if rtlTxBufSize < len then pure (-1, rtl)
  else do
    let desc := rtl.txCur % rtlTxDescs
    let timeout ← .spin 32 (.tsd desc) (fun v => v &&& 1 <<< 13 != 0) 1000000
    if timeout = 0 then pure (-1, rtl)
    else do
      let buf := copyFrom (rtl.txMem desc) data len
      let size := (if len < 60 then 60 else len) &&& 0x1FFF
      .write (.tsad desc (rtl.txBuf desc &&& 0xFFFFFFFF))
      .write (.tsd desc size (slice size buf 0))
      pure (0, { rtl with
        txCur := (rtl.txCur + 1) % 2 ^ 32
        txMem := Function.update rtl.txMem desc buf })

end DevOs
