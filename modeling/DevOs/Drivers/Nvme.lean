import DevOs.Drivers.Dma
import DevOs.Lib.PhaseRing
import DevOs.Lib.Run

/-!
The I/O queues of `kernel/drivers/storage/nvme.c`: `nvme_submit_io` step by step,
with a controller that posts completions in between.
-/

namespace DevOs

open PhaseRing Machine

def nvmeQueueDepth : Nat := 64

/-- The number of times that `nvme_submit_io` looks at the completion queue. -/
def nvmeTimeout : Nat := 2000000

inductive IoOp where
  | read
  | write
  deriving DecidableEq, Repr

def IoOp.opcode : IoOp → BitVec 32
  | .read => 0x02
  | .write => 0x01

/-- One pass of the loop in `nvme_blk_read` or `nvme_blk_write`: `n` blocks at
`lba`, from or to `buf`. -/
structure BlockIo where
  op : IoOp
  lba : BitVec 64
  n : BitVec 32
  buf : BitVec 64
  deriving DecidableEq, Repr

abbrev SqEntry := Vector (BitVec 32) 16

def BlockIo.command (io : BlockIo) (cid : BitVec 16) : SqEntry :=
  let phys := AddrRegs.ofPhys (io.buf - kernelVirtBase)
  let lba := AddrRegs.ofPhys io.lba
  #v[io.op.opcode ||| (cid.setWidth 32 <<< 16), 1, 0, 0, 0, 0, phys.low, phys.high, 0, 0,
    lba.low, lba.high, io.n - 1, 0, 0, 0]

def SqEntry.cid (c : SqEntry) : BitVec 16 :=
  (c.toArray.getD 0 0 >>> 16).setWidth 16

/-- The fields of `nvme_cq_entry_t` that the queue is about; the driver reads
`status` alone. -/
structure CqEntry where
  cid : BitVec 16
  status : BitVec 16
  deriving DecidableEq, Repr

/-- `cqe->status & 1`. -/
def CqEntry.phase (e : CqEntry) : Nat := (e.status &&& 1).toNat

/-- `(cqe->status >> 1) & 0xFF`. -/
def CqEntry.sc (e : CqEntry) : BitVec 16 := (e.status >>> 1) &&& 0xFF

/-- A call of `nvme_submit_io`: its command, and how many completions had been
posted before. -/
structure IoCall where
  cmd : SqEntry
  since : Nat
  deriving DecidableEq, Repr

inductive IoPc where
  /-- In no call. -/
  | idle
  /-- At the head of the loop, with this value of `timeout`. -/
  | polling (c : IoCall) (timeout : Nat)
  /-- The head doorbell is written, and the status in this slot is about to be
  read again. -/
  | consumed (c : IoCall) (slot : Nat)
  deriving DecidableEq, Repr

structure IoReturn where
  cmd : SqEntry
  posted : List CqEntry
  result : Int
  deriving DecidableEq, Repr

/-- The I/O fields of `ctrl`, the two queues, and what has happened so far: the
completions that were posted, those that the driver took, the values written
to the doorbells and the calls that returned. -/
structure Nvme where
  iosq : Nat → SqEntry
  iocq : Nat → CqEntry
  iosqTail : Nat
  iocqHead : Nat
  iocqPhase : Nat
  nextCid : BitVec 16
  pc : IoPc
  posted : List CqEntry
  taken : List CqEntry
  sqDoorbells : List Nat
  cqDoorbells : List Nat
  returned : List IoReturn

/-- After `nvme_init`, which has used the identifiers 1 to 4. -/
def nvmeInit : Nvme where
  iosq _ := Vector.replicate 16 0
  iocq _ := ⟨0, 0⟩
  iosqTail := 0
  iocqHead := 0
  iocqPhase := 1
  nextCid := 5
  pc := .idle
  posted := []
  taken := []
  sqDoorbells := []
  cqDoorbells := []
  returned := []

/-- What happens: a pass of `nvme_blk_read` or `nvme_blk_write` calls
`nvme_submit_io`, the driver goes on in it, or the controller posts a completion
with this identifier and status field. -/
inductive NvmeEvent where
  | submit (io : BlockIo)
  | run
  | post (cid : BitVec 16) (code : BitVec 15)
  deriving DecidableEq, Repr

/-- `nvme_alloc_cid`, the rest of the command, and `nvme_submit_io` up to its
loop. -/
def nvmeSubmit (s : Nvme) (io : BlockIo) : Nvme :=
  let cmd := io.command s.nextCid
  let tail := (s.iosqTail + 1) % nvmeQueueDepth
  { s with
    nextCid := s.nextCid + 1
    iosq := Function.update s.iosq s.iosqTail cmd
    iosqTail := tail
    sqDoorbells := s.sqDoorbells ++ [tail]
    pc := .polling ⟨cmd, s.posted.length⟩ nvmeTimeout }

def nvmeReturn (s : Nvme) (c : IoCall) (result : Int) : Nvme :=
  { s with
    pc := .idle
    returned := s.returned ++ [⟨c.cmd, s.posted.drop c.since, result⟩] }

/-- One pass of the loop in `nvme_submit_io`, up to the write of the doorbell. -/
def nvmePoll (s : Nvme) (c : IoCall) (timeout : Nat) : Nvme :=
  let cqe := s.iocq s.iocqHead
  if cqe.phase = s.iocqPhase then
    let head := (s.iocqHead + 1) % nvmeQueueDepth
    { s with
      iocqHead := head
      iocqPhase := if head = 0 then s.iocqPhase ^^^ 1 else s.iocqPhase
      cqDoorbells := s.cqDoorbells ++ [head]
      taken := s.taken ++ [cqe]
      pc := .consumed c s.iocqHead }
  else { s with pc := .polling c timeout }

def nvmeRun (s : Nvme) : Option Nvme :=
  match s.pc with
  | .idle => none
  | .polling c 0 => some (nvmeReturn s c (-1))
  | .polling c (timeout + 1) => some (nvmePoll s c timeout)
  | .consumed c slot => some (nvmeReturn s c (if (s.iocq slot).sc ≠ 0 then -1 else 0))

/-- The controller writes to consecutive slots; the phase bit is 1 in the first
pass and flips each time it comes around. -/
def nvmePost (s : Nvme) (cid : BitVec 16) (code : BitVec 15) : Nvme :=
  let cqe : CqEntry :=
    ⟨cid, code ++ BitVec.ofBool (PhaseRing.phase nvmeQueueDepth s.posted.length)⟩
  { s with
    iocq := Function.update s.iocq (s.posted.length % nvmeQueueDepth) cqe
    posted := s.posted ++ [cqe] }

def nvmeStep (s : Nvme) : NvmeEvent → Option Nvme
  | .submit io => if s.pc = .idle then some (nvmeSubmit s io) else none
  | .run => nvmeRun s
  | .post cid code => some (nvmePost s cid code)

def CqEntry.tag (e : CqEntry) : Bool := e.phase == 1

theorem CqEntry.phase_lt_two (e : CqEntry) : e.phase < 2 := by
  have hmod : e.phase = e.status.toNat % 2 := by
    exact Nat.and_one_is_mod _
  omega

theorem CqEntry.phase_eq_iff (e : CqEntry) (b : Bool) : e.phase = b.toNat ↔ e.tag = b := by
  have hlt := e.phase_lt_two
  unfold tag
  cases b
  · simp only [Bool.toNat_false, beq_eq_false_iff_ne]
    omega
  · simp

theorem tag_append (cid : BitVec 16) (code : BitVec 15) (b : Bool) :
    CqEntry.tag ⟨cid, code ++ BitVec.ofBool b⟩ = b := by
  refine (CqEntry.phase_eq_iff _ b).mp ?_
  rw [CqEntry.phase, BitVec.toNat_and, BitVec.toNat_append, BitVec.toNat_ofBool]
  change (code.toNat <<< 1 ||| b.toNat) &&& 1 = b.toNat
  rw [Nat.and_one_is_mod, ← Nat.shiftLeft_add_eq_or_of_lt (by cases b <;> decide), Nat.shiftLeft_eq]
  cases b <;> simp only [Bool.toNat_false, Bool.toNat_true] <;> omega

/-! ## The completion queue -/

structure QueueOk (s : Nvme) : Prop where
  wrote : Wrote nvmeQueueDepth ⟨0, 0⟩ s.posted s.iocq
  tagged : Tagged nvmeQueueDepth CqEntry.tag s.posted
  head : s.iocqHead = s.taken.length % nvmeQueueDepth
  phase : s.iocqPhase = (phase nvmeQueueDepth s.taken.length).toNat

theorem queueOk_nvmeInit : QueueOk nvmeInit :=
  ⟨wrote_nil _ _, fun _ hj => absurd hj (Nat.not_lt_zero _), rfl, rfl⟩

variable {s s' : Nvme} {c : IoCall} {timeout : Nat}

theorem QueueOk.post (h : QueueOk s) (cid : BitVec 16) (code : BitVec 15) :
    QueueOk (nvmePost s cid code) where
  wrote := h.wrote.push _
  tagged := h.tagged.push (tag_append _ _ _)
  head := h.head
  phase := h.phase

theorem QueueOk.poll (h : QueueOk s) (hle : s.taken.length ≤ s.posted.length)
    (hroom : s.posted.length ≤ s.taken.length + nvmeQueueDepth) :
    (s.iocq s.iocqHead).phase = s.iocqPhase ↔ s.taken.length < s.posted.length := by
  rw [h.phase, CqEntry.phase_eq_iff, h.head]
  exact h.wrote.test (by decide) h.tagged (by decide) hle hroom

theorem QueueOk.slot (h : QueueOk s) (hlt : s.taken.length < s.posted.length)
    (hroom : s.posted.length ≤ s.taken.length + nvmeQueueDepth) :
    s.iocq s.iocqHead = s.posted[s.taken.length] := by
  rw [h.head]
  exact h.wrote.latest _ hlt hroom

def takeHead (s : Nvme) (c : IoCall) : Nvme :=
  { s with
    iocqHead := (s.iocqHead + 1) % nvmeQueueDepth
    iocqPhase := if (s.iocqHead + 1) % nvmeQueueDepth = 0 then s.iocqPhase ^^^ 1 else s.iocqPhase
    cqDoorbells := s.cqDoorbells ++ [(s.iocqHead + 1) % nvmeQueueDepth]
    taken := s.taken ++ [s.iocq s.iocqHead]
    pc := .consumed c s.iocqHead }

theorem nvmePoll_eq (s : Nvme) (c : IoCall) (timeout : Nat) : nvmePoll s c timeout =
      if (s.iocq s.iocqHead).phase = s.iocqPhase then takeHead s c
      else { s with pc := .polling c timeout } := rfl

theorem QueueOk.takeHead (h : QueueOk s) (c : IoCall) : QueueOk (takeHead s c) where
  wrote := h.wrote
  tagged := h.tagged
  head := by
    show (s.iocqHead + 1) % nvmeQueueDepth = (s.taken ++ [_]).length % nvmeQueueDepth
    rw [h.head, Nat.mod_add_mod, List.length_append, List.length_singleton]
  phase := by
    show (if (s.iocqHead + 1) % nvmeQueueDepth = 0 then s.iocqPhase ^^^ 1 else s.iocqPhase) =
      (PhaseRing.phase nvmeQueueDepth (s.taken ++ [_]).length).toNat
    rw [List.length_append, List.length_singleton, phase_succ, h.head, Nat.mod_add_mod, h.phase]
    split
    · cases PhaseRing.phase nvmeQueueDepth s.taken.length <;> rfl
    · rfl

/-! ## Calls in lockstep -/

/-- A command, the number of times that the driver looks in vain, and the
completion that the controller posts then. -/
structure IoScript where
  io : BlockIo
  delay : Nat
  cid : BitVec 16
  code : BitVec 15
  deriving DecidableEq, Repr

def IoScript.events (x : IoScript) : List NvmeEvent :=
  .submit x.io :: (List.replicate x.delay .run ++ [.post x.cid x.code, .run, .run])

def IoScript.entry (x : IoScript) (k : Nat) : CqEntry :=
  ⟨x.cid, x.code ++ BitVec.ofBool (phase nvmeQueueDepth k)⟩

def IoScript.result (x : IoScript) (k : Nat) : Int := if (x.entry k).sc ≠ 0 then -1 else 0

/-- The doorbell values of `n` commands: entry `k` is that of command `k + 1`. -/
def doorbells (n : Nat) : List Nat := (List.range n).map fun k => (k + 1) % nvmeQueueDepth

structure Lockstep (xs : List IoScript) (s : Nvme) : Prop where
  queue : QueueOk s
  pc : s.pc = .idle
  posted : s.posted = xs.mapIdx fun k x => x.entry k
  taken : s.taken = s.posted
  tail : s.iosqTail = xs.length % nvmeQueueDepth
  sqDoorbells : s.sqDoorbells = doorbells xs.length
  cqDoorbells : s.cqDoorbells = doorbells xs.length
  returned : s.returned.map (fun r => (r.posted, r.result)) =
    xs.mapIdx fun k x => ([x.entry k], x.result k)

theorem doorbells_succ (n : Nat) :
    doorbells (n + 1) = doorbells n ++ [(n + 1) % nvmeQueueDepth] := by
  simp [doorbells, List.range_succ]

theorem nvmeStep_replicate :
    ∀ (n timeout : Nat) {s : Nvme}, QueueOk s → s.taken.length = s.posted.length →
      s.pc = .polling c (timeout + n) → (List.replicate n NvmeEvent.run).foldlM nvmeStep s =
        some { s with pc := .polling c timeout }
  | 0, timeout, s, _, _, hpc => by
    rw [Nat.add_zero] at hpc
    rw [← hpc]
    rfl
  | n + 1, timeout, s, h, hempty, hpc => by
    have hlook : nvmeStep s .run = some { s with pc := .polling c (timeout + n) } := by
      rw [nvmeStep, nvmeRun, hpc]
      show some (nvmePoll s c (timeout + n)) = _
      rw [nvmePoll_eq, if_neg]
      rw [h.poll (by omega) (by omega)]
      omega
    have h' : QueueOk { s with pc := .polling c (timeout + n) } :=
      ⟨h.wrote, h.tagged, h.head, h.phase⟩
    rw [List.replicate_succ, List.foldlM_cons, hlook]
    exact nvmeStep_replicate n timeout h' hempty rfl

theorem nvmeStep_take (h : QueueOk s) (hpc : s.pc = .polling c (timeout + 1))
    (hone : s.posted.length = s.taken.length + 1) : [NvmeEvent.run, .run].foldlM nvmeStep s =
      some (nvmeReturn (takeHead s c) c (if (s.iocq s.iocqHead).sc ≠ 0 then -1 else 0)) := by
  have hfound : nvmeStep s .run = some (takeHead s c) := by
    rw [nvmeStep, nvmeRun, hpc]
    show some (nvmePoll s c timeout) = _
    rw [nvmePoll_eq, if_pos]
    rw [h.poll (by omega) (by unfold nvmeQueueDepth; omega)]
    omega
  rw [List.foldlM_cons, hfound]
  rfl

/-- One more call. -/
theorem Lockstep.call {xs : List IoScript} (h : Lockstep xs s) {x : IoScript}
    (hdelay : x.delay < nvmeTimeout) :
    ∃ s', x.events.foldlM nvmeStep s = some s' ∧ Lockstep (xs ++ [x]) s' := by
  obtain ⟨t, ht⟩ : ∃ t, nvmeTimeout = t + 1 + x.delay := ⟨nvmeTimeout - x.delay - 1, by omega⟩
  have hlen : s.posted.length = xs.length := by rw [h.posted, List.length_mapIdx]
  have htaken : s.taken.length = s.posted.length := by rw [h.taken]
  let c : IoCall := ⟨x.io.command s.nextCid, s.posted.length⟩
  let s1 := { nvmeSubmit s x.io with pc := .polling c (t + 1) }
  let s2 := nvmePost s1 x.cid x.code
  have hsubmit : nvmeStep s (.submit x.io) = some (nvmeSubmit s x.io) := if_pos h.pc
  have hwait : (List.replicate x.delay NvmeEvent.run).foldlM nvmeStep (nvmeSubmit s x.io) =
      some s1 :=
    nvmeStep_replicate x.delay (t + 1) ⟨h.queue.wrote, h.queue.tagged, h.queue.head, h.queue.phase⟩
      htaken (congrArg (IoPc.polling c) ht)
  have hqueue1 : QueueOk s1 :=
    ⟨h.queue.wrote, h.queue.tagged, h.queue.head, h.queue.phase⟩
  have hqueue : QueueOk s2 := hqueue1.post x.cid x.code
  have hposted : s2.posted = s.posted ++ [x.entry xs.length] := by
    rw [← hlen]
    rfl
  have hone : s2.posted.length = s2.taken.length + 1 := by
    rw [hposted, List.length_append, List.length_singleton]
    exact congrArg (· + 1) htaken.symm
  -- the completion is the one that was posted for this command
  have hslot : s2.iocq s2.iocqHead = x.entry xs.length := by
    rw [hqueue.slot (by omega) (by unfold nvmeQueueDepth; omega)]
    have hidx : s2.taken.length = s.posted.length := htaken
    simp only [hposted, hidx]
    exact List.getElem_concat_length rfl _
  have hrun : x.events.foldlM nvmeStep s =
      some (nvmeReturn (takeHead s2 c) c (x.result xs.length)) := by
    rw [IoScript.events, List.foldlM_cons, hsubmit]
    show (List.replicate x.delay NvmeEvent.run ++ _).foldlM nvmeStep _ = _
    rw [List.foldlM_append, hwait, IoScript.result, ← hslot]
    exact nvmeStep_take hqueue rfl hone
  have hnext : ∀ k, k = xs.length % nvmeQueueDepth →
      (k + 1) % nvmeQueueDepth = (xs.length + 1) % nvmeQueueDepth := by
    rintro k rfl
    exact Nat.mod_add_mod _ _ _
  have hhead : s.iocqHead = xs.length % nvmeQueueDepth := by rw [h.queue.head, htaken, hlen]
  have htake := hqueue.takeHead c
  refine ⟨_, hrun, ⟨htake.wrote, htake.tagged, htake.head, htake.phase⟩, rfl,
    ?_, ?_, ?_, ?_, ?_, ?_⟩
  · rw [List.mapIdx_concat, ← h.posted]
    exact hposted
  · show s.taken ++ [s2.iocq s2.iocqHead] = s2.posted
    rw [hslot, hposted, h.taken]
  · rw [List.length_append, List.length_singleton, ← hnext _ h.tail]
    rfl
  · rw [List.length_append, List.length_singleton, doorbells_succ, ← h.sqDoorbells,
      ← hnext _ h.tail]
    rfl
  · rw [List.length_append, List.length_singleton, doorbells_succ, ← h.cqDoorbells, ← hnext _ hhead]
    rfl
  · let r : IoReturn := ⟨c.cmd, s2.posted.drop s.posted.length, x.result xs.length⟩
    show (s.returned ++ [r]).map _ = _
    have hr : r.posted = [x.entry xs.length] := by
      show s2.posted.drop s.posted.length = _
      rw [hposted, List.drop_left]
    rw [List.map_append, h.returned, List.mapIdx_concat, List.map_singleton, hr]

/-- **Driver and controller keep in step.** If the completion of every command
comes before the driver looks for the last time, call `k` takes the completion
that was posted for it and no other, and both doorbells get `k mod 64`. -/
theorem io_lockstep (xs : List IoScript) (hdelay : ∀ x ∈ xs, x.delay < nvmeTimeout) :
    ∃ s, (xs.flatMap IoScript.events).foldlM nvmeStep nvmeInit = some s ∧ s.pc = .idle ∧
      s.posted = xs.mapIdx (fun k x => x.entry k) ∧ s.taken = s.posted ∧
      s.returned.map (fun r => (r.posted, r.result)) =
        xs.mapIdx (fun k x => ([x.entry k], x.result k)) ∧
      s.sqDoorbells = doorbells xs.length ∧ s.cqDoorbells = doorbells xs.length ∧
      ∀ d ∈ s.sqDoorbells ++ s.cqDoorbells, d < nvmeQueueDepth := by
  have hrun : ∃ s, (xs.flatMap IoScript.events).foldlM nvmeStep nvmeInit = some s ∧
      Lockstep xs s := by
    induction xs using List.reverseRecOn with
    | nil => exact ⟨nvmeInit, rfl, queueOk_nvmeInit, rfl, rfl, rfl, rfl, rfl, rfl, rfl⟩
    | append_singleton xs x ih =>
      obtain ⟨s, hs, h⟩ := ih fun y hy => hdelay y (List.mem_append_left _ hy)
      obtain ⟨s', hs', h'⟩ := h.call (hdelay x (by simp))
      refine ⟨s', ?_, h'⟩
      rw [List.flatMap_append, List.foldlM_append, hs, List.flatMap_singleton]
      exact hs'
  obtain ⟨s, hs, h⟩ := hrun
  refine ⟨s, hs, h.pc, h.posted, h.taken, h.returned, h.sqDoorbells, h.cqDoorbells, ?_⟩
  rw [h.sqDoorbells, h.cqDoorbells]
  intro d hd
  simp only [doorbells, List.mem_append, List.mem_map, or_self] at hd
  obtain ⟨k, -, rfl⟩ := hd
  exact Nat.mod_lt _ (by decide)

def oneRead : IoScript := ⟨⟨.read, 0, 1, kernelVirtBase⟩, 7, 5, 0⟩

theorem io_lockstep_wraps :
    ∃ s, ((List.replicate 130 oneRead).flatMap IoScript.events).foldlM nvmeStep nvmeInit = some s ∧
      s.taken = s.posted ∧ s.taken.length = 130 ∧ s.cqDoorbells.getLast? = some 2 := by
  have hdelay : ∀ x ∈ List.replicate 130 oneRead, x.delay < nvmeTimeout := by
    intro x hx
    rw [List.eq_of_mem_replicate hx]
    decide
  obtain ⟨s, hs, -, hposted, htaken, -, -, hcq, -⟩ := io_lockstep _ hdelay
  refine ⟨s, hs, htaken, ?_, ?_⟩
  · rw [htaken, hposted, List.length_mapIdx, List.length_replicate]
  · rw [hcq, List.length_replicate]
    decide

/-! ## Whose completion a call takes -/

def IoPc.call? : IoPc → Option IoCall
  | .idle => none
  | .polling c _ | .consumed c _ => some c

/-- **No call is credited with another's completion**: a call that returned 0 had a
completion of its own command posted while it ran, with status code 0. -/
def OwnCompletions (s : Nvme) : Prop :=
  ∀ r ∈ s.returned, r.result = 0 → ∃ e ∈ r.posted, e.cid = r.cmd.cid ∧ e.sc = 0

/-- The driver submits a command when it has taken every completion, and while it
waits the controller posts the completion of that command before any other, and no more
than the queue holds. -/
def NvmeEvent.InOrder (s : Nvme) : NvmeEvent → Prop
  | .submit _ => s.taken.length = s.posted.length
  | .post cid _ => ∀ c, s.pc.call? = some c →
      if s.posted.length = c.since then cid = c.cmd.cid
      else s.posted.length < c.since + nvmeQueueDepth
  | .run => True

/-- The first completion since a call began is that of its command. -/
def CallOk (s : Nvme) : IoPc → Prop
  | .idle => True
  | .polling c _ => s.taken.length = c.since ∧ c.since ≤ s.posted.length ∧
      s.posted.length ≤ c.since + nvmeQueueDepth ∧
      ∀ e, s.posted[c.since]? = some e → e.cid = c.cmd.cid
  | .consumed c slot => slot = c.since % nvmeQueueDepth ∧
      s.posted.length ≤ c.since + nvmeQueueDepth ∧
      ∃ e, s.posted[c.since]? = some e ∧ e.cid = c.cmd.cid

structure OwnInv (s : Nvme) : Prop where
  queue : QueueOk s
  call : CallOk s s.pc
  own : OwnCompletions s

theorem OwnInv.submit (h : OwnInv s) (io : BlockIo) (hempty : s.taken.length = s.posted.length) :
    OwnInv (nvmeSubmit s io) where
  queue := ⟨h.queue.wrote, h.queue.tagged, h.queue.head, h.queue.phase⟩
  call := by
    refine ⟨hempty, Nat.le_refl _, Nat.le_add_right _ _, fun e he => ?_⟩
    have hnone : s.posted[s.posted.length]? = none := List.getElem?_eq_none (Nat.le_refl _)
    rw [show (nvmeSubmit s io).posted = s.posted from rfl, hnone] at he
    cases he
  own := h.own

theorem OwnInv.post (h : OwnInv s) {cid : BitVec 16} {code : BitVec 15}
    (hc : (NvmeEvent.post cid code).InOrder s) : OwnInv (nvmePost s cid code) := by
  refine ⟨h.queue.post cid code, ?_, h.own⟩
  have hcall := h.call
  have hlen : (nvmePost s cid code).posted.length = s.posted.length + 1 := by simp [nvmePost]
  have hold : ∀ n, n < s.posted.length → (nvmePost s cid code).posted[n]? = s.posted[n]? :=
    fun n hn => List.getElem?_append_left hn
  show CallOk (nvmePost s cid code) s.pc
  cases hpc : s.pc with
  | idle => trivial
  | polling c timeout =>
    rw [hpc] at hcall
    obtain ⟨htaken, hle, hroom, hown⟩ := hcall
    have hpost := hc c (by rw [hpc]; rfl)
    have hdepth : 0 < nvmeQueueDepth := by decide
    split at hpost
    · -- the first completion of the call
      next hsince =>
        refine ⟨htaken, by omega, by omega, fun e he => ?_⟩
        rw [← hsince] at he
        obtain rfl : _ = e := by simpa [nvmePost] using he
        exact hpost
    · refine ⟨htaken, by omega, by omega, fun e he => hown e ?_⟩
      rwa [hold _ (by omega)] at he
  | consumed c slot =>
    rw [hpc] at hcall
    obtain ⟨hslot, hroom, e, he, hcid⟩ := hcall
    have hlt := (List.getElem?_eq_some_iff.mp he).1
    have hpost := hc c (by rw [hpc]; rfl)
    rw [if_neg (by omega)] at hpost
    exact ⟨hslot, by omega, e, by rwa [hold _ hlt], hcid⟩

theorem OwnInv.return (h : OwnInv s) {c : IoCall} {result : Int}
    (hr : result = 0 → ∃ e ∈ s.posted.drop c.since, e.cid = c.cmd.cid ∧ e.sc = 0) :
    OwnInv (nvmeReturn s c result) := by
  refine ⟨⟨h.queue.wrote, h.queue.tagged, h.queue.head, h.queue.phase⟩, trivial, fun r hmem => ?_⟩
  obtain hold | hnew := List.mem_append.mp hmem
  · exact h.own r hold
  · obtain rfl := List.mem_singleton.mp hnew
    exact hr

theorem OwnInv.poll (h : OwnInv s) (hpc : s.pc = .polling c (timeout + 1)) :
    OwnInv (nvmePoll s c timeout) := by
  have hcall := h.call
  rw [hpc] at hcall
  obtain ⟨htaken, hle, hroom, hown⟩ := hcall
  rw [← htaken] at hroom
  rw [nvmePoll_eq]
  split
  · next hfound =>
      have hlt := (h.queue.poll (by omega) hroom).mp hfound
      rw [htaken] at hlt hroom
      have hsome := List.getElem?_eq_getElem hlt
      refine ⟨h.queue.takeHead c, ⟨?_, hroom, _, hsome, hown _ hsome⟩, h.own⟩
      rw [h.queue.head, htaken]
  · exact ⟨⟨h.queue.wrote, h.queue.tagged, h.queue.head, h.queue.phase⟩,
      ⟨htaken, hle, htaken ▸ hroom, hown⟩, h.own⟩

theorem OwnInv.step {e : NvmeEvent} (h : OwnInv s) (hc : e.InOrder s)
    (hs : nvmeStep s e = some s') : OwnInv s' := by
  cases e with
  | submit io =>
    rw [nvmeStep] at hs
    split at hs
    · cases hs
      exact h.submit io hc
    · cases hs
  | post cid code =>
    cases hs
    exact h.post hc
  | run =>
    rw [nvmeStep, nvmeRun] at hs
    split at hs
    · cases hs
    · cases hs
      exact h.return fun h0 => absurd h0 (by decide)
    · next hpc =>
        cases hs
        exact h.poll hpc
    · next c slot hpc =>
        cases hs
        have hcall := h.call
        rw [hpc] at hcall
        obtain ⟨rfl, hroom, e, he, hcid⟩ := hcall
        obtain ⟨hlt, rfl⟩ := List.getElem?_eq_some_iff.mp he
        have hentry := h.queue.wrote.latest _ hlt hroom
        refine h.return fun h0 => ⟨_, ?_, hcid, ?_⟩
        · rw [List.drop_eq_getElem_cons hlt]
          exact List.mem_cons_self
        · rw [← hentry]
          by_contra hsc
          rw [if_pos hsc] at h0
          cases h0

/-- **Each call returns the status of its own command.** -/
theorem io_returns_own (es : List NvmeEvent)
    (h : Steps nvmeStep (fun s e => e.InOrder s) nvmeInit es) :
    Always nvmeStep OwnCompletions nvmeInit es :=
  always_of_steps (fun _ => OwnInv.own) (fun _ _ _ => OwnInv.step) es
    ⟨queueOk_nvmeInit, trivial, nofun⟩ h

/-- Behind the completion of the read comes one with another identifier. -/
def promptRead : List NvmeEvent := [.submit oneRead.io, .post 5 0, .post 3 0, .run, .run]

theorem io_returns_own_prompt :
    Always nvmeStep OwnCompletions nvmeInit promptRead ∧
      (promptRead.foldlM nvmeStep nvmeInit).map (fun s => s.returned.map (·.result)) =
        some [0] := by
  refine ⟨io_returns_own promptRead ?_, by decide +kernel⟩
  refine .cons rfl rfl (.cons rfl (fun c hc => ?_) (.cons rfl (fun c hc => ?_)
    (.cons rfl trivial (.cons rfl trivial trivial))))
  · obtain rfl := Option.some.inj hc
    decide +kernel
  · obtain rfl := Option.some.inj hc
    decide +kernel

/-- The first read times out and is completed after that; then comes a second
read, with identifier 6. -/
def lateCompletion : List NvmeEvent :=
  .submit oneRead.io :: (List.replicate nvmeTimeout .run ++
    [.run, .post 5 0, .submit oneRead.io, .run, .run])

theorem late_completion_credited :
    ∃ s, lateCompletion.foldlM nvmeStep nvmeInit = some s ∧
      ∃ r ∈ s.returned, r.result = 0 ∧ ∀ e ∈ s.posted, e.cid ≠ r.cmd.cid := by
  let s1 : Nvme :=
    { nvmeSubmit nvmeInit oneRead.io with pc := .polling ⟨oneRead.io.command 5, 0⟩ 0 }
  have hwait : (List.replicate nvmeTimeout NvmeEvent.run).foldlM nvmeStep
      (nvmeSubmit nvmeInit oneRead.io) = some s1 := by
    have h := queueOk_nvmeInit
    refine nvmeStep_replicate nvmeTimeout 0 ⟨h.wrote, h.tagged, h.head, h.phase⟩ rfl ?_
    rfl
  have hrest : ([NvmeEvent.run, .post 5 0, .submit oneRead.io, .run, .run].foldlM nvmeStep s1).any
      (fun s => s.returned.any fun r => r.result == 0 && s.posted.all fun e => e.cid != r.cmd.cid) =
        true := by
    decide +kernel
  obtain ⟨s, hs, hcredited⟩ := (Option.any_eq_true _ _).mp hrest
  refine ⟨s, ?_, by simpa using hcredited⟩
  have hsubmit : nvmeStep nvmeInit (.submit oneRead.io) = some (nvmeSubmit nvmeInit oneRead.io) :=
    rfl
  rw [lateCompletion, List.foldlM_cons, hsubmit, Option.bind_eq_bind, Option.bind_some,
    List.foldlM_append, hwait, Option.bind_eq_bind, Option.bind_some, hs]

end DevOs
