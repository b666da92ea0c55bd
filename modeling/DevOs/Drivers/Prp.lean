import DevOs.Drivers.Nvme
import DevOs.Lib.Chunks

/-!
How much the commands of `nvme_blk_read` and `nvme_blk_write` transfer.
-/

namespace DevOs

open Device Dialog

inductive NvmeReg where
  | cqeStatus (slot : Nat)
  deriving DecidableEq, Repr

inductive NvmeWrite where
  | sqe (slot : Nat) (cmd : SqEntry)
  | sqDoorbell (v : Nat)
  | cqDoorbell (v : Nat)
  deriving DecidableEq, Repr

abbrev NvmeIo := Dialog NvmeReg NvmeWrite

structure NvmeQueue where
  iosqTail : Nat
  iocqHead : Nat
  iocqPhase : Nat
  nextCid : BitVec 16
  deriving DecidableEq, Repr

def nvmeSubmitIo (q : NvmeQueue) (cmd : SqEntry) : NvmeIo (Int × NvmeQueue) := do
  .write (.sqe q.iosqTail cmd)
  let tail := (q.iosqTail + 1) % nvmeQueueDepth
  let q' := { q with iosqTail := tail }
  .write (.sqDoorbell tail)
  let r ← .poll 16 (.cqeStatus q.iocqHead)
    (fun status => if status &&& 1 = q.iocqPhase then some () else none) nvmeTimeout
  if r.isSome then do
    let head := (q.iocqHead + 1) % nvmeQueueDepth
    let q' := { q' with
      iocqHead := head
      iocqPhase := if head = 0 then q.iocqPhase ^^^ 1 else q.iocqPhase }
    .write (.cqDoorbell head)
    let status ← .read 16 (.cqeStatus q.iocqHead)
    pure (if status >>> 1 &&& 0xFF ≠ 0 then -1 else 0, q')
  else pure (-1, q')

/-- The variables of the loop in `nvme_blk_read` and `nvme_blk_write`, apart from
`count`, and the queues. -/
structure NvmeXfer where
  queue : NvmeQueue
  lba : BitVec 64
  buf : BitVec 64

/-- One pass, of up to 32 blocks; `n * ctrl.lba_size` is a `uint32_t`. -/
def nvmePass (op : IoOp) (lbaSize : BitVec 32) (x : NvmeXfer) (n : Nat) :
    NvmeIo (Option NvmeXfer) := do
  let io : BlockIo := ⟨op, x.lba, BitVec.ofNat 32 n, x.buf⟩
  let cmd := io.command x.queue.nextCid
  let (r, queue) ← nvmeSubmitIo { x.queue with nextCid := x.queue.nextCid + 1 } cmd
  pure (if r ≠ 0 then none
    else some ⟨queue, x.lba + io.n.setWidth 64, x.buf + (io.n * lbaSize).setWidth 64⟩)

/-- `nvme_blk_read` or `nvme_blk_write`; `none` for -1. -/
def nvmeBlk (op : IoOp) (lbaSize : BitVec 32) (q : NvmeQueue) (lba : BitVec 64) (count : Nat)
    (buf : BitVec 64) : NvmeIo (Option NvmeXfer) :=
  inChunks 32 (nvmePass op lbaSize) count ⟨q, lba, buf⟩ count

def SqEntry.prp1 (c : SqEntry) : BitVec 64 :=
  (⟨c.toArray.getD 6 0, c.toArray.getD 7 0⟩ : AddrRegs).addr

def SqEntry.prp2 (c : SqEntry) : BitVec 64 :=
  (⟨c.toArray.getD 8 0, c.toArray.getD 9 0⟩ : AddrRegs).addr

def SqEntry.blocks (c : SqEntry) : Nat := (c.toArray.getD 12 0).toNat % 2 ^ 16 + 1

def SqEntry.InOnePage (lbaSize : BitVec 32) (c : SqEntry) : Prop :=
  c.blocks * lbaSize.toNat ≤ 4096 - c.prp1.toNat % 4096

variable {op : IoOp} {lbaSize : BitVec 32} {q : NvmeQueue} {lba buf : BitVec 64} {cid : BitVec 16}
  {n slot : Nat} {cmd c : SqEntry} {s : Answers}

theorem prp1_command (n : BitVec 32) :
    (BlockIo.command ⟨op, lba, n, buf⟩ cid).prp1.toNat % 4096 = buf.toNat % 4096 := by
  have haddr : (BlockIo.command ⟨op, lba, n, buf⟩ cid).prp1 = buf - kernelVirtBase :=
    AddrRegs.addr_ofPhys (buf - kernelVirtBase)
  have hbase : kernelVirtBase.toNat = 0xFFFFFFFF80000000 := rfl
  rw [haddr, BitVec.toNat_sub, hbase]
  omega

theorem prp2_command (n : BitVec 32) : (BlockIo.command ⟨op, lba, n, buf⟩ cid).prp2 = 0 := by
  change (⟨0, 0⟩ : AddrRegs).addr = 0
  decide

theorem blocks_command (hpos : 0 < n) (hn : n ≤ 32) :
    (BlockIo.command ⟨op, lba, BitVec.ofNat 32 n, buf⟩ cid).blocks = n := by
  change (BitVec.ofNat 32 n - 1).toNat % 2 ^ 16 + 1 = n
  rw [BitVec.toNat_sub, BitVec.toNat_ofNat]
  change (2 ^ 32 - 1 + n % 2 ^ 32) % 2 ^ 32 % 2 ^ 16 + 1 = n
  omega

theorem inOnePage_command_iff (hpos : 0 < n) (hn : n ≤ 32) :
    (BlockIo.command ⟨op, lba, BitVec.ofNat 32 n, buf⟩ cid).InOnePage lbaSize ↔
      n * lbaSize.toNat + buf.toNat % 4096 ≤ 4096 := by
  rw [SqEntry.InOnePage, blocks_command hpos hn, prp1_command]
  omega

theorem sqe_mem_nvmeSubmitIo :
    .sqe slot c ∈ (nvmeSubmitIo q cmd).writes s ↔ slot = q.iosqTail ∧ c = cmd := by
  simp only [nvmeSubmitIo, writes_bind, writes_write, writes_poll,
    writes_ite, writes_read, writes_pure]
  split <;> simp

theorem sqe_mem_nvmePass (x : NvmeXfer) :
    .sqe slot c ∈ (nvmePass op lbaSize x n).writes s ↔ slot = x.queue.iosqTail ∧
      c = BlockIo.command ⟨op, x.lba, BitVec.ofNat 32 n, x.buf⟩ x.queue.nextCid := by
  rw [nvmePass, writes_bind, writes_pure, List.append_nil, sqe_mem_nvmeSubmitIo]

/-- **Every command of a request transfers within the page of PRP1** exactly if the
whole request fits into the page of its buffer. -/
theorem prpOk_iff (op : IoOp) (lbaSize : BitVec 32)
    (hsize : 512 ≤ lbaSize.toNat ∧ lbaSize.toNat ≤ 4096) (q : NvmeQueue) (lba : BitVec 64)
    (count : Nat) (buf : BitVec 64) :
    (∀ s slot c, .sqe slot c ∈ (nvmeBlk op lbaSize q lba count buf).writes s →
      c.prp2 = 0 ∧ c.InOnePage lbaSize) ↔
      count = 0 ∨ count * lbaSize.toNat + buf.toNat % 4096 ≤ 4096 := by
  cases count with
  | zero => simp [nvmeBlk, inChunks_zero]
  | succ count =>
    have hpos : 0 < min 32 (count + 1) := by omega
    have hle : min 32 (count + 1) ≤ 32 := Nat.min_le_left _ _
    have hfirst := @inOnePage_command_iff op lbaSize lba buf q.nextCid _ hpos hle
    rw [or_iff_right (Nat.succ_ne_zero count)]
    constructor
    · -- the first pass is always made, and 32 blocks are more than a page
      intro h
      have hmem : .sqe q.iosqTail (BlockIo.command ⟨op, lba, .ofNat 32 (min 32 (count + 1)), buf⟩
          q.nextCid) ∈ (nvmeBlk op lbaSize q lba (count + 1) buf).writes fun _ => 0 := by
        rw [nvmeBlk, inChunks, if_pos (Nat.succ_pos count), writes_bind]
        exact List.mem_append_left _ ((sqe_mem_nvmePass _).mpr ⟨rfl, rfl⟩)
      have hpage := hfirst.mp (h _ _ _ hmem).2
      have hsmall : count + 1 ≤ 32 := by
        by_contra hbig
        rw [Nat.min_eq_left (by omega)] at hpage
        omega
      rwa [Nat.min_eq_right hsmall] at hpage
    · -- a request of one page is a single pass
      intro h s slot c hc
      have hbytes : (count + 1) * 512 ≤ 4096 :=
        Nat.le_trans (Nat.mul_le_mul_left _ hsize.1) (Nat.le_trans (Nat.le_add_right _ _) h)
      have hsmall : count + 1 ≤ 32 := by omega
      rw [Nat.min_eq_right hsmall] at hfirst
      rw [nvmeBlk, inChunks, if_pos (Nat.succ_pos count), writes_bind,
        Nat.min_eq_right hsmall, Nat.sub_self, List.mem_append] at hc
      obtain hpass | hrest := hc
      · obtain ⟨-, rfl⟩ := (sqe_mem_nvmePass _).mp hpass
        exact ⟨prp2_command _, hfirst.mpr h⟩
      · cases hv : (nvmePass op lbaSize ⟨q, lba, buf⟩ (count + 1)).value s with
        | none => simp [hv] at hrest
        | some x' => simp [hv, inChunks_zero] at hrest

def exampleQueue : NvmeQueue := ⟨0, 0, 1, 5⟩

theorem prpOk_page :
    (512 ≤ (512 : BitVec 32).toNat ∧ (512 : BitVec 32).toNat ≤ 4096) ∧
      ∀ s slot c, .sqe slot c ∈ (nvmeBlk .read 512 exampleQueue 0 8 0x1000).writes s →
        c.prp2 = 0 ∧ c.InOnePage 512 :=
  ⟨by decide, (prpOk_iff .read 512 (by decide) exampleQueue 0 8 0x1000).mpr (by decide)⟩

theorem prp_exceeded :
    ∃ slot c, .sqe slot c ∈ (nvmeBlk .read 512 exampleQueue 0 9 0x1000).writes (fun _ => 0) ∧
      c.prp2 = 0 ∧ ¬ c.InOnePage 512 := by
  refine ⟨0, BlockIo.command ⟨.read, 0, 9, 0x1000⟩ 5, ?_, ?_, ?_⟩
  · rw [nvmeBlk, inChunks, if_pos (by decide), writes_bind]
    exact List.mem_append_left _ ((sqe_mem_nvmePass _).mpr ⟨rfl, rfl⟩)
  · decide
  · unfold SqEntry.InOnePage
    decide

end DevOs
