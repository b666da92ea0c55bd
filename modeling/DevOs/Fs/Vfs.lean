import DevOs.CString
import DevOs.Lib.Sparse
import DevOs.Sched.Queue
import DevOs.Types

/-!
The file layer: the in-memory file system of `kernel/fs/ramfs.c` under the
mount table, the path resolution and the descriptors of `kernel/fs/vfs.c`.
-/

namespace DevOs

def vfsNameMax : Nat := 255

def vfsPathMax : Nat := 4096

def ramfsMaxChildren : Nat := 256

def ramfsBlock : Nat := 4096

def mountMax : Nat := 16

def maxFds : Nat := 64

def oCreat : Nat := 0x40

def oAppend : Nat := 0x400

/-- A `vfs_node_t *`: the serial number of the node. -/
abbrev NodeId := Nat

/-- Which of the two `vfs_ops_t` of ramfs a node has. -/
inductive NodeKind where
  | file
  | dir
  deriving DecidableEq, Repr

/-- A `ramfs_node_t` with the `vfs_node_t` in it. `data` is the whole buffer,
so `data.length` is `data_cap`. -/
structure Node where
  name : CString
  kind : NodeKind
  mode : Nat
  inode : Nat
  size : Nat
  refcount : Nat
  parent : Option NodeId
  data : List UInt8
  children : List NodeId

structure Mount where
  path : CString
  root : Option NodeId

/-- A `file_t`, kept in the descriptor slot that points at it. -/
structure OpenFile where
  node : NodeId
  offset : Nat
  flags : Nat
  refcount : Nat
  deriving DecidableEq, Repr

/-- The nodes, the static variables of `ramfs.c` and `vfs.c`, and the
descriptor tables of the tasks. -/
structure Vfs where
  nodes : NodeId → Node
  count : Nat
  nextIno : Nat
  mounts : List Mount
  fds : TaskId → Nat → Option OpenFile

namespace Vfs

def modify (s : Vfs) (i : NodeId) (f : Node → Node) : Vfs :=
  { s with nodes := fun j => if j = i then f (s.nodes j) else s.nodes j }

end Vfs

def ramfsAlloc (s : Vfs) (name : CString) (kind : NodeKind) (ok : Bool) : Option (NodeId × Vfs) :=
  if ok then
    let node : Node :=
      { name := strncpy name vfsNameMax, kind := kind, mode := 0, inode := s.nextIno, size := 0
        refcount := 0, parent := none, data := [], children := [] }
    some (s.count,
      { s.modify s.count (fun _ => node) with count := s.count + 1, nextIno := s.nextIno + 1 })
  else none

def ramfsLookup (s : Vfs) (dir : NodeId) (name : CString) : Option NodeId :=
  (s.nodes dir).children.find? fun c => strcmp (s.nodes c).name name = 0

/-- The common text of `ramfs_mkdir` and `ramfs_create`. -/
def ramfsAdd (kind : NodeKind) (s : Vfs) (dir : NodeId) (name : CString) (mode : Nat) (ok : Bool) :
    Int × Vfs :=
  if ramfsMaxChildren ≤ (s.nodes dir).children.length then (-28, s)
  else match ramfsAlloc s name kind ok with
    | none => (-12, s)
    | some (child, s) =>
      let s := s.modify child fun n => { n with mode := mode, parent := some dir }
      (0, s.modify dir fun n => { n with children := n.children ++ [child] })

def ramfsMkdir : Vfs → NodeId → CString → Nat → Bool → Int × Vfs := ramfsAdd .dir

def ramfsCreate : Vfs → NodeId → CString → Nat → Bool → Int × Vfs := ramfsAdd .file

def ramfsCreateRoot (s : Vfs) (ok : Bool) : Option NodeId × Vfs :=
  match ramfsAlloc s [slash] .dir ok with
  | none => (none, s)
  | some (root, s) => (some root, s.modify root fun n => { n with mode := 0o755 })

def skipSlash : CString → CString
  | [] => []
  | c :: p => if c = slash then skipSlash p else c :: p

/-- The copying loop of `path_component`: what it copies, at most `n`
characters, and where it stops. -/
def componentLoop : Nat → CString → CString × CString
  | 0, s => ([], s)
  | _ + 1, [] => ([], [])
  | n + 1, c :: s =>
    if c = slash then ([], c :: s)
    else match componentLoop n s with
      | (out, rest) => (c :: out, rest)

/-- `path_component`; `none` is the answer 0 at the end of the path. -/
def pathComponent (p : CString) (outsz : Nat) : Option (CString × CString) :=
  match skipSlash p with
  | [] => none
  | c :: s => some (componentLoop (outsz - 1) (c :: s))

/-- The loop of `find_mount`: the best mount so far and its length. -/
def findMountLoop (path : CString) : List Mount → Option Mount → Nat → Option Mount × Nat
  | [], best, bestLen => (best, bestLen)
  | m :: ms, best, bestLen =>
    if strncmp path m.path m.path.length = 0 ∧ bestLen < m.path.length then
      findMountLoop path ms (some m) m.path.length
    else findMountLoop path ms best bestLen

/-- `find_mount`: the root of the best mount and the rest of the path. -/
def findMount (s : Vfs) (path : CString) : Option (NodeId × CString) :=
  match findMountLoop path s.mounts none 0 with
  | (none, _) => none
  | (some m, bestLen) => m.root.map fun root => (root, path.drop bestLen)

/-- The loop of `vfs_lookup`. Every turn takes at least one character off the
path, so that more turns than characters are never made. -/
def lookupLoop (s : Vfs) : Nat → NodeId → CString → Option NodeId
  | 0, _, _ => none
  | n + 1, node, p =>
    match pathComponent p (vfsNameMax + 1) with
    | none => some node
    | some (comp, p) =>
      if (s.nodes node).kind = .dir then
        (ramfsLookup s node comp).bind fun child => lookupLoop s n child p
      else none

def vfsLookup (s : Vfs) (path : CString) : Option NodeId :=
  if path.head? = some slash then
    (findMount s path).bind fun (node, rel) => lookupLoop s (rel.length + 1) node rel
  else none

/-- The loop that looks for the last slash, from index `i` on. -/
def lastSlashLoop : CString → Nat → Option Nat → Option Nat
  | [], _, last => last
  | c :: p, i, last => lastSlashLoop p (i + 1) (if c = slash then some i else last)

def lastSlash (path : CString) : Option Nat := lastSlashLoop path 0 none

def parentPath (path : CString) (last : Nat) : CString :=
  if last = 0 then [slash] else path.take last

def vfsMount (s : Vfs) (path : CString) (root : Option NodeId) : Int × Vfs :=
  if mountMax ≤ s.mounts.length then (-1, s)
  else (0, { s with mounts := s.mounts ++ [⟨strncpy path (vfsPathMax - 1), root⟩] })

def vfsMkdir (s : Vfs) (path : CString) (mode : Nat) (ok : Bool) : Option (Int × Vfs) :=
  match lastSlash path with
  | none => some (-22, s)
  | some last =>
    if vfsPathMax ≤ last then none
    else match vfsLookup s (parentPath path last) with
      | none => some (-2, s)
      | some dir =>
        if (s.nodes dir).kind = .dir then some (ramfsMkdir s dir (path.drop (last + 1)) mode ok)
        else some (-38, s)

/-- `fd_alloc`: the first free slot of the running task. -/
def fdAlloc (s : Vfs) (current : Option TaskId) (f : OpenFile) : Option (Nat × Vfs) :=
  current.bind fun t =>
    ((List.range maxFds).find? fun i => (s.fds t i).isNone).map fun fd =>
      (fd, { s with fds := Function.update s.fds t (Function.update (s.fds t) fd (some f)) })

/-- `vfs_open` from the point where the node is known; neither kind of node
has an `open` of its own. -/
def openNode (s : Vfs) (current : Option TaskId) (node : NodeId) (flags : Nat) (ok : Bool) :
    Int × Vfs :=
  if ok then
    let f : OpenFile :=
      { node := node, offset := if flags &&& oAppend ≠ 0 then (s.nodes node).size else 0
        flags := flags, refcount := 1 }
    let s := s.modify node fun n => { n with refcount := n.refcount + 1 }
    match fdAlloc s current f with
    | none => (-24, s)
    | some (fd, s) => (fd, s)
  else (-12, s)

def vfsOpen (s : Vfs) (current : Option TaskId) (path : CString) (flags mode : Nat)
    (okNode okFile : Bool) : Option (Int × Vfs) :=
  match vfsLookup s path with
  | some node => some (openNode s current node flags okFile)
  | none =>
    if flags &&& oCreat = 0 then some (-2, s)
    else match lastSlash path with
      | none => some (-22, s)
      | some last =>
        if vfsPathMax ≤ last then none
        else match vfsLookup s (parentPath path last) with
          | none => some (-2, s)
          | some dir =>
            if (s.nodes dir).kind = .dir then
              match ramfsCreate s dir (path.drop (last + 1)) mode okNode with
              | (r, s) =>
                if r ≠ 0 then some (-13, s)
                else match vfsLookup s path with
                  | none => some (-2, s)
                  | some node => some (openNode s current node flags okFile)
            else some (-2, s)

def vfsEmpty : Vfs where
  nodes _ := ⟨[], .file, 0, 0, 0, 0, none, [], []⟩
  count := 0
  nextIno := 1
  mounts := []
  fds _ _ := none

/-- A call of `vfs_mkdir` in `vfs_init`, which ignores the answer. -/
def initDir (s : Vfs) (path : CString) (mode : Nat) (ok : Bool) : Vfs :=
  ((vfsMkdir s path mode ok).map Prod.snd).getD s

/-- `vfs_init`: ramfs at `/`, then `/dev`, `/proc` and `/tmp`. -/
def vfsInit (okRoot okDev okProc okTmp : Bool) : Vfs :=
  let (rootfs, s) := ramfsCreateRoot vfsEmpty okRoot
  let s := (vfsMount s [slash] rootfs).2
  let s := initDir s (cstr [47, 100, 101, 118]) 0o755 okDev
  let s := initDir s (cstr [47, 112, 114, 111, 99]) 0o555 okProc
  initDir s (cstr [47, 116, 109, 112]) 0o777 okTmp

/-- `krealloc(data, newCap)` when it succeeds: the old bytes are kept, the new
ones are whatever the heap held. -/
def krealloced (data : List UInt8) (newCap : Nat) (fresh : Nat → UInt8) : List UInt8 :=
  data ++ (List.range (newCap - data.length)).map fresh

/-- `memcpy(data + off, buf, len)`. -/
def overwrite (data : List UInt8) (off : Nat) (buf : List UInt8) : List UInt8 :=
  Sparse.splice data off buf

/-- `ramfs_read`: the result and the bytes in the caller's buffer. -/
def ramfsRead (n : Node) (len off : Nat) : Int × List UInt8 :=
  if n.size ≤ off then (0, [])
  else
    let len := if n.size < (off + len) % 2 ^ 64 then n.size - off else len
    (len, (n.data.drop off).take len)

/-- The part of `ramfs_write` that grows the buffer to hold `fin` bytes. -/
def growBuffer (n : Node) (fin : Nat) (fresh : Option (Nat → UInt8)) : Option Node :=
  if n.data.length < fin then
    let newCap := alignUp fin ramfsBlock
    fresh.map fun fresh =>
      let newData := krealloced n.data newCap fresh
      let newData :=
        if n.data.length < newCap then
          overwrite newData n.data.length (List.replicate (newCap - n.data.length) 0)
        else newData
      { n with data := newData }
  else some n

def ramfsWrite (n : Node) (buf : List UInt8) (off : Nat) (fresh : Option (Nat → UInt8)) :
    Int × Node :=
  let fin := (off + buf.length) % 2 ^ 64
  match growBuffer n fin fresh with
  | none => (-12, n)
  | some n =>
    let n := { n with data := overwrite n.data off buf }
    (buf.length, if n.size < fin then { n with size := fin } else n)

def fdGet (s : Vfs) (current : Option TaskId) (fd : Int) : Option (TaskId × Nat × OpenFile) :=
  match current with
  | none => none
  | some t =>
    if 0 ≤ fd ∧ fd < maxFds then (s.fds t fd.toNat).map fun f => (t, fd.toNat, f) else none

/-- A store to the `file_t` in slot `i` of task `t`. -/
def Vfs.setFile (s : Vfs) (t : TaskId) (i : Nat) (f : Option OpenFile) : Vfs :=
  { s with fds := Function.update s.fds t (Function.update (s.fds t) i f) }

/-- `vfs_close`. A `file_t` has one slot, so its count is 1. -/
def vfsClose (s : Vfs) (current : Option TaskId) (fd : Int) : Int × Vfs :=
  match fdGet s current fd with
  | none => (-9, s)
  | some (t, i, f) =>
    let s := s.setFile t i none
    (0, if f.refcount - 1 = 0 then s.modify f.node fun n => { n with refcount := n.refcount - 1 }
        else s)

/-- `f->offset += (uint64_t)n` if `n > 0`. -/
def OpenFile.advance (f : OpenFile) (n : Int) : OpenFile :=
  if 0 < n then { f with offset := (f.offset + n.toNat) % 2 ^ 64 } else f

def vfsRead (s : Vfs) (current : Option TaskId) (fd : Int) (len : Nat) : Int × List UInt8 × Vfs :=
  match fdGet s current fd with
  | none => (-9, [], s)
  | some (t, i, f) =>
    if (s.nodes f.node).kind = .file then
      let (n, bytes) := ramfsRead (s.nodes f.node) len f.offset
      (n, bytes, s.setFile t i (some (f.advance n)))
    else (-22, [], s)

def vfsWrite (s : Vfs) (current : Option TaskId) (fd : Int) (buf : List UInt8)
    (fresh : Option (Nat → UInt8)) : Int × Vfs :=
  match fdGet s current fd with
  | none => (-9, s)
  | some (t, i, f) =>
    if (s.nodes f.node).kind = .file then
      let (n, node) := ramfsWrite (s.nodes f.node) buf f.offset fresh
      (n, (s.modify f.node fun _ => node).setFile t i (some (f.advance n)))
    else (-22, s)

/-- `SEEK_SET`, `SEEK_CUR`, `SEEK_END`, and any other `whence`. -/
inductive Whence where
  | set
  | cur
  | fin
  | other
  deriving DecidableEq, Repr

/-- A `uint64_t` or a sum of two `int64_t` read as an `int64_t`. -/
def int64 (x : Int) : Int := x.bmod (2 ^ 64)

def newOff (s : Vfs) (f : OpenFile) (off : Int) : Whence → Option Int
  | .set => some off
  | .cur => some (int64 (int64 f.offset + off))
  | .fin => some (int64 (int64 (s.nodes f.node).size + off))
  | .other => none

def vfsLseek (s : Vfs) (current : Option TaskId) (fd off : Int) (whence : Whence) : Int × Vfs :=
  match fdGet s current fd with
  | none => (-9, s)
  | some (t, i, f) =>
    match newOff s f off whence with
    | none => (-22, s)
    | some new =>
      if new < 0 then (-22, s)
      else (new, s.setFile t i (some { f with offset := new.toNat }))

end DevOs
