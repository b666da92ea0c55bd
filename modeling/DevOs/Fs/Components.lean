import DevOs.Fs.Lookup
import DevOs.Lib.Split
import Mathlib.Data.List.ReduceOption

/-!
How paths are taken apart.
-/

namespace DevOs

/-- The results of the calls of `path_component` that `vfs_lookup` makes on a path, where
`none` is the result 0. -/
def componentCallsLoop : Nat → CString → List (Option CString)
  | 0, _ => []
  | n + 1, p =>
    match pathComponent p (vfsNameMax + 1) with
    | none => [none]
    | some (comp, p) => some comp :: componentCallsLoop n p

/-- Every call takes a character at least, so that one call more than the path has
characters is enough. -/
def componentCalls (path : CString) : List (Option CString) :=
  componentCallsLoop (path.length + 1) path

def letterA : CChar := ⟨97, by decide⟩

section

variable {p path : CString} {n : Nat}

theorem componentLoop_eq (n : Nat) (p : CString) :
    componentLoop n p = ((p.takeWhile (· ≠ slash)).take n,
      (p.takeWhile (· ≠ slash)).drop n ++ p.dropWhile (· ≠ slash)) := by
  induction n generalizing p with
  | zero => simp [componentLoop]
  | succ n ih =>
    cases p with
    | nil => rfl
    | cons c p =>
      rw [componentLoop]
      by_cases hc : c = slash
      · simp [hc]
      · simp [hc, ih p]

theorem runs_skipSlash (p : CString) : Split.runs slash (skipSlash p) = Split.runs slash p := by
  induction p with
  | nil => rfl
  | cons c p ih =>
    rw [skipSlash]
    split
    · next hc => rw [hc, Split.runs_sep, ih]
    · rfl

theorem pathComponent_cases (p : CString) :
    (pathComponent p (vfsNameMax + 1) = none ∧ Split.runs slash p = []) ∨
      ∃ run rest, Split.runs slash p = run :: Split.runs slash rest ∧
        pathComponent p (vfsNameMax + 1) =
          some (run.take vfsNameMax, run.drop vfsNameMax ++ rest) := by
  unfold pathComponent
  cases hskip : skipSlash p with
  | nil =>
    refine .inl ⟨rfl, ?_⟩
    rw [← runs_skipSlash, hskip, Split.runs_nil]
  | cons c s =>
    have hc := skipSlash_ne_slash hskip
    refine .inr ⟨c :: s.takeWhile (· ≠ slash), s.dropWhile (· ≠ slash), ?_, ?_⟩
    · rw [← runs_skipSlash, hskip, Split.runs_cons hc]
    · simp [componentLoop_eq, hc]

theorem componentCallsLoop_iff (hn : p.length < n) :
    componentCallsLoop n p = (Split.runs slash p).map some ++ [none] ↔
      ∀ run ∈ Split.runs slash p, run.length ≤ vfsNameMax := by
  induction n generalizing p with
  | zero => exact absurd hn (Nat.not_lt_zero _)
  | succ n ih =>
    rw [componentCallsLoop]
    obtain ⟨hend, hruns⟩ | ⟨run, rest, hruns, hcomp⟩ := pathComponent_cases p
    · simp [hend, hruns]
    · have hlt := pathComponent_length_lt hcomp
      rw [hcomp, hruns, List.map_cons, List.cons_append, List.forall_mem_cons]
      by_cases hfits : run.length ≤ vfsNameMax
      · rw [List.drop_eq_nil_of_le hfits, List.nil_append] at hlt ⊢
        rw [List.take_of_length_le hfits, List.cons_inj_right, ih (by omega)]
        exact (and_iff_right hfits).symm
      · -- the buffer is full before the run ends
        refine iff_of_false (fun heq => hfits ?_) fun hall => hfits hall.1
        have hcut := congrArg List.length (Option.some.inj (List.cons.inj heq).1)
        rw [List.length_take] at hcut
        omega

/-- **The calls of `path_component` return the runs between slashes, and then 0, exactly if
no run is longer than the buffer.** -/
theorem componentCalls_iff (path : CString) :
    componentCalls path = (Split.runs slash path).map some ++ [none] ↔
      ∀ run ∈ Split.runs slash path, run.length ≤ vfsNameMax :=
  componentCallsLoop_iff (Nat.lt_succ_self _)

theorem componentCalls_splits :
    componentCalls (slash :: List.replicate 256 letterA) =
        [some (List.replicate 255 letterA), some [letterA], none] ∧
      Split.runs slash (slash :: List.replicate 256 letterA) =
        [List.replicate 256 letterA] := by
  refine ⟨by decide +kernel, ?_⟩
  rw [Split.runs_sep]
  refine Split.runs_of_forall_ne (List.cons_ne_nil letterA (List.replicate 255 letterA)) ?_
  intro x hx
  rw [List.eq_of_mem_replicate hx]
  decide

end

/-- The indexes of `dir_path` that `vfs_open` writes to: `memcpy`, the NUL, and `strcpy` for
the root. -/
def dirPathWrites (dlen : Nat) : List Nat :=
  List.range dlen ++ [dlen] ++ if dlen = 0 then [0, 1] else []

def parentWrites (plen : Nat) : List Nat :=
  if plen = 0 then [0, 1] else List.range plen ++ [plen]

inductive PathCall where
  | open (flags : Nat)
  | mkdir
  deriving DecidableEq, Repr

def PathCall.writes (s : Vfs) (path : CString) : PathCall → List Nat
  | .open flags =>
    if (vfsLookup s path).isSome ∨ flags &&& oCreat = 0 then []
    else match lastSlash path with
      | none => []
      | some last => dirPathWrites last
  | .mkdir =>
    match lastSlash path with
    | none => []
    | some last => parentWrites last

def PathCall.Spares (s : Vfs) (path : CString) : PathCall → Prop
  | .open flags => (vfsLookup s path).isSome ∨ flags &&& oCreat = 0
  | .mkdir => False

variable {path : CString} {last : Nat}

theorem lastSlashLoop_cases (p : CString) (i : Nat) (acc : Option Nat) :
    (lastSlashLoop p i acc = acc ∧ slash ∉ p) ∨
      ∃ k, lastSlashLoop p i acc = some (i + k) ∧ p[k]? = some slash ∧ slash ∉ p.drop (k + 1) := by
  induction p generalizing i acc with
  | nil => exact .inl ⟨rfl, List.not_mem_nil⟩
  | cons c p ih =>
    rw [lastSlashLoop]
    obtain ⟨heq, hnot⟩ | ⟨k, heq, hk, hrest⟩ := ih (i + 1) (if c = slash then some i else acc)
    · rw [heq]
      by_cases hc : c = slash
      · exact .inr ⟨0, by rw [if_pos hc]; rfl, by rw [hc]; rfl, hnot⟩
      · rw [if_neg hc]
        exact .inl ⟨rfl, by simp [Ne.symm hc, hnot]⟩
    · exact .inr ⟨k + 1, by rw [heq]; congr 1; omega, hk, hrest⟩

theorem lastSlash_cases (path : CString) : (lastSlash path = none ∧ slash ∉ path) ∨
      ∃ last, lastSlash path = some last ∧ path[last]? = some slash ∧
        slash ∉ path.drop (last + 1) := by
  obtain h | ⟨k, heq, hk⟩ := lastSlashLoop_cases path 0 none
  · exact .inl h
  · exact .inr ⟨k, by rw [lastSlash, heq, Nat.zero_add], hk⟩

theorem lastSlash_lt_iff (n : Nat) :
    (∀ last, lastSlash path = some last → last < n) ↔ slash ∉ path.drop n := by
  obtain ⟨heq, hnot⟩ | ⟨last, heq, hat, hrest⟩ := lastSlash_cases path
  · exact iff_of_true (fun last h => by rw [heq] at h; cases h)
      fun hmem => hnot (List.mem_of_mem_drop hmem)
  · rw [heq]
    constructor
    · intro hlt hmem
      have hn := hlt last rfl
      exact hrest (List.drop_subset_drop_left path (by omega) hmem)
    · rintro hnot _ ⟨⟩
      by_contra hle
      refine hnot (List.mem_iff_getElem?.mpr ⟨last - n, ?_⟩)
      rw [List.getElem?_drop, Nat.add_sub_cancel' (by omega), hat]

theorem forall_dirPathWrites (dlen : Nat) :
    (∀ i ∈ dirPathWrites dlen, i < vfsPathMax) ↔ dlen < vfsPathMax := by
  constructor
  · exact fun h => h dlen (by simp [dirPathWrites])
  · intro hlt i hi
    simp only [dirPathWrites, List.mem_append, List.mem_range, List.mem_singleton] at hi
    rcases hi with (hi | hi) | hi
    · omega
    · omega
    · split at hi
      · have htwo : i = 0 ∨ i = 1 := by simpa using hi
        unfold vfsPathMax
        omega
      · cases hi

theorem forall_parentWrites (plen : Nat) :
    (∀ i ∈ parentWrites plen, i < vfsPathMax) ↔ plen < vfsPathMax := by
  unfold parentWrites
  split
  · next hz =>
      refine iff_of_true ?_ (by rw [hz]; decide)
      decide
  · constructor
    · exact fun h => h plen (by simp)
    · intro hlt i hi
      simp only [List.mem_append, List.mem_range, List.mem_singleton] at hi
      omega

theorem PathCall.writes_inside_iff (s : Vfs) (path : CString) (c : PathCall) :
    (∀ i ∈ c.writes s path, i < vfsPathMax) ↔
      c.Spares s path ∨ ∀ last, lastSlash path = some last → last < vfsPathMax := by
  cases c with
  | «open» flags =>
    unfold PathCall.writes PathCall.Spares
    by_cases hspare : (vfsLookup s path).isSome ∨ flags &&& oCreat = 0
    · simp [hspare]
    · cases hlast : lastSlash path with
      | none => simp [hspare]
      | some last => simp [hspare, forall_dirPathWrites]
  | mkdir =>
    unfold PathCall.writes PathCall.Spares
    cases hlast : lastSlash path with
    | none => simp
    | some last => simp [forall_parentWrites]

/-- **The directory of a path stays inside its buffer** exactly if there is no slash at an
index of `VFS_PATH_MAX` or more, or it is not copied at all. -/
theorem parentInside_iff (s : Vfs) (path : CString) (c : PathCall) :
    (∀ i ∈ c.writes s path, i < vfsPathMax) ↔
      c.Spares s path ∨ slash ∉ path.drop vfsPathMax := by
  rw [c.writes_inside_iff, lastSlash_lt_iff]

def longPath : CString := slash :: (List.replicate 4095 letterA ++ [slash, letterA])

theorem long_path_overruns_parent :
    4096 ∈ PathCall.mkdir.writes (vfsInit true true true true) longPath ∧
      4096 ∈ (PathCall.open oCreat).writes (vfsInit true true true true) longPath := by
  have hlast : lastSlash longPath = some 4096 := by decide +kernel
  obtain ⟨root, hmount⟩ := oneMount_init true true true true
  have hnone : vfsLookup (vfsInit true true true true) longPath = none :=
    vfsLookup_eq_none hmount fun heq => List.cons_ne_nil letterA _ (List.cons.inj heq).2
  constructor
  · rw [PathCall.writes, hlast]
    exact List.mem_append_right _ (List.mem_singleton_self 4096)
  · rw [PathCall.writes, hnone, if_neg (by decide), hlast]
    exact List.mem_append_left _ (List.mem_append_right _ (List.mem_singleton_self 4096))

end DevOs
