import DevOs.Fs.Content

/-!
Files that are written and truncated.
-/

namespace DevOs

open Machine

/-- `ramfs_truncate`, where `none` is a `memset` outside of the buffer. -/
def ramfsTruncate (n : Node) (size : Nat) : Option Node :=
  if size < n.size ∧ n.data ≠ [] then
    if n.size ≤ n.data.length then
      some { n with data := overwrite n.data size (List.replicate (n.size - size) 0), size := size }
    else none
  else some { n with size := size }

inductive ContentOp where
  | write (buf : List UInt8) (off : Nat) (fresh : Option (Nat → UInt8))
  | truncate (size : Nat)

def contentStep (n : Node) : ContentOp → Option Node
  | .write buf off fresh => some (ramfsWrite n buf off fresh).2
  | .truncate size => ramfsTruncate n size

def ContentOp.Below : ContentOp → Prop
  | .write buf off _ => off + buf.length < 2 ^ 63
  | .truncate size => size < 2 ^ 63

def readBack (n : Node) : List UInt8 := (ramfsRead n n.size 0).2

def ReadsInside (n : Node) : Prop :=
  ∀ len < 2 ^ 63, ∀ off < 2 ^ 63, (ramfsRead n len off).1 = 0 ∨
    (off + (ramfsRead n len off).1 : Int) ≤ n.data.length

/-- **What a call has to leave**: a size that the buffer has room for, a file that can be read,
and after a `truncate` the old content, cut or filled with zeros. -/
def ContentOp.Right (n : Node) (op : ContentOp) : Prop :=
  ∀ n', contentStep n op = some n' →
    n'.size ≤ n'.data.length ∧ ReadsInside n' ∧
      ∀ size, op = .truncate size → readBack n' = Sparse.resize 0 (readBack n) size

/-- A `truncate` does not ask for more than `data_cap`. -/
def ContentOp.Fits (n : Node) : ContentOp → Prop
  | .write _ _ _ => True
  | .truncate size => size ≤ n.data.length

variable {n n' : Node} {l : List UInt8} {op : ContentOp} {size : Nat}

theorem Holds.size_le (h : Holds n (some l)) : n.size ≤ n.data.length := by
  obtain ⟨-, hsize, -, k, hdata⟩ := h
  rw [hsize, hdata, List.length_append]
  omega

theorem Holds.readBack (h : Holds n (some l)) : readBack n = l := by
  obtain ⟨-, hsize, hl, k, hdata⟩ := h
  unfold DevOs.readBack ramfsRead
  rw [hsize, hdata, Nat.zero_add, Nat.mod_eq_of_lt (hl.trans (by decide)), if_neg (lt_irrefl _)]
  split
  · rename_i hnil
    exact (List.eq_nil_of_length_eq_zero (Nat.le_zero.mp hnil)).symm
  · exact List.take_left

theorem readsInside_of_size_le (hsize : n.size ≤ n.data.length) : ReadsInside n := by
  intro len hlen off hoff
  unfold ramfsRead
  rw [Nat.mod_eq_of_lt (by omega)]
  split
  · exact .inl rfl
  · refine .inr ?_
    dsimp only
    split <;> omega

theorem ramfsTruncate_spec (h : Holds n (some l)) (hsize : size < 2 ^ 63)
    (hroom : size ≤ n.data.length) :
    ∃ n', ramfsTruncate n size = some n' ∧ Holds n' (some (Sparse.resize 0 l size)) := by
  have hle := h.size_le
  obtain ⟨hkind, hn, -, k, hdata⟩ := h
  have hlen := Sparse.length_resize 0 l size
  unfold ramfsTruncate
  split
  · rename_i hcut
    refine ⟨_, rfl, hkind, hlen.symm, by rwa [hlen], l.length - size + k, ?_⟩
    rw [hn] at hcut ⊢
    rw [overwrite, hdata, Sparse.splice_cut 0 hcut.1.le]
  · rename_i hkeep
    -- a file without a buffer is empty
    have hge : l.length ≤ size := by
      by_contra hlt
      refine hkeep ⟨by omega, fun hnil => ?_⟩
      rw [hdata] at hnil
      rw [(List.append_eq_nil_iff.mp hnil).1, List.length_nil] at hlt
      omega
    refine ⟨_, rfl, hkind, hlen.symm, by rwa [hlen], l.length + k - size, ?_⟩
    refine hdata.trans (Sparse.resize_pad 0 hge ?_)
    rwa [hdata, List.length_append, List.length_replicate] at hroom

theorem size_of_ramfsTruncate (h : ramfsTruncate n size = some n')
    (hroom : n.data.length < size) : n'.data.length < n'.size := by
  unfold ramfsTruncate at h
  split at h
  · rename_i hcut
    rw [if_neg (by omega)] at h
    cases h
  · cases h
    exact hroom

theorem holds_contentStep (h : Holds n (some l)) (hb : op.Below) (hf : op.Fits n)
    (hs : contentStep n op = some n') : ∃ l', Holds n' (some l') := by
  cases op with
  | write buf off fresh =>
    cases hs
    obtain ⟨hw, -⟩ | ⟨n', hw, hholds⟩ := ramfsWrite_spec h hb fresh
    · exact ⟨l, by rwa [hw]⟩
    · exact ⟨_, by rwa [hw]⟩
  | truncate size =>
    obtain ⟨n1, ht, hholds⟩ := ramfsTruncate_spec h hb hf
    obtain rfl : n1 = n' := Option.some.inj (ht.symm.trans hs)
    exact ⟨_, hholds⟩

theorem right_iff_fits (h : Holds n (some l)) (hb : op.Below) : op.Right n ↔ op.Fits n := by
  constructor
  · intro hright
    cases op with
    | write buf off fresh => trivial
    | truncate size =>
      by_contra hroom
      have hlt : n.data.length < size := Nat.lt_of_not_le hroom
      have hle := h.size_le
      have ht : ramfsTruncate n size = some { n with size := size } :=
        if_neg fun hcut => absurd hcut.1 (by omega)
      exact absurd (hright _ ht).1 (Nat.not_le_of_lt (size_of_ramfsTruncate ht hlt))
  · intro hf n' hs
    obtain ⟨l', h'⟩ := holds_contentStep h hb hf hs
    refine ⟨h'.size_le, readsInside_of_size_le h'.size_le, ?_⟩
    rintro size rfl
    obtain ⟨n1, ht, hholds⟩ := ramfsTruncate_spec h hb hf
    obtain rfl : n1 = n' := Option.some.inj (ht.symm.trans hs)
    rw [hholds.readBack, h.readBack]

/-- **Every call on a new file is right exactly if no `truncate` asks for more than the
buffer has at that time.** -/
theorem truncate_iff (hkind : n.kind = .file) (hsize : n.size = 0) (hdata : n.data = [])
    (ops : List ContentOp) (hb : ∀ op ∈ ops, op.Below) :
    Steps contentStep ContentOp.Right n ops ↔
      Steps contentStep ContentOp.Fits n ops := by
  have h0 : Holds n (some []) := ⟨hkind, hsize, by decide, 0, hdata⟩
  refine @steps_iff_steps _ _ contentStep (fun n => ∃ l, Holds n (some l)) _ _ _ ?_ ?_
    ops n ⟨[], h0⟩ (steps_of_forall n hb)
  · rintro n op ⟨l, h⟩ hop
    exact right_iff_fits h hop
  · rintro n op n' ⟨l, h⟩ hop hf hs
    exact holds_contentStep h hop hf hs

def newFile : Node := ⟨[], .file, 0, 1, 0, 0, none, [], []⟩

theorem truncate_in_block :
    Steps contentStep ContentOp.Right newFile
      [.write [1, 2, 3] 0 (some fun _ => 0xAA), .truncate 1, .truncate 5] := by
  refine (truncate_iff rfl rfl rfl _ ?_).mpr ?_
  · simp [ContentOp.Below]
  · intro n1 h1
    have hcap1 : n1.data.length = 4096 := by
      cases h1
      decide +kernel
    refine ⟨trivial, fun n2 h2 => ⟨?_, fun n3 _ => ⟨?_, trivial⟩⟩⟩
    · change 1 ≤ n1.data.length
      omega
    · have hcap2 : (contentStep n1 (.truncate 1)).map (·.data.length) = some 4096 := by
        cases h1
        decide +kernel
      rw [h2, Option.map_some, Option.some.injEq] at hcap2
      change 5 ≤ n2.data.length
      omega

theorem truncate_without_buffer :
    ∃ n', contentStep newFile (.truncate 1) = some n' ∧ n'.size = 1 ∧ n'.data.length = 0 ∧
      ramfsRead n' 1 0 = (1, []) ∧ ¬ (ContentOp.truncate 1).Right newFile := by
  refine ⟨{ newFile with size := 1 }, rfl, rfl, rfl, by decide, fun h => ?_⟩
  exact absurd (h _ rfl).1 (by decide)

end DevOs
