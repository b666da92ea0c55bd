import Mathlib.Data.List.Nodup
import Mathlib.Data.List.Induction

/-!
A table of limited size from keys to values. `record` gives a key that is
there a new value, and adds one that is not while there is room; no key is ever
removed. After any sequence of records the keys are the first distinct ones,
each with the value recorded for it last.
-/

structure Directory (n : Nat) (κ ν : Type) where
  entries : List (κ × ν)
  nodup : (entries.map Prod.fst).Nodup
  length_le : entries.length ≤ n

namespace Directory

variable {n : Nat} {κ ν : Type} [DecidableEq κ]

def empty : Directory n κ ν := ⟨[], List.nodup_nil, Nat.zero_le n⟩

def keys (d : Directory n κ ν) : List κ := d.entries.map Prod.fst

def get (d : Directory n κ ν) (k : κ) : Option ν := d.entries.lookup k

def replace (k : κ) (v : ν) (es : List (κ × ν)) : List (κ × ν) :=
  es.map fun e => if e.1 = k then (k, v) else e

theorem map_fst_replace (k : κ) (v : ν) (es : List (κ × ν)) :
    (replace k v es).map Prod.fst = es.map Prod.fst := by
  rw [replace, List.map_map]
  refine List.map_congr_left fun e _ => ?_
  simp only [Function.comp_apply]
  split
  · exact Eq.symm ‹_›
  · rfl

theorem replace_eq_self {k : κ} {es : List (κ × ν)} (h : k ∉ es.map Prod.fst) (v : ν) :
    replace k v es = es := by
  refine (List.map_congr_left fun e he => ?_).trans (List.map_id es)
  have hne : e.1 ≠ k := fun heq => h (heq ▸ List.mem_map_of_mem he)
  exact if_neg hne

theorem lookup_cons_eq (k k' : κ) (v : ν) (es : List (κ × ν)) :
    ((k', v) :: es).lookup k = if k = k' then some v else es.lookup k := by
  rw [List.lookup_cons]
  by_cases h : k = k'
  · simp [h]
  · rw [if_neg h, beq_false_of_ne h]

theorem lookup_replace (k k' : κ) (v : ν) (es : List (κ × ν)) : (replace k v es).lookup k' =
      if k' = k ∧ k ∈ es.map Prod.fst then some v else es.lookup k' := by
  induction es with
  | nil => simp [replace]
  | cons e es ih =>
    rw [replace, List.map_cons, ← replace]
    obtain ⟨k0, v0⟩ := e
    dsimp only
    by_cases hk : k0 = k
    · rw [if_pos hk, lookup_cons_eq, lookup_cons_eq, ih, List.map_cons]
      grind
    · rw [if_neg hk, lookup_cons_eq, lookup_cons_eq, ih, List.map_cons]
      grind

def record (d : Directory n κ ν) (k : κ) (v : ν) : Directory n κ ν :=
  if hk : k ∈ d.keys then
    ⟨replace k v d.entries, (map_fst_replace k v d.entries).symm ▸ d.nodup,
      Nat.le_trans (Nat.le_of_eq (List.length_map _)) d.length_le⟩
  else if hroom : d.entries.length < n then
    ⟨d.entries ++ [(k, v)], by
      rw [List.map_append]
      exact List.nodup_append.mpr ⟨d.nodup, List.nodup_singleton k, by grind [keys]⟩, by
      rw [List.length_append]
      exact hroom⟩
  else d

section

variable {d : Directory n κ ν} {k k' : κ} {v : ν}

theorem entries_record_of_mem (h : k ∈ d.keys) :
    (d.record k v).entries = replace k v d.entries := by
  rw [record, dif_pos h]

theorem entries_record_of_lt (h : k ∉ d.keys) (hroom : d.entries.length < n) :
    (d.record k v).entries = d.entries ++ [(k, v)] := by
  rw [record, dif_neg h, dif_pos hroom]

theorem record_of_full (h : k ∉ d.keys) (hroom : ¬ d.entries.length < n) : d.record k v = d := by
  rw [record, dif_neg h, dif_neg hroom]

theorem keys_record :
    (d.record k v).keys = if k ∈ d.keys then d.keys else (d.keys ++ [k]).take n := by
  have hlen : d.keys.length = d.entries.length := List.length_map _
  have hle := d.length_le
  by_cases hk : k ∈ d.keys
  · rw [if_pos hk, keys, entries_record_of_mem hk, map_fst_replace, keys]
  · rw [if_neg hk]
    by_cases hroom : d.entries.length < n
    · rw [keys, entries_record_of_lt hk hroom, List.map_append, ← keys, List.take_of_length_le]
      · rfl
      · rw [List.length_append, hlen]
        exact hroom
    · rw [record_of_full hk hroom, List.take_append_of_le_length (by omega),
        List.take_of_length_le (by omega)]

theorem mem_keys_record :
    k' ∈ (d.record k v).keys ↔ k' ∈ d.keys ∨ k' = k ∧ d.entries.length < n := by
  by_cases hk : k ∈ d.keys
  · rw [keys_record, if_pos hk]
    exact ⟨.inl, fun h => h.elim id fun heq => heq.1 ▸ hk⟩
  · by_cases hroom : d.entries.length < n
    · rw [keys, entries_record_of_lt hk hroom]
      simp [keys, hroom]
    · rw [record_of_full hk hroom]
      simp [hroom]

theorem get_record : (d.record k v).get k' =
      if k' = k ∧ k ∈ (d.record k v).keys then some v else d.get k' := by
  by_cases hk : k ∈ d.keys
  · have hnew : k ∈ (d.record k v).keys := mem_keys_record.mpr (.inl hk)
    rw [get, entries_record_of_mem hk, lookup_replace, get]
    exact if_congr (and_congr_right fun _ => iff_of_true hk hnew) rfl rfl
  · by_cases hroom : d.entries.length < n
    · have hnew : k ∈ (d.record k v).keys := mem_keys_record.mpr (.inr ⟨rfl, hroom⟩)
      have hnone : d.entries.lookup k = none := List.lookup_eq_none_iff.mpr (by grind [keys])
      rw [get, entries_record_of_lt hk hroom, List.lookup_append, lookup_cons_eq, get]
      by_cases heq : k' = k
      · subst heq
        simp [hnone, hnew]
      · simp [heq]
    · rw [record_of_full hk hroom, if_neg fun h => hk h.2]

end

def recordAll (ps : List (κ × ν)) : Directory n κ ν :=
  ps.foldl (fun d p => d.record p.1 p.2) empty

def firstKeys (n : Nat) (ps : List (κ × ν)) : List κ := (ps.map Prod.fst).eraseDups.take n

def latest (ps : List (κ × ν)) (k : κ) : Option ν := ps.reverse.lookup k

variable {ps : List (κ × ν)} {k : κ}

theorem recordAll_concat (p : κ × ν) :
    (recordAll (ps ++ [p]) : Directory n κ ν) = (recordAll ps).record p.1 p.2 := by
  rw [recordAll, List.foldl_append, List.foldl_cons, List.foldl_nil, recordAll]

theorem eraseDups_concat (ks : List κ) (k : κ) :
    (ks ++ [k]).eraseDups = if k ∈ ks then ks.eraseDups else ks.eraseDups ++ [k] := by
  rw [List.eraseDups_append]
  by_cases hk : k ∈ ks
  · simp [hk, List.removeAll]
  · simp [hk, List.removeAll, List.eraseDups_cons]

theorem keys_recordAll (ps : List (κ × ν)) :
    (recordAll ps : Directory n κ ν).keys = firstKeys n ps := by
  induction ps using List.reverseRecOn with
  | nil => simp [recordAll, empty, keys, firstKeys]
  | append_singleton ps p ih =>
    rw [recordAll_concat, keys_record, ih, firstKeys, firstKeys, List.map_append, List.map_cons,
      List.map_nil, eraseDups_concat]
    have hmem : p.1 ∈ (ps.map Prod.fst).eraseDups ↔ p.1 ∈ ps.map Prod.fst := List.mem_eraseDups
    generalize (ps.map Prod.fst).eraseDups = ks at hmem ⊢
    by_cases hk : p.1 ∈ ks.take n
    · rw [if_pos hk, if_pos (hmem.mp (List.mem_of_mem_take hk))]
    · rw [if_neg hk]
      by_cases hseen : p.1 ∈ ps.map Prod.fst
      · -- a key that came too late the first time
        have hfull : n ≤ ks.length := by
          by_contra hlt
          rw [List.take_of_length_le (by omega)] at hk
          exact hk (hmem.mpr hseen)
        rw [if_pos hseen, List.take_append_of_le_length (by rw [List.length_take]; omega),
          List.take_take, Nat.min_self]
      · rw [if_neg hseen, List.take_append, List.take_append, List.take_take, Nat.min_self,
          List.length_take]
        congr 2
        omega

theorem latest_concat (p : κ × ν) :
    latest (ps ++ [p]) k = if k = p.1 then some p.2 else latest ps k := by
  rw [latest, List.reverse_append, List.reverse_singleton, List.singleton_append]
  exact lookup_cons_eq k p.1 p.2 _

theorem get_recordAll (ps : List (κ × ν)) (k : κ) : (recordAll ps : Directory n κ ν).get k =
      if k ∈ firstKeys n ps then latest ps k else none := by
  induction ps using List.reverseRecOn with
  | nil => simp [recordAll, empty, get, firstKeys]
  | append_singleton ps p ih =>
    have hkeys : k ∈ firstKeys n (ps ++ [p]) ↔ k ∈ firstKeys n ps ∨
        k = p.1 ∧ (recordAll ps : Directory n κ ν).entries.length < n := by
      rw [← keys_recordAll, ← keys_recordAll, recordAll_concat]
      exact mem_keys_record
    rw [recordAll_concat, get_record, ← recordAll_concat, keys_recordAll, ih, latest_concat]
    grind

theorem isSome_latest (h : k ∈ firstKeys n ps) : (latest ps k).isSome := by
  obtain ⟨p, hp, rfl⟩ := List.mem_map.mp (List.mem_eraseDups.mp (List.mem_of_mem_take h))
  rw [Option.isSome_iff_ne_none]
  intro hnone
  simpa using List.lookup_eq_none_iff.mp hnone p (List.mem_reverse.mpr hp)

end Directory
