import PointsTo.Association

/-!
# Lists under keys

A table with a list of values under every key.  A value is put behind those that are
there already, and nothing is taken out.  Stores keep such a table beside the
collection of all their entries, so that those of one key are read without a search.

Main statements:

- {lit}`get_push`: a push changes the list of one key, at its end.
- {lit}`contains_iff`: a key is there if there are values under it.
- {lit}`mem_values`, {lit}`nodup_values`: the values of all keys together.
-/

namespace PointsTo

/-- Lists of values under keys. -/
structure Multimap (κ ν : Type) where
  entries : List (κ × List ν)
  nodup : (entries.map Prod.fst).Nodup
  /-- A key comes with its first value. -/
  filled : ∀ e ∈ entries, e.2 ≠ []

namespace Multimap

variable {κ ν : Type}

/-- No keys. -/
def empty : Multimap κ ν := ⟨[], List.nodup_nil, by simp⟩

instance : Inhabited (Multimap κ ν) := ⟨empty⟩

/-- The values of all keys, key by key. -/
def values (m : Multimap κ ν) : List ν := m.entries.flatMap Prod.snd

variable [DecidableEq κ]

/-- The values under a key, oldest first. -/
def get (m : Multimap κ ν) (k : κ) : List ν := (m.entries.lookup k).getD []

/-- A key has values. -/
def contains (m : Multimap κ ν) (k : κ) : Bool := (m.entries.lookup k).isSome

/-- Put a value behind those of its key. -/
def push (m : Multimap κ ν) (k : κ) (v : ν) : Multimap κ ν where
  entries := Association.alter k (fun vs => vs.getD [] ++ [v]) m.entries
  nodup := Association.nodup_alter m.nodup k _
  filled := Association.forall_alter (p := fun vs => vs ≠ []) (by simp) m.filled

/-- Without keys there are no values. -/
@[simp] theorem get_empty (k : κ) : (empty : Multimap κ ν).get k = [] := rfl

/-- A push puts its value at the end of one list. -/
theorem get_push (m : Multimap κ ν) (k l : κ) (v : ν) :
    (m.push k v).get l = m.get l ++ if l = k then [v] else [] := by
  unfold get push
  rw [Association.lookup_alter]
  by_cases h : l = k
  · rw [if_pos h, if_pos h, Option.getD_some, h]
  · rw [if_neg h, if_neg h, List.append_nil]

/-- The values of a key that is there are those of its entry. -/
theorem get_of_mem {m : Multimap κ ν} {k : κ} {vs : List ν} (h : (k, vs) ∈ m.entries) :
    m.get k = vs := by
  rw [get, (Association.lookup_eq_some_iff m.nodup).2 h, Option.getD_some]

/-- A key that has values has an entry with them. -/
theorem mem_entries_of_get {m : Multimap κ ν} {k : κ} (h : m.get k ≠ []) :
    (k, m.get k) ∈ m.entries := by
  unfold get at h ⊢
  cases hk : m.entries.lookup k with
  | none =>
    rw [hk] at h
    exact absurd rfl h
  | some vs => exact (Association.lookup_eq_some_iff m.nodup).1 hk

/-- A key is there if it has values. -/
theorem contains_iff {m : Multimap κ ν} {k : κ} : m.contains k = true ↔ m.get k ≠ [] := by
  rw [contains, Option.isSome_iff_exists]
  constructor
  · rintro ⟨vs, hvs⟩
    have hmem := (Association.lookup_eq_some_iff m.nodup).1 hvs
    rw [get_of_mem hmem]
    exact m.filled _ hmem
  · intro h
    exact ⟨_, (Association.lookup_eq_some_iff m.nodup).2 (mem_entries_of_get h)⟩

/-- A value is there if some key has it. -/
theorem mem_values {m : Multimap κ ν} {v : ν} : v ∈ m.values ↔ ∃ k, v ∈ m.get k := by
  rw [values, List.mem_flatMap]
  constructor
  · rintro ⟨⟨k, vs⟩, hmem, hv⟩
    exact ⟨k, (get_of_mem hmem).symm ▸ hv⟩
  · rintro ⟨k, hv⟩
    exact ⟨_, mem_entries_of_get (List.ne_nil_of_mem hv), hv⟩

/-- No value comes twice if none is twice under a key or under two keys. -/
theorem nodup_values {m : Multimap κ ν} (hget : ∀ k, (m.get k).Nodup)
    (hkey : ∀ k l v, v ∈ m.get k → v ∈ m.get l → k = l) : m.values.Nodup := by
  rw [values, List.Nodup, List.pairwise_flatMap]
  constructor
  · rintro ⟨k, vs⟩ hmem
    exact get_of_mem hmem ▸ hget k
  · refine (List.pairwise_map.1 m.nodup).imp_of_mem ?_
    rintro ⟨k, vs⟩ ⟨l, ws⟩ hk hl hne v hv w hw rfl
    exact hne (hkey k l v ((get_of_mem hk).symm ▸ hv) ((get_of_mem hl).symm ▸ hw))

end Multimap

end PointsTo
