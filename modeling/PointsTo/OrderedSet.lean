import PointsTo.Association

/-!
# Collections without repetition, in the order of insertion

Points-to sets, edge stores, waitlists and intern tables all ask for the same
thing: an entry is stored the first time it comes and ignored afterwards, and
reading goes through the entries in the order in which they first came.
{lit}`OrderedSet` is that collection.  It keeps a list, which reading goes through,
and beside it an index, in which an entry is looked up.  Every operation changes
both, and that they agree belongs to the type.  The only view of a collection is
{lit}`toList`, a list without repetition, and every operation is described by what it
does to it.

Main statements:

- {lit}`mem_insert`, {lit}`mem_union`, {lit}`mem_ofList`: membership.
- {lit}`toList_insert`, {lit}`toList_union`: new entries go to the end.
- {lit}`toList_newIn`: what a merge reports as new.
- {lit}`prefix_ofList`: a longer list keeps the entries of a shorter one in front.
- {lit}`index?_eq_some_iff`: positions and entries determine each other.
-/

namespace PointsTo

/-- Distinct entries, oldest first, and where each of them is. -/
structure OrderedSet (α : Type) where
  toList : List α
  /-- Every entry with its position, the latest one first. -/
  index : List (α × Nat)
  nodup : toList.Nodup
  /-- List and index agree. -/
  indexed : index = toList.zipIdx.reverse

namespace OrderedSet

variable {α : Type}

/-- Sets with the same entries in the same order are equal. -/
@[ext] theorem ext_toList {s t : OrderedSet α} (h : s.toList = t.toList) : s = t := by
  obtain ⟨l, _, _, rfl⟩ := s
  obtain ⟨k, _, _, rfl⟩ := t
  cases h
  rfl

instance : Membership α (OrderedSet α) :=
  ⟨fun s a => a ∈ s.toList⟩

/-- Membership is that of the list of entries. -/
theorem mem_def {a : α} {s : OrderedSet α} : a ∈ s ↔ a ∈ s.toList := Iff.rfl

/-- No entries. -/
def empty : OrderedSet α := ⟨[], [], List.nodup_nil, rfl⟩

instance : Inhabited (OrderedSet α) := ⟨empty⟩

/-- The empty set has no entries. -/
@[simp] theorem toList_empty : (empty : OrderedSet α).toList = [] := rfl

/-- The empty set has no members. -/
@[simp] theorem not_mem_empty (a : α) : ¬ a ∈ (empty : OrderedSet α) := by
  simp [mem_def]

/-- The number of entries. -/
def size (s : OrderedSet α) : Nat := s.toList.length

/-- There are no entries. -/
def isEmpty (s : OrderedSet α) : Bool := s.toList.isEmpty

/-- Only the empty set has no entries. -/
theorem isEmpty_iff {s : OrderedSet α} : s.isEmpty = true ↔ s = empty := by
  unfold isEmpty
  rw [List.isEmpty_iff]
  exact ⟨fun h => ext_toList h, fun h => h ▸ rfl⟩

/-- A set that is not empty has a member. -/
theorem not_isEmpty_iff {s : OrderedSet α} : ¬ s.isEmpty = true ↔ ∃ a, a ∈ s := by
  unfold isEmpty
  rw [List.isEmpty_iff]
  exact ⟨List.exists_mem_of_ne_nil _, fun ⟨_, ha⟩ => List.ne_nil_of_mem ha⟩

/-- The entry at a position, counted from the oldest. -/
def get? (s : OrderedSet α) (i : Nat) : Option α := s.toList[i]?

variable [DecidableEq α]

/-! ## Looking entries up -/

/-- The position of an entry. -/
def index? (s : OrderedSet α) (a : α) : Option Nat := s.index.lookup a

/-- The index gives the position at which the list has an entry. -/
theorem index?_eq_some_iff {s : OrderedSet α} {a : α} {i : Nat} :
    s.index? a = some i ↔ s.get? i = some a := by
  have hkeys : (s.index.map Prod.fst).Nodup := by
    rw [s.indexed, List.map_reverse, List.zipIdx_map_fst]
    exact List.pairwise_reverse.2 (s.nodup.imp Ne.symm)
  rw [index?, Association.lookup_eq_some_iff hkeys, s.indexed, List.mem_reverse,
    List.mk_mem_zipIdx_iff_getElem?, get?]

/-- An entry is where its index says. -/
theorem get?_index? {s : OrderedSet α} {a : α} {i : Nat} (h : s.index? a = some i) :
    s.get? i = some a := index?_eq_some_iff.1 h

/-- The index of an entry is where it is. -/
theorem index?_of_get? {s : OrderedSet α} {a : α} {i : Nat} (h : s.get? i = some a) :
    s.index? a = some i := index?_eq_some_iff.2 h

/-- The index knows exactly the entries of the list. -/
theorem isSome_index? {s : OrderedSet α} {a : α} : (s.index? a).isSome = true ↔ a ∈ s := by
  rw [Option.isSome_iff_exists, mem_def, List.mem_iff_getElem?]
  exact exists_congr fun i => index?_eq_some_iff

/-- Only what is no member has no index. -/
theorem index?_eq_none_iff {s : OrderedSet α} {a : α} : s.index? a = none ↔ ¬ a ∈ s := by
  rw [← isSome_index?, Option.not_isSome_iff_eq_none]

/-- Whether an entry is there is looked up in the index. -/
instance (a : α) (s : OrderedSet α) : Decidable (a ∈ s) :=
  decidable_of_iff _ isSome_index?

/-! ## Adding entries -/

/-- Add an entry at the end, unless it is there already. -/
def insert (s : OrderedSet α) (a : α) : OrderedSet α :=
  if h : a ∈ s then s
  else
    { toList := s.toList ++ [a]
      index := (a, s.size) :: s.index
      nodup := by
        have hnew : a ∉ s.toList := h
        simpa [List.nodup_append, s.nodup] using fun _ hb => ne_of_mem_of_not_mem hb hnew
      indexed := by simp [s.indexed, List.zipIdx_append, size] }

/-- A new entry goes to the end, and one that is there already goes nowhere. -/
theorem toList_insert (s : OrderedSet α) (a : α) :
    (s.insert a).toList = if a ∈ s then s.toList else s.toList ++ [a] := by
  unfold insert
  split <;> rfl

/-- To insert a member changes nothing. -/
theorem insert_of_mem {s : OrderedSet α} {a : α} (h : a ∈ s) : s.insert a = s :=
  dif_pos h

/-- To insert a new entry puts it at the end. -/
theorem toList_insert_of_not_mem {s : OrderedSet α} {a : α} (h : ¬ a ∈ s) :
    (s.insert a).toList = s.toList ++ [a] := by
  rw [toList_insert, if_neg h]

/-- After an insertion the members are the old ones and the new one. -/
@[simp] theorem mem_insert {s : OrderedSet α} {a b : α} :
    b ∈ s.insert a ↔ b = a ∨ b ∈ s := by
  by_cases h : a ∈ s
  · rw [insert_of_mem h]
    exact ⟨Or.inr, fun hb => hb.elim (fun e => e ▸ h) id⟩
  · rw [mem_def, toList_insert_of_not_mem h, List.mem_append, List.mem_singleton, mem_def]
    exact Or.comm

/-- The entries of a list, each at its first occurrence. -/
def ofList (l : List α) : OrderedSet α := l.foldl insert empty

/-- Adding an entry leaves those before it where they are. -/
theorem prefix_insert (s : OrderedSet α) (a : α) : s.toList <+: (s.insert a).toList := by
  rw [toList_insert]
  split
  · exact List.prefix_rfl
  · exact List.prefix_append _ _

/-- Insertions only lengthen the list of entries. -/
theorem prefix_foldl_insert (s : OrderedSet α) (l : List α) :
    s.toList <+: (l.foldl insert s).toList := by
  induction l generalizing s with
  | nil => exact List.prefix_rfl
  | cons a l ih => exact (s.prefix_insert a).trans (ih (s.insert a))

/-- What comes behind a list only adds entries at the end. -/
theorem prefix_ofList {l k : List α} (h : l <+: k) : (ofList l).toList <+: (ofList k).toList := by
  obtain ⟨rest, rfl⟩ := h
  rw [ofList, ofList, List.foldl_append]
  exact prefix_foldl_insert _ rest

/-- The set of one entry. -/
def singleton (a : α) : OrderedSet α := empty.insert a

/-- A singleton has its entry. -/
@[simp] theorem toList_singleton (a : α) : (singleton a).toList = [a] := by
  simp [singleton, toList_insert]

/-- A singleton has its entry as its only member. -/
@[simp] theorem mem_singleton {a b : α} : b ∈ singleton a ↔ b = a := by
  simp [singleton]

/-- After several insertions the members are the old ones and the new ones. -/
theorem mem_foldl_insert {l : List α} {s : OrderedSet α} {b : α} :
    b ∈ l.foldl insert s ↔ b ∈ s ∨ b ∈ l := by
  induction l generalizing s with
  | nil => simp
  | cons a l ih =>
    rw [List.foldl_cons, ih, mem_insert, List.mem_cons]
    constructor
    · rintro ((h | h) | h)
      · exact .inr (.inl h)
      · exact .inl h
      · exact .inr (.inr h)
    · rintro (h | h | h)
      · exact .inl (.inr h)
      · exact .inl (.inl h)
      · exact .inr h

/-- A set that is made of a list has the members of the list. -/
@[simp] theorem mem_ofList {l : List α} {b : α} : b ∈ ofList l ↔ b ∈ l := by
  simp [ofList, mem_foldl_insert]

/-- Distinct entries that are all new go to the end as they come. -/
theorem toList_foldl_insert {l : List α} {s : OrderedSet α} (hl : l.Nodup)
    (hs : ∀ a ∈ l, ¬ a ∈ s) : (l.foldl insert s).toList = s.toList ++ l := by
  induction l generalizing s with
  | nil => simp
  | cons a l ih =>
    rw [List.nodup_cons] at hl
    have hrest : ∀ b ∈ l, ¬ b ∈ s.insert a := by
      intro b hb
      rw [mem_insert]
      rintro (rfl | h)
      · exact hl.1 hb
      · exact hs b (List.mem_cons_of_mem a hb) h
    rw [List.foldl_cons, ih hl.2 hrest, toList_insert_of_not_mem (hs a List.mem_cons_self),
      List.append_assoc, List.singleton_append]

/-- A list without repetitions becomes a set with the same entries in the same order. -/
theorem toList_ofList_of_nodup {l : List α} (hl : l.Nodup) : (ofList l).toList = l := by
  rw [ofList, toList_foldl_insert hl fun a _ => not_mem_empty a, toList_empty, List.nil_append]

/-- The entries that pass a test, in the same order. -/
def filter (s : OrderedSet α) (p : α → Bool) : OrderedSet α := ofList (s.toList.filter p)

/-- A filter keeps the order of the entries. -/
@[simp] theorem toList_filter (s : OrderedSet α) (p : α → Bool) :
    (s.filter p).toList = s.toList.filter p :=
  toList_ofList_of_nodup (s.nodup.sublist List.filter_sublist)

/-- A filter keeps the members that it is for. -/
@[simp] theorem mem_filter {s : OrderedSet α} {p : α → Bool} {a : α} :
    a ∈ s.filter p ↔ a ∈ s ∧ p a = true := by
  simp [mem_def]

/-! ## Merging -/

/-- Add the entries of a list one by one, and collect those that were new. -/
def addEach (l : List α) (s new : OrderedSet α) : OrderedSet α × OrderedSet α :=
  match l with
  | [] => (s, new)
  | a :: l => if a ∈ s then addEach l s new else addEach l (s.insert a) (new.insert a)

/-- All entries of {lit}`s`, then what {lit}`t` adds to them. -/
def union (s t : OrderedSet α) : OrderedSet α := (addEach t.toList s empty).1

/-- The entries of {lit}`t` that a merge into {lit}`s` adds, in the order of {lit}`t`. -/
def newIn (t s : OrderedSet α) : OrderedSet α := (addEach t.toList s empty).2

/-- Entries of a list are added to both sets, unless the first one has them. -/
theorem toList_addEach {l : List α} {s new : OrderedSet α} (hl : l.Nodup)
    (hnew : ∀ a ∈ l, ¬ a ∈ new) :
    (addEach l s new).1.toList = s.toList ++ l.filter (fun a => decide (¬ a ∈ s)) ∧
      (addEach l s new).2.toList = new.toList ++ l.filter (fun a => decide (¬ a ∈ s)) := by
  induction l generalizing s new with
  | nil => simp [addEach]
  | cons a l ih =>
    rw [List.nodup_cons] at hl
    by_cases ha : a ∈ s
    · have hrest : ∀ b ∈ l, ¬ b ∈ new := fun b hb => hnew b (List.mem_cons_of_mem a hb)
      simpa [addEach, ha] using ih (s := s) hl.2 hrest
    · have hrest : ∀ b ∈ l, ¬ b ∈ new.insert a := by
        intro b hb
        rw [mem_insert]
        rintro (rfl | h)
        · exact hl.1 hb
        · exact hnew b (List.mem_cons_of_mem a hb) h
      -- no later entry is the one that was added
      have hsame : l.filter (fun b => decide (¬ b ∈ s.insert a)) =
          l.filter (fun b => decide (¬ b ∈ s)) := by
        refine List.filter_congr fun b hb => ?_
        have hne : b ≠ a := fun h => hl.1 (h ▸ hb)
        simp [hne]
      have hadded := ih (s := s.insert a) hl.2 hrest
      rw [hsame, toList_insert_of_not_mem ha,
        toList_insert_of_not_mem (hnew a List.mem_cons_self)] at hadded
      simpa [addEach, ha] using hadded

/-- The new entries of a set are listed in the order of that set. -/
theorem toList_newIn (s t : OrderedSet α) :
    (t.newIn s).toList = t.toList.filter fun a => decide (¬ a ∈ s) := by
  have h := (toList_addEach (s := s) t.nodup fun a _ => not_mem_empty a).2
  rwa [toList_empty, List.nil_append] at h

/-- A union lists the entries of the first set, and then those of the second that are new. -/
@[simp] theorem toList_union (s t : OrderedSet α) :
    (s.union t).toList = s.toList ++ (t.newIn s).toList := by
  rw [toList_newIn]
  exact (toList_addEach t.nodup fun a _ => not_mem_empty a).1

/-- The new entries are those that the other set lacks. -/
@[simp] theorem mem_newIn {s t : OrderedSet α} {a : α} :
    a ∈ t.newIn s ↔ a ∈ t ∧ ¬ a ∈ s := by
  simp [mem_def, toList_newIn]

/-- A union has the members of both sets. -/
@[simp] theorem mem_union {s t : OrderedSet α} {a : α} :
    a ∈ s.union t ↔ a ∈ s ∨ a ∈ t := by
  rw [mem_def, toList_union, List.mem_append, ← mem_def, ← mem_def, mem_newIn]
  by_cases h : a ∈ s <;> simp [h]

/-- Two collections hold the same entries, in whatever order. -/
def sameEntries (s t : OrderedSet α) : Bool :=
  s.size == t.size && s.toList.all fun a => decide (a ∈ t)

/-! ## Positions -/

omit [DecidableEq α] in
/-- Reading positions gives the entries that are there. -/
theorem filterMap_get? {s : OrderedSet α} {ps : List (α × Nat)}
    (h : ∀ e ∈ ps, s.get? e.2 = some e.1) :
    (ps.map Prod.snd).filterMap s.get? = ps.map Prod.fst := by
  induction ps with
  | nil => rfl
  | cons e ps ih =>
    obtain ⟨he, hrest⟩ := List.forall_mem_cons.1 h
    rw [List.map_cons, List.filterMap_cons_some he, ih hrest, List.map_cons]

/-- Entries keep their position when others are added. -/
theorem get?_insert_of_get? {s : OrderedSet α} {a b : α} {i : Nat}
    (h : s.get? i = some b) : (s.insert a).get? i = some b := by
  by_cases ha : a ∈ s
  · rw [insert_of_mem ha, h]
  · unfold get? at h ⊢
    obtain ⟨hi, _⟩ := List.getElem?_eq_some_iff.1 h
    rw [toList_insert_of_not_mem ha, List.getElem?_append_left hi, h]

end OrderedSet

end PointsTo
