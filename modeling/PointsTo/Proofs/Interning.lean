import PointsTo.Proofs.Failures
import PointsTo.Proofs.FirstOccurrences
import PointsTo.Proofs.Tables

/-!
# Interning

Contexts and abstract objects are handled by the ids of their tables, so that comparing ids has to
be as good as comparing values.  It is: over any sequence of requests, of whatever kinds, a table
gives equal ids to equal requests and to no others, and an id denotes what was asked for from then
on.  Ids are given out without gaps from zero until none are left, and then a new value is refused
and nothing changes.

Main results:

- {lit}`Interned.request`, {lit}`Interned.after`: requests one after another, some of them refused.
- Theorem {lit}`Interned.request_cases`: what a request can do.
- Theorem {lit}`Interned.toList_after`: the values of a table after any requests.
- {lit}`Interned.Numbers`: requests are numbered for good, one number for equal requests.
- Theorem {lit}`Heap.Request.obj_injective`: different requests ask for different objects.
- Theorem {lit}`SolverM.internObj_eq_request`: how a run asks its heap.
- Theorem {lit}`interning_stable`: the context table and the heap of a run number their requests.
-/

namespace PointsTo

namespace Interned

variable {e : Entity} {α ρ : Type} [DecidableEq α] {t : Interned e α} {a : α} {i : Id e}

/-! ## Requests -/

/-- Ask for a value: the answer, and the table that is left. -/
def request (t : Interned e α) (a : α) : Except Error (Id e) × Interned e α :=
  match t.intern a with
  | .ok (i, u) => (.ok i, u)
  | .error err => (.error err, t)

/-- The table after requests one after another, each for its value. -/
def after (t : Interned e α) (value : ρ → α) (rs : List ρ) : Interned e α :=
  rs.foldl (fun t r => (t.request (value r)).2) t

/-- The answer to a request that comes after others. -/
def answer (t : Interned e α) (value : ρ → α) (rs : List ρ) (r : ρ) : Except Error (Id e) :=
  ((t.after value rs).request (value r)).1

/-- Requests may be made in two parts. -/
theorem after_append (t : Interned e α) (value : ρ → α) (rs ss : List ρ) :
    t.after value (rs ++ ss) = (t.after value rs).after value ss := List.foldl_append

/-- A value is known, or new and given the next id, or new and refused by a full table. -/
theorem request_cases (t : Interned e α) (a : α) :
    (∃ i, t.get? i = some a ∧ t.request a = (.ok i, t)) ∨
      (¬ a ∈ t.values ∧ t.size < idBound ∧
        t.request a = (.ok ⟨t.size⟩, ⟨t.values.insert a⟩)) ∨
      (¬ a ∈ t.values ∧ ¬ t.size < idBound ∧
        t.request a = (.error (.capacity e.plural), t)) := by
  by_cases ha : a ∈ t.values
  · obtain ⟨k, hk⟩ := Option.isSome_iff_exists.1 (OrderedSet.isSome_index?.2 ha)
    exact .inl ⟨⟨k⟩, OrderedSet.get?_index? hk, by rw [request, intern_of_index? hk]⟩
  · by_cases hs : t.size < idBound
    · exact .inr (.inl ⟨ha, hs, by rw [request, intern_fresh ha hs]⟩)
    · exact .inr (.inr ⟨ha, hs, by rw [request, intern_full ha hs]⟩)

/-- An id that is answered denotes the value that was asked for. -/
theorem get?_of_request (h : (t.request a).1 = .ok i) : (t.request a).2.get? i = some a := by
  unfold request at h ⊢
  cases hi : t.intern a with
  | error err =>
      rw [hi] at h
      cases h
  | ok r =>
      rw [hi] at h
      cases h
      exact get?_of_intern hi

/-- A request makes a table grow. -/
theorem grows_request (t : Interned e α) (a : α) : t.Grows (t.request a).2 := by
  unfold request
  cases hi : t.intern a with
  | error err => exact .refl t
  | ok r => exact grows_of_intern hi

/-- So do any requests. -/
theorem grows_after (t : Interned e α) (value : ρ → α) (rs : List ρ) :
    t.Grows (t.after value rs) := by
  induction rs generalizing t with
  | nil => exact .refl t
  | cons r rs ih => exact (t.grows_request (value r)).trans (ih _)

/-- An id denotes the value that it was answered for, also after further requests. -/
theorem get?_after_of_answer {value : ρ → α} {rs : List ρ} {r : ρ}
    (h : t.answer value rs r = .ok i) (more : List ρ) :
    (t.after value (rs ++ r :: more)).get? i = some (value r) := by
  rw [after_append]
  exact grows_after _ value more i _ (get?_of_request h)

/-! ## The values of a table -/

/-- A request adds a new value at the end, unless the table is full. -/
theorem toList_request (t : Interned e α) (a : α) :
    (t.request a).2.toList =
      if a ∈ t.toList ∨ ¬ t.size < idBound then t.toList else t.toList ++ [a] := by
  rcases t.request_cases a with ⟨i, hi, hr⟩ | ⟨ha, hs, hr⟩ | ⟨ha, hs, hr⟩
  · have hmem : a ∈ t.toList := List.mem_of_getElem? hi
    rw [hr, if_pos (.inl hmem)]
  · have hnew : ¬ (a ∈ t.toList ∨ ¬ t.size < idBound) := not_or.2 ⟨ha, not_not.2 hs⟩
    rw [hr, if_neg hnew]
    exact OrderedSet.toList_insert_of_not_mem ha
  · rw [hr, if_pos (.inr hs)]

omit [DecidableEq α] in
/-- The size of a table is the number of its values. -/
theorem size_eq_length (t : Interned e α) : t.size = t.toList.length := rfl

/-- One more entry behind a list matters to its first occurrences up to a number if they are not
that many yet and the entry is not among them. -/
theorem take_eraseDups_concat (l : List α) (a : α) (n : Nat) :
    (l ++ [a]).eraseDups.take n =
      if a ∈ l.eraseDups.take n ∨ ¬ (l.eraseDups.take n).length < n then l.eraseDups.take n
      else l.eraseDups.take n ++ [a] := by
  rw [eraseDups_concat]
  rcases Nat.lt_or_ge l.eraseDups.length n with hroom | hfull
  · have hall : l.eraseDups.take n = l.eraseDups := List.take_of_length_le hroom.le
    by_cases ha : a ∈ l
    · simp [hall, ha]
    · have hmore : (l.eraseDups ++ [a]).take n = l.eraseDups ++ [a] :=
        List.take_of_length_le (by simpa using Nat.succ_le_of_lt hroom)
      simp [hall, ha, hroom, hmore]
  · have hlength : (l.eraseDups.take n).length = n := List.length_take_of_le hfull
    by_cases ha : a ∈ l
    · simp [hlength, ha]
    · simp [hlength, ha, List.take_append_of_le_length hfull]

/-- The values are those that were asked for, in the order of the first requests, as far as there
are ids for them. -/
theorem toList_after (hsize : t.size ≤ idBound) (value : ρ → α) (rs : List ρ) :
    (t.after value rs).toList = (t.toList ++ rs.map value).eraseDups.take idBound := by
  refine history_induction (motive := fun (u : Interned e α) rs =>
    u.toList = (t.toList ++ rs.map value).eraseDups.take idBound) ?_ ?_ rs
  · have hdistinct : t.toList.eraseDups = t.toList := by
      rw [← OrderedSet.toList_ofList]
      exact OrderedSet.toList_ofList_of_nodup t.values.nodup
    rw [List.map_nil, List.append_nil, hdistinct]
    exact (List.take_of_length_le hsize).symm
  · intro u rs ih r
    rw [toList_request, size_eq_length, ih, List.map_append, List.map_singleton,
      ← List.append_assoc, take_eraseDups_concat]

/-- A table does not grow beyond the bound. -/
theorem size_after_le (hsize : t.size ≤ idBound) (value : ρ → α) (rs : List ρ) :
    (t.after value rs).size ≤ idBound := by
  rw [size_eq_length, toList_after hsize]
  exact List.length_take_le _ _

/-! ## Numbering -/

/-- The table numbers what it is asked for, beginning with what it has: equal requests get one
number, other requests get others, and this stays so. -/
structure Numbers (t : Interned e α) (value : ρ → α) : Prop where
  /-- The ids are given out in the order of the first requests, while there are any. -/
  values : ∀ rs, (t.after value rs).toList = (t.toList ++ rs.map value).eraseDups.take idBound
  /-- The ids in use are those from zero to the number of values. -/
  dense : ∀ rs i, (t.after value rs).Has i ↔ i.index < (t.after value rs).size
  /-- Two requests are answered by one id if they are equal, and only then. -/
  same : ∀ rs r more s i j, t.answer value rs r = .ok i →
    t.answer value (rs ++ r :: more) s = .ok j → (i = j ↔ r = s)
  /-- An id denotes what was asked for, at once and after any further requests. -/
  found : ∀ rs r more i, t.answer value rs r = .ok i →
    (t.after value (rs ++ r :: more)).get? i = some (value r)
  /-- The index gives the positions of the list, and no others. -/
  inverse : ∀ rs a k, (t.after value rs).values.index? a = some k ↔
    (t.after value rs).toList[k]? = some a
  /-- A request is refused if its value is new and all ids are in use, and nothing changes. -/
  refused : ∀ rs r err, t.answer value rs r = .error err →
    err = .capacity e.plural ∧ value r ∉ (t.after value rs).toList ∧
      (t.after value rs).size = idBound ∧ t.after value (rs ++ [r]) = t.after value rs

/-- Requests are told apart by their ids if they are by their values. -/
theorem numbers_of_injective (hsize : t.size ≤ idBound) {value : ρ → α}
    (hvalue : Function.Injective value) : t.Numbers value where
  values rs := toList_after hsize value rs
  dense rs i := has_iff_index_lt
  same := by
    intro rs r more s i j hi hj
    have hsecond := get?_of_request hj
    have hfirst : ((t.after value (rs ++ r :: more)).request (value s)).2.get? i =
        some (value r) := grows_request _ _ i _ (get?_after_of_answer hi more)
    constructor
    · rintro rfl
      exact hvalue (Option.some.inj (hfirst.symm.trans hsecond))
    · rintro rfl
      exact get?_injective hfirst hsecond
  found rs r more i hi := get?_after_of_answer hi more
  inverse rs a k := OrderedSet.index?_eq_some_iff
  refused := by
    intro rs r err herr
    have hlast : t.after value (rs ++ [r]) = ((t.after value rs).request (value r)).2 :=
      t.after_append value rs [r]
    rw [answer] at herr
    rcases (t.after value rs).request_cases (value r) with
      ⟨i, _, hr⟩ | ⟨_, _, hr⟩ | ⟨hnew, hfull, hr⟩
    · rw [hr] at herr
      cases herr
    · rw [hr] at herr
      cases herr
    · rw [hr] at herr hlast
      cases herr
      exact ⟨rfl, hnew, Nat.le_antisymm (size_after_le hsize value rs) (Nat.le_of_not_lt hfull),
        hlast⟩

end Interned

/-! ## Contexts and objects -/

/-- What a heap is asked for: the object of an allocating statement, of a string constant, of a
class literal, or a stand-in. -/
inductive Heap.Request where
  | alloc (method : MethodId) (stmt : Nat) (type : JavaType)
  | stringConstant (value : String)
  | classConstant (type : JavaType)
  | mock (m : MockObj)

namespace Heap.Request

/-- The object that a request asks for. -/
def obj : Request → Obj
  | alloc method stmt type => .alloc method stmt type
  | stringConstant value => .stringConstant value
  | classConstant type => .classConstant type
  | mock m => m.obj

/-- Different requests ask for different objects, also where type and container are the same. -/
theorem obj_injective : Function.Injective obj := by
  intro r s h
  -- the kind of an object tells the kind of the request, and has what the object type leaves out
  have hkind := congrArg Obj.kind h
  have htype := congrArg Obj.type h
  have hcontainer := congrArg Obj.container h
  cases r with
  | alloc method stmt type =>
      cases s <;> cases hkind
      cases htype
      rfl
  | stringConstant value =>
      cases s <;> cases hkind
      rfl
  | classConstant type =>
      cases s <;> cases hkind
      rfl
  | mock m =>
      cases s with
      | mock n =>
          obtain ⟨kind, site, type, container⟩ := m
          cases hkind; cases htype; cases hcontainer
          rfl
      | _ => cases hkind

end Heap.Request

/-- A run asks its heap in this way, and is left with the heap that the request leaves. -/
theorem SolverM.internObj_eq_request (o : Obj) (s : Solver) :
    SolverM.internObj o s =
      match s.heap.request o with
      | (.ok i, heap) => .ok i { s with heap }
      | (.error err, heap) => .error err { s with heap } := by
  rw [SolverM.internObj_apply, Interned.request]
  cases s.heap.intern o <;> rfl

/-- Whatever the context table and the heap of a run are asked for, equal ids stand for equal
requests for the rest of the run, and the empty context keeps number zero.  The run itself asks its
heap by such requests. -/
theorem interning_stable :
    ContextTable.new.Numbers (id : Context → Context) ∧
      (∀ cs : List Context, (ContextTable.new.after id cs).get? emptyContext = some .empty) ∧
      (Interned.empty : Heap).Numbers Heap.Request.obj ∧
      ∀ o s, SolverM.internObj o s =
        match s.heap.request o with
        | (.ok i, heap) => .ok i { s with heap }
        | (.error err, heap) => .error err { s with heap } := by
  have hcontexts : ContextTable.new.size ≤ idBound := by decide
  have hheap : (Interned.empty : Heap).size ≤ idBound := Nat.zero_le _
  refine ⟨Interned.numbers_of_injective hcontexts Function.injective_id, ?_,
    Interned.numbers_of_injective hheap Heap.Request.obj_injective, SolverM.internObj_eq_request⟩
  intro cs
  exact ContextTable.new.grows_after id cs emptyContext .empty rfl

end PointsTo
