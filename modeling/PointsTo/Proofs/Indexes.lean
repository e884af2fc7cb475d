import PointsTo.Proofs.Assembling
import PointsTo.Proofs.Scanning

/-!
# The indexes of a built program

A program that was built has every entry at the position that its id says, mentions
only variables that exist, and knows for each of them the statements that have it as
their base.

Main results:

- {lit}`Program.Numbered`, and theorem {lit}`Builder.numbered_ofList`: ids are positions.
- {lit}`Program.Built`, and theorem {lit}`Program.built_of_build`: what building achieves.
- {lit}`Program.HasStmt`: the statements of a program; theorems {lit}`Built.mem_loads` and
  its like: the indexes list exactly these.
-/

namespace PointsTo

/-! ## Numbered tables -/

/-- Every entry of a table has its position as its id. -/
def NumberedBy {e : Entity} {α : Type} (id : α → Id e) (xs : Array α) : Prop :=
  ∀ i a, xs[i]? = some a → id a = ⟨i⟩

namespace NumberedBy

variable {e : Entity} {α : Type} {id : α → Id e} {xs : Array α}

/-- An entry with the next number may be added at the end. -/
theorem push (h : NumberedBy id xs) {a : α} (ha : id a = ⟨xs.size⟩) :
    NumberedBy id (xs.push a) := by
  intro i b hb
  rw [Array.getElem?_push] at hb
  split at hb
  · rename_i hi
    cases hb
    rw [ha, hi]
  · exact h i b hb

/-- Entries may change as long as they keep their ids. -/
theorem modify (h : NumberedBy id xs) (j : Nat) {f : α → α} (hf : ∀ a, id (f a) = id a) :
    NumberedBy id (xs.modify j f) := by
  intro i b hb
  rw [Array.getElem?_modify] at hb
  split at hb
  · obtain ⟨a, ha, rfl⟩ := Option.map_eq_some_iff.1 hb
    rw [hf, h i a ha]
  · exact h i b hb

/-- All of them may. -/
theorem map (h : NumberedBy id xs) {f : α → α} (hf : ∀ a, id (f a) = id a) :
    NumberedBy id (xs.map f) := by
  intro i b hb
  rw [Array.getElem?_map] at hb
  obtain ⟨a, ha, rfl⟩ := Option.map_eq_some_iff.1 hb
  rw [hf, h i a ha]

end NumberedBy

/-- The ids of variables, methods and call sites are their positions. -/
structure Program.Numbered (p : Program) : Prop where
  vars : NumberedBy Var.id p.vars
  methods : NumberedBy Method.id p.methods
  invokes : NumberedBy Invoke.id p.invokes

namespace Builder

/-- Every step keeps ids where they belong. -/
theorem numbered_of_edit {p q : Program} (h : Edit p q) (hp : p.Numbered) : q.Numbered := by
  cases h with
  | cls => exact ⟨hp.vars, hp.methods, hp.invokes⟩
  | field =>
      exact ⟨by simpa using hp.vars, by simpa using hp.methods, by simpa using hp.invokes⟩
  | var hid => exact ⟨hp.vars.push hid, hp.methods, hp.invokes⟩
  | method hid =>
      exact ⟨by simpa using hp.vars, by simpa using hp.methods.push hid, by simpa using hp.invokes⟩
  | stmt m s => exact ⟨hp.vars, hp.methods.modify m.index fun _ => rfl, hp.invokes⟩
  | invoke hid => exact ⟨hp.vars, hp.methods, hp.invokes.push hid⟩
  | line site line => exact ⟨hp.vars, hp.methods, hp.invokes.modify site.index fun _ => rfl⟩

/-- However a program is assembled, ids are positions. -/
theorem numbered_ofList (ds : List Declaration) : (ofList ds).program.Numbered := by
  refine (edits_ofList ds).keeps numbered_of_edit ?_
  -- the new program has none of these entries
  exact ⟨fun _ _ h => (nomatch h), fun _ _ h => (nomatch h), fun _ _ h => (nomatch h)⟩

end Builder

/-! ## Built programs -/

namespace Program

variable {p : Program}

/-- The statement is in the body of some method. -/
def HasStmt (p : Program) (stmt : Stmt) : Prop := ∃ m, stmt ∈ (p.method m).stmts

/-- The list of all statements has exactly the statements of the program. -/
theorem mem_allStmts {stmt : Stmt} : stmt ∈ p.allStmts ↔ p.HasStmt stmt := by
  unfold allStmts HasStmt method
  rw [List.mem_flatMap]
  constructor
  · rintro ⟨m, hm, hstmt⟩
    obtain ⟨i, hi, rfl⟩ := List.getElem_of_mem hm
    rw [Array.length_toList] at hi
    refine ⟨⟨i⟩, ?_⟩
    simpa [hi] using hstmt
  · rintro ⟨⟨i⟩, hstmt⟩
    by_cases hi : i < p.methods.size
    · refine ⟨p.methods[i], by simp, ?_⟩
      simpa [hi] using hstmt
    · rw [Array.getD_eq_getD_getElem?, Array.getElem?_eq_none (Nat.le_of_not_lt hi)] at hstmt
      exact absurd hstmt (List.not_mem_nil)

/-- What holds of all entries, and of what stands for a missing one, holds of all methods. -/
theorem forall_method {P : Method → Prop} (h : ∀ m ∈ p.methods, P m) (hdefault : P default)
    (m : MethodId) : P (p.method m) := by
  unfold method
  rw [Array.getD_eq_getD_getElem?]
  cases hget : p.methods[m.index]? with
  | none => exact hdefault
  | some entry => exact h entry (Array.mem_of_getElem? hget)

/-- What holds of all call sites, and of the default, holds of whatever is looked up. -/
theorem forall_invoke {P : Invoke → Prop} (h : ∀ call ∈ p.invokes, P call) (hdefault : P default)
    (i : InvokeId) : P (p.invoke i) := by
  unfold invoke
  rw [Array.getD_eq_getD_getElem?]
  cases hget : p.invokes[i.index]? with
  | none => exact hdefault
  | some call => exact h call (Array.mem_of_getElem? hget)

/-- An id of a call site is that of its entry, unless the table has no such entry. -/
theorem Numbered.invoke_cases (h : p.Numbered) (i : InvokeId) :
    (p.invoke i).id = i ∨ p.invoke i = default := by
  unfold invoke
  rw [Array.getD_eq_getD_getElem?]
  cases hget : p.invokes[i.index]? with
  | none => exact .inr rfl
  | some call => exact .inl (h.invokes _ _ hget)

/-- A call that mentions a variable has an entry. -/
theorem Numbered.invoke_id (h : p.Numbered) {i : InvokeId} {v : VarId}
    (hv : v ∈ p.mentioned (.invoke i)) : (p.invoke i).id = i := by
  refine (h.invoke_cases i).resolve_right fun hdefault => ?_
  simp only [mentioned, hdefault] at hv
  exact absurd hv List.not_mem_nil

/-- A method that is found by its signature has an entry. -/
theorem Numbered.index_lt_of_methodBySignature? (h : p.Numbered) {signature : String}
    {m : MethodId} (hm : p.methodBySignature? signature = some m) : m.index < p.methods.size := by
  obtain ⟨x, hx, rfl, _⟩ := methodBySignature?_signature hm
  obtain ⟨i, hi, rfl⟩ := List.getElem_of_mem hx
  rw [Array.length_toList] at hi
  have hid : p.methods[i].id = ⟨i⟩ := h.methods i _ (Array.getElem?_eq_getElem hi)
  simpa [hid] using hi

/-- The calls of a method are at the call sites that its statements name. -/
theorem mem_invokesIn {m : MethodId} {call : Invoke} :
    call ∈ p.invokesIn m ↔ ∃ i, .invoke i ∈ (p.method m).stmts ∧ p.invoke i = call := by
  unfold invokesIn
  rw [List.mem_filterMap]
  constructor
  · rintro ⟨stmt, hstmt, hcall⟩
    cases stmt <;> simp at hcall
    exact ⟨_, hstmt, hcall⟩
  · rintro ⟨i, hi, rfl⟩
    exact ⟨.invoke i, hi, rfl⟩

/-- What building achieves. -/
structure Built (p : Program) : Prop where
  numbered : p.Numbered
  mentioned : ∀ stmt, p.HasStmt stmt → ∀ v ∈ p.mentioned stmt, v.index < p.vars.size
  uses : ∀ v : VarId, v.index < p.vars.size → (p.var v).uses = p.usesOf v
  returned : ∀ m, (p.method m).returnVars = returned (p.method m).stmts

/-- Indexing leaves the bodies of methods alone. -/
theorem stmts_indexed (p : Program) (m : MethodId) :
    (p.indexed.method m).stmts = (p.method m).stmts := by
  simp only [method, indexed, Array.getD_eq_getD_getElem?, Array.getElem?_map]
  cases p.methods[m.index]? <;> rfl

/-- It leaves the statements alone. -/
theorem hasStmt_indexed {stmt : Stmt} : p.indexed.HasStmt stmt ↔ p.HasStmt stmt := by
  simp only [HasStmt, stmts_indexed]

/-- It leaves their order alone, too. -/
theorem allStmts_indexed (p : Program) : p.indexed.allStmts = p.allStmts := by
  simp only [allStmts, indexed, Array.toList_map, List.flatMap_map]

/-- Hence it leaves the uses of a variable alone. -/
theorem usesOf_indexed (p : Program) (v : VarId) : p.indexed.usesOf v = p.usesOf v := by
  rw [usesOf, allStmts_indexed]
  rfl

/-- What building does, if ids are positions. -/
theorem build_eq {b : Builder} (hb : b.program.Numbered) :
    b.build = match b.overflow with
      | some e => .error e
      | none =>
        match b.program.dangling? with
        | some v => .error (.danglingVariable v)
        | none => .ok b.program.indexed := by
  unfold Builder.build
  cases b.overflow with
  | some e => rfl
  | none => exact scan_eq b.program hb.vars

/-- Building succeeds if no table is full and every variable that is mentioned exists. -/
theorem build_of_checks {ds : List Declaration} (hfull : (Builder.ofList ds).overflow = none)
    (hdangling : (Builder.ofList ds).program.dangling? = none) :
    (Builder.ofList ds).build = .ok (Builder.ofList ds).program.indexed := by
  simp only [build_eq (Builder.numbered_ofList ds), hfull, hdangling]

/-- And only then. -/
theorem indexed_of_build {b : Builder} (hb : b.program.Numbered) (h : b.build = .ok p) :
    b.program.dangling? = none ∧ p = b.program.indexed := by
  rw [build_eq hb] at h
  split at h
  · cases h
  · split at h
    · cases h
    · rename_i hdangling
      cases h
      exact ⟨hdangling, rfl⟩

/-- A program that was built from numbered tables is as it should be. -/
theorem built_of_build {b : Builder} (hb : b.program.Numbered) (h : b.build = .ok p) :
    p.Built := by
  obtain ⟨hdangling, rfl⟩ := indexed_of_build hb h
  refine ⟨⟨hb.vars.map fun _ => rfl, hb.methods.map fun _ => rfl, hb.invokes⟩, ?_, ?_, ?_⟩
  · intro stmt hstmt v hv
    have hmem : v ∈ b.program.allStmts.flatMap b.program.mentioned := by
      refine List.mem_flatMap.2 ⟨stmt, mem_allStmts.2 (hasStmt_indexed.1 hstmt), ?_⟩
      cases stmt <;> exact hv
    have hlt := List.find?_eq_none.1 hdangling v hmem
    simp only [decide_eq_true_eq, Nat.not_le] at hlt
    simpa [indexed] using hlt
  · intro v hv
    rw [usesOf_indexed]
    simp only [indexed, Array.size_map] at hv
    have hid := hb.vars v.index _ (Array.getElem?_eq_getElem hv)
    simp [var, indexed, hv, hid]
  · intro m
    rw [stmts_indexed]
    simp only [method, indexed, Array.getD_eq_getD_getElem?, Array.getElem?_map]
    cases b.program.methods[m.index]? <;> rfl

namespace Built

variable {v : VarId}

/-- The uses of a variable that was not created are empty. -/
theorem uses_of_not_lt (p : Program) (hv : ¬ v.index < p.vars.size) : (p.var v).uses = {} := by
  unfold var
  rw [Array.getD_eq_getD_getElem?, Array.getElem?_eq_none (Nat.le_of_not_lt hv)]
  rfl

/-- Reading an index gives the statements it was made of, for every variable that
these statements mention. -/
private theorem mem_index {α : Type} (field : VarUses → List α) (h : p.Built) {a : α}
    {stmt : Stmt} (hempty : field {} = []) (hstmt : a ∈ field (p.usesOf v) ↔ p.HasStmt stmt)
    (hmention : v ∈ p.mentioned stmt) : a ∈ field (p.var v).uses ↔ p.HasStmt stmt := by
  by_cases hv : v.index < p.vars.size
  · rw [h.uses v hv]
    exact hstmt
  · rw [uses_of_not_lt p hv, hempty]
    simp only [List.not_mem_nil, false_iff]
    exact fun hs => hv (h.mentioned stmt hs v hmention)

/-- The loads of a variable are the statements that load a field of it. -/
theorem mem_loads (h : p.Built) {lhs : VarId} {f : FieldId} :
    (lhs, f) ∈ (p.var v).uses.loads ↔ p.HasStmt (.loadField lhs v f) := by
  refine mem_index VarUses.loads h rfl ?_ (by simp [Program.mentioned])
  rw [← mem_allStmts]
  simp only [usesOf, usesIn, List.mem_filterMap]
  constructor
  · rintro ⟨stmt, hstmt, ha⟩
    cases stmt <;> simp at ha
    obtain ⟨rfl, rfl, rfl⟩ := ha
    exact hstmt
  · exact fun hstmt => ⟨_, hstmt, by simp⟩

/-- The stores of a variable are the statements that store to a field of it. -/
theorem mem_stores (h : p.Built) {f : FieldId} {rhs : VarId} :
    (f, rhs) ∈ (p.var v).uses.stores ↔ p.HasStmt (.storeField v f rhs) := by
  refine mem_index VarUses.stores h rfl ?_ (by simp [Program.mentioned])
  rw [← mem_allStmts]
  simp only [usesOf, usesIn, List.mem_filterMap]
  constructor
  · rintro ⟨stmt, hstmt, ha⟩
    cases stmt <;> simp at ha
    obtain ⟨rfl, rfl, rfl⟩ := ha
    exact hstmt
  · exact fun hstmt => ⟨_, hstmt, by simp⟩

/-- The array loads of a variable are the statements that load an element of it. -/
theorem mem_arrayLoads (h : p.Built) {lhs : VarId} :
    lhs ∈ (p.var v).uses.arrayLoads ↔ p.HasStmt (.loadArray lhs v) := by
  refine mem_index VarUses.arrayLoads h rfl ?_ (by simp [Program.mentioned])
  rw [← mem_allStmts]
  simp only [usesOf, usesIn, List.mem_filterMap]
  constructor
  · rintro ⟨stmt, hstmt, ha⟩
    cases stmt <;> simp at ha
    obtain ⟨rfl, rfl⟩ := ha
    exact hstmt
  · exact fun hstmt => ⟨_, hstmt, by simp⟩

/-- The array stores of a variable are the statements that store an element of it. -/
theorem mem_arrayStores (h : p.Built) {rhs : VarId} :
    rhs ∈ (p.var v).uses.arrayStores ↔ p.HasStmt (.storeArray v rhs) := by
  refine mem_index VarUses.arrayStores h rfl ?_ (by simp [Program.mentioned])
  rw [← mem_allStmts]
  simp only [usesOf, usesIn, List.mem_filterMap]
  constructor
  · rintro ⟨stmt, hstmt, ha⟩
    cases stmt <;> simp at ha
    obtain ⟨rfl, rfl⟩ := ha
    exact hstmt
  · exact fun hstmt => ⟨_, hstmt, by simp⟩

/-- The call sites of a variable are the instance calls with it as receiver. -/
theorem mem_invokes (h : p.Built) {site : InvokeId} :
    site ∈ (p.var v).uses.invokes ↔ p.HasStmt (.invoke site) ∧
      (p.invoke site).base = some v ∧ (p.invoke site).kind.isInstance = true := by
  have hindex : site ∈ (p.usesOf v).invokes ↔ p.HasStmt (.invoke site) ∧
      (p.invoke site).base = some v ∧ (p.invoke site).kind.isInstance = true := by
    rw [← mem_allStmts]
    simp only [usesOf, usesIn, List.mem_filterMap]
    constructor
    · rintro ⟨stmt, hstmt, ha⟩
      cases stmt <;> simp at ha
      obtain ⟨hcond, rfl⟩ := ha
      exact ⟨hstmt, hcond⟩
    · rintro ⟨hstmt, hcond⟩
      exact ⟨_, hstmt, by simp [hcond]⟩
  by_cases hv : v.index < p.vars.size
  · rw [h.uses v hv, hindex]
  · rw [uses_of_not_lt p hv]
    simp only [List.not_mem_nil, false_iff]
    rintro ⟨hstmt, hbase, _⟩
    refine hv (h.mentioned _ hstmt v ?_)
    simp [Program.mentioned, hbase]

end Built

end Program

end PointsTo
