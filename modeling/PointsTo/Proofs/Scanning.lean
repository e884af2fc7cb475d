import PointsTo.Program.Builder

/-!
# The pass over the statements

A program is built in one pass, which checks every statement and extends the indexes by it.
What comes of it can be said statement by statement, whatever the pass did in between: the
first variable that fails its check is the first such variable at all, and without one the
indexes are those of all statements.

Main results:

- {lit}`Scan.after`: what is noted after a list of statements.
- Theorem {lit}`Program.scanStmt_eq`: one statement is checked, and then noted.
- Theorem {lit}`Program.scanMethods_eq`: so are all statements of a list of methods.
- Theorem {lit}`Program.scan_eq`: the pass finds what {lit}`Program.dangling?` and
  {lit}`Program.indexed` say.
-/

namespace PointsTo

/-! ## Uses -/

namespace VarUses

instance : Append VarUses where
  append u w :=
    { loads := u.loads ++ w.loads
      stores := u.stores ++ w.stores
      arrayLoads := u.arrayLoads ++ w.arrayLoads
      arrayStores := u.arrayStores ++ w.arrayStores
      invokes := u.invokes ++ w.invokes }

/-- Uses are put together kind by kind. -/
theorem append_def (u w : VarUses) : u ++ w =
    ⟨u.loads ++ w.loads, u.stores ++ w.stores, u.arrayLoads ++ w.arrayLoads,
      u.arrayStores ++ w.arrayStores, u.invokes ++ w.invokes⟩ := rfl

/-- No uses change nothing. -/
@[simp] theorem append_empty (u : VarUses) : u ++ ({} : VarUses) = u := by
  simp only [append_def, List.append_nil]

/-- No uses change nothing in front either. -/
@[simp] theorem empty_append (u : VarUses) : ({} : VarUses) ++ u = u := rfl

/-- Uses may be put together in either way. -/
theorem append_assoc (u w x : VarUses) : u ++ w ++ x = u ++ (w ++ x) := by
  simp only [append_def, List.append_assoc]

end VarUses

namespace Program

variable {p : Program}

/-- No statement uses nothing. -/
@[simp] theorem usesIn_nil (v : VarId) : p.usesIn [] v = {} := rfl

/-- Statements use what their parts use. -/
theorem usesIn_append (as bs : List Stmt) (v : VarId) :
    p.usesIn (as ++ bs) v = p.usesIn as v ++ p.usesIn bs v := by
  simp only [usesIn, List.filterMap_append, VarUses.append_def]

end Program

/-! ## What is noted -/

/-- The variable that a statement returns. -/
def Stmt.value? : Stmt → Option VarId
  | .ret value => value
  | _ => none

/-- The values that a body returns are listed when they are returned first. -/
theorem Program.returned_eq (stmts : List Stmt) :
    returned stmts = (OrderedSet.ofList (stmts.filterMap Stmt.value?)).toList := rfl

namespace Scan

variable {p : Program} {s : Scan}

/-- Scans that note the same are the same. -/
@[ext] theorem ext_getElem? {s t : Scan} (huses : ∀ i : Nat, s.uses[i]? = t.uses[i]?)
    (hreturned : s.returned = t.returned) : s = t := by
  obtain ⟨uses, returned⟩ := s
  obtain ⟨uses', returned'⟩ := t
  cases hreturned
  cases Array.ext_getElem? huses
  rfl

/-- What is noted after a list of statements. -/
def after (p : Program) (s : Scan) (stmts : List Stmt) : Scan where
  uses := s.uses.mapIdx fun i u => u ++ p.usesIn stmts ⟨i⟩
  returned := (stmts.filterMap Stmt.value?).foldl .insert s.returned

/-- After some statements, a variable has their uses besides the earlier ones. -/
theorem getElem?_after (stmts : List Stmt) (i : Nat) :
    (s.after p stmts).uses[i]? = s.uses[i]?.map fun u => u ++ p.usesIn stmts ⟨i⟩ :=
  Array.getElem?_mapIdx

/-- No statement leaves a scan as it is. -/
@[simp] theorem after_nil : s.after p [] = s := by
  ext i
  · rw [getElem?_after]
    simp
  · rfl

/-- Statements may be scanned in two parts. -/
theorem after_append (as bs : List Stmt) :
    s.after p (as ++ bs) = (s.after p as).after p bs := by
  ext i
  · simp only [getElem?_after, Program.usesIn_append, Option.map_map, Function.comp_def,
      VarUses.append_assoc]
  · simp only [after, List.filterMap_append, List.foldl_append]

/-- A statement that uses one variable and returns none is noted as a use of it. -/
theorem after_eq_note (base : VarId) (use : VarUses) {stmt : Stmt}
    (huse : ∀ v, p.usesIn [stmt] v = if base = v then use else {}) (hvalue : stmt.value? = none) :
    s.after p [stmt] = s.note base (· ++ use) := by
  ext i
  · rw [getElem?_after, note, Array.getElem?_modify, huse]
    by_cases hi : base = ⟨i⟩
    · rw [if_pos hi, if_pos (by rw [hi])]
    · rw [if_neg hi, if_neg fun h => hi (by rw [← h])]
      simp
  · simp only [note, after, List.filterMap_cons, hvalue, List.filterMap_nil, List.foldl_nil]

/-- One that uses no variable and returns none leaves no note. -/
theorem after_eq_self {stmt : Stmt} (huses : ∀ v, p.usesIn [stmt] v = {})
    (hvalue : stmt.value? = none) : s.after p [stmt] = s := by
  ext i
  · rw [getElem?_after, huses]
    simp
  · simp only [after, List.filterMap_cons, hvalue, List.filterMap_nil, List.foldl_nil]

/-- A returned value is noted as its statement asks. -/
theorem noteReturn_eq_after (v : VarId) : s.noteReturn v = s.after p [.ret (some v)] := by
  ext i
  · rw [getElem?_after]
    simp [noteReturn, Program.usesIn]
  · rfl

end Scan

/-! ## One statement -/

namespace Program

/-- A call is noted if it mentions only variables that exist. -/
theorem scanCall_eq (p : Program) (s : Scan) (i : InvokeId) :
    p.scanCall s i = do forM (p.mentioned (.invoke i)) p.check; return s.after p [.invoke i] := by
  have hnone : (∀ v, ¬ ((p.invoke i).base = some v ∧ (p.invoke i).kind.isInstance = true)) →
      s.after p [.invoke i] = s :=
    fun h => Scan.after_eq_self (fun v => by simp [usesIn, h v]) rfl
  cases hbase : (p.invoke i).base with
  | none =>
      rw [hnone fun v hv => by simp [hbase] at hv]
      cases hresult : (p.invoke i).result <;> simp [scanCall, mentioned, hbase, hresult]
  | some base =>
      by_cases hkind : (p.invoke i).kind.isInstance = true
      · rw [Scan.after_eq_note base { invokes := [i] } ?_ rfl]
        · cases hresult : (p.invoke i).result <;>
            simp [scanCall, mentioned, hbase, hresult, hkind, VarUses.append_def]
        · intro v
          by_cases hv : base = v <;> simp [usesIn, hbase, hkind, hv]
      · rw [hnone fun v hv => hkind hv.2]
        cases hresult : (p.invoke i).result <;> simp [scanCall, mentioned, hbase, hresult, hkind]

/-- The variables of a statement are checked, and then it is noted. -/
theorem scanStmt_eq (p : Program) (s : Scan) (stmt : Stmt) :
    p.scanStmt s stmt = do forM (p.mentioned stmt) p.check; return s.after p [stmt] := by
  cases stmt with
  | new | literal | loadStatic | storeStatic | copy | cast =>
      rw [Scan.after_eq_self (fun _ => rfl) rfl]
      simp [scanStmt, mentioned]
  | loadField lhs base f =>
      rw [Scan.after_eq_note base { loads := [(lhs, f)] } ?_ rfl]
      · simp [scanStmt, mentioned, VarUses.append_def]
      · intro v
        by_cases hv : base = v <;> simp [usesIn, hv]
  | storeField base f rhs =>
      rw [Scan.after_eq_note base { stores := [(f, rhs)] } ?_ rfl]
      · simp [scanStmt, mentioned, VarUses.append_def]
      · intro v
        by_cases hv : base = v <;> simp [usesIn, hv]
  | loadArray lhs base =>
      rw [Scan.after_eq_note base { arrayLoads := [lhs] } ?_ rfl]
      · simp [scanStmt, mentioned, VarUses.append_def]
      · intro v
        by_cases hv : base = v <;> simp [usesIn, hv]
  | storeArray base rhs =>
      rw [Scan.after_eq_note base { arrayStores := [rhs] } ?_ rfl]
      · simp [scanStmt, mentioned, VarUses.append_def]
      · intro v
        by_cases hv : base = v <;> simp [usesIn, hv]
  | invoke i => exact scanCall_eq p s i
  | ret value =>
      cases value with
      | none =>
          rw [Scan.after_eq_self (fun _ => rfl) rfl]
          simp [scanStmt, mentioned]
      | some v =>
          rw [← Scan.noteReturn_eq_after]
          simp [scanStmt, mentioned]

/-! ## All statements -/

/-- The statements of a body are checked in their order, and then they are noted. -/
theorem foldlM_scanStmt_eq (p : Program) (s : Scan) (stmts : List Stmt) :
    stmts.foldlM p.scanStmt s = do
      forM (stmts.flatMap p.mentioned) p.check
      return s.after p stmts := by
  induction stmts generalizing s with
  | nil => simp
  | cons stmt rest ih =>
      rw [List.foldlM_cons, scanStmt_eq, List.flatMap_cons, List.forM_append,
        show stmt :: rest = [stmt] ++ rest from rfl, Scan.after_append]
      simp [ih]

/-- So are the statements of several methods, where each method has its own returns. -/
theorem scanMethods_eq (p : Program) (uses : Array VarUses) (ms : List Method) :
    p.scanMethods uses ms = do
      forM ((ms.flatMap Method.stmts).flatMap p.mentioned) p.check
      return ((Scan.after p { uses } (ms.flatMap Method.stmts)).uses,
        ms.map fun m => { m with returnVars := returned m.stmts }) := by
  induction ms generalizing uses with
  | nil => simp [scanMethods]
  | cons m ms ih =>
      have huses : (Scan.after p { uses } (m.stmts ++ ms.flatMap Method.stmts)).uses =
          (Scan.after p { uses := (Scan.after p { uses } m.stmts).uses }
            (ms.flatMap Method.stmts)).uses := by
        rw [Scan.after_append]
        rfl
      have hreturned : (Scan.after p { uses } m.stmts).returned.toList = returned m.stmts := rfl
      rw [scanMethods, foldlM_scanStmt_eq, List.flatMap_cons, List.flatMap_append,
        List.forM_append, huses]
      simp [ih, hreturned]

/-- The first variable that was not created ends the checks. -/
theorem forM_check_eq (p : Program) (vs : List VarId) :
    forM vs p.check = match vs.find? fun v => decide (p.vars.size ≤ v.index) with
      | some v => .error (.danglingVariable v)
      | none => .ok ⟨⟩ := by
  induction vs with
  | nil => rfl
  | cons v vs ih =>
      rw [List.forM_cons, check, ih]
      by_cases hv : v.index < p.vars.size
      · rw [if_pos hv, List.find?_cons_of_neg (by simpa using hv)]
        rfl
      · rw [if_neg hv, List.find?_cons_of_pos (by simpa using hv)]
        rfl

/-- The pass ends with the first variable that was not created, and without one with the
indexes of all statements. -/
theorem scan_eq (p : Program) (hp : ∀ (i : Nat) x, p.vars[i]? = some x → x.id = ⟨i⟩) :
    p.scan = match p.dangling? with
      | some v => .error (.danglingVariable v)
      | none => .ok p.indexed := by
  have hvars : p.vars.zipWith (fun v uses => { v with uses })
      (Scan.after p { uses := .replicate p.vars.size {} } p.allStmts).uses =
        p.vars.map fun v => { v with uses := p.usesOf v.id } := by
    apply Array.ext_getElem?
    intro i
    rw [Array.getElem?_zipWith, Scan.getElem?_after, Array.getElem?_replicate, Array.getElem?_map]
    cases hx : p.vars[i]? with
    | none => simp
    | some x =>
        obtain ⟨hi, _⟩ := Array.getElem?_eq_some_iff.1 hx
        simp [hi, hp i x hx, usesOf]
  have hmethods :
      (p.methods.toList.map fun m => { m with returnVars := returned m.stmts }).toArray =
        p.methods.map fun m => { m with returnVars := returned m.stmts } := by
    rw [← Array.toList_map, Array.toArray_toList]
  rw [scan, scanMethods_eq, forM_check_eq]
  cases hdangling : p.dangling? with
  | some v =>
      rw [dangling?, allStmts] at hdangling
      rw [hdangling]
      rfl
  | none =>
      rw [dangling?, allStmts] at hdangling
      rw [hdangling]
      -- what is left is the program with both tables replaced, as the indexed one is written
      show Except.ok { p with vars := _, methods := _ } = Except.ok p.indexed
      rw [indexed, hmethods, ← hvars]
      rfl

end Program

end PointsTo
