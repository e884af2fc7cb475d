import Mathlib.Data.List.Basic
import Mathlib.Data.List.Induction
import Mathlib.Data.List.Nodup
import Mathlib.Logic.Function.Basic
import PointsTo.Proofs.Declarations

/-!
# Building

A program is built if its tables are not too large and its statements mention only variables
that were created.  Nothing but its indexes is filled in then: each variable knows the
statements that have it as their base, each method the variables that it returns.

Main results:

- {lit}`Program.Fits`, and theorem {lit}`Builder.overflow_ofList`: tables that can be addressed.
- {lit}`Program.FirstDangling`: the variable that is reported.
- {lit}`Returns`: the variables that a body returns, each once.
- {lit}`Program.IndexedAs`: a program and the one that is built of it.
- Theorem {lit}`Builder.build_exact`: building, if the tables fit.
-/

namespace PointsTo

/-! ## Room for entries -/

/-- The number of entries of a table; objects and contexts are none of a program. -/
def Program.size (p : Program) : Entity → Nat
  | .var => p.vars.size
  | .method => p.methods.size
  | .invoke => p.invokes.size
  | .field => p.fields.size
  | .cls => p.classes.size
  | .obj | .context => 0

/-- All entries of the program can be addressed. -/
def Program.Fits (p : Program) : Prop := ∀ e, p.size e ≤ idBound

namespace Builder

variable {b : Builder} {n : Entity → Nat}

/-- Room was asked for so many entries, table by table. -/
def Reserves (overflow : Option Error) (n : Entity → Nat) : Prop :=
  overflow = none ↔ ∀ e, n e ≤ idBound

/-- A place for an entry is reserved if its number is below the bound, and nothing went wrong
before. -/
theorem overflow_reserve (b : Builder) (e : Entity) (size : Nat) :
    (b.reserve e size).overflow = none ↔ b.overflow = none ∧ size < idBound := by
  unfold reserve nextIndex
  by_cases h : size < idBound
  · simp [h]
  · simp [h]

/-- Only the numbers of entries and the error matter. -/
theorem Reserves.of_eq {overflow overflow' : Option Error} {n' : Entity → Nat}
    (h : Reserves overflow n) (hoverflow : overflow' = overflow) (hn : ∀ e, n' e = n e) :
    Reserves overflow' n' := by
  rwa [hoverflow, funext hn]

/-- Asking for one more entry. -/
theorem Reserves.reserve (h : Reserves b.overflow n) (e : Entity) :
    Reserves (b.reserve e (n e)).overflow (Function.update n e (n e + 1)) := by
  unfold Reserves at h ⊢
  rw [overflow_reserve, h, Function.forall_update_iff n fun _ k => k ≤ idBound]
  constructor
  · rintro ⟨hall, he⟩
    exact ⟨he, fun e' _ => hall e'⟩
  · rintro ⟨he, hother⟩
    refine ⟨fun e' => ?_, he⟩
    by_cases hee : e' = e
    · subst hee
      omega
    · exact hother e' hee

/-- The builder has asked for room for its entries. -/
abbrev Housekept (b : Builder) : Prop := Reserves b.overflow b.program.size

/-- To change a class changes no number of entries. -/
@[simp] theorem size_modifyClass (p : Program) (name : String) (f : Class → Class) :
    (modifyClass p name f).size = p.size := by
  unfold modifyClass
  split
  · ext e
    cases e <;> simp [Program.size]
  · rfl

/-- The number of classes is kept when one is added. -/
theorem housekept_addClass (h : Housekept b) (d : ClassDecl) : Housekept (b.addClass d).2 := by
  unfold addClass
  split
  · exact h
  · refine (h.reserve .cls).of_eq rfl fun e => ?_
    cases e <;> simp [Program.size]

/-- So is the number of fields. -/
theorem housekept_addField (h : Housekept b) (d : FieldDecl) : Housekept (b.addField d).2 := by
  refine (h.reserve .field).of_eq rfl fun e => ?_
  rw [addField, size_modifyClass]
  cases e <;> simp [Program.size]

/-- So is the number of variables. -/
theorem reserves_addVar (h : Reserves b.overflow n) (hn : n .var = b.program.vars.size)
    (m : MethodId) (name : String) (type : JavaType) :
    Reserves (b.addVar m name type).2.overflow
      (Function.update n .var (b.addVar m name type).2.program.vars.size) := by
  refine (h.reserve .var).of_eq (by rw [hn]; rfl) fun e => ?_
  simp [addVar, hn]

/-- So it is when a receiver is added, which may be no variable at all. -/
theorem reserves_addReceiver (h : Reserves b.overflow n) (hn : n .var = b.program.vars.size)
    (m : MethodId) (d : MethodDecl) :
    Reserves (b.addReceiver m d).2.overflow
      (Function.update n .var (b.addReceiver m d).2.program.vars.size) := by
  unfold addReceiver
  split
  · rwa [← hn, Function.update_eq_self]
  · exact reserves_addVar h hn m _ _

/-- So it is when parameters are added, one after the other. -/
theorem reserves_addParams (h : Reserves b.overflow n) (hn : n .var = b.program.vars.size)
    (m : MethodId) (k : Nat) (ts : List JavaType) :
    Reserves (addParams m k ts b).2.overflow
      (Function.update n .var (addParams m k ts b).2.program.vars.size) := by
  induction ts generalizing b k n with
  | nil =>
      rw [addParams, ← hn, Function.update_eq_self]
      exact h
  | cons t ts ih =>
      have hrest := ih (reserves_addVar h hn m ("p" ++ toString k) t) (by simp) (k + 1)
      rwa [Function.update_idem] at hrest

/-- All numbers are kept when a method is added. -/
theorem housekept_addMethod (h : Housekept b) (d : MethodDecl) : Housekept (b.addMethod d).2 := by
  have hmethod := h.reserve .method
  have hreceiver := reserves_addReceiver (b := b.reserve .method b.program.methods.size) hmethod
    (by simp [Program.size]) ⟨b.program.methods.size⟩ d
  have hparams := reserves_addParams hreceiver (by simp) ⟨b.program.methods.size⟩ 0 d.params
  obtain ⟨vars, hvars⟩ := exists_program_addReceiver
    (b := b.reserve .method b.program.methods.size) ⟨b.program.methods.size⟩ d
  obtain ⟨vars', hvars'⟩ := exists_program_addParams
    (b := ((b.reserve .method b.program.methods.size).addReceiver ⟨b.program.methods.size⟩ d).2)
    ⟨b.program.methods.size⟩ 0 d.params
  refine hparams.of_eq rfl fun e => ?_
  rw [addMethod, size_modifyClass, hvars', hvars, program_reserve]
  cases e <;> simp [Program.size]

/-- A statement reserves nothing. -/
theorem housekept_addStmt (h : Housekept b) (m : MethodId) (s : Stmt) :
    Housekept (b.addStmt m s) := by
  refine h.of_eq rfl fun e => ?_
  cases e <;> simp [addStmt, Program.size]

/-- The number of call sites is kept when one is added. -/
theorem housekept_addInvoke (h : Housekept b) (m : MethodId) (make : InvokeId → Invoke) :
    Housekept (b.addInvoke m make).2 := by
  refine (h.reserve .invoke).of_eq rfl fun e => ?_
  cases e <;> simp [addInvoke, addStmt, Program.size]

/-- All numbers are kept by every declaration. -/
theorem housekept_declare (h : Housekept b) (d : Declaration) : Housekept (b.declare d) := by
  cases d with
  | cls d => exact housekept_addClass h d
  | field d => exact housekept_addField h d
  | method d => exact housekept_addMethod h d
  | var m name type =>
      refine (reserves_addVar h rfl m name type).of_eq rfl fun e => ?_
      cases e <;> simp [declare, addVar, Program.size]
  | stmt m s => exact housekept_addStmt h m s
  | call m d => exact housekept_addInvoke h m _
  | dynamicCall m d => exact housekept_addInvoke h m _
  | line site line =>
      refine h.of_eq rfl fun e => ?_
      cases e <;> simp [declare, setLine, Program.size]

/-- Tables that can be addressed are all that a builder asks for. -/
theorem overflow_ofList (ds : List Declaration) :
    (ofList ds).overflow = none ↔ (ofList ds).program.Fits := by
  refine ofList_induction (motive := Housekept) ?_ (fun _ => housekept_declare) ds
  refine housekept_addClass (b := {}) ?_ _
  simp only [Housekept, Reserves, true_iff]
  intro e
  cases e <;> exact Nat.zero_le _

end Builder

/-! ## Variables that were not created -/

namespace Program

variable {p : Program} {v : VarId}

/-- The variable is one of the program. -/
def Created (p : Program) (v : VarId) : Prop := ∃ x ∈ p.vars, x.id = v

/-- The first variable that some statement mentions although it was not created.  Statements
come in the order of their methods and bodies, the variables of one as they are checked. -/
def FirstDangling (p : Program) (v : VarId) : Prop :=
  ∃ before after, p.allStmts.flatMap p.mentioned = before ++ v :: after ∧ ¬ p.Created v ∧
    ∀ u ∈ before, p.Created u

/-- Some statement mentions the variable. -/
theorem FirstDangling.exists_stmt (h : p.FirstDangling v) :
    ∃ stmt, p.HasStmt stmt ∧ ∃ v ∈ p.mentioned stmt, ¬ p.Created v := by
  obtain ⟨before, after, hsplit, hnot, _⟩ := h
  have hmem : v ∈ p.allStmts.flatMap p.mentioned := by
    rw [hsplit]
    exact List.mem_append_right _ List.mem_cons_self
  obtain ⟨stmt, hstmt, hv⟩ := List.mem_flatMap.1 hmem
  exact ⟨stmt, mem_allStmts.1 hstmt, v, hv, hnot⟩

/-- In a numbered program a variable was created if its number is that of an entry. -/
theorem Numbered.created_iff (h : p.Numbered) : p.Created v ↔ v.index < p.vars.size := by
  constructor
  · rintro ⟨x, hx, rfl⟩
    obtain ⟨i, hi⟩ := Array.mem_iff_getElem?.1 hx
    rw [h.vars i x hi]
    exact (Array.getElem?_eq_some_iff.1 hi).1
  · intro hv
    exact ⟨p.vars[v.index], Array.getElem_mem hv, h.vars _ _ (Array.getElem?_eq_getElem hv)⟩

/-- The check reports the first variable that dangles. -/
theorem Numbered.dangling?_eq_some_iff (h : p.Numbered) :
    p.dangling? = some v ↔ p.FirstDangling v := by
  simp only [dangling?, List.find?_eq_some_iff_append, FirstDangling, h.created_iff, Nat.not_lt,
    decide_eq_true_eq, Bool.not_eq_true', decide_eq_false_iff_not, Nat.not_le]
  constructor
  · rintro ⟨hv, before, after, hsplit, hbefore⟩
    exact ⟨before, after, hsplit, hv, hbefore⟩
  · rintro ⟨before, after, hsplit, hv, hbefore⟩
    exact ⟨hv, before, after, hsplit, hbefore⟩

/-- It reports nothing exactly if no variable dangles. -/
theorem Numbered.dangling?_eq_none_iff (h : p.Numbered) :
    p.dangling? = none ↔ ∀ stmt, p.HasStmt stmt → ∀ v ∈ p.mentioned stmt, p.Created v := by
  simp only [dangling?, List.find?_eq_none, List.mem_flatMap, mem_allStmts, h.created_iff,
    decide_eq_true_eq, Nat.not_le]
  constructor
  · intro hall stmt hstmt v hv
    exact hall v ⟨stmt, hstmt, hv⟩
  · rintro hall v ⟨stmt, hstmt, hv⟩
    exact hall stmt hstmt v hv

end Program

/-! ## Returned variables -/

/-- The variables that a body returns, each once, in the order of their first returns. -/
structure Returns (stmts : List Stmt) (vs : List VarId) : Prop where
  nodup : vs.Nodup
  mem_iff : ∀ v, v ∈ vs ↔ .ret (some v) ∈ stmts
  ordered : vs.Pairwise fun u v => stmts.idxOf (.ret (some u)) < stmts.idxOf (.ret (some v))

namespace Returns

variable {stmts : List Stmt} {vs : List VarId} {stmt : Stmt} {v : VarId}

/-- Values that are returned stay in their order when a statement is added. -/
theorem ordered_concat (h : Returns stmts vs) (stmt : Stmt) : vs.Pairwise fun u v =>
    (stmts ++ [stmt]).idxOf (.ret (some u)) < (stmts ++ [stmt]).idxOf (.ret (some v)) := by
  refine h.ordered.imp_of_mem fun {u v} hu hv hlt => ?_
  rwa [List.idxOf_append_of_mem ((h.mem_iff u).1 hu), List.idxOf_append_of_mem ((h.mem_iff v).1 hv)]

/-- A statement that returns nothing, or what was returned before, adds nothing. -/
theorem concat (h : Returns stmts vs) (hstmt : ∀ v, stmt = .ret (some v) → v ∈ vs) :
    Returns (stmts ++ [stmt]) vs where
  nodup := h.nodup
  mem_iff := fun v => by
    rw [h.mem_iff, List.mem_append, List.mem_singleton]
    exact (or_iff_left_of_imp fun hv => (h.mem_iff v).1 (hstmt v hv.symm)).symm
  ordered := h.ordered_concat stmt

/-- The first return of a variable adds it at the end. -/
theorem concat_new (h : Returns stmts vs) (hv : v ∉ vs) :
    Returns (stmts ++ [.ret (some v)]) (vs ++ [v]) where
  nodup := List.concat_eq_append ▸ h.nodup.concat hv
  mem_iff := fun u => by simp [h.mem_iff]
  ordered := by
    apply List.pairwise_append.2
    refine ⟨h.ordered_concat _, List.pairwise_singleton _ _, fun u hu w hw => ?_⟩
    have hmem : .ret (some u) ∈ stmts := (h.mem_iff u).1 hu
    have hnew : Stmt.ret (some v) ∉ stmts := fun hmem => hv ((h.mem_iff v).2 hmem)
    rw [List.mem_singleton.1 hw, List.idxOf_append_of_mem hmem, List.idxOf_append_of_notMem hnew]
    exact Nat.lt_add_right _ (List.idxOf_lt_length_of_mem hmem)

end Returns

/-- A statement returns a value only if it is that return. -/
theorem Stmt.value?_eq_some_iff {stmt : Stmt} {v : VarId} :
    stmt.value? = some v ↔ stmt = .ret (some v) := by
  cases stmt <;> simp [Stmt.value?]

/-- By induction on the body from its end, since a variable is kept at its first return. -/
theorem returns_returned (stmts : List Stmt) : Returns stmts (Program.returned stmts) := by
  induction stmts using List.reverseRecOn with
  | nil => exact ⟨.nil, fun v => by simp [Program.returned, OrderedSet.ofList], .nil⟩
  | append_singleton stmts stmt ih =>
      rw [Program.returned_eq] at ih ⊢
      rw [List.filterMap_append, OrderedSet.ofList, List.foldl_append, ← OrderedSet.ofList]
      cases hvalue : stmt.value? with
      | none =>
          simp only [List.filterMap_cons, hvalue, List.filterMap_nil, List.foldl_nil]
          refine ih.concat fun v hv => ?_
          rw [Stmt.value?_eq_some_iff.2 hv] at hvalue
          cases hvalue
      | some v =>
          obtain rfl := Stmt.value?_eq_some_iff.1 hvalue
          simp only [List.filterMap_cons, hvalue, List.filterMap_nil, List.foldl_cons,
            List.foldl_nil, OrderedSet.toList_insert]
          split
          · rename_i hknown
            refine ih.concat fun u hu => ?_
            cases hu
            exact hknown
          · rename_i hnew
            exact ih.concat_new hnew

/-! ## Built programs -/

/-- The second program is the first with the indexes filled in, and nothing else. -/
structure Program.IndexedAs (p q : Program) : Prop where
  classes : q.classes = p.classes
  fields : q.fields = p.fields
  invokes : q.invokes = p.invokes
  vars : q.vars.map (fun x => { x with uses := {} }) = p.vars.map fun x => { x with uses := {} }
  methods : q.methods.map (fun m => { m with returnVars := [] }) =
    p.methods.map fun m => { m with returnVars := [] }
  uses : ∀ x ∈ q.vars, x.uses = q.usesOf x.id
  returns : ∀ m ∈ q.methods, Returns m.stmts m.returnVars

/-- Indexing fills in what a built program knows, and nothing else. -/
theorem Program.indexedAs_indexed (p : Program) : p.IndexedAs p.indexed where
  classes := rfl
  fields := rfl
  invokes := rfl
  vars := by simp [indexed, Function.comp_def]
  methods := by simp [indexed, Function.comp_def]
  uses := by
    intro x hx
    rw [usesOf_indexed]
    obtain ⟨y, _, rfl⟩ := Array.mem_map.1 hx
    rfl
  returns := by
    intro m hm
    obtain ⟨m, _, rfl⟩ := Array.mem_map.1 hm
    exact returns_returned m.stmts

namespace Builder

/-- Building ends in one of two ways, as long as all entries can be addressed. -/
theorem build_cases (ds : List Declaration) (hfits : (ofList ds).program.Fits) :
    ((ofList ds).build = .ok (ofList ds).program.indexed ∧
        ∀ stmt, (ofList ds).program.HasStmt stmt →
          ∀ v ∈ (ofList ds).program.mentioned stmt, (ofList ds).program.Created v) ∨
      ∃ v, (ofList ds).build = .error (.danglingVariable v) ∧
        (ofList ds).program.FirstDangling v := by
  have hnumbered := numbered_ofList ds
  rw [Program.build_eq hnumbered, (overflow_ofList ds).2 hfits]
  cases hdangling : (ofList ds).program.dangling? with
  | none => exact .inl ⟨rfl, hnumbered.dangling?_eq_none_iff.1 hdangling⟩
  | some v => exact .inr ⟨v, rfl, hnumbered.dangling?_eq_some_iff.1 hdangling⟩

/-- If all entries can be addressed, building fails exactly if a statement mentions a variable
that was not created, and reports the first one.  Else it fills in the indexes. -/
theorem build_exact (ds : List Declaration) (hfits : (ofList ds).program.Fits) :
    ((∃ e, (ofList ds).build = .error e) ↔ ∃ stmt, (ofList ds).program.HasStmt stmt ∧
        ∃ v ∈ (ofList ds).program.mentioned stmt, ¬ (ofList ds).program.Created v) ∧
      (∀ e, (ofList ds).build = .error e →
        ∃ v, e = .danglingVariable v ∧ (ofList ds).program.FirstDangling v) ∧
      ∀ p, (ofList ds).build = .ok p → (ofList ds).program.IndexedAs p := by
  rcases build_cases ds hfits with ⟨hbuild, hall⟩ | ⟨v, hbuild, hfirst⟩
  · rw [hbuild]
    refine ⟨⟨?_, ?_⟩, ?_, ?_⟩
    · rintro ⟨_, ⟨⟩⟩
    · rintro ⟨stmt, hstmt, v, hv, hnot⟩
      exact absurd (hall stmt hstmt v hv) hnot
    · rintro _ ⟨⟩
    · rintro _ ⟨⟩
      exact Program.indexedAs_indexed _
  · rw [hbuild]
    refine ⟨⟨fun _ => hfirst.exists_stmt, fun _ => ⟨_, rfl⟩⟩, ?_, ?_⟩
    · rintro _ ⟨⟩
      exact ⟨v, rfl, hfirst⟩
    · rintro _ ⟨⟩

/-- A method that loads a field of its receiver and returns what it has loaded. -/
def loadingProgram : List Declaration :=
  [.cls (.plain "A"), .field ⟨"A", "f", .cls "A", false⟩,
    .method ⟨"A", "run", [], .cls "A", false, false, true⟩, .var ⟨0⟩ "x" (.cls "A"),
    .stmt ⟨0⟩ (.loadField ⟨1⟩ ⟨0⟩ ⟨0⟩), .stmt ⟨0⟩ (.ret (some ⟨1⟩))]

/-- The receiver is the base of the load, and the loaded value is returned. -/
theorem build_exact_loading :
    (ofList loadingProgram).program.Fits ∧ ∃ p, (ofList loadingProgram).build = .ok p ∧
      (p.var ⟨0⟩).uses.loads = [(⟨1⟩, ⟨0⟩)] ∧ (p.method ⟨0⟩).returnVars = [⟨1⟩] ∧
      (ofList loadingProgram).program.IndexedAs p := by
  have hfits : (ofList loadingProgram).program.Fits := by
    intro e
    cases e <;> decide +kernel
  have hbuild : (ofList loadingProgram).build = .ok (ofList loadingProgram).program.indexed :=
    Program.build_of_checks (by decide +kernel) (by decide +kernel)
  exact ⟨hfits, _, hbuild, by decide +kernel, by decide +kernel,
    (build_exact loadingProgram hfits).2.2 _ hbuild⟩

example : (ofList (loadingProgram ++ [.stmt ⟨0⟩ (.copy ⟨1⟩ ⟨9⟩)])).build =
    .error (.danglingVariable ⟨9⟩) := rfl

end Builder

end PointsTo
