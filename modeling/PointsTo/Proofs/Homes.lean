import PointsTo.Proofs.Indexes

/-!
# The methods that variables belong to

Every variable belongs to a method.  Receivers and parameters belong to the method that they
are those of; this is how programs are assembled.  That statements use variables of their own
method only is up to whoever assembles a program, and is called tidy here.

Main results:

- {lit}`Program.Housed`, and theorem {lit}`Program.housed_of_build`: receivers and parameters
  belong to their methods.
- {lit}`Program.Tidy`: statements and calls use variables of their own method only.
-/

namespace PointsTo

/-- Receivers and parameters belong to their methods. -/
def Program.Housed (p : Program) : Prop :=
  ∀ (i : Nat) (m : Method), p.methods[i]? = some m → ∀ v, v ∈ m.receiver ∨ v ∈ m.params →
    ∃ x, p.vars[v.index]? = some x ∧ x.method = ⟨i⟩

namespace Builder

/-- However a program is assembled, receivers and parameters belong to their methods. -/
theorem housed_ofList (ds : List Declaration) : (ofList ds).program.Housed := by
  intro i m hm v hv
  obtain ⟨hid, hequipped⟩ := equipped_ofList ds i m hm
  obtain ⟨_, x, hx, hmethod, _⟩ := hequipped.created v hv
  exact ⟨x, hx, hmethod.trans hid⟩

end Builder

namespace Program

variable {p : Program}

/-- Building a program leaves the homes as they are. -/
theorem housed_of_build {ds : List Declaration} (hb : (Builder.ofList ds).program.Housed)
    (h : (Builder.ofList ds).build = .ok p) : p.Housed := by
  obtain ⟨-, rfl⟩ := indexed_of_build (Builder.numbered_ofList ds) h
  intro i m hm v hv
  simp only [indexed, Array.getElem?_map] at hm ⊢
  obtain ⟨m', hm', rfl⟩ := Option.map_eq_some_iff.1 hm
  obtain ⟨x, hx, hmethod⟩ := hb i m' hm' v hv
  refine ⟨{ x with uses := (Builder.ofList ds).program.usesOf x.id }, ?_, hmethod⟩
  rw [hx]
  rfl

/-- Receiver and parameters of a method are variables that belong to it. -/
theorem Housed.var_of_method (h : p.Housed) {m : MethodId} {v : VarId}
    (hv : v ∈ (p.method m).receiver ∨ v ∈ (p.method m).params) :
    ∃ x, p.vars[v.index]? = some x ∧ x.method = m := by
  unfold method at hv
  rw [Array.getD_eq_getD_getElem?] at hv
  cases hget : p.methods[m.index]? with
  | none =>
      rw [hget] at hv
      rcases hv with hv | hv <;> cases hv
  | some entry =>
      rw [hget] at hv
      exact h m.index entry hget v hv

/-- The receiver and the parameters of a method belong to it. -/
theorem Housed.method_eq (h : p.Housed) {m : MethodId} {v : VarId}
    (hv : v ∈ (p.method m).receiver ∨ v ∈ (p.method m).params) : (p.var v).method = m := by
  obtain ⟨x, hx, hmethod⟩ := h.var_of_method hv
  simpa [var, hx] using hmethod

/-- The receiver and the parameters of a method exist. -/
theorem Housed.index_lt (h : p.Housed) {m : MethodId} {v : VarId}
    (hv : v ∈ (p.method m).receiver ∨ v ∈ (p.method m).params) : v.index < p.vars.size := by
  obtain ⟨x, hx, _⟩ := h.var_of_method hv
  exact (Array.getElem?_eq_some_iff.1 hx).1

/-! ## Tidy programs -/

/-- Statements and calls use variables of their own method only, and every call statement is
in the method that contains its call site. -/
structure Tidy (p : Program) : Prop where
  own : ∀ m, ∀ stmt ∈ (p.method m).stmts, ∀ v ∈ p.mentioned stmt, (p.var v).method = m
  sites : ∀ i, ∀ v ∈ p.mentioned (.invoke i), (p.var v).method = (p.invoke i).container
  placed : ∀ m i, .invoke i ∈ (p.method m).stmts → (p.invoke i).container = m

/-- Only methods that the table holds have statements. -/
theorem index_lt_of_mem_stmts {m : MethodId} {stmt : Stmt} (h : stmt ∈ (p.method m).stmts) :
    m.index < p.methods.size := by
  refine Decidable.byContradiction fun hge => ?_
  simp only [method, Array.getD_eq_getD_getElem?,
    Array.getElem?_eq_none (Nat.le_of_not_lt hge)] at h
  exact absurd h List.not_mem_nil

/-- Calls are in the methods that run them, if a check says so. -/
theorem placed_of_checks
    (hplaced : ∀ i < p.methods.size, ∀ call ∈ p.invokesIn ⟨i⟩, call.container = ⟨i⟩)
    (m : MethodId) (i : InvokeId) (h : .invoke i ∈ (p.method m).stmts) :
    (p.invoke i).container = m :=
  hplaced m.index (index_lt_of_mem_stmts h) _ (mem_invokesIn.2 ⟨i, h, rfl⟩)

/-- Only the methods and the call sites that the tables hold have to be looked at. -/
theorem tidy_of_checks
    (hown : ∀ i < p.methods.size, ∀ stmt ∈ (p.method ⟨i⟩).stmts, ∀ v ∈ p.mentioned stmt,
      (p.var v).method = ⟨i⟩)
    (hsites : ∀ i < p.invokes.size, ∀ v ∈ p.mentioned (.invoke ⟨i⟩),
      (p.var v).method = (p.invoke ⟨i⟩).container)
    (hplaced : ∀ i < p.methods.size, ∀ call ∈ p.invokesIn ⟨i⟩, call.container = ⟨i⟩) :
    p.Tidy := by
  refine ⟨fun m stmt hstmt => hown m.index (index_lt_of_mem_stmts hstmt) stmt hstmt, ?_,
    placed_of_checks hplaced⟩
  intro i v hv
  by_cases hi : i.index < p.invokes.size
  · exact hsites i.index hi v hv
  · simp only [mentioned, invoke, Array.getD_eq_getD_getElem?,
      Array.getElem?_eq_none (Nat.le_of_not_lt hi)] at hv
    exact absurd hv List.not_mem_nil

/-- The method under a context that a variable under the context belongs to. -/
def home (p : Program) (v : QVar) : QMethod := ⟨v.context, (p.var v.item).method⟩

/-- The method under a context that contains a call site under the context. -/
def host (p : Program) (site : QSite) : QMethod := ⟨site.context, (p.invoke site.item).container⟩

/-- Variables that a statement mentions are at home in the method of the statement. -/
theorem Tidy.home_eq (h : p.Tidy) {m : QMethod} {stmt : Stmt}
    (hstmt : stmt ∈ (p.method m.item).stmts) {v : VarId} (hv : v ∈ p.mentioned stmt) :
    p.home ⟨m.context, v⟩ = m := by
  simp only [home, h.own m.item stmt hstmt v hv]

/-- Variables that a call mentions are at home where the call is. -/
theorem Tidy.home_eq_host (h : p.Tidy) (site : QSite) {v : VarId}
    (hv : v ∈ p.mentioned (.invoke site.item)) : p.home ⟨site.context, v⟩ = p.host site := by
  simp only [home, host, h.sites site.item v hv]

/-- The receiver and the parameters of a method are at home in it. -/
theorem Housed.home_eq (h : p.Housed) {m : QMethod} {v : VarId}
    (hv : v ∈ (p.method m.item).receiver ∨ v ∈ (p.method m.item).params) :
    p.home ⟨m.context, v⟩ = m := by
  simp only [home, h.method_eq hv]

end Program

end PointsTo
