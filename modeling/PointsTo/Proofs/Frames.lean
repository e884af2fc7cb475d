import PointsTo.Proofs.Indexes

/-!
# The variables of a method's frame

A method that is added gets a receiver unless it is static, and one new variable for each of its
parameters.

Main results:

- {lit}`Method.Framed`: what receiver and parameters of a method are like.
- {lit}`Program.Framed`, and theorem {lit}`Program.framed_of_build`: all methods are like that.
- {lit}`Program.ParamsTyped`, and theorem {lit}`Program.paramsTyped_of_build`: parameters have the
  types that their method says.
-/

namespace PointsTo

/-- A method has a receiver unless it is static, and its parameters are different variables. -/
structure Method.Framed (m : Method) : Prop where
  receiver : m.receiver.isSome = !m.isStatic
  params : m.params.Nodup

/-- All methods of a program are framed. -/
def Program.Framed (p : Program) : Prop :=
  ∀ (i : Nat) (m : Method), p.methods[i]? = some m → m.Framed

namespace Builder

/-- However a program is assembled, its methods are framed. -/
theorem framed_ofList (ds : List Declaration) : (ofList ds).program.Framed := by
  intro i m hm
  obtain ⟨_, hequipped⟩ := equipped_ofList ds i m hm
  exact ⟨hequipped.receiver, hequipped.params⟩

end Builder

/-! ## Types of parameters -/

/-- The variable exists and has the type. -/
def Program.HasVar (p : Program) (v : VarId) (type : JavaType) : Prop :=
  ∃ x, p.vars[v.index]? = some x ∧ x.type = type

/-- The parameters of all methods have the types that the methods say. -/
def Program.ParamsTyped (p : Program) : Prop :=
  ∀ (i : Nat) (m : Method), p.methods[i]? = some m → ∀ param type,
    (param, type) ∈ m.typedParams → p.HasVar param type

namespace Builder

/-- However a program is assembled, its parameters have the types that their methods say. -/
theorem paramsTyped_ofList (ds : List Declaration) : (ofList ds).program.ParamsTyped := by
  intro i m hm v type hmem
  obtain ⟨x, hx, _, htype⟩ := (equipped_ofList ds i m hm).2.typed v type hmem
  exact ⟨x, hx, htype⟩

end Builder

namespace Program

variable {p : Program}

/-- Building a program leaves the types of parameters as they are. -/
theorem paramsTyped_of_build {ds : List Declaration}
    (hb : (Builder.ofList ds).program.ParamsTyped) (h : (Builder.ofList ds).build = .ok p) :
    p.ParamsTyped := by
  obtain ⟨-, rfl⟩ := indexed_of_build (Builder.numbered_ofList ds) h
  intro i m hm param type hmem
  simp only [indexed, Array.getElem?_map] at hm
  obtain ⟨old, hold, rfl⟩ := Option.map_eq_some_iff.1 hm
  obtain ⟨x, hx, rfl⟩ := hb i old hold param type hmem
  exact ⟨{ x with uses := (Builder.ofList ds).program.usesOf x.id }, by simp [indexed, hx], rfl⟩

/-- A parameter has the type that a method says. -/
theorem ParamsTyped.type_eq (h : p.ParamsTyped) {m : MethodId} {param : VarId} {type : JavaType}
    (hmem : (param, type) ∈ (p.method m).typedParams) : (p.var param).type = type := by
  by_cases hm : m.index < p.methods.size
  · have hget : p.methods[m.index]? = some (p.method m) := by
      simp [Program.method, hm]
    obtain ⟨x, hx, rfl⟩ := h _ _ hget param type hmem
    obtain ⟨hlt, rfl⟩ := Array.getElem?_eq_some_iff.1 hx
    simp [Program.var, hlt]
  · have hdefault : p.method m = default := by
      simp [Program.method, Nat.le_of_not_lt hm]
    rw [hdefault] at hmem
    exact absurd hmem List.not_mem_nil

/-- Building a program leaves the frames as they are. -/
theorem framed_of_build {ds : List Declaration} (hb : (Builder.ofList ds).program.Framed)
    (h : (Builder.ofList ds).build = .ok p) : p.Framed := by
  obtain ⟨-, rfl⟩ := indexed_of_build (Builder.numbered_ofList ds) h
  intro i m hm
  simp only [indexed, Array.getElem?_map] at hm
  obtain ⟨old, hold, rfl⟩ := Option.map_eq_some_iff.1 hm
  exact ⟨(hb i old hold).receiver, (hb i old hold).params⟩

/-- A method that is looked up is framed. -/
theorem Framed.method (h : p.Framed) {m : MethodId} (hm : m.index < p.methods.size) :
    (p.method m).Framed := by
  have hget : p.methods[m.index]? = some (p.method m) := by
    simp [Program.method, hm]
  exact h _ _ hget

/-- Parameters differ, also those that a method which was not added has not got. -/
theorem Framed.params (h : p.Framed) (m : MethodId) : (p.method m).params.Nodup := by
  by_cases hm : m.index < p.methods.size
  · exact (h.method hm).params
  · have hdefault : p.method m = default := by
      simp [Program.method, Nat.le_of_not_lt hm]
    rw [hdefault]
    exact List.nodup_nil

end Program

end PointsTo
