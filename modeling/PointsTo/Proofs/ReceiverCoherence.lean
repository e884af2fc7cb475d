import PointsTo.Proofs.Assignments
import PointsTo.Proofs.ContextDiscipline
import PointsTo.Proofs.Homes

/-!
# Receivers fit their contexts

Where contexts are made of objects, the method that is run on an object is told apart by it: the
context of a method ends with what stands for its receiver.  Receivers come from dispatch, from
references to constructors, from reflective construction and invocation and from logs, each of which
selects the context by itself.  Only a reference to an instance method feeds the receiver from
another variable, where objects mix.

Main results:

- {lit}`Program.SparesReceivers`: nothing but calls writes receivers.
- {lit}`Solver.Fitting`: the context of a variable is made of each object that it refers to;
  theorem {lit}`Solver.Fitting.item_eq`: with object sensitivity these are all the same object.
- Theorem {lit}`Analysis.coherent_of_attains`: in every state of a run the receivers of methods fit
  their contexts, as far as the methods are not run by references to instance methods.
-/

namespace PointsTo

open Context

variable {p : Program} {env : Setting} {s : Solver}

/-! ## Programs that leave receivers alone -/

/-- No statement, result of a call or parameter list writes the receiver of a method. -/
structure Program.SparesReceivers (p : Program) : Prop where
  stmt : ∀ {m this stmt}, this ∈ (p.method m).receiver → p.HasStmt stmt → stmt.lhs? ≠ some this
  result : ∀ {m this i}, this ∈ (p.method m).receiver → this ∉ (p.invoke i).result
  param : ∀ {m this n}, this ∈ (p.method m).receiver → this ∉ (p.method n).params

/-- Only the methods and the call sites that the tables hold have to be looked at. -/
theorem Program.sparesReceivers_of_checks
    (hstmt : ∀ m ∈ p.methods, ∀ stmt ∈ p.allStmts, ∀ v ∈ m.receiver, stmt.lhs? ≠ some v)
    (hresult : ∀ m ∈ p.methods, ∀ call ∈ p.invokes, ∀ v ∈ m.receiver, call.result ≠ some v)
    (hparam : ∀ m ∈ p.methods, ∀ n ∈ p.methods, ∀ v ∈ m.receiver, v ∉ n.params) :
    p.SparesReceivers where
  stmt := fun {m this stmt} hthis hmem =>
    p.forall_method (P := fun x => ∀ v ∈ x.receiver, stmt.lhs? ≠ some v)
      (fun x hx => hstmt x hx stmt (mem_allStmts.2 hmem)) (by rintro _ ⟨⟩) m this hthis
  result := fun {m this i} hthis =>
    p.forall_method (P := fun x => ∀ v ∈ x.receiver, (p.invoke i).result ≠ some v)
      (fun x hx => p.forall_invoke (P := fun call => ∀ v ∈ x.receiver, call.result ≠ some v)
        (hresult x hx) (by rintro _ _ ⟨⟩) i) (by rintro _ ⟨⟩) m this hthis
  param := fun {m this n} hthis =>
    p.forall_method (P := fun x => ∀ v ∈ x.receiver, v ∉ (p.method n).params)
      (fun x hx => p.forall_method (P := fun y => ∀ v ∈ x.receiver, v ∉ y.params)
        (hparam x hx) (fun _ _ => List.not_mem_nil) n) (by rintro _ ⟨⟩) m this hthis

/-! ## Variables that fit their contexts -/

/-- The context of a variable is made of each object that the variable refers to, or will refer to:
of the heap context of the object and what stands for the object itself. -/
def Solver.Fitting (env : Setting) (s : Solver) (v : QVar) : Prop :=
  ∀ {o}, s.Owes (.var v) o → ∃ h e, s.Spells o.context h ∧
    env.selector.element? env.program s.heap o.item = some e ∧
      s.Spells v.context (keepLast env.selector.k (h ++ [e]))

/-- The element that is added last is kept. -/
theorem Context.getLast?_keepLast {limit : Nat} (hlimit : 0 < limit) (l : List Nat) (e : Nat) :
    (keepLast limit (l ++ [e])).getLast? = some e := by
  have hle : (l ++ [e]).length - limit ≤ l.length := by
    rw [List.length_append, List.length_singleton]
    omega
  rw [keepLast, List.drop_append_of_le_length hle, List.getLast?_concat]

/-- With contexts of objects, a variable that fits its context refers to one object only, maybe
under several heap contexts. -/
theorem Solver.Fitting.item_eq {v : QVar} (h : s.Fitting env v)
    (hs : env.selector.strategy = .object) (hk : 0 < env.selector.k) {o o' : QObj}
    (ho : s.Owes (.var v) o) (ho' : s.Owes (.var v) o') : o.item = o'.item := by
  obtain ⟨l, e, -, he, hspells⟩ := h ho
  obtain ⟨l', e', -, he', hspells'⟩ := h ho'
  simp only [Selector.element?, hs, Option.some.injEq] at he he'
  subst he he'
  have hsame : keepLast env.selector.k (l ++ [o.item.index]) =
      keepLast env.selector.k (l' ++ [o'.item.index]) := by
    have hcontexts := hspells.symm.trans hspells'
    simpa using hcontexts
  have hlast := congrArg List.getLast? hsame
  rw [getLast?_keepLast hk, getLast?_keepLast hk] at hlast
  cases hi : o.item
  cases hi' : o'.item
  simpa [hi, hi'] using hlast

/-- The context that is selected for a call on an object is made of the object. -/
theorem Solver.CalledUnder.made {site : QSite} {o : QObj} {c : ContextId}
    (h : s.CalledUnder env site (some o) c)
    (hs : env.selector.strategy = .object ∨ env.selector.strategy = .type) :
    ∃ w e, s.Spells o.context w ∧ env.selector.element? env.program s.heap o.item = some e ∧
      s.Spells c (keepLast env.selector.k (w ++ [e])) := by
  cases h with
  | insensitive hs' => rw [hs'] at hs; simp at hs
  | callSite hs' => rw [hs'] at hs; simp at hs
  | received ho he hh hc =>
      cases ho
      exact ⟨_, _, hh, he, hc⟩
  | kept _ ho => cases ho

/-- The receiver of a method fits the context of the method, if no reference to an instance method
runs it under the context. -/
theorem Solver.Warranted.fitting (h : s.Warranted env) (hb : env.program.Built)
    (hhoused : env.program.Housed) (hspares : env.program.SparesReceivers)
    (hs : env.selector.strategy = .object ∨ env.selector.strategy = .type) {q : QMethod}
    {this : VarId} (hthis : this ∈ (env.program.method q.item).receiver)
    (hno : ∀ e ∈ s.calls.edges, e.callee = q → ∀ call, e.kind = .lambda call →
      (env.program.method q.item).isConstructor = true) : s.Fitting env ⟨q.context, this⟩ := by
  intro o ho
  cases h.supplies hb ho with
  | stmt hstmt hlhs => exact absurd hlhs (hspares.stmt hthis hstmt)
  | result hv => exact absurd hv (hspares.result hthis)
  | param hv => exact absurd hv (hspares.param hthis)
  | receiver _ hsite hc =>
      refine (calledUnder_of_selects hsite ?_ hc).made hs
      rintro _ ⟨⟩
      exact (h.scope.owes ho).2
  | @reference edge call hedge hk hconstructor hthis' hc =>
      -- the variable is the receiver of one method only
      have hitem : edge.callee.item = q.item :=
        (hhoused.method_eq (.inl hthis')).symm.trans (hhoused.method_eq (.inl hthis))
      have hcallee : edge.callee = q := by
        obtain ⟨_, ⟨_, _⟩, _⟩ := edge
        cases q
        simp_all
      rw [hitem, hno edge hedge hcallee call hk] at hconstructor
      cases hconstructor

/-! ## Analyses -/

/-- Options that are found valid keep at least one element in contexts, if they keep any. -/
theorem Options.k_pos_of_validate {o : Options} (h : o.validate = .ok ())
    (hs : o.context ≠ .insensitive) : 0 < o.k := by
  have hdepths : o.checkDepths = .ok () := by
    cases hd : o.checkDepths with
    | ok => rfl
    | error e =>
        simp only [validate, hd] at h
        cases h
  simp only [checkDepths, hs, if_false] at hdepths
  split at hdepths
  · cases hdepths
  · omega

/-- In every state of a run with contexts of objects or of classes, the receiver of a method fits
the context of the method, unless a reference to an instance method runs it under the context.  With
contexts of objects it refers to one object only. -/
theorem Analysis.coherent_of_attains {a : Analysis} (ds : List Declaration)
    (hbuild : (Builder.ofList ds).build = .ok p) (hspares : p.SparesReceivers)
    (hextra : a.extra = []) (hvalid : a.options.validate = .ok ())
    (hstrategy : a.options.context = .object ∨ a.options.context = .type)
    {files : Reflection.Files} {entries : List MethodId} {m : Machine Member}
    (h : a.Attains p files entries m) {q : QMethod} {this : VarId}
    (hthis : this ∈ (p.method q.item).receiver)
    (hno : ∀ e ∈ m.solver.calls.edges, e.callee = q → ∀ call, e.kind = .lambda call →
      (p.method q.item).isConstructor = true) :
    m.solver.Fitting (a.setting p) ⟨q.context, this⟩ ∧ (a.options.context = .object →
      ∀ {o o'}, m.solver.Owes (varPointer q.context this) o →
        m.solver.Owes (varPointer q.context this) o' → o.item = o'.item) := by
  have hb := Program.built_of_build (Builder.numbered_ofList ds) hbuild
  have hhoused := Program.housed_of_build (Builder.housed_ofList ds) hbuild
  have hwarranted := (Analysis.warranted_of_attains hb hextra h).solver
  have hfitting : m.solver.Fitting (a.setting p) ⟨q.context, this⟩ :=
    hwarranted.fitting hb hhoused hspares hstrategy hthis hno
  have hk : 0 < a.options.k := Options.k_pos_of_validate hvalid (by
    rcases hstrategy with hs | hs <;> rw [hs] <;> decide)
  exact ⟨hfitting, fun hs _ _ ho ho' => hfitting.item_eq hs hk ho ho'⟩

/-- The receiver of the method that is called fits its context, so that it is the one object. -/
theorem Analysis.coherent_of_attains_calling :
    let a : Analysis := { options := twoObjects }
    let p := (settingOf callingProgram a.options).program
    ∃ m, a.Attains p (fun _ => none) [⟨1⟩] m ∧
      ⟨emptyContext, ⟨0⟩⟩ ∈ m.solver.pointsTo.get (varPointer ⟨1⟩ ⟨0⟩) ∧
      m.solver.Fitting (a.setting p) ⟨⟨1⟩, ⟨0⟩⟩ ∧
      ∀ o ∈ m.solver.pointsTo.get (varPointer ⟨1⟩ ⟨0⟩), o.item = ⟨0⟩ := by
  intro a p
  have hbuild : (Builder.ofList callingProgram).build = .ok p :=
    Program.build_of_checks (by decide +kernel) (by decide +kernel)
  have hspares : p.SparesReceivers := Program.sparesReceivers_of_checks
    (by decide +kernel) (by decide +kernel) (by decide +kernel)
  let run := Machine.solve Member.plugin (a.setting p) 10 [⟨1⟩] (.new [.newLambda, .reflection {}])
  have hattains : a.Attains p (fun _ => none) [⟨1⟩] run.2 :=
    Analysis.attains_of_members callingProgram hbuild rfl rfl 10 [⟨1⟩]
  have hpoints : ⟨emptyContext, ⟨0⟩⟩ ∈ run.2.solver.pointsTo.get (varPointer ⟨1⟩ ⟨0⟩) := by
    decide +kernel
  have hthis : (⟨0⟩ : VarId) ∈ (p.method (⟨⟨1⟩, ⟨0⟩⟩ : QMethod).item).receiver := by
    decide +kernel
  have hkinds : ∀ e ∈ run.2.solver.calls.edges.toList, e.kind.isOrdinary = true := by
    decide +kernel
  obtain ⟨hfitting, hsame⟩ := Analysis.coherent_of_attains callingProgram hbuild hspares rfl rfl
    (.inl rfl) hattains hthis fun e he _ call hk => by
      have hordinary := hkinds e he
      rw [hk] at hordinary
      cases hordinary
  exact ⟨run.2, hattains, hpoints, hfitting, fun o ho => hsame rfl (.inl ho) (.inl hpoints)⟩

end PointsTo
