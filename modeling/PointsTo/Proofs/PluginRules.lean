import PointsTo.Proofs.Indexes
import PointsTo.Proofs.Questions
import PointsTo.Proofs.Scoping

/-!
# What the provided plugins add

The plugins for lambdas and for reflection act at call sites.  They give a call a result,
let it run a method, and let values flow along the edge that they added for it.  They do so
only where there is a reason: the method of the call is reached, or one of the variables that
the call mentions refers to something.

Main results:

- {lit}`View.Acting`: there is a reason to act at a call site.
- {lit}`CallEdge.Feeds`: the pointers that values flow to along a call edge.
- {lit}`PluginRule`: the rules of the plugins; they mention only what exists
  ({lit}`PluginRule.exists`).
-/

namespace PointsTo

/-! ## Reasons to act -/

namespace View

variable {p : Program} {k l : View}

/-- The variable refers to something under a context that exists. -/
structure Refers (k : View) (v : QVar) : Prop where
  context : k.contexts.Has v.context
  something : ∃ o, k.points (.var v) o

/-- There is a reason to act at a call site: its method is reached, or a variable that the
call mentions refers to something. -/
structure Acting (p : Program) (k : View) (site : QSite) : Prop where
  context : k.contexts.Has site.context
  reason : (∃ m, k.reached ⟨site.context, m⟩ ∧
      (m = (p.invoke site.item).container ∨ .invoke site.item ∈ (p.method m).stmts)) ∨
    ∃ v ∈ p.mentioned (.invoke site.item), ∃ o, k.points (.var ⟨site.context, v⟩) o

theorem Refers.mono {v : QVar} (h : k.Refers v) (hle : k.Le l) : l.Refers v := by
  obtain ⟨o, ho⟩ := h.something
  exact ⟨h.context.of_grows hle.contexts, o, hle.points ho⟩

theorem Acting.mono {site : QSite} (h : k.Acting p site) (hle : k.Le l) : l.Acting p site := by
  refine ⟨h.context.of_grows hle.contexts, h.reason.imp ?_ ?_⟩
  · rintro ⟨m, hm, hsite⟩
    exact ⟨m, hle.reached hm, hsite⟩
  · rintro ⟨v, hv, o, ho⟩
    exact ⟨v, hv, o, hle.points ho⟩

/-- A variable that refers to something is a reason to act where it is mentioned. -/
theorem Refers.acting {v : QVar} {site : InvokeId} (h : k.Refers v)
    (hv : v.item ∈ p.mentioned (.invoke site)) : k.Acting p ⟨v.context, site⟩ :=
  ⟨h.context, .inr ⟨v.item, hv, h.something⟩⟩

end View

/-- That a call has no target is told of calls on what a variable refers to. -/
theorem View.acting_of_unresolved {env : Setting} {s : Solver} {o : QObj} {c : ContextId}
    {site : InvokeId} (hb : env.program.Built)
    (he : (Event.unresolved o c site).Holds env s) :
    s.settled.Acting env.program ⟨c, site⟩ := by
  obtain ⟨⟨v, rfl, hpoints, huse⟩, hc, _⟩ := he
  have hbase := (hb.mem_invokes.1 huse).2.1
  exact View.Refers.acting ⟨hc, o, hpoints⟩ (by simp [Program.mentioned, hbase])

/-! ## Flow along call edges -/

namespace CallEdge

/-- Values may flow along a call edge to a pointer: to a parameter or the receiver of the
callee, or to the result of the call. -/
inductive Feeds (p : Program) (e : CallEdge) : Pointer → Prop
  | param {v} (h : v ∈ (p.method e.callee.item).params) :
      Feeds p e (varPointer e.callee.context v)
  | receiver {v} (h : v ∈ (p.method e.callee.item).receiver) :
      Feeds p e (varPointer e.callee.context v)
  | result {v} (h : v ∈ (p.invoke e.site.item).result) :
      Feeds p e (varPointer e.site.context v)
  | lambdaResult {call v} (hk : e.kind = .lambda call) (h : v ∈ call.result) :
      Feeds p e (varPointer e.site.context v)

/-- The result that a lambda edge carries is that of its call. -/
def Returns (p : Program) (e : CallEdge) : Prop :=
  ∀ call, e.kind = .lambda call → call.result = (p.invoke e.site.item).result

/-- The context of the callee is the one that is selected for the call site. -/
def Selected (env : Setting) (k : View) (e : CallEdge) : Prop :=
  ∃ receiver, k.Selects env e.site receiver e.callee.context

variable {p : Program} {e : CallEdge}

/-- An edge of another kind carries no result. -/
theorem returns_of_kind (h : ∀ call, e.kind ≠ .lambda call) : e.Returns p :=
  fun call hcall => absurd hcall (h call)

theorem feeds_of_returnEdges {f : FlowEdge} {result : Option VarId} {callee : Method}
    (hf : f ∈ returnEdges result callee e.site.context e.callee.context)
    (hresult : ∀ v ∈ result, e.Feeds p (varPointer e.site.context v)) : e.Feeds p f.target := by
  obtain ⟨r, _, hr, _, rfl⟩ := mem_returnEdges.1 hf
  exact hresult r hr

/-- The flow along an ordinary edge is flow along a call edge. -/
theorem feeds_of_ordinaryWiring {f : FlowEdge} (hf : f ∈ ordinaryWiring p e) :
    e.Feeds p f.target := by
  rcases List.mem_append.1 hf with hf | hf
  · obtain ⟨_, _, _, hmem, _, rfl⟩ := mem_argumentEdges.1 hf
    exact .param (List.of_mem_zip (List.of_mem_zip hmem).2).1
  · exact feeds_of_returnEdges hf fun v hv => .result hv

end CallEdge

/-! ## The rules -/

/-- What the provided plugins may add. -/
inductive PluginRule (env : Setting) (s : Solver) : Addition → Prop
  | object {o} : PluginRule env s (.object o)
  | context {c} : PluginRule env s (.context c)
  | note {line} : PluginRule env s (.note line)
  /-- A call has a result. -/
  | yield {site result os} (h : s.settled.Acting env.program site)
      (hr : result ∈ (env.program.invoke site.item).result)
      (hos : ∀ o ∈ os, s.settled.HasObj o) :
      PluginRule env s (.points (varPointer site.context result) os)
  /-- A call runs a method on an object. -/
  | enter {o e} (h : s.settled.Acting env.program e.site) (hreturns : e.Returns env.program)
      (hselected : e.Selected env s.settled) (he : e.Exists s.settled)
      (ho : s.settled.HasObj o) :
      PluginRule env s (.enter (env.program.method e.callee.item).receiver o e)
  /-- A call runs a method. -/
  | call {e} (h : s.settled.Acting env.program e.site) (hreturns : e.Returns env.program)
      (hselected : e.Selected env s.settled) (he : e.Exists s.settled) :
      PluginRule env s (.call e)
  /-- Values flow along an edge of the call graph. -/
  | flow {e f} (he : e ∈ s.calls.edges) (hf : e.Feeds env.program f.target)
      (hexists : f.Exists s.settled) : PluginRule env s (.flow f)

/-- Whatever is no fact about pointers, flow or calls may be added. -/
theorem PluginRule.of_neutral {env : Setting} {s : Solver} {a : Addition} (h : a.Neutral) :
    PluginRule env s a := by
  cases a with
  | object | context | note => constructor
  | points | flow | enter | call => exact h.elim

/-- The rules of the plugins mention only what exists. -/
theorem PluginRule.exists {env : Setting} {s : Solver} {a : Addition} (h : PluginRule env s a) :
    a.Exists s.settled := by
  cases h with
  | object | context | note => trivial
  | yield h _ hos => exact fun o ho => ⟨h.context, hos o ho⟩
  | enter _ _ _ he ho => exact ⟨ho, he⟩
  | call _ _ _ he => exact he
  | flow _ _ hexists => exact hexists

end PointsTo
