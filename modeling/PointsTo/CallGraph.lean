import PointsTo.Multimap
import PointsTo.OrderedSet
import PointsTo.Stmt

/-!
# The call graph

A call edge joins a call site under a context with a method under a context.
Edges that stand for a lambda or a reflective call carry what is needed to pass
the arguments; the payload belongs to the identity of the edge.

A call graph keeps its edges in the order of their addition, and for every call site
the positions of the edges that leave it.

Main statements:

- {lit}`CallGraph.edgesOutOf_eq`: what the positions lead to.
- {lit}`CallGraph.mem_edgesOutOf`, {lit}`CallGraph.mem_calleesOf`: edges and callees of
  a call site.
-/

namespace PointsTo

/-! ## Call edges -/

/-- The reflective call that an edge stands for. -/
inductive ReflectiveApi where
  | classNewInstance
  | constructorNewInstance
  | methodInvoke
deriving DecidableEq

/-- The written name of a reflective call. -/
def ReflectiveApi.text : ReflectiveApi → String
  | classNewInstance => "Class.newInstance"
  | constructorNewInstance => "Constructor.newInstance"
  | methodInvoke => "Method.invoke"

/-- What an edge to the implementation of a lambda carries: the captured
variables, the context to read them in, and the result of the call. -/
structure LambdaCall where
  captured : List VarId
  lambdaContext : ContextId
  result : Option VarId
deriving DecidableEq

/-- What an edge of a reflective call carries: the call and its array of
arguments. -/
structure ReflectiveCall where
  api : ReflectiveApi
  args : Option VarId
deriving DecidableEq

/-- The kind of a call edge, with the payload that its wiring needs. -/
inductive CallKind where
  | static
  | virtual
  | interface
  | special
  | lambda (call : LambdaCall)
  | reflective (call : ReflectiveCall)
deriving DecidableEq

namespace CallKind

/-- The kind of the edges of an ordinary call instruction; a dynamic site has no
edges of its own. -/
def ofInvoke? : InvokeKind → Option CallKind
  | .static => some static
  | .virtual => some virtual
  | .interface => some interface
  | .special => some special
  | .dynamic => none

/-- Arguments and results of ordinary edges are passed by the analysis itself. -/
def isOrdinary : CallKind → Bool
  | static | virtual | interface | special => true
  | lambda _ | reflective _ => false

/-- The name of the kind in results. -/
def text : CallKind → String
  | static => "STATIC"
  | virtual => "VIRTUAL"
  | interface => "INTERFACE"
  | special => "SPECIAL"
  | lambda _ => "LAMBDA"
  | reflective _ => "REFLECTIVE"

/-- A call of a statement has an ordinary kind. -/
theorem isOrdinary_of_ofInvoke? {i : InvokeKind} {k : CallKind} (h : ofInvoke? i = some k) :
    k.isOrdinary = true := by
  cases i <;> simp_all [ofInvoke?] <;> subst h <;> rfl

end CallKind

/-- An edge from a call site to a method, both under a context. -/
structure CallEdge where
  site : QSite
  callee : QMethod
  kind : CallKind
deriving DecidableEq

/-- The written form of a call edge; the payload is not shown. -/
def CallEdge.text (e : CallEdge) : String :=
  e.site.text ++ " --" ++ e.kind.text ++ "--> " ++ e.callee.text

/-! ## Call graphs -/

/-- The positions of the edges of a list that leave a call site. -/
def sitePositions (es : List CallEdge) (site : QSite) : List Nat :=
  (es.zipIdx.filter fun e => e.1.site = site).map Prod.snd

/-- An edge that is added at the end has the last position. -/
theorem sitePositions_concat (es : List CallEdge) (e : CallEdge) (site : QSite) :
    sitePositions (es ++ [e]) site =
      sitePositions es site ++ if site = e.site then [es.length] else [] := by
  unfold sitePositions
  rw [List.zipIdx_append, List.filter_append, List.map_append]
  by_cases h : site = e.site
  · simp [h]
  · simp [h, Ne.symm h]

/-- The reachable methods and the call edges of a run. -/
structure CallGraph where
  /-- Methods reachable under some context, in the order of discovery. -/
  reachable : OrderedSet MethodId
  /-- Methods with the contexts they are reachable under. -/
  reachableIn : OrderedSet QMethod
  edges : OrderedSet CallEdge
  /-- The positions of the edges that leave a call site. -/
  bySite : Multimap QSite Nat
  /-- The positions are those at which the edges are. -/
  sited : ∀ site, bySite.get site = sitePositions edges.toList site

namespace CallGraph

/-- The graph of nothing. -/
def empty : CallGraph := ⟨.empty, .empty, .empty, .empty, fun _ => rfl⟩

instance : Inhabited CallGraph := ⟨empty⟩

/-- Notes that a method is reachable. -/
def addReachable (g : CallGraph) (m : MethodId) : CallGraph :=
  { g with reachable := g.reachable.insert m }

/-- Notes that a method is reachable under a context. -/
def addReachableIn (g : CallGraph) (m : QMethod) : CallGraph :=
  { g with reachableIn := g.reachableIn.insert m }

/-- Add an edge; the edge and its position are added only the first time. -/
def addEdge (g : CallGraph) (e : CallEdge) : CallGraph :=
  { g with
    edges := g.edges.insert e
    bySite := if e ∈ g.edges then g.bySite else g.bySite.push e.site g.edges.size
    sited := by
      intro site
      by_cases h : e ∈ g.edges
      · rw [if_pos h, OrderedSet.insert_of_mem h, g.sited]
      · rw [if_neg h, Multimap.get_push, OrderedSet.toList_insert_of_not_mem h,
          sitePositions_concat, g.sited, OrderedSet.size] }

/-- A method is reachable under some context. -/
def isReachable (g : CallGraph) (m : MethodId) : Bool := decide (m ∈ g.reachable)

/-- A method is reachable under this context. -/
def isReachableIn (g : CallGraph) (m : QMethod) : Bool := decide (m ∈ g.reachableIn)

/-- The edges that leave a call site under its context, oldest first. -/
def edgesOutOf (g : CallGraph) (site : QSite) : List CallEdge :=
  (g.bySite.get site).filterMap g.edges.get?

/-- The methods that a call site reaches under any context, in the order of the
edges that first reach them. -/
def calleesOf (g : CallGraph) (i : InvokeId) : List MethodId :=
  (OrderedSet.ofList
    ((g.edges.toList.filter fun e => e.site.item = i).map fun e => e.callee.item)).toList

/-- A method is a callee of a site if an edge leads from the site to it. -/
theorem mem_calleesOf {g : CallGraph} {i : InvokeId} {m : MethodId} :
    m ∈ g.calleesOf i ↔ ∃ e, e ∈ g.edges ∧ e.site.item = i ∧ e.callee.item = m := by
  unfold calleesOf
  rw [← OrderedSet.mem_def, OrderedSet.mem_ofList]
  simp only [List.mem_map, List.mem_filter, decide_eq_true_eq, OrderedSet.mem_def]
  constructor
  · rintro ⟨e, ⟨he, hi⟩, hm⟩
    exact ⟨e, he, hi, hm⟩
  · rintro ⟨e, he, hi, hm⟩
    exact ⟨e, ⟨he, hi⟩, hm⟩

/-- The positions of a call site lead to the edges that leave it, in their order. -/
theorem edgesOutOf_eq (g : CallGraph) (site : QSite) :
    g.edgesOutOf site = g.edges.toList.filter fun e => e.site = site := by
  have hread : ∀ e ∈ g.edges.toList.zipIdx.filter (fun e => decide (e.1.site = site)),
      g.edges.get? e.2 = some e.1 :=
    fun e he => List.mk_mem_zipIdx_iff_getElem?.1 (List.mem_filter.1 he).1
  calc g.edgesOutOf site
      = (g.edges.toList.zipIdx.filter fun e => decide (e.1.site = site)).map Prod.fst := by
        rw [edgesOutOf, g.sited, sitePositions, OrderedSet.filterMap_get? hread]
    _ = (g.edges.toList.zipIdx.map Prod.fst).filter fun e => decide (e.site = site) := by
        rw [List.filter_map]
        rfl
    _ = g.edges.toList.filter fun e => decide (e.site = site) := by rw [List.zipIdx_map_fst]

/-- The edges of a site under a context are those that say so. -/
theorem mem_edgesOutOf {g : CallGraph} {site : QSite} {e : CallEdge} :
    e ∈ g.edgesOutOf site ↔ e ∈ g.edges ∧ e.site = site := by
  simp [edgesOutOf_eq, OrderedSet.mem_def]

end CallGraph

end PointsTo
