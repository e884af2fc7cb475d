import PointsTo.Proofs.Derivations
import PointsTo.Proofs.LambdaCalls

/-!
# Facts about lambdas without ids

The edges that lead to the methods behind lambdas carry an id, that of the context in which the
captured values are read.  This file describes such edges without ids, and says what it means
that a family of facts is closed under the rules of the analysis and of the plugin for lambdas.

Main definitions:

- {lit}`LambdaFacts`: families of facts that know lambda edges, ordered by
  {lit}`LambdaFacts.Le`.
- {lit}`LambdaFacts.Closed`: the rules, of the plugin too if it takes part.
- {lit}`LambdaFacts.readBy`: such a family where a reading gives ids their meaning.
- {lit}`LambdaFacts.coarsen`, and theorem {lit}`LambdaFacts.closed_coarsen`: what a family that
  is closed without contexts says about contexts.
-/

namespace PointsTo

/-! ## Lambda edges -/

/-- What an edge to the implementation of a lambda carries. -/
structure Capture where
  captured : List VarId
  /-- What the elements of the context of the captured values stand for. -/
  context : List Mark
  result : Option VarId

/-- A call on a lambda object runs the method that implements it. -/
structure LambdaEdge where
  site : Under InvokeId
  callee : Under MethodId
  capture : Capture

/-- A family of facts about a program; {lit}`call` is about edges other than lambda edges. -/
structure LambdaFacts extends Facts where
  lambda : LambdaEdge → Prop

/-- The second family contains the first one. -/
structure LambdaFacts.Le (F G : LambdaFacts) : Prop extends F.toFacts.Le G.toFacts where
  lambda : ∀ {e}, F.lambda e → G.lambda e

/-- Families that contain each other are the same. -/
theorem LambdaFacts.Le.antisymm {F G : LambdaFacts} (h : F.Le G) (k : G.Le F) : F = G := by
  have hreached : F.reached = G.reached := funext fun _ => propext ⟨h.reached, k.reached⟩
  have hpoints : F.points = G.points :=
    funext fun _ => funext fun _ => propext ⟨h.points, k.points⟩
  have hflow : F.flow = G.flow := funext fun _ => propext ⟨h.flow, k.flow⟩
  have hcall : F.call = G.call := funext fun _ => propext ⟨h.call, k.call⟩
  have hlambda : F.lambda = G.lambda := funext fun _ => propext ⟨h.lambda, k.lambda⟩
  obtain ⟨⟨_, _, _, _⟩, _⟩ := F
  obtain ⟨⟨_, _, _, _⟩, _⟩ := G
  cases hreached
  cases hpoints
  cases hflow
  cases hcall
  cases hlambda
  rfl

namespace Lambda

/-! ## Wires -/

/-- The contexts that meet in a lambda edge: that of the captured values, that of the call and
that of the method that is run. -/
inductive Side where
  | lambda
  | caller
  | callee

/-- The flow between two variables along a lambda edge. -/
structure Wire where
  source : Side × VarId
  target : Side × VarId
  kind : FlowKind

/-- The edge of a wire under the contexts of the sides. -/
def Wire.edge (contexts : Side → ContextId) (w : Wire) : FlowEdge where
  source := varPointer (contexts w.source.1) w.source.2
  target := varPointer (contexts w.target.1) w.target.2
  kind := w.kind
  filter := none

/-- The flow of a wire under the contexts of the sides, without ids. -/
def Wire.flow (contexts : Side → List Mark) (w : Wire) : Flow where
  source := .var ⟨contexts w.source.1, w.source.2⟩
  target := .var ⟨contexts w.target.1, w.target.2⟩
  kind := w.kind
  filter := none

/-- The variable that provides the receiver of the implementing method. -/
def source? (shift : Shift) (captured args : List VarId) : Option (Side × VarId) :=
  if shift.capturedReceiver then captured.head?.map (Prod.mk .lambda)
  else if shift.actualReceiver then args.head?.map (Prod.mk .caller)
  else none

/-- The wires of a lambda edge: captured values, arguments, receiver, results. -/
def wires (captured args : List VarId) (result : Option VarId) (callee : Method) : List Wire :=
  let shift := Shift.ofMethod captured.length callee
  (captured.zipIdx.filterMap fun (v, i) =>
      ((shift.capturedParam? i).bind fun j => callee.params[j]?).map fun param =>
        ⟨(.lambda, v), (.callee, param), .parameterPassing⟩) ++
    (args.zipIdx.filterMap fun (v, i) =>
      ((shift.actualParam? i).bind fun j => callee.params[j]?).map fun param =>
        ⟨(.caller, v), (.callee, param), .parameterPassing⟩) ++
    (callee.receiver.toList.flatMap fun this =>
      (source? shift captured args).toList.map fun source =>
        ⟨source, (.callee, this), .localAssign⟩) ++
    (result.toList.flatMap fun r =>
      callee.returnVars.map fun v => ⟨(.callee, v), (.caller, r), .ret⟩)

/-- The contexts that meet in an edge. -/
def sides (e : CallEdge) (call : LambdaCall) : Side → ContextId
  | .lambda => call.lambdaContext
  | .caller => e.site.context
  | .callee => e.callee.context

/-- The pointer that provides a receiver belongs to one of the two sides of a call. -/
theorem receiverSource?_eq (shift : Shift) (e : CallEdge) (call : LambdaCall)
    (args : List VarId) : receiverSource? shift call args e.site.context =
      (source? shift call.captured args).map fun v => varPointer (sides e call v.1) v.2 := by
  unfold receiverSource? source?
  split
  · rw [Option.map_map]
    rfl
  · split
    · rw [Option.map_map]
      rfl
    · rfl

/-- The flow along a lambda edge runs along its wires. -/
theorem wiring_eq (p : Program) (e : CallEdge) (call : LambdaCall) :
    wiring p e call = (wires call.captured (p.invoke e.site.item).args call.result
      (p.method e.callee.item)).map (Wire.edge (sides e call)) := by
  simp only [wiring, wires, List.map_append]
  congr 1
  · congr 1
    · congr 1
      · simp only [capturedEdges, List.map_filterMap, Option.map_map]
        rfl
      · simp only [actualEdges, List.map_filterMap, Option.map_map]
        rfl
    · simp only [receiverEdges, receiverSource?_eq]
      cases (p.method e.callee.item).receiver with
      | none => rfl
      | some this =>
          cases source? (Shift.ofMethod call.captured.length (p.method e.callee.item))
              call.captured (p.invoke e.site.item).args with
          | none => rfl
          | some source => rfl
  · cases hresult : call.result with
    | none => rfl
    | some r =>
        simp only [returnEdges, Option.toList_some, List.flatMap_cons, List.flatMap_nil,
          List.append_nil, List.map_map]
        rfl

/-! ## Calls on lambda objects -/

/-- The lambda object that a dynamic call site of a method makes. -/
def madeObj (m : MethodId) (site : InvokeId) (d : DynamicCall) : Obj where
  kind := .mock .lambda (.invoke site)
  type := d.methodType.ret
  container := some m

/-- A dynamic call site of a method makes lambda objects. -/
structure Makes (p : Program) (m : MethodId) (site : InvokeId) (d : DynamicCall) : Prop where
  stmt : .invoke site ∈ (p.method m).stmts
  dynamic : (p.invoke site).dynamic = some d
  factory : isFactory d.bootstrap = true

/-- A call has no target among the methods of a type. -/
def Untargeted (p : Program) (call : Invoke) (type : JavaType) : Prop :=
  ∀ callee kind, targetOn? p call type = some callee → CallKind.ofInvoke? call.kind ≠ some kind

/-- The method that the handle of an instance method runs on an object of a type. -/
def handleTarget? (p : Program) (handle : MethodHandle) (type : JavaType) : Option MethodId :=
  p.concrete? <|
    match handle.kind with
    | .invokeSpecial => p.resolve? handle.target
    | _ => p.dispatch? type handle.target

/-- The variable that an instance method takes its receiver from, without ids. -/
def receiver? (capture : Capture) (args : List VarId) (context : List Mark) :
    Option (Under VarId) :=
  match capture.captured, args with
  | v :: _, _ => some ⟨capture.context, v⟩
  | [], v :: _ => some ⟨context, v⟩
  | [], [] => none

/-- The object that a reference to a constructor makes, in the context of the call. -/
def constructed (p : Program) (site : Under InvokeId) (maker : InvokeId) (handle : MethodHandle) :
    Under Obj :=
  ⟨site.context, MockTable.standIn p .lambdaConstructed maker (.cls handle.target.className)⟩

end Lambda

open Lambda

/-- What a lambda edge at a call site carries for an object that was made at {lit}`maker`. -/
def Capture.of (p : Program) (site maker : InvokeId) (o : Under Obj) : Capture :=
  ⟨(p.invoke maker).args, o.context, (p.invoke site).result⟩

/-- The contexts that meet in a lambda edge. -/
def LambdaEdge.sides (e : LambdaEdge) : Side → List Mark
  | .lambda => e.capture.context
  | .caller => e.site.context
  | .callee => e.callee.context

/-- The wires of a lambda edge. -/
def LambdaEdge.wires (p : Program) (e : LambdaEdge) : List Wire :=
  Lambda.wires e.capture.captured (p.invoke e.site.item).args e.capture.result
    (p.method e.callee.item)

namespace LambdaFacts

/-! ## The rules -/

section Rules

variable (p : Program) (s : Selector) (F : LambdaFacts)

/-- A call on a lambda object that was made at {lit}`maker` runs what a handle says. -/
def Performs (site : Under InvokeId) (maker : InvokeId) (handle : MethodHandle)
    (capture : Capture) : Prop :=
  match handle.kind with
  | .invokeStatic => ∀ m, p.resolve? handle.target = some m →
      F.lambda ⟨site, ⟨s.callMarks p site none, m⟩, capture⟩
  | .newInvokeSpecial => ∀ m, p.resolve? handle.target = some m →
      (∀ result ∈ (p.invoke site.item).result,
        F.points (.var ⟨site.context, result⟩) (constructed p site maker handle)) ∧
      F.lambda ⟨site, ⟨s.callMarks p site (some (constructed p site maker handle)), m⟩, capture⟩ ∧
      ∀ this ∈ (p.method m).receiver,
        F.points (.var ⟨s.callMarks p site (some (constructed p site maker handle)), this⟩)
          (constructed p site maker handle)
  | .invokeVirtual | .invokeInterface | .invokeSpecial => ∀ receiver,
      receiver? capture (p.invoke site.item).args site.context = some receiver →
      ∀ o, F.points (.var receiver) o → ∀ m, handleTarget? p handle o.item.type = some m →
        F.lambda ⟨site, ⟨s.callMarks p site (some o), m⟩, capture⟩
  | .getField | .getStatic | .putField | .putStatic => True

/-- The family is closed under the rules of the plugin for lambdas. -/
structure Handled : Prop where
  /-- Lambda objects reach the results of the call sites that make them. -/
  made : ∀ m, F.reached m → ∀ site d, Makes p m.item site d → ∀ result ∈ (p.invoke site).result,
    F.points (.var ⟨m.context, result⟩) ⟨m.context, madeObj m.item site d⟩
  /-- Calls on lambda objects run what their handles say. -/
  applied : ∀ v o, F.points (.var v) o → ∀ site, p.HasStmt (.invoke site) →
    (p.invoke site).base = some v.item → (p.invoke site).kind.isInstance = true →
    Untargeted p (p.invoke site) o.item.type → ∀ maker handle,
      Fits p o.item site maker handle →
        F.Performs p s ⟨v.context, site⟩ maker handle (.of p site maker o)
  wiring : ∀ e, F.lambda e → ∀ w ∈ e.wires p, F.flow (w.flow e.sides)

/-- The family contains the entry methods under the empty context and is closed under all
rules of the analysis, and of the plugin for lambdas if that is {lit}`on`. -/
structure Closed (on : Bool) (entries : List MethodId) : Prop where
  core : F.toFacts.Closed p s entries
  callee : ∀ e, F.lambda e → F.reached e.callee
  handled : on = true → F.Handled p s

end Rules

variable {p : Program} {s s' : Selector} {F : LambdaFacts} {on : Bool}
  {entries entries' : List MethodId}

/-- Fewer entry methods ask for less. -/
theorem Closed.of_entries (h : F.Closed p s on entries) (hsub : ∀ i ∈ entries', i ∈ entries) :
    F.Closed p s on entries' :=
  ⟨⟨fun i hi => h.core.entry i (hsub i hi), h.core.body, h.core.flow, h.core.access,
    h.core.callee, h.core.wiring⟩, h.callee, h.handled⟩

end LambdaFacts

/-! ## Ids on lambda edges -/

/-- What the payload of a lambda edge stands for. -/
def Reading.capture (r : Reading) (call : LambdaCall) : Capture :=
  ⟨call.captured, r.marks call.lambdaContext, call.result⟩

namespace LambdaFacts

variable {p : Program} {s s' : Selector} {F : LambdaFacts} {on : Bool}
  {entries entries' : List MethodId}

/-- The family where lambda edges carry ids, to which a reading gives their meaning. -/
def readBy (F : LambdaFacts) (r : Reading) : Facts where
  reached := F.reached
  points := F.points
  flow := F.flow
  call := fun e =>
    match e.kind with
    | .lambda call => F.lambda ⟨e.site, e.callee, r.capture call⟩
    | _ => F.call e

/-- A statement has its effect also on the facts that are read. -/
theorem effect_readBy {r : Reading} {m : Under MethodId} {index : Nat} {stmt : Stmt}
    (h : F.toFacts.Effect p s m index stmt) : (F.readBy r).Effect p s m index stmt := by
  cases stmt with
  | literal lhs value => cases value <;> exact h
  | new | copy | cast | loadStatic | storeStatic | invoke | loadField | storeField | loadArray
  | storeArray | ret => exact h

/-- So it is with accesses. -/
theorem access_readBy {r : Reading} {v : Under VarId} {o : Under Obj} {stmt : Stmt}
    (h : F.toFacts.Access p s v o stmt) : (F.readBy r).Access p s v o stmt := by
  cases stmt with
  | invoke site =>
      intro hbase hinstance callee kind hcallee hkind
      obtain ⟨hcall, hthis⟩ := h hbase hinstance callee kind hcallee hkind
      have hordinary := CallKind.isOrdinary_of_ofInvoke? hkind
      refine ⟨?_, hthis⟩
      cases kind with
      | lambda => cases hordinary
      | static | virtual | interface | special | reflective => exact hcall
  | new | copy | cast | literal | loadStatic | storeStatic | loadField | storeField | loadArray
  | storeArray | ret => exact h

/-- The rules of the analysis take no notice of ids on lambda edges. -/
theorem Closed.readBy (h : F.Closed p s on entries) (r : Reading) :
    (F.readBy r).Closed p s entries where
  entry := h.core.entry
  body := fun m hm index stmt hstmt => effect_readBy (h.core.body m hm index stmt hstmt)
  flow := h.core.flow
  access := fun v o ho m stmt hstmt => access_readBy (h.core.access v o ho m stmt hstmt)
  callee := by
    rintro ⟨site, callee, kind⟩ he
    cases kind with
    | lambda => exact h.callee _ he
    | static | virtual | interface | special | reflective => exact h.core.callee _ he
  wiring := by
    rintro ⟨site, callee, kind⟩ he hk
    cases kind with
    | lambda | reflective => cases hk
    | static | virtual | interface | special =>
        obtain ⟨hargument, hresult⟩ := h.core.wiring _ he rfl
        exact ⟨hargument, hresult⟩

end LambdaFacts

/-! ## Facts without contexts -/

/-- A thing under the empty context. -/
def Under.bare {α : Type} (x : Under α) : Under α := ⟨[], x.item⟩

namespace Place

/-- A place under the empty context. -/
def bare : Place → Place
  | .var v => .var v.bare
  | .field o f => .field o.bare f
  | .static f => .static f
  | .array o => .array o.bare

end Place

/-- A flow between places under the empty context. -/
def Flow.bare (e : Flow) : Flow := { e with source := e.source.bare, target := e.target.bare }

/-- A call under empty contexts. -/
def Call.bare (e : Call) : Call := { e with site := e.site.bare, callee := e.callee.bare }

/-- A lambda edge under empty contexts, with values that are captured under the empty one. -/
def LambdaEdge.bare (e : LambdaEdge) : LambdaEdge where
  site := e.site.bare
  callee := e.callee.bare
  capture := { e.capture with context := [] }

namespace Selector

variable {p : Program} {s : Selector}

/-- An insensitive selector marks no call. -/
theorem callMarks_insensitive (hs : s.strategy = .insensitive) (site : Under InvokeId)
    (receiver : Option (Under Obj)) : s.callMarks p site receiver = [] := by
  simp only [callMarks, hs]

/-- It marks no allocation either. -/
theorem heapMarks_insensitive (hs : s.strategy = .insensitive) (context : List Mark) :
    s.heapMarks context = [] := by
  simp only [heapMarks, hs, true_or, if_true]

end Selector

namespace LambdaFacts

variable {p : Program} {s s' : Selector} {F : LambdaFacts} {on : Bool}
  {entries : List MethodId}

/-- All facts that are in a family once contexts are forgotten. -/
def coarsen (F : LambdaFacts) : LambdaFacts where
  reached := fun m => F.reached m.bare
  points := fun place o => F.points place.bare o.bare
  flow := fun e => F.flow e.bare
  call := fun e => F.call e.bare
  lambda := fun e => F.lambda e.bare

/-- A statement has its effect without contexts, too. -/
theorem effect_coarsen (hs : s.strategy = .insensitive) {m : Under MethodId} {index : Nat}
    {stmt : Stmt} (h : F.toFacts.Effect p s m.bare index stmt) :
    F.coarsen.toFacts.Effect p s' m index stmt := by
  cases stmt with
  | new lhs type =>
      simp only [Facts.Effect, Selector.heapMarks_insensitive hs] at h
      exact h
  | literal lhs value => cases value <;> exact h
  | invoke site =>
      intro callee hcallee
      have hcall := h callee hcallee
      rw [Selector.callMarks_insensitive hs] at hcall
      exact hcall
  | copy | cast | loadStatic | storeStatic | loadField | storeField | loadArray | storeArray
  | ret => exact h

/-- So it is with accesses. -/
theorem access_coarsen (hs : s.strategy = .insensitive) {v : Under VarId} {o : Under Obj}
    {stmt : Stmt} (h : F.toFacts.Access p s v.bare o.bare stmt) :
    F.coarsen.toFacts.Access p s' v o stmt := by
  cases stmt with
  | invoke site =>
      intro hbase hinstance callee kind hcallee hkind
      have hcalled := h hbase hinstance callee kind hcallee hkind
      rw [Selector.callMarks_insensitive hs] at hcalled
      exact hcalled
  | new | copy | cast | literal | loadStatic | storeStatic | loadField | storeField | loadArray
  | storeArray | ret => exact h

/-- The variable that provides a receiver is the same without contexts. -/
theorem receiver?_bare (capture : Capture) (args : List VarId) (context : List Mark) :
    receiver? { capture with context := [] } args [] =
      (receiver? capture args context).map Under.bare := by
  obtain ⟨captured, _, _⟩ := capture
  cases captured with
  | cons v captured => rfl
  | nil => cases args <;> rfl

/-- A handle is performed without contexts, too. -/
theorem performs_coarsen (hs : s.strategy = .insensitive) {site : Under InvokeId}
    {maker : InvokeId} {handle : MethodHandle} {capture : Capture}
    (h : F.Performs p s site.bare maker handle { capture with context := [] }) :
    F.coarsen.Performs p s' site maker handle capture := by
  have hinstance : (∀ receiver, receiver? { capture with context := [] }
        (p.invoke site.item).args [] = some receiver →
      ∀ o, F.points (.var receiver) o → ∀ m, handleTarget? p handle o.item.type = some m →
        F.lambda ⟨site.bare, ⟨s.callMarks p site.bare (some o), m⟩,
          { capture with context := [] }⟩) →
      ∀ receiver, receiver? capture (p.invoke site.item).args site.context = some receiver →
        ∀ o, F.coarsen.points (.var receiver) o → ∀ m, handleTarget? p handle o.item.type = some m →
          F.coarsen.lambda ⟨site, ⟨s'.callMarks p site (some o), m⟩, capture⟩ := by
    intro hall receiver hreceiver o ho m hm
    have hcall := hall receiver.bare (by rw [receiver?_bare, hreceiver]; rfl) o.bare ho m hm
    rw [Selector.callMarks_insensitive hs] at hcall
    exact hcall
  unfold Performs at h ⊢
  cases hkind : handle.kind with
  | invokeStatic =>
      simp only [hkind] at h ⊢
      intro m hm
      have hcall := h m hm
      rw [Selector.callMarks_insensitive hs] at hcall
      exact hcall
  | newInvokeSpecial =>
      simp only [hkind] at h ⊢
      intro m hm
      have hcall := h m hm
      rw [Selector.callMarks_insensitive hs] at hcall
      exact hcall
  | invokeVirtual | invokeInterface | invokeSpecial =>
      simp only [hkind] at h ⊢
      exact hinstance h
  | getField | getStatic | putField | putStatic => trivial

/-- What a family that is closed under the rules without contexts says about contexts is closed
under the rules for any contexts. -/
theorem closed_coarsen (h : F.Closed p s on entries) (hs : s.strategy = .insensitive) :
    F.coarsen.Closed p s' on entries where
  core :=
    { entry := h.core.entry
      body := fun m hm index stmt hstmt => effect_coarsen hs (h.core.body _ hm index stmt hstmt)
      flow := fun e he o ho hpasses => h.core.flow _ he _ ho hpasses
      access := fun v o ho m stmt hstmt =>
        access_coarsen hs (h.core.access _ _ ho m stmt hstmt)
      callee := fun e he => h.core.callee _ he
      wiring := fun e he hk =>
        ⟨(h.core.wiring e.bare he hk).argument, (h.core.wiring e.bare he hk).result⟩ }
  callee := fun e he => h.callee _ he
  handled := fun hon =>
    { made := fun m hm => (h.handled hon).made m.bare hm
      applied := fun v o ho site hstmt hbase hinstance hnone maker handle hfits =>
        performs_coarsen hs
          ((h.handled hon).applied v.bare o.bare ho site hstmt hbase hinstance hnone maker handle
            hfits)
      wiring := by
        intro e he w hw
        have hflow := (h.handled hon).wiring e.bare he w hw
        have hside : ∀ side, e.bare.sides side = [] := by
          intro side
          cases side <;> rfl
        simp only [Wire.flow, hside] at hflow
        exact hflow }

end LambdaFacts

end PointsTo
