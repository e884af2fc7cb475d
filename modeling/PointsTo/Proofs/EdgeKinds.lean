import PointsTo.Proofs.FlowRequests
import PointsTo.Proofs.Interruptions

/-!
# Where call edges of each kind come from

The rules of the analysis add ordinary call edges, the plugin for lambdas adds lambda edges and the
plugin for reflection adds reflective ones.  So there are no edges of a kind whose plugin takes no
part in the run.

Main results:

- Theorems {lit}`Request.announces_cases`, {lit}`Request.flow_cases`: a request adds the edge that
  it asks for, and no other.
- {lit}`Solver.OfKinds`: the call edges of a state, and those on their way, are of certain kinds.
- Theorems {lit}`Lambda.ofKind_react`, {lit}`Reflection.ofKind_react`: what each plugin asks for.
- Theorems {lit}`Analysis.lambda_of_attains`, {lit}`Analysis.reflection_of_attains`: lambda edges
  and reflective edges are found only if the options ask for them.
-/

namespace PointsTo

open Service CallKind

/-! ## What requests add -/

namespace Request

variable {env : Setting} {r : Request} {x : r.Answer} {s t : Solver}

/-- A call edge that is announced after a request was before, or is what was asked for. -/
theorem announces_cases (h : r.answer env s = .ok x t) {e : CallEdge} (he : t.Announces e) :
    s.Announces e ∨ r = .addCall e := by
  have hevolves : s.Evolves env.program (fun _ a => ∀ e, a.NewCall e → r = .addCall e) t := by
    refine evolves_by h (fun {_ a} ha e he => ?_) fun a ha e he => ?_
    · cases a with
      | call | enter => exact ha.elim
      | object | context | points | flow | note => exact he.elim
    · cases r with
      | addCall =>
          cases ha
          exact congrArg _ he.symm
      | addPointsTo | addFlow =>
          cases ha
          exact he.elim
      | mock | callContext | heapContext | obj | pointsTo | note => cases ha
  exact hevolves.keeps (I := fun u => ∀ e, u.Announces e → s.Announces e ∨ r = .addCall e)
    (fun hu ha hadd e he => (hadd.announces_cases he).elim (hu e) fun hnew => .inr (ha e hnew))
    (fun _ => .inl) e he

/-- A flow edge that is there after a request was there before, or is what was asked for. -/
theorem flow_cases (h : r.answer env s = .ok x t) {f : FlowEdge} (hf : f ∈ t.flow.edges) :
    f ∈ s.flow.edges ∨ r = .addFlow f := by
  have hevolves : s.Evolves env.program (fun _ a => ∀ f, a.NewFlow f → r = .addFlow f) t := by
    refine evolves_by h (fun ha f hf => ?_) fun a ha f hf => ?_
    · cases hf
      exact ha.elim
    · cases hf
      cases r with
      | addFlow =>
          cases ha
          rfl
      | mock | callContext | heapContext | obj | pointsTo | addPointsTo | addCall | note => cases ha
  exact hevolves.keeps (I := fun u => ∀ f ∈ u.flow.edges, f ∈ s.flow.edges ∨ r = .addFlow f)
    (fun hu ha hadd f hf => (hadd.flow_cases hf).elim (hu f) fun hnew => .inr (ha f hnew))
    (fun _ => .inl) f hf

end Request

/-! ## Kinds of edges -/

/-- Call edges are asked for only if they are of certain kinds. -/
def Request.OfKind (K : CallKind → Prop) : Request → Prop
  | .addCall e => K e.kind
  | .mock _ | .callContext .. | .heapContext _ | .obj _ | .pointsTo _ | .addPointsTo .. | .addFlow _
  | .note _ => True

/-- The call edges that are known or on their way are ordinary or of certain kinds. -/
def Solver.OfKinds (K : CallKind → Prop) (s : Solver) : Prop :=
  ∀ e, s.Announces e → e.kind.isOrdinary = true ∨ K e.kind

variable {env : Setting} {K : CallKind → Prop} {s t : Solver}

/-- A request for no flow is for an edge of its kinds, if it is for one. -/
theorem Request.Flowless.ofKind {r : Request} (hr : r.Flowless K) : r.OfKind K := by
  cases r with
  | addCall e => exact hr
  | mock | callContext | heapContext | obj | pointsTo | addPointsTo | addFlow | note => trivial

namespace Solver.OfKinds

theorem new : OfKinds K {} := by
  rintro e (he | he)
  · exact absurd he (OrderedSet.not_mem_empty e)
  · exact absurd he List.not_mem_nil

theorem of_adds {p : Program} {a : Addition} (h : s.OfKinds K)
    (ha : ∀ e, a.NewCall e → e.kind.isOrdinary = true ∨ K e.kind) (hadd : s.Adds p a t) :
    t.OfKinds K :=
  fun e he => (hadd.announces_cases he).elim (h e) (ha e)

end Solver.OfKinds

/-- The rules of the analysis add ordinary edges. -/
theorem CoreRule.isOrdinary {a : Addition} {e : CallEdge} (h : CoreRule env s a)
    (he : a.NewCall e) : e.kind.isOrdinary = true := by
  cases h with
  | static =>
      obtain rfl := he
      rfl
  | enter hd _ =>
      obtain rfl := he
      exact isOrdinary_of_ofInvoke? hd.kind
  | object | heapContext | assign | flow | staticContext | access | callContext | wiring =>
      exact he.elim

/-- Plugins that ask only for edges of certain kinds uphold that there are no others. -/
theorem Service.upholds_ofKinds {σ : Type} {P : Plugin σ} {entries : List MethodId} {T : Solver}
    {J : σ → Prop}
    (hP : ∀ {e p}, J p → (P.react env e p).Asks (Request.OfKind K) (fun _ _ => True) J) :
    P.Upholds env entries T (Solver.OfKinds K) J (Request.OfKind K) (fun _ _ => True) where
  enter := fun hs _ e he => hs e (he.imp_left (by simp))
  take := fun hs hq e he => hs e (Solver.announces_of_take hq he)
  rule := fun hs hr hadd _ => hs.of_adds (fun _ he => .inl (hr.isOrdinary he)) hadd
  react := fun _ _ _ hp => hP hp
  answer := fun hs hr h _ =>
    ⟨fun e he => (Request.announces_cases h he).elim (hs e) (by rintro rfl; exact .inr hr), trivial⟩

/-! ## What each plugin asks for -/

/-- The plugin for lambdas asks only for lambda edges. -/
theorem Lambda.ofKind_react (e : Event) (st : State) :
    (react env e st).Asks (Request.OfKind IsLambda) (fun _ _ => True) Any := by
  refine (asks_react e).imp (fun r hr => ?_) fun _ _ => trivial
  cases hr with
  | create | assign | look | wire => trivial
  | handle _ hr => exact hr.flowless.ofKind
  | wake _ hr => exact hr.flowless.ofKind

/-- Forwarding takes no call edges. -/
theorem Reflection.Forwarding.ofKind {p : Program} {A : (r : Request) → r.Answer → Prop} {v : QVar}
    {callee : QMethod} {r : Request} (hr : Forwarding p A v callee r) : r.OfKind K := by
  cases hr <;> trivial

/-- The plugin for reflection asks only for reflective edges. -/
theorem Reflection.ofKind_react (e : Event) (st : State) :
    (react env e st).Asks (Request.OfKind IsReflective) (fun _ _ => True) Any := by
  refine (asks_react e).imp (fun r hr => ?_) fun _ _ => trivial
  cases hr with
  | act _ _ hr => exact hr.flowless.ofKind
  | pass _ _ hr => exact hr.ofKind
  | result => trivial
  | wake _ hr => exact hr.ofKind
  | grown hr => exact hr.flowless.ofKind

/-! ## Analyses -/

namespace Options

/-- The kinds of edges that plugins add where the options ask for them. -/
def Enables (o : Options) (k : CallKind) : Prop :=
  k.IsLambda ∧ o.lambda = true ∨ k.IsReflective ∧ o.reflection = true

end Options

/-- The options ask for the member. -/
def Member.Enabled (o : Options) : Member → Prop
  | lambda _ => o.lambda = true
  | reflection _ => o.reflection = true
  | script _ => False

namespace Member

theorem ofKind_react {o : Options} {m : Member} (hm : m.Enabled o) (e : Event) :
    (plugin.react env e m).Asks (Request.OfKind o.Enables) (fun _ _ => True) (Enabled o) := by
  have hweaken : ∀ {α : Type} {K : CallKind → Prop} {x : Service α},
      x.Asks (Request.OfKind K) (fun _ _ => True) Any → (∀ k, K k → o.Enables k) →
        x.Asks (Request.OfKind o.Enables) (fun _ _ => True) Any := by
    refine fun hx hK => hx.imp (fun r hr => ?_) fun _ _ => trivial
    cases r with
    | addCall e => exact hK _ hr
    | mock | callContext | heapContext | obj | pointsTo | addPointsTo | addFlow | note => trivial
  cases m with
  | lambda st =>
      exact Asks.bind (hweaken (Lambda.ofKind_react e st) fun _ hk => .inl ⟨hk, hm⟩) fun _ _ => hm
  | reflection st =>
      exact Asks.bind (hweaken (Reflection.ofKind_react e st) fun _ hk => .inr ⟨hk, hm⟩)
        fun _ _ => hm
  | script s => exact hm.elim

end Member

namespace Analysis

variable {a : Analysis} {p : Program} {files : Reflection.Files} {entries : List MethodId}
  {m : Machine Member}

/-- Without added plugins the members of an analysis are those that the options ask for. -/
theorem enabled_members {members : List Member} (h : a.members p files = .ok members)
    (hextra : a.extra = []) : ∀ x ∈ members, x.Enabled a.options := by
  intro x hx
  rcases (mem_members h).1 hx with ⟨hon, rfl⟩ | ⟨hon, st, -, rfl⟩ | hx
  · exact hon
  · exact hon
  · rw [hextra] at hx
    exact absurd hx List.not_mem_nil

/-- In every state of a run without added plugins, lambda edges and reflective edges are there
only if the options ask for them. -/
theorem enabled_of_attains (hextra : a.extra = []) (h : a.Attains p files entries m) :
    m.solver.OfKinds a.options.Enables := by
  refine h.keeps (Q := fun m => m.solver.OfKinds a.options.Enables) ?_ ?_
  · rintro m ⟨members, hmembers, talk, hoccurs⟩
    have hupholds : Member.plugin.Upholds (a.setting p) entries m.solver
        (Solver.OfKinds a.options.Enables) (Member.Enabled a.options)
        (Request.OfKind a.options.Enables) (fun _ _ => True) :=
      upholds_ofKinds fun hm => Member.ofKind_react hm _
    exact (hoccurs.upholds hupholds .new (enabled_members hmembers hextra) (.refl _)).solver
  · intro m w rest hq hm e he
    refine hm e (he.imp_right fun he => ?_)
    rw [hq]
    exact List.mem_cons_of_mem _ he

/-- Lambda edges are there only if lambdas are analysed. -/
theorem lambda_of_attains (hextra : a.extra = []) (h : a.Attains p files entries m) {e : CallEdge}
    (he : m.solver.Announces e) (hk : e.kind.IsLambda) : a.options.lambda = true := by
  obtain ⟨call, hk⟩ := hk
  rcases enabled_of_attains hextra h e he with hordinary | ⟨_, hon⟩ | ⟨⟨_, hk'⟩, _⟩
  · rw [hk] at hordinary
    cases hordinary
  · exact hon
  · cases hk.symm.trans hk'

/-- Reflective edges are there only if reflective calls are analysed. -/
theorem reflection_of_attains (hextra : a.extra = []) (h : a.Attains p files entries m)
    {e : CallEdge} (he : m.solver.Announces e) (hk : e.kind.IsReflective) :
    a.options.reflection = true := by
  obtain ⟨call, hk⟩ := hk
  rcases enabled_of_attains hextra h e he with hordinary | ⟨⟨_, hk'⟩, _⟩ | ⟨_, hon⟩
  · rw [hk] at hordinary
    cases hordinary
  · cases hk.symm.trans hk'
  · exact hon

end Analysis

end PointsTo
