import PointsTo.Proofs.Bounds
import PointsTo.Proofs.LambdaRequests

/-!
# The plugin for lambdas keeps to ids within their tables

The plugin keeps tables of its own, and what these mention is in the tables of the program and of
the run as well.  It asks only for ids that it was told of, was answered, or has found in the
program; and it passes values only to parameters that a method has.

Main results:

- {lit}`Lambda.State.Within`: all ids that the plugin remembers are in their tables.
- Theorem {lit}`Lambda.leadsToParam_of_wiring`: values are passed only to parameters that a method
  has.
- Theorem {lit}`Lambda.within_react`: a reaction mentions only ids that are in their tables.
-/

namespace PointsTo

open Service

variable {env : Setting} {p : Program} {T : Sizes}

/-! ## Requests -/

namespace Request

variable {site : QSite} {o : QObj} {m : MethodId} {kind : CallKind} {r : Request}

/-- One object may reach a variable. -/
theorem within_varPointer {c : ContextId} {v : VarId} (hc : c.Within p T) (hv : v.Within p T)
    (ho : o.Within p T) : (addPointsTo (varPointer c v) (.singleton o)).Within p T := by
  refine ⟨⟨hc, hv⟩, fun o' ho' => ?_⟩
  rwa [OrderedSet.mem_singleton.1 ho']

/-- A method may be run at a call site. -/
theorem Runs.within {receiver : Option QObj} (hr : Runs (Yields p T) site receiver m kind r)
    (hsite : site.Within p T) (hreceiver : ∀ o ∈ receiver, o.Within p T) (hm : m.Within p T)
    (hkind : kind.Within p T) : r.Within p T := by
  cases hr with
  | context => exact ⟨hsite, hreceiver⟩
  | edge hc => exact ⟨hsite, ⟨hc, hm⟩, hkind⟩

/-- A method may be run on an object. -/
theorem RunsOn.within (hp : p.Coherent) (hr : RunsOn p (Yields p T) site o m kind r)
    (hsite : site.Within p T) (ho : o.Within p T) (hm : m.Within p T) (hkind : kind.Within p T) :
    r.Within p T := by
  cases hr with
  | run hr =>
      refine hr.within hsite ?_ hm hkind
      rintro _ ⟨⟩
      exact ho
  | receiver hc hthis => exact within_varPointer hc (hp.receiver hthis) ho

end Request

/-! ## Tables of stand-ins -/

namespace MockTable

/-- The stand-ins of a table are on the heap, and what they are made for is within the tables. -/
def Within (p : Program) (T : Sizes) (t : MockTable) : Prop :=
  ∀ x ∈ t.entries, x.1.1.Within p T ∧ x.2.Within p T

variable {t t' : MockTable} {i : InvokeId} {type : JavaType}

/-- A new table has no entries that could be out of range. -/
theorem within_new (kind : MockKind) : (new kind).Within p T :=
  fun _ h => absurd h List.not_mem_nil

/-- A stand-in for a call site of the program may be made. -/
theorem within_wanted (hp : p.Coherent) (hi : i.Within p T) :
    (t.wanted p i type).obj.Within p T := by
  refine ⟨hi, ?_⟩
  rintro _ ⟨⟩
  exact (hp.call hi).container

/-- The stand-ins that a table hands out are on the heap. -/
theorem Within.hands {o : ObjId} (ht : t.Within p T)
    (ho : t.Hands p (Request.Yields p T) i type o) : o.Within p T :=
  ho.elim (fun ho => (ht _ ho).2) id

/-- A table that is filled for call sites of the program stays within the tables. -/
theorem Within.of_fills {W : InvokeId → Prop} (ht : t.Within p T)
    (h : t.Fills p (Request.Yields p T) W t') (hW : ∀ i, W i → i.Within p T) : t'.Within p T := by
  intro x hx
  rcases h.entries x hx with hx | ⟨i, _, hi, hkey, ho⟩
  · exact ht x hx
  · rw [hkey]
    exact ⟨hW i hi, ho⟩

end MockTable

/-! ## Lambdas -/

/-- The edge leads to the parameter at a position below the number of parameters. -/
def FlowEdge.LeadsToParam (f : FlowEdge) (m : Method) (c : ContextId) : Prop :=
  ∃ (j : Nat) (hj : j < m.params.length), f.target = varPointer c m.params[j]

namespace Lambda

/-! ### Wiring -/

section Wiring

variable {e : CallEdge} {call : LambdaCall} {f : FlowEdge}

/-- Along a lambda edge, values are passed only to parameters that the method has. -/
theorem leadsToParam_of_wiring (hf : f ∈ wiring p e call) (hkind : f.kind = .parameterPassing) :
    f.LeadsToParam (p.method e.callee.item) e.callee.context := by
  cases mem_wiring.1 hf with
  | param _ hparam =>
      obtain ⟨hj, hget⟩ := List.getElem?_eq_some_iff.1 hparam
      exact ⟨_, hj, by rw [hget]⟩
  | receiver | result => cases hkind

/-- The flow along a lambda edge is within the tables. -/
theorem within_of_wiring (hp : p.Coherent) (he : e.Within p T) (hk : e.kind = .lambda call)
    (hf : f ∈ wiring p e call) : f.Within p T := by
  have hkind := he.kind
  rw [hk] at hkind
  obtain ⟨hcaptured, hcontext, hresult⟩ := hkind
  have hsources : ∀ source ∈ sources p e call, source.Within p T := by
    intro source hsource
    rcases mem_sources.1 hsource with ⟨v, hv, rfl⟩ | ⟨v, hv, rfl⟩
    · exact ⟨hcontext, hcaptured v hv⟩
    · exact ⟨he.site.1, (hp.call he.site.2).args v hv⟩
  cases mem_wiring.1 hf with
  | receiver _ hsource hthis =>
      exact ⟨hsources _ (List.mem_of_getElem? hsource), he.callee.1, hp.receiver hthis⟩
  | param hsource hparam =>
      exact ⟨hsources _ (List.mem_of_getElem? hsource), he.callee.1,
        hp.param (List.mem_of_getElem? hparam)⟩
  | result hr hv => exact ⟨⟨he.callee.1, hp.returned hv⟩, he.site.1, hresult _ hr⟩

end Wiring

/-! ### What is remembered -/

/-- What waits is about a call site of the program, and carries ids within their tables. -/
structure PendingCall.Within (p : Program) (T : Sizes) (r : PendingCall) : Prop where
  site : r.site.Within p T
  call : (CallKind.lambda r.call).Within p T

/-- All ids that the plugin remembers are in their tables. -/
structure State.Within (p : Program) (T : Sizes) (st : State) : Prop where
  created : ∀ x ∈ st.created, x.1.Within p T ∧ x.2.1.Within p T ∧ x.2.2.Within p T
  constructed : st.constructed.Within p T
  pending : ∀ {v r}, (v, r) ∈ st.pending.pairs → v.Within p T ∧ r.Within p T

theorem State.within_new : State.Within p T {} :=
  ⟨fun _ h => absurd h List.not_mem_nil, MockTable.within_new _,
    fun h => absurd h (OrderedSet.not_mem_empty _)⟩

/-! ### What is asked for -/

section Requests

variable {st st' : State} {maker : InvokeId} {site : QSite} {handle : MethodHandle}
  {call : LambdaCall} {v : QVar} {r : Request}

/-- The receiver of an instance method is a captured value or an argument. -/
theorem within_of_receiverVar? {captured args : List VarId} {c d : ContextId}
    (h : receiverVar? captured args c d = some v) (hc : c.Within p T) (hd : d.Within p T)
    (hcaptured : ∀ w ∈ captured, w.Within p T) (hargs : ∀ w ∈ args, w.Within p T) :
    v.Within p T := by
  unfold receiverVar? at h
  split at h
  · cases h
    exact ⟨hc, hcaptured _ List.mem_cons_self⟩
  · cases h
    exact ⟨hd, hargs _ List.mem_cons_self⟩
  · cases h

/-- Calls in the body of a method are at call sites of the program. -/
theorem call_of_mem_invokesIn (hp : p.Coherent) {m : MethodId} {call : Invoke}
    (h : call ∈ p.invokesIn m) : call.Within p T := by
  obtain ⟨i, hi, rfl⟩ := Program.mem_invokesIn.1 h
  exact hp.call (hp.site ⟨m, hi⟩)

/-- A call that waits may be run on what its receiver refers to. -/
theorem Resolving.within {waiting : PendingCall}
    (hr : Resolving p (Request.Yields p T) v waiting r) (hp : p.Coherent) (hv : v.Within p T)
    (hwaiting : waiting.Within p T) : r.Within p T := by
  cases hr with
  | receivers => exact hv
  | look hos ho => exact (hos _ ho).2
  | run hos ho _ hm hr =>
      refine hr.within hwaiting.site ?_ (hp.method (Program.lists_of_pendingTarget? hm))
        hwaiting.call
      rintro _ ⟨⟩
      exact hos _ ho

section Handles

variable (hp : env.program.Coherent) (hmaker : maker.Within env.program T)
  (hsite : site.Within env.program T) (hcall : (CallKind.lambda call).Within env.program T)

include hp hsite hcall

/-- The variable that provides the receiver of a handle is one of the call or of its lambda. -/
theorem within_of_waits (hv : receiverVar? call.captured (env.program.invoke site.item).args
      call.lambdaContext site.context = some v) : v.Within env.program T :=
  within_of_receiverVar? hv hcall.2.1 hsite.1 hcall.1 (hp.call hsite.2).args

include hmaker

/-- The method of a handle is one that the program lists. -/
theorem Handling.within
    (hr : Handling env (Request.Yields env.program T) st maker site handle call r)
    (hst : st.Within env.program T) : r.Within env.program T := by
  cases hr with
  | construct _ hr =>
      cases hr with
      | make => exact MockTable.within_wanted hp hmaker
      | result hi hv =>
          exact Request.within_varPointer hsite.1 ((hp.call hsite.2).result _ hv)
            ⟨hsite.1, hst.constructed.hands hi⟩
      | run hi hm hr =>
          exact hr.within hp hsite ⟨hsite.1, hst.constructed.hands hi⟩
            (hp.method (Program.lists_of_resolve? hm)) hcall
  | static _ hm hr =>
      exact hr.within hsite (by simp) (hp.method (Program.lists_of_resolve? hm)) hcall
  | resolve _ hv hr => exact hr.within hp (within_of_waits hp hsite hcall hv) ⟨hsite, hcall⟩

/-- What is remembered stays within the tables when the method of a handle was run. -/
theorem State.Within.of_handled (hst : st.Within env.program T)
    (hst' : Handled env (Request.Yields env.program T) st maker site handle call st') :
    st'.Within env.program T := by
  cases hst' with
  | same => exact hst
  | constructed htable =>
      refine { hst with constructed := hst.constructed.of_fills htable ?_ }
      rintro _ rfl
      exact hmaker
  | waiting _ hv =>
      refine { hst with pending := fun hmem => ?_ }
      rcases Waitlist.mem_register.1 hmem with heq | hmem
      · cases heq
        exact ⟨within_of_waits hp hsite hcall hv, hsite, hcall⟩
      · exact hst.pending hmem

end Handles

/-- A call on a lambda object captures what the site that made the object says. -/
theorem Calls.within {o : QObj} {i : InvokeId}
    (h : Calls p (Request.Yields p T) o i maker handle call) (hp : p.Coherent)
    (ho : o.Within p T) (hi : i.Within p T) :
    maker.Within p T ∧ (CallKind.lambda call).Within p T := by
  obtain ⟨⟨x, hx, hfits⟩, rfl⟩ := h
  have hmaker : maker.Within p T := hx.site hfits.mock
  exact ⟨hmaker, (hp.call hmaker).args, ho.1, (hp.call hi).result⟩

end Requests

/-! ### Reactions -/

section Reactions

variable {st : State} {e : Event} (hp : env.program.Coherent) (he : e.Within env.program T)
  (hst : st.Within env.program T)

include hp he hst

/-- A reaction asks only for ids that are in their tables. -/
theorem Asked.within {r : Request} (hr : Asked env (Request.Yields env.program T) st e r) :
    r.Within env.program T := by
  cases hr with
  | create hcall =>
      refine ⟨(call_of_mem_invokesIn (T := T) hp hcall).id, ?_⟩
      rintro _ ⟨⟩
      exact he
  | assign hmem hresult =>
      obtain ⟨_, hi, ho⟩ := hst.created _ hmem
      exact Request.within_varPointer he.1 ((hp.call hi).result _ hresult) ⟨he.1, ho⟩
  | look => exact he.1.2
  | handle hcalls hr =>
      obtain ⟨hmaker, hcall⟩ := hcalls.within hp he.1 he.2.2
      refine hr.within hp hmaker ?_ hcall hst
      exact he.2
  | wake hmem hr => exact hr.within hp he.1 (hst.pending hmem).2
  | wire hk hf => exact within_of_wiring hp he hk hf

/-- What is remembered after a reaction is in the tables, too. -/
theorem State.Within.of_became {st' : State}
    (hst' : Became env (Request.Yields env.program T) st e st') : st'.Within env.program T := by
  cases hst' with
  | same => exact hst
  | created hcreated =>
      refine { hst with created := fun x hx => ?_ }
      rcases List.mem_append.1 hx with hx | hx
      · exact hst.created x hx
      · obtain ⟨call, hcall, d, _, _, howner, hid, ho⟩ := hcreated x hx
        exact ⟨howner ▸ he, hid ▸ (call_of_mem_invokesIn hp hcall).id, ho⟩
  | handled hcalls hst' =>
      obtain ⟨hmaker, hcall⟩ := hcalls.within hp he.1 he.2.2
      refine State.Within.of_handled hp hmaker ?_ hcall hst hst'
      exact he.2

/-- A reaction mentions only ids that are in their tables, and leaves the plugin with such. -/
theorem within_react :
    (react env e st).Within env.program T (State.Within env.program T) :=
  (asks_react e).imp (fun _ hr => hr.within hp he hst) fun _ hst' => hst.of_became hp he hst'

end Reactions

end Lambda

end PointsTo
