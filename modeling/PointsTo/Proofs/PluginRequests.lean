import PointsTo.Proofs.Conversations

/-!
# What plugins may ask for

What a plugin asks for depends on its state, on the event and on the answers that it has been
given.  Reading this off from its code once is enough: whatever has to hold of the requests, be it
that ids are within their tables or that calls have a reason, is then a question about the requests
that are listed, and no longer one about the code.

Answers are known by a relation {lit}`A` between requests and answers, so that a later request can
say which answer it goes back to.

Main definitions:

- {lit}`Request.Runs`, {lit}`Request.RunsOn`: what is asked for to run a method, on an object or
  without one.
- {lit}`MockTable.Hands`, {lit}`MockTable.Fills`: what a table of stand-ins hands out, and what it
  holds afterwards; theorem {lit}`MockTable.asks_getOrCreate`.
-/

namespace PointsTo

variable {R : Request → Prop} {A : (r : Request) → r.Answer → Prop} {p : Program}

/-! ## Running methods -/

namespace Request

/-- What is asked for to run a method at a call site: the context of the call, and then the edge
that leads to the method under this context. -/
inductive Runs (A : (r : Request) → r.Answer → Prop) (site : QSite) (receiver : Option QObj)
    (m : MethodId) (kind : CallKind) : Request → Prop
  | context : Runs A site receiver m kind (.callContext site receiver)
  | edge {c} (hc : A (.callContext site receiver) c) :
      Runs A site receiver m kind (.addCall ⟨site, ⟨c, m⟩, kind⟩)

/-- What is asked for to run a method on an object that is to be its receiver. -/
inductive RunsOn (p : Program) (A : (r : Request) → r.Answer → Prop) (site : QSite) (o : QObj)
    (m : MethodId) (kind : CallKind) : Request → Prop
  | run {r} (hr : Runs A site (some o) m kind r) : RunsOn p A site o m kind r
  | receiver {c this} (hc : A (.callContext site (some o)) c)
      (hthis : (p.method m).receiver = some this) :
      RunsOn p A site o m kind (.addPointsTo (varPointer c this) (.singleton o))

end Request

namespace Service

variable {α : Type} {Q : α → Prop} {site : QSite} {m : MethodId} {kind : CallKind}

/-- A single request, and the answer to it. -/
theorem asks_request {r : Request} (hr : R r) : (ask r done).Asks R A (A r) :=
  ⟨hr, fun _ ha => ha⟩

/-- What is known of the requests of a conversation, and of its end, may be put to use. -/
theorem Asks.imp {R' : Request → Prop} {Q' : α → Prop} {x : Service α} (hx : x.Asks R A Q)
    (hR : ∀ r, R r → R' r) (hQ : ∀ a, Q a → Q' a) : x.Asks R' A Q' := by
  induction x with
  | done a => exact hQ a hx
  | fail e => trivial
  | ask r next ih => exact ⟨hR r hx.1, fun answer ha => ih answer (hx.2 answer ha)⟩

/-- A method is run: a context is asked for, and then the edge. -/
theorem asks_runs {receiver : Option QObj} (hR : ∀ r, Request.Runs A site receiver m kind r → R r) :
    (do
      let c ← callContext site receiver
      addCall ⟨site, ⟨c, m⟩, kind⟩ : Service Unit).Asks R A Any := by
  refine Asks.bind (asks_request (hR _ .context)) fun c hc => ?_
  exact (asks_request (hR _ (.edge hc))).mono fun _ _ => trivial

/-- A method is run on an object before a conversation goes on. -/
theorem asks_runsOn {o : QObj} {x : Service α}
    (hR : ∀ r, Request.RunsOn p A site o m kind r → R r) (hx : x.Asks R A Q) :
    (do
      let c ← callContext site (some o)
      (p.method m).receiver.forM fun this => addVarObj c this o
      addCall ⟨site, ⟨c, m⟩, kind⟩
      x).Asks R A Q := by
  refine Asks.bind (asks_request (hR _ (.run .context))) fun c hc => ?_
  refine Asks.bind (asks_option_forM fun this hthis => ?_) fun _ _ => ?_
  · exact (asks_request (hR _ (.receiver hc hthis))).mono fun _ _ => trivial
  · exact Asks.bind (asks_request (hR _ (.run (.edge hc)))) fun _ _ => hx

end Service

/-! ## Tables of stand-ins -/

namespace MockTable

/-- The stand-in that a table asks for, for a call site and a type. -/
def wanted (p : Program) (t : MockTable) (i : InvokeId) (type : JavaType) : MockObj where
  kind := t.kind
  site := .invoke i
  type := type
  container := some (p.invoke i).container

/-- An id that a table hands out for a call site and a type: one that it holds, or the answer to
its request. -/
def Hands (p : Program) (A : (r : Request) → r.Answer → Prop) (t : MockTable) (i : InvokeId)
    (type : JavaType) (o : ObjId) : Prop :=
  ((.invoke i, type), o) ∈ t.entries ∨ A (.mock (t.wanted p i type)) o

/-- A table afterwards: its new entries are the answers to its requests, for call sites that are as
{lit}`W` says. -/
structure Fills (p : Program) (A : (r : Request) → r.Answer → Prop) (W : InvokeId → Prop)
    (t t' : MockTable) : Prop where
  kind : t'.kind = t.kind
  entries : ∀ x ∈ t'.entries, x ∈ t.entries ∨
    ∃ i type, W i ∧ x.1 = (.invoke i, type) ∧ A (.mock (t.wanted p i type)) x.2

variable {W W' : InvokeId → Prop} {t t' t'' : MockTable} {i : InvokeId} {type : JavaType}
  {o : ObjId}

/-- Tables of one kind want the same stand-ins. -/
theorem wanted_eq (h : t'.kind = t.kind) (i : InvokeId) (type : JavaType) :
    t'.wanted p i type = t.wanted p i type := by
  simp only [wanted, h]

namespace Fills

theorem refl (t : MockTable) : t.Fills p A W t := ⟨rfl, fun _ hx => .inl hx⟩

theorem mono (h : t.Fills p A W t') (hW : ∀ i, W i → W' i) : t.Fills p A W' t' where
  kind := h.kind
  entries := fun x hx => (h.entries x hx).imp_right fun ⟨i, type, hi, hnew⟩ =>
    ⟨i, type, hW i hi, hnew⟩

theorem trans (h : t.Fills p A W t') (h' : t'.Fills p A W t'') : t.Fills p A W t'' where
  kind := h'.kind.trans h.kind
  entries := by
    intro x hx
    rcases h'.entries x hx with hx | ⟨i, type, hi, hkey, ho⟩
    · exact h.entries x hx
    · exact .inr ⟨i, type, hi, hkey, wanted_eq h.kind i type ▸ ho⟩

/-- What is handed out later on could have been handed out from the start. -/
theorem hands (h : t.Fills p A W t') (ho : t'.Hands p A i type o) : t.Hands p A i type o := by
  rcases ho with ho | ho
  · rcases h.entries _ ho with ho | ⟨_, _, _, hkey, ho⟩
    · exact .inl ho
    · cases hkey
      exact .inr ho
  · exact .inr (wanted_eq h.kind i type ▸ ho)

end Fills

/-- A table asks for the stand-in that it hands out, if it does not hold it. -/
theorem asks_getOrCreate (hR : R (.mock (t.wanted p i type))) :
    (t.getOrCreate (.invoke i) type (some (p.invoke i).container)).Asks R A fun x =>
      t.Hands p A i type x.1 ∧ t.Fills p A (· = i) x.2 := by
  unfold getOrCreate
  split
  · rename_i o ho
    exact ⟨.inl (mem_of_find? ho), .refl t⟩
  · refine Service.Asks.bind (Service.asks_request hR) fun o ho => ⟨.inr ho, rfl, fun x hx => ?_⟩
    rcases List.mem_append.1 hx with hx | hx
    · exact .inl hx
    · obtain rfl := List.mem_singleton.1 hx
      exact .inr ⟨i, type, rfl, rfl, ho⟩

end MockTable

end PointsTo
