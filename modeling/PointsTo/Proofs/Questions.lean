import PointsTo.Proofs.Requests

/-!
# What conversations ask for

A conversation may be known to ask only for certain things, as long as it is only given certain
answers.  This can be read off from the conversation alone, from its parts to the whole, and it
says what becomes of a state on which the conversation is carried out.

Main results:

- {lit}`Service.Asks`: a conversation asks only for certain things.
- Theorem {lit}`Service.Asks.run_ok`: it keeps what these things keep.
- Theorems {lit}`Service.Asks.bind`, {lit}`Service.asks_foldlM` and their like: how conversations
  are put together.
- {lit}`Service.Neutral`, and theorem {lit}`Service.Neutral.evolves`: a conversation that asserts
  nothing leaves the facts alone.
-/

namespace PointsTo

namespace Service

/-- A conversation asks only for what is as {lit}`R` says while the answers are as {lit}`A` says,
and ends with a value that is as {lit}`Q` says. -/
def Asks (R : Request → Prop) (A : (r : Request) → r.Answer → Prop) {α : Type} (Q : α → Prop) :
    Service α → Prop
  | done a => Q a
  | fail _ => True
  | ask r next => R r ∧ ∀ answer, A r answer → (next answer).Asks R A Q

/-- The end of a conversation that reports nothing in particular. -/
abbrev Any {α : Type} (_ : α) : Prop := True

variable {R : Request → Prop} {A : (r : Request) → r.Answer → Prop} {α β : Type} {Q : α → Prop}
  {S : β → Prop}

/-- What every request keeps, and every answer is like, is so for the whole conversation. -/
theorem Asks.run_ok {env : Setting} {I : Solver → Prop} {x : Service α} {a : α} {s t : Solver}
    (hanswer : ∀ {r : Request} {answer u v}, R r → I u → r.answer env u = .ok answer v →
      I v ∧ A r answer)
    (hx : x.Asks R A Q) (hs : I s) (h : x.run env s = .ok a t) : I t ∧ Q a := by
  induction x generalizing s with
  | done b =>
      obtain ⟨rfl, rfl⟩ := pure_eq_ok.1 h
      exact ⟨hs, hx⟩
  | fail e => exact (throw_eq_ok.1 h).elim
  | ask r next ih =>
      rw [run_ask, bind_eq_ok] at h
      obtain ⟨answer, u, hr, hnext⟩ := h
      obtain ⟨hu, ha⟩ := hanswer hx.1 hs hr
      exact ih answer (hx.2 answer ha) hu hnext

/-! ## How conversations are put together -/

/-- A conversation ends with whatever follows from how it ends. -/
theorem Asks.mono {Q' : α → Prop} {x : Service α} (hx : x.Asks R A Q) (hQ : ∀ a, Q a → Q' a) :
    x.Asks R A Q' := by
  induction x with
  | done a => exact hQ a hx
  | fail e => trivial
  | ask r next ih => exact ⟨hx.1, fun answer ha => ih answer (hx.2 answer ha)⟩

/-- A conversation may go on with what its end allows. -/
theorem Asks.bind {x : Service α} {f : α → Service β} (hx : x.Asks R A Q)
    (hf : ∀ a, Q a → (f a).Asks R A S) : (x >>= f).Asks R A S := by
  induction x with
  | done a => exact hf a hx
  | fail e => trivial
  | ask r next ih => exact ⟨hx.1, fun answer ha => ih answer (hx.2 answer ha)⟩

/-- A loop asks only for what its steps ask for. -/
theorem asks_forM {f : α → Service PUnit} {l : List α} (hf : ∀ a ∈ l, (f a).Asks R A Any) :
    (l.forM f).Asks R A Any := by
  induction l with
  | nil => trivial
  | cons a l ih =>
      refine Asks.bind (hf a List.mem_cons_self) fun _ _ => ?_
      exact ih fun b hb => hf b (List.mem_cons_of_mem _ hb)

/-- So does a step that may be left out. -/
theorem asks_option_forM {f : α → Service PUnit} {o : Option α}
    (hf : ∀ a ∈ o, (f a).Asks R A Any) : (o.forM f).Asks R A Any := by
  cases o with
  | none => trivial
  | some a => exact hf a rfl

/-- A loop with an accumulator keeps what every step keeps. -/
theorem asks_foldlM {f : β → α → Service β} {l : List α} {b : β} (hb : S b)
    (hf : ∀ a ∈ l, ∀ b, S b → (f b a).Asks R A S) : (l.foldlM f b).Asks R A S := by
  induction l generalizing b with
  | nil => exact hb
  | cons a l ih =>
      rw [List.foldlM_cons]
      refine Asks.bind (hf a List.mem_cons_self b hb) fun c hc => ?_
      exact ih hc fun a' ha' => hf a' (List.mem_cons_of_mem _ ha')

/-- What is known of every value that a loop collects is known of all that it has collected. -/
theorem asks_mapM_forall {f : α → Service β} {l : List α} (hf : ∀ a ∈ l, (f a).Asks R A S) :
    (l.mapM f).Asks R A fun bs => ∀ b ∈ bs, S b := by
  induction l with
  | nil => exact fun b hb => absurd hb List.not_mem_nil
  | cons a l ih =>
      rw [List.mapM_cons]
      refine Asks.bind (hf a List.mem_cons_self) fun b hb => ?_
      refine Asks.bind (ih fun c hc => hf c (List.mem_cons_of_mem _ hc)) fun bs hbs => ?_
      exact List.forall_mem_cons.2 ⟨hb, hbs⟩

/-- So it is with values that may be left out. -/
theorem asks_filterMapM_forall {f : α → Service (Option β)} {l : List α}
    (hf : ∀ a ∈ l, (f a).Asks R A fun b? => ∀ b ∈ b?, S b) :
    (l.filterMapM f).Asks R A fun bs => ∀ b ∈ bs, S b := by
  induction l with
  | nil => exact fun b hb => absurd hb List.not_mem_nil
  | cons a l ih =>
      have hl := ih fun b hb => hf b (List.mem_cons_of_mem _ hb)
      rw [List.filterMapM_cons]
      refine Asks.bind (hf a List.mem_cons_self) fun b? hb => ?_
      cases b? with
      | none => exact hl
      | some b =>
          exact Asks.bind hl fun bs hbs => List.forall_mem_cons.2 ⟨hb b rfl, hbs⟩

end Service

/-! ## Conversations that assert nothing -/

/-- The request adds no fact about pointers, flow or calls. -/
def Request.Neutral (r : Request) : Prop := r.fact? = none

/-- The conversation adds no fact about pointers, flow or calls, whatever it is answered. -/
def Service.Neutral {α : Type} (x : Service α) : Prop :=
  x.Asks Request.Neutral (fun _ _ => True) Service.Any

section Neutral

variable {env : Setting} {p : Program} {s t : Solver}

/-- A neutral conversation changes no facts. -/
theorem Service.Neutral.evolves {α : Type} {x : Service α} {a : α} (hx : x.Neutral)
    (h : x.run env s = .ok a t) : s.Evolves env.program (fun _ a => a.Neutral) t := by
  refine (hx.run_ok (I := fun u => s.Evolves env.program (fun _ a => a.Neutral) u) ?_ (.refl s) h).1
  intro r answer u v hr hu hanswer
  refine ⟨hu.trans (Request.evolves_by hanswer id fun x hx => ?_), trivial⟩
  exact absurd (hr.symm.trans hx) (by simp)

/-- Without facts that are added nothing new waits. -/
theorem Solver.Evolves.queue_eq (h : s.Evolves p (fun _ a => a.Neutral) t) :
    t.queue = s.queue := by
  refine h.keeps (I := fun u => u.queue = s.queue) ?_ rfl
  intro u a v hu ha hadd
  cases a with
  | points | flow | enter | call => exact ha.elim
  | object | context =>
      obtain ⟨_, _, _, rfl⟩ := hadd
      exact hu
  | note line =>
      obtain rfl := hadd
      exact hu

end Neutral

end PointsTo
