import PointsTo.Proofs.Closure
import PointsTo.Proofs.Derivations

/-!
# Runs without plugins find the least fixpoint

A run without plugins finds nothing but what the rules of the analysis derive from the
entry methods, and everything that they derive.  Read without ids, its facts are the least
family that contains the entry methods and is closed under the rules.

Main results:

- {lit}`Machine.Precise`: the invariant of a run without plugins; theorem
  {lit}`Machine.precise_of_visits`.
- Theorem {lit}`Reading.closed_facts`: the facts of a closed state, read without ids, are
  closed.
- Theorem {lit}`Analysis.least_of_runFrom`: an analysis without lambdas, reflection and added
  plugins yields the least closed family of facts.
-/

namespace PointsTo

variable {env : Setting} {s t : Solver}

/-! ## Elements of contexts -/

/-- Contexts of objects are made of objects that exist. -/
def Solver.Marked (env : Setting) (s : Solver) : Prop :=
  env.selector.strategy = .object → ∀ c, ∀ n ∈ (s.contexts.get c).elements, s.heap.Has ⟨n⟩

namespace Solver.Marked

/-- At the beginning nothing is marked. -/
theorem new : Solver.Marked env {} := by
  intro _ c n hn
  rw [show (({} : Solver).contexts.get c) = .empty from ContextTable.get_new c] at hn
  exact absurd hn List.not_mem_nil

/-- Where the contexts are the same, and all objects still exist, nothing changes. -/
theorem of_eq (h : s.Marked env) (hcontexts : t.contexts = s.contexts)
    (hheap : s.heap.Grows t.heap) : t.Marked env := by
  intro ho c n hn
  rw [hcontexts] at hn
  exact (h ho c n hn).of_grows hheap

/-- An object that is appended to a context exists, and no other elements are new. -/
theorem of_wanted {receiver : Option QObj} {site : QSite} {w : Context} (h : s.Marked env)
    (hs : env.selector.strategy = .object) (hreceiver : ∀ o ∈ receiver, s.settled.HasObj o)
    (hw : env.selector.wanted? env.program s.heap s.contexts site receiver = some w) :
    ∀ n ∈ w.elements, s.heap.Has ⟨n⟩ := by
  unfold Selector.wanted? at hw
  rw [hs] at hw
  cases receiver with
  | none => cases hw
  | some o =>
      cases hw
      intro n hn
      have hn' := (Context.keepLast_suffix _ _).subset hn
      rcases List.mem_append.1 hn' with hn | hn
      · exact h hs _ n hn
      · obtain rfl := List.mem_singleton.1 hn
        exact (hreceiver o rfl).2

/-- A context that the rules of the analysis add is made of objects that exist. -/
theorem of_context {w : Context} (h : s.Marked env) (hs : env.selector.strategy = .object)
    (hscoped : s.Scoped) (ha : CoreRule env s (.context w)) :
    ∀ n ∈ w.elements, s.heap.Has ⟨n⟩ := by
  cases ha with
  | heapContext hx ho hw =>
      unfold Selector.wantedHeap? at hw
      split at hw
      · cases hw
      · cases hw
        intro n hn
        exact h hs _ n ((Context.keepLast_suffix _ _).subset hn)
  | staticContext hx ht hw => exact of_wanted h hs (by simp) hw
  | callContext hd hw =>
      refine of_wanted h hs ?_ hw
      rintro _ ⟨⟩
      exact hscoped.obj hd.points

/-- Contexts that are made of objects that exist may be added. -/
theorem of_adds {a : Addition} (h : s.Marked env) (hadd : s.Adds env.program a t)
    (hnew : env.selector.strategy = .object → ∀ w, a = .context w →
      ∀ n ∈ w.elements, s.heap.Has ⟨n⟩) : t.Marked env := by
  intro hs c n hn
  refine Interned.Has.of_grows (t := s.heap) ?_ hadd.accretes.heap
  cases hget : t.contexts.get? c with
  | none =>
      simp only [ContextTable.get, hget] at hn
      exact absurd hn List.not_mem_nil
  | some w =>
      rw [ContextTable.get_of_get? hget] at hn
      rcases hadd.contexts_cases hget with hold | rfl
      · exact h hs c n (by rwa [ContextTable.get_of_get? hold])
      · exact hnew hs w rfl n hn

/-- The rules of the analysis make contexts of objects that exist. -/
theorem of_coreRule {a : Addition} (h : s.Marked env) (hscoped : s.Scoped)
    (ha : CoreRule env s a) (hadd : s.Adds env.program a t) : t.Marked env :=
  h.of_adds hadd fun hs _ hw => h.of_context hs hscoped (hw ▸ ha)

end Solver.Marked

/-! ## Runs without plugins -/

namespace Machine

variable {σ : Type} {P : Plugin σ} {m n : Machine σ} {entries : List MethodId}

/-- Without plugins only the rules of the analysis act. -/
theorem evolves_of_acts (ha : Acts P env m n) (hm : m.plugins = []) :
    m.solver.Evolves env.program (CoreRule env) n.solver ∧ n.plugins = [] := by
  induction ha with
  | refl => exact ⟨.refl _, hm⟩
  | tail _ hstep ih =>
      obtain ⟨hevolves, hnone⟩ := ih
      cases hstep with
      | rule h => exact ⟨hevolves.trans h, hnone⟩
      | react => exact absurd hnone (by simp)

/-- There are no plugins, all ids that are mentioned exist, and all facts are in every closed
family, with whatever later tables they are read. -/
structure Precise (env : Setting) (entries : List MethodId) (m : Machine σ) : Prop where
  plugins : m.plugins = []
  ids : m.solver.Scoped
  start : ContextTable.new.Grows m.solver.contexts
  marked : m.solver.Marked env
  derived : ∀ {r F}, Reading.Reads r env m.solver → F.Closed env.program env.selector entries →
    Derived r F m.solver

namespace Precise

/-- At the beginning there is nothing that a closed family could lack. -/
theorem new : Precise env entries (.new ([] : List σ)) :=
  ⟨rfl, .new, .refl _, .new, fun _ _ => .new⟩

/-- What is known stays in every closed family while a machine acts. -/
theorem of_acts (h : Precise env entries m) (hb : env.program.Built) (ha : Acts P env m n) :
    Precise env entries n := by
  obtain ⟨hevolves, hnone⟩ := evolves_of_acts ha h.plugins
  have hboth := hevolves.keeps (I := fun s => s.Scoped ∧ s.Marked env)
    (fun ⟨hs, hmarked⟩ hrule hadd =>
      ⟨hs.of_adds (hrule.exists hs) hadd, hmarked.of_coreRule hs hrule hadd⟩) ⟨h.ids, h.marked⟩
  refine ⟨hnone, hboth.1, h.start.trans ha.accretes.contexts, hboth.2, ?_⟩
  intro r F hr hF
  exact (h.derived (hr.of_le hevolves.extends.settled) hF).of_evolves hF hb hr h.ids hevolves

/-- One round of the main loop derives facts only. -/
theorem of_process {w : WorkItem} {rest : List WorkItem} (h : Precise env entries m)
    (hb : env.program.Built) (hq : m.solver.queue = w :: rest)
    (hp : process P env w { m with solver := { m.solver with queue := rest } } = .ok ⟨⟩ n) :
    Precise env entries n := by
  have hle := (Solver.extends_take env.program hq).settled
  have htaken : Precise env entries (m.taken env w rest) := by
    refine ⟨h.plugins, h.ids.of_take hq, h.start.trans hle.contexts, ?_, ?_⟩
    · exact h.marked.of_eq (Solver.contexts_take ..) hle.heap
    · exact fun hr hF => (h.derived (hr.of_le hle) hF).of_take hF (hr.of_le hle) h.ids hq
  exact htaken.of_acts hb (process_acts hp (h.ids.exists_of_queue hq))

/-- Entry methods are in every closed family. -/
theorem of_reach {i : MethodId} (h : Precise env entries m) (hb : env.program.Built)
    (hi : i ∈ entries) (hr : reach P env ⟨emptyContext, i⟩ m = .ok ⟨⟩ n) :
    Precise env entries n := by
  rcases reach_ok hr h.ids.empty with ⟨_, rfl⟩ | hentered
  · exact h
  · have hfound : Precise env entries (m.discover ⟨emptyContext, i⟩) := by
      refine ⟨h.plugins, h.ids.of_discover h.ids.empty, h.start, h.marked, ?_⟩
      intro r F hreads hF
      have hreads' : r.Reads env m.solver :=
        ⟨hreads.strategy, hreads.heap, hreads.contexts, hreads.empty⟩
      refine (h.derived hreads' hF).of_discover ?_
      rw [Reading.under, hreads'.marks_empty]
      exact hF.entry i hi
    exact hfound.of_acts hb hentered.acts

end Precise

/-- At every stage of a run without plugins all facts are in every closed family. -/
theorem precise_of_visits {stage : Stage σ} (hb : env.program.Built)
    (h : Visits P env entries (.new []) stage) : Precise env entries stage.machine := by
  obtain ⟨m, hm, hrun⟩ := h
  induction hrun with
  | refl =>
      refine keeps_of_enter hm ?_ ?_
      · exact fun htell => Precise.new.of_acts hb (tell_acts htell trivial)
      · exact fun hi hu hreach => hu.of_reach hb hi hreach
  | tail _ hstep ih =>
      cases hstep with
      | work hq hp => exact ih.of_process hb hq hp
      | finish _ ht => exact ih.of_acts hb (tell_acts ht trivial)

end Machine

/-! ## Ids that exist are told apart -/

/-- Lists are the same if a function tells their elements apart and gives the same lists. -/
private theorem eq_of_map_eq {α β : Type} {f : α → β} {l k : List α}
    (hf : ∀ a ∈ l, ∀ b ∈ k, f a = f b → a = b) (h : l.map f = k.map f) : l = k := by
  induction l generalizing k with
  | nil => exact (List.map_eq_nil_iff.1 h.symm).symm
  | cons a l ih =>
      cases k with
      | nil => cases h
      | cons b k =>
          obtain ⟨hhead, htail⟩ := List.cons.inj h
          have hab := hf a List.mem_cons_self b List.mem_cons_self hhead
          have hlk := ih (fun a ha b hb =>
            hf a (List.mem_cons_of_mem _ ha) b (List.mem_cons_of_mem _ hb)) htail
          rw [hab, hlk]

/-- An id that denotes something denotes it in the reading that goes by default. -/
private theorem Heap.get?_eq_some_get {h : Heap} {i : ObjId} (hi : h.Has i) :
    h.get? i = some (h.get i) := by
  obtain ⟨x, hx⟩ := hi
  rw [Heap.get_of_get? hx, hx]

/-- A context that exists is the one that its id is looked up as. -/
private theorem ContextTable.get?_eq_some_get {t : ContextTable} {c : ContextId} (hc : t.Has c) :
    t.get? c = some (t.get c) := by
  obtain ⟨w, hw⟩ := hc
  rw [ContextTable.get_of_get? hw, hw]

/-- The reading of a state by its own tables. -/
def Solver.reading (strategy : Strategy) (s : Solver) : Reading := ⟨strategy, s.heap, s.contexts⟩

/-- The facts that a state knows, without ids. -/
def Solver.facts (strategy : Strategy) (s : Solver) : Facts := (s.reading strategy).facts s

namespace Reading

variable {strategy : Strategy}

/-- Different ids on the heap stand for different objects. -/
theorem heap_injective {i j : ObjId} (hi : s.heap.Has i) (hj : s.heap.Has j)
    (h : s.heap.get i = s.heap.get j) : i = j :=
  Interned.get?_injective (Heap.get?_eq_some_get hi) (h ▸ Heap.get?_eq_some_get hj)

/-- Contexts that read the same are the same. -/
theorem marks_injective (hmarked : s.Marked env) {c c' : ContextId} (hc : s.contexts.Has c)
    (hc' : s.contexts.Has c')
    (h : (s.reading env.selector.strategy).marks c = (s.reading env.selector.strategy).marks c') :
    c = c' := by
  have helements : (s.contexts.get c).elements = (s.contexts.get c').elements := by
    refine eq_of_map_eq ?_ h
    intro n hn n' hn' heq
    cases hs : env.selector.strategy with
    | insensitive | callSite =>
        simp only [mark, Solver.reading, hs, Mark.site.injEq, Id.mk.injEq] at heq
        exact heq
    | type =>
        simp only [mark, Solver.reading, hs, Mark.cls.injEq] at heq
        exact heq
    | object =>
        simp only [mark, Solver.reading, hs, Mark.obj.injEq] at heq
        have hid := heap_injective (hmarked hs c n hn) (hmarked hs c' n' hn') heq
        exact congrArg Id.index hid
  have hget : s.contexts.get c = s.contexts.get c' := congrArg Context.mk helements
  exact Interned.get?_injective (ContextTable.get?_eq_some_get hc)
    (hget ▸ ContextTable.get?_eq_some_get hc')

/-- Objects that read the same are the same. -/
theorem obj_injective (hmarked : s.Marked env) {o q : QObj} (ho : s.settled.HasObj o)
    (hq : s.settled.HasObj q)
    (h : (s.reading env.selector.strategy).obj o = (s.reading env.selector.strategy).obj q) :
    o = q := by
  simp only [obj, Under.mk.injEq] at h
  have hcontext := marks_injective hmarked ho.1 hq.1 h.1
  have hitem := heap_injective ho.2 hq.2 h.2
  cases o
  cases q
  exact congrArg₂ Qualified.mk hcontext hitem

/-- Pointers that read the same are the same. -/
theorem place_injective (hmarked : s.Marked env) {ptr ptr' : Pointer}
    (hptr : ptr.Exists s.settled) (hptr' : ptr'.Exists s.settled)
    (h : (s.reading env.selector.strategy).place ptr =
      (s.reading env.selector.strategy).place ptr') : ptr = ptr' := by
  cases ptr with
  | var v =>
      cases ptr' with
      | var v' =>
          simp only [place, under, Place.var.injEq, Under.mk.injEq] at h
          have hcontext := marks_injective hmarked hptr hptr' h.1
          cases v
          cases v'
          exact congrArg Pointer.var (congrArg₂ Qualified.mk hcontext h.2)
      | field | static | array => cases h
  | field o f =>
      cases ptr' with
      | field o' f' =>
          simp only [place, Place.field.injEq] at h
          rw [obj_injective hmarked hptr hptr' h.1, h.2]
      | var | static | array => cases h
  | static f =>
      cases ptr' with
      | static f' =>
          simp only [place, Place.static.injEq] at h
          rw [h]
      | var | field | array => cases h
  | array o =>
      cases ptr' with
      | array o' =>
          simp only [place, Place.array.injEq] at h
          rw [obj_injective hmarked hptr hptr' h]
      | var | field | static => cases h

/-! ## Closed states have closed facts -/

variable {r : Reading} {entries : List MethodId}

/-- A method that is reachable is so among the facts. -/
theorem reached_facts {m : QMethod} (h : m ∈ s.calls.reachableIn) :
    (r.facts s).reached (r.under m) := ⟨m, h, rfl⟩

/-- What a pointer refers to, its place refers to among the facts. -/
theorem points_facts {ptr : Pointer} {o : QObj} (h : o ∈ s.pointsTo.get ptr) :
    (r.facts s).points (r.place ptr) (r.obj o) := ⟨ptr, o, h, rfl, rfl⟩

/-- A flow edge is one among the facts. -/
theorem flow_facts {e : FlowEdge} (h : e ∈ s.flow.edges) : (r.facts s).flow (r.flow e) :=
  ⟨e, h, rfl⟩

/-- A call edge is one among the facts. -/
theorem call_facts {e : CallEdge} (h : e ∈ s.calls.edges) : (r.facts s).call (r.call e) :=
  ⟨e, h, rfl⟩

/-- The effect of a statement on a state is its effect on the facts of the state. -/
theorem effect_facts (hr : r.Reads env s) {m : QMethod} (hm : s.contexts.Has m.context)
    {index : Nat} {stmt : Stmt} (h : s.settled.Effect env m index stmt) :
    (r.facts s).Effect env.program env.selector (r.under m) index stmt := by
  cases stmt with
  | new lhs type =>
      obtain ⟨c, o, hc, ho, hpoints⟩ := h
      have hfact := points_facts (r := r) hpoints
      rw [hr.obj_of_get? ho, hr.marks_of_selectsHeap hc hm] at hfact
      exact hfact
  | literal lhs value =>
      cases value with
      | str | cls =>
          obtain ⟨o, ho, hpoints⟩ := h
          have hfact := points_facts (r := r) hpoints
          rw [hr.obj_of_get? ho, hr.marks_empty] at hfact
          exact hfact
      | null => trivial
  | copy | cast | loadStatic | storeStatic => exact flow_facts (r := r) h
  | invoke site =>
      intro callee hcallee
      obtain ⟨c, hc, hcall⟩ := h callee hcallee
      have hfact := call_facts (r := r) hcall
      rw [call, under, under, hr.marks_of_selects hc hm (by simp)] at hfact
      exact hfact
  | loadField | storeField | loadArray | storeArray | ret => trivial

/-- What a statement asks for on an object in a state, it asks for of the facts. -/
theorem access_facts (hr : r.Reads env s) {v : QVar} {o : QObj} (hv : s.contexts.Has v.context)
    (ho : s.settled.HasObj o) {stmt : Stmt} (h : s.settled.Access env v o stmt) :
    (r.facts s).Access env.program env.selector (r.under v) (r.obj o) stmt := by
  cases stmt with
  | loadField | storeField | loadArray => exact fun hbase => flow_facts (r := r) (h hbase)
  | storeArray base rhs =>
      intro hbase
      rw [hr.type_of_has ho.2]
      exact flow_facts (r := r) (h hbase)
  | invoke site =>
      intro hbase hinstance callee kind hcallee hkind
      rw [hr.targetOn?_eq site ho.2] at hcallee
      obtain ⟨c, hc, hcall, hthis⟩ := h hbase hinstance callee kind hcallee hkind
      have hmarks := hr.marks_of_selects hc hv (by
        rintro _ ⟨⟩
        exact ho)
      have hfact := call_facts (r := r) hcall
      simp only [call, under, hmarks] at hfact
      refine ⟨hfact, ?_⟩
      intro this hmem
      have hpoints := points_facts (r := r) (hthis this hmem)
      simp only [place, varPointer, under, hmarks] at hpoints
      exact hpoints
  | new | copy | cast | literal | loadStatic | storeStatic | ret => trivial

/-- The flow along an ordinary call edge of a state is the flow along its reading. -/
theorem wired_facts {p : Program} {e : CallEdge} (h : s.settled.Transfers p e) :
    (r.facts s).Wired p (r.call e) where
  argument := fun arg param type hmem htype =>
    flow_facts (r := r) (h.argument arg param type hmem htype)
  result := fun result hresult v hv => flow_facts (r := r) (h.result result hresult v hv)

/-- The facts of a closed state are closed. -/
theorem closed_facts (h : Closed env entries s) (hs : s.Scoped) (hmarked : s.Marked env)
    (hstart : ContextTable.new.Grows s.contexts) :
    (s.facts env.selector.strategy).Closed env.program env.selector entries := by
  have hr : (s.reading env.selector.strategy).Reads env s :=
    ⟨rfl, .refl _, .refl _, hstart _ _ rfl⟩
  refine ⟨?_, ?_, ?_, ?_, ?_, ?_⟩
  · intro i hi
    refine ⟨_, h.entry i hi, ?_⟩
    rw [under, hr.marks_empty]
  · rintro _ ⟨m, hm, rfl⟩ index stmt hstmt
    exact effect_facts hr (hs.reached hm) (h.body m hm index stmt hstmt)
  · rintro _ ⟨e, he, rfl⟩ _ ⟨ptr, o, ho, hplace, rfl⟩ hpasses
    obtain rfl : ptr = e.source :=
      place_injective hmarked (hs.owes (.inl ho)).1 (hs.flow he).1 hplace
    exact points_facts (h.flow e he o ho ((hr.passes_iff (hs.obj ho).2).1 hpasses))
  · rintro _ _ ⟨ptr, o, ho, hplace, rfl⟩ m stmt hstmt
    cases ptr with
    | var v =>
        cases hplace
        exact access_facts hr (hs.var ho) (hs.obj ho) (h.access v o ho stmt ⟨m, hstmt⟩)
    | field | static | array => cases hplace
  · rintro _ ⟨e, he, rfl⟩
    exact reached_facts (h.callee e he)
  · rintro _ ⟨e, he, rfl⟩ hk
    exact wired_facts (h.wiring e he hk)

end Reading

/-! ## The fixpoint -/

/-- A finished run without plugins yields the least closed family of facts. -/
theorem Machine.least_of_solve {σ : Type} {P : Plugin σ} (env : Setting) (ds : List Declaration)
    (hbuild : (Builder.ofList ds).build = .ok env.program) {steps : Nat}
    {entries : List MethodId} {n : Machine σ}
    (hsolve : Machine.solve P env steps entries (.new []) = (.finished, n)) :
    (n.solver.facts env.selector.strategy).Closed env.program env.selector entries ∧
      ∀ F : Facts, F.Closed env.program env.selector entries →
        (n.solver.facts env.selector.strategy).Le F := by
  obtain ⟨hvisit, hq⟩ := Machine.visits_of_solve hsolve
  have hb := Program.built_of_build (Builder.numbered_ofList ds) hbuild
  have hprecise := Machine.precise_of_visits hb hvisit
  have hground : Machine.Grounded P env entries (.new []) :=
    fun _ hstage _ _ hq => (Machine.precise_of_visits hb hstage).ids.exists_of_queue hq
  have hclosed : Closed env entries n.solver := closed_of_visits hb hvisit hground hq
  refine ⟨Reading.closed_facts hclosed hprecise.ids hprecise.marked hprecise.start, ?_⟩
  intro F hF
  have hreads : (n.solver.reading env.selector.strategy).Reads env n.solver :=
    ⟨rfl, .refl _, .refl _, hprecise.start _ _ rfl⟩
  have hderived := hprecise.derived hreads hF
  refine ⟨?_, ?_, ?_, ?_⟩
  · rintro _ ⟨m, hm, rfl⟩
    exact hderived.reached hm
  · rintro _ _ ⟨ptr, o, ho, rfl, rfl⟩
    exact hderived.points (.inl ho)
  · rintro _ ⟨e, he, rfl⟩
    exact hderived.flow he
  · rintro _ ⟨e, he, rfl⟩
    exact hderived.call (.inl he)

/-- The facts of a result, without ids. -/
def Result.facts (r : Result) : Facts := r.solver.facts r.strategy

/-- An analysis without lambdas, reflection and added plugins has no plugins at all. -/
theorem Analysis.members_eq_nil {a : Analysis} (hlambda : a.options.lambda = false)
    (hreflection : a.options.reflection = false) (hextra : a.extra = []) (p : Program)
    (files : Reflection.Files) : a.members p files = .ok [] := by
  simp only [Analysis.members, hlambda, hreflection, hextra]
  rfl

/-- An analysis without lambdas, reflection and added plugins, on any built program and from
any entry methods: if it finishes, its facts contain the entry methods and are closed under
the rules, and they are contained in every family of facts of which that is true. -/
theorem Analysis.least_of_runFrom (a : Analysis) (hlambda : a.options.lambda = false)
    (hreflection : a.options.reflection = false) (hextra : a.extra = [])
    (ds : List Declaration) {p : Program} (hbuild : (Builder.ofList ds).build = .ok p)
    {steps : Nat} {files : Reflection.Files} {entries : List MethodId} {result : Result}
    (hrun : a.runFrom steps p files entries = .finished result) :
    result.facts.Closed p a.options.selector entries ∧
      ∀ F : Facts, F.Closed p a.options.selector entries → result.facts.Le F := by
  unfold Analysis.runFrom at hrun
  rw [Analysis.members_eq_nil hlambda hreflection hextra] at hrun
  dsimp only at hrun
  split at hrun
  · rename_i m hsolve
    cases hrun
    exact Machine.least_of_solve (a.setting p) ds hbuild hsolve
  · cases hrun
  · cases hrun

/-- Every closed family knows that the method which {lit}`main` calls is reachable under the
call site, since the run from {lit}`main` finds that out. -/
theorem Analysis.least_of_runFrom_calling :
    let a : Analysis := { options := oneCallSite false false }
    let p := (settingOf callingProgram a.options).program
    ∃ result, a.runFrom 10 p (fun _ => none) [⟨1⟩] = .finished result ∧
      result.facts.Closed p a.options.selector [⟨1⟩] ∧
      ∀ F : Facts, F.Closed p a.options.selector [⟨1⟩] → F.reached ⟨[.site ⟨0⟩], ⟨0⟩⟩ := by
  intro a p
  let run := Machine.solve Member.plugin (a.setting p) 10 [⟨1⟩] (.new [])
  have hfinished : run.1 = .finished := by decide +kernel
  have hrun : a.runFrom 10 p (fun _ => none) [⟨1⟩] =
      .finished { solver := run.2.solver, strategy := a.options.context } := by
    unfold Analysis.runFrom
    rw [Analysis.members_eq_nil rfl rfl rfl]
    dsimp only
    rw [show Machine.solve Member.plugin (a.setting p) 10 [⟨1⟩] (.new []) = (.finished, run.2) from
      Prod.ext hfinished rfl]
  obtain ⟨hclosed, hleast⟩ := Analysis.least_of_runFrom a rfl rfl rfl callingProgram
    (Program.build_of_checks (by decide +kernel) (by decide +kernel)) hrun
  refine ⟨_, hrun, hclosed, ?_⟩
  intro F hF
  refine (hleast F hF).reached ⟨⟨⟨1⟩, ⟨0⟩⟩, by decide +kernel, ?_⟩
  have hcontext : (run.2.solver.contexts.get ⟨1⟩).elements = [0] := by decide +kernel
  simp only [Reading.under, Solver.reading, Reading.marks, hcontext]
  rfl

end PointsTo
