import PointsTo.Proofs.Closure
import PointsTo.Proofs.PluginPrecedence

/-!
# When a log is followed

Under every context of a method, the calls that the log speaks of do what its entries ask for:
most of it when the method is reachable, and the invocation of methods on objects again whenever
the receiver refers to more.  A receiver is looked at for all contexts once the method is
reachable under one of them, and what it refers to by then is looked at under each context in
turn; so nothing is missed, in whatever order contexts and objects arrive.

Main results:

- {lit}`ResolvedEntry.Fits`, and theorem {lit}`LogModel.fits_of_ofLog`: the entries of a log that
  was read have targets of the right kind.
- {lit}`LogModel.duty`: what the plugin has to do because of an entry.
- {lit}`LogModel.Followed`: what the entries ask for is done at a call, and nothing else.
- Theorem {lit}`Analysis.followed_of_runFrom`: in the end the log is followed at every call of
  every reachable method.
-/

namespace PointsTo

namespace Reflection

variable {env : Setting} {p : Program} {log : LogModel} {st : State} {c : ContextId}
  {m : MethodId} {claim : Claim}

/-! ## Logs that were read -/

/-- The target of an entry is of the kind that its call is about. -/
def ResolvedEntry.Fits (e : ResolvedEntry) : Prop :=
  match e.api, e.target with
  | .forName, .cls _ | .classNewInstance, .cls _ | .constructorNewInstance, .method _
  | .methodInvoke, .method _ => True
  | _, _ => False

/-- A line of a log names one of the calls that logs report. -/
theorem LogEntry.logged_of_parse {raw : String} {e : LogEntry}
    (h : LogEntry.parse raw = .ok (some e)) : e.api ∈ Api.logged := by
  unfold parse at h
  dsimp only at h
  split at h
  · cases h
  · split at h
    · rename_i api target caller line _
      cases hfields : ofFields api target caller line with
      | error fault =>
          rw [hfields] at h
          cases h
      | ok entry =>
          rw [hfields] at h
          cases h
          unfold ofFields at hfields
          split at hfields
          · cases hfields
          · rename_i found hfound
            split at hfields
            · cases hfields
            · cases hline : parseLine line with
              | error fault =>
                  rw [hline] at hfields
                  cases hfields
              | ok n =>
                  rw [hline] at hfields
                  cases hfields
                  exact List.mem_of_find?_eq_some hfound
    · cases h

/-- So do all entries of a log. -/
theorem Log.logged_of_parseFrom {n : Nat} {lines : List String} {entries : List LogEntry}
    (h : Log.parseFrom n lines = .ok entries) : ∀ e ∈ entries, e.api ∈ Api.logged := by
  induction lines generalizing n entries with
  | nil =>
      cases h
      simp
  | cons raw rest ih =>
      obtain ⟨entry, hentry, h⟩ := except_bind_eq_ok.1 h
      obtain ⟨entries', hrest, h⟩ := except_bind_eq_ok.1 h
      cases h
      intro e he
      rcases List.mem_append.1 he with he | he
      · obtain rfl := Option.mem_toList.1 he
        unfold Log.parseNumbered at hentry
        cases hparse : LogEntry.parse raw with
        | error fault =>
            rw [hparse] at hentry
            cases hentry
        | ok entry =>
            rw [hparse] at hentry
            cases hentry
            exact LogEntry.logged_of_parse hparse
      · exact ih hrest e he

/-- The entries of a log that was read have targets of the right kind. -/
theorem LogModel.fits_of_ofLog {content : String} (h : LogModel.ofLog p content = .ok log) :
    ∀ e ∈ log.entries, e.Fits := by
  obtain ⟨entries, hparse, rfl⟩ := eq_of_ofLog h
  intro e he
  obtain ⟨entry, hentry, he⟩ := List.mem_filterMap.1 he
  have hlogged := Log.logged_of_parseFrom hparse entry hentry
  obtain ⟨_, htarget, hsame⟩ := resolved?_eq_some he
  rw [← hsame] at hlogged
  simp only [Api.logged, List.mem_cons, List.not_mem_nil, or_false] at hlogged
  unfold target? at htarget
  rw [← hsame] at htarget
  rcases hlogged with hapi | hapi | hapi | hapi
  all_goals
    rw [hapi] at htarget
    obtain ⟨_, _, htarget⟩ := Option.map_eq_some_iff.1 htarget
    simp only [ResolvedEntry.Fits, hapi, ← htarget]

/-- The plugin begins with the log that was read. -/
theorem log_of_new {o : Options} {files : Files} {path content : String}
    (hpath : o.reflectionLog = some path) (hfile : files path = some content)
    (hlog : LogModel.ofLog p content = .ok log) (h : State.new o p files = .ok st) :
    st.log = some log := by
  obtain ⟨hread, -⟩ := State.eq_of_new h
  simp only [readLog, hpath, hfile, hlog] at hread
  exact (Except.ok.inj hread).symm

theorem LogModel.kind_of_ofLog {content : String} (h : LogModel.ofLog p content = .ok log) :
    log.made.kind = .reflective := by
  obtain ⟨_, _, rfl⟩ := eq_of_ofLog h
  rfl

/-- A log that was read remembers no call yet. -/
theorem LogModel.heeds_of_ofLog {content : String} (h : LogModel.ofLog p content = .ok log) :
    log.Heeds p log := by
  obtain ⟨_, _, rfl⟩ := eq_of_ofLog h
  exact ⟨rfl, fun _ hclaim => absurd hclaim List.not_mem_nil,
    fun hmem => absurd hmem (OrderedSet.not_mem_empty _)⟩

/-- The plugin begins by leaving everything to the log. -/
theorem heeds_of_new {o : Options} {files : Files} {path content : String}
    (hpath : o.reflectionLog = some path) (hfile : files path = some content)
    (hlog : LogModel.ofLog p content = .ok log) (h : State.new o p files = .ok st) :
    st.Heeds p log := by
  have hpresent := log_of_new hpath hfile hlog h
  have hnone : ∀ {v : VarId} {site : InvokeId} {api : Api},
      (v, (site, api)) ∈ (Waitlist.empty : RelevantVars Api).pairs →
        log.asked (p.invoke site) = [] := fun hmem => absurd hmem (OrderedSet.not_mem_empty _)
  rcases (State.eq_of_new h).2 with hst | hst <;> rw [hst]
  · exact ⟨⟨log, hpresent, LogModel.heeds_of_ofLog hlog⟩, hnone, by simp, hnone⟩
  · refine ⟨⟨log, hpresent, LogModel.heeds_of_ofLog hlog⟩, hnone, ?_, hnone⟩
    rintro _ ⟨⟩
    exact hnone

/-! ## What is to be done -/

/-- A log that is there stays, and forgets nothing. -/
theorem State.Retains.log_of_some {q : State} (h : st.Retains q) (hlog : st.log = some log) :
    ∃ m, q.log = some m ∧ log.Retains m := by
  have hrel := h.log
  rw [hlog] at hrel
  generalize q.log = found at hrel
  cases hrel with
  | some hretains => exact ⟨_, rfl, hretains⟩

/-- What is asked of a call has begun under a context, or a method was invoked on an object. -/
def Claim.Begun (env : Setting) (k : View) (c : ContextId) (claim : Claim) : Option QObj → Prop
  | none => k.contexts.Has c ∧ claim.Done env k .empty c
  | some o => ∀ target, claim.api = .methodInvoke → claim.target = .method target →
      InvokedOn env k ⟨c, claim.site⟩ target (env.program.invoke claim.site).args[1]? o

/-- The receiver of a call refers to an object. -/
def Claim.Waits (env : Setting) (c : ContextId) (claim : Claim) (points : PointsToMap)
    (o? : Option QObj) : Prop :=
  ∀ o ∈ o?, ∃ r ∈ (env.program.invoke claim.site).args.head?, o ∈ points.get (varPointer c r)

variable {s t : Solver} {points points' : PointsToMap} {o? : Option QObj}

theorem Claim.Waits.of_vars (h : claim.Waits env c points o?)
    (hvars : ∀ v, points.get (.var v) = points'.get (.var v)) : claim.Waits env c points' o? := by
  intro o ho
  obtain ⟨r, hr, hpoints⟩ := h o ho
  exact ⟨r, hr, hvars ⟨c, r⟩ ▸ hpoints⟩

theorem Claim.Begun.mono {k l : View} (h : claim.Begun env k c o?) (hg : s.Grounded)
    (hwaits : claim.Waits env c s.pointsTo o?) (hsk : s.settled.Le k) (hle : k.Le l) :
    claim.Begun env l c o? := by
  cases o? with
  | none =>
      exact ⟨h.1.of_grows hle.contexts, h.2.mono (hg.empty.of_grows hsk.contexts) h.1
        (fun ho => absurd ho (OrderedSet.not_mem_empty _)) hle⟩
  | some o =>
      obtain ⟨r, _, hpoints⟩ := hwaits o rfl
      intro target hapi htarget
      exact (h target hapi htarget).mono hle ((hg.var _ _ hpoints).of_grows hsk.contexts)
        ((hg.points _ _ hpoints).mono hsk)

/-- Where what is asked has begun, and a method was invoked on all objects, it is done. -/
theorem Claim.done_of_begun {k : View}
    (h : ∀ o?, claim.Waits env c points o? → claim.Begun env k c o?) :
    claim.Done env k points c := by
  refine claim.done_iff.2 ⟨(h none (by simp [Waits])).2, ?_⟩
  intro target hapi htarget r hr o ho
  refine h (some o) ?_ target hapi htarget
  rintro _ ⟨⟩
  exact ⟨r, hr, ho⟩

/-- What the log asks for has begun once the method is told of under the context. -/
theorem begun_of_methodIn {q : State} {i : QMethod}
    (h : (react env (.methodIn i) st).run env s = .ok q t) (hg : s.Grounded)
    (hst : st.Sound env.program s.settled) (hi : i ∈ s.calls.reachableIn) {m : LogModel}
    (hm : st.log = some m) (hkind : m.made.kind = .reflective) (hclaim : claim ∈ m.claims)
    (hcaller : claim.caller = i.item) : claim.Done env t.expected s.pointsTo i.context := by
  simp only [react, hm, Service.bind_eq, Service.run_bind, bind_eq_ok] at h
  obtain ⟨m', u, hreached, h⟩ := h
  obtain ⟨_, rfl⟩ := pure_eq_ok.1 h
  exact (LogModel.reached_ok hreached hg hi (hst.log m hm)).2.2 hkind claim hclaim hcaller

/-- What the plugin has to do because of what is asked of a call of a method under a context. -/
def LogModel.duty {i : QMethod} {call : InvokeId}
    (hpresent : st.log = some log) (hkind : log.made.kind = .reflective)
    (hcall : env.program.invoke call ∈ env.program.invokesIn i.item)
    (hclaim : claim ∈ log.asked (env.program.invoke call)) (hcaller : claim.caller = i.item)
    (hp : env.program.Numbered) :
    Plugin.Duty (memory env st) (fun k x => x.Sound env.program k) (Option QObj) where
  since := some i
  Given := fun _ _ => True
  Wants := claim.Waits env i.context
  Done := fun k => claim.Begun env k i.context
  start := fun hsince => by cases hsince
  vars := fun hvars hx => hx.of_vars hvars
  mono := fun hg hx hdone hle => hdone.mono hg hx (Solver.settled_le_expected _) hle
  grown := by
    intro s t y y' v delta before x hg hsound hcovers _ hsince hholds hgains hx hr
    by_cases hold : claim.Waits env i.context before x
    · exact .inl hold
    refine .inr ?_
    cases x with
    | none => exact absurd (by simp [Claim.Waits]) hold
    | some o =>
        obtain ⟨q, hretains, hknows, hattends⟩ :=
          attends_of_covers hcovers hp hg hsound hholds hr
        obtain ⟨r, hreceiver, hpoints⟩ := hx o rfl
        obtain ⟨rfl, hnew⟩ := (hgains.mem.1 hpoints).resolve_left fun hbefore =>
          hold (by rintro _ ⟨⟩; exact ⟨r, hreceiver, hbefore⟩)
        obtain ⟨log', hlog', hlater⟩ := hretains.log_of_some hpresent
        rw [← hlater.asked_eq] at hclaim
        intro target hapi htarget
        exact hattends.log log' hlog' _ _ ((hknows (hsince i rfl)).2 log' hlog' _ hcall claim
          hclaim hcaller target hapi htarget r hreceiver) o hnew
  entered := by
    intro s t x x' i' o? hsince hg hsound hsane hknows hi hx hr
    obtain rfl := Option.some.inj hsince
    obtain ⟨q, rfl, hretains⟩ := hsane
    obtain ⟨_, ⟨⟩, hknows⟩ := hknows
    obtain ⟨q', rfl, hreact⟩ := Member.react_reflection.1 hr
    obtain ⟨log', hlog', hlater⟩ := hretains.log_of_some hpresent
    rw [← hlater.asked_eq] at hclaim
    have hdone := begun_of_methodIn hreact hg hsound hi hlog' (hlater.kind.trans hkind)
      ((hknows _ hcall).log log' hlog' claim hclaim) hcaller
    obtain ⟨hbegun, hall⟩ := claim.done_iff.1 hdone
    have hst := (Service.evolves hreact).accretes
    cases o? with
    | none => exact ⟨(hg.reached i hi).of_grows hst.contexts, hbegun⟩
    | some o =>
        obtain ⟨r, hreceiver, hpoints⟩ := hx o rfl
        exact fun target hapi htarget => hall target hapi htarget r hreceiver o hpoints

/-! ## Calls that the log speaks of -/

/-- At a call of a method under a context, all that the log asks for is done, and nothing else is
done by reflection if the log speaks of the call. -/
structure LogModel.Followed (env : Setting) (s : Solver) (log : LogModel) (m : MethodId)
    (site : QSite) : Prop where
  done : ∀ e ∈ log.entries, e.SpeaksOf m (env.program.invoke site.item) → e.Fits ∧
    (e.claim (env.program.invoke site.item)).site = site.item ∧
      (e.claim (env.program.invoke site.item)).Done env s.settled s.pointsTo site.context
  edges : (∃ e ∈ log.entries, e.SpeaksOf m (env.program.invoke site.item)) →
    ∀ edge ∈ s.calls.edges, edge.site = site → ∀ payload, edge.kind = .reflective payload →
      ∃ e ∈ log.entries, e.SpeaksOf m (env.program.invoke site.item) ∧
        (e.claim (env.program.invoke site.item)).Leads env.program s.heap s.pointsTo edge payload
  objects : (∃ e ∈ log.entries, e.SpeaksOf m (env.program.invoke site.item)) →
    ∀ {i x}, s.heap.get? i = some x → x.kind = .mock .reflective (.invoke site.item) →
      ∃ e ∈ log.entries, e.SpeaksOf m (env.program.invoke site.item) ∧
        (e.claim (env.program.invoke site.item)).Makes env.program x.type

/-- No model but the log looks at a call. -/
structure State.Overlooks (site : InvokeId) (st : State) : Prop where
  classes : ∀ v api, (v, (site, api)) ∉ st.classes.relevant.pairs
  strings : ∀ m ∈ st.strings, ∀ v api, (v, (site, api)) ∉ m.relevant.pairs
  actions : ∀ v api, (v, (site, api)) ∉ st.actions.relevant.pairs

/-- Where the log governs and all that it asks for is done, it is followed. -/
theorem LogModel.Governs.followed {i : MethodId} {site : QSite}
    (h : log.Governs env.program s) (hp : env.program.Numbered)
    (hcontainer : (env.program.invoke site.item).container = i)
    (hfits : ∀ e ∈ log.entries, e.Fits)
    (hdone : ∀ claim ∈ log.asked (env.program.invoke site.item),
      claim.Done env s.settled s.pointsTo site.context) :
    log.Followed env s i site := by
  subst hcontainer
  have hasked : (∃ e ∈ log.entries, e.SpeaksOf (env.program.invoke site.item).container
      (env.program.invoke site.item)) → log.asked (env.program.invoke site.item) ≠ [] := by
    rintro ⟨e, he, hspeaks⟩
    exact List.ne_nil_of_mem (mem_asked.2 ⟨e, he, hspeaks, rfl⟩)
  refine ⟨?_, ?_, ?_⟩
  · intro e he hspeaks
    have hclaim := mem_asked.2 ⟨e, he, hspeaks, rfl⟩
    exact ⟨hfits e he, site_of_asked hp hclaim, hdone _ hclaim⟩
  · rintro hspeaks edge hedge rfl payload hkind
    obtain ⟨claim, hclaim, hleads⟩ := h.edges (.inl hedge) payload hkind (hasked hspeaks)
    obtain ⟨e, he, hspeaks', rfl⟩ := mem_asked.1 hclaim
    exact ⟨e, he, hspeaks', hleads⟩
  · intro hspeaks o x ho hkind
    obtain ⟨claim, hclaim, hmakes⟩ := h.objects ho site.item hkind (hasked hspeaks)
    obtain ⟨e, he, hspeaks', rfl⟩ := mem_asked.1 hclaim
    exact ⟨e, he, hspeaks', hmakes⟩

/-- A plugin that leaves to the log what that speaks of overlooks it. -/
theorem State.Heeds.overlooks {i : InvokeId} (h : st.Heeds p log)
    (hasked : log.asked (p.invoke i) ≠ []) : st.Overlooks i where
  classes := fun _ _ hmem => hasked (h.classes hmem)
  strings := fun m hm _ _ hmem => hasked (h.strings m hm hmem)
  actions := fun _ _ hmem => hasked (h.actions hmem)

end Reflection

/-- At every stage of an analysis the log that was read governs, and all plugins heed it. -/
theorem Analysis.governs_of_members {a : Analysis} {p : Program}
    (hb : (a.setting p).program.Built) {files : Reflection.Files} {path content : String}
    {log : Reflection.LogModel} (hpath : a.options.reflectionLog = some path)
    (hfile : files path = some content) (hlog : Reflection.LogModel.ofLog p content = .ok log)
    (hextra : ∀ m ∈ a.extra, m.Sound p ({} : Solver).settled ∧ m.Heeds p log)
    {entries : List MethodId} {members : List Member} {stage : Machine.Stage Member}
    (hmembers : a.members p files = .ok members)
    (hvisit : Machine.Visits Member.plugin (a.setting p) entries (.new members) stage) :
    log.Governs p stage.machine.solver ∧ ∀ m ∈ stage.machine.plugins, m.Heeds p log := by
  refine Machine.governs_of_visits hb
    (Analysis.sound_members hmembers fun m hm => (hextra m hm).1) ?_ hvisit
  intro m hm
  rcases Analysis.members_cases hmembers hm with rfl | ⟨st, hst, rfl⟩ | hm
  · rfl
  · exact Reflection.heeds_of_new hpath hfile hlog hst
  · exact (hextra m hm).2

/-- In a fixpoint of an analysis of reflection for a tidy program, the log is followed at every
call of every reachable method, and at no time did another model look at a call that the log
speaks of. -/
theorem Analysis.followed_of_runFrom {a : Analysis} (ds : List Declaration) {p : Program}
    (hbuild : (Builder.ofList ds).build = .ok p) (htidy : p.Tidy)
    (hon : a.options.reflection = true) {files : Reflection.Files} {path content : String}
    {log : Reflection.LogModel} (hpath : a.options.reflectionLog = some path)
    (hfile : files path = some content) (hlog : Reflection.LogModel.ofLog p content = .ok log)
    (hextra : ∀ m ∈ a.extra, m.Sound p ({} : Solver).settled ∧ m.Heeds p log) {steps : Nat}
    {entries : List MethodId} {result : Result}
    (hrun : a.runFrom steps p files entries = .finished result) {q : QMethod} {i : InvokeId}
    (hq : q ∈ result.solver.calls.reachableIn) (hstmt : .invoke i ∈ (p.method q.item).stmts) :
    log.Followed (a.setting p) result.solver q.item ⟨q.context, i⟩ ∧
      ∀ members stage st, a.members p files = .ok members →
        Machine.Visits Member.plugin (a.setting p) entries (.new members) stage →
          .reflection st ∈ stage.machine.plugins →
            (∃ e ∈ log.entries, e.SpeaksOf q.item (p.invoke i)) → st.Overlooks i := by
  have hb : (a.setting p).program.Built :=
    Program.built_of_build (Builder.numbered_ofList ds) hbuild
  have hcontainer : (p.invoke i).container = q.item := htidy.placed q.item i hstmt
  obtain ⟨st, hnew⟩ := Reflection.exists_of_runFrom hon hrun
  refine ⟨?_, ?_⟩
  · obtain ⟨members, m, hmembers, hsolve, rfl⟩ := Analysis.solve_of_runFrom hrun
    have hgoverns := Analysis.governs_of_members hb hpath hfile hlog hextra hmembers
      (Machine.visits_of_solve hsolve).1
    refine hgoverns.1.followed hb.numbered hcontainer (Reflection.LogModel.fits_of_ofLog hlog) ?_
    intro claim hclaim
    have hcaller : claim.caller = q.item := by
      obtain ⟨e, _, _, rfl⟩ := Reflection.LogModel.mem_asked.1 hclaim
      exact hcontainer
    refine claim.done_of_begun fun o? hwaits => ?_
    refine Reflection.fulfilled_of_runFrom ds hbuild htidy (fun m hm => (hextra m hm).1) hon hnew
      hrun (Reflection.LogModel.duty (Reflection.log_of_new hpath hfile hlog hnew)
        (Reflection.LogModel.kind_of_ofLog hlog) (Program.mem_invokesIn.2 ⟨i, hstmt, rfl⟩) hclaim
        hcaller hb.numbered) (fun _ => trivial) ?_ hwaits
    rintro _ ⟨⟩
    exact hq
  · rintro members stage st hmembers hvisit hst ⟨e, he, hspeaks⟩
    have hgoverns := Analysis.governs_of_members hb hpath hfile hlog hextra hmembers hvisit
    refine Reflection.State.Heeds.overlooks (hgoverns.2 _ hst) ?_
    rw [← hcontainer] at hspeaks
    exact List.ne_nil_of_mem (Reflection.LogModel.mem_asked.2 ⟨e, he, hspeaks, rfl⟩)

/-- A method that makes an object and invokes a method on it that it has not looked up. -/
def Reflection.loggedProgram : List Declaration :=
  [.cls (.plain "A"), .method ⟨"A", "m", [], .void, false, false, true⟩,
    .method ⟨"A", "main", [], .void, true, false, true⟩,
    .var ⟨1⟩ "f" Reflection.Api.methodClass, .var ⟨1⟩ "a" (.cls "A"),
    .stmt ⟨1⟩ (.new ⟨2⟩ (.cls "A")),
    .call ⟨1⟩ ⟨.virtual, ⟨"java.lang.reflect.Method", "invoke",
      [Reflection.Api.object, .array Reflection.Api.object], Reflection.Api.object⟩, some ⟨1⟩,
      [⟨2⟩], none⟩]

/-- Options by which calls are resolved from a log. -/
def Reflection.byLog : Options := { oneCallSite false true with reflectionLog := some "log" }

/-- A log of one line, which says what method is invoked. -/
def Reflection.logOfInvocation : String := "Method.invoke;<A: void m()>;<A: void main()>;"

/-- What the line is read as. -/
theorem Reflection.Log.parse_logOfInvocation :
    parse logOfInvocation = .ok [⟨.methodInvoke, "<A: void m()>", "<A: void main()>", none⟩] := by
  simp [logOfInvocation, parse, parseFrom, parseNumbered, LogEntry.parse, Text.trim, Text.pieces,
    Text.splitAt, Text.trimChars, Text.isBlank, LogEntry.ofFields, Api.ofLogName?, Api.logged,
    Api.logName, LogEntry.parseLine]
  rfl

/-- What the program has of it. -/
theorem Reflection.ofLog_logOfInvocation :
    Reflection.LogModel.ofLog (settingOf Reflection.loggedProgram Reflection.byLog).program
        Reflection.logOfInvocation =
      .ok { entries := [⟨⟨1⟩, .methodInvoke, .method ⟨0⟩, none⟩] } := by
  let entry : LogEntry := ⟨.methodInvoke, "<A: void m()>", "<A: void main()>", none⟩
  have hresolve : [entry].filterMap
      (LogModel.resolved? (settingOf loggedProgram byLog).program) =
        [⟨⟨1⟩, .methodInvoke, .method ⟨0⟩, none⟩] := by decide +kernel
  unfold LogModel.ofLog
  rw [Log.parse_logOfInvocation]
  exact congrArg (fun entries => Except.ok { entries : LogModel }) hresolve

/-- The log is the only model that knows something at the start. -/
theorem Reflection.members_logOfInvocation :
    Analysis.members { options := Reflection.byLog }
      (settingOf Reflection.loggedProgram Reflection.byLog).program
      (fun _ => some Reflection.logOfInvocation) = .ok
        [.reflection { log := some { entries := [⟨⟨1⟩, .methodInvoke, .method ⟨0⟩, none⟩] } }] := by
  unfold Analysis.members Reflection.State.new Reflection.readLog
  have hpath : byLog.reflectionLog = some "log" := rfl
  simp only [hpath, ofLog_logOfInvocation]
  rfl

/-- The method that the log names is run on the object that was made, and by no other edge does
the call run anything by reflection. -/
theorem Analysis.followed_of_runFrom_invoking :
    let a : Analysis := { options := Reflection.byLog }
    let p := (settingOf Reflection.loggedProgram a.options).program
    ∃ result, a.runFrom 20 p (fun _ => some Reflection.logOfInvocation) [⟨1⟩] = .finished result ∧
      result.solver.settled.RunsOn (a.setting p) ⟨emptyContext, ⟨0⟩⟩ ⟨emptyContext, ⟨0⟩⟩ ⟨0⟩
        (.reflective { api := .methodInvoke, args := none }) ∧
      ∀ edge ∈ result.solver.calls.edges, edge.site = ⟨emptyContext, ⟨0⟩⟩ →
        ∀ payload, edge.kind = .reflective payload →
          payload = { api := .methodInvoke, args := none } ∧ edge.callee.item = ⟨0⟩ := by
  intro a p
  have hpath : a.options.reflectionLog = some "log" := rfl
  have hfile : (fun _ => some Reflection.logOfInvocation : Reflection.Files) "log" =
      some Reflection.logOfInvocation := rfl
  have hlog : Reflection.LogModel.ofLog p Reflection.logOfInvocation = .ok _ :=
    Reflection.ofLog_logOfInvocation
  have hfacts :
      let run := Machine.solve Member.plugin (a.setting p) 20 [⟨1⟩] (.new
        [.reflection { log := some { entries := [⟨⟨1⟩, .methodInvoke, .method ⟨0⟩, none⟩] } }])
      run.1 = .finished ∧ ⟨emptyContext, ⟨1⟩⟩ ∈ run.2.solver.calls.reachableIn ∧
        (run.2.solver.pointsTo.get (varPointer emptyContext ⟨2⟩)).toList =
          [⟨emptyContext, ⟨0⟩⟩] ∧
        Reflection.invokedOn? p ⟨0⟩ (run.2.solver.heap.get ⟨0⟩).type = some ⟨0⟩ := by
    decide +kernel
  generalize hsolve : Machine.solve Member.plugin (a.setting p) 20 [⟨1⟩] _ = run at hfacts
  obtain ⟨_, m⟩ := run
  obtain ⟨rfl, hreached, hpoints, hfound⟩ := hfacts
  have hrun : a.runFrom 20 p (fun _ => some Reflection.logOfInvocation) [⟨1⟩] =
      .finished { solver := m.solver, strategy := a.options.context } := by
    unfold Analysis.runFrom
    rw [Reflection.members_logOfInvocation]
    dsimp only
    rw [hsolve]
  obtain ⟨hfollowed, _⟩ := Analysis.followed_of_runFrom Reflection.loggedProgram
    (Program.build_of_checks (by decide +kernel) (by decide +kernel))
    (Program.tidy_of_checks (by decide +kernel) (by decide +kernel) (by decide +kernel))
    rfl hpath hfile hlog (by simp [a]) hrun hreached (i := ⟨0⟩) (by decide +kernel)
  have hspeaks : Reflection.ResolvedEntry.SpeaksOf ⟨1⟩ (p.invoke ⟨0⟩)
      ⟨⟨1⟩, .methodInvoke, .method ⟨0⟩, none⟩ :=
    ⟨rfl, by decide +kernel, .inl rfl⟩
  obtain ⟨_, _, hdone⟩ := hfollowed.done _ List.mem_cons_self hspeaks
  have hinvoked := (Reflection.Claim.done_iff.1 hdone).2 ⟨0⟩ rfl rfl ⟨2⟩ (by decide +kernel)
    ⟨emptyContext, ⟨0⟩⟩ (by simp [OrderedSet.mem_def, hpoints])
  refine ⟨_, hrun, hinvoked (by decide +kernel) (by decide +kernel) ⟨0⟩ hfound, ?_⟩
  intro edge hedge hsite payload hkind
  obtain ⟨e, he, _, hleads⟩ := hfollowed.edges ⟨_, List.mem_cons_self, hspeaks⟩ edge hedge
    hsite payload hkind
  obtain rfl := List.mem_singleton.1 he
  obtain ⟨_, rfl, hcallee⟩ : (p.method ⟨0⟩).isConstructor = false ∧
      payload = { api := .methodInvoke, args := (p.invoke edge.site.item).args[1]? } ∧
        ((p.method ⟨0⟩).isStatic = true ∧ edge.callee.item = ⟨0⟩ ∨
          (p.method ⟨0⟩).isStatic = false ∧ ∃ r ∈ (p.invoke edge.site.item).args.head?,
            ∃ o ∈ m.solver.pointsTo.get (varPointer edge.site.context r),
              Reflection.invokedOn? p ⟨0⟩ (m.solver.heap.get o.item).type =
                some edge.callee.item) := hleads
  rw [hsite] at hcallee ⊢
  refine ⟨by decide +kernel, ?_⟩
  rcases hcallee with ⟨_, hcallee⟩ | ⟨_, r, hr, o, ho, hcallee⟩
  · exact hcallee
  · have hargs : (p.invoke ⟨0⟩).args.head? = some ⟨2⟩ := by decide +kernel
    obtain rfl := Option.some.inj (hargs.symm.trans hr)
    obtain rfl : o = ⟨emptyContext, ⟨0⟩⟩ := by
      simpa [OrderedSet.mem_def, hpoints] using ho
    exact (Option.some.inj (hfound.symm.trans hcallee)).symm

end PointsTo
