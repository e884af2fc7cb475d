import Mathlib.Logic.Relation
import PointsTo.Program.Builder

/-!
# How programs are assembled

A declaration is carried out in a few elementary steps: an entry with the next id is added to a
table, or an entry is changed in place.  What each of these steps keeps, every declaration keeps,
and so has every program that is assembled.

Main results:

- {lit}`Edit`: the elementary steps, with what is known of the entries that are added.
- {lit}`Method.Equipped`: the receiver and the parameters of a method that is added.
- Theorem {lit}`Builder.edits_declare`: declarations consist of such steps.
- Theorem {lit}`Builder.edits_ofList`: so does the assembling of a program from the root class on.
- Theorem {lit}`Builder.equipped_ofList`: all methods of such a program are equipped.
-/

namespace PointsTo

open Builder (modifyClass)

/-- Entries stay where they are when another one is added. -/
theorem getElem?_push_of_eq_some {α : Type} {xs : Array α} {i : Nat} {a x : α}
    (h : xs[i]? = some a) : (xs.push x)[i]? = some a := by
  have hlt : i < xs.size := (Array.getElem?_eq_some_iff.1 h).1
  rw [Array.getElem?_push_lt hlt, ← Array.getElem?_eq_getElem hlt, h]

/-- The program has a variable that was created for the method, with the type. -/
def Program.Creates (p : Program) (m : MethodId) (v : VarId) (type : JavaType) : Prop :=
  ∃ x, p.vars[v.index]? = some x ∧ x.method = m ∧ x.type = type

/-- A method has a receiver unless it is static, and different variables for its parameters; all of
them were created for it, the parameters with the types that it says. -/
structure Method.Equipped (m : Method) (p : Program) : Prop where
  receiver : m.receiver.isSome = !m.isStatic
  params : m.params.Nodup
  created : ∀ v, v ∈ m.receiver ∨ v ∈ m.params → ∃ type, p.Creates m.id v type
  typed : ∀ v type, (v, type) ∈ m.typedParams → p.Creates m.id v type

/-- A method stays equipped while its variables stay. -/
theorem Method.Equipped.mono {m : Method} {p q : Program} (h : m.Equipped p)
    (hvars : ∀ {v type}, p.Creates m.id v type → q.Creates m.id v type) : m.Equipped q where
  receiver := h.receiver
  params := h.params
  created := fun v hv => (h.created v hv).imp fun _ => hvars
  typed := fun v type hmem => hvars (h.typed v type hmem)

/-- All methods are at the positions that their ids say, and equipped. -/
def Program.Equipped (p : Program) : Prop :=
  ∀ (i : Nat) (m : Method), p.methods[i]? = some m → m.id = ⟨i⟩ ∧ m.Equipped p

/-- The elementary steps of assembling a program. -/
inductive Edit (p : Program) : Program → Prop
  /-- A class is added, which lists nothing yet. -/
  | cls {c : Class} (hid : c.id = ⟨p.classes.size⟩) (hmethods : c.methods = []) :
      Edit p { p with classes := p.classes.push c }
  /-- A field is added, and listed by its class. -/
  | field (f : Field) :
      Edit p (modifyClass { p with fields := p.fields.push f } f.className
        fun c => { c with fields := c.fields ++ [f.id] })
  /-- A variable is added. -/
  | var {x : Var} (hid : x.id = ⟨p.vars.size⟩) : Edit p { p with vars := p.vars.push x }
  /-- A method is added once its variables are there, and listed by its class. -/
  | method {m : Method} (hid : m.id = ⟨p.methods.size⟩) (hvars : m.Equipped p) :
      Edit p (modifyClass { p with methods := p.methods.push m } m.className
        fun c => { c with methods := c.methods ++ [m.id] })
  /-- A statement is appended to a body. -/
  | stmt (m : MethodId) (s : Stmt) :
      Edit p { p with
        methods := p.methods.modify m.index fun m => { m with stmts := m.stmts ++ [s] } }
  /-- A call site is added. -/
  | invoke {i : Invoke} (hid : i.id = ⟨p.invokes.size⟩) :
      Edit p { p with invokes := p.invokes.push i }
  /-- The line of a call site is noted. -/
  | line (site : InvokeId) (line : Nat) :
      Edit p { p with
        invokes := p.invokes.modify site.index fun i => { i with line := some line } }

/-- Some steps, one after the other. -/
abbrev Edits : Program → Program → Prop := Relation.ReflTransGen Edit

/-- What one step keeps, several keep. -/
theorem Edits.keeps {I : Program → Prop} (hstep : ∀ {p q}, Edit p q → I p → I q) {p q : Program}
    (h : Edits p q) (hp : I p) : I q := by
  induction h with
  | refl => exact hp
  | tail _ h ih => exact hstep h ih

/-! ## Changing a class -/

/-- To change a class changes no other table. -/
theorem Builder.exists_modifyClass (p : Program) (name : String) (f : Class → Class) :
    ∃ classes, modifyClass p name f = { p with classes } := by
  unfold modifyClass
  split
  · exact ⟨_, rfl⟩
  · exact ⟨_, rfl⟩

section ModifyClass

variable (p : Program) (name : String) (f : Class → Class)

/-- To change a class changes no method. -/
@[simp] theorem Program.methods_modifyClass : (modifyClass p name f).methods = p.methods := by
  obtain ⟨_, h⟩ := Builder.exists_modifyClass p name f
  rw [h]

/-- To change a class changes no variable. -/
@[simp] theorem Program.vars_modifyClass : (modifyClass p name f).vars = p.vars := by
  obtain ⟨_, h⟩ := Builder.exists_modifyClass p name f
  rw [h]

/-- To change a class changes no call site. -/
@[simp] theorem Program.invokes_modifyClass : (modifyClass p name f).invokes = p.invokes := by
  obtain ⟨_, h⟩ := Builder.exists_modifyClass p name f
  rw [h]

/-- To change a class changes no field. -/
@[simp] theorem Program.fields_modifyClass : (modifyClass p name f).fields = p.fields := by
  obtain ⟨_, h⟩ := Builder.exists_modifyClass p name f
  rw [h]

end ModifyClass

/-! ## Variables and methods -/

/-- No step changes the methods and the types of variables. -/
theorem Program.creates_of_edit {p q : Program} (h : Edit p q) {m : MethodId} {v : VarId}
    {type : JavaType} (hp : p.Creates m v type) : q.Creates m v type := by
  cases h with
  | cls | stmt | invoke | line => exact hp
  | field | method =>
      unfold Program.Creates
      rw [Program.vars_modifyClass]
      exact hp
  | var =>
      obtain ⟨x, hx, hm⟩ := hp
      exact ⟨x, getElem?_push_of_eq_some hx, hm⟩

/-- Methods are added with their variables, and keep these. -/
theorem Program.equipped_of_edit {p q : Program} (h : Edit p q) (hp : p.Equipped) :
    q.Equipped := by
  intro i m hm
  have hold : p.methods[i]? = some m → m.id = ⟨i⟩ ∧ m.Equipped q := fun hm =>
    ⟨(hp i m hm).1, (hp i m hm).2.mono (creates_of_edit h)⟩
  cases h with
  | cls | var | invoke | line => exact hold hm
  | field =>
      rw [Program.methods_modifyClass] at hm
      exact hold hm
  | method hid hvars =>
      rw [Program.methods_modifyClass, Array.getElem?_push] at hm
      split at hm
      · rename_i hi
        cases hm
        exact ⟨by rw [hid, hi], hvars.mono (creates_of_edit (.method hid hvars))⟩
      · exact hold hm
  | stmt entry s =>
      rw [Array.getElem?_modify] at hm
      split at hm
      · obtain ⟨old, hentry, rfl⟩ := Option.map_eq_some_iff.1 hm
        obtain ⟨hid, hequipped⟩ := hp i old hentry
        exact ⟨hid, hequipped.receiver, hequipped.params, hequipped.created, hequipped.typed⟩
      · exact hold hm

/-! ## Creating variables -/

namespace Builder

variable {b : Builder} {m : MethodId} {v : VarId} {type : JavaType}

/-- To reserve a place changes nothing in the program. -/
@[simp] theorem program_reserve (b : Builder) (e : Entity) (size : Nat) :
    (b.reserve e size).program = b.program := by
  unfold reserve
  split <;> rfl

/-- Creating a variable is one step. -/
theorem edit_addVar (b : Builder) (m : MethodId) (name : String) (type : JavaType) :
    Edit b.program (b.addVar m name type).2.program := by
  simp only [addVar, program_reserve]
  exact .var rfl

/-- A variable is created for the method that asks for it. -/
theorem creates_addVar (m : MethodId) (name : String) (type : JavaType) :
    (b.addVar m name type).2.program.Creates m (b.addVar m name type).1 type := by
  simp [Program.Creates, addVar]

/-- A receiver is at most one variable. -/
theorem edits_addReceiver (m : MethodId) (d : MethodDecl) :
    Edits b.program (b.addReceiver m d).2.program := by
  unfold addReceiver
  split
  · exact .refl
  · exact .single (b.edit_addVar m _ _)

/-- A receiver changes nothing but the variables. -/
theorem exists_program_addReceiver (m : MethodId) (d : MethodDecl) :
    ∃ vars, (b.addReceiver m d).2.program = { b.program with vars } := by
  unfold addReceiver
  split
  · exact ⟨_, rfl⟩
  · exact ⟨(b.addVar m "this" (.cls d.className)).2.program.vars, by simp [addVar]⟩

/-- A method gets a receiver exactly if it is not static. -/
theorem isSome_addReceiver (m : MethodId) (d : MethodDecl) :
    (b.addReceiver m d).1.isSome = !d.isStatic := by
  unfold addReceiver
  split
  · rename_i hstatic
    simp [hstatic]
  · rename_i hstatic
    simp [hstatic]

/-- A receiver is created for its method. -/
theorem creates_addReceiver {d : MethodDecl} (hv : v ∈ (b.addReceiver m d).1) :
    (b.addReceiver m d).2.program.Creates m v (.cls d.className) := by
  unfold addReceiver at hv ⊢
  split
  · rename_i hstatic
    rw [if_pos hstatic] at hv
    cases hv
  · rename_i hstatic
    rw [if_neg hstatic] at hv
    cases hv
    exact creates_addVar m _ _

/-- Parameters are variables that are created one after the other. -/
theorem edits_addParams (m : MethodId) (n : Nat) (ts : List JavaType) :
    Edits b.program (addParams m n ts b).2.program := by
  induction ts generalizing n b with
  | nil => exact .refl
  | cons t ts ih => exact .head (b.edit_addVar m _ t) (ih (n + 1))

/-- Creating parameters adds variables, and changes nothing else. -/
theorem exists_program_addParams (m : MethodId) (n : Nat) (ts : List JavaType) :
    ∃ vars, (addParams m n ts b).2.program = { b.program with vars } := by
  induction ts generalizing n b with
  | nil => exact ⟨_, rfl⟩
  | cons t ts ih =>
      obtain ⟨vars, hvars⟩ := ih (b := (b.addVar m ("p" ++ toString n) t).2) (n + 1)
      refine ⟨vars, hvars.trans ?_⟩
      simp [addVar]

/-- Creating parameters changes no other variable. -/
theorem creates_addParams_of_creates (m' : MethodId) (h : b.program.Creates m v type) (n : Nat)
    (ts : List JavaType) : (addParams m' n ts b).2.program.Creates m v type :=
  (edits_addParams m' n ts).keeps (I := fun p => p.Creates m v type)
    (fun hedit => Program.creates_of_edit hedit) h

/-- Parameters are created for their method, with the types that are asked for. -/
theorem creates_addParams (n : Nat) (ts : List JavaType) :
    (∀ v ∈ (addParams m n ts b).1, ∃ type, (addParams m n ts b).2.program.Creates m v type) ∧
      ∀ v type, (v, type) ∈ (addParams m n ts b).1.zip ts →
        (addParams m n ts b).2.program.Creates m v type := by
  induction ts generalizing n b with
  | nil => exact ⟨fun _ hv => absurd hv List.not_mem_nil, fun _ _ h => absurd h List.not_mem_nil⟩
  | cons t ts ih =>
      obtain ⟨hall, htyped⟩ := ih (b := (b.addVar m ("p" ++ toString n) t).2) (n + 1)
      have hfirst := creates_addParams_of_creates m
        (creates_addVar (b := b) m ("p" ++ toString n) t) (n + 1) ts
      refine ⟨fun v hv => ?_, fun v type h => ?_⟩
      · rcases List.mem_cons.1 hv with rfl | hv
        · exact ⟨t, hfirst⟩
        · exact hall v hv
      · rcases List.mem_cons.1 h with heq | h
        · cases heq
          exact hfirst
        · exact htyped v type h

/-- The variables for parameters come after all that were there, and differ. -/
theorem nodup_addParams (m : MethodId) (n : Nat) (ts : List JavaType) :
    (∀ v ∈ (addParams m n ts b).1, b.program.vars.size ≤ v.index) ∧
      (addParams m n ts b).1.Nodup := by
  induction ts generalizing n b with
  | nil => exact ⟨fun v hv => absurd hv List.not_mem_nil, List.nodup_nil⟩
  | cons t ts ih =>
      obtain ⟨hlater, hnodup⟩ := ih (b := (b.addVar m ("p" ++ toString n) t).2) (n + 1)
      have hsize : (b.addVar m ("p" ++ toString n) t).2.program.vars.size =
          b.program.vars.size + 1 := by
        simp [addVar]
      rw [hsize] at hlater
      refine ⟨fun v hv => ?_, List.nodup_cons.2 ⟨fun hv => ?_, hnodup⟩⟩
      · rcases List.mem_cons.1 hv with rfl | hv
        · exact Nat.le_refl _
        · exact Nat.le_of_succ_le (hlater v hv)
      · exact absurd (hlater _ hv) (Nat.not_succ_le_self _)

/-! ## Declarations -/

/-- A class is added, unless there is one of its name. -/
theorem edits_addClass (b : Builder) (d : ClassDecl) :
    Edits b.program (b.addClass d).2.program := by
  unfold addClass
  split
  · exact .refl
  · dsimp only
    rw [program_reserve]
    exact .single (.cls rfl rfl)

/-- The variables of a method are created first. -/
theorem edits_addMethod (b : Builder) (d : MethodDecl) :
    Edits b.program (b.addMethod d).2.program := by
  have hreceiver := edits_addReceiver (b := b.reserve .method b.program.methods.size)
    ⟨b.program.methods.size⟩ d
  rw [program_reserve] at hreceiver
  obtain ⟨vars, hvars⟩ := exists_program_addReceiver
    (b := b.reserve .method b.program.methods.size) ⟨b.program.methods.size⟩ d
  obtain ⟨vars', hvars'⟩ := exists_program_addParams
    (b := ((b.reserve .method b.program.methods.size).addReceiver ⟨b.program.methods.size⟩ d).2)
    ⟨b.program.methods.size⟩ 0 d.params
  obtain ⟨hparams, htyped⟩ := creates_addParams (m := ⟨b.program.methods.size⟩) 0 d.params
    (b := ((b.reserve .method b.program.methods.size).addReceiver ⟨b.program.methods.size⟩ d).2)
  refine (hreceiver.trans (edits_addParams ⟨b.program.methods.size⟩ 0 d.params)).tail
    (.method ?_ ⟨isSome_addReceiver _ _, (nodup_addParams _ _ _).2, ?_, htyped⟩)
  · rw [hvars', hvars, program_reserve]
  · rintro v (hv | hv)
    · exact ⟨_, creates_addParams_of_creates _ (creates_addReceiver hv) 0 d.params⟩
    · exact hparams v hv

/-- A call site is added, and then the statement that calls it. -/
theorem edits_addInvoke (b : Builder) (m : MethodId) {make : InvokeId → Invoke}
    (hmake : ∀ i, (make i).id = i) : Edits b.program (b.addInvoke m make).2.program := by
  simp only [addInvoke, addStmt, program_reserve]
  exact .tail (.single (.invoke (hmake _))) (.stmt m _)

/-- Every declaration consists of elementary steps. -/
theorem edits_declare (b : Builder) (d : Declaration) :
    Edits b.program (b.declare d).program := by
  cases d with
  | cls d => exact edits_addClass b d
  | field d =>
      simp only [declare, addField, program_reserve]
      exact .single (.field _)
  | method d => exact edits_addMethod b d
  | var m name type => exact .single (b.edit_addVar m name type)
  | stmt m s => exact .single (.stmt m s)
  | call m d => exact edits_addInvoke b m fun _ => rfl
  | dynamicCall m d => exact edits_addInvoke b m fun _ => rfl
  | line site line => exact .single (.line site line)

/-- What the new builder has and every declaration keeps, however a program is assembled. -/
theorem ofList_induction {motive : Builder → Prop} (hnew : motive new)
    (hdeclare : ∀ b, motive b → ∀ d, motive (b.declare d)) (ds : List Declaration) :
    motive (ofList ds) := by
  unfold ofList
  generalize new = b at hnew
  induction ds generalizing b with
  | nil => exact hnew
  | cons d ds ih => exact ih _ (hdeclare b hnew d)

/-- However a program is assembled, it comes from the new one by elementary steps. -/
theorem edits_ofList (ds : List Declaration) : Edits new.program (ofList ds).program :=
  ofList_induction (motive := fun b => Edits new.program b.program) .refl
    (fun b h d => h.trans (edits_declare b d)) ds

/-- So its methods are equipped. -/
theorem equipped_ofList (ds : List Declaration) : (ofList ds).program.Equipped :=
  (edits_ofList ds).keeps Program.equipped_of_edit fun _ _ hm => nomatch hm

end Builder

end PointsTo
