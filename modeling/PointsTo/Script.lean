import PointsTo.Plugin

/-!
# Scripted plugins

A plugin that is written down as data: it reports every event in the notes of the
run, and it has rules that answer certain events with requests.  Scripts stand in
for the plugins that clients write.

Main definitions:

- {lit}`Script.Rule`, {lit}`Script.Action`: what a script says.
- {lit}`Event.text`: how events are reported.
- {lit}`Script.plugin`: the plugin.
-/

namespace PointsTo

/-- The written form of a points-to set: a list of quoted objects. -/
def objSetText (os : ObjSet) : String :=
  "[" ++ ",".intercalate (os.toList.map fun o => "\"" ++ o.text ++ "\"") ++ "]"

namespace Event

/-- The kinds of events. -/
inductive Kind where
  | start
  | finish
  | method
  | methodIn
  | unresolved
  | edge
  | grown
deriving DecidableEq

def kind : Event → Kind
  | start => .start
  | finish => .finish
  | method _ => .method
  | methodIn _ => .methodIn
  | unresolved .. => .unresolved
  | edge _ => .edge
  | grown .. => .grown

/-- The number by which rules tell events of one kind apart: the method, the call
site, the callee or the variable. -/
def key? : Event → Option Nat
  | start | finish => none
  | method m => some m.index
  | methodIn m => some m.item.index
  | unresolved _ _ site => some site.index
  | edge e => some e.callee.item.index
  | grown v _ => some v.item.index

/-- How an event is reported. -/
def text : Event → String
  | start => "start"
  | finish => "finish"
  | method m => "method " ++ m.text
  | methodIn m => "cs_method " ++ m.text
  | unresolved o context site =>
    "unresolved " ++ o.text ++ " " ++ context.text ++ " " ++ site.text
  | edge e => "edge " ++ e.text
  | grown v delta => "pts " ++ v.text ++ " += " ++ objSetText delta

end Event

namespace Script

/-- What a rule asks for. -/
inductive Action where
  | mock (m : MockObj)
  | addPointsTo (p : Pointer) (os : List QObj)
  | addVarObj (v : QVar) (o : QObj)
  | addFlow (e : FlowEdge)
  | addCall (e : CallEdge)
  | callContext (site : QSite) (receiver : Option QObj)
  | heapContext (method : QMethod)
  | read (p : Pointer)
  | obj (o : ObjId)
  | options
  | fail (reason : String)

/-- Actions for the events of a kind, or for those with a certain key. -/
structure Rule where
  kind : Event.Kind
  key : Option Nat
  actions : List Action

end Script

/-- A scripted plugin. -/
structure Script where
  name : String
  rules : List Script.Rule

namespace Script

/-- The rule answers the event. -/
def Rule.fires (r : Rule) (e : Event) : Bool :=
  decide (r.kind = e.kind) && (r.key.isNone || decide (r.key = e.key?))

/-- Report something under the name of the script. -/
def report (s : Script) (line : String) : Service Unit := Service.note (s.name ++ ": " ++ line)

/-- Ask for what an action says, and report what the answer is. -/
def act (env : Setting) (s : Script) : Action → Service Unit
  | .mock m => do
    let o ← Service.mock m
    s.report ("mock " ++ o.text)
  | .addPointsTo p os => Service.addPointsTo p (.ofList os)
  | .addVarObj v o => Service.addVarObj v.context v.item o
  | .addFlow e => Service.addFlow e
  | .addCall e => Service.addCall e
  | .callContext site receiver => do
    let c ← Service.callContext site receiver
    s.report ("selected " ++ c.text)
  | .heapContext method => do
    let c ← Service.heapContext method
    s.report ("heap " ++ c.text)
  | .read p => do
    let os ← Service.pointsTo p
    s.report ("read " ++ p.text ++ " = " ++ objSetText os)
  | .obj o => do
    let obj ← Service.obj o
    s.report ("obj " ++ obj.text)
  | .options =>
    s.report ("k=" ++ toString env.options.k ++ " methods="
      ++ toString env.program.methods.size)
  | .fail reason => .fail (.program reason)

def react (env : Setting) (e : Event) (s : Script) : Service Script := do
  s.report e.text
  (s.rules.filter fun r => r.fires e).forM fun r => r.actions.forM (act env s)
  return s

/-- The plugin that does what scripts say. -/
def plugin : Plugin Script where
  name := Script.name
  react := react

end Script

end PointsTo
