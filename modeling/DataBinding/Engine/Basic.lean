import DataBinding.Compilation

/-!
The engine: changes to a reactive graph and the notifications that they cause. The code of subscribers, methods
and listeners belongs to the environment. Where such code is due the engine asks for it and waits; the code may
use the engine in turn, and its result is handed back with `resume`.
-/

namespace DataBinding

structure Event where
  kind : String
  value : Option String := none
  deriving DecidableEq

inductive Occasion where
  | update
  | change (model : ModelId) (new old : Value)
  | invocation (model : ModelId) (event : Event)
  | event (event : Event)

inductive Outcome where
  | done (result : Except Error Unit)
  | failures (errors : List Error)

inductive Reply where
  | call (callback : CallbackId) (occasion : Occasion)
  | answer (outcome : Outcome)

/-- Who gets the result of a pass: whoever asked for it, with or without the key that was written, or the
delivery of an event below it. -/
inductive Purpose where
  | write (key : String)
  | notify
  | input (key : String)

/-- Work under way. Whoever is being notified is kept until it is done, and so is the node of an event. -/
inductive Frame where
  | pass (purpose : Purpose) (running : Option SubscriberId) (pending : List SubscriberId)
      (failures : List Error)
  | run (watcher : SubscriberId)
  | method
  | delivery (node : NodeId) (event : Event) (pending : List Listener) (first : Option Error)

/-- Whose turn it is: that of the environment, which has been given a reply, or that of the innermost work, which
looks for what comes next or takes in the result of what it has started. -/
inductive Turn where
  | environment (reply : Reply)
  | next
  | result (r : Except Error Unit)

structure Engine where
  graph : Graph := {}
  frames : List Frame := []
  turn : Turn := .environment (.answer (.done (.ok ())))

def failuresOf : Except Error Unit → List Error
  | .ok _ => []
  | .error e => [e]

def writeResult (key : String) : List Error → Except Error Unit
  | [] => .ok ()
  | failures => .error (.failedSubscribers key failures)

namespace Engine

def answer (e : Engine) (r : Except Error Unit) : Engine :=
  { e with turn := .environment (.answer (.done r)) }

def startPass (e : Engine) (purpose : Purpose) (r : RegistryRef) : Engine :=
  { graph := e.graph.prune r
    frames := .pass purpose none (e.graph.live r) [] :: e.frames
    turn := .next }

def startWrite (e : Engine) (purpose : Purpose) (s : StoreId) (key : String) (v : Value) : Engine :=
  startPass { e with graph := e.graph.install s key v } purpose (.property s key)

/-- Updates a subscriber. A watcher acts only on a change; what it writes to a document is written at once. -/
def update (e : Engine) (s : SubscriberId) : Engine :=
  match (e.graph.subscriber s).role with
  | .call callback => { e with turn := .environment (.call callback .update) }
  | .watch w => match e.graph.refresh s w with
    | (none, g) => { e with graph := g, turn := .result (.ok ()) }
    | (some (new, old), g) => match w.reaction with
      | .call callback => { e with graph := g, turn := .environment (.call callback (.change w.model new old)) }
      | reaction => match g.present new reaction with
        | .ok g => { e with graph := g, turn := .result (.ok ()) }
        | .error err => { e with graph := g, turn := .result (.error (.document err)) }

/-- Runs a listener. Text that a model binding has seen last goes no further; any other text is recorded and
written. -/
def hear (e : Engine) (event : Event) : Listener → Engine
  | .call callback => { e with turn := .environment (.call callback (.event event)) }
  | .method m callback => { e with turn := .environment (.call callback (.invocation m event)) }
  | .input m path r => match event.value with
    | none => { e with turn := .result (.ok ()) }
    | some text =>
      let model := e.graph.model m
      if model.options.changeDetection.same (.string text) (e.graph.record r) then
        { e with turn := .result (.ok ()) }
      else
        let g := e.graph.setRecord r (.string text)
        match g.walk? model.data path.parents with
        | some s => startWrite { e with graph := g } (.input path.last) s path.last (.string text)
        | none => { e with graph := g, turn := .result (.error (.pathNotFound path)) }

def proceed (e : Engine) : Engine :=
  match e.frames with
  | [] => e.answer (.ok ())
  | .pass purpose _ [] failures :: rest =>
    let e := { e with frames := rest }
    match purpose with
    | .write key => e.answer (writeResult key failures)
    | .notify => { e with turn := .environment (.answer (.failures failures)) }
    | .input key => { e with turn := .result (writeResult key failures) }
  | .pass purpose _ (s :: pending) failures :: rest =>
    if e.graph.alive s then
      update { e with graph := e.graph.retain s, frames := .pass purpose (some s) pending failures :: rest } s
    else { e with frames := .pass purpose none pending failures :: rest }
  | .delivery n _ [] first :: rest =>
    { e with graph := { e.graph with forest := e.graph.forest.release n }, frames := rest }.answer
      (match first with
        | some err => .error err
        | none => .ok ())
  | .delivery n event (listener :: pending) first :: rest =>
    hear { e with frames := .delivery n event pending first :: rest } event listener
  | .run s :: rest => { e with graph := e.graph.release s, frames := rest }.answer (.ok ())
  | .method :: rest => { e with frames := rest }.answer (.ok ())

def accept (e : Engine) (r : Except Error Unit) : Engine :=
  match e.frames with
  | [] => e.answer r
  | .pass purpose running pending failures :: rest =>
    let g := match running with
      | some s => e.graph.release s
      | none => e.graph
    { graph := g, frames := .pass purpose none pending (failures ++ failuresOf r) :: rest, turn := .next }
  | .delivery n event pending first :: rest =>
    { e with frames := .delivery n event pending (first.or (failuresOf r).head?) :: rest, turn := .next }
  | .run s :: rest => { e with graph := e.graph.release s, frames := rest }.answer r
  | .method :: rest => { e with frames := rest }.answer r

def step? (e : Engine) : Option Engine :=
  match e.turn with
  | .environment _ => none
  | .next => some e.proceed
  | .result r => some (e.accept r)

def resume (e : Engine) (r : Except Error Unit) : Engine := { e with turn := .result r }

def write (e : Engine) (s : StoreId) (key : String) (v : Value) : Engine := e.startWrite (.write key) s key v

def writePath (e : Engine) (s : StoreId) (path : Path) (v : Value) : Engine :=
  match e.graph.walk? s path.parents with
  | some t => e.write t path.last v
  | none => e.answer (.error (.pathNotFound path))

def notify (e : Engine) (r : RegistryRef) : Engine := e.startPass .notify r

def run (e : Engine) (s : SubscriberId) : Engine :=
  update { e with graph := e.graph.retain s, frames := .run s :: e.frames } s

def call (e : Engine) (m : ModelId) (name : String) (event : Event) : Engine :=
  match (e.graph.model m).methods.get? name with
  | some callback =>
    { e with frames := .method :: e.frames, turn := .environment (.call callback (.invocation m event)) }
  | none => e.answer (.error (.unknownMethod name "call"))

def dispatch (e : Engine) (n : NodeId) (event : Event) : Engine :=
  { graph := { e.graph with forest := e.graph.forest.retain n }
    frames := .delivery n event (e.graph.forest.listeners n event.kind) none :: e.frames
    turn := .next }

def input (e : Engine) (n : NodeId) (text : String) : Engine :=
  match e.graph.forest.setValue n text with
  | .ok forest => dispatch { e with graph := { e.graph with forest } } n ⟨"input", some text⟩
  | .error err => e.answer (.error (.document err))

end Engine

end DataBinding
