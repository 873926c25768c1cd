import DataBinding.Script.Course

/-!
Running scripts. Work of the engine is driven on until it is done; callbacks that fall due on the way are run as
scripts.
-/

namespace DataBinding.Script

namespace Run

def entry (g : Graph) : Label → Occasion → Entry
  | .watcher name, .change _ new old => .watcher name (g.snapshot new) (g.snapshot old)
  | .method name, .invocation _ event => .method name event
  | .listener name, .event event => .listener name event
  | .subscriber name, _ | .watcher name, _ | .method name, _ | .listener name, _ => .subscriber name

def scopeOf : Occasion → Scope
  | .update => {}
  | .change _ new old => { change := some (new, old) }
  | .invocation _ event | .event event => { event := some event }

def attempt {α : Type} (x : Run α) : Run (Except Error α) := ExceptT.lift x.run

def exhausted : Error := .failedListener "driver" "no end"

def ofOutcome : Outcome → Run Report
  | .done (.ok ()) => return .none
  | .done (.error e) => throw e
  | .failures errors => return .list (errors.map .error)

mutual

def drive : Nat → Run Outcome
  | 0 => throw exhausted
  | steps + 1 => do
    let e := (← get).engine
    match e.turn with
    | .environment (.answer outcome) => return outcome
    | .environment (.call callback occasion) => do
      let r ← runCallback steps callback occasion
      modifyEngine (·.resume r)
      drive steps
    | _ => do
      modifyEngine fun e => e.step?.getD e
      drive steps

def runCallback : Nat → CallbackId → Occasion → Run (Except Error Unit)
  | 0, _, _ => throw exhausted
  | steps + 1, callback, occasion => do
    let c := (← get).callbacks.get callback.index
    record (entry (← graph) c.label occasion)
    attempt (runAll steps (scopeOf occasion) c.body)

def runAll : Nat → Scope → List Step → Run Unit
  | _, _, [] => return
  | 0, _, _ => throw exhausted
  | steps + 1, scope, step :: rest => do
    let outcome ← attempt (act steps scope step.action)
    if step.log then record (.outcome outcome)
    match outcome with
    | .ok _ => runAll steps scope rest
    | .error e => throw e

def act : Nat → Scope → Action → Run Report
  | 0, _, _ => throw exhausted
  | steps + 1, scope, action => do
    match ← start scope action with
    | .done r => return r
    | .started => ofOutcome (← drive steps)
    | .within body => do
      runAll steps scope body
      return .flag true

end

end Run

structure Command where
  action : Action
  quiet : Bool

namespace Session

def limit : Nat := 1000000

def perform (s : Session) (action : Action) : Except Error Report × Session :=
  (Run.act limit {} action).run.run s

def performAll (s : Session) : List Action → List (Except Error Report) × Session
  | [] => ([], s)
  | action :: rest =>
    let (r, s) := s.perform action
    let (rs, s) := s.performAll rest
    (r :: rs, s)

def command (s : Session) (observers : List Action) (c : Command) : Shown × Session :=
  let (result, s) := { s with log := [] }.perform c.action
  let (observed, s) := if c.quiet then ([], s) else s.performAll observers
  (⟨result, s.log, observed⟩, s)

def commands (s : Session) (observers : List Action) : List Command → List Shown
  | [] => []
  | c :: rest =>
    let (shown, s) := s.command observers c
    shown :: s.commands observers rest

end Session

end DataBinding.Script
