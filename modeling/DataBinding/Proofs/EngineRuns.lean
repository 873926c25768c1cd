import DataBinding.Engine.Basic

/-!
Runs: the moves of the environment and of the engine itself, one after the other from an empty engine. The
code of callbacks is not fixed: between the request for a callback and its result the environment makes any
moves.
-/

namespace DataBinding

/-- What the environment can do to documents. An edit that fails changes nothing. -/
inductive Edit where
  | createDocument (trees : List Markup.Tree)
  | createElement (tag : String)
  | createText (content : String)
  | createFragment
  | append (p c : NodeId)
  | setAttribute (n : NodeId) (name value : String)
  | removeAttribute (n : NodeId) (name : String)
  | setText (n : NodeId) (text : String)
  | setValue (n : NodeId) (value : String)
  | listen (n : NodeId) (event : String) (callback : CallbackId)
  | retain (n : NodeId)
  | release (n : NodeId)

def Edit.apply (f : Forest) : Edit → Forest
  | .createDocument trees => (f.createDocument trees).2
  | .createElement tag => (f.createElement tag).2
  | .createText content => (f.create (.text content)).2
  | .createFragment => (f.create .fragment).2
  | .append p c => (f.append p c).toOption.getD f
  | .setAttribute n name value => (f.setAttribute n name value).toOption.getD f
  | .removeAttribute n name => f.removeAttribute n name
  | .setText n text => (f.setText n text).toOption.getD f
  | .setValue n value => (f.setValue n value).toOption.getD f
  | .listen n event callback => f.listen n event (.call callback)
  | .retain n => f.retain n
  | .release n => f.release n

/-- A step of the engine, or something that the environment does in its turn. -/
inductive Move where
  | step
  | resume (r : Except Error Unit)
  | write (s : StoreId) (key : String) (v : Value)
  | writePath (s : StoreId) (path : Path) (v : Value)
  | notify (r : RegistryRef)
  | run (s : SubscriberId)
  | call (m : ModelId) (name : String) (event : Event)
  | dispatch (n : NodeId) (event : Event)
  | input (n : NodeId) (text : String)
  | readPath (reader : Option SubscriberId) (s : StoreId) (path : Path)
  | register (r : RegistryRef) (s : SubscriberId)
  | createStore (pairs : List (String × Value))
  | createRegistry
  | createModel (m : ViewModel)
  | createSubscriber (identity : Option SubscriberId) (callback : CallbackId)
  | createWatcher (m : ModelId) (path : Path) (callback : CallbackId)
  | retain (s : SubscriberId)
  | release (s : SubscriberId)
  | createCompiler (document : NodeId) (selector : String) (m : ModelId)
  | init (c : CompilerId)
  | dropCompiler (c : CompilerId)
  | edit (change : Edit)

def Move.isStep : Move → Bool
  | .step => true
  | _ => false

def Frame.isPass : Frame → Bool
  | .pass _ _ _ _ => true
  | _ => false

def Frame.pending : Frame → List SubscriberId
  | .pass _ _ pending _ => pending
  | _ => []

def Frame.holds (s : SubscriberId) : Frame → Nat
  | .pass _ (some t) _ _ => if t = s then 1 else 0
  | .run t => if t = s then 1 else 0
  | _ => 0

def Compiler.holds (s : SubscriberId) (c : Compiler) : Nat := if c.dropped then 0 else c.watchers.count s

def Graph.keeps (g : Graph) (s : SubscriberId) : Nat :=
  Table.total (Compiler.holds s) g.compilers.entries.toList

namespace Engine

def perform (e : Engine) : Move → Engine
  | .step => e.step?.getD e
  | .resume r => e.resume r
  | .write s key v => e.write s key v
  | .writePath s path v => e.writePath s path v
  | .notify r => e.notify r
  | .run s => e.run s
  | .call m name event => e.call m name event
  | .dispatch n event => e.dispatch n event
  | .input n text => e.input n text
  | .readPath reader s path => { e with graph := (e.graph.readPath reader s path).2 }
  | .register r s => { e with graph := e.graph.register r s }
  | .createStore pairs => { e with graph := (e.graph.createStore pairs).2 }
  | .createRegistry => { e with graph := e.graph.createRegistry.2 }
  | .createModel m => { e with graph := (e.graph.createModel m).2 }
  | .createSubscriber identity callback =>
    { e with graph := (e.graph.createSubscriber identity (.call callback)).2 }
  | .createWatcher m path callback => { e with graph := (e.graph.createWatcher m path (.call callback)).2 }
  | .retain s => { e with graph := e.graph.retain s }
  | .release s => { e with graph := e.graph.release s }
  | .createCompiler document selector m =>
    { e with graph := (e.graph.createCompiler { document, selector, model := m }).2 }
  | .init c => { e with graph := (e.graph.init c).2 }
  | .dropCompiler c => { e with graph := e.graph.dropCompiler c }
  | .edit change => { e with graph := { e.graph with forest := change.apply e.graph.forest } }

def bound (e : Engine) (s : SubscriberId) : Nat :=
  Table.total (Frame.holds s) e.frames + e.graph.keeps s

/-- Whether the environment has what a move speaks of: it names what exists, gives up only holds of its own
and ends only callbacks that have begun. -/
def Has (e : Engine) : Move → Prop
  | .resume _ => e.frames ≠ []
  | .run s | .retain s | .register _ s => e.graph.alive s
  | .release s => e.bound s < (e.graph.subscriber s).holders
  | .readPath reader _ _ => ∀ s ∈ reader, s.index < e.graph.subscribers.size
  | .createWatcher m _ _ | .createCompiler _ _ m | .call m _ _ => m.index < e.graph.models.size
  | .init c | .dropCompiler c => c.index < e.graph.compilers.size ∧ (e.graph.compiler c).dropped = false
  | _ => True

/-- The engine steps while it can, and the environment moves while it cannot. -/
def Allows (e : Engine) (m : Move) : Prop := (m = .step ↔ e.step?.isSome) ∧ e.Has m

def updated? (e : Engine) : Move → Option SubscriberId
  | .step => match e.turn, e.frames with
    | .next, .pass _ _ (s :: _) _ :: _ => if e.graph.alive s then some s else none
    | _, _ => none
  | .run s => some s
  | _ => none

def typed? (e : Engine) (event : Event) : Listener → Option (StoreId × String)
  | .input m path r => event.value.bind fun text =>
    if (e.graph.model m).options.changeDetection.same (.string text) (e.graph.record r) then none
    else (e.graph.walk? (e.graph.model m).data path.parents).map (·, path.last)
  | _ => none

def written? (e : Engine) : Move → Option (StoreId × String)
  | .step => match e.turn, e.frames with
    | .next, .delivery _ event (listener :: _) _ :: _ => e.typed? event listener
    | _, _ => none
  | .write s key _ => some (s, key)
  | .writePath s path _ => (e.graph.walk? s path.parents).map (·, path.last)
  | _ => none

def makes (e : Engine) (m : Move) (s : SubscriberId) : Bool :=
  e.graph.subscribers.size ≤ s.index && s.index < (e.perform m).graph.subscribers.size

theorem makes_iff {e : Engine} {m : Move} {s : SubscriberId} :
    e.makes m s = true ↔ e.graph.subscribers.size ≤ s.index ∧ s.index < (e.perform m).graph.subscribers.size := by
  rw [makes, Bool.and_eq_true, decide_eq_true_eq, decide_eq_true_eq]

def evaluates (e : Engine) (m : Move) (s : SubscriberId) : Bool := e.updated? m = some s || e.makes m s

/-- No notification is under way. -/
def Settled (e : Engine) : Prop := ∀ f ∈ e.frames, f.isPass = false

end Engine

abbrev History := List (Engine × Move)

inductive Run : History → Engine → Prop
  | start : Run [] {}
  | move {h : History} {e : Engine} {m : Move} (run : Run h e) (allowed : e.Allows m) :
    Run ((e, m) :: h) (e.perform m)

namespace Run

variable {h h₁ h₀ : History} {e e₀ : Engine}

theorem earlier (run : Run (h₁ ++ h₀) e) : ∃ e₀, Run h₀ e₀ := by
  induction h₁ generalizing e with
  | nil => exact ⟨e, run⟩
  | cons x h₁ ih =>
    cases run with
    | move run _ => exact ih run

theorem unique (run : Run h e) (run₀ : Run h e₀) : e = e₀ := by
  cases run with
  | start =>
    cases run₀
    rfl
  | move _ _ =>
    cases run₀
    rfl

theorem of_move {m : Move} (run : Run (h₁ ++ (e₀, m) :: h₀) e) :
    Run h₀ e₀ ∧ e₀.Allows m ∧ Run ((e₀, m) :: h₀) (e₀.perform m) := by
  obtain ⟨e', run⟩ := run.earlier
  cases run with
  | move run allowed => exact ⟨run, allowed, run.move allowed⟩

/-- What holds of a state and is kept by every move from there on holds in the end. The moves from there on are known:
what is assumed of all of them may be used of each. -/
theorem along {P : History → Engine → Prop} (run₀ : Run h₀ e₀) (run : Run (h₁ ++ h₀) e) (start : P [] e₀)
    (move : ∀ h e m, (e, m) :: h <:+ h₁ → Run (h ++ h₀) e → e.Allows m → P h e → P ((e, m) :: h) (e.perform m)) :
    P h₁ e := by
  induction h₁ generalizing e with
  | nil =>
    rw [← run₀.unique run]
    exact start
  | cons x h₁ ih =>
    cases run with
    | move earlier allowed =>
      apply move _ _ _ (List.suffix_refl _) earlier allowed
      exact ih earlier fun h e m part => move h e m (part.trans (List.suffix_cons _ _))

theorem onward {P : Engine → Prop} (run₀ : Run h₀ e₀) (run : Run (h₁ ++ h₀) e) (start : P e₀)
    (move : ∀ h e m, Run h e → e.Allows m → P e → P (e.perform m)) : P e :=
  run₀.along (P := fun _ => P) run start fun _ _ _ _ => move _ _ _

end Run

theorem Move.isStep_iff (m : Move) : m.isStep = true ↔ m = .step := by
  cases m <;> simp [isStep]

instance (m : Move) : Decidable (m = .step) := decidable_of_iff _ m.isStep_iff

namespace Engine

instance (e : Engine) : (m : Move) → Decidable (e.Has m)
  | .resume _ => inferInstanceAs (Decidable (e.frames ≠ []))
  | .run s | .retain s | .register _ s => inferInstanceAs (Decidable (e.graph.alive s = true))
  | .release s => inferInstanceAs (Decidable (e.bound s < (e.graph.subscriber s).holders))
  | .readPath reader _ _ => inferInstanceAs (Decidable (∀ s ∈ reader, s.index < e.graph.subscribers.size))
  | .createWatcher m _ _ | .createCompiler _ _ m | .call m _ _ =>
    inferInstanceAs (Decidable (m.index < e.graph.models.size))
  | .init c | .dropCompiler c =>
    inferInstanceAs (Decidable (c.index < e.graph.compilers.size ∧ (e.graph.compiler c).dropped = false))
  | .step | .write _ _ _ | .writePath _ _ _ | .notify _ | .dispatch _ _ | .input _ _ | .createStore _
  | .createRegistry | .createModel _ | .createSubscriber _ _ | .edit _ => isTrue trivial

instance (e : Engine) (m : Move) : Decidable (e.Allows m) :=
  inferInstanceAs (Decidable ((m = .step ↔ e.step?.isSome) ∧ e.Has m))

instance (e : Engine) : Decidable e.Settled := inferInstanceAs (Decidable (∀ f ∈ e.frames, f.isPass = false))

def admits (e : Engine) : List Move → Bool
  | [] => true
  | m :: ms => e.Allows m && (e.perform m).admits ms

def trace (e : Engine) : List Move → History
  | [] => []
  | m :: ms => (e.perform m).trace ms ++ [(e, m)]

def after (e : Engine) (ms : List Move) : Engine := ms.foldl perform e

end Engine

theorem Run.after {h : History} {e : Engine} (run : Run h e) (ms : List Move)
    (admitted : e.admits ms = true) :
    Run (e.trace ms ++ h) (e.after ms) := by
  induction ms generalizing h e with
  | nil => exact run
  | cons m ms ih =>
    simp only [Engine.admits, Bool.and_eq_true, decide_eq_true_eq] at admitted
    rw [Engine.trace, List.append_assoc]
    exact ih (.move run admitted.1) admitted.2

theorem Run.of_admits {ms : List Move} (admitted : Engine.admits {} ms = true) :
    Run (Engine.trace {} ms) (Engine.after {} ms) := by
  have run := Run.after .start _ admitted
  rw [List.append_nil] at run
  exact run

end DataBinding
