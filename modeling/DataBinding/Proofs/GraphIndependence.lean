import DataBinding.Proofs.DocumentFrame
import DataBinding.Proofs.KeptSubscribers
import DataBinding.Proofs.SplitEngines

namespace DataBinding

variable {S : Share} {g g' g₀ : Graph} {e e' : Engine} {m : Move} {f : Frame} {turn : Turn}
  {stack : List (Bool × Frame)}

def Move.answers : Move → Bool
  | .step | .resume _ | .write _ _ _ | .writePath _ _ _ | .notify _ | .run _ | .call _ _ _ | .dispatch _ _
  | .input _ _ => true
  | _ => false

def Move.mounts : Move → Bool
  | .createCompiler _ _ _ | .init _ => true
  | _ => false

def Graph.blanks (g g' : Graph) : List Move :=
  List.replicate (g'.stores.size - g.stores.size) (.createStore []) ++
  List.replicate (g'.registries.size - g.registries.size) .createRegistry ++
  List.replicate (g'.subscribers.size - g.subscribers.size) (.createSubscriber none default) ++
  List.replicate (g'.models.size - g.models.size) (.createModel default) ++
  List.replicate (g'.forest.size - g.forest.size) (.edit .createFragment)

namespace Engine

/-- The moves of the one side, with blanks in place of what the other one makes. -/
def alone : Engine → List (Bool × Move) → List (Bool × Move)
  | _, [] => []
  | e, (true, m) :: ms => (true, m) :: (e.perform m).alone ms
  | e, (false, m) :: ms => (e.graph.blanks (e.perform m).graph).map (false, ·) ++ (e.perform m).alone ms

def runs (S : Share) (e : Engine) (m : Move) : Bool :=
  (e.updated? m).any (S .subscriber ·.index) || (e.heard? m).any (S .node ·.1.index) ||
    match m with
    | .call m _ _ => S .model m.index
    | _ => false

/-- What the one side is told: the answers to its moves, and all requests to run callbacks of its own, whoever's move
it is that leads to them. -/
def told (S : Share) : Engine → List (Bool × Move) → List Turn
  | _, [] => []
  | e, (b, m) :: ms =>
    (if m.answers && (b || e.runs (S.side true) m) then [(e.perform m).turn] else []) ++ (e.perform m).told S ms

end Engine

structure Fills (added : Kind → Nat) (e e' : Engine) : Prop where
  frames : e'.frames = e.frames
  turn : e'.turn = e.turn
  count : ∀ kind, e'.graph.count kind = e.graph.count kind + added kind
  kept : e.graph.Matches e.graph.made e'.graph

namespace Fills

variable {e₁ e₂ e₃ : Engine} {added added' : Kind → Nat}

theorem refl (e : Engine) : Fills (fun _ => 0) e e where
  frames := rfl
  turn := rfl
  count _ := rfl
  kept := .refl e.graph

theorem trans (h : Fills added e₁ e₂) (h' : Fills added' e₂ e₃) :
    Fills (fun kind => added kind + added' kind) e₁ e₃ where
  frames := h'.frames.trans h.frames
  turn := h'.turn.trans h.turn
  count kind := by rw [h'.count, h.count, Nat.add_assoc]
  kept := by
    refine h.kept.trans (h'.kept.weaken fun kind i old => decide_eq_true ?_)
    have old := of_decide_eq_true old
    rw [h.count]
    exact Nat.lt_add_right _ old

end Fills

structure Blank (kind : Kind) (m : Move) : Prop where
  fills : ∀ e : Engine, Fills (fun k => if k = kind then 1 else 0) e (e.perform m)
  has : ∀ e : Engine, e.Has m
  others : m ≠ .step

theorem Blank.replicate {kind : Kind} (blank : Blank kind m) (n : Nat) (resting : e.step? = none) :
    e.admits (List.replicate n m) = true ∧
      Fills (fun k => if k = kind then n else 0) e (e.after (List.replicate n m)) := by
  induction n generalizing e with
  | zero =>
    simp only [List.replicate_zero, ite_self]
    exact ⟨rfl, .refl e⟩
  | succ n ih =>
    have first := blank.fills e
    obtain ⟨admitted, filled⟩ := ih ((Engine.resting_congr first.turn).2 resting)
    have allowed : e.Allows m := ⟨⟨fun h => absurd h blank.others, fun busy => by rw [resting] at busy; cases busy⟩,
      blank.has e⟩
    refine ⟨?_, ?_⟩
    · rw [List.replicate_succ, Engine.admits, admitted, decide_eq_true allowed]
      rfl
    · have both := first.trans filled
      have sum (k : Kind) :
          (if k = kind then 1 else 0) + (if k = kind then n else 0) = if k = kind then n + 1 else 0 := by
        split <;> omega
      simp only [sum] at both
      exact both

theorem blank_createStore : Blank .store (.createStore []) where
  fills e := ⟨rfl, rfl, fun kind => by cases kind <;> first | exact Table.size_add .. | rfl,
    ⟨Table.matches_add _ _, fun _ _ => rfl, fun _ _ => rfl, fun _ _ => rfl, fun _ _ => rfl, fun _ _ => rfl,
      fun _ _ => rfl⟩⟩
  has _ := trivial
  others := nofun

theorem blank_createRegistry : Blank .registry .createRegistry where
  fills e := ⟨rfl, rfl, fun kind => by cases kind <;> first | exact Table.size_add .. | rfl,
    ⟨fun _ _ => rfl, Table.matches_add _ _, fun _ _ => rfl, fun _ _ => rfl, fun _ _ => rfl, fun _ _ => rfl,
      fun _ _ => rfl⟩⟩
  has _ := trivial
  others := nofun

theorem blank_createSubscriber : Blank .subscriber (.createSubscriber none default) where
  fills e := ⟨rfl, rfl, fun kind => by cases kind <;> first | exact Table.size_add .. | rfl,
    ⟨fun _ _ => rfl, fun _ _ => rfl, Table.matches_add _ _, fun _ _ => rfl, fun _ _ => rfl, fun _ _ => rfl,
      fun _ _ => rfl⟩⟩
  has _ := trivial
  others := nofun

theorem blank_createModel : Blank .model (.createModel default) where
  fills e := ⟨rfl, rfl, fun kind => by cases kind <;> first | exact Table.size_add .. | rfl,
    ⟨fun _ _ => rfl, fun _ _ => rfl, fun _ _ => rfl, Table.matches_add _ _, fun _ _ => rfl, fun _ _ => rfl,
      fun _ _ => rfl⟩⟩
  has _ := trivial
  others := nofun

theorem blank_createFragment : Blank .node (.edit .createFragment) where
  fills e := ⟨rfl, rfl, fun kind => by cases kind <;> first | exact Table.size_add .. | rfl,
    ⟨fun _ _ => rfl, fun _ _ => rfl, fun _ _ => rfl, fun _ _ => rfl, fun _ _ => rfl, Table.matches_add _ _,
      fun _ _ => rfl⟩⟩
  has _ := trivial
  others := nofun

@[simp] theorem Engine.admits_append (e : Engine) (ms ms' : List Move) :
    e.admits (ms ++ ms') = (e.admits ms && (e.after ms).admits ms') := by
  induction ms generalizing e with
  | nil => rfl
  | cons m ms ih => rw [List.cons_append, admits, admits, ih, Bool.and_assoc]; rfl

@[simp] theorem Engine.after_append (e : Engine) (ms ms' : List Move) : e.after (ms ++ ms') = (e.after ms).after ms' :=
  List.foldl_append

theorem fills_blanks (g g' : Graph) (resting : e.step? = none) : e.admits (g.blanks g') = true ∧
    Fills (fun
      | .record | .compiler => 0
      | kind => g'.count kind - g.count kind) e (e.after (g.blanks g')) := by
  obtain ⟨admitted, stores⟩ := blank_createStore.replicate (g'.stores.size - g.stores.size) resting
  have resting := (Engine.resting_congr stores.turn).2 resting
  obtain ⟨admitted₁, registries⟩ := blank_createRegistry.replicate (g'.registries.size - g.registries.size) resting
  have resting := (Engine.resting_congr registries.turn).2 resting
  obtain ⟨admitted₂, subscribers⟩ :=
    blank_createSubscriber.replicate (g'.subscribers.size - g.subscribers.size) resting
  have resting := (Engine.resting_congr subscribers.turn).2 resting
  obtain ⟨admitted₃, models⟩ := blank_createModel.replicate (g'.models.size - g.models.size) resting
  have resting := (Engine.resting_congr models.turn).2 resting
  obtain ⟨admitted₄, nodes⟩ := blank_createFragment.replicate (g'.forest.size - g.forest.size) resting
  have all := (((stores.trans registries).trans subscribers).trans models).trans nodes
  simp only [Graph.blanks, Engine.admits_append, Engine.after_append, Bool.and_eq_true]
  refine ⟨⟨⟨⟨⟨admitted, admitted₁⟩, admitted₂⟩, admitted₃⟩, admitted₄⟩, all.frames, all.turn, fun kind => ?_, all.kept⟩
  rw [all.count]
  cases kind <;> simp [Graph.count]

theorem holds_of_theirs {P : Kind → Nat → Prop} {s : SubscriberId} (within : f.Within P)
    (other : ¬ P .subscriber s.index) : f.holds s = 0 := by
  have apart {t : SubscriberId} (ht : P .subscriber t.index) : t ≠ s := by
    rintro rfl
    exact other ht
  cases f with
  | pass purpose running pending failures =>
    cases running with
    | none => rfl
    | some t => exact if_neg (apart (within.1 t rfl))
  | run t => exact if_neg (apart within)
  | method => rfl
  | delivery n event pending first => rfl

theorem filter_ours {α : Type} (ours : List α) (rest : List (Bool × α)) :
    ((ours.map (true, ·) ++ rest).filter Prod.fst).map Prod.snd = ours ++ (rest.filter Prod.fst).map Prod.snd := by
  rw [List.filter_append, List.filter_eq_self.2, List.map_append, List.map_map]
  · exact congrArg (· ++ _) (List.map_id ours)
  · rintro _ mem
    obtain ⟨a, -, rfl⟩ := List.mem_map.1 mem
    rfl

theorem filter_theirs {α : Type} (theirs : List α) (rest : List (Bool × α)) :
    (theirs.map (false, ·) ++ rest).filter Prod.fst = rest.filter Prod.fst := by
  rw [List.filter_append, List.filter_eq_nil_iff.2, List.nil_append]
  rintro _ mem
  obtain ⟨a, -, rfl⟩ := List.mem_map.1 mem
  exact Bool.false_ne_true

theorem total_holds {s : SubscriberId} (none : ∀ x ∈ stack, x.1 = false → x.2.holds s = 0) :
    Table.total (Frame.holds s) ((stack.filter Prod.fst).map Prod.snd) =
      Table.total (Frame.holds s) (stack.map Prod.snd) := by
  induction stack with
  | nil => rfl
  | cons x stack ih =>
    have rest := ih fun y mem => none y (List.mem_cons_of_mem _ mem)
    obtain ⟨b, f⟩ := x
    cases b with
    | true => exact congrArg (f.holds s + ·) rest
    | false =>
      have gone : f.holds s = 0 := none (false, f) List.mem_cons_self rfl
      rw [List.map_cons, Table.total_cons, gone, Nat.zero_add]
      exact rest

theorem Table.total_congr {α : Type} [Inhabited α] {t t' : Table α} {f : α → Nat} (size : t'.size = t.size)
    (same : ∀ i, i < t.size → f (t'.get i) = f (t.get i)) : total f t'.entries.toList = total f t.entries.toList := by
  have entry (t : Table α) (i : Nat) (hi : i < t.entries.size) : t.get i = t.entries[i] := by
    rw [get, Array.getD_eq_getD_getElem?, Array.getElem?_eq_getElem hi, Option.getD_some]
  have maps : t'.entries.toList.map f = t.entries.toList.map f := by
    apply List.ext_getElem
    · rw [List.length_map, List.length_map]
      exact size
    · intro i hi' hi
      rw [List.length_map] at hi hi'
      rw [List.getElem_map, List.getElem_map]
      have here := same i hi
      rw [entry t' i hi', entry t i hi] at here
      exact here
  have total_map (as : List α) : total f as = (as.map f).foldr (· + ·) 0 := by
    rw [total, List.foldr_map]
  rw [total_map, total_map, maps]

namespace Engine

theorem perform_turn (others : m ≠ .step) (frames : List Frame) (turn turn' : Turn) :
    perform ⟨g, frames, turn'⟩ m = { perform ⟨g, frames, turn⟩ m with
      turn := if m.answers then (perform ⟨g, frames, turn⟩ m).turn else turn' } := by
  cases m with
  | step => exact absurd rfl others
  | writePath s path v =>
    rw [perform, perform, writePath, writePath]
    cases g.walk? s path.parents <;> rfl
  | call m name event =>
    rw [perform, perform, call, call]
    cases (g.model m).methods.get? name <;> rfl
  | input n text =>
    rw [perform, perform, input, input]
    cases g.forest.setValue n text <;> rfl
  | _ => rfl

theorem size_unmounting (allowed : e.Allows m) (unmounting : m.mounts = false) :
    (e.perform m).graph.records.size = e.graph.records.size ∧
      (e.perform m).graph.compilers.size = e.graph.compilers.size := by
  constructor
  · refine (leaves_perform allowed fun c => ?_).records
    rintro rfl
    cases unmounting
  · rcases compilers_perform allowed with same | ⟨n, selector, model, rfl⟩ | ⟨c, rfl | rfl⟩
    · rw [same]
    · cases unmounting
    · cases unmounting
    · simp [perform]

theorem turn_of_silent (silent : m.answers = false) : (e.perform m).turn = e.turn := by
  cases m with
  | step => cases silent
  | resume _ => cases silent
  | write _ _ _ => cases silent
  | writePath _ _ _ => cases silent
  | notify _ => cases silent
  | run _ => cases silent
  | call _ _ _ => cases silent
  | dispatch _ _ => cases silent
  | input _ _ => cases silent
  | _ => rfl

end Engine

namespace Engine

theorem runs_of_call {callback : CallbackId} {occasion : Occasion} (allowed : e.Allows m) (answers : m.answers = true)
    (asked : (e.perform m).turn = .environment (.call callback occasion)) : e.runs (fun _ _ => true) m = true := by
  cases m with
  | step =>
    have steps := steps_of_allows allowed
    generalize e.perform .step = e' at steps asked
    cases steps with
    | @pass _ purpose _ _ _ => cases purpose <;> cases asked
    | @update _ _ _ _ _ _ _ alive => simp [runs, updated?, alive]
    | hear => rfl
    | _ => cases asked
  | writePath s path v =>
    rw [perform, writePath] at asked
    cases found : e.graph.walk? s path.parents <;> rw [found] at asked <;> cases asked
  | input n text =>
    rw [perform, input] at asked
    cases typed : e.graph.forest.setValue n text <;> rw [typed] at asked <;> cases asked
  | run s => rfl
  | call m name event => rfl
  | resume r => cases asked
  | write s key v => cases asked
  | notify r => cases asked
  | dispatch n event => cases asked
  | _ => cases answers

theorem Minds.owner {b : Bool} (minds : e.Minds S (stack.map Prod.fst) b m) (allowed : e.Allows m)
    (hb : e.step? ≠ none) : stack.head?.map Prod.fst = some b := by
  have step : m = .step := allowed.1.2 (Option.isSome_iff_ne_none.2 hb)
  rw [← List.head?_map]
  exact minds.own (by rw [step]; rfl)

@[simp] theorem told_append (e : Engine) (ms ms' : List (Bool × Move)) :
    e.told S (ms ++ ms') = e.told S ms ++ (e.after (ms.map Prod.snd)).told S ms' := by
  induction ms generalizing e with
  | nil => rfl
  | cons x ms ih =>
    rw [List.cons_append, told, told, ih, List.append_assoc]
    rfl

theorem told_blanks (e : Engine) (g g' : Graph) : e.told S ((g.blanks g').map (false, ·)) = [] := by
  have silent : ∀ m ∈ g.blanks g', m.answers = false := by
    intro m mem
    simp only [Graph.blanks, List.mem_append, List.mem_replicate] at mem
    rcases mem with (((⟨-, rfl⟩ | ⟨-, rfl⟩) | ⟨-, rfl⟩) | ⟨-, rfl⟩) | ⟨-, rfl⟩ <;> rfl
  generalize g.blanks g' = ms at silent
  induction ms generalizing e with
  | nil => rfl
  | cons m ms ih =>
    rw [List.map_cons, told, silent m List.mem_cons_self, ih _ fun m mem => silent m (List.mem_cons_of_mem _ mem)]
    rfl

theorem filter_alone (e : Engine) (ms : List (Bool × Move)) : (e.alone ms).filter Prod.fst = ms.filter Prod.fst := by
  induction ms generalizing e with
  | nil => rfl
  | cons x ms ih =>
    obtain ⟨b, m⟩ := x
    cases b with
    | true => exact congrArg ((true, m) :: ·) (ih _)
    | false => exact (filter_theirs _ _).trans (ih _)

end Engine

theorem Split.runs_other {b : Bool} (split : Split S stack e) (minds : e.Minds S (stack.map Prod.fst) b m) :
    e.runs (S.side !b) m = false := by
  have other {kind : Kind} {i : Nat} (has : (S.side b).Has e.graph kind i) : S.side (!b) kind i = false := by
    apply side_apart
    rw [Bool.not_not]
    exact has.1
  cases m with
  | run s => simp [Engine.runs, Engine.updated?, Engine.heard?, other minds.within]
  | call m name event => simp [Engine.runs, Engine.updated?, Engine.heard?, other minds.within]
  | step =>
    have own := minds.own rfl
    cases stack with
    | nil => cases own
    | cons x rest =>
      obtain ⟨b', f⟩ := x
      obtain rfl : b' = b := Option.some.inj own
      have frames : e.frames = f :: rest.map Prod.snd := split.frames
      have within : f.Within ((S.side b').Has e.graph) := split.fine (b', f) List.mem_cons_self
      obtain ⟨g, _, turn⟩ := e
      subst frames
      cases turn with
      | next =>
        cases f with
        | pass purpose running pending failures =>
          cases pending with
          | nil => rfl
          | cons s pending =>
            have theirs := other (within.2 s List.mem_cons_self)
            cases alive : g.alive s <;> simp [Engine.runs, Engine.updated?, Engine.heard?, alive, theirs]
        | delivery n event pending first =>
          cases pending with
          | nil => rfl
          | cons listener pending => simp [Engine.runs, Engine.updated?, Engine.heard?, other within.1]
        | _ => rfl
      | _ => rfl
  | _ => rfl

theorem Split.alone_eq {ms : List (Bool × Move)} (split : Split S stack e) (parts : e.Parts S (stack.map Prod.fst) ms)
    (ours : ∀ kind i, e.graph.count kind ≤ i → S kind i = true) : e.alone ms = ms.filter Prod.fst := by
  induction ms generalizing e stack with
  | nil => rfl
  | cons x ms ih =>
    obtain ⟨b, m⟩ := x
    obtain ⟨allowed, minds, parts⟩ := parts
    obtain ⟨stack', owners, split', larger⟩ := split.perform allowed minds
    rw [← owners] at parts
    have rest := ih split' parts fun kind i new => ours kind i (Nat.le_trans (larger kind) new)
    cases b with
    | true => exact congrArg ((true, m) :: ·) rest
    | false =>
      have none (kind : Kind) : (e.perform m).graph.count kind - e.graph.count kind = 0 := by
        apply Nat.sub_eq_zero_of_le
        apply Nat.le_of_not_lt
        intro more
        have theirs := minds.makes kind _ (Nat.le_refl _) more
        rw [Share.side, ours kind _ (Nat.le_refl _)] at theirs
        cases theirs
      have blanks : e.graph.blanks (e.perform m).graph = [] := by
        simp only [Graph.blanks, List.append_eq_nil_iff, List.replicate_eq_nil_iff]
        exact ⟨⟨⟨⟨none .store, none .registry⟩, none .subscriber⟩, none .model⟩, none .node⟩
      rw [Engine.alone, blanks, rest]
      rfl

/-- An engine in which the one side is as in another one, with its own work only, and the other side has what it had at
the start. -/
structure Shadows (S : Share) (g₀ : Graph) (stack : List (Bool × Frame)) (e e' : Engine) : Prop where
  split : Split S stack e
  frames : e'.frames = (stack.filter Prod.fst).map Prod.snd
  count : ∀ kind, e'.graph.count kind = e.graph.count kind
  ours : e.graph.Matches (S.side true) e'.graph
  theirs : g₀.Matches (fun kind i => S.side false kind i && g₀.made kind i) e'.graph
  since : g₀.Larger e.graph
  loyal : ∀ c : CompilerId, S.side false .compiler c.index →
    ∀ s ∈ (e'.graph.compiler c).watchers, S.side false .subscriber s.index
  resting : e.step? = none → e'.step? = none
  busy : e.step? ≠ none → (stack.head?.map Prod.fst = some true ∧ e'.turn = e.turn) ∨
    (stack.head?.map Prod.fst = some false ∧ e'.step? = none)

theorem Split.shadows (split : Split S [] e) (resting : e.step? = none) : Shadows S e.graph [] e e where
  split := split
  frames := split.frames
  count _ := rfl
  ours := .refl e.graph
  theirs := .refl e.graph
  since := .refl e.graph
  loyal c here s mem := by
    by_cases exist : c.index < e.graph.compilers.size
    · exact (((split.keeps false).compilers c.index here exist).watchers s mem).1
    · rw [Graph.compiler, Table.get_of_size_le _ (Nat.le_of_not_lt exist)] at mem
      cases mem
  resting := id
  busy hb := absurd resting hb

namespace Shadows

variable (h : Shadows S g₀ stack e e')
include h

theorem bound {s : SubscriberId} (here : S.side true .subscriber s.index) : e'.bound s = e.bound s := by
  have other : S.side false .subscriber s.index ≠ true := by
    rw [side_apart S false .subscriber s.index here]
    exact Bool.false_ne_true
  have frames : Table.total (Frame.holds s) e'.frames = Table.total (Frame.holds s) e.frames := by
    rw [h.frames, h.split.frames]
    apply total_holds
    rintro ⟨b, f⟩ mem rfl
    exact holds_of_theirs (h.split.fine (false, f) mem) fun has => other has.1
  have compilers : e'.graph.keeps s = e.graph.keeps s := by
    apply Table.total_congr (h.count .compiler)
    intro i hi
    have none {c : Compiler} (loyal : ∀ t ∈ c.watchers, S.side false .subscriber t.index) : c.holds s = 0 := by
      have absent : c.watchers.count s = 0 := List.count_eq_zero.2 fun mem => other (loyal s mem)
      rw [Compiler.holds, absent]
      split <;> rfl
    by_cases ours : S.side true .compiler i = true
    · rw [h.ours.compilers i ours]
    · have theirs : S.side false .compiler i = true := by
        rw [Share.side] at ours ⊢
        cases hs : S .compiler i <;> simp [hs] at ours ⊢
      have within := (h.split.keeps false).compilers i theirs hi
      exact (none (h.loyal ⟨i⟩ theirs)).trans (none fun t mem => (within.watchers t mem).1).symm
  rw [Engine.bound, frames, compilers, Engine.bound]

theorem turn_of_busy (allowed : e.Allows m) (minds : e.Minds S (stack.map Prod.fst) true m) (hb : e.step? ≠ none) :
    e'.turn = e.turn := by
  have owner := minds.owner allowed hb
  rcases h.busy hb with ⟨-, same⟩ | ⟨theirs, -⟩
  · exact same
  · rw [owner] at theirs
    cases theirs

theorem resting_of_theirs (allowed : e.Allows m) (minds : e.Minds S (stack.map Prod.fst) false m) :
    e'.step? = none := by
  by_cases resting : e.step? = none
  · exact h.resting resting
  · have owner := minds.owner allowed resting
    rcases h.busy resting with ⟨ours, -⟩ | ⟨-, rests⟩
    · rw [owner] at ours
      cases ours
    · exact rests

theorem allows (allowed : e.Allows m) (minds : e.Minds S (stack.map Prod.fst) true m) : e'.Allows m := by
  have alive {s : SubscriberId} (here : (S.side true).Has e.graph .subscriber s.index) (ha : e.graph.alive s) :
      e'.graph.alive s := by
    have same : e'.graph.subscriber s = e.graph.subscriber s := h.ours.subscribers s.index here.1
    rw [Graph.alive, same]
    exact ha
  have turn : e'.step?.isSome = e.step?.isSome := by
    by_cases resting : e.step? = none
    · rw [resting, h.resting resting]
    · exact Engine.busy_congr (h.turn_of_busy allowed minds resting)
  have within := minds.within
  refine ⟨by rw [turn]; exact allowed.1, ?_⟩
  have has := allowed.2
  cases m with
  | resume r =>
    have own : (stack.map Prod.fst).head? = some true := minds.own rfl
    rw [Engine.Has, h.frames]
    cases stack with
    | nil => cases own
    | cons x rest =>
      obtain ⟨b, f⟩ := x
      cases own
      exact List.cons_ne_nil _ _
  | run s => exact alive within has
  | retain s => exact alive within has
  | register r s => exact alive within.2 has
  | release s =>
    have same : e'.graph.subscriber s = e.graph.subscriber s := h.ours.subscribers s.index within.1
    rw [Engine.Has, h.bound within.1, same]
    exact has
  | readPath reader s path => exact fun t mem => Nat.lt_of_lt_of_eq (has t mem) (h.count .subscriber).symm
  | createWatcher m path callback => exact Nat.lt_of_lt_of_eq has (h.count .model).symm
  | createCompiler n selector m => exact Nat.lt_of_lt_of_eq has (h.count .model).symm
  | call m name event => exact Nat.lt_of_lt_of_eq has (h.count .model).symm
  | init c =>
    have same : e'.graph.compiler c = e.graph.compiler c := h.ours.compilers c.index within.1
    exact ⟨Nat.lt_of_lt_of_eq has.1 (h.count .compiler).symm, by rw [same]; exact has.2⟩
  | dropCompiler c =>
    have same : e'.graph.compiler c = e.graph.compiler c := h.ours.compilers c.index within.1
    exact ⟨Nat.lt_of_lt_of_eq has.1 (h.count .compiler).symm, by rw [same]; exact has.2⟩
  | _ => trivial

theorem perform_alone {top : List Frame} {rest : List (Bool × Frame)} {X : Engine}
    (stacked : stack = top.map (true, ·) ++ rest) (allowed : e.Allows m)
    (minds : e.Minds S (stack.map Prod.fst) true m) (step : m = .step → ∃ f, top = [f])
    (done : X = Engine.perform ⟨e.graph, top, e.turn⟩ m) (adv : Split.Advances S true m e top rest X) :
    e'.perform m = (⟨X.graph.splice (S.side true) e'.graph, X.frames, if m.answers then X.turn else e'.turn⟩ :
      Engine).onto ((rest.filter Prod.fst).map Prod.snd) := by
  -- alone the engine is a splice, with its own turn and the work of one side
  have whole : e' = (⟨e.graph.splice (S.side true) e'.graph, top, e'.turn⟩ : Engine).onto
      ((rest.filter Prod.fst).map Prod.snd) := by
    rw [Engine.onto, ← h.ours.eq_splice h.count, ← filter_ours, ← stacked, ← h.frames]
  have working : m = .step → top ≠ [] := by
    intro move
    obtain ⟨f, rfl⟩ := step move
    exact List.cons_ne_nil f []
  rw [whole, Engine.perform_onto _ m working, ← whole]
  congr 1
  by_cases move : m = .step
  · have same := h.turn_of_busy allowed minds (Option.isSome_iff_ne_none.1 (allowed.1.1 move))
    have answers : m.answers = true := by rw [move]; rfl
    rw [same, adv.splice, answers]
    rfl
  · rw [Engine.perform_turn move top e.turn e'.turn, adv.splice, done]
    rfl

theorem perform_ours (allowed : e.Allows m) (minds : e.Minds S (stack.map Prod.fst) true m) :
    ∃ stack', stack'.map Prod.fst = restack true (stack.map Prod.fst) (e.perform m).frames.length ∧
      Shadows S g₀ stack' (e.perform m) (e'.perform m) ∧
      (m.answers = true → (e'.perform m).turn = (e.perform m).turn) := by
  obtain ⟨top, rest, rfl, whole, step, others⟩ := h.split.acting minds
  have adv := h.split.advances allowed minds whole step others
  have performed := h.perform_alone rfl allowed minds step rfl adv
  let X := Engine.perform ⟨e.graph, top, e.turn⟩ m
  have graph : (e.perform m).graph = X.graph := by rw [adv.performed]; rfl
  have graph' : (e'.perform m).graph = X.graph.splice (S.side true) e'.graph := by rw [performed]; rfl
  have larger : e'.graph.Larger X.graph := fun kind => by
    rw [h.count, ← graph]
    exact adv.larger kind
  have turn : m.answers = true → (e'.perform m).turn = (e.perform m).turn := by
    intro answers
    rw [performed, adv.performed, answers]
    rfl
  have theirs : e'.graph.Matches (S.side false) (e'.perform m).graph := by
    rw [graph']
    exact Graph.matches_splice_other (fun kind i here => side_apart S true kind i here) larger
  refine ⟨_, adv.owners, ⟨adv.split, ?_, fun kind => ?_, ?_, ?_, h.since.trans adv.larger, ?_, ?_, ?_⟩, turn⟩
  · rw [performed, filter_ours]
    rfl
  · rw [graph, graph', Graph.count_splice]
  · rw [graph, graph']
    exact Graph.matches_splice
  · exact h.theirs.trans (theirs.weaken fun kind i here => (Bool.and_eq_true_iff.1 here).1)
  · intro c here s mem
    have same : (e'.perform m).graph.compiler c = e'.graph.compiler c := theirs.compilers c.index here
    rw [same] at mem
    exact h.loyal c here s mem
  · intro resting
    cases answers : m.answers with
    | true => exact (Engine.resting_congr (turn answers)).2 resting
    | false =>
      rw [Engine.resting_congr (Engine.turn_of_silent answers)] at resting ⊢
      exact h.resting resting
  · intro hb
    cases answers : m.answers with
    | true => exact .inl ⟨adv.busy hb, turn answers⟩
    | false =>
      rw [ne_eq, Engine.resting_congr (Engine.turn_of_silent answers)] at hb
      have move : m = .step := allowed.1.2 (Option.isSome_iff_ne_none.2 hb)
      rw [move] at answers
      cases answers

theorem perform_theirs (allowed : e.Allows m) (minds : e.Minds S (stack.map Prod.fst) false m)
    (unmounting : m.mounts = false) :
    let blanks := e.graph.blanks (e.perform m).graph
    ∃ stack', stack'.map Prod.fst = restack false (stack.map Prod.fst) (e.perform m).frames.length ∧
      e'.admits blanks = true ∧ Shadows S g₀ stack' (e.perform m) (e'.after blanks) := by
  intro blanks
  have resting := h.resting_of_theirs allowed minds
  obtain ⟨admitted, filled⟩ := fills_blanks e.graph (e.perform m).graph resting
  obtain ⟨top, rest, rfl, whole, step, others⟩ := h.split.acting minds
  have adv := h.split.advances allowed minds whole step others
  obtain ⟨records, compilers⟩ := Engine.size_unmounting allowed unmounting
  have count (kind : Kind) : (e'.after blanks).graph.count kind = (e.perform m).graph.count kind := by
    have larger := adv.larger kind
    rw [filled.count, h.count]
    cases kind with
    | record => exact records.symm
    | compiler => exact compilers.symm
    | _ => exact Nat.add_sub_cancel' larger
  -- whatever is new belongs to the other side
  have old (kind : Kind) (i : Nat) (new : e.graph.count kind ≤ i) (exist : i < (e.perform m).graph.count kind) :
      S.side true kind i = false := side_apart S true kind i (minds.makes kind i new exist)
  refine ⟨_, adv.owners, admitted, adv.split, ?_, count, ?_, ?_, h.since.trans adv.larger, ?_, fun _ => ?_, ?_⟩
  · rw [filled.frames, h.frames, filter_theirs, filter_theirs]
  · exact h.ours.follow adv.others filled.kept h.count count old
  · refine h.theirs.trans (filled.kept.weaken fun kind i here => decide_eq_true ?_)
    rw [h.count]
    exact Nat.lt_of_lt_of_le (of_decide_eq_true (Bool.and_eq_true_iff.1 here).2) (h.since kind)
  · intro c here s mem
    have same : (e'.after blanks).graph.compiler c = e'.graph.compiler c := by
      by_cases exist : c.index < e'.graph.compilers.size
      · exact filled.kept.compilers c.index (decide_eq_true exist)
      · have size : (e'.after blanks).graph.compilers.size = e'.graph.compilers.size := filled.count .compiler
        have absent := Nat.le_of_not_lt exist
        rw [Graph.compiler, Graph.compiler, Table.get_of_size_le _ absent, Table.get_of_size_le _ (size ▸ absent)]
    rw [same] at mem
    exact h.loyal c here s mem
  · exact (Engine.resting_congr filled.turn).2 resting
  · exact fun hb => .inr ⟨adv.busy hb, (Engine.resting_congr filled.turn).2 resting⟩

theorem run {ms : List (Bool × Move)} (parts : e.Parts S (stack.map Prod.fst) ms)
    (unmounting : ∀ m, (false, m) ∈ ms → m.mounts = false) :
    ∃ stack', e'.admits ((e.alone ms).map Prod.snd) = true ∧
      Shadows S g₀ stack' (e.after (ms.map Prod.snd)) (e'.after ((e.alone ms).map Prod.snd)) ∧
      e'.told S (e.alone ms) = e.told S ms := by
  induction ms generalizing e e' stack with
  | nil => exact ⟨stack, rfl, h, rfl⟩
  | cons x ms ih =>
    obtain ⟨b, m⟩ := x
    obtain ⟨allowed, minds, parts⟩ := parts
    have unmounting' (m : Move) (mem : (false, m) ∈ ms) := unmounting m (List.mem_cons_of_mem _ mem)
    cases b with
    | true =>
      obtain ⟨stack', owners, h', same⟩ := h.perform_ours allowed minds
      rw [← owners] at parts
      obtain ⟨stack'', admitted, shadows, told⟩ := ih h' parts unmounting'
      refine ⟨stack'', ?_, shadows, ?_⟩
      · rw [Engine.alone, List.map_cons, Engine.admits, admitted, decide_eq_true (h.allows allowed minds)]
        rfl
      · rw [Engine.alone, Engine.told, Engine.told, told]
        cases answers : m.answers with
        | true =>
          rw [same answers]
          rfl
        | false => rfl
    | false =>
      -- blanks are made in place of this move, and the one side is told nothing
      obtain ⟨stack', owners, filled, h'⟩ := h.perform_theirs allowed minds (unmounting m List.mem_cons_self)
      have silent : e.runs (S.side true) m = false := h.split.runs_other minds
      rw [← owners] at parts
      obtain ⟨stack'', admitted, shadows, told⟩ := ih h' parts unmounting'
      have unlabelled (ms : List Move) : (ms.map ((false, ·) : Move → Bool × Move)).map Prod.snd = ms := by
        rw [List.map_map]
        exact List.map_id ms
      refine ⟨stack'', ?_, ?_, ?_⟩
      · rw [Engine.alone, List.map_append, unlabelled, Engine.admits_append, filled, admitted]
        rfl
      · rw [Engine.alone, List.map_append, unlabelled, Engine.after_append]
        exact shadows
      · rw [Engine.alone, Engine.told_append, Engine.told_blanks, unlabelled, Engine.told, told, silent, Bool.or_false,
          Bool.and_false]
        rfl

end Shadows

/-- Two sides that are apart are independent, be they apart from the beginning or mounted apart by moves of their own.
Whatever the one side does then, in turn with the other one or in its midst, it does alone as well: its moves are
allowed, it is told the same, and all that it owns ends up the same. What the other side owned is as it was. Blanks
stand for what the other side makes, so that names stay the same; where it makes nothing there are none. -/
theorem Engine.independent {before ms : List (Bool × Move)} (apart : e.graph.Apart S) (idle : e.frames = [])
    (parts : e.Parts S [] (before ++ ms)) (idle' : (e.after (before.map Prod.snd)).frames = [])
    (resting : (e.after (before.map Prod.snd)).step? = none)
    (unmounting : ∀ m, (false, m) ∈ ms → m.mounts = false) :
    let start := e.after (before.map Prod.snd)
    let both := start.after (ms.map Prod.snd)
    let alone := start.after ((start.alone ms).map Prod.snd)
    (start.alone ms).filter Prod.fst = ms.filter Prod.fst ∧
      ((∀ kind i, start.graph.count kind ≤ i → S kind i = true) → start.alone ms = ms.filter Prod.fst) ∧
      start.admits ((start.alone ms).map Prod.snd) = true ∧ start.told S (start.alone ms) = start.told S ms ∧
      both.graph.Matches (S.side true) alone.graph ∧
      start.graph.Matches (fun kind i => S.side false kind i && start.graph.made kind i) alone.graph := by
  intro start both alone
  obtain ⟨stack, split, parts'⟩ := (Split.of_idle apart idle).run parts
  obtain rfl : stack = [] := List.map_eq_nil_iff.1 (split.frames.symm.trans idle')
  obtain ⟨_, admitted, shadows, told⟩ := (split.shadows resting).run parts' unmounting
  exact ⟨filter_alone start ms, split.alone_eq parts', admitted, told, shadows.ours, shadows.theirs⟩

def Share.halves : Share
  | .subscriber, i => i < 3 || i == 6
  | .node, i => i < 5
  | _, i => i == 0

namespace Engine

def page (b : Bool) (i document : Nat) : List (Bool × Move) :=
  [.createStore [("a", .string "x")],
    .createModel { data := ⟨i⟩, methods := [("go", ⟨i⟩)], options := {} },
    .edit (.createDocument [.element "p" []
      [.element "input" [("model", "a"), ("@click", "go")] [], .text "\x7b\x7b a \x7d\x7d"]]),
    .createCompiler ⟨document⟩ "p" ⟨i⟩, .init ⟨i⟩, .createWatcher ⟨i⟩ ⟨[], "a"⟩ ⟨i + 2⟩].map (b, ·)

def pages : List (Bool × Move) := page true 0 0 ++ page false 1 5

def paged : Engine := Engine.after {} (pages.map Prod.snd)

/-- Something is typed on one page while a callback of the other page runs, which writes in the midst of that and is
dropped afterwards. -/
def typing : List (Bool × Move) :=
  (false, .input ⟨7⟩ "y") :: List.replicate 6 (false, .step) ++
    (false, .createStore [("k", .null)]) :: (true, .input ⟨2⟩ "z") :: List.replicate 6 (true, .step) ++
    [(false, .write ⟨1⟩ "k" (.object ⟨2⟩)), (false, .step), (true, .resume (.ok ()))] ++
    List.replicate 4 (true, .step) ++ (false, .resume (.ok ())) :: List.replicate 4 (false, .step) ++
    [(true, .createSubscriber none ⟨9⟩), (false, .dropCompiler ⟨1⟩), (true, .dispatch ⟨2⟩ ⟨"click", none⟩),
      (true, .step)]

theorem typing_independent :
    Parts Share.halves {} [] (pages ++ typing) ∧
      (paged.alone typing).map Prod.snd ≠ typing.map Prod.snd ∧
      paged.admits ((paged.alone typing).map Prod.snd) = true ∧
      paged.told Share.halves (paged.alone typing) = paged.told Share.halves typing ∧
      (paged.after (typing.map Prod.snd)).graph.Matches (Share.halves.side true)
        (paged.after ((paged.alone typing).map Prod.snd)).graph := by
  have parts : Parts Share.halves {} [] (pages ++ typing) := by decide +kernel
  have idle : paged.frames = [] ∧ paged.step? = none := by decide +kernel
  have unmounting : ∀ x ∈ typing, x.1 = false → x.2.mounts = false := by decide +kernel
  obtain ⟨-, -, admitted, told, same, -⟩ := independent (Graph.apart_empty Share.halves) rfl parts idle.1 idle.2
    fun m mem => unmounting (false, m) mem rfl
  have fewer : (paged.alone typing).length < typing.length := by decide +kernel
  refine ⟨parts, fun h => ?_, admitted, told, same⟩
  have lengths := congrArg List.length h
  rw [List.length_map, List.length_map] at lengths
  exact absurd lengths (Nat.ne_of_lt fewer)

end Engine

end DataBinding
