import DataBinding.Proofs.SidePreservation

namespace DataBinding

variable {S : Share} {e e' X : Engine} {m : Move} {b : Bool} {f : Frame} {turn : Turn} {g : Graph}
  {stack rest : List (Bool × Frame)}

def Move.goesOn : Move → Bool
  | .step | .resume _ => true
  | _ => false

/-- Whose the work under way is, the innermost first, after a move of a side. -/
def restack (b : Bool) (owners : List Bool) (depth : Nat) : List Bool :=
  List.replicate (depth - owners.length) b ++ owners.drop (owners.length - depth)

namespace Engine

/-- What keeps a move to a side: it names what the side owns, makes what the side is to own and goes on with no other
work than the side's. -/
structure Minds (S : Share) (e : Engine) (owners : List Bool) (b : Bool) (m : Move) : Prop where
  within : m.Within ((S.side b).Has e.graph)
  makes : e.graph.Makes (S.side b) (e.perform m).graph
  own : m.goesOn = true → owners.head? = some b

def Parts (S : Share) : Engine → List Bool → List (Bool × Move) → Prop
  | _, _, [] => True
  | e, owners, (b, m) :: ms => e.Allows m ∧ e.Minds S owners b m ∧
    (e.perform m).Parts S (restack b owners (e.perform m).frames.length) ms

end Engine

section

variable {P : Kind → Nat → Prop} [∀ kind i, Decidable (P kind i)]

instance (g : Graph) (kind : Kind) (i : Nat) : Decidable (S.Has g kind i) :=
  inferInstanceAs (Decidable (S kind i = true ∧ i < g.count kind))

instance : (v : Value) → Decidable (v.Within P)
  | .object s => decidable_of_iff (P .store s.index) ⟨fun h _ hs => by cases hs; exact h, fun h => h s rfl⟩
  | .undefined | .null | .bool _ | .number _ | .string _ | .array _ => isTrue nofun

instance : (r : RegistryRef) → Decidable (r.Within P)
  | .property s _ => inferInstanceAs (Decidable (P .store s.index))
  | .free r => inferInstanceAs (Decidable (P .registry r.index))

instance : (change : Edit) → Decidable (change.Within P)
  | .append p c => inferInstanceAs (Decidable (P .node p.index ∧ P .node c.index))
  | .setAttribute n _ _ | .removeAttribute n _ | .setText n _ | .setValue n _ | .listen n _ _ | .retain n
  | .release n => inferInstanceAs (Decidable (P .node n.index))
  | .createDocument _ | .createElement _ | .createText _ | .createFragment => isTrue trivial

instance : (m : Move) → Decidable (m.Within P)
  | .write s _ v | .writePath s _ v => inferInstanceAs (Decidable (P .store s.index ∧ v.Within P))
  | .notify r => inferInstanceAs (Decidable (r.Within P))
  | .run s | .retain s | .release s => inferInstanceAs (Decidable (P .subscriber s.index))
  | .call m _ _ | .createWatcher m _ _ => inferInstanceAs (Decidable (P .model m.index))
  | .dispatch n _ | .input n _ => inferInstanceAs (Decidable (P .node n.index))
  | .readPath reader s _ =>
    inferInstanceAs (Decidable ((∀ r ∈ reader, P .subscriber r.index) ∧ P .store s.index))
  | .register r s => inferInstanceAs (Decidable (r.Within P ∧ P .subscriber s.index))
  | .createStore pairs => inferInstanceAs (Decidable (∀ pair ∈ pairs, pair.2.Within P))
  | .createModel m => inferInstanceAs (Decidable (P .store m.data.index))
  | .createCompiler n _ m => inferInstanceAs (Decidable (P .node n.index ∧ P .model m.index))
  | .init c | .dropCompiler c => inferInstanceAs (Decidable (P .compiler c.index))
  | .edit change => inferInstanceAs (Decidable (change.Within P))
  | .step | .resume _ | .createRegistry | .createSubscriber _ _ => isTrue trivial

end

namespace Engine

instance (g g' : Graph) : Decidable (g.Makes S g') :=
  decidable_of_iff (∀ kind ∈ [Kind.store, .registry, .subscriber, .model, .record, .node, .compiler],
      ∀ i < g'.count kind, g.count kind ≤ i → S kind i)
    ⟨fun h kind i old new => h kind (by cases kind <;> decide) i new old, fun h kind _ i new old => h kind i old new⟩

instance (owners : List Bool) : Decidable (e.Minds S owners b m) :=
  decidable_of_iff (m.Within ((S.side b).Has e.graph) ∧ e.graph.Makes (S.side b) (e.perform m).graph ∧
    (m.goesOn = true → owners.head? = some b)) ⟨fun h => ⟨h.1, h.2.1, h.2.2⟩, fun h => ⟨h.within, h.makes, h.own⟩⟩

instance decidableParts : (e : Engine) → (owners : List Bool) → (ms : List (Bool × Move)) →
    Decidable (e.Parts S owners ms)
  | _, _, [] => isTrue trivial
  | e, owners, (b, m) :: ms =>
    have : Decidable ((e.perform m).Parts S (restack b owners (e.perform m).frames.length) ms) :=
      decidableParts _ _ ms
    inferInstanceAs (Decidable (e.Allows m ∧ e.Minds S owners b m ∧ _))

end Engine

def Frame.isInput : Frame → Bool
  | .pass (.input _) _ _ _ => true
  | _ => false

def Nested : List (Bool × Frame) → Prop
  | [] => True
  | (b, f) :: rest => (f.isInput = true → rest.head?.map Prod.fst = some b) ∧ Nested rest

def Graph.Apart (S : Share) (g : Graph) : Prop := ∀ b, g.Keeps (S.side b) ((S.side b).Has g)

theorem Graph.apart_empty (S : Share) : Graph.Apart S {} := fun _ =>
  ⟨fun i _ hi => absurd hi (Nat.not_lt_zero i), fun i _ hi => absurd hi (Nat.not_lt_zero i),
    fun i _ hi => absurd hi (Nat.not_lt_zero i), fun i _ hi => absurd hi (Nat.not_lt_zero i),
    fun i _ hi => absurd hi (Nat.not_lt_zero i), fun i _ hi => absurd hi (Nat.not_lt_zero i)⟩

/-- An engine whose graph is in two sides, and so is the work under way. -/
structure Split (S : Share) (stack : List (Bool × Frame)) (e : Engine) : Prop where
  frames : e.frames = stack.map Prod.snd
  keeps : e.graph.Apart S
  fine : ∀ x ∈ stack, x.2.Within ((S.side x.1).Has e.graph)
  nested : Nested stack

namespace Engine

theorem resting_iff : e.step? = none ↔ ∃ reply, e.turn = .environment reply := by
  rw [step?]
  cases e.turn with
  | environment reply => exact ⟨fun _ => ⟨reply, rfl⟩, fun _ => rfl⟩
  | _ => simp

theorem resting_congr (turn : e'.turn = e.turn) : e'.step? = none ↔ e.step? = none := by
  rw [resting_iff, resting_iff, turn]

theorem busy_congr (turn : e'.turn = e.turn) : e'.step?.isSome = e.step?.isSome := by
  rw [Bool.eq_iff_iff, Option.isSome_iff_ne_none, Option.isSome_iff_ne_none, ne_eq, ne_eq, resting_congr turn]

theorem top_hear (e : Engine) (event : Event) (listener : Listener) :
    (e.hear event listener).frames = e.frames ∨ ∃ f, (e.hear event listener).frames = f :: e.frames := by
  rcases hear_cases e event listener with ⟨⟨turn, h⟩, -⟩
    | ⟨m, path, r, text, -, -, -, ⟨-, -, h⟩ | ⟨t, -, -, h⟩⟩
  · exact .inl (by rw [h])
  · exact .inl (by rw [h])
  · exact .inr ⟨_, by rw [h]; rfl⟩

theorem top_step (steps : Steps ⟨g, [f], turn⟩ X) :
    (X.frames = [] ∧ (X.step? ≠ none → f.isInput = true)) ∨
      (∃ f', X.frames = [f'] ∧ f'.isInput = f.isInput) ∨ ∃ f' f'', X.frames = [f', f''] ∧ f''.isInput = false := by
  cases steps with
  | @pass _ purpose _ _ _ =>
    refine .inl ⟨rfl, fun busy => ?_⟩
    cases purpose with
    | input key => rfl
    | _ => exact absurd rfl busy
  | @skip _ purpose _ _ _ _ _ _ => exact .inr (.inl ⟨_, rfl, by cases purpose <;> rfl⟩)
  | @update _ purpose _ _ _ _ _ _ => exact .inr (.inl ⟨_, frames_update _ _, by cases purpose <;> rfl⟩)
  | @hear _ n event listener pending first _ =>
    rcases top_hear ⟨g, [.delivery n event pending first], .next⟩ event listener with same | ⟨f', above⟩
    · exact .inr (.inl ⟨_, same, rfl⟩)
    · exact .inr (.inr ⟨f', _, above, rfl⟩)
  | @acceptPass _ purpose _ _ _ _ _ => exact .inr (.inl ⟨_, rfl, by cases purpose <;> rfl⟩)
  | acceptDelivery => exact .inr (.inl ⟨_, rfl, rfl⟩)
  | _ => exact .inl ⟨rfl, fun busy => absurd rfl busy⟩

theorem top_perform (resting : e.step? = none) (idle : e.frames = []) (others : m ≠ .step) :
    ((e.perform m).frames = [] ∧ ((e.perform m).step? ≠ none → m.goesOn = true)) ∨
      ∃ f, (e.perform m).frames = [f] ∧ f.isInput = false := by
  obtain ⟨g, frames, turn⟩ := e
  obtain ⟨reply, rfl⟩ := resting_iff.1 resting
  subst idle
  cases m with
  | step => exact absurd rfl others
  | resume r => exact .inl ⟨rfl, fun _ => rfl⟩
  | write s key v => exact .inr ⟨_, rfl, rfl⟩
  | writePath s path v =>
    rw [perform, writePath]
    cases g.walk? s path.parents with
    | none => exact .inl ⟨rfl, fun busy => absurd rfl busy⟩
    | some t => exact .inr ⟨_, rfl, rfl⟩
  | notify r => exact .inr ⟨_, rfl, rfl⟩
  | run s => exact .inr ⟨_, frames_update _ _, rfl⟩
  | call m name event =>
    rw [perform, call]
    cases (g.model m).methods.get? name with
    | none => exact .inl ⟨rfl, fun busy => absurd rfl busy⟩
    | some callback => exact .inr ⟨_, rfl, rfl⟩
  | dispatch n event => exact .inr ⟨_, rfl, rfl⟩
  | input n text =>
    rw [perform, input]
    cases g.forest.setValue n text with
    | error err => exact .inl ⟨rfl, fun busy => absurd rfl busy⟩
    | ok forest => exact .inr ⟨_, rfl, rfl⟩
  | _ => exact .inl ⟨rfl, fun busy => absurd rfl busy⟩

end Engine

theorem side_apart (S : Share) (b : Bool) (kind : Kind) (i : Nat) (here : S.side (!b) kind i) :
    S.side b kind i = false := by
  cases b <;> simpa [Share.side] using here

theorem length_restack (b : Bool) (top new : List Frame) (owners : List Bool) (short : top.length ≤ 1) :
    new.map (fun _ => b) ++ owners =
      restack b (top.map (fun _ => b) ++ owners) (new.length + owners.length) := by
  cases top with
  | nil =>
    rw [restack, List.map_nil, List.nil_append, Nat.add_sub_cancel, Nat.sub_eq_zero_of_le (Nat.le_add_left _ _),
      List.drop_zero, List.map_const']
  | cons f top =>
    obtain rfl : top = [] := List.length_eq_zero_iff.1 (by simpa using short)
    cases new with
    | nil => simp [restack]
    | cons f' new =>
      have more : new.length + 1 + owners.length - (owners.length + 1) = new.length := by omega
      have all : owners.length + 1 - (new.length + 1 + owners.length) = 0 := by omega
      change b :: (new.map (fun _ => b) ++ owners) = restack b (b :: owners) (new.length + 1 + owners.length)
      rw [restack, List.length_cons, more, all, List.drop_zero, List.map_const', List.append_cons,
        ← List.replicate_succ', List.replicate_succ]
      rfl

namespace Split

variable {top : List Frame}

theorem acting (split : Split S stack e) (minds : e.Minds S (stack.map Prod.fst) b m) :
    ∃ top rest, stack = top.map (b, ·) ++ rest ∧ e = (⟨e.graph, top, e.turn⟩ : Engine).onto (rest.map Prod.snd) ∧
      (m = .step → ∃ f, top = [f]) ∧ (m ≠ .step → top = []) := by
  have frames (top : List Frame) (rest : List (Bool × Frame)) (parts : stack = top.map (b, ·) ++ rest) :
      e = (⟨e.graph, top, e.turn⟩ : Engine).onto (rest.map Prod.snd) := by
    have same := split.frames
    rw [parts, List.map_append, List.map_map] at same
    change e.frames = top.map id ++ _ at same
    rw [List.map_id] at same
    rw [Engine.onto, ← same]
  by_cases step : m = .step
  · have own := minds.own (by rw [step]; rfl)
    cases stack with
    | nil => cases own
    | cons x rest =>
      obtain ⟨b', f⟩ := x
      obtain rfl : b' = b := Option.some.inj own
      exact ⟨[f], rest, rfl, frames [f] rest rfl, fun _ => ⟨f, rfl⟩, fun others => absurd step others⟩
  · exact ⟨[], stack, rfl, frames [] stack rfl, fun h => absurd h step, fun _ => rfl⟩

theorem nested_perform (nested : Nested (top.map (b, ·) ++ rest)) (step : m = .step → ∃ f, top = [f])
    (others : m ≠ .step → top = []) (allowed : (m = .step ↔ (⟨g, top, turn⟩ : Engine).step?.isSome))
    (own : m.goesOn = true → (top.map (b, ·) ++ rest).head?.map Prod.fst = some b) :
    let X := (⟨g, top, turn⟩ : Engine).perform m
    Nested (X.frames.map (b, ·) ++ rest) ∧
      (X.step? ≠ none → (X.frames.map (b, ·) ++ rest).head?.map Prod.fst = some b) := by
  intro X
  by_cases steps : m = .step
  · obtain ⟨f, rfl⟩ := step steps
    have made : Steps ⟨g, [f], turn⟩ X := by
      subst steps
      exact Engine.steps_of_allows ⟨allowed, trivial⟩
    rcases Engine.top_step made with ⟨none, busy⟩ | ⟨f', one, input⟩ | ⟨f', f'', two, delivery⟩
    · rw [none]
      exact ⟨nested.2, fun h => nested.1 (busy h)⟩
    · rw [one]
      exact ⟨⟨fun h => nested.1 (input ▸ h), nested.2⟩, fun _ => rfl⟩
    · rw [two]
      have below : Nested ((b, f'') :: rest) :=
        ⟨fun h => absurd (delivery.symm.trans h) Bool.false_ne_true, nested.2⟩
      exact ⟨⟨fun _ => rfl, below⟩, fun _ => rfl⟩
  · obtain rfl := others steps
    have resting : (⟨g, [], turn⟩ : Engine).step? = none := by
      rw [← Option.not_isSome_iff_eq_none]
      exact fun busy => steps (allowed.2 busy)
    rcases Engine.top_perform resting rfl steps with ⟨none, busy⟩ | ⟨f, one, input⟩
    · rw [none]
      exact ⟨nested, fun h => own (busy h)⟩
    · rw [one]
      exact ⟨⟨fun h => absurd (input.symm.trans h) Bool.false_ne_true, nested⟩, fun _ => rfl⟩

structure Advances (S : Share) (b : Bool) (m : Move) (e : Engine) (top : List Frame) (rest : List (Bool × Frame))
    (X : Engine) : Prop where
  performed : e.perform m = X.onto (rest.map Prod.snd)
  split : Split S (X.frames.map (b, ·) ++ rest) (e.perform m)
  owners : (X.frames.map (b, ·) ++ rest).map Prod.fst =
    restack b ((top.map (b, ·) ++ rest).map Prod.fst) (e.perform m).frames.length
  busy : (e.perform m).step? ≠ none → (X.frames.map (b, ·) ++ rest).head?.map Prod.fst = some b
  larger : e.graph.Larger (e.perform m).graph
  splice : ∀ c, Engine.perform ⟨e.graph.splice (S.side b) c, top, e.turn⟩ m = X.splice (S.side b) c
  others : Graph.Matches (S.side !b) e.graph (e.perform m).graph

theorem advances (split : Split S (top.map (b, ·) ++ rest) e) (allowed : e.Allows m)
    (minds : e.Minds S ((top.map (b, ·) ++ rest).map Prod.fst) b m)
    (whole : e = (⟨e.graph, top, e.turn⟩ : Engine).onto (rest.map Prod.snd)) (step : m = .step → ∃ f, top = [f])
    (others : m ≠ .step → top = []) :
    Advances S b m e top rest ((⟨e.graph, top, e.turn⟩ : Engine).perform m) := by
  let inner : Engine := ⟨e.graph, top, e.turn⟩
  -- the move does not look at the work below the top
  have performed : e.perform m = (inner.perform m).onto (rest.map Prod.snd) := by
    have working : m = .step → inner.frames ≠ [] := by
      intro h
      obtain ⟨f, rfl⟩ := step h
      exact List.cons_ne_nil f []
    rw [← Engine.perform_onto inner m working, ← whole]
  have graph : (e.perform m).graph = (inner.perform m).graph := by rw [performed]; rfl
  have keeps : inner.Keeps (S.side b) := ⟨split.keeps b, fun f mem =>
    split.fine (b, f) (List.mem_append_left _ (List.mem_map_of_mem mem))⟩
  have makes : inner.graph.Makes (S.side b) (inner.perform m).graph := by
    rw [← graph]
    exact minds.makes
  obtain ⟨kept, larger, splice⟩ := keeps.perform minds.within makes
  have turn : inner.step?.isSome = e.step?.isSome := Engine.busy_congr rfl
  have stepping : m = .step ↔ (⟨e.graph, top, e.turn⟩ : Engine).step?.isSome := allowed.1.trans (by rw [turn])
  have nested := nested_perform split.nested step others stepping fun h => by
    rw [← List.head?_map]
    exact minds.own h
  refine ⟨performed, ⟨?_, fun b' => ?_, fun x mem => ?_, nested.1⟩, ?_, ?_, graph ▸ larger, splice, ?_⟩
  · rw [performed, Engine.onto, List.map_append, List.map_map]
    exact congrArg (· ++ _) (List.map_id _).symm
  · rw [graph]
    by_cases same : b' = b
    · rw [same]
      exact kept.graph
    · have other : b' = !b := by cases b <;> cases b' <;> simp at same ⊢
      rw [other]
      exact keeps.other minds.within makes (side_apart S b) (split.keeps _)
  · rw [graph]
    rcases List.mem_append.1 mem with mem | mem
    · obtain ⟨f, mem', rfl⟩ := List.mem_map.1 mem
      exact kept.frames f mem'
    · exact (split.fine x (List.mem_append_right _ mem)).mono fun _ _ has => has.mono larger
  · have short : top.length ≤ 1 := by
      by_cases h : m = .step
      · obtain ⟨f, rfl⟩ := step h
        exact Nat.le_refl 1
      · rw [others h]
        exact Nat.zero_le 1
    have lengths := length_restack b top (inner.perform m).frames (rest.map Prod.fst) short
    rw [performed, Engine.onto, List.length_append, List.length_map, List.map_append, List.map_append, List.map_map,
      List.map_map]
    rw [List.length_map] at lengths
    exact lengths
  · intro busy
    apply nested.2
    rw [performed] at busy
    have same : ((inner.perform m).onto (rest.map Prod.snd)).step? = none ↔ (inner.perform m).step? = none :=
      Engine.resting_congr rfl
    exact fun h => busy (same.2 h)
  · rw [graph]
    exact keeps.matches minds.within makes (side_apart S b)

theorem of_idle (apart : e.graph.Apart S) (idle : e.frames = []) : Split S [] e :=
  ⟨idle, apart, fun _ mem => absurd mem List.not_mem_nil, trivial⟩

theorem perform (split : Split S stack e) (allowed : e.Allows m) (minds : e.Minds S (stack.map Prod.fst) b m) :
    ∃ stack', stack'.map Prod.fst = restack b (stack.map Prod.fst) (e.perform m).frames.length ∧
      Split S stack' (e.perform m) ∧ e.graph.Larger (e.perform m).graph := by
  obtain ⟨top, rest, rfl, whole, step, others⟩ := split.acting minds
  have adv := split.advances allowed minds whole step others
  exact ⟨_, adv.owners, adv.split, adv.larger⟩

/-- Sides stay apart in every run whose moves keep to the side that makes them, mounting included. -/
theorem run {ms ms' : List (Bool × Move)} (split : Split S stack e)
    (parts : e.Parts S (stack.map Prod.fst) (ms ++ ms')) :
    ∃ stack', Split S stack' (e.after (ms.map Prod.snd)) ∧
      (e.after (ms.map Prod.snd)).Parts S (stack'.map Prod.fst) ms' := by
  induction ms generalizing e stack with
  | nil => exact ⟨stack, split, parts⟩
  | cons x ms ih =>
    obtain ⟨allowed, minds, parts⟩ := parts
    obtain ⟨stack', owners, split', -⟩ := split.perform allowed minds
    rw [← owners] at parts
    exact ih split' parts

end Split

def Share.whole : Share := fun _ _ => true

def History.Known (h : History) : Prop := ∀ x ∈ h, x.2.Within (Share.whole.Has x.1.graph)

instance (h : History) : Decidable h.Known := inferInstanceAs (Decidable (∀ x ∈ h, _))

theorem Graph.closed_empty (S : Share) (whole : ∀ kind i, S kind i = true) : Graph.Closed S {} where
  keeps := ⟨nofun, nofun, nofun, nofun, nofun, nofun⟩
  coming kind i _ := whole kind i

theorem Run.closed_of_known {h : History} {e : Engine} (run : Run h e) (known : h.Known) : e.Closed Share.whole := by
  induction run with
  | start => exact ⟨Graph.closed_empty _ fun _ _ => rfl, nofun⟩
  | @move h e m run allowed ih =>
    have closed := ih fun x mem => known x (List.mem_cons_of_mem _ mem)
    exact (Engine.acts_perform closed (known _ List.mem_cons_self)).closed

end DataBinding
