import DataBinding.Proofs.CompilationEffects

/-!
Compilation piece by piece: whatever holds of every piece and goes on from one to the next holds of a whole
compilation.
-/

namespace DataBinding

variable {m : ModelId} {names : NodeId → String → Prop} {g g' g'' : Graph} {slot : Slot}

def Content.put (text : String) : Content → Slot → Content
  | .text _, .text _ => .text text
  | .element tag attributes value, .attr _ name => .element tag (attributes.set name text) value
  | .element tag attributes _, .value _ => .element tag attributes text
  | c, _ => c

def Content.without (name : String) : Content → Content
  | .element tag attributes value => .element tag (attributes.erase name) value
  | c => c

namespace Forest

variable {f f' : Forest} {text : String}

theorem fill_eq (takes : f.takes slot) (text : String) :
    f.fill slot text = .ok (f.setContent slot.node ((f.content slot.node).put text slot)) := by
  rw [Forest.takes] at takes
  cases slot with
  | text n =>
    cases hc : f.content n with
    | text content => simp [fill, setText, Slot.node, hc, Content.put]
    | _ => simp [Slot.node, hc, Content.takes] at takes
  | attr n name =>
    cases hc : f.content n with
    | element tag attributes value => simp [fill, setAttribute, Slot.node, hc, Content.put]
    | _ => simp [Slot.node, hc, Content.takes] at takes
  | value n =>
    cases hc : f.content n with
    | element tag attributes value => simp [fill, setValue, Slot.node, hc, Content.put]
    | _ => simp [Slot.node, hc, Content.takes] at takes

theorem removeAttribute_eq (f : Forest) (n : NodeId) (name : String) :
    f.removeAttribute n name = f.setContent n ((f.content n).without name) := by
  unfold removeAttribute
  split
  · next hc => rw [hc, Content.without]
  · next hc =>
    have same : (f.content n).without name = f.content n := by
      unfold Content.without
      split
      · next hc' => exact absurd hc' (hc _ _ _)
      · rfl
    simp [same]

@[simp] theorem takes_put (c : Content) (text : String) (slot : Slot) : (c.put text slot).takes = c.takes := by
  unfold Content.put
  split <;> first | rfl | exact takes_element | exact takes_text

@[simp] theorem takes_without (c : Content) (name : String) : (c.without name).takes = c.takes := by
  unfold Content.without
  split
  · exact takes_element
  · rfl

end Forest

def Slot.Named (names : NodeId → String → Prop) : Slot → Prop
  | .attr n name => names n name
  | _ => True

def Forest.Named (names : NodeId → String → Prop) (f : Forest) : Prop :=
  ∀ n, ∀ name ∈ (f.content n).attributes.names, names n name

inductive Piece (m : ModelId) (names : NodeId → String → Prop) (g : Graph) : Graph → Prop
  | createRecord (v : Value) : Piece m names g (g.createRecord v).2
  | setRecord (r : RecordId) (v : Value) : Piece m names g (g.setRecord r v)
  | watch (path : Path) {reaction : Reaction} {slot : Slot} (target : reaction.slot? = some slot)
    (takes : g.forest.takes slot) (named : slot.Named names) :
    Piece m names g (g.createWatcher m path reaction).2
  | fill {slot : Slot} (text : String) (takes : g.forest.takes slot) (named : slot.Named names) :
    Piece m names g
      { g with forest := g.forest.setContent slot.node ((g.forest.content slot.node).put text slot) }
  | listen (n : NodeId) (event : String) (listener : Listener) :
    Piece m names g { g with forest := g.forest.listen n event listener }
  | strip (n : NodeId) (name : String) :
    Piece m names g { g with forest := g.forest.setContent n ((g.forest.content n).without name) }

inductive Pieces (m : ModelId) (names : NodeId → String → Prop) (g : Graph) : Graph → Prop
  | nil : Pieces m names g g
  | snoc {g' g'' : Graph} (pieces : Pieces m names g g') (piece : Piece m names g' g'') : Pieces m names g g''

theorem Pieces.trans (h : Pieces m names g g') (h' : Pieces m names g' g'') : Pieces m names g g'' := by
  induction h' with
  | nil => exact h
  | snoc _ piece ih => exact ih.snoc piece

theorem Piece.pieces (h : Piece m names g g') : Pieces m names g g' := .snoc .nil h

theorem keeps_createWatcher (g : Graph) (m : ModelId) (path : Path) (reaction : Reaction) :
    Forest.Keeps g.forest (g.createWatcher m path reaction).2.forest :=
  (Graph.gains_createWatcher g m path reaction).keeps

theorem Piece.takes (h : Piece m names g g') (slot : Slot) : g'.forest.takes slot = g.forest.takes slot := by
  cases h with
  | createRecord v => rfl
  | setRecord r v => rfl
  | watch path target takes named => exact (keeps_createWatcher _ _ _ _).takes slot
  | fill text takes named => exact Forest.takes_setContent (Forest.takes_put _ _ _).symm slot
  | listen n event listener => rw [Forest.takes, Forest.content_listen, Forest.takes]
  | strip n name => exact Forest.takes_setContent (Forest.takes_without _ _).symm slot

theorem names_put (c : Content) (text : String) (slot : Slot) :
    ∀ name ∈ (c.put text slot).attributes.names, name ∈ c.attributes.names ∨ slot = .attr slot.node name := by
  intro name h
  unfold Content.put at h
  split at h
  · exact .inl h
  · next tag attributes value n name' =>
    rw [Content.attributes, Fields.names_set] at h
    split at h
    · exact .inl h
    · rcases List.mem_append.1 h with h | h
      · exact .inl h
      · rw [List.mem_singleton.1 h]
        exact .inr rfl
  · exact .inl h
  · exact .inl h

theorem names_without (c : Content) (name : String) :
    ∀ n ∈ (c.without name).attributes.names, n ∈ c.attributes.names := by
  intro n h
  unfold Content.without at h
  split at h
  · exact (List.filter_sublist.map _).subset h
  · exact h

theorem Piece.named (h : Piece m names g g') (named : g.forest.Named names) : g'.forest.Named names := by
  cases h with
  | createRecord v => exact named
  | setRecord r v => exact named
  | watch path target takes wanted =>
    intro n
    rw [(keeps_createWatcher _ _ _ _).content]
    exact named n
  | @fill slot text takes wanted =>
    intro n name h
    rw [Forest.content_setContent] at h
    split at h
    · next here =>
      rcases names_put _ _ _ name h with h | h
      · rw [here.1]
        exact named slot.node name h
      · rw [h] at wanted
        rw [here.1]
        exact wanted
    · exact named n name h
  | listen n event listener =>
    intro n
    simpa using named n
  | strip n name =>
    intro n' name' h
    rw [Forest.content_setContent] at h
    split at h
    · next here =>
      rw [here.1]
      exact named n name' (names_without _ _ _ h)
    · exact named n' name' h

theorem Pieces.takes (h : Pieces m names g g') (slot : Slot) : g'.forest.takes slot = g.forest.takes slot := by
  induction h with
  | nil => rfl
  | snoc _ piece ih => exact (piece.takes slot).trans ih

theorem Pieces.named (h : Pieces m names g g') (named : g.forest.Named names) : g'.forest.Named names := by
  induction h with
  | nil => exact named
  | snoc _ piece ih => exact piece.named ih

namespace Compilation

variable {α β : Type} {p p' : Progress} {n : NodeId}

def Consists (m : ModelId) (names : NodeId → String → Prop) (p : Progress) (x : Compilation α) : Prop :=
  p.graph.forest.Named names → Pieces m names p.graph (x.run.run p).2.graph

theorem consists_pure (a : α) : Consists m names p (pure a) := fun _ => .nil

theorem consists_throw (e : Error) : Consists m names p (throw e : Compilation α) := fun _ => .nil

theorem consists_report (d : Diagnostic) : Consists m names p (report d) := fun _ => .nil

theorem consists_graph {next : Graph → Compilation β} (h : Consists m names p (next p.graph)) :
    Consists m names p (graph >>= next) := h

theorem consists_setGraph (h : Piece m names p.graph g) : Consists m names p (setGraph g) := fun _ => h.pieces

theorem consists_bind {x : Compilation α} {next : α → Compilation β} (hx : Consists m names p x)
    (hnext : ∀ {a p'}, Pieces m names p.graph p'.graph → Consists m names p' (next a)) :
    Consists m names p (x >>= next) := by
  intro named
  have first := hx named
  rw [run_bind]
  split
  · next h =>
    rw [h] at first
    exact first.trans (hnext first (first.named named))
  · next h =>
    rw [h] at first
    exact first

theorem consists_tryFinally {x : Compilation α} {y : Compilation β} (hx : Consists m names p x)
    (hy : ∀ {p'}, Consists m names p' y) : Consists m names p (tryFinally x y) := by
  intro named
  have first := hx named
  rw [run_tryFinally]
  exact first.trans (hy (first.named named))

theorem consists_forM {nodes : List NodeId} {x : NodeId → Compilation PUnit}
    (h : ∀ n {p}, Consists m names p (x n)) : Consists m names p (nodes.forM x) := by
  induction nodes generalizing p with
  | nil => exact consists_pure _
  | cons n nodes ih => exact consists_bind (h n) fun _ => ih

theorem consists_watch (path : Path) {reaction : Reaction} (target : reaction.slot? = some slot)
    (takes : p.graph.forest.takes slot) (named : slot.Named names) :
    Consists m names p (watch m path reaction) := fun _ => (Piece.watch path target takes named).pieces

theorem consists_fill (text : String) (takes : p.graph.forest.takes slot) (named : slot.Named names) :
    Consists m names p (changeForest (·.fill slot text)) := by
  intro _
  rw [run_changeForest (Forest.fill_eq takes text)]
  exact (Piece.fill text takes named).pieces

theorem consists_listen (event : String) (listener : Listener) :
    Consists m names p (changeForest fun f => .ok (f.listen n event listener)) :=
  fun _ => (Piece.listen n event listener).pieces

theorem consists_strip (name : String) :
    Consists m names p (changeForest fun f => .ok (f.removeAttribute n name)) := by
  intro _
  rw [run_changeForest_ok, Forest.removeAttribute_eq]
  exact (Piece.strip n name).pieces

theorem consists_refuse (strict : Bool) (e : Error) (d : Diagnostic) :
    Consists m names p (refuse strict e d) := by
  unfold refuse
  split
  · exact consists_throw e
  · exact consists_report d

theorem consists_resolve (source expression : String) : Consists m names p (resolve m source expression) := by
  apply consists_graph
  dsimp only
  split
  · exact consists_bind (consists_refuse _ _ _) fun _ => consists_pure _
  · apply consists_graph
    split
    · exact consists_pure _
    · exact consists_bind (consists_refuse _ _ _) fun _ => consists_pure _

theorem consists_show (path : Path) {reaction : Reaction} (target : reaction.slot? = some slot)
    (takes : p.graph.forest.takes slot) (named : slot.Named names) :
    Consists m names p (do
      let v ← watch m path reaction
      changeForest (·.fill slot v.text)) := by
  apply consists_bind (consists_watch path target takes named)
  intro v p' pieces
  exact consists_fill _ (by rwa [pieces.takes]) named

theorem consists_compileText (expression : String) (takes : p.graph.forest.takes (.text n)) :
    Consists m names p (compileText m n expression) := by
  apply consists_bind (consists_resolve _ _)
  rintro (_ | path) p' pieces
  · exact consists_pure _
  · rw [← pieces.takes] at takes
    have target : (Reaction.showText n).slot? = some (.text n) := rfl
    have named : Slot.Named names (.text n) := trivial
    have shown := consists_show (m := m) path target takes named
    simp only [Forest.fill] at shown
    exact shown

theorem consists_compileBind (directive name expression : String) (takes : p.graph.forest.takes (.attr n name))
    (named : names n name) : Consists m names p (compileBind m n directive name expression) := by
  apply consists_bind (consists_resolve _ _)
  rintro (_ | path) p' pieces
  · exact consists_pure _
  · rw [← pieces.takes] at takes
    have target : (Reaction.showAttribute n name).slot? = some (.attr n name) := rfl
    have named : Slot.Named names (.attr n name) := named
    have shown := consists_show (m := m) path target takes named
    simp only [Forest.fill] at shown
    exact shown

theorem consists_compileModel (directive expression : String) (takes : p.graph.forest.takes (.value n)) :
    Consists m names p (compileModel m n directive expression) := by
  apply consists_bind (consists_resolve _ _)
  rintro (_ | path) p₁ pieces
  · exact consists_pure _
  · rw [← pieces.takes] at takes
    apply consists_graph
    apply consists_bind (consists_setGraph (.createRecord .undefined))
    intro _ p₂ pieces
    rw [← pieces.takes] at takes
    have target (r : RecordId) : (Reaction.showValue n r).slot? = some (.value n) := rfl
    apply consists_bind (consists_watch path (target _) takes trivial)
    intro v p₃ pieces
    rw [← pieces.takes] at takes
    apply consists_bind (consists_fill v.text takes trivial)
    intro _ p₄ _
    apply consists_graph
    apply consists_bind (consists_setGraph (.setRecord _ v))
    intro _ p₅ _
    exact consists_listen "input" _

theorem consists_compileOn (directive event method : String) :
    Consists m names p (compileOn m n directive event method) := by
  apply consists_graph
  dsimp only
  split
  · exact consists_listen event _
  · exact consists_refuse _ _ _

def Closed (names : NodeId → String → Prop) : Prop :=
  ∀ n legacy name a, names n name → Directive.ofName? legacy name = some (.bind a) → names n a

theorem closed_trivial : Closed fun _ _ => True := fun _ _ _ _ _ _ => trivial

theorem consists_compileDirective (name value : String) {directive : Directive}
    (takes : p.graph.forest.takes (.value n)) (named : ∀ a, directive = .bind a → names n a) :
    Consists m names p (compileDirective m n name value directive) := by
  cases directive with
  | malformed => exact consists_report _
  | on event =>
    simp only [compileDirective]
    split
    · exact consists_report _
    · exact consists_compileOn _ _ _
  | bind a =>
    simp only [compileDirective]
    split
    · exact consists_report _
    · exact consists_compileBind _ _ _ (takes_attr takes a) (named a rfl)
  | model =>
    simp only [compileDirective]
    split
    · exact consists_report _
    · exact consists_compileModel _ _ takes

theorem consists_compileAttributes (closed : Closed names) {attributes : List (String × String)}
    (takes : p.graph.forest.takes (.value n)) (named : ∀ a ∈ attributes, names n a.1) :
    Consists m names p (compileAttributes m n attributes) := by
  induction attributes generalizing p with
  | nil => exact consists_pure _
  | cons pair rest ih =>
    obtain ⟨name, value⟩ := pair
    have others : ∀ a ∈ rest, names n a.1 := fun a ha => named a (List.mem_cons_of_mem _ ha)
    rw [compileAttributes]
    apply consists_graph
    dsimp only
    split
    · next directive found =>
      have wanted : ∀ a, directive = .bind a → names n a := by
        rintro a rfl
        exact closed n _ name a (named _ List.mem_cons_self) found
      apply consists_bind
      · exact consists_tryFinally (consists_compileDirective name value takes wanted) (consists_strip name)
      · intro _ p' pieces
        exact ih (by rwa [pieces.takes]) others
    · exact ih takes others

theorem consists_compileNode (closed : Closed names) (n : NodeId) : Consists m names p (compileNode m n) := by
  intro named
  refine consists_graph ?_ named
  split
  · next tag attributes value hc =>
    apply consists_compileAttributes closed
    · rw [Forest.takes, Slot.node, hc]
      rfl
    · intro a ha
      have held := named n a.1
      rw [hc] at held
      exact held (List.mem_map_of_mem ha)
  · next content hc =>
    split
    · apply consists_compileText
      rw [Forest.takes, Slot.node, hc]
      rfl
    · exact consists_pure _
  · exact consists_pure _

theorem consists_compileBelow (closed : Closed names) (depth : Nat) (n : NodeId) :
    Consists m names p (compileBelow m depth n) := by
  induction depth generalizing n p with
  | zero => exact consists_pure _
  | succ depth ih =>
    apply consists_graph
    apply consists_forM
    intro c p
    exact consists_bind (consists_compileNode closed c) fun _ => ih c

end Compilation

def Forest.wrap (f : Forest) (root : NodeId) : Forest :=
  (f.create .fragment).2.adoptAll ⟨f.size⟩ ((f.create .fragment).2.children root)

/-- What initializing a compiler can be: nothing to speak of, or a compilation in a fragment, after which what stands
there goes back if it can. -/
theorem Graph.init_cases (closed : Compilation.Closed names) (g : Graph) (id : CompilerId) :
    (∃ d, (g.init id).2 = g.setCompiler id d) ∨
      ∃ root g' f d, ((g.forest.wrap root).Named names →
          Pieces (g.compiler id).model names { g with forest := g.forest.wrap root } g') ∧
        (f = g'.forest ∨ ∃ f', g'.forest.append root ⟨g.forest.size⟩ = .ok f' ∧ f = f'.retain root) ∧
        (g.init id).2 = setCompiler { g' with forest := f } id d := by
  unfold init
  dsimp only
  split
  · exact .inl ⟨g.compiler id, by simp⟩
  split
  · exact .inl ⟨_, rfl⟩
  · next root _ =>
    right
    split
    next result p hrun =>
    have pieces (named : (g.forest.wrap root).Named names) :
        Pieces (g.compiler id).model names { g with forest := g.forest.wrap root } (Prod.snd (result, p)).graph := by
      have made := Compilation.consists_compileBelow closed (g.forest.wrap root).size ⟨g.forest.size⟩
        (m := (g.compiler id).model)
        (p := { graph := { g with forest := g.forest.wrap root }, diagnostics := (g.compiler id).diagnostics }) named
      rw [← hrun]
      exact made
    split
    · next e happend => exact ⟨root, p.graph, p.graph.forest, _, pieces, .inl rfl, rfl⟩
    · next f' happend => exact ⟨root, p.graph, f'.retain root, _, pieces, .inr ⟨f', happend, rfl⟩, rfl⟩

end DataBinding
