import DataBinding.Forest.Traversal
import DataBinding.Proofs.GraphSplicing

namespace DataBinding.Graph

variable {S : Share} {g b : Graph} {n p c : NodeId}

def inForest (op : Forest → Forest) (g : Graph) : Graph := { g with forest := op g.forest }

/-- A change of documents that fails whatever there is beside a side, or is local to the side. -/
inductive Tries (S : Share) (op : Forest → Except DocumentError Forest) (g : Graph) : Prop
  | fails (err : DocumentError) (same : op g.forest = .error err)
    (same' : ∀ b, op (g.splice S b).forest = .error err)
  | does (change : Forest → Forest) (same : op g.forest = .ok (change g.forest))
    (same' : ∀ b, op (g.splice S b).forest = .ok (change (g.splice S b).forest))
    (locally : Local S (·.inForest change) g)

section

variable {op op' : Forest → Forest}

theorem Local.congr_forest (same : op g.forest = op' g.forest)
    (same' : ∀ b, op (g.splice S b).forest = op' (g.splice S b).forest) (h : Local S (·.inForest op') g) :
    Local S (·.inForest op) g := by
  have swap {g : Graph} (same : op g.forest = op' g.forest) : g.inForest op = g.inForest op' :=
    congrArg (fun forest => { g with forest }) same
  exact h.congr (swap same) fun b => swap (same' b)

theorem Local.of_still (closed : g.Closed S) (same : op g.forest = g.forest)
    (same' : ∀ b, op (g.splice S b).forest = (g.splice S b).forest) : Local S (·.inForest op) g := by
  have still : Local S (·.inForest fun f => f) g := .id closed
  exact still.congr_forest same same'

theorem Local.comp_forest (h : Local S (·.inForest op) g) (h' : Local S (·.inForest op') (g.inForest op)) :
    Local S (·.inForest fun f => op' (op f)) g := h.comp h'

theorem foldl_inForest {α : Type} (step : Forest → α → Forest) (as : List α) (g : Graph) :
    g.inForest (fun f => as.foldl step f) = as.foldl (fun g a => g.inForest (step · a)) g := by
  induction as generalizing g with
  | nil => rfl
  | cons a as ih => exact ih (g.inForest (step · a))

theorem Local.foldl_forest {α : Type} {step : Forest → α → Forest} {F : Graph → α → Prop}
    (mono : ∀ g g' a, F g a → g.Larger g' → F g' a)
    (each : ∀ g a, g.Closed S → F g a → Local S (·.inForest (step · a)) g) (as : List α) (closed : g.Closed S)
    (all : ∀ a ∈ as, F g a) : Local S (·.inForest fun f => as.foldl step f) g := by
  have folded : Local S (fun g => as.foldl (fun g a => g.inForest (step · a)) g) g :=
    Local.foldl mono each as closed all
  exact folded.congr (foldl_inForest step as g) fun _ => foldl_inForest step as _

end

theorem local_modifyNode (closed : g.Closed S) (here : S .node n.index) {change : Node → Node}
    (within : (change (g.forest.node n)).Within (S.Has g)) : Local S (·.inForest (·.modify n change)) g := by
  apply Local.of_keeps closed
  · intro kind
    cases kind with
    | node => exact Table.size_le_modify ..
    | _ => exact Nat.le_refl _
  · exact { closed.keeps with nodes := closed.keeps.nodes.modify within }
  · exact fun b => congrArg (fun nodes => { g.splice S b with forest := ⟨nodes⟩ })
      (Table.modify_splice here change)

theorem local_create (closed : g.Closed S) (content : Content) :
    Local S (·.inForest fun f => (f.create content).2) g := by
  apply Local.of_keeps closed
  · intro kind
    cases kind with
    | node => exact Nat.le_of_lt (Table.size_lt_add ..)
    | _ => exact Nat.le_refl _
  · exact { closed.keeps with nodes := closed.keeps.nodes.add (Node.within_blank _ content) }
  · exact fun b => congrArg (fun nodes => { g.splice S b with forest := ⟨nodes⟩ })
      (Table.add_splice (closed.coming .node _ (Nat.le_refl _)) _)

theorem local_revise (closed : g.Closed S) (here : S .node n.index) {change : Node → Node}
    (parent : ∀ d, (change d).parent = d.parent) (children : ∀ d, (change d).children = d.children)
    (listeners : ∀ d, (change d).listeners = d.listeners) : Local S (·.inForest (·.modify n change)) g := by
  have within := closed.node here
  apply local_modifyNode closed here
  exact ⟨by rw [parent]; exact within.parent, by rw [children]; exact within.children,
    by rw [listeners]; exact within.listeners⟩

theorem local_retainNode (closed : g.Closed S) (here : S .node n.index) : Local S (·.inForest (·.retain n)) g :=
  local_revise closed here (fun _ => rfl) (fun _ => rfl) fun _ => rfl

theorem local_releaseNode (closed : g.Closed S) (here : S .node n.index) : Local S (·.inForest (·.release n)) g :=
  local_revise closed here (fun _ => rfl) (fun _ => rfl) fun _ => rfl

theorem local_setContent (closed : g.Closed S) (here : S .node n.index) (content : Content) :
    Local S (·.inForest (·.setContent n content)) g :=
  local_revise closed here (fun _ => rfl) (fun _ => rfl) fun _ => rfl

theorem local_listen (closed : g.Closed S) (here : S .node n.index) (event : String) {listener : Listener}
    (heard : listener.Within (S.Has g)) : Local S (·.inForest (·.listen n event listener)) g := by
  have within := closed.node here
  apply local_modifyNode closed here
  refine ⟨within.parent, within.children, ?_⟩
  intro x hx
  rcases List.mem_append.1 hx with hx | hx
  · exact within.listeners x hx
  · rw [List.mem_singleton.1 hx]
    exact heard

theorem has_create (closed : g.Closed S) (content : Content) :
    S.Has (g.inForest fun f => (f.create content).2) .node g.forest.size := by
  refine ⟨closed.coming .node _ (Nat.le_refl _), ?_⟩
  exact Nat.lt_of_lt_of_eq (Nat.lt_succ_self _) (Forest.size_create g.forest content).symm

@[simp] theorem size_forest_splice : (g.splice S b).forest.size = g.forest.size := Table.size_splice

theorem detach_eq {f : Forest} (parent : (f.node n).parent = some p) : f.detach n =
    (f.modify n ({ · with parent := none })).modify p fun d => { d with children := d.children.filter (· ≠ n) } := by
  rw [Forest.detach, parent]

theorem local_detach (closed : g.Closed S) (here : S .node n.index) : Local S (·.inForest (·.detach n)) g := by
  cases parent : (g.forest.node n).parent with
  | none =>
    refine .of_still closed (Forest.detach_of_parent parent) fun b => ?_
    exact Forest.detach_of_parent (by rw [node_splice here, parent])
  | some p =>
    have within := closed.node here
    have above := within.parent p parent
    have freed : Local S (·.inForest (·.modify n ({ · with parent := none }))) g :=
      local_modifyNode closed here ⟨nofun, within.children, within.listeners⟩
    have within' := freed.closed.node above.1
    have left : Local S (·.inForest (·.modify p fun d => { d with children := d.children.filter (· ≠ n) }))
        (g.inForest (·.modify n ({ · with parent := none }))) :=
      local_modifyNode freed.closed above.1
        ⟨within'.parent, fun c hc => within'.children c (List.mem_filter.1 hc).1, within'.listeners⟩
    exact (freed.comp_forest left).congr_forest (detach_eq parent) fun b => detach_eq (by rw [node_splice here, parent])

theorem local_adopt (closed : g.Closed S) (above : S.Has g .node p.index) (below : S.Has g .node c.index) :
    Local S (·.inForest (·.adopt p c)) g := by
  have freed := local_detach closed below.1
  have within := freed.closed.node below.1
  have linked : Local S (·.inForest (·.modify c ({ · with parent := some p }))) (g.inForest (·.detach c)) := by
    apply local_modifyNode freed.closed below.1
    refine ⟨fun q hq => ?_, within.children, within.listeners⟩
    cases hq
    exact above.mono freed.larger
  have within' := linked.closed.node above.1
  have listed : Local S (·.inForest (·.modify p fun d => { d with children := d.children ++ [c] }))
      ((g.inForest (·.detach c)).inForest (·.modify c ({ · with parent := some p }))) := by
    apply local_modifyNode linked.closed above.1
    refine ⟨within'.parent, fun d hd => ?_, within'.listeners⟩
    rcases List.mem_append.1 hd with hd | hd
    · exact within'.children d hd
    · rw [List.mem_singleton.1 hd]
      exact below.mono (freed.larger.trans linked.larger)
  exact (freed.comp_forest linked).comp_forest listed

theorem local_adoptAll (closed : g.Closed S) (above : S.Has g .node p.index) {cs : List NodeId}
    (below : ∀ c ∈ cs, S.Has g .node c.index) : Local S (·.inForest (·.adoptAll p cs)) g := by
  apply Local.foldl_forest (F := fun g c => S.Has g .node p.index ∧ S.Has g .node c.index)
  · exact fun _ _ _ fits larger => ⟨fits.1.mono larger, fits.2.mono larger⟩
  · exact fun g c closed fits => local_adopt closed fits.1 fits.2
  · exact closed
  · exact fun c hc => ⟨above, below c hc⟩

theorem ancestorWithin_splice (closed : g.Closed S) (a : NodeId) (steps : Nat) (here : S .node n.index) :
    (g.splice S b).forest.ancestorWithin a steps n = g.forest.ancestorWithin a steps n := by
  induction steps generalizing n with
  | zero => rfl
  | succ steps ih =>
    rw [Forest.ancestorWithin, Forest.ancestorWithin, node_splice here]
    cases parent : (g.forest.node n).parent with
    | none => rfl
    | some p =>
      have above := (closed.node here).parent p parent
      simp only [Option.any_some, ih above.1]

theorem isAncestor_splice (closed : g.Closed S) (a : NodeId) (here : S .node n.index) :
    (g.splice S b).forest.isAncestor a n = g.forest.isAncestor a n := by
  rw [Forest.isAncestor, size_forest_splice, ancestorWithin_splice closed a _ here, Forest.isAncestor]

theorem append_of_single {f : Forest} (takes : (f.content p).takesChildren = true) (document : f.content c ≠ .document)
    (fragment : f.content c ≠ .fragment) :
    f.append p c = if c = p ∨ f.isAncestor c p then .error (.misplaced .ownAncestor) else .ok (f.adopt p c) := by
  simp only [Forest.append, takes, Bool.not_true, Bool.false_eq_true, if_false]

theorem tries_append (closed : g.Closed S) (above : S.Has g .node p.index) (below : S.Has g .node c.index) :
    Tries S (·.append p c) g := by
  have parent (b : Graph) := content_splice (g := g) (b := b) above.1
  have child (b : Graph) := content_splice (g := g) (b := b) below.1
  by_cases takes : (g.forest.content p).takesChildren = true
  · by_cases document : g.forest.content c = .document
    · apply Tries.fails (.misplaced .documentAsChild)
      · simp only [Forest.append, takes, document, Bool.not_true, Bool.false_eq_true, if_false]
      · intro b
        simp only [Forest.append, parent, child, takes, document, Bool.not_true, Bool.false_eq_true, if_false]
    by_cases fragment : g.forest.content c = .fragment
    · apply Tries.does (·.adoptAll p (g.forest.children c))
      · simp only [Forest.append, takes, fragment, Bool.not_true, Bool.false_eq_true, if_false]
      · intro b
        simp only [Forest.append, parent, child, children_splice below.1, takes, fragment, Bool.not_true,
          Bool.false_eq_true, if_false]
      · exact local_adoptAll closed above (closed.children below.1)
    have single := append_of_single takes document fragment
    have single' (b : Graph) : (g.splice S b).forest.append p c = if c = p ∨ g.forest.isAncestor c p then
        .error (.misplaced .ownAncestor) else .ok ((g.splice S b).forest.adopt p c) := by
      have under := isAncestor_splice (b := b) closed c above.1
      rw [append_of_single (by rw [parent, takes]) (by rw [child]; exact document) (by rw [child]; exact fragment),
        under]
    by_cases loop : c = p ∨ g.forest.isAncestor c p = true
    · exact .fails _ (by rw [single, if_pos loop]) fun b => by rw [single', if_pos loop]
    · exact .does _ (by rw [single, if_neg loop]) (fun b => by rw [single', if_neg loop])
        (local_adopt closed above below)
  · apply Tries.fails (.misplaced .childlessParent)
    · simp only [Forest.append, takes, Bool.not_false, if_true]
    · intro b
      simp only [Forest.append, parent, takes, Bool.not_false, if_true]

theorem tries_setAttribute (closed : g.Closed S) (here : S .node n.index) (name value : String) :
    Tries S (·.setAttribute n name value) g := by
  cases hc : g.forest.content n with
  | element tag attributes v =>
    apply Tries.does (·.setContent n (.element tag (attributes.set name value) v))
    · simp only [Forest.setAttribute, hc]
    · simp only [Forest.setAttribute, content_splice here, hc, implies_true]
    · exact local_setContent closed here _
  | _ =>
    apply Tries.fails (.notElement .setAttribute)
    · simp only [Forest.setAttribute, hc]
    · simp only [Forest.setAttribute, content_splice here, hc, implies_true]

theorem tries_setValue (closed : g.Closed S) (here : S .node n.index) (value : String) :
    Tries S (·.setValue n value) g := by
  cases hc : g.forest.content n with
  | element tag attributes v =>
    apply Tries.does (·.setContent n (.element tag attributes value))
    · simp only [Forest.setValue, hc]
    · simp only [Forest.setValue, content_splice here, hc, implies_true]
    · exact local_setContent closed here _
  | _ =>
    apply Tries.fails (.notElement .setValue)
    · simp only [Forest.setValue, hc]
    · simp only [Forest.setValue, content_splice here, hc, implies_true]

theorem local_removeAttribute (closed : g.Closed S) (here : S .node n.index) (name : String) :
    Local S (·.inForest (·.removeAttribute n name)) g := by
  cases hc : g.forest.content n with
  | element tag attributes v =>
    refine .congr_forest ?_ (fun b => ?_) (local_setContent closed here (.element tag (attributes.erase name) v))
    · simp only [Forest.removeAttribute, hc]
    · simp only [Forest.removeAttribute, content_splice here, hc]
  | _ =>
    refine .of_still closed ?_ fun b => ?_
    · simp only [Forest.removeAttribute, hc]
    · simp only [Forest.removeAttribute, content_splice here, hc]

theorem local_addChild (closed : g.Closed S) (here : S.Has g .node n.index) (content : Content) :
    Local S (·.inForest fun f => (f.create content).2.adopt n (f.create content).1) g := by
  have created := local_create closed content
  have adopted := local_adopt (c := ⟨g.forest.size⟩) created.closed (here.mono created.larger)
    (has_create closed content)
  refine .congr_forest rfl (fun b => ?_) (created.comp_forest adopted)
  simp [Forest.create]

theorem local_replaceChildren (closed : g.Closed S) (here : S.Has g .node n.index) (text : String) :
    Local S (·.inForest (·.replaceChildren n text)) g := by
  have emptied : Local S (·.inForest fun f => (g.forest.children n).foldl Forest.detach f) g := by
    apply Local.foldl_forest (F := fun g c => S.Has g .node c.index)
    · exact fun _ _ _ has larger => has.mono larger
    · exact fun g c closed has => local_detach closed has.1
    · exact closed
    · exact closed.children here.1
  by_cases empty : text.isEmpty = true
  · refine .congr_forest ?_ (fun b => ?_) emptied
    · simp only [Forest.replaceChildren, empty, if_true]
    · simp [Forest.replaceChildren, here.1, empty]
  · have filled := local_addChild emptied.closed (here.mono emptied.larger) (.text text)
    refine .congr_forest ?_ (fun b => ?_) (emptied.comp_forest filled)
    · simp only [Forest.replaceChildren, empty]
      rfl
    · simp [Forest.replaceChildren, here.1, empty]

theorem tries_setText (closed : g.Closed S) (here : S.Has g .node n.index) (text : String) :
    Tries S (·.setText n text) g := by
  cases hc : g.forest.content n with
  | text old =>
    apply Tries.does (·.setContent n (.text text))
    · simp only [Forest.setText, hc]
    · simp only [Forest.setText, content_splice here.1, hc, implies_true]
    · exact local_setContent closed here.1 _
  | element tag attributes v =>
    by_cases void : Markup.isVoid tag = true
    · apply Tries.fails (.notText .setText)
      · simp only [Forest.setText, hc, void, if_true]
      · simp only [Forest.setText, content_splice here.1, hc, void, if_true, implies_true]
    · apply Tries.does (·.replaceChildren n text)
      · simp only [Forest.setText, hc, void]
        rfl
      · simp only [Forest.setText, content_splice here.1, hc, void]
        exact fun _ => rfl
      · exact local_replaceChildren closed here text
  | fragment =>
    apply Tries.does (·.replaceChildren n text)
    · simp only [Forest.setText, hc]
    · simp only [Forest.setText, content_splice here.1, hc, implies_true]
    · exact local_replaceChildren closed here text
  | document =>
    apply Tries.fails (.notText .setText)
    · simp only [Forest.setText, hc]
    · simp only [Forest.setText, content_splice here.1, hc, implies_true]

theorem size_lt_plant (f : Forest) (tree : Markup.Tree) : f.size < (f.plant tree).2.size := by
  cases tree with
  | text content =>
    simp [Forest.plant]
  | element tag attributes children =>
    have grown := (Forest.carries_plantAll
      (f.create (.element tag attributes ((attributes.get? "value").getD ""))).2 ⟨f.size⟩ children).size
    rw [Forest.size_create] at grown
    exact grown

mutual

theorem local_plant (g : Graph) (closed : g.Closed S) :
    (tree : Markup.Tree) → Local S (·.inForest fun f => (f.plant tree).2) g
  | .text content => local_create closed (.text content)
  | .element tag attributes children => by
    let content := Content.element tag attributes ((attributes.get? "value").getD "")
    have created := local_create closed content
    have planted := local_plantAll (g.inForest fun f => (f.create content).2) ⟨g.forest.size⟩ created.closed
      (has_create closed content) children
    refine .congr_forest (Forest.plant_element ..) (fun b => ?_) (created.comp_forest planted)
    rw [Forest.plant_element, size_forest_splice]

theorem local_plantAll (g : Graph) (p : NodeId) (closed : g.Closed S) (above : S.Has g .node p.index) :
    (trees : List Markup.Tree) → Local S (·.inForest (·.plantAll p trees)) g
  | [] => .id closed
  | tree :: rest => by
    have planted := local_plant g closed tree
    have root : S.Has (g.inForest fun f => (f.plant tree).2) .node g.forest.size :=
      ⟨closed.coming .node _ (Nat.le_refl _), size_lt_plant g.forest tree⟩
    have adopted := local_adopt (c := ⟨g.forest.size⟩) planted.closed (above.mono planted.larger) root
    have above := above.mono (planted.larger.trans adopted.larger)
    have others := local_plantAll ((g.inForest fun f => (f.plant tree).2).inForest (·.adopt p ⟨g.forest.size⟩)) p
      adopted.closed above rest
    refine .congr_forest (Forest.plantAll_cons ..) (fun b => ?_) ((planted.comp_forest adopted).comp_forest others)
    rw [Forest.plantAll_cons, size_forest_splice]

end

theorem local_createDocument (closed : g.Closed S) (trees : List Markup.Tree) :
    Local S (·.inForest fun f => (f.createDocument trees).2) g := by
  have created := local_create closed .document
  have planted := local_plantAll _ ⟨g.forest.size⟩ created.closed (has_create closed .document) trees
  refine .congr_forest rfl (fun b => ?_) (created.comp_forest planted)
  simp [Forest.createDocument, Forest.create]

theorem findWithin_splice (closed : g.Closed S) (s : Selector) (depth : Nat) (here : S .node n.index) :
    (g.splice S b).forest.findWithin s depth n = g.forest.findWithin s depth n := by
  induction depth generalizing n with
  | zero => rfl
  | succ depth ih =>
    rw [Forest.findWithin, Forest.findWithin, children_splice here]
    have inner := closed.children here
    generalize g.forest.children n = cs at inner
    induction cs with
    | nil => rfl
    | cons c cs ihc =>
      have first := inner c List.mem_cons_self
      rw [List.findSome?_cons, List.findSome?_cons, content_splice first.1, ih first.1,
        ihc fun c hc => inner c (List.mem_cons_of_mem _ hc)]

theorem has_of_findWithin (closed : g.Closed S) {s : Selector} {depth : Nat} (here : S .node n.index)
    (found : g.forest.findWithin s depth n = some c) : S.Has g .node c.index := by
  induction depth generalizing n with
  | zero => cases found
  | succ depth ih =>
    rw [Forest.findWithin] at found
    obtain ⟨d, mem, found⟩ := List.exists_of_findSome?_eq_some found
    have inner := closed.children here d mem
    split at found
    · cases found
      exact inner
    · exact ih inner.1 found

theorem query?_splice (closed : g.Closed S) (selector : String) (here : S .node n.index) :
    (g.splice S b).forest.query? n selector = g.forest.query? n selector := by
  simp only [Forest.query?, Forest.find?, size_forest_splice, findWithin_splice closed _ _ here]

theorem has_of_query? (closed : g.Closed S) {selector : String} (here : S .node n.index)
    (found : g.forest.query? n selector = some c) : S.Has g .node c.index := by
  obtain ⟨s, -, found⟩ := Option.bind_eq_some_iff.1 found
  exact has_of_findWithin closed here found

end DataBinding.Graph
