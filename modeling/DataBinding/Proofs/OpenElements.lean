import DataBinding.Proofs.NodeAdoption

/-!
The forest while trees are being read. The elements that are still open stand in it already, each below the one opened
before it, and what is read next goes below the last of them. In the end it is the forest that the trees are planted in.
-/

namespace DataBinding.Table

variable {α : Type}

theorem modify_comm (t : Table α) {i j : Nat} (apart : i ≠ j) (f g : α → α) :
    (t.modify i f).modify j g = (t.modify j g).modify i f := by
  simp only [modify]
  apply congrArg mk
  apply Array.ext_getElem?
  intro k
  simp only [Array.getElem?_modify]
  by_cases hi : i = k
  · subst hi
    simp [Ne.symm apart]
  · simp [hi]

theorem add_modify (t : Table α) {i : Nat} (exist : i < t.size) (f : α → α) (a : α) :
    (t.modify i f).add a = (t.add a).modify i f := by
  simp only [size] at exist
  simp only [modify, add]
  apply congrArg mk
  apply Array.ext_getElem?
  intro k
  simp only [Array.getElem?_modify, Array.getElem?_push, Array.size_modify]
  by_cases hk : k = t.entries.size
  · subst hk
    simp [Nat.ne_of_lt exist]
  · simp [hk]

@[simp] theorem add_modify_size (t : Table α) (f : α → α) (a : α) : (t.add a).modify t.size f = t.add (f a) := by
  simp only [modify, add, size]
  apply congrArg mk
  apply Array.ext_getElem?
  intro k
  simp only [Array.getElem?_modify, Array.getElem?_push]
  by_cases hk : k = t.entries.size
  · simp [hk]
  · simp [hk, Ne.symm hk]

end DataBinding.Table

def DataBinding.Markup.Opened.content (o : DataBinding.Markup.Opened) : DataBinding.Content :=
  .element o.tag o.attributes ((o.attributes.get? "value").getD "")

namespace DataBinding.Forest

open Markup

variable {f g : Forest} {i m n p : NodeId}

theorem modify_comm (f : Forest) (apart : i ≠ m) (change change' : Node → Node) :
    (f.modify i change).modify m change' = (f.modify m change').modify i change := by
  have index : i.index ≠ m.index := fun same => apart (by cases i; cases m; cases same; rfl)
  exact congrArg Forest.mk (f.nodes.modify_comm index change change')

theorem create_modify (exist : i.index < f.size) (change : Node → Node) (c : Content) :
    (f.modify i change).create c = ((f.create c).1, (f.create c).2.modify i change) := by
  have size := size_modify f i change
  rw [Forest.create, Forest.create, size]
  exact congrArg (fun nodes => (NodeId.mk f.size, Forest.mk nodes)) (f.nodes.add_modify exist change { content := c })

def Additive (change : Node → Node) : Prop :=
  ∀ d c, change { d with children := d.children ++ [c] } =
    { change d with children := (change d).children ++ [c] }

theorem adopt_modify {c : NodeId} (alone : (f.node c).parent = none) (apart : i ≠ c) {change : Node → Node}
    (additive : i = p → Additive change) :
    (f.modify i change).adopt p c = (f.adopt p c).modify i change := by
  have alone' : ((f.modify i change).node c).parent = none := by
    rw [node_modify, if_neg fun h => apart h.1.symm, alone]
  rw [adopt, adopt, detach_of_parent alone, detach_of_parent alone', modify_comm _ apart]
  by_cases same : i = p
  · subst same
    simpa using congrArg _ (funext fun d => (additive rfl d c).symm)
  · rw [modify_comm _ same]

theorem ne_of_lt {k : Nat} (before : i.index < k) : i ≠ ⟨k⟩ := by
  rintro rfl
  exact Nat.lt_irrefl _ before

mutual

theorem plant_modify (change : Node → Node) : {f : Forest} → (tree : Tree) → i.index < f.size →
    (f.modify i change).plant tree = ((f.plant tree).1, (f.plant tree).2.modify i change)
  | f, .text content, exist => create_modify exist change _
  | f, .element tag attributes children, exist => by
    have below := plantAll_modify change ⟨f.size⟩
      (f := (f.create (.element tag attributes ((attributes.get? "value").getD ""))).2) children
      (Nat.lt_of_lt_of_le exist (carries_create f _).size) (by simp)
      fun same => absurd same (ne_of_lt exist)
    have made := create_modify exist change (.element tag attributes ((attributes.get? "value").getD ""))
    simp only [plant, made]
    exact congrArg (Prod.mk _) below

theorem plantAll_modify (change : Node → Node) (p : NodeId) : {f : Forest} → (trees : List Tree) → i.index < f.size →
    p.index < f.size → (i = p → Additive change) →
    (f.modify i change).plantAll p trees = (f.plantAll p trees).modify i change
  | f, [], _, _, _ => rfl
  | f, tree :: rest, exist, exist', additive => by
    obtain ⟨beside, alone, -⟩ := stands_plant f tree
    have size : ((f.plant tree).2.adopt p ⟨f.size⟩).size = (f.plant tree).2.size := (keeps_adopt _ _ _).size
    have later := plantAll_modify change p (f := (f.plant tree).2.adopt p ⟨f.size⟩) rest
      (by rw [size]; exact Nat.lt_of_lt_of_le exist beside.size)
      (by rw [size]; exact Nat.lt_of_lt_of_le exist' beside.size) additive
    rw [plantAll_cons, plantAll_cons, plant_modify change tree exist, size_modify,
      adopt_modify alone (ne_of_lt exist) additive, later]

end

theorem adopt_plantAll (exist : p.index < f.size) (c : Content) (trees : List Tree) :
    ((f.create c).2.plantAll ⟨f.size⟩ trees).adopt p ⟨f.size⟩ =
      ((f.create c).2.adopt p ⟨f.size⟩).plantAll ⟨f.size⟩ trees := by
  have size := size_create f c
  have made := node_create f c ⟨f.size⟩
  rw [if_pos rfl] at made
  have alone : ((f.create c).2.node ⟨f.size⟩).parent = none := by rw [made]
  have new : (⟨f.size⟩ : NodeId).index < (f.create c).2.size := by
    rw [size]
    exact Nat.lt_succ_self _
  have old : p.index < (f.create c).2.size := by
    rw [size]
    exact Nat.lt_succ_of_lt exist
  obtain ⟨ns, grown, -⟩ := standAll_plantAll (f.create c).2 ⟨f.size⟩ trees new
  have alone' : (((f.create c).2.plantAll ⟨f.size⟩ trees).node ⟨f.size⟩).parent = none := by
    rw [grown.parent, made]
  rw [adopt, adopt, detach_of_parent alone, detach_of_parent alone', plantAll_modify _ _ trees (by rwa [size_modify])
    (by rwa [size_modify]) (fun same => absurd same (ne_of_lt exist)),
    plantAll_modify _ _ trees new new fun _ d c => rfl]

/-- Plants open elements and all that stands before them below a node. Gives the open nodes, the innermost first. -/
def plantOpened (f : Forest) (p : NodeId) : List Opened → List NodeId × Forest
  | [] => ([p], f)
  | o :: outer =>
    let (stack, f) := f.plantOpened p outer
    let f := f.plantAll (stack.headD p) o.before.reverse
    let (n, f) := f.create o.content
    (n :: stack, f.adopt (stack.headD p) n)

def plantNesting (f : Forest) (p : NodeId) (nest : Nesting) : List NodeId × Forest :=
  let (stack, f) := f.plantOpened p nest.opened
  (stack, f.plantAll (stack.headD p) nest.children.reverse)

theorem plantAll_append (f : Forest) (p : NodeId) (trees more : List Tree) :
    f.plantAll p (trees ++ more) = (f.plantAll p trees).plantAll p more := by
  induction trees generalizing f with
  | nil => rfl
  | cons tree rest ih => rw [List.cons_append, plantAll_cons, plantAll_cons, ih]

theorem plantNesting_add (f : Forest) (p : NodeId) (nest : Nesting) (tree : Tree) :
    f.plantNesting p (nest.add tree) = ((f.plantNesting p nest).1,
      ((f.plantNesting p nest).2.plant tree).2.adopt ((f.plantNesting p nest).1.headD p)
        ⟨(f.plantNesting p nest).2.size⟩) := by
  simp only [plantNesting, Nesting.add, List.reverse_cons, plantAll_append, plantAll_cons]
  rfl

theorem plantNesting_enter (f : Forest) (p : NodeId) (nest : Nesting) (tag : String) (attributes : Fields String) :
    f.plantNesting p (nest.enter tag attributes) =
      (⟨(f.plantNesting p nest).2.size⟩ :: (f.plantNesting p nest).1,
        (f.plantNesting p (nest.add (.element tag attributes []))).2) := by
  rw [plantNesting_add]
  rfl

structure Stacked (f : Forest) (p : NodeId) (opened : List Opened) (stack : List NodeId) (g : Forest) : Prop where
  exist : ∀ m ∈ stack, m.index < g.size
  contents : stack.map g.content = opened.map Opened.content ++ [f.content p]

variable {nest : Nesting} {o : Opened} {opened outer : List Opened} {children : List Tree} {tree : Tree} {tag : String}
  {stack : List NodeId} {g' : Forest}

theorem Stacked.carries (h : f.Stacked p opened stack g) (carries : Carries g g') : f.Stacked p opened stack g' where
  exist m mem := Nat.lt_of_lt_of_le (h.exist m mem) carries.size
  contents := by
    rw [← h.contents]
    exact List.map_congr_left fun m mem => carries.content (h.exist m mem)

theorem stacked_plantOpened (exist : p.index < f.size) (opened : List Opened) :
    f.Stacked p opened (f.plantOpened p opened).1 (f.plantOpened p opened).2 := by
  induction opened with
  | nil =>
    refine ⟨fun m mem => ?_, rfl⟩
    rwa [List.mem_singleton.1 mem]
  | cons o outer ih =>
    rw [plantOpened]
    generalize f.plantOpened p outer = planted at ih
    obtain ⟨stack, g⟩ := planted
    dsimp only at ih ⊢
    generalize stack.headD p = parent
    have planted := ih.carries (carries_plantAll g parent o.before.reverse)
    generalize g.plantAll parent o.before.reverse = g at planted
    have made := node_create g o.content ⟨g.size⟩
    rw [if_pos rfl] at made
    have keeps := keeps_adopt (g.create o.content).2 parent ⟨g.size⟩
    have old := planted.carries ((carries_create g o.content).trans keeps.carries)
    constructor
    · rintro m (_ | ⟨_, mem⟩)
      · change g.size < ((g.create o.content).2.adopt parent ⟨g.size⟩).size
        simp [keeps.size]
      · exact old.exist m mem
    · have shown : ((g.create o.content).2.adopt parent ⟨g.size⟩).content ⟨g.size⟩ = o.content := by
        rw [keeps.content, content, made]
      have new : (g.create o.content).1 = ⟨g.size⟩ := rfl
      rw [List.map_cons, List.map_cons, List.cons_append, ← old.contents, new, shown]

theorem stacked_plantNesting (exist : p.index < f.size) (nest : Nesting) :
    f.Stacked p nest.opened (f.plantNesting p nest).1 (f.plantNesting p nest).2 :=
  (stacked_plantOpened exist nest.opened).carries (carries_plantAll _ _ _)

theorem Stacked.head (h : f.Stacked p opened stack g) : ∃ m outer, stack = m :: outer ∧ m.index < g.size ∧
    g.content m = (opened.map Opened.content).headD (f.content p) := by
  cases stack with
  | nil =>
    have := h.contents
    simp at this
  | cons m outer =>
    refine ⟨m, outer, rfl, h.exist m List.mem_cons_self, ?_⟩
    have contents := congrArg List.head? h.contents
    cases opened with
    | nil => simpa using contents
    | cons o opened => simpa using contents

theorem plantNesting_close (exist : p.index < f.size) (o : Opened) (outer : List Opened) (children : List Tree) :
    f.plantNesting p ⟨outer, .element o.tag o.attributes children.reverse :: o.before⟩ =
      ((f.plantNesting p ⟨o :: outer, children⟩).1.tail, (f.plantNesting p ⟨o :: outer, children⟩).2) := by
  obtain ⟨parent, stack, whole, exist', -⟩ := (stacked_plantOpened exist outer).head
  have planted := carries_plantAll (f.plantOpened p outer).2 parent o.before.reverse
  have adopted := adopt_plantAll (Nat.lt_of_lt_of_le exist' planted.size) o.content children.reverse
  simp only [plantNesting, plantOpened, List.reverse_cons, plantAll_append, whole, List.headD_cons, List.tail_cons,
    plantAll_cons, plant_element]
  exact congrArg (Prod.mk _) adopted

theorem plantNesting_eq (exist : p.index < f.size) (opened : List Opened) (children : List Tree) :
    (f.plantNesting p ⟨opened, children⟩).2 = f.plantAll p (Nesting.finish opened children) := by
  induction opened generalizing children with
  | nil => rfl
  | cons o outer ih => rw [Nesting.finish, ← ih, plantNesting_close exist]

theorem dropWhile_stack (exist : p.index < f.size) (tag : String) (opened : List Opened) (children : List Tree) :
    let above := (f.plantNesting p ⟨opened, children⟩).1.dropWhile fun m =>
      ((f.plantNesting p ⟨opened, children⟩).2.content m).tag ≠ tag
    match Nesting.leave? tag opened children with
    | some nest => ∃ m, above = m :: (f.plantNesting p nest).1 ∧
      (f.plantNesting p nest).2 = (f.plantNesting p ⟨opened, children⟩).2
    | none => above.length ≤ 1 := by
  induction opened generalizing children with
  | nil => exact (List.dropWhile_sublist _).length_le
  | cons o outer ih =>
    have later := ih (.element o.tag o.attributes children.reverse :: o.before)
    obtain ⟨m, stack, whole, -, shown⟩ := (stacked_plantNesting exist ⟨o :: outer, children⟩).head
    rw [plantNesting_close exist, whole] at later
    intro above
    rw [Nesting.leave?]
    have here : ((f.plantNesting p ⟨o :: outer, children⟩).2.content m).tag = o.tag := by
      rw [shown]
      rfl
    by_cases named : o.tag = tag
    · rw [if_pos named]
      dsimp only
      refine ⟨m, ?_, by rw [plantNesting_close exist]⟩
      simp only [above, whole]
      rw [List.dropWhile_cons_of_neg (by simp [here, named]), plantNesting_close exist, whole]
      rfl
    · rw [if_neg named]
      have passed : above = stack.dropWhile fun m =>
          ((f.plantNesting p ⟨o :: outer, children⟩).2.content m).tag ≠ tag := by
        simp only [above, whole]
        rw [List.dropWhile_cons_of_pos (by simp [here, named])]
      rw [passed]
      exact later

theorem append_created {c : Content} (linked : g.Linked) (exist : p.index < g.size)
    (takes : (g.content p).takesChildren = true) (fits : c.isElement ∨ c.isText) :
    (g.create c).2.append p ⟨g.size⟩ = .ok ((g.create c).2.adopt p ⟨g.size⟩) := by
  have made := content_created g c
  have old : (g.create c).2.content p = g.content p := (carries_create g c).content exist
  have apart : (⟨g.size⟩ : NodeId) ≠ p := (ne_of_lt exist).symm
  have above : (g.create c).2.isAncestor ⟨g.size⟩ p = false := by
    rw [Bool.eq_false_iff]
    intro ancestor
    have below := below_of_mem_line ((ancestorWithin_iff _ _ _ _).1 ancestor)
    obtain ⟨m, -, under⟩ := Relation.TransGen.tail'_iff.1 (below_create.1 below)
    exact Nat.lt_irrefl _ (linked.exists_of_under under)
  rw [append, old, takes, made]
  cases c with
  | document => simp [Content.isElement, Content.isText] at fits
  | fragment => simp [Content.isElement, Content.isText] at fits
  | element tag attributes value => simp [apart, above]
  | text text => simp [apart, above]

@[simp] theorem setContent_create (g : Forest) (c c' : Content) :
    (g.create c).2.setContent ⟨g.size⟩ c' = (g.create c').2 :=
  congrArg Forest.mk (g.nodes.add_modify_size ({ · with content := c' }) { content := c })

theorem setAttribute_create (g : Forest) (tag name value text : String) (attributes : Fields String) :
    (g.create (.element tag attributes text)).2.setAttribute ⟨g.size⟩ name value =
      .ok (g.create (.element tag (attributes.set name value) text)).2 := by
  simp [setAttribute]

theorem setValue_create (g : Forest) (tag value text : String) (attributes : Fields String) :
    (g.create (.element tag attributes text)).2.setValue ⟨g.size⟩ value =
      .ok (g.create (.element tag attributes value)).2 := by
  simp [setValue]

theorem foldlM_append {cs : List NodeId} (exist : p.index < f.size) (takes : (f.content p).takesChildren = true)
    (top : ∀ q, ¬ f.Under p q) (fits : ∀ c ∈ cs, f.Fits c ∧ c ≠ p) :
    cs.foldlM (·.append p ·) f = .ok (f.adoptAll p cs) := by
  induction cs generalizing f with
  | nil => rfl
  | cons c cs ih =>
    obtain ⟨fit, apart⟩ := fits c List.mem_cons_self
    have keeps := keeps_adopt f p c
    have above : f.isAncestor c p = false := by
      rw [Bool.eq_false_iff]
      intro ancestor
      have below := below_of_mem_line ((ancestorWithin_iff _ _ _ _).1 ancestor)
      obtain ⟨q, under, -⟩ := Relation.TransGen.head'_iff.1 below
      exact top q under
    have appended : f.append p c = .ok (f.adopt p c) := by
      have placed := fit.placed
      rw [append, takes]
      cases shown : f.content c with
      | document => simp [shown, Content.isElement, Content.isText] at placed
      | fragment => simp [shown, Content.isElement, Content.isText] at placed
      | element tag attributes value => simp [apart, above]
      | text text => simp [apart, above]
    have later := ih (f := f.adopt p c) (by rwa [keeps.size]) (by rwa [keeps.content])
      (fun q under => by
        rw [under_adopt fit.exist, if_neg apart.symm] at under
        exact top q under)
      fun c' mem => ⟨(fits c' (List.mem_cons_of_mem _ mem)).1.adopt p c, (fits c' (List.mem_cons_of_mem _ mem)).2⟩
    rw [List.foldlM_cons, appended]
    exact later

theorem trees_moved {trees : List Tree} {k : Nat} {q : NodeId} (linked : f.Linked) (exist : p.index < f.size)
    (empty : f.node p = { content := .document }) (apart : p ≠ q) (before : p.index < k) (before' : q.index < k)
    (stand : f.StandAll k (f.children q) trees) : (f.adoptAll p (f.children q)).trees p = trees := by
  have keeps := keeps_adoptAll f p (f.children q)
  have document : f.content p = .document := by rw [content, empty]
  have moved := linked.children_moved exist (by rw [document]; rfl) apart
  have stand' : (f.adoptAll p (f.children q)).StandAll k (f.children q) trees := by
    refine stand.congr (fun m after _ => ⟨keeps.content m, ?_⟩) (Nat.le_refl _)
    rw [moved, if_neg (ne_of_lt (Nat.lt_of_lt_of_le before after)).symm,
      if_neg (ne_of_lt (Nat.lt_of_lt_of_le before' after)).symm]
  have below : (f.adoptAll p (f.children q)).children p = f.children q := by
    rw [moved, if_pos rfl, children, empty, List.nil_append]
  obtain ⟨depth, deep⟩ : ∃ depth, f.size = depth + 1 := ⟨_, (Nat.succ_pred_eq_of_pos (Nat.zero_lt_of_lt exist)).symm⟩
  rw [Forest.trees, keeps.size, deep, treesWithin, keeps.content, document, below]
  exact flatMap_treesWithin_of_standAll stand' (by rw [keeps.size, deep]; omega)

def prepared (f : Forest) : Forest := ((f.create .document).2.create .fragment).2

@[simp] theorem size_prepared (f : Forest) : f.prepared.size = f.size + 2 := by simp [prepared]

theorem exists_fragment_prepared (f : Forest) : f.size + 1 < f.prepared.size := by
  simp

@[simp] theorem document_prepared (f : Forest) : f.prepared.node ⟨f.size⟩ = { content := .document } := by
  simp [prepared]

@[simp] theorem fragment_prepared (f : Forest) : f.prepared.node ⟨f.size + 1⟩ = { content := .fragment } := by
  simp [prepared]

section

variable {trees : List Tree} (linked : f.Linked) (sound : SoundAll trees)
include linked sound

theorem linked_planted : (f.prepared.plantAll ⟨f.size + 1⟩ trees).Linked :=
  (Linked.plantAll _ trees sound (exists_fragment_prepared f) (fun _ => by rw [content, fragment_prepared]; rfl)
    ((linked.create .document).create .fragment)).1

theorem document_of_planted : ∃ f', ((f.prepared.plantAll ⟨f.size + 1⟩ trees).children ⟨f.size + 1⟩).foldlM
      (·.append ⟨f.size⟩ ·) (f.prepared.plantAll ⟨f.size + 1⟩ trees) = .ok f' ∧
    f'.content ⟨f.size⟩ = .document ∧ f'.trees ⟨f.size⟩ = trees := by
  have apart : (⟨f.size⟩ : NodeId) ≠ ⟨f.size + 1⟩ := ne_of_lt (Nat.lt_succ_self f.size)
  have linked := linked_planted linked sound
  obtain ⟨ns, grown, stand⟩ := standAll_plantAll f.prepared ⟨f.size + 1⟩ trees (exists_fragment_prepared f)
  generalize f.prepared.plantAll ⟨f.size + 1⟩ trees = g at linked grown stand ⊢
  rw [size_prepared] at stand
  have size := grown.size
  rw [size_prepared] at size
  have document : g.node ⟨f.size⟩ = { content := .document } := by
    rw [grown.node (by rw [size_prepared]; exact Nat.lt_add_of_pos_right Nat.two_pos) apart, document_prepared]
  have kids : g.children ⟨f.size + 1⟩ = ns := by
    rw [children, grown.parent, children, fragment_prepared]
    rfl
  have exist : f.size < g.size := by omega
  have takes : (g.content ⟨f.size⟩).takesChildren = true := by
    rw [content, document]
    rfl
  have alone : ∀ q, ¬ g.Under ⟨f.size⟩ q := by
    intro q under
    rw [Under, document] at under
    cases under
  have fits : ∀ c ∈ g.children ⟨f.size + 1⟩, g.Fits c ∧ c ≠ ⟨f.size⟩ := by
    intro c mem
    refine ⟨linked.fits mem, ?_⟩
    rintro rfl
    exact alone _ (linked.agree.1 mem)
  refine ⟨_, foldlM_append exist takes alone fits, ?_, ?_⟩
  · rw [(keeps_adoptAll g _ _).content, content, document]
  · rw [← kids] at stand
    exact trees_moved linked exist document apart (Nat.lt_add_of_pos_right Nat.two_pos) (Nat.lt_succ_self _) stand

end

end DataBinding.Forest
