import DataBinding.Proofs.MarkupRoundTrip
import DataBinding.Proofs.NodeContent

namespace DataBinding.Forest

open Markup

variable {f f' f₁ f₂ f₃ : Forest} {n p : NodeId} {start start' : Nat} {ns ms : List NodeId}

structure Extends (p : NodeId) (ns : List NodeId) (f f' : Forest) : Prop where
  size : f.size ≤ f'.size
  node : ∀ {n}, n.index < f.size → n ≠ p → f'.node n = f.node n
  parent : f'.node p = { f.node p with children := f.children p ++ ns }

theorem Extends.refl (p : NodeId) (f : Forest) : Extends p [] f f where
  size := Nat.le_refl _
  node _ _ := rfl
  parent := by rw [List.append_nil, children]

theorem Extends.trans (h : Extends p ns f₁ f₂) (h' : Extends p ms f₂ f₃) : Extends p (ns ++ ms) f₁ f₃ where
  size := Nat.le_trans h.size h'.size
  node exist hne := (h'.node (Nat.lt_of_lt_of_le exist h.size) hne).trans (h.node exist hne)
  parent := by rw [h'.parent, children, h.parent, List.append_assoc]

structure Beside (f f' : Forest) : Prop where
  size : f.size ≤ f'.size
  node : ∀ {n}, n.index < f.size → f'.node n = f.node n

theorem beside_create (f : Forest) (c : Content) : Beside f (f.create c).2 where
  size := (carries_create f c).size
  node exist := by simp [Nat.ne_of_lt exist]

theorem Beside.trans (h : Beside f₁ f₂) (h' : Extends p ns f₂ f₃) (fresh : f₁.size ≤ p.index) : Beside f₁ f₃ where
  size := Nat.le_trans h.size h'.size
  node {n} exist := by
    have apart : n ≠ p := by
      rintro rfl
      omega
    rw [h'.node (Nat.lt_of_lt_of_le exist h.size) apart, h.node exist]

theorem detach_of_parent (h : (f.node n).parent = none) : f.detach n = f := by
  simp [detach, h]

theorem node_adopt {c : NodeId} (alone : (f.node c).parent = none) (hc : c.index < f.size) (hp : p.index < f.size)
    (hne : c ≠ p) (n : NodeId) :
    (f.adopt p c).node n =
      if n = p then { f.node p with children := f.children p ++ [c] }
      else if n = c then { f.node c with parent := some p } else f.node n := by
  simp only [adopt, detach_of_parent alone, node_modify, size_modify]
  by_cases hn : n = p
  · subst hn
    simp [hp, Ne.symm hne, children]
  · by_cases hn' : n = c
    · subst hn'
      simp [hc, hn]
    · simp [hn, hn']

theorem extends_adopt {c : NodeId} (planted : Beside f f') (hp : p.index < f.size) (hc : f.size ≤ c.index)
    (exist : c.index < f'.size) (alone : (f'.node c).parent = none) : Extends p [c] f (f'.adopt p c) := by
  have hne : c ≠ p := by
    rintro rfl
    omega
  have at' := node_adopt alone exist (Nat.lt_of_lt_of_le hp planted.size) hne
  refine ⟨?_, ?_, ?_⟩
  · rw [(keeps_adopt f' p c).size]
    exact planted.size
  · intro n hn apart
    have other : n ≠ c := by
      rintro rfl
      omega
    rw [at', if_neg apart, if_neg other, planted.node hn]
  · rw [at', if_pos rfl, children, children, planted.node hp]

mutual

def Stands (f : Forest) (start : Nat) (n : NodeId) : Tree → Prop
  | .text content => start ≤ n.index ∧ f.content n = .text content
  | .element tag attributes children =>
    start ≤ n.index ∧ f.content n = .element tag attributes ((attributes.get? "value").getD "") ∧
      StandAll f (n.index + 1) (f.children n) children

def StandAll (f : Forest) (start : Nat) : List NodeId → List Tree → Prop
  | [], [] => True
  | n :: ns, tree :: rest => Stands f start n tree ∧ StandAll f start ns rest
  | _, _ => False

end

theorem exists_of_content (h : f.content n ≠ .fragment) : n.index < f.size := by
  apply Nat.lt_of_not_le
  intro absent
  exact h (by rw [content, node_of_size_le absent])

theorem Stands.exists {tree : Tree} (h : f.Stands start n tree) : start ≤ n.index ∧ n.index < f.size := by
  cases tree with
  | text content =>
    rw [Stands] at h
    exact ⟨h.1, exists_of_content (by simp [h.2])⟩
  | element tag attributes children =>
    rw [Stands] at h
    exact ⟨h.1, exists_of_content (by simp [h.2.1])⟩

mutual

theorem Stands.congr {start start' : Nat} (same : ∀ m, start ≤ m.index → m.index < f.size →
      f'.content m = f.content m ∧ f'.children m = f.children m) (before : start ≤ start') :
    {tree : Tree} → {n : NodeId} → f.Stands start' n tree → f'.Stands start n tree
  | .text content, n, h => by
    obtain ⟨before', exist⟩ := h.exists
    have made := Nat.le_trans before before'
    exact ⟨made, (same n made exist).1.trans h.2⟩
  | .element tag attributes children, n, h => by
    obtain ⟨before', exist⟩ := h.exists
    have made := Nat.le_trans before before'
    obtain ⟨content, kids⟩ := same n made exist
    obtain ⟨-, shown, below⟩ := h
    refine ⟨made, content.trans shown, ?_⟩
    rw [kids]
    exact StandAll.congr (fun m hm => same m (by omega)) (Nat.le_refl _) below

theorem StandAll.congr {start start' : Nat} (same : ∀ m, start ≤ m.index → m.index < f.size →
      f'.content m = f.content m ∧ f'.children m = f.children m) (before : start ≤ start') :
    {trees : List Tree} → {ns : List NodeId} → f.StandAll start' ns trees → f'.StandAll start ns trees
  | [], [], _ => by rw [StandAll]; trivial
  | [], _ :: _, h => by simp [StandAll] at h
  | _ :: _, [], h => by simp [StandAll] at h
  | _ :: _, _ :: _, h => by
    rw [StandAll] at h ⊢
    exact ⟨Stands.congr same before h.1, StandAll.congr same before h.2⟩

end

@[simp] theorem fst_plant (f : Forest) (tree : Tree) : (f.plant tree).1 = ⟨f.size⟩ := by
  cases tree <;> rfl

theorem plant_element (f : Forest) (tag : String) (attributes : Fields String) (children : List Tree) :
    (f.plant (.element tag attributes children)).2 =
      (f.create (.element tag attributes ((attributes.get? "value").getD ""))).2.plantAll ⟨f.size⟩ children := by
  rw [plant]
  rfl

theorem plantAll_cons (f : Forest) (p : NodeId) (tree : Tree) (rest : List Tree) :
    f.plantAll p (tree :: rest) = ((f.plant tree).2.adopt p ⟨f.size⟩).plantAll p rest := by
  rw [plantAll, ← fst_plant f tree]

mutual

theorem stands_plant (f : Forest) : (tree : Tree) →
    Beside f (f.plant tree).2 ∧ ((f.plant tree).2.node ⟨f.size⟩).parent = none ∧
      (f.plant tree).2.Stands f.size ⟨f.size⟩ tree
  | .text content => by
    have made := node_create f (.text content) ⟨f.size⟩
    rw [if_pos rfl] at made
    refine ⟨beside_create f _, ?_, Nat.le_refl _, ?_⟩
    · rw [plant, made]
    · rw [Forest.content, plant, made]
  | .element tag attributes children => by
    have made := node_create f (.element tag attributes ((attributes.get? "value").getD "")) ⟨f.size⟩
    rw [if_pos rfl] at made
    obtain ⟨ns, grown, below⟩ := standAll_plantAll (f.create (.element tag attributes _)).2 ⟨f.size⟩ children
      (by simp)
    have self := grown.parent
    rw [Forest.children, made, List.nil_append] at self
    rw [size_create] at below
    rw [plant_element]
    refine ⟨(beside_create f _).trans grown (Nat.le_refl _), ?_, Nat.le_refl _, ?_, ?_⟩
    · rw [self]
    · rw [Forest.content, self]
    · rw [Forest.children, self]
      exact below

theorem standAll_plantAll (f : Forest) (p : NodeId) : (trees : List Tree) → p.index < f.size →
    ∃ ns, Extends p ns f (f.plantAll p trees) ∧ (f.plantAll p trees).StandAll f.size ns trees
  | [], _ => ⟨[], .refl p f, by rw [StandAll]; trivial⟩
  | tree :: rest, exist => by
    obtain ⟨beside, alone, stands⟩ := stands_plant f tree
    have made := stands.exists.2
    have other : (⟨f.size⟩ : NodeId) ≠ p := by
      rintro rfl
      exact Nat.lt_irrefl _ exist
    have adopted := extends_adopt beside exist (Nat.le_refl f.size) made alone
    obtain ⟨ns, grown, below⟩ := standAll_plantAll ((f.plant tree).2.adopt p ⟨f.size⟩) p rest
      (Nat.lt_of_lt_of_le exist adopted.size)
    refine ⟨⟨f.size⟩ :: ns, ?_, ?_⟩
    · rw [plantAll_cons]
      exact adopted.trans grown
    · rw [plantAll_cons, StandAll]
      refine ⟨stands.congr ?_ (Nat.le_refl _), below.congr (fun _ _ _ => ⟨rfl, rfl⟩) adopted.size⟩
      intro m fresh exist'
      have apart : m ≠ p := by
        rintro rfl
        omega
      have kept := grown.node (by rw [(keeps_adopt _ p ⟨f.size⟩).size]; exact exist') apart
      rw [node_adopt alone made (Nat.lt_of_lt_of_le exist beside.size) other, if_neg apart] at kept
      rw [Forest.content, Forest.children, kept]
      split
      · next same =>
        rw [same]
        exact ⟨rfl, rfl⟩
      · exact ⟨rfl, rfl⟩

end

mutual

theorem treesWithin_of_stands {start : Nat} : {depth : Nat} → {tree : Tree} → {n : NodeId} →
    f.Stands start n tree → f.size ≤ n.index + depth → f.treesWithin depth n = [tree]
  | 0, _, n, h, deep => absurd h.exists.2 (by omega)
  | depth + 1, .text content, n, h, _ => by
    rw [Stands] at h
    rw [treesWithin, h.2]
  | depth + 1, .element tag attributes children, n, h, deep => by
    rw [Stands] at h
    rw [treesWithin, h.2.1, flatMap_treesWithin_of_standAll h.2.2 (by omega)]

theorem flatMap_treesWithin_of_standAll {start depth : Nat} : {trees : List Tree} → {ns : List NodeId} →
    f.StandAll start ns trees → f.size ≤ start + depth → ns.flatMap (f.treesWithin depth) = trees
  | [], [], _, _ => rfl
  | [], _ :: _, h, _ => by simp [StandAll] at h
  | _ :: _, [], h, _ => by simp [StandAll] at h
  | tree :: rest, n :: ns, h, deep => by
    rw [StandAll] at h
    have made := h.1.exists.1
    rw [List.flatMap_cons, treesWithin_of_stands h.1 (by omega), flatMap_treesWithin_of_standAll h.2 deep]
    rfl

end

theorem standAll_createDocument {root : NodeId} {trees : List Tree} (created : f.createDocument trees = (root, f')) :
    root = ⟨f.size⟩ ∧ f'.content root = .document ∧ f'.StandAll (f.size + 1) (f'.children root) trees := by
  have made := node_create f .document ⟨f.size⟩
  rw [if_pos rfl] at made
  obtain ⟨ns, grown, stand⟩ := standAll_plantAll (f.create .document).2 ⟨f.size⟩ trees
    (by simp)
  cases created
  have self := grown.parent
  rw [Forest.children, made, List.nil_append] at self
  refine ⟨rfl, congrArg Node.content self, ?_⟩
  rw [size_create] at stand
  have kids : _ = ns := congrArg Node.children self
  rw [← kids] at stand
  exact stand

theorem trees_createDocument {root : NodeId} {trees : List Tree} (created : f.createDocument trees = (root, f')) :
    f'.trees root = trees ∧ (f'.children root).flatMap f'.trees = trees := by
  obtain ⟨rfl, content, stand⟩ := standAll_createDocument created
  have exist : f.size < f'.size := exists_of_content (n := ⟨f.size⟩) (by simp [content])
  constructor
  · rw [Forest.trees, show f'.size = f'.size - 1 + 1 by omega, treesWithin, content]
    exact flatMap_treesWithin_of_standAll stand (by omega)
  · exact flatMap_treesWithin_of_standAll stand (by omega)

def Untyped (f : Forest) (start : Nat) : Prop :=
  ∀ n, start ≤ n.index → (f.content n).value = ((f.content n).attributes.get? "value").getD ""

theorem untyped_size (f : Forest) : f.Untyped f.size := by
  intro n absent
  rw [content, node_of_size_le absent]
  rfl

theorem Untyped.create {start : Nat} {c : Content} (h : f.Untyped start)
    (made : c.value = (c.attributes.get? "value").getD "") : (f.create c).2.Untyped start := by
  intro n after
  rw [content_create]
  split
  · exact made
  · exact h n after

theorem Untyped.keeps {start : Nat} (h : f.Untyped start) (same : Keeps f f') : f'.Untyped start := by
  intro n after
  rw [same.content]
  exact h n after

mutual

theorem Untyped.plant {start : Nat} : {f : Forest} → (tree : Tree) → f.Untyped start →
    (f.plant tree).2.Untyped start
  | _, .text _, h => h.create rfl
  | _, .element _ _ children, h => by
    rw [plant_element]
    exact Untyped.plantAll _ children (h.create rfl)

theorem Untyped.plantAll {start : Nat} : {f : Forest} → (p : NodeId) → (trees : List Tree) → f.Untyped start →
    (f.plantAll p trees).Untyped start
  | _, _, [], h => h
  | _, p, tree :: rest, h => by
    rw [plantAll_cons]
    exact Untyped.plantAll p rest ((Untyped.plant tree h).keeps (keeps_adopt _ _ _))

end

theorem untyped_createDocument (f : Forest) (trees : List Tree) : (f.createDocument trees).2.Untyped f.size :=
  ((untyped_size f).create rfl).plantAll _ trees

/-- Written markup is read as the document that was written, except that empty texts are gone and neighbouring
texts joined. -/
theorem createDocument_of_written {trees : List Tree} (sound : SoundAll trees) :
    Markup.read (String.ofList (renderAll trees)) = .ok (mergedAll trees) ∧
      (∀ (f : Forest) (n : NodeId), f.trees n = trees → Markup.read (f.markup n) = .ok (mergedAll trees)) ∧
      ∀ (f : Forest) (root : NodeId) (f' : Forest), f.createDocument (mergedAll trees) = (root, f') →
        f'.content root = .document ∧ f'.trees root = mergedAll trees ∧ f'.Untyped f.size := by
  have parsed := read_renderAll sound
  refine ⟨parsed, ?_, ?_⟩
  · rintro f n rfl
    exact parsed
  · intro f root f' created
    refine ⟨(standAll_createDocument created).2.1, (trees_createDocument created).1, ?_⟩
    have untyped := untyped_createDocument f (mergedAll trees)
    rwa [created] at untyped

/-- Texts full of markup, an empty one among them, and lenient attribute names. -/
def awkward : List Tree :=
  [.element "p" [("<b", "\"&quot;>"), ("@click", "")] [.text "a<b>", .text "", .text "--> &amp;", .element "br" [] []],
    .text "</p>"]

theorem awkward_createDocument_of_written :
    Markup.read (String.ofList (renderAll awkward)) =
      .ok [.element "p" [("<b", "\"&quot;>"), ("@click", "")] [.text "a<b>--> &amp;", .element "br" [] []],
        .text "</p>"] := by
  have sound : SoundAll awkward := by decide
  rw [(createDocument_of_written sound).1]
  simp [awkward, mergedAll, joinText]

end DataBinding.Forest
