import DataBinding.Graph.Watcher

namespace DataBinding

inductive Slot where
  | text (n : NodeId)
  | attr (n : NodeId) (name : String)
  | value (n : NodeId)
  deriving DecidableEq

def Slot.node : Slot → NodeId
  | .text n | .attr n _ | .value n => n

def Reaction.slot? : Reaction → Option Slot
  | .call _ => none
  | .showText n => some (.text n)
  | .showAttribute n name => some (.attr n name)
  | .showValue n _ => some (.value n)

def Content.shows : Content → Slot → Option String
  | .text content, .text _ => some content
  | .element _ attributes _, .attr _ name => attributes.get? name
  | .element _ _ value, .value _ => some value
  | _, _ => none

theorem Content.eq_text_of_shows {content : Content} {shown : String} (h : content.shows (.text n) = some shown) :
    content = .text shown := by
  cases content with
  | text _ => exact congrArg Content.text (Option.some.inj h)
  | _ => cases h

def Content.takes : Content → Slot → Bool
  | .text _, .text _ | .element _ _ _, .attr _ _ | .element _ _ _, .value _ => true
  | _, _ => false

namespace Forest

variable {f f' f₁ f₂ f₃ : Forest} {n m : NodeId} {slot other : Slot} {text : String}

def shows (f : Forest) (slot : Slot) : Option String := (f.content slot.node).shows slot

def takes (f : Forest) (slot : Slot) : Bool := (f.content slot.node).takes slot

def fill (f : Forest) : Slot → String → Except DocumentError Forest
  | .text n => f.setText n
  | .attr n name => f.setAttribute n name
  | .value n => f.setValue n

theorem exists_of_takes (h : f.takes slot) : slot.node.index < f.size := by
  apply Nat.lt_of_not_le
  intro hs
  rw [takes, content, node_of_size_le hs] at h
  simp [Content.takes] at h

theorem takes_of_shows (h : f.shows slot = some text) : f.takes slot := by
  rw [shows] at h
  rw [takes]
  generalize f.content slot.node = c at h ⊢
  cases c <;> cases slot <;> simp_all [Content.shows, Content.takes]

theorem shows_of_takes_value (h : f.takes (.value n)) : f.shows (.value n) ≠ none := by
  rw [takes] at h
  rw [shows]
  cases hc : f.content n with
  | element tag attributes value => simp [Slot.node, hc, Content.shows]
  | _ => simp [Slot.node, hc, Content.takes] at h

/-- Links and holds may differ. -/
structure Keeps (f f' : Forest) : Prop where
  size : f'.size = f.size
  content : ∀ n, f'.content n = f.content n
  listeners : ∀ n, (f'.node n).listeners = (f.node n).listeners

namespace Keeps

theorem refl (f : Forest) : Keeps f f := ⟨rfl, fun _ => rfl, fun _ => rfl⟩

theorem trans (h : Keeps f₁ f₂) (h' : Keeps f₂ f₃) : Keeps f₁ f₃ where
  size := h'.size.trans h.size
  content n := (h'.content n).trans (h.content n)
  listeners n := (h'.listeners n).trans (h.listeners n)

theorem shows (h : Keeps f f') (slot : Slot) : f'.shows slot = f.shows slot := by
  rw [Forest.shows, h.content, Forest.shows]

theorem takes (h : Keeps f f') (slot : Slot) : f'.takes slot = f.takes slot := by
  rw [Forest.takes, h.content, Forest.takes]

end Keeps

theorem keeps_modify (f : Forest) (n : NodeId) (change : Node → Node)
    (content : ∀ d, (change d).content = d.content) (listeners : ∀ d, (change d).listeners = d.listeners) :
    Keeps f (f.modify n change) where
  size := size_modify f n change
  content _ := by
    rw [Forest.content, node_modify]
    split
    · exact content _
    · rfl
  listeners _ := by
    rw [node_modify]
    split
    · exact listeners _
    · rfl

theorem keeps_retain (f : Forest) (n : NodeId) : Keeps f (f.retain n) :=
  keeps_modify f n _ (fun _ => rfl) (fun _ => rfl)

theorem keeps_release (f : Forest) (n : NodeId) : Keeps f (f.release n) :=
  keeps_modify f n _ (fun _ => rfl) (fun _ => rfl)

theorem keeps_detach (f : Forest) (n : NodeId) : Keeps f (f.detach n) := by
  unfold detach
  split
  · exact .refl f
  · apply Keeps.trans
    · exact keeps_modify f n ({ · with parent := none }) (fun _ => rfl) (fun _ => rfl)
    · apply keeps_modify
      · exact fun _ => rfl
      · exact fun _ => rfl

theorem keeps_adopt (f : Forest) (p c : NodeId) : Keeps f (f.adopt p c) := by
  have detached := keeps_detach f c
  have child := keeps_modify (f.detach c) c ({ · with parent := some p }) (fun _ => rfl) (fun _ => rfl)
  refine (detached.trans child).trans ?_
  apply keeps_modify
  · exact fun _ => rfl
  · exact fun _ => rfl

theorem keeps_foldl {change : Forest → NodeId → Forest} (keeps : ∀ f n, Keeps f (change f n))
    (ns : List NodeId) (f : Forest) : Keeps f (ns.foldl change f) := by
  induction ns generalizing f with
  | nil => exact .refl f
  | cons n ns ih => exact (keeps f n).trans (ih _)

theorem keeps_adoptAll (f : Forest) (p : NodeId) (cs : List NodeId) : Keeps f (f.adoptAll p cs) :=
  keeps_foldl (fun f c => keeps_adopt f p c) cs f

theorem keeps_append {p c : NodeId} (h : f.append p c = .ok f') : Keeps f f' := by
  unfold append at h
  split at h
  · cases h
  · split at h
    · cases h
    · cases h
      exact keeps_adoptAll _ _ _
    · split at h
      · cases h
      · cases h
        exact keeps_adopt _ _ _

structure Carries (f f' : Forest) : Prop where
  size : f.size ≤ f'.size
  content : ∀ {n}, n.index < f.size → f'.content n = f.content n
  listeners : ∀ n, (f'.node n).listeners = (f.node n).listeners

theorem Keeps.carries (h : Keeps f f') :
    Carries f f' := ⟨Nat.le_of_eq h.size.symm, fun _ => h.content _, h.listeners⟩

theorem Carries.trans (h : Carries f₁ f₂) (h' : Carries f₂ f₃) : Carries f₁ f₃ where
  size := Nat.le_trans h.size h'.size
  content hn := (h'.content (Nat.lt_of_lt_of_le hn h.size)).trans (h.content hn)
  listeners n := (h'.listeners n).trans (h.listeners n)

theorem carries_create (f : Forest) (c : Content) : Carries f (f.create c).2 where
  size := by simp
  content hn := by simp [Nat.ne_of_lt hn]
  listeners n := by
    rw [node_create]
    split
    · next hi => rw [node_of_size_le (Nat.le_of_eq hi.symm)]
    · rfl

mutual

theorem carries_plant (f : Forest) : (tree : Markup.Tree) → Carries f (f.plant tree).2
  | .text _ => carries_create f _
  | .element _ _ children => (carries_create f _).trans (carries_plantAll _ _ children)

theorem carries_plantAll (f : Forest) (p : NodeId) :
    (trees : List Markup.Tree) → Carries f (f.plantAll p trees)
  | [] => (Keeps.refl f).carries
  | tree :: rest =>
    ((carries_plant f tree).trans (keeps_adopt _ _ _).carries).trans (carries_plantAll _ _ rest)

end

theorem carries_createDocument (f : Forest) (trees : List Markup.Tree) :
    Carries f (f.createDocument trees).2 :=
  (carries_create f _).trans (carries_plantAll _ _ trees)

theorem carries_replaceChildren (f : Forest) (n : NodeId) (text : String) :
    Carries f (f.replaceChildren n text) := by
  have emptied := (keeps_foldl keeps_detach (f.children n) f).carries
  unfold replaceChildren
  dsimp only
  split
  · exact emptied
  · exact (emptied.trans (carries_create _ _)).trans (keeps_adopt _ _ _).carries

@[simp] theorem shows_setContent (f : Forest) (n : NodeId) (c : Content) (slot : Slot) :
    (f.setContent n c).shows slot =
      if slot.node = n ∧ n.index < f.size then c.shows slot else f.shows slot := by
  rw [shows, content_setContent]
  split <;> rfl

theorem takes_setContent {c : Content} (h : (f.content n).takes = c.takes) (slot : Slot) :
    (f.setContent n c).takes slot = f.takes slot := by
  rw [takes, content_setContent]
  split
  · next hn => rw [takes, hn.1, h]
  · rfl

structure Spares (slot : Slot) (f f' : Forest) : Prop where
  size : f.size ≤ f'.size
  shows : ∀ {other}, other ≠ slot → other.node.index < f.size → f'.shows other = f.shows other
  takes : ∀ {other}, other.node.index < f.size → f'.takes other = f.takes other
  listeners : ∀ n, (f'.node n).listeners = (f.node n).listeners

namespace Spares

theorem refl (f : Forest) : Spares slot f f := ⟨Nat.le_refl _, fun _ _ => rfl, fun _ => rfl, fun _ => rfl⟩

theorem trans (h : Spares slot f₁ f₂) (h' : Spares slot f₂ f₃) : Spares slot f₁ f₃ where
  size := Nat.le_trans h.size h'.size
  shows hne exist := (h'.shows hne (Nat.lt_of_lt_of_le exist h.size)).trans (h.shows hne exist)
  takes exist := (h'.takes (Nat.lt_of_lt_of_le exist h.size)).trans (h.takes exist)
  listeners n := (h'.listeners n).trans (h.listeners n)

theorem shows_of_size (h : Spares slot f f') (size : f'.size = f.size) (hne : other ≠ slot) :
    f'.shows other = f.shows other := by
  by_cases exist : other.node.index < f.size
  · exact h.shows hne exist
  · have absent : f.size ≤ other.node.index := Nat.le_of_not_lt exist
    rw [Forest.shows, Forest.shows, content, content, node_of_size_le absent, node_of_size_le (size ▸ absent)]

theorem takes_of_size (h : Spares slot f f') (size : f'.size = f.size) : f'.takes other = f.takes other := by
  by_cases exist : other.node.index < f.size
  · exact h.takes exist
  · have absent : f.size ≤ other.node.index := Nat.le_of_not_lt exist
    rw [Forest.takes, Forest.takes, content, content, node_of_size_le absent, node_of_size_le (size ▸ absent)]

end Spares

theorem Carries.spares (h : Carries f f') : Spares slot f f' where
  size := h.size
  shows _ exist := by rw [Forest.shows, h.content exist, Forest.shows]
  takes exist := by rw [Forest.takes, h.content exist, Forest.takes]
  listeners := h.listeners

theorem spares_setContent {c : Content}
    (h : ∀ other, other ≠ slot → other.node = n → c.shows other = f.shows other)
    (takes : (f.content n).takes = c.takes) : Spares slot f (f.setContent n c) where
  size := Nat.le_of_eq (size_modify f n _).symm
  shows {other} hne _ := by
    rw [shows_setContent]
    split
    · next hn => exact h other hne hn.1
    · rfl
  takes _ := takes_setContent takes _
  listeners m := listeners_setContent f n m c

theorem takes_element {tag tag' value value' : String} {attributes attributes' : Fields String} :
    (Content.element tag attributes value).takes = (Content.element tag' attributes' value').takes := by
  funext slot
  cases slot <;> rfl

theorem takes_text {content content' : String} :
    (Content.text content).takes = (Content.text content').takes := by
  funext slot
  cases slot <;> rfl

theorem spares_setAttribute {name : String} (h : f.setAttribute n name text = .ok f') :
    Spares (.attr n name) f f' := by
  unfold setAttribute at h
  split at h
  · next hc =>
    cases h
    apply spares_setContent
    · rintro other hne rfl
      rw [shows, hc]
      cases other with
      | attr m name' =>
        have hname : name' ≠ name := fun h => hne (by rw [h]; rfl)
        simp [Content.shows, hname]
      | _ => rfl
    · rw [hc]
      exact takes_element
  · cases h

theorem spares_removeAttribute (f : Forest) (n : NodeId) (name : String) :
    Spares (.attr n name) f (f.removeAttribute n name) := by
  unfold removeAttribute
  split
  · next hc =>
    apply spares_setContent
    · rintro other hne rfl
      rw [shows, hc]
      cases other with
      | attr m name' =>
        have hname : name' ≠ name := fun h => hne (by rw [h]; rfl)
        simp [Content.shows, hname]
      | _ => rfl
    · rw [hc]
      exact takes_element
  · exact .refl f

@[simp] theorem shows_removeAttribute (f : Forest) (n : NodeId) (name : String) :
    (f.removeAttribute n name).shows (.attr n name) = none := by
  unfold removeAttribute
  split
  · next hc =>
    rw [shows_setContent]
    split
    · simp [Content.shows]
    · next h =>
      -- a node that does not exist has no content to speak of
      have absent : f.size ≤ n.index := Nat.le_of_not_lt fun hn => h ⟨rfl, hn⟩
      rw [content, node_of_size_le absent] at hc
      cases hc
  · next hc =>
    rw [shows, Slot.node]
    cases h : f.content n with
    | element tag attributes value => exact absurd h (hc tag attributes value)
    | _ => rfl

theorem spares_setValue (h : f.setValue n text = .ok f') : Spares (.value n) f f' := by
  unfold setValue at h
  split at h
  · next hc =>
    cases h
    apply spares_setContent
    · rintro other hne rfl
      rw [shows, hc]
      cases other with
      | value m => exact absurd rfl hne
      | _ => rfl
    · rw [hc]
      exact takes_element
  · cases h

theorem spares_setText (h : f.setText n text = .ok f') : Spares (.text n) f f' := by
  unfold setText at h
  split at h
  · next hc =>
    cases h
    apply spares_setContent
    · rintro other hne rfl
      rw [shows, hc]
      cases other with
      | text m => exact absurd rfl hne
      | _ => rfl
    · rw [hc]
      exact takes_text
  · split at h
    · cases h
    · cases h
      exact (carries_replaceChildren _ _ _).spares
  · cases h
    exact (carries_replaceChildren _ _ _).spares
  · cases h

theorem spares_fill (h : f.fill slot text = .ok f') : Spares slot f f' := by
  cases slot with
  | text n => exact spares_setText h
  | attr n name => exact spares_setAttribute h
  | value n => exact spares_setValue h

theorem fill_of_takes (h : f.takes slot) (text : String) :
    ∃ f', f.fill slot text = .ok f' ∧ f'.shows slot = some text ∧ f'.size = f.size := by
  have exist := exists_of_takes h
  rw [takes] at h
  cases slot with
  | text n =>
    cases hc : f.content n with
    | text content =>
      refine ⟨f.setContent n (.text text), by simp [fill, setText, hc], ?_, size_modify _ _ _⟩
      rw [shows_setContent, if_pos ⟨rfl, exist⟩]
      rfl
    | _ => simp [Slot.node, hc, Content.takes] at h
  | attr n name =>
    cases hc : f.content n with
    | element tag attributes value =>
      refine ⟨f.setContent n (.element tag (attributes.set name text) value),
        by simp [fill, setAttribute, hc], ?_,
        size_modify _ _ _⟩
      rw [shows_setContent, if_pos ⟨rfl, exist⟩]
      simp [Content.shows]
    | _ => simp [Slot.node, hc, Content.takes] at h
  | value n =>
    cases hc : f.content n with
    | element tag attributes value =>
      refine ⟨f.setContent n (.element tag attributes text), by simp [fill, setValue, hc], ?_,
        size_modify _ _ _⟩
      rw [shows_setContent, if_pos ⟨rfl, exist⟩]
      rfl
    | _ => simp [Slot.node, hc, Content.takes] at h

end Forest

namespace Graph

def noted (g : Graph) (v : Value) : Reaction → Graph
  | .showValue _ r => g.setRecord r v
  | _ => g

theorem present_cases (g : Graph) (v : Value) (reaction : Reaction) :
    (reaction.slot? = none ∧ g.present v reaction = .ok g) ∨
      ∃ slot, reaction.slot? = some slot ∧
        ((∃ f, g.forest.fill slot v.text = .ok f ∧
            g.present v reaction = .ok { g.noted v reaction with forest := f }) ∨
          ∃ err, g.forest.fill slot v.text = .error err ∧ g.present v reaction = .error err) := by
  cases reaction with
  | call callback => exact .inl ⟨rfl, rfl⟩
  | showText n =>
    refine .inr ⟨.text n, rfl, ?_⟩
    simp only [present, Forest.fill]
    cases g.forest.setText n v.text with
    | error err => exact .inr ⟨err, rfl, rfl⟩
    | ok f => exact .inl ⟨f, rfl, rfl⟩
  | showAttribute n name =>
    refine .inr ⟨.attr n name, rfl, ?_⟩
    simp only [present, Forest.fill]
    cases g.forest.setAttribute n name v.text with
    | error err => exact .inr ⟨err, rfl, rfl⟩
    | ok f => exact .inl ⟨f, rfl, rfl⟩
  | showValue n r =>
    refine .inr ⟨.value n, rfl, ?_⟩
    simp only [present, Forest.fill]
    cases g.forest.setValue n v.text with
    | error err => exact .inr ⟨err, rfl, rfl⟩
    | ok f => exact .inl ⟨f, rfl, rfl⟩

end Graph

end DataBinding
