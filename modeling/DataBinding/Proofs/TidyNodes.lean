import DataBinding.Proofs.CompilationPieces
import DataBinding.Proofs.PlantedDocuments
import DataBinding.Proofs.ReadTrees

namespace DataBinding

open Markup

variable {D : NodeId → Prop} {f f' : Forest} {n p c : NodeId} {slot : Slot}

def Content.Readable : Content → Prop
  | .element tag attributes _ => isTag tag = true ∧ Attributes attributes
  | _ => True

namespace Forest

/-- Some nodes with all that is below them: their names can be read back, and those that take no children have
none. -/
structure Tidy (D : NodeId → Prop) (f : Forest) : Prop where
  exist : ∀ {n}, D n → n.index < f.size
  readable : ∀ {n}, D n → (f.content n).Readable
  solid : ∀ {n}, D n → (f.content n).takesChildren = false → f.children n = []
  below : ∀ {n}, D n → ∀ c ∈ f.children n, D c

theorem soundAll_flatMap {ns : List NodeId} {trees : NodeId → List Tree} (h : ∀ n ∈ ns, SoundAll (trees n)) :
    SoundAll (ns.flatMap trees) := by
  rw [soundAll_iff]
  intro tree mem
  obtain ⟨n, hn, ht⟩ := List.mem_flatMap.1 mem
  exact (soundAll_iff _).1 (h n hn) tree ht

theorem Tidy.soundAll (h : Tidy D f) (depth : Nat) (hn : D n) : SoundAll (f.treesWithin depth n) := by
  induction depth generalizing n with
  | zero => simp [treesWithin, SoundAll]
  | succ depth ih =>
    have below : SoundAll ((f.children n).flatMap (f.treesWithin depth)) :=
      soundAll_flatMap fun c hc => ih (h.below hn c hc)
    rw [treesWithin]
    cases hc : f.content n with
    | text content => simp [SoundAll, Tree.Sound]
    | document => exact below
    | fragment => exact below
    | element tag attributes value =>
      have readable := h.readable hn
      rw [hc] at readable
      have childless : isVoid tag = true → (f.children n).flatMap (f.treesWithin depth) = [] := by
        intro void
        rw [h.solid hn (by simp [hc, Content.takesChildren, void])]
        rfl
      simp only [SoundAll, Tree.Sound]
      exact ⟨⟨readable.1, readable.2, childless, below⟩, trivial⟩

def Stable (f : Forest) (root : NodeId) : Prop :=
  isStable (f.innerMarkup root) = true ∧ ∀ {trees f₁ again f₂}, Markup.read (f.innerMarkup root) = .ok trees →
    createDocument f₁ trees = (again, f₂) → f₂.innerMarkup again = f.innerMarkup root

theorem innerMarkup_createDocument {root : NodeId} {trees : List Tree}
    (created : f.createDocument trees = (root, f')) : f'.innerMarkup root = String.ofList (renderAll trees) := by
  rw [innerMarkup, (trees_createDocument created).2]

theorem Tidy.stable (h : Tidy D f) (hn : D n) : f.Stable n := by
  have sound : SoundAll ((f.children n).flatMap f.trees) :=
    soundAll_flatMap fun c hc => h.soundAll f.size (h.below hn c hc)
  have parsed : Markup.read (f.innerMarkup n) = .ok _ := read_renderAll sound
  constructor
  · rw [isStable, parsed]
    simp [renderAll_mergedAll, innerMarkup]
  · intro trees f₁ again f₂ found created
    cases parsed.symm.trans found
    rw [innerMarkup_createDocument created, renderAll_mergedAll]
    rfl

theorem children_modify (f : Forest) (n m : NodeId) (change : Node → Node) :
    (f.modify n change).children m = if m = n ∧ n.index < f.size then (change (f.node m)).children
      else f.children m := by
  rw [children, node_modify]
  split <;> rfl

theorem mem_children_detach {m : NodeId} (h : c ∈ (f.detach n).children m) : c ∈ f.children m := by
  unfold detach at h
  split at h
  · exact h
  · rw [children_modify, node_modify] at h
    split at h
    · have kept := (List.mem_filter.1 h).1
      split at kept <;> exact kept
    · rw [children_modify] at h
      split at h <;> exact h

theorem mem_children_adopt {m c' : NodeId} (h : c' ∈ (f.adopt p c).children m) :
    c' ∈ f.children m ∨ m = p ∧ c' = c := by
  have inner : ((f.detach c).modify c ({ · with parent := some p })).children m = (f.detach c).children m := by
    rw [children_modify]
    split <;> rfl
  rw [adopt, children_modify] at h
  split at h
  · next here =>
    rcases List.mem_append.1 h with old | new
    · left
      apply mem_children_detach
      rw [← inner]
      exact old
    · exact .inr ⟨here.1, List.mem_singleton.1 new⟩
  · rw [inner] at h
    exact .inl (mem_children_detach h)

theorem mem_children_adoptAll {m c' : NodeId} {cs : List NodeId} (h : c' ∈ (f.adoptAll p cs).children m) :
    c' ∈ f.children m ∨ m = p ∧ c' ∈ cs := by
  induction cs generalizing f with
  | nil => exact .inl h
  | cons c cs ih =>
    rcases ih h with h | ⟨hm, h⟩
    · rcases mem_children_adopt h with h | ⟨hm, rfl⟩
      · exact .inl h
      · exact .inr ⟨hm, List.mem_cons_self⟩
    · exact .inr ⟨hm, List.mem_cons_of_mem _ h⟩

namespace Tidy

theorem of_same (h : Tidy D f) (size : f.size ≤ f'.size) (content : ∀ {n}, D n → f'.content n = f.content n)
    (children : ∀ {n}, D n → ∀ c ∈ f'.children n, c ∈ f.children n) : Tidy D f' where
  exist hn := Nat.lt_of_lt_of_le (h.exist hn) size
  readable hn := by
    rw [content hn]
    exact h.readable hn
  solid {n} hn takes := by
    rw [content hn] at takes
    apply List.eq_nil_iff_forall_not_mem.2
    intro c hc
    have held := children hn c hc
    rw [h.solid hn takes] at held
    cases held
  below hn c hc := h.below hn c (children hn c hc)

theorem modify (h : Tidy D f) {change : Node → Node} (content : ∀ d, (change d).content = d.content)
    (children : ∀ d, (change d).children = d.children) : Tidy D (f.modify n change) := by
  apply h.of_same (Nat.le_of_eq (size_modify _ _ _).symm)
  · intro m _
    rw [Forest.content, node_modify]
    split
    · exact content _
    · rfl
  · intro m _ c hc
    rw [children_modify] at hc
    split at hc
    · rw [children] at hc
      exact hc
    · exact hc

theorem retain (h : Tidy D f) : Tidy D (f.retain n) := h.modify (fun _ => rfl) fun _ => rfl

theorem release (h : Tidy D f) : Tidy D (f.release n) := h.modify (fun _ => rfl) fun _ => rfl

theorem listen (h : Tidy D f) {event : String} {listener : Listener} : Tidy D (f.listen n event listener) :=
  h.modify (fun _ => rfl) fun _ => rfl

theorem detach (h : Tidy D f) : Tidy D (f.detach n) :=
  h.of_same (Nat.le_of_eq (keeps_detach f n).size.symm) (fun _ => (keeps_detach f n).content _)
    fun _ _ hc => mem_children_detach hc

theorem create (h : Tidy D f) {c : Content} : Tidy D (f.create c).2 := by
  have carries := carries_create f c
  apply h.of_same carries.size (fun hn => carries.content (h.exist hn))
  intro n _ c' hc
  rwa [children_create] at hc

theorem adoptAll (h : Tidy D f) {cs : List NodeId}
    (fits : D p → cs ≠ [] → (f.content p).takesChildren = true ∧ ∀ c ∈ cs, D c) : Tidy D (f.adoptAll p cs) := by
  have keeps := keeps_adoptAll f p cs
  refine ⟨?_, ?_, ?_, ?_⟩
  · intro n hn
    rw [keeps.size]
    exact h.exist hn
  · intro n hn
    rw [keeps.content]
    exact h.readable hn
  · intro n hn takes
    rw [keeps.content] at takes
    apply List.eq_nil_iff_forall_not_mem.2
    intro c hc
    rcases mem_children_adoptAll hc with old | ⟨rfl, new⟩
    · rw [h.solid hn takes] at old
      cases old
    · rw [(fits hn (List.ne_nil_of_mem new)).1] at takes
      cases takes
  · intro n hn c hc
    rcases mem_children_adoptAll hc with old | ⟨rfl, new⟩
    · exact h.below hn c old
    · exact (fits hn (List.ne_nil_of_mem new)).2 c new

theorem adopt (h : Tidy D f) (fits : D p → (f.content p).takesChildren = true ∧ D c) : Tidy D (f.adopt p c) := by
  have one : Tidy D (f.adoptAll p [c]) := h.adoptAll fun hp _ => ⟨(fits hp).1, by simpa using (fits hp).2⟩
  exact one

theorem setContent (h : Tidy D f) {new : Content} (readable : D n → new.Readable)
    (takes : D n → new.takesChildren = (f.content n).takesChildren) : Tidy D (f.setContent n new) := by
  have kids (m : NodeId) : (f.setContent n new).children m = f.children m := by
    rw [Forest.setContent, children_modify]
    split <;> rfl
  refine ⟨?_, ?_, ?_, ?_⟩
  · intro m hm
    simpa [Forest.setContent] using h.exist hm
  · intro m hm
    rw [content_setContent]
    split
    · next here => exact readable (here.1 ▸ hm)
    · exact h.readable hm
  · intro m hm closed
    rw [kids]
    apply h.solid hm
    rw [content_setContent] at closed
    split at closed
    · next here =>
      obtain ⟨rfl, -⟩ := here
      rwa [takes hm] at closed
    · exact closed
  · intro m hm c hc
    rw [kids] at hc
    exact h.below hm c hc

def Wanted (D : NodeId → Prop) (n : NodeId) (name : String) : Prop := D n → isAttributeName name = true

theorem put (h : Tidy D f) (text : String) (wanted : slot.Named (Wanted D)) :
    Tidy D (f.setContent slot.node ((f.content slot.node).put text slot)) := by
  apply h.setContent
  · intro hn
    have readable := h.readable hn
    generalize f.content slot.node = c at readable
    cases c with
    | element tag attributes value =>
      cases slot with
      | text n => exact readable
      | attr n name => exact ⟨readable.1, readable.2.set text (wanted hn)⟩
      | value n => exact readable
    | _ => cases slot <;> trivial
  · intro _
    generalize f.content slot.node = c
    cases c <;> cases slot <;> rfl

theorem strip (h : Tidy D f) (name : String) : Tidy D (f.setContent n ((f.content n).without name)) := by
  apply h.setContent
  · intro hn
    have readable := h.readable hn
    generalize f.content n = c at readable
    cases c with
    | element tag attributes value => exact ⟨readable.1, readable.2.erase name⟩
    | _ => trivial
  · intro _
    generalize f.content n = c
    cases c <;> rfl

theorem named (h : Tidy D f) : f.Named (Wanted D) := by
  intro n name hname hn
  have readable := h.readable hn
  generalize f.content n = c at hname readable
  cases c with
  | element tag attributes value => exact readable.2.1 name hname
  | _ => cases hname

theorem replaceChildren (h : Tidy D f) (hn : ¬ D n) (text : String) : Tidy D (f.replaceChildren n text) := by
  have emptied (ns : List NodeId) : Tidy D (ns.foldl Forest.detach f) := by
    induction ns generalizing f with
    | nil => exact h
    | cons n ns ih => exact ih h.detach
  unfold Forest.replaceChildren
  dsimp only
  split
  · exact emptied _
  · exact (emptied _).create.adopt fun same => absurd same hn

theorem setText (h : Tidy D f) {text : String} (hn : ¬ D n) (filled : f.setText n text = .ok f') : Tidy D f' := by
  unfold Forest.setText at filled
  split at filled
  · cases filled
    exact h.setContent (fun same => absurd same hn) fun same => absurd same hn
  · split at filled
    · cases filled
    · cases filled
      exact h.replaceChildren hn text
  · cases filled
    exact h.replaceChildren hn text
  · cases filled

theorem fill (h : Tidy D f) {text : String} (fits : D slot.node → f.takes slot ∧ slot.Named (Wanted D))
    (filled : f.fill slot text = .ok f') : Tidy D f' := by
  by_cases hn : D slot.node
  · obtain ⟨takes, wanted⟩ := fits hn
    rw [fill_eq takes] at filled
    cases filled
    exact h.put text wanted
  · cases slot with
    | text n => exact h.setText hn filled
    | attr n name =>
      simp only [Forest.fill, setAttribute] at filled
      split at filled <;> cases filled
      exact h.setContent (fun same => absurd same hn) fun same => absurd same hn
    | value n =>
      simp only [Forest.fill, setValue] at filled
      split at filled <;> cases filled
      exact h.setContent (fun same => absurd same hn) fun same => absurd same hn

theorem setValue (h : Tidy D f) {text : String} (filled : f.setValue n text = .ok f') : Tidy D f' := by
  have takes : f.takes (.value n) := by
    rw [Forest.takes, Slot.node]
    unfold Forest.setValue at filled
    split at filled
    · next hc => rw [hc]; rfl
    · cases filled
  have wanted : (Slot.value n).Named (Wanted D) := trivial
  exact h.fill (fun _ => ⟨takes, wanted⟩) filled

theorem append (h : Tidy D f) (fits : D p → (∀ n ∈ f.children c, D n) ∧ (f.content c ≠ .fragment → D c))
    (moved : f.append p c = .ok f') : Tidy D f' := by
  unfold Forest.append at moved
  split at moved
  · cases moved
  next takes =>
  have open' : (f.content p).takesChildren = true := by simpa using takes
  split at moved
  · cases moved
  · cases moved
    exact h.adoptAll fun hp _ => ⟨open', (fits hp).1⟩
  · next noFragment =>
    split at moved
    · cases moved
    · cases moved
      exact h.adopt fun hp => ⟨open', (fits hp).2 noFragment⟩

theorem beside (h : Tidy D f) (same : Beside f f') : Tidy D f' := by
  apply h.of_same same.size
  · intro n hn
    rw [content, same.node (h.exist hn), content]
  · intro n hn c hc
    rwa [children, same.node (h.exist hn)] at hc

end Tidy

theorem beside_createDocument (f : Forest) (trees : List Tree) : Beside f (f.createDocument trees).2 := by
  obtain ⟨ns, grown, -⟩ := standAll_plantAll (f.create .document).2 ⟨f.size⟩ trees
    (by simp)
  exact (beside_create f .document).trans grown (Nat.le_refl _)

def Between (start stop : Nat) (n : NodeId) : Prop := start ≤ n.index ∧ n.index < stop

instance (start stop : Nat) (n : NodeId) : Decidable (Between start stop n) := inferInstanceAs (Decidable (_ ∧ _))

theorem between_createDocument {root : NodeId} {trees : List Tree} (created : f.createDocument trees = (root, f')) :
    Between f.size f'.size root := by
  obtain ⟨rfl, content, -⟩ := standAll_createDocument created
  exact ⟨Nat.le_refl _, exists_of_content (by simp [content])⟩

theorem Tidy.created {start : Nat} (h : Tidy (Between start f.size) f) {c : Content} (readable : c.Readable) :
    Tidy (Between start (f.create c).2.size) (f.create c).2 := by
  rw [size_create]
  have old {n : NodeId} (hn : Between start (f.size + 1) n) (other : n.index ≠ f.size) : Between start f.size n :=
    ⟨hn.1, by have := hn.2; omega⟩
  have childless {n : NodeId} (new : n.index = f.size) : f.children n = [] := by
    rw [children, node_of_size_le (Nat.le_of_eq new.symm)]
  refine ⟨?_, ?_, ?_, ?_⟩
  · intro n hn
    simpa using hn.2
  · intro n hn
    rw [content_create]
    split
    · exact readable
    · next other => exact h.readable (old hn other)
  · intro n hn takes
    rw [children_create]
    rw [content_create] at takes
    split at takes
    · next new => exact childless new
    · next other => exact h.solid (old hn other) takes
  · intro n hn c' hc
    rw [children_create] at hc
    by_cases new : n.index = f.size
    · rw [childless new] at hc
      cases hc
    · have within := h.below (old hn new) c' hc
      exact ⟨within.1, Nat.lt_succ_of_lt within.2⟩

mutual

theorem Tidy.plant {start : Nat} : {f : Forest} → (tree : Tree) → tree.Sound → start ≤ f.size →
    Tidy (Between start f.size) f → Tidy (Between start (f.plant tree).2.size) (f.plant tree).2
  | f, .text content, _, _, h => h.created trivial
  | f, .element tag attributes children, sound, after, h => by
    obtain ⟨named, readable, childless, below⟩ := sound
    let c : Content := .element tag attributes ((attributes.get? "value").getD "")
    have made : Tidy _ (f.create c).2 := h.created ⟨named, readable⟩
    rw [plant_element]
    apply Tidy.plantAll _ children below _ _ _ made
    · rw [size_create]
      exact Nat.le_succ_of_le after
    · simp
    · intro filled
      simpa [c, Content.takesChildren] using mt childless filled

theorem Tidy.plantAll {start : Nat} : {f : Forest} → (p : NodeId) → (trees : List Tree) → SoundAll trees →
    start ≤ f.size → p.index < f.size → (trees ≠ [] → (f.content p).takesChildren = true) →
    Tidy (Between start f.size) f → Tidy (Between start (f.plantAll p trees).size) (f.plantAll p trees)
  | f, p, [], _, _, _, _, h => h
  | f, p, tree :: rest, sound, after, exist, takes, h => by
    obtain ⟨beside, -, stands⟩ := stands_plant f tree
    have takes := takes (List.cons_ne_nil _ _)
    have keeps := keeps_adopt (f.plant tree).2 p ⟨f.size⟩
    have open' : ((f.plant tree).2.content p).takesChildren = true := by
      rwa [content, beside.node exist]
    have adopted := (Tidy.plant tree sound.1 after h).adopt fun _ => ⟨open', after, stands.exists.2⟩
    rw [plantAll_cons]
    apply Tidy.plantAll p rest sound.2
    · rw [keeps.size]
      exact Nat.le_trans after beside.size
    · rw [keeps.size]
      exact Nat.lt_of_lt_of_le exist beside.size
    · intro _
      rw [keeps.content]
      exact open'
    · rw [keeps.size]
      exact adopted

end

theorem Tidy.createDocument {trees : List Tree} (f : Forest) (sound : SoundAll trees) :
    Tidy (Between f.size (f.createDocument trees).2.size) (f.createDocument trees).2 := by
  have empty : Tidy (Between f.size f.size) f := by
    refine ⟨?_, ?_, ?_, ?_⟩ <;> (intro n hn; obtain ⟨h, h'⟩ := hn; omega)
  have made : Tidy _ (f.create .document).2 := empty.created trivial
  have larger : f.size < (f.create .document).2.size := by
    simp
  have takes : ((f.create .document).2.content ⟨f.size⟩).takesChildren = true := by
    simp [Content.takesChildren]
  exact Tidy.plantAll ⟨f.size⟩ trees sound (Nat.le_of_lt larger) larger (fun _ => takes) made

end Forest

end DataBinding
