import DataBinding.Proofs.AncestorWalks
import DataBinding.Proofs.TidyNodes

namespace DataBinding.Forest

open Markup

variable {f f' f₁ f₂ f₃ : Forest} {a b c n m p q : NodeId} {cs : List NodeId}

theorem parent_modify (f : Forest) (n m : NodeId) (change : Node → Node) :
    ((f.modify n change).node m).parent =
      if m = n ∧ n.index < f.size then (change (f.node m)).parent else (f.node m).parent := by
  rw [node_modify]
  split <;> rfl

@[simp] theorem parent_detach (f : Forest) (n m : NodeId) :
    ((f.detach n).node m).parent = if m = n then none else (f.node m).parent := by
  unfold detach
  split
  · next top =>
    split
    · next same => rw [same, top]
    · rfl
  · next p under =>
    have exist : n.index < f.size := Under.exists under
    rw [parent_modify, node_modify]
    by_cases same : m = n
    · simp [same, exist]
    · simp [same]

theorem under_detach : (f.detach n).Under a b ↔ a ≠ n ∧ f.Under a b := by
  rw [Under, parent_detach, Under]
  split <;> simp_all

theorem Linked.filter_of_not_under (h : f.Linked) (other : ¬ f.Under n m) :
    (f.children m).filter (· ≠ n) = f.children m := by
  apply List.filter_eq_self.2
  intro c hc
  rw [decide_eq_true_eq]
  rintro rfl
  exact other (h.agree.1 hc)

theorem Linked.children_detach (h : f.Linked) (n m : NodeId) :
    (f.detach n).children m = (f.children m).filter (· ≠ n) := by
  unfold detach
  split
  · next top => rw [h.filter_of_not_under (by rw [Under, top]; exact (Option.some_ne_none m).symm)]
  · next p under =>
    have kids : (f.modify n ({ · with parent := none })).children m = f.children m := by
      rw [children_modify]
      split <;> rfl
    by_cases same : m = p
    · subst same
      have exist := h.exists_of_under under
      rw [children_modify, if_pos ⟨rfl, by rwa [size_modify]⟩]
      exact congrArg _ kids
    · rw [children_modify, if_neg fun here => same here.1, kids, h.filter_of_not_under]
      intro under'
      exact same (Option.some.inj (under'.symm.trans under))

theorem Linked.detach (h : f.Linked) (n : NodeId) : (f.detach n).Linked where
  agree {p c} := by
    rw [h.children_detach, List.mem_filter, decide_eq_true_eq, under_detach, h.agree, and_comm]
  once p := by
    rw [h.children_detach]
    exact (h.once p).filter _
  placed {c p} under := by
    rw [(keeps_detach f n).content]
    exact h.placed (under_detach.1 under).2
  solid {p} closed := by
    rw [(keeps_detach f n).content] at closed
    rw [h.children_detach, h.solid closed]
    rfl

theorem Acyclic.detach (h : f.Acyclic) (n : NodeId) : (f.detach n).Acyclic :=
  fun m below => h m (below.lift id fun _ _ under => (under_detach.1 under).2)

theorem parent_adopt (exist : c.index < f.size) :
    ((f.adopt p c).node a).parent = if a = c then some p else (f.node a).parent := by
  rw [adopt, parent_modify]
  have inner : (((f.detach c).modify c ({ · with parent := some p })).node a).parent =
      if a = c then some p else (f.node a).parent := by
    rw [parent_modify, (keeps_detach f c).size, parent_detach]
    by_cases same : a = c <;> simp [same, exist]
  split <;> exact inner

theorem under_adopt (exist : c.index < f.size) :
    (f.adopt p c).Under a b ↔ if a = c then b = p else f.Under a b := by
  rw [Under, parent_adopt exist, Under]
  split
  · rw [Option.some.injEq, eq_comm]
  · rfl

theorem Linked.children_adopt (h : f.Linked) (exist : p.index < f.size) (c m : NodeId) :
    (f.adopt p c).children m = (f.children m).filter (· ≠ c) ++ if m = p then [c] else [] := by
  have inner : ((f.detach c).modify c ({ · with parent := some p })).children m = (f.children m).filter (· ≠ c) := by
    rw [children_modify, ← h.children_detach]
    split <;> rfl
  rw [adopt, children_modify, size_modify, (keeps_detach f c).size]
  by_cases same : m = p
  · rw [if_pos ⟨same, exist⟩, if_pos same]
    exact congrArg (· ++ [c]) inner
  · rw [if_neg fun here => same here.1, if_neg same, inner, List.append_nil]

theorem below_adopt (exist : c.index < f.size) (below : (f.adopt p c).Below a b) :
    f.Below a b ∨ (a = c ∨ f.Below a c) ∧ (b = p ∨ f.Below p b) := by
  induction below using Relation.TransGen.head_induction_on with
  | single under =>
    rw [under_adopt exist] at under
    split at under
    · next same => exact .inr ⟨.inl same, .inl under⟩
    · exact .inl (.single under)
  | head under _ ih =>
    rw [under_adopt exist] at under
    split at under
    · next same =>
      subst under
      rcases ih with ih | ⟨-, ih⟩
      · exact .inr ⟨.inl same, .inr ih⟩
      · exact .inr ⟨.inl same, ih⟩
    · rcases ih with ih | ⟨rfl | ih, ih'⟩
      · exact .inl (.head under ih)
      · exact .inr ⟨.inr (.single under), ih'⟩
      · exact .inr ⟨.inr (.head under ih), ih'⟩

structure Fits (f : Forest) (c : NodeId) : Prop where
  exist : c.index < f.size
  placed : (f.content c).isElement ∨ (f.content c).isText

theorem Linked.fits (h : f.Linked) (mem : c ∈ f.children p) : f.Fits c :=
  ⟨(h.agree.1 mem).exists, h.placed (h.agree.1 mem)⟩

theorem Fits.adopt (fits : f.Fits a) (p c : NodeId) : (f.adopt p c).Fits a where
  exist := by
    rw [(keeps_adopt f p c).size]
    exact fits.exist
  placed := by
    rw [(keeps_adopt f p c).content]
    exact fits.placed

structure Apart (f : Forest) (p c : NodeId) : Prop where
  other : p ≠ c
  above : ¬ f.Below p c

theorem below_of_adopt (exist : c.index < f.size) (apart : f.Apart a c) (below : (f.adopt p c).Below a b) :
    f.Below a b := by
  rcases below_adopt exist below with below | ⟨same | below, -⟩
  · exact below
  · exact absurd same apart.other
  · exact absurd below apart.above

theorem Apart.adopt (apart : f.Apart p a) (exist : c.index < f.size) (first : f.Apart p c) :
    (f.adopt p c).Apart p a where
  other := apart.other
  above below := apart.above (below_of_adopt exist first below)

theorem Acyclic.adopt (h : f.Acyclic) (exist : c.index < f.size) (apart : f.Apart p c) : (f.adopt p c).Acyclic := by
  intro n below
  rcases below_adopt exist below with round | ⟨low, high⟩
  · exact h n round
  · -- then `p` would have been below `c`, or the same
    rcases low with rfl | low <;> rcases high with rfl | high
    · exact apart.other rfl
    · exact apart.above high
    · exact apart.above low
    · exact apart.above (high.trans low)

theorem Linked.adopt (h : f.Linked) (exist : p.index < f.size) (takes : (f.content p).takesChildren = true)
    (fits : f.Fits c) : (f.adopt p c).Linked where
  agree {q a} := by
    rw [h.children_adopt exist, under_adopt fits.exist, List.mem_append, List.mem_filter, decide_eq_true_eq, h.agree]
    by_cases same : a = c
    · subst same
      by_cases here : q = p <;> simp [here]
    · by_cases here : q = p <;> simp [here, same]
  once q := by
    rw [h.children_adopt exist]
    apply List.Nodup.append
    · exact (h.once q).filter _
    · split <;> simp
    · intro a ha ha'
      split at ha'
      · rw [List.mem_singleton.1 ha'] at ha
        simp at ha
      · cases ha'
  placed {a q} under := by
    rw [(keeps_adopt f p c).content]
    rw [under_adopt fits.exist] at under
    split at under
    · next same =>
      rw [same]
      exact fits.placed
    · exact h.placed under
  solid {q} closed := by
    rw [(keeps_adopt f p c).content] at closed
    rw [h.children_adopt exist, h.solid closed]
    split
    · next same =>
      rw [same, takes] at closed
      cases closed
    · rfl

theorem Linked.adoptAll (h : f.Linked) (exist : p.index < f.size) (takes : (f.content p).takesChildren = true)
    (fits : ∀ c ∈ cs, f.Fits c) : (f.adoptAll p cs).Linked := by
  induction cs generalizing f with
  | nil => exact h
  | cons c cs ih =>
    have first := fits c List.mem_cons_self
    have keeps := keeps_adopt f p c
    apply ih (h.adopt exist takes first)
    · rwa [keeps.size]
    · rwa [keeps.content]
    · exact fun a ha => (fits a (List.mem_cons_of_mem _ ha)).adopt p c

theorem Acyclic.adoptAll (h : f.Acyclic) (exist : ∀ c ∈ cs, c.index < f.size) (apart : ∀ c ∈ cs, f.Apart p c) :
    (f.adoptAll p cs).Acyclic := by
  induction cs generalizing f with
  | nil => exact h
  | cons c cs ih =>
    have first := exist c List.mem_cons_self
    have above := apart c List.mem_cons_self
    apply ih (h.adopt first above)
    · intro a ha
      rw [(keeps_adopt f p c).size]
      exact exist a (List.mem_cons_of_mem _ ha)
    · exact fun a ha => (apart a (List.mem_cons_of_mem _ ha)).adopt first above

theorem parent_adoptAll (exist : ∀ c ∈ cs, c.index < f.size) :
    ((f.adoptAll p cs).node a).parent = if a ∈ cs then some p else (f.node a).parent := by
  induction cs generalizing f with
  | nil => rw [if_neg (List.not_mem_nil)]; rfl
  | cons c cs ih =>
    have first := exist c List.mem_cons_self
    have rest : ∀ m ∈ cs, m.index < (f.adopt p c).size := by
      intro m hm
      rw [(keeps_adopt f p c).size]
      exact exist m (List.mem_cons_of_mem _ hm)
    rw [adoptAll, List.foldl_cons]
    refine (ih rest).trans ?_
    rw [parent_adopt first]
    by_cases same : a = c
    · simp [same]
    · simp [same]

theorem under_adoptAll (exist : ∀ c ∈ cs, c.index < f.size) :
    (f.adoptAll p cs).Under a b ↔ if a ∈ cs then b = p else f.Under a b := by
  rw [Under, parent_adoptAll exist, Under]
  split
  · rw [Option.some.injEq, eq_comm]
  · rfl

theorem Linked.children_adoptAll (h : f.Linked) (exist : p.index < f.size)
    (takes : (f.content p).takesChildren = true) (fits : ∀ c ∈ cs, f.Fits c) (distinct : cs.Nodup) (m : NodeId) :
    (f.adoptAll p cs).children m = (f.children m).filter (· ∉ cs) ++ if m = p then cs else [] := by
  induction cs generalizing f with
  | nil => simp [Forest.adoptAll]
  | cons c cs ih =>
    have first := fits c List.mem_cons_self
    have keeps := keeps_adopt f p c
    obtain ⟨new, distinct⟩ := List.nodup_cons.1 distinct
    rw [Forest.adoptAll, List.foldl_cons]
    refine (ih (h.adopt exist takes first) (by rwa [keeps.size]) (by rwa [keeps.content])
      (fun a ha => (fits a (List.mem_cons_of_mem _ ha)).adopt p c) distinct).trans ?_
    rw [h.children_adopt exist, List.filter_append, List.filter_filter]
    have both (a : NodeId) : (decide (a ∉ cs) && decide (a ≠ c)) = decide (a ∉ c :: cs) := by
      by_cases same : a = c <;> simp [same]
    simp only [both]
    by_cases here : m = p <;> simp [here, new]

theorem Linked.children_adopted (h : f.Linked) (exist : p.index < f.size) (takes : (f.content p).takesChildren = true)
    (q m : NodeId) : (f.adoptAll p (f.children q)).children m =
      (if m = q then [] else f.children m) ++ if m = p then f.children q else [] := by
  rw [h.children_adoptAll exist takes (fun _ => h.fits) (h.once q)]
  congr 1
  split
  · next same =>
    rw [same]
    apply List.filter_eq_nil_iff.2
    simp
  · next other =>
    apply List.filter_eq_self.2
    intro c hc
    rw [decide_eq_true_eq]
    intro hc'
    exact other (Option.some.inj ((h.agree.1 hc).symm.trans (h.agree.1 hc')))

theorem Linked.children_moved (h : f.Linked) (exist : p.index < f.size) (takes : (f.content p).takesChildren = true)
    (apart : p ≠ q) (m : NodeId) :
    (f.adoptAll p (f.children q)).children m =
      if m = p then f.children p ++ f.children q else if m = q then [] else f.children m := by
  rw [h.children_adopted exist takes]
  by_cases here : m = p
  · rw [if_pos here, if_pos here, here, if_neg apart]
  · rw [if_neg here, if_neg here, List.append_nil]

theorem under_create {new : Content} : (f.create new).2.Under a b ↔ f.Under a b := by
  rw [Under, parent_create, Under]

theorem below_create {new : Content} : (f.create new).2.Below a b ↔ f.Below a b := by
  have same : (f.create new).2.Under = f.Under := by
    funext a b
    exact propext under_create
  rw [Below, Below, same]

theorem Linked.create (h : f.Linked) (new : Content) : (f.create new).2.Linked where
  agree {p c} := by
    rw [children_create, under_create]
    exact h.agree
  once p := by
    simpa using h.once p
  placed {c p} under := by
    rw [under_create] at under
    rw [(carries_create f new).content under.exists]
    exact h.placed under
  solid {p} closed := by
    rw [children_create]
    by_cases exist : p.index < f.size
    · rw [(carries_create f new).content exist] at closed
      exact h.solid closed
    · exact children_of_size_le (Nat.le_of_not_lt exist)

theorem Acyclic.create (h : f.Acyclic) (new : Content) : (f.create new).2.Acyclic :=
  fun n below => h n (below_create.1 below)

structure Alike (f f' : Forest) : Prop where
  size : f'.size = f.size
  parent : ∀ n, (f'.node n).parent = (f.node n).parent
  children : ∀ n, f'.children n = f.children n
  kind : ∀ n, (f'.content n).kind = (f.content n).kind
  takesChildren : ∀ n, (f'.content n).takesChildren = (f.content n).takesChildren

theorem Alike.refl (f : Forest) : Alike f f := ⟨rfl, fun _ => rfl, fun _ => rfl, fun _ => rfl, fun _ => rfl⟩

theorem Alike.trans (h : Alike f₁ f₂) (h' : Alike f₂ f₃) : Alike f₁ f₃ where
  size := h'.size.trans h.size
  parent n := (h'.parent n).trans (h.parent n)
  children n := (h'.children n).trans (h.children n)
  kind n := (h'.kind n).trans (h.kind n)
  takesChildren n := (h'.takesChildren n).trans (h.takesChildren n)

theorem Alike.under (h : Alike f f') : f'.Under = f.Under := by
  funext a b
  rw [Under, h.parent, Under]

theorem Alike.below (h : Alike f f') : f'.Below = f.Below := by
  rw [Below, h.under, Below]

theorem alike_modify (f : Forest) (n : NodeId) {change : Node → Node} (parent : ∀ d, (change d).parent = d.parent)
    (children : ∀ d, (change d).children = d.children) (content : ∀ d, (change d).content = d.content) :
    Alike f (f.modify n change) where
  size := size_modify f n change
  parent m := by
    rw [parent_modify, parent]
    split <;> rfl
  children m := by
    rw [children_modify, children]
    split <;> rfl
  kind m := by
    rw [Forest.content, node_modify]
    split
    · rw [content]; rfl
    · rfl
  takesChildren m := by
    rw [Forest.content, node_modify]
    split
    · rw [content]; rfl
    · rfl

theorem alike_retain (f : Forest) (n : NodeId) : Alike f (f.retain n) :=
  alike_modify f n (fun _ => rfl) (fun _ => rfl) fun _ => rfl

theorem alike_release (f : Forest) (n : NodeId) : Alike f (f.release n) :=
  alike_modify f n (fun _ => rfl) (fun _ => rfl) fun _ => rfl

theorem alike_listen (f : Forest) (n : NodeId) (event : String) (listener : Listener) :
    Alike f (f.listen n event listener) :=
  alike_modify f n (fun _ => rfl) (fun _ => rfl) fun _ => rfl

theorem alike_setContent {new : Content} (kind : new.kind = (f.content n).kind)
    (takesChildren : new.takesChildren = (f.content n).takesChildren) : Alike f (f.setContent n new) where
  size := size_modify f n _
  parent m := by
    rw [Forest.setContent, parent_modify]
    split <;> rfl
  children m := by
    rw [Forest.setContent, children_modify]
    split <;> rfl
  kind m := by
    rw [content_setContent]
    split
    · next here => rw [kind, here.1]
    · rfl
  takesChildren m := by
    rw [content_setContent]
    split
    · next here => rw [takesChildren, here.1]
    · rfl

theorem alike_put (f : Forest) (text : String) (slot : Slot) :
    Alike f (f.setContent slot.node ((f.content slot.node).put text slot)) := by
  apply alike_setContent <;> cases f.content slot.node <;> cases slot <;> rfl

theorem alike_without (f : Forest) (n : NodeId) (name : String) :
    Alike f (f.setContent n ((f.content n).without name)) := by
  apply alike_setContent <;> cases f.content n <;> rfl

theorem isElement_iff (c : Content) : c.isElement ↔ c.kind = "element" := by
  cases c <;> simp [Content.isElement, Content.kind]

theorem isText_iff (c : Content) : c.isText ↔ c.kind = "text" := by
  cases c <;> simp [Content.isText, Content.kind]

theorem eq_document_iff (c : Content) : c = .document ↔ c.kind = "document" := by
  cases c <;> simp [Content.kind]

theorem eq_fragment_iff (c : Content) : c = .fragment ↔ c.kind = "fragment" := by
  cases c <;> simp [Content.kind]

theorem Linked.alike (h : f.Linked) (same : Alike f f') : f'.Linked where
  agree {p c} := by
    rw [same.children, same.under]
    exact h.agree
  once p := by
    rw [same.children]
    exact h.once p
  placed {c p} under := by
    rw [isElement_iff, isText_iff, same.kind, ← isElement_iff, ← isText_iff]
    rw [same.under] at under
    exact h.placed under
  solid {p} closed := by
    rw [same.takesChildren] at closed
    rw [same.children]
    exact h.solid closed

theorem Acyclic.alike (h : f.Acyclic) (same : Alike f f') : f'.Acyclic := by
  rw [Acyclic, same.below]
  exact h

theorem Linked.append (h : f.Linked) (exist : p.index < f.size) (exist' : c.index < f.size)
    (moved : f.append p c = .ok f') : f'.Linked := by
  unfold Forest.append at moved
  split at moved
  · cases moved
  next takes =>
  have takes : (f.content p).takesChildren = true := by simpa using takes
  split at moved
  · cases moved
  · cases moved
    exact h.adoptAll exist takes fun _ => h.fits
  · next noDocument noFragment =>
    split at moved
    · cases moved
    · cases moved
      refine h.adopt exist takes ⟨exist', ?_⟩
      cases hc : f.content c with
      | document => exact absurd hc noDocument
      | fragment => exact absurd hc noFragment
      | element tag attributes value => exact .inl rfl
      | text content => exact .inr rfl

theorem Acyclic.append (h : f.Acyclic) (linked : f.Linked) (exist : c.index < f.size)
    (apart : f.content c = .fragment → ¬ f.Below p c) (moved : f.append p c = .ok f') : f'.Acyclic := by
  unfold Forest.append at moved
  split at moved
  · cases moved
  split at moved
  · cases moved
  · next fragment =>
    cases moved
    apply h.adoptAll
    · exact fun a ha => (linked.fits ha).exist
    · intro a ha
      have under := linked.agree.1 ha
      constructor
      · rintro rfl
        exact apart fragment (.single under)
      · exact fun below => apart fragment (below.tail under)
  · split at moved
    · cases moved
    · next free =>
      cases moved
      simp only [not_or, Bool.not_eq_true] at free
      refine h.adopt exist ⟨Ne.symm free.1, ?_⟩
      rw [← linked.isAncestor_iff (h.straight p), free.2]
      exact nofun

theorem Linked.replaceChildren (h : f.Linked) (exist : n.index < f.size)
    (takes : (f.content n).takesChildren = true) (text : String) :
    (f.replaceChildren n text).Linked ∧ (f.Acyclic → (f.replaceChildren n text).Acyclic) := by
  have emptied (ns : List NodeId) :
      (ns.foldl Forest.detach f).Linked ∧ (f.Acyclic → (ns.foldl Forest.detach f).Acyclic) := by
    induction ns generalizing f with
    | nil => exact ⟨h, id⟩
    | cons n ns ih =>
      have keeps := keeps_detach f n
      obtain ⟨linked, acyclic⟩ := ih (h.detach n) (by rwa [keeps.size]) (by rwa [keeps.content])
      exact ⟨linked, fun h => acyclic (h.detach n)⟩
  have keeps := keeps_foldl keeps_detach (f.children n) f
  obtain ⟨linked, acyclic⟩ := emptied (f.children n)
  unfold Forest.replaceChildren
  dsimp only
  generalize (f.children n).foldl Forest.detach f = f₁ at keeps linked acyclic ⊢
  rw [← keeps.size] at exist
  rw [← keeps.content] at takes
  have carries := carries_create f₁ (.text text)
  have new : f₁.size < (f₁.create (.text text)).2.size := by
    simp
  split
  · exact ⟨linked, acyclic⟩
  · constructor
    · refine (linked.create _).adopt (Nat.lt_of_lt_of_le exist carries.size) (by rwa [carries.content exist]) ⟨new, ?_⟩
      right
      simp [Content.isText]
    · intro h
      refine ((acyclic h).create _).adopt new ⟨?_, ?_⟩
      · rintro rfl
        exact Nat.lt_irrefl _ exist
      · intro below
        exact Nat.lt_irrefl _ (linked.exists_of_below (below_create.1 below))

theorem Linked.setText (h : f.Linked) (exist : n.index < f.size) {text : String} (filled : f.setText n text = .ok f') :
    f'.Linked ∧ (f.Acyclic → f'.Acyclic) := by
  unfold Forest.setText at filled
  split at filled
  · next hc =>
    cases filled
    have same : Alike f (f.setContent n (.text text)) := alike_setContent (by rw [hc]; rfl) (by rw [hc]; rfl)
    exact ⟨h.alike same, fun acyclic => acyclic.alike same⟩
  · next hc =>
    split at filled
    · cases filled
    · next open' =>
      cases filled
      exact h.replaceChildren exist (by simpa [hc, Content.takesChildren] using open') text
  · next hc =>
    cases filled
    exact h.replaceChildren exist (by rw [hc]; rfl) text
  · cases filled

theorem alike_setAttribute {name text : String} (filled : f.setAttribute n name text = .ok f') : Alike f f' := by
  unfold Forest.setAttribute at filled
  split at filled
  · next hc =>
    cases filled
    exact alike_setContent (by rw [hc]; rfl) (by rw [hc]; rfl)
  · cases filled

theorem alike_setValue {text : String} (filled : f.setValue n text = .ok f') : Alike f f' := by
  unfold Forest.setValue at filled
  split at filled
  · next hc =>
    cases filled
    exact alike_setContent (by rw [hc]; rfl) (by rw [hc]; rfl)
  · cases filled

theorem Linked.exists_of_beside (h : f.Linked) (beside : Beside f f') (exist : a.index < f.size)
    (below : f'.Below a b) : b.index < f.size := by
  have step {a b : NodeId} (exist : a.index < f.size) (under : f'.Under a b) : b.index < f.size := by
    rw [Under, beside.node exist] at under
    exact h.exists_of_under under
  induction below with
  | single under => exact step exist under
  | tail _ under ih => exact step ih under

mutual

theorem Linked.plant : {f : Forest} → (tree : Tree) → tree.Sound → f.Linked →
    (f.plant tree).2.Linked ∧ (f.Acyclic → (f.plant tree).2.Acyclic)
  | f, .text content, _, h => ⟨h.create _, fun acyclic => acyclic.create _⟩
  | f, .element tag attributes children, sound, h => by
    obtain ⟨-, -, childless, below⟩ := sound
    rw [plant_element]
    obtain ⟨linked, acyclic⟩ := Linked.plantAll ⟨f.size⟩ children below
      (f := (f.create (.element tag attributes ((attributes.get? "value").getD ""))).2)
      (by simp)
      (fun filled => by simpa [Content.takesChildren] using mt childless filled)
      (h.create _)
    exact ⟨linked, fun h => acyclic (h.create _)⟩

theorem Linked.plantAll : {f : Forest} → (p : NodeId) → (trees : List Tree) → SoundAll trees → p.index < f.size →
    (trees ≠ [] → (f.content p).takesChildren = true) → f.Linked →
    (f.plantAll p trees).Linked ∧ (f.Acyclic → (f.plantAll p trees).Acyclic)
  | f, p, [], _, _, _, h => ⟨h, id⟩
  | f, p, tree :: rest, sound, exist, takes, h => by
    obtain ⟨beside, -, stands⟩ := stands_plant f tree
    have takes := takes (List.cons_ne_nil _ _)
    have keeps := keeps_adopt (f.plant tree).2 p ⟨f.size⟩
    have exist' := Nat.lt_of_lt_of_le exist beside.size
    have open' : ((f.plant tree).2.content p).takesChildren = true := by
      rwa [content, beside.node exist]
    have fits : (f.plant tree).2.Fits ⟨f.size⟩ := by
      refine ⟨stands.exists.2, ?_⟩
      cases tree with
      | text content =>
        rw [Stands] at stands
        exact .inr (by rw [stands.2]; rfl)
      | element tag attributes children =>
        rw [Stands] at stands
        exact .inl (by rw [stands.2.1]; rfl)
    have apart : (f.plant tree).2.Apart p ⟨f.size⟩ := by
      constructor
      · rintro rfl
        exact Nat.lt_irrefl _ exist
      · intro below
        exact Nat.lt_irrefl _ (h.exists_of_beside beside exist below)
    obtain ⟨planted, free⟩ := Linked.plant tree sound.1 h
    obtain ⟨linked, acyclic⟩ := Linked.plantAll p rest sound.2 (f := (f.plant tree).2.adopt p ⟨f.size⟩)
      (by rwa [keeps.size]) (fun _ => by rwa [keeps.content]) (planted.adopt exist' open' fits)
    rw [plantAll_cons]
    exact ⟨linked, fun h => acyclic ((free h).adopt fits.exist apart)⟩

end

theorem Linked.createDocument {trees : List Tree} (h : f.Linked) (sound : SoundAll trees) :
    (f.createDocument trees).2.Linked ∧ (f.Acyclic → (f.createDocument trees).2.Acyclic) := by
  obtain ⟨linked, acyclic⟩ := Linked.plantAll ⟨f.size⟩ trees sound (f := (f.create .document).2)
    (by simp)
    (fun _ => by simp [Content.takesChildren]) (h.create .document)
  exact ⟨linked, fun h => acyclic (h.create _)⟩

end DataBinding.Forest
