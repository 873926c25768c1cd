import DataBinding.Proofs.ParentChildLinks

namespace DataBinding.Forest

variable {f f' : Forest} {c n p : NodeId} {cs : List NodeId}

theorem holders_modify (f : Forest) (n m : NodeId) {change : Node → Node} (same : ∀ d, (change d).holders = d.holders) :
    ((f.modify n change).node m).holders = (f.node m).holders := by
  rw [node_modify]
  split
  · exact same _
  · rfl

@[simp] theorem holders_detach (f : Forest) (n m : NodeId) : ((f.detach n).node m).holders = (f.node m).holders := by
  unfold detach
  split
  · rfl
  · apply Eq.trans (holders_modify _ _ _ ?_)
    · apply holders_modify
      exact fun _ => rfl
    · exact fun _ => rfl

@[simp] theorem holders_adopt (f : Forest) (p c m : NodeId) : ((f.adopt p c).node m).holders = (f.node m).holders := by
  apply Eq.trans (holders_modify _ _ _ ?_)
  · apply Eq.trans (holders_modify _ _ _ ?_)
    · exact holders_detach f c m
    · exact fun _ => rfl
  · exact fun _ => rfl

@[simp] theorem holders_adoptAll (f : Forest) (p : NodeId) (cs : List NodeId) (m : NodeId) :
    ((f.adoptAll p cs).node m).holders = (f.node m).holders := by
  induction cs generalizing f with
  | nil => rfl
  | cons c cs ih => exact (ih (f.adopt p c)).trans (holders_adopt f p c m)

theorem relinked_adoptAll (f : Forest) (p : NodeId) (cs : List NodeId) (n : NodeId) :
    (f.adoptAll p cs).node n =
      { f.node n with parent := ((f.adoptAll p cs).node n).parent, children := (f.adoptAll p cs).children n } := by
  have content : ((f.adoptAll p cs).node n).content = (f.node n).content := (keeps_adoptAll f p cs).content n
  have listeners := (keeps_adoptAll f p cs).listeners n
  have holders := holders_adoptAll f p cs n
  rw [children]
  generalize (f.adoptAll p cs).node n = d' at content listeners holders ⊢
  obtain ⟨_, _, _, _, _⟩ := d'
  dsimp only at content listeners holders ⊢
  rw [content, listeners, holders]

structure Moved (f : Forest) (p c : NodeId) (f' : Forest) : Prop where
  size : f'.size = f.size
  child : f'.node c = { f.node c with parent := some p }
  parent : f'.node p = { f.node p with children := (f.children p).erase c ++ [c] }
  former : ∀ q, q ≠ p → f.Under c q → f'.node q = { f.node q with children := (f.children q).erase c }
  others : ∀ n, n ≠ c → n ≠ p → ¬ f.Under c n → f'.node n = f.node n
  below : ∀ n, f.Below n c → f'.node n = f.node n

theorem moved_adopt (linked : f.Linked) (acyclic : f.Acyclic) (exist : p.index < f.size) (exist' : c.index < f.size)
    (apart : f.Apart p c) : Moved f p c (f.adopt p c) := by
  have node (n : NodeId) : (f.adopt p c).node n = { f.node n with
      parent := if n = c then some p else (f.node n).parent
      children := (f.children n).erase c ++ if n = p then [c] else [] } := by
    have kept : (f.children n).erase c = (f.children n).filter (· ≠ c) := by
      rw [(linked.once n).erase_eq_filter]
      exact List.filter_congr fun m _ => Bool.eq_iff_iff.2 (by simp)
    rw [kept, ← linked.children_adopt exist, ← parent_adopt exist']
    exact relinked_adoptAll f p [c] n
  have strange {n : NodeId} (other : ¬ f.Under c n) : (f.children n).erase c = f.children n :=
    List.erase_of_not_mem fun mem => other (linked.agree.1 mem)
  have others {n : NodeId} (hc : n ≠ c) (hp : n ≠ p) (other : ¬ f.Under c n) : (f.adopt p c).node n = f.node n := by
    rw [node, if_neg hc, if_neg hp, strange other, List.append_nil]
    rfl
  refine ⟨(keeps_adopt f p c).size, ?_, ?_, ?_, fun n => others, ?_⟩
  · -- its own children stay, since it is none of them
    have other : ¬ f.Under c c := fun under => acyclic c (.single under)
    rw [node, if_pos rfl, if_neg apart.other.symm, strange other, List.append_nil]
    rfl
  · rw [node, if_neg apart.other, if_pos rfl]
  · intro q hq under
    have other : q ≠ c := by
      rintro rfl
      exact acyclic q (.single under)
    rw [node, if_neg other, if_neg hq, List.append_nil]
  · intro n below
    apply others
    · rintro rfl
      exact acyclic n below
    · rintro rfl
      exact apart.above below
    · exact fun under => acyclic n (below.tail under)

/-- The children of a fragment have been moved to the end of a parent, which may be the fragment itself. -/
structure Spliced (f : Forest) (p c : NodeId) (f' : Forest) : Prop where
  size : f'.size = f.size
  parent : f'.node p = { f.node p with children := (if p = c then [] else f.children p) ++ f.children c }
  fragment : p ≠ c → f'.node c = { f.node c with children := [] }
  moved : ∀ n ∈ f.children c, f'.node n = { f.node n with parent := some p }
  others : ∀ n, n ≠ p → n ≠ c → n ∉ f.children c → f'.node n = f.node n
  free : (f'.node c).parent = none ∧ ∀ n, c ∉ f'.children n

theorem Linked.not_under_of_fragment (linked : f.Linked) (fragment : f.content c = .fragment) : ¬ f.Under c p := by
  intro under
  rcases linked.placed under with element | text
  · rw [fragment] at element
    cases element
  · rw [fragment] at text
    cases text

theorem spliced_adoptAll (linked : f.Linked) (exist : p.index < f.size) (takes : (f.content p).takesChildren = true)
    (fragment : f.content c = .fragment) (apart : ¬ f.Below p c) : Spliced f p c (f.adoptAll p (f.children c)) := by
  have children (n : NodeId) := linked.children_adopted exist takes c n
  have node (n : NodeId) : (f.adoptAll p (f.children c)).node n = { f.node n with
      parent := if n ∈ f.children c then some p else (f.node n).parent
      children := (if n = c then [] else f.children n) ++ if n = p then f.children c else [] } := by
    rw [← children, ← parent_adoptAll fun a mem => (linked.fits mem).exist]
    exact relinked_adoptAll f p (f.children c) n
  have top (q : NodeId) : ¬ f.Under c q := linked.not_under_of_fragment fragment
  -- neither the fragment nor the new parent is one of those that move
  have own : c ∉ f.children c := fun mem => top c (linked.agree.1 mem)
  have above : p ∉ f.children c := fun mem => apart (.single (linked.agree.1 mem))
  refine ⟨(keeps_adoptAll f p _).size, ?_, ?_, ?_, ?_, ?_, ?_⟩
  · rw [node, if_neg above, if_pos rfl]
  · intro other
    rw [node, if_neg own, if_pos rfl, if_neg other.symm]
    rfl
  · intro n mem
    have hc : n ≠ c := fun same => own (same ▸ mem)
    have hp : n ≠ p := fun same => above (same ▸ mem)
    rw [node, if_pos mem, if_neg hc, if_neg hp, List.append_nil]
    rfl
  · intro n hp hc mem
    rw [node, if_neg mem, if_neg hc, if_neg hp, List.append_nil]
    rfl
  · rw [node, if_neg own]
    exact Option.eq_none_iff_forall_ne_some.2 top
  · intro n mem
    rw [children] at mem
    rcases List.mem_append.1 mem with mem | mem
    · split at mem
      · cases mem
      · exact top n (linked.agree.1 mem)
    · split at mem
      · exact own mem
      · cases mem

inductive Refused (f : Forest) (p c : NodeId) : Prop
  | text {content : String} (text : f.content p = .text content)
  | void {tag : String} {attributes : Fields String} {value : String}
    (element : f.content p = .element tag attributes value) (void : Markup.isVoid tag = true)
  | document (document : f.content c = .document)
  | above (solid : f.content c ≠ .fragment) (above : c = p ∨ f.Below p c)

theorem takesChildren_or_refused (f : Forest) (p c : NodeId) :
    (f.content p).takesChildren = true ∨ f.Refused p c := by
  cases content : f.content p with
  | text _ => exact .inr (.text content)
  | element tag _ _ =>
    cases void : Markup.isVoid tag with
    | true => exact .inr (.void content void)
    | false => exact .inl (by simp [Content.takesChildren, void])
  | _ => exact .inl rfl

theorem append_of_takes (takes : (f.content p).takesChildren = true) : f.append p c = match f.content c with
    | .document => .error (.misplaced .documentAsChild)
    | .fragment => .ok (f.adoptAll p (f.children c))
    | _ => if c = p ∨ f.isAncestor c p then .error (.misplaced .ownAncestor) else .ok (f.adopt p c) := by
  rw [append, takes]
  rfl

theorem append_error_iff (linked : f.Linked) (straight : f.Straight p) :
    (∃ err, f.append p c = .error err) ↔ f.Refused p c := by
  have ancestor := linked.isAncestor_iff (a := c) straight
  constructor
  · rintro ⟨err, failed⟩
    rcases f.takesChildren_or_refused p c with takes | refused
    · rw [append_of_takes takes] at failed
      split at failed
      · next document => exact .document document
      · cases failed
      · next fragment =>
        split at failed
        · next above => exact .above fragment (by rwa [ancestor] at above)
        · cases failed
    · exact refused
  · intro refused
    cases takes : (f.content p).takesChildren with
    | false => exact ⟨_, if_pos (by rw [takes]; rfl)⟩
    | true =>
      rw [append_of_takes takes]
      cases refused with
      | text text =>
        rw [text] at takes
        cases takes
      | void element void =>
        rw [element, Content.takesChildren, void] at takes
        cases takes
      | document document =>
        rw [document]
        exact ⟨_, rfl⟩
      | above solid above =>
        split
        · exact ⟨_, rfl⟩
        · next fragment => exact absurd fragment solid
        · rw [if_pos (by rwa [ancestor])]
          exact ⟨_, rfl⟩

/-- A node that is not refused moves, with all that is below it, to the end of its new parent, and nothing else changes.
Where it is refused nothing changes. A fragment stays where it is and hands over its children; it keeps them where it is
their new parent, too. -/
theorem append_moves (linked : f.Linked) (acyclic : f.Acyclic) (exist : p.index < f.size) (exist' : c.index < f.size) :
    ((∃ err, f.append p c = .error err) ↔ f.Refused p c) ∧
      (∀ err, f.append p c = .error err → (Edit.append p c).apply f = f) ∧
      (∀ f', f.append p c = .ok f' → (f.content c).isElement ∨ (f.content c).isText → Moved f p c f') ∧
      (f.content c = .fragment → (f.content p).takesChildren = true →
        ∃ f', f.append p c = .ok f' ∧ (¬ f.Below p c → Spliced f p c f')) := by
  refine ⟨append_error_iff linked (acyclic.straight p), ?_, ?_, ?_⟩
  · intro err failed
    rw [Edit.apply, failed]
    rfl
  · intro f' moved kind
    have free : ¬ f.Refused p c := by
      rw [← append_error_iff linked (acyclic.straight p)]
      rintro ⟨err, failed⟩
      cases moved.symm.trans failed
    have takes := (f.takesChildren_or_refused p c).resolve_right free
    have solid : f.content c ≠ .fragment := by
      intro fragment
      rw [fragment] at kind
      rcases kind with element | text
      · cases element
      · cases text
    have apart : f.Apart p c := by
      constructor
      · exact fun same => free (.above solid (.inl same.symm))
      · exact fun below => free (.above solid (.inr below))
    rw [append_of_takes takes] at moved
    split at moved
    · cases moved
    · next fragment => exact absurd fragment solid
    · split at moved
      · cases moved
      · cases moved
        exact moved_adopt linked acyclic exist exist' apart
  · intro fragment takes
    refine ⟨f.adoptAll p (f.children c), ?_, spliced_adoptAll linked exist takes fragment⟩
    rw [append_of_takes takes, fragment]

theorem linked_of_plays {s : Scene} (plays : s.plays = true) :
    s.ended.graph.forest.Linked ∧ s.ended.graph.forest.Acyclic := by
  obtain ⟨founded, apart⟩ := Scene.proper plays
  obtain ⟨linked, acyclic⟩ := (Scene.run plays).linked founded
  exact ⟨linked, acyclic apart⟩

theorem swapped_append_moves :
    Run.swapped.Linked ∧ Run.swapped.Acyclic ∧ Run.swapped.Under ⟨2⟩ ⟨3⟩ ∧ Run.swapped.Under ⟨3⟩ ⟨1⟩ ∧
      ∃ f', Run.swapped.append ⟨1⟩ ⟨2⟩ = .ok f' ∧ Moved Run.swapped ⟨1⟩ ⟨2⟩ f' ∧ f'.children ⟨1⟩ = [⟨3⟩, ⟨2⟩] ∧
        f'.children ⟨3⟩ = [⟨4⟩] := by
  obtain ⟨linked, acyclic⟩ : Run.swapped.Linked ∧ Run.swapped.Acyclic := linked_of_plays (by decide +kernel)
  obtain ⟨-, -, moves, -⟩ := append_moves (p := ⟨1⟩) (c := ⟨2⟩) linked acyclic (by decide +kernel) (by decide +kernel)
  have result : (Run.swapped.append ⟨1⟩ ⟨2⟩).toOption.map (fun f' => (f'.children ⟨1⟩, f'.children ⟨3⟩)) =
      some ([⟨3⟩, ⟨2⟩], [⟨4⟩]) := by decide +kernel
  cases moved : Run.swapped.append ⟨1⟩ ⟨2⟩ with
  | error err =>
    rw [moved] at result
    cases result
  | ok f' =>
    rw [moved] at result
    obtain ⟨first, second⟩ := Prod.mk.inj (Option.some.inj result)
    exact ⟨linked, acyclic, by decide +kernel, by decide +kernel, f', rfl,
      moves f' moved (.inl (by decide +kernel)), first, second⟩

def filling : Scene where
  before := []
  markup := "<b></b>"
  later := [.edit .createFragment, .edit (.append ⟨2⟩ ⟨1⟩)]

def filled : Forest := filling.ended.graph.forest

theorem filled_not_emptied :
    ¬ ∀ (f : Forest) (p c : NodeId), f.Linked → f.Acyclic → p.index < f.size → c.index < f.size →
      f.content c = .fragment → (f.content p).takesChildren = true → ¬ f.Below p c →
        ∃ f', f.append p c = .ok f' ∧ f'.children c = [] := by
  intro emptied
  obtain ⟨linked, acyclic⟩ : filled.Linked ∧ filled.Acyclic := linked_of_plays (by decide +kernel)
  have fragment : filled.content ⟨2⟩ = .fragment := (eq_fragment_iff _).2 (by decide +kernel)
  obtain ⟨f', moved, none⟩ := emptied filled ⟨2⟩ ⟨2⟩ linked acyclic (by decide +kernel) (by decide +kernel)
    fragment (by decide +kernel) (acyclic ⟨2⟩)
  have result : (filled.append ⟨2⟩ ⟨2⟩).toOption.map (·.children ⟨2⟩) = some [⟨1⟩] := by decide +kernel
  rw [moved] at result
  cases none.symm.trans (Option.some.inj result)

end DataBinding.Forest
