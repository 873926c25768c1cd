import DataBinding.Proofs.NodeAppending

namespace DataBinding.Forest

variable {f : Forest} {s : Selector} {c n : NodeId} {cs ns ms : List NodeId} {k : Nat}

/-- Siblings with all that is below them: every node before its children, and what is below it before the next
sibling. -/
inductive Preorder (f : Forest) : List NodeId → List NodeId → Prop
  | nil : f.Preorder [] []
  | cons {c : NodeId} {cs below rest : List NodeId} (inside : f.Preorder (f.children c) below)
      (next : f.Preorder cs rest) : f.Preorder (c :: cs) (c :: below ++ rest)

theorem Preorder.unique (order : f.Preorder cs ns) (order' : f.Preorder cs ms) : ms = ns := by
  induction order generalizing ms with
  | nil =>
    cases order'
    rfl
  | cons _ _ inside_ih next_ih =>
    cases order' with
    | cons inside next => rw [inside_ih inside, next_ih next]

theorem preorder_flatMap {below : NodeId → List NodeId} (inside : ∀ c ∈ cs, f.Preorder (f.children c) (below c)) :
    f.Preorder cs (cs.flatMap fun c => c :: below c) := by
  induction cs with
  | nil => exact .nil
  | cons c cs ih => exact .cons (inside c List.mem_cons_self) (ih fun d hd => inside d (List.mem_cons_of_mem _ hd))

theorem Linked.preorder_offspringWithin (h : f.Linked) (straight : f.Straight n) (deep : f.size ≤ k + f.depth n) :
    f.Preorder (f.children n) (f.offspringWithin k n) := by
  -- `k` steps down and the depth of `n` together reach below every node
  induction k generalizing n with
  | zero =>
    rw [h.children_of_deep straight (by omega)]
    exact .nil
  | succ k ih =>
    apply preorder_flatMap
    intro c hc
    have under := h.agree.1 hc
    have deeper := h.depth_of_under straight under
    exact ih (straight.of_under under) (by omega)

theorem Linked.preorder_iff (h : f.Linked) (straight : f.Straight n) :
    f.Preorder (f.children n) ns ↔ ns = f.offspring n := by
  have order : f.Preorder (f.children n) (f.offspring n) := h.preorder_offspringWithin straight (Nat.le_add_right _ _)
  constructor
  · exact order.unique
  · rintro rfl
    exact order

def Meant (f : Forest) (s : Selector) (c : NodeId) : Prop :=
  ∃ tag attributes value, f.content c = .element tag attributes value ∧ s.accepts tag attributes = true

theorem matched_iff : (f.content c).matched s = true ↔ f.Meant s c := by
  constructor
  · intro matched
    cases content : f.content c with
    | element tag attributes value =>
      rw [content] at matched
      exact ⟨tag, attributes, value, content, matched⟩
    | _ =>
      rw [content] at matched
      cases matched
  · rintro ⟨tag, attributes, value, content, accepted⟩
    rw [content]
    exact accepted

instance (f : Forest) (s : Selector) (c : NodeId) : Decidable (f.Meant s c) :=
  decidable_of_iff ((f.content c).matched s = true) matched_iff

theorem find_eq_some_iff : f.find? s n = some c ↔
    ∃ before after, f.offspring n = before ++ c :: after ∧ f.Meant s c ∧ ∀ b ∈ before, ¬ f.Meant s b := by
  rw [find?, findWithin_eq, List.find?_eq_some_iff_append]
  simp only [Bool.not_eq_true', ← Bool.not_eq_true, matched_iff]
  constructor
  · rintro ⟨meant, before, after, split, passed⟩
    exact ⟨before, after, split, meant, passed⟩
  · rintro ⟨before, after, split, meant, passed⟩
    exact ⟨meant, before, after, split, passed⟩

theorem find_eq_none_iff : f.find? s n = none ↔ ∀ c ∈ f.offspring n, ¬ f.Meant s c := by
  rw [find?, findWithin_eq, List.find?_eq_none]
  simp only [matched_iff]
  rfl

theorem query_of_parsed {text : String} (parsed : Selector.parse text = .ok s) : f.query? n text = f.find? s n := by
  rw [query?, Selector.parse_eq_ok_iff.1 parsed, Option.bind_some]

theorem query_of_refused {text : String} {err : DocumentError} (refused : Selector.parse text = .error err) :
    f.query? n text = none := by
  rw [query?, (Selector.parse_eq_error_iff.1 refused).1, Option.bind_none]

/-- What is below a node stands in one document order. A search finds the element that is meant and has no other such
element before it, and it finds nothing if and only if none is meant. A selector text finds what its selector finds,
and a text that is no selector finds nothing. -/
theorem found_first (linked : f.Linked) (straight : f.Straight n) :
    ∃ ns, (∀ ms, f.Preorder (f.children n) ms ↔ ms = ns) ∧ (∀ c, c ∈ ns ↔ f.Below c n) ∧ ns.Nodup ∧
      (∀ s c, f.find? s n = some c ↔
        ∃ before after, ns = before ++ c :: after ∧ f.Meant s c ∧ ∀ b ∈ before, ¬ f.Meant s b) ∧
      (∀ s, f.find? s n = none ↔ ∀ c ∈ ns, ¬ f.Meant s c) ∧
      ∀ text, (∀ s, Selector.parse text = .ok s → f.query? n text = f.find? s n) ∧
        ∀ err, Selector.parse text = .error err → f.query? n text = none := by
  refine ⟨f.offspring n, fun ms => linked.preorder_iff straight, fun c => linked.mem_offspring straight,
    linked.nodup_offspringWithin straight _, fun s c => find_eq_some_iff, fun s => find_eq_none_iff, fun text => ?_⟩
  constructor
  · exact fun s parsed => query_of_parsed parsed
  · exact fun err refused => query_of_refused refused

/-- An element below the first child of an element stands before the second child. -/
def ordering : Scene where
  before := []
  markup := "<div class=x><p>x<b class='w x'></b></p><i class=x></i></div>"
  later := []

def ordered : Forest := ordering.ended.graph.forest

theorem ordered_found_first :
    ordered.Linked ∧ ordered.Straight ⟨1⟩ ∧ ordered.children ⟨1⟩ = [⟨2⟩, ⟨5⟩] ∧ ordered.Below ⟨4⟩ ⟨2⟩ ∧
      ∃ s, Selector.parse ".x" = .ok s ∧ ordered.Meant s ⟨1⟩ ∧ ordered.Meant s ⟨5⟩ ∧
        ordered.query? ⟨1⟩ ".x" = some ⟨4⟩ ∧ ordered.query? ⟨1⟩ "i .x" = none := by
  obtain ⟨linked, acyclic⟩ : ordered.Linked ∧ ordered.Acyclic := linked_of_plays (by decide +kernel)
  have straight := acyclic.straight ⟨1⟩
  have parsed : Selector.parse ".x" = .ok { classes := ["x"] } := by decide +kernel
  have order : ordered.Preorder (ordered.children ⟨1⟩) [⟨2⟩, ⟨3⟩, ⟨4⟩, ⟨5⟩] :=
    (linked.preorder_iff straight).2 (by decide +kernel)
  obtain ⟨ns, only, -, -, found, -, texts⟩ := found_first linked straight
  obtain rfl := (only _).1 order
  refine ⟨linked, straight, by decide +kernel, .single (by decide +kernel), _, parsed, by decide +kernel,
    by decide +kernel, ?_, (texts "i .x").2 (.invalidSelector "i .x") (by decide +kernel)⟩
  rw [(texts ".x").1 _ parsed]
  exact (found _ _).2 ⟨[⟨2⟩, ⟨3⟩], [⟨5⟩], rfl, by decide +kernel, by decide +kernel⟩

end DataBinding.Forest
