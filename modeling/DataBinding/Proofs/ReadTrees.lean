import DataBinding.Proofs.MarkupRoundTrip

namespace DataBinding.Markup

mutual

def Tree.Filled : Tree → Prop
  | .text content => content ≠ ""
  | .element _ _ children => FilledAll children

def FilledAll : List Tree → Prop
  | [] => True
  | tree :: rest => tree.Filled ∧ FilledAll rest

end

theorem soundAll_iff (trees : List Tree) : SoundAll trees ↔ ∀ tree ∈ trees, tree.Sound := by
  induction trees with
  | nil => simp [SoundAll]
  | cons tree rest ih => simp [SoundAll, ih]

theorem filledAll_iff (trees : List Tree) : FilledAll trees ↔ ∀ tree ∈ trees, tree.Filled := by
  induction trees with
  | nil => simp [FilledAll]
  | cons tree rest ih => simp [FilledAll, ih]

def Token.Readable : Token → Prop
  | .start tag attributes closed => isTag tag = true ∧ Attributes attributes ∧ (isVoid tag = true → closed = true)
  | .text content => content ≠ ""
  | .comment | .close _ _ => True

theorem unescape_ne_nil (c : Char) (cs : List Char) : unescape (c :: cs) ≠ [] := by
  unfold unescape
  split <;> simp_all

theorem isLower_toLower {c : Char} (h : c.isAlpha = true) : c.toLower.isLower = true := by
  cases capital : c.isUpper with
  | true =>
    have bounds : 65 ≤ c.val ∧ c.val ≤ 90 := of_decide_eq_true capital
    have lowered : c.toLower.val = c.val + 32 := congrArg Char.val (dif_pos bounds)
    rw [UInt32.le_iff_toNat_le, UInt32.le_iff_toNat_le] at bounds
    refine Bool.and_eq_true_iff.2 ⟨decide_eq_true ?_, decide_eq_true ?_⟩
    all_goals
      rw [lowered]
      simp [UInt32.le_iff_toNat_le, UInt32.toNat_add] at bounds ⊢
      omega
  | false =>
    rw [toLower_of_not_isUpper capital]
    exact (Bool.or_eq_true_iff.1 h).resolve_left (by rw [capital]; exact Bool.false_ne_true)

theorem isUpper_toLower (c : Char) : c.toLower.isUpper = false := by
  cases capital : c.isUpper with
  | true => exact not_isUpper_of_isLower (isLower_toLower (Bool.or_eq_true_iff.2 (.inl capital)))
  | false => rwa [toLower_of_not_isUpper capital]

theorem isTagChar_toLower {c : Char} (h : isTagChar c = true) : isTagChar c.toLower = true := by
  cases capital : c.isUpper with
  | true =>
    have small : c.toLower.isLower = true := isLower_toLower (Bool.or_eq_true_iff.2 (.inl capital))
    have letter : c.toLower.isAlpha = true := Bool.or_eq_true_iff.2 (.inr small)
    simp [isTagChar, Char.isAlphanum, letter]
  | false => rwa [toLower_of_not_isUpper capital]

theorem of_mem_takeWhile {p : Char → Bool} {cs : List Char} {c : Char} (h : c ∈ cs.takeWhile p) : p c = true :=
  List.all_eq_true.1 List.all_takeWhile c h

theorem isTag_tagName {c : Char} (h : c.isAlpha = true) (cs : List Char) : isTag (tagName (c :: cs)).1 = true := by
  have tagged : isTagChar c = true := by simp [isTagChar, Char.isAlphanum, h]
  rw [tagName, isTag, String.toList_ofList, List.takeWhile_cons_of_pos tagged, Text.lower, List.map_cons]
  simp only [isLower_toLower h, Bool.true_and, List.all_map, List.all_eq_true]
  intro d hd
  exact Bool.and_eq_true_iff.2 ⟨isTagChar_toLower (of_mem_takeWhile hd), by rw [isUpper_toLower]; rfl⟩

theorem Attributes.set {found : Fields String} {name : String} (value : String) (h : Attributes found)
    (readable : isAttributeName name = true) : Attributes (found.set name value) := by
  rw [Attributes, Fields.names_set]
  split
  · exact h
  · next fresh =>
    constructor
    · intro n hn
      rcases List.mem_append.1 hn with old | new
      · exact h.1 n old
      · rwa [List.mem_singleton.1 new]
    · rw [List.nodup_append]
      exact ⟨h.2, by simp, fun n hn m hm => by rintro rfl; exact fresh (List.mem_singleton.1 hm ▸ hn)⟩

theorem Attributes.erase {found : Fields String} (h : Attributes found) (name : String) :
    Attributes (found.erase name) := by
  have kept : (Fields.erase name found).names.Sublist found.names := List.filter_sublist.map _
  exact ⟨fun n hn => h.1 n (kept.subset hn), kept.nodup h.2⟩

theorem attributes_readable {tag : String} {found out : Fields String} {cs rest : List Char} {closed : Bool}
    (h : attributes tag found cs = .ok (out, closed, rest)) (readable : Attributes found) : Attributes out := by
  fun_induction attributes tag found cs with
  | case1 => cases h
  | case2 => cases h; exact readable
  | case3 => cases h; exact readable
  | case4 => cases h
  | case5 found cs c r _ _ hs hc v r' hv ih =>
    apply ih h
    apply readable.set
    simp only [isAttributeName, String.toList_ofList, List.all_cons, hc, Bool.true_and, Bool.and_eq_true]
    exact ⟨by simp, List.all_takeWhile⟩
  | case6 found cs c r _ _ hs _ ih => exact ih h readable

theorem exists_of_startsTag {c : Char} {cs : List Char} (h : startsTag (c :: cs) = true) :
    ∃ d ds, cs = d :: ds ∧ d.isAlpha = true := by
  unfold startsTag at h
  split at h
  · next same =>
    cases same
    exact ⟨_, _, rfl, h⟩
  · cases h

theorem readable_start {c : Char} {cs rest : List Char} {token : Token} (h : start (c :: cs) = .ok (token, rest))
    (letter : c.isAlpha = true) : token.Readable := by
  simp only [start] at h
  split at h
  · next found =>
    cases h
    have none : Attributes [] := by decide
    exact ⟨isTag_tagName letter cs, attributes_readable found none, fun void => by simp [void]⟩
  · cases h

theorem readable_next {c : Char} {cs rest : List Char} {token : Token} (h : next c cs = .ok (token, rest)) :
    token.Readable := by
  unfold next at h
  split at h
  · unfold comment at h
    split at h <;> cases h
    trivial
  split at h
  · simp only [close] at h
    split at h <;> cases h
    trivial
  split at h
  · next starts =>
    obtain ⟨d, cs, rfl, letter⟩ := exists_of_startsTag starts
    exact readable_start h letter
  · cases h
    simp [Token.Readable, unescape_ne_nil]

theorem readable_of_mem_tokens {cs : List Char} : ∀ token ∈ (tokens cs).1, token.Readable := by
  fun_induction tokens cs with
  | case1 => simp
  | case2 => simp
  | case3 c cs token rest h ih =>
    rintro t (_ | ⟨_, ht⟩)
    · exact readable_next h
    · exact ih t ht

structure Opened.Fit (o : Opened) : Prop where
  named : isTag o.tag = true
  readable : Attributes o.attributes
  solid : isVoid o.tag = false
  before : ∀ tree ∈ o.before, tree.Sound ∧ tree.Filled

structure Nesting.Fit (n : Nesting) : Prop where
  opened : ∀ o ∈ n.opened, o.Fit
  children : ∀ tree ∈ n.children, tree.Sound ∧ tree.Filled

theorem Opened.Fit.close {o : Opened} {children : List Tree} (h : o.Fit)
    (below : ∀ tree ∈ children, tree.Sound ∧ tree.Filled) :
    ∀ tree ∈ .element o.tag o.attributes children.reverse :: o.before, tree.Sound ∧ tree.Filled := by
  rintro tree (_ | ⟨_, ht⟩)
  · rw [Tree.Sound, Tree.Filled, soundAll_iff, filledAll_iff]
    simp only [List.mem_reverse]
    refine ⟨⟨h.named, h.readable, fun void => ?_, fun t ht => (below t ht).1⟩, fun t ht => (below t ht).2⟩
    rw [h.solid] at void
    cases void
  · exact h.before tree ht

theorem fit_leave? {tag : String} {opened : List Opened} {children : List Tree} {n : Nesting}
    (h : Nesting.leave? tag opened children = some n) (fit : Nesting.Fit ⟨opened, children⟩) : n.Fit := by
  induction opened generalizing children with
  | nil => cases h
  | cons o opened ih =>
    have parent := (fit.opened o List.mem_cons_self).close fit.children
    have outer : ∀ o ∈ opened, o.Fit := fun o ho => fit.opened o (List.mem_cons_of_mem _ ho)
    rw [Nesting.leave?] at h
    split at h
    · cases h
      exact ⟨outer, parent⟩
    · exact ih h ⟨outer, parent⟩

theorem fit_take {n n' : Nesting} {token : Token} (h : n.take token = .ok n') (readable : token.Readable)
    (fit : n.Fit) : n'.Fit := by
  cases token with
  | comment => cases h; exact fit
  | text content =>
    cases h
    refine ⟨fit.opened, ?_⟩
    rintro tree (_ | ⟨_, ht⟩)
    · exact ⟨by rw [Tree.Sound]; trivial, by rw [Tree.Filled]; exact readable⟩
    · exact fit.children tree ht
  | start tag attributes closed =>
    obtain ⟨named, names, void⟩ := readable
    rw [Nesting.take] at h
    cases h
    split
    · refine ⟨fit.opened, ?_⟩
      rintro tree (_ | ⟨_, ht⟩)
      · simp [Tree.Sound, Tree.Filled, SoundAll, FilledAll, named, names]
      · exact fit.children tree ht
    · next opens =>
      refine ⟨?_, by simp [Nesting.enter]⟩
      rintro o (_ | ⟨_, ho⟩)
      · exact ⟨named, names, by simpa using mt void opens, fit.children⟩
      · exact fit.opened o ho
  | close tag rest =>
    rw [Nesting.take] at h
    split at h
    · next left =>
      cases h
      exact fit_leave? left fit
    · cases h

theorem fit_ofTokens {tokens : List Token} {n n' : Nesting} (h : ofTokens n tokens = .ok n')
    (readable : ∀ token ∈ tokens, token.Readable) (fit : n.Fit) : n'.Fit := by
  induction tokens generalizing n with
  | nil => cases h; exact fit
  | cons token rest ih =>
    rw [ofTokens] at h
    split at h
    · next taken =>
      exact ih h (fun t ht => readable t (List.mem_cons_of_mem _ ht))
        (fit_take taken (readable token List.mem_cons_self) fit)
    · cases h

theorem fit_finish {opened : List Opened} {children : List Tree} (fit : Nesting.Fit ⟨opened, children⟩) :
    ∀ tree ∈ Nesting.finish opened children, tree.Sound ∧ tree.Filled := by
  induction opened generalizing children with
  | nil =>
    intro tree ht
    exact fit.children tree (List.mem_reverse.1 ht)
  | cons o opened ih =>
    have parent := (fit.opened o List.mem_cons_self).close fit.children
    exact ih ⟨fun o ho => fit.opened o (List.mem_cons_of_mem _ ho), parent⟩

theorem exists_of_read {text : String} {trees : List Tree} (h : read text = .ok trees) :
    ∃ n, (tokens text.toList).2 = none ∧ ofTokens .empty (tokens text.toList).1 = .ok n ∧
      trees = Nesting.finish n.opened n.children := by
  simp only [read] at h
  split at h
  · cases h
  · cases h
  · next taken ended =>
    cases h
    exact ⟨_, ended, taken, rfl⟩

theorem sound_of_read {text : String} {trees : List Tree} (h : read text = .ok trees) :
    SoundAll trees ∧ FilledAll trees := by
  obtain ⟨n, -, taken, rfl⟩ := exists_of_read h
  have fit := fit_ofTokens taken readable_of_mem_tokens ⟨by simp [Nesting.empty], by simp [Nesting.empty]⟩
  have proper := fit_finish fit
  exact ⟨(soundAll_iff _).2 fun t ht => (proper t ht).1, (filledAll_iff _).2 fun t ht => (proper t ht).2⟩

theorem stop_splitText (cs : List Char) : (splitText cs).2 = [] ∨ startsMarkup (splitText cs).2 = true := by
  induction cs with
  | nil => exact .inl rfl
  | cons c cs ih =>
    rw [splitText]
    split
    · next starts => exact .inr starts
    · exact ih

theorem splitText_of_next {c : Char} {cs rest : List Char} {content : String}
    (h : next c cs = .ok (.text content, rest)) :
    startsMarkup (c :: cs) = false ∧ rest = (splitText cs).2 := by
  unfold next at h
  split at h
  · unfold comment at h
    split at h <;> cases h
  split at h
  · simp only [close] at h
    split at h <;> cases h
  split at h
  · simp only [start] at h
    split at h <;> cases h
  · next noComment noClose noTag =>
    cases h
    simp [startsMarkup, noComment, noClose, noTag]

theorem not_infix_tokens (cs : List Char) (a b : String) : ¬ [.text a, .text b] <:+: (tokens cs).1 := by
  fun_induction tokens cs with
  | case1 => simp
  | case2 => simp
  | case3 c cs token rest h ih =>
    rw [List.infix_cons_iff, not_or]
    refine ⟨?_, ih⟩
    intro starts
    obtain ⟨rfl, follows⟩ := List.cons_prefix_cons.1 starts
    obtain ⟨-, rfl⟩ := splitText_of_next h
    have stop := stop_splitText cs
    generalize (splitText cs).2 = rest at follows stop
    cases rest with
    | nil => simp [tokens] at follows
    | cons d ds =>
      rw [tokens] at follows
      split at follows
      · simp at follows
      · next second =>
        obtain ⟨rfl, -⟩ := List.cons_prefix_cons.1 follows
        simp [(splitText_of_next second).1] at stop

def putText (content : String) (rest : List Token) : List Token :=
  if content.isEmpty then rest else .text content :: rest

def joinTexts (pending : String) : List Token → List Token
  | [] => putText pending []
  | .comment :: rest => joinTexts pending rest
  | .text content :: rest => joinTexts (pending ++ content) rest
  | token :: rest => putText pending (token :: joinTexts "" rest)

def flush (content : String) (trees : List Tree) : List Tree :=
  if content.isEmpty then trees else .text content :: trees

def gather : List Tree → String × List Tree
  | [] => ("", [])
  | .text content :: rest => ((gather rest).1 ++ content, (gather rest).2)
  | .element tag attributes children :: rest =>
    ("", .element tag attributes (mergedAll children) :: flush (gather rest).1 (gather rest).2)

theorem mergedAll_reverse_append (trees more : List Tree) :
    mergedAll (trees.reverse ++ more) = (gather trees).2.reverse ++ joinText (gather trees).1 (mergedAll more) := by
  induction trees generalizing more with
  | nil => rw [gather, joinText_empty]; rfl
  | cons tree rest ih =>
    rw [List.reverse_cons, List.append_assoc, List.singleton_append, ih]
    cases tree with
    | text content => rw [mergedAll, joinText_joinText, gather]
    | element tag attributes children =>
      by_cases h : (gather rest).1 = ""
      · simp [mergedAll, gather, flush, h]
      · simp [mergedAll, gather, flush, h]
        simp [joinText, h]

def rejoin (trees : List Tree) : List Tree := flush (gather trees).1 (gather trees).2

theorem mergedAll_reverse (trees : List Tree) : mergedAll trees.reverse = (rejoin trees).reverse := by
  have parts := mergedAll_reverse_append trees []
  rw [List.append_nil, mergedAll] at parts
  rw [parts, rejoin, flush, joinText]
  · split <;> simp
  · simp

def Opened.joined (o : Opened) : Opened := { o with before := rejoin o.before }

def Nesting.joined (n : Nesting) : Nesting := ⟨n.opened.map Opened.joined, rejoin n.children⟩

def Nesting.cut (n : Nesting) : Nesting := ⟨n.opened.map Opened.joined, (gather n.children).2⟩

theorem ofTokens_cut (n : Nesting) (rest : List Token) :
    ofTokens n.cut (putText (gather n.children).1 rest) = ofTokens n.joined rest := by
  rw [Nesting.joined, rejoin, flush, putText]
  split <;> rfl

theorem rejoin_element (tag : String) (attributes : Fields String) (children before : List Tree) :
    rejoin (.element tag attributes children.reverse :: before) =
      .element tag attributes (rejoin children).reverse :: rejoin before := by
  rw [rejoin, gather, mergedAll_reverse]
  rfl

theorem leave?_joined (tag : String) (opened : List Opened) (children : List Tree) :
    Nesting.leave? tag (opened.map Opened.joined) (rejoin children) =
      (Nesting.leave? tag opened children).map Nesting.joined := by
  induction opened generalizing children with
  | nil => rfl
  | cons o opened ih =>
    have outer := ih (.element o.tag o.attributes children.reverse :: o.before)
    rw [rejoin_element] at outer
    rw [List.map_cons, Nesting.leave?, Nesting.leave?]
    by_cases h : o.tag = tag
    · simp [Opened.joined, h, Nesting.joined, rejoin_element]
    · simpa [Opened.joined, h] using outer

theorem gather_leave? {tag : String} {opened : List Opened} {children : List Tree} {n : Nesting}
    (h : Nesting.leave? tag opened children = some n) : (gather n.children).1 = "" := by
  induction opened generalizing children with
  | nil => cases h
  | cons o opened ih =>
    rw [Nesting.leave?] at h
    split at h
    · cases h
      rfl
    · exact ih h

theorem joined_of_gather {n : Nesting} (h : (gather n.children).1 = "") : n.joined = n.cut := by
  rw [Nesting.joined, rejoin, h]
  rfl

theorem take_joined {n n' : Nesting} {token : Token} (h : n.take token = .ok n') (notComment : token ≠ .comment)
    (notText : ∀ content, token ≠ .text content) :
    n.joined.take token = .ok n'.cut ∧ (gather n'.children).1 = "" := by
  cases token with
  | comment => exact absurd rfl notComment
  | text content => exact absurd rfl (notText content)
  | start tag attributes closed =>
    cases h
    cases closed with
    | true =>
      have alone : (gather (n.add (.element tag attributes [])).children).1 = "" := rfl
      refine ⟨?_, alone⟩
      have kept := rejoin_element tag attributes [] n.children
      rw [if_pos rfl, ← joined_of_gather alone, Nesting.joined, Nesting.add]
      exact congrArg (fun trees => Except.ok (Nesting.mk (n.opened.map Opened.joined) trees)) kept.symm
    | false => exact ⟨rfl, rfl⟩
  | close tag after =>
    rw [Nesting.take] at h
    split at h
    · next left =>
      cases h
      have ended := gather_leave? left
      rw [Nesting.take, Nesting.joined, leave?_joined, left]
      exact ⟨congrArg Except.ok (joined_of_gather ended), ended⟩
    · cases h

theorem ofTokens_joinTexts {tokens : List Token} {n n' : Nesting} (h : ofTokens n tokens = .ok n') :
    ofTokens n.cut (joinTexts (gather n.children).1 tokens) = .ok n'.joined := by
  induction tokens generalizing n with
  | nil =>
    cases h
    rw [joinTexts, ofTokens_cut]
    rfl
  | cons token rest ih =>
    rw [ofTokens] at h
    split at h
    · next n₁ taken =>
      have later := ih h
      -- only a tag ends the text that is going on
      unfold joinTexts
      split
      · next same => cases same
      · next same =>
        cases same
        cases taken
        exact later
      · next same =>
        cases same
        cases taken
        exact later
      · next notComment notText same =>
        cases same
        obtain ⟨taken', ended⟩ := take_joined taken notComment notText
        rw [ended] at later
        rw [ofTokens_cut, ofTokens, taken']
        exact later
    · cases h

theorem finish_joined (opened : List Opened) (children : List Tree) :
    Nesting.finish (opened.map Opened.joined) (rejoin children) = mergedAll (Nesting.finish opened children) := by
  induction opened generalizing children with
  | nil => rw [List.map_nil, Nesting.finish, Nesting.finish, mergedAll_reverse]
  | cons o opened ih =>
    have outer := ih (.element o.tag o.attributes children.reverse :: o.before)
    rw [rejoin_element] at outer
    exact outer

theorem ofTokens_of_read {text : String} {trees : List Tree} (h : read text = .ok trees) :
    ∃ n, ofTokens .empty (joinTexts "" (tokens text.toList).1) = .ok n ∧
      Nesting.finish n.opened n.children = mergedAll trees := by
  obtain ⟨n, -, taken, rfl⟩ := exists_of_read h
  exact ⟨n.joined, ofTokens_joinTexts taken, finish_joined n.opened n.children⟩

end DataBinding.Markup
