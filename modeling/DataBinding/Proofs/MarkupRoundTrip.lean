import DataBinding.Markup.Reader

namespace DataBinding.Markup

def isTag (tag : String) : Bool :=
  match tag.toList with
  | [] => false
  | c :: cs => c.isLower && cs.all fun c => isTagChar c && !c.isUpper

def isAttributeName (name : String) : Bool := !name.isEmpty && name.toList.all isAttributeChar

def Attributes (attributes : Fields String) : Prop :=
  (∀ name ∈ attributes.names, isAttributeName name = true) ∧ attributes.names.Nodup

mutual

def Tree.Sound : Tree → Prop
  | .text _ => True
  | .element tag attributes children =>
    isTag tag = true ∧ Attributes attributes ∧ (isVoid tag = true → children = []) ∧ SoundAll children

def SoundAll : List Tree → Prop
  | [] => True
  | tree :: rest => tree.Sound ∧ SoundAll rest

end

instance (attributes : Fields String) : Decidable (Attributes attributes) :=
  inferInstanceAs (Decidable (_ ∧ _))

mutual

def Tree.decideSound : (tree : Tree) → Decidable tree.Sound
  | .text _ => isTrue (by rw [Tree.Sound]; trivial)
  | .element tag attributes children =>
    have := decideSoundAll children
    decidable_of_iff (isTag tag = true ∧ Attributes attributes ∧ (isVoid tag = true → children = []) ∧
      SoundAll children) (by rw [Tree.Sound])

def decideSoundAll : (trees : List Tree) → Decidable (SoundAll trees)
  | [] => isTrue (by rw [SoundAll]; trivial)
  | tree :: rest =>
    have := tree.decideSound
    have := decideSoundAll rest
    decidable_of_iff (tree.Sound ∧ SoundAll rest) (by rw [SoundAll])

end

instance (trees : List Tree) : Decidable (SoundAll trees) := decideSoundAll trees

/-- Puts a text before trees, joined to a text that they start with. An empty text is left out. -/
def joinText (content : String) : List Tree → List Tree
  | .text next :: rest => .text (content ++ next) :: rest
  | trees => if content.isEmpty then trees else .text content :: trees

mutual

def Tree.merged : Tree → Tree
  | .text content => .text content
  | .element tag attributes children => .element tag attributes (mergedAll children)

def mergedAll : List Tree → List Tree
  | [] => []
  | .text content :: rest => joinText content (mergedAll rest)
  | .element tag attributes children :: rest =>
    .element tag attributes (mergedAll children) :: mergedAll rest

end

theorem unescape_cons {c : Char} (h : c ≠ '&') (cs : List Char) : unescape (c :: cs) = c :: unescape cs := by
  simp [unescape, h]

@[simp] theorem unescape_escape (inValue : Bool) (cs : List Char) : unescape (escape inValue cs) = cs := by
  induction cs with
  | nil => rfl
  | cons c cs ih =>
    rw [escape, List.flatMap_cons, ← escape]
    by_cases amp : c = '&'
    · simp [escapeChar, amp, unescape, ih]
    by_cases lt : c = '<'
    · simp [escapeChar, lt, unescape, ih]
    by_cases gt : c = '>'
    · simp [escapeChar, gt, unescape, ih]
    by_cases quote : c = '"' ∧ inValue = true
    · obtain ⟨rfl, rfl⟩ := quote
      simp [escapeChar, unescape, ih]
    simp only [escapeChar, amp, lt, gt, quote, if_false]
    rw [List.singleton_append, unescape_cons amp, ih]

@[simp] theorem escape_append (inValue : Bool) (cs ds : List Char) :
    escape inValue (cs ++ ds) = escape inValue cs ++ escape inValue ds := by
  simp [escape]

theorem escapeChar_ne_nil (inValue : Bool) (c : Char) : escapeChar inValue c ≠ [] := by
  unfold escapeChar
  split
  · simp
  split
  · simp
  split
  · simp
  split <;> simp

theorem lt_not_mem_escapeChar (inValue : Bool) (c : Char) : '<' ∉ escapeChar inValue c := by
  unfold escapeChar
  split
  · simp
  split
  · simp
  split
  · simp
  split
  · simp
  · next lt _ _ => simp [Ne.symm lt]

theorem quote_not_mem_escapeChar (c : Char) : '"' ∉ escapeChar true c := by
  unfold escapeChar
  split
  · simp
  split
  · simp
  split
  · simp
  split
  · simp
  · next quote => simpa [eq_comm] using quote

theorem escape_ne_nil {cs : List Char} (inValue : Bool) (h : cs ≠ []) : escape inValue cs ≠ [] := by
  obtain ⟨c, cs, rfl⟩ := List.exists_cons_of_ne_nil h
  simp [escape, escapeChar_ne_nil]

theorem lt_not_mem_escape (inValue : Bool) (cs : List Char) : '<' ∉ escape inValue cs := by
  simp [escape, lt_not_mem_escapeChar]

theorem quote_not_mem_escape (cs : List Char) : '"' ∉ escape true cs := by
  simp [escape, quote_not_mem_escapeChar]

theorem renderAll_joinText (content : String) (trees : List Tree) :
    renderAll (joinText content trees) = escape false content.toList ++ renderAll trees := by
  unfold joinText
  split
  · simp [renderAll, Tree.render]
  · split
    · next h => rw [String.isEmpty_iff.1 h]; rfl
    · rfl

mutual

theorem render_merged : (tree : Tree) → tree.merged.render = tree.render
  | .text _ => rfl
  | .element tag attributes children => by
    simp only [Tree.merged, Tree.render, renderAll_mergedAll children]

theorem renderAll_mergedAll : (trees : List Tree) → renderAll (mergedAll trees) = renderAll trees
  | [] => by rw [mergedAll]
  | .text content :: rest => by
    rw [mergedAll, renderAll_joinText, renderAll_mergedAll rest]
    rfl
  | .element tag attributes children :: rest => by
    rw [mergedAll, renderAll, renderAll, renderAll_mergedAll rest]
    congr 1
    exact render_merged (.element tag attributes children)

end

theorem startsMarkup_of_ne {c : Char} (h : c ≠ '<') (cs : List Char) : startsMarkup (c :: cs) = false := by
  simp [startsMarkup, startsComment, startsClose, startsTag, h]

theorem splitText_append {cs rest : List Char} (h : '<' ∉ cs) (stop : rest = [] ∨ startsMarkup rest = true) :
    splitText (cs ++ rest) = (cs, rest) := by
  induction cs with
  | nil =>
    rcases stop with rfl | stop
    · rfl
    · cases rest with
      | nil => rfl
      | cons c rest => simp [splitText, stop]
  | cons c cs ih =>
    simp only [List.mem_cons, not_or] at h
    rw [List.cons_append, splitText, startsMarkup_of_ne (Ne.symm h.1), ih h.2]
    rfl

theorem next_text {c : Char} (h : c ≠ '<') (cs : List Char) :
    next c cs = .ok (.text (String.ofList (unescape (c :: (splitText cs).1))), (splitText cs).2) := by
  simp [next, startsComment, startsClose, startsTag, h]

theorem tokens_of_next {c : Char} {cs rest : List Char} {token : Token} (h : next c cs = .ok (token, rest)) :
    tokens (c :: cs) = (token :: (tokens rest).1, (tokens rest).2) := by
  rw [tokens]
  split <;> simp_all

def Nesting.readOn (n : Nesting) (cs : List Char) : Except Stop Nesting × Option Stop :=
  (ofTokens n (tokens cs).1, (tokens cs).2)

theorem readOn_of_next {n n' : Nesting} {c : Char} {cs rest : List Char} {token : Token}
    (h : next c cs = .ok (token, rest)) (taken : n.take token = .ok n') :
    n.readOn (c :: cs) = n'.readOn rest := by
  simp [Nesting.readOn, tokens_of_next h, ofTokens, taken]

theorem readOn_text {content : String} (n : Nesting) {rest : List Char} (h : content ≠ "")
    (stop : rest = [] ∨ startsMarkup rest = true) :
    n.readOn (escape false content.toList ++ rest) = (n.add (.text content)).readOn rest := by
  have filled : escape false content.toList ≠ [] := escape_ne_nil false (by simpa using h)
  obtain ⟨c, cs, written⟩ := List.exists_cons_of_ne_nil filled
  have plain := lt_not_mem_escape false content.toList
  rw [written, List.mem_cons, not_or] at plain
  have token := next_text (Ne.symm plain.1) (cs ++ rest)
  rw [splitText_append plain.2 stop, ← written, unescape_escape, String.ofList_toList] at token
  rw [written]
  exact readOn_of_next token rfl

theorem skipSpace_of_not {c : Char} (h : isSpace c = false) (cs : List Char) :
    skipSpace (c :: cs) = c :: cs := by
  simp [skipSpace, h]

@[simp] theorem skipSpace_blank (cs : List Char) : skipSpace (' ' :: cs) = skipSpace cs := rfl

@[simp] theorem skipSpace_skipSpace (cs : List Char) : skipSpace (skipSpace cs) = skipSpace cs := by
  induction cs with
  | nil => rfl
  | cons c cs ih =>
    cases h : isSpace c with
    | true => simpa [skipSpace, h] using ih
    | false => rw [skipSpace_of_not h, skipSpace_of_not h]

theorem takeWhile_append_stop {p : Char → Bool} {cs rest : List Char} (h : cs.all p = true)
    (stop : ∀ c ∈ rest.head?, p c = false) :
    (cs ++ rest).takeWhile p = cs ∧ (cs ++ rest).dropWhile p = rest := by
  induction cs with
  | nil => cases rest <;> simp_all
  | cons c cs ih => simp_all

theorem cut?_quote {cs rest : List Char} (h : '"' ∉ cs) :
    Text.cut? ['"'] (cs ++ '"' :: rest) = some (cs, rest) := by
  induction cs with
  | nil => simp [Text.cut?, Text.after?]
  | cons c cs ih =>
    simp only [List.mem_cons, not_or] at h
    simp [Text.cut?, Text.after?, h.1, ih h.2]

theorem value_quoted (value : String) (rest : List Char) :
    Markup.value ('"' :: escape true value.toList ++ '"' :: rest) = .ok (value.toList, rest) := by
  rw [List.cons_append, Markup.value]
  simp [cut?_quote (quote_not_mem_escape _)]

theorem attributes_of_end {tag : String} {found : Fields String} {cs rest : List Char}
    (h : skipSpace cs = '>' :: rest) : attributes tag found cs = .ok (found, false, rest) := by
  rw [attributes]
  split <;> simp_all

theorem attributes_of_name {tag : String} {found : Fields String} {c : Char} {cs rest rest' v : List Char}
    (h : skipSpace cs = c :: rest) (hc : isAttributeChar c = true)
    (hv : valueAfterName (rest.dropWhile isAttributeChar) = .ok (v, rest')) :
    attributes tag found cs =
      attributes tag (found.set (String.ofList (c :: rest.takeWhile isAttributeChar)) (String.ofList v)) rest' := by
  rw [attributes]
  split
  · next hs =>
    rw [h] at hs
    cases hs
  · next hs =>
    rw [h] at hs
    cases hs
    simp [isAttributeChar] at hc
  · next hs =>
    rw [h] at hs
    cases hs
    simp [isAttributeChar] at hc
  · next hs =>
    rw [h] at hs
    cases hs
    rw [if_pos hc]
    split
    · next found =>
      rw [hv] at found
      cases found
    · next found =>
      rw [hv] at found
      cases found
      rfl

theorem Attributes.cons {name value : String} {rest : Fields String} (h : Attributes ((name, value) :: rest)) :
    isAttributeName name = true ∧ name ∉ rest.names ∧ Attributes rest := by
  obtain ⟨readable, once⟩ := h
  simp only [Fields.names, List.map_cons, List.nodup_cons] at readable once
  exact ⟨readable _ List.mem_cons_self, once.1, fun n hn => readable n (List.mem_cons_of_mem _ hn), once.2⟩

theorem Attributes.after {name value : String} {found rest : Fields String}
    (h : Attributes (found ++ (name, value) :: rest)) :
    isAttributeName name = true ∧ name ∉ found.names ∧ Attributes rest := by
  obtain ⟨readable, once⟩ := h
  rw [Fields.names, List.map_append] at readable once
  rw [List.nodup_append] at once
  have last : Attributes ((name, value) :: rest) :=
    ⟨fun n hn => readable n (List.mem_append_right _ hn), once.2.1⟩
  refine ⟨last.cons.1, ?_, last.cons.2.2⟩
  intro mem
  exact once.2.2 name mem name (by simp) rfl

theorem exists_of_isAttributeName {name : String} (h : isAttributeName name = true) :
    ∃ c cs, name.toList = c :: cs ∧ isAttributeChar c = true ∧ cs.all isAttributeChar = true := by
  rw [isAttributeName, Bool.and_eq_true, Bool.not_eq_true', String.isEmpty_eq_false_iff] at h
  obtain ⟨c, cs, hname⟩ := List.exists_cons_of_ne_nil (mt String.toList_eq_nil_iff.1 h.1)
  rw [hname, List.all_cons, Bool.and_eq_true] at h
  exact ⟨c, cs, hname, h.2⟩

theorem not_isSpace_of_isAttributeChar {c : Char} (h : isAttributeChar c = true) : isSpace c = false := by
  simp only [isAttributeChar, Bool.and_eq_true, Bool.not_eq_true'] at h
  exact h.1.1.1.1.1

def renderRest (attributes : Fields String) (rest : List Char) : List Char :=
  attributes.flatMap renderAttribute ++ '>' :: rest

theorem renderRest_cons (name value : String) (attributes : Fields String) (rest : List Char) :
    renderRest ((name, value) :: attributes) rest =
      ' ' :: (name.toList ++ if value.isEmpty then renderRest attributes rest
        else '=' :: '"' :: escape true value.toList ++ '"' :: renderRest attributes rest) := by
  by_cases h : value.isEmpty <;> simp [renderRest, renderAttribute, h]

theorem skipSpace_name {name : String} (h : isAttributeName name = true) (rest : List Char) :
    skipSpace (name.toList ++ rest) = name.toList ++ rest := by
  obtain ⟨c, cs, hname, hc, -⟩ := exists_of_isAttributeName h
  rw [hname, List.cons_append, skipSpace_of_not (not_isSpace_of_isAttributeChar hc)]

theorem head?_renderRest (attributes : Fields String) (rest : List Char) :
    ∀ c ∈ (renderRest attributes rest).head?, c = ' ' ∨ c = '>' := by
  cases attributes with
  | nil => simp [renderRest]
  | cons a attributes =>
    obtain ⟨name, value⟩ := a
    simp [renderRest_cons]

theorem valueAfterName_bare {attributes : Fields String} (h : Attributes attributes) (rest : List Char) :
    valueAfterName (renderRest attributes rest) = .ok ([], skipSpace (renderRest attributes rest)) := by
  have plain : ∀ cs, skipSpace (renderRest attributes rest) ≠ '=' :: cs := by
    intro cs
    cases attributes with
    | nil => simp [renderRest, skipSpace_of_not (c := '>') rfl]
    | cons a attributes =>
      obtain ⟨name, value⟩ := a
      obtain ⟨c, ds, hname, hc, -⟩ := exists_of_isAttributeName h.cons.1
      rw [renderRest_cons, skipSpace_blank, skipSpace_name h.cons.1, hname]
      rintro ⟨⟩
      simp [isAttributeChar] at hc
  unfold valueAfterName
  split
  · next hs => exact absurd hs (plain _)
  · rfl

theorem valueAfterName_quoted (value : String) (rest : List Char) :
    valueAfterName ('=' :: '"' :: escape true value.toList ++ '"' :: rest) = .ok (value.toList, rest) := by
  rw [List.cons_append, valueAfterName, skipSpace_of_not (c := '=') rfl]
  exact value_quoted value rest

theorem attributes_name {tag name value : String} {found : Fields String} {cs tail rest : List Char}
    (readable : isAttributeName name = true) (h : skipSpace cs = name.toList ++ tail)
    (stop : ∀ c ∈ tail.head?, isAttributeChar c = false)
    (hv : valueAfterName tail = .ok (value.toList, rest)) :
    attributes tag found cs = attributes tag (found.set name value) rest := by
  obtain ⟨c, ds, hname, hc, hds⟩ := exists_of_isAttributeName readable
  obtain ⟨taken, dropped⟩ := takeWhile_append_stop hds stop
  rw [hname, List.cons_append] at h
  rw [attributes_of_name h hc (by rw [dropped]; exact hv), taken, ← hname, String.ofList_toList,
    String.ofList_toList]

theorem attributes_renderRest {tag : String} {found attrs : Fields String} {cs rest : List Char}
    (h : Attributes (found ++ attrs)) (same : skipSpace cs = skipSpace (renderRest attrs rest)) :
    attributes tag found cs = .ok (found ++ attrs, false, rest) := by
  induction attrs generalizing found cs with
  | nil =>
    rw [List.append_nil]
    exact attributes_of_end same
  | cons a attrs ih =>
    obtain ⟨name, value⟩ := a
    obtain ⟨readable, fresh, others⟩ := h.after
    rw [renderRest_cons, skipSpace_blank, skipSpace_name readable] at same
    have next : ∀ {rest' : List Char}, skipSpace rest' = skipSpace (renderRest attrs rest) →
        attributes tag (found.set name value) rest' = .ok (found ++ (name, value) :: attrs, false, rest) := by
      intro rest' hrest
      rw [Fields.set_of_not_mem value fresh, ih (by rwa [List.append_assoc]) hrest, List.append_assoc]
      rfl
    split at same
    · next empty =>
      have bare : valueAfterName _ = .ok ("".toList, _) := valueAfterName_bare others rest
      rw [String.isEmpty_iff] at empty
      subst empty
      rw [attributes_name readable same ?_ bare, next (skipSpace_skipSpace _)]
      intro c hc
      rcases head?_renderRest _ _ c hc with rfl | rfl <;> rfl
    · rw [attributes_name readable same ?_ (valueAfterName_quoted value _), next rfl]
      simp [isAttributeChar]

theorem not_isUpper_of_isLower {c : Char} (h : c.isLower = true) : c.isUpper = false := by
  have small : 97 ≤ c.val := of_decide_eq_true (Bool.and_eq_true_iff.1 h).1
  exact decide_eq_false fun capital => absurd (UInt32.le_trans small capital.2) (by decide)

theorem toLower_of_not_isUpper {c : Char} (h : c.isUpper = false) : c.toLower = c :=
  dif_neg (of_decide_eq_false h)

theorem lower_of_not_isUpper {cs : List Char} (h : ∀ c ∈ cs, c.isUpper = false) : Text.lower cs = cs :=
  (List.map_congr_left fun c hc => toLower_of_not_isUpper (h c hc)).trans (List.map_id cs)

theorem exists_of_isTag {tag : String} (h : isTag tag = true) :
    ∃ c cs, tag.toList = c :: cs ∧ c.isAlpha = true ∧ tag.toList.all isTagChar = true ∧
      Text.lower tag.toList = tag.toList := by
  unfold isTag at h
  split at h
  · cases h
  · next c cs htag =>
    simp only [Bool.and_eq_true, List.all_eq_true, Bool.not_eq_true'] at h
    obtain ⟨small, others⟩ := h
    have letter : c.isAlpha = true := Bool.or_eq_true_iff.2 (.inr small)
    rw [htag]
    refine ⟨c, cs, rfl, letter, ?_, lower_of_not_isUpper ?_⟩
    · rw [List.all_cons, Bool.and_eq_true, List.all_eq_true]
      exact ⟨by simp [isTagChar, Char.isAlphanum, letter], fun d hd => (others d hd).1⟩
    · rintro d (_ | ⟨_, hd⟩)
      · exact not_isUpper_of_isLower small
      · exact (others d hd).2

theorem tagName_append {tag : String} {rest : List Char} (h : isTag tag = true)
    (stop : ∀ c ∈ rest.head?, isTagChar c = false) : tagName (tag.toList ++ rest) = (tag, rest) := by
  obtain ⟨-, -, -, -, named, small⟩ := exists_of_isTag h
  obtain ⟨taken, dropped⟩ := takeWhile_append_stop named stop
  rw [tagName, taken, dropped, small, String.ofList_toList]

theorem renderStart_append (tag : String) (attributes : Fields String) (rest : List Char) :
    renderStart tag attributes ++ rest = '<' :: (tag.toList ++ renderRest attributes rest) := by
  simp [renderStart, renderRest]

theorem next_start {tag : String} {attributes : Fields String} (rest : List Char) (h : isTag tag = true)
    (readable : Attributes attributes) :
    next '<' (tag.toList ++ renderRest attributes rest) = .ok (.start tag attributes (isVoid tag), rest) := by
  obtain ⟨c, cs, htag, letter, -, -⟩ := exists_of_isTag h
  have apart : c ≠ '!' ∧ c ≠ '/' := by
    constructor <;> rintro rfl <;> simp at letter
  have opens : next '<' (tag.toList ++ renderRest attributes rest) =
      start (tag.toList ++ renderRest attributes rest) := by
    simp [next, startsComment, startsClose, startsTag, htag, letter, apart]
  have stop : ∀ c ∈ (renderRest attributes rest).head?, isTagChar c = false := by
    intro c hc
    rcases head?_renderRest _ _ c hc with rfl | rfl <;> rfl
  have found (tag : String) : Markup.attributes tag [] _ = .ok ([] ++ attributes, false, rest) :=
    attributes_renderRest readable rfl
  simp [opens, start, tagName_append h stop, found]

theorem next_close {tag : String} (rest : List Char) (h : isTag tag = true) :
    next '<' ('/' :: (tag.toList ++ '>' :: rest)) = .ok (.close tag rest, rest) := by
  obtain ⟨c, cs, htag, letter, -, -⟩ := exists_of_isTag h
  have closes : next '<' ('/' :: (tag.toList ++ '>' :: rest)) = close (tag.toList ++ '>' :: rest) := by
    simp [next, startsComment, startsClose, htag, letter]
  rw [closes, close, tagName_append h (by simp [isTagChar])]
  simp [skipSpace_of_not (c := '>') rfl]

theorem foldl_add (trees : List Tree) (n : Nesting) :
    trees.foldl Nesting.add n = ⟨n.opened, trees.reverse ++ n.children⟩ := by
  induction trees generalizing n with
  | nil => rfl
  | cons tree trees ih =>
    rw [List.foldl_cons, ih, List.reverse_cons, List.append_assoc]
    rfl

@[simp] theorem joinText_empty (trees : List Tree) : joinText "" trees = trees := by
  unfold joinText
  split <;> simp

@[simp] theorem joinText_joinText (content next : String) (trees : List Tree) :
    joinText content (joinText next trees) = joinText (content ++ next) trees := by
  cases trees with
  | nil =>
    by_cases h : next = ""
    · subst h
      simp [joinText]
    · simp [joinText, h]
  | cons tree trees =>
    cases tree with
    | text last => simp [joinText, String.append_assoc]
    | element tag attributes children =>
      by_cases h : next = ""
      · subst h
        simp [joinText]
      · simp [joinText, h]

theorem startsMarkup_render {tag : String} (attributes : Fields String) (children : List Tree) (rest : List Char)
    (h : isTag tag = true) : startsMarkup ((Tree.element tag attributes children).render ++ rest) = true := by
  obtain ⟨c, cs, htag, letter, -, -⟩ := exists_of_isTag h
  simp [Tree.render, renderStart, htag, startsMarkup, startsTag, letter]

theorem readOn_element {tag : String} {attributes : Fields String} {children : List Tree}
    (sound : (Tree.element tag attributes children).Sound) (n : Nesting) (rest : List Char)
    (below : ∀ (n : Nesting) (rest : List Char), startsMarkup rest = true →
      n.readOn (renderAll children ++ rest) = ((mergedAll children).foldl Nesting.add n).readOn rest) :
    n.readOn ((Tree.element tag attributes children).render ++ rest) =
      (n.add (.element tag attributes (mergedAll children))).readOn rest := by
  obtain ⟨named, readable, childless, -⟩ := sound
  rw [Tree.render, List.append_assoc, renderStart_append]
  cases h : isVoid tag with
  | true =>
    rw [childless h, mergedAll, if_pos rfl, List.nil_append]
    refine readOn_of_next (next_start rest named readable) ?_
    rw [Nesting.take, h, if_pos rfl]
  | false =>
    have entered : n.take (.start tag attributes false) = .ok (n.enter tag attributes) := rfl
    have closes : startsMarkup ('<' :: '/' :: (tag.toList ++ '>' :: rest)) = true := by
      obtain ⟨c, cs, htag, letter, -, -⟩ := exists_of_isTag named
      simp [startsMarkup, startsClose, htag, letter]
    have left : ((mergedAll children).foldl Nesting.add (n.enter tag attributes)).take (.close tag rest) =
        .ok (n.add (.element tag attributes (mergedAll children))) := by
      simp [foldl_add, Nesting.take, Nesting.enter, Nesting.leave?, Nesting.add]
    rw [← h] at entered
    rw [readOn_of_next (next_start _ named readable) entered, if_neg Bool.false_ne_true]
    have written : renderAll children ++ '<' :: '/' :: tag.toList ++ ['>'] ++ rest =
        renderAll children ++ '<' :: '/' :: (tag.toList ++ '>' :: rest) := by simp
    rw [written, below _ _ closes]
    exact readOn_of_next (next_close rest named) left

theorem readOn_renderAll : (trees : List Tree) → SoundAll trees → ∀ (content : String) (n : Nesting)
    (rest : List Char), rest = [] ∨ startsMarkup rest = true →
    n.readOn (escape false content.toList ++ (renderAll trees ++ rest)) =
      ((joinText content (mergedAll trees)).foldl Nesting.add n).readOn rest
  | [], _, content, n, rest, stop => by
    rw [renderAll, mergedAll, List.nil_append]
    by_cases h : content = ""
    · subst h
      rfl
    · rw [readOn_text n h stop]
      simp [joinText, h]
  | .text next :: trees, sound, content, n, rest, stop => by
    -- neighbouring texts are read as one, whatever has been read of it already
    have ih := readOn_renderAll trees sound.2 (content ++ next) n rest stop
    rw [String.toList_append, escape_append, List.append_assoc, ← joinText_joinText] at ih
    rw [renderAll, mergedAll, Tree.render, List.append_assoc]
    exact ih
  | .element tag attributes children :: trees, sound, content, n, rest, stop => by
    have alone := fun n => readOn_element sound.1 n (renderAll trees ++ rest) fun n rest stop => by
      have ih := readOn_renderAll children sound.1.2.2.2 "" n rest (.inr stop)
      rwa [joinText_empty] at ih
    have others := fun n => readOn_renderAll trees sound.2 "" n rest stop
    simp only [joinText_empty] at others
    rw [renderAll, mergedAll, List.append_assoc]
    by_cases h : content = ""
    · subst h
      rw [joinText_empty, List.foldl_cons, ← others]
      exact alone n
    · rw [readOn_text n h (.inr (startsMarkup_render _ _ _ sound.1.1)), alone]
      simp only [joinText, String.isEmpty_iff, h, if_false, List.foldl_cons, ← others]
      rfl

theorem read_eq (text : String) (n : Nesting) (h : Nesting.empty.readOn text.toList = (.ok n, none)) :
    read text = .ok (Nesting.finish n.opened n.children) := by
  simp only [Nesting.readOn, Prod.mk.injEq] at h
  simp only [read, h.1, h.2]

theorem read_renderAll {trees : List Tree} (sound : SoundAll trees) :
    read (String.ofList (renderAll trees)) = .ok (mergedAll trees) := by
  have read := readOn_renderAll trees sound "" .empty [] (.inl rfl)
  rw [List.append_nil, joinText_empty, foldl_add] at read
  have ended : ∀ n : Nesting, n.readOn [] = (.ok n, none) := fun n => by
    rw [Nesting.readOn, tokens]
    rfl
  rw [read_eq _ _ (by rw [String.toList_ofList]; exact read.trans (ended _))]
  simp [Nesting.empty, Nesting.finish]

end DataBinding.Markup
