import DataBinding.Proofs.ByteCursor
import DataBinding.Proofs.OpenElements
import DataBinding.Proofs.TokenOutline

namespace DataBinding.Markup

structure Starting where
  node : NodeId
  name : List Char
  closed : Bool

/-- A cursor in a text, the nodes that have been made, those of them that are open, the innermost first, and the start
tag that the cursor is in. -/
structure Scanner where
  pos : Nat
  forest : Forest
  opened : List NodeId
  tag? : Option Starting := none

def changed (forest : Except DocumentError Forest) : Except Halt Forest := forest.mapError Halt.refused

namespace Scanner

section

variable (s : Scanner) (text : List Char)

def appended (forest : Forest) (n : NodeId) : Except Halt Forest :=
  match s.opened with
  | [] => throw .crash
  | p :: _ => changed (forest.append p n)

def leave? (tag : String) : Option (List NodeId) :=
  match s.opened.dropWhile fun n => (s.forest.content n).tag ≠ tag with
  | _ :: n :: outer => some (n :: outer)
  | _ => none

def close : Except Halt Scanner := do
  let (tag, pos) ← readClosingTag text s.pos
  match s.leave? tag with
  | some opened => return { s with pos := pos, opened := opened }
  | none => throw (.error (.malformed pos (.unmatchedClosingTag tag)))

def start : Except Halt Scanner := do
  let (name, pos) ← readWhile text (s.pos + 1) isTagChar
  let (n, forest) := s.forest.createElement (String.ofList name)
  return { s with pos := pos, forest := forest, tag? := some ⟨n, name, isVoid (forest.content n).tag⟩ }

def addText : Except Halt Scanner := do
  let (content, pos) ← readText text s.pos
  let (n, forest) := s.forest.create (.text (String.ofList content))
  return { s with pos := pos, forest := ← s.appended forest n }

def contentRound : Except Halt Scanner := do
  let rest ← restAt text s.pos
  if ['<', '!', '-', '-'].isPrefixOf rest then return { s with pos := ← readComment text s.pos }
  else if closesTag rest then s.close text
  else if opensTag rest then s.start text
  else s.addText text

def withValue (forest : Forest) (n : NodeId) : Except Halt Forest :=
  match (forest.content n).attributes.get? "value" with
  | some value => changed (forest.setValue n value)
  | none => return forest

def tagRound (t : Starting) : Except Halt Scanner := do
  match ← readRound text s.pos (String.ofList t.name) with
  | (.ended closed, pos) =>
    let forest ← withValue s.forest t.node
    let forest ← s.appended forest t.node
    return { pos := pos, forest := forest, opened := if t.closed || closed then s.opened else t.node :: s.opened }
  | (.stray, pos) => return { s with pos := pos }
  | (.pair name value, pos) =>
    let forest ← changed (s.forest.setAttribute t.node (String.ofList name) (String.ofList value))
    return { s with pos := pos, forest := forest }

def round? : Option (Except Halt Scanner) :=
  match s.tag? with
  | some t => some (s.tagRound text t)
  | none => if s.pos < byteCount text then some (s.contentRound text) else none

def run : Nat → Scanner → Option (Except Halt Scanner)
  | 0, _ => none
  | rounds + 1, s => match s.round? text with
    | none => some (.ok s)
    | some (.error halt) => some (.error halt)
    | some (.ok s) => run rounds s

end

def initial (f : Forest) : Scanner := { pos := 0, forest := f.prepared, opened := [⟨f.size + 1⟩] }

inductive Reached (text : List Char) (f : Forest) : Scanner → Prop
  | initial : Reached text f (initial f)
  | round {s s' : Scanner} (earlier : Reached text f s) (round : s.round? text = some (.ok s')) : Reached text f s'

end Scanner

def scan (text : List Char) (rounds : Nat) (f : Forest) : Option (Except Halt (NodeId × Forest)) :=
  (Scanner.run text rounds (.initial f)).map fun outcome => do
    let s ← outcome
    let forest ← changed ((s.forest.children ⟨f.size + 1⟩).foldlM (·.append ⟨f.size⟩ ·) s.forest)
    return (⟨f.size⟩, forest)

variable {f : Forest} {text rest : List Char} {n n' : Nesting} {s s' : Scanner} {name : List Char}
  {found : Fields String}

def grown (f : Forest) (n : Nesting) : List NodeId × Forest :=
  f.prepared.plantNesting ⟨f.size + 1⟩ n

def Nesting.readTag (n : Nesting) (name : List Char) (found : Fields String) (rest : List Char) :
    Except Stop Nesting × Option Stop :=
  match attributes (String.ofList name) found rest with
  | .error stop => (.ok n, some stop)
  | .ok (found, closed, rest) =>
    let tag := String.ofList (Text.lower name)
    (if closed || isVoid tag then n.add (.element tag found []) else n.enter tag found).readOn rest

def between (text : List Char) (f : Forest) (n : Nesting) (rest : List Char) : Scanner :=
  { pos := place text rest, forest := (grown f n).2, opened := (grown f n).1 }

def inTag (text : List Char) (f : Forest) (n : Nesting) (name : List Char) (found : Fields String) (rest : List Char) :
    Scanner where
  pos := place text rest
  forest := ((grown f n).2.create (.element (String.ofList (Text.lower name)) found "")).2
  opened := (grown f n).1
  tag? := some ⟨⟨(grown f n).2.size⟩, name, isVoid (String.ofList (Text.lower name))⟩

/-- The scanner has come as far in a text as the reader, and what is still to come is the same for both. -/
inductive Tracks (text : List Char) (f : Forest) : Scanner → Prop
  | content (n : Nesting) (rest : List Char) (fit : n.Fit) (within : rest <:+ text)
    (same : n.readOn rest = Nesting.empty.readOn text) : Tracks text f (between text f n rest)
  | tag (n : Nesting) (name rest : List Char) (found : Fields String) (fit : n.Fit) (named : isName name = true)
    (readable : Attributes found) (within : rest <:+ text)
    (same : n.readTag name found rest = Nesting.empty.readOn text) : Tracks text f (inTag text f n name found rest)

theorem soundAll_finish (fit : n.Fit) : SoundAll (Nesting.finish n.opened n.children) :=
  (soundAll_iff _).2 fun tree mem => (fit_finish fit tree mem).1

theorem linked_grown (linked : f.Linked) (fit : n.Fit) : (grown f n).2.Linked := by
  rw [grown, Forest.plantNesting_eq (Forest.exists_fragment_prepared f)]
  exact Forest.linked_planted linked (soundAll_finish fit)

theorem exists_open (f : Forest) (fit : n.Fit) : ∃ p outer, (grown f n).1 = p :: outer ∧
    p.index < (grown f n).2.size ∧ ((grown f n).2.content p).takesChildren = true := by
  obtain ⟨p, outer, whole, exist, shown⟩ := (Forest.stacked_plantNesting (Forest.exists_fragment_prepared f) n).head
  refine ⟨p, outer, whole, exist, ?_⟩
  rw [grown, shown]
  cases opened : n.opened with
  | nil =>
    rw [List.map_nil, List.headD_nil, Forest.content, Forest.fragment_prepared]
    rfl
  | cons o outer =>
    have solid := (fit.opened o (by rw [opened]; exact List.mem_cons_self)).solid
    simp [Opened.content, Content.takesChildren, solid]

theorem appended_grown (linked : f.Linked) (fit : n.Fit) {c : Content} (placed : c.isElement ∨ c.isText)
    (opened : s.opened = (grown f n).1) :
    s.appended ((grown f n).2.create c).2 ⟨(grown f n).2.size⟩ = .ok (((grown f n).2.create c).2.adopt
      ((grown f n).1.headD ⟨f.size + 1⟩) ⟨(grown f n).2.size⟩) := by
  obtain ⟨p, outer, whole, exist, takes⟩ := exists_open f fit
  rw [Scanner.appended, opened, whole]
  dsimp only
  rw [Forest.append_created (linked_grown linked fit) exist takes placed]
  rfl

theorem grown_add (f : Forest) (n : Nesting) (tree : Tree) : grown f (n.add tree) = ((grown f n).1,
    ((grown f n).2.plant tree).2.adopt ((grown f n).1.headD ⟨f.size + 1⟩) ⟨(grown f n).2.size⟩) :=
  Forest.plantNesting_add _ _ n tree

theorem leave?_between (text : List Char) (f : Forest) (n : Nesting) (rest : List Char) (tag : String) :
    match Nesting.leave? tag n.opened n.children with
    | some n' => (between text f n rest).leave? tag = some (grown f n').1 ∧ (grown f n').2 = (grown f n).2
    | none => (between text f n rest).leave? tag = none := by
  have above := Forest.dropWhile_stack (Forest.exists_fragment_prepared f) tag n.opened n.children
  dsimp only at above
  change match Nesting.leave? tag n.opened n.children with
    | some n' => ∃ m, ((between text f n rest).opened.dropWhile fun m =>
        ((between text f n rest).forest.content m).tag ≠ tag) = m :: (grown f n').1 ∧ (grown f n').2 = (grown f n).2
    | none => ((between text f n rest).opened.dropWhile fun m =>
        ((between text f n rest).forest.content m).tag ≠ tag).length ≤ 1 at above
  rw [Scanner.leave?]
  cases left : Nesting.leave? tag n.opened n.children with
  | some n' =>
    rw [left] at above
    obtain ⟨m, above, same⟩ := above
    obtain ⟨p, outer, opened, -⟩ := (Forest.stacked_plantNesting (Forest.exists_fragment_prepared f) n').head
    have opened : (grown f n').1 = p :: outer := opened
    dsimp only
    rw [above, opened]
    exact ⟨rfl, same⟩
  | none =>
    rw [left] at above
    dsimp only at above ⊢
    split
    · next whole =>
      rw [whole] at above
      simp at above
    · rfl

theorem tracks_initial (text : List Char) (f : Forest) : Tracks text f (.initial f) := by
  have same : Scanner.initial f = between text f .empty text := by
    rw [between, place_self]
    rfl
  rw [same]
  exact .content .empty text ⟨nofun, nofun⟩ List.suffix_rfl rfl

theorem isPrefixOf_comment (cs : List Char) : ['<', '!', '-', '-'].isPrefixOf cs = startsComment cs := by
  cases starts : startsComment cs with
  | true => exact List.isPrefixOf_iff_prefix.2 (prefix_of_startsComment starts)
  | false =>
    rw [Bool.eq_false_iff]
    intro opens
    obtain ⟨r, rfl⟩ := List.isPrefixOf_iff_prefix.1 opens
    cases starts

inductive Goes (text : List Char) (f : Forest) (s : Scanner) : Option (Except Halt Scanner) → Prop
  | ended (n : Nesting) (fit : n.Fit) (whole : Nesting.empty.readOn text = (.ok n, none))
    (forest : s.forest = (grown f n).2) : Goes text f s none
  | failed (stop : Stop) (within : stop.rest <:+ text) (first : fault? .empty text = some stop) :
    Goes text f s (some (.error (.error (.malformed (place text stop.rest) stop.fault))))
  | on {s' : Scanner} (tracks : Tracks text f s') (further : s.pos < s'.pos) : Goes text f s (some (.ok s'))

theorem readOn_of_error {c : Char} {cs : List Char} {stop : Stop} (failed : next c cs = .error stop) (n : Nesting) :
    n.readOn (c :: cs) = (.ok n, some stop) := by
  rw [Nesting.readOn, tokens_of_error failed]
  rfl

theorem readOn_of_start (named : isName name = true) (whole : ∀ d ∈ rest.head?, isTagChar d = false) (n : Nesting) :
    n.readOn ('<' :: (name ++ rest)) = n.readTag name [] rest := by
  obtain ⟨tagged, raw⟩ := tagName_of_isName named whole
  have read := next_of_start named rest
  rw [start, tagged, raw] at read
  dsimp only at read
  rw [Nesting.readTag]
  cases shown : attributes (String.ofList name) [] rest with
  | error stop =>
    rw [shown] at read
    exact readOn_of_error read n
  | ok result =>
    obtain ⟨found, closed, r⟩ := result
    rw [shown] at read
    exact readOn_of_next read rfl

theorem fault?_of_error {stop : Stop} (same : (.ok n, some stop) = Nesting.empty.readOn text) :
    fault? .empty text = some stop := by
  obtain ⟨taken, ended⟩ := Prod.mk.inj same
  rw [fault?, ← taken, ← ended]

section

variable (within : rest <:+ text) (fit : n.Fit) (same : n.readOn rest = Nesting.empty.readOn text)
include within fit same

theorem goes_of_next {c : Char} {cs r : List Char} {token : Token} (here : rest = c :: cs)
    (read : next c cs = .ok (token, r)) (taken : n.take token = .ok n') :
    Goes text f (between text f n rest) (some (.ok (between text f n' r))) := by
  subst here
  obtain ⟨w, parts, lexeme⟩ := next_iff.1 read
  rw [readOn_of_next read taken] at same
  rw [parts] at within ⊢
  exact .on (.content n' r (fit_take taken (readable_next read) fit) ((List.suffix_append _ _).trans within) same)
    (place_lt within lexeme.ne_nil)

omit fit in
theorem goes_of_error {c : Char} {cs : List Char} {stop : Stop} (here : rest = c :: cs)
    (failed : next c cs = .error stop) : Goes text f (between text f n rest)
      (some (.error (.error (.malformed (place text stop.rest) stop.fault)))) := by
  subst here
  rw [readOn_of_error failed] at same
  exact .failed stop ((within_next failed).1.trans within) (fault?_of_error same)

theorem goes_comment (starts : startsComment rest = true) :
    Goes text f (between text f n rest)
      (some (do return { between text f n rest with pos := ← readComment text (place text rest) })) := by
  obtain ⟨c, cs, rfl⟩ : ∃ c cs, rest = c :: cs := List.exists_cons_of_ne_nil (by rintro rfl; cases starts)
  have read : next c cs = comment (c :: cs) := if_pos starts
  rw [readComment_place within]
  cases found : comment (c :: cs) with
  | error stop => exact goes_of_error within same rfl (read.trans found)
  | ok result =>
    obtain ⟨token, r⟩ := result
    have taken : n.take token = .ok n := by
      rw [comment] at found
      split at found <;> cases found
      rfl
    exact goes_of_next within fit same rfl (read.trans found) taken

theorem goes_close (starts : startsClose rest = true) :
    Goes text f (between text f n rest) (some ((between text f n rest).close text)) := by
  obtain ⟨name, after, rfl, named, whole⟩ := exists_name_of_startsClose starts
  have scanned := readClosingTag_place within
  rw [(tagName_of_isName named whole).1] at scanned
  rw [Scanner.close]
  change Goes text f _ (some (readClosingTag text (place text ('<' :: '/' :: (name ++ after))) >>= _))
  rw [scanned]
  -- Without its `>` the tag is no token, so the fault is the reader's own; after it the open elements decide.
  by_cases ends : ∃ r, skipSpace after = '>' :: r
  · obtain ⟨r, ends⟩ := ends
    have read := next_of_ended named whole ends
    have left := leave?_between text f n ('<' :: '/' :: (name ++ after)) (String.ofList (Text.lower name))
    simp only [bind, Except.bind, ends]
    cases leaves : Nesting.leave? (String.ofList (Text.lower name)) n.opened n.children with
    | some n' =>
      rw [leaves] at left
      have taken : n.take (.close (String.ofList (Text.lower name)) r) = .ok n' := by rw [Nesting.take, leaves]
      have goes := goes_of_next (f := f) within fit same rfl read taken
      have closed : between text f n' r =
          { pos := place text r, forest := (grown f n).2, opened := (grown f n').1 } := by rw [between, left.2]
      rw [closed] at goes
      rw [left.1]
      exact goes
    | none =>
      rw [leaves] at left
      rw [left]
      have faulty : fault? n ('<' :: '/' :: (name ++ after)) =
          some ⟨r, .unmatchedClosingTag (String.ofList (Text.lower name))⟩ := by
        rw [fault?_of_ended named whole n ends, leaves]
      rw [fault?_congr same] at faulty
      obtain ⟨w, parts, -⟩ := next_iff.1 read
      rw [parts] at within
      exact .failed _ ((List.suffix_append _ _).trans within) faulty
  · have ends : ∀ r, skipSpace after ≠ '>' :: r := fun r here => ends ⟨r, here⟩
    have goes := goes_of_error (f := f) within same rfl (next_of_unended named whole ends)
    split
    · next r here => exact absurd here (ends r)
    · exact goes

theorem goes_start (starts : startsTag rest = true) :
    Goes text f (between text f n rest) (some ((between text f n rest).start text)) := by
  obtain ⟨name, after, rfl, named, whole⟩ := exists_name_of_startsTag starts
  obtain ⟨tagged, raw⟩ := tagName_of_isName named whole
  have inner : name ++ after <:+ text := (List.suffix_cons _ _).trans within
  have opened : place text ('<' :: (name ++ after)) + 1 = place text (name ++ after) := place_add (w := ['<']) within
  have dropped : (name ++ after).dropWhile isTagChar = after := congrArg Prod.snd tagged
  have scanned := readWhile_place uniform_isTagChar inner
  rw [raw, dropped, ← opened] at scanned
  have tracks := Tracks.tag (f := f) n name after [] fit named (by decide) ((List.suffix_append _ _).trans inner)
    ((readOn_of_start named whole n).symm.trans same)
  have further : place text ('<' :: (name ++ after)) < place text after :=
    place_lt (w := '<' :: name) within (List.cons_ne_nil _ _)
  have made : lowerCase (String.ofList name) = String.ofList (Text.lower name) := by
    rw [lowerCase, String.toList_ofList]
  have shown := Forest.content_created (grown f n).2 (.element (String.ofList (Text.lower name)) [] "")
  have started : (between text f n ('<' :: (name ++ after))).start text = .ok (inTag text f n name [] after) := by
    rw [Scanner.start]
    change (readWhile text (place text ('<' :: (name ++ after)) + 1) isTagChar >>= _) = _
    rw [scanned]
    simp only [between, Forest.createElement, made, bind, Except.bind]
    rw [show (Forest.create _ _).1 = ⟨(grown f n).2.size⟩ from rfl, shown]
    rfl
  rw [started]
  exact .on tracks further

theorem goes_text (linked : f.Linked) (filled : rest ≠ []) (plain : startsMarkup rest = false) :
    Goes text f (between text f n rest) (some ((between text f n rest).addText text)) := by
  obtain ⟨c, cs, rfl⟩ := List.exists_cons_of_ne_nil filled
  have scanned := readText_place within
  rw [splitText_cons plain] at scanned
  have read : next c cs = .ok (.text (String.ofList (unescape (c :: (splitText cs).1))), (splitText cs).2) := by
    simp only [startsMarkup, Bool.or_eq_false_iff] at plain
    simp [next, plain]
  have goes := goes_of_next (f := f) within fit same rfl read rfl
  have added : (between text f n (c :: cs)).addText text =
      .ok (between text f (n.add (.text (String.ofList (unescape (c :: (splitText cs).1))))) (splitText cs).2) := by
    rw [Scanner.addText]
    change (readText text (place text (c :: cs)) >>= _) = _
    rw [scanned]
    simp only [between, bind, Except.bind]
    rw [show (Forest.create _ _).1 = ⟨(grown f n).2.size⟩ from rfl, appended_grown linked fit (.inr rfl) rfl,
      grown_add]
    rfl
  rw [added]
  exact goes

theorem goes_content (linked : f.Linked) (filled : rest ≠ []) :
    Goes text f (between text f n rest) (some ((between text f n rest).contentRound text)) := by
  rw [Scanner.contentRound]
  change Goes text f _ (some (restAt text (place text rest) >>= _))
  rw [restAt_place within]
  change Goes text f _ (some (if ['<', '!', '-', '-'].isPrefixOf rest then _ else _))
  rw [isPrefixOf_comment, closesTag_eq, opensTag_eq]
  cases comment : startsComment rest with
  | true => exact goes_comment within fit same comment
  | false =>
    cases close : startsClose rest with
    | true => exact goes_close within fit same close
    | false =>
      cases start : startsTag rest with
      | true => exact goes_start within fit same start
      | false => exact goes_text within fit same linked filled (by simp [startsMarkup, comment, close, start])

end

theorem grown_start (f : Forest) (n : Nesting) (tag : String) (found : Fields String) (closed : Bool) :
    grown f (if closed then n.add (.element tag found []) else n.enter tag found) =
      (if closed then (grown f n).1 else ⟨(grown f n).2.size⟩ :: (grown f n).1,
        ((grown f n).2.create (.element tag found ((found.get? "value").getD ""))).2.adopt
          ((grown f n).1.headD ⟨f.size + 1⟩) ⟨(grown f n).2.size⟩) := by
  have added := grown_add f n (.element tag found [])
  cases closed with
  | true => exact added
  | false =>
    have entered : grown f (n.enter tag found) =
        (⟨(grown f n).2.size⟩ :: (grown f n).1, (grown f (n.add (.element tag found []))).2) :=
      Forest.plantNesting_enter _ _ n tag found
    rw [added] at entered
    exact entered

theorem withValue_create (g : Forest) (tag : String) (found : Fields String) :
    Scanner.withValue (g.create (.element tag found "")).2 ⟨g.size⟩ =
      .ok (g.create (.element tag found ((found.get? "value").getD ""))).2 := by
  rw [Scanner.withValue, Forest.content_created]
  dsimp only [Content.attributes]
  cases found.get? "value" with
  | none => rfl
  | some value =>
    dsimp only [Option.getD_some]
    rw [Forest.setValue_create]
    rfl

theorem isTag_of_isName (named : isName name = true) : isTag (String.ofList (Text.lower name)) = true := by
  cases name with
  | nil => cases named
  | cons c cs =>
    have letter : c.isAlpha = true := (Bool.and_eq_true_iff.1 named).1
    have tagged := isTag_tagName letter cs
    have whole : tagName (c :: cs ++ []) = (String.ofList (Text.lower (c :: cs)), []) :=
      (tagName_of_isName named (by simp)).1
    rw [List.append_nil] at whole
    rwa [whole] at tagged

theorem goes_tag (linked : f.Linked) (fit : n.Fit) (named : isName name = true) (readable : Attributes found)
    (within : rest <:+ text) (same : n.readTag name found rest = Nesting.empty.readOn text) :
    Goes text f (inTag text f n name found rest) ((inTag text f n name found rest).round? text) := by
  have turn := turns (String.ofList name) within
  rw [Nesting.readTag] at same
  change Goes text f _ (some (readRound text (place text rest) (String.ofList name) >>= _))
  generalize readRound text (place text rest) (String.ofList name) = round at turn
  cases turn with
  | failed stop inside fails =>
    rw [fails] at same
    exact .failed stop inside (fault?_of_error same)
  | ended closed w r filled parts ends =>
    rw [ends] at same
    rw [parts] at within ⊢
    let tag := String.ofList (Text.lower name)
    have readable' : Token.Readable (.start tag found (closed || isVoid tag)) :=
      ⟨isTag_of_isName named, readable, fun void => by rw [void, Bool.or_true]⟩
    have tracks := Tracks.content (f := f) _ r (fit_take (n := n) rfl readable' fit)
      ((List.suffix_append _ _).trans within) same
    -- The value is set before the element is appended; a planted element has it from the start.
    have grown' := grown_start f n tag found (closed || isVoid tag)
    simp only [inTag, bind, Except.bind, withValue_create]
    rw [appended_grown linked fit (.inl rfl) rfl]
    rw [between, grown'] at tracks
    rw [Bool.or_comm] at tracks
    exact .on tracks (place_lt within filled)
  | stray w r filled parts passes =>
    rw [passes] at same
    rw [parts] at within ⊢
    exact .on (.tag n name r found fit named readable ((List.suffix_append _ _).trans within) same)
      (place_lt within filled)
  | pair name' value w r filled parts readable' sets =>
    rw [sets] at same
    rw [parts] at within ⊢
    simp only [inTag, bind, Except.bind, Forest.setAttribute_create]
    exact .on (.tag n name r _ fit named (readable.set _ readable') ((List.suffix_append _ _).trans within) same)
      (place_lt within filled)

theorem goes_round (linked : f.Linked) (tracks : Tracks text f s) : Goes text f s (s.round? text) := by
  cases tracks with
  | tag n name rest found fit named readable within same => exact goes_tag linked fit named readable within same
  | content n rest fit within same =>
    cases rest with
    | nil =>
      have done : (between text f n []).round? text = none := if_neg (Nat.lt_irrefl _)
      have ended : n.readOn [] = (.ok n, none) := by
        rw [Nesting.readOn, tokens]
        rfl
      rw [done]
      exact .ended n fit (same.symm.trans ended) rfl
    | cons c cs =>
      have before : place text (c :: cs) < byteCount text := by
        have further : place text (c :: cs ++ []) < place text [] :=
          place_lt (by rwa [List.append_nil]) (List.cons_ne_nil _ _)
        rwa [List.append_nil] at further
      have goes := goes_content within fit same linked (List.cons_ne_nil c cs)
      rwa [show (between text f n (c :: cs)).round? text = some _ from if_pos before]

theorem tracks_of_reached (linked : f.Linked) (reached : Scanner.Reached text f s) : Tracks text f s := by
  induction reached with
  | initial => exact tracks_initial text f
  | round earlier round ih =>
    have goes := goes_round linked ih
    rw [round] at goes
    cases goes with
    | on tracks => exact tracks

theorem Tracks.exists_rest (tracks : Tracks text f s) : ∃ rest, rest <:+ text ∧ s.pos = place text rest := by
  cases tracks with
  | content n rest fit within => exact ⟨rest, within, rfl⟩
  | tag n name rest found fit named readable within => exact ⟨rest, within, rfl⟩

theorem Tracks.opened_ne_nil (tracks : Tracks text f s) : s.opened ≠ [] := by
  have open' {n : Nesting} (fit : n.Fit) : (grown f n).1 ≠ [] := by
    obtain ⟨p, outer, whole, -⟩ := exists_open f fit
    rw [whole]
    exact List.cons_ne_nil p outer
  cases tracks with
  | content n rest fit => exact open' fit
  | tag n name rest found fit => exact open' fit

inductive Outcome (text : List Char) (f : Forest) : Except Halt Scanner → Prop
  | read (n : Nesting) (fit : n.Fit) (whole : Nesting.empty.readOn text = (.ok n, none)) (s : Scanner)
    (forest : s.forest = (grown f n).2) : Outcome text f (.ok s)
  | failed (stop : Stop) (within : stop.rest <:+ text) (first : fault? .empty text = some stop) :
    Outcome text f (.error (.error (.malformed (place text stop.rest) stop.fault)))

/-- Every round leaves fewer bytes, so that many rounds are enough. -/
theorem exists_outcome (linked : f.Linked) (rounds : Nat) (tracks : Tracks text f s)
    (enough : byteCount text < s.pos + rounds) :
    ∃ outcome, Scanner.run text rounds s = some outcome ∧ Outcome text f outcome := by
  induction rounds generalizing s with
  | zero =>
    obtain ⟨rest, -, here⟩ := tracks.exists_rest
    have := place_le text rest
    omega
  | succ rounds ih =>
    have goes := goes_round linked tracks
    rw [Scanner.run]
    generalize s.round? text = round at goes
    cases goes with
    | ended n fit whole forest => exact ⟨_, rfl, .read n fit whole s forest⟩
    | failed stop within first => exact ⟨_, rfl, .failed stop within first⟩
    | on later further => exact ih later (by omega)

def FaultIn (text : String) (err : DocumentError) : Prop :=
  ∃ pos fault, err = .malformed pos fault ∧ pos ≤ text.utf8ByteSize ∧ (String.Pos.Raw.mk pos).IsValid text

/-- A scanner that is at a character or at the end, has a node to append to, moves on in a round, and stops for nothing
but a fault of the text. -/
structure Scanner.Safe (text : String) (s : Scanner) : Prop where
  valid : (String.Pos.Raw.mk s.pos).IsValid text
  opened : s.opened ≠ []
  further : ∀ s', s.round? text.toList = some (.ok s') → s.pos < s'.pos
  faulty : ∀ halt, s.round? text.toList = some (.error halt) → ∃ err, halt = .error err ∧ FaultIn text err

theorem faultIn_place {text : String} {stop : Stop} (within : stop.rest <:+ text.toList) :
    FaultIn text (.malformed (place text.toList stop.rest) stop.fault) :=
  ⟨_, _, rfl, utf8ByteSize_eq text ▸ place_le _ _, isValid_place within⟩

theorem Tracks.safe {text : String} (linked : f.Linked) (tracks : Tracks text.toList f s) : s.Safe text := by
  have goes := goes_round linked tracks
  refine ⟨?_, tracks.opened_ne_nil, fun s' round => ?_, fun halt round => ?_⟩
  · obtain ⟨rest, within, here⟩ := tracks.exists_rest
    rw [here]
    exact isValid_place within
  · rw [round] at goes
    cases goes with
    | on later further => exact further
  · rw [round] at goes
    cases goes with
    | failed stop within => exact ⟨_, rfl, faultIn_place within⟩

/-- In a forest whose links agree, as they do in every run, each text is scanned to its end or to its first fault, in no
more rounds than it has bytes, and one more. On the way no change of the forest is refused. -/
theorem scan_total (text : String) (linked : f.Linked) :
    (∀ s, Scanner.Reached text.toList f s → s.Safe text) ∧
    ∃ outcome, scan text.toList (text.utf8ByteSize + 1) f = some outcome ∧
      match read text with
      | .ok trees => ∃ root f', outcome = .ok (root, f') ∧ f'.content root = .document ∧ f'.trees root = trees
      | .error err => outcome = .error (.error err) ∧ FaultIn text err := by
  refine ⟨fun s reached => (tracks_of_reached linked reached).safe linked, ?_⟩
  obtain ⟨outcome, run, result⟩ := exists_outcome linked (text.utf8ByteSize + 1) (tracks_initial text.toList f)
    (by rw [utf8ByteSize_eq]; omega)
  rw [scan, run]
  refine ⟨_, rfl, ?_⟩
  cases result with
  | read n fit whole s forest =>
    obtain ⟨f', appended, shown, below⟩ := Forest.document_of_planted linked (soundAll_finish fit)
    rw [← Forest.plantNesting_eq (Forest.exists_fragment_prepared f)] at appended
    rw [read_eq text n whole]
    refine ⟨⟨f.size⟩, f', ?_, shown, below⟩
    simp only [bind, Except.bind, forest]
    rw [grown, appended]
    rfl
  | failed stop within once =>
    rw [read_eq_error_iff.2 ⟨stop, once, rfl⟩]
    exact ⟨rfl, faultIn_place within⟩

/-- Its characters take up to three bytes, and not all of them belong where they stand. -/
def stray : String := "é<p ß / ='ü' x=– =>&lt;</ q</p"

theorem stray_scan_total : Forest.Linked {} ∧ (Scanner.initial {}).Safe stray ∧
    (∃ root f', scan (stray ++ " >").toList ((stray ++ " >").utf8ByteSize + 1) {} = some (.ok (root, f')) ∧
      f'.trees root = [.text "é", .element "p" [("ß", ""), ("ü", ""), ("x", "–")] [.text "<</ q"]]) ∧
    scan (stray ++ " €").toList ((stray ++ " €").utf8ByteSize + 1) {} =
      some (.error (.error (.malformed 36 .openClosingTag))) := by
  refine ⟨Forest.linked_empty, (scan_total stray Forest.linked_empty).1 _ .initial, ?_, ?_⟩
  · have split : tokens (stray ++ " >").toList = ([.text "é",
        .start "p" [("ß", ""), ("ü", ""), ("x", "–")] false, .text "<</ q", .close "p" []], none) := by decide +kernel
    obtain ⟨outcome, scanned, result⟩ := (scan_total (stray ++ " >") Forest.linked_empty).2
    rw [read_eq _ ⟨[], [.element "p" [("ß", ""), ("ü", ""), ("x", "–")] [.text "<</ q"], .text "é"]⟩
      (by rw [Nesting.readOn, split]; rfl)] at result
    obtain ⟨root, f', rfl, -, below⟩ := result
    exact ⟨root, f', scanned, below⟩
  · have first : fault? .empty (stray ++ " €").toList = some ⟨['€'], .openClosingTag⟩ := by decide +kernel
    have faulty : read (stray ++ " €") = .error (.malformed 36 .openClosingTag) :=
      read_eq_error_iff.2 ⟨_, first, by decide +kernel⟩
    obtain ⟨outcome, scanned, result⟩ := (scan_total (stray ++ " €") Forest.linked_empty).2
    rw [faulty] at result
    rw [scanned, result.1]

end DataBinding.Markup
