import DataBinding.Error
import DataBinding.Markup.Tree

namespace DataBinding.Markup

/-- What a piece of markup is. A closing tag keeps the text after it, which tells where it stands. -/
inductive Token where
  | comment
  | start (tag : String) (attributes : Fields String) (closed : Bool)
  | close (tag : String) (rest : List Char)
  | text (content : String)

structure Stop where
  rest : List Char
  fault : MarkupFault

def isSpace (c : Char) : Bool :=
  c = ' ' || c = '\t' || c = '\n' || c = '\x0c' || c = '\r'

def skipSpace (cs : List Char) : List Char := cs.dropWhile isSpace

def isTagChar (c : Char) : Bool := c.isAlphanum || c = '-' || c = '_' || c = ':'

def isAttributeChar (c : Char) : Bool :=
  !isSpace c && c ≠ '=' && c ≠ '>' && c ≠ '/' && c ≠ '"' && c ≠ '\''

def isValueChar (c : Char) : Bool := !isSpace c && c ≠ '>'

def startsComment : List Char → Bool
  | '<' :: '!' :: '-' :: '-' :: _ => true
  | _ => false

def startsTag : List Char → Bool
  | '<' :: c :: _ => c.isAlpha
  | _ => false

def startsClose : List Char → Bool
  | '<' :: '/' :: c :: _ => c.isAlpha
  | _ => false

def startsMarkup (cs : List Char) : Bool := startsComment cs || startsClose cs || startsTag cs

def splitText : List Char → List Char × List Char
  | [] => ([], [])
  | c :: cs =>
    if startsMarkup (c :: cs) then ([], c :: cs)
    else ((c :: (splitText cs).1), (splitText cs).2)

def value (cs : List Char) : Except Stop (List Char × List Char) :=
  match cs with
  | q :: body =>
    if q = '"' || q = '\'' then
      match Text.cut? [q] body with
      | some (before, rest) => .ok (unescape before, rest)
      | none => .error ⟨cs, .openValue⟩
    else .ok (unescape (cs.takeWhile isValueChar), cs.dropWhile isValueChar)
  | [] => .ok ([], [])

theorem length_dropWhile_le {α : Type} (p : α → Bool) (cs : List α) : (cs.dropWhile p).length ≤ cs.length :=
  (List.dropWhile_sublist p).length_le

theorem length_of_value {cs v rest : List Char} (h : value cs = .ok (v, rest)) : rest.length ≤ cs.length := by
  unfold value at h
  split at h
  · next q body =>
    split at h
    · split at h
      · next before r hc =>
        cases h
        have := congrArg List.length (Text.eq_of_cut? hc)
        simp at this ⊢
        omega
      · cases h
    · cases h
      exact length_dropWhile_le _ _
  · cases h
    simp

def valueAfterName (cs : List Char) : Except Stop (List Char × List Char) :=
  match skipSpace cs with
  | '=' :: rest => value (skipSpace rest)
  | rest => .ok ([], rest)

theorem length_of_valueAfterName {cs v rest : List Char} (h : valueAfterName cs = .ok (v, rest)) :
    rest.length ≤ cs.length := by
  have hs := length_dropWhile_le isSpace cs
  unfold valueAfterName at h
  split at h
  · next r hr =>
    have := length_of_value h
    have := length_dropWhile_le isSpace r
    simp only [skipSpace] at *
    rw [hr] at hs
    simp at hs
    omega
  · cases h
    exact hs

/-- The attributes of a start tag up to its end, and whether it ends with `/>`. A character that can start no
name is skipped. -/
def attributes (tag : String) (found : Fields String) (cs : List Char) :
    Except Stop (Fields String × Bool × List Char) :=
  match _hs : skipSpace cs with
  | [] => .error ⟨[], .openTag tag⟩
  | '/' :: '>' :: rest => .ok (found, true, rest)
  | '>' :: rest => .ok (found, false, rest)
  | c :: rest =>
    if isAttributeChar c then
      match _hv : valueAfterName (rest.dropWhile isAttributeChar) with
      | .error stop => .error stop
      | .ok (v, rest') =>
        attributes tag (found.set (String.ofList (c :: rest.takeWhile isAttributeChar)) (String.ofList v)) rest'
    else attributes tag found rest
termination_by cs.length
decreasing_by
  all_goals
    have hl := length_dropWhile_le isSpace cs
    simp only [skipSpace] at _hs
    rw [_hs] at hl
    simp at hl
  · have := length_of_valueAfterName _hv
    have := length_dropWhile_le isAttributeChar rest
    omega
  · omega

theorem length_of_attributes {tag : String} {found out : Fields String} {cs rest : List Char} {closed : Bool}
    (h : attributes tag found cs = .ok (out, closed, rest)) : rest.length ≤ cs.length := by
  have hl := length_dropWhile_le isSpace cs
  fun_induction attributes tag found cs with
  | case1 => cases h
  | case2 found cs r hs => cases h; simp only [skipSpace] at hs; simp [hs] at hl; omega
  | case3 found cs r hs => cases h; simp only [skipSpace] at hs; simp [hs] at hl; omega
  | case4 => cases h
  | case5 found cs c r _ _ hs _ v r' hv ih =>
    simp only [skipSpace] at hs
    simp [hs] at hl
    have := ih h (length_dropWhile_le _ _)
    have := length_of_valueAfterName hv
    have := length_dropWhile_le isAttributeChar r
    omega
  | case6 found cs c r _ _ hs _ ih =>
    simp only [skipSpace] at hs
    simp [hs] at hl
    have := ih h (length_dropWhile_le _ _)
    omega

def tagName (cs : List Char) : String × List Char :=
  (String.ofList (Text.lower (cs.takeWhile isTagChar)), cs.dropWhile isTagChar)

def close (cs : List Char) : Except Stop (Token × List Char) :=
  let (tag, rest) := tagName cs
  match skipSpace rest with
  | '>' :: rest => .ok (.close tag rest, rest)
  | rest => .error ⟨rest, .openClosingTag⟩

/-- A start tag after its `<`. The elements that never have children are closed at once. -/
def start (cs : List Char) : Except Stop (Token × List Char) :=
  let (tag, rest) := tagName cs
  match attributes (String.ofList (cs.takeWhile isTagChar)) [] rest with
  | .ok (found, closed, rest) => .ok (.start tag found (closed || isVoid tag), rest)
  | .error stop => .error stop

def comment (cs : List Char) : Except Stop (Token × List Char) :=
  match Text.cut? ['-', '-', '>'] cs with
  | some (_, rest) => .ok (.comment, rest)
  | none => .error ⟨cs, .openComment⟩

def next (c : Char) (cs : List Char) : Except Stop (Token × List Char) :=
  if startsComment (c :: cs) then comment (c :: cs)
  else if startsClose (c :: cs) then close (cs.drop 1)
  else if startsTag (c :: cs) then start cs
  else .ok (.text (String.ofList (unescape (c :: (splitText cs).1))), (splitText cs).2)

theorem length_splitText_le (cs : List Char) : (splitText cs).2.length ≤ cs.length := by
  induction cs with
  | nil => simp [splitText]
  | cons c cs ih => simp only [splitText]; split <;> simp; omega

theorem length_of_next {c : Char} {cs rest : List Char} {token : Token} (h : next c cs = .ok (token, rest)) :
    rest.length ≤ cs.length := by
  unfold next at h
  split at h
  · unfold comment at h
    split at h
    · next before r hc =>
      cases h
      have := congrArg List.length (Text.eq_of_cut? hc)
      simp at this
      omega
    · cases h
  split at h
  · simp only [close, tagName] at h
    split at h
    · next r hr =>
      cases h
      have h1 := length_dropWhile_le isSpace ((cs.drop 1).dropWhile isTagChar)
      have h2 := length_dropWhile_le isTagChar (cs.drop 1)
      simp only [skipSpace] at hr
      rw [hr] at h1
      simp at h1 h2
      omega
    · cases h
  split at h
  · simp only [start, tagName] at h
    split at h
    · next ha =>
      cases h
      have h1 := length_of_attributes ha
      have h2 := length_dropWhile_le isTagChar cs
      omega
    · cases h
  · cases h
    exact length_splitText_le cs

def tokens (cs : List Char) : List Token × Option Stop :=
  match cs with
  | [] => ([], none)
  | c :: cs => match _h : next c cs with
    | .error stop => ([], some stop)
    | .ok (token, rest) => (token :: (tokens rest).1, (tokens rest).2)
termination_by cs.length
decreasing_by
  all_goals
    have := length_of_next _h
    simp
    omega

end DataBinding.Markup
