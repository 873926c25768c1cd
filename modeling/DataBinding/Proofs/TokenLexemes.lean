import DataBinding.Proofs.ReadTrees

namespace DataBinding.Markup

open Text (cut?)

def isName : List Char → Bool
  | [] => false
  | c :: cs => c.isAlpha && cs.all isTagChar

/-- The piece of a text that a token stands for, and the text after it. A comment goes up to the first `-->`, a text up
to the next tag or comment. -/
inductive Lexeme : List Char → Token → List Char → Prop
  | comment {w rest : List Char} (opens : ['<', '!', '-', '-'] <+: w) (ends : ['-', '-', '>'] <:+ w)
      (once : ¬ ['-', '-', '>'] <:+: w.dropLast) :
    Lexeme w .comment rest
  | start {name body rest : List Char} {found : Fields String} {closed : Bool} (named : isName name = true)
    (whole : ∀ d ∈ (body ++ rest).head?, isTagChar d = false)
    (shown : attributes (String.ofList name) [] (body ++ rest) = .ok (found, closed, rest)) :
    Lexeme ('<' :: (name ++ body))
      (.start (String.ofList (Text.lower name)) found (closed || isVoid (String.ofList (Text.lower name)))) rest
  | close {name blanks rest : List Char} (named : isName name = true) (blank : blanks.all isSpace = true) :
    Lexeme ('<' :: '/' :: (name ++ blanks ++ ['>'])) (.close (String.ofList (Text.lower name)) rest) rest
  | text {w rest : List Char} (filled : w ≠ []) (plain : ∀ v, v <:+ w → v ≠ [] → startsMarkup (v ++ rest) = false)
    (stop : rest = [] ∨ startsMarkup rest = true) :
    Lexeme w (.text (String.ofList (unescape w))) rest

variable {c : Char} {cs w rest before name after : List Char} {token : Token} {ts : List Token}

@[simp] theorem byteCount_append (w cs : List Char) : byteCount (w ++ cs) = byteCount w + byteCount cs := by
  induction w with
  | nil => simp [byteCount]
  | cons c w ih => simp [byteCount, ih, Nat.add_assoc]

theorem byteCount_le_of_suffix (suffix : rest <:+ cs) : byteCount rest ≤ byteCount cs := by
  obtain ⟨w, rfl⟩ := suffix
  simp

theorem byteCount_pos {w : List Char} (filled : w ≠ []) : 0 < byteCount w := by
  cases w with
  | nil => exact absurd rfl filled
  | cons c w => exact Nat.lt_of_lt_of_le c.utf8Size_pos (Nat.le_add_right _ _)

theorem exists_later {mark b r : List Char} (here : Text.after? mark (c :: cs) = none)
    (same : c :: cs = b ++ mark ++ r) : ∃ b', b = c :: b' ∧ cs = b' ++ mark ++ r := by
  cases b with
  | nil =>
    rw [Text.after?_eq_some_iff.2 (show c :: cs = mark ++ r from same)] at here
    cases here
  | cons d b =>
    cases same
    exact ⟨b, rfl, rfl⟩

theorem cut?_eq_some_iff {mark : List Char} (solid : mark ≠ []) :
    cut? mark cs = some (before, rest) ↔
      cs = before ++ mark ++ rest ∧ ∀ b r, cs = b ++ mark ++ r → before.length ≤ b.length := by
  induction cs generalizing before with
  | nil =>
    obtain ⟨m, ms, rfl⟩ := List.exists_cons_of_ne_nil solid
    simp [cut?, Text.after?]
  | cons c cs ih =>
    rw [cut?]
    cases here : Text.after? mark (c :: cs) with
    | some r =>
      have found := Text.after?_eq_some_iff.1 here
      constructor
      · intro h
        cases h
        exact ⟨found, fun b r _ => Nat.zero_le _⟩
      · rintro ⟨same, least⟩
        obtain rfl : before = [] := List.length_eq_zero_iff.1 (Nat.le_zero.1 (least [] r found))
        rw [found, List.nil_append, List.append_cancel_left_eq] at same
        rw [same]
    | none =>
      rw [Option.map_eq_some_iff]
      constructor
      · rintro ⟨⟨b, r⟩, found, same⟩
        cases same
        obtain ⟨same, least⟩ := ih.1 found
        refine ⟨congrArg (c :: ·) same, fun b' r' other => ?_⟩
        obtain ⟨b'', rfl, other'⟩ := exists_later here other
        exact Nat.succ_le_succ (least b'' r' other')
      · rintro ⟨same, least⟩
        obtain ⟨b, rfl, same'⟩ := exists_later here same
        refine ⟨(b, rest), ih.2 ⟨same', fun b' r' other => ?_⟩, rfl⟩
        exact Nat.le_of_succ_le_succ (least (c :: b') r' (congrArg (c :: ·) other))

theorem cut?_eq_none_iff {mark : List Char} (solid : mark ≠ []) :
    cut? mark cs = none ↔ ∀ b r, cs ≠ b ++ mark ++ r := by
  induction cs with
  | nil =>
    obtain ⟨m, ms, rfl⟩ := List.exists_cons_of_ne_nil solid
    simp [cut?, Text.after?]
  | cons c cs ih =>
    rw [cut?]
    cases here : Text.after? mark (c :: cs) with
    | some r =>
      have begins := Text.after?_eq_some_iff.1 here
      exact ⟨fun found => absurd found (Option.some_ne_none _), fun absent => absurd begins (absent [] r)⟩
    | none =>
      rw [Option.map_eq_none_iff, ih]
      constructor
      · intro absent b r same
        obtain ⟨b', -, same'⟩ := exists_later here same
        exact absent b' r same'
      · intro absent b r same
        exact absent (c :: b) r (congrArg (c :: ·) same)

theorem cut?_iff_suffix {mark : List Char} (solid : mark ≠ []) :
    cut? mark cs = some (before, rest) ↔
      cs = before ++ mark ++ rest ∧ ¬ mark <:+: (before ++ mark).dropLast := by
  rw [cut?_eq_some_iff solid]
  have pieces : before ++ mark ≠ [] := by simp [solid]
  obtain ⟨last, parts⟩ : ∃ last, (before ++ mark).dropLast ++ [last] = before ++ mark :=
    ⟨_, List.dropLast_concat_getLast pieces⟩
  refine and_congr_right fun same => ⟨?_, ?_⟩
  · rintro least ⟨b, r, inside⟩
    rw [← inside] at parts
    have earlier := least b (r ++ [last] ++ rest) (by rw [same, ← parts]; simp)
    have total := congrArg List.length parts
    simp at total earlier
    omega
  · intro once b r other
    refine Nat.le_of_not_lt fun early => ?_
    have starts : b ++ mark <+: cs := ⟨r, other.symm⟩
    have within : b ++ mark <+: before ++ mark := by
      apply List.prefix_of_prefix_length_le starts ⟨rest, same.symm⟩
      simp
      omega
    apply once
    obtain ⟨more, within⟩ := within
    have filled : more ≠ [] := by
      rintro rfl
      have := congrArg List.length within
      simp at this
      omega
    refine ⟨b, more.dropLast, ?_⟩
    rw [← within, List.dropLast_append_of_ne_nil filled]

theorem isTagChar_of_isAlpha (h : c.isAlpha = true) : isTagChar c = true := by
  simp [isTagChar, Char.isAlphanum, h]

theorem isTagChar_of_isSpace (h : isSpace c = true) : isTagChar c = false := by
  simp only [isSpace, Bool.or_eq_true, decide_eq_true_eq] at h
  rcases h with (((rfl | rfl) | rfl) | rfl) | rfl <;> rfl

theorem all_of_isName (h : isName name = true) : name.all isTagChar = true := by
  cases name with
  | nil => rfl
  | cons c cs =>
    rw [isName, Bool.and_eq_true] at h
    simp only [List.all_cons, isTagChar_of_isAlpha h.1, h.2, Bool.and_self]

theorem head_of_dropWhile (p : Char → Bool) (cs : List Char) : ∀ c ∈ (cs.dropWhile p).head?, p c = false := by
  induction cs with
  | nil => simp
  | cons c cs ih =>
    rw [List.dropWhile_cons]
    split
    · exact ih
    · next h => simpa using h

theorem tagName_of_isName (named : isName name = true) (whole : ∀ d ∈ after.head?, isTagChar d = false) :
    tagName (name ++ after) = (String.ofList (Text.lower name), after) ∧
      (name ++ after).takeWhile isTagChar = name := by
  obtain ⟨taken, dropped⟩ := takeWhile_append_stop (all_of_isName named) whole
  rw [tagName, taken, dropped]
  exact ⟨rfl, rfl⟩

theorem exists_name (h : c.isAlpha = true) (cs : List Char) :
    ∃ name after, c :: cs = name ++ after ∧ isName name = true ∧ ∀ d ∈ after.head?, isTagChar d = false := by
  refine ⟨c :: cs.takeWhile isTagChar, cs.dropWhile isTagChar, ?_, ?_, head_of_dropWhile _ _⟩
  · rw [List.cons_append, List.takeWhile_append_dropWhile]
  · rw [isName, h, Bool.true_and]
    exact List.all_takeWhile

theorem splitText_cons (plain : startsMarkup (c :: cs) = false) :
    splitText (c :: cs) = (c :: (splitText cs).1, (splitText cs).2) := by
  rw [splitText, if_neg (by rw [plain]; exact Bool.false_ne_true)]

theorem splitText_eq_iff :
    splitText cs = (w, rest) ↔ cs = w ++ rest ∧ (∀ v, v <:+ w → v ≠ [] → startsMarkup (v ++ rest) = false) ∧
      (rest = [] ∨ startsMarkup rest = true) := by
  induction cs generalizing w with
  | nil =>
    constructor
    · rintro ⟨⟩
      simp
    · rintro ⟨same, -⟩
      obtain ⟨rfl, rfl⟩ := List.append_eq_nil_iff.1 same.symm
      rfl
  | cons c cs ih =>
    rw [splitText]
    by_cases starts : startsMarkup (c :: cs) = true
    · rw [if_pos starts]
      constructor
      · rintro ⟨⟩
        simp [starts]
      · rintro ⟨same, plain, -⟩
        cases w with
        | nil => rw [same]; rfl
        | cons d w =>
          rw [same, plain _ List.suffix_rfl (List.cons_ne_nil _ _)] at starts
          cases starts
    · rw [if_neg starts]
      constructor
      · rintro ⟨⟩
        obtain ⟨same, plain, stop⟩ := ih.1 rfl
        refine ⟨congrArg (c :: ·) same, ?_, stop⟩
        intro v suffix filled
        rcases List.suffix_cons_iff.1 suffix with rfl | later
        · rw [List.cons_append, ← same]
          exact Bool.eq_false_iff.2 starts
        · exact plain v later filled
      · rintro ⟨same, plain, stop⟩
        cases w with
        | nil =>
          rcases stop with rfl | stop
          · cases same
          · rw [List.nil_append] at same
            exact absurd (same ▸ stop) starts
        | cons d w =>
          cases same
          rw [ih.2 ⟨rfl, fun v suffix => plain v (List.suffix_cons_iff.2 (.inr suffix)), stop⟩]

theorem suffix_value {v : List Char} (h : value cs = .ok (v, rest)) : rest <:+ cs := by
  unfold value at h
  split at h
  · next q body =>
    split at h
    · split at h
      · next before r hc =>
        cases h
        rw [Text.eq_of_cut? hc]
        exact ⟨q :: (before ++ [q]), by simp⟩
      · cases h
    · cases h
      exact List.dropWhile_suffix _
  · cases h
    exact List.suffix_rfl

theorem suffix_valueAfterName {v : List Char} (h : valueAfterName cs = .ok (v, rest)) : rest <:+ cs := by
  have space : skipSpace cs <:+ cs := List.dropWhile_suffix _
  unfold valueAfterName at h
  split at h
  · next r hr =>
    rw [hr] at space
    exact ((suffix_value h).trans (List.dropWhile_suffix _)).trans ((List.suffix_cons _ _).trans space)
  · cases h
    exact space

theorem suffix_attributes {tag : String} {found out : Fields String} {closed : Bool}
    (h : attributes tag found cs = .ok (out, closed, rest)) : rest <:+ cs := by
  have space : skipSpace cs <:+ cs := List.dropWhile_suffix _
  fun_induction attributes tag found cs with
  | case1 => cases h
  | case2 found cs r hs =>
    cases h
    rw [hs] at space
    exact ((List.suffix_cons _ _).trans (List.suffix_cons _ _)).trans space
  | case3 found cs r hs =>
    cases h
    rw [hs] at space
    exact (List.suffix_cons _ _).trans space
  | case4 => cases h
  | case5 found cs c r _ _ hs _ v r' hv ih =>
    rw [hs] at space
    have name := (suffix_valueAfterName hv).trans (List.dropWhile_suffix _)
    exact ((ih h (List.dropWhile_suffix _)).trans name).trans ((List.suffix_cons _ _).trans space)
  | case6 found cs c r _ _ hs _ ih =>
    rw [hs] at space
    exact (ih h (List.dropWhile_suffix _)).trans ((List.suffix_cons _ _).trans space)

theorem prefix_of_startsComment (h : startsComment cs = true) : ['<', '!', '-', '-'] <+: cs := by
  unfold startsComment at h
  split at h
  · exact ⟨_, rfl⟩
  · cases h

theorem exists_name_of_startsClose (h : startsClose cs = true) :
    ∃ name after, cs = '<' :: '/' :: (name ++ after) ∧ isName name = true ∧ ∀ d ∈ after.head?, isTagChar d = false := by
  unfold startsClose at h
  split at h
  · obtain ⟨name, after, same, named⟩ := exists_name h _
    exact ⟨name, after, congrArg ('<' :: '/' :: ·) same, named⟩
  · cases h

theorem exists_name_of_startsTag (h : startsTag cs = true) :
    ∃ name after, cs = '<' :: (name ++ after) ∧ isName name = true ∧ ∀ d ∈ after.head?, isTagChar d = false := by
  unfold startsTag at h
  split at h
  · obtain ⟨name, after, same, named⟩ := exists_name h _
    exact ⟨name, after, congrArg ('<' :: ·) same, named⟩
  · cases h

theorem lexeme_of_comment (starts : startsComment cs = true) (h : comment cs = .ok (token, rest)) :
    ∃ w, cs = w ++ rest ∧ Lexeme w token rest := by
  have opens := prefix_of_startsComment starts
  rw [comment] at h
  split at h
  · next before r found =>
    cases h
    obtain ⟨same, once⟩ := (cut?_iff_suffix (by simp)).1 found
    refine ⟨before ++ ['-', '-', '>'], same, .comment ?_ (List.suffix_append _ _) once⟩
    apply List.prefix_of_prefix_length_le opens ⟨rest, same.symm⟩
    cases before with
    | nil =>
      obtain ⟨more, opens⟩ := opens
      rw [same] at opens
      cases opens
    | cons => simp
  · cases h

theorem lexeme_of_close (named : isName name = true) (whole : ∀ d ∈ after.head?, isTagChar d = false)
    (h : close (name ++ after) = .ok (token, rest)) :
    ∃ w, '<' :: '/' :: (name ++ after) = w ++ rest ∧ Lexeme w token rest := by
  rw [close, (tagName_of_isName named whole).1] at h
  dsimp only at h
  split at h
  · next r ends =>
    cases h
    have parts : after.takeWhile isSpace ++ '>' :: rest = after := by
      rw [← ends, skipSpace, List.takeWhile_append_dropWhile]
    exact ⟨'<' :: '/' :: (name ++ after.takeWhile isSpace ++ ['>']), by simp [parts], .close named List.all_takeWhile⟩
  · cases h

theorem lexeme_of_start (named : isName name = true) (whole : ∀ d ∈ after.head?, isTagChar d = false)
    (h : start (name ++ after) = .ok (token, rest)) :
    ∃ w, '<' :: (name ++ after) = w ++ rest ∧ Lexeme w token rest := by
  obtain ⟨tag, raw⟩ := tagName_of_isName named whole
  rw [start, tag, raw] at h
  dsimp only at h
  split at h
  · next shown =>
    cases h
    obtain ⟨body, rfl⟩ := suffix_attributes shown
    exact ⟨'<' :: (name ++ body), by simp, .start named whole shown⟩
  · cases h

theorem next_of_close (named : isName name = true) (after : List Char) :
    next '<' ('/' :: (name ++ after)) = close (name ++ after) := by
  cases name with
  | nil => cases named
  | cons d ds =>
    rw [isName, Bool.and_eq_true] at named
    simp [next, startsComment, startsClose, named.1]

theorem next_of_ended {r : List Char} (named : isName name = true) (whole : ∀ d ∈ after.head?, isTagChar d = false)
    (ends : skipSpace after = '>' :: r) :
    next '<' ('/' :: (name ++ after)) = .ok (.close (String.ofList (Text.lower name)) r, r) := by
  rw [next_of_close named, close, (tagName_of_isName named whole).1]
  simp only [ends]

theorem next_of_unended (named : isName name = true) (whole : ∀ d ∈ after.head?, isTagChar d = false)
    (ends : ∀ r, skipSpace after ≠ '>' :: r) :
    next '<' ('/' :: (name ++ after)) = .error ⟨skipSpace after, .openClosingTag⟩ := by
  rw [next_of_close named, close, (tagName_of_isName named whole).1]
  dsimp only
  split
  · next r here => exact absurd here (ends r)
  · rfl

theorem next_of_start (named : isName name = true) (after : List Char) :
    next '<' (name ++ after) = start (name ++ after) := by
  cases name with
  | nil => cases named
  | cons d ds =>
    rw [isName, Bool.and_eq_true] at named
    have apart : d ≠ '!' ∧ d ≠ '/' := by
      constructor <;> rintro rfl <;> simp at named
    simp [next, startsComment, startsClose, startsTag, named.1, apart]

theorem next_of_lexeme (lexeme : Lexeme (c :: w) token rest) : next c (w ++ rest) = .ok (token, rest) := by
  cases lexeme with
  | comment opens ends once =>
    have starts : startsComment (c :: (w ++ rest)) = true := by
      obtain ⟨more, same⟩ := opens
      rw [← List.cons_append, ← same]
      rfl
    obtain ⟨before, parts⟩ := ends
    have found : cut? ['-', '-', '>'] (c :: (w ++ rest)) = some (before, rest) := by
      rw [cut?_iff_suffix (List.cons_ne_nil _ _), parts]
      exact ⟨rfl, once⟩
    rw [next, if_pos starts, comment, found]
  | @start name body _ found closed named whole shown =>
    obtain ⟨tag, raw⟩ := tagName_of_isName named whole
    rw [List.append_assoc, next_of_start named, start, tag, raw]
    simp only [shown]
  | @close name blanks _ named blank =>
    have whole : ∀ d ∈ (blanks ++ '>' :: rest).head?, isTagChar d = false := by
      cases blanks with
      | nil => simp [isTagChar]
      | cons b blanks =>
        rintro d ⟨⟩
        exact isTagChar_of_isSpace (List.all_eq_true.1 blank b List.mem_cons_self)
    have space : skipSpace (blanks ++ '>' :: rest) = '>' :: rest :=
      (takeWhile_append_stop blank (by simp [isSpace])).2
    have parts : name ++ blanks ++ ['>'] ++ rest = name ++ (blanks ++ '>' :: rest) := by simp
    rw [List.cons_append, parts, next_of_close named, close, (tagName_of_isName named whole).1]
    simp only [space]
  | text filled plain stop =>
    have here := plain _ List.suffix_rfl filled
    have split : splitText (w ++ rest) = (w, rest) :=
      splitText_eq_iff.2 ⟨rfl, fun v suffix => plain v (List.suffix_cons_iff.2 (.inr suffix)), stop⟩
    rw [List.cons_append, startsMarkup, Bool.or_eq_false_iff, Bool.or_eq_false_iff] at here
    simp [next, here.1.1, here.1.2, here.2, split]

theorem Lexeme.ne_nil (lexeme : Lexeme w token rest) : w ≠ [] := by
  cases lexeme with
  | comment opens =>
    rintro rfl
    simp at opens
  | text filled => exact filled
  | _ => exact List.cons_ne_nil _ _

theorem next_iff : next c cs = .ok (token, rest) ↔ ∃ w, c :: cs = w ++ rest ∧ Lexeme w token rest := by
  constructor
  · intro h
    unfold next at h
    split at h
    · next starts => exact lexeme_of_comment starts h
    split at h
    · next starts =>
      obtain ⟨name, after, same, named, whole⟩ := exists_name_of_startsClose starts
      cases same
      exact lexeme_of_close named whole h
    split at h
    · next starts =>
      obtain ⟨name, after, same, named, whole⟩ := exists_name_of_startsTag starts
      cases same
      exact lexeme_of_start named whole h
    · next noComment noClose noTag =>
      cases h
      have plain : startsMarkup (c :: cs) = false := by simp [startsMarkup, noComment, noClose, noTag]
      obtain ⟨same, inner, stop⟩ := splitText_eq_iff.1 (splitText_cons plain)
      exact ⟨_, same, .text (List.cons_ne_nil _ _) inner stop⟩
  · rintro ⟨w, same, lexeme⟩
    cases w with
    | nil => exact absurd rfl lexeme.ne_nil
    | cons d w =>
      cases same
      exact next_of_lexeme lexeme

inductive Splits : List Char → List Token → List Char → Prop
  | nil (rest : List Char) : Splits rest [] rest
  | cons {w mid rest : List Char} {token : Token} {ts : List Token} (lexeme : Lexeme w token mid)
    (later : Splits mid ts rest) : Splits (w ++ mid) (token :: ts) rest

namespace Splits

theorem suffix (splits : Splits cs ts rest) : rest <:+ cs := by
  induction splits with
  | nil rest => exact List.suffix_rfl
  | @cons w mid rest token ts lexeme later ih => exact ih.trans (List.suffix_append _ _)

end Splits

/-- A fault is at a place in the text; that a closing tag has no element is not seen yet. -/
def Stop.Within (stop : Stop) (cs : List Char) : Prop :=
  stop.rest <:+ cs ∧ ∀ tag, stop.fault ≠ .unmatchedClosingTag tag

theorem Stop.Within.mono {stop : Stop} {ds : List Char} (h : stop.Within cs) (suffix : cs <:+ ds) : stop.Within ds :=
  ⟨h.1.trans suffix, h.2⟩

theorem within_value {stop : Stop} (h : value cs = .error stop) : stop.Within cs := by
  unfold value at h
  split at h
  · split at h
    · split at h
      · cases h
      · cases h
        exact ⟨List.suffix_rfl, nofun⟩
    · cases h
  · cases h

theorem within_valueAfterName {stop : Stop} (h : valueAfterName cs = .error stop) : stop.Within cs := by
  have space : skipSpace cs <:+ cs := List.dropWhile_suffix _
  unfold valueAfterName at h
  split at h
  · next r hr =>
    rw [hr] at space
    exact (within_value h).mono ((List.dropWhile_suffix _).trans ((List.suffix_cons _ _).trans space))
  · cases h

theorem within_attributes {tag : String} {found : Fields String} {stop : Stop}
    (h : attributes tag found cs = .error stop) : stop.Within cs := by
  have space : skipSpace cs <:+ cs := List.dropWhile_suffix _
  fun_induction attributes tag found cs with
  | case1 =>
    cases h
    exact ⟨List.nil_suffix, by rintro _ ⟨⟩⟩
  | case2 => cases h
  | case3 => cases h
  | case4 found cs c r _ _ hs _ stop' hv =>
    cases h
    rw [hs] at space
    exact (within_valueAfterName hv).mono ((List.dropWhile_suffix _).trans ((List.suffix_cons _ _).trans space))
  | case5 found cs c r _ _ hs _ v r' hv ih =>
    rw [hs] at space
    have name := (suffix_valueAfterName hv).trans (List.dropWhile_suffix _)
    exact (ih h (List.dropWhile_suffix _)).mono (name.trans ((List.suffix_cons _ _).trans space))
  | case6 found cs c r _ _ hs _ ih =>
    rw [hs] at space
    exact (ih h (List.dropWhile_suffix _)).mono ((List.suffix_cons _ _).trans space)

theorem within_next {stop : Stop} (h : next c cs = .error stop) : stop.Within (c :: cs) := by
  unfold next at h
  split at h
  · rw [comment] at h
    split at h
    · cases h
    · cases h
      exact ⟨List.suffix_rfl, by rintro _ ⟨⟩⟩
  split at h
  · simp only [close, tagName] at h
    split at h
    · cases h
    · cases h
      refine ⟨?_, by rintro _ ⟨⟩⟩
      exact ((List.dropWhile_suffix _).trans (List.dropWhile_suffix _)).trans
        ((List.drop_suffix 1 cs).trans (List.suffix_cons _ _))
  split at h
  · simp only [start, tagName] at h
    split at h
    · cases h
    · next ended =>
      cases h
      exact (within_attributes ended).mono ((List.dropWhile_suffix _).trans (List.suffix_cons _ _))
  · cases h

end DataBinding.Markup
