import Mathlib.Data.List.TakeWhile
import DataBinding.Proofs.ReadTrees
import DataBinding.Selector

namespace DataBinding

namespace Text

variable {c d : Char} {cs w : List Char}

def IsWord (w cs : List Char) : Prop :=
  w ≠ [] ∧ (∀ c ∈ w, isBlank c = false) ∧
    ∃ before after, cs = before ++ w ++ after ∧ (∀ c ∈ before.getLast?, isBlank c = true) ∧
      ∀ c ∈ after.head?, isBlank c = true

theorem words_solid (hc : isBlank c = false) (hd : isBlank d = false) (cs : List Char) :
    ∃ w ws, words (d :: cs) = w :: ws ∧ words (c :: d :: cs) = (c :: w) :: ws := by
  have filled : words (d :: cs) ≠ [] := by
    cases cs with
    | nil => simp [words, hd]
    | cons e cs =>
      simp only [words, hd, Bool.false_eq_true, ↓reduceIte]
      split
      · exact List.cons_ne_nil _ _
      · split <;> exact List.cons_ne_nil _ _
  obtain ⟨w, ws, split⟩ := List.exists_cons_of_ne_nil filled
  exact ⟨w, ws, split, by simp [words, hc, hd, split]⟩

theorem words_end (hc : isBlank c = false) (hd : isBlank d = true) (cs : List Char) :
    words (c :: d :: cs) = [c] :: words cs := by
  rw [words, hc, hd, words_blank hd]
  rfl

theorem words_append_blank (blank : isBlank c = true) (x y : List Char) :
    words (x ++ c :: y) = words x ++ words y := by
  induction x with
  | nil => exact words_blank blank y
  | cons d x ih =>
    cases hd : isBlank d with
    | true => rw [List.cons_append, words_blank hd, ih, words_blank hd]
    | false =>
      cases x with
      | nil => rw [List.singleton_append, words_end hd blank, words, hd]; rfl
      | cons e x =>
        cases he : isBlank e with
        | true =>
          rw [List.cons_append, words_blank he, words_blank he] at ih
          rw [List.cons_append, List.cons_append, words_end hd he, ih, words_end hd he, List.cons_append]
        | false =>
          obtain ⟨w, ws, split, longer⟩ := words_solid hd he x
          obtain ⟨w', ws', split', longer'⟩ := words_solid hd he (x ++ c :: y)
          rw [List.cons_append, split, split'] at ih
          rw [List.cons_append, List.cons_append, longer, longer']
          cases ih
          rfl

theorem words_of_solid (filled : w ≠ []) (solid : ∀ c ∈ w, isBlank c = false) : words w = [w] := by
  induction w with
  | nil => exact absurd rfl filled
  | cons c w ih =>
    have hc := solid c List.mem_cons_self
    cases w with
    | nil => rw [words, hc]; rfl
    | cons d w =>
      obtain ⟨v, vs, split, longer⟩ := words_solid hc (solid d (by simp)) w
      rw [ih (List.cons_ne_nil _ _) fun e he => solid e (List.mem_cons_of_mem _ he)] at split
      cases split
      exact longer

theorem exists_blank (cs : List Char) :
    (∀ c ∈ cs, isBlank c = false) ∨ ∃ x c y, cs = x ++ c :: y ∧ (∀ c ∈ x, isBlank c = false) ∧ isBlank c = true := by
  induction cs with
  | nil => exact .inl nofun
  | cons d cs ih =>
    cases hd : isBlank d with
    | true => exact .inr ⟨[], d, cs, rfl, nofun, hd⟩
    | false =>
      rcases ih with solid | ⟨x, c, y, rfl, solid, blank⟩
      · exact .inl (List.forall_mem_cons.2 ⟨hd, solid⟩)
      · exact .inr ⟨d :: x, c, y, rfl, List.forall_mem_cons.2 ⟨hd, solid⟩, blank⟩

theorem isWord_of_mem_words (mem : w ∈ words cs) : IsWord w cs := by
  have alone {x : List Char} (solid : ∀ c ∈ x, isBlank c = false) (mem : w ∈ words x) : x ≠ [] ∧ w = x := by
    have filled : x ≠ [] := by
      rintro rfl
      cases mem
    rw [words_of_solid filled solid, List.mem_singleton] at mem
    exact ⟨filled, mem⟩
  -- the first blank parts the text, and a shorter one is left
  induction hn : cs.length using Nat.strongRecOn generalizing cs with
  | ind n ih =>
    rcases exists_blank cs with solid | ⟨x, c, y, rfl, solid, blank⟩
    · obtain ⟨filled, rfl⟩ := alone solid mem
      exact ⟨filled, solid, [], [], by simp, nofun, nofun⟩
    · rw [words_append_blank blank] at mem
      rcases List.mem_append.1 mem with mem | mem
      · obtain ⟨filled, rfl⟩ := alone solid mem
        refine ⟨filled, solid, [], c :: y, rfl, nofun, ?_⟩
        rintro _ ⟨⟩
        exact blank
      · obtain ⟨filled, solid, before, after, rfl, opened, closed⟩ := ih y.length (by simp at hn; omega) mem rfl
        refine ⟨filled, solid, x ++ c :: before, after, by simp, ?_, closed⟩
        cases before with
        | nil =>
          simpa using blank
        | cons d before =>
          simpa [List.getLast?_append, List.getLast?_cons_cons] using opened

theorem mem_words_iff : w ∈ words cs ↔ IsWord w cs := by
  refine ⟨isWord_of_mem_words, ?_⟩
  rintro ⟨filled, solid, before, after, rfl, opened, closed⟩
  have first : w ∈ words (w ++ after) := by
    cases after with
    | nil => rw [List.append_nil, words_of_solid filled solid, List.mem_singleton]
    | cons c after =>
      rw [words_append_blank (closed c rfl), words_of_solid filled solid]
      exact List.mem_cons_self
  rcases List.eq_nil_or_concat before with rfl | ⟨before, c, rfl⟩
  · exact first
  · rw [List.append_assoc, List.concat_eq_append, List.append_assoc, List.singleton_append,
      words_append_blank (opened c (by simp))]
    exact List.mem_append_right _ first

def Around (w cs : List Char) : Prop :=
  ∃ before after, cs = before ++ w ++ after ∧ (∀ c ∈ before, isBlank c = true) ∧ ∀ c ∈ after, isBlank c = true

theorem around_trim (cs : List Char) : Around (trim cs) cs := by
  refine ⟨cs.takeWhile isBlank, ((cs.dropWhile isBlank).reverse.takeWhile isBlank).reverse, ?_, ?_, ?_⟩
  · rw [trim, List.append_assoc, ← List.reverse_append, List.takeWhile_append_dropWhile, List.reverse_reverse,
      List.takeWhile_append_dropWhile]
  · exact fun c mem => Markup.of_mem_takeWhile mem
  · exact fun c mem => Markup.of_mem_takeWhile (List.mem_reverse.1 mem)

structure Tight (w : List Char) : Prop where
  first : ∀ c ∈ w.head?, isBlank c = false
  last : ∀ c ∈ w.getLast?, isBlank c = false

theorem tight_of_solid (solid : ∀ c ∈ w, isBlank c = false) : Tight w where
  first c hc := solid c (List.mem_of_head? hc)
  last c hc := solid c (List.mem_of_getLast? hc)

theorem dropWhile_of_head? (first : ∀ c ∈ cs.head?, isBlank c = false) : cs.dropWhile isBlank = cs := by
  cases cs with
  | nil => rfl
  | cons c cs => exact List.dropWhile_cons_of_neg (by simp [first c rfl])

theorem trim_of_around (around : Around w cs) (tight : Tight w) : trim cs = w := by
  obtain ⟨before, after, rfl, opened, closed⟩ := around
  rw [trim, List.append_assoc, List.dropWhile_append_of_pos opened]
  cases w with
  | nil =>
    rw [List.nil_append, List.dropWhile_eq_nil_iff.2 closed]
    rfl
  | cons c w =>
    have first : (c :: w ++ after).dropWhile isBlank = c :: w ++ after := dropWhile_of_head? tight.first
    have last : ∀ d ∈ (c :: w).reverse.head?, isBlank d = false := by
      rw [List.head?_reverse]
      exact tight.last
    rw [first, List.reverse_append, List.dropWhile_append_of_pos (by simpa using closed), dropWhile_of_head? last,
      List.reverse_reverse]

end Text

namespace Selector

inductive Part
  | id (name : String)
  | classed (name : String)

namespace Part

def marker : Part → Char
  | id _ => '#'
  | classed _ => '.'

def name : Part → String
  | id name => name
  | classed name => name

def isId : Part → Bool
  | id _ => true
  | classed _ => false

def written (p : Part) : List Char := p.marker :: p.name.toList

def chunk (p : Part) : Char × List Char := (p.marker, p.name.toList)

def Borne (attributes : Fields String) : Part → Prop
  | id name => attributes.get? "id" = some name
  | classed name => ∃ value, attributes.get? "class" = some value ∧ Text.IsWord name.toList value.toList

end Part

structure Form where
  tag : Option String := none
  parts : List Part := []

def Unmarked (name : String) : Prop := ∀ c ∈ name.toList, isMarker c = false

namespace Form

def text (w : Form) : String := String.ofList ((w.tag.getD "").toList ++ w.parts.flatMap Part.written)

structure Sound (w : Form) : Prop where
  tag : ∀ t ∈ w.tag, t ≠ "" ∧ Unmarked t
  names : ∀ p ∈ w.parts, p.name ≠ "" ∧ Unmarked p.name
  once : w.parts.countP Part.isId ≤ 1

structure Spells (w : Form) (text : String) : Prop where
  sound : w.Sound
  filled : w.text ≠ ""
  solid : ∀ c ∈ w.text.toList, isBlank c = false
  written : Text.Around w.text.toList text.toList

def Fits (w : Form) (tag : String) (attributes : Fields String) : Prop :=
  (∀ t ∈ w.tag, lowerCase t = lowerCase tag) ∧ ∀ p ∈ w.parts, p.Borne attributes

end Form

variable {s s' : Selector} {p : Part} {ps : List Part} {w w' : Form} {text text' : String}

theorem Part.isMarker_marker (p : Part) : isMarker p.marker = true := by cases p <;> rfl

theorem Part.exists_of_isMarker {c : Char} (marked : isMarker c = true) (cs : List Char) :
    ∃ p : Part, p.chunk = (c, cs) := by
  simp only [isMarker, Bool.or_eq_true, decide_eq_true_eq] at marked
  rcases marked with rfl | rfl
  · exact ⟨.id (String.ofList cs), by simp [chunk, marker, name]⟩
  · exact ⟨.classed (String.ofList cs), by simp [chunk, marker, name]⟩

theorem chunks_append {cs : List Char} (plain : ∀ c ∈ cs, isMarker c = false) (rest : List Char) :
    chunks (cs ++ rest) = (cs ++ (chunks rest).1, (chunks rest).2) := by
  induction cs with
  | nil => rfl
  | cons c cs ih =>
    rw [List.cons_append, chunks, plain c List.mem_cons_self, ih fun d hd => plain d (List.mem_cons_of_mem _ hd)]
    rfl

theorem chunks_written (plain : ∀ p ∈ ps, Unmarked p.name) :
    chunks (ps.flatMap Part.written) = ([], ps.map Part.chunk) := by
  induction ps with
  | nil => rfl
  | cons p ps ih =>
    rw [List.flatMap_cons, Part.written, List.cons_append, chunks, if_pos p.isMarker_marker,
      chunks_append (plain p List.mem_cons_self), ih fun q hq => plain q (List.mem_cons_of_mem _ hq), List.append_nil]
    rfl

theorem exists_written (cs : List Char) : ∃ (tag : List Char) (ps : List Part), cs = tag ++ ps.flatMap Part.written ∧
    (∀ c ∈ tag, isMarker c = false) ∧ ∀ p ∈ ps, Unmarked p.name := by
  induction cs with
  | nil => exact ⟨[], [], rfl, nofun, nofun⟩
  | cons c cs ih =>
    obtain ⟨tag, ps, rfl, plain, names⟩ := ih
    cases marked : isMarker c with
    | true =>
      obtain ⟨p, same⟩ := Part.exists_of_isMarker marked tag
      obtain ⟨rfl, rfl⟩ := Prod.mk.inj same
      exact ⟨[], p :: ps, rfl, nofun, List.forall_mem_cons.2 ⟨plain, names⟩⟩
    | false => exact ⟨c :: tag, ps, rfl, List.forall_mem_cons.2 ⟨marked, plain⟩, names⟩

def plus (s : Selector) : Part → Selector
  | .id name => { s with id := some name }
  | .classed name => { s with classes := s.classes ++ [name] }

def Takes (s : Selector) (p : Part) : Prop := p.name ≠ "" ∧ (p.isId = true → s.id = none)

instance (s : Selector) (p : Part) : Decidable (s.Takes p) :=
  inferInstanceAs (Decidable (p.name ≠ "" ∧ (p.isId = true → s.id = none)))

theorem add?_chunk (s : Selector) (p : Part) : s.add? p.chunk = if s.Takes p then some (s.plus p) else none := by
  rw [Part.chunk, add?]
  by_cases empty : p.name = ""
  · rw [if_pos (by rw [empty]; rfl), if_neg fun takes => takes.1 empty]
  · rw [if_neg (by rwa [List.isEmpty_iff, String.toList_eq_nil_iff]), String.ofList_toList]
    cases p with
    | id name =>
      rw [Part.marker, if_neg (by decide)]
      cases taken : s.id with
      | none => rw [if_pos (show none.isNone = true from rfl), if_pos ⟨empty, fun _ => taken⟩]; rfl
      | some i =>
        rw [if_neg (by simp), if_neg]
        intro takes
        cases taken.symm.trans (takes.2 rfl)
    | classed name => rw [Part.marker, if_pos (by decide), if_pos ⟨empty, nofun⟩]; rfl

theorem contains_wordsOf {value : Option String} {name : String} : (wordsOf value).contains name = true ↔
    ∃ v, value = some v ∧ Text.IsWord name.toList v.toList := by
  rw [List.contains_iff_mem, wordsOf, List.mem_map]
  cases value with
  | none => simp [Text.words]
  | some v =>
    constructor
    · rintro ⟨w, mem, rfl⟩
      rw [String.toList_ofList]
      exact ⟨v, rfl, Text.mem_words_iff.1 mem⟩
    · rintro ⟨_, ⟨⟩, word⟩
      exact ⟨name.toList, Text.mem_words_iff.2 word, String.ofList_toList⟩

theorem accepts_plus (takes : s.Takes p) (tag : String) (attributes : Fields String) :
    (s.plus p).accepts tag attributes = true ↔ s.accepts tag attributes = true ∧ p.Borne attributes := by
  cases p with
  | id name =>
    have free : s.id = none := takes.2 rfl
    simp only [accepts, plus, free, Option.all_none, Option.all_some, Bool.and_eq_true, decide_eq_true_eq, Part.Borne,
      and_true]
    exact and_right_comm
  | classed name =>
    simp only [accepts, plus, Bool.and_eq_true, List.all_append, List.all_cons, List.all_nil, contains_wordsOf,
      Part.Borne, and_true, and_assoc]

theorem accepts_of_addAll? (added : s.addAll? (ps.map Part.chunk) = some s') (tag : String)
    (attributes : Fields String) :
    s'.accepts tag attributes = true ↔ s.accepts tag attributes = true ∧ ∀ p ∈ ps, p.Borne attributes := by
  induction ps generalizing s with
  | nil =>
    cases added
    simp
  | cons p ps ih =>
    rw [List.map_cons, addAll?, add?_chunk] at added
    split at added
    · next takes => rw [ih added, accepts_plus takes, List.forall_mem_cons, and_assoc]
    · cases added

def ids (s : Selector) : Nat := s.id.toList.length

theorem ids_le (s : Selector) : s.ids ≤ 1 := by
  rw [ids]
  cases s.id <;> simp

theorem takes_iff : s.Takes p ↔ p.name ≠ "" ∧ s.ids + [p].countP Part.isId ≤ 1 := by
  apply and_congr_right
  intro _
  cases p with
  | id name =>
    cases taken : s.id <;> simp [Part.isId, ids, taken]
  | classed name => simp [Part.isId, ids_le]

theorem ids_plus (takes : s.Takes p) : (s.plus p).ids = s.ids + [p].countP Part.isId := by
  cases p with
  | id name => simp [plus, ids, Part.isId, takes.2 rfl]
  | classed name => rfl

theorem isSome_addAll? (s : Selector) (ps : List Part) : (s.addAll? (ps.map Part.chunk)).isSome = true ↔
    (∀ p ∈ ps, p.name ≠ "") ∧ s.ids + ps.countP Part.isId ≤ 1 := by
  induction ps generalizing s with
  | nil => simp [addAll?, ids_le]
  | cons p ps ih =>
    have count : (p :: ps).countP Part.isId = [p].countP Part.isId + ps.countP Part.isId := by
      rw [← List.countP_append, List.singleton_append]
    rw [List.map_cons, addAll?, add?_chunk, count, List.forall_mem_cons]
    split
    · next takes =>
      rw [Option.bind_some, ih, ids_plus takes, Nat.add_assoc]
      exact and_congr_left fun _ => (and_iff_right takes.1).symm
    · next refused =>
      -- the name is empty, or it is a second id
      rw [takes_iff] at refused
      constructor
      · exact nofun
      · rintro ⟨⟨filled, -⟩, once⟩
        exact absurd ⟨filled, by omega⟩ refused

@[simp] theorem lowerCase_lowerCase (t : String) : lowerCase (lowerCase t) = lowerCase t := by
  rw [lowerCase, lowerCase, String.toList_ofList, Markup.lower_of_not_isUpper]
  intro c hc
  obtain ⟨c, -, rfl⟩ := List.mem_map.1 hc
  exact Markup.isUpper_toLower c

namespace Form

@[simp] theorem toList_text (w : Form) : w.text.toList = (w.tag.getD "").toList ++ w.parts.flatMap Part.written :=
  String.toList_ofList

theorem chunks_text (sound : w.Sound) :
    chunks w.text.toList = ((w.tag.getD "").toList, w.parts.map Part.chunk) := by
  have plain : Unmarked (w.tag.getD "") := by
    cases tag : w.tag with
    | none => exact nofun
    | some t => exact (sound.tag t tag).2
  rw [toList_text, chunks_append plain, chunks_written fun p hp => (sound.names p hp).2, List.append_nil]

theorem Spells.read_eq (h : w.Spells text) :
    read? text = addAll? { tag := w.tag.map lowerCase } (w.parts.map Part.chunk) := by
  have filled : w.text.toList ≠ [] := fun empty => h.filled (String.toList_eq_nil_iff.1 empty)
  have solid : w.text.toList.any isBlank = false := by
    rw [List.any_eq_false]
    exact fun c hc => by simp [h.solid c hc]
  rw [read?, Text.trim_of_around h.written (Text.tight_of_solid h.solid), chunks_text h.sound]
  simp only [List.isEmpty_eq_false_iff.2 filled, solid, Bool.or_self, Bool.false_eq_true, ↓reduceIte]
  cases tag : w.tag with
  | none => rfl
  | some t =>
    have named : t.toList ≠ [] := fun empty => (h.sound.tag t tag).1 (String.toList_eq_nil_iff.1 empty)
    simp [named, lowerCase]

theorem Spells.parsed (h : w.Spells text) :
    ∃ s, parse text = .ok s ∧ ∀ tag attributes, s.accepts tag attributes = true ↔ w.Fits tag attributes := by
  have readable : (read? text).isSome = true := by
    rw [h.read_eq, isSome_addAll?]
    exact ⟨fun p hp => (h.sound.names p hp).1, by simpa [ids] using h.sound.once⟩
  obtain ⟨s, read⟩ := Option.isSome_iff_exists.1 readable
  refine ⟨s, parse_eq_ok_iff.2 read, fun tag attributes => ?_⟩
  rw [h.read_eq] at read
  rw [accepts_of_addAll? read, Fits]
  apply and_congr_left
  intro _
  cases w.tag with
  | none => simp [accepts]
  | some t => simp [accepts]

end Form

theorem exists_form (read : read? text = some s) : ∃ w : Form, w.Spells text := by
  obtain ⟨tag, ps, split, plain, names⟩ := exists_written (Text.trim text.toList)
  have parts : chunks (Text.trim text.toList) = (tag, ps.map Part.chunk) := by
    rw [split, chunks_append plain, chunks_written names, List.append_nil]
  let w : Form := { tag := if tag.isEmpty then none else some (String.ofList tag), parts := ps }
  have written : w.text.toList = Text.trim text.toList := by
    rw [split, Form.toList_text]
    cases tag <;> simp [w]
  rw [read?, parts, ← written] at read
  split at read
  · cases read
  · next proper =>
    simp only [Bool.or_eq_true, not_or, List.isEmpty_iff, List.any_eq_true, not_exists, not_and, Bool.not_eq_true]
      at proper
    obtain ⟨filled, solid⟩ := proper
    obtain ⟨named, once⟩ := (isSome_addAll? _ _).1 (Option.isSome_iff_exists.2 ⟨s, read⟩)
    refine ⟨w, ⟨?_, fun p hp => ⟨named p hp, names p hp⟩, Nat.le_of_add_left_le once⟩, ?_, solid, ?_⟩
    · intro t ht
      cases tag with
      | nil => cases ht
      | cons c tag =>
        cases ht
        refine ⟨by simp, ?_⟩
        rw [Unmarked, String.toList_ofList]
        exact plain
    · exact fun empty => filled (String.toList_eq_nil_iff.2 empty)
    · rw [written]
      exact Text.around_trim _

theorem Form.mem_text {c : Char} : c ∈ w.text.toList ↔
    (∃ t ∈ w.tag, c ∈ t.toList) ∨ ∃ p ∈ w.parts, c ∈ p.written := by
  rw [toList_text, List.mem_append, List.mem_flatMap]
  cases w.tag <;> simp

theorem Form.Spells.rearranged (h : w.Spells text) (written : Text.Around w'.text.toList text'.toList)
    (tag : w'.tag = w.tag) (parts : ∀ p, p ∈ w'.parts ↔ p ∈ w.parts) (once : w'.parts.countP Part.isId ≤ 1) :
    w'.Spells text' := by
  have same (c : Char) : c ∈ w'.text.toList ↔ c ∈ w.text.toList := by simp only [mem_text, tag, parts]
  refine ⟨?_, ?_, fun c hc => h.solid c ((same c).1 hc), written⟩
  · exact ⟨fun t ht => h.sound.tag t (tag ▸ ht), fun p hp => h.sound.names p ((parts p).1 hp), once⟩
  · intro empty
    apply h.filled
    rw [← String.toList_eq_nil_iff, List.eq_nil_iff_forall_not_mem] at empty ⊢
    exact fun c hc => empty c ((same c).2 hc)

/-- A text is a selector if and only if it is a tag and marked names, with blanks around them. Not all of them are left
out, none is empty, one is an id at most, and no blank stands inside. The selector means an element if and only if the
element has the tag, up to the case of letters, the id, and every class among the words of its own classes. A text with
the same tag and the same names means the same elements, in whichever order and however often they are written. -/
theorem parse_written (text : String) :
    ((∃ s, parse text = .ok s) ↔ ∃ w : Form, w.Spells text) ∧
      ((∀ w : Form, ¬ w.Spells text) → parse text = .error (.invalidSelector (trimmed text))) ∧
      ∀ (w : Form) (s : Selector), w.Spells text → parse text = .ok s →
        (∀ tag attributes, s.accepts tag attributes = true ↔ w.Fits tag attributes) ∧
          ∀ (w' : Form) (text' : String), Text.Around w'.text.toList text'.toList → w'.tag = w.tag →
            (∀ p, p ∈ w'.parts ↔ p ∈ w.parts) → w'.parts.countP Part.isId ≤ 1 →
              ∃ s', parse text' = .ok s' ∧ ∀ tag attributes, s'.accepts tag attributes = s.accepts tag attributes := by
  refine ⟨⟨?_, ?_⟩, ?_, ?_⟩
  · rintro ⟨s, parsed⟩
    exact exists_form (parse_eq_ok_iff.1 parsed)
  · rintro ⟨w, spells⟩
    obtain ⟨s, parsed, -⟩ := spells.parsed
    exact ⟨s, parsed⟩
  · intro unspelled
    refine parse_eq_error_iff.2 ⟨?_, rfl⟩
    rw [Option.eq_none_iff_forall_ne_some]
    intro s read
    obtain ⟨w, spells⟩ := exists_form read
    exact unspelled w spells
  · intro w s spells parsed
    obtain ⟨s₁, parsed₁, means⟩ := spells.parsed
    cases parsed.symm.trans parsed₁
    refine ⟨means, ?_⟩
    intro w' text' written tag parts once
    obtain ⟨s', parsed', means'⟩ := (spells.rearranged written tag parts once).parsed
    refine ⟨s', parsed', fun name attributes => ?_⟩
    rw [Bool.eq_iff_iff, means, means', Form.Fits, Form.Fits]
    simp only [tag, parts]

end Selector

end DataBinding
