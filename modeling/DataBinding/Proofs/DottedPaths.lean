import Mathlib.Data.List.Forall2
import DataBinding.Error
import DataBinding.Proofs.SelectorGrammar

namespace DataBinding

namespace Text

variable {separator c : Char} {cs u v w after : List Char} {ps ws : List (List Char)}

structure Separated (separator : Char) (ps : List (List Char)) (cs : List Char) : Prop where
  filled : ps ≠ []
  plain : ∀ p ∈ ps, separator ∉ p
  joined : [separator].intercalate ps = cs

theorem pieces_eq_splitOn (separator : Char) (cs : List Char) : pieces separator cs = cs.splitOn separator := by
  induction cs with
  | nil => rfl
  | cons c cs ih =>
    rw [pieces, ih, List.splitOn_cons_eq_if_modifyHead]
    by_cases here : c = separator
    · rw [if_pos here, if_pos (beq_iff_eq.2 here)]
    · rw [if_neg here, if_neg (by simpa using here)]
      obtain ⟨p, ps, split⟩ := List.exists_cons_of_ne_nil (List.splitOn_ne_nil separator cs)
      rw [split]
      rfl

theorem not_mem_of_mem_pieces {p : List Char} (mem : p ∈ pieces separator cs) : separator ∉ p := by
  induction cs generalizing p with
  | nil =>
    rw [pieces, List.mem_singleton] at mem
    rw [mem]
    exact List.not_mem_nil
  | cons c cs ih =>
    rw [pieces] at mem
    split at mem
    · rcases List.mem_cons.1 mem with rfl | mem
      · exact List.not_mem_nil
      · exact ih mem
    · next other =>
      obtain ⟨q, qs, split⟩ := List.exists_cons_of_ne_nil (pieces_ne_nil separator cs)
      rw [split] at mem ih
      rcases List.mem_cons.1 mem with rfl | mem
      · exact List.not_mem_cons_of_ne_of_not_mem (Ne.symm other) (ih List.mem_cons_self)
      · exact ih (List.mem_cons_of_mem q mem)

theorem separated_iff : Separated separator ps cs ↔ ps = pieces separator cs := by
  constructor
  · rintro ⟨filled, plain, rfl⟩
    rw [pieces_eq_splitOn, List.splitOn_intercalate separator plain filled]
  · rintro rfl
    refine ⟨pieces_ne_nil separator cs, fun p mem => not_mem_of_mem_pieces mem, ?_⟩
    rw [pieces_eq_splitOn, List.intercalate_splitOn]

theorem Around.refl (w : List Char) : Around w w := ⟨[], [], by simp, nofun, nofun⟩

theorem Around.trans (inner : Around u v) (outer : Around v w) : Around u w := by
  obtain ⟨before, after, rfl, opened, closed⟩ := inner
  obtain ⟨before', after', rfl, opened', closed'⟩ := outer
  exact ⟨before' ++ before, after ++ after', by simp, List.forall_mem_append.2 ⟨opened', opened⟩,
    List.forall_mem_append.2 ⟨closed, closed'⟩⟩

theorem Around.mem_of_solid (around : Around w cs) (solid : isBlank c = false) (mem : c ∈ cs) : c ∈ w := by
  obtain ⟨before, after, rfl, opened, closed⟩ := around
  rcases List.mem_append.1 mem with mem | mem
  · rcases List.mem_append.1 mem with mem | mem
    · rw [opened c mem] at solid
      cases solid
    · exact mem
  · rw [closed c mem] at solid
    cases solid

theorem plain_of_around (solid : isBlank separator = false) (around : List.Forall₂ Around ws ps)
    (plain : ∀ w ∈ ws, separator ∉ w) : ∀ p ∈ ps, separator ∉ p := by
  induction around with
  | nil => exact nofun
  | @cons w p ws ps first _ ih =>
    obtain ⟨plain, others⟩ := List.forall_mem_cons.1 plain
    exact List.forall_mem_cons.2 ⟨fun mem => plain (first.mem_of_solid solid mem), ih others⟩

theorem exists_intercalate_append (filled : ws ≠ []) (closed : ∀ c ∈ after, isBlank c = true) :
    ∃ vs, [separator].intercalate vs = [separator].intercalate ws ++ after ∧ List.Forall₂ Around ws vs := by
  induction ws with
  | nil => exact absurd rfl filled
  | cons w ws ih =>
    cases ws with
    | nil => exact ⟨[w ++ after], by simp, .cons ⟨[], after, rfl, nofun, closed⟩ .nil⟩
    | cons v ws =>
      obtain ⟨vs, joined, around⟩ := ih (List.cons_ne_nil v ws)
      have filled : vs ≠ [] := by
        rintro rfl
        cases around
      refine ⟨w :: vs, ?_, .cons (.refl w) around⟩
      rw [List.intercalate_cons_of_ne_nil filled, joined, List.intercalate_cons_cons, List.append_assoc _ _ after]

theorem exists_around (filled : ws ≠ []) (around : Around ([separator].intercalate ws) cs) :
    ∃ vs, [separator].intercalate vs = cs ∧ List.Forall₂ Around ws vs := by
  obtain ⟨before, after, rfl, opened, closed⟩ := around
  obtain ⟨vs, joined, within⟩ := exists_intercalate_append filled closed
  cases within with
  | nil => exact absurd rfl filled
  | @cons w v ws vs first rest =>
    refine ⟨(before ++ v) :: vs, ?_, .cons (first.trans ⟨before, [], by simp, opened, nofun⟩) rest⟩
    rw [List.append_assoc, ← joined]
    cases vs <;> simp

theorem pieces_of_around (solid : isBlank separator = false) (filled : ws ≠ []) (plain : ∀ w ∈ ws, separator ∉ w)
    (around : Around ([separator].intercalate ws) cs) : List.Forall₂ Around ws (pieces separator cs) := by
  obtain ⟨vs, joined, within⟩ := exists_around filled around
  suffices separated : Separated separator vs cs by rwa [← separated_iff.1 separated]
  refine ⟨?_, plain_of_around solid within plain, joined⟩
  rintro rfl
  exact filled (List.forall₂_nil_right_iff.1 within)

theorem pieces_around (solid : isBlank separator = false) (around : Around w cs) :
    List.Forall₂ Around (pieces separator w) (pieces separator cs) := by
  obtain ⟨filled, plain, joined⟩ : Separated separator (pieces separator w) w := separated_iff.2 rfl
  rw [← joined] at around
  exact pieces_of_around solid filled plain around

theorem tight_trim (cs : List Char) : Tight (trim cs) := by
  have stops (l : List Char) : ∀ c ∈ (l.dropWhile isBlank).head?, isBlank c = false := by
    intro c hc
    have stop := List.head?_dropWhile_not isBlank l
    rw [hc] at stop
    exact stop
  constructor
  · intro c hc
    -- a trimmed text that is not empty begins where the text without the blanks before it begins
    have start : trim cs <+: cs.dropWhile isBlank := by
      rw [trim, ← List.reverse_suffix, List.reverse_reverse]
      exact List.dropWhile_suffix _
    obtain ⟨rest, same⟩ := start
    apply stops cs c
    rw [← same, List.head?_append, hc]
    rfl
  · intro c hc
    rw [trim, List.getLast?_reverse] at hc
    exact stops _ c hc

theorem trim_congr (around : Around w cs) : trim cs = trim w :=
  trim_of_around ((around_trim w).trans around) (tight_trim w)

theorem trim_eq_nil_iff : trim cs = [] ↔ ∀ c ∈ cs, isBlank c = true := by
  constructor
  · intro empty
    obtain ⟨before, after, same, opened, closed⟩ := around_trim cs
    rw [same, empty, List.append_nil]
    exact List.forall_mem_append.2 ⟨opened, closed⟩
  · intro blank
    exact trim_of_around ⟨cs, [], by simp, blank, nofun⟩ ⟨nofun, nofun⟩

theorem trim_of_tight (tight : Tight w) : trim w = w := trim_of_around (.refl w) tight

theorem map_trim_of_around (around : List.Forall₂ Around ws ps) : ps.map trim = ws.map trim := by
  induction around with
  | nil => rfl
  | cons first _ ih => rw [List.map_cons, List.map_cons, trim_congr first, ih]

end Text

namespace Path

variable {p q : Path} {keys : List String} {raw : String}

structure IsKey (key : String) : Prop where
  filled : key ≠ ""
  plain : '.' ∉ key.toList
  tight : Text.Tight key.toList

def Spells (keys : List String) (raw : String) : Prop :=
  ∃ ws, List.Forall₂ Text.Around (keys.map String.toList) ws ∧ Text.Around (['.'].intercalate ws) raw.toList

def splitLast (keys : List String) : List String × String := (keys.dropLast, keys.getLast?.getD "")

@[simp] theorem splitLast_segments (p : Path) : splitLast p.segments = (p.parents, p.last) := by
  rw [splitLast, segments, List.dropLast_concat, List.getLast?_concat]
  rfl

theorem ofSegments?_eq_some_iff : ofSegments? keys = some p ↔ p.segments = keys := by
  constructor
  · exact segments_of_ofSegments?
  · rintro rfl
    exact ofSegments?_segments p

theorem exists_segments (filled : keys ≠ []) : ∃ p : Path, p.segments = keys :=
  ⟨⟨keys.dropLast, keys.getLast filled⟩, List.dropLast_concat_getLast filled⟩

theorem segments_injective (same : p.segments = q.segments) : p = q := by
  have read := ofSegments?_segments p
  rw [same, ofSegments?_segments] at read
  exact (Option.some.inj read).symm

theorem read?_eq_some_iff : read? raw = some p ↔
    (∀ piece ∈ Text.pieces '.' raw.toList, Text.trim piece ≠ []) ∧
      p.segments = ((Text.pieces '.' raw.toList).map Text.trim).map String.ofList := by
  have keys : (Text.pieces '.' raw.toList).map Text.trim = (Text.pieces '.' (Text.trim raw.toList)).map Text.trim :=
    Text.map_trim_of_around (Text.pieces_around (by decide) (Text.around_trim raw.toList))
  rw [read?, ← keys, ← ofSegments?_eq_some_iff]
  by_cases blank : ((Text.pieces '.' raw.toList).map Text.trim).any List.isEmpty = true
  · rw [if_pos blank]
    simp only [List.any_map, List.any_eq_true, Function.comp_apply, List.isEmpty_iff] at blank
    obtain ⟨piece, mem, empty⟩ := blank
    exact ⟨nofun, fun h => absurd empty (h.1 piece mem)⟩
  · rw [if_neg blank]
    simp only [List.any_map, List.any_eq_true, Function.comp_apply, List.isEmpty_iff, not_exists, not_and] at blank
    exact (and_iff_right blank).symm

theorem isSome_read? : (read? raw).isSome = true ↔
    ∀ piece ∈ Text.pieces '.' raw.toList, ∃ c ∈ piece, isBlank c = false := by
  have solid (piece : List Char) : Text.trim piece ≠ [] ↔ ∃ c ∈ piece, isBlank c = false := by
    rw [Ne, Text.trim_eq_nil_iff]
    simp
  simp only [Option.isSome_iff_exists, read?_eq_some_iff, exists_and_left, solid]
  apply and_iff_left
  apply exists_segments
  simp [Text.pieces_ne_nil]

theorem isKey_of_mem_pieces {piece : List Char} (mem : piece ∈ Text.pieces '.' raw.toList)
    (filled : Text.trim piece ≠ []) : IsKey (String.ofList (Text.trim piece)) where
  filled empty := filled (by simpa using empty)
  plain inside := by
    rw [String.toList_ofList] at inside
    obtain ⟨before, after, same, -, -⟩ := Text.around_trim piece
    apply Text.not_mem_of_mem_pieces mem
    rw [same]
    exact List.mem_append_left _ (List.mem_append_right _ inside)
  tight := by
    rw [String.toList_ofList]
    exact Text.tight_trim piece

theorem isKey_of_read? (read : read? raw = some p) : ∀ key ∈ p.segments, IsKey key := by
  obtain ⟨filled, segments⟩ := read?_eq_some_iff.1 read
  rw [segments, List.map_map]
  intro key mem
  obtain ⟨piece, inside, rfl⟩ := List.mem_map.1 mem
  exact isKey_of_mem_pieces inside (filled piece inside)

theorem read?_of_spells (filled : keys ≠ []) (named : ∀ key ∈ keys, IsKey key) (spells : Spells keys raw) :
    ∃ p, read? raw = some p ∧ p.segments = keys := by
  obtain ⟨ws, each, whole⟩ := spells
  have pieced : ws ≠ [] := by
    rintro rfl
    exact filled (List.map_eq_nil_iff.1 (List.forall₂_nil_right_iff.1 each))
  have plain : ∀ w ∈ keys.map String.toList, '.' ∉ w := by
    intro w mem
    obtain ⟨key, inside, rfl⟩ := List.mem_map.1 mem
    exact (named key inside).plain
  have outer := Text.pieces_of_around (by decide) pieced (Text.plain_of_around (by decide) each plain) whole
  have trimmed : (Text.pieces '.' raw.toList).map Text.trim = keys.map String.toList := by
    rw [Text.map_trim_of_around outer, Text.map_trim_of_around each, List.map_map]
    apply List.map_congr_left
    intro key mem
    exact Text.trim_of_tight (named key mem).tight
  obtain ⟨p, segments⟩ := exists_segments filled
  refine ⟨p, read?_eq_some_iff.2 ⟨?_, ?_⟩, segments⟩
  · intro piece mem empty
    have among : Text.trim piece ∈ keys.map String.toList := trimmed ▸ List.mem_map_of_mem mem
    rw [empty] at among
    obtain ⟨key, inside, blank⟩ := List.mem_map.1 among
    exact (named key inside).filled (String.toList_eq_nil_iff.1 blank)
  · rw [segments, trimmed, List.map_map]
    simp

theorem spells_text (p : Path) : Spells p.segments p.text := by
  refine ⟨p.segments.map String.toList, List.forall₂_same.2 fun w _ => .refl w, ?_⟩
  rw [text, String.toList_intercalate]
  exact .refl _

theorem read?_text (read : read? raw = some p) : read? p.text = some p := by
  have filled : p.segments ≠ [] := by simp [segments]
  obtain ⟨q, read', same⟩ := read?_of_spells filled (isKey_of_read? read) (spells_text p)
  rw [read', segments_injective same]

theorem parse_eq_error_iff : parse raw = .error (.invalidPath raw) ↔ read? raw = none := by
  rw [parse]
  cases read? raw <;> simp

/-- A text stands for a path if and only if none of the pieces between its points is blank; if one is, it is told as it
stands. The keys of the path are keys, the path is read from its own text, and its last key stands apart from those
before it. Keys that are written with points between them, and with blanks around each and around the whole, are read
back. -/
theorem parse_dotted (raw : String) :
    (∃ pieces, (∀ ps, Text.Separated '.' ps raw.toList ↔ ps = pieces) ∧
      ((∃ p, parse raw = .ok p) ↔ ∀ piece ∈ pieces, ∃ c ∈ piece, isBlank c = false) ∧
      (parse raw = .error (.invalidPath raw) ↔ ∃ piece ∈ pieces, ∀ c ∈ piece, isBlank c = true)) ∧
    (∀ p, parse raw = .ok p →
      (∀ key ∈ p.segments, IsKey key) ∧ parse p.text = .ok p ∧
        splitLast p.segments = (p.parents, p.last) ∧ p.parents ++ [p.last] = p.segments) ∧
    ∀ keys, keys ≠ [] → (∀ key ∈ keys, IsKey key) → Spells keys raw → ∃ p, parse raw = .ok p ∧ p.segments = keys := by
  refine ⟨⟨Text.pieces '.' raw.toList, fun ps => Text.separated_iff, ?_, ?_⟩, ?_, ?_⟩
  · rw [← isSome_read?, Option.isSome_iff_exists]
    simp only [parse_eq_ok_iff]
  · rw [parse_eq_error_iff, ← Option.not_isSome_iff_eq_none, isSome_read?]
    simp
  · intro p parsed
    have read := parse_eq_ok_iff.1 parsed
    exact ⟨isKey_of_read? read, parse_eq_ok_iff.2 (read?_text read), splitLast_segments p, rfl⟩
  · intro keys filled named spells
    obtain ⟨p, read, segments⟩ := read?_of_spells filled named spells
    exact ⟨p, parse_eq_ok_iff.2 read, segments⟩

example : read? " user .\tfull name\n" = some ⟨["user"], "full name"⟩ := by decide +kernel

end Path

end DataBinding
