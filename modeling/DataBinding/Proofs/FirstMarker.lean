import DataBinding.Proofs.ByteCursor
import DataBinding.Template.Interpolation

namespace DataBinding

open Text (cut?)

variable {before after expression rest body b x a cs : List Char} {c : Char} {text : String}

structure Marker (before expression after cs : List Char) : Prop where
  filled : expression ≠ []
  whole : cs = before ++ openBraces ++ expression ++ closeBraces ++ after

structure FirstMarker (before expression after cs : List Char) : Prop extends Marker before expression after cs where
  leftmost : ∀ b x a, Marker b x a cs → before.length ≤ b.length
  shortest : ∀ x a, Marker before x a cs → expression.length ≤ x.length

theorem Marker.isPrefix (marker : Marker b x a cs) : b ++ openBraces ++ x <+: cs :=
  ⟨closeBraces ++ a, by rw [marker.whole, List.append_assoc _ closeBraces]⟩

theorem FirstMarker.unique (first : FirstMarker before expression after cs) (other : FirstMarker b x a cs) :
    x = expression := by
  have begins {b x a : List Char} (marker : Marker b x a cs) : b <+: cs :=
    ((List.prefix_append _ _).trans (List.prefix_append _ _)).trans marker.isPrefix
  obtain rfl : b = before :=
    (List.prefix_of_prefix_length_le (begins other.toMarker) (begins first.toMarker)
      (other.leftmost _ _ _ first.toMarker)).eq_of_length_le (first.leftmost _ _ _ other.toMarker)
  have shorter := other.shortest _ _ first.toMarker
  have longer := first.shortest _ _ other.toMarker
  have same : b ++ openBraces ++ x = b ++ openBraces ++ expression := by
    apply (List.prefix_of_prefix_length_le other.isPrefix first.isPrefix _).eq_of_length_le
    all_goals simpa
  exact List.append_cancel_left same

/-- A marker that begins behind the first opening braces is the end of one that begins there. -/
theorem Marker.moved (marker : Marker b x a cs) (opened : cut? openBraces cs = some (before, rest)) :
    ∃ y, y ≠ [] ∧ rest = y ++ closeBraces ++ a := by
  obtain ⟨same, least⟩ := (Markup.cut?_eq_some_iff (by decide)).1 opened
  have whole := marker.whole
  simp only [List.append_assoc] at same whole
  obtain ⟨skipped, rfl⟩ : before <+: b := by
    apply List.prefix_of_prefix_length_le ⟨_, same.symm⟩ ⟨_, whole.symm⟩
    exact least b (x ++ closeBraces ++ a) (by simpa using whole)
  have parts : openBraces ++ rest = (skipped ++ openBraces ++ x) ++ (closeBraces ++ a) := by
    rw [same, List.append_assoc, List.append_cancel_left_eq] at whole
    simpa using whole
  have size : openBraces.length < (skipped ++ openBraces ++ x).length := by
    have := List.length_pos_iff.2 marker.filled
    simp only [List.length_append]
    omega
  -- what is skipped and the later braces belong to the longer expression
  rcases List.append_eq_append_iff.1 parts with ⟨y, longer, rfl⟩ | ⟨y, shorter, -⟩
  · refine ⟨y, ?_, (List.append_assoc y closeBraces a).symm⟩
    rintro rfl
    rw [longer, List.append_nil] at size
    exact absurd size (Nat.lt_irrefl _)
  · have := congrArg List.length shorter
    rw [List.length_append] at this
    omega

theorem firstMarker_of_cut (opened : cut? openBraces cs = some (before, c :: body))
    (closed : cut? closeBraces body = some (expression, after)) : FirstMarker before (c :: expression) after cs := by
  obtain ⟨same, least⟩ := (Markup.cut?_eq_some_iff (by decide)).1 opened
  obtain ⟨inner, least'⟩ := (Markup.cut?_eq_some_iff (by decide)).1 closed
  refine ⟨⟨List.cons_ne_nil _ _, by simpa [inner] using same⟩, ?_, ?_⟩
  · intro b x a marker
    exact least b (x ++ closeBraces ++ a) (by simpa using marker.whole)
  · intro x a marker
    have inside : c :: body = x ++ closeBraces ++ a := by
      have whole := marker.whole
      rw [same] at whole
      simpa using whole
    obtain ⟨d, x, rfl⟩ := List.exists_cons_of_ne_nil marker.filled
    exact Nat.succ_le_succ (least' x a (List.cons.inj inside).2)

theorem firstExpression_of_marker (marker : Marker b x a text.toList) :
    ∃ before expression after, FirstMarker before expression after text.toList ∧
      firstExpression text = some (String.ofList (Text.trim expression)) := by
  cases opened : cut? openBraces text.toList with
  | none =>
    have absent := (Markup.cut?_eq_none_iff (by decide)).1 opened b (x ++ closeBraces ++ a)
    exact absurd (by simpa using marker.whole) absent
  | some found =>
    obtain ⟨before, rest⟩ := found
    obtain ⟨y, filled, rfl⟩ := marker.moved opened
    obtain ⟨c, y, rfl⟩ := List.exists_cons_of_ne_nil filled
    cases closed : cut? closeBraces (y ++ closeBraces ++ a) with
    | none => exact absurd rfl ((Markup.cut?_eq_none_iff (by decide)).1 closed y a)
    | some found =>
      obtain ⟨expression, after⟩ := found
      refine ⟨before, c :: expression, after, firstMarker_of_cut opened closed, ?_⟩
      rw [firstExpression, opened]
      simp only [List.cons_append, closed, Option.map_some]

theorem firstExpression_eq_some_iff {e : String} : firstExpression text = some e ↔
    ∃ before expression after, FirstMarker before expression after text.toList ∧
      e = String.ofList (Text.trim expression) := by
  constructor
  · intro found
    rw [firstExpression] at found
    split at found
    · next before c body opened =>
      obtain ⟨⟨expression, after⟩, closed, rfl⟩ := Option.map_eq_some_iff.1 found
      exact ⟨before, c :: expression, after, firstMarker_of_cut opened closed, rfl⟩
    · cases found
  · rintro ⟨before, expression, after, first, rfl⟩
    obtain ⟨_, expression', _, first', found⟩ := firstExpression_of_marker first.toMarker
    rw [found, first.unique first']

theorem firstExpression_eq_none_iff : firstExpression text = none ↔
    ∀ before expression after, ¬ Marker before expression after text.toList := by
  rw [Option.eq_none_iff_forall_ne_some]
  constructor
  · intro absent before expression after marker
    obtain ⟨_, _, _, -, found⟩ := firstExpression_of_marker marker
    exact absent _ found
  · intro unmarked e found
    obtain ⟨before, expression, after, first, -⟩ := firstExpression_eq_some_iff.1 found
    exact unmarked before expression after first.toMarker

example : firstExpression (String.ofList (openBraces ++ ['{', 'é'] ++ closeBraces ++ ['}'])) =
    some (String.ofList ['{', 'é']) := by decide +kernel

/-- Takes the expression out of the text behind opening braces, which is sliced at bytes. A slice that begins or ends
inside of a character, or beyond the end, is a crash. -/
def sliceBody : List Char → Except Markup.Halt (Option (List Char))
  | [] => return none
  | c :: body => do
    let rest ← Markup.restAt (c :: body) c.utf8Size
    match Markup.find? closeBraces rest with
    | none => return none
    | some count => return some (Text.trim (← Markup.upTo (c :: body) (count + c.utf8Size)))

def sliceExpression (cs : List Char) : Except Markup.Halt (Option (List Char)) :=
  match Markup.find? openBraces cs with
  | none => return none
  | some start => do sliceBody (← Markup.restAt cs (start + Markup.byteCount openBraces))

@[simp] theorem restAt_append (before rest : List Char) :
    Markup.restAt (before ++ rest) (Markup.byteCount before) = .ok rest := by
  simp [Markup.restAt]

theorem sliceBody_cons (c : Char) (body : List Char) :
    sliceBody (c :: body) = .ok ((cut? closeBraces body).map fun (expression, _) => Text.trim (c :: expression)) := by
  have skipped : Markup.restAt (c :: body) c.utf8Size = .ok body := restAt_append [c] body
  rw [sliceBody, skipped]
  cases closed : cut? closeBraces body with
  | none =>
    simp only [bind, Except.bind, Markup.find?_eq_none closed]
    rfl
  | some found =>
    obtain ⟨expression, after⟩ := found
    have taken := Markup.upTo_append (c :: expression) (closeBraces ++ after)
    rw [Markup.byteCount, Nat.add_comm, List.cons_append, ← List.append_assoc, ← Text.eq_of_cut? closed] at taken
    simp only [bind, Except.bind, Markup.find?_eq_some closed, taken]
    rfl

theorem sliceExpression_eq (text : String) :
    sliceExpression text.toList = .ok ((firstExpression text).map String.toList) := by
  rw [sliceExpression, firstExpression]
  cases opened : cut? openBraces text.toList with
  | none =>
    rw [Markup.find?_eq_none opened]
    rfl
  | some found =>
    obtain ⟨before, rest⟩ := found
    have skipped := restAt_append (before ++ openBraces) rest
    rw [← Text.eq_of_cut? opened, Markup.byteCount_append] at skipped
    simp only [bind, Except.bind, Markup.find?_eq_some opened, skipped]
    cases rest with
    | nil => rfl
    | cons c body =>
      rw [sliceBody_cons]
      simp [Function.comp_def]

/-- The expression of a text is that of its first marker, without the blanks around it: no marker begins earlier, and
none that begins there ends earlier. There is an expression if and only if there is a marker. The text is only sliced
where a character begins or it ends. -/
theorem firstExpression_first (text : String) :
    (firstExpression text = none ↔ ∀ before expression after, ¬ Marker before expression after text.toList) ∧
      (∀ e, firstExpression text = some e ↔
        ∃ before expression after, FirstMarker before expression after text.toList ∧
          e = String.ofList (Text.trim expression)) ∧
      sliceExpression text.toList = .ok ((firstExpression text).map String.toList) :=
  ⟨firstExpression_eq_none_iff, fun _ => firstExpression_eq_some_iff, sliceExpression_eq text⟩

end DataBinding
