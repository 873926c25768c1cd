import DataBinding.Error
import DataBinding.Fields

namespace DataBinding

structure Selector where
  tag : Option String := none
  id : Option String := none
  classes : List String := []
  deriving DecidableEq

namespace Selector

def isMarker (c : Char) : Bool := c = '#' || c = '.'

def chunks : List Char → List Char × List (Char × List Char)
  | [] => ([], [])
  | c :: cs =>
    if isMarker c then ([], (c, (chunks cs).1) :: (chunks cs).2) else (c :: (chunks cs).1, (chunks cs).2)

def add? (s : Selector) : Char × List Char → Option Selector
  | (marker, name) =>
    if name.isEmpty then none
    else if marker = '.' then some { s with classes := s.classes ++ [String.ofList name] }
    else if s.id.isNone then some { s with id := some (String.ofList name) }
    else none

def addAll? (s : Selector) : List (Char × List Char) → Option Selector
  | [] => some s
  | part :: parts => (s.add? part).bind fun s => addAll? s parts

def read? (text : String) : Option Selector :=
  let cs := Text.trim text.toList
  if cs.isEmpty || cs.any isBlank then none
  else
    let (tag, parts) := chunks cs
    addAll? { tag := if tag.isEmpty then none else some (String.ofList (Text.lower tag)) } parts

def parse (text : String) : Except DocumentError Selector :=
  match read? text with
  | some s => .ok s
  | none => .error (.invalidSelector (trimmed text))

theorem parse_eq_ok_iff {text : String} {s : Selector} : parse text = .ok s ↔ read? text = some s := by
  rw [parse]
  cases read? text <;> simp

theorem parse_eq_error_iff {text : String} {err : DocumentError} :
    parse text = .error err ↔ read? text = none ∧ err = .invalidSelector (trimmed text) := by
  rw [parse]
  cases read? text <;> simp [eq_comm]

def wordsOf (value : Option String) : List String :=
  (Text.words (value.getD "").toList).map String.ofList

def accepts (s : Selector) (tag : String) (attributes : Fields String) : Bool :=
  s.tag.all (fun t => lowerCase t = lowerCase tag) &&
    s.id.all (fun i => attributes.get? "id" = some i) &&
    s.classes.all fun c => (wordsOf (attributes.get? "class")).contains c

end Selector

end DataBinding
