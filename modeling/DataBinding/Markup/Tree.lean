import DataBinding.Fields
import DataBinding.Text.Search

namespace DataBinding.Markup

inductive Tree where
  | element (tag : String) (attributes : Fields String) (children : List Tree)
  | text (content : String)

def voidTags : List String := ["area", "br", "hr", "img", "input", "link", "meta"]

def isVoid (tag : String) : Bool := tag ∈ voidTags

def escapeChar (inValue : Bool) (c : Char) : List Char :=
  if c = '&' then ['&', 'a', 'm', 'p', ';']
  else if c = '<' then ['&', 'l', 't', ';']
  else if c = '>' then ['&', 'g', 't', ';']
  else if c = '"' ∧ inValue then ['&', 'q', 'u', 'o', 't', ';']
  else [c]

def escape (inValue : Bool) (cs : List Char) : List Char := cs.flatMap (escapeChar inValue)

/-- Replaces the entities that have a name here; any other `&` stands for itself. -/
def unescape : List Char → List Char
  | '&' :: 'a' :: 'm' :: 'p' :: ';' :: cs => '&' :: unescape cs
  | '&' :: 'l' :: 't' :: ';' :: cs => '<' :: unescape cs
  | '&' :: 'g' :: 't' :: ';' :: cs => '>' :: unescape cs
  | '&' :: 'q' :: 'u' :: 'o' :: 't' :: ';' :: cs => '"' :: unescape cs
  | '&' :: '#' :: '3' :: '9' :: ';' :: cs => '\'' :: unescape cs
  | '&' :: 'a' :: 'p' :: 'o' :: 's' :: ';' :: cs => '\'' :: unescape cs
  | '&' :: 'n' :: 'b' :: 's' :: 'p' :: ';' :: cs => '\u00a0' :: unescape cs
  | c :: cs => c :: unescape cs
  | [] => []

def renderAttribute : String × String → List Char
  | (name, value) =>
    ' ' :: name.toList ++ if value.isEmpty then [] else '=' :: '"' :: escape true value.toList ++ ['"']

def renderStart (tag : String) (attributes : Fields String) : List Char :=
  '<' :: tag.toList ++ attributes.flatMap renderAttribute ++ ['>']

mutual

def Tree.render : Tree → List Char
  | .text content => escape false content.toList
  | .element tag attributes children =>
    renderStart tag attributes ++
      if isVoid tag then [] else renderAll children ++ '<' :: '/' :: tag.toList ++ ['>']

def renderAll : List Tree → List Char
  | [] => []
  | tree :: rest => tree.render ++ renderAll rest

end

mutual

def Tree.content : Tree → List Char
  | .text content => content.toList
  | .element _ _ children => contentAll children

def contentAll : List Tree → List Char
  | [] => []
  | tree :: rest => tree.content ++ contentAll rest

end

end DataBinding.Markup
