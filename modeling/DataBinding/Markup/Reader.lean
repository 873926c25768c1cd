import DataBinding.Markup.Token

/-!
Reading markup. A start tag opens an element inside the innermost open one; a closing tag closes the innermost
open element of its name and everything opened after it; the end closes the rest.
-/

namespace DataBinding.Markup

/-- An open element and what stands before it in its parent, the latest first. -/
structure Opened where
  tag : String
  attributes : Fields String
  before : List Tree

/-- What has been read: the open elements, the innermost first, and the children of the innermost, the latest
first. -/
structure Nesting where
  opened : List Opened
  children : List Tree

namespace Nesting

def empty : Nesting := ⟨[], []⟩

def add (n : Nesting) (tree : Tree) : Nesting := { n with children := tree :: n.children }

def enter (n : Nesting) (tag : String) (attributes : Fields String) : Nesting :=
  ⟨⟨tag, attributes, n.children⟩ :: n.opened, []⟩

def leave? (tag : String) : List Opened → List Tree → Option Nesting
  | [], _ => none
  | o :: opened, children =>
    let parent := .element o.tag o.attributes children.reverse :: o.before
    if o.tag = tag then some ⟨opened, parent⟩ else leave? tag opened parent

def finish : List Opened → List Tree → List Tree
  | [], children => children.reverse
  | o :: opened, children => finish opened (.element o.tag o.attributes children.reverse :: o.before)

def take (n : Nesting) : Token → Except Stop Nesting
  | .comment => .ok n
  | .text content => .ok (n.add (.text content))
  | .start tag attributes closed =>
    .ok (if closed then n.add (.element tag attributes []) else n.enter tag attributes)
  | .close tag rest => match leave? tag n.opened n.children with
    | some n => .ok n
    | none => .error ⟨rest, .unmatchedClosingTag tag⟩

end Nesting

def ofTokens (n : Nesting) : List Token → Except Stop Nesting
  | [] => .ok n
  | token :: rest => match n.take token with
    | .ok n => ofTokens n rest
    | .error stop => .error stop

def byteCount : List Char → Nat
  | [] => 0
  | c :: cs => c.utf8Size + byteCount cs

/-- Reads a text of markup. The fault that comes first in the text is reported, at its byte. -/
def read (text : String) : Except DocumentError (List Tree) :=
  let cs := text.toList
  let (tokens, stop) := tokens cs
  let stopped (stop : Stop) := DocumentError.malformed (byteCount cs - byteCount stop.rest) stop.fault
  match ofTokens .empty tokens, stop with
  | .error stop, _ => .error (stopped stop)
  | .ok _, some stop => .error (stopped stop)
  | .ok n, none => .ok (Nesting.finish n.opened n.children)

def isStable (text : String) : Bool :=
  match read text with
  | .ok trees => String.ofList (renderAll trees) = text
  | .error _ => false

end DataBinding.Markup
