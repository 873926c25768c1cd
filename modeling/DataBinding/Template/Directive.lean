import DataBinding.Text.Search

namespace DataBinding

/-- What an attribute name asks for; a name that lacks its argument asks for nothing that can be done. -/
inductive Directive where
  | on (event : String)
  | bind (name : String)
  | model
  | malformed
  deriving DecidableEq

namespace Directive

def eventMarks (legacy : Bool) : List String := ["on:", "@"] ++ if legacy then ["v-on:"] else []

def bindMarks (legacy : Bool) : List String := ["bind:", ":"] ++ if legacy then ["v-bind:"] else []

def modelNames (legacy : Bool) : List String := ["model"] ++ if legacy then ["v-model"] else []

def argument? (name : String) (marks : List String) : Option String :=
  (marks.findSome? fun mark => Text.after? mark.toList name.toList).map String.ofList

def ofName? (legacy : Bool) (name : String) : Option Directive :=
  if name ∈ modelNames legacy then some .model
  else match argument? name (eventMarks legacy) with
    | some event => some (if event.isEmpty then .malformed else .on event)
    | none => match argument? name (bindMarks legacy) with
      | some a => some (if a.isEmpty then .malformed else .bind a)
      | none => none

end Directive

end DataBinding
