import DataBinding.Path

namespace DataBinding

inductive NodeChange where
  | setAttribute
  | setValue
  | setText
  deriving DecidableEq

def NodeChange.name : NodeChange → String
  | .setAttribute => "set_attribute"
  | .setValue => "set_value"
  | .setText => "set_text_content"

inductive Misplacement where
  | childlessParent
  | documentAsChild
  | ownAncestor
  deriving DecidableEq

def Misplacement.reason : Misplacement → String
  | .childlessParent => "parent cannot have children"
  | .documentAsChild => "a document cannot be a child"
  | .ownAncestor => "a node cannot contain its own ancestor"

inductive MarkupFault where
  | openComment
  | openTag (tag : String)
  | openValue
  | openClosingTag
  | unmatchedClosingTag (tag : String)
  deriving DecidableEq

def MarkupFault.reason : MarkupFault → String
  | .openComment => "unterminated comment"
  | .openTag tag => "unterminated start tag `" ++ tag ++ "`"
  | .openValue => "unterminated attribute value"
  | .openClosingTag => "expected `>`"
  | .unmatchedClosingTag tag => "unexpected closing tag `" ++ tag ++ "`"

inductive DocumentError where
  | notElement (change : NodeChange)
  | notText (change : NodeChange)
  | misplaced (why : Misplacement)
  | malformed (offset : Nat) (fault : MarkupFault)
  | invalidSelector (text : String)
  deriving DecidableEq

def DocumentError.message : DocumentError → String
  | .notElement change => "`" ++ change.name ++ "` requires an element node"
  | .notText change => "`" ++ change.name ++ "` requires a text node"
  | .misplaced why => "node cannot be inserted here: " ++ why.reason
  | .malformed offset fault => "markup parse error at byte " ++ offset.repr ++ ": " ++ fault.reason
  | .invalidSelector text => "invalid selector `" ++ text ++ "`"

inductive Error where
  | invalidPath (raw : String)
  | pathNotFound (path : Path)
  | unknownMethod (name source : String)
  | unknownPath (path : Path) (source : String)
  | failedSubscribers (key : String) (failures : List Error)
  | failedListener (event cause : String)
  | document (error : DocumentError)
  | configuration

def Error.message : Error → String
  | .invalidPath raw => "invalid expression path `" ++ raw ++ "`"
  | .pathNotFound path => "path `" ++ path.text ++ "` does not resolve to a reactive object"
  | .unknownMethod name source => "unknown method `" ++ name ++ "` referenced by `" ++ source ++ "`"
  | .unknownPath path source => "unknown data path `" ++ path.text ++ "` referenced by `" ++ source ++ "`"
  | .failedSubscribers key failures =>
    failures.length.repr ++ " subscriber(s) failed after `" ++ key ++ "` changed"
  | .failedListener event cause => "listener for `" ++ event ++ "` failed: " ++ cause
  | .document error => error.message
  | .configuration => "invalid configuration"

def Path.parse (raw : String) : Except Error Path :=
  match Path.read? raw with
  | some path => .ok path
  | none => .error (.invalidPath raw)

theorem Path.parse_eq_ok_iff {raw : String} {path : Path} :
    Path.parse raw = .ok path ↔ Path.read? raw = some path := by
  unfold Path.parse
  split <;> simp_all

end DataBinding
