import DataBinding.Double.Shortest
import DataBinding.Fields

/-!
JSON documents. The members of an object are in ascending order of their keys, each key once.
-/

namespace DataBinding

inductive Json where
  | null
  | bool (b : Bool)
  | integer (i : Int)
  | real (x : Double)
  | string (s : String)
  | array (items : List Json)
  | object (fields : List (String × Json))
  deriving Inhabited

namespace Json

/-- A double as a JSON number: an integer where it is one below `2 ^ 53`, nothing where it is not finite. -/
def ofDouble (x : Double) : Json :=
  match x.safeInt? with
  | some i => .integer i
  | none => if x.isFinite then .real x else .null

def field? (key : String) : Json → Option Json
  | .object fields => Fields.get? key fields
  | _ => none

end Json

end DataBinding
