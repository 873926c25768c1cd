import DataBinding.Error

namespace DataBinding

inductive Diagnostic where
  | rootNotFound (selector : String)
  | missingMethod (directive method : String)
  | missingPath (source : String) (path : Path)
  | invalidExpression (source expression : String)
  | missingArgument (directive : String)
  | missingValue (directive : String)
  deriving DecidableEq

namespace Diagnostic

def kind : Diagnostic → String
  | .rootNotFound _ => "RootNotFound"
  | .missingMethod _ _ => "MissingMethod"
  | .missingPath _ _ => "MissingPath"
  | .invalidExpression _ _ => "InvalidExpression"
  | .missingArgument _ | .missingValue _ => "MalformedDirective"

def source : Diagnostic → Option String
  | .rootNotFound _ => none
  | .missingMethod d _ | .missingArgument d | .missingValue d => some d
  | .missingPath s _ | .invalidExpression s _ => some s

def message : Diagnostic → String
  | .rootNotFound selector => "selector `" ++ selector ++ "` did not match any node"
  | .missingMethod _ method => "no method `" ++ method ++ "`; no listener attached"
  | .missingPath _ path => "no data at `" ++ path.text ++ "`; rendering as empty"
  | .invalidExpression _ expression => (Error.invalidPath expression).message
  | .missingArgument d => "directive `" ++ d ++ "` is missing its argument"
  | .missingValue d => "directive `" ++ d ++ "` has no value"

def display (d : Diagnostic) : String :=
  match d.source with
  | some s => d.kind ++ " at `" ++ s ++ "`: " ++ d.message
  | none => d.kind ++ ": " ++ d.message

end Diagnostic

end DataBinding
