import DataBinding.Text.Blank
import DataBinding.Text.Search

namespace DataBinding

def openBraces : List Char := ['{', '{']

def closeBraces : List Char := ['}', '}']

/-- The expression of the first marker, without the blanks around it. It has at least one character, so
`closeBraces` is looked for from the second character on. -/
def firstExpression (text : String) : Option String :=
  match Text.cut? openBraces text.toList with
  | some (_, c :: body) =>
    (Text.cut? closeBraces body).map fun (expression, _) => String.ofList (Text.trim (c :: expression))
  | _ => none

def interpolationSource (expression : String) : String := "\x7b\x7b " ++ expression ++ " \x7d\x7d"

end DataBinding
