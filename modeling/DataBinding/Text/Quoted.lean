import DataBinding.Text.Extending
import DataBinding.Text.Ignorable
import DataBinding.Text.Unprinted

namespace DataBinding.Text

/-- The halfwidth voicing marks extend the character before them but take a place of their own. -/
def isVoicingMark (c : Char) : Bool := c = '\uff9e' || c = '\uff9f'

def isUnseen (c : Char) : Bool :=
  isExtending c && !isVoicingMark c || isIgnorable c || isUnprinted c

def quotedChar (c : Char) : List Char :=
  if c = '"' then ['\\', '"']
  else if c = '\\' then ['\\', '\\']
  else if c = '\n' then ['\\', 'n']
  else if c = '\r' then ['\\', 'r']
  else if c = '\t' then ['\\', 't']
  else if c = '\x00' then ['\\', '0']
  else if isUnseen c then ['\\', 'u', '{'] ++ Nat.toDigits 16 c.toNat ++ ['}']
  else [c]

def quote (s : String) : String := String.ofList ('"' :: s.toList.flatMap quotedChar ++ ['"'])

end DataBinding.Text
